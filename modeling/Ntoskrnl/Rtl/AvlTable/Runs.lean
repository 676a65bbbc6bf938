/-
# Ntoskrnl.Rtl.AvlTable.Runs -- every sequence of calls

A run starts with a fresh table; callers insert, delete and enumerate in any order, and
allocations may fail.  What the table should hold is read off the calls alone: the
element stored for a key is the one inserted last and not deleted since.

The table is the balanced tree of these elements, and its answers are those of a finite
map, as long as it holds fewer than `2 ^ 32` elements: the count is a `ULONG`, and a
table whose count is zero passes for empty.  The source asserts as much before it
allocates.  `count_wraps` and `lookup_misses` are what happens beyond.
-/
import Ntoskrnl.Rtl.AvlTable.Calls

namespace Ntoskrnl.Rtl.AvlTable

set_option autoImplicit false

open Base Lib.LinkedTree Lib.SplayTree Lib.Avl List

variable {ε : Type}

/-! ## What a table should hold -/

/-- A call that may change a table; an insertion with the address its allocation would return. -/
inductive Event (ε : Type) where
  | insert (buffer : ε) (allocated : Addr)
  | delete (buffer : ε)
  | enumerate (restart : Bool)

section Stored

variable (cmp : ε → ε → Ordering)

/-- The element inserted last for a key and not deleted since; the last call comes first. -/
def stored : List (Event ε) → ε → Option (Addr × ε)
  | [], _ => none
  | .insert buffer allocated :: past, key =>
    if (allocated ≠ null ∧ stored past buffer = none) ∧ cmp key buffer = .eq then
      some (allocated, buffer)
    else stored past key
  | .delete buffer :: past, key =>
    if cmp key buffer = .eq then none else stored past key
  | .enumerate _ :: past, key => stored past key

/-- How many elements are stored. -/
def size : List (Event ε) → Nat
  | [] => 0
  | .insert buffer allocated :: past =>
    if allocated ≠ null ∧ stored cmp past buffer = none then size past + 1
    else size past
  | .delete buffer :: past =>
    if stored cmp past buffer = none then size past else size past - 1
  | .enumerate _ :: past => size past

variable (table : Table ε) (history : List (Event ε))

/-- The address is that of the table or of an element. -/
def InUse (n : Addr) : Prop :=
  n = table.balancedRoot ∨ ∃ key data, stored cmp history key = some (n, data)

/-- The allocation fails or returns memory that is not in use. -/
def Allocates (allocated : Addr) : Prop :=
  allocated = null ∨ ¬ InUse cmp table history allocated

def SameNode (nodes nodes' : Skeleton Addr) (userData userData' : Addr → ε) (n : Addr) : Prop :=
  SameAt nodes.links nodes'.links n ∧ nodes'.balance n = nodes.balance n ∧
    userData' n = userData n

/-- A change of a table: the calls that insert and delete.  In between the memory changes as it
likes, apart from the table and its elements; `allowed` restricts the insertions. -/
inductive Step (allowed : List (Event ε) → ε → Addr → Prop) :
    Table ε → List (Event ε) → Table ε → List (Event ε) → Prop where
  | elsewhere {table : Table ε} {history : List (Event ε)} (nodes : Skeleton Addr)
      (userData : Addr → ε)
      (same : ∀ n, InUse cmp table history n →
        SameNode table.nodes nodes table.userData userData n) :
      Step allowed table history { table with nodes, userData } history
  | insert {table : Table ε} {history : List (Event ε)} (buffer : ε) (allocated : Addr)
      (fuel : Nat) (answer : Insertion ε)
      (allocates : Allocates cmp table history allocated)
      (admitted : allowed history buffer allocated)
      (enough : size cmp history + 1 ≤ fuel)
      (call : insertElementGenericTableAvl cmp fuel table buffer allocated = some answer) :
      Step allowed table history answer.table (.insert buffer allocated :: history)
  | insertFull {table : Table ε} {history : List (Event ε)} (key buffer : ε)
      (allocated element : Addr) (result : TableSearchResult) (fuel : Nat) (answer : Insertion ε)
      (same : cmp key buffer = .eq)
      (allocates : Allocates cmp table history allocated)
      (admitted : allowed history buffer allocated)
      (enough : size cmp history + 1 ≤ fuel)
      (lookup : lookupElementGenericTableFullAvl cmp fuel table key = some (element, result))
      (call : insertElementGenericTableFullAvl fuel table buffer allocated result = some answer) :
      Step allowed table history answer.table (.insert buffer allocated :: history)
  | delete {table table' : Table ε} {history : List (Event ε)} (buffer : ε) (fuel : Nat)
      (present : Bool) (enough : size cmp history + 1 ≤ fuel)
      (call : deleteElementGenericTableAvl cmp fuel table buffer = some (table', present)) :
      Step allowed table history table' (.delete buffer :: history)

/-- The tables callers reach, with the calls made so far. -/
inductive Run (allowed : List (Event ε) → ε → Addr → Prop) : Table ε → List (Event ε) → Prop
  where
  | start (nodes : Skeleton Addr) (userData : Addr → ε) (root : Addr) (present : root ≠ null) :
      Run allowed (initializeGenericTableAvl nodes userData root) []
  | step {table table' : Table ε} {history history' : List (Event ε)}
      (run : Run allowed table history)
      (change : Step cmp allowed table history table' history') :
      Run allowed table' history'
  | enumerate {table table' : Table ε} {history : List (Event ε)}
      (run : Run allowed table history) (restart : Bool) (fuel : Nat) (element : Addr)
      (enough : size cmp history + 1 ≤ fuel)
      (call : enumerateGenericTableAvl fuel table restart = some (table', element)) :
      Run allowed table' (.enumerate restart :: history)

/-- With the insertion the table holds fewer than `2 ^ 32` elements. -/
def Roomy (buffer : ε) (allocated : Addr) : Prop :=
  size cmp (.insert buffer allocated :: history) < 2 ^ 32

end Stored

/-! ## What a run keeps -/

variable {cmp : ε → ε → Ordering} {table table' : Table ε}
  {history : List (Event ε)} {t : BinaryTree Addr} {buffer : ε} {allocated : Addr} {fuel : Nat}
  [Std.TransCmp cmp]

/-- The table is the balanced tree of the elements stored. -/
structure Kept (cmp : ε → ε → Ordering) (table : Table ε)
    (history : List (Event ε)) (t : BinaryTree Addr) : Prop where
  represents : Represents cmp table t
  stored : ∀ key n data, stored cmp history key = some (n, data) ↔
    n ∈ inorder t ∧ table.userData n = data ∧ cmp key data = .eq
  size : size cmp history = (inorder t).length

/-! ## One step -/

variable {result : TableSearchResult} {t' : BinaryTree Addr} {xs ys : List Addr} {node : Addr}
  {history' : List (Event ε)} {allowed : List (Event ε) → ε → Addr → Prop} {n : Nat}

/-- The result of a search for one key is the result of a search for any equal key. -/
theorem Looked.congr {key : ε}
    (looked : Looked cmp table t key result) (same : cmp key buffer = .eq) :
    Looked cmp table t buffer result := by
  have probe : (fun n => cmp key (table.userData n)) = fun n => cmp buffer (table.userData n) :=
    funext fun n => Std.TransCmp.congr_left same
  cases looked with
  | found n mem found => exact .found n mem ((congrFun probe n).symm.trans found)
  | empty shape => exact .empty shape
  | left p s path place => exact .left p s path (probe ▸ place)
  | right s p path place => exact .right s p path (probe ▸ place)

omit [Std.TransCmp cmp] in
/-- The full lookup returns the result of the search. -/
theorem lookupElementFull_result {element : Addr}
    (lookup : lookupElementGenericTableFullAvl cmp fuel table buffer = some (element, result)) :
    findNodeOrParent cmp fuel table buffer = some result := by
  rw [lookupElementGenericTableFullAvl] at lookup
  split at lookup
  next => exact absurd lookup (by simp)
  next node found => rw [found, (Prod.mk.inj (Option.some.inj lookup)).2]
  next other _ found => rw [found, (Prod.mk.inj (Option.some.inj lookup)).2]

/-- What an insertion answers. -/
inductive InsertAnswer (cmp : ε → ε → Ordering) (table : Table ε)
    (history : List (Event ε)) (t : BinaryTree Addr) (buffer : ε) (allocated : Addr) :
    Insertion ε → Prop where
  | old (n : Addr) (data : ε) (found : stored cmp history buffer = some (n, data)) :
      InsertAnswer cmp table history t buffer allocated ⟨table, n, false⟩
  | failed (absent : stored cmp history buffer = none) (none : allocated = null) :
      InsertAnswer cmp table history t buffer allocated ⟨table, null, false⟩
  | new (table' : Table ε) (t' : BinaryTree Addr) (xs ys : List Addr)
      (absent : stored cmp history buffer = none) (present : allocated ≠ null)
      (inserted : Inserted cmp table table' allocated buffer t t' xs ys) :
      InsertAnswer cmp table history t buffer allocated ⟨table', allocated, true⟩

/-- What a deletion answers. -/
inductive DeleteAnswer (cmp : ε → ε → Ordering) (table table' : Table ε)
    (history : List (Event ε)) (t : BinaryTree Addr) (buffer : ε) : Prop where
  | absent (none : stored cmp history buffer = none) (eq : table' = table)
  | gone (node : Addr) (t' : BinaryTree Addr) (xs ys : List Addr)
      (found : stored cmp history buffer = some (node, table.userData node))
      (deleted : Deleted table table' node t t' xs ys)

/-- What a change of a table does to its tree. -/
inductive Effect (cmp : ε → ε → Ordering) (allowed : List (Event ε) → ε → Addr → Prop)
    (table table' : Table ε) (history history' : List (Event ε)) (t : BinaryTree Addr) :
    BinaryTree Addr → Prop where
  | same (data : ∀ n ∈ inorder t, table'.userData n = table.userData n)
      (restartKey : table'.restartKey = table.restartKey)
      (deleteCount : table'.deleteCount = table.deleteCount)
      (size : size cmp history' = size cmp history) :
      Effect cmp allowed table table' history history' t t
  | added (buffer : ε) (allocated : Addr) (t' : BinaryTree Addr) (xs ys : List Addr)
      (admitted : allowed history buffer allocated)
      (absent : stored cmp history buffer = none)
      (fresh : allocated ∉ null :: table.balancedRoot :: inorder t)
      (inserted : Inserted cmp table table' allocated buffer t t' xs ys)
      (size : size cmp history' = size cmp history + 1) :
      Effect cmp allowed table table' history history' t t'
  | gone (node : Addr) (t' : BinaryTree Addr) (xs ys : List Addr)
      (deleted : Deleted table table' node t t' xs ys)
      (size : size cmp history = size cmp history' + 1) :
      Effect cmp allowed table table' history history' t t'

/-- The changed table is the balanced tree of its elements again, and still small. -/
abbrev Changes (cmp : ε → ε → Ordering) (allowed : List (Event ε) → ε → Addr → Prop)
    (table table' : Table ε) (history history' : List (Event ε)) (t : BinaryTree Addr) : Prop :=
  ∃ t', Kept cmp table' history' t' ∧ (inorder t').length < 2 ^ 32 ∧
    Effect cmp allowed table table' history history' t t'

omit [Std.TransCmp cmp] in
/-- The restart key is the last of the elements an enumeration has gone past. -/
theorem Represents.split_restart (represents : Represents cmp table t) :
    ∃ xs ys, inorder t = xs ++ ys ∧ table.restartKey = xs.getLastD null := by
  rcases mem_cons.mp represents.restart with first | mem
  · exact ⟨[], inorder t, rfl, first⟩
  · obtain ⟨xs, ys, split⟩ := append_of_mem mem
    exact ⟨xs ++ [table.restartKey], ys, by simp [split], by simp⟩

omit [Std.TransCmp cmp] in
/-- An enumeration moves the restart key and nothing else. -/
theorem Represents.moved (represents : Represents cmp table t) {restartKey : Addr}
    (inside : restartKey ∈ null :: inorder t) :
    Represents cmp { table with restartKey } t :=
  ⟨represents.hangs, represents.exact, represents.depth, represents.count, represents.inOrder,
    inside⟩

namespace Kept

variable (kept : Kept cmp table history t)

include kept

omit [Std.TransCmp cmp] in
theorem stored_none (key : ε) : AvlTable.stored cmp history key = none ↔
      ∀ n ∈ inorder t, cmp key (table.userData n) ≠ .eq := by
  rw [Option.eq_none_iff_forall_ne_some]
  constructor
  · intro none n mem same
    exact none (n, table.userData n) ((kept.stored key n _).mpr ⟨mem, rfl, same⟩)
  · rintro nowhere ⟨n, data⟩ found
    obtain ⟨mem, rfl, same⟩ := (kept.stored key n data).mp found
    exact nowhere n mem same

theorem inUse_iff (n : Addr) : InUse cmp table history n ↔ n ∈ table.balancedRoot :: inorder t := by
  rw [mem_cons]
  refine or_congr_right ⟨?_, fun mem => ?_⟩
  · rintro ⟨key, data, found⟩
    exact ((kept.stored key n data).mp found).1
  · exact ⟨table.userData n, table.userData n,
      (kept.stored _ n _).mpr ⟨mem, rfl, Std.ReflCmp.compare_self⟩⟩

theorem fresh (allocates : Allocates cmp table history allocated)
    (present : allocated ≠ null) : allocated ∉ null :: table.balancedRoot :: inorder t := by
  rw [mem_cons, ← kept.inUse_iff, not_or]
  exact ⟨present, allocates.resolve_left present⟩

theorem elsewhere {nodes : Skeleton Addr} {userData : Addr → ε}
    (same : ∀ n, InUse cmp table history n → SameNode table.nodes nodes table.userData userData n) :
    Kept cmp { table with nodes, userData } history t := by
  obtain ⟨⟨self, noLeft, anchor, linked, distinct⟩, exact, depth, count, inOrder, restart⟩ :=
    kept.represents
  obtain ⟨⟨parent, left, right⟩, -⟩ := same table.balancedRoot (.inl rfl)
  have inside : ∀ n ∈ inorder t, SameNode table.nodes nodes table.userData userData n :=
    fun n mem => same n ((kept.inUse_iff n).mpr (mem_cons_of_mem _ mem))
  refine ⟨⟨⟨parent.trans self, left.trans noLeft, right.trans anchor, ?_, distinct⟩, ?_, depth,
    count, ?_, restart⟩, fun key n data => ?_, kept.size⟩
  · exact linked.congr fun n mem => (inside n mem).1
  · exact exact.congr fun n mem => (inside n mem).2.1
  · refine inOrder.imp_of_mem fun {n n'} mem mem' lower => ?_
    show cmp (userData n) (userData n') = .lt
    rw [(inside n mem).2.2, (inside n' mem').2.2]
    exact lower
  · rw [kept.stored key n data]
    refine and_congr_right fun mem => ?_
    show _ ↔ userData n = data ∧ _
    rw [(inside n mem).2.2]

theorem insertFull (looked : Looked cmp table t buffer result)
    (allocates : Allocates cmp table history allocated)
    (enough : AvlTable.size cmp history + 1 ≤ fuel) :
    ∃ answer, insertElementGenericTableFullAvl fuel table buffer allocated result = some answer ∧
      InsertAnswer cmp table history t buffer allocated answer := by
  by_cases missed : ∀ n, result ≠ .foundNode n
  · have absent := (kept.stored_none buffer).mpr (looked.missed missed)
    by_cases none : allocated = null
    · refine ⟨_, ?_, .failed absent none⟩
      cases looked with
      | found n => exact absurd rfl (missed n)
      | empty | left
      | right => simp [insertElementGenericTableFullAvl, none]
    · obtain ⟨table', t', xs, ys, call, inserted⟩ := insertElementFull_spec kept.represents looked
        missed (kept.fresh allocates none) (kept.size ▸ enough)
      exact ⟨_, call, .new table' t' xs ys absent none inserted⟩
  · obtain ⟨n, rfl⟩ := not_forall_not.mp missed
    cases looked with
    | found n mem same =>
      exact ⟨_, rfl, .old n (table.userData n) ((kept.stored buffer n _).mpr ⟨mem, rfl, same⟩)⟩

theorem insert (buffer : ε) (allocates : Allocates cmp table history allocated)
    (enough : AvlTable.size cmp history + 1 ≤ fuel) :
    ∃ answer, insertElementGenericTableAvl cmp fuel table buffer allocated =
        some answer ∧ InsertAnswer cmp table history t buffer allocated answer := by
  obtain ⟨result, found, looked⟩ :=
    findNodeOrParent_spec kept.represents buffer (kept.size ▸ enough)
  rw [insertElementGenericTableAvl, found]
  exact kept.insertFull looked allocates enough

omit [Std.TransCmp cmp] in
/-- An insertion that adds nothing changes nothing. -/
theorem idle (small : (inorder t).length < 2 ^ 32)
    (idle : ¬ (allocated ≠ null ∧ AvlTable.stored cmp history buffer = none)) :
    Changes cmp allowed table table history (.insert buffer allocated :: history) t := by
  refine ⟨t, ⟨kept.represents, fun key n data => ?_, ?_⟩, small,
    .same (fun _ _ => rfl) rfl rfl (if_neg idle)⟩
  · rw [AvlTable.stored, if_neg fun both => idle both.1]
    exact kept.stored key n data
  · rw [AvlTable.size, if_neg idle]
    exact kept.size

/-- An insertion that adds an element. -/
theorem added (allocates : Allocates cmp table history allocated)
    (absent : AvlTable.stored cmp history buffer = none) (present : allocated ≠ null)
    (inserted : Inserted cmp table table' allocated buffer t t' xs ys)
    (room : (inorder t).length + 1 < 2 ^ 32) :
    Kept cmp table' (.insert buffer allocated :: history) t' := by
  have fresh := kept.fresh allocates present
  have own := inserted.ownData
  have nowhere := (kept.stored_none buffer).mp absent
  refine ⟨inserted.represents kept.represents fresh room, fun key n data => ?_, ?_⟩
  · rw [AvlTable.stored, inserted.mem_iff]
    by_cases same : cmp key buffer = .eq
    · rw [if_pos ⟨⟨present, absent⟩, same⟩, Option.some.injEq, Prod.mk.injEq]
      constructor
      · rintro ⟨rfl, rfl⟩
        exact ⟨.inl rfl, own, same⟩
      · rintro ⟨rfl | mem, rfl, equal⟩
        · exact ⟨rfl, own.symm⟩
        · rw [inserted.sameData fresh mem] at equal
          exact absurd ((Std.TransCmp.congr_left same).symm.trans equal) (nowhere n mem)
    · rw [if_neg fun both => same both.2, kept.stored key n data]
      constructor
      · rintro ⟨mem, rfl, equal⟩
        exact ⟨.inr mem, inserted.sameData fresh mem, equal⟩
      · rintro ⟨rfl | mem, rfl, equal⟩
        · exact absurd (own ▸ equal) same
        · rw [inserted.sameData fresh mem] at equal ⊢
          exact ⟨mem, rfl, equal⟩
  · rw [AvlTable.size, if_pos ⟨present, absent⟩, kept.size, inserted.length]

theorem after_insert {answer : Insertion ε} (allocates : Allocates cmp table history allocated)
    (answered : InsertAnswer cmp table history t buffer allocated answer)
    (small : (inorder t).length < 2 ^ 32) (admitted : allowed history buffer allocated)
    (roomy : Roomy cmp history buffer allocated) :
    Changes cmp allowed table answer.table history (.insert buffer allocated :: history) t := by
  cases answered with
  | old n data found => exact kept.idle small (by simp [found])
  | failed absent refused => exact kept.idle small (by simp [refused])
  | new table' t' xs ys absent present inserted =>
    rw [Roomy, AvlTable.size, if_pos ⟨present, absent⟩, kept.size] at roomy
    exact ⟨t', kept.added allocates absent present inserted roomy, inserted.length ▸ roomy,
      .added buffer allocated t' xs ys admitted absent (kept.fresh allocates present) inserted
        (if_pos ⟨present, absent⟩)⟩

theorem delete (buffer : ε) (enough : AvlTable.size cmp history + 1 ≤ fuel) :
    ∃ table', deleteElementGenericTableAvl cmp fuel table buffer =
        some (table', (AvlTable.stored cmp history buffer).isSome) ∧
      DeleteAnswer cmp table table' history t buffer := by
  rcases deleteElement_spec kept.represents buffer (kept.size ▸ enough) with
    ⟨table', node, t', xs, ys, call, same, deleted⟩ | ⟨call, nowhere⟩
  · have mem : node ∈ inorder t := by
      rw [deleted.split]
      simp
    have found := (kept.stored buffer node _).mpr ⟨mem, rfl, same⟩
    exact ⟨table', by rw [call, found]; rfl, .gone node t' xs ys found deleted⟩
  · have absent := (kept.stored_none buffer).mpr nowhere
    exact ⟨table, by rw [call, absent]; rfl, .absent absent rfl⟩

/-- A deletion that takes out an element. -/
theorem gone (found : AvlTable.stored cmp history buffer = some (node, table.userData node))
    (deleted : Deleted table table' node t t' xs ys) (small : (inorder t).length < 2 ^ 32) :
    Kept cmp table' (.delete buffer :: history) t' := by
  obtain ⟨mem, -, same⟩ := (kept.stored buffer node _).mp found
  refine ⟨deleted.represents kept.represents small, fun key n data => ?_, ?_⟩
  · rw [AvlTable.stored, deleted.mem_iff kept.represents.nodup, deleted.data]
    by_cases equal : cmp key buffer = .eq
    · -- The one element with this key is the one taken out.
      rw [if_pos equal]
      refine iff_of_false (by simp) ?_
      rintro ⟨⟨mem', ne⟩, rfl, equal'⟩
      have same' := (Std.TransCmp.congr_left equal).symm.trans equal'
      exact ne (eq_of_compare_eq kept.represents.inOrder mem' mem same' same)
    · rw [if_neg equal, kept.stored key n data]
      refine ⟨?_, fun ⟨⟨mem', _⟩, rest⟩ => ⟨mem', rest⟩⟩
      rintro ⟨mem', rfl, equal'⟩
      refine ⟨⟨mem', ?_⟩, rfl, equal'⟩
      rintro rfl
      exact equal ((Std.TransCmp.congr_right same).trans equal')
  · rw [AvlTable.size, found, if_neg (by simp), kept.size, deleted.length]
    rfl

/-- A deletion that finds nothing. -/
theorem nothing (absent : AvlTable.stored cmp history buffer = none) :
    Kept cmp table (.delete buffer :: history) t := by
  refine ⟨kept.represents, fun key n data => ?_, ?_⟩
  · rw [AvlTable.stored]
    by_cases equal : cmp key buffer = .eq
    · have none : AvlTable.stored cmp history key = none := by
        refine (kept.stored_none key).mpr fun n mem same => ?_
        exact (kept.stored_none buffer).mp absent n mem
          ((Std.TransCmp.congr_left equal).symm.trans same)
      rw [if_pos equal, ← none]
      exact kept.stored key n data
    · rw [if_neg equal]
      exact kept.stored key n data
  · rw [AvlTable.size, if_pos absent]
    exact kept.size

theorem after_delete (answered : DeleteAnswer cmp table table' history t buffer)
    (small : (inorder t).length < 2 ^ 32) :
    Changes cmp allowed table table' history (.delete buffer :: history) t := by
  cases answered with
  | absent none eq =>
    subst eq
    exact ⟨t, kept.nothing none, small, .same (fun _ _ => rfl) rfl rfl (if_pos none)⟩
  | gone node t' xs ys found deleted =>
    have kept' : Kept cmp table' (.delete buffer :: history) t' :=
      kept.gone found deleted small
    have shorter := deleted.length
    exact ⟨t', kept', by omega, .gone node t' xs ys deleted (by rw [kept.size, kept'.size, shorter])⟩

omit [Std.TransCmp cmp] in
theorem enumerate (restart : Bool) (enough : AvlTable.size cmp history + 1 ≤ fuel) :
    ∃ table' element, enumerateGenericTableAvl fuel table restart = some (table', element) ∧
      Kept cmp table' (.enumerate restart :: history) t := by
  obtain ⟨xs, ys, split, from_⟩ : ∃ xs ys, inorder t = xs ++ ys ∧
      (if restart then null else table.restartKey) = xs.getLastD null := by
    cases restart with
    | true => exact ⟨[], inorder t, rfl, rfl⟩
    | false => exact kept.represents.split_restart
  have inside : (xs ++ ys.take 1).getLastD null ∈ null :: inorder t := by
    have sub := (Sublist.refl xs).append (take_sublist 1 ys)
    rw [split]
    exact (sub.cons_cons null).mem getLastD_mem_cons
  refine ⟨_, ys.headD null, ?_, kept.represents.moved inside, kept.stored, kept.size⟩
  rw [enumerateGenericTableAvl, enumerate_spec kept.represents split from_ (kept.size ▸ enough)]
  rfl

end Kept

/-! ## Whole runs -/

/-- What a change does, if there is room for every insertion that is allowed. -/
theorem Step.effect (step : Step cmp allowed table history table' history')
    (kept : Kept cmp table history t) (small : (inorder t).length < 2 ^ 32)
    (roomy : ∀ buffer allocated, allowed history buffer allocated →
      Roomy cmp history buffer allocated) :
    Changes cmp allowed table table' history history' t := by
  cases step with
  | elsewhere nodes userData same =>
    refine ⟨t, kept.elsewhere same, small, .same (fun n mem => ?_) rfl rfl rfl⟩
    exact (same n ((kept.inUse_iff n).mpr (mem_cons_of_mem _ mem))).2.2
  | insert buffer allocated fuel answer allocates admitted enough call =>
    obtain ⟨answer', call', answered⟩ := kept.insert buffer allocates enough
    obtain rfl := Option.some.inj (call.symm.trans call')
    exact kept.after_insert allocates answered small admitted (roomy _ _ admitted)
  | insertFull key buffer allocated element result fuel answer same allocates admitted enough
      lookup call =>
    obtain ⟨result', found, looked⟩ :=
      findNodeOrParent_spec kept.represents key (kept.size ▸ enough)
    obtain rfl := Option.some.inj (found.symm.trans (lookupElementFull_result lookup))
    obtain ⟨answer', call', answered⟩ := kept.insertFull (looked.congr same) allocates enough
    obtain rfl := Option.some.inj (call.symm.trans call')
    exact kept.after_insert allocates answered small admitted (roomy _ _ admitted)
  | delete buffer fuel present enough call =>
    obtain ⟨table'', call', answered⟩ := kept.delete buffer enough
    obtain ⟨rfl, -⟩ := Prod.mk.inj (Option.some.inj (call.symm.trans call'))
    exact kept.after_delete answered small

theorem Run.kept (run : Run cmp (Roomy cmp) table history) :
    ∃ t, Kept cmp table history t ∧ (inorder t).length < 2 ^ 32 := by
  induction run with
  | start nodes userData root present =>
    exact ⟨.nil, ⟨represents_initial cmp nodes userData present, by simp [stored], rfl⟩,
      Nat.two_pow_pos 32⟩
  | step run change ih =>
    obtain ⟨t, kept, small⟩ := ih
    obtain ⟨t', kept', small', -⟩ := change.effect kept small fun _ _ roomy => roomy
    exact ⟨t', kept', small'⟩
  | enumerate run restart fuel element enough call ih =>
    obtain ⟨t, kept, small⟩ := ih
    obtain ⟨table', element', call', kept'⟩ := kept.enumerate restart enough
    obtain ⟨rfl, -⟩ := Prod.mk.inj (Option.some.inj (call.symm.trans call'))
    exact ⟨t, kept', small⟩

/-- **In every run in which the table holds fewer than `2 ^ 32` elements, it is a balanced tree
with consistent links, its keys in strict order, and its depth and count those of the tree; and
every call returns.** -/
theorem avlTable_wellFormed (cmp : ε → ε → Ordering) [Std.TransCmp cmp]
    (table : Table ε) (history : List (Event ε))
    (run : Run cmp (Roomy cmp) table history) :
    (∃ t, Represents cmp table t) ∧
      (∀ buffer allocated fuel, Allocates cmp table history allocated →
        size cmp history + 1 ≤ fuel →
          ∃ answer, insertElementGenericTableAvl cmp fuel table buffer allocated = some answer) ∧
      ∀ buffer fuel, size cmp history + 1 ≤ fuel →
        ∃ answer, deleteElementGenericTableAvl cmp fuel table buffer = some answer := by
  obtain ⟨t, kept, small⟩ := run.kept
  refine ⟨⟨t, kept.represents⟩, fun buffer allocated fuel allocates enough => ?_,
    fun buffer fuel enough => ?_⟩
  · obtain ⟨answer, call, -⟩ := kept.insert buffer allocates enough
    exact ⟨answer, call⟩
  · obtain ⟨table', call, -⟩ := kept.delete buffer enough
    exact ⟨_, call⟩

/-- A memory of which nothing is known. -/
def blankNodes : Skeleton Addr := ⟨⟨fun _ => null, fun _ => null, fun _ => null⟩, fun _ => 0⟩

/-- An empty table of numbers. -/
def freshTable : Table Nat := initializeGenericTableAvl blankNodes (fun _ => 0) 64

theorem run_freshTable : Run compare (Roomy compare) freshTable [] :=
  .start blankNodes _ 64 (by decide)

omit [Std.TransCmp cmp] in
theorem exists_insert_of_stored {key data : ε} (found : stored cmp history key = some (node, data)) :
    ∃ buffer, .insert buffer node ∈ history := by
  induction history with
  | nil => cases found
  | cons event history ih =>
    have later (found : stored cmp history key = some (node, data)) :
        ∃ buffer, .insert buffer node ∈ event :: history :=
      (ih found).imp fun _ mem => mem_cons_of_mem _ mem
    cases event with
    | insert buffer allocated =>
      rw [stored] at found
      split at found
      · cases found
        exact ⟨_, mem_cons_self⟩
      · exact later found
    | delete buffer =>
      rw [stored] at found
      split at found
      · cases found
      · exact later found
    | enumerate => exact later found

omit [Std.TransCmp cmp] in
/-- Memory that was never given out. -/
theorem allocates_new (root : allocated ≠ table.balancedRoot)
    (new : ∀ buffer, .insert buffer allocated ∉ history) : Allocates cmp table history allocated := by
  refine .inr ?_
  rintro (eq | ⟨key, data, found⟩)
  · exact root eq
  · obtain ⟨buffer, mem⟩ := exists_insert_of_stored found
    exact new buffer mem

/-- The tables after an insertion and a deletion that return. -/
def afterInsert (table : Table Nat) (buffer : Nat) (allocated : Addr) : Table Nat :=
  ((insertElementGenericTableAvl compare 9 table buffer allocated).map Insertion.table).getD table

def afterDelete (table : Table Nat) (buffer : Nat) : Table Nat :=
  ((deleteElementGenericTableAvl compare 9 table buffer).map Prod.fst).getD table

section Numbers

variable {table : Table Nat} {history : List (Event Nat)}

theorem Run.inserted (run : Run compare (Roomy compare) table history) (buffer : Nat)
    (allocates : Allocates compare table history allocated)
    (roomy : size compare (.insert buffer allocated :: history) < 2 ^ 32)
    (enough : size compare history + 1 ≤ 9) :
    Run compare (Roomy compare) (afterInsert table buffer allocated)
      (.insert buffer allocated :: history) := by
  obtain ⟨t, kept, -⟩ := run.kept
  obtain ⟨answer, call, -⟩ := kept.insert buffer allocates enough
  rw [afterInsert, call]
  exact run.step (.insert buffer allocated 9 answer allocates roomy enough call)

theorem Run.deleted (run : Run compare (Roomy compare) table history) (buffer : Nat)
    (enough : size compare history + 1 ≤ 9) :
    Run compare (Roomy compare) (afterDelete table buffer) (.delete buffer :: history) := by
  obtain ⟨t, kept, -⟩ := run.kept
  obtain ⟨table', call, -⟩ := kept.delete buffer enough
  rw [afterDelete, call]
  exact run.step (.delete buffer 9 _ enough call)

end Numbers

/-- Three numbers in ascending order. -/
def ascendingTable : Table Nat :=
  afterInsert (afterInsert (afterInsert freshTable 1 128) 2 192) 3 256

/-- A number that is there is inserted again, the allocation for another one fails, and the
number in the middle is deleted. -/
def mixedTable : Table Nat :=
  afterDelete (afterInsert (afterInsert ascendingTable 2 320) 4 null) 2

theorem run_mixed : Run compare (Roomy compare) mixedTable [.delete 2, .insert 4 null,
    .insert 2 320, .insert 3 256, .insert 2 192, .insert 1 128] :=
  have one := run_freshTable.inserted 1 (allocates_new (by decide) (by simp)) (by decide) (by decide)
  have two := one.inserted 2 (allocates_new (by decide) (by simp)) (by decide) (by decide)
  have three := two.inserted 3 (allocates_new (by decide) (by simp)) (by decide) (by decide)
  have again := three.inserted 2 (allocates_new (by decide) (by simp)) (by decide) (by decide)
  (again.inserted 4 (.inl rfl) (by decide) (by decide)).deleted 2 (by decide)

/-- A rotation has put 2 over 1 and 3, and its deletion leaves a tree. -/
theorem avlTable_wellFormed_mixed :
    (ascendingTable.nodes.links.right 64 = 192 ∧ ascendingTable.nodes.links.left 192 = 128 ∧
      ascendingTable.nodes.links.right 192 = 256) ∧ ∃ t, Represents compare mixedTable t :=
  ⟨by decide, (avlTable_wellFormed compare _ _ run_mixed).1⟩

/-- The answers of a table are those of the finite map the calls describe. -/
structure IsMap (cmp : ε → ε → Ordering) (table : Table ε)
    (history : List (Event ε)) : Prop where
  lookup : ∀ key fuel, size cmp history + 1 ≤ fuel →
    lookupElementGenericTableAvl cmp fuel table key =
      some ((stored cmp history key).elim null Prod.fst)
  data : ∀ key n data, stored cmp history key = some (n, data) → n ≠ null ∧ table.userData n = data
  insert : ∀ buffer allocated fuel, Allocates cmp table history allocated →
    size cmp history + 1 ≤ fuel →
      ∃ answer, insertElementGenericTableAvl cmp fuel table buffer allocated = some answer ∧
        (answer.newElement ↔ stored cmp history buffer = none ∧ allocated ≠ null) ∧
        answer.element = (stored cmp history buffer).elim allocated Prod.fst ∧
        (answer.newElement = false → answer.table = table)
  delete : ∀ buffer fuel, size cmp history + 1 ≤ fuel →
    ∃ table', deleteElementGenericTableAvl cmp fuel table buffer =
      some (table', (stored cmp history buffer).isSome)

theorem Kept.isMap (kept : Kept cmp table history t) : IsMap cmp table history := by
  refine ⟨fun key fuel enough => ?_, fun key n data found => ?_,
    fun buffer allocated fuel allocates enough => ?_, fun buffer fuel enough => ?_⟩
  · obtain ⟨answer, call, outcome⟩ := lookupElement_spec kept.represents key (kept.size ▸ enough)
    rw [call]
    rcases outcome with ⟨rfl, nowhere⟩ | ⟨mem, same⟩
    · rw [(kept.stored_none key).mpr nowhere]
      rfl
    · rw [(kept.stored key answer _).mpr ⟨mem, rfl, same⟩]
      rfl
  · obtain ⟨mem, eq, -⟩ := (kept.stored key n data).mp found
    refine ⟨?_, eq⟩
    rintro rfl
    exact kept.represents.absent mem
  · obtain ⟨answer, call, answered⟩ := kept.insert buffer allocates enough
    refine ⟨answer, call, ?_⟩
    cases answered with
    | old n data found => simp [found]
    | failed absent none => simp [absent, none]
    | new table' t' xs ys absent present => simp [absent, present]
  · obtain ⟨table', call, -⟩ := kept.delete buffer enough
    exact ⟨table', call⟩

/-- **In every run in which the table holds fewer than `2 ^ 32` elements, it is the finite map
its calls describe.** -/
theorem avlTable_isMap (cmp : ε → ε → Ordering) [Std.TransCmp cmp]
    (table : Table ε) (history : List (Event ε))
    (run : Run cmp (Roomy cmp) table history) :
    IsMap cmp table history := by
  obtain ⟨t, kept, -⟩ := run.kept
  exact kept.isMap

/-- The number that was deleted and the one without memory are not found. -/
theorem avlTable_isMap_mixed : lookupElementGenericTableAvl compare 9 mixedTable 1 = some 128 ∧
      lookupElementGenericTableAvl compare 9 mixedTable 2 = some null ∧
      lookupElementGenericTableAvl compare 9 mixedTable 3 = some 256 ∧
      lookupElementGenericTableAvl compare 9 mixedTable 4 = some null := by
  have map := avlTable_isMap compare _ _ run_mixed
  exact ⟨map.lookup 1 9 (by decide), map.lookup 2 9 (by decide), map.lookup 3 9 (by decide),
    map.lookup 4 9 (by decide)⟩

/-! ## A count that wraps -/

/-- The first numbers in their order, each with a node of its own. -/
def numberNode (n : Nat) : Addr := 64 * (n + 2)

def numbers : Nat → List (Event Nat)
  | 0 => []
  | n + 1 => .insert n (numberNode n) :: numbers n

theorem stored_numbers (n key : Nat) :
    stored compare (numbers n) key = if key < n then some (numberNode key, key) else none := by
  induction n generalizing key with
  | zero => rfl
  | succ n ih =>
    have own : stored compare (numbers n) n = none := by simp [ih n]
    rw [numbers, stored, own, ih]
    by_cases same : key = n
    · subst same
      simp [numberNode, null]
    · have differs : ¬ compare key n = .eq := fun eq => same (Nat.compare_eq_eq.mp eq)
      have order : key < n + 1 ↔ key < n := by omega
      simp [differs, order]

theorem size_numbers (n : Nat) : size compare (numbers n) = n := by
  induction n with
  | zero => rfl
  | succ n ih =>
    have absent : stored compare (numbers n) n = none := by simp [stored_numbers]
    rw [numbers, size, if_pos ⟨by simp [numberNode, null], absent⟩, ih]

theorem allocates_number {table : Table Nat} (root : table.balancedRoot = 64) (n : Nat) :
    Allocates compare table (numbers n) (numberNode n) := by
  refine .inr ?_
  rintro (eq | ⟨key, data, found⟩)
  · have eq : 64 * (n + 2) = 64 := eq.trans root
    omega
  · rw [stored_numbers] at found
    split at found
    next lt =>
      have node : 64 * (key + 2) = 64 * (n + 2) := (Prod.mk.inj (Option.some.inj found)).1
      omega
    next => exact absurd found (by simp)

theorem Kept.number {table : Table Nat} (kept : Kept compare table (numbers n) t)
    (root : table.balancedRoot = 64) :
    ∃ table' t' xs ys, insertElementGenericTableAvl compare (n + 1) table n (numberNode n) =
        some ⟨table', numberNode n, true⟩ ∧
      Inserted compare table table' (numberNode n) n t t' xs ys := by
  obtain ⟨answer, call, answered⟩ := kept.insert n (allocates_number root n)
    (show _ ≤ n + 1 by rw [size_numbers])
  cases answered with
  | old m data found => exact absurd found (by simp [stored_numbers])
  | failed absent none => exact absurd none (by simp [numberNode, null])
  | new table' t' xs ys absent present inserted => exact ⟨table', t', xs, ys, call, inserted⟩

theorem exists_numbers (small : n < 2 ^ 32) :
    ∃ table : Table Nat, Run compare (Roomy compare) table (numbers n) ∧
      table.balancedRoot = 64 := by
  induction n with
  | zero => exact ⟨freshTable, run_freshTable, rfl⟩
  | succ n ih =>
    obtain ⟨table, run, root⟩ := ih (by omega)
    obtain ⟨t, kept, -⟩ := run.kept
    obtain ⟨table', t', xs, ys, call, inserted⟩ := kept.number root
    have roomy : Roomy compare (numbers n) n (numberNode n) := by
      show size compare (numbers (n + 1)) < 2 ^ 32
      rwa [size_numbers]
    exact ⟨table', run.step (.insert n _ _ _ (allocates_number root n) roomy
      (by rw [size_numbers]) call), inserted.root.trans root⟩

section Mono

variable {allowed' : List (Event ε) → ε → Addr → Prop}
  (weaker : ∀ history buffer allocated, allowed history buffer allocated → allowed' history buffer
    allocated)

include weaker

omit [Std.TransCmp cmp]

theorem Step.mono (step : Step cmp allowed table history table' history') :
    Step cmp allowed' table history table' history' := by
  cases step with
  | elsewhere nodes userData same => exact .elsewhere nodes userData same
  | insert buffer allocated fuel answer allocates admitted enough call =>
    exact .insert buffer allocated fuel answer allocates (weaker _ _ _ admitted) enough call
  | insertFull key buffer allocated element result fuel answer same allocates admitted enough
      lookup call =>
      exact .insertFull key buffer allocated element result fuel answer same allocates
        (weaker _ _ _ admitted) enough lookup call
  | delete buffer fuel present enough call => exact .delete buffer fuel present enough call

theorem Run.mono (run : Run cmp allowed table history) : Run cmp allowed' table history := by
  induction run with
  | start nodes userData root present => exact .start nodes userData root present
  | step run change ih => exact ih.step (change.mono weaker)
  | enumerate run restart fuel element enough call ih =>
    exact ih.enumerate restart fuel element enough call

end Mono

/-- A table of `2 ^ 32` numbers whose count is zero. -/
theorem exists_full : ∃ table : Table Nat,
    Run compare (fun _ _ _ => True) table (numbers (2 ^ 32)) ∧
      table.numberGenericTableElements = 0 ∧
      table.nodes.links.right table.balancedRoot ≠ null := by
  obtain ⟨table, run, root⟩ := exists_numbers (show 2 ^ 32 - 1 < 2 ^ 32 by omega)
  obtain ⟨t, kept, -⟩ := run.kept
  obtain ⟨table', t', xs, ys, call, inserted⟩ := kept.number root
  refine ⟨table', ?_, ?_, ?_⟩
  · have any : Run compare (fun _ _ _ => True) table _ := run.mono fun _ _ _ _ => trivial
    exact any.step (.insert _ _ _ _ (allocates_number root _) trivial (by rw [size_numbers]) call)
  · rw [inserted.count, kept.represents.count, ← kept.size, size_numbers]
    rfl
  · rw [inserted.root, inserted.hangs.anchor]
    have distinct := inserted.hangs.distinct
    have sequence := inserted.sequence
    cases t' with
    | nil => simp at sequence
    | node =>
      rintro rfl
      simp at distinct

/-- **Insertions alone lead to a table whose count is not the number of its nodes.** -/
theorem count_wraps : ¬ ∀ (table : Table Nat) (history : List (Event Nat)),
    Run compare (fun _ _ _ => True) table history → ∃ t, Represents compare table t := by
  intro always
  obtain ⟨table, run, count, root⟩ := exists_full
  obtain ⟨t, represents⟩ := always table _ run
  have none : t = .nil := eq_nil_of_inorder
    (eq_nil_of_length_eq_zero (represents.count.symm.trans count))
  exact root (by rw [represents.hangs.anchor, none]; rfl)

/-- **Insertions alone lead to a table that misses its elements.** -/
theorem lookup_misses : ¬ ∀ (table : Table Nat) (history : List (Event Nat)),
    Run compare (fun _ _ _ => True) table history → IsMap compare table history := by
  intro always
  obtain ⟨table, run, count, -⟩ := exists_full
  have lookup := (always table _ run).lookup 0 _ le_rfl
  rw [stored_numbers] at lookup
  have missed : lookupElementGenericTableAvl compare (size compare (numbers (2 ^ 32)) + 1) table 0 =
      some null := by
    simp [lookupElementGenericTableAvl, lookupElementGenericTableFullAvl, findNodeOrParent,
      isGenericTableEmptyAvl, count]
  rw [missed] at lookup
  exact absurd lookup (by decide)

end Ntoskrnl.Rtl.AvlTable
