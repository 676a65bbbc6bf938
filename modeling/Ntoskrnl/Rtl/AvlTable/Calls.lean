/-
# Ntoskrnl.Rtl.AvlTable.Calls -- what one call does

A table that is right is the balanced tree of its elements: the links and balances of
the nodes, the depth and the count are those of the tree, the keys are in order, and
the restart key is an element of the table or `NULL`.  For every routine one statement
says what it answers on such a table and what has become of the sequence of elements.
-/
import Mathlib.Data.List.Pairwise
import Ntoskrnl.Rtl.AvlTable.Model

namespace Ntoskrnl.Rtl.AvlTable

set_option autoImplicit false

open Base Lib.LinkedTree Lib.SplayTree Lib.Avl
open Function (update update_of_ne update_self)
open List hiding after

theorem charField_keeps : Keeps charField := ⟨rfl, rfl, rfl⟩

variable {ε : Type} {cmp : ε → ε → Ordering} {table : Table ε}
  {t : BinaryTree Addr} {buffer : ε} {fuel : Nat} {result : TableSearchResult} {n : Addr}

/-- The table is the balanced tree of its elements. -/
structure Represents (cmp : ε → ε → Ordering) (table : Table ε)
    (t : BinaryTree Addr) : Prop where
  hangs : Hangs table.nodes.links null table.balancedRoot t
  exact : Exact table.nodes.balance t
  depth : table.depthOfTree = t.height
  count : table.numberGenericTableElements = (inorder t).length
  inOrder : (inorder t).Pairwise fun n n' =>
    cmp (table.userData n) (table.userData n') = .lt
  restart : table.restartKey ∈ null :: inorder t

namespace Represents

variable (represents : Represents cmp table t)

include represents

theorem absent : null ∉ inorder t := represents.hangs.absent

theorem nodup : (inorder t).Nodup := by
  have distinct := represents.hangs.distinct
  simp only [nodup_cons] at distinct
  exact distinct.2.2

theorem isEmpty_iff : isGenericTableEmptyAvl table ↔ inorder t = [] := by
  rw [isGenericTableEmptyAvl, represents.count, beq_iff_eq, length_eq_zero_iff]

/-- An element is not `NULL`. -/
theorem head_ne_null {xs ys : List Addr} (split : inorder t = xs ++ ys) (nonempty : ys ≠ []) :
    ys.headD null ≠ null := by
  cases ys with
  | nil => exact absurd rfl nonempty
  | cons y =>
    rintro (rfl : y = null)
    exact represents.absent (by rw [split]; simp)

end Represents

theorem represents_initial (cmp : ε → ε → Ordering) (nodes : Skeleton Addr)
    (userData : Addr → ε) {root : Addr} (present : root ≠ null) :
    Represents cmp (initializeGenericTableAvl nodes userData root) .nil := by
  refine ⟨⟨?_, ?_, ?_, trivial, ?_⟩, trivial, rfl, rfl, .nil, by simp [initializeGenericTableAvl]⟩
  · simp [initializeGenericTableAvl]
  · simp [initializeGenericTableAvl, blank]
  · simp [initializeGenericTableAvl, blank]
  · simpa [initializeGenericTableAvl] using Ne.symm present

/-! ## Searching -/

section Order

variable [Std.TransCmp cmp]

variable {userData : Addr → ε} {nodes : List Addr}

/-- The comparison with a key respects the order of the elements. -/
theorem respects_compare (buffer : ε)
    (inOrder : nodes.Pairwise fun n n' => cmp (userData n) (userData n') = .lt) :
    Respects (fun n => cmp buffer (userData n)) nodes := by
  refine inOrder.imp fun {n n'} lower reached => ?_
  cases answer : cmp buffer (userData n) with
  | gt => exact absurd answer reached
  | lt => exact Std.TransCmp.lt_trans answer lower
  | eq => exact (Std.TransCmp.congr_left answer).trans lower

/-- Two keys in order that both match a key are one. -/
theorem eq_of_compare_eq {n' : Addr}
    (inOrder : nodes.Pairwise fun n n' => cmp (userData n) (userData n') = .lt) (mem : n ∈ nodes)
    (mem' : n' ∈ nodes) (same : cmp buffer (userData n) = .eq)
    (same' : cmp buffer (userData n') = .eq) : n = n' := by
  have apart : nodes.Pairwise fun a b => ¬ (cmp buffer (userData a) = .eq ∧
      cmp buffer (userData b) = .eq) := by
    refine inOrder.imp fun {a b} lower ⟨same, same'⟩ => ?_
    have equal := (Std.TransCmp.congr_left (Std.OrientedCmp.eq_symm same)).trans same'
    rw [lower] at equal
    exact absurd equal (by decide)
  by_contra ne
  exact @Pairwise.forall _ _ _ ⟨fun a b h both => h both.symm⟩ apart _ mem _ mem' ne ⟨same, same'⟩

end Order

/-- What a search may answer on a table that is right. -/
inductive Looked (cmp : ε → ε → Ordering) (table : Table ε) (t : BinaryTree Addr)
    (buffer : ε) : TableSearchResult → Prop where
  | found (n : Addr) (mem : n ∈ inorder t)
      (same : cmp buffer (table.userData n) = .eq) :
      Looked cmp table t buffer (.foundNode n)
  | empty (shape : t = .nil) : Looked cmp table t buffer .emptyTree
  | left (p : Addr) (s : BinaryTree Addr) (path : List (Crumb Addr))
      (place : PlaceOf (fun n => cmp buffer (table.userData n)) t
        (.leftOf p s :: path)) : Looked cmp table t buffer (.insertAsLeft p)
  | right (s : BinaryTree Addr) (p : Addr) (path : List (Crumb Addr))
      (place : PlaceOf (fun n => cmp buffer (table.userData n)) t
        (.rightOf s p :: path)) : Looked cmp table t buffer (.insertAsRight p)

theorem findNodeOrParent_spec [Std.TransCmp cmp] (represents : Represents cmp table t) (buffer : ε)
    (enough : (inorder t).length + 1 ≤ fuel) :
    ∃ result, findNodeOrParent cmp fuel table buffer = some result ∧
      Looked cmp table t buffer result := by
  by_cases empty : isGenericTableEmptyAvl table
  · refine ⟨.emptyTree, by rw [findNodeOrParent, if_pos empty], .empty ?_⟩
    exact eq_nil_of_inorder (represents.isEmpty_iff.mp empty)
  · have nonempty : t ≠ .nil := by
      rintro rfl
      exact empty (represents.isEmpty_iff.mpr rfl)
    rw [findNodeOrParent, if_neg empty, represents.hangs.anchor]
    rcases descend_spec nonempty represents.hangs.linked represents.absent
      (respects_compare buffer represents.inOrder) (show (inorder t).length ≤ fuel by omega) with
      ⟨n, mem, found, same⟩ | ⟨landing, inner, found, lands, place⟩
    · exact ⟨.foundNode n, by rw [found]; rfl, .found n mem same⟩
    · refine ⟨.ofLanding landing, by rw [found]; rfl, ?_⟩
      cases lands with
      | left p s path => exact .left p s path place
      | right s p path => exact .right s p path place

namespace Looked

/-- A search that has not found the key ends between the elements before and after it. -/
theorem between (looked : Looked cmp table t buffer result) (missed : ∀ n, result ≠ .foundNode n) :
    ∃ xs ys, inorder t = xs ++ ys ∧ (∀ n ∈ xs, cmp buffer (table.userData n) = .gt) ∧
      (∀ n ∈ ys, cmp buffer (table.userData n) = .lt) := by
  have around : ∀ {inner}, PlaceOf (fun n => cmp buffer (table.userData n)) t inner →
      inorder t = before inner ++ after inner := by
    intro inner place
    rw [place.shape, inorder_plug]
    simp
  cases looked with
  | found n => exact absurd rfl (missed n)
  | empty shape => exact ⟨[], [], by rw [shape]; rfl, by simp, by simp⟩
  | left p s path place
  | right s p path place => exact ⟨_, _, around place, place.below, place.above⟩

theorem missed (looked : Looked cmp table t buffer result) (missed : ∀ n, result ≠ .foundNode n) :
    ∀ n ∈ inorder t, cmp buffer (table.userData n) ≠ .eq := by
  intro n mem
  obtain ⟨xs, ys, split, below, above⟩ := looked.between missed
  rw [split, mem_append] at mem
  rcases mem with mem | mem
  · simp [below n mem]
  · simp [above n mem]

end Looked

/-- **A lookup answers the element with the key, and `NULL` if there is none.** -/
theorem lookupElement_spec [Std.TransCmp cmp] (represents : Represents cmp table t) (buffer : ε)
    (enough : (inorder t).length + 1 ≤ fuel) :
    ∃ answer, lookupElementGenericTableAvl cmp fuel table buffer = some answer ∧
      ((answer = null ∧ ∀ n ∈ inorder t, cmp buffer (table.userData n) ≠ .eq) ∨
        (answer ∈ inorder t ∧ cmp buffer (table.userData answer) = .eq)) := by
  obtain ⟨result, found, looked⟩ := findNodeOrParent_spec represents buffer enough
  rw [lookupElementGenericTableAvl, lookupElementGenericTableFullAvl, found]
  have missed := looked.missed
  cases looked with
  | found n mem same => exact ⟨n, rfl, .inr ⟨mem, same⟩⟩
  | empty | left
  | right => exact ⟨null, rfl, .inl ⟨rfl, missed (by simp)⟩⟩

/-! ## Inserting -/

/-- The outcome of hanging a new node with the data `buffer` into the tree `t`. -/
structure Inserted (cmp : ε → ε → Ordering) (table table' : Table ε) (node : Addr)
    (buffer : ε) (t t' : BinaryTree Addr) (xs ys : List Addr) : Prop where
  hangs : Hangs table'.nodes.links null table.balancedRoot t'
  exact : Exact table'.nodes.balance t'
  split : inorder t = xs ++ ys
  sequence : inorder t' = xs ++ node :: ys
  below : ∀ n ∈ xs, cmp buffer (table.userData n) = .gt
  above : ∀ n ∈ ys, cmp buffer (table.userData n) = .lt
  data : table'.userData = update table.userData node buffer
  root : table'.balancedRoot = table.balancedRoot
  restartKey : table'.restartKey = table.restartKey
  deleteCount : table'.deleteCount = table.deleteCount
  count : table'.numberGenericTableElements = ulong (table.numberGenericTableElements + 1)
  depth : (t'.height = t.height + 1 ∧ table'.depthOfTree = ulong (table.depthOfTree + 1)) ∨
    (t'.height = t.height ∧ table'.depthOfTree = table.depthOfTree)

variable {node : Addr}

/-- The climb from the place where the search has ended. -/
theorem inserted_below {links : Links Addr} {path : List (Crumb Addr)}
    (represents : Represents cmp table t) (fresh : node ∉ null :: table.balancedRoot :: inorder t)
    (place : PlaceOf (fun n => cmp buffer (table.userData n)) t path)
    (leaf : Hangs links null table.balancedRoot (plug (.node node .nil .nil) path))
    (enough : (inorder t).length + 1 ≤ fuel) :
    ∃ outcome t', growFrom null table.balancedRoot charField fuel table.nodes links
        (above table.balancedRoot path) node = some outcome ∧
      Inserted cmp table
        { { table with
            numberGenericTableElements := ulong (table.numberGenericTableElements + 1)
          }.grown outcome with
          userData := update table.userData node buffer }
        node buffer t t' (before path) (after path) := by
  obtain ⟨rfl, below, onward⟩ := place
  have short : path.length + 1 ≤ fuel := (Nat.succ_le_succ length_path_le).trans enough
  obtain ⟨k', arrived, t', run, hangs, exact, sequence, outcome⟩ := growFrom_spec charField_keeps
    represents.hangs represents.exact fresh leaf short
  refine ⟨(k', arrived), t', run, hangs, exact, by simp [inorder_plug], sequence, below, onward,
    rfl, rfl, rfl, rfl, rfl, ?_⟩
  rw [height_plug]
  rcases outcome with ⟨-, height, rfl⟩ | ⟨-, height, rfl⟩
  · exact .inl ⟨height, rfl⟩
  · exact .inr ⟨height, rfl⟩

/-- **A new element is hung into its place.** -/
theorem insertElementFull_spec {allocated : Addr} (represents : Represents cmp table t)
    (looked : Looked cmp table t buffer result) (missed : ∀ n, result ≠ .foundNode n)
    (fresh : allocated ∉ null :: table.balancedRoot :: inorder t)
    (enough : (inorder t).length + 1 ≤ fuel) :
    ∃ table' t' xs ys, insertElementGenericTableFullAvl fuel table buffer allocated result =
        some ⟨table', allocated, true⟩ ∧
      Inserted cmp table table' allocated buffer t t' xs ys := by
  have present : allocated ≠ null := fun eq => fresh (by simp [eq])
  cases looked with
  | found n => exact absurd rfl (missed n)
  | empty shape =>
    -- the first element hangs off the table
    subst shape
    have run : insertElementGenericTableFullAvl fuel table buffer allocated .emptyTree =
        some ⟨{ table with
          nodes := (table.nodes.withLinks (hangRight null table.nodes.links table.balancedRoot
            allocated)).setBalance charField allocated 0
          userData := update table.userData allocated buffer
          numberGenericTableElements := ulong (table.numberGenericTableElements + 1)
          depthOfTree := 1 }, allocated, true⟩ := by
      simp [insertElementGenericTableFullAvl, present, hangNode]
    have depth : table.depthOfTree = 0 := represents.depth
    refine ⟨_, .node allocated .nil .nil, [], [], run, hangs_first represents.hangs fresh,
      by simp [Exact, charField], rfl, rfl, by simp, by simp, rfl, rfl, rfl, rfl, rfl,
      .inl ⟨rfl, ?_⟩⟩
    rw [depth]
    rfl
  | left p s path place | right s p path place =>
    have hangs := represents.hangs
    rw [place.shape] at hangs
    obtain ⟨outcome, t', run, inserted⟩ := inserted_below represents fresh place
      (hangs_hang hangs (place.shape ▸ fresh)) enough
    refine ⟨_, t', _, _, ?_, inserted⟩
    rw [above] at run
    simp only [insertElementGenericTableFullAvl, present, if_false, hangNode, run, Option.map_some]
    rfl

theorem height_le_length (t : BinaryTree Addr) : t.height ≤ (inorder t).length := by
  induction t with
  | nil => simp
  | node =>
    simp only [BinaryTree.height, inorder_node, length_append, length_cons]
    omega

variable {t' : BinaryTree Addr}

namespace Inserted

variable {table' : Table ε} {xs ys : List Addr}

variable (inserted : Inserted cmp table table' node buffer t t' xs ys)

include inserted

theorem length : (inorder t').length = (inorder t).length + 1 := by
  rw [inserted.split, inserted.sequence]
  simp only [length_append, length_cons]
  omega

theorem mem_iff (n : Addr) : n ∈ inorder t' ↔ n = node ∨ n ∈ inorder t := by
  rw [inserted.sequence, inserted.split]
  simp only [mem_append, mem_cons]
  tauto

theorem ownData : table'.userData node = buffer := by rw [inserted.data, update_self]

theorem sameData (fresh : node ∉ null :: table.balancedRoot :: inorder t) (mem : n ∈ inorder t) :
    table'.userData n = table.userData n := by
  have ne : n ≠ node := by
    rintro rfl
    exact fresh (by simp [mem])
  rw [inserted.data, update_of_ne ne]

theorem represents [Std.TransCmp cmp] (represents : Represents cmp table t)
    (fresh : node ∉ null :: table.balancedRoot :: inorder t)
    (room : (inorder t).length + 1 < 2 ^ 32) : Represents cmp table' t' := by
  have size := height_le_length t
  have same : ∀ n ∈ xs ++ ys, table'.userData n = table.userData n := fun n mem =>
    inserted.sameData fresh (inserted.split ▸ mem)
  refine ⟨inserted.root ▸ inserted.hangs, inserted.exact, ?_, ?_, ?_, ?_⟩
  · rcases inserted.depth with ⟨height, depth⟩ | ⟨height, depth⟩
    · rw [depth, height, represents.depth, ulong_eq (by omega)]
    · rw [depth, height, represents.depth]
  · rw [inserted.count, represents.count, inserted.length, ulong_eq room]
  · have old : (xs ++ ys).Pairwise fun n n' =>
        cmp (table'.userData n) (table'.userData n') = .lt := by
      refine (inserted.split ▸ represents.inOrder).imp_of_mem fun {n n'} mem mem' lower => ?_
      rwa [same n mem, same n' mem']
    have apart := pairwise_append.mp old
    rw [inserted.sequence, pairwise_append, pairwise_cons]
    refine ⟨apart.1, ⟨fun n mem => ?_, apart.2.1⟩, fun n mem n' mem' => ?_⟩
    · rw [inserted.ownData, same n (mem_append_right xs mem)]
      exact inserted.above n mem
    · rcases mem_cons.mp mem' with rfl | mem'
      · rw [inserted.ownData, same n (mem_append_left ys mem)]
        exact Std.OrientedCmp.lt_of_gt (inserted.below n mem)
      · exact apart.2.2 n mem n' mem'
  · rw [inserted.restartKey, mem_cons, inserted.mem_iff]
    exact (mem_cons.mp represents.restart).imp_right .inr

end Inserted

/-! ## Deleting -/

/-- The outcome of taking out a node that stood between `xs` and `ys`. -/
structure Deleted (table table' : Table ε) (node : Addr) (t t' : BinaryTree Addr)
    (xs ys : List Addr) : Prop where
  hangs : Hangs table'.nodes.links null table.balancedRoot t'
  exact : Exact table'.nodes.balance t'
  split : inorder t = xs ++ node :: ys
  sequence : inorder t' = xs ++ ys
  data : table'.userData = table.userData
  root : table'.balancedRoot = table.balancedRoot
  restartKey : table'.restartKey =
    if node = table.restartKey then xs.getLastD null else table.restartKey
  deleteCount : table'.deleteCount = ulong (table.deleteCount + 1)
  count : table'.numberGenericTableElements = ulongSub table.numberGenericTableElements 1
  depth : (t'.height = t.height ∧ table'.depthOfTree = table.depthOfTree) ∨
    (t'.height + 1 = t.height ∧ table'.depthOfTree = ulongSub table.depthOfTree 1)

/-- **A deletion takes out the element with the key, if there is one.** -/
theorem deleteElement_spec [Std.TransCmp cmp] (represents : Represents cmp table t) (buffer : ε)
    (enough : (inorder t).length + 1 ≤ fuel) :
    (∃ table' node t' xs ys, deleteElementGenericTableAvl cmp fuel table buffer =
        some (table', true) ∧ cmp buffer (table.userData node) = .eq ∧
        Deleted table table' node t t' xs ys) ∨
      (deleteElementGenericTableAvl cmp fuel table buffer = some (table, false) ∧
        ∀ n ∈ inorder t, cmp buffer (table.userData n) ≠ .eq) := by
  obtain ⟨result, found, looked⟩ := findNodeOrParent_spec represents buffer enough
  have missed := looked.missed
  cases looked with
  | empty | left | right =>
    exact .inr ⟨by rw [deleteElementGenericTableAvl, found], missed (by simp)⟩
  | found node mem same =>
    obtain ⟨xs, ys, split⟩ := append_of_mem mem
    obtain ⟨k', shorter, t', run, hangs, exact, sequence, height⟩ := takeOut_spec
      charField_keeps represents.hangs represents.exact split enough
    -- an enumeration that stands at the node goes back to the one before it
    have restart : (if node = table.restartKey then
          realPredecessor fuel table.nodes.links node else some table.restartKey) =
        some (if node = table.restartKey then xs.getLastD null else table.restartKey) := by
      rw [realPredecessor, predecessor_eq represents.hangs split enough]
      split <;> rfl
    have whole : deleteElementGenericTableAvl cmp fuel table buffer = some ({ table with
        nodes := k'
        restartKey := if node = table.restartKey then xs.getLastD null else table.restartKey
        deleteCount := ulong (table.deleteCount + 1)
        depthOfTree :=
          if shorter then ulongSub table.depthOfTree 1 else table.depthOfTree
        numberGenericTableElements :=
          ulongSub table.numberGenericTableElements 1 }, true) := by
      simp only [deleteElementGenericTableAvl, found, restart, deleteNodeFromTree, run,
        Option.map_some]
    refine .inl ⟨_, node, t', xs, ys, whole, same, hangs, exact, split, sequence, rfl, rfl, rfl,
      rfl, rfl, ?_⟩
    rcases height with ⟨level, rfl⟩ | ⟨lower, rfl⟩
    · exact .inl ⟨level, by simp⟩
    · exact .inr ⟨lower, by simp⟩

namespace Deleted

variable {table' : Table ε} {xs ys : List Addr} (deleted : Deleted table table' node t t' xs ys)

include deleted

theorem length : (inorder t).length = (inorder t').length + 1 := by
  rw [deleted.split, deleted.sequence]
  simp only [length_append, length_cons]
  omega

theorem sublist : Sublist (inorder t') (inorder t) := by
  rw [deleted.split, deleted.sequence]
  exact (Sublist.refl xs).append (sublist_cons_self node ys)

/-- The nodes that are left after a deletion. -/
theorem mem_iff (distinct : (inorder t).Nodup) (n : Addr) :
    n ∈ inorder t' ↔ n ∈ inorder t ∧ n ≠ node := by
  rw [deleted.split, nodup_middle] at distinct
  rw [deleted.sequence, deleted.split]
  grind

theorem represents (represents : Represents cmp table t)
    (room : (inorder t).length < 2 ^ 32) : Represents cmp table' t' := by
  have size := height_le_length t
  have shorter := deleted.length
  refine ⟨deleted.root ▸ deleted.hangs, deleted.exact, ?_, ?_, ?_, ?_⟩
  · rcases deleted.depth with ⟨height, depth⟩ | ⟨height, depth⟩
    · rw [depth, height, represents.depth]
    · rw [depth, represents.depth, ulongSub_eq (by omega) (by omega)]
      omega
  · rw [deleted.count, represents.count, ulongSub_eq (by omega) room]
    omega
  · rw [deleted.data]
    exact represents.inOrder.sublist deleted.sublist
  · rw [deleted.restartKey]
    split
    next =>
      rw [deleted.sequence]
      exact ((sublist_append_left xs ys).cons_cons null).mem getLastD_mem_cons
    next ne =>
      rw [mem_cons, deleted.mem_iff represents.nodup]
      exact (mem_cons.mp represents.restart).imp_right fun mem => ⟨mem, .symm ne⟩

end Deleted

/-! ## Enumerating -/

variable (represents : Represents cmp table t)

include represents

variable {restartKey : Addr}

/-- **An enumeration answers the element after the restart key.** -/
theorem enumerate_spec {xs ys : List Addr}
    (split : inorder t = xs ++ ys) (restart : restartKey = xs.getLastD null)
    (enough : (inorder t).length + 1 ≤ fuel) :
    enumerateGenericTableWithoutSplayingAvl fuel table restartKey =
      some ((xs ++ ys.take 1).getLastD null, ys.headD null) := by
  rw [enumerateGenericTableWithoutSplayingAvl]
  by_cases empty : isGenericTableEmptyAvl table
  · have none := split.symm.trans (represents.isEmpty_iff.mp empty)
    rw [append_eq_nil_iff] at none
    rw [if_pos empty, restart, none.1, none.2]
    rfl
  · rw [if_neg empty]
    rcases eq_nil_or_concat xs with rfl | ⟨front, last, rfl⟩
    · rw [getLastD_nil] at restart
      rw [if_pos restart, represents.hangs.anchor]
      cases t with
      | nil => exact absurd (represents.isEmpty_iff.mpr rfl) empty
      | node a l r =>
        rw [rootOf_node, leftmost_head represents.hangs.linked represents.absent (by omega), split]
        cases ys with
        | nil => simp at split
        | cons => rfl
    · rw [concat_eq_append] at split restart ⊢
      rw [getLastD_concat] at restart
      rw [append_assoc, ← restart] at split
      have present : restartKey ≠ null := by
        rintro rfl
        exact represents.absent (by rw [split]; simp)
      rw [if_neg present, realSuccessor, successor_eq represents.hangs split enough]
      cases ys with
      | nil => simp [restart]
      | cons y =>
        have next : y ≠ null := by
          rintro rfl
          exact represents.absent (by rw [split]; simp)
        simp [next]

omit represents in
/-- Without a match function the first node is the answer. -/
theorem matchLoop_matchAll (node : Addr) (enough : 0 < fuel) :
    matchLoop table ((none : Option (ε → MatchStatus)).getD matchAll) fuel node =
      some (node, .success) := by
  obtain ⟨fuel, rfl⟩ : ∃ n, fuel = n + 1 := ⟨fuel - 1, by omega⟩
  rw [matchLoop]
  split
  next eq => rw [eq]
  next => rfl

/-- The nodes an enumeration that starts from a key may still answer. -/
def Onward (cmp : ε → ε → Ordering) (table : Table ε) (buffer : ε)
    (nextFlag : Bool) (n : Addr) : Prop :=
  if nextFlag then cmp buffer (table.userData n) = .lt
  else cmp buffer (table.userData n) ≠ .gt

/-- Resuming by a key leads to the first node onward from it. -/
theorem resumeByKey_spec [Std.TransCmp cmp] (nonempty : inorder t ≠ []) (buffer : ε)
    (nextFlag : Bool) (enough : (inorder t).length + 1 ≤ fuel) :
    ∃ node skip xs ys, resumeByKey cmp fuel table buffer nextFlag = some (node, skip) ∧
      (if skip then realSuccessor fuel table.nodes.links node else some node) =
        some (ys.headD null) ∧
      inorder t = xs ++ ys ∧ (∀ n ∈ xs, ¬ Onward cmp table buffer nextFlag n) ∧
      (∀ n ∈ ys, Onward cmp table buffer nextFlag n) := by
  obtain ⟨result, found, looked⟩ := findNodeOrParent_spec represents buffer enough
  have low : ∀ n, cmp buffer (table.userData n) = .gt → ¬ Onward cmp table buffer nextFlag n := by
    intro n gt
    cases nextFlag <;> simp [Onward, gt]
  have high : ∀ n, cmp buffer (table.userData n) = .lt → Onward cmp table buffer nextFlag n := by
    intro n lt
    cases nextFlag <;> simp [Onward, lt]
  rw [resumeByKey, found]
  cases looked with
  | empty shape => exact absurd (by rw [shape]; rfl) nonempty
  | found n mem same =>
    -- the key is there, and is skipped if the caller wants the next one
    obtain ⟨xs, ys, split⟩ := append_of_mem mem
    have respects := pairwise_append.mp (split ▸ respects_compare buffer represents.inOrder)
    have before : ∀ a ∈ xs, cmp buffer (table.userData a) = .gt := by
      intro a mem
      by_contra reached
      have lt := respects.2.2 a mem n (by simp) reached
      exact absurd (same.symm.trans lt) (by decide)
    have after : ∀ a ∈ ys, cmp buffer (table.userData a) = .lt := by
      intro a mem
      exact (pairwise_cons.mp respects.2.1).1 a mem (by simp [same])
    cases nextFlag with
    | true =>
      refine ⟨n, true, xs ++ [n], ys, rfl, ?_, by simp [split], fun a mem => ?_,
        fun a mem => high a (after a mem)⟩
      · simp only [if_true, realSuccessor, successor_eq represents.hangs split enough]
      · rw [mem_append, mem_singleton] at mem
        rcases mem with mem | rfl
        · exact low a (before a mem)
        · simp [Onward, same]
    | false =>
      refine ⟨n, false, xs, n :: ys, rfl, by simp, split, fun a mem => low a (before a mem),
        fun a mem => ?_⟩
      rcases mem_cons.mp mem with rfl | mem
      · simp [Onward, same]
      · exact high a (after a mem)
  | left p s path place =>
    refine ⟨p, false, _, _, rfl, ?_, ?_, fun a mem => low a (place.below a mem),
      fun a mem => high a (place.above a mem)⟩
    · simp [after]
    · rw [place.shape, inorder_plug]
      simp
  | right s p path place =>
    have split : inorder t = (before path ++ inorder s) ++ p :: after path := by
      rw [place.shape, inorder_plug]
      simp [before, after]
    refine ⟨(after path).headD null, false, before (.rightOf s p :: path),
      after (.rightOf s p :: path), ?_, ?_, ?_, fun a mem => low a (place.below a mem),
      fun a mem => high a (place.above a mem)⟩
    · simp only [realSuccessor, successor_eq represents.hangs split enough, Option.map_some]
    · simp [after]
    · rw [split]
      simp [before, after]

theorem directoryAnswer_head {xs ys : List Addr}
    (split : inorder t = xs ++ ys) {answer refused : DirectoryAnswer} (none : refused.element = null)
    (eq : answer = if ys.headD null ≠ null then
      ⟨ys.headD null, ys.headD null, table.deleteCount⟩ else refused) :
    answer.element = ys.headD null ∧
      (ys ≠ [] → answer.restartKey = ys.headD null ∧ answer.deleteCount = table.deleteCount) := by
  subst eq
  constructor
  · split
    next => rfl
    next eq => rw [none, not_not.mp eq]
  · intro some
    rw [if_pos (represents.head_ne_null split some)]
    exact ⟨rfl, rfl⟩

/-- **An enumeration like that of a directory answers the first element onward from its key**,
if it has no node to go on from. -/
theorem directory_byKey [Std.TransCmp cmp] {deleteCount : Nat} (buffer : ε) (nextFlag : Bool)
    (stale : restartKey = null ∨ deleteCount ≠ table.deleteCount)
    (enough : (inorder t).length + 1 ≤ fuel) :
    ∃ answer xs ys, enumerateGenericTableLikeADirectory cmp fuel table none nextFlag
        restartKey deleteCount buffer = some answer ∧
      inorder t = xs ++ ys ∧ (∀ n ∈ xs, ¬ Onward cmp table buffer nextFlag n) ∧
      (∀ n ∈ ys, Onward cmp table buffer nextFlag n) ∧
      answer.element = ys.headD null ∧
      (ys ≠ [] → answer.restartKey = ys.headD null ∧ answer.deleteCount = table.deleteCount) := by
  by_cases empty : isGenericTableEmptyAvl table
  · refine ⟨⟨null, null, deleteCount⟩, [], [], ?_, represents.isEmpty_iff.mp empty, by simp,
      by simp, rfl, by simp⟩
    rw [enumerateGenericTableLikeADirectory, if_pos empty]
  · have nonempty : inorder t ≠ [] := fun none => empty (represents.isEmpty_iff.mpr none)
    obtain ⟨node, skip, xs, ys, resumed, skipped, split, below, onward⟩ :=
      resumeByKey_spec represents nonempty buffer nextFlag enough
    have noNode : (if deleteCount ≠ table.deleteCount then null else restartKey) = null := by
      split
      next => rfl
      next same => exact stale.resolve_right same
    have call : enumerateGenericTableLikeADirectory cmp fuel table none nextFlag
        restartKey deleteCount buffer = some (if ys.headD null ≠ null then
          ⟨ys.headD null, ys.headD null, table.deleteCount⟩ else ⟨null, restartKey, deleteCount⟩) := by
      rw [enumerateGenericTableLikeADirectory, if_neg empty]
      simp only [noNode, if_true, resumed, skipped, matchLoop_matchAll _ (show 0 < fuel by omega),
        Option.map_some]
    exact ⟨_, xs, ys, call, split, below, onward, directoryAnswer_head represents split rfl rfl⟩

/-- **An enumeration like that of a directory answers the element after its node**, if nothing
has been deleted. -/
theorem directory_byNode {x : Addr} {xs ys : List Addr} (buffer : ε)
    (split : inorder t = xs ++ x :: ys) (enough : (inorder t).length + 1 ≤ fuel) :
    ∃ answer, enumerateGenericTableLikeADirectory cmp fuel table none true x
        table.deleteCount buffer = some answer ∧ answer.element = ys.headD null ∧
      (ys ≠ [] → answer.restartKey = ys.headD null ∧ answer.deleteCount = table.deleteCount) := by
  have nonempty : ¬ isGenericTableEmptyAvl table := by
    rw [represents.isEmpty_iff, split]
    simp
  have present : x ≠ null := by
    rintro rfl
    exact represents.absent (by rw [split]; simp)
  have call : enumerateGenericTableLikeADirectory cmp fuel table none true x
      table.deleteCount buffer = some (if ys.headD null ≠ null then
        ⟨ys.headD null, ys.headD null, table.deleteCount⟩
          else ⟨null, x, table.deleteCount⟩) := by
    rw [enumerateGenericTableLikeADirectory, if_neg nonempty]
    simp only [ne_eq, not_true, if_false, present, if_true, realSuccessor,
      successor_eq represents.hangs split enough, matchLoop_matchAll _ (show 0 < fuel by omega),
      Option.map_some]
  exact ⟨_, call, directoryAnswer_head represents (split.trans (append_cons xs x ys)) rfl rfl⟩

end Ntoskrnl.Rtl.AvlTable
