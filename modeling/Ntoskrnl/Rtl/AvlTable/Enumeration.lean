/-
# Ntoskrnl.Rtl.AvlTable.Enumeration -- enumerations among insertions and deletions

`RtlEnumerateGenericTableAvl` remembers in the table the node it answered last; a
deletion of that node moves the memory to the node before it.
`RtlEnumerateGenericTableLikeADirectory` leaves the node and the number of deletions
with the caller, and looks for the last key again when something has been deleted.

Both are scans of the table: every answer is the least element above the last one.
For the first routine a new key must not come between the remembered node and the last
answer.  That cannot happen while the last answer is in the table, but once it has been
deleted it can, and `reinserted_below_last` is such a run: the enumeration answers 5
and then 3.  The second routine relies on fewer than `2 ^ 32` deletions between two of
its calls.
-/
import Ntoskrnl.Lib.OrderedScan
import Ntoskrnl.Rtl.AvlTable.Runs

namespace Ntoskrnl.Rtl.AvlTable

set_option autoImplicit false

open Base Lib.LinkedTree Lib.SplayTree Lib.OrderedScan List

variable {ε : Type}

/-! ## Enumerations as scans -/

variable (cmp : ε → ε → Ordering) (table : Table ε)

/-- The order of the elements. -/
def Lower (p q : Addr × ε) : Prop :=
  cmp p.2 q.2 = .lt

/-- The element is in the table after these calls. -/
def Live (history : List (Event ε)) (p : Addr × ε) : Prop :=
  stored cmp history p.2 = some p

/-- The answers with one more, unless it is `NULL`. -/
def answered (element : Addr) (answers : List (Addr × ε)) : List (Addr × ε) :=
  if element = null then answers else (element, table.userData element) :: answers

/-- A new key comes after the last answer or before the remembered node. -/
def Undisturbed (answers : List (Addr × ε)) (buffer : ε) : Prop :=
  (∀ last ∈ answers.head?, cmp last.2 buffer = .lt) ∨ (table.restartKey ≠ null ∧
      cmp buffer (table.userData table.restartKey) = .lt)

/-- One enumeration by `RtlEnumerateGenericTableAvl` with changes in between: the table, the
calls, the elements that have been in the table all the time, the answers with the last one
first, and whether `NULL` has been answered.  `allowed` restricts the keys that are new. -/
inductive TableScan (cmp : ε → ε → Ordering)
    (allowed : Table ε → List (Addr × ε) → ε → Prop) :
    Table ε → List (Event ε) → (Addr × ε → Prop) → List (Addr × ε) → Bool → Prop where
  | first {table table' : Table ε} {history : List (Event ε)}
      (run : Run cmp (Roomy cmp) table history) (fuel : Nat)
      (element : Addr) (enough : size cmp history + 1 ≤ fuel)
      (call : enumerateGenericTableAvl fuel table true = some (table', element)) :
      TableScan cmp allowed table' (.enumerate true :: history)
        (Live cmp history) (answered table element []) (element == null)
  | change {table table' : Table ε} {history history' : List (Event ε)}
      {stays : Addr × ε → Prop} {answers : List (Addr × ε)}
      (scan : TableScan cmp allowed table history stays answers false)
      (step : Step cmp (fun past buffer allocated =>
        Roomy cmp past buffer allocated ∧ (allocated ≠ null →
          stored cmp past buffer = none → allowed table answers buffer))
          table history table' history') :
      TableScan cmp allowed table' history' (fun p => stays p ∧ Live cmp history' p) answers false
  | next {table table' : Table ε} {history : List (Event ε)} {stays : Addr × ε → Prop}
      {answers : List (Addr × ε)}
      (scan : TableScan cmp allowed table history stays answers false) (fuel : Nat)
      (element : Addr) (enough : size cmp history + 1 ≤ fuel)
      (call : enumerateGenericTableAvl fuel table false = some (table', element)) :
      TableScan cmp allowed table' (.enumerate false :: history) stays
        (answered table element answers) (element == null)

/-- One enumeration by `RtlEnumerateGenericTableLikeADirectory` from the key `start` on, without
a match function: as before, with the node and the count the caller passes back and the number of
deletions since the last call. -/
inductive DirectoryScan (cmp : ε → ε → Ordering) (start : ε) :
    Table ε → List (Event ε) → DirectoryAnswer → Nat → (Addr × ε → Prop) →
      List (Addr × ε) → Bool → Prop where
  | first {table : Table ε} {history : List (Event ε)}
      (run : Run cmp (Roomy cmp) table history) (fuel deleteCount : Nat)
      (answer : DirectoryAnswer) (enough : size cmp history + 1 ≤ fuel)
      (call : enumerateGenericTableLikeADirectory cmp fuel table none false null
        deleteCount start = some answer) :
      DirectoryScan cmp start table history answer 0 (Live cmp history)
        (answered table answer.element []) (answer.element == null)
  | change {table table' : Table ε} {history history' : List (Event ε)}
      {answer : DirectoryAnswer} {deletes : Nat} {stays : Addr × ε → Prop}
      {answers : List (Addr × ε)}
      (scan : DirectoryScan cmp start table history answer deletes stays answers false)
      (step : Step cmp (Roomy cmp) table history table' history')
      (few : deletes + (size cmp history - size cmp history') < 2 ^ 32) :
      DirectoryScan cmp start table' history' answer
        (deletes + (size cmp history - size cmp history'))
        (fun p => stays p ∧ Live cmp history' p) answers false
  | next {table : Table ε} {history : List (Event ε)} {answer : DirectoryAnswer}
      {deletes : Nat} {stays : Addr × ε → Prop} {last : Addr × ε} {answers : List (Addr × ε)}
      (scan : DirectoryScan cmp start table history answer deletes stays (last :: answers) false)
      (fuel : Nat) (buffer : ε) (same : cmp buffer last.2 = .eq)
      (answer' : DirectoryAnswer) (enough : size cmp history + 1 ≤ fuel)
      (call : enumerateGenericTableLikeADirectory cmp fuel table none true
        answer.restartKey answer.deleteCount buffer = some answer') :
      DirectoryScan cmp start table history answer' 0 stays
        (answered table answer'.element (last :: answers)) (answer'.element == null)

variable {cmp : ε → ε → Ordering} {table table' : Table ε}
  {history history' : List (Event ε)} {t : BinaryTree Addr} {answers : List (Addr × ε)}
  {floor : Addr × ε → Prop}
  [Std.TransCmp cmp]

theorem Kept.live_iff (kept : Kept cmp table history t) (p : Addr × ε) :
    Live cmp history p ↔ p.1 ∈ inorder t ∧ table.userData p.1 = p.2 := by
  rw [Live, kept.stored]
  simp [Std.ReflCmp.compare_self]

/-! ## The position of an enumeration -/

/-- The elements are those an enumeration has gone past, then those still to come. -/
structure Position (cmp : ε → ε → Ordering) (floor : Addr × ε → Prop)
    (table : Table ε) (answers : List (Addr × ε)) (t : BinaryTree Addr) (xs ys : List Addr) :
    Prop where
  split : inorder t = xs ++ ys
  past : ∀ n ∈ xs, ¬ ToCome (Lower cmp) floor answers (n, table.userData n)
  ahead : ∀ n ∈ ys, ToCome (Lower cmp) floor answers (n, table.userData n)

namespace Position

variable {xs ys : List Addr}

/-- The first of the elements still to come is the right answer. -/
theorem right_answer (kept : Kept cmp table history t)
    (position : Position cmp floor table answers t xs ys) :
    Answers (Lower cmp) (Live cmp history) (ToCome (Lower cmp) floor answers)
      (ys.head?.map fun n => (n, table.userData n)) := by
  have place : ∀ p, Live cmp history p →
      ToCome (Lower cmp) floor answers p → p.1 ∈ ys ∧ p = (p.1, table.userData p.1) := by
    intro p live ahead
    obtain ⟨mem, data⟩ := (kept.live_iff p).mp live
    have whole : p = (p.1, table.userData p.1) := by rw [data]
    rw [position.split, mem_append] at mem
    exact ⟨mem.resolve_left fun mem => position.past p.1 mem (whole ▸ ahead), whole⟩
  have inOrder := kept.represents.inOrder
  rw [position.split] at inOrder
  cases ys with
  | nil =>
    refine .finished fun p live ahead => ?_
    exact absurd (place p live ahead).1 not_mem_nil
  | cons y =>
    refine .next _ ?_ (position.ahead y (by simp)) fun p live ahead => ?_
    · refine (kept.live_iff _).mpr ⟨?_, rfl⟩
      rw [position.split]
      simp
    · obtain ⟨mem, whole⟩ := place p live ahead
      rcases mem_cons.mp mem with eq | mem
      · exact .inl (by rw [whole, eq])
      · have lower := (pairwise_cons.mp (pairwise_append.mp inOrder).2.1).1 p.1 mem
        refine .inr ?_
        rw [whole]
        exact lower

/-- After an answer the element is past. -/
theorem advance {y : Addr} (represents : Represents cmp table t)
    (position : Position cmp floor table answers t xs (y :: ys)) :
    Position cmp floor table ((y, table.userData y) :: answers) t (xs ++ [y]) ys := by
  have inOrder := represents.inOrder
  rw [position.split] at inOrder
  obtain ⟨-, order, apart⟩ := pairwise_append.mp inOrder
  refine ⟨by rw [position.split]; simp, fun n mem => ?_, (pairwise_cons.mp order).1⟩
  show ¬ cmp (table.userData y) (table.userData n) = .lt
  rw [mem_append, mem_singleton] at mem
  rcases mem with mem | rfl
  · rw [Std.OrientedCmp.gt_of_lt (apart n mem y (by simp))]
    decide
  · rw [show cmp (table.userData n) (table.userData n) = .eq from
      Std.ReflCmp.compare_self]
    decide

omit [Std.TransCmp cmp] in
/-- The data of the elements is the same in another memory. -/
theorem elsewhere (position : Position cmp floor table answers t xs ys)
    (same : ∀ n ∈ inorder t, table'.userData n = table.userData n) :
    Position cmp floor table' answers t xs ys := by
  have data : ∀ n ∈ xs ++ ys, table'.userData n = table.userData n := fun n mem =>
    same n (position.split ▸ mem)
  refine ⟨position.split, fun n mem => ?_, fun n mem => ?_⟩
  · rw [data n (mem_append_left ys mem)]
    exact position.past n mem
  · rw [data n (mem_append_right xs mem)]
    exact position.ahead n mem

end Position

variable {p : Addr × ε} {node : Addr} {buffer : ε} {t' : BinaryTree Addr} {as bs : List Addr}
  {ended : Bool}

/-- What is still to come is closed upwards. -/
theorem toCome_upward {q : Addr × ε} (ahead : ToCome (Lower cmp) (fun _ => True) answers p)
    (lower : Lower cmp p q) :
    ToCome (Lower cmp) (fun _ => True) answers q := by
  cases answers with
  | nil => trivial
  | cons => exact Std.TransCmp.lt_trans ahead lower

/-- The table remembers the last of the elements past. -/
structure Cursor (cmp : ε → ε → Ordering) (table : Table ε)
    (answers : List (Addr × ε)) (t : BinaryTree Addr) (xs ys : List Addr) : Prop where
  position : Position cmp (fun _ => True) table answers t xs ys
  restartKey : table.restartKey = xs.getLastD null

namespace Cursor

variable {xs ys : List Addr}

section Changes

variable (cursor : Cursor cmp table answers t xs ys)

include cursor

section Insert

variable (inserted : Inserted cmp table table' node buffer t t' as bs)
  (fresh : node ∉ null :: table.balancedRoot :: inorder t)

include inserted fresh

/-- A new element above the last answer is among those to come. -/
theorem inserted_above (above : ToCome (Lower cmp) (fun _ => True) answers (node, buffer)) :
    ∃ ys', Cursor cmp table' answers t' xs ys' := by
  have position := cursor.position.elsewhere fun n mem => inserted.sameData fresh mem
  obtain ⟨zs, rfl, rfl⟩ : ∃ zs, as = xs ++ zs ∧ ys = zs ++ bs := by
    have same := cursor.position.split.symm.trans inserted.split
    rcases append_eq_append_iff.mp same with ⟨zs, left, right⟩ | ⟨zs, left, right⟩
    · exact ⟨zs, left, right⟩
    · -- An element past the cursor but above the new key would be still to come.
      cases zs with
      | nil => exact ⟨[], by simpa using left.symm, by simpa using right.symm⟩
      | cons z =>
        refine absurd (toCome_upward above ?_) (cursor.position.past z (by simp [left]))
        exact inserted.above z (by simp [right])
  refine ⟨zs ++ node :: bs, ⟨?_, position.past, fun n mem => ?_⟩, ?_⟩
  · rw [inserted.sequence]
    simp
  · rcases mem_cons.mp (perm_middle.mem_iff.mp mem) with rfl | mem
    · rw [inserted.ownData]
      exact above
    · exact position.ahead n mem
  · rw [inserted.restartKey, cursor.restartKey]

/-- A new element below the remembered node is past. -/
theorem inserted_below (remembers : table.restartKey ≠ null)
    (below : cmp buffer (table.userData table.restartKey) = .lt) :
    ∃ xs', Cursor cmp table' answers t' xs' ys := by
  have position := cursor.position.elsewhere fun n mem => inserted.sameData fresh mem
  have remembered : table.restartKey ∈ xs := by
    have mem : xs.getLastD null ∈ null :: xs := getLastD_mem_cons
    rw [← cursor.restartKey] at mem
    exact (mem_cons.mp mem).resolve_left remembers
  have above : table.restartKey ∉ as := fun mem => by
    have gt := inserted.below _ mem
    rw [below] at gt
    exact absurd gt (by decide)
  obtain ⟨z, zs, rfl, rfl⟩ : ∃ z zs, xs = as ++ z :: zs ∧ bs = z :: zs ++ ys := by
    have same := cursor.position.split.symm.trans inserted.split
    rcases append_eq_append_iff.mp same with ⟨zs, left, -⟩ | ⟨zs, left, right⟩
    · exact absurd (by simp [left, remembered]) above
    · cases zs with
      | nil => exact absurd (by simpa [left] using remembered) above
      | cons z zs => exact ⟨z, zs, left, right⟩
  refine ⟨as ++ node :: z :: zs, ⟨?_, fun n mem => ?_, position.ahead⟩, ?_⟩
  · rw [inserted.sequence]
    simp
  · rcases mem_cons.mp (perm_middle.mem_iff.mp mem) with rfl | mem
    · rw [inserted.ownData]
      exact fun ahead => cursor.position.past _ remembered (toCome_upward ahead below)
    · exact position.past n mem
  · rw [inserted.restartKey, cursor.restartKey]
    simp [getLastD_eq_getLast?]

end Insert

omit [Std.TransCmp cmp] in
/-- A deletion leaves the other elements where they are. -/
theorem deleted (represents : Represents cmp table t)
    (deleted : Deleted table table' node t t' as bs) :
    ∃ xs' ys', Cursor cmp table' answers t' xs' ys' := by
  have position : Position cmp (fun _ => True) table' answers t xs ys :=
    cursor.position.elsewhere fun n _ => by rw [deleted.data]
  have distinct := represents.nodup
  have absent := represents.absent
  have same := cursor.position.split.symm.trans deleted.split
  rw [deleted.split] at distinct absent
  have apart := (nodup_cons.mp (nodup_middle.mp distinct)).1
  have ahead : ∀ zs, as = xs ++ zs → ys = zs ++ node :: bs →
      Cursor cmp table' answers t' xs (zs ++ bs) := by
    rintro zs rfl rfl
    refine ⟨⟨by rw [deleted.sequence]; simp, position.past, fun n mem => ?_⟩, ?_⟩
    · exact position.ahead n (perm_middle.mem_iff.mpr (mem_cons_of_mem _ mem))
    · have other : node ≠ xs.getLastD null := by
        intro eq
        have mem : node ∈ null :: xs := eq ▸ getLastD_mem_cons
        rcases mem_cons.mp mem with rfl | mem
        · simp at absent
        · exact apart (by simp [mem])
      rw [deleted.restartKey, cursor.restartKey, if_neg other]
  rcases append_eq_append_iff.mp same with ⟨zs, left, right⟩ | ⟨zs, left, right⟩
  · exact ⟨xs, _, ahead zs left right⟩
  · cases zs with
    | nil => exact ⟨xs, _, ahead [] (by simpa using left.symm) (by simpa using right.symm)⟩
    | cons z zs =>
      obtain ⟨rfl, rfl⟩ := right
      subst left
      refine ⟨as ++ zs, ys, ⟨by rw [deleted.sequence]; simp, fun n mem => ?_, position.ahead⟩, ?_⟩
      · exact position.past n (perm_middle.mem_iff.mpr (mem_cons_of_mem _ mem))
      · rw [deleted.restartKey, cursor.restartKey]
        -- The remembered node goes only if it is the last one past.
        rcases eq_nil_or_concat zs with rfl | ⟨front, last, rfl⟩
        · simp
        · have other : node ≠ last := by
            rintro rfl
            exact apart (by simp)
          simp [getLastD_eq_getLast?, getLast?_cons, other]

end Changes

end Cursor

/-! ## Whole enumerations -/

variable {stays : Addr × ε → Prop} {fuel : Nat} {element : Addr} {xs ys : List Addr}

theorem scan_answered (kept : Kept cmp table history t)
    (scan : Scan (Lower cmp) floor (Live cmp history) stays answers false)
    (position : Position cmp floor table answers t xs ys)
    (head : element = ys.headD null) :
    Scan (Lower cmp) floor (Live cmp history) stays
      (answered table element answers) (element == null) := by
  have right := position.right_answer kept
  cases ys with
  | nil =>
    subst head
    exact scan.finish right
  | cons y =>
    obtain rfl : element = y := head
    have present : element ≠ null := kept.represents.head_ne_null position.split (by simp)
    rw [answered, if_neg present, beq_false_of_ne present]
    exact scan.answer _ right

theorem position_begin (cmp : ε → ε → Ordering) (table : Table ε)
    (t : BinaryTree Addr) : Position cmp (fun _ => True) table [] t [] (inorder t) :=
  ⟨rfl, by simp, fun _ _ => trivial⟩

/-- A call of `RtlEnumerateGenericTableAvl`. -/
theorem tableScan_call (restart : Bool) (kept : Kept cmp table history t)
    (scan : Scan (Lower cmp) (fun _ => True) (Live cmp history) stays answers false)
    (position : Position cmp (fun _ => True) table answers t xs ys)
    (from_ : (if restart then null else table.restartKey) = xs.getLastD null)
    (enough : size cmp history + 1 ≤ fuel)
    (call : enumerateGenericTableAvl fuel table restart = some (table', element)) :
    Scan (Lower cmp) (fun _ => True) (Live cmp (.enumerate restart :: history)) stays
        (answered table element answers) (element == null) ∧
      ((element == null) = false → ∃ xs' ys', Kept cmp table' (.enumerate restart :: history) t ∧
          Cursor cmp table' (answered table element answers) t xs' ys') := by
  rw [enumerateGenericTableAvl, enumerate_spec kept.represents position.split from_
    (kept.size ▸ enough)] at call
  obtain ⟨rfl, rfl⟩ := Prod.mk.inj (Option.some.inj call)
  have answer := scan_answered kept scan position rfl
  refine ⟨answer, fun more => ?_⟩
  cases ys with
  | nil => exact absurd more (by simp)
  | cons y ys =>
    have present : y ≠ null := kept.represents.head_ne_null position.split (by simp)
    refine ⟨xs ++ [y], ys, ⟨kept.represents.moved ?_, kept.stored, kept.size⟩, ?_⟩
    · rw [take_succ_cons, take_zero, getLastD_concat, position.split]
      simp
    · rw [headD_cons, answered, if_neg present]
      exact ⟨(position.advance kept.represents).elsewhere fun _ _ => rfl, by simp⟩

/-- A change between two calls. -/
theorem tableScan_change (represents : Represents cmp table t)
    (cursor : Cursor cmp table answers t xs ys)
    (effect : Effect cmp (fun past buffer allocated =>
      Roomy cmp past buffer allocated ∧ (allocated ≠ null →
        stored cmp past buffer = none → Undisturbed cmp table answers buffer))
      table table' history history' t t') :
    ∃ xs' ys', Cursor cmp table' answers t' xs' ys' := by
  cases effect with
  | same data restartKey =>
    exact ⟨xs, ys, cursor.position.elsewhere data, restartKey.trans cursor.restartKey⟩
  | gone node t' as bs deleted => exact cursor.deleted represents deleted
  | added buffer allocated t' as bs admitted absent fresh inserted =>
    rcases admitted.2 (ne_of_not_mem_cons fresh) absent with above | ⟨remembers, below⟩
    · obtain ⟨ys', cursor'⟩ := cursor.inserted_above inserted fresh
        (by cases answers <;> simp_all [ToCome, Lower])
      exact ⟨xs, ys', cursor'⟩
    · obtain ⟨xs', cursor'⟩ := cursor.inserted_below inserted fresh remembers below
      exact ⟨xs', ys, cursor'⟩

theorem TableScan.invariant (scan : TableScan cmp (Undisturbed cmp) table history stays answers
      ended) :
    Scan (Lower cmp) (fun _ => True) (Live cmp history) stays answers ended ∧
      (ended = false → ∃ t xs ys, Kept cmp table history t ∧
        (inorder t).length < 2 ^ 32 ∧ Cursor cmp table answers t xs ys) := by
  induction scan with
  | first run fuel element enough call =>
    obtain ⟨t, kept, small⟩ := run.kept
    obtain ⟨scan, more⟩ :=
      tableScan_call true kept (.start _) (position_begin _ _ t) rfl enough call
    refine ⟨scan, fun notEnded => ?_⟩
    obtain ⟨xs, ys, kept', cursor⟩ := more notEnded
    exact ⟨t, xs, ys, kept', small, cursor⟩
  | change _ step ih =>
    obtain ⟨scan, more⟩ := ih
    obtain ⟨t, xs, ys, kept, small, cursor⟩ := more rfl
    obtain ⟨t', kept', small', effect⟩ := step.effect kept small fun _ _ admitted => admitted.1
    obtain ⟨xs', ys', cursor'⟩ := tableScan_change kept.represents cursor effect
    exact ⟨scan.change fun p staying => staying, fun _ => ⟨t', xs', ys', kept', small', cursor'⟩⟩
  | next _ fuel element enough call ih =>
    obtain ⟨scan, more⟩ := ih
    obtain ⟨t, xs, ys, kept, small, cursor⟩ := more rfl
    obtain ⟨scan', more'⟩ :=
      tableScan_call false kept scan cursor.position cursor.restartKey enough call
    refine ⟨scan', fun notEnded => ?_⟩
    obtain ⟨xs', ys', kept', cursor'⟩ := more' notEnded
    exact ⟨t, xs', ys', kept', small, cursor'⟩

/-! ## Enumerations like that of a directory -/

variable {answer : DirectoryAnswer} {deletes : Nat} {last : Addr × ε}

/-- What the caller passes back is the last answer, still in the table, or known to be stale. -/
inductive Resumes (table : Table ε) (answer : DirectoryAnswer) (deletes : Nat)
    (last : Addr × ε) (t : BinaryTree Addr) : Prop where
  | byNode (none : deletes = 0) (count : table.deleteCount = answer.deleteCount)
      (node : answer.restartKey = last.1) (mem : last.1 ∈ inorder t)
      (data : table.userData last.1 = last.2)
  | byKey (some : 0 < deletes) (few : deletes < 2 ^ 32)
      (count : table.deleteCount = ulong (answer.deleteCount + deletes))

/-- A call of `RtlEnumerateGenericTableLikeADirectory`, from the position it answers from. -/
theorem directoryScan_call (kept : Kept cmp table history t)
    (scan : Scan (Lower cmp) floor (Live cmp history) stays answers false)
    (position : Position cmp floor table answers t xs ys)
    (head : answer.element = ys.headD null)
    (passed : ys ≠ [] → answer.restartKey = ys.headD null ∧
      answer.deleteCount = table.deleteCount) :
    Scan (Lower cmp) floor (Live cmp history) stays
        (answered table answer.element answers) (answer.element == null) ∧
      ((answer.element == null) = false → ∃ last rest,
        answered table answer.element answers = last :: rest ∧ Resumes table answer 0 last t) := by
  refine ⟨scan_answered kept scan position head, fun more => ?_⟩
  cases ys with
  | nil => exact absurd more (by simp [head])
  | cons =>
    obtain ⟨node, count⟩ := passed (by simp)
    have present : answer.element ≠ null := by simpa using more
    refine ⟨(answer.element, table.userData answer.element), answers,
      by rw [answered, if_neg present], .byNode rfl count.symm (node.trans head.symm) ?_ rfl⟩
    rw [head, position.split]
    simp

theorem position_byNode (represents : Represents cmp table t) (mem : last.1 ∈ inorder t)
    (data : table.userData last.1 = last.2) :
    ∃ xs ys, inorder t = xs ++ last.1 :: ys ∧
      Position cmp floor table (last :: answers) t (xs ++ [last.1]) ys := by
  obtain ⟨xs, ys, split⟩ := append_of_mem mem
  have begun : Position cmp (fun p => p.1 ∈ last.1 :: ys) table [] t xs (last.1 :: ys) := by
    refine ⟨split, fun n mem inside => ?_, fun n mem => mem⟩
    have distinct := represents.nodup
    rw [split, nodup_append] at distinct
    exact distinct.2.2 n mem n inside rfl
  have whole : (last.1, table.userData last.1) = last := by rw [data]
  obtain ⟨split', past, ahead⟩ := begun.advance represents
  rw [whole] at past ahead
  exact ⟨xs, ys, split, split', past, ahead⟩

omit [Std.TransCmp cmp] in
/-- A change between two calls. -/
theorem Resumes.change {allowed : List (Event ε) → ε → Addr → Prop}
    (resumes : Resumes table answer deletes last t)
    (effect : Effect cmp allowed table table' history history' t t')
    (few : deletes + (size cmp history - size cmp history') < 2 ^ 32) :
    Resumes table' answer (deletes + (size cmp history - size cmp history')) last t' := by
  cases effect with
  | same data _ deleteCount size =>
    rw [size, Nat.sub_self]
    cases resumes with
    | byKey some few count => exact .byKey some few (deleteCount.trans count)
    | byNode none count node mem data' =>
      exact .byNode none (deleteCount.trans count) node mem ((data _ mem).trans data')
  | gone node t' as bs deleted size =>
    rw [size, Nat.add_sub_cancel_left] at few ⊢
    refine .byKey (Nat.succ_pos _) few ?_
    rw [deleted.deleteCount]
    cases resumes with
    | byKey some _ count =>
      rw [count]
      unfold ulong
      omega
    | byNode none count => rw [count, none]
  | added buffer allocated t' as bs _ absent fresh inserted size =>
    rw [size, Nat.sub_eq_zero_of_le (Nat.le_succ _)]
    cases resumes with
    | byKey some few count => exact .byKey some few (inserted.deleteCount.trans count)
    | byNode none count node mem data =>
      exact .byNode none (inserted.deleteCount.trans count) node
        ((inserted.mem_iff _).mpr (.inr mem)) ((inserted.sameData fresh mem).trans data)

/-- What the caller passes back leads to the first element above the last answer. -/
theorem Resumes.onward (floor : Addr × ε → Prop)
    (answers : List (Addr × ε)) (resumes : Resumes table answer deletes last t)
    (kept : Kept cmp table history t) (same : cmp buffer last.2 = .eq)
    (enough : size cmp history + 1 ≤ fuel) :
    ∃ answer' xs ys, enumerateGenericTableLikeADirectory cmp fuel table none true
        answer.restartKey answer.deleteCount buffer = some answer' ∧
      Position cmp floor table (last :: answers) t xs ys ∧
      answer'.element = ys.headD null ∧
      (ys ≠ [] → answer'.restartKey = ys.headD null ∧ answer'.deleteCount = table.deleteCount) := by
  cases resumes with
  | byNode none count node mem data =>
    obtain ⟨xs, ys, split, position⟩ := position_byNode kept.represents mem data
    obtain ⟨answer', call, head, passed⟩ :=
      directory_byNode kept.represents buffer split (kept.size ▸ enough)
    rw [node, ← count]
    exact ⟨answer', _, ys, call, position, head, passed⟩
  | byKey some few count =>
    have stale : answer.deleteCount ≠ table.deleteCount := by
      -- fewer than `2 ^ 32` deletions leave another count
      rw [count]
      unfold ulong
      omega
    obtain ⟨answer', xs, ys, call, split, past, ahead, head, passed⟩ := directory_byKey
      kept.represents buffer true (.inr stale) (kept.size ▸ enough)
    have probe : ∀ n, cmp buffer n = cmp last.2 n :=
      fun n => Std.TransCmp.congr_left same
    refine ⟨answer', xs, ys, call, ⟨split, fun n mem ahead => past n mem ?_, fun n mem => ?_⟩,
      head, passed⟩
    · exact (probe _).trans ahead
    · exact (probe _).symm.trans (ahead n mem)

theorem DirectoryScan.invariant {start : ε}
    (scan : DirectoryScan cmp start table history answer deletes stays answers ended) :
    Scan (Lower cmp) (fun p => cmp start p.2 ≠ .gt) (Live cmp history) stays answers ended ∧
      (ended = false → ∃ t last rest, answers = last :: rest ∧
        Kept cmp table history t ∧ (inorder t).length < 2 ^ 32 ∧
        Resumes table answer deletes last t) := by
  induction scan with
  | first run fuel deleteCount answer enough call =>
    obtain ⟨t, kept, small⟩ := run.kept
    obtain ⟨answer', xs, ys, call', split, past, ahead, head, passed⟩ := directory_byKey
      kept.represents start false (.inl rfl) (kept.size ▸ enough)
    obtain rfl := Option.some.inj (call.symm.trans call')
    have position : Position cmp (fun p => cmp start p.2 ≠ .gt) _ [] t xs ys :=
      ⟨split, past, ahead⟩
    obtain ⟨scan, more⟩ := directoryScan_call kept (.start _) position head passed
    refine ⟨scan, fun notEnded => ?_⟩
    obtain ⟨last, rest, eq, resumes⟩ := more notEnded
    exact ⟨t, last, rest, eq, kept, small, resumes⟩
  | change _ step few ih =>
    obtain ⟨scan, more⟩ := ih
    obtain ⟨t, last, rest, eq, kept, small, resumes⟩ := more rfl
    refine ⟨scan.change fun p staying => staying, fun _ => ?_⟩
    obtain ⟨t', kept', small', effect⟩ := step.effect kept small fun _ _ roomy => roomy
    exact ⟨t', last, rest, eq, kept', small', resumes.change effect few⟩
  | next _ fuel buffer same answer' enough call ih =>
    obtain ⟨scan, more⟩ := ih
    obtain ⟨t, last, rest, eq, kept, small, resumes⟩ := more rfl
    obtain ⟨rfl, rfl⟩ := cons.inj eq
    obtain ⟨found, xs, ys, call', position, head, passed⟩ :=
      resumes.onward _ _ kept same enough
    obtain rfl := Option.some.inj (call.symm.trans call')
    obtain ⟨scan', more'⟩ := directoryScan_call kept scan position head passed
    refine ⟨scan', fun notEnded => ?_⟩
    obtain ⟨last', rest', eq', resumes'⟩ := more' notEnded
    exact ⟨t, last', rest', eq', kept, small, resumes'⟩

/-! ## What an enumeration keeps its promise of -/

/-- The answers are strictly increasing; once `NULL` has been answered, every element above the
floor that has been in the table all the time is among them exactly once. -/
structure Survives (cmp : ε → ε → Ordering) (floor stays : Addr × ε → Prop)
    (answers : List (Addr × ε)) (ended : Bool) : Prop where
  increasing : answers.Pairwise fun later earlier => cmp earlier.2 later.2 = .lt
  once : ended → ∀ p, stays p → floor p → ∃! i : Nat, answers[i]? = some p

theorem survives_of_scan {live : Addr × ε → Prop}
    (scan : Scan (Lower cmp) floor live stays answers ended) :
    Survives cmp floor stays answers ended := by
  have increasing := scan.increasing fun {p q r} (lower : cmp p.2 q.2 = .lt) higher =>
    show cmp p.2 r.2 = .lt from Std.TransCmp.lt_trans lower higher
  have distinct : answers.Nodup := by
    refine increasing.imp ?_
    rintro p _ lower rfl
    rw [Lower, show cmp p.2 p.2 = .eq from Std.ReflCmp.compare_self] at lower
    exact absurd lower (by decide)
  refine ⟨increasing, ?_⟩
  rintro rfl p staying above
  obtain ⟨i, found⟩ := mem_iff_getElem?.mp (scan.complete staying above)
  refine ⟨i, found, fun j found' => ?_⟩
  obtain ⟨inside, -⟩ := List.getElem?_eq_some_iff.mp found'
  exact (getElem?_inj inside distinct).mp (found'.trans found.symm)

/-- **Both enumerations survive changes of the table**: one by `RtlEnumerateGenericTableAvl` if no
new key comes between the remembered node and the last answer, one by
`RtlEnumerateGenericTableLikeADirectory` if there are fewer than `2 ^ 32` deletions between two
calls.  Every call of either returns. -/
theorem enumeration_survives (cmp : ε → ε → Ordering) [Std.TransCmp cmp] :
    (∀ table history stays answers ended,
      TableScan cmp (Undisturbed cmp) table history stays answers ended →
        Survives cmp (fun _ => True) stays answers ended ∧
        (ended = false → ∀ fuel, size cmp history + 1 ≤ fuel →
          ∃ answer, enumerateGenericTableAvl fuel table false = some answer)) ∧
      ∀ start table history answer deletes stays answers ended,
        DirectoryScan cmp start table history answer deletes stays answers ended →
          Survives cmp (fun p => cmp start p.2 ≠ .gt) stays answers ended ∧
          (ended = false → ∃ last rest, answers = last :: rest ∧
            ∀ fuel buffer, size cmp history + 1 ≤ fuel → cmp buffer last.2 = .eq →
                ∃ answer', enumerateGenericTableLikeADirectory cmp fuel table none true
                  answer.restartKey answer.deleteCount buffer = some answer') := by
  refine ⟨fun table history stays answers ended scan => ?_,
    fun start table history answer deletes stays answers ended scan => ?_⟩
  · obtain ⟨whole, more⟩ := scan.invariant
    refine ⟨survives_of_scan whole, fun notEnded fuel enough => ?_⟩
    obtain ⟨t, xs, ys, kept, -, cursor⟩ := more notEnded
    obtain ⟨table', element, call, -⟩ := kept.enumerate false enough
    exact ⟨_, call⟩
  · obtain ⟨whole, more⟩ := scan.invariant
    refine ⟨survives_of_scan whole, fun notEnded => ?_⟩
    obtain ⟨t, last, rest, eq, kept, -, resumes⟩ := more notEnded
    refine ⟨last, rest, eq, fun fuel buffer enough same => ?_⟩
    obtain ⟨answer', -, -, call, -⟩ := resumes.onward (fun _ => True) rest kept same enough
    exact ⟨answer', call⟩

/-! ## A key inserted below the last answer -/

def afterEnumerate (table : Table Nat) (restart : Bool) : Table Nat :=
  ((enumerateGenericTableAvl 9 table restart).map Prod.fst).getD table

theorem insert_eq {table : Table Nat} {buffer : Nat} {allocated : Addr}
    (returns : (insertElementGenericTableAvl compare 9 table buffer allocated).map
      (fun answer => (answer.element, answer.newElement)) = some (allocated, true)) :
    insertElementGenericTableAvl compare 9 table buffer allocated =
      some ⟨afterInsert table buffer allocated, allocated, true⟩ := by
  obtain ⟨⟨table', element, new⟩, call, eq⟩ := Option.map_eq_some_iff.mp returns
  obtain ⟨rfl, rfl⟩ := Prod.mk.inj eq
  rw [afterInsert, call]
  rfl

theorem pair_eq {α β : Type} {call : Option (α × β)} {b : β} (default : α)
    (returns : call.map Prod.snd = some b) :
    call = some ((call.map Prod.fst).getD default, b) := by
  obtain ⟨⟨a, b'⟩, eq, rfl⟩ := Option.map_eq_some_iff.mp returns
  rw [eq]
  rfl

def fiveTenTable : Table Nat := afterInsert (afterInsert freshTable 5 128) 10 192

theorem run_fiveTen : Run compare (Roomy compare) fiveTenTable [.insert 10 192, .insert 5 128] :=
  have five := run_freshTable.inserted 5 (allocates_new (by decide) (by simp)) (by decide) (by decide)
  five.inserted 10 (allocates_new (by decide) (by simp)) (by decide) (by decide)

/-- Of 5 and 10 each enumeration answers 5, and 5 is deleted.  In the first one 7 is inserted; it
goes on with 7 and 10, and the other one with 10. -/
theorem enumeration_survives_fiveTen :
    (∃ table history stays, TableScan compare (Undisturbed compare) table history stays
        [(192, 10), (256, 7), (128, 5)] true ∧ stays (192, 10) ∧
      Survives compare (fun _ => True) stays [(192, 10), (256, 7), (128, 5)] true) ∧
    ∃ table history answer stays, DirectoryScan compare 0 table history answer 0 stays
        [(192, 10), (128, 5)] true ∧ stays (192, 10) ∧
      Survives compare (fun p => compare 0 p.2 ≠ .gt) stays [(192, 10), (128, 5)] true := by
  obtain ⟨tables, directories⟩ := enumeration_survives (ε := Nat) compare
  constructor
  · have begun : TableScan compare (Undisturbed compare) (afterEnumerate fiveTenTable true) _ _ _ _ :=
      .first run_fiveTen 9 128 (by decide) (pair_eq fiveTenTable (by decide))
    have without := begun.change (.delete 5 9 true (by decide)
      (pair_eq (afterEnumerate fiveTenTable true) (by decide)))
    have again := without.change (.insert 7 256 9 _ (allocates_new (by decide) (by simp))
      ⟨show size compare _ < 2 ^ 32 by decide, fun _ _ => .inl (by decide)⟩ (by decide)
      (insert_eq (by decide)))
    have seven := again.next 9 256 (by decide) (pair_eq freshTable (by decide))
    have ten := seven.next 9 192 (by decide) (pair_eq freshTable (by decide))
    have scan := ten.next 9 null (by decide) (pair_eq freshTable (by decide))
    exact ⟨_, _, _, scan, ⟨⟨rfl, rfl⟩, rfl⟩, (tables _ _ _ _ _ scan).1⟩
  · have begun : DirectoryScan compare 0 fiveTenTable _ _ _ _ _ _ :=
      .first run_fiveTen 9 0 ⟨128, 128, 0⟩ (by decide) (by decide)
    have without := begun.change (.delete 5 9 true (by decide)
      (pair_eq fiveTenTable (by decide))) (by decide)
    have ten := without.next 9 5 (by decide) ⟨192, 192, 1⟩ (by decide) (by decide)
    have scan := ten.next 9 10 (by decide) ⟨null, 192, 1⟩ (by decide) (by decide)
    exact ⟨_, _, _, _, scan, ⟨rfl, rfl⟩, (directories _ _ _ _ _ _ _ _ scan).1⟩

/-- **Of 5 and 10 the enumeration answers 5; 5 is deleted and 3 inserted; the next answer is 3.** -/
theorem reinserted_below_last :
    ¬ ∀ (table : Table Nat) (history : List (Event Nat)) (stays : Addr × Nat → Prop)
        (answers : List (Addr × Nat)) (ended : Bool),
      TableScan compare (fun _ _ _ => True) table history stays answers ended →
        Survives compare (fun _ => True) stays answers ended := by
  intro always
  have begun : TableScan compare (fun _ _ _ => True) (afterEnumerate fiveTenTable true) _ _ _ _ :=
    .first run_fiveTen 9 128 (by decide) (pair_eq fiveTenTable (by decide))
  have without := begun.change (.delete 5 9 true (by decide)
    (pair_eq (afterEnumerate fiveTenTable true) (by decide)))
  have again := without.change (.insert 3 256 9 _ (allocates_new (by decide) (by simp))
    ⟨show size compare _ < 2 ^ 32 by decide, fun _ _ => trivial⟩ (by decide)
    (insert_eq (by decide)))
  have scan := again.next 9 256 (by decide) (pair_eq freshTable (by decide))
  have increasing := (always _ _ _ _ _ scan).increasing
  exact absurd increasing (by decide)

end Ntoskrnl.Rtl.AvlTable
