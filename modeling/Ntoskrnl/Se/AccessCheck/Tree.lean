/-
# Ntoskrnl.Se.AccessCheck.Tree -- a captured type list is a tree

The tree is only implicit in the levels: the entries below `i` are the run after `i` with
a higher level, and the children of `i` are those of them exactly one level down.  Here
are the facts about this tree the updates need: coverage is transitive, an entry below `i`
is at or below exactly one child of `i`, and the parent index of an entry names the entry
it is a child of.
-/
import Ntoskrnl.Se.AccessCheck.Model

namespace Ntoskrnl.Se.AccessCheck

open List

set_option autoImplicit false

/-- The entries a counting loop visits before it breaks. -/
theorem mem_takeWhile_range' {p : Nat → Bool} {start count j : Nat} :
    j ∈ (range' start count).takeWhile p ↔
      start ≤ j ∧ j < start + count ∧ ∀ m, start ≤ m → m ≤ j → p m := by
  induction count generalizing start with
  | zero =>
    simp only [range'_zero, takeWhile_nil, not_mem_nil, false_iff]
    omega
  | succ count ih =>
    rw [range'_succ, takeWhile_cons]
    split
    next here =>
      rw [mem_cons, ih]
      constructor
      · rintro (rfl | ⟨above, inside, all⟩)
        · refine ⟨le_rfl, by omega, fun m low high => ?_⟩
          rwa [Nat.le_antisymm high low]
        · refine ⟨by omega, by omega, fun m low high => ?_⟩
          rcases Nat.lt_or_eq_of_le low with after | rfl
          · exact all m after high
          · exact here
      · rintro ⟨low, inside, all⟩
        rcases Nat.lt_or_eq_of_le low with after | rfl
        · exact .inr ⟨after, by omega, fun m above high => all m (by omega) high⟩
        · exact .inl rfl
    next stop =>
      simp only [not_mem_nil, false_iff]
      rintro ⟨low, -, all⟩
      exact stop (all start le_rfl low)

namespace TypeList

variable {list : TypeList} {i j k p : Nat}

theorem mem_below : j ∈ list.below i ↔
    i < j ∧ j < list.length ∧ ∀ m, i < m → m ≤ j → list.level i < list.level m := by
  rw [below, mem_takeWhile_range']
  simp only [decide_eq_true_eq, Nat.succ_le_iff]
  constructor
  · rintro ⟨above, inside, all⟩
    exact ⟨above, by omega, all⟩
  · rintro ⟨above, inside, all⟩
    exact ⟨above, by omega, all⟩

theorem below_nodup : (list.below i).Nodup :=
  (takeWhile_sublist _).nodup nodup_range'

theorem lt_of_mem_below (inside : j ∈ list.below i) : i < j := (mem_below.mp inside).1

theorem mem_below_trans (first : j ∈ list.below i) (second : k ∈ list.below j) :
    k ∈ list.below i := by
  obtain ⟨less, -, all⟩ := mem_below.mp first
  obtain ⟨less', inside, all'⟩ := mem_below.mp second
  refine mem_below.mpr ⟨less.trans less', inside, fun m above upTo => ?_⟩
  rcases Nat.lt_or_ge j m with behind | before
  · exact (all j less le_rfl).trans (all' m behind upTo)
  · exact all m above before

/-- Two entries with a common entry below them: the later one is below the earlier one. -/
theorem mem_below_of_common (first : k ∈ list.below i) (second : k ∈ list.below j)
    (less : i < j) : j ∈ list.below i := by
  obtain ⟨-, -, all⟩ := mem_below.mp first
  obtain ⟨before, inside, -⟩ := mem_below.mp second
  exact mem_below.mpr ⟨less, before.trans inside, fun m above upTo => all m above (by omega)⟩

/-- Entry `i` is `j` or above it. -/
def Covers (list : TypeList) (i j : Nat) : Prop := j = i ∨ j ∈ list.below i

instance (i j : Nat) : Decidable (list.Covers i j) := inferInstanceAs (Decidable (_ ∨ _))

theorem covers_refl : list.Covers i i := .inl rfl

theorem Covers.trans (first : list.Covers i j) (second : list.Covers j k) : list.Covers i k := by
  rcases first with rfl | first
  · exact second
  · rcases second with rfl | second
    · exact .inr first
    · exact .inr (mem_below_trans first second)

theorem Covers.le (covers : list.Covers i j) : i ≤ j := by
  rcases covers with rfl | inside
  · exact le_rfl
  · exact (lt_of_mem_below inside).le

/-! ## Children -/

/-- The entries below `p` that are one level down. -/
def childrenOf (list : TypeList) (p : Nat) : List Nat := list.children p (list.level p + 1)

theorem mem_childrenOf : j ∈ list.childrenOf p ↔
    j ∈ list.below p ∧ list.level j = list.level p + 1 := by
  simp [childrenOf, children]

theorem below_of_child (child : j ∈ list.childrenOf p) : j ∈ list.below p :=
  (mem_childrenOf.mp child).1

theorem lt_of_child (child : j ∈ list.childrenOf p) : p < j := lt_of_mem_below (below_of_child child)

/-- An entry has at most one entry it is a child of. -/
theorem child_unique {q : Nat} (first : j ∈ list.childrenOf p) (second : j ∈ list.childrenOf q) :
    p = q := by
  obtain ⟨below₁, level₁⟩ := mem_childrenOf.mp first
  obtain ⟨below₂, level₂⟩ := mem_childrenOf.mp second
  rcases Nat.lt_trichotomy p q with less | same | less
  · have := (mem_below.mp (mem_below_of_common below₁ below₂ less)).2.2 q less le_rfl
    omega
  · exact same
  · have := (mem_below.mp (mem_below_of_common below₂ below₁ less)).2.2 p less le_rfl
    omega

theorem child_of_parentIndex (found : list.parentIndex j = some p) : j ∈ list.childrenOf p := by
  have less := list.parentIndex_lt found
  have inside : j < list.types.length := by
    by_contra outside
    simp [parentIndex, parentOf, getElem?_eq_none (Nat.not_lt.mp outside)] at found
  obtain ⟨parent, same, -, level, between⟩ := list.parented.inner j (by omega) inside
  rw [parentIndex, same] at found
  cases found
  refine mem_childrenOf.mpr ⟨mem_below.mpr ⟨less, inside, fun m above upTo => ?_⟩, level⟩
  rcases Nat.lt_or_eq_of_le upTo with before | rfl
  · exact between m above before
  · exact Nat.lt_of_lt_of_eq (Nat.lt_succ_self _) level.symm

theorem parentIndex_of_child (child : j ∈ list.childrenOf p) : list.parentIndex j = some p := by
  obtain ⟨less, inside, -⟩ := mem_below.mp (below_of_child child)
  obtain ⟨parent, found, -⟩ := list.parented.inner j (Nat.zero_lt_of_lt less) inside
  rw [child_unique child (child_of_parentIndex found)]
  exact found

theorem parentIndex_zero : list.parentIndex 0 = none := list.parented.root

theorem children_of_parentIndex (found : list.parentIndex j = some p) :
    list.children p (list.level j) = list.childrenOf p := by
  rw [childrenOf, (mem_childrenOf.mp (child_of_parentIndex found)).2]

/-- The entry after `p`, if it is below `p`, is a child of `p`. -/
theorem succ_child (inside : j ∈ list.below p) : p + 1 ∈ list.childrenOf p := by
  obtain ⟨less, bound, all⟩ := mem_below.mp inside
  have level := all (p + 1) (Nat.lt_succ_self p) less
  have step : list.level (p + 1) ≤ list.level p + 1 :=
    list.levelled.step p (Nat.lt_of_le_of_lt less bound)
  refine mem_childrenOf.mpr ⟨mem_below.mpr ⟨Nat.lt_succ_self p, by omega, fun m above upTo => ?_⟩,
    by omega⟩
  rwa [Nat.le_antisymm upTo above]

/-- Every entry below `p` is covered by a child of `p`: the last one up to it. -/
theorem exists_child (inside : j ∈ list.below p) : ∃ c ∈ list.childrenOf p, list.Covers c j := by
  obtain ⟨less, bound, all⟩ := mem_below.mp inside
  induction j, less using Nat.le_induction with
  | base => exact ⟨_, succ_child inside, covers_refl⟩
  | succ j less ih =>
    have inside' : j ∈ list.below p :=
      mem_below.mpr ⟨less, by omega, fun m above upTo => all m above (by omega)⟩
    by_cases child : list.level (j + 1) = list.level p + 1
    · exact ⟨j + 1, mem_childrenOf.mpr ⟨inside, child⟩, covers_refl⟩
    · obtain ⟨c, isChild, covers⟩ := ih inside' (by omega) fun m above upTo =>
        all m above (by omega)
      have level := (mem_childrenOf.mp isChild).2
      have here := all (j + 1) (by omega) le_rfl
      refine ⟨c, isChild, .inr (mem_below.mpr ⟨by have := covers.le; omega, bound,
        fun m above upTo => ?_⟩)⟩
      rcases Nat.lt_or_eq_of_le upTo with before | rfl
      · rcases covers with rfl | covers
        · omega
        · exact (mem_below.mp covers).2.2 m above (by omega)
      · omega

/-- An entry above a child is at or above its parent. -/
theorem covers_of_child (child : j ∈ list.childrenOf p) (above : j ∈ list.below i) :
    list.Covers i p := by
  obtain ⟨below, level⟩ := mem_childrenOf.mp child
  rcases Nat.lt_trichotomy i p with less | same | less
  · exact .inr (mem_below_of_common above below less)
  · exact .inl same.symm
  · have up := (mem_below.mp (mem_below_of_common below above less)).2.2 i less le_rfl
    have down := (mem_below.mp above).2.2 j (lt_of_mem_below above) le_rfl
    omega

theorem childrenOf_eq_nil : list.childrenOf p = [] ↔ list.below p = [] := by
  constructor
  · intro none
    refine eq_nil_iff_forall_not_mem.mpr fun j inside => ?_
    exact eq_nil_iff_forall_not_mem.mp none _ (succ_child inside)
  · intro none
    simp [childrenOf, children, none]

/-- Entry 0 is the object itself and covers every entry. -/
theorem covers_zero (inside : j < list.length) : list.Covers 0 j := by
  rcases Nat.eq_zero_or_pos j with rfl | positive
  · exact covers_refl
  · refine .inr (mem_below.mpr ⟨positive, inside, fun m above upTo => ?_⟩)
    rw [level, list.levelled.root]
    exact list.levelled.inner m above (Nat.lt_of_le_of_lt upTo inside)

theorem length_pos : 0 < list.length := length_pos_iff.mpr list.levelled.nonempty

theorem below_length_one (one : list.length = 1) : list.below 0 = [] := by
  refine eq_nil_iff_forall_not_mem.mpr fun j inside => ?_
  obtain ⟨above, bound, -⟩ := mem_below.mp inside
  omega

/-! ## Leaves -/

def Leaf (list : TypeList) (j : Nat) : Prop := j < list.length ∧ list.below j = []

theorem Leaf.not_above (leaf : list.Leaf j) : k ∉ list.below j := by
  rw [leaf.2]
  exact not_mem_nil

/-- A statement about every entry follows from the leaves up. -/
theorem leaf_induction {motive : Nat → Prop} (leaf : ∀ j, list.Leaf j → motive j)
    (inner : ∀ p, list.childrenOf p ≠ [] → (∀ c ∈ list.childrenOf p, motive c) → motive p)
    {q : Nat} (inside : q < list.length) : motive q := by
  by_cases none : list.below q = []
  · exact leaf q ⟨inside, none⟩
  · refine inner q (mt childrenOf_eq_nil.mp none) fun c child => ?_
    have less := lt_of_child child
    exact leaf_induction leaf inner (mem_below.mp (below_of_child child)).2.1
termination_by list.length - q

/-- The leaves under an inner entry are those under its children. -/
theorem covers_leaf_iff (inner : list.childrenOf p ≠ []) (leaf : list.Leaf j) :
    list.Covers p j ↔ ∃ c ∈ list.childrenOf p, list.Covers c j := by
  constructor
  · rintro (rfl | inside)
    · exact absurd (childrenOf_eq_nil.mpr leaf.2) inner
    · exact exists_child inside
  · rintro ⟨c, child, covers⟩
    exact .trans (.inr (below_of_child child)) covers

theorem exists_leaf (inside : p < list.length) : ∃ j, list.Leaf j ∧ list.Covers p j := by
  refine leaf_induction (motive := fun p => ∃ j, list.Leaf j ∧ list.Covers p j) ?_ ?_ inside
  · exact fun p leaf => ⟨p, leaf, covers_refl⟩
  · intro p inner ih
    obtain ⟨c, child⟩ := exists_mem_of_ne_nil _ inner
    obtain ⟨j, leaf, covers⟩ := ih c child
    exact ⟨j, leaf, .trans (.inr (below_of_child child)) covers⟩

end TypeList

end Ntoskrnl.Se.AccessCheck
