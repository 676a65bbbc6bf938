/-
# Ntoskrnl.Lib.Interval -- families of closed intervals

A family of closed intervals of natural numbers is a list of indices with a lower
and an upper end for each.  `Hull` says which interval is the smallest one around
the family, and `Linked` that the family covers every step from `x` to `x + 1`
there: neighbours that only touch (`[0, 5]` and `[6, 9]`) are not linked, and the
order of the list does not matter.

For a family sorted by lower end, linked means that each interval meets an earlier
one (`Linked.chain`).
-/
import Mathlib.Data.List.Perm.Basic
import Mathlib.Order.MinMax

namespace Ntoskrnl.Lib.Interval

open List

set_option autoImplicit false

universe u

variable {ι : Type u} {lo hi : ι → Nat} {family family' : List ι} {a b : Nat} {i : ι}

/-- `[a, b]` is the smallest interval around the family. -/
structure Hull (lo hi : ι → Nat) (family : List ι) (a b : Nat) : Prop where
  above : ∀ i ∈ family, a ≤ lo i
  below : ∀ i ∈ family, hi i ≤ b
  left : ∃ i ∈ family, lo i = a
  right : ∃ i ∈ family, hi i = b

/-- Every step from `a` to `b` lies inside one of the intervals. -/
def Linked (lo hi : ι → Nat) (family : List ι) (a b : Nat) : Prop :=
  ∀ x, a ≤ x → x < b → ∃ i ∈ family, lo i ≤ x ∧ x < hi i

theorem Hull.singleton (i : ι) : Hull lo hi [i] (lo i) (hi i) where
  above j mem := by rw [mem_singleton.mp mem]
  below j mem := by rw [mem_singleton.mp mem]
  left := ⟨i, mem_singleton.mpr rfl, rfl⟩
  right := ⟨i, mem_singleton.mpr rfl, rfl⟩

theorem Linked.singleton (i : ι) : Linked lo hi [i] (lo i) (hi i) :=
  fun _ above below => ⟨i, mem_singleton.mpr rfl, above, below⟩

theorem Linked.mono (linked : Linked lo hi family a b) (subset : ∀ i ∈ family, i ∈ family') :
    Linked lo hi family' a b := by
  intro x above below
  obtain ⟨i, mem, inside⟩ := linked x above below
  exact ⟨i, subset i mem, inside⟩

theorem Hull.perm (hull : Hull lo hi family a b) (perm : family.Perm family') :
    Hull lo hi family' a b where
  above i mem := hull.above i (perm.mem_iff.mpr mem)
  below i mem := hull.below i (perm.mem_iff.mpr mem)
  left := hull.left.imp fun _ found => ⟨perm.mem_iff.mp found.1, found.2⟩
  right := hull.right.imp fun _ found => ⟨perm.mem_iff.mp found.1, found.2⟩

/-- One more interval. -/
theorem Hull.cons (hull : Hull lo hi family a b) (i : ι) :
    Hull lo hi (i :: family) (min (lo i) a) (max (hi i) b) where
  above j mem := by
    rcases mem_cons.mp mem with rfl | mem
    · exact Nat.min_le_left _ _
    · exact Nat.le_trans (Nat.min_le_right _ _) (hull.above j mem)
  below j mem := by
    rcases mem_cons.mp mem with rfl | mem
    · exact Nat.le_max_left _ _
    · exact Nat.le_trans (hull.below j mem) (Nat.le_max_right _ _)
  left := by
    rcases Nat.le_total (lo i) a with first | later
    · exact ⟨i, mem_cons_self, (Nat.min_eq_left first).symm⟩
    · obtain ⟨j, mem, same⟩ := hull.left
      exact ⟨j, mem_cons_of_mem i mem, by rw [same, Nat.min_eq_right later]⟩
  right := by
    rcases Nat.le_total b (hi i) with last | earlier
    · exact ⟨i, mem_cons_self, (Nat.max_eq_left last).symm⟩
    · obtain ⟨j, mem, same⟩ := hull.right
      exact ⟨j, mem_cons_of_mem i mem, by rw [same, Nat.max_eq_right earlier]⟩

theorem Linked.covers (linked : Linked lo hi family a b) (hull : Hull lo hi family a b)
    (valid : ∀ i ∈ family, lo i ≤ hi i) {x : Nat} (above : a ≤ x) (below : x ≤ b) :
    ∃ i ∈ family, lo i ≤ x ∧ x ≤ hi i := by
  rcases Nat.lt_or_eq_of_le below with inside | rfl
  · obtain ⟨i, mem, low, high⟩ := linked x above inside
    exact ⟨i, mem, low, Nat.le_of_lt high⟩
  · obtain ⟨i, mem, same⟩ := hull.right
    exact ⟨i, mem, same ▸ valid i mem, Nat.le_of_eq same.symm⟩

/-- In a linked family sorted by lower end every interval but the first meets an
earlier one. -/
theorem Linked.chain (linked : Linked lo hi family a b) (hull : Hull lo hi family a b)
    (valid : ∀ i ∈ family, lo i ≤ hi i) (sorted : family.Pairwise fun i j => lo i ≤ lo j)
    {before after : List ι} (split : family = before ++ i :: after)
    (some : before ≠ []) : ∃ j ∈ before, lo i ≤ hi j := by
  by_contra none
  have early : ∀ j ∈ before, hi j < lo i := fun j mem =>
    Nat.lt_of_not_le fun meets => none ⟨j, mem, meets⟩
  obtain ⟨j, mem⟩ := exists_mem_of_ne_nil before some
  have inFamily : ∀ k, k ∈ before ∨ k = i ∨ k ∈ after → k ∈ family := by
    rw [split]
    simp
  have first := hull.above j (inFamily j (.inl mem))
  have valid_j := valid j (inFamily j (.inl mem))
  have valid_i := valid i (inFamily i (.inr (.inl rfl)))
  have last := hull.below i (inFamily i (.inr (.inl rfl)))
  have gap := early j mem
  obtain ⟨k, found, low, high⟩ := linked (lo i - 1) (by omega) (by omega)
  rw [split, pairwise_append] at sorted
  rw [split, mem_append, mem_cons] at found
  rcases found with found | rfl | found
  · have := early k found
    omega
  · omega
  · have := (pairwise_cons.mp sorted.2.1).1 k found
    omega

/-- An interval of the family bridges linked stretches on both sides of it. -/
theorem Linked.bridge (mem : i ∈ family)
    (left : lo i ≤ a ∨ ∃ s t, Linked lo hi family s t ∧ s ≤ a ∧ lo i ≤ t)
    (right : b ≤ hi i ∨ ∃ s t, Linked lo hi family s t ∧ s ≤ hi i ∧ b ≤ t) :
    Linked lo hi family a b := by
  intro x above below
  rcases Nat.lt_or_ge x (lo i) with before | after
  · rcases left with first | ⟨s, t, linked, start, reach⟩
    · omega
    · exact linked x (by omega) (by omega)
  · rcases Nat.lt_or_ge x (hi i) with inside | past
    · exact ⟨i, mem, after, inside⟩
    · rcases right with last | ⟨s, t, linked, start, reach⟩
      · omega
      · exact linked x (by omega) (by omega)

end Ntoskrnl.Lib.Interval
