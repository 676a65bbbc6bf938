/-
# Ntoskrnl.Lib.Bisect -- binary search for an interval

The closed intervals `[low i, high i]` for the indices from `first` to `last` lie in
order.  `bisect` finds the one with `x` by halving the index range; the range may be
empty, so its ends are integers.
-/
import Mathlib.Tactic.Common

namespace Ntoskrnl.Lib.Bisect

set_option autoImplicit false

theorem middle_smaller {first last : Int} (some : first ≤ last) :
    ((last + first) / 2 - 1 + 1 - first).toNat < (last + 1 - first).toNat ∧
      (last + 1 - ((last + first) / 2 + 1)).toNat < (last + 1 - first).toNat := by
  omega

def bisect (low high : Nat → Nat) (x : Nat) (first last : Int) : Option Nat :=
  if first ≤ last then
    let middle := (last + first) / 2
    if x < low middle.toNat then bisect low high x first (middle - 1)
    else if high middle.toNat < x then bisect low high x (middle + 1) last
    else some middle.toNat
  else none
termination_by (last + 1 - first).toNat
decreasing_by
  · exact (middle_smaller ‹_›).1
  · exact (middle_smaller ‹_›).2

section Search

variable {low high : Nat → Nat} {x : Nat} {first last : Int}

/-- The interval found is in the range and has `x`. -/
theorem bisect_some {i : Nat} (nonneg : 0 ≤ first) (found : bisect low high x first last = some i) :
    i ≤ last ∧ low i ≤ x ∧ x ≤ high i := by
  fun_induction bisect low high x first last with
  | case1 first last inside middle left ih =>
    obtain ⟨below, has⟩ := ih nonneg found
    exact ⟨by omega, has⟩
  | case2 first last inside middle left right ih =>
    exact ih (by omega) found
  | case3 first last inside middle left right =>
    cases found
    exact ⟨by omega, Nat.le_of_not_lt left, Nat.le_of_not_lt right⟩
  | case4 => cases found

/-- When nothing is found no interval of the range has `x`. -/
theorem bisect_none (nonneg : 0 ≤ first) (valid : ∀ i : Nat, i ≤ last → low i ≤ high i)
    (ordered : ∀ i j : Nat, i < j → j ≤ last → high i < low j)
    (missed : bisect low high x first last = none) (i : Nat) (above : first ≤ i)
    (below : i ≤ last) : ¬ (low i ≤ x ∧ x ≤ high i) := by
  fun_induction bisect low high x first last with
  | case1 first last inside middle left ih =>
    rintro ⟨begins, ends⟩
    by_cases before : (i : Int) ≤ middle - 1
    · exact ih nonneg (fun i le => valid i (by omega)) (fun i j lt le => ordered i j lt (by omega))
        missed above before ⟨begins, ends⟩
    · rcases Nat.lt_or_eq_of_le (show middle.toNat ≤ i by omega) with later | same
      · have := ordered middle.toNat i later below
        have := valid middle.toNat (by omega)
        omega
      · rw [← same] at begins
        omega
  | case2 first last inside middle left right ih =>
    rintro ⟨begins, ends⟩
    by_cases behind : middle + 1 ≤ (i : Int)
    · exact ih (by omega) valid ordered missed behind below ⟨begins, ends⟩
    · rcases Nat.lt_or_eq_of_le (show i ≤ middle.toNat by omega) with earlier | same
      · have := ordered i middle.toNat earlier (by omega)
        omega
      · rw [same] at ends
        omega
  | case3 => cases missed
  | case4 first last outside => omega

end Search

end Ntoskrnl.Lib.Bisect
