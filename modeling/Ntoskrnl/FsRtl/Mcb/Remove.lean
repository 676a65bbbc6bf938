/-
# Ntoskrnl.FsRtl.Mcb.Remove -- removing a range of VBNs

`FsRtlRemoveBaseMcbEntry` removes run by run.  What one pass takes out of a run is an
edit of the runs with the tag of a hole, in one of the shapes entire run, first part,
last part and middle; a pass over a hole changes nothing.
-/
import Ntoskrnl.FsRtl.Mcb.Add

namespace Ntoskrnl.FsRtl.Mcb

open Base Lib.RunLength List

set_option autoImplicit false

section Pass

variable {maximum : Nat} {before after : List Mapping} {p : Mapping} {vbn count : Nat}

theorem runsOf_of_hole {start : Nat} (hole : nextTag none (runsOf start after) = none)
    (start' : Nat) : runsOf start' after = runsOf start after := by
  cases after with
  | nil => rfl
  | cons q =>
    have unused : q.lbn = unusedLbn := tagAt_eq_none.mp hole
    simp [runsOf, unused]

/-! ## The shapes of a pass over a run -/

section Shapes

variable (valid : Valid ⟨maximum, before ++ p :: after⟩) (mapped : p.lbn ≠ unusedLbn)

include valid mapped

theorem removeEntireRun_runs :
    runsOf 0 (removeEntireRun ⟨maximum, before ++ p :: after⟩ before.length).mapping =
      editInside before p after (endVbn 0 before) p.nextVbn none := by
  have previous := valid.previous_hole_iff
  have next := valid.next_hole_iff
  rw [removeEntireRun, startingLbn_append, if_neg mapped, editInside, cutLeft_start rfl,
    trimLast_runsOf, cutRight, join]
  simp only [valid.last_iff, previous, ne_eq, next]
  -- what is merged depends on holes in front and behind and on the end of the pairs
  by_cases hole : lastTag before = some none
  · obtain ⟨init, q, rfl, tag⟩ := exists_last hole
    have unused : q.lbn = unusedLbn := tagAt_eq_none.mp tag
    have both : fsRtlRemoveLargeEntry ⟨maximum, (init ++ [q]) ++ p :: after⟩
        ((init ++ [q]).length - 1) 2 = ⟨maximum, init ++ after⟩ := by
      simpa using @removeLargeEntry_append maximum init after [q, p]
    have one : fsRtlRemoveLargeEntry (.setLbn ⟨maximum, (init ++ [q]) ++ p :: after⟩
        (init ++ [q]).length unusedLbn) ((init ++ [q]).length - 1) 1 =
        ⟨maximum, init ++ { p with lbn := unusedLbn } :: after⟩ := by
      simpa [Nat.add_assoc] using
        @removeLargeEntry_append maximum init ({ p with lbn := unusedLbn } :: after) [q]
    simp only [hole, not_true_eq_false, false_and, if_false, if_true,
      previousEndingLbn_hole unused, true_and, both, one]
    by_cases last : after = []
    · subst last
      simp [runsOf, nextTag]
    · by_cases next_hole : nextTag none (runsOf p.nextVbn after) = none
      · simp [last, next_hole, runsOf_of_hole next_hole (endVbn 0 init), runsOf]
      · simp [last, next_hole, runsOf]
  · have one : fsRtlRemoveLargeEntry ⟨maximum, before ++ p :: after⟩ before.length 1 =
        ⟨maximum, before ++ after⟩ := @removeLargeEntry_append maximum before after [p]
    simp only [hole, not_false_eq_true, true_and, if_true, if_false, one]
    by_cases last : after = []
    · subst last
      simp [runsOf, nextTag]
    · by_cases next_hole : nextTag none (runsOf p.nextVbn after) = none
      · simp [last, next_hole, runsOf_of_hole next_hole (endVbn 0 before)]
      · simp [last, next_hole, runsOf]

theorem removeFirstPart_runs (rear : endVbn 0 before + count < p.nextVbn) :
    runsOf 0 (removeFirstPart ⟨maximum, before ++ p :: after⟩ before.length (endVbn 0 before)
        count).mapping =
      editInside before p after (endVbn 0 before) (endVbn 0 before + count) none := by
  have bound := valid.nextVbn_bound
  have fits := valid.lbn_bound mapped
  have other : tagAt (endVbn 0 before) p.lbn ≠ none := mt tagAt_eq_none.mp mapped
  have lbn : ulong (p.lbn + count) = p.lbn + count := ulong_eq (by omega)
  have still : p.lbn + count ≠ unusedLbn := by
    unfold unusedLbn
    omega
  have tag : tagAt (endVbn 0 before + count) (p.lbn + count) = tagAt (endVbn 0 before) p.lbn := by
    rw [tagAt_of_ne mapped, tagAt_of_ne still]
    congr 1
    omega
  rw [removeFirstPart, startingLbn_append, if_neg mapped, editInside, cutLeft_start rfl,
    trimLast_runsOf, cutRight, if_neg (Nat.ne_of_lt rear), ulong_eq (show count < 2 ^ 32 by omega)]
  simp only [valid.previous_hole_iff]
  by_cases hole : lastTag before = some none
  · obtain ⟨init, q, rfl, tag'⟩ := exists_last hole
    have ends : endVbn 0 (init ++ [q]) = q.nextVbn := by simp [endVbn]
    simp only [ends] at rear tag other fits ⊢
    simp [hole, runsOf, join, nextTag, other, lbn, tag, tag', ulong_eq (show
      q.nextVbn + count < 2 ^ 32 by omega)]
  · obtain ⟨_, grown⟩ := @addLargeEntry_append maximum before (p :: after) 1
    rw [if_pos hole, if_neg hole, grown, ulong_eq (show endVbn 0 before < 2 ^ 32 by omega),
      ulong_eq (show endVbn 0 before + count < 2 ^ 32 by omega)]
    simp [replicate, runsOf, join, nextTag, other, lbn, tag]

theorem removeLastPart_runs (front : endVbn 0 before < vbn) (below : vbn < p.nextVbn) :
    runsOf 0 (removeLastPart ⟨maximum, before ++ p :: after⟩ before.length
        (p.nextVbn - vbn)).mapping =
      editInside before p after vbn p.nextVbn none := by
  have bound := valid.nextVbn_bound
  have other : tagAt (endVbn 0 before) p.lbn ≠ none := mt tagAt_eq_none.mp mapped
  have shorter : ulongSub (BaseMcb.pair ⟨maximum, before ++ p :: after⟩ before.length).nextVbn
      (p.nextVbn - vbn) = vbn := by
    simp only [pair_append_zero, pair_zero]
    rw [ulongSub_eq (by omega) (by omega)]
    omega
  have cut : BaseMcb.setNextVbn ⟨maximum, before ++ p :: after⟩ before.length vbn =
      ⟨maximum, before ++ { p with nextVbn := vbn } :: after⟩ := by simp
  rw [removeLastPart, shorter, startingLbn_append, if_neg mapped, editInside,
    cutLeft_inside (Nat.ne_of_lt front), trimLast_concat, if_neg other, cutRight, join]
  simp only [valid.last_iff, valid.next_hole_iff, cut]
  by_cases last : after = []
  · subst last
    simp [runsOf, nextTag]
  · by_cases next_hole : nextTag none (runsOf p.nextVbn after) = none
    · simp [last, next_hole, runsOf, runsOf_of_hole next_hole vbn]
    · obtain ⟨_, grown⟩ := @addLargeEntry_append maximum (before ++ [p]) after 1
      simp only [length_append, length_singleton, append_assoc, singleton_append] at grown
      simp [last, next_hole, grown, replicate, runsOf]

theorem removeMiddle_runs (front : endVbn 0 before < vbn) (some : 0 < count)
    (rear : vbn + count < p.nextVbn) :
    runsOf 0 (removeMiddle ⟨maximum, before ++ p :: after⟩ before.length vbn count).mapping =
      editInside before p after vbn (vbn + count) none := by
  have bound := valid.nextVbn_bound
  have fits := valid.lbn_bound mapped
  have other : tagAt (endVbn 0 before) p.lbn ≠ none := mt tagAt_eq_none.mp mapped
  have still : p.lbn + (vbn - endVbn 0 before + count) ≠ unusedLbn := by
    unfold unusedLbn
    omega
  have tag : tagAt (vbn + count) (p.lbn + (vbn - endVbn 0 before + count)) =
      tagAt (endVbn 0 before) p.lbn := by
    rw [tagAt_of_ne mapped, tagAt_of_ne still]
    congr 1
    omega
  obtain ⟨maximum', grown⟩ := @addLargeEntry_append maximum before (p :: after) 2
  have first := @sectorsWithinRun_of_lt maximum' before
    (⟨vbn + count, unusedLbn⟩ :: p :: after) ⟨vbn, p.lbn⟩ front (by dsimp only; omega)
  have second := @sectorsWithinRun_of_lt maximum' (before ++ [⟨vbn, p.lbn⟩]) (p :: after)
    ⟨vbn + count, unusedLbn⟩ (by simp [endVbn, some]) (by dsimp only; omega)
  simp only [append_assoc, singleton_append, length_append, length_singleton,
    endVbn_append, endVbn] at first second
  have moved : ulong (vbn - endVbn 0 before + count) = vbn - endVbn 0 before + count :=
    ulong_eq (by omega)
  have total : ulong (p.lbn + (vbn - endVbn 0 before + count)) =
      p.lbn + (vbn - endVbn 0 before + count) := ulong_eq (by omega)
  rw [removeMiddle, startingLbn_append, if_neg mapped, grown, editInside,
    cutLeft_inside (Nat.ne_of_lt front), trimLast_concat, cutRight,
    if_neg (Nat.ne_of_lt rear), ulong_eq (show vbn < 2 ^ 32 by omega),
    ulong_eq (show count < 2 ^ 32 by omega), ulong_eq (show vbn + count < 2 ^ 32 by omega)]
  simp [replicate, first, second, moved, total, runsOf, join, nextTag, other, tag]

end Shapes

/-! ## One pass -/

variable (valid : Valid ⟨maximum, before ++ p :: after⟩)

include valid

/-- A pass removes a positive amount from the front of the range. -/
structure Passed (mcb : BaseMcb) (vbn count : Nat) (pass : BaseMcb × Nat) : Prop where
  some : 0 < pass.2
  le : pass.2 ≤ count
  valid : Valid pass.1
  map : pass.1.toMap = PartialMap.remove mcb.toMap vbn pass.2

theorem remove_hole (hole : p.lbn = unusedLbn)
    (above : endVbn 0 before ≤ vbn) (below : vbn + count ≤ p.nextVbn) :
    BaseMcb.toMap ⟨maximum, before ++ p :: after⟩ =
      PartialMap.remove (BaseMcb.toMap ⟨maximum, before ++ p :: after⟩) vbn count := by
  funext x
  unfold PartialMap.remove
  split
  · next inside => rw [valid.toMap_middle (by omega) (by omega), if_pos hole]
  · rfl

/-- A pass takes what is asked for or what is left of the run. -/
theorem removeRun_amount (above : endVbn 0 before ≤ vbn) (below : vbn < p.nextVbn) :
    (removeRun ⟨maximum, before ++ p :: after⟩ before.length vbn count).2 =
      min count (p.nextVbn - vbn) := by
  have bound := valid.nextVbn_bound
  unfold removeRun
  rw [startingVbn_append, valid.endingVbn_eq, sectorsWithinRun_of_lt valid.start_lt (by omega),
    ulong_eq (show vbn < 2 ^ 32 by omega), ulongSub_eq (by omega) (by omega),
    ulong_eq (show p.nextVbn - 1 - vbn + 1 < 2 ^ 32 by omega)]
  split
  · omega
  · split
    · omega
    · split <;> dsimp only <;> omega

omit valid in
theorem removeRun_hole (hole : p.lbn = unusedLbn) :
    (removeRun ⟨maximum, before ++ p :: after⟩ before.length vbn count).1 =
      ⟨maximum, before ++ p :: after⟩ := by
  have lbn : startingLbn ⟨maximum, before ++ p :: after⟩ before.length = unusedLbn := by
    rw [startingLbn_append, hole]
  unfold removeRun
  split
  · exact if_pos lbn
  · split
    · exact if_pos lbn
    · split
      · exact if_pos lbn
      · exact if_pos lbn

theorem removeRun_runs
    (mapped : p.lbn ≠ unusedLbn) (some : 0 < count) (above : endVbn 0 before ≤ vbn)
    (below : vbn < p.nextVbn) :
    runsOf 0 (removeRun ⟨maximum, before ++ p :: after⟩ before.length vbn count).1.mapping =
      editInside before p after vbn (vbn + min count (p.nextVbn - vbn)) none := by
  have bound := valid.nextVbn_bound
  have whole (enough : p.nextVbn - 1 < vbn + count) :
      vbn + min count (p.nextVbn - vbn) = p.nextVbn := by omega
  have part (short : ¬ p.nextVbn - 1 < vbn + count) :
      vbn + min count (p.nextVbn - vbn) = vbn + count := by omega
  unfold removeRun
  rw [startingVbn_append, valid.endingVbn_eq]
  split
  · next entire =>
    obtain ⟨rfl, enough⟩ := entire
    rw [whole enough]
    exact removeEntireRun_runs valid mapped
  · next short =>
    split
    · next first =>
      subst first
      have short := fun enough => short ⟨rfl, enough⟩
      rw [part short]
      exact removeFirstPart_runs valid mapped (by omega)
    · next inside =>
      split
      · next enough =>
        rw [whole enough, ulong_eq (show vbn < 2 ^ 32 by omega),
          ulongSub_eq (by omega) (by omega), ulong_eq (by omega),
          show p.nextVbn - 1 - vbn + 1 = p.nextVbn - vbn by omega]
        exact removeLastPart_runs valid mapped (by omega) below
      · next short =>
        rw [part short]
        exact removeMiddle_runs valid mapped (by omega) some (by omega)

theorem removeRun_passed (some : 0 < count)
    (above : endVbn 0 before ≤ vbn) (below : vbn < p.nextVbn) :
    Passed ⟨maximum, before ++ p :: after⟩ vbn count
      (removeRun ⟨maximum, before ++ p :: after⟩ before.length vbn count) := by
  have amount := @removeRun_amount maximum before after p vbn count valid above below
  have result : Valid (removeRun ⟨maximum, before ++ p :: after⟩ before.length vbn count).1 ∧
      (removeRun ⟨maximum, before ++ p :: after⟩ before.length vbn count).1.toMap =
        PartialMap.remove (BaseMcb.toMap ⟨maximum, before ++ p :: after⟩) vbn
          (min count (p.nextVbn - vbn)) := by
    by_cases hole : p.lbn = unusedLbn
    · rw [removeRun_hole hole]
      exact ⟨valid, remove_hole valid hole above (by omega)⟩
    · exact edit_inside valid above (by omega) (by omega)
        (removeRun_runs valid hole some above below) PartialMap.offsets_remove
        (PartialMap.bounded_remove valid.bounded)
  exact ⟨by omega, by omega, result.1, by rw [amount]; exact result.2⟩

end Pass

/-! ## The loop -/

section Loop

variable {mcb : BaseMcb} {vbn count : Nat}

theorem remove_behind (valid : Valid mcb) (behind : endVbn 0 mcb.mapping ≤ vbn) :
    mcb.toMap = PartialMap.remove mcb.toMap vbn count := by
  funext x
  unfold PartialMap.remove
  split
  · exact lbnAt_behind valid.canonical.increasing (by omega)
  · rfl

theorem removeLoop_spec (valid : Valid mcb) (bound : vbn + count + 1 < 2 ^ 32) :
    ∃ mcb', removeLoop mcb vbn count = some mcb' ∧ Valid mcb' ∧
      mcb'.toMap = PartialMap.remove mcb.toMap vbn count := by
  induction count using Nat.strongRecOn generalizing mcb vbn with
  | ind count ih =>
    rw [removeLoop]
    split
    · next none =>
      refine ⟨mcb, rfl, valid, ?_⟩
      funext x
      exact (if_neg (by omega)).symm
    · next some =>
      rw [ulong_eq (by omega)]
      split
      · next missed =>
        exact ⟨mcb, rfl, valid, remove_behind valid (valid.find_none missed)⟩
      · next index found =>
        obtain ⟨maximum, before, p, after, rfl, rfl, above, below⟩ := valid.find_some found
        have passed := removeRun_passed valid (Nat.pos_of_ne_zero some) above below
        generalize removeRun _ before.length vbn count = pass at passed
        have positive := passed.some
        have le := passed.le
        rw [if_pos ⟨positive, le⟩]
        obtain ⟨mcb', result, valid', map⟩ :=
          @ih (count - pass.2) (by omega) pass.1 (vbn + pass.2) passed.valid (by omega)
        refine ⟨mcb', result, valid', ?_⟩
        rw [map, passed.map, PartialMap.remove_remove le]

/-- **Removing ends and removes exactly the range.** -/
theorem fsRtlRemoveBaseMcbEntry_spec (valid : Valid mcb) (bound : vbn + count + 1 < 2 ^ 32) :
    ∃ mcb', fsRtlRemoveBaseMcbEntry mcb vbn count = some mcb' ∧ Valid mcb' ∧
      mcb'.toMap = PartialMap.remove mcb.toMap vbn count := by
  rw [fsRtlRemoveBaseMcbEntry]
  split
  · next all =>
    obtain ⟨rfl, some, enough⟩ := all
    refine ⟨_, rfl, ⟨.nil none, nofun⟩, ?_⟩
    have last : endVbn 0 mcb.mapping ≤ count := by
      obtain ⟨maximum, mapping⟩ := mcb
      rcases eq_nil_or_concat' mapping with rfl | ⟨init, q, rfl⟩
      · exact Nat.zero_le _
      · simpa [BaseMcb.pairCount, endVbn] using enough
    funext x
    unfold PartialMap.remove
    split
    · rfl
    · exact (lbnAt_behind valid.canonical.increasing (by omega)).symm
  · exact removeLoop_spec valid bound

end Loop

end Ntoskrnl.FsRtl.Mcb
