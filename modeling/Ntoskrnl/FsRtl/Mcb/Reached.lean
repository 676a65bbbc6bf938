/-
# Ntoskrnl.FsRtl.Mcb.Reached -- truncating, splitting, and whole runs

Truncating keeps the runs before a cut.  Splitting moves the runs behind a cut up: their
pairs keep their LBNs, so their offsets go down by the amount, and the gap is a hole
that joins the holes next to it.

An MCB that the routines reach from an initialised one stays valid, so each routine does
to its partial map what its description says (`mcb_refines`), and its pairs are the
canonical ones of the map: no order of calls leads to other pairs (`mcb_canonical`).
-/
import Ntoskrnl.FsRtl.Mcb.Remove

namespace Ntoskrnl.FsRtl.Mcb

open Base Lib.RunLength List

set_option autoImplicit false

variable {mcb' mcb : BaseMcb}

theorem valid_congr (valid : Valid mcb) (same : mcb'.mapping = mcb.mapping) :
    Valid mcb' ∧ mcb'.toMap = mcb.toMap := by
  have map : mcb'.toMap = mcb.toMap := congrArg (lbnAt 0) same
  exact ⟨⟨same ▸ valid.canonical, map ▸ valid.bounded⟩, map⟩

theorem valid_empty (maximum : Nat) : Valid ⟨maximum, []⟩ :=
  ⟨.nil none, nofun⟩

/-! ## Truncating -/

variable {maximum : Nat} {p : Mapping}

section Truncate

variable {before after : List Mapping} {vbn : Nat}

theorem truncate_behind (valid : Valid mcb) (behind : endVbn 0 mcb.mapping ≤ vbn) :
    mcb.toMap = PartialMap.truncate mcb.toMap vbn := by
  funext x
  unfold PartialMap.truncate
  split
  · rfl
  · exact lbnAt_behind valid.canonical.increasing (by omega)

/-- The pairs before a cut inside the pair `p`. -/
theorem cut_inside (valid : Valid ⟨maximum, before ++ p :: after⟩) (above : endVbn 0 before ≤ vbn)
    (below : vbn ≤ p.nextVbn)
    (runs : runsOf 0 mcb'.mapping =
      trimLast none (cutLeft (runsOf 0 before) vbn (tagAt (endVbn 0 before) p.lbn))) :
    Valid mcb' ∧ mcb'.toMap =
      PartialMap.truncate (BaseMcb.toMap ⟨maximum, before ++ p :: after⟩) vbn := by
  have old := valid.value_eq
  rw [runsOf_append, runsOf] at old
  obtain ⟨canonical, values⟩ := weld (t := none)
    (valid.canonical_inside.before_inside (by simpa using above) below)
    (.nothing none (vbn + 1)) (Nat.lt_succ_self vbn)
  rw [show join none (vbn + 1) none ([] : List (Run (Option Int))) = [] from rfl,
    append_nil, ← runs] at canonical values
  refine valid_of_value canonical (fun x => ?_) (PartialMap.bounded_truncate valid.bounded)
  rw [values x, PartialMap.offsets_truncate, old, ite_self]

theorem truncatePairs_spec (valid : Valid mcb) (bound : vbn < 2 ^ 32) :
    Valid (truncatePairs mcb vbn) ∧
      (truncatePairs mcb vbn).toMap = PartialMap.truncate mcb.toMap vbn := by
  unfold truncatePairs
  split
  · next zero =>
    subst zero
    exact ⟨valid_empty _, by funext x; exact (if_neg (Nat.not_lt_zero x)).symm⟩
  · next some =>
    split
    · next empty =>
      have none : mcb.mapping = [] := eq_nil_of_length_eq_zero empty
      exact ⟨valid, truncate_behind valid (by rw [none]; exact Nat.zero_le _)⟩
    · split
      · next missed =>
        have := valid.find_none missed
        exact ⟨valid, truncate_behind valid (by omega)⟩
      · next index found =>
        obtain ⟨maximum, before, p, after, rfl, rfl, above, below⟩ := valid.find_some found
        rw [startingLbn_append]
        split
        · next hole =>
          refine cut_inside valid (by omega) (by omega) ?_
          rw [cutLeft_inside (by omega), hole]
          simp
        · next mapped =>
          have other : tagAt (endVbn 0 before) p.lbn ≠ none := mt tagAt_eq_none.mp mapped
          have kept : (before ++ p :: after).take (before.length + 1) = before ++ [p] := by
            simp [take_length_add_append]
          simp only [kept, nextStartingVbn_append]
          split
          · refine cut_inside valid (by omega) (by omega) ?_
            rw [cutLeft_inside (by omega), trimLast_concat, if_neg other]
            simp [runsOf]
          · next whole =>
            have ends : p.nextVbn = vbn := by omega
            refine cut_inside valid (by omega) (by omega) ?_
            rw [cutLeft_inside (by omega), trimLast_concat, if_neg other]
            simp [runsOf, ends]

theorem fsRtlTruncateBaseMcb_spec (valid : Valid mcb) (bound : vbn < 2 ^ 32) (allocated : Bool) :
    Valid (fsRtlTruncateBaseMcb mcb vbn allocated) ∧
      (fsRtlTruncateBaseMcb mcb vbn allocated).toMap = PartialMap.truncate mcb.toMap vbn := by
  obtain ⟨valid', map⟩ := truncatePairs_spec valid bound
  have same : (fsRtlTruncateBaseMcb mcb vbn allocated).mapping =
      (truncatePairs mcb vbn).mapping := by
    rw [fsRtlTruncateBaseMcb, ulong_eq bound, shrinkMapping]
    split <;> rfl
  obtain ⟨valid'', map'⟩ := valid_congr valid' same
  exact ⟨valid'', map'.trans map⟩

/-! ## Splitting -/

variable {rest : List Mapping} {amount start : Nat}

theorem tagAt_shift {lbn : Nat} :
    tagAt (start + amount) lbn = PartialMap.lower amount (tagAt start lbn) := by
  unfold tagAt PartialMap.lower
  split
  · rfl
  · simp only [Option.map_some, Option.some.injEq]
    omega

/-- Pairs that are moved up keep their LBNs. -/
theorem runsOf_shift {pairs : List Mapping} (inc : Increasing start (runsOf start pairs))
    (bound : endVbn start pairs + amount < 2 ^ 32) :
    runsOf (start + amount)
        (pairs.map fun pair => { pair with nextVbn := ulong (pair.nextVbn + amount) }) =
      (runsOf start pairs).map (Run.shift amount (PartialMap.lower amount)) := by
  induction pairs generalizing start with
  | nil => rfl
  | cons pair pairs ih =>
    have behind : pair.nextVbn ≤ endVbn pair.nextVbn pairs := limit_runsOf ▸ inc.2.le_limit
    have bound : endVbn pair.nextVbn pairs + amount < 2 ^ 32 := bound
    have stop : ulong (pair.nextVbn + amount) = pair.nextVbn + amount := ulong_eq (by omega)
    simp [runsOf, stop, ih inc.2 bound, Run.shift, tagAt_shift]

theorem shiftPairs_append : shiftPairs ⟨maximum, before ++ rest⟩ before.length amount =
      ⟨maximum, before ++ rest.map fun pair =>
        { pair with nextVbn := ulong (pair.nextVbn + amount) }⟩ := by
  simp [shiftPairs]

/-- The runs before a cut inside the pair `p`, a hole, and the runs behind, moved up. -/
def shiftInside (before : List Mapping) (p : Mapping) (after : List Mapping) (vbn amount : Nat) :
    List (Run (Option Int)) :=
  trimLast none (cutLeft (runsOf 0 before) vbn (tagAt (endVbn 0 before) p.lbn)) ++
    join none (vbn + amount) none
      (⟨p.nextVbn + amount, PartialMap.lower amount (tagAt (endVbn 0 before) p.lbn)⟩ ::
        (runsOf p.nextVbn after).map (Run.shift amount (PartialMap.lower amount)))

section Splitting

variable (valid : Valid ⟨maximum, before ++ p :: after⟩)

include valid

theorem shift_inside (above : endVbn 0 before ≤ vbn) (below : vbn < p.nextVbn) (some : 0 < amount)
    (room : endVbn 0 (before ++ p :: after) + amount + 1 < 2 ^ 32)
    (runs : runsOf 0 mcb'.mapping = shiftInside before p after vbn amount) :
    Valid mcb' ∧ mcb'.toMap =
      PartialMap.shift (BaseMcb.toMap ⟨maximum, before ++ p :: after⟩) vbn amount := by
  have can := valid.canonical_inside
  have old := valid.value_eq
  rw [runsOf_append, runsOf] at old
  have behind := can.after_inside (w := vbn) (by simpa using above) (Nat.le_of_lt below)
  rw [cutRight, if_neg (Nat.ne_of_lt below)] at behind
  obtain ⟨canonical, values⟩ := weld (t := none)
    (can.before_inside (by simpa using above) (Nat.le_of_lt below))
    (behind.shift rfl (PartialMap.lower_injective amount)) (Nat.lt_add_of_pos_right some)
  rw [map_cons, Run.shift, ← shiftInside, ← runs] at canonical values
  refine valid_of_value canonical (fun x => ?_) (PartialMap.bounded_shift valid.bounded
      (fun x ends => lbnAt_behind valid.canonical.increasing ends) room)
  rw [values x, PartialMap.offsets_shift, old]

theorem Valid.no_hole_before (hole : p.lbn = unusedLbn) : lastTag before ≠ some none := by
  rcases eq_nil_or_concat' before with rfl | ⟨init, q, rfl⟩
  · simp
  · have red := valid.canonical.reduced
    rw [lastTag_concat]
    intro same
    simp only [runsOf_append, runsOf, Reduced, map_append, map_cons, append_assoc,
      cons_append, nil_append, hole, tagAt_unused] at red
    have := (isChain_append_cons_cons.mp red).2.1
    exact this (Option.some.inj same)

theorem split_runs (above : endVbn 0 before ≤ vbn) (below : vbn < p.nextVbn)
    (room : endVbn 0 (before ++ p :: after) + amount + 1 < 2 ^ 32) :
    let opened := openHole ⟨maximum, before ++ p :: after⟩ before.length vbn amount
    runsOf 0 (shiftPairs opened.1 opened.2 amount).mapping =
      shiftInside before p after vbn amount := by
  dsimp only [shiftInside]
  have inc := valid.canonical.increasing
  rw [runsOf_append, increasing_append] at inc
  have behind : p.nextVbn ≤ endVbn p.nextVbn after := limit_runsOf ▸ inc.2.2.le_limit
  simp only [endVbn_append, endVbn] at room
  have stop : ulong (p.nextVbn + amount) = p.nextVbn + amount := ulong_eq (by omega)
  have tail := @runsOf_shift amount p.nextVbn after inc.2.2 (by omega)
  rw [openHole, startingLbn_append, startingVbn_append]
  -- a hole is widened; otherwise the cut is at the start of a run or inside it
  by_cases hole : p.lbn = unusedLbn
  · have kept : trimLast none (cutLeft (runsOf 0 before) vbn none) = runsOf 0 before := by
      by_cases front : endVbn 0 before = vbn
      · rw [cutLeft_start front, trimLast_runsOf, if_neg (valid.no_hole_before hole)]
      · rw [cutLeft_inside front, trimLast_concat, if_pos rfl]
    rw [if_pos hole, shiftPairs_append]
    simp [hole, kept, runsOf, stop, tail, join, nextTag, PartialMap.lower]
  · have other : PartialMap.lower amount (tagAt (endVbn 0 before) p.lbn) ≠ none := by
      simp [PartialMap.lower, tagAt_eq_none, hole]
    rw [if_neg hole]
    by_cases front : endVbn 0 before = vbn
    · subst front
      rw [cutLeft_start rfl, trimLast_runsOf, join, nextTag, if_neg other]
      by_cases previous : lastTag before = some none
      · obtain ⟨init, q, rfl, tag⟩ := exists_last previous
        have ends : endVbn 0 (init ++ [q]) = q.nextVbn := by simp [endVbn]
        have unused : q.lbn = unusedLbn := tagAt_eq_none.mp tag
        have moved : ulong (q.nextVbn + amount) = q.nextVbn + amount := ulong_eq (by omega)
        rw [if_pos ⟨rfl, by simp, previousEndingLbn_hole unused⟩]
        have shifted := @shiftPairs_append maximum init (q :: p :: after) amount
        simp only [append_assoc, singleton_append, length_append,
          length_singleton, Nat.add_sub_cancel, shifted]
        simp [runsOf, unused, ends, moved, stop, tail, tagAt_shift]
      · have notHole := valid.previous_hole_iff.mpr previous
        have moved : ulong (endVbn 0 before + amount) = endVbn 0 before + amount :=
          ulong_eq (by omega)
        obtain ⟨maximum', grown⟩ := @addLargeEntry_append maximum before (p :: after) 1
        have shifted := @shiftPairs_append maximum'
          (before ++ [⟨endVbn 0 before + amount, unusedLbn⟩]) (p :: after) amount
        rw [if_neg (fun all => notHole.elim (absurd all.2.2) (absurd · all.2.1)), if_neg previous, grown, moved]
        simp only [append_assoc, singleton_append, length_append, length_singleton] at shifted
        simp [replicate, shifted, runsOf, stop, tail, tagAt_shift]
    · have fits := valid.lbn_bound hole
      have mapped : tagAt (endVbn 0 before) p.lbn ≠ none := mt tagAt_eq_none.mp hole
      have moved : ulong (vbn + amount) = vbn + amount := ulong_eq (by omega)
      have lbn : ulongSub (ulong (p.lbn + vbn)) (endVbn 0 before) =
          p.lbn + (vbn - endVbn 0 before) := by
        unfold ulongSub ulong
        omega
      have tag : tagAt vbn (p.lbn + (vbn - endVbn 0 before)) = tagAt (endVbn 0 before) p.lbn := by
        rw [tagAt_of_ne hole, tagAt_of_ne (by unfold unusedLbn; omega)]
        congr 1
        omega
      obtain ⟨maximum', grown⟩ := @addLargeEntry_append maximum before (p :: after) 2
      have second := @startingVbn_next maximum' before (⟨vbn + amount, unusedLbn⟩ :: p :: after)
        ⟨vbn, p.lbn⟩
      have shifted := @shiftPairs_append maximum'
        (before ++ [⟨vbn, p.lbn⟩, ⟨vbn + amount, unusedLbn⟩])
        ({ p with lbn := p.lbn + (vbn - endVbn 0 before) } :: after) amount
      simp only [append_assoc, cons_append, nil_append, length_append,
        length_cons, length_nil, Nat.zero_add, Nat.reduceAdd] at shifted
      rw [if_neg (fun all => front all.1), if_neg front, cutLeft_inside front, trimLast_concat,
        if_neg mapped, join, nextTag, if_neg other, grown, moved]
      simp [replicate, second, startingVbn_append, lbn, shifted, runsOf, stop, tail, tag,
        tagAt_shift]

end Splitting

theorem fsRtlSplitBaseMcb_spec (valid : Valid mcb) (some : 0 < amount)
    (bound : vbn + amount < 2 ^ 32) (room : endVbn 0 mcb.mapping + amount + 1 < 2 ^ 32) :
    Valid (fsRtlSplitBaseMcb mcb vbn amount).2 ∧
      (fsRtlSplitBaseMcb mcb vbn amount).2.toMap = PartialMap.shift mcb.toMap vbn amount := by
  rw [fsRtlSplitBaseMcb, ulong_eq (by omega), ulong_eq (by omega)]
  split
  · next missed =>
    have behind := valid.find_none missed
    refine ⟨valid, ?_⟩
    funext x
    unfold PartialMap.shift
    split
    · rfl
    · have nothing (y : Nat) (ends : vbn ≤ y) : mcb.toMap y = none :=
        lbnAt_behind valid.canonical.increasing (by omega)
      split
      · exact nothing x (by omega)
      · rw [nothing x (by omega), nothing (x - amount) (by omega)]
  · next index found =>
    obtain ⟨maximum, before, p, after, rfl, rfl, above, below⟩ := valid.find_some found
    exact shift_inside valid above below some room (split_runs valid above below room)

end Truncate

/-! ## Looking up -/

/-- `count` VBNs are left in the run of `vbn`: they are mapped one behind the other, or not
at all, and the next one is not. -/
structure RunLeft (f : Nat → Option Nat) (vbn count : Nat) : Prop where
  some : 0 < count
  inside : ∀ i, i < count → f (vbn + i) = (f vbn).map (· + i)
  ends : f (vbn + count) ≠ (f vbn).map (· + count)

section Lookup

variable {before after : List Mapping} {vbn : Nat}

theorem Valid.runLeft (valid : Valid ⟨maximum, before ++ p :: after⟩)
    (above : endVbn 0 before ≤ vbn) (below : vbn < p.nextVbn) :
    RunLeft (BaseMcb.toMap ⟨maximum, before ++ p :: after⟩) vbn (p.nextVbn - vbn) where
  some := by omega
  inside i short := by
    rw [valid.toMap_middle (by omega) (by omega), valid.toMap_middle above below]
    split
    · rfl
    · simp only [Option.map_some, Option.some.injEq]
      omega
  ends same := by
    have can := valid.canonical_inside
    obtain ⟨inc, inc_run⟩ := increasing_append.mp can.increasing
    have red : Reduced none (⟨p.nextVbn, tagAt (endVbn 0 before) p.lbn⟩ ::
        runsOf p.nextVbn after) := by
      have red := can.reduced
      rw [Reduced, map_append, append_assoc] at red
      exact red.right_of_append
    have old := valid.value_eq
    rw [runsOf_append, runsOf] at old
    -- the tag at the next run, and the tag of this run
    have here := congrFun old vbn
    have next := congrFun old p.nextVbn
    rw [value_append_right inc (by simpa using above), value, if_pos below] at here
    rw [value_append_right inc (by have := valid.start_lt; simp only [limit_runsOf]; omega), value,
      if_neg (Nat.lt_irrefl _), value_start inc_run.2] at next
    refine (reduced_cons.mp red).1 ?_
    rw [here, next]
    unfold offsets
    rw [show vbn + (p.nextVbn - vbn) = p.nextVbn by omega] at same
    rw [same, Option.map_map]
    congr 1
    funext lbn
    simp only [Function.comp]
    omega

theorem Valid.mapped_last (valid : Valid mcb) (below : vbn < endVbn 0 mcb.mapping) :
    ∃ x, vbn ≤ x ∧ mcb.toMap x ≠ none := by
  obtain ⟨maximum, mapping⟩ := mcb
  rcases eq_nil_or_concat' mapping with rfl | ⟨init, q, rfl⟩
  · exact absurd below (Nat.not_lt_zero vbn)
  · have start := valid.start_lt
    simp only [endVbn_append, endVbn] at below
    refine ⟨q.nextVbn - 1, by omega, ?_⟩
    rw [valid.toMap_middle (by omega) (by omega), if_neg valid.last_mapped]
    exact Option.some_ne_none _

/-- **A lookup succeeds up to the last mapped VBN.** -/
theorem fsRtlLookupBaseMcbEntry_isSome (valid : Valid mcb) (bound : vbn < 2 ^ 32) :
    (fsRtlLookupBaseMcbEntry mcb vbn).isSome ↔ ∃ x, vbn ≤ x ∧ mcb.toMap x ≠ none := by
  rw [fsRtlLookupBaseMcbEntry, ulong_eq bound]
  split
  · next missed =>
    have behind := valid.find_none missed
    constructor
    · rintro ⟨⟩
    · rintro ⟨x, above, mapped⟩
      exact absurd (lbnAt_behind valid.canonical.increasing (by omega)) mapped
  · next index found =>
    obtain ⟨maximum, before, p, after, rfl, rfl, above, below⟩ := valid.find_some found
    refine ⟨fun _ => valid.mapped_last ?_, fun _ => rfl⟩
    have inc := valid.canonical.increasing
    rw [runsOf_append, increasing_append] at inc
    have : p.nextVbn ≤ endVbn p.nextVbn after := limit_runsOf ▸ inc.2.2.le_limit
    simp only [endVbn_append, endVbn]
    omega

/-- **It gives the LBN, -1 in a hole, and what is left of the run.** -/
theorem fsRtlLookupBaseMcbEntry_spec (valid : Valid mcb) (bound : vbn < 2 ^ 32) {found : Lookup}
    (result : fsRtlLookupBaseMcbEntry mcb vbn = some found) :
    found.largeLbn = ((mcb.toMap vbn).map fun lbn : Nat => (lbn : Int)).getD (-1) ∧
      RunLeft mcb.toMap vbn found.largeSectorCount := by
  rw [fsRtlLookupBaseMcbEntry, ulong_eq bound] at result
  split at result
  · cases result
  · next index found' =>
    obtain ⟨maximum, before, p, after, rfl, rfl, above, below⟩ := valid.find_some found'
    have stop := valid.nextVbn_bound
    cases result
    simp only [startingLbn_append, startingVbn_append, valid.endingVbn_eq]
    rw [ulongSub_eq (show vbn ≤ p.nextVbn - 1 by omega) (by omega),
      ulong_eq (show p.nextVbn - 1 - vbn + 1 < 2 ^ 32 by omega),
      show p.nextVbn - 1 - vbn + 1 = p.nextVbn - vbn by omega]
    refine ⟨?_, valid.runLeft above below⟩
    rw [valid.toMap_middle above below]
    split
    · rfl
    · next mapped =>
      have fits := valid.lbn_bound mapped
      rw [ulongSub_eq above bound, ulong_eq (by omega)]
      rfl

end Lookup

/-- The MCBs reached by calls with non-zero counts and LBNs whose sums stay below -1. -/
inductive Reached : BaseMcb → Prop where
  | initial : Reached fsRtlInitializeBaseMcb
  | add {mcb : BaseMcb} {vbn lbn count : Nat} (reached : Reached mcb) (some : 0 < count)
      (nonzero : lbn ≠ 0) (vbns : vbn + count < 2 ^ 32 - 1) (lbns : lbn + count < 2 ^ 32 - 1) :
      Reached (fsRtlAddBaseMcbEntry mcb vbn lbn count).2
  | remove {mcb mcb' : BaseMcb} {vbn count : Nat} (reached : Reached mcb) (some : 0 < count)
      (vbns : vbn + count < 2 ^ 32 - 1)
      (removed : fsRtlRemoveBaseMcbEntry mcb vbn count = .some mcb') : Reached mcb'
  | truncate {mcb : BaseMcb} {vbn : Nat} (reached : Reached mcb) (vbns : vbn < 2 ^ 32 - 1)
      (allocated : Bool) : Reached (fsRtlTruncateBaseMcb mcb vbn allocated)
  | split {mcb : BaseMcb} {vbn amount : Nat} (reached : Reached mcb) (some : 0 < amount)
      (vbns : vbn + amount < 2 ^ 32 - 1) (room : endVbn 0 mcb.mapping + amount < 2 ^ 32 - 1) :
      Reached (fsRtlSplitBaseMcb mcb vbn amount).2
  | reset {mcb : BaseMcb} (reached : Reached mcb) : Reached (fsRtlResetBaseMcb mcb)

theorem Reached.valid (reached : Reached mcb) : Valid mcb := by
  induction reached with
  | initial => exact valid_initial
  | @add mcb vbn lbn count _ some nonzero vbns lbns ih =>
    have added := @fsRtlAddBaseMcbEntry_added mcb vbn lbn count ih some nonzero (by omega)
      (by omega)
    generalize fsRtlAddBaseMcbEntry mcb vbn lbn count = result at added
    cases added with
    | refused => exact ih
    | success valid => exact valid
  | @remove mcb mcb' vbn count _ some vbns removed ih =>
    obtain ⟨mcb'', result, valid, -⟩ :=
      @fsRtlRemoveBaseMcbEntry_spec mcb vbn count ih (by omega)
    rw [result] at removed
    cases removed
    exact valid
  | truncate _ vbns allocated ih =>
    exact (fsRtlTruncateBaseMcb_spec ih (by omega) allocated).1
  | split _ some vbns room ih => exact (fsRtlSplitBaseMcb_spec ih some (by omega) (by omega)).1
  | reset => exact valid_empty _

/-! ## Refinement -/

/-- What the routines do to the partial map of an MCB. -/
structure Refines (mcb : BaseMcb) : Prop where
  add_true : ∀ vbn lbn count, 0 < count → lbn ≠ 0 → vbn + count < 2 ^ 32 - 1 →
    lbn + count < 2 ^ 32 - 1 → (fsRtlAddBaseMcbEntry mcb vbn lbn count).1 →
    (fsRtlAddBaseMcbEntry mcb vbn lbn count).2.toMap = PartialMap.extend mcb.toMap vbn lbn count
  add_false : ∀ vbn lbn count, 0 < count → lbn ≠ 0 → vbn + count < 2 ^ 32 - 1 →
    lbn + count < 2 ^ 32 - 1 → (fsRtlAddBaseMcbEntry mcb vbn lbn count).1 = false →
    (fsRtlAddBaseMcbEntry mcb vbn lbn count).2.mapping = mcb.mapping
  remove : ∀ vbn count, 0 < count → vbn + count < 2 ^ 32 - 1 →
    ∃ mcb', fsRtlRemoveBaseMcbEntry mcb vbn count = some mcb' ∧
      mcb'.toMap = PartialMap.remove mcb.toMap vbn count
  truncate : ∀ vbn allocated, vbn < 2 ^ 32 - 1 →
    (fsRtlTruncateBaseMcb mcb vbn allocated).toMap = PartialMap.truncate mcb.toMap vbn
  split : ∀ vbn amount, 0 < amount → vbn + amount < 2 ^ 32 - 1 →
    endVbn 0 mcb.mapping + amount < 2 ^ 32 - 1 →
    (fsRtlSplitBaseMcb mcb vbn amount).2.toMap = PartialMap.shift mcb.toMap vbn amount
  reset : (fsRtlResetBaseMcb mcb).toMap = fun _ => none
  lookup_true : ∀ vbn, vbn < 2 ^ 32 - 1 →
    ((fsRtlLookupBaseMcbEntry mcb vbn).isSome ↔ ∃ x, vbn ≤ x ∧ mcb.toMap x ≠ none)
  lookup : ∀ vbn found, vbn < 2 ^ 32 - 1 → fsRtlLookupBaseMcbEntry mcb vbn = some found →
    found.largeLbn = ((mcb.toMap vbn).map fun lbn : Nat => (lbn : Int)).getD (-1) ∧
      RunLeft mcb.toMap vbn found.largeSectorCount

/-- **The routines refine the operations on the partial map**, at every MCB they reach. -/
theorem mcb_refines {mcb : BaseMcb} (reached : Reached mcb) : Refines mcb := by
  have valid := reached.valid
  have added (vbn lbn count : Nat) (some : 0 < count) (nonzero : lbn ≠ 0)
      (vbns : vbn + count < 2 ^ 32 - 1) (lbns : lbn + count < 2 ^ 32 - 1) :=
    @fsRtlAddBaseMcbEntry_added mcb vbn lbn count valid some nonzero (by omega) (by omega)
  refine ⟨?_, ?_, ?_, ?_, ?_, rfl, ?_, ?_⟩
  · intro vbn lbn count some nonzero vbns lbns success
    have added := added vbn lbn count some nonzero vbns lbns
    generalize fsRtlAddBaseMcbEntry mcb vbn lbn count = result at added success
    cases added with
    | refused => cases success
    | success _ map => exact map
  · intro vbn lbn count some nonzero vbns lbns failure
    have added := added vbn lbn count some nonzero vbns lbns
    generalize fsRtlAddBaseMcbEntry mcb vbn lbn count = result at added failure
    cases added with
    | refused => rfl
    | success => cases failure
  · intro vbn count _ vbns
    obtain ⟨mcb', result, -, map⟩ := @fsRtlRemoveBaseMcbEntry_spec mcb vbn count valid (by omega)
    exact ⟨mcb', result, map⟩
  · intro vbn allocated vbns
    exact (fsRtlTruncateBaseMcb_spec valid (by omega) allocated).2
  · intro vbn amount some vbns room
    exact (fsRtlSplitBaseMcb_spec valid some (by omega) (by omega)).2
  · intro vbn vbns
    exact fsRtlLookupBaseMcbEntry_isSome valid (by omega)
  · intro vbn found vbns result
    exact fsRtlLookupBaseMcbEntry_spec valid (by omega) result

/-- Two runs with a hole between them. -/
theorem mcb_refines_hole :
    Refines (fsRtlAddBaseMcbEntry (fsRtlAddBaseMcbEntry fsRtlInitializeBaseMcb 0 107 1).2
      2 109 1).2 :=
  mcb_refines (.add (.add .initial (by decide) (by decide) (by decide) (by decide))
    (by decide) (by decide) (by decide) (by decide))

/-! ## The canonical form -/

structure CanonicalForm (mcb : BaseMcb) : Prop where
  increasing : ∀ i, i + 1 < mcb.pairCount → (mcb.pair i).nextVbn < (mcb.pair (i + 1)).nextVbn
  holes : ∀ i, i + 1 < mcb.pairCount →
    ¬ (startingLbn mcb i = unusedLbn ∧ startingLbn mcb (i + 1) = unusedLbn)
  last : 0 < mcb.pairCount → startingLbn mcb (mcb.pairCount - 1) ≠ unusedLbn
  contiguous : ∀ i, i + 1 < mcb.pairCount → startingLbn mcb i ≠ unusedLbn →
    startingLbn mcb (i + 1) ≠ endingLbn mcb i + 1

theorem exists_two_pairs {i : Nat} (inside : i + 1 < mcb.pairCount) :
    ∃ maximum before p q after, mcb = ⟨maximum, before ++ p :: q :: after⟩ ∧ before.length = i := by
  obtain ⟨maximum, before, p, after, rfl, rfl⟩ := exists_pair_at (Nat.lt_of_succ_lt inside)
  cases after with
  | nil => simp [BaseMcb.pairCount] at inside
  | cons q after => exact ⟨maximum, before, p, q, after, rfl, rfl⟩

theorem Valid.tags_ne {before after : List Mapping} {q : Mapping}
    (valid : Valid ⟨maximum, before ++ p :: q :: after⟩) :
    tagAt (endVbn 0 before) p.lbn ≠ tagAt p.nextVbn q.lbn := by
  have red := valid.canonical.reduced
  simp only [runsOf_append, runsOf, Reduced, map_append, map_cons, append_assoc, cons_append] at red
  exact (isChain_append_cons_cons.mp red).2.1

theorem Valid.canonicalForm (valid : Valid mcb) : CanonicalForm mcb where
  increasing i inside := by
    obtain ⟨maximum, before, p, q, after, rfl, rfl⟩ := exists_two_pairs inside
    have split : before ++ p :: q :: after = (before ++ [p]) ++ q :: after := by simp
    have := valid
    rw [split] at this
    have := this.start_lt
    simpa [endVbn] using this
  holes i inside := by
    obtain ⟨maximum, before, p, q, after, rfl, rfl⟩ := exists_two_pairs inside
    rw [startingLbn_append, startingLbn_next]
    rintro ⟨hole, hole'⟩
    exact valid.tags_ne (by rw [hole, hole']; rfl)
  last some := by
    obtain ⟨maximum, mapping⟩ := mcb
    rcases eq_nil_or_concat' mapping with rfl | ⟨init, q, rfl⟩
    · cases some
    · have := valid.last_mapped
      simpa [BaseMcb.pairCount, startingLbn] using this
  contiguous i inside := by
    obtain ⟨maximum, before, p, q, after, rfl, rfl⟩ := exists_two_pairs inside
    rw [startingLbn_append, startingLbn_next]
    intro mapped same
    have start := valid.start_lt
    have fits := valid.lbn_bound mapped
    rw [valid.endingLbn_eq mapped] at same
    refine valid.tags_ne ?_
    rw [tagAt_of_ne mapped, tagAt_of_ne (by unfold unusedLbn; omega)]
    congr 1
    omega

/-- **The pairs are canonical**: they satisfy the four clauses, and every MCB reached with
the same map has the same pairs. -/
theorem mcb_canonical {mcb mcb' : BaseMcb} (reached : Reached mcb) (reached' : Reached mcb') :
    CanonicalForm mcb ∧
      (mcb.toMap = mcb'.toMap → mcb.pairCount = mcb'.pairCount ∧ mcb.mapping = mcb'.mapping) := by
  refine ⟨reached.valid.canonicalForm, fun same => ?_⟩
  have pairs := reached.valid.unique reached'.valid same
  exact ⟨congrArg length pairs, pairs⟩

/-- Three runs that make one, added in two orders. -/
theorem mcb_canonical_orders :
    let forth := (fsRtlAddBaseMcbEntry (fsRtlAddBaseMcbEntry (fsRtlAddBaseMcbEntry
      fsRtlInitializeBaseMcb 0 107 1).2 2 109 1).2 1 108 1).2
    let back := (fsRtlAddBaseMcbEntry (fsRtlAddBaseMcbEntry (fsRtlAddBaseMcbEntry
      fsRtlInitializeBaseMcb 2 109 1).2 1 108 1).2 0 107 1).2
    CanonicalForm forth ∧ (forth.toMap = back.toMap → forth.pairCount = back.pairCount ∧
        forth.mapping = back.mapping) :=
  mcb_canonical (.add (.add (.add .initial (by decide) (by decide) (by decide) (by decide))
      (by decide) (by decide) (by decide) (by decide)) (by decide) (by decide) (by decide)
      (by decide))
    (.add (.add (.add .initial (by decide) (by decide) (by decide) (by decide))
      (by decide) (by decide) (by decide) (by decide)) (by decide) (by decide) (by decide)
      (by decide))

/-! ## Enumeration -/

def NextEntry.Maps (entry : NextEntry) (vbn lbn : Nat) : Prop :=
  entry.largeLbn ≠ -1 ∧ entry.largeVbn ≤ vbn ∧ vbn < entry.largeVbn + entry.largeSectorCount ∧
    lbn = entry.largeLbn + (vbn - entry.largeVbn)

theorem Valid.getNext_maps {vbn lbn : Nat} {before after : List Mapping}
    (valid : Valid ⟨maximum, before ++ p :: after⟩) : ∃ entry,
      fsRtlGetNextBaseMcbEntry ⟨maximum, before ++ p :: after⟩ before.length = some entry ∧
      (entry.Maps vbn lbn ↔ endVbn 0 before ≤ vbn ∧ vbn < p.nextVbn ∧
        BaseMcb.toMap ⟨maximum, before ++ p :: after⟩ vbn = some lbn) := by
  have start := valid.start_lt
  have bound := valid.nextVbn_bound
  refine ⟨_, if_pos (by simp [BaseMcb.pairCount]), ?_⟩
  rw [startingVbn_append, startingLbn_append, sectorsWithinRun_of_lt start (by omega)]
  simp only [NextEntry.Maps, extended, if_neg (show endVbn 0 before ≠ unusedLbn by
    unfold unusedLbn; omega)]
  by_cases here : endVbn 0 before ≤ vbn ∧ vbn < p.nextVbn
  · rw [valid.toMap_middle here.1 here.2]
    split
    · simp
    · simp only [Option.some.injEq]
      omega
  · omega

/-- **The runs are the map**: a VBN is mapped to an LBN just if one of them does. -/
theorem getNext_maps_iff (reached : Reached mcb) (vbn lbn : Nat) : mcb.toMap vbn = some lbn ↔
      ∃ i entry, fsRtlGetNextBaseMcbEntry mcb i = some entry ∧ entry.Maps vbn lbn := by
  have valid := reached.valid
  constructor
  · intro mapped
    have inside : vbn < endVbn 0 mcb.mapping := by
      by_contra behind
      rw [BaseMcb.toMap, lbnAt_behind valid.canonical.increasing (Nat.le_of_not_lt behind)] at mapped
      exact nomatch mapped
    obtain ⟨maximum, mapping⟩ := mcb
    obtain ⟨before, p, after, rfl, above, below⟩ := exists_pair (Nat.zero_le vbn) inside
    obtain ⟨entry, given, maps⟩ := valid.getNext_maps
    exact ⟨_, entry, given, maps.mpr ⟨above, below, mapped⟩⟩
  · rintro ⟨i, entry, given, maps⟩
    have inside : i < mcb.pairCount := by
      by_contra behind
      simp [fsRtlGetNextBaseMcbEntry, behind] at given
    obtain ⟨maximum, before, p, after, rfl, rfl⟩ := exists_pair_at inside
    obtain ⟨entry', given', maps_iff⟩ := valid.getNext_maps
    obtain rfl := Option.some.inj (given.symm.trans given')
    exact (maps_iff.mp maps).2.2

/-- The second of two runs with a hole between them. -/
theorem getNext_maps_iff_hole :
    let mcb := (fsRtlAddBaseMcbEntry (fsRtlAddBaseMcbEntry fsRtlInitializeBaseMcb 0 107 1).2 2 109 1).2
    mcb.toMap 1 = none ∧
      ∃ i entry, fsRtlGetNextBaseMcbEntry mcb i = some entry ∧ entry.Maps 2 109 :=
  ⟨by decide +kernel, (getNext_maps_iff (.add (.add .initial (by decide) (by decide) (by decide) (by decide))
    (by decide) (by decide) (by decide) (by decide)) 2 109).mp (by decide +kernel)⟩

end Ntoskrnl.FsRtl.Mcb
