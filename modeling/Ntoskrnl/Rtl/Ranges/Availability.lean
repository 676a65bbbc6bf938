/-
# Ntoskrnl.Rtl.Ranges.Availability -- whether a range is free

The walk of `RtlIsRangeAvailable` stops at the first range that intersects and is not
excused, and behind the range asked for unless it is inside a merged range.  It goes by
start, so what it does not visit intersects nothing.
-/
import Ntoskrnl.Rtl.Ranges.Runs

namespace Ntoskrnl.Rtl.Ranges

open Base List

set_option autoImplicit false

section Model

variable (list : RangeList) (start stop flags attributeAvailableMask : Nat)
  (callback : Option (Range → Bool))

/-- The test for an intersection that does not count, with the callback behind it. -/
def excused (sharedOk nullConflictOk : Bool) (current : Range) : Bool :=
  (sharedOk && current.shared) || (current.attributes &&& attributeAvailableMask) != 0 ||
    (nullConflictOk && current.owner == 0) || callback.any (· current)

/-- `MergedHead` is not set. -/
def Iterator.onMainList (iterator : Iterator) : Bool :=
  match iterator.current with
  | some (.member _ _) => false
  | _ => true

/-- `RtlpIsRangeAvailable`, from what the last call of the iterator returned. -/
def rtlpIsRangeAvailable (sharedOk nullConflictOk forward : Bool) :
    Nat → NtStatus × Iterator × Option Range → Option Bool
  | 0, _ => none
  | _ + 1, (_, _, none) => some true
  | fuel + 1, (_, iterator, some current) =>
    if iterator.onMainList ∧
        (if forward then stop < current.start else start > current.stop) then some true
    else if RangeIntersect start stop current.start current.stop ∧
        excused attributeAvailableMask callback sharedOk nullConflictOk current = false then
      some false
    else rtlpIsRangeAvailable sharedOk nullConflictOk forward fuel
      (rtlGetNextRange list iterator forward)

/-- The bits of the flags are `RTL_RANGE_LIST_SHARED_OK` and `RTL_RANGE_LIST_NULL_CONFLICT_OK`. -/
def rtlIsRangeAvailable (fuel : Nat) : Option Bool :=
  if (rtlGetFirstRange list).1 = .noMoreEntries then some true
  else rtlpIsRangeAvailable list start stop attributeAvailableMask callback (flags.testBit 0)
    (flags.testBit 1) true fuel (rtlGetFirstRange list)

end Model

variable {list : RangeList} {entries : List Entry} {start stop fuel : Nat}

/-- The ranges of a list come in the order of their starts. -/
theorem rangesOf_sorted (ok : ListOk entries) :
    (rangesOf entries).Pairwise fun a b => a.start ≤ b.start := by
  unfold rangesOf
  rw [pairwise_flatMap]
  constructor
  · intro e mem
    cases e with
    | allocated => exact pairwise_singleton _ _
    | merged header => exact (ok.each _ mem).sorted
  · refine ok.ordered.imp_of_mem fun {a b} mem mem' order r found t found' => ?_
    have below := (ok.each a mem).hull.below r.toLeaf (mem_map_of_mem found)
    have above := (ok.each b mem').hull.above t.toLeaf (mem_map_of_mem found')
    have valid := (ok.each a mem).valid (mem_map_of_mem (f := Range.toLeaf) found)
    omega

/-- The walk forwards answers whether every intersection is excused. -/
theorem rtlpIsRangeAvailable_eq {mask : Nat} {callback : Option (Range → Bool)}
    {sharedOk nullConflictOk : Bool} {next : NtStatus × Iterator × Option Range}
    {ranges : List Range} (visits : Visits list next ranges)
    (sorted : ranges.Pairwise fun a b => a.start ≤ b.start) (valid : start ≤ stop)
    (enough : ranges.length < fuel) :
    ∃ available, rtlpIsRangeAvailable list start stop mask callback sharedOk nullConflictOk true
        fuel next = some available ∧
      (available ↔ ∀ r ∈ ranges, RangeIntersect start stop r.start r.stop →
        excused mask callback sharedOk nullConflictOk r) := by
  induction visits generalizing fuel with
  | done =>
    obtain ⟨fuel, rfl⟩ := Nat.exists_eq_add_of_lt enough
    exact ⟨true, rfl, iff_of_true rfl nofun⟩
  | @visit iterator range ranges next ih =>
    obtain ⟨fuel, rfl⟩ := Nat.exists_eq_add_of_lt enough
    obtain ⟨first, others⟩ := pairwise_cons.mp sorted
    simp only [rtlpIsRangeAvailable, if_true]
    split
    · next behind =>
      have past : stop < range.start := behind.2
      refine ⟨true, rfl, iff_of_true rfl fun r mem meets => absurd ?_ meets⟩
      have later : range.start ≤ r.start := by
        rcases mem_cons.mp mem with rfl | mem
        · exact Nat.le_refl _
        · exact first r mem
      exact .inl ⟨by omega, by omega⟩
    split
    · next conflict =>
      refine ⟨false, rfl, iff_of_false nofun fun all => ?_⟩
      rw [all range mem_cons_self conflict.1] at conflict
      exact nomatch conflict.2
    · next passed =>
      obtain ⟨available, run, right⟩ := ih others (show _ < ranges.length + 1 + fuel by omega)
      refine ⟨available, run, right.trans ?_⟩
      rw [forall_mem_cons, and_iff_right]
      intro meets
      by_contra excuse
      exact passed ⟨meets, Bool.eq_false_iff.mpr excuse⟩

/-- **The query is exact after every run of safe calls**: the range is available just if
every range of the list that intersects it is excused. -/
theorem rtlIsRangeAvailable_exact (calls : List Call) (safe : SafeRun rtlInitializeRangeList calls)
    (flags mask : Nat) (callback : Option (Range → Bool)) (valid : start ≤ stop) :
    let list := runCalls rtlInitializeRangeList calls
    ∀ fuel, list.count < fuel → ∃ available,
      rtlIsRangeAvailable list start stop flags mask callback fuel = some available ∧
      (available ↔ ∀ r ∈ rangesOf list.entries, RangeIntersect start stop r.start r.stop →
        excused mask callback (flags.testBit 0) (flags.testBit 1) r) := by
  intro list fuel enough
  obtain ⟨ok, count⟩ : Sound list := (run_sound sound_initialize safe).1
  have visits := visits_rangesOf ok
  unfold rtlIsRangeAvailable
  split
  · next empty =>
    refine ⟨true, rfl, iff_of_true rfl ?_⟩
    generalize rtlGetFirstRange list = first at visits empty
    generalize rangesOf list.entries = ranges at visits
    cases visits with
    | done => exact nofun
    | visit => exact nomatch empty
  · refine rtlpIsRangeAvailable_eq visits (rangesOf_sorted ok) valid ?_
    rwa [count, leavesOf, length_map] at enough

/-- In front of the range that is not shared. -/
theorem rtlIsRangeAvailable_exact_shared :
    ∃ available, rtlIsRangeAvailable (runCalls rtlInitializeRangeList
      [.addRange 0 10 0 2 0 1, .addRange 5 22 0 1 0 2]) 0 4 1 0 none 3 = some available ∧
      available :=
  (rtlIsRangeAvailable_exact _
    (by exact ⟨fun _ => .inr fun _ mem => (nomatch mem), fun _ => .inl rfl, trivial⟩) 1 0 none
      (by decide) 3 (by decide)).imp fun _ right => right.imp_right fun iff =>
      iff.mpr (by decide)

end Ntoskrnl.Rtl.Ranges
