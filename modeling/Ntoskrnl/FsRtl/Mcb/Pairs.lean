/-
# Ntoskrnl.FsRtl.Mcb.Pairs -- pairs as runs of constant offset

Inside a run the LBN is the VBN plus a constant.  With that offset as its tag, `none`
for a hole, the pairs of an MCB are the runs of a piecewise constant function: two
neighbours have the same tag exactly when they are both holes or their LBNs are
contiguous, so the MCB is in its canonical form when its runs are.

`Valid` is the invariant.  Under it the macros of `largemcb.c`, which compute modulo
`2 ^ 32`, have their mathematical values at every index of the array.
-/
import Ntoskrnl.FsRtl.Mcb.Model
import Ntoskrnl.Lib.RunLength

namespace Ntoskrnl.FsRtl.Mcb

open Base Lib.Bisect Lib.RunLength List

set_option autoImplicit false

/-! ## The partial map and the runs -/

/-- The LBN the pairs give a VBN, when the first of them starts at `start`. -/
def lbnAt (start : Nat) : List Mapping → Nat → Option Nat
  | [], _ => none
  | pair :: pairs, vbn =>
    if vbn < pair.nextVbn then
      if pair.lbn = unusedLbn then none else some (pair.lbn + (vbn - start))
    else lbnAt pair.nextVbn pairs vbn

/-- The abstract value of an MCB. -/
def BaseMcb.toMap (mcb : BaseMcb) : Nat → Option Nat :=
  lbnAt 0 mcb.mapping

/-- The VBN behind the pairs. -/
def endVbn (start : Nat) : List Mapping → Nat
  | [] => start
  | pair :: pairs => endVbn pair.nextVbn pairs

def tagAt (start lbn : Nat) : Option Int :=
  if lbn = unusedLbn then none else some ((lbn : Int) - start)

def runsOf (start : Nat) : List Mapping → List (Run (Option Int))
  | [] => []
  | pair :: pairs => ⟨pair.nextVbn, tagAt start pair.lbn⟩ :: runsOf pair.nextVbn pairs

/-- The tags of a partial map. -/
def offsets (f : Nat → Option Nat) (vbn : Nat) : Option Int :=
  (f vbn).map fun lbn : Nat => (lbn : Int) - vbn

variable {f : Nat → Option Nat} {pairs : List Mapping} {start vbn : Nat}

section Runs

variable {lbn : Nat} {first rest : List Mapping}

@[simp] theorem tagAt_unused : tagAt start unusedLbn = none := rfl

theorem tagAt_of_ne (mapped : lbn ≠ unusedLbn) : tagAt start lbn = some ((lbn : Int) - start) :=
  if_neg mapped

theorem tagAt_eq_none : tagAt start lbn = none ↔ lbn = unusedLbn := by
  unfold tagAt
  split <;> simp [*]

@[simp] theorem endVbn_append : endVbn start (first ++ rest) = endVbn (endVbn start first) rest := by
  induction first generalizing start with
  | nil => rfl
  | cons pair pairs ih => exact ih

@[simp] theorem runsOf_append :
    runsOf start (first ++ rest) = runsOf start first ++ runsOf (endVbn start first) rest := by
  induction first generalizing start with
  | nil => rfl
  | cons pair pairs ih => exact congrArg _ ih

@[simp] theorem limit_runsOf : limit start (runsOf start pairs) = endVbn start pairs := by
  induction pairs generalizing start with
  | nil => rfl
  | cons pair pairs ih => exact ih

theorem runsOf_injective {pairs' : List Mapping} (same : runsOf start pairs = runsOf start pairs') :
    pairs = pairs' := by
  induction pairs generalizing start pairs' with
  | nil =>
    cases pairs' with
    | nil => rfl
    | cons => cases same
  | cons pair pairs ih =>
    cases pairs' with
    | nil => cases same
    | cons pair' =>
      obtain ⟨nextVbn, lbn⟩ := pair
      obtain ⟨nextVbn', lbn'⟩ := pair'
      simp only [runsOf, cons.injEq, Run.mk.injEq] at same
      obtain ⟨⟨rfl, tag⟩, rest⟩ := same
      have : lbn = lbn' := by grind [tagAt]
      rw [this, ih rest]

theorem value_runsOf (inc : Increasing start (runsOf start pairs)) (above : start ≤ vbn) :
    value none (runsOf start pairs) vbn = offsets (lbnAt start pairs) vbn := by
  induction pairs generalizing start with
  | nil => rfl
  | cons pair pairs ih =>
    by_cases inside : vbn < pair.nextVbn
    · by_cases hole : pair.lbn = unusedLbn
      · simp [runsOf, value, offsets, lbnAt, tagAt, inside, hole]
      · simp only [runsOf, value, offsets, lbnAt, tagAt, inside, hole, if_true, if_false,
          Option.map_some, Option.some.injEq]
        omega
    · have := ih inc.2 (Nat.le_of_not_lt inside)
      simpa [runsOf, value, offsets, lbnAt, inside] using this

theorem offsets_injective {g : Nat → Option Nat} (same : offsets f = offsets g) : f = g := by
  funext vbn
  have injective : Function.Injective fun lbn : Nat => (lbn : Int) - vbn := by
    intro a b eq
    simp only at eq
    omega
  exact Option.map_injective injective (congrFun same vbn)

theorem lbnAt_append_right (inc : Increasing start (runsOf start first))
    (behind : endVbn start first ≤ vbn) :
    lbnAt start (first ++ rest) vbn = lbnAt (endVbn start first) rest vbn := by
  induction first generalizing start with
  | nil => rfl
  | cons pair pairs ih =>
    have : pair.nextVbn ≤ endVbn pair.nextVbn pairs := limit_runsOf ▸ inc.2.le_limit
    rw [cons_append, lbnAt, if_neg (by rw [endVbn] at behind; omega)]
    exact ih inc.2 behind

theorem lbnAt_behind (inc : Increasing start (runsOf start pairs))
    (behind : endVbn start pairs ≤ vbn) : lbnAt start pairs vbn = none := by
  have : lbnAt start (pairs ++ []) vbn = none := lbnAt_append_right inc behind
  rwa [append_nil] at this

end Runs

/-! ## The invariant -/

/-- VBNs and LBNs stay below -1, and so do the numbers behind them. -/
def Bounded (f : Nat → Option Nat) : Prop :=
  ∀ vbn lbn, f vbn = some lbn → vbn + 2 < 2 ^ 32 ∧ lbn + 2 < 2 ^ 32

structure Valid (mcb : BaseMcb) : Prop where
  canonical : Canonical none (runsOf 0 mcb.mapping)
  bounded : Bounded mcb.toMap

variable {mcb : BaseMcb} {α : Type}

theorem Valid.value_eq (valid : Valid mcb) :
    value none (runsOf 0 mcb.mapping) = offsets mcb.toMap := by
  funext vbn
  exact value_runsOf valid.canonical.increasing (Nat.zero_le vbn)

/-- Canonical runs of a bounded map make a valid MCB with that map. -/
theorem valid_of_value (canonical : Canonical none (runsOf 0 mcb.mapping))
    (same : ∀ vbn, value none (runsOf 0 mcb.mapping) vbn = offsets f vbn) (bounded : Bounded f) :
    Valid mcb ∧ mcb.toMap = f := by
  have map : mcb.toMap = f := by
    apply offsets_injective
    funext vbn
    rw [← same vbn]
    exact (value_runsOf canonical.increasing (Nat.zero_le vbn)).symm
  exact ⟨⟨canonical, map ▸ bounded⟩, map⟩

theorem Valid.unique {mcb' : BaseMcb} (valid : Valid mcb) (valid' : Valid mcb')
    (same : mcb.toMap = mcb'.toMap) : mcb.mapping = mcb'.mapping := by
  apply runsOf_injective
  apply valid.canonical.unique valid'.canonical
  intro vbn
  rw [valid.value_eq, valid'.value_eq, same]

theorem valid_initial : Valid fsRtlInitializeBaseMcb :=
  ⟨.nil none, nofun⟩

variable {maximum : Nat} {before after : List Mapping} {p : Mapping}

section Middle

/-- The last pair is not a hole. -/
theorem Valid.last_mapped (valid : Valid ⟨maximum, before ++ [p]⟩) : p.lbn ≠ unusedLbn := by
  have red := valid.canonical.reduced
  simp only [runsOf_append, Reduced, map_append, append_assoc] at red
  intro hole
  simp [runsOf, hole, isChain_append] at red

variable (valid : Valid ⟨maximum, before ++ p :: after⟩)

include valid

theorem Valid.increasing_before : Increasing 0 (runsOf 0 before) := by
  have inc := valid.canonical.increasing
  rw [runsOf_append, increasing_append] at inc
  exact inc.1

theorem Valid.start_lt : endVbn 0 before < p.nextVbn := by
  have inc := valid.canonical.increasing
  rw [runsOf_append, increasing_append, limit_runsOf] at inc
  exact inc.2.1

theorem Valid.toMap_middle (above : endVbn 0 before ≤ vbn) (below : vbn < p.nextVbn) :
    BaseMcb.toMap ⟨maximum, before ++ p :: after⟩ vbn =
      if p.lbn = unusedLbn then none else some (p.lbn + (vbn - endVbn 0 before)) := by
  show lbnAt 0 (before ++ p :: after) vbn = _
  rw [lbnAt_append_right valid.increasing_before above, lbnAt, if_pos below]

theorem Valid.lbn_bound (mapped : p.lbn ≠ unusedLbn) :
    p.lbn + (p.nextVbn - endVbn 0 before) + 1 < 2 ^ 32 := by
  have start := valid.start_lt
  have last := valid.toMap_middle (Nat.le_sub_one_of_lt start) (Nat.sub_one_lt_of_lt start)
  rw [if_neg mapped] at last
  have := (valid.bounded _ _ last).2
  omega

end Middle

theorem Valid.endVbn_bound (valid : Valid mcb) : endVbn 0 mcb.mapping + 1 < 2 ^ 32 := by
  obtain ⟨maximum, mapping⟩ := mcb
  rcases eq_nil_or_concat' mapping with rfl | ⟨init, p, rfl⟩
  · show 0 + 1 < 2 ^ 32
    decide
  · have start := valid.start_lt
    have last := valid.toMap_middle (Nat.le_sub_one_of_lt start) (Nat.sub_one_lt_of_lt start)
    rw [if_neg valid.last_mapped] at last
    have := (valid.bounded _ _ last).1
    simp only [endVbn_append, endVbn]
    omega

theorem Valid.nextVbn_bound (valid : Valid ⟨maximum, before ++ p :: after⟩) : p.nextVbn + 1 < 2 ^ 32 := by
  have total := valid.endVbn_bound
  have inc := valid.canonical.increasing
  rw [runsOf_append, increasing_append, limit_runsOf] at inc
  have := inc.2.2.le_limit
  simp only [endVbn_append, endVbn, limit_runsOf] at total this
  omega

/-! ## The array at an index -/

def lastTag (pairs : List Mapping) : Option (Option Int) :=
  (runsOf 0 pairs).getLast?.map Run.tag

@[simp] theorem lastTag_nil : lastTag [] = none := rfl

@[simp] theorem lastTag_concat (init : List Mapping) (q : Mapping) :
    lastTag (init ++ [q]) = some (tagAt (endVbn 0 init) q.lbn) := by
  simp [lastTag, runsOf]

@[simp] theorem modify_append (first rest : List α) (i : Nat) (f : α → α) :
    (first ++ rest).modify (first.length + i) f = first ++ rest.modify i f := by
  induction first with
  | nil => simp
  | cons a first ih => simp [Nat.add_right_comm, ih]

@[simp] theorem modify_append_zero (first rest : List α) (f : α → α) :
    (first ++ rest).modify first.length f = first ++ rest.modify 0 f :=
  modify_append first rest 0 f

attribute [simp] BaseMcb.setLbn BaseMcb.setNextVbn

section Access

variable {rest : List Mapping} {i value : Nat}

@[simp] theorem pair_append :
    BaseMcb.pair ⟨maximum, before ++ rest⟩ (before.length + i) =
      BaseMcb.pair ⟨maximum, rest⟩ i := by
  simp [BaseMcb.pair, getElem?_append_right]

@[simp] theorem pair_append_zero :
    BaseMcb.pair ⟨maximum, before ++ rest⟩ before.length = BaseMcb.pair ⟨maximum, rest⟩ 0 :=
  pair_append (i := 0)

@[simp] theorem pair_zero : BaseMcb.pair ⟨maximum, p :: rest⟩ 0 = p := rfl

@[simp] theorem pair_succ :
    BaseMcb.pair ⟨maximum, p :: rest⟩ (i + 1) = BaseMcb.pair ⟨maximum, rest⟩ i := rfl

/-- The pairs after `FsRtlAddLargeEntry`; the size of the array does not matter here. -/
theorem addLargeEntry_append (amount : Nat) :
    ∃ maximum', fsRtlAddLargeEntry ⟨maximum, before ++ rest⟩ before.length amount =
      ⟨maximum', before ++ (replicate amount ⟨0, 0⟩ ++ rest)⟩ := by
  simp [fsRtlAddLargeEntry]

theorem removeLargeEntry_append {gone : List Mapping} :
    fsRtlRemoveLargeEntry ⟨maximum, before ++ (gone ++ rest)⟩ before.length gone.length =
      ⟨maximum, before ++ rest⟩ := by
  unfold fsRtlRemoveLargeEntry
  split
  · simp
  · next short =>
    have none : rest = [] := by
      simp only [BaseMcb.pairCount, length_append] at short
      exact eq_nil_of_length_eq_zero (by omega)
    subst none
    simp [BaseMcb.pairCount]

theorem startingVbn_append :
    startingVbn ⟨maximum, before ++ rest⟩ before.length = endVbn 0 before := by
  rcases eq_nil_or_concat' before with rfl | ⟨init, q, rfl⟩
  · rfl
  · simp [startingVbn, endVbn]

theorem startingVbn_next :
    startingVbn ⟨maximum, before ++ p :: after⟩ (before.length + 1) = p.nextVbn := by
  simpa [endVbn] using @startingVbn_append maximum (before ++ [p]) after

theorem startingLbn_append : startingLbn ⟨maximum, before ++ p :: after⟩ before.length = p.lbn := by
  simp [startingLbn]

theorem nextStartingVbn_append :
    nextStartingVbn ⟨maximum, before ++ p :: after⟩ before.length = p.nextVbn := by
  rw [nextStartingVbn, if_neg (by simp [BaseMcb.pairCount]), startingVbn_next]

theorem Valid.endingVbn_eq (valid : Valid ⟨maximum, before ++ p :: after⟩) :
    endingVbn ⟨maximum, before ++ p :: after⟩ before.length = p.nextVbn - 1 := by
  have := valid.start_lt
  have := valid.nextVbn_bound
  simp only [endingVbn, pair_append_zero, pair_zero]
  exact ulongSub_eq (by omega) (by omega)

theorem Valid.endingLbn_eq (valid : Valid ⟨maximum, before ++ p :: after⟩)
    (mapped : p.lbn ≠ unusedLbn) :
    endingLbn ⟨maximum, before ++ p :: after⟩ before.length =
      p.lbn + (p.nextVbn - endVbn 0 before) - 1 := by
  have := valid.start_lt
  have := valid.nextVbn_bound
  have := valid.lbn_bound mapped
  rw [endingLbn, startingLbn_append, if_neg mapped, startingVbn_append]
  simp only [pair_append_zero, pair_zero]
  unfold ulongSub ulong
  omega

theorem sectorsWithinRun_of_lt (start : endVbn 0 before < p.nextVbn) (bound : p.nextVbn < 2 ^ 32) :
    sectorsWithinRun ⟨maximum, before ++ p :: after⟩ before.length =
      p.nextVbn - endVbn 0 before := by
  rw [sectorsWithinRun, startingVbn_append, endingVbn]
  simp only [pair_append_zero, pair_zero]
  rw [ulongSub_eq (by omega) bound, ulongSub_eq (by omega) (by omega), ulong_eq (by omega)]
  omega

variable {lbn : Nat}

theorem length_le_endVbn (inc : Increasing start (runsOf start pairs)) :
    start + pairs.length ≤ endVbn start pairs := by
  induction pairs generalizing start with
  | nil => exact le_rfl
  | cons pair pairs ih =>
    have step : start < pair.nextVbn := inc.1
    have behind : pair.nextVbn + pairs.length ≤ endVbn pair.nextVbn pairs := ih inc.2
    rw [length_cons, endVbn]
    omega

theorem Valid.pairCount_bound (valid : Valid mcb) : mcb.pairCount + 1 < 2 ^ 32 := by
  have total := valid.endVbn_bound
  have := length_le_endVbn valid.canonical.increasing
  unfold BaseMcb.pairCount
  omega

section Next

variable (valid : Valid ⟨maximum, before ++ p :: after⟩)

include valid

theorem Valid.last_iff :
    before.length = ulongSub (BaseMcb.pairCount ⟨maximum, before ++ p :: after⟩) 1 ↔
      after = [] := by
  have bound := valid.pairCount_bound
  rw [ulongSub_eq (by simp [BaseMcb.pairCount]; omega) (by omega)]
  simp only [BaseMcb.pairCount, length_append, length_cons]
  rw [← length_eq_zero_iff]
  omega

theorem Valid.nextStartingLbn_eq : nextStartingLbn ⟨maximum, before ++ p :: after⟩ before.length =
      match after with
      | [] => unusedLbn
      | q :: _ => q.lbn := by
  have bound := valid.pairCount_bound
  rw [nextStartingLbn, ulongSub_eq (by simp [BaseMcb.pairCount]; omega) (by omega)]
  cases after with
  | nil => exact if_pos (by simp [BaseMcb.pairCount])
  | cons =>
    rw [if_neg (by simp [BaseMcb.pairCount])]
    simp [startingLbn]

theorem Valid.next_hole_iff :
    nextStartingLbn ⟨maximum, before ++ p :: after⟩ before.length = unusedLbn ↔
      nextTag none (runsOf p.nextVbn after) = none := by
  rw [valid.nextStartingLbn_eq]
  cases after with
  | nil => simp [runsOf, nextTag]
  | cons => simp [runsOf, nextTag, tagAt_eq_none]

/-- The next run continues a run that ends at `lbn` where this one ends. -/
theorem Valid.next_continues_iff (mapped : lbn ≠ unusedLbn) :
    nextStartingLbn ⟨maximum, before ++ p :: after⟩ before.length = lbn ↔
      nextTag none (runsOf p.nextVbn after) = some ((lbn : Int) - p.nextVbn) := by
  rw [valid.nextStartingLbn_eq]
  cases after with
  | nil => simp [runsOf, nextTag, mapped.symm]
  | cons =>
    simp only [runsOf, nextTag, tagAt]
    split
    · next hole => simp [hole, mapped.symm]
    · simp only [Option.some.injEq]
      omega

end Next

variable {init : List Mapping} {q : Mapping}

theorem Valid.previousEndingLbn_concat (valid : Valid ⟨maximum, (init ++ [q]) ++ rest⟩)
    (mapped : q.lbn ≠ unusedLbn) :
    previousEndingLbn ⟨maximum, (init ++ [q]) ++ rest⟩ (init ++ [q]).length =
      q.lbn + (q.nextVbn - endVbn 0 init) - 1 := by
  rw [append_assoc, singleton_append] at valid ⊢
  rw [previousEndingLbn, if_neg (by simp), ← valid.endingLbn_eq mapped]
  simp

theorem previousEndingLbn_hole (hole : q.lbn = unusedLbn) :
    previousEndingLbn ⟨maximum, (init ++ [q]) ++ rest⟩ (init ++ [q]).length = unusedLbn := by
  rw [append_assoc, singleton_append, previousEndingLbn, if_neg (by simp)]
  simp only [length_append, length_singleton, Nat.add_sub_cancel]
  rw [endingLbn, startingLbn_append, if_pos hole]

/-- There is a run in front, and it is a hole. -/
theorem Valid.previous_hole_iff (valid : Valid ⟨maximum, before ++ rest⟩) :
    PreviousNotHole ⟨maximum, before ++ rest⟩ before.length ↔ lastTag before ≠ some none := by
  unfold PreviousNotHole
  rcases eq_nil_or_concat' before with rfl | ⟨init, q, rfl⟩
  · simp
  · rw [lastTag_concat]
    by_cases hole : q.lbn = unusedLbn
    · rw [previousEndingLbn_hole hole]
      simp [hole]
    · have middle := valid
      rw [append_assoc] at middle
      have bound := middle.lbn_bound hole
      rw [valid.previousEndingLbn_concat hole, tagAt_of_ne hole]
      simp only [ne_eq, Option.some.injEq, reduceCtorEq, not_false_eq_true, iff_true]
      unfold unusedLbn
      omega

/-- A run at `lbn` continues the run in front. -/
theorem Valid.previous_continues_iff (valid : Valid ⟨maximum, before ++ rest⟩)
    (nonzero : lbn ≠ 0) (bound : lbn < 2 ^ 32) :
    ulong (previousEndingLbn ⟨maximum, before ++ rest⟩ before.length + 1) = lbn ↔
      lastTag before = some (some ((lbn : Int) - endVbn 0 before)) := by
  rcases eq_nil_or_concat' before with rfl | ⟨init, q, rfl⟩
  · have : ulong (unusedLbn + 1) = 0 := rfl
    simp [previousEndingLbn, this, nonzero.symm]
  · rw [lastTag_concat]
    by_cases hole : q.lbn = unusedLbn
    · have : ulong (unusedLbn + 1) = 0 := rfl
      rw [previousEndingLbn_hole hole, this]
      simp [hole, nonzero.symm]
    · have middle := valid
      rw [append_assoc] at middle
      have start : endVbn 0 init < q.nextVbn := middle.start_lt
      have fits := middle.lbn_bound hole
      rw [valid.previousEndingLbn_concat hole, tagAt_of_ne hole, ulong_eq (by omega)]
      simp only [endVbn_append, endVbn, Option.some.injEq]
      omega

end Access

/-! ## Finding a VBN -/

section Find

variable {index : Nat}

theorem exists_pair (above : start ≤ vbn) (below : vbn < endVbn start pairs) :
    ∃ before p after, pairs = before ++ p :: after ∧ endVbn start before ≤ vbn ∧
      vbn < p.nextVbn := by
  induction pairs generalizing start with
  | nil => exact absurd below (Nat.not_lt.mpr above)
  | cons pair pairs ih =>
    by_cases here : vbn < pair.nextVbn
    · exact ⟨[], pair, pairs, rfl, above, here⟩
    · obtain ⟨before, p, after, rfl, begins, ends⟩ := ih (Nat.le_of_not_lt here) below
      exact ⟨pair :: before, p, after, rfl, begins, ends⟩

theorem exists_pair_at (inside : index < mcb.pairCount) :
    ∃ maximum before p after, mcb = ⟨maximum, before ++ p :: after⟩ ∧ before.length = index := by
  refine ⟨mcb.maximumPairCount, mcb.mapping.take index, mcb.mapping.get ⟨index, inside⟩,
    mcb.mapping.drop (index + 1), ?_, length_take_of_le (Nat.le_of_lt inside)⟩
  rw [get_eq_getElem, getElem_cons_drop, take_append_drop]

theorem Valid.startingVbn_lt (valid : Valid mcb) (inside : index < mcb.pairCount) :
    startingVbn mcb index < startingVbn mcb (index + 1) ∧
      endingVbn mcb index = startingVbn mcb (index + 1) - 1 := by
  obtain ⟨maximum, before, p, after, rfl, rfl⟩ := exists_pair_at inside
  rw [startingVbn_append, startingVbn_next, valid.endingVbn_eq]
  exact ⟨valid.start_lt, rfl⟩

theorem Valid.startingVbn_mono (valid : Valid mcb) {i j : Nat} (le : i ≤ j)
    (inside : j ≤ mcb.pairCount) : startingVbn mcb i ≤ startingVbn mcb j := by
  induction j, le using Nat.le_induction with
  | base => exact le_rfl
  | succ j le ih =>
    exact Nat.le_trans (ih (Nat.le_of_succ_le inside))
      (Nat.le_of_lt (valid.startingVbn_lt inside).1)

theorem Valid.find_some (valid : Valid mcb) (found : fsRtlFindLargeIndex mcb vbn = some index) :
    ∃ maximum before p after, mcb = ⟨maximum, before ++ p :: after⟩ ∧ before.length = index ∧
      endVbn 0 before ≤ vbn ∧ vbn < p.nextVbn := by
  obtain ⟨below, begins, ends⟩ := bisect_some (Int.le_refl 0) found
  have inside : index < mcb.pairCount := by omega
  obtain ⟨maximum, before, p, after, rfl, rfl⟩ := exists_pair_at inside
  have start := valid.start_lt
  rw [startingVbn_append] at begins
  rw [valid.endingVbn_eq] at ends
  exact ⟨maximum, before, p, after, rfl, rfl, begins, by omega⟩

/-- A VBN that is not found is behind the last pair. -/
theorem Valid.find_none (valid : Valid mcb) (missed : fsRtlFindLargeIndex mcb vbn = none) :
    endVbn 0 mcb.mapping ≤ vbn := by
  by_contra! below
  have intervals : ∀ i : Nat, (i : Int) ≤ mcb.pairCount - 1 →
      startingVbn mcb i ≤ endingVbn mcb i := by
    intro i inside
    have := valid.startingVbn_lt (show i < mcb.pairCount by omega)
    omega
  have ordered : ∀ i j : Nat, i < j → (j : Int) ≤ mcb.pairCount - 1 →
      endingVbn mcb i < startingVbn mcb j := by
    intro i j lt inside
    have := valid.startingVbn_lt (show i < mcb.pairCount by omega)
    have : startingVbn mcb (i + 1) ≤ startingVbn mcb j := valid.startingVbn_mono lt (by omega)
    omega
  have none_has := bisect_none (Int.le_refl 0) intervals ordered missed
  obtain ⟨maximum, mapping⟩ := mcb
  obtain ⟨before, p, after, rfl, begins, ends⟩ :=
    exists_pair (Nat.zero_le vbn) (show vbn < endVbn 0 mapping from below)
  refine none_has before.length (Int.natCast_nonneg _) ?_ ?_
  · simp only [BaseMcb.pairCount, length_append, length_cons]
    omega
  · rw [startingVbn_append, valid.endingVbn_eq]
    exact ⟨begins, by omega⟩

end Find

end Ntoskrnl.FsRtl.Mcb
