/-
# Ntoskrnl.FsRtl.Mcb.Add -- adding a run, an edit of the partial map

The four operations on partial maps that the MCB routines implement, and how a routine
is shown to implement one: its pairs have to be the runs before a cut, one tag, and the
runs behind the next cut, welded together.  `edit_inside` is for an edit inside one
pair, `edit_behind` for one behind the last pair.

`FsRtlAddBaseMcbEntry` first cuts off the part of the request that is mapped already
the same way, then puts the rest into a hole or behind the last pair.  A run it puts in
is an edit of the runs; which of its dozen cases applies depends on whether the new run
begins and ends where the hole does and whether it continues its neighbours.
-/
import Ntoskrnl.FsRtl.Mcb.Pairs

namespace Ntoskrnl.FsRtl.Mcb

open Base Lib.RunLength

set_option autoImplicit false

/-! ## Operations on partial maps -/

namespace PartialMap

variable (f : Nat → Option Nat)

/-- `vbn + i` is mapped to `lbn + i` for `i < count`. -/
def extend (vbn lbn count x : Nat) : Option Nat :=
  if vbn ≤ x ∧ x < vbn + count then some (lbn + (x - vbn)) else f x

def remove (vbn count x : Nat) : Option Nat :=
  if vbn ≤ x ∧ x < vbn + count then none else f x

def truncate (vbn x : Nat) : Option Nat :=
  if x < vbn then f x else none

/-- Every VBN from `vbn` on moves up by `amount`. -/
def shift (vbn amount x : Nat) : Option Nat :=
  if x < vbn then f x else if x < vbn + amount then none else f (x - amount)

variable {f} {vbn lbn count amount : Nat}

theorem ite_between {α : Type} {x : Nat} {a b : α} : (if vbn ≤ x ∧ x < vbn + count then a else b) =
      if x < vbn then b else if x < vbn + count then a else b := by
  by_cases low : x < vbn
  · rw [if_neg (by omega), if_pos low]
  · rw [if_neg low]
    exact if_congr ⟨And.right, fun inside => ⟨Nat.le_of_not_lt low, inside⟩⟩ rfl rfl

theorem offsets_extend (x : Nat) : offsets (extend f vbn lbn count) x = if x < vbn then offsets f x
      else if x < vbn + count then some ((lbn : Int) - vbn) else offsets f x := by
  unfold offsets extend
  rw [ite_between]
  split
  · rfl
  · split
    · simp only [Option.map_some, Option.some.injEq]
      omega
    · rfl

theorem offsets_remove (x : Nat) : offsets (remove f vbn count) x = if x < vbn then offsets f x
      else if x < vbn + count then none else offsets f x := by
  unfold offsets remove
  rw [ite_between]
  split
  · rfl
  · split <;> rfl

theorem offsets_truncate (x : Nat) :
    offsets (truncate f vbn) x = if x < vbn then offsets f x else none := by
  unfold offsets truncate
  split <;> rfl

/-- Moving a run up lowers its offset. -/
def lower (amount : Nat) (tag : Option Int) : Option Int :=
  tag.map (· - amount)

theorem lower_injective (amount : Nat) : Function.Injective (lower amount) :=
  Option.map_injective fun a b (same : a - amount = b - amount) => by omega

theorem offsets_shift (x : Nat) : offsets (shift f vbn amount) x = if x < vbn then offsets f x
      else if x < vbn + amount then none else lower amount (offsets f (x - amount)) := by
  unfold offsets shift lower
  split
  · rfl
  · split
    · rfl
    · rw [Option.map_map]
      congr 1
      funext lbn
      simp only [Function.comp]
      omega

theorem bounded_extend (bounded : Bounded f) (vbns : vbn + count + 1 < 2 ^ 32)
    (lbns : lbn + count + 1 < 2 ^ 32) : Bounded (extend f vbn lbn count) := by
  intro x y mapped
  unfold extend at mapped
  split at mapped
  · cases mapped
    omega
  · exact bounded x y mapped

theorem bounded_remove (bounded : Bounded f) : Bounded (remove f vbn count) := by
  intro x y mapped
  unfold remove at mapped
  split at mapped
  · cases mapped
  · exact bounded x y mapped

theorem bounded_truncate (bounded : Bounded f) : Bounded (truncate f vbn) := by
  intro x y mapped
  unfold truncate at mapped
  split at mapped
  · exact bounded x y mapped
  · cases mapped

/-- No VBN from `last` on is mapped, and there is room to move those below it. -/
theorem bounded_shift (bounded : Bounded f) {last : Nat} (ends : ∀ x, last ≤ x → f x = none)
    (room : last + amount + 1 < 2 ^ 32) : Bounded (shift f vbn amount) := by
  intro x y mapped
  unfold shift at mapped
  split at mapped
  · exact bounded x y mapped
  · split at mapped
    · cases mapped
    · have below : x - amount < last := by
        by_contra! behind
        rw [ends _ behind] at mapped
        cases mapped
      have := bounded _ y mapped
      omega

theorem remove_remove {first : Nat} (le : first ≤ count) :
    remove (remove f vbn first) (vbn + first) (count - first) = remove f vbn count := by
  funext x
  unfold remove
  by_cases inside : vbn ≤ x ∧ x < vbn + count
  · rw [if_pos inside]
    by_cases early : x < vbn + first
    · rw [if_neg (by omega), if_pos (by omega)]
    · rw [if_pos (by omega)]
  · rw [if_neg (by omega), if_neg (by omega), if_neg inside]

end PartialMap

/-! ## Edits -/

variable {maximum : Nat} {mcb : BaseMcb} {p : Mapping}

section Edit

variable {before after : List Mapping} {mcb' : BaseMcb} {v w : Nat} {tag : Option Int}
  {f : Nat → Option Nat}

theorem Valid.canonical_inside (valid : Valid ⟨maximum, before ++ p :: after⟩) :
    Canonical none (runsOf 0 before ++
      ⟨p.nextVbn, tagAt (endVbn 0 before) p.lbn⟩ :: runsOf p.nextVbn after) := by
  have can := valid.canonical
  rwa [runsOf_append, runsOf] at can

/-- The pairs of an edit from `v` up to `w` inside the pair `p`. -/
def editInside (before : List Mapping) (p : Mapping) (after : List Mapping) (v w : Nat)
    (tag : Option Int) : List (Run (Option Int)) :=
  trimLast tag (cutLeft (runsOf 0 before) v (tagAt (endVbn 0 before) p.lbn)) ++
    join none w tag (cutRight w ⟨p.nextVbn, tagAt (endVbn 0 before) p.lbn⟩ (runsOf p.nextVbn after))

theorem edit_inside (valid : Valid ⟨maximum, before ++ p :: after⟩)
    (above : endVbn 0 before ≤ v) (some : v < w) (below : w ≤ p.nextVbn)
    (runs : runsOf 0 mcb'.mapping = editInside before p after v w tag)
    (offsets_eq : ∀ x, offsets f x =
      if x < v then offsets (BaseMcb.toMap ⟨maximum, before ++ p :: after⟩) x
      else if x < w then tag else offsets (BaseMcb.toMap ⟨maximum, before ++ p :: after⟩) x)
    (bounded : Bounded f) : Valid mcb' ∧ mcb'.toMap = f := by
  have can := valid.canonical_inside
  have old := valid.value_eq
  rw [runsOf_append, runsOf] at old
  obtain ⟨canonical, values⟩ := weld (t := tag)
    (can.before_inside (by simpa using above) (Nat.le_trans (Nat.le_of_lt some) below))
    (can.after_inside (by simp only [limit_runsOf]; omega) below) some
  unfold editInside at runs
  rw [← runs] at canonical values
  refine valid_of_value canonical (fun x => ?_) bounded
  rw [values x, offsets_eq x, old]

/-- The pairs of an edit from `v` up to `w` behind the last pair. -/
def editBehind (pairs : List Mapping) (v w : Nat) (tag : Option Int) : List (Run (Option Int)) :=
  trimLast tag (cutLeft (runsOf 0 pairs) v none) ++ join none w tag []

theorem edit_behind (valid : Valid mcb) (behind : endVbn 0 mcb.mapping ≤ v) (some : v < w)
    (runs : runsOf 0 mcb'.mapping = editBehind mcb.mapping v w tag) (offsets_eq : ∀ x, offsets f x =
      if x < v then offsets mcb.toMap x else if x < w then tag else offsets mcb.toMap x)
    (bounded : Bounded f) : Valid mcb' ∧ mcb'.toMap = f := by
  have old := valid.value_eq
  obtain ⟨canonical, values⟩ := weld (t := tag)
    (valid.canonical.before_limit (by simpa using behind))
    (valid.canonical.after_limit (by simp only [limit_runsOf]; omega)) some
  unfold editBehind at runs
  rw [← runs] at canonical values
  refine valid_of_value canonical (fun x => ?_) bounded
  rw [values x, offsets_eq x, old]

end Edit

open List

/-- A request with a count and an LBN, whose sums stay below -1. -/
structure Request.Ok (request : Request) : Prop where
  some : 0 < request.sectorCount
  nonzero : request.lbn ≠ 0
  vbns : request.vbn + request.sectorCount + 1 < 2 ^ 32
  lbns : request.lbn + request.sectorCount + 1 < 2 ^ 32

variable {request : Request}

namespace Request

/-- The tag of the run that is asked for. -/
def tag (request : Request) : Option Int :=
  Option.some ((request.lbn : Int) - request.vbn)

theorem Ok.lastVbn_eq (ok : request.Ok) :
    request.lastVbn = request.vbn + request.sectorCount - 1 := by
  have := ok.some
  have := ok.vbns
  rw [lastVbn, ulong_eq (by omega), ulongSub_eq (by omega) (by omega)]

theorem Ok.mapped (ok : request.Ok) : request.lbn ≠ unusedLbn := by
  have := ok.lbns
  unfold unusedLbn
  omega

theorem Ok.tag_eq (ok : request.Ok) : tagAt request.vbn request.lbn = request.tag :=
  tagAt_of_ne ok.mapped

end Request

/-! ## Cuts at a pair -/

section Cuts

variable {before after : List Mapping} {v w start : Nat} {tag u : Option Int}

theorem trimLast_runsOf : trimLast tag (runsOf 0 before) =
      if lastTag before = some tag then (runsOf 0 before).dropLast else runsOf 0 before := rfl

theorem cutLeft_start (front : endVbn 0 before = v) : cutLeft (runsOf 0 before) v u = runsOf 0 before :=
  if_pos (limit_runsOf.trans front)

theorem cutLeft_inside (front : endVbn 0 before ≠ v) :
    cutLeft (runsOf 0 before) v u = runsOf 0 before ++ [⟨v, u⟩] :=
  if_neg fun same => front (limit_runsOf.symm.trans same)

theorem exists_last (last : lastTag before = some tag) :
    ∃ init q, before = init ++ [q] ∧ tagAt (endVbn 0 init) q.lbn = tag := by
  rcases eq_nil_or_concat' before with rfl | ⟨init, q, rfl⟩
  · cases last
  · exact ⟨init, q, rfl, Option.some.inj ((lastTag_concat init q).symm.trans last)⟩

theorem exists_next (mapped : none ≠ tag) (next : nextTag none (runsOf start after) = tag) :
    ∃ q after', after = q :: after' ∧ tagAt start q.lbn = tag := by
  cases after with
  | nil => exact absurd next mapped
  | cons q after => exact ⟨q, after, rfl, next⟩

/-! ## Filling a hole -/

theorem Valid.continues_previous (valid : Valid ⟨maximum, before ++ p :: after⟩)
    (ok : request.Ok) (front : endVbn 0 before = request.vbn) :
    ulong (previousEndingLbn ⟨maximum, before ++ p :: after⟩ before.length + 1) = request.lbn ↔
      lastTag before = some request.tag := by
  have := ok.lbns
  rw [valid.previous_continues_iff ok.nonzero (by omega), front]
  rfl

theorem Valid.continues_next (valid : Valid ⟨maximum, before ++ p :: after⟩) (ok : request.Ok)
    (rear : request.vbn + request.sectorCount = p.nextVbn) :
    nextStartingLbn ⟨maximum, before ++ p :: after⟩ before.length =
        ulong (request.lbn + request.sectorCount) ↔
      nextTag none (runsOf p.nextVbn after) = request.tag := by
  have := ok.lbns
  rw [ulong_eq (by omega), valid.next_continues_iff (by unfold unusedLbn; omega),
    show (((request.lbn + request.sectorCount : Nat) : Int) - p.nextVbn) =
      (request.lbn : Int) - request.vbn by omega]
  rfl

/-- Filling a hole is an edit inside it. -/
def Fills (maximum : Nat) (before : List Mapping) (p : Mapping) (after : List Mapping)
    (request : Request) : Prop :=
  runsOf 0 (fillHole ⟨maximum, before ++ p :: after⟩ before.length request).mapping =
    editInside before p after request.vbn (request.vbn + request.sectorCount) request.tag

section Cases

variable (ok : request.Ok) (valid : Valid ⟨maximum, before ++ p :: after⟩)

include ok valid

/-- `Hole at both ends`. -/
theorem fillHole_both_ends (hole : p.lbn = unusedLbn) (front : endVbn 0 before < request.vbn)
    (rear : request.vbn + request.sectorCount < p.nextVbn) :
    Fills maximum before p after request := by
  have vbns := ok.vbns
  obtain ⟨_, grown⟩ := @addLargeEntry_append maximum before (p :: after) 2
  rw [Fills, fillHole, if_pos (by rw [startingVbn_append, valid.endingVbn_eq, ok.lastVbn_eq]; omega),
    grown, ulong_eq (by omega)]
  have other : none ≠ request.tag := nofun
  simp [editInside, cutLeft_inside (Nat.ne_of_lt front), cutRight, Nat.ne_of_lt rear, hole,
    runsOf, join, nextTag, other, replicate, ok.tag_eq]

/-- `Hole at rear`, continuing the earlier run or not. -/
theorem fillHole_at_start (hole : p.lbn = unusedLbn) (front : endVbn 0 before = request.vbn)
    (rear : request.vbn + request.sectorCount < p.nextVbn) :
    Fills maximum before p after request := by
  have vbns := ok.vbns
  have some := ok.some
  have other : none ≠ request.tag := nofun
  rw [Fills, fillHole, if_neg (by rw [startingVbn_append]; omega),
    if_pos (by rw [startingVbn_append, valid.endingVbn_eq, ok.lastVbn_eq]; omega),
    editInside, cutLeft_start front, trimLast_runsOf, cutRight, if_neg (Nat.ne_of_lt rear)]
  by_cases continued : lastTag before = Option.some request.tag
  · rw [if_pos ((valid.continues_previous ok front).mpr continued), if_pos continued]
    obtain ⟨init, q, rfl, tag⟩ := exists_last continued
    have stop : q.nextVbn = request.vbn := by simpa [endVbn] using front
    simp [runsOf, endVbn, join, nextTag, hole, other, stop, tag, ulong_eq (show
      request.vbn + request.sectorCount < 2 ^ 32 by omega)]
  · rw [if_neg (mt (valid.continues_previous ok front).mp continued), if_neg continued]
    obtain ⟨_, grown⟩ := @addLargeEntry_append maximum before (p :: after) 1
    rw [grown, ulong_eq (by omega)]
    simp [runsOf, join, nextTag, hole, other, front, ok.tag_eq, replicate]

/-- `Hole at front`, continuing the following run or not. -/
theorem fillHole_at_end (hole : p.lbn = unusedLbn) (front : endVbn 0 before < request.vbn)
    (rear : request.vbn + request.sectorCount = p.nextVbn) :
    Fills maximum before p after request := by
  have other : none ≠ request.tag := nofun
  rw [Fills, fillHole, if_neg (by rw [valid.endingVbn_eq, ok.lastVbn_eq]; omega),
    if_neg (by rw [startingVbn_append]; omega),
    if_pos (by rw [startingVbn_append, valid.endingVbn_eq, ok.lastVbn_eq]; omega),
    editInside, cutLeft_inside (Nat.ne_of_lt front), cutRight, if_pos rear, join]
  by_cases continued : nextTag none (runsOf p.nextVbn after) = request.tag
  · rw [if_pos ((valid.continues_next ok rear).mpr continued), if_pos continued]
    obtain ⟨q, after, rfl, tag⟩ := exists_next other continued
    simp [runsOf, hole, other, ok.tag_eq, tag]
  · rw [if_neg (mt (valid.continues_next ok rear).mp continued), if_neg continued]
    obtain ⟨_, grown⟩ := @addLargeEntry_append maximum before (p :: after) 1
    rw [grown]
    simp [runsOf, hole, other, ok.tag_eq, rear, replicate]

/-- `No holes`, continuing both runs, one of them or none. -/
theorem fillHole_exact (front : endVbn 0 before = request.vbn)
    (rear : request.vbn + request.sectorCount = p.nextVbn) :
    Fills maximum before p after request := by
  have other : none ≠ request.tag := nofun
  rw [Fills, fillHole, if_neg (by rw [startingVbn_append]; omega),
    if_neg (by rw [valid.endingVbn_eq, ok.lastVbn_eq]; omega),
    if_neg (by rw [startingVbn_append]; omega),
    editInside, cutLeft_start front, trimLast_runsOf, cutRight, if_pos rear, join]
  simp only [valid.continues_previous ok front, valid.continues_next ok rear]
  -- as in the source: which of the two neighbours the run continues
  by_cases previous : lastTag before = Option.some request.tag
  · obtain ⟨init, q, rfl, tag⟩ := exists_last previous
    by_cases next : nextTag none (runsOf p.nextVbn after) = request.tag
    · rw [if_pos ⟨previous, next⟩, if_pos previous, if_pos next]
      obtain ⟨r, after, rfl, tag'⟩ := exists_next other next
      have removed := @removeLargeEntry_append maximum
        (init ++ [{ q with nextVbn := r.nextVbn }]) after [p, r]
      simp only [append_assoc, cons_append, nil_append, length_append,
        length_cons, length_nil, Nat.zero_add, Nat.reduceAdd] at removed
      simp [Nat.add_assoc, removed, runsOf, tag, tag']
    · rw [if_neg (fun both => next both.2), if_neg next, if_pos previous, if_pos previous,
        if_neg next]
      have removed := @removeLargeEntry_append maximum
        (init ++ [{ q with nextVbn := p.nextVbn }]) after [p]
      simp only [append_assoc, cons_append, nil_append, length_append,
        length_cons, length_nil, Nat.zero_add] at removed
      simp [removed, runsOf, tag, rear]
  · by_cases next : nextTag none (runsOf p.nextVbn after) = request.tag
    · rw [if_neg (fun both => previous both.1), if_pos next, if_neg previous, if_pos next]
      obtain ⟨r, after, rfl, tag'⟩ := exists_next other next
      have removed := @removeLargeEntry_append maximum before
        ({ r with lbn := request.lbn } :: after) [p]
      simp only [cons_append, nil_append, length_cons, length_nil, Nat.zero_add] at removed
      simp [removed, runsOf, front, ok.tag_eq, tag']
    · rw [if_neg (fun both => previous both.1), if_neg next, if_neg previous, if_neg previous,
        if_neg next]
      simp [runsOf, front, ok.tag_eq, rear]

end Cases

theorem fillHole_spec (valid : Valid ⟨maximum, before ++ p :: after⟩) (hole : p.lbn = unusedLbn)
    (ok : request.Ok) (above : endVbn 0 before ≤ request.vbn)
    (below : request.vbn + request.sectorCount ≤ p.nextVbn) :
    Valid (fillHole ⟨maximum, before ++ p :: after⟩ before.length request) ∧
      (fillHole ⟨maximum, before ++ p :: after⟩ before.length request).toMap =
        PartialMap.extend (BaseMcb.toMap ⟨maximum, before ++ p :: after⟩) request.vbn request.lbn
          request.sectorCount := by
  have runs : Fills maximum before p after request := by
    rcases Nat.lt_or_eq_of_le above with front | front <;>
      rcases Nat.lt_or_eq_of_le below with rear | rear
    · exact fillHole_both_ends ok valid hole front rear
    · exact fillHole_at_end ok valid hole front rear
    · exact fillHole_at_start ok valid hole front rear
    · exact fillHole_exact ok valid front rear
  have some := ok.some
  exact edit_inside valid above (by omega) below runs PartialMap.offsets_extend
    (PartialMap.bounded_extend valid.bounded ok.vbns ok.lbns)

end Cuts

/-! ## A run behind the last pair -/

section Append

variable {pairs : List Mapping}

theorem Valid.previousEndingVbn_eq (valid : Valid ⟨maximum, pairs⟩) :
    ulong (previousEndingVbn ⟨maximum, pairs⟩ pairs.length + 1) = endVbn 0 pairs := by
  rcases eq_nil_or_concat' pairs with rfl | ⟨init, q, rfl⟩
  · rw [previousEndingVbn, if_pos length_nil]
    rfl
  · have start := valid.start_lt
    have bound := valid.nextVbn_bound
    rw [previousEndingVbn, if_neg (by simp)]
    simp only [length_append, length_singleton, Nat.add_sub_cancel]
    rw [valid.endingVbn_eq, ulong_eq (by omega), endVbn_append]
    show q.nextVbn - 1 + 1 = q.nextVbn
    omega

theorem appendRun_runs (valid : Valid ⟨maximum, pairs⟩) (ok : request.Ok)
    (behind : endVbn 0 pairs ≤ request.vbn) :
    runsOf 0 (appendRun ⟨maximum, pairs⟩ pairs.length request).mapping =
      editBehind pairs request.vbn (request.vbn + request.sectorCount) request.tag := by
  have vbns := ok.vbns
  have lbns := ok.lbns
  have other : none ≠ request.tag := nofun
  have stop : ulong (request.vbn + request.sectorCount) = request.vbn + request.sectorCount :=
    ulong_eq (by omega)
  have grown := fun amount => @addLargeEntry_append maximum pairs [] amount
  simp only [append_nil] at grown
  unfold appendRun editBehind join
  rw [valid.previousEndingVbn_eq, if_neg (show nextTag none [] ≠ request.tag from other)]
  by_cases front : endVbn 0 pairs = request.vbn
  · rw [cutLeft_start front, trimLast_runsOf]
    have previous : ulong (previousEndingLbn ⟨maximum, pairs⟩ pairs.length + 1) = request.lbn ↔
        lastTag pairs = some request.tag := by
      have iff := @Valid.previous_continues_iff maximum pairs [] request.lbn
      rw [append_nil] at iff
      rw [iff valid ok.nonzero (by omega), front]
      rfl
    by_cases continued : lastTag pairs = some request.tag
    · obtain ⟨init, q, rfl, tag⟩ := exists_last continued
      have ends : q.nextVbn = request.vbn := by simpa [endVbn] using front
      rw [if_pos ⟨by simp, front, previous.mpr continued⟩]
      simp [BaseMcb.pairCount, runsOf, tag, ends, stop]
    · rw [if_neg (fun all => continued (previous.mp all.2.2)), if_pos (Or.inr front),
        if_neg continued]
      obtain ⟨_, grown⟩ := grown 1
      simp [grown, replicate, runsOf, front, ok.tag_eq, stop]
  · rw [cutLeft_inside front, if_neg (fun all => front all.2.1), if_neg (by omega)]
    obtain ⟨_, grown⟩ := grown 2
    simp [grown, replicate, runsOf, ok.tag_eq, stop, other]

theorem appendRun_spec (valid : Valid mcb) (ok : request.Ok)
    (behind : endVbn 0 mcb.mapping ≤ request.vbn) :
    Valid (appendRun mcb mcb.pairCount request) ∧ (appendRun mcb mcb.pairCount request).toMap =
        PartialMap.extend mcb.toMap request.vbn request.lbn request.sectorCount := by
  have some := ok.some
  exact edit_behind valid behind (by omega) (appendRun_runs valid ok behind)
    PartialMap.offsets_extend (PartialMap.bounded_extend valid.bounded ok.vbns ok.lbns)

/-! ## The routine -/

/-- What adding does: nothing, or it extends the map. -/
inductive Added (mcb : BaseMcb) (vbn lbn count : Nat) : Bool × BaseMcb → Prop where
  | refused : Added mcb vbn lbn count (false, mcb)
  | success {mcb' : BaseMcb} (valid : Valid mcb')
      (map : mcb'.toMap = PartialMap.extend mcb.toMap vbn lbn count) :
      Added mcb vbn lbn count (true, mcb')

theorem addRun_added (valid : Valid mcb) (ok : request.Ok) :
    Added mcb request.vbn request.lbn request.sectorCount (addRun mcb request) := by
  have appended (behind : endVbn 0 mcb.mapping ≤ request.vbn) :
      Added mcb request.vbn request.lbn request.sectorCount
        (true, appendRun mcb mcb.pairCount request) :=
    let ⟨valid', map⟩ := appendRun_spec valid ok behind
    .success valid' map
  unfold addRun
  split
  · next last =>
    apply appended
    have ends : ulong (previousEndingVbn mcb mcb.pairCount + 1) = endVbn 0 mcb.mapping :=
      valid.previousEndingVbn_eq
    rcases last with empty | behind
    · rw [eq_nil_of_length_eq_zero empty]
      exact Nat.zero_le _
    · exact ends ▸ behind
  · split
    · next missed => exact appended (valid.find_none missed)
    · next index found =>
      obtain ⟨maximum, before, p, after, rfl, rfl, above, -⟩ := valid.find_some found
      rw [startingLbn_append, valid.endingVbn_eq, ok.lastVbn_eq]
      split
      · next inside =>
        have := valid.start_lt
        obtain ⟨hole, -, below⟩ := inside
        obtain ⟨valid', map⟩ := fillHole_spec valid hole ok above (by omega)
        exact .success valid' map
      · exact .refused

/-- What trimming does: it refuses, finds everything mapped, or leaves a request that
comes to the same. -/
inductive Trimmed (mcb : BaseMcb) (request : Request) : Except Bool Request → Prop where
  | refused : Trimmed mcb request (.error false)
  | contained (same : PartialMap.extend mcb.toMap request.vbn request.lbn request.sectorCount =
      mcb.toMap) : Trimmed mcb request (.error true)
  | rest {request' : Request} (ok : request'.Ok)
      (same : PartialMap.extend mcb.toMap request'.vbn request'.lbn request'.sectorCount =
        PartialMap.extend mcb.toMap request.vbn request.lbn request.sectorCount) :
      Trimmed mcb request (.ok request')

section Trim

variable {before after : List Mapping}

/-- The request begins inside a run with the same offset. -/
theorem trim_after_run (valid : Valid ⟨maximum, before ++ p :: after⟩)
    (mapped : p.lbn ≠ unusedLbn) (above : endVbn 0 before ≤ request.vbn)
    (below : request.vbn < p.nextVbn)
    (aligned : request.lbn = p.lbn + (request.vbn - endVbn 0 before)) :
    PartialMap.extend (BaseMcb.toMap ⟨maximum, before ++ p :: after⟩) p.nextVbn
        (p.lbn + (p.nextVbn - endVbn 0 before))
        (request.vbn + request.sectorCount - p.nextVbn) =
      PartialMap.extend (BaseMcb.toMap ⟨maximum, before ++ p :: after⟩) request.vbn request.lbn
        request.sectorCount := by
  funext x
  unfold PartialMap.extend
  by_cases inside : request.vbn ≤ x ∧ x < request.vbn + request.sectorCount
  · rw [if_pos inside]
    by_cases behind : p.nextVbn ≤ x
    · rw [if_pos (by omega)]
      congr 1
      omega
    · rw [if_neg (by omega), valid.toMap_middle (by omega) (by omega), if_neg mapped]
      congr 1
      omega
  · rw [if_neg (by omega), if_neg inside]

variable {q : Mapping} {after' : List Mapping}

/-- The request begins in a hole and ends inside the next run, with the same offset. -/
theorem trim_before_run (valid : Valid ⟨maximum, before ++ p :: q :: after'⟩)
    (mapped : q.lbn ≠ unusedLbn) (front : request.vbn < p.nextVbn)
    (below : request.vbn + request.sectorCount ≤ q.nextVbn)
    (behind : p.nextVbn ≤ request.vbn + request.sectorCount)
    (aligned : q.lbn = request.lbn + (p.nextVbn - request.vbn)) :
    PartialMap.extend (BaseMcb.toMap ⟨maximum, before ++ p :: q :: after'⟩) request.vbn
        request.lbn (p.nextVbn - request.vbn) =
      PartialMap.extend (BaseMcb.toMap ⟨maximum, before ++ p :: q :: after'⟩) request.vbn
        request.lbn request.sectorCount := by
  have split : before ++ p :: q :: after' = (before ++ [p]) ++ q :: after' := by simp
  funext x
  unfold PartialMap.extend
  by_cases inside : request.vbn ≤ x ∧ x < request.vbn + request.sectorCount
  · rw [if_pos inside]
    by_cases early : x < p.nextVbn
    · rw [if_pos (by omega)]
    · have starts : endVbn 0 (before ++ [p]) = p.nextVbn := by simp [endVbn]
      rw [if_neg (by omega)]
      simp only [split] at valid ⊢
      rw [valid.toMap_middle (by omega) (by omega), if_neg mapped]
      congr 1
      omega
  · rw [if_neg (by omega), if_neg inside]

/-- The pair with a VBN is the one behind `p`. -/
theorem find_adjacent {vbn endIndex : Nat} (valid : Valid ⟨maximum, before ++ p :: after⟩)
    (found : fsRtlFindLargeIndex ⟨maximum, before ++ p :: after⟩ vbn = some endIndex)
    (adjacent : before.length = ulongSub endIndex 1) :
    ∃ q after', after = q :: after' ∧ endIndex = before.length + 1 ∧ p.nextVbn ≤ vbn ∧
      vbn < q.nextVbn := by
  obtain ⟨_, before', q, after', same, rfl, above, below⟩ := valid.find_some found
  have count := valid.pairCount_bound
  injection same with _ pairs
  have lengths := congrArg length pairs
  simp only [BaseMcb.pairCount, length_append, length_cons] at count lengths
  have index : before'.length = before.length + 1 := by
    unfold ulongSub at adjacent
    omega
  have split : before ++ [p] ++ after = before' ++ q :: after' := by simpa using pairs
  obtain ⟨rfl, rfl⟩ := append_inj split (by simp [index])
  simp only [endVbn_append, endVbn] at above
  exact ⟨q, after', rfl, by simp, above, below⟩

theorem startingLbn_next :
    startingLbn ⟨maximum, before ++ p :: q :: after'⟩ (before.length + 1) = q.lbn := by
  simp [startingLbn]

theorem trimRequest_trimmed (valid : Valid mcb) (ok : request.Ok) :
    Trimmed mcb request (trimRequest mcb request) := by
  have vbns := ok.vbns
  have lbns := ok.lbns
  unfold trimRequest
  split
  · exact .rest ok rfl
  · next index found =>
    obtain ⟨maximum, before, p, after, rfl, rfl, above, below⟩ := valid.find_some found
    rw [startingLbn_append, startingVbn_append, valid.endingVbn_eq, ok.lastVbn_eq,
      nextStartingVbn_append]
    split
    · next mapped =>
      -- the request begins in a run: it has the same offset or is refused
      have fits := valid.lbn_bound mapped
      have offset : ulong (p.lbn + ulongSub request.vbn (endVbn 0 before)) =
          p.lbn + (request.vbn - endVbn 0 before) := by
        rw [ulongSub_eq above (by omega), ulong_eq (by omega)]
      rw [offset]
      split
      · exact .refused
      · next aligned =>
        have same := trim_after_run valid mapped above below (not_not.mp aligned)
        split
        · next contained =>
          refine .contained ?_
          rw [← same]
          funext x
          exact if_neg (by omega)
        · next longer =>
          have lbn : ulong (endingLbn ⟨maximum, before ++ p :: after⟩ before.length + 1) =
              p.lbn + (p.nextVbn - endVbn 0 before) := by
            rw [valid.endingLbn_eq mapped, ulong_eq (by omega)]
            omega
          have count : ulong (ulongSub (request.vbn + request.sectorCount - 1) p.nextVbn +
              1) = request.vbn + request.sectorCount - p.nextVbn := by
            rw [ulongSub_eq (by omega) (by omega), ulong_eq (by omega)]
            omega
          rw [lbn, count]
          refine .rest ⟨?_, ?_, ?_, ?_⟩ same <;> dsimp only <;> omega
    · next hole =>
      split
      · exact .rest ok rfl
      · next endIndex foundEnd =>
        split
        · next adjacent =>
          obtain ⟨q, after, rfl, rfl, starts, ends⟩ := find_adjacent valid foundEnd adjacent
          simp only [startingLbn_next, startingVbn_next]
          rw [ulongSub_eq (by omega) (by omega), ulong_eq (by omega)]
          split
          · exact .refused
          · next aligned =>
            have aligned := not_not.mp aligned
            have mapped : q.lbn ≠ unusedLbn := by
              unfold unusedLbn
              omega
            refine .rest ⟨?_, ok.nonzero, ?_, ?_⟩ (trim_before_run valid mapped below
              (by omega) (by omega) aligned) <;> dsimp only <;> omega
        · exact .rest ok rfl

end Trim

theorem fsRtlAddBaseMcbEntry_added {vbn lbn count : Nat} (valid : Valid mcb) (some : 0 < count)
    (nonzero : lbn ≠ 0) (vbns : vbn + count + 1 < 2 ^ 32) (lbns : lbn + count + 1 < 2 ^ 32) :
    Added mcb vbn lbn count (fsRtlAddBaseMcbEntry mcb vbn lbn count) := by
  have ok : Request.Ok ⟨vbn, lbn, count⟩ := ⟨some, nonzero, vbns, lbns⟩
  rw [fsRtlAddBaseMcbEntry, ulong_eq (by omega), ulong_eq (by omega), ulong_eq (by omega)]
  have trimmed := trimRequest_trimmed valid ok
  generalize trimRequest mcb ⟨vbn, lbn, count⟩ = outcome at trimmed
  cases trimmed with
  | refused => exact .refused
  | contained same => exact .success valid same.symm
  | rest ok' same =>
    have added := addRun_added valid ok'
    dsimp only
    generalize addRun mcb _ = result at added
    cases added with
    | refused => exact .refused
    | success valid' map => exact .success valid' (map.trans same)

end Append

end Ntoskrnl.FsRtl.Mcb
