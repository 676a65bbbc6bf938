/-
# Ntoskrnl.Rtl.Ranges.Runs -- deleting ranges, and visiting those that are left

Dissolving a merged range adds the members that are left to an empty list, with
conflicts allowed, so the new entries are well formed and stay inside the limits of
the old one.  `Visits` is a loop with `RtlGetFirstRange` and `RtlGetNextRange`; it
visits the ranges of every entry in the order of the list.

The specification of a range list is a multiset of leaves: a successful addition adds
one, a successful deletion removes one that matches, and deleting an owner removes all
of the owner's.  A run of calls on an empty list is checked against it call by call.

`RtlpAddIntersectingRanges` moves the members of a merged range under the flags of the
new call and ignores the status.  Without `RTL_RANGE_LIST_ADD_IF_CONFLICT` a member
that clashes with one that was moved before is dropped, although it is still counted,
and what is left need not be linked.  A call is `Safe` when it moves no such member;
in a run of safe calls the list refines the specification and stays well formed.
-/
import Mathlib.Data.Multiset.Filter
import Ntoskrnl.Rtl.Ranges.Invariant

namespace Ntoskrnl.Rtl.Ranges

open Base Lib.Interval List

set_option autoImplicit false

/-! ## Dissolving a merged range -/

variable {entries : List Entry} {left : List Range}

theorem rtlpAddRange_added {entry : Range} {flags : Nat} (valid : entry.start ≤ entry.stop)
    (ok : ListOk entries)
    (movable : Movable flags (absorbed { entry with conflict := false } entries)) :
    Added entries entry.toLeaf (rtlpAddRange entries entry flags) :=
  @addRangeLoop_added { entry with conflict := false } flags entries valid ok movable

theorem Added.listOk {l : Leaf} {result : NtStatus × List Entry} (added : Added entries l result)
    (ok : ListOk entries) : ListOk result.2 := by
  cases added with
  | refused => exact ok
  | success ok' => exact ok'

theorem rtlpDeleteFromMergedRange_ok (valid : ∀ r ∈ left, r.start ≤ r.stop) :
    ListOk (rtlpDeleteFromMergedRange left) := by
  suffices general : ∀ keepList, ListOk keepList → ListOk (left.foldl
      (fun keepList current => (rtlpAddRange keepList current 1).2) keepList) from
    general [] .nil
  induction left with
  | nil => exact fun keepList ok => ok
  | cons range rest ih =>
    intro keepList ok
    refine ih (fun r mem => valid r (mem_cons_of_mem range mem)) _ ?_
    exact (rtlpAddRange_added (valid range mem_cons_self) ok (.inl rfl)).listOk ok

variable {p : Range → Bool} {entry : Entry} {header : Merged} {members : List Range}
  {entries' : List Entry}

theorem removeFirst_some (found : removeFirst p members = some left) :
    ∃ range, p range ∧ members.Perm (range :: left) := by
  unfold removeFirst at found
  split at found
  · next some =>
    obtain rfl := Option.some.inj found
    obtain ⟨r, mem, holds⟩ := any_eq_true.mp some
    obtain ⟨range, before, after, -, holds', split, erased⟩ := exists_of_eraseP mem holds
    refine ⟨range, holds', ?_⟩
    rw [erased, split]
    exact perm_middle
  · exact nomatch found

theorem removeFirst_none (none : removeFirst p members = none) : ∀ r ∈ members, p r = false := by
  unfold removeFirst at none
  split at none
  · exact nomatch none
  · next absent =>
    intro r mem
    rw [← Bool.not_eq_true]
    exact fun holds => absent (any_eq_true.mpr ⟨r, mem, holds⟩)

/-- **A merged range that loses a member is replaced by well-formed entries.** -/
theorem dissolve_ok {rest : List Entry} (ok : ListOk (.merged header :: rest))
    (found : removeFirst p header.members = some left) :
    ListOk (rtlpDeleteFromMergedRange left ++ rest) ∧ ∃ range : Range, p range ∧
      (leavesOf (.merged header :: rest)).Perm
        (range.toLeaf :: leavesOf (rtlpDeleteFromMergedRange left ++ rest)) := by
  obtain ⟨merged_ok, rest_ok, order⟩ := ListOk.cons_iff.mp ok
  obtain ⟨range, holds, perm⟩ := removeFirst_some found
  have kept := rtlpDeleteFromMergedRange_leaves left
  have inside : ∀ r ∈ left, r.toLeaf ∈ (Entry.merged header).leaves := fun r mem =>
    mem_map_of_mem (perm.mem_iff.mpr (mem_cons_of_mem range mem))
  have left_ok := rtlpDeleteFromMergedRange_ok fun r mem => merged_ok.valid (inside r mem)
  refine ⟨⟨fun e mem => ?_, pairwise_append.mpr ⟨left_ok.ordered, rest_ok.ordered, ?_⟩⟩,
    range, holds, ?_⟩
  · rcases mem_append.mp mem with mem | mem
    · exact left_ok.each e mem
    · exact rest_ok.each e mem
  · intro e mem e' mem'
    refine Nat.lt_of_le_of_lt (left_ok.stop_le (fun l found => ?_) mem) (order e' mem')
    obtain ⟨r, mem_r, rfl⟩ := mem_map.mp (kept.mem_iff.mp found)
    exact merged_ok.hull.below _ (inside r mem_r)
  · rw [leavesOf_cons, leavesOf_append]
    refine (Perm.append_right _ (perm.map Range.toLeaf)).trans ?_
    exact (Perm.append_right _ kept.symm).cons _

/-! ## RtlDeleteRange -/

/-- Putting an entry back in front of what a deletion behind it left. -/
theorem ListOk.cons_of_perm {rest rest' : List Entry} {removed : List Leaf}
    (ok : ListOk (entry :: rest)) (ok' : ListOk rest')
    (perm : (leavesOf rest).Perm (removed ++ leavesOf rest')) : ListOk (entry :: rest') := by
  obtain ⟨first, others, order⟩ := ListOk.cons_iff.mp ok
  refine ListOk.cons_iff.mpr ⟨first, ok', fun e mem => ?_⟩
  refine ok'.le_start (fun l found => ?_) mem
  obtain ⟨e', mem', found⟩ :=
    mem_leavesOf.mp (perm.mem_iff.mpr (mem_append_right removed found))
  have := order e' mem'
  have := (others.each e' mem').hull.above l found
  omega

theorem perm_cons_append {rest rest' : List Entry} {removed : List Leaf}
    (perm : (leavesOf rest).Perm (removed ++ leavesOf rest')) :
    (leavesOf (entry :: rest)).Perm (removed ++ leavesOf (entry :: rest')) := by
  rw [leavesOf_cons, leavesOf_cons]
  refine (perm.append_left _).trans ?_
  rw [← append_assoc, ← append_assoc]
  exact .append_right _ perm_append_comm

/-- What the loop of `RtlDeleteRange` does when it finds its range. -/
inductive Deletes (p : Range → Bool) : List Entry → List Entry → Prop where
  | plain {range : Range} (rest : List Entry) (is : p range) :
      Deletes p (.allocated range :: rest) rest
  | dissolved {header : Merged} {left : List Range} (rest : List Entry)
      (found : removeFirst p header.members = some left) :
      Deletes p (.merged header :: rest) (rtlpDeleteFromMergedRange left ++ rest)
  | behind {rest rest' : List Entry} (current : Entry) (later : Deletes p rest rest') :
      Deletes p (current :: rest) (current :: rest')

theorem deleteLoop_deletes {start stop owner : Nat}
    (run : deleteLoop start stop owner entries = some entries') :
    Deletes (isRange start stop owner) entries entries' := by
  induction entries generalizing entries' with
  | nil => exact nomatch run
  | cons current rest ih =>
    have later : (deleteLoop start stop owner rest).map (current :: ·) = some entries' →
        Deletes (isRange start stop owner) (current :: rest) entries' := by
      intro run
      obtain ⟨rest', found, rfl⟩ := Option.map_eq_some_iff.mp run
      exact .behind current (ih found)
    unfold deleteLoop at run
    split at run
    · exact nomatch run
    cases current with
    | merged =>
      dsimp only at run
      split at run
      · split at run
        · next found => exact Option.some.inj run ▸ .dissolved rest found
        · exact later run
      · exact later run
    | allocated =>
      dsimp only at run
      split at run
      · next is => exact Option.some.inj run ▸ .plain rest is
      · exact later run

/-- **A deletion takes out one leaf that matches**, and keeps the list well formed. -/
theorem Deletes.ok (deletes : Deletes p entries entries') (ok : ListOk entries) :
    ListOk entries' ∧ ∃ range : Range, p range ∧
      (leavesOf entries).Perm (range.toLeaf :: leavesOf entries') := by
  induction deletes with
  | @plain range rest is => exact ⟨(ListOk.cons_iff.mp ok).2.1, range, is, .refl _⟩
  | dissolved rest found => exact dissolve_ok ok found
  | @behind rest rest' current _ ih =>
    obtain ⟨ok', range, is, perm⟩ := ih (ListOk.cons_iff.mp ok).2.1
    exact ⟨@ListOk.cons_of_perm current rest rest' [range.toLeaf] ok ok' perm, range, is,
      @perm_cons_append current rest rest' [range.toLeaf] perm⟩

/-! ## RtlDeleteOwnersRanges -/

/-- A scan takes out leaves of the owner, as many as it counts, and all of them when
it does not have to start again. -/
def Scanned (owner : Nat) (entries : List Entry) (scan : List Entry × Nat × Bool) : Prop :=
  ListOk scan.1 ∧ ∃ removed : List Leaf, (∀ l ∈ removed, l.owner = owner) ∧
    removed.length = scan.2.1 ∧ (leavesOf entries).Perm (removed ++ leavesOf scan.1) ∧
    (scan.2.2 = false → ∀ l ∈ leavesOf scan.1, l.owner ≠ owner)

theorem ownersScan_ok {owner : Nat} {entries : List Entry} (ok : ListOk entries) :
    Scanned owner entries (ownersScan owner entries) := by
  induction entries with
  | nil =>
    refine ⟨.nil, [], fun _ mem => (nomatch mem), rfl, .refl _, fun _ l mem => ?_⟩
    exact nomatch mem
  | cons entry rest ih =>
    obtain ⟨first, others, order⟩ := ListOk.cons_iff.mp ok
    obtain ⟨ok', removed, owned, count, perm, complete⟩ := ih others
    -- An entry that stays in front of the rest of the scan.
    have stays : (∀ l ∈ entry.leaves, l.owner ≠ owner) → Scanned owner (entry :: rest)
        (entry :: (ownersScan owner rest).1, (ownersScan owner rest).2) := by
      intro other
      refine ⟨ok.cons_of_perm ok' perm, removed, owned, count, perm_cons_append perm, ?_⟩
      intro last l mem
      rw [leavesOf_cons] at mem
      rcases mem_append.mp mem with mem | mem
      · exact other l mem
      · exact complete last l mem
    cases entry with
    | allocated range =>
      unfold ownersScan
      split
      · next is =>
        refine ⟨ok', range.toLeaf :: removed, fun l mem => ?_, ?_, ?_, complete⟩
        · rcases mem_cons.mp mem with rfl | mem
          · exact beq_iff_eq.mp is
          · exact owned l mem
        · rw [length_cons, count]
        · exact perm.cons _
      · next other =>
        refine stays fun l mem => ?_
        obtain rfl := mem_singleton.mp mem
        exact fun same => other (beq_iff_eq.mpr same)
    | merged =>
      unfold ownersScan
      split
      · next left found =>
        obtain ⟨ok', range, is, perm⟩ := dissolve_ok ok found
        refine ⟨ok', [range.toLeaf], fun l mem => ?_, rfl, perm, fun again => (nomatch again)⟩
        obtain rfl := mem_singleton.mp mem
        exact beq_iff_eq.mp is
      · next none =>
        refine stays fun l mem => ?_
        obtain ⟨r, mem_r, rfl⟩ := mem_map.mp mem
        have other := removeFirst_none none r mem_r
        exact fun same => by simp [same] at other

/-- **All the owner's leaves go and no other**, and the count goes with them. -/
theorem ownersLoop_ok {owner : Nat} {list : RangeList} (ok : ListOk list.entries)
    (count : list.count = (leavesOf list.entries).length) :
    ListOk (ownersLoop owner list).entries ∧
      (ownersLoop owner list).count = (leavesOf (ownersLoop owner list).entries).length ∧
      (leavesOf (ownersLoop owner list).entries).Perm
        ((leavesOf list.entries).filter fun l => l.owner ≠ owner) := by
  obtain ⟨ok', removed, owned, deleted, perm, complete⟩ := @ownersScan_ok owner _ ok
  have none : removed.filter (fun l => l.owner ≠ owner) = [] := by
    rw [filter_eq_nil_iff]
    intro l mem
    simpa using owned l mem
  have kept := perm.filter fun l => l.owner ≠ owner
  rw [filter_append, none, nil_append] at kept
  have count' : list.count - (ownersScan owner list.entries).2.1 =
      (leavesOf (ownersScan owner list.entries).1).length := by
    have := perm.length_eq
    rw [length_append] at this
    omega
  rw [ownersLoop]
  split
  · next again =>
    obtain ⟨ok'', count'', perm''⟩ := @ownersLoop_ok owner
      ⟨_, _, list.stamp + (ownersScan owner list.entries).2.1⟩ ok' count'
    exact ⟨ok'', count'', perm''.trans kept.symm⟩
  · next last =>
    refine ⟨ok', count', (.trans ?_ kept.symm)⟩
    rw [filter_eq_self.mpr]
    intro l mem
    simpa using complete (by simpa using last) l mem
termination_by (leavesOf list.entries).length
decreasing_by
  obtain ⟨same, some⟩ := ownersScan_length owner list.entries
  have := some ‹_›
  show (leavesOf (ownersScan owner list.entries).1).length < _
  omega

/-! ## Visiting all ranges -/

/-- From a call of `RtlGetFirstRange` or `RtlGetNextRange` on, moving forwards until
there are no more entries, the ranges visited. -/
inductive Visits (list : RangeList) : NtStatus × Iterator × Option Range → List Range → Prop where
  | done {iterator : Iterator} : Visits list (.noMoreEntries, iterator, none) []
  | visit {iterator : Iterator} {range : Range} {ranges : List Range}
      (next : Visits list (rtlGetNextRange list iterator true) ranges) :
      Visits list (.success, iterator, some range) (range :: ranges)

section Visits

variable {list : RangeList}

/-- The members of a merged entry from one of them on, and what comes after. -/
theorem visits_members {index : Nat} {ranges : List Range}
    (at_index : list.entries[index]? = some (.merged header))
    (rest : Visits list (moveTo list (some (index + 1)) true) ranges) :
    ∀ (fuel k : Nat) (range : Range), k + fuel = header.members.length →
      header.members[k]? = some range →
      Visits list (.success, ⟨some (.member index k), list.stamp⟩, some range)
        (header.members.drop k ++ ranges) := by
  intro fuel
  induction fuel with
  | zero =>
    intro k range bound found
    have := (List.getElem?_eq_some_iff.mp found).1
    omega
  | succ fuel ih =>
    intro k range bound found
    have inside := (List.getElem?_eq_some_iff.mp found).1
    rw [drop_eq_getElem_cons inside, (List.getElem?_eq_some_iff.mp found).2, cons_append]
    refine .visit ?_
    cases more : header.members[k + 1]? with
    | none =>
      have next : rtlGetNextRange list ⟨some (.member index k), list.stamp⟩ true =
          moveTo list (some (index + 1)) true := by
        simp [rtlGetNextRange, nextIndex, rangeAt, at_index, more]
      rw [next, drop_eq_nil_of_le (getElem?_eq_none_iff.mp more)]
      exact rest
    | some range' =>
      have next : rtlGetNextRange list ⟨some (.member index k), list.stamp⟩ true =
          (.success, ⟨some (.member index (k + 1)), list.stamp⟩, some range') := by
        simp [rtlGetNextRange, nextIndex, rangeAt, at_index, more]
      rw [next]
      exact ih (k + 1) range' (by omega) more

/-- The entries of the main list from one of them on. -/
theorem visits_from (some : ∀ header, Entry.merged header ∈ list.entries → header.members ≠ []) :
    ∀ (fuel index : Nat), index + fuel = list.entries.length →
      Visits list (moveTo list (.some index) true) (rangesOf (list.entries.drop index)) := by
  intro fuel
  induction fuel with
  | zero =>
    intro index bound
    have past : list.entries[index]? = none := getElem?_eq_none_iff.mpr (by omega)
    rw [drop_eq_nil_of_le (by omega), moveTo, Option.bind_some, past]
    exact .done
  | succ fuel ih =>
    intro index bound
    have inside : index < list.entries.length := by omega
    have found := getElem?_eq_getElem inside
    have rest := ih (index + 1) (by omega)
    rw [drop_eq_getElem_cons inside, moveTo, Option.bind_some, found, Option.map_some]
    dsimp only
    cases entry : list.entries[index] with
    | allocated range =>
      rw [entry] at found
      have here : rangeAt list.entries (enter (.allocated range) index true) = .some range := by
        simp [enter, rangeAt, found]
      have next : rtlGetNextRange list ⟨.some (enter (.allocated range) index true), list.stamp⟩
          true = moveTo list (.some (index + 1)) true := by
        simp [rtlGetNextRange, enter, nextIndex]
      rw [here]
      show Visits list _ (range :: rangesOf (list.entries.drop (index + 1)))
      refine .visit ?_
      rw [next]
      exact rest
    | merged header =>
      rw [entry] at found
      -- a merged entry is entered at its first member
      have nonempty := some header (entry ▸ getElem_mem inside)
      have first : header.members[0]? = .some (header.members.head nonempty) := by
        rw [← head?_eq_getElem?, head?_eq_some_head]
      have here : rangeAt list.entries (enter (.merged header) index true) =
          .some (header.members.head nonempty) := by
        simp [enter, rangeAt, found, first]
      rw [here]
      have members := visits_members found rest header.members.length 0 _ (by omega) first
      exact members

/-- **The iterator visits every range of the list once.** -/
theorem visits_rangesOf (ok : ListOk list.entries) :
    Visits list (rtlGetFirstRange list) (rangesOf list.entries) := by
  refine visits_from (fun header mem none => ?_) list.entries.length 0 (by omega)
  have two : 2 ≤ header.members.length := (ok.each _ mem).two
  rw [none] at two
  exact absurd two (by decide)

end Visits

/-! ## Calls -/

inductive Call where
  | addRange (start stop attributes flags userData owner : Nat)
  | deleteRange (start stop owner : Nat)
  | deleteOwnersRanges (owner : Nat)
  deriving DecidableEq, Repr

def Call.exec (list : RangeList) : Call → NtStatus × RangeList
  | addRange start stop attributes flags userData owner =>
    rtlAddRange list start stop attributes flags userData owner
  | deleteRange start stop owner => rtlDeleteRange list start stop owner
  | deleteOwnersRanges owner => rtlDeleteOwnersRanges list owner

def runCalls (list : RangeList) : List Call → RangeList
  | [] => list
  | call :: calls => runCalls (call.exec list).2 calls

/-- The calls of a run with the status each returned. -/
def returned (list : RangeList) : List Call → List (Call × NtStatus)
  | [] => []
  | call :: calls => (call, (call.exec list).1) :: returned (call.exec list).2 calls

/-- An addition that is not refused either allows conflicts or absorbs, behind the first entry
it intersects, only merged ranges without clashing members. -/
def Call.Safe (list : RangeList) : Call → Prop
  | addRange start stop attributes flags userData owner => start ≤ stop →
    Movable flags (absorbed (newRange start stop attributes flags userData owner) list.entries)
  | _ => True

def SafeRun (list : RangeList) : List Call → Prop
  | [] => True
  | call :: calls => call.Safe list ∧ SafeRun (call.exec list).2 calls

/-! ## The specification -/

/-- What a call does to the multiset of leaves, given the status it returned. -/
inductive Spec (leaves : Multiset Leaf) : Call → NtStatus → Multiset Leaf → Prop where
  | added (start stop attributes flags userData owner : Nat) :
      Spec leaves (.addRange start stop attributes flags userData owner) .success
        (⟨start, stop, attributes, addShared flags, userData, owner⟩ ::ₘ leaves)
  | deleted {start stop owner : Nat} {l : Leaf} (mem : l ∈ leaves)
      (is : l.start = start ∧ l.stop = stop ∧ l.owner = owner) :
      Spec leaves (.deleteRange start stop owner) .success (leaves.erase l)
  | ownerDeleted (owner : Nat) :
      Spec leaves (.deleteOwnersRanges owner) .success (leaves.filter fun l => l.owner ≠ owner)
  | failed {call : Call} {status : NtStatus} (failure : status ≠ .success) :
      Spec leaves call status leaves

inductive SpecRun : Multiset Leaf → List (Call × NtStatus) → Multiset Leaf → Prop where
  | nil (leaves : Multiset Leaf) : SpecRun leaves [] leaves
  | cons {leaves leaves' final : Multiset Leaf} {call : Call} {status : NtStatus}
      {calls : List (Call × NtStatus)} (step : Spec leaves call status leaves')
      (rest : SpecRun leaves' calls final) : SpecRun leaves ((call, status) :: calls) final

/-! ## One call -/

/-- The list is well formed and counts its leaves. -/
structure Sound (list : RangeList) : Prop where
  ok : ListOk list.entries
  count : list.count = (leavesOf list.entries).length

theorem sound_initialize : Sound rtlInitializeRangeList :=
  ⟨.nil, rfl⟩

def RangeList.leaves (list : RangeList) : Multiset Leaf :=
  leavesOf list.entries

section Step

variable {list : RangeList}

theorem rtlAddRange_step (sound : Sound list) (start stop attributes flags userData owner : Nat)
    (safe : (Call.addRange start stop attributes flags userData owner).Safe list) :
    let result := rtlAddRange list start stop attributes flags userData owner
    Sound result.2 ∧ Spec list.leaves (.addRange start stop attributes flags userData owner)
      result.1 result.2.leaves := by
  unfold rtlAddRange
  split
  · exact ⟨sound, .failed (show NtStatus.invalidParameter ≠ .success by decide)⟩
  · next valid =>
    have added : Added list.entries ⟨start, stop, attributes, addShared flags, userData, owner⟩
        (rtlpAddRange list.entries (newRange start stop attributes flags userData owner) flags) :=
      @rtlpAddRange_added list.entries (newRange start stop attributes flags userData owner) flags
        (Nat.le_of_not_lt valid) sound.ok (safe (Nat.le_of_not_lt valid))
    generalize rtlpAddRange list.entries _ flags = result at added
    cases added with
    | refused =>
      dsimp only
      exact ⟨sound, .failed (show NtStatus.rangeListConflict ≠ .success by decide)⟩
    | @success entries' ok leaves =>
      dsimp only
      rw [if_pos (by decide)]
      refine ⟨⟨ok, ?_⟩, ?_⟩
      · show list.count + 1 = _
        rw [leaves.length_eq, length_cons, sound.count]
      · have same : (RangeList.mk entries' (list.count + 1) (list.stamp + 1)).leaves =
            ⟨start, stop, attributes, addShared flags, userData, owner⟩ ::ₘ list.leaves :=
          Multiset.coe_eq_coe.mpr leaves
        rw [same]
        exact .added start stop attributes flags userData owner

theorem rtlDeleteRange_step (sound : Sound list) (start stop owner : Nat) :
    let result := rtlDeleteRange list start stop owner
    Sound result.2 ∧ Spec list.leaves (.deleteRange start stop owner) result.1 result.2.leaves := by
  unfold rtlDeleteRange
  split
  · next entries' found =>
    obtain ⟨ok, range, is, perm⟩ := (deleteLoop_deletes found).ok sound.ok
    refine ⟨⟨ok, ?_⟩, ?_⟩
    · show list.count - 1 = (leavesOf entries').length
      have := perm.length_eq
      rw [length_cons] at this
      rw [sound.count]
      omega
    · have before : list.leaves = range.toLeaf ::ₘ (leavesOf entries' : Multiset Leaf) :=
        Multiset.coe_eq_coe.mpr perm
      have after : (RangeList.mk entries' (list.count - 1) (list.stamp + 1)).leaves =
          list.leaves.erase range.toLeaf := by
        rw [before, Multiset.erase_cons_head]
        rfl
      rw [after]
      exact .deleted (before ▸ Multiset.mem_cons_self _ _) (by simpa [isRange, and_assoc] using is)
  · exact ⟨sound, .failed (show NtStatus.rangeNotFound ≠ .success by decide)⟩

theorem rtlDeleteOwnersRanges_step (sound : Sound list) (owner : Nat) :
    let result := rtlDeleteOwnersRanges list owner
    Sound result.2 ∧ Spec list.leaves (.deleteOwnersRanges owner) result.1 result.2.leaves := by
  obtain ⟨ok, count, perm⟩ := @ownersLoop_ok owner list sound.ok sound.count
  refine ⟨⟨ok, count⟩, ?_⟩
  have same : (rtlDeleteOwnersRanges list owner).2.leaves =
      list.leaves.filter fun l => l.owner ≠ owner :=
    Multiset.coe_eq_coe.mpr perm
  rw [same]
  exact .ownerDeleted owner

/-- **A safe call keeps the list sound and does what the specification says.** -/
theorem exec_step (sound : Sound list) (call : Call) (safe : call.Safe list) :
    Sound (call.exec list).2 ∧
      Spec list.leaves call (call.exec list).1 (call.exec list).2.leaves := by
  cases call with
  | addRange start stop attributes flags userData owner =>
    exact rtlAddRange_step sound start stop attributes flags userData owner safe
  | deleteRange start stop owner => exact rtlDeleteRange_step sound start stop owner
  | deleteOwnersRanges owner => exact rtlDeleteOwnersRanges_step sound owner

end Step

/-! ## Runs -/

theorem run_sound {list : RangeList} (sound : Sound list) {calls : List Call}
    (safe : SafeRun list calls) :
    Sound (runCalls list calls) ∧
      SpecRun list.leaves (returned list calls) (runCalls list calls).leaves := by
  induction calls generalizing list with
  | nil => exact ⟨sound, .nil _⟩
  | cons call calls ih =>
    obtain ⟨first, others⟩ := safe
    obtain ⟨sound', step⟩ := exec_step sound call first
    obtain ⟨final, rest⟩ := ih sound' others
    exact ⟨final, .cons step rest⟩

/-- **No range is lost or duplicated.**  After any run of safe calls on an empty list
the ranges that `RtlGetFirstRange` and `RtlGetNextRange` visit are those of the
specification, and the list counts them. -/
theorem rangeList_refines (calls : List Call) (safe : SafeRun rtlInitializeRangeList calls) :
    ∃ leaves ranges, SpecRun 0 (returned rtlInitializeRangeList calls) leaves ∧
      Visits (runCalls rtlInitializeRangeList calls)
        (rtlGetFirstRange (runCalls rtlInitializeRangeList calls)) ranges ∧
      (ranges.map Range.toLeaf : Multiset Leaf) = leaves ∧
      (runCalls rtlInitializeRangeList calls).count = Multiset.card leaves := by
  obtain ⟨sound, run⟩ := run_sound sound_initialize safe
  exact ⟨_, _, run, visits_rangesOf sound.ok, rfl, sound.count⟩

/-- A shared range, two that conflict with each other, a shared one over the first two
that allows conflicts, and two deletions: nothing is lost. -/
def conflictCalls : List Call :=
  [.addRange 0 10 0 2 0 1, .addRange 20 30 0 2 0 2, .addRange 25 28 0 1 0 3,
    .addRange 5 22 0 3 0 4, .deleteRange 20 30 2, .deleteOwnersRanges 1]

theorem conflictCalls_safe : SafeRun rtlInitializeRangeList conflictCalls :=
  ⟨fun _ => .inr fun _ mem => (nomatch mem), fun _ => .inr fun _ mem => (nomatch mem),
    fun _ => .inl rfl, fun _ => .inl rfl, trivial, trivial, trivial⟩

theorem rangeList_refines_conflictCalls : SafeRun rtlInitializeRangeList conflictCalls ∧
      ∃ leaves ranges, SpecRun 0 (returned rtlInitializeRangeList conflictCalls) leaves ∧
        Visits (runCalls rtlInitializeRangeList conflictCalls)
          (rtlGetFirstRange (runCalls rtlInitializeRangeList conflictCalls)) ranges ∧
        (ranges.map Range.toLeaf : Multiset Leaf) = leaves ∧
        (runCalls rtlInitializeRangeList conflictCalls).count = Multiset.card leaves := by
  exact ⟨conflictCalls_safe, rangeList_refines conflictCalls conflictCalls_safe⟩

/-- The same ranges, with the last one not allowing conflicts. -/
def losingCalls : List Call :=
  [.addRange 0 10 0 2 0 1, .addRange 20 30 0 2 0 2, .addRange 25 28 0 1 0 3, .addRange 5 22 0 2 0 4]

/-- **A range is lost**: all four calls succeed and the list counts four ranges, but
the one owned by 3 is not in it any more. -/
theorem rangeList_refines_lost : (returned rtlInitializeRangeList losingCalls).map Prod.snd =
        [.success, .success, .success, .success] ∧
      (runCalls rtlInitializeRangeList losingCalls).count = 4 ∧
      Visits (runCalls rtlInitializeRangeList losingCalls)
        (rtlGetFirstRange (runCalls rtlInitializeRangeList losingCalls))
        [⟨⟨0, 10, 0, true, 0, 1⟩, false⟩, ⟨⟨5, 22, 0, true, 0, 4⟩, false⟩,
          ⟨⟨20, 30, 0, true, 0, 2⟩, true⟩] := by
  refine ⟨by decide +kernel, by decide +kernel, ?_⟩
  refine visits_from (fun header mem => ?_) 1 0 (by decide +kernel)
  rw [Entry.merged.inj (mem_singleton.mp mem)]
  exact cons_ne_nil _ _

/-! ## The representation invariant -/

structure MergedInvariant (header : Merged) : Prop where
  two : 2 ≤ header.members.length
  sorted : header.members.Pairwise fun a b => a.start ≤ b.start
  start_min : (∀ r ∈ header.members, header.start ≤ r.start) ∧
    ∃ r ∈ header.members, r.start = header.start
  stop_max : (∀ r ∈ header.members, r.stop ≤ header.stop) ∧
    ∃ r ∈ header.members, r.stop = header.stop
  chain : ∀ before r after, header.members = before ++ r :: after → before ≠ [] →
    ∃ q ∈ before, RangeIntersect q.start q.stop r.start r.stop
  union : ∀ x, header.start ≤ x ∧ x ≤ header.stop ↔ ∃ r ∈ header.members, r.start ≤ x ∧ x ≤ r.stop
  shared : header.shared → ∀ r ∈ header.members, r.shared

structure ListInvariant (entries : List Entry) : Prop where
  limits : ∀ entry ∈ entries, entry.start ≤ entry.stop
  ordered : entries.Pairwise fun a b => a.stop < b.start
  merged : ∀ header, Entry.merged header ∈ entries → MergedInvariant header

theorem exists_member {p : Leaf → Prop} (found : ∃ l ∈ header.leaves, p l) :
    ∃ r ∈ header.members, p r.toLeaf := by
  obtain ⟨l, mem, is⟩ := found
  obtain ⟨r, mem', rfl⟩ := mem_map.mp mem
  exact ⟨r, mem', is⟩

theorem MergedOk.invariant (ok : MergedOk header) : MergedInvariant header where
  two := ok.two
  sorted := ok.sorted
  start_min := ⟨fun r mem => ok.hull.above r.toLeaf (mem_map_of_mem mem),
    exists_member ok.hull.left⟩
  stop_max := ⟨fun r mem => ok.hull.below r.toLeaf (mem_map_of_mem mem),
    exists_member ok.hull.right⟩
  chain before r after split some := by
    have sorted : header.leaves.Pairwise fun a b => a.start ≤ b.start :=
      pairwise_map.mpr ok.sorted
    have leaves : header.leaves =
        before.map Range.toLeaf ++ r.toLeaf :: after.map Range.toLeaf := by
      rw [Merged.leaves, split, map_append, map_cons]
    obtain ⟨l, mem, meets⟩ := ok.linked.chain ok.hull ok.valid sorted leaves
      fun none => some (map_eq_nil_iff.mp none)
    obtain ⟨q, mem_q, rfl⟩ := mem_map.mp mem
    have order := ok.sorted
    rw [split, pairwise_append] at order
    have := order.2.2 q mem_q r mem_cons_self
    refine ⟨q, mem_q, ?_⟩
    unfold RangeIntersect RangeDisjoint
    omega
  union x := by
    constructor
    · rintro ⟨above, below⟩
      exact exists_member (ok.linked.covers ok.hull ok.valid above below)
    · rintro ⟨r, mem, above, below⟩
      have := ok.hull.above r.toLeaf (mem_map_of_mem mem)
      have := ok.hull.below r.toLeaf (mem_map_of_mem mem)
      exact ⟨by omega, by omega⟩
  shared is r mem := ok.shared is r.toLeaf (mem_map_of_mem mem)

/-- **Representation invariant.**  After any run of safe calls on an empty list the
entries are in order and disjoint, and every merged entry is the exact hull of two or
more ranges that overlap in a chain. -/
theorem rangeList_invariant (calls : List Call) (safe : SafeRun rtlInitializeRangeList calls) :
    ListInvariant (runCalls rtlInitializeRangeList calls).entries := by
  obtain ⟨sound, -⟩ := run_sound sound_initialize safe
  exact
    { limits := fun entry mem => (sound.ok.each entry mem).start_le_stop
      ordered := sound.ok.ordered
      merged := fun header mem => MergedOk.invariant (sound.ok.each (.merged header) mem) }

theorem rangeList_invariant_conflictCalls : SafeRun rtlInitializeRangeList conflictCalls ∧
      ListInvariant (runCalls rtlInitializeRangeList conflictCalls).entries := by
  exact ⟨conflictCalls_safe, rangeList_invariant conflictCalls conflictCalls_safe⟩

/-- A chain of three ranges whose middle one is not shared, and a shared range from the
entry in front of them to the first of the three. -/
def breakingCalls : List Call :=
  [.addRange 0 10 0 2 0 1, .addRange 20 22 0 2 0 2, .addRange 21 30 0 1 0 3,
    .addRange 29 40 0 3 0 4, .addRange 5 20 0 2 0 5]

/-- **The middle range is lost and the chain is broken**: the merged entry spans 25,
which none of its members covers. -/
theorem rangeList_invariant_broken : (returned rtlInitializeRangeList breakingCalls).map Prod.snd =
        [.success, .success, .success, .success, .success] ∧
      ∃ header, Entry.merged header ∈ (runCalls rtlInitializeRangeList breakingCalls).entries ∧
        (header.start ≤ 25 ∧ 25 ≤ header.stop) ∧
        ¬ ∃ r ∈ header.members, r.start ≤ 25 ∧ 25 ≤ r.stop := by
  refine ⟨by decide +kernel, _, mem_singleton.mpr rfl, by decide +kernel, ?_⟩
  decide +kernel

end Ntoskrnl.Rtl.Ranges
