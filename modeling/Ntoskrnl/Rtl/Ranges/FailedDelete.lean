/-
# Ntoskrnl.Rtl.Ranges.FailedDelete -- deleting a range when the pool runs out

`RtlpDeleteFromMergedRange` takes a merged range apart by adding its members to an empty
list.  Where a member meets a plain entry of that list, the entry is converted to a
header, and the copy of it is the only allocation `RtlDeleteRange` makes.  When it fails
the entries of the list built so far and the range to be deleted are put back into the
header.  The member that was being moved is in neither list then, the entries may be
headers themselves, and the status is that of the last insertion.
-/
import Ntoskrnl.Rtl.Ranges.Model

namespace Ntoskrnl.Rtl.Ranges

open Base

set_option autoImplicit false

/-! ## The allocations of an addition -/

/-- The first entry that `RtlpAddRange` finds to intersect is not a header yet. -/
def converts (entry : Range) : List Entry → Bool
  | [] => false
  | current :: rest =>
    if entry.stop < current.start then false
    else if RangeIntersect entry.start entry.stop current.start current.stop then
      match current with
      | .allocated _ => true
      | .merged _ => false
    else converts entry rest

/-- `RtlpAddRange` with `RTL_RANGE_LIST_ADD_IF_CONFLICT` while `allocations` more
allocations succeed; `none` is `STATUS_INSUFFICIENT_RESOURCES`, before any change. -/
def addRangeWithin (allocations : Nat) (entries : List Entry) (entry : Range) :
    Option (Nat × List Entry) :=
  if converts entry entries then
    match allocations with
    | 0 => none
    | left + 1 => some (left, (rtlpAddRange entries entry 1).2)
  else some (allocations, (rtlpAddRange entries entry 1).2)

/-! ## Deleting -/

/-- A member of a header that was put together again, with its conflict flag. -/
structure Member where
  entry : Entry
  conflict : Bool
  deriving DecidableEq, Repr

/-- A header whose members may be headers. -/
structure Restored where
  start : Nat
  stop : Nat
  shared : Bool
  members : List Member
  deriving DecidableEq, Repr

def Entry.shared : Entry → Bool
  | .allocated range => range.shared
  | .merged header => header.shared

/-- The new header of a merged entry has no conflict flag. -/
def Entry.toMember : Entry → Member
  | .allocated range => ⟨.allocated range, range.conflict⟩
  | .merged header => ⟨.merged header, false⟩

def Member.conflicts (current new : Member) : Bool :=
  decide (RangeIntersect current.entry.start current.entry.stop new.entry.start new.entry.stop) &&
    !(new.entry.shared && current.entry.shared)

def Member.mark (new current : Member) : Member :=
  if current.conflicts new then { current with conflict := true } else current

def insertMember (new : Member) : List Member → List Member
  | [] => [new]
  | current :: rest =>
    if current.entry.start > new.entry.start then new :: current :: rest
    else current :: insertMember new rest

/-- `RtlpAddToMergedRange` with `RTL_RANGE_LIST_ADD_IF_CONFLICT`, on entries of both kinds. -/
def addToRestored (merged : Restored) (entry : Entry) : NtStatus × Restored :=
  let new := entry.toMember
  let conflicting := merged.members.any (·.conflicts new)
  (.success,
    { start := if entry.start < merged.start then entry.start else merged.start
      stop := if entry.stop > merged.stop then entry.stop else merged.stop
      shared := if merged.shared && !entry.shared then false else merged.shared
      members := insertMember { new with conflict := new.conflict || conflicting }
        (merged.members.map (Member.mark new)) })

/-- What the loop of `RtlpDeleteFromMergedRange` leaves: the new entries, or those built
when an allocation failed and the members it had not come to. -/
inductive Dismantled where
  | done (keepList : List Entry)
  | failed (keepList : List Entry) (rest : List Range)

def dismantle (allocations : Nat) (keepList : List Entry) : List Range → Dismantled
  | [] => .done keepList
  | current :: rest =>
    match addRangeWithin allocations keepList current with
    | some (allocations, keepList) => dismantle allocations keepList rest
    | none => .failed keepList rest

/-- An entry of the main list after the call. -/
inductive Slot where
  | entry (entry : Entry)
  | restored (header : Restored)
  deriving DecidableEq, Repr

/-- `RtlpDeleteFromMergedRange`; `left` are the members without the deleted one. -/
def deleteFromMergedRangeWithin (allocations : Nat) (header : Merged) (delete : Range)
    (left : List Range) : NtStatus × List Slot :=
  match dismantle allocations [] left with
  | .done keepList => (.success, keepList.map .entry)
  | .failed keepList rest =>
    let merged : Restored :=
      ⟨header.start, header.stop, header.shared, rest.map fun range => (Entry.allocated range).toMember⟩
    let merged := keepList.foldl (fun merged current => (addToRestored merged current).2) merged
    let (status, merged) := addToRestored merged (.allocated delete)
    (status, [.restored merged])

/-- Where the loop of `RtlDeleteRange` ends: the entries before and behind a plain entry
or a header that has the range. -/
inductive Found where
  | plain (before after : List Entry)
  | member (before : List Entry) (header : Merged) (delete : Range) (after : List Entry)

def Found.behind (current : Entry) : Found → Found
  | plain before after => plain (current :: before) after
  | member before header delete after => member (current :: before) header delete after

def findRange (start stop owner : Nat) : List Entry → Option Found
  | [] => none
  | current :: rest =>
    let later := (findRange start stop owner rest).map (Found.behind current)
    if stop < current.start then none
    else
      match current with
      | .merged header =>
        if start ≥ header.start ∧ stop ≤ header.stop then
          match header.members.find? (isRange start stop owner) with
          | some delete => some (.member [] header delete rest)
          | none => later
        else later
      | .allocated range =>
        if isRange start stop owner range then some (.plain [] rest) else later

/-- `RtlDeleteRange` while `allocations` allocations succeed: the status, the entries and
the count. -/
def rtlDeleteRangeWithin (allocations : Nat) (list : RangeList) (start stop owner : Nat) :
    NtStatus × List Slot × Nat :=
  match findRange start stop owner list.entries with
  | none => (.rangeNotFound, list.entries.map .entry, list.count)
  | some (.plain before after) => (.success, (before ++ after).map .entry, list.count - 1)
  | some (.member before header delete after) =>
    let (status, slots) := deleteFromMergedRangeWithin allocations header delete
      (header.members.eraseP (isRange start stop owner))
    (status, before.map .entry ++ slots ++ after.map .entry,
      if status.ntSuccess then list.count - 1 else list.count)

/-! ## When an allocation fails -/

/-- The allocations that adding the ranges to a list takes. -/
def conversions (keepList : List Entry) : List Range → Nat
  | [] => 0
  | current :: rest =>
    (if converts current keepList then 1 else 0) +
      conversions (rtlpAddRange keepList current 1).2 rest

/-- The allocations `RtlDeleteRange` makes when none fails. -/
def allocationsNeeded (start stop owner : Nat) (entries : List Entry) : Nat :=
  match findRange start stop owner entries with
  | some (.member _ header _ _) => conversions [] (header.members.eraseP (isRange start stop owner))
  | _ => 0

/-- Whether an allocation fails is a matter of how many there are. -/
theorem dismantle_ends (left : List Range) (allocations : Nat) (keepList : List Entry) :
    (allocations < conversions keepList left →
      ∃ keepList' rest, dismantle allocations keepList left = .failed keepList' rest) ∧
    (conversions keepList left ≤ allocations → dismantle allocations keepList left =
      .done (left.foldl (fun keepList current => (rtlpAddRange keepList current 1).2) keepList)) := by
  induction left generalizing allocations keepList with
  | nil => exact ⟨nofun, fun _ => rfl⟩
  | cons current rest ih =>
    unfold conversions dismantle addRangeWithin
    by_cases needs : converts current keepList
    · rw [if_pos needs, if_pos needs, Nat.add_comm]
      cases allocations with
      | zero => exact ⟨fun _ => ⟨keepList, rest, rfl⟩, nofun⟩
      | succ left =>
        rw [Nat.add_lt_add_iff_right, Nat.add_le_add_iff_right]
        exact ih left _
    · rw [if_neg needs, if_neg needs, Nat.zero_add]
      exact ih allocations _

/-- **A deletion whose allocation fails is never undone.**  Whenever an allocation inside
`RtlDeleteRange` fails the call returns the status of the last insertion, which is
`STATUS_SUCCESS`, and counts one range less. -/
theorem rtlDeleteRange_not_restored (list : RangeList) (start stop owner allocations : Nat)
    (fails : allocations < allocationsNeeded start stop owner list.entries) :
    let result := rtlDeleteRangeWithin allocations list start stop owner
    result.1 = .success ∧ result.2.2 = list.count - 1 ∧
      ¬(result.1 = .insufficientResources ∧ result.2.1 = list.entries.map .entry ∧
        result.2.2 = list.count) := by
  unfold allocationsNeeded at fails
  unfold rtlDeleteRangeWithin
  split at fails
  · next found =>
    obtain ⟨keepList, rest, failed⟩ := (dismantle_ends ..).1 fails
    rw [found]
    dsimp only
    unfold deleteFromMergedRangeWithin
    rw [failed]
    exact ⟨rfl, rfl, fun all => NtStatus.noConfusion all.1⟩
  · exact absurd fails (Nat.not_lt_zero _)

/-- Three ranges one of which meets both others: when it is deleted nothing is converted;
when an outer one is deleted, the other outer one meets the middle one. -/
def chained : RangeList :=
  ⟨[.merged ⟨0, 30, false, [⟨⟨0, 10, 0, false, 0, 1⟩, true⟩, ⟨⟨5, 25, 0, false, 0, 2⟩, true⟩,
    ⟨⟨20, 30, 0, false, 0, 3⟩, true⟩]⟩], 3, 3⟩

/-- **The range from 5 to 25 is lost**: deleting the range from 20 to 30 without pool
succeeds and leaves it in the list, with a count of 2 and the range from 0 to 10. -/
theorem rtlDeleteRange_loses_range : rtlDeleteRangeWithin 0 chained 20 30 3 = (.success,
      [.restored ⟨0, 30, false, [⟨.allocated ⟨⟨0, 10, 0, false, 0, 1⟩, false⟩, false⟩,
        ⟨.allocated ⟨⟨20, 30, 0, false, 0, 3⟩, true⟩, true⟩]⟩], 2) := by
  decide

theorem rtlDeleteRange_not_restored_chained : 0 < allocationsNeeded 20 30 3 chained.entries ∧
      (rtlDeleteRangeWithin 0 chained 20 30 3).1 = .success :=
  ⟨by decide, (rtlDeleteRange_not_restored chained 20 30 3 0 (by decide)).1⟩

/-! ## When none fails -/

/-- The entries `RtlDeleteRange` leaves then. -/
def Found.left (start stop owner : Nat) : Found → List Entry
  | plain before after => before ++ after
  | member before header _ after =>
    before ++ rtlpDeleteFromMergedRange (header.members.eraseP (isRange start stop owner)) ++ after

/-- The loop of `RtlDeleteRange` split where it ends. -/
theorem deleteLoop_eq (start stop owner : Nat) (entries : List Entry) :
    deleteLoop start stop owner entries =
      (findRange start stop owner entries).map (Found.left start stop owner) := by
  induction entries with
  | nil => rfl
  | cons current rest ih =>
    have later : (deleteLoop start stop owner rest).map (current :: ·) =
        ((findRange start stop owner rest).map (Found.behind current)).map
          (Found.left start stop owner) := by
      rw [ih]
      cases findRange start stop owner rest with
      | none => rfl
      | some found => cases found <;> rfl
    unfold deleteLoop findRange
    split
    · rfl
    cases current with
    | allocated =>
      dsimp only
      split
      · rfl
      · exact later
    | merged header =>
      dsimp only
      split
      · unfold removeFirst
        cases found : header.members.find? (isRange start stop owner) with
        | none =>
          rw [if_neg (by simpa using found)]
          exact later
        | some delete =>
          rw [if_pos (List.any_eq_true.mpr
            ⟨delete, List.mem_of_find?_eq_some found, List.find?_some found⟩)]
          rfl
      · exact later

/-- **With enough pool the call is the one without failures.** -/
theorem rtlDeleteRangeWithin_enough {allocations start stop owner : Nat} {list : RangeList}
    (enough : allocationsNeeded start stop owner list.entries ≤ allocations) :
    rtlDeleteRangeWithin allocations list start stop owner =
      let result := rtlDeleteRange list start stop owner
      (result.1, result.2.entries.map .entry, result.2.count) := by
  unfold allocationsNeeded at enough
  unfold rtlDeleteRangeWithin rtlDeleteRange
  rw [deleteLoop_eq]
  cases found : findRange start stop owner list.entries with
  | none => rfl
  | some place =>
    cases place with
    | plain => rfl
    | member =>
      rw [found] at enough
      dsimp only
      unfold deleteFromMergedRangeWithin
      rw [(dismantle_ends ..).2 enough, Option.map_some, Found.left]
      dsimp only
      rw [List.map_append, List.map_append]
      rfl

end Ntoskrnl.Rtl.Ranges
