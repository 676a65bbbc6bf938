/-
# Ntoskrnl.Rtl.Ranges.Model -- range lists

A range list is a sorted list of entries.  An entry is a range as the caller added
it, or a merged range: a header with a list of ranges that overlap.  `RtlAddRange`
turns the first entry it intersects into a merged one and moves every further entry
it reaches into it; deleting a member of a merged range dissolves it and adds the
others to a new list, which takes its place.

Lists are Lean lists, so `RemoveEntryList` and `InsertEntryList` are list
operations, and every allocation succeeds.  Of the public flags of a range the
shared bit is part of what the caller gave and the conflict bit is the list's own.
-/
import Ntoskrnl.Base.Types
import Mathlib.Data.List.Basic

namespace Ntoskrnl.Rtl.Ranges

open Base List

set_option autoImplicit false

/-! ## Entries -/

/-- What the caller gives for a range; `stop` is the field `End`. -/
structure Leaf where
  start : Nat
  stop : Nat
  attributes : Nat
  shared : Bool
  userData : Nat
  owner : Nat
  deriving DecidableEq, Repr

/-- An entry that is not merged; `conflict` is `RTL_RANGE_CONFLICT`. -/
structure Range extends Leaf where
  conflict : Bool
  deriving DecidableEq, Repr

/-- A merged entry with its members. -/
structure Merged where
  start : Nat
  stop : Nat
  shared : Bool
  members : List Range
  deriving DecidableEq, Repr

inductive Entry where
  | allocated (range : Range)
  | merged (header : Merged)
  deriving DecidableEq, Repr

namespace Entry

def start : Entry → Nat
  | allocated range => range.start
  | merged header => header.start

def stop : Entry → Nat
  | allocated range => range.stop
  | merged header => header.stop

def ranges : Entry → List Range
  | allocated range => [range]
  | merged header => header.members

end Entry

/-- `RTL_RANGE_LIST`.  `Count` and `Stamp` are `ULONG`s: the pool has no room for 2^32 ranges,
and the stamp is only compared with that of an iterator on the same list, which it meets again
after 2^32 changes. -/
structure RangeList where
  entries : List Entry
  count : Nat
  stamp : Nat
  deriving DecidableEq, Repr

def rtlInitializeRangeList : RangeList :=
  { entries := [], count := 0, stamp := 0 }

/-- `RTL_RANGE_LIST_ADD_IF_CONFLICT`. -/
def addIfConflict (flags : Nat) : Bool :=
  flags.testBit 0

/-- `RTL_RANGE_LIST_ADD_SHARED`. -/
def addShared (flags : Nat) : Bool :=
  flags.testBit 1

/-- `RANGE_DISJOINT`, on the limits of the two ranges. -/
def RangeDisjoint (aStart aEnd bStart bEnd : Nat) : Prop :=
  (aStart < bStart ∧ aEnd < bStart) ∨ (bStart < aStart ∧ bEnd < aStart)

instance (aStart aEnd bStart bEnd : Nat) : Decidable (RangeDisjoint aStart aEnd bStart bEnd) :=
  inferInstanceAs (Decidable (_ ∨ _))

/-- `RANGE_INTERSECT`. -/
def RangeIntersect (aStart aEnd bStart bEnd : Nat) : Prop :=
  ¬ RangeDisjoint aStart aEnd bStart bEnd

instance (aStart aEnd bStart bEnd : Nat) : Decidable (RangeIntersect aStart aEnd bStart bEnd) :=
  inferInstanceAs (Decidable (¬ _))

/-- Two ranges conflict when they intersect and are not both shared. -/
def conflicts (current entry : Range) : Bool :=
  decide (RangeIntersect current.start current.stop entry.start entry.stop) &&
    !(entry.shared && current.shared)

/-! ## Adding a range -/

/-- Set the conflict flag of a member that conflicts with the new range. -/
def markConflict (entry current : Range) : Range :=
  if conflicts current entry then { current with conflict := true } else current

/-- The members are sorted by start; an equal start goes behind. -/
def insertByStart (entry : Range) : List Range → List Range
  | [] => [entry]
  | current :: rest =>
    if current.start > entry.start then entry :: current :: rest
    else current :: insertByStart entry rest

def rtlpAddToMergedRange (merged : Merged) (entry : Range) (flags : Nat) : NtStatus × Merged :=
  let conflicting := merged.members.any (conflicts · entry)
  if conflicting && !addIfConflict flags then (.rangeListConflict, merged)
  else
    let entry := { entry with conflict := entry.conflict || conflicting }
    (.success,
      { start := if entry.start < merged.start then entry.start else merged.start
        stop := if entry.stop > merged.stop then entry.stop else merged.stop
        shared := if merged.shared && !entry.shared then false else merged.shared
        members := insertByStart entry (merged.members.map (markConflict entry)) })

/-- The header keeps the limits and the shared flag of the range it is made from. -/
def rtlpConvertToMergedRange (range : Range) : Merged :=
  { start := range.start, stop := range.stop, shared := range.shared, members := [range] }

/-- The first loop of `RtlpAddIntersectingRanges`: does the new range conflict with
an entry it reaches?  An entry of the main list is not tested for intersection. -/
def conflictsWithRest (entry : Range) : List Entry → Bool
  | [] => false
  | current :: rest =>
    if entry.stop < current.start then false
    else
      match current with
      | .merged header =>
        header.members.any (conflicts · entry) || conflictsWithRest entry rest
      | .allocated range => !(entry.shared && range.shared) || conflictsWithRest entry rest

/-- Add a range that was already taken out of the list; the status is only asserted. -/
def addIgnoringStatus (flags : Nat) (merged : Merged) (entry : Range) : Merged :=
  (rtlpAddToMergedRange merged entry flags).2

/-- The second loop of `RtlpAddIntersectingRanges`: move the entries the new range
reaches into the merged one. -/
def absorb (entry : Range) (flags : Nat) (merged : Merged) : List Entry → Merged × List Entry
  | [] => (merged, [])
  | current :: rest =>
    if entry.stop < current.start then (merged, current :: rest)
    else absorb entry flags (current.ranges.foldl (addIgnoringStatus flags) merged) rest

/-- The header the first intersecting entry becomes. -/
def Entry.toMerged : Entry → Merged
  | .allocated range => rtlpConvertToMergedRange range
  | .merged header => header

def rtlpAddIntersectingRanges (first : Entry) (rest : List Entry) (entry : Range) (flags : Nat) :
    NtStatus × List Entry :=
  if !addIfConflict flags && conflictsWithRest entry (first :: rest) then
    (.rangeListConflict, first :: rest)
  else
    let (merged, rest) := absorb entry flags first.toMerged rest
    let (status, merged) := rtlpAddToMergedRange merged entry flags
    (status, .merged merged :: rest)

/-- The loop of `RtlpAddRange`. -/
def addRangeLoop (entry : Range) (flags : Nat) : List Entry → NtStatus × List Entry
  | [] => (.success, [.allocated entry])
  | current :: rest =>
    if entry.stop < current.start then (.success, .allocated entry :: current :: rest)
    else if RangeIntersect entry.start entry.stop current.start current.stop then
      rtlpAddIntersectingRanges current rest entry flags
    else
      let (status, rest) := addRangeLoop entry flags rest
      (status, current :: rest)

def rtlpAddRange (entries : List Entry) (entry : Range) (flags : Nat) : NtStatus × List Entry :=
  addRangeLoop { entry with conflict := false } flags entries

/-- `RtlpCreateRangeListEntry`, with the shared flag `RtlAddRange` adds. -/
def newRange (start stop attributes flags userData owner : Nat) : Range :=
  { start := start
    stop := stop
    attributes := attributes
    shared := addShared flags
    userData := userData
    owner := owner
    conflict := false }

def rtlAddRange (list : RangeList) (start stop attributes flags userData owner : Nat) :
    NtStatus × RangeList :=
  if stop < start then (.invalidParameter, list)
  else
    let (status, entries) :=
      rtlpAddRange list.entries (newRange start stop attributes flags userData owner) flags
    if status.ntSuccess then (status, ⟨entries, list.count + 1, list.stamp + 1⟩)
    else (status, { list with entries := entries })

/-- `RtlpDeleteFromMergedRange`: the entries that take the place of a merged one,
from the members that are left. -/
def rtlpDeleteFromMergedRange (left : List Range) : List Entry :=
  left.foldl (fun keepList current => (rtlpAddRange keepList current 1).2) []

/-! ## What is in a list -/

def rangesOf (entries : List Entry) : List Range :=
  entries.flatMap Entry.ranges

/-- The ranges of a list as the callers gave them. -/
def leavesOf (entries : List Entry) : List Leaf :=
  (rangesOf entries).map Range.toLeaf

theorem leavesOf_cons (entry : Entry) (entries : List Entry) :
    leavesOf (entry :: entries) = entry.ranges.map Range.toLeaf ++ leavesOf entries := by
  simp [leavesOf, rangesOf]

theorem leavesOf_append (left right : List Entry) :
    leavesOf (left ++ right) = leavesOf left ++ leavesOf right := by
  simp [leavesOf, rangesOf]

theorem markConflict_toLeaf (entry current : Range) :
    (markConflict entry current).toLeaf = current.toLeaf := by
  unfold markConflict
  split <;> rfl

theorem map_markConflict_toLeaf (entry : Range) (members : List Range) :
    (members.map (markConflict entry)).map Range.toLeaf = members.map Range.toLeaf := by
  rw [map_map]
  exact map_congr_left fun current _ => markConflict_toLeaf entry current

theorem insertByStart_perm (entry : Range) (members : List Range) :
    (insertByStart entry members).Perm (entry :: members) := by
  induction members with
  | nil => exact .refl _
  | cons current rest ih =>
    unfold insertByStart
    split
    · exact .refl _
    · exact (ih.cons current).trans (.swap entry current rest)

variable {entry : Range} {flags : Nat}

variable {merged : Merged}

/-- An addition that succeeds adds the range to the members. -/
theorem addToMerged_leaves (success : (rtlpAddToMergedRange merged entry flags).1 = .success) :
    ((rtlpAddToMergedRange merged entry flags).2.members.map Range.toLeaf).Perm
      (entry.toLeaf :: merged.members.map Range.toLeaf) := by
  unfold rtlpAddToMergedRange at success ⊢
  dsimp only at success ⊢
  split
  · next fails =>
    rw [if_pos fails] at success
    exact nomatch success
  · refine ((insertByStart_perm _ _).map Range.toLeaf).trans ?_
    rw [map_cons, map_markConflict_toLeaf]

section Allowed

variable (allowed : addIfConflict flags)

include allowed

theorem addToMerged_success : (rtlpAddToMergedRange merged entry flags).1 = .success := by
  unfold rtlpAddToMergedRange
  rw [if_neg (by simp [allowed])]

/-- With conflicts allowed no range that is moved to another header is lost. -/
theorem foldl_addIgnoringStatus_leaves (ranges : List Range) (merged : Merged) :
    ((ranges.foldl (addIgnoringStatus flags) merged).members.map Range.toLeaf).Perm
      (ranges.map Range.toLeaf ++ merged.members.map Range.toLeaf) := by
  induction ranges generalizing merged with
  | nil => exact .refl _
  | cons range rest ih =>
    refine (ih _).trans ?_
    refine ((addToMerged_leaves (addToMerged_success allowed)).append_left _).trans ?_
    exact perm_middle

theorem absorb_leaves (entries : List Entry) (merged : Merged) :
    ((absorb entry flags merged entries).1.members.map Range.toLeaf ++
        leavesOf (absorb entry flags merged entries).2).Perm
      (merged.members.map Range.toLeaf ++ leavesOf entries) := by
  induction entries generalizing merged with
  | nil => exact .refl _
  | cons current rest ih =>
    unfold absorb
    split
    · exact .refl _
    · refine (ih _).trans ?_
      rw [leavesOf_cons, ← append_assoc]
      refine .append_right _ ?_
      exact (foldl_addIgnoringStatus_leaves allowed _ _).trans perm_append_comm

omit allowed in
theorem toMerged_members (entry : Entry) : entry.toMerged.members = entry.ranges := by
  cases entry <;> rfl

theorem addRangeLoop_leaves (entries : List Entry) :
    (leavesOf (addRangeLoop entry flags entries).2).Perm (entry.toLeaf :: leavesOf entries) := by
  induction entries with
  | nil => exact .refl _
  | cons current rest ih =>
    unfold addRangeLoop
    split
    · exact .refl _
    split
    · unfold rtlpAddIntersectingRanges
      rw [if_neg (by simp [allowed])]
      rw [leavesOf_cons, leavesOf_cons, ← toMerged_members current]
      refine ((addToMerged_leaves (addToMerged_success allowed)).append_right _).trans ?_
      exact (absorb_leaves allowed rest current.toMerged).cons _
    · rw [leavesOf_cons, leavesOf_cons]
      exact (ih.append_left _).trans perm_middle

end Allowed

/-- **Dissolving a merged range keeps the members that are left.** -/
theorem rtlpDeleteFromMergedRange_leaves (left : List Range) :
    (leavesOf (rtlpDeleteFromMergedRange left)).Perm (left.map Range.toLeaf) := by
  suffices general : ∀ keepList, (leavesOf (left.foldl
      (fun keepList current => (rtlpAddRange keepList current 1).2) keepList)).Perm
        (left.map Range.toLeaf ++ leavesOf keepList) by
    have kept := general []
    rwa [show leavesOf [] = [] from rfl, append_nil] at kept
  induction left with
  | nil => exact fun keepList => .refl _
  | cons range rest ih =>
    intro keepList
    refine (ih _).trans ?_
    refine ((addRangeLoop_leaves rfl keepList).append_left _).trans ?_
    exact perm_middle

/-! ## Deleting ranges -/

/-- The members without the first one that satisfies `p`. -/
def removeFirst (p : Range → Bool) (members : List Range) : Option (List Range) :=
  if members.any p then some (members.eraseP p) else none

def isRange (start stop owner : Nat) (range : Range) : Bool :=
  range.start == start && range.stop == stop && range.owner == owner

/-- The loop of `RtlDeleteRange`; `none` when nothing matches. -/
def deleteLoop (start stop owner : Nat) : List Entry → Option (List Entry)
  | [] => none
  | current :: rest =>
    if stop < current.start then none
    else
      match current with
      | .merged header =>
        if start ≥ header.start ∧ stop ≤ header.stop then
          match removeFirst (isRange start stop owner) header.members with
          | some left => some (rtlpDeleteFromMergedRange left ++ rest)
          | none => (deleteLoop start stop owner rest).map (current :: ·)
        else (deleteLoop start stop owner rest).map (current :: ·)
      | .allocated range =>
        if isRange start stop owner range then some rest
        else (deleteLoop start stop owner rest).map (current :: ·)

def rtlDeleteRange (list : RangeList) (start stop owner : Nat) : NtStatus × RangeList :=
  match deleteLoop start stop owner list.entries with
  | some entries => (.success, ⟨entries, list.count - 1, list.stamp + 1⟩)
  | none => (.rangeNotFound, list)

/-- One scan of `RtlDeleteOwnersRanges`: the list, the number of ranges deleted, and
whether the scan has to start again because a merged range was dissolved. -/
def ownersScan (owner : Nat) : List Entry → List Entry × Nat × Bool
  | [] => ([], 0, false)
  | .allocated range :: rest =>
    let scan := ownersScan owner rest
    if range.owner == owner then (scan.1, scan.2.1 + 1, scan.2.2)
    else (.allocated range :: scan.1, scan.2)
  | .merged header :: rest =>
    match removeFirst (fun range => range.owner == owner) header.members with
    | some left => (rtlpDeleteFromMergedRange left ++ rest, 1, true)
    | none =>
      let scan := ownersScan owner rest
      (.merged header :: scan.1, scan.2)

theorem removeFirst_length {p : Range → Bool} {members left : List Range}
    (found : removeFirst p members = some left) : left.length + 1 = members.length := by
  unfold removeFirst at found
  split at found
  · next some =>
    obtain rfl := Option.some.inj found
    obtain ⟨range, mem, holds⟩ := any_eq_true.mp some
    have positive := length_pos_of_mem mem
    rw [length_eraseP_of_mem mem holds]
    omega
  · exact nomatch found

/-- A scan deletes as many ranges as it counts, and at least one if it has to start
again. -/
theorem ownersScan_length (owner : Nat) (entries : List Entry) :
    (leavesOf (ownersScan owner entries).1).length + (ownersScan owner entries).2.1 =
        (leavesOf entries).length ∧
      ((ownersScan owner entries).2.2 → 0 < (ownersScan owner entries).2.1) := by
  induction entries with
  | nil => exact ⟨rfl, nofun⟩
  | cons entry rest ih =>
    obtain ⟨same, some⟩ := ih
    cases entry with
    | allocated =>
      unfold ownersScan
      split
      · rw [leavesOf_cons, length_append]
        exact ⟨by simp only [Entry.ranges, length_map, length_singleton]; omega,
          fun _ => Nat.succ_pos _⟩
      · rw [leavesOf_cons, leavesOf_cons, length_append, length_append]
        exact ⟨by dsimp only; omega, some⟩
    | merged =>
      unfold ownersScan
      split
      · next left found =>
        have fewer := removeFirst_length found
        have kept := (rtlpDeleteFromMergedRange_leaves left).length_eq
        rw [leavesOf_append, leavesOf_cons, length_append, length_append, kept]
        simp only [Entry.ranges, length_map]
        exact ⟨by omega, fun _ => Nat.one_pos⟩
      · rw [leavesOf_cons, leavesOf_cons, length_append, length_append]
        exact ⟨by dsimp only; omega, some⟩

/-- `RtlDeleteOwnersRanges` scans until a scan reaches the end of the list. -/
def ownersLoop (owner : Nat) (list : RangeList) : RangeList :=
  let scan := ownersScan owner list.entries
  let list' : RangeList := ⟨scan.1, list.count - scan.2.1, list.stamp + scan.2.1⟩
  if scan.2.2 then ownersLoop owner list' else list'
termination_by (leavesOf list.entries).length
decreasing_by
  obtain ⟨same, some⟩ := ownersScan_length owner list.entries
  have := some ‹_›
  show (leavesOf (ownersScan owner list.entries).1).length < _
  omega

def rtlDeleteOwnersRanges (list : RangeList) (owner : Nat) : NtStatus × RangeList :=
  (.success, ownersLoop owner list)

/-! ## Iterators -/

/-- Where an iterator is: at an entry of the main list, or at a member of the merged
entry `MergedHead` belongs to. -/
inductive Position where
  | main (index : Nat)
  | member (index k : Nat)
  deriving DecidableEq, Repr

/-- `RTL_RANGE_LIST_ITERATOR`; `current` is empty once the end was reached. -/
structure Iterator where
  current : Option Position
  stamp : Nat
  deriving DecidableEq, Repr

def rangeAt (entries : List Entry) : Position → Option Range
  | .main index =>
    match entries[index]? with
    | some (.allocated range) => some range
    | _ => none
  | .member index k =>
    match entries[index]? with
    | some (.merged header) => header.members[k]?
    | _ => none

/-- The position an entry of the main list is entered at. -/
def enter (entry : Entry) (index : Nat) (moveForwards : Bool) : Position :=
  match entry with
  | .allocated _ => .main index
  | .merged header => .member index (if moveForwards then 0 else header.members.length - 1)

/-- The end of `RtlGetFirstRange` and `RtlGetNextRange`: go to an entry of the main
list, or find that there is none. -/
def moveTo (list : RangeList) (index : Option Nat) (moveForwards : Bool) :
    NtStatus × Iterator × Option Range :=
  match index.bind fun index => list.entries[index]?.map fun entry => (entry, index) with
  | none => (.noMoreEntries, ⟨none, list.stamp⟩, none)
  | some (entry, index) =>
    let position := enter entry index moveForwards
    (.success, ⟨some position, list.stamp⟩, rangeAt list.entries position)

def rtlGetFirstRange (list : RangeList) : NtStatus × Iterator × Option Range :=
  moveTo list (some 0) true

/-- The index after or before another one; before the first there is none. -/
def nextIndex (index : Nat) (moveForwards : Bool) : Option Nat :=
  if moveForwards then some (index + 1)
  else if index = 0 then none
  else some (index - 1)

/-- The list changed if its stamp did. -/
def rtlGetNextRange (list : RangeList) (iterator : Iterator) (moveForwards : Bool) :
    NtStatus × Iterator × Option Range :=
  if list.stamp ≠ iterator.stamp then (.invalidParameter, iterator, none)
  else
    match iterator.current with
    | none => (.noMoreEntries, iterator, none)
    | some (.main index) => moveTo list (nextIndex index moveForwards) moveForwards
    | some (.member index k) =>
      match (nextIndex k moveForwards).bind fun k => rangeAt list.entries (.member index k) with
      | some range =>
        (.success, { iterator with
          current := (nextIndex k moveForwards).map (Position.member index) }, some range)
      | none => moveTo list (nextIndex index moveForwards) moveForwards

end Ntoskrnl.Rtl.Ranges
