/-
# Ntoskrnl.FsRtl.Mcb.Model -- the base MCB of `largemcb.c`

An MCB maps virtual to logical block numbers.  It is an array of pairs, each with the
VBN behind its run and the LBN of its first sector; a run starts where the pair before
it ends, and an LBN of -1 makes it a hole.

`mapping` holds the `PairCount` valid pairs.  `MaximumPairCount` is the size of the
array they are in; what the array holds behind them is never read.  VBNs, LBNs and
counts are `ULONG`s; the routines get them as `LONGLONG`s whose high part is zero.
-/
import Ntoskrnl.Base.Types
import Ntoskrnl.Lib.Bisect

namespace Ntoskrnl.FsRtl.Mcb

open Base Lib.Bisect
set_option autoImplicit false

/-! ## Pairs and what they imply -/

structure Mapping where
  nextVbn : Nat
  lbn : Nat
  deriving DecidableEq, Repr

structure BaseMcb where
  maximumPairCount : Nat
  mapping : List Mapping
  deriving DecidableEq, Repr

/-- `UNUSED_LBN`, -1 as an `LBN`. -/
def unusedLbn : Nat := 0xffffffff

def initialMaximumPairCount : Nat := 15

variable (mcb : BaseMcb) (index : Nat)

namespace BaseMcb

def pairCount : Nat :=
  mcb.mapping.length

/-- The pair at an index of the array. -/
def pair : Mapping :=
  mcb.mapping.getD index ⟨0, 0⟩

def setLbn (lbn : Nat) : BaseMcb :=
  { mcb with mapping := mcb.mapping.modify index fun pair => { pair with lbn := lbn } }

def setNextVbn (nextVbn : Nat) : BaseMcb :=
  { mcb with mapping := mcb.mapping.modify index fun pair => { pair with nextVbn := nextVbn } }

end BaseMcb

def startingVbn : Nat :=
  if index = 0 then 0 else (mcb.pair (index - 1)).nextVbn

def endingVbn : Nat :=
  ulongSub (mcb.pair index).nextVbn 1

def previousEndingVbn : Nat :=
  if index = 0 then 0xffffffff else endingVbn mcb (index - 1)

def nextStartingVbn : Nat :=
  if mcb.pairCount ≤ index then 0 else startingVbn mcb (index + 1)

def startingLbn : Nat :=
  (mcb.pair index).lbn

def endingLbn : Nat :=
  if startingLbn mcb index = unusedLbn then unusedLbn
  else
    ulongSub (ulongSub (ulong ((mcb.pair index).lbn + (mcb.pair index).nextVbn))
      (startingVbn mcb index)) 1

def previousEndingLbn : Nat :=
  if index = 0 then unusedLbn else endingLbn mcb (index - 1)

def nextStartingLbn : Nat :=
  if ulongSub mcb.pairCount 1 ≤ index then unusedLbn else startingLbn mcb (index + 1)

def sectorsWithinRun : Nat :=
  ulong (ulongSub (endingVbn mcb index) (startingVbn mcb index) + 1)

/-! ## The private routines -/

/-- The index of the pair with the VBN, by binary search; `none` is `FALSE`, with the
index set to `PairCount`.  The indices are `LONG`s; their sum leaves the type with 2^30 pairs,
which no pool block holds. -/
def fsRtlFindLargeIndex (vbn : Nat) : Option Nat :=
  bisect (startingVbn mcb) (endingVbn mcb) vbn 0 ((mcb.pairCount : Int) - 1)

/-- The new slots are written before they are read; here they hold zeros. -/
def fsRtlAddLargeEntry (whereToAddIndex amountToAdd : Nat) : BaseMcb where
  maximumPairCount :=
    if mcb.maximumPairCount < mcb.pairCount + amountToAdd then
      if mcb.maximumPairCount < 2048 then mcb.maximumPairCount * 2
      else mcb.maximumPairCount + 2048
    else mcb.maximumPairCount
  mapping := mcb.mapping.take whereToAddIndex ++
    List.replicate amountToAdd ⟨0, 0⟩ ++ mcb.mapping.drop whereToAddIndex

def fsRtlRemoveLargeEntry (whereToRemoveIndex amountToRemove : Nat) : BaseMcb :=
  { mcb with
    mapping :=
      if whereToRemoveIndex + amountToRemove < mcb.pairCount then
        mcb.mapping.take whereToRemoveIndex ++
          mcb.mapping.drop (whereToRemoveIndex + amountToRemove)
      else mcb.mapping.take (mcb.pairCount - amountToRemove) }

/-! ## Initialising, resetting and truncating -/

def fsRtlInitializeBaseMcb : BaseMcb :=
  ⟨initialMaximumPairCount, []⟩

def fsRtlResetBaseMcb : BaseMcb :=
  { mcb with mapping := [] }

/-- The pairs `FsRtlTruncateBaseMcb` keeps. -/
def truncatePairs (vbn : Nat) : BaseMcb :=
  if vbn = 0 then { mcb with mapping := [] }
  else if mcb.pairCount = 0 then mcb
  else
    match fsRtlFindLargeIndex mcb (vbn - 1) with
    | none => mcb
    | some index =>
      if startingLbn mcb index = unusedLbn then { mcb with mapping := mcb.mapping.take index }
      else
        let mcb := { mcb with mapping := mcb.mapping.take (index + 1) }
        if vbn < nextStartingVbn mcb index then mcb.setNextVbn index vbn else mcb

/-- A smaller array for few pairs, when the pool has one (`allocated`). -/
def shrinkMapping (allocated : Bool) : BaseMcb :=
  if mcb.pairCount < mcb.maximumPairCount / 4 ∧
      initialMaximumPairCount < mcb.maximumPairCount ∧ allocated then
    { mcb with maximumPairCount := max (mcb.pairCount * 2) initialMaximumPairCount }
  else mcb

def fsRtlTruncateBaseMcb (largeVbn : Nat) (allocated : Bool) : BaseMcb :=
  shrinkMapping (truncatePairs mcb (ulong largeVbn)) allocated

/-! ## Adding -/

structure Request where
  vbn : Nat
  lbn : Nat
  sectorCount : Nat
  deriving DecidableEq, Repr

def Request.lastVbn (request : Request) : Nat :=
  ulongSub (ulong (request.vbn + request.sectorCount)) 1

/-- The request without the part that is mapped already; `error` is a `try_return`. -/
def trimRequest (request : Request) : Except Bool Request :=
  match fsRtlFindLargeIndex mcb request.vbn with
  | none => .ok request
  | some index =>
    if startingLbn mcb index ≠ unusedLbn then
      if request.lbn ≠
          ulong (startingLbn mcb index + ulongSub request.vbn (startingVbn mcb index)) then
        .error false
      else if request.lastVbn ≤ endingVbn mcb index then .error true
      else
        .ok ⟨nextStartingVbn mcb index, ulong (endingLbn mcb index + 1),
          ulong (ulongSub request.lastVbn (nextStartingVbn mcb index) + 1)⟩
    else
      match fsRtlFindLargeIndex mcb request.lastVbn with
      | none => .ok request
      | some endIndex =>
        if index = ulongSub endIndex 1 then
          if startingLbn mcb endIndex ≠
              ulong (request.lbn + ulongSub (startingVbn mcb endIndex) request.vbn) then
            .error false
          else
            .ok { request with
              sectorCount := ulongSub (startingVbn mcb endIndex) request.vbn }
        else .ok request

/-- A run behind the last pair, where `index` is `PairCount`. -/
def appendRun (request : Request) : BaseMcb :=
  if index ≠ 0 ∧ ulong (previousEndingVbn mcb index + 1) = request.vbn ∧
      ulong (previousEndingLbn mcb index + 1) = request.lbn then
    mcb.setNextVbn (mcb.pairCount - 1)
      (ulong ((mcb.pair (mcb.pairCount - 1)).nextVbn + request.sectorCount))
  else if request.vbn = 0 ∨ ulong (previousEndingVbn mcb index + 1) = request.vbn then
    ((fsRtlAddLargeEntry mcb index 1).setLbn index request.lbn).setNextVbn index
      (ulong (request.vbn + request.sectorCount))
  else
    ((((fsRtlAddLargeEntry mcb index 2).setLbn index unusedLbn).setNextVbn index
      request.vbn).setLbn (index + 1) request.lbn).setNextVbn (index + 1)
      (ulong (request.vbn + request.sectorCount))

/-- A run inside the hole at `index`. -/
def fillHole (request : Request) : BaseMcb :=
  let lbnBehind := ulong (request.lbn + request.sectorCount)
  if startingVbn mcb index < request.vbn ∧ request.lastVbn < endingVbn mcb index then
    ((((fsRtlAddLargeEntry mcb index 2).setLbn index unusedLbn).setNextVbn index
      request.vbn).setLbn (index + 1) request.lbn).setNextVbn (index + 1)
      (ulong (request.vbn + request.sectorCount))
  else if startingVbn mcb index = request.vbn ∧ request.lastVbn < endingVbn mcb index then
    if ulong (previousEndingLbn mcb index + 1) = request.lbn then
      mcb.setNextVbn (index - 1) (ulong ((mcb.pair (index - 1)).nextVbn + request.sectorCount))
    else
      ((fsRtlAddLargeEntry mcb index 1).setLbn index request.lbn).setNextVbn index
        (ulong (request.vbn + request.sectorCount))
  else if startingVbn mcb index < request.vbn ∧ request.lastVbn = endingVbn mcb index then
    if nextStartingLbn mcb index = lbnBehind then
      (mcb.setNextVbn index request.vbn).setLbn (index + 1) request.lbn
    else
      (((fsRtlAddLargeEntry mcb index 1).setLbn index unusedLbn).setNextVbn index
        request.vbn).setLbn (index + 1) request.lbn
  else if ulong (previousEndingLbn mcb index + 1) = request.lbn ∧
      nextStartingLbn mcb index = lbnBehind then
    fsRtlRemoveLargeEntry (mcb.setNextVbn (index - 1) (mcb.pair (index + 1)).nextVbn) index 2
  else if nextStartingLbn mcb index = lbnBehind then
    fsRtlRemoveLargeEntry (mcb.setLbn (index + 1) request.lbn) index 1
  else if ulong (previousEndingLbn mcb index + 1) = request.lbn then
    fsRtlRemoveLargeEntry (mcb.setNextVbn (index - 1) (mcb.pair index).nextVbn) index 1
  else mcb.setLbn index request.lbn

/-- The part of `FsRtlAddBaseMcbEntry` behind the trimming. -/
def addRun (request : Request) : Bool × BaseMcb :=
  if mcb.pairCount = 0 ∨ ulong (previousEndingVbn mcb mcb.pairCount + 1) ≤ request.vbn then
    (true, appendRun mcb mcb.pairCount request)
  else
    match fsRtlFindLargeIndex mcb request.vbn with
    | none => (true, appendRun mcb mcb.pairCount request)
    | some index =>
      if startingLbn mcb index = unusedLbn ∧ startingVbn mcb index ≤ request.vbn ∧
          request.lastVbn ≤ endingVbn mcb index then
        (true, fillHole mcb index request)
      else (false, mcb)

def fsRtlAddBaseMcbEntry (largeVbn largeLbn largeSectorCount : Nat) : Bool × BaseMcb :=
  match trimRequest mcb ⟨ulong largeVbn, ulong largeLbn, ulong largeSectorCount⟩ with
  | .error result => (result, mcb)
  | .ok request => addRun mcb request

/-! ## Removing -/

/-- `PreviousEndingLbn != UNUSED_LBN` or the first pair: no hole in front. -/
def PreviousNotHole : Prop :=
  previousEndingLbn mcb index ≠ unusedLbn ∨ index = 0

instance : Decidable (PreviousNotHole mcb index) :=
  inferInstanceAs (Decidable (_ ∨ _))

def removeEntireRun : BaseMcb :=
  if startingLbn mcb index = unusedLbn then mcb
  else if index = ulongSub mcb.pairCount 1 then
    if PreviousNotHole mcb index then fsRtlRemoveLargeEntry mcb index 1
    else fsRtlRemoveLargeEntry mcb (index - 1) 2
  else if PreviousNotHole mcb index ∧ nextStartingLbn mcb index ≠ unusedLbn then
    mcb.setLbn index unusedLbn
  else if PreviousNotHole mcb index ∧ nextStartingLbn mcb index = unusedLbn then
    fsRtlRemoveLargeEntry mcb index 1
  else if previousEndingLbn mcb index = unusedLbn ∧ nextStartingLbn mcb index ≠ unusedLbn then
    fsRtlRemoveLargeEntry (mcb.setLbn index unusedLbn) (index - 1) 1
  else fsRtlRemoveLargeEntry mcb (index - 1) 2

def removeFirstPart (vbn sectorCount : Nat) : BaseMcb :=
  if startingLbn mcb index = unusedLbn then mcb
  else if PreviousNotHole mcb index then
    let mcb := ((fsRtlAddLargeEntry mcb index 1).setLbn index unusedLbn).setNextVbn index
      (ulong (ulong vbn + ulong sectorCount))
    mcb.setLbn (index + 1) (ulong ((mcb.pair (index + 1)).lbn + ulong sectorCount))
  else
    let mcb := mcb.setNextVbn (index - 1)
      (ulong ((mcb.pair (index - 1)).nextVbn + ulong sectorCount))
    mcb.setLbn index (ulong ((mcb.pair index).lbn + ulong sectorCount))

def removeLastPart (amountToRemove : Nat) : BaseMcb :=
  let shorter := ulongSub (mcb.pair index).nextVbn amountToRemove
  if startingLbn mcb index = unusedLbn then mcb
  else if index = ulongSub mcb.pairCount 1 then mcb.setNextVbn index shorter
  else if nextStartingLbn mcb index = unusedLbn then mcb.setNextVbn index shorter
  else
    (((fsRtlAddLargeEntry mcb (index + 1) 1).setLbn (index + 1) unusedLbn).setNextVbn (index + 1)
      (mcb.pair index).nextVbn).setNextVbn index shorter

def removeMiddle (vbn sectorCount : Nat) : BaseMcb :=
  if startingLbn mcb index = unusedLbn then mcb
  else
    let mcb := fsRtlAddLargeEntry mcb index 2
    let mcb := (mcb.setLbn index (mcb.pair (index + 2)).lbn).setNextVbn index (ulong vbn)
    let mcb := (mcb.setLbn (index + 1) unusedLbn).setNextVbn (index + 1)
      (ulong (ulong vbn + ulong sectorCount))
    mcb.setLbn (index + 2) (ulong ((mcb.pair (index + 2)).lbn +
      ulong (sectorsWithinRun mcb index + sectorsWithinRun mcb (index + 1))))

/-- One pass of the removal loop, with the amount it removes. -/
def removeRun (vbn sectorCount : Nat) : BaseMcb × Nat :=
  if startingVbn mcb index = vbn ∧ endingVbn mcb index < vbn + sectorCount then
    (removeEntireRun mcb index, sectorsWithinRun mcb index)
  else if startingVbn mcb index = vbn then (removeFirstPart mcb index vbn sectorCount, sectorCount)
  else if endingVbn mcb index < vbn + sectorCount then
    let amountToRemove := ulong (ulongSub (endingVbn mcb index) (ulong vbn) + 1)
    (removeLastPart mcb index amountToRemove, amountToRemove)
  else (removeMiddle mcb index vbn sectorCount, sectorCount)

/-- The loop `while (SectorCount > 0)`.  `none` is a loop that does not end: a pass
removed nothing, or more than was asked for. -/
def removeLoop (mcb : BaseMcb) (vbn sectorCount : Nat) : Option BaseMcb :=
  if sectorCount = 0 then some mcb
  else
    match fsRtlFindLargeIndex mcb (ulong vbn) with
    | none => some mcb
    | some index =>
      let pass := removeRun mcb index vbn sectorCount
      if 0 < pass.2 ∧ pass.2 ≤ sectorCount then
        removeLoop pass.1 (vbn + pass.2) (sectorCount - pass.2)
      else none
termination_by sectorCount
decreasing_by
  exact Nat.sub_lt (Nat.pos_of_ne_zero ‹_›) (And.left ‹_›)

def fsRtlRemoveBaseMcbEntry (vbn sectorCount : Nat) : Option BaseMcb :=
  if vbn = 0 ∧ 0 < mcb.pairCount ∧ (mcb.pair (mcb.pairCount - 1)).nextVbn ≤ sectorCount then
    some { mcb with mapping := [] }
  else removeLoop mcb vbn sectorCount

/-! ## Splitting, looking up, enumerating -/

/-- The room `FsRtlSplitBaseMcb` makes, with the index from which pairs are shifted. -/
def openHole (vbn amount : Nat) : BaseMcb × Nat :=
  if startingLbn mcb index = unusedLbn then (mcb, index)
  else if startingVbn mcb index = vbn ∧ index ≠ 0 ∧ previousEndingLbn mcb index = unusedLbn then
    (mcb, index - 1)
  else if startingVbn mcb index = vbn then
    (((fsRtlAddLargeEntry mcb index 1).setLbn index unusedLbn).setNextVbn index
      (ulong (vbn + amount)), index + 1)
  else
    let mcb := fsRtlAddLargeEntry mcb index 2
    let mcb := (mcb.setLbn index (mcb.pair (index + 2)).lbn).setNextVbn index vbn
    let mcb := (mcb.setLbn (index + 1) unusedLbn).setNextVbn (index + 1) (ulong (vbn + amount))
    (mcb.setLbn (index + 2) (ulongSub (ulong ((mcb.pair (index + 2)).lbn +
      startingVbn mcb (index + 1))) (startingVbn mcb index)), index + 2)

/-- The loop `for (i = Index; i < PairCount; i += 1)`. -/
def shiftPairs (amount : Nat) : BaseMcb :=
  { mcb with
    mapping := mcb.mapping.take index ++ (mcb.mapping.drop index).map fun pair =>
      { pair with nextVbn := ulong (pair.nextVbn + amount) } }

def fsRtlSplitBaseMcb (largeVbn largeAmount : Nat) : Bool × BaseMcb :=
  match fsRtlFindLargeIndex mcb (ulong largeVbn) with
  | none => (false, mcb)
  | some index =>
    let opened := openHole mcb index (ulong largeVbn) (ulong largeAmount)
    (true, shiftPairs opened.1 opened.2 (ulong largeAmount))

/-- The outputs of `FsRtlLookupBaseMcbEntry`; an LBN of a hole is -1. -/
structure Lookup where
  largeLbn : Int
  largeSectorCount : Nat
  largeStartingLbn : Int
  largeCountFromStartingLbn : Nat
  index : Nat
  deriving DecidableEq, Repr

/-- `none` is `FALSE`. -/
def fsRtlLookupBaseMcbEntry (largeVbn : Nat) : Option Lookup :=
  match fsRtlFindLargeIndex mcb (ulong largeVbn) with
  | none => none
  | some index =>
    let isHole := startingLbn mcb index = unusedLbn
    some
      { largeLbn :=
          if isHole then -1
          else ulong (startingLbn mcb index + ulongSub (ulong largeVbn) (startingVbn mcb index))
        largeSectorCount := ulong (ulongSub (endingVbn mcb index) (ulong largeVbn) + 1)
        largeStartingLbn := if isHole then -1 else startingLbn mcb index
        largeCountFromStartingLbn :=
          ulong (ulongSub (endingVbn mcb index) (startingVbn mcb index) + 1)
        index := index }

/-- The outputs of `FsRtlGetNextBaseMcbEntry`. -/
structure NextEntry where
  largeVbn : Int
  largeLbn : Int
  largeSectorCount : Nat
  deriving DecidableEq, Repr

/-- A `LONGLONG` from its low part: the high part is -1 if the low one is. -/
def extended (low : Nat) : Int :=
  if low = unusedLbn then -1 else low

/-- `none` is `FALSE`. -/
def fsRtlGetNextBaseMcbEntry (runIndex : Nat) : Option NextEntry :=
  if runIndex < mcb.pairCount then
    some ⟨extended (startingVbn mcb runIndex), extended (startingLbn mcb runIndex),
      sectorsWithinRun mcb runIndex⟩
  else none

end Ntoskrnl.FsRtl.Mcb
