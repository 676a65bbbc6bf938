/-
# Ntoskrnl.FsRtl.Oplock.Model -- opportunistic locks on one file

`fsrtl/oplock.c`. The package keeps, for one file, a bit-encoded state, the Irp
and file object of an exclusive oplock, the Irps of the level II oplocks and the
Irps that wait for a break. Every routine is a function from the structure to
the new structure and the events it causes outside: references taken and given
back, Irps completed, completion routines called. The fast mutex makes a call
atomic and is not modelled.

The `Cancel` flag of an Irp changes under the package's feet, so it is not part
of the Irp: `cancelled` says which Irps have it set during the call. `pool` says
whether `FsRtlpAllocatePool` finds memory; it raises if not.
-/
import Mathlib.Data.Finset.Card
import Ntoskrnl.Rtl.Security.Acl

namespace Ntoskrnl.FsRtl.Oplock

open Rtl.Security (flagOn)

set_option autoImplicit false

/-! ## The state bits -/

/-- `OPLOCK_STATE`. -/
abbrev OplockState := BitVec 32

def noOplock : OplockState := 0x00000001
def levelIOplock : OplockState := 0x00000002
def batchOplock : OplockState := 0x00000004
def filterOplock : OplockState := 0x00000008
def levelIIOplock : OplockState := 0x00000010
def exclusiveFlag : OplockState := 0x00000040
def pendingFlag : OplockState := 0x00000080
def breakToII : OplockState := 0x00000100
def breakToNone : OplockState := 0x00000200
def breakToIIToNone : OplockState := 0x00000400
def closePending : OplockState := 0x00000800
def oplockBreakMask : OplockState := 0x00000f00

def noOplocksHeld : OplockState := noOplock
def opFilterReqPending : OplockState := filterOplock ||| exclusiveFlag ||| pendingFlag
def oplockIIGranted : OplockState := levelIIOplock

/-! ## Irps -/

abbrev FileObject := Nat

/-- The file system control codes the package tells apart. -/
inductive FsControlCode where
  | requestOplockLevel1
  | requestBatchOplock
  | requestFilterOplock
  | requestOplockLevel2
  | oplockBreakAcknowledge
  | oplockBreakAckNo2
  | opbatchAckClosePending
  | oplockBreakNotify
  | setZeroData
  | other
deriving DecidableEq, Repr

/-- The information classes of a set-information request that are told apart. -/
inductive FileInformationClass where
  | endOfFile
  | allocation
  | rename
  | link
  | shortName
  | other
deriving DecidableEq, Repr

/-- The major function of an Irp with the parameters the package reads. The
parameters are a union: a set-information request also has a word where the
control code of a file system control would be. -/
inductive MajorFunction where
  | create (desiredAccess shareAccess options : BitVec 32)
  | read
  | write
  | flushBuffers
  | cleanup
  | lockControl
  | setInformation (informationClass : FileInformationClass) (advanceOnly : Bool)
      (fsControlCode : FsControlCode)
  | fileSystemControl (fsControlCode : FsControlCode)
  | other
deriving DecidableEq, Repr

structure Irp where
  id : Nat
  fileObject : FileObject
  majorFunction : MajorFunction
  pagingIo : Bool
  synchronous : Bool
  inputOperation : Bool
deriving DecidableEq, Repr

def fileReadAttributes : BitVec 32 := 0x00000080
def fileWriteAttributes : BitVec 32 := 0x00000100
def fileReadData : BitVec 32 := 0x00000001
def fileReadEa : BitVec 32 := 0x00000008
def fileExecute : BitVec 32 := 0x00000020
def synchronize : BitVec 32 := 0x00100000
def readControl : BitVec 32 := 0x00020000
def filterOplockValidFlags : BitVec 32 :=
  fileReadAttributes ||| fileWriteAttributes ||| fileReadData ||| fileReadEa ||| fileExecute |||
    synchronize ||| readControl
def fileShareRead : BitVec 32 := 0x00000001
def fileShareWrite : BitVec 32 := 0x00000002
def fileShareDelete : BitVec 32 := 0x00000004
def fileCompleteIfOplocked : BitVec 32 := 0x00000100
def fileReserveOpfilter : BitVec 32 := 0x00100000
def fileSupersede : BitVec 32 := 0
def fileOverwrite : BitVec 32 := 4
def fileOverwriteIf : BitVec 32 := 5

/-! ## What a call does -/

inductive Status where
  | success
  | pending
  | cancelled
  | oplockNotGranted
  | invalidOplockProtocol
  | oplockBreakInProgress
  | invalidParameter
deriving DecidableEq, Repr

/-- `IoStatus.Information` of a completed oplock Irp. -/
inductive BreakInformation where
  | brokenToLevel2
  | brokenToNone
deriving DecidableEq, Repr

/-- What a call does outside the oplock structure. An Irp that is granted is
held by the package until it is broken; an Irp that is queued waits until it is
released, that is, its completion routine is called. `information` is absent
where the source leaves the field of the Irp as it was. `fault` is a null
pointer followed. -/
inductive Event where
  | referenced (fileObject : FileObject)
  | dereferenced (fileObject : FileObject)
  | granted (irp : Irp)
  | broken (irp : Irp) (status : Status) (information : Option BreakInformation)
  | answered (irp : Irp) (status : Status) (information : Option BreakInformation)
  | queued (irp : Irp)
  | released (irp : Irp) (status : Status)
  | fault
deriving DecidableEq, Repr

/-- How a call ends: with a status, with the thread blocked on the event of a
waiting Irp, or with a raised exception. -/
inductive Reply where
  | returns (status : Status)
  | blocks
  | raises
deriving DecidableEq, Repr

/-- `NONOPAQUE_OPLOCK`. -/
structure NonopaqueOplock where
  irpExclusiveOplock : Option Irp
  fileObject : Option FileObject
  irpOplocksII : List Irp
  waitingIrps : List Irp
  oplockState : OplockState
deriving DecidableEq, Repr

/-- `FsRtlAllocateOplock`. -/
def allocateOplock : NonopaqueOplock := ⟨none, none, [], [], noOplocksHeld⟩

/-- What a routine leaves: the structure, the events and the reply. -/
structure Outcome where
  oplock : NonopaqueOplock
  events : List Event
  reply : Reply
deriving DecidableEq, Repr

/-- Events that come before those of the rest of a routine. -/
def Outcome.after (outcome : Outcome) (events : List Event) : Outcome :=
  { outcome with events := events ++ outcome.events }

/-- `ObDereferenceObject` on a field of the structure. -/
def dereference : Option FileObject → List Event
  | some fileObject => [.dereferenced fileObject]
  | none => [.fault]

section Routines

variable (cancelled : Irp → Bool) (pool : Bool) (o : NonopaqueOplock) (irp : Irp) (completionRoutine : Bool)

/-- `FsRtlRemoveAndCompleteIrp`, after the entry is off its list. -/
def removeAndCompleteIrp : List Event :=
  [.dereferenced irp.fileObject,
    .broken irp (if cancelled irp then .cancelled else .success) (some .brokenToNone)]

/-- `FsRtlRemoveAndCompleteWaitIrp`, after the entry is off its list. -/
def removeAndCompleteWaitIrp : Event :=
  .released irp (if cancelled irp then .cancelled else .success)

/-- The loop that takes the waiting Irps off the list and completes them. -/
def completeWaitingIrps : List Event :=
  o.waitingIrps.map (removeAndCompleteWaitIrp cancelled)

/-! ## Cancel routines -/

/-- `FsRtlCancelWaitIrp`. -/
def cancelWaitIrp : NonopaqueOplock × List Event :=
  ({ o with waitingIrps := o.waitingIrps.filter (fun irp => !cancelled irp) },
    (o.waitingIrps.filter cancelled).map (removeAndCompleteWaitIrp cancelled))

/-- `FsRtlCancelOplockIIIrp`. -/
def cancelOplockIIIrp : NonopaqueOplock × List Event :=
  let gone := o.irpOplocksII.filter cancelled
  let left := o.irpOplocksII.filter (fun irp => !cancelled irp)
  ({ o with
      irpOplocksII := left
      oplockState := if gone ≠ [] ∧ left = [] then noOplocksHeld else o.oplockState },
    gone.flatMap (removeAndCompleteIrp cancelled))

/-- The oplock is given up and every waiting Irp completed: the end of a
cancelled exclusive oplock. -/
def releaseOplock : NonopaqueOplock :=
  { o with
    irpExclusiveOplock := none
    fileObject := none
    waitingIrps := []
    oplockState := noOplocksHeld }

/-- `FsRtlCancelExclusiveIrp`. -/
def cancelExclusiveIrp : NonopaqueOplock × List Event :=
  match o.irpExclusiveOplock with
  | none => (o, [])
  | some irp =>
    if cancelled irp then
      (releaseOplock o,
        .broken irp .cancelled none :: dereference o.fileObject ++ completeWaitingIrps cancelled o)
    else (o, [])

/-! ## Waiting for a break -/

/-- `FsRtlWaitOnIrp`. Without a completion routine the thread blocks. -/
def waitOnIrp : Outcome :=
  if !pool then ⟨o, [], .raises⟩
  else
    let o' := { o with waitingIrps := o.waitingIrps ++ [irp] }
    if cancelled irp then
      let (o'', events) := cancelWaitIrp cancelled o'
      ⟨o'', .queued irp :: events, .returns (if completionRoutine then .pending else .cancelled)⟩
    else ⟨o', [.queued irp], if completionRoutine then .returns .pending else .blocks⟩

/-- The end of the two break routines: an open that does not want to block is
told so, everything else waits. -/
def waitForBreak : Outcome :=
  match irp.majorFunction with
  | .create _ _ options =>
    if flagOn options fileCompleteIfOplocked then ⟨o, [], .returns .oplockBreakInProgress⟩
    else waitOnIrp cancelled pool o irp completionRoutine
  | _ => waitOnIrp cancelled pool o irp completionRoutine

/-! ## Requests -/

/-- A level II oplock makes way for an exclusive one. Only the first Irp goes: the
source asserts that there is no other. -/
def yieldOplockII : List Irp × List Event :=
  if o.oplockState = oplockIIGranted then
    match o.irpOplocksII with
    | [] => ([], [.fault])
    | first :: rest => (rest, removeAndCompleteIrp cancelled first)
  else (o.irpOplocksII, [])

/-- `FsRtlRequestExclusiveOplock`, once the structure is allocated. -/
def requestExclusiveOplock (fileObject : FileObject) (irp? : Option Irp)
    (nextOplockState : OplockState) : Outcome :=
  if nextOplockState = opFilterReqPending then
    ⟨{ o with
        irpExclusiveOplock := irp?
        fileObject := some fileObject
        oplockState := opFilterReqPending }, [], .returns .success⟩
  else if flagOn o.oplockState (levelIIOplock ||| noOplock ||| pendingFlag) then
    match irp? with
    | none => ⟨o, [.fault], .raises⟩
    | some irp =>
      let (left, events) := yieldOplockII cancelled o
      let o' := { o with
        irpExclusiveOplock := some irp
        fileObject := some fileObject
        irpOplocksII := left
        oplockState := nextOplockState }
      let events' := events ++ [.granted irp, .referenced fileObject]
      if cancelled irp then
        let (o'', events'') := cancelExclusiveIrp cancelled o'
        ⟨o'', events' ++ events'', .returns .pending⟩
      else ⟨o', events', .returns .pending⟩
  else
    ⟨o, irp?.toList.map (.answered · .oplockNotGranted none), .returns .oplockNotGranted⟩

/-- `FsRtlRequestOplockII`, once the structure is allocated. -/
def requestOplockII : Outcome :=
  if flagOn o.oplockState (noOplock ||| levelIIOplock) then
    let o' := { o with
      irpOplocksII := irp :: o.irpOplocksII
      oplockState := oplockIIGranted }
    let events := [.granted irp, .referenced irp.fileObject]
    if cancelled irp then
      let (o'', events') := cancelOplockIIIrp cancelled o'
      ⟨o'', events ++ events', .returns .pending⟩
    else ⟨o', events, .returns .pending⟩
  else ⟨o, [.answered irp .oplockNotGranted none], .returns .oplockNotGranted⟩

/-! ## Acknowledgements -/

/-- The end of `FsRtlAcknowledgeOplockBreak`: the waiting Irps are completed and
the file object is forgotten. -/
def endBreak (dereferenceFileObject : Bool) (status : Status) : Outcome :=
  ⟨{ o with waitingIrps := [], fileObject := none },
    completeWaitingIrps cancelled o ++ (if dereferenceFileObject then dereference o.fileObject else []),
    .returns status⟩

/-- `FsRtlAcknowledgeOplockBreak`. -/
def acknowledgeOplockBreak (grantLevelII : Bool) : Outcome :=
  if o.fileObject ≠ some irp.fileObject then
    ⟨o, [.answered irp .invalidOplockProtocol none], .returns .invalidOplockProtocol⟩
  else if grantLevelII && flagOn o.oplockState breakToII then
    let o' := { o with
      irpOplocksII := irp :: o.irpOplocksII
      oplockState := oplockIIGranted }
    let (o'', events) := if cancelled irp then cancelOplockIIIrp cancelled o' else (o', [])
    (endBreak cancelled o'' false .pending).after (.granted irp :: events)
  else if flagOn o.oplockState (breakToII ||| breakToNone) then
    (endBreak cancelled { o with oplockState := noOplocksHeld } true .success).after
      [.answered irp .success none]
  else if flagOn o.oplockState breakToIIToNone then
    (endBreak cancelled { o with oplockState := noOplocksHeld } true .success).after
      [.answered irp .success (some .brokenToNone)]
  else ⟨o, [.answered irp .invalidOplockProtocol none], .returns .invalidOplockProtocol⟩

/-- `FsRtlOpBatchBreakClosePending`. -/
def opBatchBreakClosePending : Outcome :=
  if o.fileObject ≠ some irp.fileObject then
    ⟨o, [.answered irp .invalidOplockProtocol none], .returns .invalidOplockProtocol⟩
  else if flagOn o.oplockState (breakToII ||| breakToNone ||| breakToIIToNone) then
    if flagOn o.oplockState (levelIOplock ||| pendingFlag) then
      ⟨{ o with waitingIrps := [], fileObject := none, oplockState := noOplocksHeld },
        (if flagOn o.oplockState levelIOplock then dereference o.fileObject else []) ++
          completeWaitingIrps cancelled o ++ [.answered irp .success none],
        .returns .success⟩
    else
      ⟨{ o with oplockState := (o.oplockState &&& ~~~oplockBreakMask) ||| closePending },
        [.answered irp .success none], .returns .success⟩
  else ⟨o, [.answered irp .invalidOplockProtocol none], .returns .invalidOplockProtocol⟩

/-- `FsRtlOplockBreakNotify`. The Irp waits with a completion routine. -/
def oplockBreakNotify : Outcome :=
  if !flagOn o.oplockState oplockBreakMask then
    ⟨o, [.answered irp .success none], .returns .success⟩
  else if flagOn o.oplockState pendingFlag then
    ⟨{ o with oplockState := noOplocksHeld, fileObject := none },
      [.answered irp .success none], .returns .success⟩
  else waitOnIrp cancelled pool o irp true

/-! ## Cleanup and breaks -/

/-- `FsRtlOplockCleanup`. -/
def oplockCleanup (fileObject : FileObject) : NonopaqueOplock × List Event :=
  if o.oplockState = noOplocksHeld then (o, [])
  else if o.oplockState = oplockIIGranted then
    let gone := o.irpOplocksII.filter (fun irp => irp.fileObject = fileObject)
    let left := o.irpOplocksII.filter (fun irp => irp.fileObject ≠ fileObject)
    ({ o with
        irpOplocksII := left
        oplockState := if left = [] then noOplocksHeld else o.oplockState },
      gone.flatMap (removeAndCompleteIrp cancelled))
  else if o.fileObject = some fileObject then
    let (irpExclusive, events) :=
      if !flagOn o.oplockState (oplockBreakMask ||| pendingFlag) then
        match o.irpExclusiveOplock with
        | none => (none, [.fault])
        | some irp => (none, [.broken irp .success (some .brokenToNone)])
      else (o.irpExclusiveOplock, [])
    ({ o with
        irpExclusiveOplock := irpExclusive
        fileObject := none
        waitingIrps := []
        oplockState := noOplocksHeld },
      events ++ (if !flagOn o.oplockState pendingFlag then [.dereferenced fileObject] else []) ++
        completeWaitingIrps cancelled o)
  else (o, [])

/-- An exclusive oplock whose Irp turns out to be cancelled is given up on the
spot, in either break routine. -/
def breakCancelled (irpExclusive : Irp) : Outcome :=
  ⟨releaseOplock o,
    .broken irpExclusive .cancelled (some .brokenToNone) :: dereference o.fileObject ++
      completeWaitingIrps cancelled o,
    .returns .success⟩

/-- `FsRtlOplockBreakToII`. -/
def oplockBreakToII : Outcome :=
  if !flagOn o.oplockState exclusiveFlag then ⟨o, [], .returns .success⟩
  else if o.fileObject = some irp.fileObject then ⟨o, [], .returns .success⟩
  else if !flagOn o.oplockState (pendingFlag ||| oplockBreakMask) then
    match o.irpExclusiveOplock with
    | none => ⟨o, [.fault], .raises⟩
    | some irpExclusive =>
      if cancelled irpExclusive then breakCancelled cancelled o irpExclusive
      else
        let (breakFlag, information) :=
          if flagOn o.oplockState (levelIOplock ||| batchOplock) then
            (breakToII, BreakInformation.brokenToLevel2)
          else (breakToNone, BreakInformation.brokenToNone)
        (waitForBreak cancelled pool
            { o with irpExclusiveOplock := none, oplockState := o.oplockState ||| breakFlag }
            irp completionRoutine).after
          [.broken irpExclusive .success (some information)]
  else if flagOn o.oplockState pendingFlag then
    ⟨{ o with oplockState := noOplocksHeld, fileObject := none }, [], .returns .success⟩
  else waitForBreak cancelled pool o irp completionRoutine

/-- The tests of `FsRtlOplockBreakToNone` once a break is under way: its owner
goes on, everyone else waits. -/
def waitUnlessOwner : Outcome :=
  if o.fileObject = some irp.fileObject then ⟨o, [], .returns .success⟩
  else waitForBreak cancelled pool o irp completionRoutine

/-- `FsRtlOplockBreakToNone`. -/
def oplockBreakToNone : Outcome :=
  if o.oplockState = noOplocksHeld then ⟨o, [], .returns .success⟩
  else if !flagOn o.oplockState (levelIIOplock ||| pendingFlag ||| oplockBreakMask) then
    match o.irpExclusiveOplock with
    | none => ⟨o, [.fault], .raises⟩
    | some irpExclusive =>
      if cancelled irpExclusive then breakCancelled cancelled o irpExclusive
      else
        (waitUnlessOwner cancelled pool
            { o with irpExclusiveOplock := none, oplockState := o.oplockState ||| breakToNone }
            irp completionRoutine).after
          [.broken irpExclusive .success (some .brokenToNone)]
  else if o.oplockState = oplockIIGranted then
    ⟨{ o with irpOplocksII := [], oplockState := noOplocksHeld },
      o.irpOplocksII.flatMap (removeAndCompleteIrp cancelled), .returns .success⟩
  else if flagOn o.oplockState breakToII then
    waitUnlessOwner cancelled pool
      { o with oplockState := (o.oplockState &&& ~~~breakToII) ||| breakToIIToNone } irp completionRoutine
  else if flagOn o.oplockState pendingFlag then
    ⟨{ o with oplockState := noOplocksHeld, fileObject := none }, [], .returns .success⟩
  else waitUnlessOwner cancelled pool o irp completionRoutine

/-! ## The two entry points

The pointer the file system passes is null until the first request allocates the
structure. -/

/-- What an entry point leaves behind. -/
structure Result where
  oplock : Option NonopaqueOplock
  events : List Event
  reply : Reply
deriving DecidableEq, Repr

def Outcome.result (outcome : Outcome) : Result :=
  ⟨some outcome.oplock, outcome.events, outcome.reply⟩

inductive BreakLevel where
  | levelII
  | none
deriving DecidableEq, Repr

/-- The inner switch on a set-information request: does the class break to none? -/
def setInformationBreaks (oplockState : OplockState) (advanceOnly : Bool) :
    FileInformationClass → Bool
  | .endOfFile => !advanceOnly
  | .allocation => true
  | .rename => flagOn oplockState (batchOplock ||| filterOplock)
  | .link => flagOn oplockState (batchOplock ||| filterOplock)
  | .shortName => flagOn oplockState (batchOplock ||| filterOplock)
  | .other => false

/-- The switch of `FsRtlCheckOplock` on the major function. -/
def breakLevel (oplockState : OplockState) : MajorFunction → Option BreakLevel
  | .create desiredAccess shareAccess options =>
    if !flagOn desiredAccess (~~~(fileReadAttributes ||| fileWriteAttributes ||| synchronize)) &&
        !flagOn options fileReserveOpfilter then none
    else if flagOn oplockState filterOplock && !flagOn desiredAccess (~~~filterOplockValidFlags) &&
        flagOn shareAccess fileShareRead then none
    else
      let createDisposition := (options >>> 24) &&& 0x000000ff
      if createDisposition = fileSupersede ∨ createDisposition = fileOverwrite ∨
          createDisposition = fileOverwriteIf ∨ flagOn options fileReserveOpfilter then some .none
      else some .levelII
  | .read => if !flagOn oplockState filterOplock then some .levelII else none
  | .flushBuffers => some .levelII
  | .cleanup => none
  | .lockControl => if flagOn oplockState filterOplock then none else some .none
  | .write => some .none
  | .setInformation informationClass advanceOnly fsControlCode =>
    -- The source falls through into the test of the control code.
    if setInformationBreaks oplockState advanceOnly informationClass ∨
        fsControlCode = .setZeroData then some .none
    else none
  | .fileSystemControl fsControlCode => if fsControlCode = .setZeroData then some .none else none
  | .other => none

/-- `FsRtlCheckOplock` on an allocated structure with oplocks held, for an Irp
that is not a cleanup. -/
def checkHeldOplock : Outcome :=
  match breakLevel o.oplockState irp.majorFunction with
  | some .levelII =>
    if o.oplockState ≠ oplockIIGranted ∧ o.fileObject ≠ some irp.fileObject then
      oplockBreakToII cancelled pool o irp completionRoutine
    else ⟨o, [], .returns .success⟩
  | some .none =>
    if o.oplockState = oplockIIGranted ∨ o.fileObject ≠ some irp.fileObject then
      oplockBreakToNone cancelled pool o irp completionRoutine
    else ⟨o, [], .returns .success⟩
  | none => ⟨o, [], .returns .success⟩

/-- `FsRtlCheckOplock`. -/
def checkOplock (oplock : Option NonopaqueOplock) (irp : Irp) (completionRoutine : Bool) : Result :=
  match oplock with
  | none => ⟨none, [], .returns .success⟩
  | some o =>
    if irp.pagingIo then ⟨some o, [], .returns .success⟩
    else if o.oplockState = noOplocksHeld then ⟨some o, [], .returns .success⟩
    else if irp.majorFunction = .cleanup then
      let (o', events) := oplockCleanup cancelled o irp.fileObject
      ⟨some o', events, .returns .success⟩
    else (checkHeldOplock cancelled pool o irp completionRoutine).result

/-- A request that allocates the structure if there is none. -/
def withOplock (oplock : Option NonopaqueOplock) (request : NonopaqueOplock → Outcome) : Result :=
  match oplock with
  | some o => (request o).result
  | none => if pool then (request allocateOplock).result else ⟨none, [], .raises⟩

/-- The requests on which `FsRtlOplockFsctrl` does not even look at the oplock. -/
def refusesRequest (irp : Irp) (cleanupComplete : Bool) : Bool :=
  irp.synchronous || irp.inputOperation || cleanupComplete

/-- The three exclusive requests of `FsRtlOplockFsctrl`. -/
def exclusiveRequest (oplock : Option NonopaqueOplock) (irp : Irp) (openCount : Nat) (cleanupComplete : Bool)
    (oplockType : OplockState) : Result :=
  if openCount ≠ 1 ∨ refusesRequest irp cleanupComplete then
    ⟨oplock, [.answered irp .oplockNotGranted none], .returns .oplockNotGranted⟩
  else
    withOplock pool oplock fun o =>
      requestExclusiveOplock cancelled o irp.fileObject (some irp) (oplockType ||| exclusiveFlag)

/-- An acknowledgement or break notify, which answers at once if there is no
structure. -/
def onOplock (oplock : Option NonopaqueOplock) (irp : Irp) (status : Status) (routine : NonopaqueOplock → Outcome) :
    Result :=
  match oplock with
  | some o => (routine o).result
  | none => ⟨none, [.answered irp status none], .returns status⟩

/-- `FsRtlOplockFsctrl`. -/
def oplockFsctrl (oplock : Option NonopaqueOplock) (irp : Irp) (openCount : Nat) (cleanupComplete : Bool) :
    Result :=
  match irp.majorFunction with
  | .create desiredAccess shareAccess _ =>
    let shareAll := fileShareRead ||| fileShareWrite ||| fileShareDelete
    if openCount ≠ 1 ∨ flagOn desiredAccess (~~~fileReadAttributes) ∨
        shareAccess &&& shareAll ≠ shareAll then
      ⟨oplock, [], .returns .oplockNotGranted⟩
    else
      withOplock pool oplock fun o =>
        requestExclusiveOplock cancelled o irp.fileObject none opFilterReqPending
  | .fileSystemControl .requestFilterOplock =>
    exclusiveRequest cancelled pool oplock irp openCount cleanupComplete (levelIOplock * 2 * 2)
  | .fileSystemControl .requestBatchOplock =>
    exclusiveRequest cancelled pool oplock irp openCount cleanupComplete (levelIOplock * 2)
  | .fileSystemControl .requestOplockLevel1 =>
    exclusiveRequest cancelled pool oplock irp openCount cleanupComplete levelIOplock
  | .fileSystemControl .requestOplockLevel2 =>
    if openCount ≠ 0 ∨ refusesRequest irp cleanupComplete then
      ⟨oplock, [.answered irp .oplockNotGranted none], .returns .oplockNotGranted⟩
    else withOplock pool oplock fun o => requestOplockII cancelled o irp
  | .fileSystemControl .oplockBreakAcknowledge =>
    onOplock oplock irp .invalidOplockProtocol fun o => acknowledgeOplockBreak cancelled o irp true
  | .fileSystemControl .oplockBreakAckNo2 =>
    onOplock oplock irp .invalidOplockProtocol fun o => acknowledgeOplockBreak cancelled o irp false
  | .fileSystemControl .opbatchAckClosePending =>
    onOplock oplock irp .invalidOplockProtocol fun o => opBatchBreakClosePending cancelled o irp
  | .fileSystemControl .oplockBreakNotify =>
    onOplock oplock irp .success fun o => oplockBreakNotify cancelled pool o irp
  | _ => ⟨oplock, [.answered irp .invalidParameter none], .returns .invalidParameter⟩

end Routines

/-- `IoCancelIrp`, with the flag already set, on an Irp the package may hold: the
cancel routine is the one its list put there. -/
def cancelIrp (cancelled : Irp → Bool) (o : NonopaqueOplock) (irp : Irp) : NonopaqueOplock × List Event :=
  if o.irpExclusiveOplock = some irp then cancelExclusiveIrp cancelled o
  else if irp ∈ o.irpOplocksII then cancelOplockIIIrp cancelled o
  else if irp ∈ o.waitingIrps then cancelWaitIrp cancelled o
  else (o, [])

/-! ## The file system around the oplock

`FsRtlOplockFsctrl` gets from the file system the number of open file objects,
for an exclusive request, or of byte-range locks, for a level II request. A file
object is open from its create to its cleanup, and a create that reserves a filter
oplock counts itself. -/

/-- One file: its oplock, the file objects open on it and those whose cleanup is
complete, the Irps whose `Cancel` flag is set, and everything that happened. -/
structure System where
  oplock : Option NonopaqueOplock
  opened : Finset FileObject
  cleaned : Finset FileObject
  cancelled : Finset Irp
  trace : List Event

def System.start : System := ⟨none, ∅, ∅, ∅, []⟩

inductive Call where
  /-- A create succeeds and its file object is counted. -/
  | openFile (fileObject : FileObject)
  /-- `FsRtlOplockFsctrl`, with the number of byte-range locks on the file. -/
  | fsctrl (irp : Irp) (locks : Nat) (pool : Bool)
  /-- `FsRtlCheckOplock`. -/
  | check (irp : Irp) (completionRoutine pool : Bool)
  /-- `IoCancelIrp`. -/
  | cancel (irp : Irp)
deriving DecidableEq, Repr

variable (s : System)

variable (irp : Irp) (locks : Nat) (calls : List Call)

def System.openCount : Nat :=
  match irp.majorFunction with
  | .create _ _ _ => s.opened.card + 1
  | .fileSystemControl .requestOplockLevel2 => locks
  | _ => s.opened.card

/-- The system after an entry point has returned. -/
def System.absorb (result : Result) : System :=
  { s with oplock := result.oplock, trace := s.trace ++ result.events }

/-- A cleanup takes its file object out of the count. -/
def System.close : System :=
  if irp.majorFunction = .cleanup then
    { s with opened := s.opened.erase irp.fileObject, cleaned := insert irp.fileObject s.cleaned }
  else s

def System.fsctrlResult (pool : Bool) : Result :=
  oplockFsctrl (fun irp => irp ∈ s.cancelled) pool s.oplock irp (s.openCount irp locks)
    (irp.fileObject ∈ s.cleaned)

def System.checkResult (completionRoutine pool : Bool) : Result :=
  checkOplock (fun irp => irp ∈ s.cancelled) pool s.oplock irp completionRoutine

def System.cancelResult : Result :=
  match s.oplock with
  | none => ⟨none, [], .returns .success⟩
  | some o =>
    let (o', events) := cancelIrp (fun other => other ∈ insert irp s.cancelled) o irp
    ⟨some o', events, .returns .success⟩

def System.result : Call → Result
  | .openFile _ => ⟨s.oplock, [], .returns .success⟩
  | .fsctrl irp locks pool => s.fsctrlResult irp locks pool
  | .check irp completionRoutine pool => s.checkResult irp completionRoutine pool
  | .cancel irp => s.cancelResult irp

def System.call (c : Call) : System :=
  let s' := s.absorb (s.result c)
  match c with
  | .openFile fileObject => { s' with opened := insert fileObject s'.opened }
  | .fsctrl _ _ _ => s'
  | .check irp _ _ => s'.close irp
  | .cancel irp => { s' with cancelled := insert irp s'.cancelled }

/-- The Irps the package holds. -/
def NonopaqueOplock.held (o : NonopaqueOplock) : List Irp :=
  o.irpExclusiveOplock.toList ++ o.irpOplocksII ++ o.waitingIrps

/-- What the I/O system and the file system guarantee of a call: the Irp is not
one the package still holds, a file object is opened once, requests come on file
objects that have been opened, and a cleanup is not paging I/O. -/
def Legal : Call → Prop
  | .openFile fileObject => fileObject ∉ s.opened ∧ fileObject ∉ s.cleaned
  | .fsctrl irp _ _ => (∀ o ∈ s.oplock, irp ∉ o.held) ∧
      match irp.majorFunction with
      | .create _ _ _ => irp.fileObject ∉ s.opened ∧ irp.fileObject ∉ s.cleaned
      | .fileSystemControl _ => irp.fileObject ∈ s.opened ∨ irp.fileObject ∈ s.cleaned
      | _ => False
  | .check irp _ _ => (∀ o ∈ s.oplock, irp ∉ o.held) ∧
      (irp.majorFunction = .cleanup → irp.pagingIo = false)
  | .cancel _ => True

instance decidableLegal : (c : Call) → Decidable (Legal s c)
  | .openFile fileObject =>
    inferInstanceAs (Decidable (fileObject ∉ s.opened ∧ fileObject ∉ s.cleaned))
  | .fsctrl irp _ _ =>
    haveI : Decidable (match irp.majorFunction with
        | .create _ _ _ => irp.fileObject ∉ s.opened ∧ irp.fileObject ∉ s.cleaned
        | .fileSystemControl _ => irp.fileObject ∈ s.opened ∨ irp.fileObject ∈ s.cleaned
        | _ => False) := by
      split <;> infer_instance
    inferInstanceAs (Decidable ((∀ o ∈ s.oplock, irp ∉ o.held) ∧ _))
  | .check irp _ _ =>
    inferInstanceAs (Decidable ((∀ o ∈ s.oplock, irp ∉ o.held) ∧
      (irp.majorFunction = .cleanup → irp.pagingIo = false)))
  | .cancel _ => isTrue trivial

def System.after : System := calls.foldl System.call System.start

@[simp]
theorem System.after_snoc (c : Call) :
    System.after (calls ++ [c]) = (System.after calls).call c := by
  rw [System.after, List.foldl_append]
  rfl

/-- Every call of the sequence is legal where it is made. -/
def LegalRun : Prop :=
  ∀ before c, before ++ [c] <+: calls → Legal (System.after before) c

end Ntoskrnl.FsRtl.Oplock
