/-
# Ntoskrnl.FsRtl.Oplock.Ownership -- the protocol behind the state bits

What the package is for, without bits and null pointers: nobody holds the file,
some file objects share it, a create has reserved it, one file object owns it, or
the owner has been told to give it up and others wait. `Ownership.oplock` lays
such a state out as the structure of the source, and `Moves` lists everything a
call can do to it.

Three accounts run through the trace of a file: references taken on file objects
and given back, oplock Irps granted and broken, Irps queued and released. Every
move of the protocol settles each of them against what the package holds.
-/
import Ntoskrnl.FsRtl.Oplock.Model
import Ntoskrnl.Lib.Ledger

namespace Ntoskrnl.FsRtl.Oplock

open Rtl.Security (flagOn)

set_option autoImplicit false

/-! ## States of the protocol -/

inductive Kind where
  | levelI
  | batch
  | filter
deriving DecidableEq, Repr

def Kind.bits : Kind → OplockState
  | .levelI => levelIOplock
  | .batch => batchOplock
  | .filter => filterOplock

/-- How far a break has come. -/
inductive Stage where
  | toII
  | toNone
  | toIIToNone
  | closePending
deriving DecidableEq, Repr

def Stage.bits : Stage → OplockState
  | .toII => breakToII
  | .toNone => breakToNone
  | .toIIToNone => breakToIIToNone
  | .closePending => Oplock.closePending

inductive Ownership where
  | idle
  | shared (first : Irp) (others : List Irp)
  | reserved (fileObject : FileObject)
  | exclusive (kind : Kind) (irp : Irp)
  | breaking (kind : Kind) (stage : Stage) (owner : FileObject) (waiting : List Irp)
deriving DecidableEq, Repr

variable {cancelled : Irp → Bool} {irp : Irp}

namespace Ownership

/-- The level II oplocks that are left, if any. -/
def ofShared : List Irp → Ownership
  | [] => .idle
  | first :: others => .shared first others

/-- The structure of the source in a state of the protocol. -/
def oplock : Ownership → NonopaqueOplock
  | .idle => ⟨none, none, [], [], noOplocksHeld⟩
  | .shared first others => ⟨none, none, first :: others, [], oplockIIGranted⟩
  | .reserved fileObject => ⟨none, some fileObject, [], [], opFilterReqPending⟩
  | .exclusive kind irp => ⟨some irp, some irp.fileObject, [], [], kind.bits ||| exclusiveFlag⟩
  | .breaking kind stage owner waiting =>
    ⟨none, some owner, [], waiting, kind.bits ||| exclusiveFlag ||| stage.bits⟩

def oplockIrps : Ownership → List Irp
  | .shared first others => first :: others
  | .exclusive _ irp => [irp]
  | _ => []

def waitingIrps : Ownership → List Irp
  | .breaking _ _ _ waiting => waiting
  | _ => []

/-- The file objects the package holds a reference on, one entry a reference. -/
def referenced : Ownership → List FileObject
  | .breaking _ _ owner _ => [owner]
  | ownership => ownership.oplockIrps.map Irp.fileObject

/-- `owner` has been told to give up its exclusive oplock and has not done so. -/
def BreakOf (owner : FileObject) : Ownership → Prop
  | .breaking _ _ owner' _ => owner' = owner
  | _ => False

@[simp]
theorem oplock_ofShared (irps : List Irp) : (ofShared irps).oplock =
      ⟨none, none, irps, [], if irps = [] then noOplocksHeld else oplockIIGranted⟩ := by
  cases irps <;> rfl

@[simp]
theorem oplockIrps_ofShared (irps : List Irp) : (ofShared irps).oplockIrps = irps := by
  cases irps <;> rfl

@[simp]
theorem waitingIrps_ofShared (irps : List Irp) : (ofShared irps).waitingIrps = [] := by
  cases irps <;> rfl

@[simp]
theorem referenced_ofShared (irps : List Irp) :
    (ofShared irps).referenced = irps.map Irp.fileObject := by
  cases irps <;> rfl

/-- No Irp the package holds is cancelled. -/
def Live (cancelled : Irp → Bool) (ownership : Ownership) : Prop :=
  ∀ irp ∈ ownership.oplockIrps ++ ownership.waitingIrps, cancelled irp = false

theorem Live.oplockIrps {ownership : Ownership} (live : ownership.Live cancelled) :
    ∀ irp ∈ ownership.oplockIrps, cancelled irp = false :=
  fun irp mem => live irp (List.mem_append_left _ mem)

theorem live_idle : Ownership.idle.Live cancelled := nofun

theorem live_reserved {fileObject : FileObject} :
    (Ownership.reserved fileObject).Live cancelled := nofun

theorem live_exclusive {kind : Kind} (live : cancelled irp = false) :
    (Ownership.exclusive kind irp).Live cancelled := by
  intro other mem
  rw [List.mem_singleton.mp mem]
  exact live

theorem live_ofShared {irps : List Irp} (live : ∀ irp ∈ irps, cancelled irp = false) :
    (ofShared irps).Live cancelled := by
  intro irp mem
  rw [oplockIrps_ofShared, waitingIrps_ofShared, List.append_nil] at mem
  exact live irp mem

theorem held_oplock (ownership : Ownership) :
    ownership.oplock.held = ownership.oplockIrps ++ ownership.waitingIrps := by
  cases ownership <;> simp [oplock, NonopaqueOplock.held, oplockIrps, waitingIrps]

end Ownership

/-! ## Moves of the protocol -/

/-- The call acknowledges a break of `owner`, or is the cleanup of `owner`. -/
def EndsBreak (owner : FileObject) : Call → Prop
  | .fsctrl irp _ _ => irp.fileObject = owner ∧
      (irp.majorFunction = .fileSystemControl .oplockBreakAcknowledge ∨
        irp.majorFunction = .fileSystemControl .oplockBreakAckNo2 ∨
        irp.majorFunction = .fileSystemControl .opbatchAckClosePending)
  | .check irp _ _ => irp.fileObject = owner ∧ irp.majorFunction = .cleanup
  | _ => False

/-- The Irp is one of the three exclusive requests. -/
def Irp.AsksExclusive (irp : Irp) : Prop :=
  irp.majorFunction = .fileSystemControl .requestOplockLevel1 ∨
    irp.majorFunction = .fileSystemControl .requestBatchOplock ∨
    irp.majorFunction = .fileSystemControl .requestFilterOplock

/-- Events that only answer Irps the package does not hold. -/
def Quiet (events : List Event) : Prop :=
  ∀ event ∈ events, ∃ irp status information, event = .answered irp status information

/-- Oplock Irps completed one after the other, each with its reference given
back. -/
inductive Breaks : List Irp → List Event → Prop where
  | nil : Breaks [] []
  | cons {irp : Irp} {irps : List Irp} {events : List Event} (status : Status)
      (information : Option BreakInformation) (rest : Breaks irps events) :
      Breaks (irp :: irps)
        (.dereferenced irp.fileObject :: .broken irp status information :: events)

/-- What becomes of an Irp that has to wait: nothing if there is no memory or it
does not want to, else it is queued, and at once released again if it is
cancelled. -/
inductive Waits (irp : Irp) (waiting : List Irp) : List Event → List Irp → Prop where
  | refused : Waits irp waiting [] waiting
  | queued (fresh : irp ∉ waiting) : Waits irp waiting [.queued irp] (waiting ++ [irp])
  | withdrawn (fresh : irp ∉ waiting) :
      Waits irp waiting [.queued irp, .released irp .cancelled] waiting

/-- A break is over: every waiting Irp is released. -/
def released (waiting : List Irp) : List Event := waiting.map (.released · .success)

/-- The states in which an exclusive request is granted and leaves no level II
oplock behind. -/
def Free (a : Ownership) : Prop :=
  a = .idle ∨ (∃ other, a = .reserved other) ∨ ∃ other, a = .shared other []

/-- Everything a call can do to the ownership of the file. Oplocks are granted to
file objects that are open. -/
inductive Moves (c : Call) (isOpen : FileObject → Prop) : Ownership → List Event → Ownership → Prop where
  | stays {a : Ownership} {events : List Event} (quiet : Quiet events) : Moves c isOpen a events a
  | reserves {a : Ownership} (fileObject : FileObject)
      (free : a = .idle ∨ ∃ other, a = .reserved other) : Moves c isOpen a [] (.reserved fileObject)
  | unreserves (fileObject : FileObject) : Moves c isOpen (.reserved fileObject) [] .idle
  | grantsII (irps : List Irp) (irp : Irp) (opened : isOpen irp.fileObject) :
      Moves c isOpen (.ofShared irps) [.granted irp, .referenced irp.fileObject] (.shared irp irps)
  | grantsIICancelled (irps : List Irp) (irp : Irp) (information : Option BreakInformation) :
      Moves c isOpen (.ofShared irps)
        [.granted irp, .referenced irp.fileObject, .dereferenced irp.fileObject,
          .broken irp .cancelled information] (.ofShared irps)
  | grants {a : Ownership} {events : List Event} (kind : Kind) (irp : Irp)
      (asks : irp.AsksExclusive) (opened : isOpen irp.fileObject) (free : Free a)
      (breaks : Breaks a.oplockIrps events) :
      Moves c isOpen a (events ++ [.granted irp, .referenced irp.fileObject]) (.exclusive kind irp)
  | grantsCancelled {a : Ownership} {events : List Event} (irp : Irp)
      (information : Option BreakInformation)
      (free : Free a)
      (breaks : Breaks a.oplockIrps events) :
      Moves c isOpen a (events ++ [.granted irp, .referenced irp.fileObject, .broken irp .cancelled information,
        .dereferenced irp.fileObject]) .idle
  | dropsII {irps gone left : List Irp} {events : List Event} (split : irps.Perm (gone ++ left))
      (breaks : Breaks gone events) : Moves c isOpen (.ofShared irps) events (.ofShared left)
  | drops (kind : Kind) (irp : Irp) (status : Status) (information : Option BreakInformation) :
      Moves c isOpen (.exclusive kind irp) [.broken irp status information, .dereferenced irp.fileObject] .idle
  | begins {kind : Kind} {irp : Irp} {events : List Event} {waiting : List Irp} (stage : Stage)
      (other : Irp) (information : Option BreakInformation) (waits : Waits other [] events waiting)
      (patient : other.majorFunction = .write → stage ≠ .toII) :
      Moves c isOpen (.exclusive kind irp) (.broken irp .success information :: events)
        (.breaking kind stage irp.fileObject waiting)
  | waits {kind : Kind} {stage : Stage} {owner : FileObject} {waiting waiting' : List Irp}
      {events : List Event} (stage' : Stage) (other : Irp)
      (waits : Waits other waiting events waiting')
      (onward : stage' = .toII → stage = .toII ∧ other.majorFunction ≠ .write) :
      Moves c isOpen (.breaking kind stage owner waiting) events (.breaking kind stage' owner waiting')
  | closes (kind : Kind) (stage : Stage) (owner : FileObject) (waiting : List Irp)
      {events : List Event} (quiet : Quiet events) :
      Moves c isOpen (.breaking kind stage owner waiting) events (.breaking kind .closePending owner waiting)
  | withdraws {kind : Kind} {stage : Stage} {owner : FileObject} {waiting gone left : List Irp}
      (split : waiting.Perm (gone ++ left)) (kept : left ⊆ waiting) :
      Moves c isOpen (.breaking kind stage owner waiting) (gone.map (.released · .cancelled))
        (.breaking kind stage owner left)
  | ends {kind : Kind} {stage : Stage} {owner : FileObject} {waiting : List Irp}
      {events answers : List Event} (endsBreak : EndsBreak owner c) (quiet : Quiet answers)
      (all : events.Perm (.dereferenced owner :: (answers ++ released waiting))) :
      Moves c isOpen (.breaking kind stage owner waiting) events .idle
  | endsII {kind : Kind} {owner : FileObject} {waiting : List Irp} (irp : Irp)
      (endsBreak : EndsBreak owner c) (same : irp.fileObject = owner) :
      Moves c isOpen (.breaking kind .toII owner waiting) (.granted irp :: released waiting) (.shared irp [])
  | endsIICancelled {kind : Kind} {owner : FileObject} {waiting : List Irp} (irp : Irp)
      (information : Option BreakInformation) (endsBreak : EndsBreak owner c)
      (same : irp.fileObject = owner) :
      Moves c isOpen (.breaking kind .toII owner waiting)
        (.granted irp :: .dereferenced irp.fileObject :: .broken irp .cancelled information ::
          released waiting) .idle

/-- The call brings the file from `a` to a state of the protocol laid out as `o`, in
which no held Irp is cancelled. -/
def Reaches (cancelled : Irp → Bool) (c : Call) (isOpen : FileObject → Prop) (a : Ownership)
    (o : NonopaqueOplock) (events : List Event) : Prop :=
  ∃ a', o = a'.oplock ∧ Moves c isOpen a events a' ∧ a'.Live cancelled

/-- The routine makes a move. -/
abbrev ReachesOutcome (cancelled : Irp → Bool) (c : Call) (isOpen : FileObject → Prop)
    (a : Ownership) (outcome : Outcome) : Prop :=
  Reaches cancelled c isOpen a outcome.oplock outcome.events

theorem quiet_nil : Quiet [] := fun _ mem => nomatch mem

variable {information : Option BreakInformation} {status : Status}

theorem quiet_answered : Quiet [.answered irp status information] := by
  intro event mem
  rw [List.mem_singleton] at mem
  exact ⟨irp, status, information, mem⟩

variable {c : Call} {isOpen : FileObject → Prop} {a : Ownership}

theorem Reaches.stays (live : a.Live cancelled) : Reaches cancelled c isOpen a a.oplock [] :=
  ⟨a, rfl, .stays quiet_nil, live⟩

theorem Reaches.answers (live : a.Live cancelled) :
    Reaches cancelled c isOpen a a.oplock [.answered irp status information] :=
  ⟨a, rfl, .stays quiet_answered, live⟩

open Lib.Ledger List

/-! ## The six kinds of entries -/

def Event.referenced? : Event → Option FileObject
  | .referenced fileObject => some fileObject
  | _ => none

def Event.dereferenced? : Event → Option FileObject
  | .dereferenced fileObject => some fileObject
  | _ => none

def Event.granted? : Event → Option Irp
  | .granted irp => some irp
  | _ => none

def Event.broken? : Event → Option Irp
  | .broken irp _ _ => some irp
  | _ => none

def Event.queued? : Event → Option Irp
  | .queued irp => some irp
  | _ => none

def Event.released? : Event → Option Irp
  | .released irp _ => some irp
  | _ => none

variable {events : List Event} {κ : Type}

theorem Quiet.filterMap_eq_nil (quiet : Quiet events) {entry : Event → Option κ}
    (silent : ∀ irp status information, entry (.answered irp status information) = none) :
    events.filterMap entry = [] := by
  rw [filterMap_eq_nil_iff]
  intro event mem
  obtain ⟨irp, status, information, rfl⟩ := quiet event mem
  exact silent irp status information

/-! ## Settling all three -/

/-- The events account for what becomes of the references, the oplock Irps and the
waiting Irps. -/
structure Settled (events : List Event) (references references' : List FileObject)
    (oplockIrps oplockIrps' waiting waiting' : List Irp) : Prop where
  references : Settles Event.referenced? Event.dereferenced? events references references'
  grants : Settles Event.granted? Event.broken? events oplockIrps oplockIrps'
  waits : Settles Event.queued? Event.released? events waiting waiting'

section Settled

variable {events' : List Event} {r r' r'' : List FileObject} {g g' g'' w w' w'' : List Irp}

theorem Settled.append (first : Settled events r r' g g' w w')
    (second : Settled events' r' r'' g' g'' w' w'') :
    Settled (events ++ events') r r'' g g'' w w'' where
  references := first.references.append second.references
  grants := first.grants.append second.grants
  waits := first.waits.append second.waits

theorem Settled.of_perm (perm : events.Perm events') (settled : Settled events' r r' g g' w w') :
    Settled events r r' g g' w w' where
  references := settled.references.of_perm perm
  grants := settled.grants.of_perm perm
  waits := settled.waits.of_perm perm

theorem Settled.beside (settled : Settled events r r' g g' w w') (r₁ : List FileObject)
    (g₁ w₁ : List Irp) :
    Settled events (r ++ r₁) (r' ++ r₁) (g ++ g₁) (g' ++ g₁) (w ++ w₁) (w' ++ w₁) where
  references := settled.references.beside r₁
  grants := settled.grants.beside g₁
  waits := settled.waits.beside w₁

theorem Quiet.settled (quiet : Quiet events) : Settled events r r g g w w where
  references := settles_of_silent r (quiet.filterMap_eq_nil fun _ _ _ => rfl)
    (quiet.filterMap_eq_nil fun _ _ _ => rfl)
  grants := settles_of_silent g (quiet.filterMap_eq_nil fun _ _ _ => rfl)
    (quiet.filterMap_eq_nil fun _ _ _ => rfl)
  waits := settles_of_silent w (quiet.filterMap_eq_nil fun _ _ _ => rfl)
    (quiet.filterMap_eq_nil fun _ _ _ => rfl)

/-! ## Breaking, waiting and releasing -/

variable {irps waiting waiting' : List Irp} {entry : Event → Option κ}

theorem Breaks.silent (breaks : Breaks irps events)
    (noneDereferenced : ∀ fileObject, entry (.dereferenced fileObject) = none)
    (noneBroken : ∀ irp status information, entry (.broken irp status information) = none) :
    events.filterMap entry = [] := by
  induction breaks with
  | nil => rfl
  | cons _ _ _ rest => simpa [noneDereferenced, noneBroken] using rest

/-- Breaking level II Irps gives back one reference each. -/
theorem Breaks.settled (breaks : Breaks irps events) (left : List Irp) :
    Settled events ((irps ++ left).map Irp.fileObject) (left.map Irp.fileObject)
      (irps ++ left) left [] [] := by
  induction breaks with
  | nil => exact quiet_nil.settled
  | @cons irp irps events status information _ rest =>
    have first : Settled [.dereferenced irp.fileObject, .broken irp status information]
        [irp.fileObject] [] [irp] [] [] [] := ⟨.rfl, .rfl, .rfl⟩
    exact (first.beside ((irps ++ left).map Irp.fileObject) (irps ++ left) []).append rest

/-- Waiting touches no reference and no oplock Irp. -/
theorem Waits.settled (waits : Waits irp waiting events waiting') :
    Settled events r r g g waiting waiting' := by
  cases waits with
  | refused => exact quiet_nil.settled
  | queued =>
    exact ⟨settles_of_silent _ rfl rfl, settles_of_silent _ rfl rfl, .rfl⟩
  | withdrawn =>
    exact ⟨settles_of_silent _ rfl rfl, settles_of_silent _ rfl rfl, perm_append_singleton _ _⟩

theorem filterMap_released (status : Status) (silent : ∀ irp, entry (.released irp status) = none) :
    (waiting.map (Event.released · status)).filterMap entry = [] := by
  rw [filterMap_map, filterMap_eq_nil_iff]
  intro irp _
  exact silent irp

/-- Releasing Irps touches no reference and no oplock Irp. -/
theorem released_settled (status : Status) (waiting left : List Irp) :
    Settled (waiting.map (Event.released · status)) r r g g (waiting ++ left) left where
  references := settles_of_silent r (filterMap_released _ fun _ => rfl)
    (filterMap_released _ fun _ => rfl)
  grants := settles_of_silent g (filterMap_released _ fun _ => rfl)
    (filterMap_released _ fun _ => rfl)
  waits := by
    have all : (waiting.map (Event.released · status)).filterMap Event.released? = waiting := by
      rw [filterMap_map]
      exact filterMap_some
    unfold Settles
    rw [filterMap_released _ fun _ => rfl, all, append_nil]

/-- The end of a break releases every waiting Irp. -/
theorem released_all (waiting : List Irp) : Settled (released waiting) r r g g waiting [] := by
  have settled := released_settled (r := r) (g := g) .success waiting []
  rwa [append_nil] at settled

end Settled

/-! ## Every move settles -/

section Moves

variable {a a' : Ownership}

theorem Free.referenced (free : Free a) : a.referenced = a.oplockIrps.map Irp.fileObject := by
  rcases free with rfl | ⟨other, rfl⟩ | ⟨other, rfl⟩ <;> rfl

theorem Free.waitingIrps (free : Free a) : a.waitingIrps = [] := by
  rcases free with rfl | ⟨other, rfl⟩ | ⟨other, rfl⟩ <;> rfl

/-- Every Irp is completed before an exclusive request is granted. -/
theorem Free.settled (free : Free a) (breaks : Breaks a.oplockIrps events) :
    Settled events a.referenced [] a.oplockIrps [] a.waitingIrps [] := by
  rw [free.referenced, free.waitingIrps]
  have settled := breaks.settled []
  rwa [append_nil] at settled

/-- **Every move settles.**  References are those of the oplock Irps and of the owner of a
break, every oplock Irp granted is broken once or still held, and every Irp queued is
released once or still waits. -/
theorem Moves.settled (moves : Moves c isOpen a events a') :
    Settled events a.referenced a'.referenced a.oplockIrps a'.oplockIrps a.waitingIrps
      a'.waitingIrps := by
  cases moves with
  | stays quiet => exact quiet.settled
  | reserves fileObject free =>
    rcases free with rfl | ⟨other, rfl⟩ <;> exact quiet_nil.settled
  | unreserves => exact quiet_nil.settled
  | grantsII =>
    rw [Ownership.referenced_ofShared, Ownership.oplockIrps_ofShared,
      Ownership.waitingIrps_ofShared]
    exact ⟨perm_append_singleton _ _, perm_append_singleton _ _, .rfl⟩
  | grantsIICancelled =>
    rw [Ownership.waitingIrps_ofShared]
    exact ⟨perm_append_singleton _ _, perm_append_singleton _ _, .rfl⟩
  | grants kind irp asks opened free breaks | grantsCancelled irp information free breaks =>
    exact (free.settled breaks).append ⟨.rfl, .rfl, .rfl⟩
  | @dropsII irps gone left events split breaks =>
    simp only [Ownership.referenced_ofShared, Ownership.oplockIrps_ofShared,
      Ownership.waitingIrps_ofShared]
    have parts : Settled [] (irps.map Irp.fileObject) ((gone ++ left).map Irp.fileObject) irps
        (gone ++ left) [] [] :=
      ⟨settles_nil (split.map _), settles_nil split, .rfl⟩
    exact parts.append (breaks.settled left)
  | drops => exact ⟨.rfl, .rfl, .rfl⟩
  | @begins _ irp _ _ stage other information waits =>
    have first : Settled [.broken irp .success information] [irp.fileObject] [irp.fileObject]
        [irp] [] [] [] := ⟨.rfl, .rfl, .rfl⟩
    exact first.append waits.settled
  | waits stage' other waits => exact waits.settled
  | closes kind stage owner waiting quiet => exact quiet.settled
  | @withdraws _ _ owner waiting gone left split =>
    have parts : Settled [] [owner] [owner] [] [] waiting (gone ++ left) :=
      ⟨.rfl, .rfl, settles_nil split⟩
    exact parts.append (released_settled .cancelled gone left)
  | @ends _ _ owner waiting _ answers endsBreak quiet all =>
    have first : Settled [.dereferenced owner] [owner] [] [] [] [] [] :=
      ⟨.rfl, .rfl, .rfl⟩
    refine .of_perm all ((first.beside [] [] waiting).append (quiet.settled.append ?_))
    exact released_all waiting
  | @endsII _ owner waiting irp endsBreak same =>
    subst same
    have first : Settled [.granted irp] [irp.fileObject] [irp.fileObject] [] [irp] [] [] :=
      ⟨.rfl, .rfl, .rfl⟩
    exact (first.beside [] [] waiting).append (released_all waiting)
  | @endsIICancelled _ owner waiting irp information endsBreak same =>
    subst same
    have first : Settled
        [.granted irp, .dereferenced irp.fileObject, .broken irp .cancelled information]
        [irp.fileObject] [] [] [] [] [] := ⟨.rfl, .rfl, .rfl⟩
    exact (first.beside [] [] waiting).append (released_all waiting)

end Moves

end Ntoskrnl.FsRtl.Oplock
