/-
# Ntoskrnl.FsRtl.Oplock.Runs -- the oplock over every sequence of calls

A file is sound when its structure lays out a state of the protocol whose Irps are
live and whose file objects are open, and the three accounts of its trace balance.
Every legal call keeps it sound, except an exclusive request that finds more than
one level II Irp.
-/
import Ntoskrnl.FsRtl.Oplock.Routines

namespace Ntoskrnl.FsRtl.Oplock

open Lib.Ledger List

set_option autoImplicit false

/-! ## Sound files -/

/-- The structure lays out `a`; a structure that is not allocated yet lays out the
idle state. -/
def Laid (oplock : Option NonopaqueOplock) (a : Ownership) : Prop :=
  oplock = some a.oplock ∨ oplock = none ∧ a = .idle

/-- No write waits for a break that may leave a level II oplock. -/
def Ownership.Patient : Ownership → Prop
  | .breaking _ stage _ waiting => stage = .toII → ∀ irp ∈ waiting, irp.majorFunction ≠ .write
  | _ => True

/-- An exclusive oplock is held by an exclusive request. -/
def Ownership.Asked : Ownership → Prop
  | .exclusive _ irp => irp.AsksExclusive
  | _ => True

structure Sound (s : System) (a : Ownership) : Prop where
  laid : Laid s.oplock a
  live : a.Live (fun irp => irp ∈ s.cancelled)
  opened : ∀ fileObject ∈ a.referenced, fileObject ∈ s.opened
  patient : a.Patient
  asked : a.Asked
  distinct : a.waitingIrps.Nodup
  references : Balanced Event.referenced? Event.dereferenced? s.trace a.referenced
  grants : Balanced Event.granted? Event.broken? s.trace a.oplockIrps
  waits : Balanced Event.queued? Event.released? s.trace a.waitingIrps

theorem sound_start : Sound System.start .idle where
  laid := .inr ⟨rfl, rfl⟩
  live := Ownership.live_idle
  opened := nofun
  patient := trivial
  asked := trivial
  distinct := nodup_nil
  references := balanced_nil
  grants := balanced_nil
  waits := balanced_nil

variable {a' a : Ownership} {events : List Event} {irp : Irp} {isOpen : FileObject → Prop}
  {c : Call}

/-- What every move keeps of a state: no write waits for a level II oplock, the exclusive
oplock was asked for, no Irp waits twice, and the package holds file objects that are open. -/
structure Fair (isOpen : FileObject → Prop) (a : Ownership) : Prop where
  patient : a.Patient
  asked : a.Asked
  distinct : a.waitingIrps.Nodup
  opened : ∀ fileObject ∈ a.referenced, isOpen fileObject

theorem fair_idle : Fair isOpen .idle := ⟨trivial, trivial, nodup_nil, nofun⟩

theorem fair_ofShared {irps : List Irp}
    (opened : ∀ fileObject ∈ irps.map Irp.fileObject, isOpen fileObject) :
    Fair isOpen (.ofShared irps) := by
  cases irps with
  | nil => exact fair_idle
  | cons => exact ⟨trivial, trivial, nodup_nil, opened⟩

section Waits

variable {other : Irp} {waiting waiting' : List Irp}

theorem Waits.mem (waits : Waits other waiting events waiting') (mem : irp ∈ waiting') :
    irp ∈ waiting ∨ irp = other := by
  cases waits with
  | refused => exact .inl mem
  | queued => exact (mem_append.mp mem).imp_right mem_singleton.mp
  | withdrawn => exact .inl mem

theorem Waits.nodup (waits : Waits other waiting events waiting') (distinct : waiting.Nodup) :
    waiting'.Nodup := by
  cases waits with
  | refused => exact distinct
  | queued fresh =>
    refine nodup_append.mpr ⟨distinct, nodup_singleton other, fun irp mem last same => ?_⟩
    rintro rfl
    exact fresh (mem_singleton.mp same ▸ mem)
  | withdrawn => exact distinct

end Waits

theorem Moves.fair (moves : Moves c isOpen a events a') (fair : Fair isOpen a) :
    Fair isOpen a' := by
  cases moves with
  | stays => exact fair
  | reserves => exact ⟨trivial, trivial, nodup_nil, nofun⟩
  | grantsII irps irp isOpen =>
    have opened := fair.opened
    rw [Ownership.referenced_ofShared] at opened
    exact @fair_ofShared _ (irp :: irps) (forall_mem_cons.mpr ⟨isOpen, opened⟩)
  | grantsIICancelled => exact fair
  | grants kind irp asks isOpen =>
    refine ⟨trivial, asks, nodup_nil, fun fileObject mem => ?_⟩
    rw [mem_singleton.mp mem]
    exact isOpen
  | dropsII split =>
    have opened := fair.opened
    rw [Ownership.referenced_ofShared] at opened
    refine fair_ofShared fun fileObject mem => opened fileObject ?_
    rw [(split.map Irp.fileObject).mem_iff, map_append]
    exact mem_append_right _ mem
  | begins stage other information waits notWrite =>
    refine ⟨fun toII irp mem write => ?_, trivial, waits.nodup nodup_nil, fair.opened⟩
    rcases waits.mem mem with mem | rfl
    · exact nomatch mem
    · exact notWrite write toII
  | waits stage' other waits onward =>
    refine ⟨fun toII irp mem => ?_, trivial, waits.nodup fair.distinct, fair.opened⟩
    obtain ⟨before, notWrite⟩ := onward toII
    rcases waits.mem mem with mem | rfl
    · exact fair.patient before irp mem
    · exact notWrite
  | closes => exact ⟨nofun, trivial, fair.distinct, fair.opened⟩
  | withdraws split kept =>
    exact ⟨fun toII irp mem => fair.patient toII irp (kept mem), trivial,
      (nodup_append.mp (split.nodup_iff.mp fair.distinct)).2.1, fair.opened⟩
  | endsII irp endsBreak same =>
    subst same
    exact ⟨trivial, trivial, nodup_nil, fair.opened⟩
  | _ => exact fair_idle

variable {s : System}

theorem Sound.fair (sound : Sound s a) : Fair (· ∈ s.opened) a :=
  ⟨sound.patient, sound.asked, sound.distinct, sound.opened⟩

/-! ## The entry points make moves -/

/-- An entry point makes a move. -/
def ReachesResult (cancelled : Irp → Bool) (c : Call) (isOpen : FileObject → Prop) (a : Ownership)
    (result : Result) : Prop :=
  ∃ a', Laid result.oplock a' ∧ Moves c isOpen a result.events a' ∧ a'.Live cancelled

section EntryPoints

variable {cancelled : Irp → Bool} {pool : Bool} {oplock : Option NonopaqueOplock}
  {completionRoutine : Bool}

theorem Reaches.result {outcome : Outcome} (reaches : ReachesOutcome cancelled c isOpen a outcome) :
    ReachesResult cancelled c isOpen a outcome.result := by
  obtain ⟨a', eq, moves, live⟩ := reaches
  exact ⟨a', .inl (congrArg some eq), moves, live⟩

/-- An entry point that does not touch the structure. -/
theorem reachesResult_stays {reply : Reply} (laid : Laid oplock a) (live : a.Live cancelled)
    (quiet : Quiet events) :
    ReachesResult cancelled c isOpen a ⟨oplock, events, reply⟩ :=
  ⟨a, laid, .stays quiet, live⟩

theorem withOplock_reaches {request : NonopaqueOplock → Outcome} (laid : Laid oplock a) (live : a.Live cancelled)
    (reaches : ReachesOutcome cancelled c isOpen a (request a.oplock)) :
    ReachesResult cancelled c isOpen a (withOplock pool oplock request) := by
  rcases laid with rfl | ⟨rfl, rfl⟩
  · exact reaches.result
  · simp only [withOplock]
    split
    · exact reaches.result
    · exact reachesResult_stays (.inr ⟨rfl, rfl⟩) live quiet_nil

theorem onOplock_reaches {routine : NonopaqueOplock → Outcome} {status : Status} (laid : Laid oplock a)
    (live : a.Live cancelled) (reaches : ReachesOutcome cancelled c isOpen a (routine a.oplock)) :
    ReachesResult cancelled c isOpen a (onOplock oplock irp status routine) := by
  rcases laid with rfl | ⟨rfl, rfl⟩
  · exact reaches.result
  · exact reachesResult_stays (.inr ⟨rfl, rfl⟩) live quiet_answered

/-- A state with at most one level II Irp takes an exclusive request as the protocol
wants it. -/
theorem requestExclusiveOplock_moves {kind : Kind} (live : a.Live cancelled)
    (asks : irp.AsksExclusive) (opened : isOpen irp.fileObject)
    (single : a.oplock.irpOplocksII.length ≤ 1) :
    ReachesOutcome cancelled c isOpen a
      (requestExclusiveOplock cancelled a.oplock irp.fileObject (some irp)
        (kind.bits ||| exclusiveFlag)) := by
  cases a with
  | idle => exact requestExclusiveOplock_grants asks opened (.inl rfl)
  | shared first others =>
    cases others with
    | nil => exact requestExclusiveOplock_grants asks opened (.inr (.inr ⟨first, rfl⟩))
    | cons =>
      simp only [Ownership.oplock, length_cons] at single
      omega
  | reserved other => exact requestExclusiveOplock_grants asks opened (.inr (.inl ⟨other, rfl⟩))
  | exclusive kind' other =>
    exact requestExclusiveOplock_refuses live (.inl ⟨kind', other, rfl⟩)
  | breaking kind' stage owner waiting =>
    exact requestExclusiveOplock_refuses live (.inr ⟨kind', stage, owner, waiting, rfl⟩)

theorem exclusiveRequest_reaches (kind : Kind) {openCount : Nat} {cleanupComplete : Bool}
    (laid : Laid oplock a) (live : a.Live cancelled)
    (admitted : irp.AsksExclusive → openCount = 1 → refusesRequest irp cleanupComplete = false →
      isOpen irp.fileObject ∧ a.oplock.irpOplocksII.length ≤ 1) (asks : irp.AsksExclusive) :
    ReachesResult cancelled c isOpen a
      (exclusiveRequest cancelled pool oplock irp openCount cleanupComplete kind.bits) := by
  unfold exclusiveRequest
  split
  · exact reachesResult_stays laid live quiet_answered
  · next granted =>
    obtain ⟨one, accepted⟩ := not_or.mp granted
    obtain ⟨opened, single⟩ := admitted asks (not_not.mp one) (Bool.not_eq_true _ ▸ accepted)
    exact withOplock_reaches laid live (requestExclusiveOplock_moves live asks opened single)

/-- Level II oplocks have no owner. -/
theorem fileObject_of_granted (granted : a.oplock.oplockState = oplockIIGranted) :
    a.oplock.fileObject = none := by
  cases a with
  | idle => rfl
  | shared => rfl
  | reserved => simp +decide [Ownership.oplock] at granted
  | exclusive => simp [Ownership.oplock, exclusive_flags] at granted
  | breaking => simp [Ownership.oplock, breaking_flags] at granted

theorem idle_of_noOplocksHeld (none : a.oplock.oplockState = noOplocksHeld) : a = .idle := by
  cases a with
  | idle => rfl
  | shared | reserved => simp +decide [Ownership.oplock] at none
  | exclusive => simp [Ownership.oplock, exclusive_flags] at none
  | breaking => simp [Ownership.oplock, breaking_flags] at none

/-- `FsRtlCheckOplock` on an operation that is not a cleanup. -/
theorem checkHeldOplock_reaches (live : a.Live cancelled) (fresh : irp ∉ a.waitingIrps) :
    ReachesOutcome cancelled c isOpen a
      (checkHeldOplock cancelled pool a.oplock irp completionRoutine) := by
  unfold checkHeldOplock
  split
  · next level =>
    split
    · refine oplockBreakToII_moves live fresh fun write => ?_
      rw [write] at level
      exact nomatch level
    · exact .stays live
  · split
    · next breaks =>
      have notOwner : a.oplock.fileObject ≠ some irp.fileObject := by
        rcases breaks with granted | notOwner
        · rw [fileObject_of_granted granted]
          exact nofun
        · exact notOwner
      obtain ⟨a', eq, moves, live, -⟩ :=
        oplockBreakToNone_clears live fresh notOwner
      exact ⟨a', eq, moves, live⟩
    · exact .stays live
  · exact .stays live

/-! ## One call -/

/-- The call is an exclusive request that `FsRtlOplockFsctrl` passes on. -/
def RequestsExclusive (s : System) : Call → Prop
  | .fsctrl irp _ _ =>
    irp.AsksExclusive ∧ s.opened.card = 1 ∧ refusesRequest irp (irp.fileObject ∈ s.cleaned) = false
  | _ => False

/-- An exclusive request that is passed on finds at most one level II Irp. -/
def FindsOneLevelII (s : System) (c : Call) : Prop :=
  RequestsExclusive s c → ∀ o ∈ s.oplock, o.irpOplocksII.length ≤ 1

theorem Laid.getD (laid : Laid oplock a) :
    a.oplock.irpOplocksII.length ≤ 1 ∨ oplock = some a.oplock := by
  rcases laid with laid | ⟨-, rfl⟩
  · exact .inr laid
  · exact .inl (Nat.zero_le _)

theorem Laid.eq_of_some {o : NonopaqueOplock} (laid : Laid (some o) a) : a.oplock = o := by
  rcases laid with eq | ⟨eq, -⟩
  · exact (Option.some.inj eq).symm
  · exact nomatch eq

/-- A new Irp does not wait yet. -/
theorem Laid.fresh (laid : Laid oplock a) (free : ∀ o ∈ oplock, irp ∉ o.held) :
    irp ∉ a.waitingIrps := by
  rcases laid with rfl | ⟨-, rfl⟩
  · intro mem
    refine free a.oplock rfl ?_
    rw [Ownership.held_oplock]
    exact mem_append_right _ mem
  · exact not_mem_nil

/-- A file object that asks and has not been cleaned up is open. -/
theorem opened_of_accepted (known : irp.fileObject ∈ s.opened ∨ irp.fileObject ∈ s.cleaned)
    (accepted : refusesRequest irp (irp.fileObject ∈ s.cleaned) = false) :
    irp.fileObject ∈ s.opened := by
  rcases known with opened | cleaned
  · exact opened
  · simp [refusesRequest, cleaned] at accepted

/-- When no file object is open, the file is idle or reserved. -/
theorem Sound.free_of_closed (sound : Sound s a) (closed : s.opened.card + 1 = 1) :
    a = .idle ∨ ∃ other, a = .reserved other := by
  have noneOpen : s.opened = ∅ := Finset.card_eq_zero.mp (by omega)
  have absent (fileObject : FileObject) : fileObject ∉ a.referenced := by
    intro mem
    have := sound.opened fileObject mem
    rw [noneOpen] at this
    exact absurd this (Finset.notMem_empty _)
  cases a with
  | idle => exact .inl rfl
  | shared first => exact absurd (mem_cons_self ..) (absent first.fileObject)
  | reserved other => exact .inr ⟨other, rfl⟩
  | exclusive kind irp => exact absurd (mem_cons_self ..) (absent irp.fileObject)
  | breaking kind stage owner => exact absurd (mem_cons_self ..) (absent owner)

theorem fsctrl_reaches (sound : Sound s a) {locks : Nat} (legal : Legal s (.fsctrl irp locks pool))
    (single : FindsOneLevelII s (.fsctrl irp locks pool)) :
    ReachesResult (fun irp => irp ∈ s.cancelled) (.fsctrl irp locks pool) (· ∈ s.opened) a
      (s.fsctrlResult irp locks pool) := by
  have known := legal.2
  have fresh := sound.laid.fresh legal.1
  -- what an exclusive request finds when its checks are passed
  have admitted (exclusive : irp.AsksExclusive) :
      s.openCount irp locks = 1 → refusesRequest irp (irp.fileObject ∈ s.cleaned) = false →
        irp.fileObject ∈ s.opened ∧ a.oplock.irpOplocksII.length ≤ 1 := by
    intro one accepted
    have count : s.openCount irp locks = s.opened.card := by
      rcases exclusive with eq | eq | eq <;> simp [System.openCount, eq]
    have asked : irp.fileObject ∈ s.opened ∨ irp.fileObject ∈ s.cleaned := by
      rcases exclusive with eq | eq | eq <;> simpa [eq] using known
    refine ⟨opened_of_accepted asked accepted, ?_⟩
    rcases sound.laid.getD with short | laid
    · exact short
    · exact single ⟨exclusive, count ▸ one, accepted⟩ _ laid
  unfold System.fsctrlResult oplockFsctrl
  cases function : irp.majorFunction with
  | create =>
    simp only
    split
    · exact reachesResult_stays sound.laid sound.live quiet_nil
    · next granted =>
      have one := not_not.mp (not_or.mp granted).1
      simp only [System.openCount, function] at one
      exact withOplock_reaches sound.laid sound.live
        (requestExclusiveOplock_pending (sound.free_of_closed one))
  | fileSystemControl code =>
    cases code with
    | requestOplockLevel1 =>
      exact exclusiveRequest_reaches .levelI sound.laid sound.live admitted (.inl function)
    | requestBatchOplock =>
      exact exclusiveRequest_reaches .batch sound.laid sound.live admitted (.inr (.inl function))
    | requestFilterOplock =>
      exact exclusiveRequest_reaches .filter sound.laid sound.live admitted (.inr (.inr function))
    | requestOplockLevel2 =>
      simp only
      split
      · exact reachesResult_stays sound.laid sound.live quiet_answered
      · next granted =>
        have accepted : refusesRequest irp (irp.fileObject ∈ s.cleaned) = false :=
          Bool.not_eq_true _ ▸ (not_or.mp granted).2
        have asked : irp.fileObject ∈ s.opened ∨ irp.fileObject ∈ s.cleaned := by
          simpa [function] using known
        exact withOplock_reaches sound.laid sound.live
          (requestOplockII_moves (opened_of_accepted asked accepted) sound.live)
    | oplockBreakAcknowledge =>
      exact onOplock_reaches sound.laid sound.live
        (acknowledgeOplockBreak_moves sound.live ⟨rfl, .inl function⟩)
    | oplockBreakAckNo2 =>
      exact onOplock_reaches sound.laid sound.live
        (acknowledgeOplockBreak_moves sound.live ⟨rfl, .inr (.inl function)⟩)
    | opbatchAckClosePending =>
      exact onOplock_reaches sound.laid sound.live
        (opBatchBreakClosePending_moves sound.live ⟨rfl, .inr (.inr function)⟩)
    | oplockBreakNotify =>
      refine onOplock_reaches sound.laid sound.live
        (oplockBreakNotify_moves sound.live fresh fun write => ?_)
      rw [function] at write
      exact nomatch write
    | setZeroData
    | other => exact reachesResult_stays sound.laid sound.live quiet_answered
  | read | write | flushBuffers | cleanup | lockControl | setInformation
  | other => simp [function] at known

/-- A checked operation makes a move, and after a cleanup the package has forgotten
the file object. -/
theorem check_reaches (sound : Sound s a) (legal : Legal s (.check irp completionRoutine pool)) :
    ∃ a', Laid (s.checkResult irp completionRoutine pool).oplock a' ∧
      Moves (.check irp completionRoutine pool) (· ∈ s.opened) a
        (s.checkResult irp completionRoutine pool).events a' ∧
      a'.Live (fun irp => irp ∈ s.cancelled) ∧
      (irp.majorFunction = .cleanup → irp.fileObject ∉ a'.referenced) := by
  unfold System.checkResult checkOplock
  rcases sound.laid with laid | ⟨laid, rfl⟩
  · rw [laid]
    simp only
    split
    · next paging =>
      refine ⟨a, .inl rfl, .stays quiet_nil, sound.live, fun cleanup => ?_⟩
      rw [legal.2 cleanup] at paging
      exact nomatch paging
    · split
      · next none =>
        obtain rfl := idle_of_noOplocksHeld none
        exact ⟨.idle, .inl rfl, .stays quiet_nil, sound.live, fun _ => not_mem_nil⟩
      · split
        · next cleanup =>
          obtain ⟨a', eq, moves, live, forgotten⟩ :=
            oplockCleanup_forgets (c := .check irp completionRoutine pool) sound.live ⟨rfl, cleanup⟩
          exact ⟨a', .inl (congrArg some eq), moves, live, fun _ => forgotten⟩
        · next notCleanup =>
          obtain ⟨a', laid, moves, live⟩ :=
            (checkHeldOplock_reaches sound.live (sound.laid.fresh legal.1)).result
          exact ⟨a', laid, moves, live, fun cleanup => absurd cleanup notCleanup⟩
  · rw [laid]
    exact ⟨.idle, .inr ⟨rfl, rfl⟩, .stays quiet_nil, sound.live, fun _ => not_mem_nil⟩

theorem cancel_reaches (sound : Sound s a) (irp : Irp) :
    ReachesResult (fun other => other ∈ insert irp s.cancelled) (.cancel irp) (· ∈ s.opened) a
      (s.cancelResult irp) := by
  unfold System.cancelResult
  rcases sound.laid with laid | ⟨laid, rfl⟩
  · rw [laid]
    obtain ⟨a', eq, moves, live⟩ : Reaches (fun other => other ∈ insert irp s.cancelled) (.cancel irp)
        (· ∈ s.opened) a (cancelIrp (fun other => other ∈ insert irp s.cancelled) a.oplock irp).1
        (cancelIrp (fun other => other ∈ insert irp s.cancelled) a.oplock irp).2 := by
      refine cancelIrp_moves (by simp) fun other mem differ => ?_
      have spared : other ∉ s.cancelled := by simpa using sound.live other mem
      simp [differ, spared]
    exact ⟨a', .inl (congrArg some eq), moves, live⟩
  · rw [laid]
    exact reachesResult_stays (Or.inr ⟨rfl, rfl⟩) Ownership.live_idle quiet_nil

/-- What a move does to the trace and to the invariants that do not depend on who is
open or cancelled. -/
theorem Sound.moves (sound : Sound s a) {s' : System}
    (moves : Moves c (· ∈ s.opened) a (s.result c).events a') (laid : Laid s'.oplock a')
    (live : a'.Live (fun irp => irp ∈ s'.cancelled))
    (opened : ∀ fileObject ∈ a'.referenced, fileObject ∈ s'.opened)
    (trace : s'.trace = s.trace ++ (s.result c).events) : Sound s' a' where
  laid := laid
  live := live
  opened := opened
  patient := (moves.fair sound.fair).patient
  asked := (moves.fair sound.fair).asked
  distinct := (moves.fair sound.fair).distinct
  references := trace ▸ sound.references.append moves.settled.references
  grants := trace ▸ sound.grants.append moves.settled.grants
  waits := trace ▸ sound.waits.append moves.settled.waits

@[simp]
theorem System.close_oplock (s : System) (irp : Irp) : (s.close irp).oplock = s.oplock := by
  unfold System.close
  split <;> rfl

@[simp]
theorem System.close_trace (s : System) (irp : Irp) : (s.close irp).trace = s.trace := by
  unfold System.close
  split <;> rfl

@[simp]
theorem System.close_cancelled (s : System) (irp : Irp) : (s.close irp).cancelled = s.cancelled := by
  unfold System.close
  split <;> rfl

/-- **One call keeps a file sound.** A legal call on a sound file is a move of the
protocol, unless it is an exclusive request that finds several level II Irps. -/
theorem Sound.call (sound : Sound s a) (legal : Legal s c) (single : FindsOneLevelII s c) :
    ∃ a', Sound (s.call c) a' ∧ Moves c (· ∈ s.opened) a (s.result c).events a' := by
  cases c with
  | openFile fileObject =>
    have moves : Moves (.openFile fileObject) (· ∈ s.opened) a [] a := .stays quiet_nil
    refine ⟨a, sound.moves moves sound.laid sound.live (fun other mem => ?_) rfl, moves⟩
    exact Finset.mem_insert_of_mem (sound.opened other mem)
  | fsctrl =>
    obtain ⟨a', laid, moves, live⟩ := fsctrl_reaches sound legal single
    exact ⟨a', sound.moves moves laid live (moves.fair sound.fair).opened rfl, moves⟩
  | check =>
    obtain ⟨a', laid, moves, live, forgotten⟩ := check_reaches sound legal
    refine ⟨a', sound.moves moves ?_ ?_ ?_ ?_, moves⟩
    · simpa [System.call, System.absorb, System.result] using laid
    · simpa [System.call, System.absorb] using live
    · intro fileObject mem
      have opened := (moves.fair sound.fair).opened fileObject mem
      simp only [System.call, System.close]
      split
      · next cleanup =>
        exact Finset.mem_erase.mpr ⟨fun same => forgotten cleanup (same ▸ mem), opened⟩
      · exact opened
    · simp [System.call, System.absorb, System.result]
  | cancel irp =>
    obtain ⟨a', laid, moves, live⟩ := cancel_reaches sound irp
    exact ⟨a', sound.moves moves laid live (moves.fair sound.fair).opened rfl, moves⟩

end EntryPoints

/-! ## Whole runs -/

/-- A run in which no exclusive request on a sound file finds several level II Irps stays
sound. -/
theorem sound_after {calls : List Call} (legal : LegalRun calls)
    (single : ∀ before c a, before ++ [c] <+: calls → Sound (System.after before) a →
      FindsOneLevelII (System.after before) c) (before : List Call) (sub : before <+: calls) :
    ∃ a, Sound (System.after before) a := by
  induction before using reverseRecOn with
  | nil => exact ⟨.idle, sound_start⟩
  | append_singleton before c ih =>
    obtain ⟨a, sound⟩ := ih ((prefix_append _ _).trans sub)
    obtain ⟨a', sound', -⟩ := sound.call (legal before c sub) (single before c a sub sound)
    exact ⟨a', System.after_snoc before c ▸ sound'⟩

/-! ## Runs that can be evaluated -/

/-- Every call of the sequence, made from `s` on, meets the condition. -/
def EveryStep (p : System → Call → Prop) (s : System) : List Call → Prop
  | [] => True
  | c :: calls => p s c ∧ EveryStep p (s.call c) calls

theorem everyStep_iff (p : System → Call → Prop) (s : System) (calls : List Call) :
    EveryStep p s calls ↔
      ∀ before c, before ++ [c] <+: calls → p (before.foldl System.call s) c := by
  induction calls generalizing s with
  | nil =>
    refine ⟨fun _ before c sub => ?_, fun _ => trivial⟩
    exact absurd (prefix_nil.mp sub) (by simp)
  | cons first calls ih =>
    refine ⟨fun ⟨head, tail⟩ before c sub => ?_, fun every => ⟨?_, (ih _).mpr fun before c sub => ?_⟩⟩
    · cases before with
      | nil =>
        obtain ⟨rfl, -⟩ := cons_prefix_cons.mp sub
        exact head
      | cons other before =>
        obtain ⟨rfl, rest⟩ := cons_prefix_cons.mp sub
        exact (ih _).mp tail before c rest
    · exact every [] first (cons_prefix_cons.mpr ⟨rfl, nil_prefix⟩)
    · exact every (first :: before) c (cons_prefix_cons.mpr ⟨rfl, sub⟩)

instance decidableEveryStep (p : System → Call → Prop) [∀ s c, Decidable (p s c)] (s : System) :
    (calls : List Call) → Decidable (EveryStep p s calls)
  | [] => isTrue trivial
  | c :: calls =>
    haveI := decidableEveryStep p (s.call c) calls
    inferInstanceAs (Decidable (p s c ∧ EveryStep p (s.call c) calls))

instance decidableFindsOneLevelII (s : System) : (c : Call) → Decidable (FindsOneLevelII s c)
  | .fsctrl irp _ _ =>
    inferInstanceAs (Decidable ((irp.majorFunction = .fileSystemControl .requestOplockLevel1 ∨
      irp.majorFunction = .fileSystemControl .requestBatchOplock ∨
      irp.majorFunction = .fileSystemControl .requestFilterOplock) ∧ s.opened.card = 1 ∧
        refusesRequest irp (irp.fileObject ∈ s.cleaned) = false →
      ∀ o ∈ s.oplock, o.irpOplocksII.length ≤ 1))
  | .openFile _ => isTrue nofun
  | .check _ _ _ => isTrue nofun
  | .cancel _ => isTrue nofun

end Ntoskrnl.FsRtl.Oplock
