/-
# Ntoskrnl.FsRtl.Oplock.Routines -- every routine makes a move of the protocol

Each routine of `fsrtl/oplock.c`, run on a structure that lays out a state of the
protocol, leaves a structure that lays out another one and causes the events of a
move between the two. The Irps the package holds are not cancelled: `IoCancelIrp`
runs the cancel routine in the same step.
-/
import Ntoskrnl.FsRtl.Oplock.Ownership

namespace Ntoskrnl.FsRtl.Oplock

open List Ownership

open Rtl.Security (flagOn)

set_option autoImplicit false

/-! ## The tests on the state bits -/

theorem exclusive_flags (kind : Kind) : let state := kind.bits ||| exclusiveFlag
    flagOn state breakToII = false ∧ flagOn state (breakToII ||| breakToNone) = false ∧
      flagOn state breakToIIToNone = false ∧
      flagOn state (breakToII ||| breakToNone ||| breakToIIToNone) = false ∧
      flagOn state oplockBreakMask = false ∧ flagOn state pendingFlag = false ∧
      flagOn state exclusiveFlag ∧ flagOn state (oplockBreakMask ||| pendingFlag) = false ∧
      flagOn state (pendingFlag ||| oplockBreakMask) = false ∧
      flagOn state (levelIIOplock ||| pendingFlag ||| oplockBreakMask) = false ∧
      state ≠ noOplocksHeld ∧ state ≠ oplockIIGranted := by
  cases kind <;> decide

theorem breaking_flags (kind : Kind) (stage : Stage) :
    let state := kind.bits ||| exclusiveFlag ||| stage.bits
    flagOn state breakToII = decide (stage = .toII) ∧
      flagOn state (breakToII ||| breakToNone) = decide (stage = .toII ∨ stage = .toNone) ∧
      flagOn state breakToIIToNone = decide (stage = .toIIToNone) ∧
      flagOn state (breakToII ||| breakToNone ||| breakToIIToNone) =
        decide (stage ≠ .closePending) ∧
      flagOn state oplockBreakMask ∧ flagOn state pendingFlag = false ∧
      flagOn state exclusiveFlag ∧ flagOn state (oplockBreakMask ||| pendingFlag) ∧
      flagOn state (pendingFlag ||| oplockBreakMask) ∧
      flagOn state (levelIIOplock ||| pendingFlag ||| oplockBreakMask) ∧
      flagOn state levelIOplock = decide (kind = .levelI) ∧
      flagOn state (levelIOplock ||| pendingFlag) = decide (kind = .levelI) ∧
      state ≠ noOplocksHeld ∧ state ≠ oplockIIGranted := by
  cases kind <;> cases stage <;> decide

variable {waiting : List Irp} {a : Ownership} {kind : Kind} {stage : Stage} {owner : FileObject}
  {irp : Irp} {completionRoutine : Bool}

section Routines

variable {cancelled : Irp → Bool} {pool : Bool} {c : Call} {isOpen : FileObject → Prop}
  {irps : List Irp}

/-! ## Lists of Irps none of which is cancelled -/

theorem filter_cancelled (live : ∀ irp ∈ irps, cancelled irp = false) :
    irps.filter cancelled = [] := by
  rw [filter_eq_nil_iff]
  intro irp mem
  rw [live irp mem]
  exact Bool.false_ne_true

theorem filter_not_cancelled (live : ∀ irp ∈ irps, cancelled irp = false) :
    irps.filter (fun irp => !cancelled irp) = irps := by
  rw [filter_eq_self]
  intro irp mem
  rw [live irp mem]
  rfl

theorem completeWaitingIrps_live {exclusive : Option Irp} {fileObject : Option FileObject}
    {state : OplockState} (waiting : List Irp) (live : ∀ irp ∈ waiting, cancelled irp = false) :
    completeWaitingIrps cancelled ⟨exclusive, fileObject, irps, waiting, state⟩ =
      released waiting := by
  refine map_congr_left fun irp mem => ?_
  simp [removeAndCompleteWaitIrp, live irp mem]

theorem breaks_removeAndCompleteIrp (irps : List Irp) :
    Breaks irps (irps.flatMap (removeAndCompleteIrp cancelled)) := by
  induction irps with
  | nil => exact .nil
  | cons irp irps rest => exact .cons _ _ rest

/-- The level II list loses the Irps that satisfy a test. -/
theorem dropsII_filter (irps : List Irp) (test : Irp → Bool) :
    Moves c isOpen (.ofShared irps) ((irps.filter test).flatMap (removeAndCompleteIrp cancelled))
      (.ofShared (irps.filter (fun irp => !test irp))) :=
  .dropsII (filter_append_perm test irps).symm (breaks_removeAndCompleteIrp _)

/-! ## Waiting -/

/-- The Irp waits for the break of `owner`, if it waits at all, and the call does
not return success. -/
def WaitsOutcome (cancelled : Irp → Bool) (kind : Kind) (stage : Stage) (owner : FileObject)
    (waiting : List Irp) (irp : Irp)
    (outcome : Outcome) : Prop :=
  ∃ waiting', outcome.oplock = (breaking kind stage owner waiting').oplock ∧
    Waits irp waiting outcome.events waiting' ∧ (∀ other ∈ waiting', cancelled other = false) ∧
    outcome.reply ≠ .returns .success

section Waiting

variable (live : ∀ other ∈ waiting, cancelled other = false) (fresh : irp ∉ waiting)

include live fresh

theorem waitOnIrp_waits : WaitsOutcome cancelled kind stage owner waiting irp
      (waitOnIrp cancelled pool (breaking kind stage owner waiting).oplock irp
        completionRoutine) := by
  unfold waitOnIrp
  split
  · exact ⟨waiting, rfl, .refused, live, by rintro ⟨⟩⟩
  · split
    · next _ given =>
      refine ⟨waiting, ?_, ?_, live, ?_⟩
      · simp [cancelWaitIrp, oplock, filter_append, filter_not_cancelled live, given]
      · simp only [cancelWaitIrp, oplock, filter_append, filter_cancelled live,
          nil_append, filter_cons_of_pos given, filter_nil, map_cons, map_nil,
          removeAndCompleteWaitIrp, given, if_true]
        exact .withdrawn fresh
      · cases completionRoutine <;> rintro ⟨⟩
    · next _ notGiven =>
      refine ⟨waiting ++ [irp], rfl, .queued fresh, ?_, ?_⟩
      · intro other mem
        rcases mem_append.mp mem with mem | mem
        · exact live other mem
        · rw [mem_singleton.mp mem]
          exact Bool.not_eq_true _ ▸ notGiven
      · cases completionRoutine <;> rintro ⟨⟩

theorem waitForBreak_waits : WaitsOutcome cancelled kind stage owner waiting irp
      (waitForBreak cancelled pool (breaking kind stage owner waiting).oplock irp
        completionRoutine) := by
  unfold waitForBreak
  split
  · split
    · exact ⟨waiting, rfl, .refused, live, nofun⟩
    · exact waitOnIrp_waits live fresh
  · exact waitOnIrp_waits live fresh

end Waiting

variable {stage' : Stage} {fileObject : FileObject} {information : Option BreakInformation}
  {outcome : Outcome}

theorem WaitsOutcome.goesOn (waits : WaitsOutcome cancelled kind stage' owner waiting irp outcome)
    (onward : stage' = .toII → stage = .toII ∧ irp.majorFunction ≠ .write) :
    ReachesOutcome cancelled c isOpen (.breaking kind stage owner waiting) outcome := by
  obtain ⟨waiting', eq, waits, live, -⟩ := waits
  exact ⟨.breaking kind stage' owner waiting', eq, .waits stage' irp waits onward, live⟩

/-! ## Requests -/

theorem requestExclusiveOplock_pending (free : a = .idle ∨ ∃ other, a = .reserved other) :
    ReachesOutcome cancelled c isOpen a
      (requestExclusiveOplock cancelled a.oplock fileObject none opFilterReqPending) := by
  refine ⟨.reserved fileObject, ?_, ?_, live_reserved⟩
  · rcases free with rfl | ⟨other, rfl⟩ <;> rfl
  · exact .reserves fileObject free

theorem Free.noneWaiting (free : Free a) : a.oplock.waitingIrps = [] := by
  rcases free with rfl | ⟨other, rfl⟩ | ⟨other, rfl⟩ <;> rfl

theorem Free.allowed (free : Free a) :
    flagOn a.oplock.oplockState (levelIIOplock ||| noOplock ||| pendingFlag) := by
  rcases free with rfl | ⟨other, rfl⟩ | ⟨other, rfl⟩ <;> simp +decide only [oplock]

theorem Free.yields (free : Free a) (cancelled : Irp → Bool) :
    ∃ events, Breaks a.oplockIrps events ∧ yieldOplockII cancelled a.oplock = ([], events) := by
  rcases free with rfl | ⟨other, rfl⟩ | ⟨other, rfl⟩
  · exact ⟨[], .nil, rfl⟩
  · exact ⟨[], .nil, rfl⟩
  · exact ⟨_, .cons _ _ .nil, rfl⟩

theorem exclusive_ne_pending (kind : Kind) : kind.bits ||| exclusiveFlag ≠ opFilterReqPending := by
  cases kind <;> decide

/-- The requester's own level II oplock, if that is all there is, makes way for the
exclusive one. -/
theorem requestExclusiveOplock_grants (asks : irp.AsksExclusive) (opened : isOpen irp.fileObject)
    (free : Free a) :
    ReachesOutcome cancelled c isOpen a
      (requestExclusiveOplock cancelled a.oplock irp.fileObject (some irp)
        (kind.bits ||| exclusiveFlag)) := by
  obtain ⟨events, breaks, yields⟩ := free.yields cancelled
  unfold requestExclusiveOplock
  simp only [exclusive_ne_pending kind, free.allowed, if_false, if_true, yields]
  by_cases given : cancelled irp
  · refine ⟨.idle, ?_, ?_, live_idle⟩
    · simp only [given, cancelExclusiveIrp, releaseOplock, if_true]
      rfl
    · simp only [given, cancelExclusiveIrp, if_true, dereference, completeWaitingIrps,
        free.noneWaiting, map_nil, append_nil, append_assoc, cons_append,
        nil_append]
      exact .grantsCancelled irp none free breaks
  · refine ⟨.exclusive kind irp, ?_, ?_, live_exclusive (Bool.not_eq_true _ ▸ given)⟩
    · simp only [given, free.noneWaiting, Bool.false_eq_true, if_false]
      rfl
    · simp only [given, Bool.false_eq_true, if_false]
      exact .grants kind irp asks opened free breaks

/-- An exclusive oplock, broken or not, is not given to a second requester. -/
theorem requestExclusiveOplock_refuses (live : a.Live cancelled)
    (taken : (∃ kind' other, a = .exclusive kind' other) ∨
      ∃ kind' stage owner waiting, a = .breaking kind' stage owner waiting) :
    ReachesOutcome cancelled c isOpen a
      (requestExclusiveOplock cancelled a.oplock irp.fileObject (some irp)
        (kind.bits ||| exclusiveFlag)) := by
  have refused : flagOn a.oplock.oplockState (levelIIOplock ||| noOplock ||| pendingFlag) = false := by
    rcases taken with ⟨kind', other, rfl⟩ | ⟨kind', stage, owner, waiting, rfl⟩
    · cases kind' <;> simp +decide only [oplock]
    · cases kind' <;> cases stage <;> simp +decide only [oplock]
  unfold requestExclusiveOplock
  simp only [exclusive_ne_pending kind, refused, Bool.false_eq_true, if_false]
  exact .answers live

theorem requestOplockII_moves (opened : isOpen irp.fileObject) (live : a.Live cancelled) :
    ReachesOutcome cancelled c isOpen a (requestOplockII cancelled a.oplock irp) := by
  by_cases allowed : ∃ irps, a = .ofShared irps
  · obtain ⟨irps, rfl⟩ := allowed
    have liveII := live.oplockIrps
    rw [oplockIrps_ofShared] at liveII
    have granted : flagOn (if irps = [] then noOplocksHeld else oplockIIGranted)
        (noOplock ||| levelIIOplock) := by
      split <;> decide
    unfold requestOplockII
    simp only [oplock_ofShared, granted, if_true]
    -- an Irp that is cancelled by now is completed at once
    by_cases given : cancelled irp
    · refine ⟨.ofShared irps, ?_, ?_, live⟩
      · simp [given, cancelOplockIIIrp, filter_not_cancelled liveII]
      · simp only [given, if_true, cancelOplockIIIrp, filter_cons_of_pos given,
          filter_cancelled liveII, flatMap_cons, flatMap_nil, removeAndCompleteIrp,
          append_nil, cons_append, nil_append]
        exact .grantsIICancelled irps irp _
    · have liveNew : ∀ other ∈ irp :: irps, cancelled other = false := by
        intro other mem
        rcases mem_cons.mp mem with rfl | mem
        · exact Bool.not_eq_true _ ▸ given
        · exact liveII other mem
      refine ⟨.ofShared (irp :: irps), ?_, ?_, live_ofShared liveNew⟩
      · simp only [given, Bool.false_eq_true, if_false]
        rfl
      · simp only [given, Bool.false_eq_true, if_false]
        exact .grantsII irps irp opened
  · have refused : flagOn a.oplock.oplockState (noOplock ||| levelIIOplock) = false := by
      cases a with
      | idle => exact absurd ⟨[], rfl⟩ allowed
      | shared first others => exact absurd ⟨first :: others, rfl⟩ allowed
      | reserved => simp +decide only [oplock]
      | exclusive kind => cases kind <;> simp +decide only [oplock]
      | breaking kind stage =>
        cases kind <;> cases stage <;> simp +decide only [oplock]
    unfold requestOplockII
    simp only [refused, Bool.false_eq_true, if_false]
    exact .answers live

/-! ## Acknowledgements -/

theorem endBreak_reaches {status : Status} (live : ∀ other ∈ waiting, cancelled other = false)
    (endsBreak : EndsBreak owner c) :
    ReachesOutcome cancelled c isOpen (.breaking kind stage owner waiting)
      ((endBreak cancelled ⟨none, some owner, [], waiting, noOplocksHeld⟩ true .success).after
        [.answered irp status information]) := by
  refine ⟨.idle, rfl, ?_, live_idle⟩
  refine .ends endsBreak (@quiet_answered irp information status) ?_
  simp only [Outcome.after, endBreak, completeWaitingIrps_live waiting live, dereference, if_true]
  rw [← append_assoc]
  exact perm_append_singleton _ _

/-- The owner of a broken oplock may keep a level II oplock. -/
theorem endBreak_reachesII (live : ∀ other ∈ waiting, cancelled other = false)
    (same : irp.fileObject = owner) (endsBreak : EndsBreak owner c) :
    let o : NonopaqueOplock := ⟨none, some owner, [irp], waiting, oplockIIGranted⟩
    let cancelledII := if cancelled irp then cancelOplockIIIrp cancelled o else (o, [])
    ReachesOutcome cancelled c isOpen (.breaking kind .toII owner waiting)
      ((endBreak cancelled cancelledII.1 false .pending).after (.granted irp :: cancelledII.2)) := by
  intro o cancelledII
  by_cases given : cancelled irp
  · have eq : cancelledII = (⟨none, some owner, [], waiting, noOplocksHeld⟩,
        removeAndCompleteIrp cancelled irp) := by
      simp [cancelledII, given, cancelOplockIIIrp, o]
    rw [eq]
    refine ⟨.idle, rfl, ?_, live_idle⟩
    simp only [Outcome.after, endBreak, completeWaitingIrps_live waiting live, removeAndCompleteIrp, given,
      if_true, Bool.false_eq_true, if_false, append_nil, cons_append, nil_append]
    exact .endsIICancelled irp _ endsBreak same
  · have eq : cancelledII = (o, []) := if_neg given
    rw [eq]
    refine ⟨.shared irp [], rfl, ?_, @live_exclusive _ _ .levelI (Bool.not_eq_true _ ▸ given)⟩
    simp only [o, Outcome.after, endBreak, completeWaitingIrps_live waiting live, Bool.false_eq_true,
      if_false, append_nil, cons_append, nil_append]
    exact .endsII irp endsBreak same

/-- Whoever does not own the oplock, or acknowledges a break that is not under
way, is told so. -/
theorem acknowledgeOplockBreak_moves {grantLevelII : Bool} (live : a.Live cancelled)
    (endsBreak : EndsBreak irp.fileObject c) :
    ReachesOutcome cancelled c isOpen a (acknowledgeOplockBreak cancelled a.oplock irp grantLevelII) := by
  unfold acknowledgeOplockBreak
  by_cases owns : a.oplock.fileObject = some irp.fileObject
  · rw [if_neg (not_not.mpr owns)]
    cases a with
    | idle | shared => exact nomatch owns
    | reserved =>
      simp +decide only [oplock, Bool.and_eq_true, and_false, if_false]
      exact .answers live
    | exclusive =>
      simp only [oplock, exclusive_flags, Bool.and_false, Bool.false_eq_true, if_false]
      exact .answers live
    | breaking kind stage owner =>
      have same : owner = irp.fileObject := Option.some.inj owns
      rw [← same] at endsBreak
      simp only [oplock, breaking_flags]
      split
      · next granted =>
        obtain rfl : stage = .toII := by simpa using (Bool.and_eq_true_iff.mp granted).2
        exact endBreak_reachesII live same.symm endsBreak
      · split
        · exact endBreak_reaches live endsBreak
        · split
          · exact endBreak_reaches live endsBreak
          · exact .answers live
  · rw [if_pos owns]
    exact .answers live

theorem closePending_bits (kind : Kind) (stage : Stage) :
    (kind.bits ||| exclusiveFlag ||| stage.bits) &&& ~~~oplockBreakMask ||| closePending =
      kind.bits ||| exclusiveFlag ||| Stage.closePending.bits := by
  cases kind <;> cases stage <;> decide

theorem opBatchBreakClosePending_moves (live : a.Live cancelled)
    (endsBreak : EndsBreak irp.fileObject c) :
    ReachesOutcome cancelled c isOpen a (opBatchBreakClosePending cancelled a.oplock irp) := by
  unfold opBatchBreakClosePending
  by_cases owns : a.oplock.fileObject = some irp.fileObject
  · rw [if_neg (not_not.mpr owns)]
    cases a with
    | idle | shared => exact nomatch owns
    | reserved =>
      simp +decide only [oplock, if_false]
      exact .answers live
    | exclusive =>
      simp only [oplock, exclusive_flags, Bool.false_eq_true, if_false]
      exact .answers live
    | breaking kind stage owner waiting =>
      have same : owner = irp.fileObject := Option.some.inj owns
      rw [← same] at endsBreak
      simp only [oplock, breaking_flags, closePending_bits]
      split
      · split
        · refine ⟨.idle, rfl, ?_, live_idle⟩
          simp only [dereference, completeWaitingIrps_live waiting live]
          refine .ends endsBreak (@quiet_answered irp none .success) ?_
          exact perm_append_comm.cons _
        · exact ⟨.breaking kind .closePending owner waiting, rfl,
            .closes kind stage owner waiting quiet_answered, live⟩
      · exact .answers live
  · rw [if_pos owns]
    exact .answers live

/-- A break notify waits only for a break, and a break never finds a reservation. -/
theorem oplockBreakNotify_moves (live : a.Live cancelled) (fresh : irp ∉ a.waitingIrps)
    (notWrite : irp.majorFunction ≠ .write) :
    ReachesOutcome cancelled c isOpen a (oplockBreakNotify cancelled pool a.oplock irp) := by
  unfold oplockBreakNotify
  cases a with
  | idle => exact .answers live
  | shared | reserved =>
    simp +decide only [oplock, if_true]
    exact .answers live
  | exclusive =>
    simp only [oplock, exclusive_flags, Bool.not_false, if_true]
    exact .answers live
  | breaking kind stage owner waiting =>
    have flags := breaking_flags kind stage
    rw [if_neg (by simp [oplock, flags]), if_neg (by simp [oplock, flags])]
    exact WaitsOutcome.goesOn (waitOnIrp_waits live fresh) fun eq => ⟨eq, notWrite⟩

/-! ## Cleanup -/

/-- The routine makes a move after which the package has nothing to do with
`fileObject` any more. -/
def Forgets (cancelled : Irp → Bool) (c : Call) (isOpen : FileObject → Prop) (fileObject : FileObject)
    (a : Ownership) (o : NonopaqueOplock) (events : List Event) : Prop :=
  ∃ a', o = a'.oplock ∧ Moves c isOpen a events a' ∧ a'.Live cancelled ∧ fileObject ∉ a'.referenced

theorem oplockCleanup_forgets (live : a.Live cancelled) (endsBreak : EndsBreak fileObject c) :
    Forgets cancelled c isOpen fileObject a (oplockCleanup cancelled a.oplock fileObject).1
      (oplockCleanup cancelled a.oplock fileObject).2 := by
  unfold oplockCleanup
  cases a with
  | idle => exact ⟨.idle, rfl, .stays quiet_nil, live, not_mem_nil⟩
  | shared first others =>
    have left (irps : List Irp) : fileObject ∉ (ofShared (irps.filter fun irp =>
        !decide (irp.fileObject = fileObject))).referenced := by
      rw [referenced_ofShared]
      intro mem
      obtain ⟨irp, mem, same⟩ := mem_map.mp mem
      simpa [same] using (mem_filter.mp mem).2
    refine ⟨.ofShared ((first :: others).filter fun irp => !decide (irp.fileObject = fileObject)), ?_, ?_,
      live_ofShared fun other mem => live.oplockIrps other (mem_of_mem_filter mem),
      left _⟩
    · rw [oplock_ofShared]
      simp +decide only [oplock, if_false, if_true, ne_eq, decide_not]
    · exact dropsII_filter (first :: others) fun irp => decide (irp.fileObject = fileObject)
  | reserved other =>
    simp +decide only [oplock, if_false]
    split
    · exact ⟨.idle, rfl, .unreserves other, live_idle, not_mem_nil⟩
    · exact ⟨.reserved other, rfl, .stays quiet_nil, live, not_mem_nil⟩
  | exclusive kind irp =>
    simp only [oplock, exclusive_flags, if_false]
    split
    · next owns =>
      obtain rfl : irp.fileObject = fileObject := Option.some.inj owns
      exact ⟨.idle, rfl, .drops kind irp _ _, live_idle, not_mem_nil⟩
    · next differ =>
      refine ⟨.exclusive kind irp, rfl, .stays quiet_nil, live, fun mem => differ ?_⟩
      rw [mem_singleton.mp mem]
  | breaking kind stage owner waiting =>
    simp only [oplock, breaking_flags, if_false]
    split
    · next owns =>
      obtain rfl : owner = fileObject := Option.some.inj owns
      refine ⟨.idle, rfl, .ends endsBreak quiet_nil ?_, live_idle, not_mem_nil⟩
      rw [completeWaitingIrps_live waiting live]
      exact .refl _
    · next differ =>
      refine ⟨.breaking kind stage owner waiting, rfl, .stays quiet_nil, live, fun mem => differ ?_⟩
      rw [mem_singleton.mp mem]

/-! ## Breaks -/

/-- A break begins or goes on, and the Irp that asked for it waits. -/
theorem WaitsOutcome.begins {other : Irp} (stage : Stage)
    (waits : WaitsOutcome cancelled kind stage irp.fileObject [] other outcome)
    (patient : other.majorFunction = .write → stage ≠ .toII) :
    ReachesOutcome cancelled c isOpen (.exclusive kind irp) (outcome.after [.broken irp .success information]) := by
  obtain ⟨waiting, eq, waits, live, -⟩ := waits
  exact ⟨.breaking kind stage irp.fileObject waiting, eq, .begins stage other information waits patient,
    live⟩

theorem oplockBreakToII_moves (live : a.Live cancelled) (fresh : irp ∉ a.waitingIrps)
    (notWrite : irp.majorFunction ≠ .write) :
    ReachesOutcome cancelled c isOpen a (oplockBreakToII cancelled pool a.oplock irp completionRoutine) := by
  unfold oplockBreakToII
  cases a with
  | idle => exact .stays live
  | shared =>
    simp +decide only [oplock, if_true]
    exact .stays live
  | reserved fileObject =>
    simp +decide only [oplock, if_false, if_true]
    split
    · exact .stays live
    · exact ⟨.idle, rfl, .unreserves fileObject, live_idle⟩
  | exclusive kind other =>
    have notCancelled : cancelled other = false := live other (mem_cons_self ..)
    simp only [oplock, exclusive_flags, Bool.not_true, Bool.not_false, Bool.false_eq_true,
      if_false, if_true, notCancelled]
    split
    · exact .stays live
    · by_cases shares : flagOn (kind.bits ||| exclusiveFlag) (levelIOplock ||| batchOplock)
      · simp only [shares, if_true]
        exact WaitsOutcome.begins .toII (waitForBreak_waits (forall_mem_nil _) not_mem_nil) fun write =>
          absurd write notWrite
      · simp only [shares, Bool.false_eq_true, if_false]
        exact WaitsOutcome.begins .toNone (waitForBreak_waits (forall_mem_nil _) not_mem_nil) fun write =>
          absurd write notWrite
  | breaking kind stage owner =>
    simp only [oplock, breaking_flags, Bool.not_true, Bool.false_eq_true, if_false]
    split
    · exact .stays live
    · exact WaitsOutcome.goesOn (waitForBreak_waits live fresh) fun eq => ⟨eq, notWrite⟩

theorem toIIToNone_bits (kind : Kind) :
    (kind.bits ||| exclusiveFlag ||| Stage.toII.bits) &&& ~~~breakToII ||| breakToIIToNone =
      kind.bits ||| exclusiveFlag ||| Stage.toIIToNone.bits := by
  cases kind <;> decide

/-- The routine makes a move, and it returns success only if nobody holds the
file afterwards. -/
def Clears (cancelled : Irp → Bool) (c : Call) (isOpen : FileObject → Prop) (a : Ownership) (outcome : Outcome) : Prop :=
  ∃ a', outcome.oplock = a'.oplock ∧ Moves c isOpen a outcome.events a' ∧ a'.Live cancelled ∧
    (outcome.reply = .returns .success → a' = .idle)

/-- Someone other than the owner waits, and a break that went to level II goes on
to none. -/
theorem waitUnlessOwner_clears (live : ∀ other ∈ waiting, cancelled other = false)
    (fresh : irp ∉ waiting) (notOwner : some owner ≠ some irp.fileObject) (onward : stage' ≠ .toII) :
    Clears cancelled c isOpen (.breaking kind stage owner waiting) (waitUnlessOwner cancelled pool
      (breaking kind stage' owner waiting).oplock irp completionRoutine) := by
  obtain ⟨waiting', eq, waits, live', fails⟩ : WaitsOutcome cancelled kind stage' owner waiting irp
      (waitForBreak cancelled pool (breaking kind stage' owner waiting).oplock irp
        completionRoutine) :=
    waitForBreak_waits live fresh
  unfold waitUnlessOwner
  rw [if_neg (show ¬ (breaking kind stage' owner waiting).oplock.fileObject =
    some irp.fileObject from notOwner)]
  exact ⟨.breaking kind stage' owner waiting', eq, .waits stage' irp waits fun eq => absurd eq onward,
    live', fun success => absurd success fails⟩

theorem oplockBreakToNone_clears (live : a.Live cancelled) (fresh : irp ∉ a.waitingIrps)
    (notOwner : a.oplock.fileObject ≠ some irp.fileObject) :
    Clears cancelled c isOpen a (oplockBreakToNone cancelled pool a.oplock irp completionRoutine) := by
  unfold oplockBreakToNone
  cases a with
  | idle => exact ⟨.idle, rfl, .stays quiet_nil, live, fun _ => rfl⟩
  | shared first others =>
    simp +decide only [oplock, if_false, if_true]
    refine ⟨.idle, rfl, ?_, live_idle, fun _ => rfl⟩
    have all : (first :: others).Perm ((first :: others) ++ []) := by rw [append_nil]
    exact .dropsII all (breaks_removeAndCompleteIrp _)
  | reserved fileObject =>
    simp +decide only [oplock, if_false, if_true]
    exact ⟨.idle, rfl, .unreserves fileObject, live_idle, fun _ => rfl⟩
  | exclusive kind other =>
    have notCancelled : cancelled other = false := live other (mem_cons_self ..)
    have notOther : ¬ some other.fileObject = some irp.fileObject := notOwner
    -- the break begins, and the Irp waits for it
    obtain ⟨waiting, eq, waits, live', fails⟩ : WaitsOutcome cancelled kind .toNone other.fileObject [] irp
        (waitForBreak cancelled pool (breaking kind .toNone other.fileObject []).oplock irp
          completionRoutine) :=
      waitForBreak_waits (forall_mem_nil _) not_mem_nil
    simp only [oplock, exclusive_flags, Bool.not_false, Bool.false_eq_true, if_false, if_true,
      notCancelled, waitUnlessOwner, notOther]
    exact ⟨.breaking kind .toNone other.fileObject waiting, eq, .begins .toNone irp _ waits fun _ => by decide,
      live', fun success => absurd success fails⟩
  | breaking kind stage =>
    simp only [oplock, breaking_flags, Bool.not_true, Bool.false_eq_true, if_false]
    split
    · next toII =>
      obtain rfl : stage = .toII := of_decide_eq_true toII
      rw [toIIToNone_bits]
      exact waitUnlessOwner_clears live fresh notOwner (by decide)
    · next notToII =>
      exact waitUnlessOwner_clears live fresh notOwner fun eq =>
        notToII (decide_eq_true eq)

/-! ## Cancellation -/

/-- `IoCancelIrp` takes its Irp off whatever list it is on. -/
theorem cancelIrp_moves (given : cancelled irp)
    (live : ∀ other ∈ a.oplockIrps ++ a.waitingIrps, other ≠ irp → cancelled other = false) :
    Reaches cancelled c isOpen a (cancelIrp cancelled a.oplock irp).1 (cancelIrp cancelled a.oplock irp).2 := by
  have spared (absent : irp ∉ a.oplockIrps ++ a.waitingIrps) : a.Live cancelled :=
    fun other mem => live other mem fun eq => absent (eq ▸ mem)
  have kept (irps : List Irp) :
      ∀ other ∈ irps.filter (fun other => !cancelled other), cancelled other = false := by
    simp
  unfold cancelIrp
  cases a with
  | idle => exact .stays live_idle
  | shared first others =>
    simp only [oplock, reduceCtorEq, if_false, not_mem_nil]
    by_cases mem : irp ∈ first :: others
    · have found : (first :: others).filter cancelled ≠ [] :=
        ne_nil_of_mem (mem_filter.mpr ⟨mem, given⟩)
      refine ⟨.ofShared ((first :: others).filter fun other => !cancelled other), ?_, ?_,
        live_ofShared (kept _)⟩
      · simp [mem, cancelOplockIIIrp, found]
      · simp only [mem, if_true, cancelOplockIIIrp]
        exact dropsII_filter (first :: others) cancelled
    · simp only [mem, if_false]
      exact .stays (spared (by simpa [oplockIrps, waitingIrps] using mem))
  | reserved => exact .stays live_reserved
  | exclusive kind other =>
    simp only [oplock, not_mem_nil, if_false]
    split
    · next same =>
      obtain rfl : other = irp := Option.some.inj same
      simp only [cancelExclusiveIrp, given, if_true]
      exact ⟨.idle, rfl, .drops kind other _ _, live_idle⟩
    · next differ =>
      refine .stays (spared fun mem => differ ?_)
      rw [mem_singleton.mp mem]
  | breaking kind stage owner waiting =>
    simp only [oplock, reduceCtorEq, if_false, not_mem_nil]
    by_cases mem : irp ∈ waiting
    · have all : (waiting.filter cancelled).map (removeAndCompleteWaitIrp cancelled) =
          (waiting.filter cancelled).map (.released · .cancelled) := by
        refine map_congr_left fun other mem => ?_
        simp [removeAndCompleteWaitIrp, (mem_filter.mp mem).2]
      simp only [mem, if_true, cancelWaitIrp, all]
      exact ⟨.breaking kind stage owner (waiting.filter fun other => !cancelled other), rfl,
        .withdraws (filter_append_perm cancelled waiting).symm (filter_subset_self _),
        kept _⟩
    · simp only [mem, if_false]
      exact .stays (spared mem)

end Routines

end Ntoskrnl.FsRtl.Oplock
