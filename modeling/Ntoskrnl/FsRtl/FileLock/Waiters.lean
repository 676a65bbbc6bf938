/-
# Ntoskrnl.FsRtl.FileLock.Waiters -- no waiter is forgotten

A request that waits is excluded by some lock: when it is queued, and again whenever an
unlock returns.  The pass over the queue grants the first waiter that may have its lock
and starts over, so each grant goes to the earliest waiter that can be served.  Every IRP
is in the queue or among the completed ones, once.
-/
import Mathlib.Data.List.Nodup
import Mathlib.Data.List.Perm.Basic
import Ntoskrnl.FsRtl.FileLock.Checks

namespace Ntoskrnl.FsRtl.FileLock

open Base Lib.SplayTree List Function

set_option autoImplicit false

/-! ## Conflicts -/

/-- A lock stands in the way of a request: a byte is in both ranges, and the request is
exclusive or the lock is an exclusive one of another owner. -/
def Lock.ConflictsWith (l : Lock) (r : Request) : Prop :=
  l.startingByte < r.byteOffset + r.length ∧ r.byteOffset < l.startingByte + l.length ∧
    (r.exclusiveLock ∨ (l.lockInfo.exclusiveLock ∧ ¬ l.OwnedBy r.key r.fileObject r.processId))

/-- The waiter may have its lock. -/
def WaitingLock.Grantable (w : WaitingLock) (s : State) : Prop :=
  w.cancel = false ∧ ∀ l ∈ s.granted, ¬ l.ConflictsWith w.request

variable {w : WaitingLock} {s : State} {r : Request}

section Conflicts

theorem sameOwner_iff (l : Lock) (r : Request) :
    l.lockInfo.sameOwner r.fileLockInfo ↔ l.OwnedBy r.key r.fileObject r.processId := by
  simp [FileLockInfo.sameOwner, Lock.OwnedBy, Request.fileLockInfo, and_assoc]

theorem excludes_iff (sound : Sound .bytes s) (admitted : Regime.bytes.Admits r.fileLockInfo)
    {l : Lock} (held : l ∈ s.granted) : l.Excludes r.fileLockInfo ↔ l.ConflictsWith r := by
  obtain ⟨properL, someL⟩ := sound.admitted l held
  obtain ⟨properR, someR⟩ := admitted
  have touches : l.Touches r.fileLockInfo.startingByte r.fileLockInfo.endingByte ↔
      l.startingByte < r.byteOffset + r.length ∧ r.byteOffset < l.startingByte + l.length := by
    have proper : l.Proper := properL
    unfold FileLockInfo.Proper at properR
    unfold Lock.Proper at proper
    have start : r.fileLockInfo.startingByte = r.byteOffset := rfl
    have length : r.fileLockInfo.length = r.length := rfl
    rw [Lock.Touches]
    omega
  have owner : l.lockInfo.sameOwner r.fileLockInfo = false ↔
      ¬ l.OwnedBy r.key r.fileObject r.processId := by
    rw [← sameOwner_iff, Bool.not_eq_true]
  rw [Lock.Excludes, touches, owner, and_assoc]
  rfl

/-- A request that fails its check is excluded by some lock. -/
theorem access_conflict (sound : Sound .bytes s) {info : FileLockInfo}
    (admitted : Regime.bytes.Admits info) (denied : (checkForLockAccess s info).1 = false) :
    ∃ l ∈ s.granted, l.Excludes info := by
  obtain ⟨proper, some_byte⟩ := admitted
  have range : info.startingByte ≤ info.endingByte := by
    unfold FileLockInfo.Proper at proper
    omega
  unfold checkForLockAccess at denied
  split at denied
  next exclusive =>
    rw [exclusiveAccess_eq, Bool.and_eq_false_iff, Bool.not_eq_false', Bool.not_eq_false'] at denied
    rcases denied with conflict | conflict
    · rcases findShared sound.shared (range.trans (Nat.le_succ _)) with
        ⟨loc, -, found⟩ | ⟨none_hit, -⟩
      · obtain ⟨l, inside, touches⟩ := found.exists_touches sound.shared (sound.tidy trivial).tight
          (fun l held => (sound.admitted l (State.mem_granted.mpr (Or.inr held))).2) range
        exact ⟨l, State.mem_granted.mpr (Or.inr inside), touches, Or.inl exclusive⟩
      · simp [sharedConflict, none_hit] at conflict
    · obtain ⟨l, inside, touches⟩ := exclusiveConflict_touches sound.exclusive range conflict
      exact ⟨l, State.mem_granted.mpr (Or.inl inside), touches, Or.inl exclusive⟩
  next =>
    obtain ⟨l, inside, touches, other⟩ := sharedAccess_conflict sound.exclusive range denied
    exact ⟨l, State.mem_granted.mpr (Or.inl inside), touches,
      .inr ⟨sound.exclusiveKind l inside, other⟩⟩

/-- A waiter a pass leaves in the queue is cancelled or conflicts with a lock. -/
theorem Denied.blocked (denied : Denied s w) (sound : Sound .bytes s)
    (queued : w ∈ s.waitingLocks) :
    w.cancel ∨ ∃ l ∈ s.granted, l.ConflictsWith w.request := by
  have admitted := sound.waiters w queued
  refine denied.imp_right fun ⟨seen, same, conflict⟩ => ?_
  obtain ⟨l, held, excludes⟩ := access_conflict ((same.quiet sound).sound sound) admitted conflict
  rw [same.granted] at held
  exact ⟨l, held, (excludes_iff sound admitted held).mp excludes⟩

theorem Denied.not_grantable (denied : Denied s w) (sound : Sound .bytes s)
    (queued : w ∈ s.waitingLocks) : ¬ w.Grantable s := by
  rintro ⟨active, free⟩
  rcases denied.blocked sound queued with cancelled | ⟨l, held, conflict⟩
  · rw [active] at cancelled
    cases cancelled
  · exact free l held conflict

/-! ## Granting waiters -/

/-- `w` is the earliest of the waiters that may have their locks. -/
def EarliestGrantable (s : State) (w : WaitingLock) (skipped behind : List WaitingLock) : Prop :=
  s.waitingLocks = skipped ++ w :: behind ∧ w.Grantable s ∧ ∀ v ∈ skipped, ¬ v.Grantable s

/-- The grants of a call, one after the other: each goes to the earliest waiter that may
have its lock, and the trees are no more than rebalanced before it. -/
inductive Grants : State → List WaitingLock → State → Prop
  | done {s s' : State} (frame : Frame s s') (same : s'.granted = s.granted) : Grants s [] s'
  | grant {s seen s' : State} {w : WaitingLock} {skipped behind ws : List WaitingLock}
      (earliest : EarliestGrantable s w skipped behind) (same : Reshaped s seen)
      (later : Grants (grantWaiter seen w (skipped ++ behind)) ws s') : Grants s (w :: ws) s'

/-- Every waiter that is not cancelled conflicts with a lock that is held. -/
def AllBlocked (s : State) : Prop :=
  ∀ w ∈ s.waitingLocks, w.cancel = false → ∃ l ∈ s.granted, l.ConflictsWith w.request

variable {seen : State} {skipped behind : List WaitingLock}

/-- What a grant needs to know of its waiter. -/
theorem EarliestGrantable.choice (earliest : EarliestGrantable s w skipped behind)
    (sound : Sound .bytes s) (same : Reshaped s seen) :
    w ∈ seen.waitingLocks ∧ (∀ v ∈ skipped ++ behind, v ∈ seen.waitingLocks) ∧
      ∀ l ∈ seen.granted, ¬ l.Excludes w.request.fileLockInfo := by
  obtain ⟨parts, ⟨-, free⟩, -⟩ := earliest
  have queued : w ∈ s.waitingLocks := by simp [parts]
  rw [same.frame.waitingLocks, same.granted]
  refine ⟨queued, fun v hv => ?_, fun l held excludes => ?_⟩
  · rw [parts]
    exact perm_middle.mem_iff.mpr (mem_cons_of_mem _ hv)
  · exact free l held ((excludes_iff sound (sound.waiters w queued) held).mp excludes)

theorem grantWaiter_logged {others : List WaitingLock}
    (sound : Sound .bytes s) (queued : w ∈ s.waitingLocks)
    (rest : ∀ v ∈ others, v ∈ s.waitingLocks)
    (free : ∀ l ∈ s.granted, ¬ l.Excludes w.request.fileLockInfo) :
    (grantWaiter s w others).waitingLocks = others ∧
      (grantWaiter s w others).completed = s.completed ++ [⟨w.irp, .success⟩] ∧
      (grantWaiter s w others).nextIrp = s.nextIrp := by
  have placed := insertLock_frame s w.request.fileLockInfo
  have inserted := (insertLock_tidy sound.shared (sound.waiters w queued).1 (sound.tidy trivial)).1
  have logged := complete_logged
    { (fsRtlPrivateInsertLock s w.request.fileLockInfo).2 with waitingLocks := others } w.irp
    .success (some w.request.fileLockInfo.fileObject)
  have granted : Logged { (fsRtlPrivateInsertLock s w.request.fileLockInfo).2 with
      waitingLocks := others } (completeGrant s w others).2 w.irp .success := by
    rw [completeGrant]
    rw [if_pos inserted]
    exact logged
  have after := (completeGrant_moves sound queued rest free).sound sound
  have completed : (completeGrant s w others).2.completed = s.completed ++ [⟨w.irp, .success⟩] := by
    rw [granted.completed, placed.completed]
  have next := granted.nextIrp.trans placed.nextIrp
  rw [grantWaiter_eq]
  split
  · have frame := removeLock_frame after w.request.fileLockInfo
    exact ⟨frame.waitingLocks.trans granted.waitingLocks, frame.completed.trans completed,
      frame.nextIrp.trans next⟩
  · exact ⟨granted.waitingLocks, completed, next⟩

/-- A pass that stops, stops at the earliest waiter that may have its lock. -/
theorem scanWaiters_earliest (sound : Sound .bytes s)
    (chosen : (scanWaiters s.waitingLocks s).1 = some (skipped, w, behind)) :
    EarliestGrantable s w skipped behind := by
  obtain ⟨-, -, free⟩ := scanWaiters_choice sound chosen
  rw [(scanWaiters_reshaped s.waitingLocks s).granted] at free
  obtain ⟨parts, active, -, denied⟩ := scanWaiters_some chosen
  have admitted := sound.waiters w (by simp [parts])
  refine ⟨parts, ⟨active, fun l held conflict => ?_⟩, fun v hv => ?_⟩
  · exact free l held ((excludes_iff sound admitted held).mpr conflict)
  · exact (denied v hv).not_grantable sound (by simp [parts, hv])

theorem checkWaitingLocksLoop_grants (queued : Nat) (sound : Sound .bytes s)
    (enough : s.waitingLocks.length ≤ queued) :
    AllBlocked (checkWaitingLocksLoop queued s) ∧
      ∃ ws, Grants s ws (checkWaitingLocksLoop queued s) := by
  induction queued generalizing s with
  | zero =>
    have empty := length_eq_zero_iff.mp (Nat.le_zero.mp enough)
    refine ⟨fun w queued => ?_, [], .done (.refl s) rfl⟩
    rw [checkWaitingLocksLoop, empty] at queued
    cases queued
  | succ queued ih =>
    have same := scanWaiters_reshaped s.waitingLocks s
    unfold checkWaitingLocksLoop
    dsimp only
    split
    next all_wait =>
      refine ⟨fun w inside active => ?_, [], .done same.frame same.granted⟩
      rw [same.frame.waitingLocks] at inside
      rw [same.granted]
      refine ((scanWaiters_none all_wait w inside).blocked sound inside).resolve_left ?_
      simp [active]
    next skipped w behind chosen =>
      have earliest := scanWaiters_earliest sound chosen
      have after := (same.quiet sound).sound sound
      obtain ⟨inQueue, rest, free⟩ := earliest.choice sound same
      have shorter := (grantWaiter_logged after inQueue rest free).1
      have fewer : (skipped ++ behind).length ≤ queued := by
        rw [earliest.1, length_append, length_cons] at enough
        rw [length_append]
        omega
      obtain ⟨blocked, ws, grants⟩ := ih
        ((grantWaiter_moves after inQueue rest free).sound after) (by rw [shorter]; exact fewer)
      exact ⟨blocked, w :: ws, .grant earliest same grants⟩

theorem checkWaitingLocks_grants (sound : Sound .bytes s) :
    AllBlocked (fsRtlPrivateCheckWaitingLocks s) ∧
      ∃ ws, Grants s ws (fsRtlPrivateCheckWaitingLocks s) :=
  checkWaitingLocksLoop_grants _ sound le_rfl

end Conflicts

/-! ## IRPs -/

namespace State

/-- The IRPs of the queue and of the record of completions. -/
def irps (s : State) : List Nat :=
  s.waitingLocks.map WaitingLock.irp ++ s.completed.map Completion.irp

/-- Every IRP that was queued or completed was given out, and is there once. -/
structure Once (s : State) : Prop where
  nodup : s.irps.Nodup
  fresh : ∀ irp ∈ s.irps, irp < s.nextIrp

end State

/-- IRPs went from the queue to the record at most. -/
structure Passed (s s' : State) : Prop where
  irps : s'.irps.Perm s.irps
  nextIrp : s'.nextIrp = s.nextIrp

variable {waiters : List WaitingLock} {s' : State}

namespace Passed

variable {s'' : State}

theorem refl (s : State) : Passed s s := ⟨.refl _, rfl⟩

theorem trans (first : Passed s s') (second : Passed s' s'') : Passed s s'' :=
  ⟨second.irps.trans first.irps, second.nextIrp.trans first.nextIrp⟩

theorem of_frame (frame : Frame s s') : Passed s s' :=
  ⟨by rw [State.irps, frame.waitingLocks, frame.completed, State.irps], frame.nextIrp⟩

/-- One IRP goes from the queue to the record. -/
theorem of_move {passed : List WaitingLock} {status : NtStatus}
    (queue : s.waitingLocks = passed ++ w :: waiters)
    (shorter : s'.waitingLocks = passed ++ waiters)
    (completed : s'.completed = s.completed ++ [⟨w.irp, status⟩]) (nextIrp : s'.nextIrp = s.nextIrp) :
    Passed s s' := by
  refine ⟨?_, nextIrp⟩
  rw [State.irps, State.irps, queue, shorter, completed]
  simp only [map_append, map_cons, map_nil, append_assoc, cons_append]
  refine .append_left _ ?_
  rw [← append_assoc]
  exact perm_append_comm

theorem once (moved : Passed s s') (once : s.Once) : s'.Once :=
  ⟨moved.irps.nodup_iff.mpr once.nodup, fun irp inside => by
    rw [moved.nextIrp]
    exact once.fresh irp (moved.irps.mem_iff.mp inside)⟩

end Passed

variable {ws : List WaitingLock}

/-- Grants pass the IRPs of the waiters on, in order; the others keep their places. -/
theorem Grants.logged (grants : Grants s ws s') (sound : Sound .bytes s) :
    s'.completed = s.completed ++ ws.map (fun w => ⟨w.irp, .success⟩) ∧ Passed s s' ∧
      s.waitingLocks.Perm (ws ++ s'.waitingLocks) ∧ s'.waitingLocks <+ s.waitingLocks := by
  induction grants with
  | done frame =>
    refine ⟨by simp [frame.completed], Passed.of_frame frame, ?_⟩
    rw [frame.waitingLocks]
    exact ⟨.refl _, .refl _⟩
  | @grant s seen s' w skipped behind ws earliest same later ih =>
    have after := (same.quiet sound).sound sound
    obtain ⟨inQueue, rest, free⟩ := earliest.choice sound same
    obtain ⟨shorter, completed, nextIrp⟩ := grantWaiter_logged after inQueue rest free
    rw [same.frame.completed] at completed
    obtain ⟨record, passed, leave, stay⟩ := ih ((grantWaiter_moves after inQueue rest free).sound after)
    rw [shorter] at leave stay
    refine ⟨?_, .trans (.of_move earliest.1 shorter completed
      (nextIrp.trans same.frame.nextIrp)) passed, ?_, ?_⟩
    · rw [record, completed, map_cons, append_assoc, singleton_append]
    · rw [earliest.1]
      exact perm_middle.trans (leave.cons w)
    · rw [earliest.1]
      exact stay.trans ((Sublist.refl skipped).append (sublist_cons_self w behind))

theorem AllBlocked.mono (blocked : AllBlocked s)
    (waiters : ∀ w ∈ s'.waitingLocks, w ∈ s.waitingLocks)
    (locks : ∀ l ∈ s.granted, l ∈ s'.granted) : AllBlocked s' := fun w queued active => by
  obtain ⟨l, held, conflict⟩ := blocked w (waiters w queued) active
  exact ⟨l, locks l held, conflict⟩

/-! ## Calls -/

/-- Waiters stay blocked, and at most the IRP of the call joins the others. -/
structure Served (irp : Option Nat) (s s' : State) : Prop where
  blocked : AllBlocked s → AllBlocked s'
  irps : s'.irps.Perm s.irps ∨ ∃ i ∈ irp, s'.irps.Perm (i :: s.irps)
  nextIrp : s'.nextIrp = s.nextIrp

variable {irp : Option Nat}

namespace Served

variable {s'' : State}

theorem of_passed (blocked : AllBlocked s → AllBlocked s') (passed : Passed s s') :
    Served irp s s' :=
  ⟨blocked, .inl passed.irps, passed.nextIrp⟩

theorem passed (served : Served none s s') : Passed s s' :=
  ⟨served.irps.resolve_right (by simp), served.nextIrp⟩

theorem refl (s : State) : Served irp s s :=
  of_passed id (.refl s)

theorem trans (first : Served none s s') (second : Served irp s' s'') : Served irp s s'' := by
  refine ⟨fun blocked => second.blocked (first.blocked blocked), ?_,
    second.nextIrp.trans first.nextIrp⟩
  have moved := first.passed.irps
  rcases second.irps with same | ⟨i, isIrp, more⟩
  · exact .inl (same.trans moved)
  · exact .inr ⟨i, isIrp, more.trans (.cons i moved)⟩

theorem append (first : Served irp s s') (second : Served none s' s'') : Served irp s s'' := by
  refine ⟨fun blocked => second.blocked (first.blocked blocked), ?_,
    second.nextIrp.trans first.nextIrp⟩
  have moved := second.passed.irps
  exact first.irps.imp moved.trans fun ⟨i, isIrp, more⟩ => ⟨i, isIrp, moved.trans more⟩

theorem of_frame (frame : Frame s s') (locks : ∀ l ∈ s.granted, l ∈ s'.granted) : Served irp s s' :=
  of_passed (fun blocked => blocked.mono (fun _ queued => frame.waitingLocks ▸ queued) locks)
    (.of_frame frame)

end Served

theorem Reshaped.served (same : Reshaped s s') (irp : Option Nat) : Served irp s s' :=
  .of_frame same.frame fun _ held => same.granted ▸ held

/-- A bulk unlock completes the waiters of its owner that are not cancelled. -/
def WaitingLock.abortedBy (owner : Option Owner) (w : WaitingLock) : Bool :=
  owner.any fun o => o.owns w.request.fileObject w.request.processId w.request.key && !w.cancel

/-- What an unlock does for the waiters: locks are taken away; with a bulk unlock the waiters of
its owner leave the queue; and then locks are granted to waiters that are left in the queue.
Whoever leaves it is completed, and the others stay in order. -/
def ServesWaiters (s s' : State) (owner : Option Owner) : Prop :=
  ∃ (removed : State) (granted : List WaitingLock), (∀ l ∈ removed.granted, l ∈ s.granted) ∧
    removed.waitingLocks = s.waitingLocks.filter (fun w => !w.abortedBy owner) ∧
    Grants removed granted s' ∧
    (removed.waitingLocks.Perm (granted ++ s'.waitingLocks) ∧
      s'.waitingLocks <+ removed.waitingLocks) ∧
    s'.completed = s.completed ++
      (s.waitingLocks.filter (·.abortedBy owner)).map (fun w => ⟨w.irp, .rangeNotLocked⟩) ++
      granted.map (fun w => ⟨w.irp, .success⟩)

/-- An unlock that keeps the waiters blocked and serves them. -/
abbrev Unlocks (s s' : State) (owner : Option Owner) : Prop :=
  Served none s s' ∧ ServesWaiters s s' owner

/-- An unlock that finds nothing to do, and no waiter to complete. -/
theorem unlocks_frame {owner : Option Owner} (frame : Frame s s') (same : s'.granted = s.granted)
    (others : ∀ w ∈ s.waitingLocks, w.abortedBy owner = false) : Unlocks s s' owner := by
  have aborted : s.waitingLocks.filter (·.abortedBy owner) = [] :=
    filter_eq_nil_iff.mpr fun w queued => by simp [others w queued]
  have stay : s.waitingLocks.filter (fun w => !w.abortedBy owner) = s.waitingLocks :=
    filter_eq_self.mpr fun w queued => by simp [others w queued]
  refine ⟨.of_frame frame fun _ held => same ▸ held, s, [], fun _ held => held, stay.symm,
    .done frame same, ?_, ?_⟩
  · rw [frame.waitingLocks]
    exact ⟨.refl _, .refl _⟩
  · simp [aborted, frame.completed]

theorem unlocks_refl (s : State) : Unlocks s s none :=
  unlocks_frame (Frame.refl s) rfl fun _ _ => rfl

theorem thenCheckWaiters_served {removed : NtStatus × State} (sound : Sound .bytes removed.2)
    (removal : Removal s removed) : Unlocks s (thenCheckWaiters removed).2 none := by
  unfold thenCheckWaiters
  split
  · obtain ⟨allBlocked, ws, grants⟩ := checkWaitingLocks_grants sound
    obtain ⟨completed, passed, leave⟩ := grants.logged sound
    refine ⟨.of_passed (fun _ => allBlocked)
      ((Passed.of_frame removal.frame).trans passed), removed.2, ws, removal.fewer, ?_,
      grants, leave, ?_⟩
    · simp [removal.frame.waitingLocks, WaitingLock.abortedBy]
    · simp [completed, removal.frame.completed, WaitingLock.abortedBy]
  next failed =>
    rw [removal.kept failed]
    exact unlocks_refl s

section Single

variable (sound : Sound .bytes s) (t : Target)

include sound

theorem unlockSingleExclusive_served : Unlocks s (fsRtlFastUnlockSingleExclusive s t).2 none :=
  thenCheckWaiters_served ((removeExclusive_moves sound t).sound sound)
    (removeExclusive_removal sound t)

theorem unlockSingleShared_served : Unlocks s (fsRtlFastUnlockSingleShared s t).2 none :=
  thenCheckWaiters_served ((removeShared_moves sound t).sound sound) (removeShared_removal sound t)

/-- An exclusive unlock that finds no lock changes nothing. -/
theorem unlockSingleExclusive_failed (failed : (fsRtlFastUnlockSingleExclusive s t).1 ≠ .success) :
    (fsRtlFastUnlockSingleExclusive s t).2 = s := by
  unfold fsRtlFastUnlockSingleExclusive thenCheckWaiters at failed ⊢
  split
  next success =>
    rw [if_pos success] at failed
    exact absurd success failed
  next notFound => exact (removeExclusive_removal sound t).kept notFound

theorem unlockSingle_served : Unlocks s (fsRtlFastUnlockSingle s t).2 none := by
  unfold fsRtlFastUnlockSingle
  dsimp only
  split
  · exact unlocks_refl s
  · split
    · exact unlockSingleExclusive_served sound t
    next failed =>
      rw [unlockSingleExclusive_failed sound t failed]
      exact unlockSingleShared_served sound t

end Single

theorem privateRemoveLock_served (sound : Sound .bytes s) (info : FileLockInfo) :
    Served none s (fsRtlPrivateRemoveLock s info) := by
  unfold fsRtlPrivateRemoveLock
  split
  · exact (unlockSingleExclusive_served sound info.target).1
  · exact (unlockSingleShared_served sound info.target).1

theorem complete_served (s : State) (irp : Nat) (status : NtStatus) (fileObject : Option Nat) :
    Served (some irp) s (fsRtlCompleteLockIrp s irp status fileObject).2 := by
  have logged := complete_logged s irp status fileObject
  refine ⟨fun blocked => blocked.mono (fun w queued => logged.waitingLocks ▸ queued)
    fun l held => logged.granted ▸ held, .inr ⟨irp, rfl, ?_⟩, logged.nextIrp⟩
  rw [State.irps, logged.waitingLocks, logged.completed, map_append, ← append_assoc]
  exact perm_append_comm

theorem completeLock_served (sound : Sound .bytes s) (info : FileLockInfo)
    (irp : Option Nat) (status : NtStatus) :
    Served irp s (completeLock s info irp status).2 := by
  unfold completeLock
  cases irp with
  | none => exact .refl s
  | some irp =>
    have completed := complete_served s irp status (some info.fileObject)
    have after := (complete_quiet sound irp status (some info.fileObject)).sound sound
    dsimp only
    split
    · exact completed.append (privateRemoveLock_served after info)
    · exact completed

theorem unqueue_served {passed : List WaitingLock} (status : NtStatus)
    (queue : s.waitingLocks = passed ++ w :: waiters) :
    Served none s
      (fsRtlCompleteLockIrp { s with waitingLocks := passed ++ waiters } w.irp status none).2 := by
  have logged := complete_logged { s with waitingLocks := passed ++ waiters } w.irp status none
  have moves := Passed.of_move queue logged.waitingLocks logged.completed logged.nextIrp
  refine Served.of_passed (fun blocked => blocked.mono (fun v inside => ?_) fun l held => ?_) moves
  · rw [logged.waitingLocks] at inside
    rw [queue]
    exact perm_middle.mem_iff.mpr (mem_cons_of_mem _ inside)
  · rw [logged.granted]
    exact held

theorem cancelFileLockIrp_served (s : State) (irp : Nat) :
    Served none s (fsRtlPrivateCancelFileLockIrp s irp) := by
  unfold fsRtlPrivateCancelFileLockIrp
  split
  next queued =>
    obtain ⟨w, inQueue, isIrp⟩ := any_eq_true.mp queued
    obtain ⟨v, passed, waiters, -, hit, queue, shorter⟩ :=
      exists_of_eraseP (p := fun w => w.irp == irp) inQueue isIrp
    rw [beq_iff_eq] at hit
    rw [shorter, ← hit]
    exact unqueue_served .cancelled queue
  · exact .refl s

theorem waitForLock_served (sound : Sound .bytes s)
    (conflict : ∃ l ∈ s.granted, l.ConflictsWith r) (failImmediately : Bool) (irp : Option Nat)
    (cancelled : Bool) : Served irp s (waitForLock s r failImmediately irp cancelled).2 := by
  unfold waitForLock
  split
  · exact completeLock_served sound r.fileLockInfo irp .lockNotGranted
  · cases irp with
    | none => exact .refl s
    | some irp =>
      dsimp only
      split
      · exact .of_frame ⟨rfl, rfl, rfl, rfl, rfl, le_rfl⟩ fun _ held => held
      · have queued : Served (some irp) s { s with
            pool := (allocate s.pool).2
            waitingLocks := s.waitingLocks ++ [⟨irp, r, cancelled⟩] } := by
          refine ⟨fun blocked => ?_, .inr ⟨irp, rfl, ?_⟩, rfl⟩
          · exact forall_mem_append.mpr ⟨blocked, forall_mem_singleton.mpr fun _ => conflict⟩
          · rw [State.irps, map_append, append_assoc]
            exact perm_middle
        split
        · exact queued.append (cancelFileLockIrp_served _ irp)
        · exact queued

theorem initializeFileLock_served (sound : Sound .bytes s) (irp : Option Nat) :
    Served irp s (fsRtlPrivateInitializeFileLock s).2 := by
  have quiet := (initializeFileLock_quiet sound).1
  unfold fsRtlPrivateInitializeFileLock at quiet ⊢
  split
  · exact .refl s
  next idle =>
    split
    · exact .of_frame ⟨rfl, rfl, rfl, rfl, rfl, le_rfl⟩ fun _ held => held
    · have none_waiting := (sound.idle (by simpa using idle)).2
      refine .of_passed (fun _ w queued => ?_) ⟨?_, rfl⟩
      · cases queued
      · rw [State.irps, State.irps, none_waiting]

theorem lock_served (sound : Sound .bytes s) (admitted : Regime.bytes.Admits r.fileLockInfo)
    (failImmediately : Bool) (irp : Option Nat) (cancelled : Bool) :
    Served irp s (fsRtlPrivateLock s r failImmediately irp cancelled).2 := by
  obtain ⟨initialized, isReady⟩ := initializeFileLock_quiet sound
  have first := initialized.sound sound
  have same := access_reshaped (fsRtlPrivateInitializeFileLock s).2 r.fileLockInfo
  have second := (same.quiet first).sound first
  have both := (initializeFileLock_served sound none).trans (same.served none)
  unfold fsRtlPrivateLock
  dsimp only
  split
  · exact initializeFileLock_served sound irp
  next done =>
    have ready := same.frame.lockInformation.trans (isReady (by simpa using done))
    split
    next denied =>
      obtain ⟨l, held, excludes⟩ := access_conflict first admitted denied
      rw [← same.granted] at held
      exact both.trans (waitForLock_served second
        ⟨l, held, (excludes_iff second admitted held).mp excludes⟩ failImmediately irp cancelled)
    next passed =>
      have free := access_free first admitted (by simpa using passed)
      rw [← same.granted] at free
      have inserted := insertLock_moves second admitted free ready
      have keeps : ∀ {irp : Option Nat}, Served irp _ _ := fun {irp} =>
        .of_frame (insertLock_frame ..) (insertLock_keeps second admitted free)
      split
      · exact both.trans keeps
      · exact both.trans (keeps.trans
          (completeLock_served (inserted.sound second) r.fileLockInfo irp .success))

theorem abortWaiters_served (o : Owner) (passed waiters : List WaitingLock)
    (queue : s.waitingLocks = passed ++ waiters) :
    Served none s (abortWaiters o passed waiters s) ∧
      (abortWaiters o passed waiters s).waitingLocks =
        passed ++ waiters.filter (fun w => !w.abortedBy (some o)) ∧
      (abortWaiters o passed waiters s).completed = s.completed ++
        (waiters.filter (·.abortedBy (some o))).map (fun w => ⟨w.irp, .rangeNotLocked⟩) := by
  induction waiters generalizing passed s with
  | nil =>
    rw [abortWaiters]
    rw [append_nil] at queue
    refine ⟨.of_frame ⟨queue.symm, rfl, rfl, rfl, rfl, le_rfl⟩ fun _ held => held, ?_, ?_⟩ <;> simp
  | cons w waiters ih =>
    have aborted : w.abortedBy (some o) ↔
        o.owns w.request.fileObject w.request.processId w.request.key ∧ w.cancel = false := by
      simp [WaitingLock.abortedBy]
    unfold abortWaiters
    split
    next owned =>
      have unqueued := unqueue_served .rangeNotLocked queue
      have logged := complete_logged { s with waitingLocks := passed ++ waiters } w.irp
        .rangeNotLocked none
      obtain ⟨served, left, completed⟩ := ih passed logged.waitingLocks
      refine ⟨unqueued.trans served, ?_, ?_⟩
      · simp [left, aborted.mpr owned]
      · simp [completed, logged.completed, aborted.mpr owned]
    next other =>
      obtain ⟨served, left, completed⟩ := ih (passed ++ [w]) (by simpa using queue)
      have stays : w.abortedBy (some o) = false := by simpa using mt aborted.mp other
      exact ⟨served, by simp [left, stays], by simp [completed, stays]⟩

theorem abortWaiters_granted (o : Owner) (passed waiters : List WaitingLock) (s : State) :
    (abortWaiters o passed waiters s).granted = s.granted := by
  induction waiters generalizing passed s with
  | nil => rfl
  | cons w waiters ih =>
    unfold abortWaiters
    split
    · rw [ih, (complete_logged ..).granted]
      rfl
    · exact ih ..

theorem Grants.append_frame {s'' : State} (grants : Grants s ws s') (frame : Frame s' s'')
    (same : s''.granted = s'.granted) : Grants s ws s'' := by
  induction grants with
  | done before kept => exact .done (before.trans frame) (same.trans kept)
  | grant earliest reshaped _ ih => exact .grant earliest reshaped (ih frame same)

theorem unlockAll_served (sound : Sound .bytes s) (blocked : AllBlocked s) (o : Owner) :
    Unlocks s (fsRtlPrivateFastUnlockAll s o).2 (some o) := by
  by_cases ready : s.lockInformation
  · have forgotten : Frame s (s.setLastLock o.fileObject none) :=
      ⟨rfl, rfl, rfl, rfl, rfl, le_rfl⟩
    have first := (setLastLock_quiet sound o.fileObject).sound sound
    rcases unlockAll_eq s o ready with ⟨empty, same⟩ | same
    · -- Without a lock only cancelled waiters can be in the queue.
      rw [same]
      refine unlocks_frame forgotten rfl fun w queued => ?_
      cases cancelled : w.cancel with
      | true => simp [WaitingLock.abortedBy, cancelled]
      | false =>
        obtain ⟨l, held, -⟩ := blocked w queued cancelled
        rw [empty] at held
        cases held
    · have dropped := unlockGranted_dropped o first.shared
      have unlocked := forgotten.trans dropped.frame
      have second : Sound .bytes (unlockGranted (s.setLastLock o.fileObject none) o) :=
        first.move (.drop o dropped (update_self ..))
      obtain ⟨aborting, left, record⟩ :=
        abortWaiters_served o [] s.waitingLocks unlocked.waitingLocks
      have third := (abortWaiters_moves o [] s.waitingLocks second sound.waiters
        (unlocked.lockInformation.trans ready)).sound second
      obtain ⟨allBlocked, ws, grants⟩ := checkWaitingLocks_grants third
      obtain ⟨completed, passed, leave⟩ := grants.logged third
      have reset (last : State) : Frame last (fsRtlPrivateResetLowestLockOffset last) :=
        ⟨rfl, rfl, rfl, rfl, rfl, le_rfl⟩
      rw [same]
      refine ⟨.of_passed (fun _ => allBlocked) ?_, _, ws, fun l held => ?_, left,
        grants.append_frame (reset _) rfl, leave, ?_⟩
      · exact (Passed.of_frame unlocked).trans
          (aborting.passed.trans (passed.trans (.of_frame (reset _))))
      · rw [abortWaiters_granted] at held
        exact (dropped.fewerExclusive.append dropped.fewerShared).subset held
      · rw [(reset _).completed, completed, record, unlocked.completed]
  · unfold fsRtlPrivateFastUnlockAll
    rw [if_pos (by simpa using ready)]
    refine unlocks_frame (Frame.refl s) rfl fun w queued => ?_
    rw [(sound.idle (by simpa using ready)).2] at queued
    cases queued

/-! ## Runs -/

/-- The owner a bulk unlock names. -/
def Operation.owner? : Operation → Option Owner
  | .unlockAll fileObject processId => some ⟨fileObject, processId, none⟩
  | .unlockAllByKey fileObject processId key => some ⟨fileObject, processId, some key⟩
  | _ => none

def Operation.isUnlock : Operation → Bool
  | .unlockSingle _ => true
  | .unlockAll _ _ => true
  | .unlockAllByKey _ _ _ => true
  | _ => false

section Runs

theorem markCancelled_served (s : State) (irp : Nat) :
    Served none s { s with waitingLocks := markCancelled irp s.waitingLocks } := by
  refine .of_passed (fun blocked w queued active => ?_) ⟨?_, rfl⟩
  · obtain ⟨v, inQueue, rfl⟩ := mem_map.mp queued
    split at active
    · cases active
    next other =>
      rw [if_neg other]
      exact blocked v inQueue active
  · have same : (markCancelled irp s.waitingLocks).map WaitingLock.irp =
        s.waitingLocks.map WaitingLock.irp := by
      rw [markCancelled, map_map]
      refine map_congr_left fun w _ => ?_
      simp only [comp]
      split <;> rfl
    rw [State.irps, State.irps, same]

/-- What holds between any two calls. -/
structure Waiting (s : State) : Prop where
  blocked : AllBlocked s
  once : s.Once

variable {c : Call}

theorem Served.waiting (served : Served none s s') (waiting : Waiting s) : Waiting s' :=
  ⟨served.blocked waiting.blocked, served.passed.once waiting.once⟩

/-- A lock call uses a new IRP. -/
theorem Served.waiting_lock (served : Served irp { s with nextIrp := s.nextIrp + 1 } s')
    (isNext : ∀ i ∈ irp, i = s.nextIrp) (waiting : Waiting s) : Waiting s' := by
  refine ⟨served.blocked waiting.blocked, ?_⟩
  have later : ∀ i ∈ s.irps, i < s'.nextIrp := fun i inside => by
    have := waiting.once.fresh i inside
    rw [served.nextIrp]
    exact Nat.lt_succ_of_lt this
  rcases served.irps with same | ⟨i, isIrp, more⟩
  · exact ⟨same.nodup_iff.mpr waiting.once.nodup, fun i inside => later i (same.mem_iff.mp inside)⟩
  · obtain rfl := isNext i isIrp
    refine ⟨more.nodup_iff.mpr (nodup_cons.mpr ⟨fun inside => ?_, waiting.once.nodup⟩),
      fun i inside => ?_⟩
    · exact absurd (waiting.once.fresh _ inside) (lt_irrefl _)
    · rcases mem_cons.mp (more.mem_iff.mp inside) with rfl | inside
      · rw [served.nextIrp]
        exact Nat.lt_succ_self _
      · exact later i inside

section Steps

variable (sound : Sound .bytes s) (waiting : Waiting s)

include sound waiting

theorem perform_waiting (operation : Operation)
    (request : ∀ r ∈ operation.request?, Regime.bytes.Admits r.fileLockInfo) :
    Waiting (perform s operation) := by
  cases operation with
  | lock r failImmediately byIrp cancelled =>
    have numbered := (sound.withPool (fun plentiful => (sound.tidy plentiful).plenty) s.replies
      (s.nextIrp + 1)).sound sound
    refine (lock_served numbered (request r rfl) failImmediately _ cancelled).waiting_lock ?_ waiting
    cases byIrp with
    | false => exact nofun
    | true => exact fun i isIrp => (Option.mem_some_iff.mp isIrp).symm
  | unlockSingle t => exact (unlockSingle_served sound t).1.waiting waiting
  | unlockAll
  | unlockAllByKey => exact (unlockAll_served sound waiting.blocked _).1.waiting waiting
  | cancelRequested irp => exact (markCancelled_served s irp).waiting waiting
  | cancelRoutine irp => exact (cancelFileLockIrp_served s irp).waiting waiting
  | readCheck => exact ((readCheck_reshaped ..).served none).waiting waiting
  | writeCheck => exact ((writeCheck_reshaped ..).served none).waiting waiting

theorem step_waiting (admitted : c.Admitted .bytes) : Waiting (c.step s) := by
  have supplied := (sound.withPool admitted.plenty c.replies s.nextIrp).sound sound
  exact perform_waiting supplied
    ⟨waiting.blocked, waiting.once.nodup, waiting.once.fresh⟩ c.operation admitted.request

theorem run_waiting {calls : List Call} (admitted : ∀ c ∈ calls, c.Admitted .bytes) :
    Waiting (run s calls) := by
  induction calls generalizing s with
  | nil => exact waiting
  | cons c calls ih =>
    obtain ⟨first, later⟩ := forall_mem_cons.mp admitted
    exact ih ((step_moves sound first).sound sound) (step_waiting sound waiting first) later

end Steps

theorem initialize_waiting (completeLockIrpRoutine unlockRoutine : Bool) :
    Waiting (fsRtlInitializeFileLock completeLockIrpRoutine unlockRoutine) where
  blocked := nofun
  once := ⟨nodup_nil, nofun⟩

theorem step_servesWaiters (sound : Sound .bytes s) (blocked : AllBlocked s)
    (plenty : Plenty c.pool)
    (unlock : c.operation.isUnlock) : ServesWaiters s (c.step s) c.operation.owner? := by
  have supplied := (sound.withPool (fun _ => plenty) c.replies s.nextIrp).sound sound
  obtain ⟨operation, pool, replies⟩ := c
  cases operation with
  | unlockSingle t => exact (unlockSingle_served supplied t).2
  | unlockAll
  | unlockAllByKey => exact (unlockAll_served supplied blocked _).2
  | lock | cancelRequested | cancelRoutine | readCheck | writeCheck => cases unlock

end Runs

/-- **No waiter that can be served is left behind.**  When an unlock call returns after a
run of calls on non-empty ranges without a failed allocation, every waiter that is not
cancelled conflicts with a lock that is held; the waiters it has granted were each the
earliest one that could be; and no IRP has been completed twice or is still queued. -/
theorem unlock_serves_waiters (calls : List Call) (completeLockIrpRoutine unlockRoutine : Bool)
    (fits : ∀ c ∈ calls, c.Requests fun r => r.NoWrap ∧ r.length ≠ 0)
    (plenty : ∀ c ∈ calls, Plenty c.pool) (unlock : Call) (served : Plenty unlock.pool)
    (isUnlock : unlock.operation.isUnlock) :
    let s := run (fsRtlInitializeFileLock completeLockIrpRoutine unlockRoutine) calls
    let s' := unlock.step s
    AllBlocked s' ∧ ServesWaiters s s' unlock.operation.owner? ∧
      (s'.completed.map Completion.irp).Nodup ∧
      ∀ w ∈ s'.waitingLocks, w.irp ∉ s'.completed.map Completion.irp := by
  intro s s'
  have admitted : ∀ c ∈ calls, c.Admitted .bytes := fun c hc =>
    admitted_bytes (fits c hc) (plenty c hc)
  have start := initialize_sound .bytes completeLockIrpRoutine unlockRoutine
  have sound : Sound .bytes s := run_sound admitted completeLockIrpRoutine unlockRoutine
  have waiting : Waiting s := run_waiting start (initialize_waiting ..) admitted
  have noRequest : unlock.operation.request? = none := by
    cases operation : unlock.operation with
    | lock => rw [operation] at isUnlock; cases isUnlock
    | _ => rfl
  have after : Waiting s' := step_waiting sound waiting
    ⟨by rw [noRequest]; exact nofun, fun _ => served⟩
  obtain ⟨-, once, apart⟩ := nodup_append.mp after.once.nodup
  refine ⟨after.blocked, step_servesWaiters sound waiting.blocked served isUnlock, once, fun w queued again => ?_⟩
  exact apart w.irp (mem_map_of_mem queued) w.irp again rfl

/-- Two owners wait for the bytes of a third one.  Its unlock serves the first of them, which
then is in the way of the second. -/
theorem unlock_serves_waiters_two_waiters : let calls : List Call :=
      [tryLock 0 10 true 1, ⟨.lock ⟨0, 5, true, 2, 2, 0⟩ false true false, [], []⟩,
        ⟨.lock ⟨3, 5, true, 3, 3, 0⟩ false true false, [], []⟩]
    let s := run (fsRtlInitializeFileLock false false) calls
    let s' := Call.step s ⟨.unlockSingle ⟨1, 0, 10, 1, 0⟩, [], []⟩
    s.waitingLocks.map WaitingLock.irp = [1, 2] ∧ s'.waitingLocks.map WaitingLock.irp = [2] ∧
      s'.completed.map Completion.irp = [1] ∧ AllBlocked s' ∧ ServesWaiters s s' none := by
  have all := unlock_serves_waiters [tryLock 0 10 true 1,
      ⟨.lock ⟨0, 5, true, 2, 2, 0⟩ false true false, [], []⟩,
      ⟨.lock ⟨3, 5, true, 3, 3, 0⟩ false true false, [], []⟩] false false (by decide)
    (by unfold Plenty; decide) ⟨.unlockSingle ⟨1, 0, 10, 1, 0⟩, [], []⟩ (by unfold Plenty; decide) rfl
  exact ⟨by decide +kernel, by decide +kernel, by decide +kernel, all.1, all.2.1⟩

end Ntoskrnl.FsRtl.FileLock
