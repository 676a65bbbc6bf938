/-
# Ntoskrnl.FsRtl.FileLock.Calls -- every call is a sequence of moves

Routine by routine: inserting and removing locks, completing requests, granting waiters,
and the calls of the file system.

Two locks that overlap are both shared, or one is exclusive and the other one a shared
lock of the same owner.  This holds in every run without a lock on the empty range at
offset 0, as long as the pool serves every allocation or every exclusive lock covers a
byte; `exclusion_fails` has a run against each of the two conditions.
-/
import Ntoskrnl.FsRtl.FileLock.Effects

namespace Ntoskrnl.FsRtl.FileLock

open Base Lib.SplayTree List Function

set_option autoImplicit false

variable {queue : List WaitingLock} {info : FileLockInfo} {w : WaitingLock} {r : Request}
  {g : Regime}

section Routines

variable {s s' : State}

/-! ## Quiet routines -/

theorem Quiet.moves (quiet : Quiet g s s') : Moves g s s' :=
  .single (.quiet quiet)

theorem Reshaped.quiet (same : Reshaped s s') (sound : Sound g s) : Quiet g s s' where
  shared := same.shared
  exclusive := same.exclusive
  lastLock := fun fileObject => .inl (by rw [same.lastLock])
  lowest := fun bounds => bounds.mono (fun _ held => same.granted ▸ held) same.lowestLockOffset
  waiters := same.frame.waitingLocks ▸ sound.waiters
  plenty := fun plentiful => same.pool ▸ (sound.tidy plentiful).plenty
  idle := fun idle => by
    rw [same.frame.lockInformation] at idle
    exact ⟨idle, same.frame.waitingLocks.trans (sound.idle idle).2⟩
  nextAddress := same.frame.nextAddress

/-- The queue, the hints and the record of completions change; the locks do not. -/
theorem Sound.requeue (sound : Sound g s) {hints : Nat → Option Lock}
    (fewer : ∀ fileObject, hints fileObject = s.lastLock fileObject ∨ hints fileObject = none)
    (waiters : ∀ w ∈ queue, g.Admits w.request.fileLockInfo)
    (idle : s.lockInformation = false → queue = []) (completed : List Completion)
    (replies : List NtStatus) :
    Quiet g s { s with
      lastLock := hints, waitingLocks := queue, completed := completed, replies := replies } where
  shared := rfl
  exclusive := rfl
  lastLock := fewer
  lowest := id
  waiters := waiters
  plenty := fun plentiful => (sound.tidy plentiful).plenty
  idle := fun none_yet => ⟨none_yet, idle none_yet⟩
  nextAddress := le_rfl

theorem Sound.withPool (sound : Sound g s) {pool : List Bool} (plenty : g.plentiful → Plenty pool)
    (replies : List NtStatus) (nextIrp : Nat) :
    Quiet g s { s with pool := pool, replies := replies, nextIrp := nextIrp } where
  shared := rfl
  exclusive := rfl
  lastLock := fun _ => .inl rfl
  lowest := id
  waiters := sound.waiters
  plenty := plenty
  idle := fun idle => ⟨idle, (sound.idle idle).2⟩
  nextAddress := le_rfl

theorem Sound.withQueue (sound : Sound g s) (waiters : ∀ w ∈ queue, g.Admits w.request.fileLockInfo)
    (idle : s.lockInformation = false → queue = []) :
    Quiet g s { s with waitingLocks := queue } :=
  sound.requeue (fun _ => .inl rfl) waiters idle s.completed s.replies

theorem fewer_update (hints : Nat → Option Lock) (fo fileObject : Nat) :
    update hints fo none fileObject = hints fileObject ∨
      update hints fo none fileObject = none := by
  by_cases same : fileObject = fo
  · subst same
    exact .inr (update_self ..)
  · exact .inl (update_of_ne same ..)

theorem setLastLock_quiet (sound : Sound g s) (fileObject : Nat) :
    Quiet g s (s.setLastLock fileObject none) :=
  sound.requeue (fewer_update s.lastLock fileObject) sound.waiters
    (fun idle => (sound.idle idle).2) s.completed s.replies

theorem complete_quiet (sound : Sound g s) (irp : Nat) (status : NtStatus)
    (fileObject : Option Nat) : Quiet g s (fsRtlCompleteLockIrp s irp status fileObject).2 := by
  have idle := fun idle => (sound.idle idle).2
  unfold fsRtlCompleteLockIrp
  split
  · cases fileObject with
    | none => exact sound.requeue (fun _ => .inl rfl) sound.waiters idle _ _
    | some fo => exact sound.requeue (fewer_update s.lastLock fo) sound.waiters idle _ _
  · exact sound.requeue (fun _ => .inl rfl) sound.waiters idle _ _

theorem resetLowestLockOffset_quiet (sound : Sound g s) :
    Quiet g s (fsRtlPrivateResetLowestLockOffset s) where
  shared := rfl
  exclusive := rfl
  lastLock := fun _ => .inl rfl
  lowest := resetLowestLockOffset_bounds sound.shared.sorted sound.exclusive.sorted
  waiters := sound.waiters
  plenty := fun plentiful => (sound.tidy plentiful).plenty
  idle := fun idle => ⟨idle, (sound.idle idle).2⟩
  nextAddress := le_rfl

/-! ## Granting and taking -/

theorem Refused.granted (refused : Refused s s') : s'.granted = s.granted := by
  rw [State.granted, State.sharedLocks_congr refused.shared,
    State.exclusiveLocks_congr refused.exclusive, State.granted]

section Insertion

variable (sound : Sound g s) (admitted : g.Admits info) (free : ∀ l ∈ s.granted, ¬ l.Excludes info)

include sound admitted free

/-- A lock that nothing excludes is granted, or nothing changes. -/
theorem insertLock_outcome :
    ((fsRtlPrivateInsertLock s info).1 = false ∧ Refused s (fsRtlPrivateInsertLock s info).2) ∨
      Placed s (fsRtlPrivateInsertLock s info).2 ⟨s.nextAddress, info⟩ :=
  (insertLock_cases sound.shared sound.exclusive (g.proper admitted) fun exclusive l held touches =>
    free l (State.mem_granted.mpr (Or.inl held)) ⟨touches, Or.inl exclusive⟩).imp_right And.right

theorem insertLock_keeps : ∀ l ∈ s.granted, l ∈ (fsRtlPrivateInsertLock s info).2.granted := by
  intro l held
  rcases insertLock_outcome sound admitted free with ⟨-, refused⟩ | placed
  · rw [refused.granted]
    exact held
  · exact placed.mem_granted.mpr (.inr held)

theorem insertLock_moves (ready : s.lockInformation) :
    Moves g s (fsRtlPrivateInsertLock s info).2 := by
  have full := fun plentiful =>
    insertLock_tidy sound.shared (g.proper admitted) (sound.tidy plentiful)
  rcases insertLock_outcome sound admitted free with ⟨refused, same⟩ | placed
  · refine Quiet.moves ⟨by rw [same.shared], by rw [same.exclusive],
      fun fileObject => Or.inl (by rw [same.lastLock]), fun bounds => ?_,
      same.frame.waitingLocks ▸ sound.waiters, fun plentiful => ?_, fun idle => ?_,
      same.frame.nextAddress⟩
    · exact bounds.mono (fun l held => same.granted ▸ held) same.lowestLockOffset
    · rw [(full plentiful).1] at refused
      exact absurd refused (by decide)
    · rw [same.frame.lockInformation, ready] at idle
      exact absurd idle (by decide)
  · exact Relation.ReflTransGen.single
      (Move.grant _ admitted ready free placed fun plentiful => (full plentiful).2)

end Insertion

variable {t : Target}

theorem Target.matchesLock_fileObject {l : Lock} (named : t.matchesLock l) :
    l.lockInfo.fileObject = t.fileObject := by
  simp only [Target.matchesLock, Bool.and_eq_true, beq_iff_eq] at named
  exact named.1.1.1.1

variable {removed : NtStatus × State} {skipped behind waiters : List WaitingLock}

theorem Removes.moves (removes : Removes s t removed) : Moves g s removed.2 := by
  rcases removes with ⟨-, same⟩ | ⟨-, l, named, took⟩
  · rw [same]
  · rw [← Target.matchesLock_fileObject named] at took
    exact .single (.take l took)

theorem removeShared_moves (sound : Sound g s) (t : Target) : Moves g s (removeShared s t).2 :=
  (removeShared_removes t sound.shared sound.exclusive).moves

theorem removeExclusive_moves (sound : Sound g s) (t : Target) :
    Moves g s (removeExclusive s t).2 :=
  (removeExclusive_removes t sound.shared sound.exclusive).moves

/-- A removal takes locks away, or fails and changes nothing. -/
structure Removal (s : State) (removed : NtStatus × State) : Prop where
  frame : Frame s removed.2
  fewer : ∀ l ∈ removed.2.granted, l ∈ s.granted
  kept : removed.1 ≠ .success → removed.2 = s

theorem Removes.removal (removes : Removes s t removed) : Removal s removed := by
  rcases removes with ⟨-, same⟩ | ⟨success, l, -, took⟩
  · exact ⟨same ▸ .refl s, fun _ held => same ▸ held, fun _ => same⟩
  · exact ⟨took.frame, fun _ held => (took.fewerExclusive.append took.fewerShared).subset held,
      fun failed => absurd success failed⟩

theorem removeShared_removal (sound : Sound g s) (t : Target) : Removal s (removeShared s t) :=
  (removeShared_removes t sound.shared sound.exclusive).removal

theorem removeExclusive_removal (sound : Sound g s) (t : Target) :
    Removal s (removeExclusive s t) :=
  (removeExclusive_removes t sound.shared sound.exclusive).removal

theorem removeLock_frame (sound : Sound g s) (info : FileLockInfo) :
    Frame s (removeLock s info) := by
  unfold removeLock
  split
  · exact (removeExclusive_removal sound info.target).frame
  · exact (removeShared_removal sound info.target).frame

theorem removeLock_moves (sound : Sound g s) (info : FileLockInfo) :
    Moves g s (removeLock s info) := by
  unfold removeLock
  split
  · exact removeExclusive_moves sound info.target
  · exact removeShared_moves sound info.target

/-! ## Waiters -/

/-- A waiter that a pass over the queue leaves there. -/
def Denied (s : State) (w : WaitingLock) : Prop :=
  w.cancel ∨ ∃ seen, Reshaped s seen ∧ (checkForLockAccess seen w.request.fileLockInfo).1 = false

theorem Denied.of_reshaped (denied : Denied s' w) (same : Reshaped s s') : Denied s w := by
  rcases denied with cancelled | ⟨seen, still, conflict⟩
  · exact .inl cancelled
  · exact .inr ⟨seen, same.trans still, conflict⟩

theorem denied_of_not
    (passed : ¬ ((checkForLockAccess s w.request.fileLockInfo).1 ∧ w.cancel = false)) :
    Denied s w := by
  by_cases cancelled : w.cancel
  · exact .inl cancelled
  · refine .inr ⟨s, .refl s, ?_⟩
    by_contra granted
    exact passed ⟨by simpa using granted, by simpa using cancelled⟩

theorem scanWaiters_reshaped (waiters : List WaitingLock) (s : State) :
    Reshaped s (scanWaiters waiters s).2 := by
  induction waiters generalizing s with
  | nil => exact .refl s
  | cons w waiters ih =>
    have same := access_reshaped s w.request.fileLockInfo
    unfold scanWaiters
    dsimp only
    split
    · exact same
    · exact same.trans (ih _)

theorem scanWaiters_none (all_wait : (scanWaiters waiters s).1 = none) :
    ∀ w ∈ waiters, Denied s w := by
  induction waiters generalizing s with
  | nil => simp
  | cons w waiters ih =>
    unfold scanWaiters at all_wait
    dsimp only at all_wait
    split at all_wait
    · simp at all_wait
    next passed =>
      rw [Option.map_eq_none_iff] at all_wait
      refine forall_mem_cons.mpr ⟨denied_of_not passed, fun v hv => ?_⟩
      exact (ih all_wait v hv).of_reshaped (access_reshaped s w.request.fileLockInfo)

/-- The waiter a pass stops at, and those it has passed. -/
theorem scanWaiters_some (chosen : (scanWaiters waiters s).1 = some (skipped, w, behind)) :
    waiters = skipped ++ w :: behind ∧ w.cancel = false ∧
      (∃ seen, Reshaped s seen ∧ (checkForLockAccess seen w.request.fileLockInfo).1) ∧
      ∀ v ∈ skipped, Denied s v := by
  induction waiters generalizing s skipped with
  | nil => simp [scanWaiters] at chosen
  | cons v waiters ih =>
    unfold scanWaiters at chosen
    dsimp only at chosen
    split at chosen
    next passed =>
      obtain ⟨rfl, rfl, rfl⟩ := chosen
      exact ⟨rfl, passed.2, ⟨s, .refl s, passed.1⟩, by simp⟩
    next waits =>
      simp only [Option.map_eq_some_iff, Prod.mk.injEq, Prod.exists] at chosen
      obtain ⟨later, x, rest, inner, rfl, rfl, rfl⟩ := chosen
      have same := access_reshaped s v.request.fileLockInfo
      obtain ⟨parts, open_, ⟨seen, still, granted⟩, passed⟩ := ih inner
      refine ⟨by rw [parts, cons_append], open_, ⟨seen, same.trans still, granted⟩, ?_⟩
      exact forall_mem_cons.mpr ⟨denied_of_not waits, fun u hu => (passed u hu).of_reshaped same⟩

/-- A waiter has its lock and is completed. -/
def completeGrant (s : State) (w : WaitingLock) (others : List WaitingLock) : NtStatus × State :=
  let inserted := fsRtlPrivateInsertLock s w.request.fileLockInfo
  fsRtlCompleteLockIrp { inserted.2 with waitingLocks := others } w.irp
    (if inserted.1 then .success else .insufficientResources)
    (some w.request.fileLockInfo.fileObject)

theorem grantWaiter_eq (s : State) (w : WaitingLock) (others : List WaitingLock) :
    grantWaiter s w others = if (fsRtlPrivateInsertLock s w.request.fileLockInfo).1 ∧
          (completeGrant s w others).1.ntSuccess = false then
        removeLock (completeGrant s w others).2 w.request.fileLockInfo
      else (completeGrant s w others).2 := rfl

theorem Sound.ready (sound : Sound g s) (queued : w ∈ s.waitingLocks) : s.lockInformation := by
  by_contra idle
  rw [(sound.idle (by simpa using idle)).2] at queued
  exact absurd queued (by simp)

theorem not_idle (ready : s.lockInformation) : s.lockInformation = false → queue = [] :=
  fun idle => absurd (ready.symm.trans idle) (by decide)

variable {others : List WaitingLock}

section Granting

variable (sound : Sound g s) (queued : w ∈ s.waitingLocks) (rest : ∀ v ∈ others, v ∈ s.waitingLocks)
  (free : ∀ l ∈ s.granted, ¬ l.Excludes w.request.fileLockInfo)

include sound queued rest free

theorem completeGrant_moves : Moves g s (completeGrant s w others).2 := by
  have inserted : Moves g s (fsRtlPrivateInsertLock s w.request.fileLockInfo).2 :=
    insertLock_moves sound (sound.waiters w queued) free (sound.ready queued)
  have placed := inserted.sound sound
  have unqueued := placed.withQueue (fun v hv => sound.waiters v (rest v hv))
    (not_idle ((insertLock_frame ..).lockInformation.trans (sound.ready queued)))
  exact inserted.trans (unqueued.moves.trans (complete_quiet (unqueued.sound placed) ..).moves)

theorem grantWaiter_moves : Moves g s (grantWaiter s w others) := by
  have completed := completeGrant_moves sound queued rest free
  rw [grantWaiter_eq]
  split
  · exact completed.trans (removeLock_moves (completed.sound sound) _)
  · exact completed

end Granting

/-- The waiter a pass stops at may be granted its lock. -/
theorem scanWaiters_choice (sound : Sound g s)
    (chosen : (scanWaiters s.waitingLocks s).1 = some (skipped, w, behind)) :
    w ∈ (scanWaiters s.waitingLocks s).2.waitingLocks ∧
      (∀ v ∈ skipped ++ behind, v ∈ (scanWaiters s.waitingLocks s).2.waitingLocks) ∧
      ∀ l ∈ (scanWaiters s.waitingLocks s).2.granted, ¬ l.Excludes w.request.fileLockInfo := by
  have pass := scanWaiters_reshaped s.waitingLocks s
  obtain ⟨parts, -, ⟨seen, same, granted⟩, -⟩ := scanWaiters_some chosen
  rw [pass.frame.waitingLocks, pass.granted, ← same.granted, parts]
  refine ⟨by simp, fun v hv => ?_, ?_⟩
  · exact perm_middle.mem_iff.mpr (mem_cons_of_mem _ hv)
  · exact access_free ((same.quiet sound).sound sound) (sound.waiters w (by simp [parts])) granted

theorem checkWaitingLocksLoop_moves (queued : Nat) (sound : Sound g s) :
    Moves g s (checkWaitingLocksLoop queued s) := by
  induction queued generalizing s with
  | zero => exact .refl
  | succ queued ih =>
    have pass := (scanWaiters_reshaped s.waitingLocks s).quiet sound
    unfold checkWaitingLocksLoop
    dsimp only
    split
    · exact pass.moves
    next skipped w behind chosen =>
      obtain ⟨inQueue, rest, free⟩ := scanWaiters_choice sound chosen
      have granting := grantWaiter_moves (pass.sound sound) inQueue rest free
      exact pass.moves.trans (granting.trans (ih (granting.sound (pass.sound sound))))

theorem checkWaitingLocks_moves (sound : Sound g s) : Moves g s (fsRtlPrivateCheckWaitingLocks s) :=
  checkWaitingLocksLoop_moves _ sound

/-- An IRP has been completed. -/
structure Logged (s s' : State) (irp : Nat) (status : NtStatus) : Prop where
  waitingLocks : s'.waitingLocks = s.waitingLocks
  completed : s'.completed = s.completed ++ [⟨irp, status⟩]
  nextIrp : s'.nextIrp = s.nextIrp
  lockInformation : s'.lockInformation = s.lockInformation
  granted : s'.granted = s.granted

theorem complete_logged (s : State) (irp : Nat) (status : NtStatus) (fileObject : Option Nat) :
    Logged s (fsRtlCompleteLockIrp s irp status fileObject).2 irp status := by
  unfold fsRtlCompleteLockIrp
  repeat' split
  all_goals exact ⟨rfl, rfl, rfl, rfl, rfl⟩

theorem abortWaiters_moves (o : Owner) (passed waiters : List WaitingLock) (sound : Sound g s)
    (queue : ∀ w ∈ passed ++ waiters, g.Admits w.request.fileLockInfo)
    (ready : s.lockInformation) : Moves g s (abortWaiters o passed waiters s) := by
  induction waiters generalizing passed s with
  | nil => exact (sound.withQueue (by simpa using queue) (not_idle ready)).moves
  | cons w waiters ih =>
    unfold abortWaiters
    split
    · have fewer : ∀ v ∈ passed ++ waiters, g.Admits v.request.fileLockInfo := fun v hv =>
        queue v (by rcases mem_append.mp hv with hv | hv <;> simp [hv])
      have unqueued := sound.withQueue fewer (not_idle ready)
      have completed := complete_quiet (unqueued.sound sound) w.irp .rangeNotLocked none
      have later := ih passed (completed.sound (unqueued.sound sound)) fewer
        ((complete_logged ..).lockInformation.trans ready)
      exact unqueued.moves.trans (completed.moves.trans later)
    · exact ih (passed ++ [w]) sound (by simpa using queue) ready

/-! ## Unlocking -/

section Unlocking

variable (sound : Sound g s)

include sound

theorem thenCheckWaiters_moves (moves : Moves g s removed.2) :
    Moves g s (thenCheckWaiters removed).2 := by
  unfold thenCheckWaiters
  split
  · exact moves.trans (checkWaitingLocks_moves (moves.sound sound))
  · exact moves

theorem unlockSingle_moves (t : Target) : Moves g s (fsRtlFastUnlockSingle s t).2 := by
  have exclusive : Moves g s (fsRtlFastUnlockSingleExclusive s t).2 :=
    thenCheckWaiters_moves sound (removeExclusive_moves sound t)
  unfold fsRtlFastUnlockSingle
  dsimp only
  split
  · exact .refl
  · split
    · exact exclusive
    · have middle := exclusive.sound sound
      exact exclusive.trans (thenCheckWaiters_moves middle (removeShared_moves middle t))

theorem privateRemoveLock_moves (info : FileLockInfo) :
    Moves g s (fsRtlPrivateRemoveLock s info) := by
  unfold fsRtlPrivateRemoveLock
  split
  · exact thenCheckWaiters_moves sound (removeExclusive_moves sound _)
  · exact thenCheckWaiters_moves sound (removeShared_moves sound _)

omit sound in
theorem unlockAll_eq (s : State) (o : Owner) (ready : s.lockInformation) :
    (s.granted = [] ∧ (fsRtlPrivateFastUnlockAll s o).2 = s.setLastLock o.fileObject none) ∨
      (fsRtlPrivateFastUnlockAll s o).2 =
        fsRtlPrivateResetLowestLockOffset (fsRtlPrivateCheckWaitingLocks
          (abortWaiters o [] s.waitingLocks (unlockGranted (s.setLastLock o.fileObject none) o))) := by
  unfold fsRtlPrivateFastUnlockAll
  rw [if_neg (by simp [ready])]
  dsimp only
  split
  next shared exclusive =>
    have noExclusive : s.exclusiveLockTree = .nil := exclusive
    have noShared : s.sharedLockTree = .nil := shared
    exact .inl ⟨by simp [State.granted, State.exclusiveLocks, State.sharedLocks, noExclusive,
      noShared], rfl⟩
  · exact .inr rfl

theorem unlockAll_moves (o : Owner) : Moves g s (fsRtlPrivateFastUnlockAll s o).2 := by
  by_cases ready : s.lockInformation
  · have forgotten := setLastLock_quiet sound o.fileObject
    have first := forgotten.sound sound
    rcases unlockAll_eq s o ready with ⟨-, same⟩ | same
    · rw [same]
      exact forgotten.moves
    · have dropped := unlockGranted_dropped o first.shared
      have unlocked : Moves g (s.setLastLock o.fileObject none)
          (unlockGranted (s.setLastLock o.fileObject none) o) :=
        .single (.drop o dropped (update_self ..))
      have second := unlocked.sound first
      have aborted := abortWaiters_moves o [] s.waitingLocks second sound.waiters
        (dropped.frame.lockInformation.trans ready)
      have third := aborted.sound second
      have checked := checkWaitingLocks_moves third
      rw [same]
      exact forgotten.moves.trans (unlocked.trans (aborted.trans (checked.trans
        (resetLowestLockOffset_quiet (checked.sound third)).moves)))
  · unfold fsRtlPrivateFastUnlockAll
    rw [if_pos (by simpa using ready)]

/-! ## Lock requests and cancellation -/

theorem cancelFileLockIrp_moves (irp : Nat) : Moves g s (fsRtlPrivateCancelFileLockIrp s irp) := by
  unfold fsRtlPrivateCancelFileLockIrp
  split
  · have fewer := eraseP_subset (l := s.waitingLocks) (p := fun w => w.irp == irp)
    have unqueued := sound.withQueue (fun w hw => sound.waiters w (fewer hw)) fun idle => by
      rw [(sound.idle idle).2, eraseP_nil]
    exact unqueued.moves.trans (complete_quiet (unqueued.sound sound) ..).moves
  · exact .refl

theorem completeLock_moves (info : FileLockInfo) (irp : Option Nat) (status : NtStatus) :
    Moves g s (completeLock s info irp status).2 := by
  unfold completeLock
  cases irp with
  | none => exact .refl
  | some irp =>
    have completed := complete_quiet sound irp status (some info.fileObject)
    dsimp only
    split
    · exact completed.moves.trans (privateRemoveLock_moves (completed.sound sound) info)
    · exact completed.moves

theorem allocate_quiet : Quiet g s { s with pool := (allocate s.pool).2 } :=
  sound.withPool (fun plentiful => (sound.tidy plentiful).plenty.allocate.2) s.replies s.nextIrp

end Unlocking

theorem waitForLock_moves (sound : Sound g s) (admitted : g.Admits r.fileLockInfo)
    (ready : s.lockInformation) (failImmediately : Bool) (irp : Option Nat)
    (cancelled : Bool) : Moves g s (waitForLock s r failImmediately irp cancelled).2 := by
  unfold waitForLock
  split
  · exact completeLock_moves sound r.fileLockInfo irp .lockNotGranted
  · cases irp with
    | none => exact .refl
    | some irp =>
      have allocated := allocate_quiet sound
      have first := allocated.sound sound
      dsimp only
      split
      · exact allocated.moves
      · have longer : ∀ w ∈ s.waitingLocks ++ [⟨irp, r, cancelled⟩],
            g.Admits w.request.fileLockInfo := by
          simpa [or_imp, forall_and] using ⟨sound.waiters, admitted⟩
        have queued := first.withQueue longer (not_idle ready)
        have waits := allocated.moves.trans queued.moves
        split
        · exact waits.trans (cancelFileLockIrp_moves (queued.sound first) irp)
        · exact waits

theorem initializeFileLock_quiet (sound : Sound g s) :
    Quiet g s (fsRtlPrivateInitializeFileLock s).2 ∧ ((fsRtlPrivateInitializeFileLock s).1 →
        (fsRtlPrivateInitializeFileLock s).2.lockInformation) := by
  unfold fsRtlPrivateInitializeFileLock
  split
  next ready => exact ⟨(Reshaped.refl s).quiet sound, fun _ => ready⟩
  next idle =>
    split
    · exact ⟨allocate_quiet sound, nofun⟩
    · obtain ⟨none_held, -⟩ := sound.idle (by simpa using idle)
      obtain ⟨exclusive, shared⟩ := append_eq_nil_iff.mp none_held
      refine ⟨⟨?_, exclusive.symm, fun _ => .inl rfl, fun _ l held => ?_, by simp,
        fun plentiful => (sound.tidy plentiful).plenty.allocate.2, nofun, le_rfl⟩, fun _ => rfl⟩
      · -- a node holds at least one lock
        cases nodes : inorder s.sharedLockTree with
        | nil => rfl
        | cons => simp [State.sharedLocks, nodes, LockTreeNode.locks] at shared
      · simp [State.granted, State.exclusiveLocks, State.sharedLocks] at held

theorem lock_moves (sound : Sound g s) (admitted : g.Admits r.fileLockInfo) (failImmediately : Bool)
    (irp : Option Nat) (cancelled : Bool) :
    Moves g s (fsRtlPrivateLock s r failImmediately irp cancelled).2 := by
  obtain ⟨initialized, isReady⟩ := initializeFileLock_quiet sound
  have first := initialized.sound sound
  have checked := (access_reshaped _ r.fileLockInfo).quiet first
  have second := checked.sound first
  have both := initialized.moves.trans checked.moves
  unfold fsRtlPrivateLock
  dsimp only
  split
  · exact initialized.moves
  next done =>
    have ready : (checkForLockAccess (fsRtlPrivateInitializeFileLock s).2
        r.fileLockInfo).2.lockInformation :=
      (access_reshaped ..).frame.lockInformation.trans (isReady (by simpa using done))
    split
    · exact both.trans (waitForLock_moves second admitted ready failImmediately irp cancelled)
    next passed =>
      have free := access_free first admitted (by simpa using passed)
      rw [← checked.granted] at free
      have inserted := insertLock_moves second admitted free ready
      split
      · exact both.trans inserted
      · exact both.trans (inserted.trans
          (completeLock_moves (inserted.sound second) r.fileLockInfo irp .success))

/-! ## Reading and writing -/

theorem checkNoExclusiveConflict_inorder (tree : BinaryTree Lock)
    (starting ending key fileObject processId : Nat) :
    inorder (fsRtlCheckNoExclusiveConflict tree starting ending key fileObject processId).2 =
      inorder tree := by
  exact inorder_rebalance ..

theorem checkNoSharedConflict_inorder (tree : BinaryTree LockTreeNode) (starting ending : Nat) :
    inorder (fsRtlCheckNoSharedConflict tree starting ending).2 = inorder tree := by
  have same := inorder_rebalance (fun n => overlapProbe .stop starting ending n.first n.extent) tree
  unfold fsRtlCheckNoSharedConflict
  dsimp only
  repeat' split
  all_goals exact same

theorem reshaped_trees (s : State) {shared : BinaryTree LockTreeNode} {exclusive : BinaryTree Lock}
    (sameShared : inorder shared = inorder s.sharedLockTree)
    (sameExclusive : inorder exclusive = inorder s.exclusiveLockTree) :
    Reshaped s { s with sharedLockTree := shared, exclusiveLockTree := exclusive } :=
  ⟨⟨rfl, rfl, rfl, rfl, rfl, le_rfl⟩, sameShared, sameExclusive, rfl, rfl, rfl⟩

theorem readCheck_reshaped (s : State) (startingByte length key fileObject processId : Nat) :
    Reshaped s (fsRtlFastCheckLockForRead s startingByte length key fileObject processId).2 := by
  have searched := reshaped_trees s rfl (checkNoExclusiveConflict_inorder s.exclusiveLockTree
    startingByte (endingByteOf startingByte length) key fileObject processId)
  unfold fsRtlFastCheckLockForRead
  dsimp only
  repeat' split
  all_goals first
    | exact .refl s
    | exact searched

theorem writeCheck_reshaped (s : State) (startingByte length key fileObject processId : Nat) :
    Reshaped s (fsRtlFastCheckLockForWrite s startingByte length key fileObject processId).2 := by
  have shared := checkNoSharedConflict_inorder s.sharedLockTree startingByte
    (endingByteOf startingByte length)
  have exclusive := checkNoExclusiveConflict_inorder s.exclusiveLockTree startingByte
    (endingByteOf startingByte length) key fileObject processId
  have one := reshaped_trees s shared rfl
  have both := reshaped_trees s shared exclusive
  unfold fsRtlFastCheckLockForWrite
  dsimp only
  repeat' split
  all_goals first
    | exact .refl s
    | exact one
    | exact both

/-! ## Runs -/

/-- The lock a call asks for. -/
def Operation.request? : Operation → Option Request
  | .lock r _ _ _ => some r
  | _ => none

/-- The request of a call and its pool are those of a regime. -/
structure Call.Admitted (g : Regime) (c : Call) : Prop where
  request : ∀ r ∈ c.operation.request?, g.Admits r.fileLockInfo
  plenty : g.plentiful → Plenty c.pool

theorem markCancelled_quiet (sound : Sound g s) (irp : Nat) :
    Quiet g s { s with waitingLocks := markCancelled irp s.waitingLocks } := by
  refine sound.withQueue (fun w hw => ?_) fun idle => ?_
  · obtain ⟨v, queued, rfl⟩ := mem_map.mp hw
    have admitted := sound.waiters v queued
    split
    · exact admitted
    · exact admitted
  · rw [(sound.idle idle).2]
    rfl

theorem perform_moves (sound : Sound g s) (operation : Operation)
    (request : ∀ r ∈ operation.request?, g.Admits r.fileLockInfo) :
    Moves g s (perform s operation) := by
  cases operation with
  | lock r =>
    have numbered := sound.withPool (fun plentiful => (sound.tidy plentiful).plenty) s.replies
      (s.nextIrp + 1)
    exact numbered.moves.trans (lock_moves (numbered.sound sound) (request r rfl) ..)
  | unlockSingle t => exact unlockSingle_moves sound t
  | unlockAll
  | unlockAllByKey => exact unlockAll_moves sound _
  | cancelRequested irp => exact (markCancelled_quiet sound irp).moves
  | cancelRoutine irp => exact cancelFileLockIrp_moves sound irp
  | readCheck => exact ((readCheck_reshaped ..).quiet sound).moves
  | writeCheck => exact ((writeCheck_reshaped ..).quiet sound).moves

theorem step_moves (sound : Sound g s) {c : Call} (admitted : c.Admitted g) :
    Moves g s (c.step s) := by
  have supplied := sound.withPool admitted.plenty c.replies s.nextIrp
  exact supplied.moves.trans (perform_moves (supplied.sound sound) c.operation admitted.request)

variable {calls : List Call}

theorem run_moves (sound : Sound g s) (admitted : ∀ c ∈ calls, c.Admitted g) :
    Moves g s (run s calls) := by
  induction calls generalizing s with
  | nil => exact .refl
  | cons c calls ih =>
    obtain ⟨first, later⟩ := forall_mem_cons.mp admitted
    have step := step_moves sound first
    exact step.trans (ih (step.sound sound) later)

theorem initialize_sound (g : Regime) (completeLockIrpRoutine unlockRoutine : Bool) :
    Sound g (fsRtlInitializeFileLock completeLockIrpRoutine unlockRoutine) where
  shared := .nil
  exclusive := ⟨by simp [State.exclusiveLocks, fsRtlInitializeFileLock], Pairwise.nil⟩
  sharedKind := by simp [State.sharedLocks, fsRtlInitializeFileLock]
  exclusiveKind := by simp [State.exclusiveLocks, fsRtlInitializeFileLock]
  compatible := by simp [State.exclusiveLocks, fsRtlInitializeFileLock]
  admitted := by simp [State.granted, State.exclusiveLocks, State.sharedLocks,
    fsRtlInitializeFileLock]
  waiters := by simp [fsRtlInitializeFileLock]
  tidy := fun _ => ⟨by simp [fsRtlInitializeFileLock], by simp [Plenty, fsRtlInitializeFileLock]⟩
  idle := fun _ => ⟨rfl, rfl⟩

/-- **A file lock is sound after every run of admitted calls.** -/
theorem run_sound (admitted : ∀ c ∈ calls, c.Admitted g)
    (completeLockIrpRoutine unlockRoutine : Bool) :
    Sound g (run (fsRtlInitializeFileLock completeLockIrpRoutine unlockRoutine) calls) :=
  have start := initialize_sound g completeLockIrpRoutine unlockRoutine
  (run_moves start admitted).sound start

end Routines

/-- The last byte of either lock does not lie before the first byte of the other one,
with the last byte taken over the integers. -/
def Lock.Overlaps (a b : Lock) : Prop :=
  (a.startingByte : Int) ≤ b.startingByte + b.length - 1 ∧
    (b.startingByte : Int) ≤ a.startingByte + a.length - 1

instance (a b : Lock) : Decidable (a.Overlaps b) :=
  inferInstanceAs (Decidable (_ ∧ _))

/-- The two locks may be held at the same time. -/
def Lock.Compatible (a b : Lock) : Prop :=
  a.Overlaps b → (a.lockInfo.exclusiveLock = false ∧ b.lockInfo.exclusiveLock = false) ∨
      (a.lockInfo.exclusiveLock ≠ b.lockInfo.exclusiveLock ∧ a.lockInfo.sameOwner b.lockInfo)

instance (a b : Lock) : Decidable (a.Compatible b) :=
  inferInstanceAs (Decidable (_ → _))

theorem Lock.Overlaps.touches {a b : Lock} (overlap : a.Overlaps b) (properA : a.Proper)
    (properB : b.Proper) : a.Touches b.startingByte b.endingByte := by
  unfold Lock.Overlaps at overlap
  unfold Lock.Proper at properA properB
  exact ⟨by omega, by omega⟩

/-! ## Requests -/

/-- The range of the request ends within the offsets of a file. -/
def Request.NoWrap (r : Request) : Prop :=
  r.byteOffset < 2 ^ 64 ∧ r.byteOffset + r.length ≤ 2 ^ 64

/-- The empty range at offset 0, whose last byte is `~0`. -/
def Request.AtOrigin (r : Request) : Prop :=
  r.byteOffset = 0 ∧ r.length = 0

instance (r : Request) : Decidable r.NoWrap :=
  inferInstanceAs (Decidable (_ ∧ _))

instance (r : Request) : Decidable r.AtOrigin :=
  inferInstanceAs (Decidable (_ ∧ _))

/-- If the call asks for a lock, the request has the property. -/
def Call.Requests (P : Request → Prop) (c : Call) : Prop :=
  ∀ r ∈ c.operation.request?, P r

instance (P : Request → Prop) [DecidablePred P] (c : Call) : Decidable (c.Requests P) :=
  inferInstanceAs (Decidable (∀ r ∈ c.operation.request?, P r))

theorem Request.proper (fits : r.NoWrap) (inside : ¬ r.AtOrigin) : r.fileLockInfo.Proper := by
  unfold Request.NoWrap at fits
  unfold Request.AtOrigin at inside
  simp only [FileLockInfo.Proper, Request.fileLockInfo, endingByteOf]
  omega

/-- Every allocation succeeds. -/
def Regime.full : Regime where
  Admits := FileLockInfo.Proper
  plentiful := True
  proper := id
  sure := fun _ _ => Or.inl trivial

/-- Allocations may fail; an exclusive lock covers a byte. -/
def Regime.scarce : Regime where
  Admits := fun info => info.Proper ∧ (info.exclusiveLock → info.length ≠ 0)
  plentiful := False
  proper := And.left
  sure := fun admitted exclusive => Or.inr (admitted.2 exclusive)

/-! ## Exclusion -/

/-- What soundness says about two locks. -/
theorem Sound.exclusion {s : State} (sound : Sound g s) : s.granted.Pairwise Lock.Compatible := by
  have proper : ∀ l ∈ s.granted, l.Proper := fun l held => g.proper (sound.admitted l held)
  have inExclusive : ∀ l ∈ s.exclusiveLocks, l.Proper := sound.exclusive.proper
  have inShared : ∀ l ∈ s.sharedLocks, l.Proper := fun l held =>
    proper l (State.mem_granted.mpr (Or.inr held))
  refine pairwise_append.mpr ⟨?_, ?_, ?_⟩
  · refine sound.exclusive.apart.imp_of_mem fun {a b} ha hb apart overlap => ?_
    have touches := overlap.touches (inExclusive a ha) (inExclusive b hb)
    exact absurd touches.2 (by omega)
  · exact pairwise_of_forall_mem_list fun a ha b hb _ =>
      .inl ⟨sound.sharedKind a ha, sound.sharedKind b hb⟩
  · intro a ha b hb overlap
    refine .inr ⟨?_, ?_⟩
    · rw [sound.exclusiveKind a ha, sound.sharedKind b hb]
      decide
    · exact sound.compatible a ha b hb (overlap.touches (inExclusive a ha) (inShared b hb))

/-- **Granted locks do not conflict** after any run of calls without a request for the
empty range at offset 0 in which every allocation succeeds or no exclusive request is
empty. -/
theorem granted_locks_exclude (calls : List Call) (completeLockIrpRoutine unlockRoutine : Bool)
    (fits : ∀ c ∈ calls, c.Requests Request.NoWrap)
    (inside : ∀ c ∈ calls, c.Requests fun r => ¬ r.AtOrigin)
    (certain : (∀ c ∈ calls, Plenty c.pool) ∨
      ∀ c ∈ calls, c.Requests fun r => r.exclusiveLock → r.length ≠ 0) :
    (run (fsRtlInitializeFileLock completeLockIrpRoutine unlockRoutine) calls).granted.Pairwise
      Lock.Compatible := by
  rcases certain with plenty | nonempty
  · have admitted : ∀ c ∈ calls, c.Admitted .full := fun c hc =>
      ⟨fun r asked => Request.proper (fits c hc r asked) (inside c hc r asked),
        fun _ => plenty c hc⟩
    exact (run_sound admitted ..).exclusion
  · have admitted : ∀ c ∈ calls, c.Admitted .scarce := fun c hc =>
      ⟨fun r asked => ⟨Request.proper (fits c hc r asked) (inside c hc r asked),
        nonempty c hc r asked⟩, nofun⟩
    exact (run_sound admitted ..).exclusion

/-- A call that fails at once when the lock is not to be had. -/
def tryLock (byteOffset length : Nat) (exclusiveLock : Bool) (owner : Nat) : Call :=
  ⟨.lock ⟨byteOffset, length, exclusiveLock, owner, owner, 0⟩ true false false, [], []⟩

/-- One owner holds bytes 5 to 39, the empty range at 10, bytes 20 to 29 and 35 to 37.
The unlock of the first one splits the node; the first allocation fails, the second one
does not, and the node with the first two locks passes for whole. -/
def holeyRun : List Call :=
  [tryLock 5 35 false 1, tryLock 10 0 false 1, tryLock 20 10 false 1, tryLock 35 3 false 1,
    ⟨.unlockSingle ⟨1, 5, 35, 1, 0⟩, [false, true], []⟩, tryLock 25 0 true 2]

/-- The empty lock at offset 0 heads the node of the lock before it and hides it. -/
def originRun : List Call :=
  [tryLock 0 10 false 1, tryLock 0 0 false 1, tryLock 5 1 true 2]

theorem granted_locks_exclude_holeyRun :
    (run (fsRtlInitializeFileLock false false) (holeyRun.take 4 ++
      [⟨.unlockSingle ⟨1, 5, 35, 1, 0⟩, [], []⟩, tryLock 25 0 true 2])).granted.Pairwise
      Lock.Compatible :=
  granted_locks_exclude _ false false (by decide) (by decide) (.inl (by unfold Plenty; decide))

theorem exclusion_fails : (∀ c ∈ holeyRun, c.Requests fun r => r.NoWrap ∧ ¬ r.AtOrigin) ∧
      ¬ (run (fsRtlInitializeFileLock false false) holeyRun).granted.Pairwise Lock.Compatible ∧
      (∀ c ∈ originRun, c.Requests Request.NoWrap) ∧
      ¬ (run (fsRtlInitializeFileLock false false) originRun).granted.Pairwise Lock.Compatible := by
  refine ⟨by decide, by decide +kernel, by decide, by decide +kernel⟩

end Ntoskrnl.FsRtl.FileLock
