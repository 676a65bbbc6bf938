/-
# Ntoskrnl.FsRtl.FileLock.Checks -- may the file be read, may it be written

The two checks take shortcuts: nothing below the lowest lock offset is locked, and a
range within the caller's last lock is free for the caller.  `Hints` says what the offset
and the last lock stand for and is kept by every move; with it a check answers what a
search of the trees would answer, and that is exact.
-/
import Mathlib.Data.List.Pairwise
import Ntoskrnl.FsRtl.FileLock.Calls

namespace Ntoskrnl.FsRtl.FileLock

open Base Lib.SplayTree List Function

set_option autoImplicit false

/-! ## The hints -/

structure Hints (s : State) : Prop where
  lowest : LowestBounds s
  held : ∀ {fileObject : Nat} {k : Lock}, s.lastLock fileObject = some k →
    k ∈ s.granted ∧ k.lockInfo.fileObject = fileObject
  alone : ∀ {fileObject : Nat} {k : Lock}, s.lastLock fileObject = some k →
    k.lockInfo.exclusiveLock → ∀ l ∈ s.sharedLocks, ¬ l.Touches k.startingByte k.endingByte

variable {new k l : Lock} {g : Regime} {fileObject : Nat} {s : State}

section Moves

variable {s' : State}

theorem Hints.quiet (hints : Hints s) (quiet : Quiet g s s') : Hints s' := by
  have before : ∀ {fileObject : Nat} {k : Lock}, s'.lastLock fileObject = some k →
      s.lastLock fileObject = some k := fun {fileObject k} last => by
    rcases quiet.lastLock fileObject with same | none_left
    · rw [← same, last]
    · rw [none_left] at last
      cases last
  refine ⟨quiet.lowest hints.lowest, fun last => ?_, fun last => ?_⟩
  · rw [quiet.granted]
    exact hints.held (before last)
  · rw [quiet.sharedLocks]
    exact hints.alone (before last)

theorem FileLockInfo.sameOwner_fileObject {a b : FileLockInfo} (same : a.sameOwner b) :
    a.fileObject = b.fileObject := by
  simp only [FileLockInfo.sameOwner, Bool.and_eq_true, beq_iff_eq] at same
  exact same.1.1

theorem Placed.lowest (placed : Placed s s' new) (bounds : LowestBounds s) : LowestBounds s' := by
  intro l held
  rw [placed.lowestLockOffset]
  rcases placed.mem_granted.mp held with rfl | held
  · split <;> omega
  · have := bounds l held
    split <;> omega

/-- A new shared lock leaves the exclusive last locks of other file objects alone. -/
theorem Placed.alone (placed : Placed s s' new)
    (free : ∀ l ∈ s.granted, ¬ l.Excludes new.lockInfo) (held : k ∈ s.granted)
    (exclusive : k.lockInfo.exclusiveLock)
    (other : k.lockInfo.fileObject ≠ new.lockInfo.fileObject)
    (alone : ∀ l ∈ s.sharedLocks, ¬ l.Touches k.startingByte k.endingByte) :
    ∀ l ∈ s'.sharedLocks, ¬ l.Touches k.startingByte k.endingByte := by
  rcases placed.locks with ⟨-, same, -, -⟩ | ⟨-, -, added, -⟩
  · rw [State.sharedLocks_congr same]
    exact alone
  · intro l inside touches
    rcases added.mem.mp inside with rfl | inside
    · refine free k held ⟨touches.symm, .inr ⟨exclusive, ?_⟩⟩
      by_contra same
      exact other (FileLockInfo.sameOwner_fileObject (by simpa using same))
    · exact alone l inside touches

theorem Hints.grant (hints : Hints s) (placed : Placed s s' new)
    (free : ∀ l ∈ s.granted, ¬ l.Excludes new.lockInfo) : Hints s' := by
  refine ⟨placed.lowest hints.lowest, fun {fileObject k} last => ?_,
    fun {fileObject k} last exclusive => ?_⟩
  · rw [placed.lastLock] at last
    by_cases same : fileObject = new.lockInfo.fileObject
    · rw [same, update_self] at last
      cases last
      exact ⟨placed.mem_granted.mpr (.inl rfl), same.symm⟩
    · rw [update_of_ne same] at last
      obtain ⟨held, owner⟩ := hints.held last
      exact ⟨placed.mem_granted.mpr (.inr held), owner⟩
  · rw [placed.lastLock] at last
    by_cases same : fileObject = new.lockInfo.fileObject
    · rw [same, update_self] at last
      cases last
      rcases placed.locks with ⟨-, shared, -, -⟩ | ⟨kind, -, -, -⟩
      · rw [State.sharedLocks_congr shared]
        exact fun l inside touches =>
          free l (State.mem_granted.mpr (Or.inr inside)) ⟨touches, Or.inl exclusive⟩
      · rw [exclusive] at kind
        cases kind
    · rw [update_of_ne same] at last
      obtain ⟨held, owner⟩ := hints.held last
      exact placed.alone free held exclusive (owner ▸ same) (hints.alone last exclusive)

theorem forgetLastLock_some {fo : Nat} (last : (s.forgetLastLock fo l).lastLock fileObject = some k) :
    s.lastLock fileObject = some k ∧ (fileObject = fo → k.address ≠ l.address) := by
  unfold State.forgetLastLock at last
  split at last
  · rw [State.setLastLock_lastLock] at last
    rcases eq_or_ne fileObject fo with rfl | other
    · rw [update_self] at last
      cases last
    · rw [update_of_ne other] at last
      exact ⟨last, fun same => absurd same other⟩
  next kept =>
    refine ⟨last, fun same address => kept ?_⟩
    rw [← same, last, Option.map_some, address]

theorem Took.mem_granted (took : Took s s' fileObject l) (held : k ∈ s.granted) (other : k ≠ l) :
    k ∈ s'.granted := by
  rw [State.mem_granted] at held ⊢
  rcases took.locks with ⟨less, same⟩ | ⟨less, same⟩
  · rw [State.exclusiveLocks_congr same]
    rw [less.mem] at held
    exact held.imp_right fun inside => inside.resolve_left other
  · rw [State.sharedLocks_congr same]
    rw [less.mem] at held
    exact held.imp_left fun inside => inside.resolve_left other

theorem Hints.take (hints : Hints s) (took : Took s s' l.lockInfo.fileObject l) : Hints s' := by
  refine ⟨took.lowest hints.lowest, fun {fileObject k} last => ?_,
    fun {fileObject k} last exclusive j inside => ?_⟩
  · rw [took.lastLock] at last
    obtain ⟨last, other⟩ := forgetLastLock_some last
    obtain ⟨held, owner⟩ := hints.held last
    refine ⟨took.mem_granted held fun same => ?_, owner⟩
    subst same
    exact other owner.symm rfl
  · rw [took.lastLock] at last
    exact hints.alone (forgetLastLock_some last).1 exclusive j (took.fewerShared.subset inside)

theorem Hints.drop {o : Owner} (hints : Hints s) (dropped : Dropped s s' o)
    (forgotten : s.lastLock o.fileObject = none) : Hints s' := by
  have kept : s'.granted = s.granted.filter fun l => !o.matchesLock l := by
    rw [State.granted, dropped.shared, dropped.exclusive, ← filter_append, State.granted]
  refine ⟨hints.lowest.mono (fun l held => ?_) dropped.lowestLockOffset,
    fun {fileObject k} last => ?_, fun {fileObject k} last exclusive j inside => ?_⟩
  · rw [kept] at held
    exact (mem_filter.mp held).1
  · rw [dropped.lastLock] at last
    obtain ⟨held, owner⟩ := hints.held last
    refine ⟨kept ▸ mem_filter.mpr ⟨held, ?_⟩, owner⟩
    have other : k.lockInfo.fileObject ≠ o.fileObject := by
      rintro same
      rw [← owner, same, forgotten] at last
      cases last
    simp [Owner.matchesLock, Owner.owns, other]
  · rw [dropped.lastLock] at last
    exact hints.alone last exclusive j (dropped.fewerShared.subset inside)

/-- **Every move keeps the hints.** -/
theorem Hints.move (hints : Hints s) (move : Move g s s') : Hints s' := by
  cases move with
  | quiet quiet => exact hints.quiet quiet
  | grant new _ _ free placed => exact hints.grant placed free
  | take l took => exact hints.take took
  | drop o dropped forgotten => exact hints.drop dropped forgotten

end Moves

theorem initialize_hints (completeLockIrpRoutine unlockRoutine : Bool) :
    Hints (fsRtlInitializeFileLock completeLockIrpRoutine unlockRoutine) where
  lowest := by simp [LowestBounds, State.granted, State.exclusiveLocks, State.sharedLocks,
    fsRtlInitializeFileLock]
  held := nofun
  alone := nofun

theorem run_hints {calls : List Call} (admitted : ∀ c ∈ calls, c.Admitted g)
    (completeLockIrpRoutine unlockRoutine : Bool) :
    Hints (run (fsRtlInitializeFileLock completeLockIrpRoutine unlockRoutine) calls) :=
  have start := initialize_sound g completeLockIrpRoutine unlockRoutine
  Moves.keep (run_moves start admitted) start (initialize_hints ..) fun _ move hints =>
    hints.move move

/-! ## Searching the trees -/

section Search

variable {startingByte endingByte : Nat} {locks : List Lock}

/-- The lock belongs to the owner with this file object, process and key. -/
def Lock.OwnedBy (l : Lock) (key fileObject processId : Nat) : Prop :=
  l.lockInfo.fileObject = fileObject ∧ l.lockInfo.processId = processId ∧ l.lockInfo.key = key

theorem exclusiveConflictScan_iff (separate : Separate locks) (key fileObject processId : Nat) :
    exclusiveConflictScan startingByte endingByte key fileObject processId locks ↔
      ∀ l ∈ locks, l.Touches startingByte endingByte → l.OwnedBy key fileObject processId := by
  induction locks with
  | nil => simp [exclusiveConflictScan]
  | cons k locks ih =>
    have later := (pairwise_cons.mp separate.apart).1
    have rest := separate.sublist (sublist_cons_self k locks)
    have start := (separate.proper k (by simp)).start_le
    unfold exclusiveConflictScan
    split
    next beyond =>
      simp only [true_iff]
      refine forall_mem_cons.mpr ⟨fun touches => ?_, fun l inside touches => ?_⟩
      · exact absurd touches.1 (not_le.mpr beyond)
      · have := later l inside
        exact absurd touches.1 (by omega)
    next within =>
      split
      next stranger =>
        simp only [Bool.false_eq_true, false_iff, forall_mem_cons, not_and_or]
        refine .inl fun owned => ?_
        obtain ⟨sameFile, sameProcess, sameKey⟩ := owned ⟨not_lt.mp within, stranger.1⟩
        rcases stranger.2 with other | other | other
        · exact other sameFile
        · exact other sameProcess
        · exact other sameKey
      next free =>
        rw [ih rest, forall_mem_cons, iff_and_self]
        intro _ touches
        by_contra other
        refine free ⟨touches.2, ?_⟩
        rw [Lock.OwnedBy, not_and_or, not_and_or] at other
        exact other

/-- **The search of the exclusive tree is exact.** -/
theorem checkNoExclusiveConflict_iff {tree : BinaryTree Lock} (separate : Separate (inorder tree))
    (range : startingByte ≤ endingByte) (key fileObject processId : Nat) :
    (fsRtlCheckNoExclusiveConflict tree startingByte endingByte key fileObject processId).1 ↔
      ∀ l ∈ inorder tree, l.Touches startingByte endingByte →
        l.OwnedBy key fileObject processId := by
  unfold fsRtlCheckNoExclusiveConflict
  dsimp only
  rcases findExclusive separate (range.trans (Nat.le_succ _)) with ⟨loc, hit, found⟩ | ⟨none_hit, missed⟩
  · have sequence := found.sequence
    rw [sequence] at separate ⊢
    rw [hit, onward, exclusiveConflictScan_iff separate.of_append_right, forall_mem_append,
      iff_and_self]
    exact fun _ l inside touches => absurd touches.2 (not_le.mpr (found.before l inside))
  · simp only [none_hit, onward, exclusiveConflictScan, true_iff]
    exact fun l inside touches => absurd touches (missed.not_touches_lock l inside)

/-- **The search of the shared tree is exact** when the nodes have no holes. -/
theorem checkNoSharedConflict_iff {tree : BinaryTree LockTreeNode}
    (ordered : Ordered (inorder tree)) (tight : ∀ n ∈ inorder tree, n.Tight)
    (some_bytes : ∀ l ∈ allLocks (inorder tree), l.length ≠ 0)
    (range : startingByte ≤ endingByte) :
    (fsRtlCheckNoSharedConflict tree startingByte endingByte).1 ↔
      ∀ l ∈ allLocks (inorder tree), ¬ l.Touches startingByte endingByte := by
  unfold fsRtlCheckNoSharedConflict
  rcases findShared ordered (range.trans (Nat.le_succ _)) with ⟨loc, hit, found⟩ | ⟨none_hit, missed⟩
  · have whole : loc.val.holeyNode = false :=
      (tight loc.val (by rw [found.sequence]; simp)).whole
    obtain ⟨l, inside, touches⟩ := found.exists_touches ordered tight some_bytes range
    simp only [hit, whole, Bool.false_eq_true, if_false, false_iff, not_forall, not_not]
    exact ⟨l, inside, touches⟩
  · simp only [none_hit, true_iff]
    exact missed.not_touches ordered

/-! ## The shortcuts -/

variable {key processId : Nat}

theorem LowestBounds.not_touches (bounds : LowestBounds s)
    (below : endingByte < s.lowestLockOffset) :
    ∀ l ∈ s.granted, ¬ l.Touches startingByte endingByte := fun l held touches =>
  absurd (touches.1.trans_lt below) (not_lt.mpr (bounds l held))

theorem Separate.eq_of_touches (separate : Separate locks) {a b : Lock} (ha : a ∈ locks)
    (hb : b ∈ locks) (touches : a.Touches b.startingByte b.endingByte) : a = b := by
  let Same : Lock → Lock → Prop := fun a b => a.Touches b.startingByte b.endingByte → a = b
  have symmetric : Std.Symm Same := ⟨fun _ _ same touches => (same touches.symm).symm⟩
  have all : locks.Pairwise Same :=
    separate.apart.imp fun apart touches => absurd touches.2 (by omega)
  exact Pairwise.forall_of_forall (fun _ _ _ => rfl) all ha hb touches

variable {forWrite : Bool}

theorem lastLockCovers_some
    (covers : lastLockCovers s startingByte endingByte key fileObject processId forWrite) :
    ∃ k, s.lastLock fileObject = some k ∧ k.startingByte ≤ startingByte ∧
      endingByte ≤ k.endingByte ∧ k.lockInfo.key = key ∧ k.lockInfo.processId = processId ∧
      (forWrite → k.lockInfo.exclusiveLock) := by
  unfold lastLockCovers at covers
  split at covers
  · cases covers
  next k last =>
    simp only [Bool.and_eq_true, decide_eq_true_eq, beq_iff_eq, Bool.or_eq_true,
      Bool.not_eq_true'] at covers
    obtain ⟨⟨⟨⟨starts, ends⟩, sameKey⟩, sameProcess⟩, kind⟩ := covers
    refine ⟨k, last, starts, ends, sameKey, sameProcess, fun write => kind.resolve_left ?_⟩
    simp [write]

/-- Within the caller's last lock there is no exclusive lock of somebody else. -/
theorem lastLockCovers_owned (sound : Sound g s) (hints : Hints s)
    (covers : lastLockCovers s startingByte endingByte key fileObject processId forWrite) :
    ∀ l ∈ s.exclusiveLocks, l.Touches startingByte endingByte →
      l.OwnedBy key fileObject processId := by
  obtain ⟨k, last, starts, ends, sameKey, sameProcess, -⟩ := lastLockCovers_some covers
  obtain ⟨held, sameFile⟩ := hints.held last
  intro l inside touches
  have meets : l.Touches k.startingByte k.endingByte :=
    ⟨touches.1.trans ends, starts.trans touches.2⟩
  rcases State.mem_granted.mp held with held | held
  · obtain rfl := sound.exclusive.eq_of_touches inside held meets
    exact ⟨sameFile, sameProcess, sameKey⟩
  · have same := sound.compatible l inside k held meets
    simp only [FileLockInfo.sameOwner, Bool.and_eq_true, beq_iff_eq] at same
    exact ⟨same.1.1.trans sameFile, same.1.2.trans sameProcess, same.2.trans sameKey⟩

/-- Within the caller's exclusive last lock there is no shared lock. -/
theorem lastLockCovers_alone (hints : Hints s)
    (covers : lastLockCovers s startingByte endingByte key fileObject processId true) :
    ∀ l ∈ s.sharedLocks, ¬ l.Touches startingByte endingByte := by
  obtain ⟨k, last, starts, ends, -, -, exclusive⟩ := lastLockCovers_some covers
  exact fun l inside touches => hints.alone last (exclusive rfl) l inside
    ⟨touches.1.trans ends, starts.trans touches.2⟩

end Search

/-! ## The checks -/

/-- Bytes of a file that are to be read or written. -/
structure AccessRange where
  startingByte : Nat
  length : Nat
  nonempty : 0 < length
  fits : startingByte + length ≤ 2 ^ 64

namespace AccessRange

variable (a : AccessRange)

/-- A byte of the range is locked. -/
def Overlaps (l : Lock) : Prop :=
  l.startingByte < a.startingByte + a.length ∧ a.startingByte < l.startingByte + l.length

abbrev endingByte : Nat := endingByteOf a.startingByte a.length

theorem endingByte_eq : a.endingByte = a.startingByte + a.length - 1 := by
  have := a.nonempty
  have := a.fits
  unfold endingByte endingByteOf
  omega

theorem start_le : a.startingByte ≤ a.endingByte := by
  have := a.nonempty
  rw [a.endingByte_eq]
  omega

theorem touches_iff (proper : l.Proper) : l.Touches a.startingByte a.endingByte ↔ a.Overlaps l := by
  have := a.nonempty
  unfold Lock.Proper at proper
  rw [a.endingByte_eq, Lock.Touches, Overlaps]
  omega

end AccessRange

/-- Requests for at least one byte, with a pool that serves every allocation. -/
def Regime.bytes : Regime where
  Admits := fun info => info.Proper ∧ info.length ≠ 0
  plentiful := True
  proper := And.left
  sure := fun _ _ => Or.inl trivial

section Exact

variable (a : AccessRange) (key fileObject processId : Nat)

section Searches

variable (sound : Sound Regime.bytes s)

include sound

/-- The shortcuts of the read check do not change its answer. -/
theorem readCheck_eq_search (hints : Hints s) :
    (fsRtlFastCheckLockForRead s a.startingByte a.length key fileObject processId).1 =
      (fsRtlCheckNoExclusiveConflict s.exclusiveLockTree a.startingByte a.endingByte
        key fileObject processId).1 := by
  have exact_search := checkNoExclusiveConflict_iff sound.exclusive a.start_le key fileObject processId
  unfold fsRtlFastCheckLockForRead
  dsimp only
  split
  next idle =>
    refine (exact_search.mpr fun l inside => ?_).symm
    have held : l ∈ s.granted := State.mem_granted.mpr (Or.inl inside)
    rw [(sound.idle idle).1] at held
    cases held
  · split
    next empty =>
      refine (exact_search.mpr fun l inside => ?_).symm
      rw [empty] at inside
      cases inside
    · split
      next zero => exact absurd zero a.nonempty.ne'
      · split
        next below =>
          exact (exact_search.mpr fun l inside touches => absurd touches
            (hints.lowest.not_touches below l (State.mem_granted.mpr (Or.inl inside)))).symm
        · split
          next covers =>
            exact (exact_search.mpr (lastLockCovers_owned sound hints covers)).symm
          · rfl

theorem sharedSearch_iff :
    (fsRtlCheckNoSharedConflict s.sharedLockTree a.startingByte a.endingByte).1 ↔
      ∀ l ∈ s.sharedLocks, ¬ l.Touches a.startingByte a.endingByte :=
  checkNoSharedConflict_iff sound.shared (sound.tidy trivial).tight
    (fun l held => (sound.admitted l (State.mem_granted.mpr (Or.inr held))).2) a.start_le

/-- The shortcuts of the write check do not change its answer. -/
theorem writeCheck_eq_search (hints : Hints s) :
    (fsRtlFastCheckLockForWrite s a.startingByte a.length key fileObject processId).1 =
      ((fsRtlCheckNoSharedConflict s.sharedLockTree a.startingByte a.endingByte).1 &&
        (fsRtlCheckNoExclusiveConflict s.exclusiveLockTree a.startingByte a.endingByte
          key fileObject processId).1) := by
  have exact_search := checkNoExclusiveConflict_iff sound.exclusive a.start_le key fileObject processId
  have exact_shared := sharedSearch_iff a sound
  -- a shortcut answers `TRUE`; it is enough that both searches would
  have both (shared : ∀ l ∈ s.sharedLocks, ¬ l.Touches a.startingByte a.endingByte)
      (exclusive : ∀ l ∈ s.exclusiveLocks, l.Touches a.startingByte a.endingByte →
        l.OwnedBy key fileObject processId) : _ :=
    (Bool.and_eq_true_iff.mpr ⟨exact_shared.mpr shared, exact_search.mpr exclusive⟩).symm
  have unlocked (free : ∀ l ∈ s.granted, ¬ l.Touches a.startingByte a.endingByte) : _ := both
    (fun l held => free l (State.mem_granted.mpr (Or.inr held)))
    (fun l held touches => absurd touches (free l (State.mem_granted.mpr (Or.inl held))))
  unfold fsRtlFastCheckLockForWrite
  dsimp only
  split
  next idle =>
    refine unlocked fun l held => ?_
    rw [(sound.idle idle).1] at held
    cases held
  · split
    next noShared noExclusive =>
      refine unlocked fun l held => ?_
      rw [State.granted, State.exclusiveLocks, noExclusive, State.sharedLocks, noShared] at held
      cases held
    · split
      next zero => exact absurd zero a.nonempty.ne'
      · split
        next below => exact unlocked (hints.lowest.not_touches below)
        · split
          next covers =>
            exact both (lastLockCovers_alone hints covers) (lastLockCovers_owned sound hints covers)
          · split
            next free => rw [free, Bool.true_and]
            next locked => simp [locked]

/-- What a read of the range by an owner needs: no exclusive lock of another owner
overlaps it. -/
def MayRead (s : State) (a : AccessRange) (key fileObject processId : Nat) : Prop :=
  ∀ l ∈ s.granted, l.lockInfo.exclusiveLock → a.Overlaps l → l.OwnedBy key fileObject processId

/-- What a write needs: moreover no shared lock overlaps the range. -/
def MayWrite (s : State) (a : AccessRange) (key fileObject processId : Nat) : Prop :=
  MayRead s a key fileObject processId ∧
    ∀ l ∈ s.granted, l.lockInfo.exclusiveLock = false → ¬ a.Overlaps l

theorem Sound.touches_iff (held : l ∈ s.granted) :
    l.Touches a.startingByte a.endingByte ↔ a.Overlaps l :=
  a.touches_iff (sound.admitted l held).1

theorem exclusiveSearch_iff_mayRead :
    (fsRtlCheckNoExclusiveConflict s.exclusiveLockTree a.startingByte a.endingByte
        key fileObject processId).1 ↔
      MayRead s a key fileObject processId := by
  rw [checkNoExclusiveConflict_iff sound.exclusive a.start_le]
  constructor
  · intro owned l held exclusive overlaps
    rcases State.mem_granted.mp held with inside | inside
    · exact owned l inside ((sound.touches_iff a held).mpr overlaps)
    · rw [sound.sharedKind l inside] at exclusive
      cases exclusive
  · intro may l inside touches
    have held : l ∈ s.granted := State.mem_granted.mpr (Or.inl inside)
    exact may l held (sound.exclusiveKind l inside) ((sound.touches_iff a held).mp touches)

theorem sharedSearch_iff_free :
    (fsRtlCheckNoSharedConflict s.sharedLockTree a.startingByte a.endingByte).1 ↔
      ∀ l ∈ s.granted, l.lockInfo.exclusiveLock = false → ¬ a.Overlaps l := by
  rw [sharedSearch_iff a sound]
  constructor
  · intro free l held shared overlaps
    rcases State.mem_granted.mp held with inside | inside
    · rw [sound.exclusiveKind l inside] at shared
      cases shared
    · exact free l inside ((sound.touches_iff a held).mpr overlaps)
  · intro free l inside touches
    have held : l ∈ s.granted := State.mem_granted.mpr (Or.inr inside)
    exact free l held (sound.sharedKind l inside) ((sound.touches_iff a held).mp touches)

end Searches

end Exact

theorem admitted_bytes {c : Call} (fits : c.Requests fun r => r.NoWrap ∧ r.length ≠ 0)
    (plenty : Plenty c.pool) : c.Admitted Regime.bytes :=
  ⟨fun r asked => ⟨Request.proper (fits r asked).1 fun origin => (fits r asked).2 origin.2,
    (fits r asked).2⟩, fun _ => plenty⟩

/-- **The read and the write check are exact** after any run of calls on non-empty ranges
without a failed allocation, and each answers what the search of the trees answers. -/
theorem read_write_checks_exact (calls : List Call) (completeLockIrpRoutine unlockRoutine : Bool)
    (fits : ∀ c ∈ calls, c.Requests fun r => r.NoWrap ∧ r.length ≠ 0)
    (plenty : ∀ c ∈ calls, Plenty c.pool) (a : AccessRange) (key fileObject processId : Nat) :
    let s := run (fsRtlInitializeFileLock completeLockIrpRoutine unlockRoutine) calls
    let read := fsRtlFastCheckLockForRead s a.startingByte a.length key fileObject processId
    let write := fsRtlFastCheckLockForWrite s a.startingByte a.length key fileObject processId
    let ending := endingByteOf a.startingByte a.length
    let sharedSearch := fsRtlCheckNoSharedConflict s.sharedLockTree a.startingByte ending
    let exclusiveSearch := fsRtlCheckNoExclusiveConflict s.exclusiveLockTree a.startingByte ending
      key fileObject processId
    (read.1 ↔ MayRead s a key fileObject processId) ∧
      (write.1 ↔ MayWrite s a key fileObject processId) ∧
      read.1 = exclusiveSearch.1 ∧ write.1 = (sharedSearch.1 && exclusiveSearch.1) := by
  intro s read write ending sharedSearch exclusiveSearch
  have admitted : ∀ c ∈ calls, c.Admitted .bytes := fun c hc =>
    admitted_bytes (fits c hc) (plenty c hc)
  have sound : Sound .bytes s := run_sound admitted completeLockIrpRoutine unlockRoutine
  have hints : Hints s := run_hints admitted completeLockIrpRoutine unlockRoutine
  have readSearch : read.1 = exclusiveSearch.1 :=
    readCheck_eq_search a key fileObject processId sound hints
  have writeSearch : write.1 = (sharedSearch.1 && exclusiveSearch.1) :=
    writeCheck_eq_search a key fileObject processId sound hints
  have mayRead := exclusiveSearch_iff_mayRead a key fileObject processId sound
  refine ⟨?_, ?_, readSearch, writeSearch⟩
  · rw [readSearch]
    exact mayRead
  · rw [writeSearch, Bool.and_eq_true, and_comm]
    exact and_congr mayRead (sharedSearch_iff_free a sound)

/-- One owner locks bytes 0 to 9 exclusively, another one bytes 20 to 29 shared. -/
theorem read_write_checks_exact_two_owners :
    let s := run (fsRtlInitializeFileLock false false) [tryLock 0 10 true 1, tryLock 20 10 false 2]
    let a : AccessRange := ⟨5, 20, by decide, by decide⟩
    (fsRtlFastCheckLockForRead s 5 20 0 1 1).1 ↔ MayRead s a 0 1 1 :=
  (read_write_checks_exact [tryLock 0 10 true 1, tryLock 20 10 false 2] false false (by decide)
    (by unfold Plenty; decide) ⟨5, 20, by decide, by decide⟩ 0 1 1).1

end Ntoskrnl.FsRtl.FileLock
