/-
# Ntoskrnl.FsRtl.FileLock.Enumerate -- going through the granted locks

`FsRtlGetNextFileLock` keeps no place in the trees between two calls.  It saves the lock
it returned and the address of its record, and finds its place again by a search for the
range of that lock: in the exclusive tree first, then in the shared one.
-/
import Mathlib.Data.List.Nodup
import Ntoskrnl.FsRtl.FileLock.Checks

namespace Ntoskrnl.FsRtl.FileLock

open Base Lib.SplayTree List

set_option autoImplicit false

/-! ## The routine -/

/-- The record is that of the lock returned last, and still holds it. -/
def Lock.isRecord (last l : Lock) : Bool :=
  last.address == l.address && last.startingByte == l.startingByte &&
    last.length == l.length && last.lockInfo.key == l.lockInfo.key &&
    last.lockInfo.fileObject == l.lockInfo.fileObject &&
    last.lockInfo.processId == l.lockInfo.processId

/-- Where to go on when nothing overlaps: at the node the search ended at, if it lies
behind the range, else at its successor. -/
def goOn {α : Type} (place : Descent α) : Option (Loc α) :=
  if place.greaterThan then place.edge else place.edge.bind Loc.successor

/-- The exclusive locks from the first overlapping one on; equal empty locks are passed
until the last one returned is found. -/
def exclusiveBehind (last : Lock) : List Lock → Option Lock
  | [] => none
  | l :: locks =>
    if last.isRecord l then locks.head?
    else if !(l.length == 0) || !(last.length == 0) then some l
    else exclusiveBehind last locks

/-- The locks of a node: the one behind the last one returned, or behind its slot. -/
def sharedBehind (last : Lock) : List Lock → Option Lock
  | [] => none
  | l :: locks =>
    if last.isRecord l then locks.head?
    else if last.startingByte < l.startingByte then some l
    else sharedBehind last locks

def nextExclusive (tree : BinaryTree Lock) (last : Lock) : Option Lock :=
  let place := fsRtlFindFirstOverlappingExclusiveNode tree last.startingByte last.endingByte
  match place.found with
  | none => (goOn place).map Loc.val
  | some loc => exclusiveBehind last (loc.val :: loc.after)

def nextShared (tree : BinaryTree LockTreeNode) (last : Lock) : Option Lock :=
  let place := fsRtlFindFirstOverlappingSharedNode tree last.startingByte last.endingByte
  match place.found.or (goOn place) with
  | none => none
  | some loc =>
    (sharedBehind last loc.val.locks).or (loc.successor.map fun next => next.val.first)

/-- `FsRtlGetNextFileLock`; `last` is `LastReturnedLockInfo` with `LastReturnedLock`, and
the lock returned replaces it. -/
def fsRtlGetNextFileLock (s : State) (last : Lock) (restart : Bool) : Option Lock :=
  let firstShared := (minimum s.sharedLockTree).map LockTreeNode.first
  if s.lockInformation = false then none
  else if restart then (minimum s.exclusiveLockTree).or firstShared
  else if last.lockInfo.exclusiveLock then (nextExclusive s.exclusiveLockTree last).or firstShared
  else nextShared s.sharedLockTree last

/-- What the calls return, the first one with `Restart`. -/
def enumerate (s : State) (last : Lock) : Nat → Option Lock
  | 0 => fsRtlGetNextFileLock s last true
  | calls + 1 => (enumerate s last calls).bind fun l => fsRtlGetNextFileLock s l false

/-! ## One call -/

variable {l : Lock} {xs ys : List Lock}

theorem Lock.isRecord_self (l : Lock) : l.isRecord l := by
  simp [Lock.isRecord]

theorem Lock.isRecord_address {k : Lock} (other : k.address ≠ l.address) :
    l.isRecord k = false := by
  simp [Lock.isRecord, other.symm]

theorem nextExclusive_eq {tree : BinaryTree Lock} (separate : Separate (inorder tree))
    (sequence : inorder tree = xs ++ l :: ys) (covers : l.startingByte ≤ l.endingByte) :
    nextExclusive tree l = ys.head? := by
  have inside : l ∈ inorder tree := by simp [sequence]
  have range := (separate.proper l inside).start_le
  obtain ⟨loc, hit, same, parts, early, late⟩ :=
    separate.ascending.finds (findExclusive separate range) covers inside le_rfl le_rfl
  obtain ⟨-, -, rest⟩ := (append_cons_inj_of_notMem early late).mp (parts.symm.trans sequence)
  simp [nextExclusive, hit, exclusiveBehind, same, l.isRecord_self, rest]

/-- In the locks of a node the walk stops at the record itself. -/
theorem sharedBehind_eq {passed links : List Lock} (others : ∀ k ∈ passed, k.address ≠ l.address)
    (sorted : ∀ k ∈ passed, k.startingByte ≤ l.startingByte) :
    sharedBehind l (passed ++ l :: links) = links.head? := by
  induction passed with
  | nil => simp [sharedBehind, l.isRecord_self]
  | cons k passed ih =>
    rw [forall_mem_cons] at others sorted
    rw [cons_append, sharedBehind, Lock.isRecord_address others.1, if_neg (by simp),
      if_neg (not_lt.mpr sorted.1)]
    exact ih others.2 sorted.2

theorem successor_first (loc : Loc LockTreeNode) :
    (loc.successor.map fun next => next.val.first) = (allLocks loc.after).head? := by
  rcases loc.successor_spec with ⟨last, none_left⟩ | ⟨next, isNext, -, rest⟩
  · simp [last, none_left]
  · simp [isNext, ← rest, LockTreeNode.locks]

theorem nextShared_eq {tree : BinaryTree LockTreeNode} (ordered : Ordered (inorder tree))
    (distinct : ((allLocks (inorder tree)).map Lock.address).Nodup)
    (sequence : allLocks (inorder tree) = xs ++ l :: ys)
    (covers : l.startingByte ≤ l.endingByte) : nextShared tree l = ys.head? := by
  have inside : l ∈ allLocks (inorder tree) := by simp [sequence]
  obtain ⟨n, hn, inside⟩ := mem_allLocks.mp inside
  have node := ordered.node n hn
  obtain ⟨loc, hit, rfl, parts, -⟩ := ordered.ascending.finds
    (findShared ordered (node.proper l inside).start_le) covers hn (node.first_le inside)
    (node.le_extent inside)
  obtain ⟨passed, links, locks⟩ := append_of_mem inside
  have whole : allLocks (inorder tree) =
      (allLocks loc.before ++ passed) ++ l :: (links ++ allLocks loc.after) := by
    rw [parts]
    simp [locks]
  rw [whole, map_append, map_cons, nodup_append, nodup_cons] at distinct
  have others : ∀ k ∈ allLocks loc.before ++ passed, k.address ≠ l.address := fun k hk =>
    distinct.2.2 _ (mem_map_of_mem hk) _ mem_cons_self
  have late : l ∉ links ++ allLocks loc.after := fun later =>
    distinct.2.1.1 (mem_map_of_mem later)
  obtain ⟨-, -, rest⟩ := (append_cons_inj_of_notMem (fun early => others l early rfl) late).mp
    (whole.symm.trans sequence)
  have sorted := node.sorted
  rw [locks] at sorted
  simp only [nextShared, hit, Option.some_or, locks, successor_first, ← rest, head?_append]
  rw [sharedBehind_eq (fun k hk => others k (by simp [hk]))
    fun k hk => (pairwise_append.mp sorted).2.2 k hk l (by simp)]

/-! ## Distinct records -/

/-- No two locks share a record, and the next record is a new one. -/
structure Distinct (s : State) : Prop where
  nodup : (s.granted.map Lock.address).Nodup
  fresh : ∀ l ∈ s.granted, l.address < s.nextAddress

theorem Placed.perm {s s' : State} {new : Lock} (placed : Placed s s' new) :
    s'.granted.Perm (new :: s.granted) := by
  rcases placed.locks with ⟨-, same, added, -⟩ | ⟨-, same, added, -⟩
  · rw [State.granted, State.sharedLocks_congr same]
    exact added.perm.append_right _
  · rw [State.granted, State.exclusiveLocks_congr same]
    exact (added.perm.append_left _).trans perm_middle

variable {g : Regime} {s s' : State}

theorem Distinct.shrink (distinct : Distinct s) (fewer : s'.granted.Sublist s.granted)
    (le : s.nextAddress ≤ s'.nextAddress) : Distinct s' :=
  ⟨distinct.nodup.sublist (fewer.map _),
    fun l held => (distinct.fresh l (fewer.subset held)).trans_le le⟩

theorem Distinct.move (distinct : Distinct s) (move : Move g s s') : Distinct s' := by
  cases move with
  | quiet quiet => exact distinct.shrink (quiet.granted ▸ .refl _) quiet.nextAddress
  | grant new _ _ _ placed =>
    obtain ⟨address, next⟩ := placed.fresh
    refine ⟨((placed.perm.map _).nodup_iff).mpr (nodup_cons.mpr ⟨fun held => ?_,
      distinct.nodup⟩), fun l held => ?_⟩
    · obtain ⟨k, held, same⟩ := mem_map.mp held
      have := distinct.fresh k held
      omega
    · rcases mem_cons.mp (placed.perm.mem_iff.mp held) with rfl | held
      · omega
      · have := distinct.fresh l held
        omega
  | take l took =>
    exact distinct.shrink (took.fewerExclusive.append took.fewerShared) took.frame.nextAddress
  | drop o dropped =>
    exact distinct.shrink (dropped.fewerExclusive.append dropped.fewerShared)
      dropped.frame.nextAddress

/-! ## The enumeration -/

/-- Every lock covers a byte; allocations may fail. -/
def Regime.covering : Regime :=
  { Regime.bytes with
    plentiful := False
    sure := fun admitted _ => Or.inr admitted.2 }

theorem Sound.covers (sound : Sound Regime.covering s) (held : l ∈ s.granted) :
    l.startingByte ≤ l.endingByte := by
  obtain ⟨proper, nonempty⟩ := sound.admitted l held
  unfold FileLockInfo.Proper at proper
  unfold Lock.startingByte Lock.endingByte
  omega

/-- The first call returns the first lock. -/
theorem getNext_restart (sound : Sound g s) (last : Lock) :
    fsRtlGetNextFileLock s last true = s.granted.head? := by
  unfold fsRtlGetNextFileLock
  split
  next idle => rw [(sound.idle idle).1]; rfl
  next => rw [if_pos rfl, minimum_sharedLocks, minimum_eq, State.granted, head?_append]; rfl

/-- A call after one that returned a lock returns the lock behind it. -/
theorem getNext_continue (sound : Sound Regime.covering s) (distinct : Distinct s)
    (sequence : s.granted = xs ++ l :: ys) :
    fsRtlGetNextFileLock s l false = ys.head? := by
  have held : l ∈ s.granted := by simp [sequence]
  have covers := sound.covers held
  have nodup := distinct.nodup
  rw [State.granted, map_append] at nodup
  unfold fsRtlGetNextFileLock
  rw [if_neg, if_neg (by simp), minimum_sharedLocks]
  · rcases split_two sequence.symm with ⟨more, exclusive, rfl⟩ | ⟨less, shared, -⟩
    · rw [if_pos (sound.exclusiveKind l (by simp [exclusive])), head?_append,
        nextExclusive_eq sound.exclusive exclusive covers]
    · rw [if_neg (by simp [sound.sharedKind l (by simp [shared])])]
      exact nextShared_eq sound.shared (nodup_append.mp nodup).2.1 shared covers
  · intro idle
    rw [(sound.idle idle).1] at held
    exact absurd held (by simp)

theorem enumerate_eq (sound : Sound Regime.covering s) (distinct : Distinct s) (last : Lock)
    (n : Nat) : enumerate s last n = s.granted[n]? := by
  induction n with
  | zero => rw [enumerate, getNext_restart sound, head?_eq_getElem?]
  | succ n ih =>
    rw [enumerate, ih]
    by_cases more : n < s.granted.length
    · have parts := (take_append_drop n s.granted).symm
      rw [drop_eq_getElem_cons more] at parts
      rw [getElem?_eq_getElem more, Option.bind_some, getNext_continue sound distinct parts,
        head?_drop]
    · rw [getElem?_eq_none (by omega), getElem?_eq_none (by omega), Option.bind_none]

/-- **An enumeration returns every granted lock once**, the exclusive ones first, after
any run of calls whose lock requests cover a byte; the pool may fail at any time. -/
theorem enumeration_complete (calls : List Call) (completeLockIrpRoutine unlockRoutine : Bool)
    (fits : ∀ c ∈ calls, c.Requests fun r => r.NoWrap ∧ r.length ≠ 0) (s : State)
    (reached : s = run (fsRtlInitializeFileLock completeLockIrpRoutine unlockRoutine) calls)
    (last : Lock) :
    (∀ n, enumerate s last n = (s.exclusiveLocks ++ s.sharedLocks)[n]?) ∧
      (s.exclusiveLocks ++ s.sharedLocks).Nodup ∧
      (∀ l ∈ s.exclusiveLocks, l.lockInfo.exclusiveLock) ∧
      ∀ l ∈ s.sharedLocks, l.lockInfo.exclusiveLock = false := by
  have admitted : ∀ c ∈ calls, c.Admitted .covering := fun c hc =>
    ⟨fun r asked => ⟨Request.proper (fits c hc r asked).1 fun origin =>
      (fits c hc r asked).2 origin.2, (fits c hc r asked).2⟩, nofun⟩
  have start := initialize_sound .covering completeLockIrpRoutine unlockRoutine
  have moves := run_moves start admitted
  rw [← reached] at moves
  have sound := moves.sound start
  have distinct : Distinct s :=
    moves.keep start ⟨Pairwise.nil, by simp [State.granted, State.exclusiveLocks,
      State.sharedLocks, fsRtlInitializeFileLock]⟩ fun _ move distinct => distinct.move move
  exact ⟨enumerate_eq sound distinct last, distinct.nodup.of_map _, sound.exclusiveKind,
    sound.sharedKind⟩

/-- Bytes 5 to 39, 10 to 12 and 20 to 29 are locked; the unlock of the first range finds no
node for the split, and bytes 50 to 59 are locked for one owner alone. -/
def scarceRun : List Call :=
  [tryLock 5 35 false 1, tryLock 10 3 false 1, tryLock 20 10 false 1,
    ⟨.unlockSingle ⟨1, 5, 35, 1, 0⟩, [false], []⟩, tryLock 50 10 true 2]

theorem enumeration_complete_scarceRun :
    (∀ c ∈ scarceRun, c.Requests fun r => r.NoWrap ∧ r.length ≠ 0) ∧
      enumerate (run (fsRtlInitializeFileLock false false) scarceRun)
          ⟨0, Request.fileLockInfo ⟨0, 1, false, 1, 1, 0⟩⟩ 2 =
        (run (fsRtlInitializeFileLock false false) scarceRun).granted[2]? :=
  ⟨by decide, (enumeration_complete scarceRun false false (by decide) _ rfl _).1 2⟩

end Ntoskrnl.FsRtl.FileLock
