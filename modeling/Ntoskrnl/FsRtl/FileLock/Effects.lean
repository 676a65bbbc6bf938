/-
# Ntoskrnl.FsRtl.FileLock.Effects -- what the routines do to a file lock

The trees seen as sequences of locks: an access check leaves them as they are, an
insertion adds one lock, a removal takes one, a bulk unlock takes those of an owner.
Each routine gets one lemma that says so, together with what happens to the two hints;
`Frame` collects the fields none of them touches.

A lock call, an unlock and the grants to waiters are all made of four moves: a lock is
granted that nothing excludes, a lock is taken away, the locks of an owner are taken
away, or the locks stay as they are.  `Sound` holds at the beginning and survives every
move; which requests may be made is a parameter, the `Regime`.
-/
import Ntoskrnl.FsRtl.FileLock.Remove

namespace Ntoskrnl.FsRtl.FileLock

open Base Lib.SplayTree List Function

set_option autoImplicit false

variable {s s' : State} {l : Lock}

namespace State

def sharedLocks (s : State) : List Lock :=
  allLocks (inorder s.sharedLockTree)

def exclusiveLocks (s : State) : List Lock :=
  inorder s.exclusiveLockTree

def granted (s : State) : List Lock :=
  s.exclusiveLocks ++ s.sharedLocks

theorem sharedLocks_congr (same : s'.sharedLockTree = s.sharedLockTree) :
    s'.sharedLocks = s.sharedLocks := by
  rw [sharedLocks, same, sharedLocks]

theorem exclusiveLocks_congr (same : s'.exclusiveLockTree = s.exclusiveLockTree) :
    s'.exclusiveLocks = s.exclusiveLocks := by
  rw [exclusiveLocks, same, exclusiveLocks]

theorem mem_granted : l ∈ s.granted ↔ l ∈ s.exclusiveLocks ∨ l ∈ s.sharedLocks := mem_append

end State

/-- The fields that belong to the queue of waiters and to the file lock as a whole. -/
structure Frame (s s' : State) : Prop where
  waitingLocks : s'.waitingLocks = s.waitingLocks
  completed : s'.completed = s.completed
  nextIrp : s'.nextIrp = s.nextIrp
  lockInformation : s'.lockInformation = s.lockInformation
  completeLockIrpRoutine : s'.completeLockIrpRoutine = s.completeLockIrpRoutine
  nextAddress : s.nextAddress ≤ s'.nextAddress

theorem Frame.refl (s : State) : Frame s s :=
  ⟨rfl, rfl, rfl, rfl, rfl, le_rfl⟩

variable {k : Lock} {locks : List Lock} {s'' : State}

theorem Frame.trans (first : Frame s s') (second : Frame s' s'') : Frame s s'' :=
  ⟨second.waitingLocks.trans first.waitingLocks, second.completed.trans first.completed,
    second.nextIrp.trans first.nextIrp, second.lockInformation.trans first.lockInformation,
    second.completeLockIrpRoutine.trans first.completeLockIrpRoutine,
    first.nextAddress.trans second.nextAddress⟩

/-! ## Access checks -/

/-- Only the shape of the trees has changed. -/
structure Reshaped (s s' : State) : Prop where
  frame : Frame s s'
  shared : inorder s'.sharedLockTree = inorder s.sharedLockTree
  exclusive : inorder s'.exclusiveLockTree = inorder s.exclusiveLockTree
  lastLock : s'.lastLock = s.lastLock
  lowestLockOffset : s'.lowestLockOffset = s.lowestLockOffset
  pool : s'.pool = s.pool

namespace Reshaped

theorem refl (s : State) : Reshaped s s :=
  ⟨.refl s, rfl, rfl, rfl, rfl, rfl⟩

theorem trans (first : Reshaped s s') (second : Reshaped s' s'') : Reshaped s s'' :=
  ⟨first.frame.trans second.frame, second.shared.trans first.shared,
    second.exclusive.trans first.exclusive, second.lastLock.trans first.lastLock,
    second.lowestLockOffset.trans first.lowestLockOffset, second.pool.trans first.pool⟩

theorem sharedLocks (same : Reshaped s s') : s'.sharedLocks = s.sharedLocks :=
  congrArg allLocks same.shared

theorem exclusiveLocks (same : Reshaped s s') : s'.exclusiveLocks = s.exclusiveLocks :=
  same.exclusive

theorem granted (same : Reshaped s s') : s'.granted = s.granted := by
  rw [State.granted, same.sharedLocks, same.exclusiveLocks, State.granted]

end Reshaped

theorem reshaped_shared (s : State) (probe : LockTreeNode → Probe) : Reshaped s { s with
      sharedLockTree := rebalance s.sharedLockTree (search probe s.sharedLockTree).edge } :=
  ⟨⟨rfl, rfl, rfl, rfl, rfl, le_rfl⟩, inorder_rebalance _ _, rfl, rfl, rfl, rfl⟩

theorem reshaped_exclusive (s : State) (probe : Lock → Probe) : Reshaped s { s with
      exclusiveLockTree := rebalance s.exclusiveLockTree (search probe s.exclusiveLockTree).edge } :=
  ⟨⟨rfl, rfl, rfl, rfl, rfl, le_rfl⟩, rfl, inorder_rebalance _ _, rfl, rfl, rfl⟩

theorem exclusiveAccess_reshaped (s : State) (info : FileLockInfo) :
    Reshaped s (fsRtlPrivateCheckForExclusiveLockAccess s info).2 := by
  unfold fsRtlPrivateCheckForExclusiveLockAccess
  dsimp only
  split
  · exact .refl s
  · split
    · exact reshaped_shared s _
    · exact (reshaped_shared s _).trans (reshaped_exclusive _ _)

theorem access_reshaped (s : State) (info : FileLockInfo) :
    Reshaped s (checkForLockAccess s info).2 := by
  unfold checkForLockAccess
  split
  · exact exclusiveAccess_reshaped s info
  · exact reshaped_exclusive s _

theorem exclusiveAccess_eq (s : State) (info : FileLockInfo) :
    (fsRtlPrivateCheckForExclusiveLockAccess s info).1 =
      (!sharedConflict s.sharedLockTree info && !exclusiveConflict s.exclusiveLockTree info) := by
  unfold fsRtlPrivateCheckForExclusiveLockAccess
  dsimp only
  split
  next conflict => simp [conflict]
  next free =>
    split
    next conflict => simp [conflict]
    next clear => simp [free, clear]

/-! ## Granting a lock -/

/-- A lock has been granted. -/
structure Placed (s s' : State) (new : Lock) : Prop where
  frame : Frame s s'
  fresh : new.address = s.nextAddress ∧ s'.nextAddress = s.nextAddress + 1
  lastLock : s'.lastLock = update s.lastLock new.lockInfo.fileObject (some new)
  lowestLockOffset : s'.lowestLockOffset =
    if new.startingByte < s.lowestLockOffset then new.startingByte % 2 ^ 32 else s.lowestLockOffset
  locks : (new.lockInfo.exclusiveLock ∧ s'.sharedLockTree = s.sharedLockTree ∧
      AddedTo new s.exclusiveLocks s'.exclusiveLocks ∧ Separate s'.exclusiveLocks) ∨
    (new.lockInfo.exclusiveLock = false ∧ s'.exclusiveLockTree = s.exclusiveLockTree ∧
      AddedTo new s.sharedLocks s'.sharedLocks ∧ Ordered (inorder s'.sharedLockTree))

/-- Nothing but the pool has changed. -/
structure Refused (s s' : State) : Prop where
  frame : Frame s s'
  shared : s'.sharedLockTree = s.sharedLockTree
  exclusive : s'.exclusiveLockTree = s.exclusiveLockTree
  lastLock : s'.lastLock = s.lastLock
  lowestLockOffset : s'.lowestLockOffset = s.lowestLockOffset

/-- The shared nodes have no holes and the pool has nodes to keep it so. -/
structure Tidy (s : State) : Prop where
  tight : ∀ n ∈ inorder s.sharedLockTree, n.Tight
  plenty : Plenty s.pool

variable {info : FileLockInfo}

theorem insertLock_cases (ordered : Ordered (inorder s.sharedLockTree))
    (separate : Separate s.exclusiveLocks) (proper : info.Proper)
    (free : info.exclusiveLock →
      ∀ l ∈ s.exclusiveLocks, ¬ l.Touches info.startingByte info.endingByte) :
    ((fsRtlPrivateInsertLock s info).1 = false ∧ Refused s (fsRtlPrivateInsertLock s info).2) ∨
      ((fsRtlPrivateInsertLock s info).1 ∧
        Placed s (fsRtlPrivateInsertLock s info).2 ⟨s.nextAddress, info⟩) := by
  have newProper : (⟨s.nextAddress, info⟩ : Lock).Proper := proper
  unfold fsRtlPrivateInsertLock
  split
  · exact .inl ⟨rfl, ⟨⟨rfl, rfl, rfl, rfl, rfl, le_rfl⟩, rfl, rfl, rfl, rfl⟩⟩
  · split
    next exclusive =>
      refine .inr ⟨rfl, ⟨rfl, rfl, rfl, rfl, rfl, Nat.le_succ _⟩, ⟨rfl, rfl⟩, rfl, rfl,
        .inl ⟨exclusive, rfl, ?_⟩⟩
      exact (insertExclusive_separate separate newProper (free exclusive)).symm
    next shared =>
      rcases insertShared_ordered ordered newProper (allocate s.pool).2 with
        ⟨refused, same⟩ | ⟨accepted, result, added⟩
      · rw [if_neg (by simp [refused])]
        exact .inl ⟨rfl, ⟨⟨rfl, rfl, rfl, rfl, rfl, Nat.le_succ _⟩, same, rfl, rfl, rfl⟩⟩
      · rw [if_pos accepted]
        exact .inr ⟨rfl, ⟨rfl, rfl, rfl, rfl, rfl, Nat.le_succ _⟩, ⟨rfl, rfl⟩, rfl, rfl,
          .inr ⟨by simpa using shared, rfl, added, result⟩⟩

theorem insertLock_frame (s : State) (info : FileLockInfo) :
    Frame s (fsRtlPrivateInsertLock s info).2 := by
  unfold fsRtlPrivateInsertLock
  dsimp only
  repeat' split
  all_goals exact ⟨rfl, rfl, rfl, rfl, rfl, by simp [State.setLastLock, State.lowerOffset]⟩

/-- With a full pool the lock is granted and the nodes stay whole. -/
theorem insertLock_tidy (ordered : Ordered (inorder s.sharedLockTree)) (proper : info.Proper)
    (tidy : Tidy s) :
    (fsRtlPrivateInsertLock s info).1 ∧ Tidy (fsRtlPrivateInsertLock s info).2 := by
  have newProper : (⟨s.nextAddress, info⟩ : Lock).Proper := proper
  unfold fsRtlPrivateInsertLock
  rw [if_neg (by simp [tidy.plenty.allocate.1])]
  split
  · exact ⟨rfl, tidy.tight, tidy.plenty.allocate.2⟩
  · obtain ⟨accepted, pieces, left⟩ :=
      insertShared_tight ordered tidy.tight newProper tidy.plenty.allocate.2
    rw [if_pos accepted]
    exact ⟨rfl, pieces, left⟩

/-! ## The lowest lock offset -/

/-- No lock begins below the lowest lock offset. -/
def LowestBounds (s : State) : Prop :=
  ∀ l ∈ s.granted, s.lowestLockOffset ≤ l.startingByte

theorem SortedLocks.head_le (sorted : SortedLocks locks) (inside : l ∈ locks) :
    ∃ first, locks.head? = some first ∧ first.startingByte ≤ l.startingByte := by
  cases locks with
  | nil => simp at inside
  | cons first =>
    refine ⟨first, rfl, ?_⟩
    rcases mem_cons.mp inside with rfl | inside
    · exact le_rfl
    · exact (pairwise_cons.mp sorted).1 l inside

theorem minimum_sharedLocks (s : State) :
    (minimum s.sharedLockTree).map LockTreeNode.first = s.sharedLocks.head? := by
  rw [minimum_eq, State.sharedLocks]
  cases inorder s.sharedLockTree with
  | nil => rfl
  | cons => rfl

theorem lowestLock_le (shared : SortedLocks s.sharedLocks)
    (exclusive : SortedLocks s.exclusiveLocks) (held : k ∈ s.granted) :
    ∃ l, lowestLock s = some l ∧ l.startingByte ≤ k.startingByte := by
  unfold lowestLock
  rw [minimum_sharedLocks, minimum_eq]
  rcases State.mem_granted.mp held with held | held
  · obtain ⟨exLock, isHead, le⟩ := exclusive.head_le held
    rw [State.exclusiveLocks] at isHead
    rw [isHead]
    cases s.sharedLocks.head? with
    | none => exact ⟨exLock, rfl, le⟩
    | some shLock =>
      dsimp only
      split
      · exact ⟨exLock, rfl, le⟩
      · exact ⟨shLock, rfl, by omega⟩
  · obtain ⟨shLock, isHead, le⟩ := shared.head_le held
    rw [isHead]
    cases (inorder s.exclusiveLockTree).head? with
    | none => exact ⟨shLock, rfl, le⟩
    | some exLock =>
      dsimp only
      split
      · exact ⟨exLock, rfl, by omega⟩
      · exact ⟨shLock, rfl, le⟩

theorem resetLowestLockOffset_bounds (shared : SortedLocks s.sharedLocks)
    (exclusive : SortedLocks s.exclusiveLocks) (bounds : LowestBounds s) :
    LowestBounds (fsRtlPrivateResetLowestLockOffset s) := by
  intro k held
  have below := bounds k held
  obtain ⟨l, lowest, le⟩ := lowestLock_le shared exclusive held
  simp only [fsRtlPrivateResetLowestLockOffset, lowest]
  split
  · omega
  · split <;> omega

/-! ## Taking a lock away -/

theorem State.setLastLock_lastLock (s : State) (fileObject : Nat) (lock : Option Lock) :
    (s.setLastLock fileObject lock).lastLock = update s.lastLock fileObject lock := rfl

theorem forgetLastLock_eq (s : State) (fileObject : Nat) (l : Lock) :
    ∃ lastLock, lastLock = (s.forgetLastLock fileObject l).lastLock ∧
      s.forgetLastLock fileObject l = { s with lastLock := lastLock } := by
  unfold State.forgetLastLock
  split
  · exact ⟨_, rfl, rfl⟩
  · exact ⟨_, rfl, rfl⟩

/-- A lock has been taken away on behalf of a file object. -/
structure Took (s s' : State) (fileObject : Nat) (l : Lock) : Prop where
  frame : Frame s s'
  locks : (AddedTo l s'.sharedLocks s.sharedLocks ∧ s'.exclusiveLockTree = s.exclusiveLockTree) ∨
    (AddedTo l s'.exclusiveLocks s.exclusiveLocks ∧ s'.sharedLockTree = s.sharedLockTree)
  ordered : Ordered (inorder s'.sharedLockTree)
  lastLock : s'.lastLock = (s.forgetLastLock fileObject l).lastLock
  lowest : LowestBounds s → LowestBounds s'
  tidy : Tidy s → Tidy s'

variable {new : Lock} {locks' : List Lock}

theorem AddedTo.sublist (added : AddedTo new locks locks') : locks.Sublist locks' := by
  obtain ⟨xs, ys, rfl, rfl⟩ := added
  exact .append_left (sublist_cons_self new ys) xs

theorem AddedTo.perm (added : AddedTo new locks locks') : locks'.Perm (new :: locks) := by
  obtain ⟨xs, ys, rfl, rfl⟩ := added
  exact perm_middle

theorem SortedLocks.of_added (sorted : SortedLocks locks') (added : AddedTo new locks locks') :
    SortedLocks locks :=
  sorted.sublist added.sublist

theorem Separate.sorted (separate : Separate locks) : SortedLocks locks :=
  separate.apart.imp_of_mem fun {a b} ha _ apart => by
    have := (separate.proper a ha).start_le
    omega

theorem LowestBounds.mono (bounds : LowestBounds s) (held : ∀ l ∈ s'.granted, l ∈ s.granted)
    (same : s'.lowestLockOffset = s.lowestLockOffset) :
    LowestBounds s' := fun l inside => same ▸ bounds l (held l inside)

variable {fileObject : Nat}

section RemoveShared

variable {loc : Loc LockTreeNode} {passed links : List Lock}

theorem allLocks_pieces (sequence : inorder s.sharedLockTree = loc.before ++ loc.val :: loc.after)
    (parts : loc.val.locks = passed ++ l :: links) {nodes : List LockTreeNode}
    (pieces : allLocks nodes = passed ++ links) :
    AddedTo l (allLocks (loc.before ++ nodes ++ loc.after)) s.sharedLocks := by
  refine ⟨allLocks loc.before ++ passed, links ++ allLocks loc.after, ?_, ?_⟩
  · simp [pieces]
  · simp [State.sharedLocks, sequence, parts]

/-- Where the offset is reset only the offset changes, and it is still a bound. -/
theorem raiseOffset_taken (s taken : State) (shared : SortedLocks taken.sharedLocks)
    (exclusive : SortedLocks taken.exclusiveLocks) (fewer : taken.granted.Sublist s.granted)
    (same : taken.lowestLockOffset = s.lowestLockOffset) {first : Bool} :
    ∃ offset, (if first then taken.raiseOffset l else taken) =
        { taken with lowestLockOffset := offset } ∧
      (LowestBounds s → LowestBounds { taken with lowestLockOffset := offset }) := by
  have kept (bounds : LowestBounds s) : LowestBounds taken :=
    bounds.mono (fun _ held => fewer.subset held) same
  unfold State.raiseOffset
  split
  · split
    · exact ⟨_, rfl, fun bounds => resetLowestLockOffset_bounds shared exclusive (kept bounds)⟩
    · exact ⟨_, rfl, kept⟩
  · exact ⟨_, rfl, kept⟩

theorem took_shared (ordered : Ordered (inorder s.sharedLockTree))
    (sequence : inorder s.sharedLockTree = loc.before ++ loc.val :: loc.after)
    (parts : loc.val.locks = passed ++ l :: links) (frame : Frame s s')
    (tree : inorder s'.sharedLockTree =
      loc.before ++ (piecesOf loc.val passed links l.endingByte s.pool).1 ++ loc.after)
    (exclusive : s'.exclusiveLockTree = s.exclusiveLockTree)
    (pool : s'.pool = (piecesOf loc.val passed links l.endingByte s.pool).2)
    (lastLock : s'.lastLock = (s.forgetLastLock fileObject l).lastLock)
    (lowest : LowestBounds s → LowestBounds s') : Took s s' fileObject l := by
  have cut := cut_single parts
  rw [sequence] at ordered
  refine ⟨frame, .inl ⟨?_, exclusive⟩, ?_, lastLock, lowest, fun tidy => ?_⟩
  · rw [State.sharedLocks, tree]
    exact allLocks_pieces sequence parts (piecesOf_locks ..)
  · rw [tree]
    exact piecesOf_ordered ordered cut s.pool
  · have tight := tidy.tight
    rw [sequence] at tight
    obtain ⟨pieces, plenty⟩ := piecesOf_tight ordered cut tight tidy.plenty
    exact ⟨tree ▸ pieces, pool ▸ plenty⟩

end RemoveShared

/-- A removal has failed and changed nothing, or taken away a lock that the target names. -/
def Removes (s : State) (t : Target) (removed : NtStatus × State) : Prop :=
  (removed.1 = .rangeNotLocked ∧ removed.2 = s) ∨
    (removed.1 = .success ∧ ∃ l, t.matchesLock l ∧ Took s removed.2 t.fileObject l)

section Removes

variable (t : Target) (ordered : Ordered (inorder s.sharedLockTree))
  (separate : Separate s.exclusiveLocks)

include ordered separate

theorem removeShared_removes : Removes s t (removeShared s t) := by
  unfold removeShared
  dsimp only
  split
  · exact .inl ⟨rfl, rfl⟩
  next loc found =>
  split
  · exact .inl ⟨rfl, rfl⟩
  next passed l links named =>
  have sequence := search_inside found
  obtain ⟨parts, matched⟩ := findLock_parts named
  obtain ⟨hint, lastLock, forgotten⟩ := forgetLastLock_eq s t.fileObject l
  rw [forgotten]
  have pieces := piecesOf_locks loc.val passed links l.endingByte s.pool
  cases left : passed ++ links with
  | nil =>
    have none_left : piecesOf loc.val passed links l.endingByte s.pool = ([], s.pool) := by
      simp [piecesOf, left]
    have tree : inorder loc.delete = loc.before ++
        (piecesOf loc.val passed links l.endingByte s.pool).1 ++ loc.after := by
      rw [none_left, Loc.inorder_delete, append_nil]
    have less := allLocks_pieces sequence parts pieces
    rw [← tree] at less
    obtain ⟨offset, raised, lowest⟩ := raiseOffset_taken s
      { s with lastLock := hint, sharedLockTree := loc.delete } (ordered.sorted.of_added less)
      separate.sorted (less.sublist.append_left _) rfl
    rw [if_pos rfl] at raised
    rw [raised]
    exact .inr ⟨rfl, l, matched, took_shared ordered sequence parts
      ⟨rfl, rfl, rfl, rfl, rfl, le_rfl⟩ tree rfl (by rw [none_left]) lastLock lowest⟩
  | cons first rest =>
    let node : LockTreeNode := { loc.val with first := first, rest := rest }
    have split_left : piecesOf loc.val passed links l.endingByte s.pool =
        let split := fsRtlSplitLocks node passed.length l.endingByte (reachOf passed) s.pool
        (split.parent :: split.fresh, split.pool) := by
      simp [piecesOf, left, node]
    -- before the split the locks that stay are in one node
    have whole : inorder (Loc.tree { loc with val := node }) =
        loc.before ++ [node] ++ loc.after := by
      rw [Loc.inorder_tree, append_assoc]
      rfl
    have less := allLocks_pieces sequence parts
      (by simpa [LockTreeNode.locks] using left.symm : allLocks [node] = passed ++ links)
    rw [← whole] at less
    obtain ⟨offset, raised, lowest⟩ := raiseOffset_taken s
      { s with lastLock := hint, sharedLockTree := Loc.tree { loc with val := node } }
      (ordered.sorted.of_added less) separate.sorted (less.sublist.append_left _) rfl
    dsimp only
    rw [raised]
    refine .inr ⟨rfl, l, matched, took_shared ordered sequence parts
      ⟨rfl, rfl, rfl, rfl, rfl, le_rfl⟩ ?_ rfl ?_ lastLock fun bounds => (lowest bounds).mono ?_ rfl⟩
    · rw [inorder_replaceNode, split_left]
    · rw [split_left]
    · intro k held
      rw [State.granted, State.sharedLocks, inorder_replaceNode, allLocks_append, allLocks_append,
        allLocks_cons] at held
      rw [State.granted, State.sharedLocks, whole]
      rw [split_left] at pieces
      rw [allLocks_cons] at pieces
      rw [pieces, left] at held
      simpa [State.exclusiveLocks, LockTreeNode.locks] using held

theorem removeExclusive_removes : Removes s t (removeExclusive s t) := by
  unfold removeExclusive
  dsimp only
  split
  · exact .inl ⟨rfl, rfl⟩
  next loc found =>
  split
  · exact .inl ⟨rfl, rfl⟩
  next passed l links named =>
  have sequence := search_inside found
  obtain ⟨parts, matched⟩ := findLock_parts named
  rw [parts, ← append_assoc] at sequence
  obtain ⟨here, isHere, upTo, val, rest⟩ := nth_spec sequence
  rw [length_append] at isHere
  rw [isHere]
  obtain ⟨hint, lastLock, forgotten⟩ := forgetLastLock_eq s t.fileObject l
  have less : AddedTo l (inorder here.delete) s.exclusiveLocks := by
    refine ⟨loc.before ++ passed, links, ?_, sequence⟩
    rw [Loc.inorder_delete, upTo, rest]
  dsimp only
  rw [forgotten]
  obtain ⟨offset, raised, lowest⟩ := raiseOffset_taken s
    { s with lastLock := hint, exclusiveLockTree := here.delete } ordered.sorted
    (separate.sorted.of_added less) (less.sublist.append_right _) rfl
  rw [if_pos rfl] at raised
  rw [raised]
  exact .inr ⟨rfl, l, matched, ⟨rfl, rfl, rfl, rfl, rfl, le_rfl⟩, .inr ⟨less, rfl⟩, ordered,
    lastLock, lowest, fun tidy => ⟨tidy.tight, tidy.plenty⟩⟩

end Removes

/-- The locks of an owner have been taken away. -/
structure Dropped (s s' : State) (o : Owner) : Prop where
  frame : Frame s s'
  shared : s'.sharedLocks = s.sharedLocks.filter fun l => !o.matchesLock l
  exclusive : s'.exclusiveLocks = s.exclusiveLocks.filter fun l => !o.matchesLock l
  ordered : Ordered (inorder s'.sharedLockTree)
  lastLock : s'.lastLock = s.lastLock
  lowestLockOffset : s'.lowestLockOffset = s.lowestLockOffset
  tidy : Tidy s → Tidy s'

theorem unlockGranted_dropped (o : Owner) (ordered : Ordered (inorder s.sharedLockTree)) :
    Dropped s (unlockGranted s o) o := by
  have exclusive := unlockAllExclusive_spec (o := o) (inorder s.exclusiveLockTree) []
    s.exclusiveLockTree rfl
  unfold unlockGranted
  split
  · obtain ⟨result, locks, tight⟩ := unlockEachShared_spec (o := o)
      ((allLocks (inorder s.sharedLockTree)).countP o.matchesLock) s.sharedLockTree s.pool rfl ordered
    exact ⟨⟨rfl, rfl, rfl, rfl, rfl, le_rfl⟩, locks, exclusive, result, rfl, rfl,
      fun tidy => (tight tidy.tight tidy.plenty).elim .mk⟩
  · obtain ⟨result, locks, tight⟩ := unlockAllShared_spec (o := o) (inorder s.sharedLockTree) []
      s.sharedLockTree s.pool rfl ordered
    exact ⟨⟨rfl, rfl, rfl, rfl, rfl, le_rfl⟩, locks, exclusive, result, rfl, rfl,
      fun tidy => (tight tidy.tight tidy.plenty).elim .mk⟩

/-! ## Regimes -/

/-- The requests that are made, and whether the pool serves every allocation.  Where it
may fail, an exclusive lock has to cover a byte: a node marked as whole may have holes. -/
structure Regime where
  Admits : FileLockInfo → Prop
  plentiful : Prop
  proper : ∀ {info : FileLockInfo}, Admits info → info.Proper
  sure : ∀ {info : FileLockInfo}, Admits info → info.exclusiveLock → plentiful ∨ info.length ≠ 0

/-- A lock stands in the way of another one: they overlap, and either the other one is
exclusive or this one is and belongs to somebody else. -/
def Lock.Excludes (l : Lock) (info : FileLockInfo) : Prop :=
  l.Touches info.startingByte info.endingByte ∧ (info.exclusiveLock ∨
      (l.lockInfo.exclusiveLock ∧ l.lockInfo.sameOwner info = false))

structure Sound (g : Regime) (s : State) : Prop where
  shared : Ordered (inorder s.sharedLockTree)
  exclusive : Separate s.exclusiveLocks
  sharedKind : ∀ l ∈ s.sharedLocks, l.lockInfo.exclusiveLock = false
  exclusiveKind : ∀ l ∈ s.exclusiveLocks, l.lockInfo.exclusiveLock
  compatible : ∀ x ∈ s.exclusiveLocks, ∀ l ∈ s.sharedLocks,
    x.Touches l.startingByte l.endingByte → x.lockInfo.sameOwner l.lockInfo
  admitted : ∀ l ∈ s.granted, g.Admits l.lockInfo
  waiters : ∀ w ∈ s.waitingLocks, g.Admits w.request.fileLockInfo
  tidy : g.plentiful → Tidy s
  idle : s.lockInformation = false → s.granted = [] ∧ s.waitingLocks = []

theorem Lock.Touches.symm (touches : l.Touches k.startingByte k.endingByte) :
    k.Touches l.startingByte l.endingByte :=
  ⟨touches.2, touches.1⟩

/-! ## Access checks -/

variable {g : Regime}

theorem exclusiveAccess_free (sound : Sound g s) (admitted : g.Admits info)
    (exclusive : info.exclusiveLock)
    (granted : (fsRtlPrivateCheckForExclusiveLockAccess s info).1) :
    ∀ l ∈ s.granted, ¬ l.Touches info.startingByte info.endingByte := by
  rw [exclusiveAccess_eq, Bool.and_eq_true, Bool.not_eq_true', Bool.not_eq_true'] at granted
  have sure : info.length ≠ 0 ∨ ∀ n ∈ inorder s.sharedLockTree, n.Tight := by
    rcases g.sure admitted exclusive with plentiful | nonempty
    · exact .inr (sound.tidy plentiful).tight
    · exact .inl nonempty
  intro l held
  rcases State.mem_granted.mp held with held | held
  · exact exclusiveConflict_free sound.exclusive (g.proper admitted) granted.2 l held
  · exact sharedConflict_free sound.shared (g.proper admitted) sure granted.1 l held

/-- A request that passes its check is excluded by no lock. -/
theorem access_free (sound : Sound g s) (admitted : g.Admits info)
    (granted : (checkForLockAccess s info).1) : ∀ l ∈ s.granted, ¬ l.Excludes info := by
  intro l held ⟨touches, conflict⟩
  unfold checkForLockAccess at granted
  split at granted
  next exclusive => exact exclusiveAccess_free sound admitted exclusive granted l held touches
  next shared =>
    obtain ⟨exclusive, other⟩ := conflict.resolve_left shared
    rcases State.mem_granted.mp held with held | held
    · have same := sharedAccess_free sound.exclusive (g.proper admitted) granted l held touches
      rw [other] at same
      exact absurd same (by decide)
    · rw [sound.sharedKind l held] at exclusive
      exact absurd exclusive (by decide)

/-! ## Moves -/

/-- The locks that are held stay as they are; hints may be dropped. -/
structure Quiet (g : Regime) (s s' : State) : Prop where
  shared : inorder s'.sharedLockTree = inorder s.sharedLockTree
  exclusive : inorder s'.exclusiveLockTree = inorder s.exclusiveLockTree
  lastLock : ∀ fileObject, s'.lastLock fileObject = s.lastLock fileObject ∨
    s'.lastLock fileObject = none
  lowest : LowestBounds s → LowestBounds s'
  waiters : ∀ w ∈ s'.waitingLocks, g.Admits w.request.fileLockInfo
  plenty : g.plentiful → Plenty s'.pool
  idle : s'.lockInformation = false → s.lockInformation = false ∧ s'.waitingLocks = []
  nextAddress : s.nextAddress ≤ s'.nextAddress

inductive Move (g : Regime) (s s' : State) : Prop where
  | quiet (quiet : Quiet g s s')
  | grant (new : Lock) (admitted : g.Admits new.lockInfo) (ready : s.lockInformation)
      (free : ∀ l ∈ s.granted, ¬ l.Excludes new.lockInfo) (placed : Placed s s' new)
      (tidy : g.plentiful → Tidy s')
  | take (l : Lock) (took : Took s s' l.lockInfo.fileObject l)
  | drop (o : Owner) (dropped : Dropped s s' o) (forgotten : s.lastLock o.fileObject = none)

namespace Quiet

theorem sharedLocks (quiet : Quiet g s s') : s'.sharedLocks = s.sharedLocks :=
  congrArg allLocks quiet.shared

theorem exclusiveLocks (quiet : Quiet g s s') : s'.exclusiveLocks = s.exclusiveLocks :=
  quiet.exclusive

theorem granted (quiet : Quiet g s s') : s'.granted = s.granted := by
  rw [State.granted, quiet.sharedLocks, quiet.exclusiveLocks, State.granted]

theorem sound (quiet : Quiet g s s') (sound : Sound g s) : Sound g s' where
  shared := quiet.shared ▸ sound.shared
  exclusive := quiet.exclusiveLocks ▸ sound.exclusive
  sharedKind := quiet.sharedLocks ▸ sound.sharedKind
  exclusiveKind := quiet.exclusiveLocks ▸ sound.exclusiveKind
  compatible := by
    rw [quiet.sharedLocks, quiet.exclusiveLocks]
    exact sound.compatible
  admitted := quiet.granted ▸ sound.admitted
  waiters := quiet.waiters
  tidy := fun plentiful => ⟨quiet.shared ▸ (sound.tidy plentiful).tight, quiet.plenty plentiful⟩
  idle := fun idle =>
    ⟨quiet.granted ▸ (sound.idle (quiet.idle idle).1).1, (quiet.idle idle).2⟩

end Quiet

section Moves

/-- Fewer locks are as sound. -/
theorem Sound.shrink (sound : Sound g s) (frame : Frame s s')
    (fewerShared : s'.sharedLocks.Sublist s.sharedLocks)
    (fewerExclusive : s'.exclusiveLocks.Sublist s.exclusiveLocks)
    (ordered : Ordered (inorder s'.sharedLockTree)) (tidy : Tidy s → Tidy s') : Sound g s' where
  shared := ordered
  exclusive := sound.exclusive.sublist fewerExclusive
  sharedKind := fun l held => sound.sharedKind l (fewerShared.subset held)
  exclusiveKind := fun l held => sound.exclusiveKind l (fewerExclusive.subset held)
  compatible := fun x hx l hl =>
    sound.compatible x (fewerExclusive.subset hx) l (fewerShared.subset hl)
  admitted := fun l held => sound.admitted l ((fewerExclusive.append fewerShared).subset held)
  waiters := frame.waitingLocks ▸ sound.waiters
  tidy := fun plentiful => tidy (sound.tidy plentiful)
  idle := fun idle => by
    obtain ⟨none_held, none_waiting⟩ := sound.idle (frame.lockInformation ▸ idle)
    have fewer : s'.granted.Sublist s.granted := fewerExclusive.append fewerShared
    rw [none_held] at fewer
    exact ⟨sublist_nil.mp fewer, frame.waitingLocks.trans none_waiting⟩

theorem Took.fewerShared (took : Took s s' fileObject l) :
    s'.sharedLocks.Sublist s.sharedLocks := by
  rcases took.locks with ⟨less, -⟩ | ⟨-, same⟩
  · exact less.sublist
  · exact (State.sharedLocks_congr same) ▸ Sublist.refl _

theorem Took.fewerExclusive (took : Took s s' fileObject l) :
    s'.exclusiveLocks.Sublist s.exclusiveLocks := by
  rcases took.locks with ⟨-, same⟩ | ⟨less, -⟩
  · exact (State.exclusiveLocks_congr same) ▸ Sublist.refl _
  · exact less.sublist

variable {o : Owner}

theorem Dropped.fewerShared (dropped : Dropped s s' o) : s'.sharedLocks.Sublist s.sharedLocks :=
  dropped.shared ▸ filter_sublist

theorem Dropped.fewerExclusive (dropped : Dropped s s' o) :
    s'.exclusiveLocks.Sublist s.exclusiveLocks :=
  dropped.exclusive ▸ filter_sublist

theorem Placed.mem_granted (placed : Placed s s' new) :
    l ∈ s'.granted ↔ l = new ∨ l ∈ s.granted := by
  rw [State.mem_granted, State.mem_granted]
  rcases placed.locks with ⟨-, same, added, -⟩ | ⟨-, same, added, -⟩
  · rw [added.mem, State.sharedLocks_congr same, or_assoc]
  · rw [added.mem, State.exclusiveLocks_congr same, or_left_comm]

theorem Placed.sound (placed : Placed s s' new) (sound : Sound g s)
    (admitted : g.Admits new.lockInfo) (ready : s.lockInformation)
    (free : ∀ l ∈ s.granted, ¬ l.Excludes new.lockInfo) (tidy : g.plentiful → Tidy s') :
    Sound g s' := by
  have held : ∀ l ∈ s'.granted, g.Admits l.lockInfo := fun l held => by
    rcases placed.mem_granted.mp held with rfl | held
    · exact admitted
    · exact sound.admitted l held
  have waiters : ∀ w ∈ s'.waitingLocks, g.Admits w.request.fileLockInfo :=
    placed.frame.waitingLocks ▸ sound.waiters
  have idle : s'.lockInformation = false → s'.granted = [] ∧ s'.waitingLocks = [] := by
    rw [placed.frame.lockInformation, ready]
    exact nofun
  rcases placed.locks with ⟨kind, same, added, separate⟩ | ⟨kind, same, added, ordered⟩
  · have sameLocks := State.sharedLocks_congr same
    refine ⟨same ▸ sound.shared, separate, sameLocks ▸ sound.sharedKind, fun l hl => ?_,
      fun x hx l hl touches => ?_, held, waiters, tidy, idle⟩
    · rcases added.mem.mp hl with rfl | hl
      · exact kind
      · exact sound.exclusiveKind l hl
    · rw [sameLocks] at hl
      rcases added.mem.mp hx with rfl | hx
      · exact absurd ⟨touches.symm, Or.inl kind⟩ (free l (State.mem_granted.mpr (Or.inr hl)))
      · exact sound.compatible x hx l hl touches
  · have sameLocks := State.exclusiveLocks_congr same
    refine ⟨ordered, sameLocks ▸ sound.exclusive, fun l hl => ?_, sameLocks ▸ sound.exclusiveKind,
      fun x hx l hl touches => ?_, held, waiters, tidy, idle⟩
    · rcases added.mem.mp hl with rfl | hl
      · exact kind
      · exact sound.sharedKind l hl
    · rw [sameLocks] at hx
      rcases added.mem.mp hl with rfl | hl
      · have clear := free x (State.mem_granted.mpr (Or.inl hx))
        by_contra other
        exact clear ⟨touches, .inr ⟨sound.exclusiveKind x hx, by simpa using other⟩⟩
      · exact sound.compatible x hx l hl touches

/-- **Every move keeps a file lock sound.** -/
theorem Sound.move (sound : Sound g s) (move : Move g s s') : Sound g s' := by
  cases move with
  | quiet quiet => exact quiet.sound sound
  | grant new admitted ready free placed tidy => exact placed.sound sound admitted ready free tidy
  | take l took =>
    exact sound.shrink took.frame took.fewerShared took.fewerExclusive took.ordered took.tidy
  | drop o dropped =>
    exact sound.shrink dropped.frame dropped.fewerShared dropped.fewerExclusive dropped.ordered
      dropped.tidy

abbrev Moves (g : Regime) : State → State → Prop :=
  Relation.ReflTransGen (Move g)

theorem Moves.sound (moves : Moves g s s') (sound : Sound g s) : Sound g s' := by
  induction moves with
  | refl => exact sound
  | tail _ move ih => exact ih.move move

/-- What every move keeps, sequences of moves keep. -/
theorem Moves.keep {P : State → Prop} (moves : Moves g s s') (sound : Sound g s) (start : P s)
    (step : ∀ {a b : State}, Sound g a → Move g a b → P a → P b) : P s' := by
  induction moves with
  | refl => exact start
  | tail earlier move ih => exact step (Moves.sound earlier sound) move ih

end Moves

end Ntoskrnl.FsRtl.FileLock
