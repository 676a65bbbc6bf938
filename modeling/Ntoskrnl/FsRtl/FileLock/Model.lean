/-
# Ntoskrnl.FsRtl.FileLock.Model -- the byte range locks of `filelock.c`

The granted locks of a file live in two splay trees.  An exclusive lock is a node of
its own; shared locks that overlap are merged into one node, whose `extent` is the last
byte any of them covers.  A node that has fallen apart is split again when a lock is
removed from it; where the pool has no node for the split, the node is marked holey.

Offsets, lengths and the last byte of a range are `ULONGLONG`s: the last byte of the
empty range at offset 0 is `~0`.  File objects, processes, keys and lock records are
named by numbers.  What the next allocations (`pool`) and completion routines (`replies`)
do are inputs of a call; both succeed when the list has run out.  The tail pointers of
the lists and the spin locks are left out.
-/
import Ntoskrnl.Base.Types
import Ntoskrnl.Lib.SplayTree

namespace Ntoskrnl.FsRtl.FileLock

open Base Lib.SplayTree List

set_option autoImplicit false

/-! ## Locks, nodes and waiters -/

/-- What a lock call asks for; `IrpSp->Parameters.LockControl` of a waiting one. -/
structure Request where
  byteOffset : Nat
  length : Nat
  exclusiveLock : Bool
  fileObject : Nat
  processId : Nat
  key : Nat
  deriving DecidableEq, Repr

/-- `FILE_LOCK_INFO`. -/
structure FileLockInfo where
  startingByte : Nat
  length : Nat
  exclusiveLock : Bool
  fileObject : Nat
  processId : Nat
  key : Nat
  endingByte : Nat
  deriving DecidableEq, Repr

/-- `StartingByte + Length - 1` as a `ULONGLONG`. -/
def endingByteOf (startingByte length : Nat) : Nat :=
  (startingByte + length + (2 ^ 64 - 1)) % 2 ^ 64

def Request.fileLockInfo (r : Request) : FileLockInfo where
  startingByte := r.byteOffset
  length := r.length
  exclusiveLock := r.exclusiveLock
  fileObject := r.fileObject
  processId := r.processId
  key := r.key
  endingByte := endingByteOf r.byteOffset r.length

/-- `SH_LOCK` and `EX_LOCK`: a record of the pool and the lock in it. -/
structure Lock where
  address : Nat
  lockInfo : FileLockInfo
  deriving DecidableEq, Repr

namespace Lock

def startingByte (l : Lock) : Nat := l.lockInfo.startingByte

def endingByte (l : Lock) : Nat := l.lockInfo.endingByte

def length (l : Lock) : Nat := l.lockInfo.length

end Lock

/-- `LOCKTREE_NODE`: a node always holds at least one lock. -/
structure LockTreeNode where
  first : Lock
  rest : List Lock
  holeyNode : Bool
  extent : Nat
  deriving DecidableEq, Repr

def LockTreeNode.locks (n : LockTreeNode) : List Lock :=
  n.first :: n.rest

/-- `WAITING_LOCK` and its IRP. -/
structure WaitingLock where
  irp : Nat
  request : Request
  cancel : Bool
  deriving DecidableEq, Repr

/-- A completed IRP and the status it was completed with. -/
structure Completion where
  irp : Nat
  status : NtStatus
  deriving DecidableEq, Repr

/-- A `FILE_LOCK` with its `LOCK_INFO`, the `LastLock` hints of the file objects, and
what the call in progress gets from the pool and from the completion routine. -/
structure State where
  completeLockIrpRoutine : Bool
  unlockRoutine : Bool
  lockInformation : Bool
  lowestLockOffset : Nat
  sharedLockTree : BinaryTree LockTreeNode
  exclusiveLockTree : BinaryTree Lock
  waitingLocks : List WaitingLock
  lastLock : Nat → Option Lock
  nextAddress : Nat
  nextIrp : Nat
  completed : List Completion
  pool : List Bool
  replies : List NtStatus

/-! ## Searching the trees -/

/-- The range is the empty one at offset 0, whose last byte lies behind its first. -/
def Lock.isOrigin (l : Lock) : Bool :=
  l.startingByte == 0 && l.length == 0

/-- One step of a search for the first node that overlaps a range.  A node with the
first lock `first` and the last byte `extent` lies before the range, at it, or behind it.
An empty lock equal to the range counts as overlapping, with the verdict `equal`. -/
def overlapProbe (equal : Probe) (startingByte endingByte : Nat) (first : Lock) (extent : Nat) :
    Probe :=
  if extent < startingByte ∨ first.isOrigin then
    if first.endingByte = endingByte ∧ first.startingByte = startingByte then equal
    else .less
  else if first.startingByte ≤ endingByte then
    if first.startingByte ≤ startingByte then .stop else .mark true
  else .greater

/-- Equal empty locks share a node. -/
def fsRtlFindFirstOverlappingSharedNode (tree : BinaryTree LockTreeNode)
    (startingByte endingByte : Nat) : Descent LockTreeNode :=
  search (fun n => overlapProbe .stop startingByte endingByte n.first n.extent) tree

/-- Equal empty locks are searched to the left for the first of their run. -/
def fsRtlFindFirstOverlappingExclusiveNode (tree : BinaryTree Lock)
    (startingByte endingByte : Nat) : Descent Lock :=
  search (fun l => overlapProbe (.mark false) startingByte endingByte l l.endingByte) tree

/-- The scan of `FsRtlFindFirstOverlapInNode` over the locks of a node. -/
def overlapScan (startingByte endingByte : Nat) : List Lock → Option Lock
  | [] => none
  | l :: locks =>
    if l.endingByte < startingByte ∨ l.isOrigin then
      if l.endingByte = endingByte ∧ l.startingByte = startingByte then some l
      else overlapScan startingByte endingByte locks
    else if endingByte < l.startingByte then none
    else some l

def fsRtlFindFirstOverlapInNode (n : LockTreeNode) (startingByte endingByte : Nat) : Option Lock :=
  overlapScan startingByte endingByte n.locks

/-! ## Splitting a node -/

/-- What the next allocation does, and what is left. -/
def allocate : List Bool → Bool × List Bool
  | [] => (true, [])
  | outcome :: pool => (outcome, pool)

/-- The node a pass of `FsRtlSplitLocks` is working on, with the locks it has passed. -/
structure Piece where
  first : Lock
  rest : List Lock
  holeyNode : Bool
  failedHoleySplit : Bool
  extent : Nat
  maxOffset : Nat
  startOffset : Nat

namespace Piece

variable (p : Piece) (extentValid : Bool)

/-- The pass stands at the first lock of a node. -/
def start (extent : Nat) (l : Lock) : Piece where
  first := l
  rest := []
  holeyNode := false
  failedHoleySplit := false
  extent := if extentValid then extent else l.endingByte
  maxOffset := l.endingByte
  startOffset := l.startingByte

def locks : List Lock :=
  p.first :: p.rest

/-- The node ends before this lock: it begins behind all the locks seen so far and is
not an empty lock at the beginning of the node. -/
def breaksAt (l : Lock) : Bool :=
  decide (p.maxOffset < l.startingByte) && !(l.length == 0 && l.startingByte == p.startOffset)

/-- No node for the split. -/
def refuse : Piece :=
  { p with holeyNode := true, failedHoleySplit := p.failedHoleySplit || p.holeyNode }

/-- The lock stays in the node. -/
def extend (l : Lock) : Piece :=
  { p with
    rest := p.rest ++ [l]
    maxOffset := max p.maxOffset l.endingByte
    extent := if p.maxOffset < l.endingByte ∧ extentValid = false then l.endingByte
      else p.extent }

/-- The node is finished; it is no longer holey unless a second split has failed in it. -/
def close : LockTreeNode where
  first := p.first
  rest := p.rest
  holeyNode := p.failedHoleySplit && p.holeyNode
  extent := p.maxOffset

end Piece

/-- What a split leaves: the node it began with, the nodes behind it, and the pool. -/
structure Split where
  parent : LockTreeNode
  fresh : List LockTreeNode
  pool : List Bool

/-- The loop of `FsRtlSplitLocks`. -/
def splitLoop (haltOffset : Nat) (extentValid : Bool) : Piece → List Lock → List Bool → Split
  | p, [], pool => ⟨⟨p.first, p.rest, p.holeyNode, p.maxOffset⟩, [], pool⟩
  | p, l :: links, pool =>
    if p.breaksAt l ∧ (allocate pool).1 then
      let later := splitLoop haltOffset extentValid (.start extentValid p.extent l) links
        (allocate pool).2
      ⟨p.close, later.parent :: later.fresh, later.pool⟩
    else
      let p' := if p.breaksAt l then p.refuse else p
      let pool' := if p.breaksAt l then (allocate pool).2 else pool
      -- behind the deleted range nothing has changed and the extent is known
      if extentValid ∧ haltOffset < l.startingByte then
        ⟨⟨p'.first, p'.rest ++ l :: links, p'.holeyNode, p'.extent⟩, [], pool'⟩
      else splitLoop haltOffset extentValid (p'.extend extentValid l) links pool'

/-- `FsRtlSplitLocks`: `startLink` locks of the node come before the first deleted one
and reach up to `glueOffset`; the deleted locks reached up to `lastShadowedByte`.  A
holey node is gone over as a whole. -/
def fsRtlSplitLocks (parent : LockTreeNode) (startLink lastShadowedByte glueOffset : Nat)
    (pool : List Bool) : Split :=
  if parent.holeyNode then
    splitLoop parent.extent false (.start false parent.extent parent.first) parent.rest pool
  else if lastShadowedByte ≤ glueOffset then ⟨parent, [], pool⟩
  else
    let extentValid := decide (lastShadowedByte < parent.extent)
    match startLink with
    | 0 =>
      splitLoop lastShadowedByte extentValid (.start extentValid parent.extent parent.first)
        parent.rest pool
    | passed + 1 =>
      splitLoop lastShadowedByte extentValid
        { first := parent.first, rest := parent.rest.take passed, holeyNode := false,
          failedHoleySplit := false, extent := parent.extent, maxOffset := glueOffset,
          startOffset := 0 }
        (parent.rest.drop passed) pool

/-- A split loses no lock. -/
theorem splitLoop_locks (haltOffset : Nat) (extentValid : Bool) (p : Piece) (links : List Lock)
    (pool : List Bool) :
    (splitLoop haltOffset extentValid p links pool).parent.locks ++
        (splitLoop haltOffset extentValid p links pool).fresh.flatMap LockTreeNode.locks =
      p.locks ++ links := by
  induction links generalizing p pool with
  | nil => simp [splitLoop, LockTreeNode.locks, Piece.locks]
  | cons l links ih =>
    unfold splitLoop
    dsimp only
    split
    · have later := ih (.start extentValid p.extent l) (allocate pool).2
      simp only [flatMap_cons, later]
      rfl
    · have kept : ∀ q : Piece, (q.extend extentValid l).locks = q.locks ++ [l] := fun q => rfl
      have same : (if p.breaksAt l then p.refuse else p).locks = p.locks := by
        split <;> rfl
      split
      · rw [← same]
        simp [LockTreeNode.locks, Piece.locks]
      · rw [ih, kept, same, append_assoc, singleton_append]

theorem fsRtlSplitLocks_locks (parent : LockTreeNode)
    (startLink lastShadowedByte glueOffset : Nat) (pool : List Bool) :
    (fsRtlSplitLocks parent startLink lastShadowedByte glueOffset pool).parent.locks ++
        (fsRtlSplitLocks parent startLink lastShadowedByte glueOffset pool).fresh.flatMap
          LockTreeNode.locks =
      parent.locks := by
  unfold fsRtlSplitLocks
  split
  · exact splitLoop_locks ..
  · split
    · simp
    · cases startLink with
      | zero => exact splitLoop_locks ..
      | succ =>
        rw [splitLoop_locks]
        simp [Piece.locks, LockTreeNode.locks]

/-! ## Granting a lock -/

/-- The place of a new lock in a node: locks are sorted by their first byte, empty ones
first. -/
def Lock.goesBefore (new l : Lock) : Bool :=
  decide (new.startingByte < l.startingByte) ||
    (new.startingByte == l.startingByte && (new.length == 0 || !(l.length == 0)))

def insertLink (new : Lock) : List Lock → List Lock
  | [] => [new]
  | l :: locks => if new.goesBefore l then new :: l :: locks else l :: insertLink new locks

def LockTreeNode.insert (n : LockTreeNode) (new : Lock) : LockTreeNode :=
  if new.goesBefore n.first then { n with first := new, rest := n.locks }
  else { n with rest := insertLink new n.rest }

/-- Take over the locks of the next node. -/
def LockTreeNode.absorb (n next : LockTreeNode) : LockTreeNode where
  first := n.first
  rest := n.rest ++ next.locks
  holeyNode := n.holeyNode || (decide (n.extent < next.extent) && next.holeyNode)
  extent := max n.extent next.extent

/-- How many locks a tree of shared nodes holds. -/
def lockCount (t : BinaryTree LockTreeNode) : Nat :=
  ((inorder t).flatMap LockTreeNode.locks).length

/-- A node, the nodes behind it, and the pool. -/
structure Merged where
  node : LockTreeNode
  right : BinaryTree LockTreeNode
  pool : List Bool

/-- The walk over the successors of a node that has grown: those it now overlaps are
integrated into it, a holey one after another attempt to split it. -/
def mergeSuccessors (node : LockTreeNode) (right : BinaryTree LockTreeNode) (pool : List Bool) :
    Merged :=
  match _ : popMinimum right with
  | none => ⟨node, right, pool⟩
  | some (next, right') =>
    if node.extent < next.first.startingByte then ⟨node, right, pool⟩
    else if node.holeyNode = false ∧ next.holeyNode then
      let split := fsRtlSplitLocks next 0 0 0 pool
      mergeSuccessors (node.absorb split.parent) (attach (chain split.fresh) right') split.pool
    else mergeSuccessors (node.absorb next) right' pool
termination_by lockCount right
decreasing_by
  · have sequence := popMinimum_inorder ‹_›
    have kept := congrArg length (fsRtlSplitLocks_locks next 0 0 0 pool)
    simp only [lockCount, sequence, inorder_attach, inorder_chain, flatMap_append,
      flatMap_cons, length_append, LockTreeNode.locks, length_cons] at kept ⊢
    omega
  · have sequence := popMinimum_inorder ‹_›
    simp only [lockCount, sequence, flatMap_cons, length_append, LockTreeNode.locks, length_cons]
    omega

/-- The outcome of an insertion. -/
structure Inserted where
  granted : Bool
  tree : BinaryTree LockTreeNode
  pool : List Bool

def fsRtlPrivateInsertSharedLock (tree : BinaryTree LockTreeNode) (new : Lock)
    (pool : List Bool) : Inserted :=
  let place := fsRtlFindFirstOverlappingSharedNode tree new.startingByte new.endingByte
  match place.found with
  | none =>
    if (allocate pool).1 then
      ⟨true, (place.newLeaf ⟨new, [], false, new.endingByte⟩).splay.tree, (allocate pool).2⟩
    else ⟨false, tree, (allocate pool).2⟩
  | some loc =>
    let root := loc.splay
    let merged :=
      if loc.val.extent < new.endingByte then
        mergeSuccessors { loc.val.insert new with extent := new.endingByte } root.right pool
      else ⟨loc.val.insert new, root.right, pool⟩
    if merged.node.holeyNode then
      let split := fsRtlSplitLocks merged.node 0 0 0 merged.pool
      ⟨true, .node split.parent root.left (attach (chain split.fresh) merged.right), split.pool⟩
    else ⟨true, .node merged.node root.left merged.right, merged.pool⟩

/-- `FsRtlPrivateInsertExclusiveLock`: behind or before the first of a run of equal empty
locks, else where the search ended. -/
def fsRtlPrivateInsertExclusiveLock (tree : BinaryTree Lock) (new : Lock) : BinaryTree Lock :=
  let place := fsRtlFindFirstOverlappingExclusiveNode tree new.startingByte new.endingByte
  match place.found with
  | none => (place.newLeaf new).tree
  | some loc =>
    match loc.right, loc.left with
    | .nil, _ => (loc.insertAsRightChild new).tree
    | .node _ _ _, .nil => (loc.insertAsLeftChild new).tree
    | .node x l r, .node _ _ _ =>
      Loc.tree { loc with right := attach (.node new .nil .nil) (.node x l r) }

/-- `FileObject->LastLock = ...` -/
def State.setLastLock (s : State) (fileObject : Nat) (lock : Option Lock) : State :=
  { s with lastLock := Function.update s.lastLock fileObject lock }

/-- Fix up the lowest lock offset for a new lock. -/
def State.lowerOffset (s : State) (info : FileLockInfo) : State :=
  { s with
    lowestLockOffset :=
      if info.startingByte < s.lowestLockOffset then info.startingByte % 2 ^ 32
      else s.lowestLockOffset }

/-- `FsRtlPrivateInsertLock`: a record, its place in the tree, and the hints. -/
def fsRtlPrivateInsertLock (s : State) (info : FileLockInfo) : Bool × State :=
  let new : Lock := ⟨s.nextAddress, info⟩
  if (allocate s.pool).1 = false then (false, { s with pool := (allocate s.pool).2 })
  else
    let s := { s with nextAddress := s.nextAddress + 1, pool := (allocate s.pool).2 }
    if info.exclusiveLock then
      let s := { s with
        exclusiveLockTree := fsRtlPrivateInsertExclusiveLock s.exclusiveLockTree new }
      (true, (s.setLastLock info.fileObject (some new)).lowerOffset info)
    else
      let result := fsRtlPrivateInsertSharedLock s.sharedLockTree new s.pool
      let s := { s with sharedLockTree := result.tree, pool := result.pool }
      if result.granted then
        (true, (s.setLastLock info.fileObject (some new)).lowerOffset info)
      else (false, s)

/-! ## May a lock be granted? -/

/-- A shared lock stands in the way of an exclusive one. -/
def sharedConflict (tree : BinaryTree LockTreeNode) (info : FileLockInfo) : Bool :=
  match (fsRtlFindFirstOverlappingSharedNode tree info.startingByte info.endingByte).found with
  | none => false
  | some loc =>
    let shLock :=
      if loc.val.holeyNode then
        fsRtlFindFirstOverlapInNode loc.val info.startingByte info.endingByte
      else some loc.val.first
    match shLock with
    | none => false
    | some l => !(info.length == 0) || !(l.length == 0)

/-- An exclusive lock stands in the way of an exclusive one. -/
def exclusiveConflict (tree : BinaryTree Lock) (info : FileLockInfo) : Bool :=
  match (fsRtlFindFirstOverlappingExclusiveNode tree info.startingByte info.endingByte).found with
  | none => false
  | some loc => !(info.length == 0) || !(loc.val.length == 0)

/-- `FsRtlPrivateCheckForExclusiveLockAccess`; each search without a conflict splays the
last node it passed. -/
def fsRtlPrivateCheckForExclusiveLockAccess (s : State) (info : FileLockInfo) : Bool × State :=
  if sharedConflict s.sharedLockTree info then (false, s)
  else
    let s := { s with
      sharedLockTree := rebalance s.sharedLockTree
        (fsRtlFindFirstOverlappingSharedNode s.sharedLockTree info.startingByte
          info.endingByte).edge }
    if exclusiveConflict s.exclusiveLockTree info then (false, s)
    else
      (true, { s with
        exclusiveLockTree := rebalance s.exclusiveLockTree
          (fsRtlFindFirstOverlappingExclusiveNode s.exclusiveLockTree info.startingByte
            info.endingByte).edge })

/-- File object, process and key of the two locks agree. -/
def FileLockInfo.sameOwner (a b : FileLockInfo) : Bool :=
  a.fileObject == b.fileObject && a.processId == b.processId && a.key == b.key

/-- The loop of `FsRtlPrivateCheckForSharedLockAccess` over the locks from the first
overlapping one on. -/
def sharedAccessScan (info : FileLockInfo) : List Lock → Bool
  | [] => true
  | l :: locks =>
    if info.endingByte < l.startingByte then true
    else if !l.lockInfo.sameOwner info && (!(info.length == 0) || !(l.length == 0)) then false
    else sharedAccessScan info locks

/-- The locks `RtlRealSuccessor` visits from a search result on. -/
def onward : Option (Loc Lock) → List Lock
  | none => []
  | some loc => loc.val :: loc.after

def fsRtlPrivateCheckForSharedLockAccess (s : State) (info : FileLockInfo) : Bool × State :=
  let place := fsRtlFindFirstOverlappingExclusiveNode s.exclusiveLockTree info.startingByte
    info.endingByte
  (sharedAccessScan info (onward place.found),
    { s with exclusiveLockTree := rebalance s.exclusiveLockTree place.edge })

/-- The check a request of either kind has to pass. -/
def checkForLockAccess (s : State) (info : FileLockInfo) : Bool × State :=
  if info.exclusiveLock then fsRtlPrivateCheckForExclusiveLockAccess s info
  else fsRtlPrivateCheckForSharedLockAccess s info

/-! ## Taking a lock away -/

/-- The lowest of the first locks of the two trees; the shared one where they tie. -/
def lowestLock (s : State) : Option Lock :=
  let shLock := (minimum s.sharedLockTree).map LockTreeNode.first
  match minimum s.exclusiveLockTree, shLock with
  | some exLock, some shLock =>
    if exLock.startingByte < shLock.startingByte then some exLock else some shLock
  | some exLock, none => some exLock
  | none, shLock => shLock

def fsRtlPrivateResetLowestLockOffset (s : State) : State :=
  { s with
    lowestLockOffset :=
      if s.lowestLockOffset = 0xffffffff then 0xffffffff
      else
        match lowestLock s with
        | none => 0xffffffff
        | some l => if l.startingByte < 2 ^ 32 then l.startingByte else 0xffffffff }

/-- The owner and range a single unlock names. -/
structure Target where
  fileObject : Nat
  fileOffset : Nat
  length : Nat
  processId : Nat
  key : Nat
  deriving DecidableEq, Repr

def Target.matchesLock (t : Target) (l : Lock) : Bool :=
  l.lockInfo.fileObject == t.fileObject && l.lockInfo.processId == t.processId &&
    l.lockInfo.key == t.key && l.startingByte == t.fileOffset && l.length == t.length

def FileLockInfo.target (info : FileLockInfo) : Target :=
  ⟨info.fileObject, info.startingByte, info.length, info.processId, info.key⟩

/-- The search for a lock in a list sorted by first bytes: the locks before it and the
rest of the list, which begins with it. -/
def findLock (t : Target) : List Lock → Option (List Lock × Lock × List Lock)
  | [] => none
  | l :: locks =>
    if t.matchesLock l then some ([], l, locks)
    else if t.fileOffset < l.startingByte then none
    else (findLock t locks).map fun found => (l :: found.1, found.2)

/-- The last byte any of the locks covers, 0 for none. -/
def reachOf (locks : List Lock) : Nat :=
  locks.foldr (fun l reach => max l.endingByte reach) 0

/-- `if (FileObject->LastLock == &Lock->LockInfo) FileObject->LastLock = NULL` -/
def State.forgetLastLock (s : State) (fileObject : Nat) (l : Lock) : State :=
  if (s.lastLock fileObject).map Lock.address = some l.address then s.setLastLock fileObject none
  else s

/-- The lowest lock offset is reset when the lock removed may have been the lowest. -/
def State.raiseOffset (s : State) (l : Lock) : State :=
  if s.lowestLockOffset ≠ 0xffffffff ∧ s.lowestLockOffset = l.startingByte % 2 ^ 32 then
    fsRtlPrivateResetLowestLockOffset s
  else s

/-- Put the nodes a split leaves in the place of a node. -/
def replaceNode (loc : Loc LockTreeNode) (split : Split) : BinaryTree LockTreeNode :=
  Loc.tree { loc with val := split.parent, right := attach (chain split.fresh) loc.right }

/-- `FsRtlFastUnlockSingleShared` up to the check for waiters. -/
def removeShared (s : State) (t : Target) : NtStatus × State :=
  let place := fsRtlFindFirstOverlappingSharedNode s.sharedLockTree t.fileOffset
    (endingByteOf t.fileOffset t.length)
  match place.found with
  | none => (.rangeNotLocked, s)
  | some loc =>
    match findLock t loc.val.locks with
    | none => (.rangeNotLocked, s)
    | some (passed, l, links) =>
      let s := s.forgetLastLock t.fileObject l
      match passed ++ links with
      | [] =>
        (.success, State.raiseOffset { s with sharedLockTree := loc.delete } l)
      | first :: rest =>
        let node : LockTreeNode := { loc.val with first := first, rest := rest }
        let s := { s with sharedLockTree := Loc.tree { loc with val := node } }
        let s := if passed.isEmpty then s.raiseOffset l else s
        let split := fsRtlSplitLocks node passed.length l.endingByte (reachOf passed) s.pool
        (.success, { s with sharedLockTree := replaceNode loc split, pool := split.pool })

/-- `FsRtlFastUnlockSingleExclusive` up to the check for waiters: from the first
overlapping lock on, successor after successor. -/
def removeExclusive (s : State) (t : Target) : NtStatus × State :=
  let place := fsRtlFindFirstOverlappingExclusiveNode s.exclusiveLockTree t.fileOffset
    (endingByteOf t.fileOffset t.length)
  match place.found with
  | none => (.rangeNotLocked, s)
  | some loc =>
    match findLock t (loc.val :: loc.after) with
    | none => (.rangeNotLocked, s)
    | some (passed, l, _) =>
      match nth s.exclusiveLockTree (loc.before.length + passed.length) with
      | none => (.rangeNotLocked, s)
      | some here =>
        let s := s.forgetLastLock t.fileObject l
        (.success, State.raiseOffset { s with exclusiveLockTree := here.delete } l)

/-- `FsRtlPrivateRemoveLock` without the check for waiters. -/
def removeLock (s : State) (info : FileLockInfo) : State :=
  if info.exclusiveLock then (removeExclusive s info.target).2
  else (removeShared s info.target).2

/-- The owner a bulk unlock names, with or without a key. -/
structure Owner where
  fileObject : Nat
  processId : Nat
  key : Option Nat
  deriving DecidableEq, Repr

def Owner.owns (o : Owner) (fileObject processId key : Nat) : Bool :=
  fileObject == o.fileObject && processId == o.processId && (o.key.all fun k => key == k)

def Owner.matchesLock (o : Owner) (l : Lock) : Bool :=
  o.owns l.lockInfo.fileObject l.lockInfo.processId l.lockInfo.key

/-- Take locks from the node at a position of the shared tree: `passed` is kept, a lock
behind it was deleted, and of the locks after that `links` are left.  The result says how
many nodes now stand in the place of the one. -/
def cutNode (tree : BinaryTree LockTreeNode) (position : Nat) (passed links : List Lock)
    (endingDeletedByte : Nat) (pool : List Bool) : BinaryTree LockTreeNode × Nat × List Bool :=
  match nth tree position with
  | none => (tree, 0, pool)
  | some loc =>
    match passed ++ links with
    | [] => (loc.delete, 0, pool)
    | first :: rest =>
      let split := fsRtlSplitLocks { loc.val with first := first, rest := rest } passed.length
        endingDeletedByte (reachOf passed) pool
      (replaceNode loc split, 1 + split.fresh.length, split.pool)

/-- The walk of `FsRtlPrivateFastUnlockAll` over the shared nodes; without an unlock
routine every node is finished before the next one. -/
def unlockAllShared (o : Owner) : List LockTreeNode → Nat → BinaryTree LockTreeNode →
    List Bool → BinaryTree LockTreeNode × List Bool
  | [], _, tree, pool => (tree, pool)
  | n :: nodes, position, tree, pool =>
    let passed := n.locks.takeWhile fun l => !o.matchesLock l
    let behind := n.locks.dropWhile fun l => !o.matchesLock l
    if behind.isEmpty then unlockAllShared o nodes (position + 1) tree pool
    else
      let cut := cutNode tree position passed (behind.filter fun l => !o.matchesLock l)
        (reachOf (behind.filter o.matchesLock)) pool
      unlockAllShared o nodes (position + cut.2.1) cut.1 cut.2.2

/-- With an unlock routine one lock is taken at a time and the walk starts over; there
are as many rounds as locks to take. -/
def unlockEachShared (o : Owner) : Nat → BinaryTree LockTreeNode → List Bool →
    BinaryTree LockTreeNode × List Bool
  | 0, tree, pool => (tree, pool)
  | rounds + 1, tree, pool =>
    let clean := (inorder tree).takeWhile fun n => !n.locks.any o.matchesLock
    match (inorder tree).drop clean.length with
    | [] => (tree, pool)
    | n :: _ =>
      let passed := n.locks.takeWhile fun l => !o.matchesLock l
      let behind := n.locks.drop passed.length
      let cut := cutNode tree clean.length passed (behind.drop 1) (reachOf (behind.take 1)) pool
      unlockEachShared o rounds cut.1 cut.2.2

/-- The walk over the exclusive tree.  Starting over after a lock was taken passes the
locks kept so far once more and changes nothing, so one walk models both forms. -/
def unlockAllExclusive (o : Owner) : List Lock → Nat → BinaryTree Lock → BinaryTree Lock
  | [], _, tree => tree
  | l :: locks, position, tree =>
    if o.matchesLock l then
      match nth tree position with
      | none => tree
      | some here => unlockAllExclusive o locks position here.delete
    else unlockAllExclusive o locks (position + 1) tree

/-! ## Completing requests -/

/-- `FsRtlCompleteLockIrp`: with a completion routine the file object's hint is dropped
and the routine has the last word on the status. -/
def fsRtlCompleteLockIrp (s : State) (irp : Nat) (status : NtStatus) (fileObject : Option Nat) :
    NtStatus × State :=
  let s' := { s with completed := s.completed ++ [⟨irp, status⟩] }
  if s.completeLockIrpRoutine then
    let s' := match fileObject with
      | none => s'
      | some fo => s'.setLastLock fo none
    (s.replies.headD .success, { s' with replies := s.replies.tail })
  else (status, s')

/-- One pass of `FsRtlPrivateCheckWaitingLocks` over the queue, up to the first waiter
that may have its lock: the waiters before it, the waiter, and those behind it. -/
def scanWaiters : List WaitingLock → State →
    Option (List WaitingLock × WaitingLock × List WaitingLock) × State
  | [], s => (none, s)
  | w :: waiters, s =>
    let access := checkForLockAccess s w.request.fileLockInfo
    if access.1 ∧ w.cancel = false then (some ([], w, waiters), access.2)
    else
      let later := scanWaiters waiters access.2
      (later.1.map fun found => (w :: found.1, found.2), later.2)

/-- Grant a waiter its lock and complete it; a completion that fails takes the lock away
again. -/
def grantWaiter (s : State) (w : WaitingLock) (others : List WaitingLock) : State :=
  let info := w.request.fileLockInfo
  let inserted := fsRtlPrivateInsertLock s info
  let s := { inserted.2 with waitingLocks := others }
  let done := fsRtlCompleteLockIrp s w.irp
    (if inserted.1 then .success else .insufficientResources) (some info.fileObject)
  if inserted.1 ∧ done.1.ntSuccess = false then removeLock done.2 info else done.2

/-- The outer loop of `FsRtlPrivateCheckWaitingLocks`: after each grant the queue, now
shorter by one, is scanned from its front again. -/
def checkWaitingLocksLoop : Nat → State → State
  | 0, s => s
  | queued + 1, s =>
    let pass := scanWaiters s.waitingLocks s
    match pass.1 with
    | none => pass.2
    | some (skipped, w, behind) =>
      checkWaitingLocksLoop queued (grantWaiter pass.2 w (skipped ++ behind))

def fsRtlPrivateCheckWaitingLocks (s : State) : State :=
  checkWaitingLocksLoop s.waitingLocks.length s

/-- `FsRtlFastUnlockSingleShared` and `FsRtlFastUnlockSingleExclusive` end with a look at
the waiters when they have taken a lock away. -/
def thenCheckWaiters (removed : NtStatus × State) : NtStatus × State :=
  if removed.1 = .success then (removed.1, fsRtlPrivateCheckWaitingLocks removed.2) else removed

def fsRtlFastUnlockSingleShared (s : State) (t : Target) : NtStatus × State :=
  thenCheckWaiters (removeShared s t)

def fsRtlFastUnlockSingleExclusive (s : State) (t : Target) : NtStatus × State :=
  thenCheckWaiters (removeExclusive s t)

def fsRtlFastUnlockSingle (s : State) (t : Target) : NtStatus × State :=
  if s.lockInformation = false then (.rangeNotLocked, s)
  else
    let exclusive := fsRtlFastUnlockSingleExclusive s t
    if exclusive.1 = .success then exclusive else fsRtlFastUnlockSingleShared exclusive.2 t

/-- `FsRtlPrivateRemoveLock` with the check for waiters. -/
def fsRtlPrivateRemoveLock (s : State) (info : FileLockInfo) : State :=
  if info.exclusiveLock then (fsRtlFastUnlockSingleExclusive s info.target).2
  else (fsRtlFastUnlockSingleShared s info.target).2

/-- Complete the waiters of an owner that were not cancelled, front to back; `passed` are
the waiters that stay. -/
def abortWaiters (o : Owner) : List WaitingLock → List WaitingLock → State → State
  | passed, [], s => { s with waitingLocks := passed }
  | passed, w :: waiters, s =>
    if o.owns w.request.fileObject w.request.processId w.request.key ∧ w.cancel = false then
      abortWaiters o passed waiters
        (fsRtlCompleteLockIrp { s with waitingLocks := passed ++ waiters } w.irp .rangeNotLocked
          none).2
    else abortWaiters o (passed ++ [w]) waiters s

/-- The two walks of a bulk unlock over the granted locks. -/
def unlockGranted (s : State) (o : Owner) : State :=
  let shared :=
    if s.unlockRoutine then
      unlockEachShared o
        (((inorder s.sharedLockTree).flatMap LockTreeNode.locks).countP o.matchesLock)
        s.sharedLockTree s.pool
    else unlockAllShared o (inorder s.sharedLockTree) 0 s.sharedLockTree s.pool
  { s with
    sharedLockTree := shared.1
    exclusiveLockTree := unlockAllExclusive o (inorder s.exclusiveLockTree) 0 s.exclusiveLockTree
    pool := shared.2 }

def fsRtlPrivateFastUnlockAll (s : State) (o : Owner) : NtStatus × State :=
  if s.lockInformation = false then (.rangeNotLocked, s)
  else
    let s := s.setLastLock o.fileObject none
    match s.sharedLockTree, s.exclusiveLockTree with
    | .nil, .nil => (.rangeNotLocked, s)
    | _, _ =>
      let s := unlockGranted s o
      let s := abortWaiters o [] s.waitingLocks s
      (.success, fsRtlPrivateResetLowestLockOffset (fsRtlPrivateCheckWaitingLocks s))

/-- `FsRtlPrivateCancelFileLockIrp`: the IRP leaves the queue and is completed. -/
def fsRtlPrivateCancelFileLockIrp (s : State) (irp : Nat) : State :=
  if s.waitingLocks.any fun w => w.irp == irp then
    let s := { s with waitingLocks := s.waitingLocks.eraseP fun w => w.irp == irp }
    (fsRtlCompleteLockIrp s irp .cancelled none).2
  else s

/-! ## Lock requests -/

/-- How a lock call ends: with a status, with nothing done (`FALSE`), or with a raise. -/
inductive LockOutcome where
  | finished (status : NtStatus)
  | declined
  | raised (status : NtStatus)
  deriving DecidableEq, Repr

/-- The end of `FsRtlPrivateLock`: the IRP of a request that is not pending is completed,
and a granted lock goes again when that fails. -/
def completeLock (s : State) (info : FileLockInfo) (irp : Option Nat) (status : NtStatus) :
    LockOutcome × State :=
  match irp with
  | none => (.finished status, s)
  | some irp =>
    let done := fsRtlCompleteLockIrp s irp status (some info.fileObject)
    if done.1.ntSuccess = false ∧ status.ntSuccess then
      (.finished done.1, fsRtlPrivateRemoveLock done.2 info)
    else (.finished done.1, done.2)

/-- A request that cannot be granted: refused, queued, or declined without an IRP.  An
IRP that was cancelled already is taken off the queue again. -/
def waitForLock (s : State) (r : Request) (failImmediately : Bool) (irp : Option Nat)
    (cancelled : Bool) : LockOutcome × State :=
  if failImmediately then completeLock s r.fileLockInfo irp .lockNotGranted
  else
    match irp with
    | none => (.declined, s)
    | some irp =>
      if (allocate s.pool).1 = false then
        (.raised .insufficientResources, { s with pool := (allocate s.pool).2 })
      else
        let s := { s with
          pool := (allocate s.pool).2
          waitingLocks := s.waitingLocks ++ [⟨irp, r, cancelled⟩] }
        (.finished .pending, if cancelled then fsRtlPrivateCancelFileLockIrp s irp else s)

/-- `FsRtlPrivateInitializeFileLock`: the `LOCK_INFO` a file gets with its first lock. -/
def fsRtlPrivateInitializeFileLock (s : State) : Bool × State :=
  if s.lockInformation then (true, s)
  else if (allocate s.pool).1 = false then (false, { s with pool := (allocate s.pool).2 })
  else
    (true, { s with
      lockInformation := true, lowestLockOffset := 0xffffffff, sharedLockTree := .nil,
      exclusiveLockTree := .nil, waitingLocks := [], pool := (allocate s.pool).2 })

/-- `FsRtlPrivateLock`.  `irp` is `none` for a fast call. -/
def fsRtlPrivateLock (s : State) (r : Request) (failImmediately : Bool) (irp : Option Nat)
    (cancelled : Bool) : LockOutcome × State :=
  let ready := fsRtlPrivateInitializeFileLock s
  if ready.1 = false then
    (if irp.isNone then .declined else .raised .insufficientResources, ready.2)
  else
    let access := checkForLockAccess ready.2 r.fileLockInfo
    if access.1 = false then waitForLock access.2 r failImmediately irp cancelled
    else
      let inserted := fsRtlPrivateInsertLock access.2 r.fileLockInfo
      if inserted.1 = false then
        (if irp.isNone then .declined else .raised .insufficientResources, inserted.2)
      else completeLock inserted.2 r.fileLockInfo irp .success

/-! ## Reading and writing a locked file -/

def fsRtlCheckNoSharedConflict (tree : BinaryTree LockTreeNode) (starting ending : Nat) :
    Bool × BinaryTree LockTreeNode :=
  let place := fsRtlFindFirstOverlappingSharedNode tree starting ending
  let tree := rebalance tree place.edge
  match place.found with
  | none => (true, tree)
  | some loc =>
    if loc.val.holeyNode then
      ((fsRtlFindFirstOverlapInNode loc.val starting ending).isNone, tree)
    else (false, tree)

/-- The loop of `FsRtlCheckNoExclusiveConflict`. -/
def exclusiveConflictScan (starting ending key fileObject processId : Nat) : List Lock → Bool
  | [] => true
  | l :: locks =>
    if ending < l.startingByte then true
    else if starting ≤ l.endingByte ∧
        (l.lockInfo.fileObject ≠ fileObject ∨ l.lockInfo.processId ≠ processId ∨
          l.lockInfo.key ≠ key) then false
    else exclusiveConflictScan starting ending key fileObject processId locks

def fsRtlCheckNoExclusiveConflict (tree : BinaryTree Lock)
    (starting ending key fileObject processId : Nat) : Bool × BinaryTree Lock :=
  let place := fsRtlFindFirstOverlappingExclusiveNode tree starting ending
  (exclusiveConflictScan starting ending key fileObject processId (onward place.found),
    rebalance tree place.edge)

def lastLockCovers (s : State) (starting ending key fileObject processId : Nat)
    (forWrite : Bool) : Bool :=
  match s.lastLock fileObject with
  | none => false
  | some l =>
    decide (l.startingByte ≤ starting) && decide (ending ≤ l.endingByte) &&
      l.lockInfo.key == key && l.lockInfo.processId == processId &&
      (!forWrite || l.lockInfo.exclusiveLock)

def fsRtlFastCheckLockForRead (s : State) (startingByte length key fileObject processId : Nat) :
    Bool × State :=
  if s.lockInformation = false then (true, s)
  else
    match s.exclusiveLockTree with
    | .nil => (true, s)
    | .node _ _ _ =>
      if length = 0 then (true, s)
      else
        let ending := endingByteOf startingByte length
        if ending < s.lowestLockOffset then (true, s)
        else if lastLockCovers s startingByte ending key fileObject processId false then (true, s)
        else
          let check := fsRtlCheckNoExclusiveConflict s.exclusiveLockTree startingByte ending key
            fileObject processId
          (check.1, { s with exclusiveLockTree := check.2 })

def fsRtlFastCheckLockForWrite (s : State) (startingByte length key fileObject processId : Nat) :
    Bool × State :=
  if s.lockInformation = false then (true, s)
  else
    match s.sharedLockTree, s.exclusiveLockTree with
    | .nil, .nil => (true, s)
    | _, _ =>
      if length = 0 then (true, s)
      else
        let ending := endingByteOf startingByte length
        if ending < s.lowestLockOffset then (true, s)
        else if lastLockCovers s startingByte ending key fileObject processId true then (true, s)
        else
          let shared := fsRtlCheckNoSharedConflict s.sharedLockTree startingByte ending
          let s := { s with sharedLockTree := shared.2 }
          if shared.1 then
            let check := fsRtlCheckNoExclusiveConflict s.exclusiveLockTree startingByte ending key
              fileObject processId
            (check.1, { s with exclusiveLockTree := check.2 })
          else (false, s)

/-! ## Runs -/

/-- The calls on a file lock.  A cancel comes in two steps: the I/O manager marks the
IRP, then the cancel routine takes it off the queue. -/
inductive Operation where
  | lock (request : Request) (failImmediately byIrp cancelled : Bool)
  | unlockSingle (target : Target)
  | unlockAll (fileObject processId : Nat)
  | unlockAllByKey (fileObject processId key : Nat)
  | cancelRequested (irp : Nat)
  | cancelRoutine (irp : Nat)
  | readCheck (startingByte length key fileObject processId : Nat)
  | writeCheck (startingByte length key fileObject processId : Nat)
  deriving DecidableEq, Repr

/-- A call with what the pool and the completion routine do during it. -/
structure Call where
  operation : Operation
  pool : List Bool
  replies : List NtStatus

def markCancelled (irp : Nat) (waiters : List WaitingLock) : List WaitingLock :=
  waiters.map fun w => if w.irp = irp then { w with cancel := true } else w

def perform (s : State) : Operation → State
  | .lock r failImmediately byIrp cancelled =>
    (fsRtlPrivateLock { s with nextIrp := s.nextIrp + 1 } r failImmediately
      (if byIrp then some s.nextIrp else none) cancelled).2
  | .unlockSingle t => (fsRtlFastUnlockSingle s t).2
  | .unlockAll fileObject processId => (fsRtlPrivateFastUnlockAll s ⟨fileObject, processId, none⟩).2
  | .unlockAllByKey fileObject processId key =>
    (fsRtlPrivateFastUnlockAll s ⟨fileObject, processId, some key⟩).2
  | .cancelRequested irp => { s with waitingLocks := markCancelled irp s.waitingLocks }
  | .cancelRoutine irp => fsRtlPrivateCancelFileLockIrp s irp
  | .readCheck startingByte length key fileObject processId =>
    (fsRtlFastCheckLockForRead s startingByte length key fileObject processId).2
  | .writeCheck startingByte length key fileObject processId =>
    (fsRtlFastCheckLockForWrite s startingByte length key fileObject processId).2

def Call.step (s : State) (c : Call) : State :=
  perform { s with pool := c.pool, replies := c.replies } c.operation

/-- `FsRtlInitializeFileLock`: a file without locks. -/
def fsRtlInitializeFileLock (completeLockIrpRoutine unlockRoutine : Bool) : State where
  completeLockIrpRoutine := completeLockIrpRoutine
  unlockRoutine := unlockRoutine
  lockInformation := false
  lowestLockOffset := 0xffffffff
  sharedLockTree := .nil
  exclusiveLockTree := .nil
  waitingLocks := []
  lastLock := fun _ => none
  nextAddress := 0
  nextIrp := 0
  completed := []
  pool := []
  replies := []

def run (s : State) (calls : List Call) : State :=
  calls.foldl Call.step s

end Ntoskrnl.FsRtl.FileLock
