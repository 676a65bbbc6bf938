/-
# Ntoskrnl.FsRtl.FileLock.Insert -- granting a lock keeps the trees in order

A new shared lock joins the first node it overlaps, which then takes in the nodes it has
grown into; otherwise it becomes a node of its own.  A new exclusive lock becomes a node
where the search for it ended.  Either way exactly this lock is added to the sequence of
locks, the order of the tree survives, and with a full pool so do its pieces.
-/
import Ntoskrnl.FsRtl.FileLock.Search

namespace Ntoskrnl.FsRtl.FileLock

open Lib.SplayTree
open List hiding after

set_option autoImplicit false

def allLocks (nodes : List LockTreeNode) : List Lock :=
  nodes.flatMap LockTreeNode.locks

@[simp] theorem allLocks_nil : allLocks [] = [] := rfl

@[simp] theorem allLocks_cons (n : LockTreeNode) (nodes : List LockTreeNode) :
    allLocks (n :: nodes) = n.locks ++ allLocks nodes := flatMap_cons

@[simp] theorem allLocks_append (xs ys : List LockTreeNode) :
    allLocks (xs ++ ys) = allLocks xs ++ allLocks ys := flatMap_append

variable {l : Lock} {nodes : List LockTreeNode} {locks : List Lock} {next : LockTreeNode}
  {tree : BinaryTree LockTreeNode}

theorem mem_allLocks : l ∈ allLocks nodes ↔ ∃ n ∈ nodes, l ∈ n.locks := mem_flatMap

/-- Nodes behind others, by the first bytes of all their locks. -/
theorem Ordered.append_locks {xs ys : List LockTreeNode} (left : Ordered xs) (right : Ordered ys)
    (apart : ∀ a ∈ xs, ∀ l ∈ allLocks ys, a.extent < l.startingByte) : Ordered (xs ++ ys) :=
  left.append right fun a ha b hb => apart a ha _ (mem_allLocks.mpr ⟨b, hb, b.first_mem⟩)

variable {n : LockTreeNode}

/-- The locks of later nodes begin behind the extent of an earlier one. -/
theorem Ordered.extent_lt (ordered : Ordered (n :: nodes)) (inside : l ∈ allLocks nodes) :
    n.extent < l.startingByte := by
  obtain ⟨m, hm, inside⟩ := mem_allLocks.mp inside
  exact ((pairwise_cons.mp ordered.apart).1 m hm).trans_le
    ((ordered.node m (by simp [hm])).first_le inside)

/-! ## Into a node -/

variable {new : Lock}

theorem Lock.goesBefore_true (before : new.goesBefore l) : new.startingByte ≤ l.startingByte := by
  simp only [Lock.goesBefore, Bool.or_eq_true, decide_eq_true_eq, Bool.and_eq_true,
    beq_iff_eq] at before
  rcases before with less | same
  · exact less.le
  · exact same.1.le

theorem Lock.goesBefore_false (behind : new.goesBefore l = false) :
    l.startingByte ≤ new.startingByte := by
  simp only [Lock.goesBefore, Bool.or_eq_false_iff, decide_eq_false_iff_not] at behind
  exact not_lt.mp behind.1

theorem insertLink_parts (new : Lock) (locks : List Lock) :
    ∃ xs ys, locks = xs ++ ys ∧ insertLink new locks = xs ++ new :: ys ∧
      (∀ x ∈ xs, x.startingByte ≤ new.startingByte) ∧
      ∀ y ∈ ys.head?, new.startingByte ≤ y.startingByte := by
  induction locks with
  | nil => exact ⟨[], [], rfl, rfl, by simp, by simp⟩
  | cons l locks ih =>
    cases before : new.goesBefore l with
    | true =>
      refine ⟨[], l :: locks, rfl, by simp [insertLink, before], by simp, ?_⟩
      simpa using Lock.goesBefore_true before
    | false =>
      obtain ⟨xs, ys, parts, inserted, early, late⟩ := ih
      refine ⟨l :: xs, ys, by simp [parts], by simp [insertLink, before, inserted], ?_, late⟩
      exact forall_mem_cons.mpr ⟨Lock.goesBefore_false before, early⟩

theorem insert_locks (n : LockTreeNode) (new : Lock) :
    (n.insert new).locks = insertLink new n.locks := by
  unfold LockTreeNode.insert LockTreeNode.locks
  cases before : new.goesBefore n.first with
  | true | false => simp [insertLink, before]

theorem insert_whole (n : LockTreeNode) (new : Lock) :
    (n.insert new).holeyNode = n.holeyNode ∧ (n.insert new).extent = n.extent := by
  unfold LockTreeNode.insert
  split <;> exact ⟨rfl, rfl⟩

/-- The node a lock has joined, with its extent brought up to date. -/
def LockTreeNode.joined (n : LockTreeNode) (new : Lock) : LockTreeNode :=
  { n.insert new with extent := max n.extent new.endingByte }

theorem joined_locks (n : LockTreeNode) (new : Lock) :
    (n.joined new).locks = insertLink new n.locks := insert_locks n new

def AddedTo (new : Lock) (locks locks' : List Lock) : Prop :=
  ∃ xs ys, locks = xs ++ ys ∧ locks' = xs ++ new :: ys

variable {locks' ys : List Lock}

theorem AddedTo.mem (added : AddedTo new locks locks') : l ∈ locks' ↔ l = new ∨ l ∈ locks := by
  obtain ⟨xs, ys, rfl, rfl⟩ := added
  simp only [mem_append, mem_cons]
  tauto

theorem joined_added (n : LockTreeNode) (new : Lock) : AddedTo new n.locks (n.joined new).locks := by
  obtain ⟨xs, ys, parts, inserted, -, -⟩ := insertLink_parts new n.locks
  exact ⟨xs, ys, parts, (joined_locks n new).trans inserted⟩

theorem mem_joined : l ∈ (n.joined new).locks ↔ l = new ∨ l ∈ n.locks :=
  (joined_added n new).mem

theorem sorted_head {bound : Nat} (sorted : SortedLocks ys)
    (head : ∀ y ∈ ys.head?, bound ≤ y.startingByte) : ∀ y ∈ ys, bound ≤ y.startingByte := by
  cases ys with
  | nil => simp
  | cons y =>
    have first : bound ≤ y.startingByte := head y rfl
    refine forall_mem_cons.mpr ⟨first, fun z inside => ?_⟩
    exact first.trans ((pairwise_cons.mp sorted).1 z inside)

theorem joined_ordered (ordered : n.Ordered) (proper : new.Proper) : (n.joined new).Ordered := by
  obtain ⟨xs, ys, parts, inserted, early, head⟩ := insertLink_parts new n.locks
  have sorted := ordered.sorted
  rw [parts] at sorted
  obtain ⟨left, right, across⟩ := pairwise_append.mp sorted
  have late := sorted_head right head
  refine ⟨fun l inside => ?_, ?_, ?_⟩
  · rcases mem_joined.mp inside with rfl | inside
    · exact proper
    · exact ordered.proper l inside
  · rw [joined_locks, inserted]
    refine pairwise_append.mpr ⟨left, pairwise_cons.mpr ⟨late, right⟩, ?_⟩
    intro x hx y hy
    rcases mem_cons.mp hy with rfl | hy
    · exact early x hx
    · exact across x hx y hy
  · rw [joined_locks, inserted, reachOf_append, reachOf_cons]
    have whole := ordered.extent
    rw [parts, reachOf_append] at whole
    simp only [LockTreeNode.joined, whole]
    omega

/-- A list of linked locks behind a different first lock. -/
theorem LinkedFrom.rebase {start start' reach reach' : Nat}
    (linked : LinkedFrom start reach locks) (le : reach ≤ reach')
    (place : start ≤ reach' ∨ start = start') : LinkedFrom start' reach' locks := by
  induction locks generalizing reach reach' with
  | nil => trivial
  | cons l locks ih =>
    refine ⟨?_, ih linked.2 (max_le_max_right _ le) (place.imp_left (le_max_of_le_left ·))⟩
    rcases linked.1 with within | ⟨empty, same⟩
    · exact .inl (within.trans le)
    · rcases place with within | renamed
      · exact .inl (same ▸ within)
      · exact .inr ⟨empty, same.trans renamed⟩

/-- A node that is one piece and meets the new lock stays one piece. -/
theorem joined_tight (ordered : n.Ordered) (tight : n.Tight) (proper : new.Proper)
    (meets : Meets new.startingByte new.endingByte n.first n.extent) : (n.joined new).Tight := by
  refine ⟨(insert_whole n new).1.trans tight.whole, ?_⟩
  have first : n.first.Proper := ordered.proper _ n.first_mem
  have reach : n.first.endingByte ≤ n.extent := ordered.le_extent n.first_mem
  have start := first.start_le
  cases before : new.goesBefore n.first with
  | true =>
    have shape : (n.joined new).first = new ∧ (n.joined new).rest = n.first :: n.rest := by
      simp [LockTreeNode.joined, LockTreeNode.insert, before, LockTreeNode.locks]
    rw [shape.1, shape.2]
    rcases meets with ⟨-, within⟩ | apart
    · exact ⟨Or.inl within, tight.linked.rebase (le_max_right _ _) (Or.inl (le_max_of_le_left within))⟩
    · have empty : n.first.length = 0 := by
        unfold Lock.Proper at first
        omega
      exact ⟨Or.inr ⟨empty, apart.2.2⟩, tight.linked.rebase (le_max_right _ _) (Or.inr apart.2.2)⟩
  | false =>
    obtain ⟨xs, ys, parts, inserted, -, head⟩ := insertLink_parts new n.rest
    have shape : (n.joined new).first = n.first ∧ (n.joined new).rest = xs ++ new :: ys := by
      simp [LockTreeNode.joined, LockTreeNode.insert, before, inserted]
    rw [shape.1, shape.2]
    have linked := tight.linked
    rw [parts] at linked
    obtain ⟨inner, tail⟩ := LinkedFrom.append.mp linked
    refine LinkedFrom.append.mpr ⟨inner, ?_, tail.rebase (le_max_left _ _) (Or.inr rfl)⟩
    rcases meets with ⟨within, -⟩ | apart
    · refine Or.inl ?_
      have whole := ordered.extent
      rw [LockTreeNode.locks, reachOf_cons, parts, reachOf_append] at whole
      cases ys with
      | nil =>
        rw [reachOf_nil] at whole
        omega
      | cons y =>
        have next : new.startingByte ≤ y.startingByte := head y rfl
        rcases tail.1 with glued | ⟨-, place⟩
        · exact next.trans glued
        · -- an empty lock at the front: then the node would end before the new lock
          by_contra far
          have := tight.extent_of_empty ordered (by omega)
          omega
    · -- what meets a lock without overlapping it is an empty lock at the same place
      unfold Lock.Proper at proper
      exact Or.inr ⟨by omega, apart.2.2.symm⟩

/-! ## Taking in the next nodes -/

theorem absorb_locks (n next : LockTreeNode) : (n.absorb next).locks = n.locks ++ next.locks := rfl

theorem absorb_ordered (ordered : n.Ordered) (later : next.Ordered)
    (behind : ∀ l ∈ n.locks, l.startingByte ≤ next.first.startingByte) :
    (n.absorb next).Ordered := by
  refine ⟨fun l inside => ?_, ?_, ?_⟩
  · rcases mem_append.mp (absorb_locks n next ▸ inside) with inside | inside
    · exact ordered.proper l inside
    · exact later.proper l inside
  · refine pairwise_append.mpr ⟨ordered.sorted, later.sorted, fun a ha b hb => ?_⟩
    exact (behind a ha).trans (later.first_le hb)
  · rw [absorb_locks, reachOf_append, ← ordered.extent, ← later.extent]
    rfl

theorem absorb_tight (ordered : n.Ordered) (tight : n.Tight) (later : next.Tight)
    (within : next.first.startingByte ≤ n.extent) : (n.absorb next).Tight := by
  refine ⟨by simp [LockTreeNode.absorb, tight.whole, later.whole], ?_⟩
  have reach : max n.first.endingByte (reachOf n.rest) = n.extent := ordered.extent.symm
  refine LinkedFrom.append.mpr ⟨tight.linked, ?_⟩
  rw [show (n.absorb next).first = n.first from rfl, reach]
  exact ⟨Or.inl within, later.linked.rebase (le_max_right _ _) (Or.inl (le_max_of_le_left within))⟩

theorem first_mem_allLocks (inside : n ∈ nodes) : n.first ∈ allLocks nodes :=
  mem_allLocks.mpr ⟨n, inside, n.first_mem⟩

/-- The locks of a node begin before those of the nodes behind it. -/
theorem Ordered.start_le (ordered : Ordered (n :: nodes)) {k : Lock} (here : l ∈ n.locks)
    (later : k ∈ allLocks nodes) : l.startingByte ≤ k.startingByte :=
  ((ordered.node n (by simp)).start_le here).trans (ordered.extent_lt later)

theorem Ordered.tail (ordered : Ordered (n :: nodes)) : Ordered nodes :=
  ⟨fun m inside => ordered.node m (by simp [inside]), (pairwise_cons.mp ordered.apart).2⟩

/-- One node taken in: what the walk over the successors keeps. -/
theorem absorb_step {node : LockTreeNode} (ordered : node.Ordered) (later : Ordered (next :: nodes))
    (behind : ∀ l ∈ node.locks, ∀ k ∈ allLocks (next :: nodes), l.startingByte ≤ k.startingByte) :
    (node.absorb next).Ordered ∧ Ordered nodes ∧
      ∀ l ∈ (node.absorb next).locks, ∀ k ∈ allLocks nodes, l.startingByte ≤ k.startingByte := by
  refine ⟨absorb_ordered ordered (later.node next (by simp)) fun l here => ?_, later.tail, ?_⟩
  · exact behind l here _ (first_mem_allLocks (by simp))
  · intro l here k inside
    rcases mem_append.mp (absorb_locks node next ▸ here) with here | here
    · exact behind l here k (by simp [inside])
    · exact later.start_le here inside

/-- A holey node split once more stands for the same locks. -/
theorem Ordered.resplit (ordered : Ordered (n :: nodes)) (holey : n.holeyNode) (pool : List Bool) :
    Ordered ((fsRtlSplitLocks n 0 0 0 pool).nodes ++ nodes) ∧
      allLocks ((fsRtlSplitLocks n 0 0 0 pool).nodes ++ nodes) = allLocks (n :: nodes) := by
  have kept := fsRtlSplitLocks_locks n 0 0 0 pool
  have pieces := resplit_ordered (ordered.node n (by simp)) holey pool
  have front : Ordered ([] ++ n :: nodes) := ordered
  refine ⟨front.replace pieces fun p hp l inside => ?_, ?_⟩
  · rw [← kept]
    exact mem_allLocks.mpr ⟨p, hp, inside⟩
  · rw [allLocks_append, allLocks_cons, allLocks_cons, ← kept]
    rfl

section Successors

variable (node : LockTreeNode) (right : BinaryTree LockTreeNode) (pool : List Bool)
  (ordered : node.Ordered) (later : Ordered (inorder right))
  (behind : ∀ l ∈ node.locks, ∀ k ∈ allLocks (inorder right), l.startingByte ≤ k.startingByte)

include ordered later behind

/-- **A node that has grown takes in the nodes it overlaps.** -/
theorem mergeSuccessors_ordered : Ordered (mergeSuccessors node right pool).nodes ∧
      allLocks (mergeSuccessors node right pool).nodes =
        node.locks ++ allLocks (inorder right) := by
  fun_induction mergeSuccessors node right pool with
  | case1 node right pool none_left =>
    have empty := popMinimum_eq_none none_left
    rw [Merged.nodes, empty]
    exact ⟨ordered.single, rfl⟩
  | case2 node right pool next right' popped apart =>
    refine ⟨⟨forall_mem_cons.mpr ⟨ordered, later.node⟩,
      pairwise_cons.mpr ⟨fun b hb => ?_, later.apart⟩⟩, rfl⟩
    rw [popMinimum_inorder popped] at hb later
    rcases mem_cons.mp hb with rfl | hb
    · exact apart
    · exact apart.trans_le (later.start_le next.first_mem (first_mem_allLocks hb))
  | case3 node right pool next right' popped within holey split ih =>
    have sequence := popMinimum_inorder popped
    rw [sequence] at later behind
    obtain ⟨pieces, same⟩ := later.resplit holey.2 pool
    rw [← same] at behind
    obtain ⟨grown, tail, still⟩ := absorb_step ordered pieces behind
    have rest : inorder (attach (chain split.fresh) right') = split.fresh ++ inorder right' := by
      simp
    obtain ⟨result, locks⟩ := ih grown (rest ▸ tail) (rest ▸ still)
    refine ⟨result, locks.trans ?_⟩
    rw [absorb_locks, rest, sequence, ← same, cons_append, allLocks_cons, append_assoc]
  | case4 node right pool next right' popped within whole ih =>
    have sequence := popMinimum_inorder popped
    rw [sequence] at later behind
    obtain ⟨grown, tail, still⟩ := absorb_step ordered later behind
    obtain ⟨result, locks⟩ := ih grown tail still
    refine ⟨result, locks.trans ?_⟩
    rw [absorb_locks, sequence, allLocks_cons, append_assoc]

/-- Among nodes that are each one piece the walk needs no pool. -/
theorem mergeSuccessors_tight (tight : node.Tight) (pieces : ∀ n ∈ inorder right, n.Tight) :
    (mergeSuccessors node right pool).node.Tight ∧
      (∀ n ∈ inorder (mergeSuccessors node right pool).right, n.Tight) ∧
      (mergeSuccessors node right pool).pool = pool := by
  fun_induction mergeSuccessors node right pool with
  | case1 node right pool none_left => exact ⟨tight, pieces, rfl⟩
  | case2 node right pool next right' popped apart => exact ⟨tight, pieces, rfl⟩
  | case3 node right pool next right' popped within holey split ih =>
    have whole := (pieces next (by simp [popMinimum_inorder popped])).whole
    rw [whole] at holey
    exact absurd holey.2 (by simp)
  | case4 node right pool next right' popped within whole ih =>
    rw [popMinimum_inorder popped] at later behind pieces
    obtain ⟨grown, tail, still⟩ := absorb_step ordered later behind
    have piece := pieces next (by simp)
    exact ih grown tail still (absorb_tight ordered tight piece (not_lt.mp within))
      fun n inside => pieces n (by simp [inside])

end Successors

/-! ## Into the shared tree -/

theorem AddedTo.append (added : AddedTo new locks locks') (before behind : List Lock) :
    AddedTo new (before ++ locks ++ behind) (before ++ locks' ++ behind) := by
  obtain ⟨xs, ys, rfl, rfl⟩ := added
  exact ⟨before ++ xs, ys ++ behind, by simp, by simp⟩

/-- A node that meets a lock reaches at least up to it. -/
theorem Meets.start_le {startingByte endingByte : Nat} (ordered : n.Ordered)
    (meets : Meets startingByte endingByte n.first n.extent) : startingByte ≤ n.extent + 1 := by
  rcases meets with ⟨within, -⟩ | ⟨-, -, same⟩
  · omega
  · rw [← same]
    exact ordered.start_le n.first_mem

/-- The node a new lock joins, after the walk over its successors. -/
def joinAndMerge (n : LockTreeNode) (right : BinaryTree LockTreeNode) (new : Lock)
    (pool : List Bool) : Merged :=
  if n.extent < new.endingByte then
    mergeSuccessors { n.insert new with extent := new.endingByte } right pool
  else ⟨n.insert new, right, pool⟩

section Joining

variable {right : BinaryTree LockTreeNode}

theorem joinAndMerge_eq (n : LockTreeNode) (right : BinaryTree LockTreeNode) (new : Lock)
    (pool : List Bool) :
    joinAndMerge n right new pool =
      if n.extent < new.endingByte then mergeSuccessors (n.joined new) right pool
      else ⟨n.joined new, right, pool⟩ := by
  unfold joinAndMerge LockTreeNode.joined
  split
  next grows => rw [max_eq_right grows.le]
  next covered =>
    rw [max_eq_left (not_lt.mp covered), ← (insert_whole n new).2]

section Meeting

variable (ordered : Ordered (n :: inorder right))
  (meets : Meets new.startingByte new.endingByte n.first n.extent)

include ordered meets

theorem joined_behind : ∀ l ∈ (n.joined new).locks, ∀ k ∈ allLocks (inorder right),
      l.startingByte ≤ k.startingByte := by
  intro l here k inside
  rcases mem_joined.mp here with rfl | here
  · exact (Meets.start_le (ordered.node n (by simp)) meets).trans (ordered.extent_lt inside)
  · exact ordered.start_le here inside

theorem joinAndMerge_ordered (proper : new.Proper) (pool : List Bool) :
    Ordered (joinAndMerge n right new pool).nodes ∧ AddedTo new (allLocks (n :: inorder right))
        (allLocks (joinAndMerge n right new pool).nodes) := by
  have here : n.Ordered := ordered.node n (by simp)
  have joined := joined_ordered here proper
  have added := (joined_added n new).append [] (allLocks (inorder right))
  rw [joinAndMerge_eq]
  split
  next =>
    obtain ⟨result, locks⟩ := mergeSuccessors_ordered _ right pool joined ordered.tail
      (joined_behind ordered meets)
    refine ⟨result, ?_⟩
    rw [locks]
    simpa using added
  next covered =>
    refine ⟨⟨forall_mem_cons.mpr ⟨joined, ordered.tail.node⟩,
      pairwise_cons.mpr ⟨fun b hb => ?_, ordered.tail.apart⟩⟩, by simpa using added⟩
    rw [show (n.joined new).extent = n.extent from max_eq_left (not_lt.mp covered)]
    exact (pairwise_cons.mp ordered.apart).1 b hb

theorem joinAndMerge_tight (proper : new.Proper) (tight : ∀ m ∈ n :: inorder right, m.Tight)
    (pool : List Bool) :
    (∀ m ∈ (joinAndMerge n right new pool).nodes, m.Tight) ∧
      (joinAndMerge n right new pool).pool = pool := by
  have here : n.Ordered := ordered.node n (by simp)
  have piece := joined_tight here (tight n (by simp)) proper meets
  have others : ∀ m ∈ inorder right, m.Tight := fun m inside => tight m (by simp [inside])
  rw [joinAndMerge_eq]
  split
  next =>
    obtain ⟨node, rest, same⟩ := mergeSuccessors_tight _ right pool (joined_ordered here proper)
      ordered.tail (joined_behind ordered meets) piece others
    exact ⟨forall_mem_cons.mpr ⟨node, rest⟩, same⟩
  next => exact ⟨forall_mem_cons.mpr ⟨piece, others⟩, rfl⟩

end Meeting

end Joining

variable {pool : List Bool} {loc : Loc LockTreeNode}

theorem insertShared_found
    (found : (fsRtlFindFirstOverlappingSharedNode tree new.startingByte new.endingByte).found = some loc) :
    fsRtlPrivateInsertSharedLock tree new pool =
      let merged := joinAndMerge loc.val loc.splay.right new pool
      if merged.node.holeyNode then
        let split := fsRtlSplitLocks merged.node 0 0 0 merged.pool
        ⟨true, .node split.parent loc.splay.left (attach (chain split.fresh) merged.right),
          split.pool⟩
      else ⟨true, .node merged.node loc.splay.left merged.right, merged.pool⟩ := by
  simp only [fsRtlPrivateInsertSharedLock, found]
  rfl

/-- The nodes before the one found keep their distance. -/
theorem Found.append (ordered : Ordered (inorder tree))
    (found : Found LockTreeNode.first LockTreeNode.extent new.startingByte new.endingByte (inorder tree) loc)
    (inner : Ordered nodes) (added : AddedTo new (allLocks (loc.val :: loc.after)) (allLocks nodes)) :
    Ordered (loc.before ++ nodes) ∧
      AddedTo new (allLocks (inorder tree)) (allLocks (loc.before ++ nodes)) := by
  have sequence := found.sequence
  rw [sequence] at ordered
  refine ⟨ordered.of_append_left.append_locks inner fun a ha l inside => ?_, ?_⟩
  · rcases added.mem.mp inside with rfl | inside
    · exact found.before a ha
    · obtain ⟨m, hm, inside⟩ := mem_allLocks.mp inside
      exact ((pairwise_append.mp ordered.apart).2.2 a ha m hm).trans_le
        ((ordered.node m (mem_append_right _ hm)).first_le inside)
  · rw [sequence, allLocks_append, allLocks_append]
    simpa using added.append (allLocks loc.before) []

def Lock.node (l : Lock) : LockTreeNode :=
  ⟨l, [], false, l.endingByte⟩

theorem Lock.Proper.node_ordered (proper : l.Proper) : Ordered [l.node] :=
  LockTreeNode.Ordered.single ⟨by simpa [LockTreeNode.locks, Lock.node] using proper,
    pairwise_singleton _ _, by simp [LockTreeNode.locks, Lock.node]⟩

theorem Lock.node_tight (l : Lock) : l.node.Tight :=
  ⟨rfl, trivial⟩

/-- The place of a node of its own. -/
theorem Missed.insert_ordered {d : Descent LockTreeNode} (ordered : Ordered (inorder tree))
    (proper : new.Proper)
    (missed : Missed LockTreeNode.first LockTreeNode.extent new.startingByte new.endingByte (inorder tree) d) :
    ∃ low high, inorder tree = low ++ high ∧
      inorder (d.newLeaf new.node).splay.tree = low ++ new.node :: high ∧
      Ordered (low ++ new.node :: high) := by
  obtain ⟨low, high, parts, lows, highs, leaf⟩ := missed.leaf
  obtain ⟨before, after⟩ := leaf new.node
  refine ⟨low, high, parts, ?_, ?_⟩
  · rw [Loc.inorder_splay, before, after, Descent.newLeaf_val]
  · rw [parts] at ordered
    refine ordered.of_append_left.append (proper.node_ordered.append ordered.of_append_right ?_) ?_
    · intro a ha b hb
      obtain rfl := mem_singleton.mp ha
      exact (highs b hb).2
    · intro a ha b hb
      rcases mem_cons.mp hb with rfl | hb
      · exact lows a ha
      · exact (pairwise_append.mp ordered.apart).2.2 a ha b hb

/-- **A shared lock that is granted is added to the tree and nothing else changes.** -/
theorem insertShared_ordered (ordered : Ordered (inorder tree)) (proper : new.Proper)
    (pool : List Bool) :
    let inserted := fsRtlPrivateInsertSharedLock tree new pool
    (inserted.granted = false ∧ inserted.tree = tree) ∨
      (inserted.granted ∧ Ordered (inorder inserted.tree) ∧
        AddedTo new (allLocks (inorder tree)) (allLocks (inorder inserted.tree))) := by
  dsimp only
  rcases findShared ordered proper.start_le with ⟨loc, hit, found⟩ | ⟨none_hit, missed⟩
  · simp only [insertShared_found hit]
    have inside : Ordered (loc.val :: inorder loc.splay.right) := by
      rw [Loc.inorder_splay_right]
      have all := ordered
      rw [found.sequence] at all
      exact all.of_append_right
    obtain ⟨merged, added⟩ := joinAndMerge_ordered inside found.meets proper pool
    generalize joinAndMerge loc.val loc.splay.right new pool = m at merged added
    rw [Loc.inorder_splay_right] at added
    split
    next holey =>
      obtain ⟨pieces, same⟩ := merged.resplit holey m.pool
      rw [← same] at added
      have result := found.append ordered pieces added
      exact .inr ⟨rfl, by simpa using result⟩
    next =>
      have result := found.append ordered merged added
      exact .inr ⟨rfl, by simpa using result⟩
  · obtain ⟨low, high, parts, sequence, result⟩ := missed.insert_ordered ordered proper
    simp only [fsRtlPrivateInsertSharedLock, none_hit]
    split
    · refine .inr ⟨rfl, ?_⟩
      rw [show (⟨new, [], false, new.endingByte⟩ : LockTreeNode) = new.node from rfl, sequence]
      refine ⟨result, allLocks low, allLocks high, by rw [parts, allLocks_append], ?_⟩
      rw [allLocks_append]
      rfl
    · exact .inl ⟨rfl, rfl⟩

/-- With a full pool the lock is granted and every node stays one piece. -/
theorem insertShared_tight (ordered : Ordered (inorder tree)) (tight : ∀ n ∈ inorder tree, n.Tight)
    (proper : new.Proper) (plenty : Plenty pool) :
    (fsRtlPrivateInsertSharedLock tree new pool).granted ∧
      (∀ n ∈ inorder (fsRtlPrivateInsertSharedLock tree new pool).tree, n.Tight) ∧
      Plenty (fsRtlPrivateInsertSharedLock tree new pool).pool := by
  rcases findShared ordered proper.start_le with ⟨loc, hit, found⟩ | ⟨none_hit, missed⟩
  · simp only [insertShared_found hit]
    have all := ordered
    rw [found.sequence] at all tight
    have inside : Ordered (loc.val :: inorder loc.splay.right) := by
      rw [Loc.inorder_splay_right]
      exact all.of_append_right
    obtain ⟨pieces, left⟩ := joinAndMerge_tight inside found.meets proper
      (fun m hm => tight m (mem_append_right _ (by simpa using hm))) pool
    generalize joinAndMerge loc.val loc.splay.right new pool = m at pieces left
    rw [if_neg (by simp [(pieces m.node (by simp)).whole])]
    refine ⟨rfl, ?_, by simpa [left] using plenty⟩
    rw [inorder_node, Loc.inorder_splay_left]
    exact forall_mem_append.mpr ⟨(forall_mem_append.mp tight).1, pieces⟩
  · obtain ⟨low, high, parts, sequence, -⟩ := missed.insert_ordered ordered proper
    simp only [fsRtlPrivateInsertSharedLock, none_hit, plenty.allocate.1, if_true, true_and]
    rw [show (⟨new, [], false, new.endingByte⟩ : LockTreeNode) = new.node from rfl, sequence]
    rw [parts, forall_mem_append] at tight
    exact ⟨forall_mem_append.mpr ⟨tight.1, forall_mem_cons.mpr ⟨new.node_tight, tight.2⟩⟩,
      plenty.allocate.2⟩

/-! ## Into the exclusive tree -/

theorem Separate.of_parts {xs : List Lock} (separate : Separate (xs ++ ys)) (proper : new.Proper)
    (before : ∀ l ∈ xs, l.endingByte < new.startingByte)
    (after : ∀ l ∈ ys, new.endingByte < l.startingByte) : Separate (xs ++ new :: ys) := by
  obtain ⟨left, right, across⟩ := pairwise_append.mp separate.apart
  refine ⟨fun l inside => ?_, pairwise_append.mpr ⟨left, pairwise_cons.mpr ⟨after, right⟩,
    fun a ha b hb => ?_⟩⟩
  · rcases (AddedTo.mem ⟨xs, ys, rfl, rfl⟩).mp inside with rfl | inside
    · exact proper
    · exact separate.proper l inside
  · rcases mem_cons.mp hb with rfl | hb
    · exact before a ha
    · exact across a ha b hb

variable {tree : BinaryTree Lock}

/-- The new lock comes right behind or right before the lock the search found. -/
theorem insertExclusive_found {loc : Loc Lock}
    (found : (fsRtlFindFirstOverlappingExclusiveNode tree new.startingByte new.endingByte).found = some loc) :
    inorder (fsRtlPrivateInsertExclusiveLock tree new) = loc.before ++ loc.val :: new :: loc.after ∨
      inorder (fsRtlPrivateInsertExclusiveLock tree new) =
        loc.before ++ new :: loc.val :: loc.after := by
  simp only [fsRtlPrivateInsertExclusiveLock, found]
  split
  next noRight =>
    simp [Loc.insertAsRightChild, Loc.inorder_tree, Loc.before, Loc.after, before, after, noRight]
  next noLeft =>
    simp [Loc.insertAsLeftChild, Loc.inorder_tree, Loc.before, Loc.after, before, after, noLeft]
  next full _ =>
    simp [Loc.inorder_tree, Loc.before, Loc.after, full]

/-- **An exclusive lock that overlaps no other keeps the tree in order.**  What the search
for it meets can only be an empty lock at its own place. -/
theorem insertExclusive_separate (separate : Separate (inorder tree)) (proper : new.Proper)
    (free : ∀ l ∈ inorder tree, ¬ l.Touches new.startingByte new.endingByte) :
    Separate (inorder (fsRtlPrivateInsertExclusiveLock tree new)) ∧
      AddedTo new (inorder tree) (inorder (fsRtlPrivateInsertExclusiveLock tree new)) := by
  rcases findExclusive separate proper.start_le with ⟨loc, hit, found⟩ | ⟨none_hit, missed⟩
  · have sequence := found.sequence
    obtain ⟨short, place⟩ : loc.val.endingByte < new.startingByte ∧
        loc.val.endingByte = new.endingByte ∧ loc.val.startingByte = new.startingByte := by
      rcases found.meets with ⟨reaches, starts⟩ | same
      · exact absurd ⟨starts, reaches⟩ (free loc.val (by rw [sequence]; simp))
      · exact same
    rw [sequence] at separate
    obtain ⟨-, tail, -⟩ := pairwise_append.mp separate.apart
    have behind : ∀ l ∈ loc.after, new.endingByte < l.startingByte := fun l inside => by
      rw [← place.1]
      exact (pairwise_cons.mp tail).1 l inside
    -- equal empty locks: the new one goes behind the one found or before it
    rcases insertExclusive_found hit with shape | shape
    · rw [shape, sequence]
      refine ⟨?_, loc.before ++ [loc.val], loc.after, by simp, by simp⟩
      have parts : Separate ((loc.before ++ [loc.val]) ++ loc.after) := by simpa using separate
      have added := parts.of_parts proper ?_ behind
      · simpa using added
      · intro l inside
        rcases mem_append.mp inside with inside | inside
        · exact found.before l inside
        · obtain rfl := mem_singleton.mp inside
          omega
    · rw [shape, sequence]
      refine ⟨separate.of_parts proper found.before ?_, loc.before, loc.val :: loc.after, rfl, rfl⟩
      exact forall_mem_cons.mpr ⟨by omega, behind⟩
  · obtain ⟨low, high, parts, lows, highs, leaf⟩ := missed.leaf
    obtain ⟨before, after⟩ := leaf new
    have shape : inorder (fsRtlPrivateInsertExclusiveLock tree new) = low ++ new :: high := by
      simp only [fsRtlPrivateInsertExclusiveLock, none_hit]
      rw [Loc.inorder_tree, before, after, Descent.newLeaf_val]
    rw [shape]
    rw [parts] at separate ⊢
    exact ⟨separate.of_parts proper lows fun l inside => (highs l inside).2, low, high, rfl, rfl⟩

end Ntoskrnl.FsRtl.FileLock
