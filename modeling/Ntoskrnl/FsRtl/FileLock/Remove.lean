/-
# Ntoskrnl.FsRtl.FileLock.Remove -- taking locks away keeps the trees in order

Taking locks from a node replaces it by its pieces, or deletes it with its last lock.  A
single unlock takes one lock, a bulk unlock walks over both trees and takes all locks of
its owner; with an unlock routine it takes them one at a time.  The locks that stay keep
their sequence, and the trees keep what `Nodes` says about them.
-/
import Mathlib.Data.List.TakeWhile
import Ntoskrnl.FsRtl.FileLock.Access

namespace Ntoskrnl.FsRtl.FileLock

open Base Lib.SplayTree List

set_option autoImplicit false

/-! ## Finding a lock -/

variable {locks passed links : List Lock} {l : Lock}

theorem findLock_parts {t : Target} (found : findLock t locks = some (passed, l, links)) :
    locks = passed ++ l :: links ∧ t.matchesLock l := by
  induction locks generalizing passed with
  | nil => simp [findLock] at found
  | cons k locks ih =>
    unfold findLock at found
    split at found
    next here =>
      obtain ⟨rfl, rfl, rfl⟩ := found
      exact ⟨rfl, here⟩
    next =>
      split at found
      · simp at found
      · simp only [Option.map_eq_some_iff, Prod.mk.injEq, Prod.exists] at found
        obtain ⟨before, m, rest, inner, rfl, rfl, rfl⟩ := found
        obtain ⟨parts, here⟩ := ih inner
        exact ⟨by rw [parts]; rfl, here⟩

/-! ## A node and its pieces -/

theorem inorder_replaceNode (loc : Loc LockTreeNode) (split : Split) :
    inorder (replaceNode loc split) = loc.before ++ split.nodes ++ loc.after := by
  simp [replaceNode, Loc.inorder_tree, Loc.before, Loc.after]

def piecesOf (n : LockTreeNode) (passed links : List Lock) (halt : Nat) (pool : List Bool) :
    List LockTreeNode × List Bool :=
  match passed ++ links with
  | [] => ([], pool)
  | first :: rest =>
    let split := fsRtlSplitLocks { n with first := first, rest := rest } passed.length halt
      (reachOf passed) pool
    (split.parent :: split.fresh, split.pool)

theorem piecesOf_locks (n : LockTreeNode) (passed links : List Lock) (halt : Nat)
    (pool : List Bool) : allLocks (piecesOf n passed links halt pool).1 = passed ++ links := by
  unfold piecesOf
  split
  next empty => rw [empty]; rfl
  next first rest left =>
    rw [left]
    exact fsRtlSplitLocks_locks ..

section Pieces

variable {xs ys : List LockTreeNode} {n : LockTreeNode} {halt : Nat}

theorem piecesOf_ordered (ordered : Ordered (xs ++ n :: ys)) (cut : Cut n passed links halt)
    (pool : List Bool) : Ordered (xs ++ (piecesOf n passed links halt pool).1 ++ ys) := by
  have here : n.Ordered := ordered.node n (by simp)
  refine ordered.replace ?_ fun p hp l inside => ?_
  · unfold piecesOf
    split
    · exact .nil
    next left => exact cut_ordered here cut left pool
  · have among := mem_allLocks.mpr ⟨p, hp, inside⟩
    rw [piecesOf_locks] at among
    exact cut.mem among

theorem piecesOf_tight (ordered : Ordered (xs ++ n :: ys)) (cut : Cut n passed links halt)
    (tight : ∀ m ∈ xs ++ n :: ys, m.Tight) {pool : List Bool} (plenty : Plenty pool) :
    (∀ m ∈ xs ++ (piecesOf n passed links halt pool).1 ++ ys, m.Tight) ∧
      Plenty (piecesOf n passed links halt pool).2 := by
  have here : n.Ordered := ordered.node n (by simp)
  have pieces : (∀ m ∈ (piecesOf n passed links halt pool).1, m.Tight) ∧
      Plenty (piecesOf n passed links halt pool).2 := by
    unfold piecesOf
    split
    · exact ⟨by simp, plenty⟩
    next left => exact cut_tight here cut left (tight n (by simp)) plenty
  refine ⟨fun m hm => ?_, pieces.2⟩
  rcases mem_append.mp hm with hm | hm
  · rcases mem_append.mp hm with hm | hm
    · exact tight m (by simp [hm])
    · exact pieces.1 m hm
  · exact tight m (by simp [hm])

end Pieces

variable {n : LockTreeNode} {nodes : List LockTreeNode} {tree : BinaryTree LockTreeNode}

/-- One lock taken from a node. -/
theorem cut_single (parts : n.locks = passed ++ l :: links) : Cut n passed links l.endingByte :=
  ⟨⟨l, links, fun _ => true, parts, (filter_eq_self.mpr fun _ _ => rfl).symm, le_rfl, nofun⟩⟩

theorem Ordered.sorted (ordered : Ordered nodes) : SortedLocks (allLocks nodes) := by
  induction nodes with
  | nil => exact .nil
  | cons n nodes ih =>
    exact pairwise_append.mpr ⟨(ordered.node n (by simp)).sorted, ih ordered.tail,
      fun a ha b hb => ordered.start_le ha hb⟩

/-! ## Bulk unlock of shared locks -/

theorem cutNode_spec {xs ys : List LockTreeNode} (sequence : inorder tree = xs ++ n :: ys)
    (passed links : List Lock) (halt : Nat) (pool : List Bool) :
    inorder (cutNode tree xs.length passed links halt pool).1 =
        xs ++ (piecesOf n passed links halt pool).1 ++ ys ∧
      (cutNode tree xs.length passed links halt pool).2.1 =
        (piecesOf n passed links halt pool).1.length ∧
      (cutNode tree xs.length passed links halt pool).2.2 =
        (piecesOf n passed links halt pool).2 := by
  obtain ⟨loc, here, rfl, rfl, rfl⟩ := nth_spec sequence
  simp only [cutNode, here, piecesOf]
  cases passed ++ links with
  | nil => exact ⟨by simp [Loc.inorder_delete], rfl, rfl⟩
  | cons => exact ⟨inorder_replaceNode _ _, by simp [Nat.add_comm], rfl⟩

/-- What is kept by taking locks from a node: the order, the other locks, and tightness. -/
theorem cutNode_keeps {xs ys : List LockTreeNode} {halt : Nat} (cut : Cut n passed links halt)
    (sequence : inorder tree = xs ++ n :: ys) (ordered : Ordered (inorder tree)) (pool : List Bool)
    {c : BinaryTree LockTreeNode × Nat × List Bool}
    (is : cutNode tree xs.length passed links halt pool = c) :
    ∃ pieces, inorder c.1 = xs ++ pieces ++ ys ∧ c.2.1 = pieces.length ∧
      allLocks pieces = passed ++ links ∧ Ordered (inorder c.1) ∧
      ((∀ m ∈ inorder tree, m.Tight) → Plenty pool →
        (∀ m ∈ inorder c.1, m.Tight) ∧ Plenty c.2.2) := by
  obtain ⟨shape, size, left⟩ := is ▸ cutNode_spec sequence passed links halt pool
  rw [shape, left]
  rw [sequence] at ordered ⊢
  exact ⟨_, rfl, size, piecesOf_locks .., piecesOf_ordered ordered cut pool,
    fun tight plenty => piecesOf_tight ordered cut tight plenty⟩

/-- Shared locks have been taken away, and `locks` are left. -/
structure Taken (tree : BinaryTree LockTreeNode) (pool : List Bool) (locks : List Lock)
    (result : BinaryTree LockTreeNode × List Bool) : Prop where
  ordered : Ordered (inorder result.1)
  locks : allLocks (inorder result.1) = locks
  tight : (∀ n ∈ inorder tree, n.Tight) → Plenty pool →
    (∀ n ∈ inorder result.1, n.Tight) ∧ Plenty result.2

section Bulk

variable (o : Owner)

/-- The locks of a list before the first one of the owner, and the rest. -/
theorem split_owned (some_owned : (locks.dropWhile fun l => !o.matchesLock l) ≠ []) :
    ∃ passed gone behind, (locks.takeWhile fun l => !o.matchesLock l) = passed ∧
      (locks.dropWhile fun l => !o.matchesLock l) = gone :: behind ∧
      locks = passed ++ gone :: behind ∧ o.matchesLock gone ∧
      ∀ l ∈ passed, o.matchesLock l = false := by
  obtain ⟨gone, behind, rest⟩ := exists_cons_of_ne_nil some_owned
  refine ⟨_, gone, behind, rfl, rest, ?_, ?_, fun l inside => ?_⟩
  · rw [← rest, takeWhile_append_dropWhile]
  · have stops := head_dropWhile_not (fun l => !o.matchesLock l) some_owned
    simpa [rest] using stops
  · simpa using mem_takeWhile_imp inside

/-- All locks of the owner in a node are taken at once. -/
theorem cut_all {behind : List Lock} {gone : Lock} (parts : n.locks = passed ++ gone :: behind)
    (owned : o.matchesLock gone) :
    Cut n passed (behind.filter fun l => !o.matchesLock l)
      (reachOf ((gone :: behind).filter o.matchesLock)) := by
  refine ⟨gone, behind, _, parts, rfl, ?_, fun l inside taken => ?_⟩
  · exact le_reachOf (by simp [owned])
  · exact le_reachOf (mem_filter.mpr ⟨by simp [inside], by simpa using taken⟩)

/-- **A bulk unlock takes all shared locks of its owner.** -/
theorem unlockAllShared_spec (nodes passed : List LockTreeNode) (tree : BinaryTree LockTreeNode)
    (pool : List Bool) (sequence : inorder tree = passed ++ nodes)
    (ordered : Ordered (inorder tree)) :
    Taken tree pool (allLocks passed ++ (allLocks nodes).filter fun l => !o.matchesLock l)
      (unlockAllShared o nodes passed.length tree pool) := by
  induction nodes generalizing passed tree pool with
  | nil =>
    refine ⟨ordered, ?_, fun tight plenty => ⟨tight, plenty⟩⟩
    simp [unlockAllShared, sequence]
  | cons n nodes ih =>
    unfold unlockAllShared
    dsimp only
    split
    next none_owned =>
      -- a node without a lock of the owner is passed
      have free : ∀ l ∈ n.locks, o.matchesLock l = false := by
        simpa [dropWhile_eq_nil_iff] using none_owned
      have kept : n.locks.filter (fun l => !o.matchesLock l) = n.locks :=
        filter_eq_self.mpr fun l inside => by simp [free l inside]
      obtain ⟨result, locks, whole⟩ := ih (passed ++ [n]) tree pool (by simp [sequence]) ordered
      rw [length_append, length_singleton] at result locks whole
      refine ⟨result, ?_, whole⟩
      rw [locks]
      simp [kept]
    next some_owned =>
      -- the walk goes on behind the pieces of the node
      obtain ⟨front, gone, behind, early, late, parts, owned, free⟩ :=
        split_owned o (by simpa using some_owned)
      have links : (gone :: behind).filter (fun l => !o.matchesLock l) =
          behind.filter fun l => !o.matchesLock l := by simp [owned]
      rw [early, late, links]
      obtain ⟨pieces, shape, size, locksOf, ordered', tightly⟩ :=
        cutNode_keeps (cut_all o parts owned) sequence ordered pool rfl
      rw [size, ← length_append]
      obtain ⟨result, locks, whole⟩ := ih (passed ++ pieces) _ _ shape ordered'
      refine ⟨result, ?_, fun tight plenty => ?_⟩
      · rw [locks, allLocks_append, locksOf, allLocks_cons, parts]
        have kept : front.filter (fun l => !o.matchesLock l) = front :=
          filter_eq_self.mpr fun l inside => by simp [free l inside]
        simp [kept, owned]
      · obtain ⟨tight, plenty⟩ := tightly tight plenty
        exact whole tight plenty

/-- The first node that holds a lock of the owner. -/
theorem split_nodes (some_owned : ∃ l ∈ allLocks nodes, o.matchesLock l) :
    ∃ n ys, nodes.drop (nodes.takeWhile fun n => !n.locks.any o.matchesLock).length = n :: ys ∧
      nodes = (nodes.takeWhile fun n => !n.locks.any o.matchesLock) ++ n :: ys ∧
      (n.locks.dropWhile fun l => !o.matchesLock l) ≠ [] := by
  have whole := takeWhile_append_dropWhile (p := fun n : LockTreeNode => !n.locks.any o.matchesLock)
    (l := nodes)
  obtain ⟨l, inside, owned⟩ := some_owned
  obtain ⟨m, hm, inside⟩ := mem_allLocks.mp inside
  have rest : (nodes.dropWhile fun n => !n.locks.any o.matchesLock) ≠ [] := by
    intro none_left
    have := dropWhile_eq_nil_iff.mp none_left m hm
    simp only [Bool.not_eq_true', any_eq_false] at this
    exact this l inside owned
  obtain ⟨n, ys, tail⟩ := exists_cons_of_ne_nil rest
  have here : n.locks.any o.matchesLock := by
    have stops := head_dropWhile_not (fun n : LockTreeNode => !n.locks.any o.matchesLock) rest
    simpa [tail] using stops
  refine ⟨n, ys, ?_, ?_, fun none_owned => ?_⟩
  · rw [← tail]
    exact (congrArg (drop _) whole).symm.trans (drop_left ..)
  · rw [← tail, whole]
  · obtain ⟨k, hk, owned⟩ := any_eq_true.mp here
    have := dropWhile_eq_nil_iff.mp none_owned k hk
    simp [owned] at this

/-- **One lock at a time, a bulk unlock takes the same locks.** -/
theorem unlockEachShared_spec (rounds : Nat) (tree : BinaryTree LockTreeNode) (pool : List Bool)
    (count : (allLocks (inorder tree)).countP o.matchesLock = rounds)
    (ordered : Ordered (inorder tree)) :
    Taken tree pool ((allLocks (inorder tree)).filter fun l => !o.matchesLock l)
      (unlockEachShared o rounds tree pool) := by
  induction rounds generalizing tree pool with
  | zero =>
    refine ⟨ordered, ?_, fun tight plenty => ⟨tight, plenty⟩⟩
    have free := countP_eq_zero.mp count
    exact (filter_eq_self.mpr fun l inside => by simpa using free l inside).symm
  | succ rounds ih =>
    have some_owned : ∃ l ∈ allLocks (inorder tree), o.matchesLock l :=
      countP_pos_iff.mp (by omega)
    -- a round takes the first lock of the owner from the first node that has one
    obtain ⟨n, ys, tail, sequence, owning⟩ := split_nodes o some_owned
    obtain ⟨front, gone, behind, early, late, parts, owned, -⟩ := split_owned o owning
    unfold unlockEachShared
    dsimp only
    rw [tail]
    dsimp only
    generalize (inorder tree).takeWhile (fun n => !n.locks.any o.matchesLock) = xs at sequence
    have rest : n.locks.drop front.length = gone :: behind := by simp [parts]
    rw [early, rest]
    have reach : reachOf ((gone :: behind).take 1) = gone.endingByte := by simp
    rw [reach, drop_one, tail_cons]
    obtain ⟨pieces, shape, -, locksOf, ordered', tightly⟩ :=
      cutNode_keeps (cut_single parts) sequence ordered pool rfl
    generalize cutNode tree xs.length front behind gone.endingByte pool = c at *
    have before : allLocks (inorder tree) =
        allLocks xs ++ (front ++ gone :: behind) ++ allLocks ys := by
      simp [sequence, parts]
    have after : allLocks (inorder c.1) = allLocks xs ++ (front ++ behind) ++ allLocks ys := by
      rw [shape, allLocks_append, allLocks_append, locksOf]
    have fewer : (allLocks (inorder c.1)).countP o.matchesLock = rounds := by
      rw [before] at count
      rw [after]
      simp only [countP_append, countP_cons, owned, if_true] at count ⊢
      omega
    obtain ⟨result, locks, whole⟩ := ih c.1 c.2.2 fewer ordered'
    refine ⟨result, ?_, fun tight plenty => ?_⟩
    · rw [locks, after, before]
      simp [owned]
    · obtain ⟨tight, plenty⟩ := tightly tight plenty
      exact whole tight plenty

/-- **A bulk unlock takes all exclusive locks of its owner.** -/
theorem unlockAllExclusive_spec (locks passed : List Lock) (tree : BinaryTree Lock)
    (sequence : inorder tree = passed ++ locks) :
    inorder (unlockAllExclusive o locks passed.length tree) =
      passed ++ locks.filter fun l => !o.matchesLock l := by
  induction locks generalizing passed tree with
  | nil => simpa [unlockAllExclusive] using sequence
  | cons l locks ih =>
    unfold unlockAllExclusive
    split
    next owned =>
      obtain ⟨loc, here, before, -, after⟩ := nth_spec sequence
      rw [here]
      have shape : inorder loc.delete = passed ++ locks := by
        rw [Loc.inorder_delete, before, after]
      rw [ih passed loc.delete shape]
      simp [owned]
    next other =>
      have step := ih (passed ++ [l]) tree (by simp [sequence])
      rw [length_append, length_singleton] at step
      rw [step]
      simp [other]

end Bulk

end Ntoskrnl.FsRtl.FileLock
