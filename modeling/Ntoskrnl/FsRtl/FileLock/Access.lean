/-
# Ntoskrnl.FsRtl.FileLock.Access -- what the access checks say about the granted locks

A check looks at the first node it finds and sometimes at a few behind it.  Because the
trees are in order, its verdict holds for all granted locks: a request that passes
conflicts with none of them (`sharedConflict_free`, `exclusiveConflict_free`,
`sharedAccess_free`).  When every node is one piece and no range is empty the converse
holds too, so the checks are exact.
-/
import Ntoskrnl.FsRtl.FileLock.Insert

namespace Ntoskrnl.FsRtl.FileLock

open Lib.SplayTree List

set_option autoImplicit false

/-- The range of a request that neither wraps nor is the empty one at offset 0. -/
def FileLockInfo.Proper (info : FileLockInfo) : Prop :=
  info.endingByte + 1 = info.startingByte + info.length

variable {info : FileLockInfo} {nodes : List LockTreeNode} {locks : List Lock}
  {tree : BinaryTree Lock}

theorem FileLockInfo.Proper.start_le (proper : info.Proper) :
    info.startingByte ≤ info.endingByte + 1 := by
  unfold FileLockInfo.Proper at proper
  omega

/-! ## Shared locks in the way of an exclusive one -/

section Shared

variable {startingByte endingByte : Nat}

/-- Where no node overlaps a range, no lock does. -/
theorem Missed.not_touches {d : Descent LockTreeNode} (ordered : Ordered nodes)
    (missed : Missed LockTreeNode.first LockTreeNode.extent startingByte endingByte nodes d) :
    ∀ l ∈ allLocks nodes, ¬ l.Touches startingByte endingByte := by
  obtain ⟨low, high, rfl, lows, highs, -⟩ := missed.leaf
  rintro l inside ⟨starts, ends⟩
  obtain ⟨n, hn, inside⟩ := mem_allLocks.mp inside
  have node := ordered.node n hn
  rcases mem_append.mp hn with hn | hn
  · have := lows n hn
    have := node.le_extent inside
    omega
  · have := (highs n hn).2
    have := node.first_le inside
    omega

variable {loc : Loc LockTreeNode}

/-- Where no lock of the first node found overlaps, no lock does. -/
theorem Found.not_touches (ordered : Ordered nodes)
    (found : Found LockTreeNode.first LockTreeNode.extent startingByte endingByte nodes loc)
    (clear : ∀ l ∈ loc.val.locks, ¬ l.Touches startingByte endingByte) :
    ∀ l ∈ allLocks nodes, ¬ l.Touches startingByte endingByte := by
  have sequence := found.sequence
  rw [sequence] at ordered ⊢
  have here : loc.val.Ordered := ordered.node _ (by simp)
  -- the range ends before the extent of this node does
  have within : endingByte ≤ loc.val.extent := by
    rcases found.meets with ⟨reaches, -⟩ | ⟨-, same, -⟩
    · by_contra beyond
      have below : reachOf loc.val.locks ≤ startingByte - 1 := by
        refine reachOf_le fun l inside => ?_
        have start := here.start_le inside
        have := clear l inside
        unfold Lock.Touches at this
        omega
      rw [← here.extent] at below
      have := clear _ loc.val.first_mem
      have := here.start_le loc.val.first_mem
      unfold Lock.Touches at *
      omega
    · rw [← same]
      exact here.le_extent loc.val.first_mem
  rintro l inside ⟨starts, ends⟩
  rw [allLocks_append] at inside
  rcases mem_append.mp inside with inside | inside
  · obtain ⟨n, hn, inside⟩ := mem_allLocks.mp inside
    have := found.before n hn
    have := (ordered.node n (mem_append_left _ hn)).le_extent inside
    omega
  · rcases mem_append.mp inside with inside | inside
    · exact clear l inside ⟨starts, ends⟩
    · have := ordered.of_append_right.extent_lt inside
      omega

/-- The scan of a node stops at a lock that overlaps, unless no lock of the node does. -/
theorem overlapScan_touches (proper : ∀ l ∈ locks, l.Proper) (sorted : SortedLocks locks) :
    (∀ l ∈ locks, ¬ l.Touches startingByte endingByte) ∨
      ∃ l ∈ locks, overlapScan startingByte endingByte locks = some l ∧
        l.Touches startingByte endingByte := by
  induction locks with
  | nil => simp
  | cons k locks ih =>
    obtain ⟨later, tail⟩ := pairwise_cons.mp sorted
    unfold overlapScan
    rw [(proper k (by simp)).not_origin]
    split
    next short =>
      have short := short.resolve_right (by simp)
      rcases ih (fun l inside => proper l (by simp [inside])) tail with
        clear | ⟨l, inside, found, touches⟩
      · exact .inl (forall_mem_cons.mpr ⟨fun touches => absurd touches.2 (not_le.mpr short), clear⟩)
      · rw [if_neg]
        · exact .inr ⟨l, by simp [inside], found, touches⟩
        -- an empty lock equal to the range ends it before any later lock
        · have := later l inside
          unfold Lock.Touches at touches
          omega
    next ahead =>
      simp only [Bool.false_eq_true, or_false] at ahead
      split
      next beyond =>
        refine .inl (forall_mem_cons.mpr ⟨fun touches => ?_, fun l inside touches => ?_⟩)
        · exact absurd touches.1 (not_le.mpr beyond)
        · exact absurd (touches.1.trans_lt (beyond.trans_le (later l inside))) (lt_irrefl _)
      next within =>
        exact .inr ⟨k, by simp, rfl, not_lt.mp within, not_lt.mp ahead⟩

/-- **An exclusive request that meets no shared conflict overlaps no shared lock.**  For
an empty request this needs nodes that are one piece. -/
theorem sharedConflict_free {tree : BinaryTree LockTreeNode} (ordered : Ordered (inorder tree))
    (proper : info.Proper) (sure : info.length ≠ 0 ∨ ∀ n ∈ inorder tree, n.Tight)
    (free : sharedConflict tree info = false) :
    ∀ l ∈ allLocks (inorder tree), ¬ l.Touches info.startingByte info.endingByte := by
  rcases findShared ordered proper.start_le with ⟨loc, hit, found⟩ | ⟨none_hit, missed⟩
  · refine found.not_touches ordered ?_
    have inside : loc.val ∈ inorder tree := by
      rw [found.sequence]
      simp
    have here := ordered.node _ inside
    simp only [sharedConflict, hit] at free
    split at free
    · next none_found =>
      split at none_found
      · refine (overlapScan_touches here.proper here.sorted).resolve_right ?_
        rintro ⟨l, -, found, -⟩
        exact absurd (none_found.symm.trans found) (by simp)
      · simp at none_found
    · next l some_found =>
      simp only [Bool.or_eq_false_iff, Bool.not_eq_false', beq_iff_eq] at free
      -- a lock was found and is no conflict: the request is empty
      have short : info.endingByte + 1 = info.startingByte := by
        unfold FileLockInfo.Proper at proper
        omega
      split at some_found
      · refine (overlapScan_touches here.proper here.sorted).resolve_right ?_
        rintro ⟨k, within, found, touches⟩
        obtain rfl := Option.some.inj (some_found.symm.trans found)
        have lock := here.proper l within
        unfold Lock.Proper at lock
        unfold Lock.Touches at touches
        omega
      · obtain rfl := Option.some.inj some_found
        have tight := sure.resolve_left (not_not.mpr free.1) _ inside
        have first := here.proper _ loc.val.first_mem
        have extent := tight.extent_of_empty here (by unfold Lock.Proper at first; omega)
        intro k hk touches
        have := here.first_le hk
        have meets := found.meets
        unfold Meets at meets
        unfold Lock.Touches at touches
        unfold Lock.Proper at first
        omega
  · exact missed.not_touches ordered

/-- In a node that is one piece and has no empty lock, each byte up to the extent is
covered by a lock. -/
theorem LinkedFrom.exists_touches {start reach : Nat} (linked : LinkedFrom start reach locks)
    (some_bytes : ∀ l ∈ locks, l.length ≠ 0) (range : startingByte ≤ endingByte)
    (short : reach < startingByte) (reaches : startingByte ≤ reachOf locks) :
    ∃ l ∈ locks, l.Touches startingByte endingByte := by
  induction locks generalizing reach with
  | nil =>
    rw [reachOf_nil] at reaches
    omega
  | cons k locks ih =>
    have glued : k.startingByte ≤ reach :=
      linked.1.resolve_right fun empty => some_bytes k (by simp) empty.1
    by_cases covers : startingByte ≤ k.endingByte
    · exact ⟨k, by simp, by omega, covers⟩
    · rw [reachOf_cons] at reaches
      obtain ⟨l, inside, touches⟩ := ih linked.2 (fun l inside => some_bytes l (by simp [inside]))
        (by omega) (by omega)
      exact ⟨l, by simp [inside], touches⟩

theorem LockTreeNode.Tight.exists_touches {n : LockTreeNode} (tight : n.Tight)
    (ordered : n.Ordered) (some_bytes : ∀ l ∈ n.locks, l.length ≠ 0)
    (range : startingByte ≤ endingByte) (starts : n.first.startingByte ≤ endingByte)
    (reaches : startingByte ≤ n.extent) : ∃ l ∈ n.locks, l.Touches startingByte endingByte := by
  by_cases covers : startingByte ≤ n.first.endingByte
  · exact ⟨n.first, n.first_mem, starts, covers⟩
  · rw [ordered.extent, LockTreeNode.locks, reachOf_cons] at reaches
    obtain ⟨l, inside, touches⟩ := tight.linked.exists_touches
      (fun l inside => some_bytes l (mem_cons_of_mem _ inside)) range (by omega) (by omega)
    exact ⟨l, mem_cons_of_mem _ inside, touches⟩

/-- **With whole nodes and no empty ranges the node found does hold an overlapping lock.** -/
theorem Found.exists_touches (ordered : Ordered nodes) (tight : ∀ n ∈ nodes, n.Tight)
    (some_bytes : ∀ l ∈ allLocks nodes, l.length ≠ 0) (range : startingByte ≤ endingByte)
    (found : Found LockTreeNode.first LockTreeNode.extent startingByte endingByte nodes loc) :
    ∃ l ∈ allLocks nodes, l.Touches startingByte endingByte := by
  have inside : loc.val ∈ nodes := by
    rw [found.sequence]
    simp
  have here := ordered.node _ inside
  have locks : ∀ l ∈ loc.val.locks, l ∈ allLocks nodes :=
    fun l hl => mem_allLocks.mpr ⟨_, inside, hl⟩
  rcases found.meets with ⟨reaches, starts⟩ | ⟨short, same, -⟩
  · obtain ⟨l, hl, touches⟩ := (tight _ inside).exists_touches here
      (fun l hl => some_bytes l (locks l hl)) range starts reaches
    exact ⟨l, locks l hl, touches⟩
  · have := here.le_extent loc.val.first_mem
    omega

/-! ## Exclusive locks in the way -/

theorem Missed.not_touches_lock {d : Descent Lock}
    (missed : Missed id Lock.endingByte startingByte endingByte locks d) :
    ∀ l ∈ locks, ¬ l.Touches startingByte endingByte := by
  obtain ⟨low, high, rfl, lows, highs, -⟩ := missed.leaf
  rintro l inside ⟨starts, ends⟩
  rcases mem_append.mp inside with inside | inside
  · exact absurd ends (not_le.mpr (lows l inside))
  · exact absurd starts (not_le.mpr (highs l inside).2)

theorem Found.after_lt {loc : Loc Lock} (separate : Separate locks)
    (found : Found id Lock.endingByte startingByte endingByte locks loc) :
    ∀ l ∈ loc.after, loc.val.endingByte < l.startingByte := by
  have apart := separate.apart
  rw [found.sequence] at apart
  exact (pairwise_cons.mp (pairwise_append.mp apart).2.1).1

theorem exclusiveConflict_free (separate : Separate (inorder tree)) (proper : info.Proper)
    (free : exclusiveConflict tree info = false) :
    ∀ l ∈ inorder tree, ¬ l.Touches info.startingByte info.endingByte := by
  rcases findExclusive separate proper.start_le with ⟨loc, hit, found⟩ | ⟨none_hit, missed⟩
  · have sequence := found.sequence
    have here : loc.val.Proper := separate.proper _ (by rw [sequence]; simp)
    have behind := found.after_lt separate
    have meets := found.meets
    simp only [exclusiveConflict, hit, Bool.or_eq_false_iff, Bool.not_eq_false', beq_iff_eq] at free
    simp only [Meets, id] at meets
    unfold FileLockInfo.Proper at proper
    unfold Lock.Proper at here
    rintro l inside ⟨starts, ends⟩
    rw [sequence] at inside
    rcases mem_append.mp inside with inside | inside
    · exact absurd ends (not_le.mpr (found.before l inside))
    · rcases mem_cons.mp inside with rfl | inside
      · omega
      · have := behind l inside
        omega
  · exact missed.not_touches_lock

theorem exclusiveConflict_touches (separate : Separate (inorder tree))
    (range : info.startingByte ≤ info.endingByte) (conflict : exclusiveConflict tree info) :
    ∃ l ∈ inorder tree, l.Touches info.startingByte info.endingByte := by
  rcases findExclusive separate (range.trans (Nat.le_succ _)) with ⟨loc, hit, found⟩ | ⟨none_hit, -⟩
  · refine ⟨loc.val, by rw [found.sequence]; simp, ?_⟩
    rcases found.meets with ⟨reaches, starts⟩ | ⟨short, same, -⟩
    · exact ⟨starts, reaches⟩
    · simp only [id] at same
      omega
  · simp [exclusiveConflict, none_hit] at conflict

/-- A shared request passes the scan: what it overlaps belongs to its own owner. -/
theorem sharedAccessScan_true (separate : Separate locks) (proper : info.Proper)
    (passes : sharedAccessScan info locks) :
    ∀ l ∈ locks, l.Touches info.startingByte info.endingByte → l.lockInfo.sameOwner info := by
  induction locks with
  | nil => simp
  | cons k locks ih =>
    have later := (pairwise_cons.mp separate.apart).1
    have rest := separate.sublist (sublist_cons_self k locks)
    have here : k.Proper := separate.proper k (by simp)
    unfold sharedAccessScan at passes
    split at passes
    next beyond =>
      have start := here.start_le
      refine forall_mem_cons.mpr ⟨fun touches => ?_, fun l inside touches => ?_⟩
      · exact absurd touches.1 (not_le.mpr beyond)
      · have := later l inside
        unfold Lock.Touches at touches
        omega
    next =>
      split at passes
      · simp at passes
      next granted =>
        refine forall_mem_cons.mpr ⟨fun touches => ?_, ih rest passes⟩
        by_contra stranger
        simp only [Bool.not_eq_true] at stranger
        simp only [stranger, Bool.not_false, Bool.true_and, Bool.or_eq_true, Bool.not_eq_true',
          beq_eq_false_iff_ne, not_or, not_not] at granted
        unfold FileLockInfo.Proper at proper
        unfold Lock.Proper at here
        unfold Lock.Touches at touches
        omega

theorem sharedAccessScan_false (fails : sharedAccessScan info locks = false) :
    ∃ l ∈ locks, l.startingByte ≤ info.endingByte ∧ l.lockInfo.sameOwner info = false := by
  induction locks with
  | nil => simp [sharedAccessScan] at fails
  | cons k locks ih =>
    unfold sharedAccessScan at fails
    split at fails
    · simp at fails
    next within =>
      split at fails
      next stranger =>
        simp only [Bool.and_eq_true, Bool.not_eq_true'] at stranger
        exact ⟨k, by simp, not_lt.mp within, stranger.1⟩
      next =>
        obtain ⟨l, inside, conflict⟩ := ih fails
        exact ⟨l, by simp [inside], conflict⟩

theorem Separate.of_append_right {xs ys : List Lock} (separate : Separate (xs ++ ys)) :
    Separate ys :=
  separate.sublist (sublist_append_right xs ys)

/-- **A shared request that is granted overlaps exclusive locks of its own owner only.** -/
theorem sharedAccess_free (separate : Separate (inorder tree)) (proper : info.Proper)
    (passes : sharedAccessScan info (onward (fsRtlFindFirstOverlappingExclusiveNode tree
      info.startingByte info.endingByte).found)) :
    ∀ l ∈ inorder tree, l.Touches info.startingByte info.endingByte →
      l.lockInfo.sameOwner info := by
  rcases findExclusive separate proper.start_le with ⟨loc, hit, found⟩ | ⟨none_hit, missed⟩
  · rw [hit] at passes
    have sequence := found.sequence
    rw [sequence] at separate ⊢
    intro l inside touches
    rcases mem_append.mp inside with inside | inside
    · exact absurd touches.2 (not_le.mpr (found.before l inside))
    · exact sharedAccessScan_true separate.of_append_right proper passes l inside touches
  · exact fun l inside touches => absurd touches (missed.not_touches_lock l inside)

theorem sharedAccess_conflict (separate : Separate (inorder tree))
    (range : info.startingByte ≤ info.endingByte)
    (fails : sharedAccessScan info (onward (fsRtlFindFirstOverlappingExclusiveNode tree
      info.startingByte info.endingByte).found) = false) :
    ∃ l ∈ inorder tree, l.Touches info.startingByte info.endingByte ∧
      l.lockInfo.sameOwner info = false := by
  rcases findExclusive separate (range.trans (Nat.le_succ _)) with ⟨loc, hit, found⟩ | ⟨none_hit, -⟩
  · rw [hit] at fails
    obtain ⟨l, inside, starts, stranger⟩ := sharedAccessScan_false fails
    refine ⟨l, by rw [found.sequence]; exact mem_append_right _ inside, ⟨starts, ?_⟩, stranger⟩
    have reaches : info.startingByte ≤ loc.val.endingByte := by
      rcases found.meets with ⟨reaches, -⟩ | ⟨short, same, -⟩
      · exact reaches
      · simp only [id] at same
        omega
    have proper := separate.proper l (by rw [found.sequence]; exact mem_append_right _ inside)
    rcases mem_cons.mp inside with rfl | inside
    · exact reaches
    · have := found.after_lt separate l inside
      have := proper.start_le
      omega
  · simp [none_hit, onward, sharedAccessScan] at fails

end Shared

end Ntoskrnl.FsRtl.FileLock
