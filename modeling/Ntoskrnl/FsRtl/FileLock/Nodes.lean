/-
# Ntoskrnl.FsRtl.FileLock.Nodes -- what the nodes of the shared tree keep

A node holds its locks sorted by their first byte and knows the last byte any of them
covers; the nodes follow each other without overlap (`Ordered`).  That much survives a
pool that has run dry.  When every split gets its nodes, a node is also one piece: each
of its locks begins within the reach of the locks before it (`Tight`).

`splitLoop_ordered` and `splitLoop_tight` say that a split leaves such nodes;
`cut_ordered` and `cut_tight` say it of the node that locks were taken from.
-/
import Mathlib.Order.MinMax
import Mathlib.Order.Nat
import Ntoskrnl.FsRtl.FileLock.Model

namespace Ntoskrnl.FsRtl.FileLock

open Lib.SplayTree List

set_option autoImplicit false

/-! ## The reach of a list of locks -/

@[simp] theorem reachOf_nil : reachOf [] = 0 := rfl

@[simp] theorem reachOf_cons (l : Lock) (locks : List Lock) :
    reachOf (l :: locks) = max l.endingByte (reachOf locks) := rfl

@[simp] theorem reachOf_append (xs ys : List Lock) :
    reachOf (xs ++ ys) = max (reachOf xs) (reachOf ys) := by
  induction xs with
  | nil => simp
  | cons l xs ih => rw [cons_append, reachOf_cons, ih, reachOf_cons, max_assoc]

variable {l : Lock} {locks : List Lock}

theorem le_reachOf (inside : l ∈ locks) : l.endingByte ≤ reachOf locks := by
  induction locks with
  | nil => simp at inside
  | cons k locks ih =>
    rcases mem_cons.mp inside with rfl | later
    · exact le_max_left _ _
    · exact (ih later).trans (le_max_right _ _)

theorem reachOf_le {bound : Nat}
    (below : ∀ l ∈ locks, l.endingByte ≤ bound) : reachOf locks ≤ bound := by
  induction locks with
  | nil => exact Nat.zero_le _
  | cons k locks ih =>
    exact max_le (below k (by simp)) (ih fun l inside => below l (by simp [inside]))

theorem reachOf_mono {xs ys : List Lock} (sub : ∀ l ∈ xs, l ∈ ys) : reachOf xs ≤ reachOf ys :=
  reachOf_le fun l inside => le_reachOf (sub l inside)

variable {halt : Nat} {keep : Lock → Bool} {ys xs : List LockTreeNode}

/-- Locks that end early do not make up the reach of a list. -/
theorem reachOf_filter (dropped : ∀ l ∈ locks, keep l = false → l.endingByte ≤ halt) :
    reachOf locks ≤ max (reachOf (locks.filter keep)) halt := by
  refine reachOf_le fun l inside => ?_
  cases kept : keep l with
  | true => exact (le_reachOf (mem_filter.mpr ⟨inside, kept⟩)).trans (le_max_left _ _)
  | false => exact (dropped l inside kept).trans (le_max_right _ _)

/-! ## Well-formed locks and nodes -/

/-- The last byte of the range comes right before its end, over the integers.  The empty
range at offset 0 is the only one that does not wrap and still fails this. -/
def Lock.Proper (l : Lock) : Prop :=
  l.endingByte + 1 = l.startingByte + l.length

theorem Lock.Proper.start_le (proper : l.Proper) : l.startingByte ≤ l.endingByte + 1 := by
  unfold Lock.Proper at proper
  omega

theorem Lock.Proper.not_origin (proper : l.Proper) : l.isOrigin = false := by
  unfold Lock.Proper at proper
  simp only [Lock.isOrigin, Bool.and_eq_false_iff, beq_eq_false_iff_ne]
  omega

/-- The lock overlaps the range from its first to its last byte. -/
def Lock.Touches (l : Lock) (startingByte endingByte : Nat) : Prop :=
  l.startingByte ≤ endingByte ∧ startingByte ≤ l.endingByte

instance (l : Lock) (startingByte endingByte : Nat) : Decidable (l.Touches startingByte endingByte) :=
  inferInstanceAs (Decidable (_ ∧ _))

def SortedLocks (locks : List Lock) : Prop :=
  locks.Pairwise fun a b => a.startingByte ≤ b.startingByte

structure LockTreeNode.Ordered (n : LockTreeNode) : Prop where
  proper : ∀ l ∈ n.locks, l.Proper
  sorted : SortedLocks n.locks
  extent : n.extent = reachOf n.locks

/-- The nodes of the shared tree in order. -/
structure Ordered (nodes : List LockTreeNode) : Prop where
  node : ∀ n ∈ nodes, n.Ordered
  apart : nodes.Pairwise fun a b => a.extent < b.first.startingByte

@[simp] theorem LockTreeNode.first_mem (n : LockTreeNode) : n.first ∈ n.locks :=
  mem_cons_self

variable {n : LockTreeNode}

namespace LockTreeNode.Ordered

theorem first_le (ordered : n.Ordered) (inside : l ∈ n.locks) :
    n.first.startingByte ≤ l.startingByte := by
  rcases mem_cons.mp inside with rfl | later
  · exact le_rfl
  · exact (pairwise_cons.mp ordered.sorted).1 l later

theorem le_extent (ordered : n.Ordered) (inside : l ∈ n.locks) : l.endingByte ≤ n.extent := by
  rw [ordered.extent]
  exact le_reachOf inside

/-- A lock of the node begins at the latest right behind its extent. -/
theorem start_le (ordered : n.Ordered) (inside : l ∈ n.locks) : l.startingByte ≤ n.extent + 1 :=
  (ordered.proper l inside).start_le.trans (Nat.succ_le_succ (ordered.le_extent inside))

end LockTreeNode.Ordered

/-! ## Replacing a node by its pieces -/

theorem Ordered.nil : Ordered [] :=
  ⟨by simp, Pairwise.nil⟩

theorem Ordered.of_append_left (ordered : Ordered (xs ++ ys)) : Ordered xs :=
  ⟨fun n inside => ordered.node n (mem_append_left _ inside), (pairwise_append.mp ordered.apart).1⟩

theorem Ordered.of_append_right (ordered : Ordered (xs ++ ys)) : Ordered ys :=
  ⟨fun n inside => ordered.node n (mem_append_right _ inside),
    (pairwise_append.mp ordered.apart).2.1⟩

theorem Ordered.append (left : Ordered xs) (right : Ordered ys)
    (apart : ∀ a ∈ xs, ∀ b ∈ ys, a.extent < b.first.startingByte) : Ordered (xs ++ ys) := by
  refine ⟨fun n inside => ?_, pairwise_append.mpr ⟨left.apart, right.apart, apart⟩⟩
  rcases mem_append.mp inside with inside | inside
  · exact left.node n inside
  · exact right.node n inside

theorem LockTreeNode.Ordered.single (here : n.Ordered) : FileLock.Ordered [n] :=
  ⟨by simpa using here, pairwise_singleton _ _⟩

/-- Nodes made of some locks of one node take its place. -/
theorem Ordered.replace {pieces : List LockTreeNode} (ordered : Ordered (xs ++ n :: ys))
    (inner : Ordered pieces) (inside : ∀ p ∈ pieces, ∀ l ∈ p.locks, l ∈ n.locks) :
    Ordered (xs ++ pieces ++ ys) := by
  have here : n.Ordered := ordered.node n (by simp)
  obtain ⟨-, later, before⟩ := pairwise_append.mp ordered.apart
  have behind := (pairwise_cons.mp later).1
  have right : Ordered ys := by
    have tail : Ordered ([n] ++ ys) := ordered.of_append_right
    exact tail.of_append_right
  have upTo : Ordered (xs ++ pieces) := by
    refine ordered.of_append_left.append inner fun a ha p hp => ?_
    exact (before a ha n (by simp)).trans_le (here.first_le (inside p hp _ p.first_mem))
  refine upTo.append right fun a ha b hb => ?_
  rcases mem_append.mp ha with ha | ha
  · exact before a ha b (by simp [hb])
  · refine lt_of_le_of_lt ?_ (behind b hb)
    rw [(inner.node a ha).extent, here.extent]
    exact reachOf_mono (inside a ha)

/-! ## Splitting keeps the order -/

/-- What the loop of a split knows about the locks it has passed and those to come. -/
structure Piece.Ordered (p : Piece) (extentValid : Bool) (links : List Lock) : Prop where
  proper : ∀ l ∈ p.locks ++ links, l.Proper
  sorted : SortedLocks (p.locks ++ links)
  reach : p.maxOffset = reachOf p.locks
  known : extentValid → p.extent = reachOf (p.locks ++ links)

variable {links : List Lock} {extentValid : Bool}

namespace Piece

variable {p : Piece}

@[simp] theorem locks_start (extent : Nat) : (start extentValid extent l).locks = [l] := rfl

@[simp] theorem locks_extend : (p.extend extentValid l).locks = p.locks ++ [l] := rfl

theorem start_ordered {extent : Nat} (proper : ∀ k ∈ l :: links, k.Proper)
    (sorted : SortedLocks (l :: links))
    (known : extentValid → extent = reachOf (l :: links)) :
    (start extentValid extent l).Ordered extentValid links := by
  refine ⟨proper, sorted, by rw [locks_start]; simp [start], fun valid => ?_⟩
  rw [locks_start, singleton_append, ← known valid]
  simp [start, valid]

theorem reach_lt_of_breaksAt (breaks : p.breaksAt l) : p.maxOffset < l.startingByte := by
  simp only [breaksAt, Bool.and_eq_true, decide_eq_true_eq] at breaks
  exact breaks.1

theorem Ordered.refuse (ordered : p.Ordered extentValid links) :
    p.refuse.Ordered extentValid links :=
  ⟨ordered.proper, ordered.sorted, ordered.reach, ordered.known⟩

theorem Ordered.extend (ordered : p.Ordered extentValid (l :: links)) :
    (p.extend extentValid l).Ordered extentValid links := by
  have same : (p.extend extentValid l).locks ++ links = p.locks ++ l :: links := by simp
  refine ⟨?_, ?_, ?_, fun valid => ?_⟩
  · rw [same]
    exact ordered.proper
  · rw [same]
    exact ordered.sorted
  · rw [locks_extend, reachOf_append]
    simp [Piece.extend, ordered.reach]
  · rw [same, ← ordered.known valid]
    simp [Piece.extend, valid]

/-- Behind a break the reach of the rest does not need the locks before it. -/
theorem Ordered.restart (ordered : p.Ordered extentValid (l :: links)) (breaks : p.breaksAt l) :
    (start extentValid p.extent l).Ordered extentValid links := by
  have proper : l.Proper := ordered.proper l (by simp)
  have gap := reach_lt_of_breaksAt breaks
  refine start_ordered (fun k inside => ordered.proper k (mem_append_right _ inside))
    (pairwise_append.mp ordered.sorted).2.1 fun valid => ?_
  have early : p.maxOffset ≤ l.endingByte := by
    have := proper.start_le
    omega
  rw [ordered.known valid, reachOf_append, ← ordered.reach, reachOf_cons]
  omega

end Piece

abbrev Split.nodes (split : Split) : List LockTreeNode := split.parent :: split.fresh

abbrev Merged.nodes (merged : Merged) : List LockTreeNode := merged.node :: inorder merged.right

/-- **A split leaves ordered nodes**, whatever the pool does. -/
theorem splitLoop_ordered (halt : Nat) (extentValid : Bool) (p : Piece) (links : List Lock)
    (pool : List Bool) (ordered : p.Ordered extentValid links) :
    Ordered (splitLoop halt extentValid p links pool).nodes := by
  induction links generalizing p pool with
  | nil =>
    obtain ⟨proper, sorted, reach, -⟩ := ordered
    rw [append_nil] at proper sorted
    exact LockTreeNode.Ordered.single ⟨proper, sorted, reach⟩
  | cons l links ih =>
    unfold splitLoop
    dsimp only
    split
    next breaks =>
      have later := ih _ (allocate pool).2 (ordered.restart breaks.1)
      have kept := splitLoop_locks halt extentValid (.start extentValid p.extent l) links
        (allocate pool).2
      have closed : p.close.Ordered := by
        refine ⟨fun k inside => ordered.proper k (mem_append_left _ inside),
          (pairwise_append.mp ordered.sorted).1, ordered.reach⟩
      refine closed.single.append later fun a ha n inside => ?_
      obtain rfl := mem_singleton.mp ha
      have among : n.first ∈ l :: links := by
        have := mem_flatMap.mpr ⟨n, inside, n.first_mem⟩
        rw [flatMap_cons, kept] at this
        simpa using this
      have start : l.startingByte ≤ n.first.startingByte := by
        rcases mem_cons.mp among with same | beyond
        · rw [same]
        · exact (pairwise_cons.mp (pairwise_append.mp ordered.sorted).2.1).1 _ beyond
      exact (Piece.reach_lt_of_breaksAt breaks.1).trans_le start
    next =>
      have kept : (if p.breaksAt l then p.refuse else p).Ordered extentValid (l :: links) := by
        split
        · exact ordered.refuse
        · exact ordered
      split
      next stop =>
        exact LockTreeNode.Ordered.single ⟨kept.proper, kept.sorted, kept.known stop.1⟩
      next => exact ih _ _ kept.extend

/-! ## Splitting with a full pool leaves no hole -/

/-- Each lock begins within the reach of those before it, or is an empty lock where the
node begins. -/
def LinkedFrom (start : Nat) : Nat → List Lock → Prop
  | _, [] => True
  | reach, l :: locks =>
    (l.startingByte ≤ reach ∨ (l.length = 0 ∧ l.startingByte = start)) ∧
      LinkedFrom start (max reach l.endingByte) locks

/-- Locks behind `halt` begin within the reach of those before them. -/
def GluedBehind (halt : Nat) : Nat → List Lock → Prop
  | _, [] => True
  | reach, l :: locks =>
    (halt < l.startingByte → l.startingByte ≤ reach) ∧
      GluedBehind halt (max reach l.endingByte) locks

/-- A node that is one piece. -/
structure LockTreeNode.Tight (n : LockTreeNode) : Prop where
  whole : n.holeyNode = false
  linked : LinkedFrom n.first.startingByte n.first.endingByte n.rest

variable {reach : Nat}

theorem LinkedFrom.append {start : Nat} {xs ys : List Lock} : LinkedFrom start reach (xs ++ ys) ↔
      LinkedFrom start reach xs ∧ LinkedFrom start (max reach (reachOf xs)) ys := by
  induction xs generalizing reach with
  | nil => simp [LinkedFrom]
  | cons l xs ih => rw [cons_append, LinkedFrom, ih, LinkedFrom, reachOf_cons, and_assoc,
      max_assoc]

theorem GluedBehind.linkedFrom {start : Nat}
    (glued : GluedBehind halt reach locks) (beyond : ∀ l ∈ locks, halt < l.startingByte) :
    LinkedFrom start reach locks := by
  induction locks generalizing reach with
  | nil => trivial
  | cons l locks ih =>
    exact ⟨.inl (glued.1 (beyond l (by simp))),
      ih glued.2 fun k inside => beyond k (by simp [inside])⟩

/-- A node that begins with an empty lock holds only empty locks at that place. -/
theorem LinkedFrom.all_empty {start : Nat}
    (linked : LinkedFrom start reach locks) (short : reach + 1 = start)
    (proper : ∀ l ∈ locks, l.Proper) (sorted : ∀ l ∈ locks, start ≤ l.startingByte) :
    ∀ l ∈ locks, l.length = 0 ∧ l.startingByte = start := by
  induction locks generalizing reach with
  | nil => simp
  | cons k locks ih =>
    have empty : k.length = 0 ∧ k.startingByte = start := by
      rcases linked.1 with within | empty
      · have := sorted k (by simp)
        omega
      · exact empty
    have ends : max reach k.endingByte = reach := by
      have := proper k (by simp)
      unfold Lock.Proper at this
      omega
    intro l inside
    rcases mem_cons.mp inside with rfl | later
    · exact empty
    · exact ih (ends ▸ linked.2) short (fun l hl => proper l (by simp [hl]))
        (fun l hl => sorted l (by simp [hl])) l later

/-- The reach of such a node is that of its first lock. -/
theorem LockTreeNode.Tight.extent_of_empty (tight : n.Tight) (ordered : n.Ordered)
    (empty : n.first.endingByte + 1 = n.first.startingByte) : n.extent = n.first.endingByte := by
  have proper : ∀ l ∈ n.rest, l.Proper := fun l inside =>
    ordered.proper l (mem_cons_of_mem _ inside)
  have same := tight.linked.all_empty empty proper
    fun l inside => ordered.first_le (mem_cons_of_mem _ inside)
  have reach : reachOf n.rest ≤ n.first.endingByte := reachOf_le fun l inside => by
    have := proper l inside
    have := same l inside
    unfold Lock.Proper at *
    omega
  rw [ordered.extent, LockTreeNode.locks]
  exact max_eq_left reach

/-- What the loop of a split knows when no split has failed. -/
structure Piece.Tight (p : Piece) (halt : Nat) (extentValid : Bool) (links : List Lock) :
    Prop where
  whole : p.holeyNode = false
  offset : p.startOffset = p.first.startingByte ∨ p.startOffset = 0
  linked : LinkedFrom p.first.startingByte p.first.endingByte p.rest
  glued : extentValid → GluedBehind halt p.maxOffset links

variable {p : Piece} {reach' : Nat} {pool : List Bool}

theorem Piece.reach_eq (ordered : p.Ordered extentValid links) :
    p.maxOffset = max p.first.endingByte (reachOf p.rest) :=
  ordered.reach

theorem Piece.Tight.extend (tight : p.Tight halt extentValid (l :: links))
    (ordered : p.Ordered extentValid (l :: links)) (stays : p.breaksAt l = false) :
    (p.extend extentValid l).Tight halt extentValid links := by
  refine ⟨tight.whole, tight.offset, ?_, fun valid => (tight.glued valid).2⟩
  refine LinkedFrom.append.mpr ⟨tight.linked, ?_, trivial⟩
  have reach : max (p.extend extentValid l).first.endingByte (reachOf p.rest) = p.maxOffset :=
    (reach_eq ordered).symm
  rw [reach]
  simp only [breaksAt, Bool.and_eq_false_iff, decide_eq_false_iff_not, not_lt,
    Bool.not_eq_false', Bool.and_eq_true, beq_iff_eq] at stays
  rcases stays with within | ⟨empty, place⟩
  · exact Or.inl within
  · rcases tight.offset with same | zero
    · exact Or.inr ⟨empty, place.trans same⟩
    · -- an empty lock at offset 0 is not proper
      omega

theorem Piece.Tight.restart (tight : p.Tight halt extentValid (l :: links))
    (ordered : p.Ordered extentValid (l :: links)) (breaks : p.breaksAt l) :
    (start extentValid p.extent l).Tight halt extentValid links := by
  refine ⟨rfl, .inl rfl, trivial, fun valid => ?_⟩
  have behind := (tight.glued valid).2
  have proper : l.Proper := ordered.proper l (by simp)
  have gap := reach_lt_of_breaksAt breaks
  have same : max p.maxOffset l.endingByte = l.endingByte := by
    have := proper.start_le
    omega
  rwa [same] at behind

/-- Every allocation succeeds. -/
def Plenty (pool : List Bool) : Prop :=
  ∀ outcome ∈ pool, outcome

theorem Plenty.allocate (plenty : Plenty pool) : (allocate pool).1 ∧ Plenty (allocate pool).2 := by
  cases pool with
  | nil => exact ⟨rfl, plenty⟩
  | cons outcome =>
    exact ⟨plenty outcome (by simp), fun later inside => plenty later (.tail _ inside)⟩

/-- **With a full pool a split leaves nodes that are each one piece.** -/
theorem splitLoop_tight (halt : Nat) (extentValid : Bool) (p : Piece) (links : List Lock)
    (pool : List Bool) (ordered : p.Ordered extentValid links)
    (tight : p.Tight halt extentValid links) (plenty : Plenty pool) :
    (∀ n ∈ (splitLoop halt extentValid p links pool).nodes, n.Tight) ∧
      Plenty (splitLoop halt extentValid p links pool).pool := by
  induction links generalizing p pool with
  | nil =>
    exact ⟨forall_mem_singleton.mpr ⟨tight.whole, tight.linked⟩, plenty⟩
  | cons l links ih =>
    unfold splitLoop
    cases breaks : p.breaksAt l with
    | true =>
      rw [if_pos ⟨rfl, plenty.allocate.1⟩]
      obtain ⟨later, left⟩ := ih _ _ (ordered.restart breaks) (tight.restart ordered breaks)
        plenty.allocate.2
      refine ⟨fun n inside => ?_, left⟩
      rcases mem_cons.mp inside with rfl | inside
      · exact ⟨by simp [Piece.close, tight.whole], tight.linked⟩
      · exact later n inside
    | false =>
      simp only [Bool.false_eq_true, false_and, if_false]
      split
      next stop =>
        refine ⟨forall_mem_singleton.mpr ⟨tight.whole, LinkedFrom.append.mpr ⟨tight.linked, ?_⟩⟩,
          plenty⟩
        rw [← Piece.reach_eq ordered]
        refine (tight.glued stop.1).linkedFrom fun k inside => ?_
        rcases mem_cons.mp inside with rfl | later
        · exact stop.2
        · exact stop.2.trans_le
            ((pairwise_cons.mp (pairwise_append.mp ordered.sorted).2.1).1 k later)
      next => exact ih _ _ ordered.extend (tight.extend ordered breaks) plenty

/-! ## Taking locks from a node -/

/-- Locks were taken from a node: `passed` is what came before the first of them, `links`
what is left behind it, and none of them reached beyond `halt`. -/
structure Cut (n : LockTreeNode) (passed links : List Lock) (halt : Nat) : Prop where
  parts : ∃ gone behind keep, n.locks = passed ++ gone :: behind ∧
    links = behind.filter keep ∧ gone.endingByte ≤ halt ∧
    ∀ l ∈ behind, keep l = false → l.endingByte ≤ halt

variable {passed : List Lock}

namespace Cut

variable (cut : Cut n passed links halt)

include cut

theorem sublist : (passed ++ links).Sublist n.locks := by
  obtain ⟨gone, behind, keep, locks, rfl, -, -⟩ := cut.parts
  rw [locks]
  exact (Sublist.refl passed).append (filter_sublist.trans (sublist_cons_self _ _))

theorem mem (inside : l ∈ passed ++ links) : l ∈ n.locks :=
  cut.sublist.subset inside

/-- The reach of the node without the locks taken from it. -/
theorem reach_le : reachOf n.locks ≤ max (reachOf (passed ++ links)) halt := by
  obtain ⟨gone, behind, keep, locks, rfl, short, dropped⟩ := cut.parts
  have tail := reachOf_filter dropped
  rw [locks, reachOf_append, reachOf_append, reachOf_cons]
  omega

theorem reach_ge : reachOf (passed ++ links) ≤ reachOf n.locks :=
  reachOf_mono fun _ inside => cut.mem inside

/-- Where the locks taken did not reach beyond those before them, the reach stays. -/
theorem reach_eq_of_le (covered : halt ≤ reachOf passed) :
    reachOf (passed ++ links) = reachOf n.locks := by
  have := cut.reach_le
  have := cut.reach_ge
  have : reachOf passed ≤ reachOf (passed ++ links) := by
    rw [reachOf_append]
    exact le_max_left _ _
  omega

theorem reach_eq_of_lt (ordered : n.Ordered)
    (beyond : halt < n.extent) : n.extent = reachOf (passed ++ links) := by
  have := cut.reach_le
  have := cut.reach_ge
  rw [ordered.extent] at beyond ⊢
  omega

end Cut

/-- The locks before the first one taken, as the loop of the split finds them. -/
theorem split_passed {first p : Lock} {rest : List Lock}
    (left : p :: passed ++ links = first :: rest) :
    first = p ∧ rest.take passed.length = passed ∧ rest.drop passed.length = links := by
  obtain ⟨rfl, rfl⟩ := left
  simp

/-- Behind the locks taken the others hold together as before. -/
theorem glued_of_linked {start : Nat} (linked : LinkedFrom start reach locks)
    (le : reach ≤ max reach' halt) (dropped : ∀ l ∈ locks, keep l = false → l.endingByte ≤ halt)
    (later : ∀ l ∈ locks, l.length = 0 ∧ l.startingByte = start → l.startingByte ≤ halt) :
    GluedBehind halt reach' (locks.filter keep) := by
  induction locks generalizing reach reach' with
  | nil => trivial
  | cons l locks ih =>
    rw [forall_mem_cons] at dropped later
    cases kept : keep l with
    | true =>
      rw [filter_cons_of_pos kept]
      refine ⟨fun beyond => ?_, ih linked.2 (by omega) dropped.2 later.2⟩
      rcases linked.1 with within | empty
      · omega
      · omega
    | false =>
      rw [filter_cons_of_neg (by simp [kept])]
      have short := dropped.1 kept
      exact ih linked.2 (by omega) dropped.2 later.2

/-- A node that is one piece and loses locks beyond the reach of those before them. -/
theorem Cut.glued (ordered : n.Ordered) (tight : n.Tight) (cut : Cut n passed links halt)
    (uncovered : reachOf passed < halt) (beyond : halt < n.extent) :
    GluedBehind halt (reachOf passed) links := by
  obtain ⟨gone, behind, keep, locks, rfl, short, dropped⟩ := cut.parts
  have first : n.first.Proper := ordered.proper _ n.first_mem
  have start := first.start_le
  have linked := tight.linked
  -- no empty lock sits at the front of the node behind the locks taken
  cases passed with
  | nil =>
    have same : n.first = gone ∧ n.rest = behind := cons.inj locks
    rw [same.2] at linked
    rw [same.1] at linked first start
    refine glued_of_linked linked (by omega) dropped fun l inside empty => ?_
    by_contra far
    have reach := tight.extent_of_empty ordered (by rw [same.1]; omega)
    rw [same.1] at reach
    omega
  | cons p passed =>
    have same : n.first = p ∧ n.rest = passed ++ gone :: behind := cons.inj locks
    rw [same.2] at linked
    rw [same.1] at linked start
    rw [reachOf_cons] at uncovered ⊢
    refine glued_of_linked (LinkedFrom.append.mp linked).2.2 (by omega) dropped
      fun l inside empty => ?_
    omega

/-- Locks that end within the reach of the others can be left out. -/
theorem LinkedFrom.filter {start : Nat} (linked : LinkedFrom start reach locks)
    (le : reach ≤ reach') (covered : halt ≤ reach')
    (dropped : ∀ l ∈ locks, keep l = false → l.endingByte ≤ halt) :
    LinkedFrom start reach' (locks.filter keep) := by
  induction locks generalizing reach reach' with
  | nil => trivial
  | cons l locks ih =>
    rw [forall_mem_cons] at dropped
    cases kept : keep l with
    | true =>
      rw [filter_cons_of_pos kept]
      exact ⟨linked.1.imp_left le.trans', ih linked.2 (max_le_max_right _ le)
        (covered.trans (le_max_left _ _)) dropped.2⟩
    | false =>
      rw [filter_cons_of_neg (by simp [kept])]
      exact ih linked.2 (max_le le ((dropped.1 kept).trans covered)) covered dropped.2

/-- A later lock may be the first of the node. -/
theorem LinkedFrom.restart {start start' : Nat}
    (linked : LinkedFrom start reach locks) (le : start ≤ start')
    (sorted : ∀ l ∈ locks, start' ≤ l.startingByte) : LinkedFrom start' reach locks := by
  induction locks generalizing reach with
  | nil => trivial
  | cons l locks ih =>
    refine ⟨linked.1.imp_right fun empty => ⟨empty.1, ?_⟩,
      ih linked.2 fun k inside => sorted k (by simp [inside])⟩
    have := sorted l (by simp)
    omega

section Taken

variable {rest : List Lock} {first : Lock} (ordered : n.Ordered) (cut : Cut n passed links halt)
  (left : passed ++ links = first :: rest)

include ordered cut left

theorem Cut.proper : ∀ l ∈ first :: rest, l.Proper := by
  rw [← left]
  exact fun l inside => ordered.proper l (cut.mem inside)

theorem Cut.sorted : SortedLocks (first :: rest) := by
  rw [← left]
  exact ordered.sorted.sublist cut.sublist

/-- A node that loses locks within the reach of those before them stays one piece. -/
theorem Cut.linked (tight : n.Tight) (covered : halt ≤ reachOf passed) :
    LinkedFrom first.startingByte first.endingByte rest := by
  have sorted := cut.sorted ordered left
  have front : n.first.startingByte ≤ first.startingByte := by
    refine ordered.first_le (cut.mem ?_)
    rw [left]
    exact mem_cons_self
  obtain ⟨gone, behind, keep, locks, rfl, short, dropped⟩ := cut.parts
  have linked := tight.linked
  cases passed with
  | nil =>
    have same : n.first = gone ∧ n.rest = behind := cons.inj locks
    rw [same.2] at linked
    have kept := linked.filter (le_refl _) (by simp at covered; omega) dropped
    rw [nil_append] at left
    rw [left] at kept
    have reach : n.first.endingByte = 0 := by
      rw [same.1]
      simp at covered
      omega
    have tail := kept.2.restart front (pairwise_cons.mp sorted).1
    rwa [reach, Nat.zero_max] at tail
  | cons p passed =>
    have same : n.first = p ∧ n.rest = passed ++ gone :: behind := cons.inj locks
    obtain ⟨rfl, rfl⟩ := left
    rw [same.1, same.2] at linked
    obtain ⟨inner, -, tail⟩ := LinkedFrom.append.mp linked
    exact LinkedFrom.append.mpr ⟨inner, tail.filter (max_le le_rfl (short.trans covered)) covered
      dropped⟩

/-- Where the loop of the split begins when the locks taken were not covered. -/
theorem Cut.piece (whole : n.holeyNode = false)
    (uncovered : reachOf passed < halt) (pool : List Bool) :
    ∃ p links', fsRtlSplitLocks { n with first := first, rest := rest } passed.length halt
        (reachOf passed) pool = splitLoop halt (decide (halt < n.extent)) p links' pool ∧
      p.Ordered (decide (halt < n.extent)) links' ∧
      (n.Tight → p.Tight halt (decide (halt < n.extent)) links') := by
  have proper := cut.proper ordered left
  have sorted := cut.sorted ordered left
  have known : decide (halt < n.extent) → n.extent = reachOf (first :: rest) := by
    intro beyond
    rw [← left]
    exact cut.reach_eq_of_lt ordered (of_decide_eq_true beyond)
  have glued : n.Tight → decide (halt < n.extent) → GluedBehind halt (reachOf passed) links :=
    fun tight beyond => cut.glued ordered tight uncovered (of_decide_eq_true beyond)
  unfold fsRtlSplitLocks
  rw [if_neg (by simp [whole]), if_neg (not_le.mpr uncovered)]
  cases passed with
  | nil =>
    refine ⟨_, _, rfl, Piece.start_ordered proper sorted known, fun tight =>
      ⟨rfl, .inl rfl, trivial, fun valid => ?_⟩⟩
    have all := glued tight valid
    rw [nil_append] at left
    rw [left] at all
    simpa [Piece.start] using all.2
  | cons p passed =>
    obtain ⟨rfl, taken, dropped⟩ := split_passed left
    have all : first :: rest = first :: (rest.take passed.length) ++ rest.drop passed.length := by
      simp
    refine ⟨_, _, rfl, ⟨?_, ?_, ?_, fun valid => ?_⟩, fun tight =>
      ⟨rfl, .inr rfl, ?_, fun valid => ?_⟩⟩
    · exact fun l inside => proper l (all ▸ inside)
    · exact all ▸ sorted
    · simp only [Piece.locks, taken]
    · exact (known valid).trans (congrArg reachOf all)
    · obtain ⟨gone, behind, -, locks, -, -, -⟩ := cut.parts
      have same : n.first = first ∧ n.rest = passed ++ gone :: behind := cons.inj locks
      have linked := tight.linked
      rw [same.1, same.2] at linked
      simpa only [taken] using (LinkedFrom.append.mp linked).1
    · rw [dropped]
      exact glued tight valid

/-- **Taking locks from a node leaves ordered nodes.** -/
theorem cut_ordered (pool : List Bool) :
    Ordered (fsRtlSplitLocks { n with first := first, rest := rest } passed.length halt
      (reachOf passed) pool).nodes := by
  have proper := cut.proper ordered left
  have sorted := cut.sorted ordered left
  by_cases holey : n.holeyNode
  · unfold fsRtlSplitLocks
    rw [if_pos (by simpa using holey)]
    exact splitLoop_ordered _ _ _ _ _ (Piece.start_ordered proper sorted nofun)
  · have whole : n.holeyNode = false := by simpa using holey
    by_cases covered : halt ≤ reachOf passed
    · unfold fsRtlSplitLocks
      rw [if_neg (by simp [whole]), if_pos covered]
      have same := cut.reach_eq_of_le covered
      rw [left] at same
      exact LockTreeNode.Ordered.single ⟨proper, sorted, ordered.extent.trans same.symm⟩
    · obtain ⟨p, links', begins, inner, -⟩ :=
        cut.piece ordered left whole (not_le.mp covered) pool
      rw [begins]
      exact splitLoop_ordered _ _ _ _ _ inner

/-- With a full pool they are each one piece again. -/
theorem cut_tight (tight : n.Tight) (plenty : Plenty pool) :
    (∀ m ∈ (fsRtlSplitLocks { n with first := first, rest := rest } passed.length halt
        (reachOf passed) pool).nodes, m.Tight) ∧
      Plenty (fsRtlSplitLocks { n with first := first, rest := rest } passed.length halt
        (reachOf passed) pool).pool := by
  by_cases covered : halt ≤ reachOf passed
  · unfold fsRtlSplitLocks
    rw [if_neg (by simp [tight.whole]), if_pos covered]
    exact ⟨forall_mem_singleton.mpr ⟨tight.whole, cut.linked ordered left tight covered⟩, plenty⟩
  · obtain ⟨p, links', begins, inner, piece⟩ :=
      cut.piece ordered left tight.whole (not_le.mp covered) pool
    rw [begins]
    exact splitLoop_tight _ _ _ _ _ inner (piece tight) plenty

end Taken

/-- A holey node that is gone over as a whole. -/
theorem resplit_ordered (ordered : n.Ordered) (holey : n.holeyNode) (pool : List Bool) :
    Ordered (fsRtlSplitLocks n 0 0 0 pool).nodes := by
  unfold fsRtlSplitLocks
  rw [if_pos holey]
  exact splitLoop_ordered _ _ _ _ _ (Piece.start_ordered ordered.proper ordered.sorted nofun)

end Ntoskrnl.FsRtl.FileLock
