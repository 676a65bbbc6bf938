/-
# Ntoskrnl.Mm.Vad.Runs -- every sequence of insertions and removals

A run starts with a fresh table; callers fill in nodes that are not in the tree,
insert them where they overlap nothing, and remove nodes that are in it.  The nodes
inserted and not yet removed are kept beside the table.

The table stays the balanced tree of these nodes as long as its two counters hold:
the depth is a field of five bits, the count one of 24 or 56.  An insertion must
not make the tree 32 levels high; `depth_overflows` is a run that does.
-/
import Ntoskrnl.Mm.Vad.Edit

namespace Ntoskrnl.Mm.Vad

set_option autoImplicit false

open Lib.LinkedTree Lib.SplayTree Lib.Avl List Function

/-! ## What is wanted of a table -/

/-- The table is the balanced tree of the nodes, and the lookups find what is there. -/
structure Faithful (s : Space) (nodes : List Addr) : Prop where
  tree : ∃ t, Represents s t ∧ (inorder t).Perm nodes
  conflict : ∀ startVpn endVpn fuel, nodes.length + 1 ≤ fuel →
    ∃ answer, checkForConflictingNode fuel s startVpn endVpn = some answer ∧
      (answer = null ↔ ∀ n ∈ nodes, ¬ Overlaps s.memory startVpn endVpn n)
  locate : ∀ vpn fuel, nodes.length + 1 ≤ fuel →
    ∃ answer, locateAddressInTree fuel s vpn = some answer ∧
      (∀ n ∈ nodes, s.memory.startingVpn n ≤ vpn → vpn ≤ s.memory.endingVpn n → answer = n) ∧
      ((∀ n ∈ nodes, ¬ (s.memory.startingVpn n ≤ vpn ∧ vpn ≤ s.memory.endingVpn n)) → answer = null)

variable {s s' : Space} {t : BinaryTree Addr} {nodes : List Addr}

theorem Represents.absent (represents : Represents s t) : null ∉ inorder t :=
  represents.hangs.absent

variable {fuel : Nat}

theorem Represents.conflict (represents : Represents s t) (startVpn endVpn : Nat)
    (enough : (inorder t).length + 1 ≤ fuel) :
    ∃ answer, checkForConflictingNode fuel s startVpn endVpn = some answer ∧
      (answer = null ↔ ∀ n ∈ inorder t, ¬ Overlaps s.memory startVpn endVpn n) := by
  unfold checkForConflictingNode
  by_cases empty : s.numberGenericTableElements = 0
  · have none : inorder t = [] := eq_nil_of_length_eq_zero (represents.count ▸ empty)
    exact ⟨null, by rw [if_pos empty], by simp [none]⟩
  · rw [if_neg empty, represents.hangs.anchor]
    exact conflictLoop_spec represents.hangs.linked represents.absent represents.inOrder
      enough

variable {m : Memory} {n : Addr}

/-- Two nodes in order that cover one page are one node. -/
theorem InOrder.unique {vpn : Nat} {n' : Addr} (inOrder : InOrder m nodes) (mem : n ∈ nodes)
    (mem' : n' ∈ nodes) (low : m.startingVpn n ≤ vpn) (high : vpn ≤ m.endingVpn n)
    (low' : m.startingVpn n' ≤ vpn) (high' : vpn ≤ m.endingVpn n') : n = n' := by
  by_contra ne
  obtain ⟨i, iLt, rfl⟩ := getElem_of_mem mem
  obtain ⟨j, jLt, rfl⟩ := getElem_of_mem mem'
  have pairs := pairwise_iff_getElem.mp inOrder.ordered
  rcases Nat.lt_trichotomy i j with lt | rfl | lt
  · have := pairs i j iLt jLt lt
    omega
  · exact ne rfl
  · have := pairs j i jLt iLt lt
    omega

theorem Represents.locate (represents : Represents s t) (vpn : Nat)
    (enough : (inorder t).length + 1 ≤ fuel) :
    ∃ answer, locateAddressInTree fuel s vpn = some answer ∧
      (∀ n ∈ inorder t, s.memory.startingVpn n ≤ vpn → vpn ≤ s.memory.endingVpn n → answer = n) ∧
      ((∀ n ∈ inorder t, ¬ (s.memory.startingVpn n ≤ vpn ∧ vpn ≤ s.memory.endingVpn n)) →
        answer = null) := by
  unfold locateAddressInTree findNodeOrParent
  by_cases empty : s.numberGenericTableElements = 0
  · have none : inorder t = [] := eq_nil_of_length_eq_zero (represents.count ▸ empty)
    exact ⟨null, by rw [if_pos empty], by simp [none], fun _ => rfl⟩
  · have nonempty : t ≠ .nil := by
      rintro rfl
      exact empty represents.count
    rw [if_neg empty, represents.hangs.anchor]
    rcases findLoop_spec vpn nonempty represents.hangs.linked represents.absent
      represents.inOrder (show (inorder t).length ≤ fuel by omega) with
      ⟨n, mem, found, low, high⟩ | ⟨result, inner, found, lands, place⟩
    · refine ⟨n, by rw [found], fun n' mem' low' high' => ?_, fun nowhere => ?_⟩
      · exact represents.inOrder.unique mem mem' low high low' high'
      · exact absurd ⟨low, high⟩ (nowhere n mem)
    · refine ⟨null, by rw [found]; cases lands <;> rfl, fun n mem low high => ?_, fun _ => rfl⟩
      -- Every node is on one side of the place found.
      rw [place.shape, inorder_plug] at mem
      simp only [inorder_nil, append_nil, mem_append] at mem
      rcases mem with mem | mem
      · have := place.below n mem
        omega
      · have := place.above n mem
        omega

theorem Represents.faithful (represents : Represents s t) (perm : (inorder t).Perm nodes) :
    Faithful s nodes := by
  refine ⟨⟨t, represents, perm⟩, fun startVpn endVpn fuel enough => ?_, fun vpn fuel enough => ?_⟩
  · have := represents.conflict startVpn endVpn (perm.length_eq ▸ enough)
    simpa only [perm.mem_iff] using this
  · have := represents.locate vpn (perm.length_eq ▸ enough)
    simpa only [perm.mem_iff] using this

/-! ## Runs -/

/-- The fields of a node are the same in both memories. -/
def SameNode (m m' : Memory) (n : Addr) : Prop :=
  SameAt m.links m'.links n ∧ m'.balance n = m.balance n ∧ m'.startingVpn n = m.startingVpn n ∧
    m'.endingVpn n = m.endingVpn n

/-- A node a caller may insert: it is not in use, and its range overlaps no node. -/
structure Insertable (arch : Platform) (s : Space) (nodes : List Addr) (node : Addr) :
    Prop where
  fresh : node ∉ null :: s.balancedRoot :: nodes
  range : s.memory.startingVpn node ≤ s.memory.endingVpn node
  inWord : s.memory.endingVpn node < 2 ^ arch.wordBits
  disjoint : ∀ n ∈ nodes, ¬ Overlaps s.memory (s.memory.startingVpn node)
    (s.memory.endingVpn node) n

/-- The tables callers reach, with the nodes inserted and not removed since.  Between two calls
the memory changes as it likes, apart from the table and these nodes; `allowed` restricts the
insertions. -/
inductive Run (arch : Platform) (allowed : Space → List Addr → Addr → Prop) :
    Space → List Addr → Prop where
  | start (m : Memory) (root : Addr) (present : root ≠ null) :
      Run arch allowed (initializeVadTableAvl m root) []
  | elsewhere {s : Space} {nodes : List Addr} (run : Run arch allowed s nodes) (m : Memory)
      (same : ∀ n ∈ s.balancedRoot :: nodes, SameNode s.memory m n) :
      Run arch allowed { s with memory := m } nodes
  | insert {s s' : Space} {nodes : List Addr} (run : Run arch allowed s nodes) (node : Addr)
      (fuel : Nat) (insertable : Insertable arch s nodes node)
      (admitted : allowed s nodes node) (enough : nodes.length + 1 ≤ fuel)
      (call : insertNode arch fuel s node = some s') : Run arch allowed s' (node :: nodes)
  | remove {s s' : Space} {nodes : List Addr} (run : Run arch allowed s nodes) (node : Addr)
      (fuel : Nat) (mem : node ∈ nodes) (enough : nodes.length + 1 ≤ fuel)
      (call : removeNode arch fuel s node = some s') :
      Run arch allowed s' (nodes.erase node)

/-- The insertion leaves room in both counters: the count stays below its limit, and a tree of
31 levels does not grow. -/
def Fits (arch : Platform) (s : Space) (nodes : List Addr) (node : Addr) : Prop :=
  nodes.length + 1 < 2 ^ arch.countBits ∧ ∃ t, Represents s t ∧
    (t.height < 31 ∨ ¬ Deepens s.memory (s.memory.startingVpn node) t)

/-! ## One step -/

variable {arch : Platform} {node : Addr}

variable {t' : BinaryTree Addr} {count : Nat}

/-- The links of a memory hold one tree only. -/
theorem linked_unique {L : Links Addr} {up : Addr} (linked : Linked L null up t)
    (linked' : Linked L null up t') (absent : null ∉ inorder t) (absent' : null ∉ inorder t')
    (root : rootOf null t = rootOf null t') : t = t' := by
  induction t generalizing up t' with
  | nil =>
    cases t' with
    | nil => rfl
    | node =>
      rw [rootOf_nil, rootOf_node] at root
      simp [root] at absent'
  | node a l r ihl ihr =>
    cases t' with
    | nil =>
      rw [rootOf_node] at root
      simp [root] at absent
    | node =>
      rw [rootOf_node] at root
      subst root
      obtain ⟨-, left, right, below, beyond⟩ := linked
      obtain ⟨-, left', right', below', beyond'⟩ := linked'
      simp only [inorder_node, mem_append, mem_cons, not_or] at absent absent'
      rw [ihl below below' absent.1 absent'.1 (left.symm.trans left'),
        ihr beyond beyond' absent.2.2 absent'.2.2 (right.symm.trans right')]

theorem Represents.unique (represents : Represents s t) (represents' : Represents s t') : t = t' :=
  linked_unique represents.hangs.linked represents'.hangs.linked represents.absent
    represents'.absent (represents.hangs.anchor.symm.trans represents'.hangs.anchor)

theorem represents_initialize (m : Memory) {root : Addr} (present : root ≠ null) :
    Represents (initializeVadTableAvl m root) .nil := by
  refine ⟨⟨?_, ?_, ?_, trivial, ?_⟩, trivial, rfl, rfl, ⟨by simp, .nil⟩⟩
  · simp [initializeVadTableAvl]
  · simp [initializeVadTableAvl]
  · simp [initializeVadTableAvl]
  · simpa [initializeVadTableAvl] using Ne.symm present

theorem Represents.elsewhere (represents : Represents s t)
    (same : ∀ n ∈ s.balancedRoot :: inorder t, SameNode s.memory m n) :
    Represents { s with memory := m } t := by
  obtain ⟨⟨self, noLeft, anchor, linked, distinct⟩, exact, depth, count, range, ordered⟩ :=
    represents
  obtain ⟨⟨parent, left, right⟩, -⟩ := same s.balancedRoot (by simp)
  have inside : ∀ n ∈ inorder t, SameNode s.memory m n := fun n mem => same n (by simp [mem])
  refine ⟨⟨parent.trans self, left.trans noLeft, right.trans anchor, ?_, distinct⟩, ?_, depth,
    count, ?_, ?_⟩
  · exact linked.congr fun n mem => (inside n mem).1
  · exact exact.congr fun n mem => (inside n mem).2.1
  · intro n mem
    rw [(inside n mem).2.2.1, (inside n mem).2.2.2]
    exact range n mem
  · refine ordered.imp_of_mem fun {n n'} mem mem' before => ?_
    rw [(inside n mem).2.2.2, (inside n' mem').2.2.1]
    exact before

/-- The sequence of the tree is in order after an insertion. -/
theorem Inserted.inOrder (inserted : Inserted arch s s' node t t')
    (inOrder : InOrder s.memory (inorder t))
    (range : s.memory.startingVpn node ≤ s.memory.endingVpn node)
    (disjoint : ∀ n ∈ inorder t, ¬ Overlaps s.memory (s.memory.startingVpn node)
      (s.memory.endingVpn node) n) : InOrder s'.memory (inorder t') := by
  obtain ⟨xs, ys, before, after, below, onward⟩ := inserted.sequence
  obtain ⟨ranges, ordered⟩ := inOrder
  rw [before] at ranges ordered disjoint
  have beyond : ∀ n ∈ ys, s.memory.endingVpn node < s.memory.startingVpn n := by
    intro n mem
    by_contra reaches
    have start := onward n mem
    have stop := ranges n (mem_append_right xs mem)
    exact disjoint n (mem_append_right xs mem) ⟨by omega, by omega⟩
  have apart := pairwise_append.mp ordered
  rw [after]
  refine ⟨fun n mem => ?_, ?_⟩
  · rw [inserted.ranges.1, inserted.ranges.2]
    rcases mem_append.mp mem with mem | mem
    · exact ranges n (mem_append_left ys mem)
    · rcases mem_cons.mp mem with rfl | mem
      · exact range
      · exact ranges n (mem_append_right xs mem)
  · rw [inserted.ranges.1, inserted.ranges.2, pairwise_append]
    refine ⟨apart.1, pairwise_cons.mpr ⟨beyond, apart.2.1⟩, fun n mem n' mem' => ?_⟩
    rcases mem_cons.mp mem' with rfl | mem'
    · exact below n mem
    · exact apart.2.2 n mem n' mem'

theorem Inserted.perm (inserted : Inserted arch s s' node t t')
    (perm : (inorder t).Perm nodes) : (inorder t').Perm (node :: nodes) := by
  obtain ⟨xs, ys, before, after, -⟩ := inserted.sequence
  rw [after]
  exact perm_middle.trans ((before ▸ perm).cons node)

/-- An insertion that a caller may make returns. -/
theorem Insertable.inserted (represents : Represents s t) (perm : (inorder t).Perm nodes)
    (insertable : Insertable arch s nodes node) (enough : nodes.length + 1 ≤ fuel) :
    ∃ s' t', insertNode arch fuel s node = some s' ∧ Inserted arch s s' node t t' ∧
      InOrder s'.memory (inorder t') ∧ (inorder t').Perm (node :: nodes) := by
  have disjoint : ∀ n ∈ inorder t, ¬ Overlaps s.memory (s.memory.startingVpn node)
      (s.memory.endingVpn node) n := fun n mem => insertable.disjoint n (perm.mem_iff.mp mem)
  have fresh : node ∉ null :: s.balancedRoot :: inorder t := by
    simpa only [mem_cons, perm.mem_iff] using insertable.fresh
  obtain ⟨s', t', call, inserted⟩ := insertNode_spec represents fresh disjoint
    insertable.range (perm.length_eq ▸ enough)
  exact ⟨s', t', call, inserted,
    inserted.inOrder represents.inOrder insertable.range disjoint, inserted.perm perm⟩

/-- The counters are right after an insertion if it fits, and only then. -/
theorem Inserted.represents_iff (represents : Represents s t)
    (inserted : Inserted arch s s' node t t') (inOrder : InOrder s'.memory (inorder t')) :
    Represents s' t' ↔ (inorder t).length + 1 < 2 ^ arch.countBits ∧
      (t.height < 31 ∨ ¬ Deepens s.memory (s.memory.startingVpn node) t) := by
  obtain ⟨xs, ys, before, after, -⟩ := inserted.sequence
  have longer : (inorder t').length = (inorder t).length + 1 := by
    rw [before, after]
    simp only [length_append, length_cons]
    omega
  have positive : 0 < 2 ^ arch.countBits := Nat.two_pow_pos _
  have count := inserted.count
  rw [represents.count] at count
  constructor
  · intro right
    have same := right.count
    rw [count, longer] at same
    refine ⟨same ▸ Nat.mod_lt _ positive, ?_⟩
    rcases inserted.growth with ⟨-, higher, depth⟩ | ⟨level, -⟩
    · have deep := right.depth
      exact .inl (by omega)
    · exact .inr level
  · rintro ⟨room, fits⟩
    refine ⟨inserted.hangs, inserted.exact, ?_, ?_, inOrder⟩
    · rcases inserted.growth with ⟨deepens, higher, depth⟩ | ⟨-, level, depth⟩
      · have low := fits.resolve_right (not_not_intro deepens)
        rw [depth, represents.depth]
        omega
      · rw [depth, level, represents.depth]
    · rw [count, longer, Nat.mod_eq_of_lt room]

/-! ## Whole runs -/

/-- A removal keeps the table right as long as both counters are in their fields. -/
theorem Removed.represents {xs ys : List Addr} (represents : Represents s t)
    (removed : Removed arch s s' t t' xs ys) (split : inorder t = xs ++ node :: ys)
    (low : t.height ≤ 31) (room : (inorder t).length < 2 ^ arch.countBits) :
    Represents s' t' := by
  obtain ⟨hangs, exact, sequence, ranges, -, count, height⟩ := removed
  have shorter : (inorder t).length = (inorder t').length + 1 := by
    rw [split, sequence]
    simp only [length_append, length_cons]
    omega
  have sub : Sublist (xs ++ ys) (inorder t) := by
    rw [split]
    exact (Sublist.refl xs).append (sublist_cons_self node ys)
  refine ⟨hangs, exact, ?_, ?_, ?_, ?_⟩
  · rw [represents.depth] at height
    omega
  · rw [count, represents.count, shorter]
    have wraps : (inorder t').length + 1 + (2 ^ arch.countBits - 1) =
        (inorder t').length + 2 ^ arch.countBits := by omega
    rw [wraps, Nat.add_mod_right, Nat.mod_eq_of_lt (by omega)]
  · intro n mem
    rw [sequence] at mem
    rw [ranges.1, ranges.2]
    exact represents.inOrder.range n (sub.mem mem)
  · rw [sequence, ranges.1, ranges.2]
    exact represents.inOrder.ordered.sublist sub

theorem removeNode_represents (arch : Platform) (represents : Represents s t)
    (perm : (inorder t).Perm nodes) (mem : node ∈ nodes) (enough : nodes.length + 1 ≤ fuel) :
    ∃ s' t' xs ys, removeNode arch fuel s node = some s' ∧
      Removed arch s s' t t' xs ys ∧ inorder t = xs ++ node :: ys ∧
      (inorder t').Perm (nodes.erase node) := by
  obtain ⟨xs, ys, split⟩ := append_of_mem (perm.mem_iff.mpr mem)
  obtain ⟨s', t', call, removed⟩ := removeNode_spec (s := s) represents.hangs represents.exact
    split (perm.length_eq ▸ enough)
  refine ⟨s', t', xs, ys, call, removed, split, ?_⟩
  rw [removed.sequence]
  have without := ((split ▸ perm).symm.trans perm_middle).symm.erase node
  rwa [erase_cons_head] at without

/-- What a run whose insertions fit keeps. -/
structure Kept (arch : Platform) (s : Space) (nodes : List Addr) (t : BinaryTree Addr) :
    Prop where
  represents : Represents s t
  perm : (inorder t).Perm nodes
  low : t.height ≤ 31
  room : nodes.length < 2 ^ arch.countBits

theorem Run.kept (run : Run arch (Fits arch) s nodes) : ∃ t, Kept arch s nodes t := by
  induction run with
  | start m root present =>
    exact ⟨.nil, represents_initialize m present, .refl _, Nat.zero_le _, Nat.two_pow_pos _⟩
  | elsewhere run m same ih =>
    obtain ⟨t, kept⟩ := ih
    refine ⟨t, kept.represents.elsewhere fun n mem => same n ?_, kept.perm, kept.low, kept.room⟩
    simpa only [mem_cons, kept.perm.mem_iff] using mem
  | insert run node fuel insertable fits enough call ih =>
    obtain ⟨t, kept⟩ := ih
    obtain ⟨room, t₁, represents₁, fits⟩ := fits
    obtain rfl := represents₁.unique kept.represents
    obtain ⟨s₁, t', call₁, inserted, inOrder, perm⟩ :=
      insertable.inserted kept.represents kept.perm enough
    obtain rfl := Option.some.inj (call.symm.trans call₁)
    have represents := (inserted.represents_iff kept.represents inOrder).mpr
      ⟨kept.perm.length_eq ▸ room, fits⟩
    refine ⟨t', represents, perm, ?_, room⟩
    have low := kept.low
    rcases inserted.growth with ⟨deepens, higher, -⟩ | ⟨-, level, -⟩
    · have := fits.resolve_right (not_not_intro deepens)
      omega
    · omega
  | remove run node fuel mem enough call ih =>
    obtain ⟨t, kept⟩ := ih
    obtain ⟨s₁, t', xs, ys, call₁, removed, split, perm⟩ :=
      removeNode_represents arch kept.represents kept.perm mem enough
    obtain rfl := Option.some.inj (call.symm.trans call₁)
    refine ⟨t', removed.represents kept.represents split kept.low
      (kept.perm.length_eq ▸ kept.room), perm, ?_, ?_⟩
    · have low := kept.low
      rcases removed.height with ⟨level, -⟩ | ⟨lower, -⟩ <;> omega
    · exact Nat.lt_of_le_of_lt length_erase_le kept.room

/-- **In every run whose insertions fit, the table is the balanced tree of the nodes inserted,
the lookups are right, and every call a caller may make returns.  From a table that is right,
an insertion leaves a right table only if it fits.** -/
theorem vadTree_faithful (arch : Platform) :
    (∀ s nodes, Run arch (Fits arch) s nodes → Faithful s nodes ∧
      (∀ node fuel, Insertable arch s nodes node → nodes.length + 1 ≤ fuel →
        ∃ s', insertNode arch fuel s node = some s') ∧
      (∀ node fuel, node ∈ nodes → nodes.length + 1 ≤ fuel →
        ∃ s', removeNode arch fuel s node = some s')) ∧
    ∀ s s' nodes node fuel, Faithful s nodes → Insertable arch s nodes node →
      nodes.length + 1 ≤ fuel → insertNode arch fuel s node = some s' →
        (Faithful s' (node :: nodes) ↔ Fits arch s nodes node) := by
  constructor
  · intro s nodes run
    obtain ⟨t, kept⟩ := run.kept
    refine ⟨kept.represents.faithful kept.perm, fun node fuel insertable enough => ?_,
      fun node fuel mem enough => ?_⟩
    · obtain ⟨s', t', call, -⟩ := insertable.inserted kept.represents kept.perm enough
      exact ⟨s', call⟩
    · obtain ⟨s', t', xs, ys, call, -⟩ :=
        removeNode_represents arch kept.represents kept.perm mem enough
      exact ⟨s', call⟩
  · intro s s' nodes node fuel faithful insertable enough call
    obtain ⟨t, represents, perm⟩ := faithful.tree
    obtain ⟨s₁, t', call₁, inserted, inOrder, perm'⟩ :=
      insertable.inserted represents perm enough
    obtain rfl := Option.some.inj (call.symm.trans call₁)
    have counters := inserted.represents_iff represents inOrder
    rw [perm.length_eq] at counters
    constructor
    · intro right
      obtain ⟨t₂, represents₂, -⟩ := right.tree
      -- The links of the new table hold one tree only, the one the insertion has made.
      have same : t₂ = t' := linked_unique represents₂.hangs.linked inserted.hangs.linked
        represents₂.absent inserted.hangs.absent (represents₂.hangs.anchor.symm.trans inserted.hangs.anchor)
      obtain ⟨room, fits⟩ := counters.mp (same ▸ represents₂)
      exact ⟨room, t, represents, fits⟩
    · rintro ⟨room, t₂, represents₂, fits⟩
      obtain rfl := represents₂.unique represents
      exact (counters.mpr ⟨room, fits⟩).faithful perm'

theorem Faithful.fits (faithful : Faithful s nodes) (room : nodes.length + 1 < 2 ^ arch.countBits)
    (low : s.depthOfTree < 31) (node : Addr) : Fits arch s nodes node := by
  obtain ⟨t, represents, -⟩ := faithful.tree
  exact ⟨room, t, represents, .inl (represents.depth ▸ low)⟩

/-- A memory in which every node has the page of its number. -/
def numbered : Memory :=
  ⟨⟨fun _ => null, fun _ => null, fun _ => null⟩, fun _ => 0, id, id⟩

/-- A table into which the nodes 1 to `count` have been inserted. -/
def ascending : Nat → Space
  | 0 => initializeVadTableAvl numbered 9
  | count + 1 => (insertNode amd64 5 (ascending count) (count + 1)).getD (ascending count)

/-- Three nodes in ascending order, with a rotation, and the removal of the one with two
children. -/
theorem vadTree_faithful_ascending :
    ((ascending 2).memory.links.right 1 = 2 ∧ (ascending 3).memory.links.left 2 = 1 ∧
        (ascending 3).memory.links.right 2 = 3) ∧ Fits amd64 (ascending 2) [2, 1] 3 ∧
      ∃ s, removeNode amd64 5 (ascending 3) 2 = some s ∧ Faithful s [3, 1] := by
  obtain ⟨runs, fits⟩ := vadTree_faithful amd64
  have empty : Run amd64 (Fits amd64) (ascending 0) [] := .start numbered 9 (by decide)
  have one : Run amd64 (Fits amd64) (ascending 1) [1] :=
    empty.insert 1 5 ⟨by decide, by decide, by decide, by unfold Overlaps; decide⟩
      ((runs _ _ empty).1.fits (by decide) (by decide) 1) (by decide) rfl
  have two : Run amd64 (Fits amd64) (ascending 2) [2, 1] :=
    one.insert 2 5 ⟨by decide, by decide, by decide, by unfold Overlaps; decide⟩
      ((runs _ _ one).1.fits (by decide) (by decide) 2) (by decide) rfl
  have next : Insertable amd64 (ascending 2) [2, 1] 3 :=
    ⟨by decide, by decide, by decide, by unfold Overlaps; decide⟩
  have three : Run amd64 (Fits amd64) (ascending 3) [3, 2, 1] :=
    two.insert 3 5 next ((runs _ _ two).1.fits (by decide) (by decide) 3) (by decide) rfl
  refine ⟨⟨rfl, rfl, rfl⟩, ?_, _, rfl, ?_⟩
  · exact (fits _ _ _ 3 5 (runs _ _ two).1 next (by decide) rfl).mp (runs _ _ three).1
  · exact (runs _ _ (three.remove 2 5 (by decide) (by decide) rfl)).1

/-! ## A tree too high for its field -/

/-- Single pages in the order of their numbers, each with a node of its own. -/
def pageNode (page : Nat) : Addr := 64 * (page + 2)

def pageNodes : Nat → List Addr
  | 0 => []
  | count + 1 => pageNode count :: pageNodes count

theorem mem_pageNodes : n ∈ pageNodes count ↔ ∃ page < count, n = pageNode page := by
  induction count with
  | zero => simp [pageNodes]
  | succ count ih =>
    rw [pageNodes, mem_cons, ih]
    constructor
    · rintro (rfl | ⟨page, lt, rfl⟩)
      · exact ⟨count, by omega, rfl⟩
      · exact ⟨page, by omega, rfl⟩
    · rintro ⟨page, lt, rfl⟩
      rcases Nat.lt_succ_iff_lt_or_eq.mp lt with lt | rfl
      · exact .inr ⟨page, lt, rfl⟩
      · exact .inl rfl

theorem length_pageNodes (count : Nat) : (pageNodes count).length = count := by
  induction count with
  | zero => rfl
  | succ count ih => rw [pageNodes, length_cons, ih]

/-- The table holds the first pages, and its depth is in its field. -/
structure Paged (s : Space) (count : Nat) : Prop where
  run : Run amd64 (fun _ _ _ => True) s (pageNodes count)
  root : s.balancedRoot = 64
  depth : s.depthOfTree < 2 ^ 5
  ranges : ∀ page < count, s.memory.startingVpn (pageNode page) = page ∧
    s.memory.endingVpn (pageNode page) = page

def Memory.setRange (m : Memory) (node : Addr) (first last : Nat) : Memory :=
  { m with
    startingVpn := update m.startingVpn node first
    endingVpn := update m.endingVpn node last }

/-- If every table is right, the next page can be inserted. -/
theorem Paged.next (always : ∀ s nodes, Run amd64 (fun _ _ _ => True) s nodes → Faithful s nodes)
    (paged : Paged s count) (small : count < 2 ^ 31) : ∃ s', Paged s' (count + 1) := by
  obtain ⟨run, root, depth, ranges⟩ := paged
  have apart : ∀ n ∈ s.balancedRoot :: pageNodes count, n ≠ pageNode count := by
    intro n mem
    rw [mem_cons, mem_pageNodes, root] at mem
    rcases mem with rfl | ⟨page, lt, rfl⟩
    · exact Nat.ne_of_lt (show 64 < 64 * (count + 2) by omega)
    · exact Nat.ne_of_lt (show 64 * (page + 2) < 64 * (count + 2) by omega)
  let filled : Space := { s with memory := s.memory.setRange (pageNode count) count count }
  have next : Run amd64 (fun _ _ _ => True) filled (pageNodes count) := by
    refine run.elsewhere _ fun n mem => ?_
    simp [SameNode, SameAt, Memory.setRange, update_of_ne (apart n mem)]
  have old : ∀ page < count, filled.memory.startingVpn (pageNode page) = page ∧
      filled.memory.endingVpn (pageNode page) = page := by
    intro page lt
    have ne := apart (pageNode page) (mem_cons_of_mem _ (mem_pageNodes.mpr ⟨page, lt, rfl⟩))
    simpa [filled, Memory.setRange, update_of_ne ne] using ranges page lt
  have first : filled.memory.startingVpn (pageNode count) = count := by
    simp [filled, Memory.setRange]
  have last : filled.memory.endingVpn (pageNode count) = count := by
    simp [filled, Memory.setRange]
  have insertable : Insertable amd64 filled (pageNodes count) (pageNode count) := by
    refine ⟨?_, by rw [first, last], ?_, ?_⟩
    · rw [mem_cons, not_or]
      exact ⟨by simp [pageNode, null], fun mem => apart _ mem rfl⟩
    · rw [last]
      exact Nat.lt_trans small (Nat.pow_lt_pow_right (by decide) (by decide))
    · intro n mem
      obtain ⟨page, lt, rfl⟩ := mem_pageNodes.mp mem
      rw [Overlaps, (old page lt).2]
      omega
  obtain ⟨t, represents, perm⟩ := (always filled _ next).tree
  obtain ⟨s', t', call, inserted, -⟩ := insertable.inserted represents perm le_rfl
  refine ⟨s', next.insert _ _ insertable trivial le_rfl call,
    inserted.root.trans root, ?_, fun page lt => ?_⟩
  · rcases inserted.growth with ⟨-, -, deep⟩ | ⟨-, -, deep⟩
    · rw [deep]
      exact Nat.mod_lt _ (by decide)
    · rw [deep]
      exact depth
  · rw [inserted.ranges.1, inserted.ranges.2]
    rcases Nat.lt_succ_iff_lt_or_eq.mp lt with lt | rfl
    · exact old page lt
    · exact ⟨first, last⟩

theorem exists_paged
    (always : ∀ s nodes, Run amd64 (fun _ _ _ => True) s nodes → Faithful s nodes) (count : Nat)
    (small : count ≤ 2 ^ 31) : ∃ s, Paged s count := by
  induction count with
  | zero =>
    exact ⟨initializeVadTableAvl numbered 64, .start numbered 64 (by decide), rfl,
      Nat.two_pow_pos 5, fun page lt => absurd lt (Nat.not_lt_zero page)⟩
  | succ count ih =>
    obtain ⟨s, paged⟩ := ih (by omega)
    exact paged.next always (by omega)

/-- **Insertions alone lead to a table that is not right.**  The depth is a field of five bits.
With `2 ^ 31` nodes every tree has at least 32 levels; the sparsest balanced tree with so many
has 5702886 nodes, and is built if they are inserted level by level. -/
theorem depth_overflows :
    ¬ ∀ s nodes, Run amd64 (fun _ _ _ => True) s nodes → Faithful s nodes := by
  intro always
  obtain ⟨s, paged⟩ := exists_paged always (2 ^ 31) le_rfl
  obtain ⟨t, represents, perm⟩ := (always s _ paged.run).tree
  have size := length_lt_two_pow t
  rw [perm.length_eq, length_pageNodes] at size
  have low : t.height ≤ 31 := by
    have := paged.depth
    rw [represents.depth] at this
    omega
  have few := Nat.le_trans size (Nat.pow_le_pow_right (by decide) low)
  exact absurd few (Nat.not_succ_le_self _)

end Ntoskrnl.Mm.Vad
