/-
# Ntoskrnl.Mm.Vad.Edit -- finding the place of a node and changing the tree

The two searches from the root.  `MiFindNodeOrParent` finds the node that covers a
page, or the empty place where a node that starts with the page belongs;
`MiCheckForConflictingNode` finds a node that overlaps a range, if there is one.

`MiInsertNode` hangs the node into the empty place where its first page belongs, and
climbs; `MiRemoveNode` takes a node out.  The node is all that is new, or missing, in the
sequence of the tree then, and the depth of the table is the height of the tree.
-/
import Ntoskrnl.Lib.TreeSearch
import Ntoskrnl.Mm.Vad.Tree

namespace Ntoskrnl.Mm.Vad

open Lib Lib.LinkedTree Lib.SplayTree Lib.Avl
open List hiding after

set_option autoImplicit false

variable {t : BinaryTree Addr}

/-! ## The node or the place of a page -/

/-- The nodes have ranges, in order and disjoint. -/
structure InOrder (m : Memory) (nodes : List Addr) : Prop where
  range : ∀ n ∈ nodes, m.startingVpn n ≤ m.endingVpn n
  ordered : nodes.Pairwise fun n n' => m.endingVpn n < m.startingVpn n'

variable {m : Memory} {vpn : Nat} {n : Addr}

theorem InOrder.node {a : Addr} {l r : BinaryTree Addr}
    (inOrder : InOrder m (inorder (.node a l r))) :
    InOrder m (inorder l) ∧ InOrder m (inorder r) ∧ m.startingVpn a ≤ m.endingVpn a ∧
      (∀ n ∈ inorder l, m.endingVpn n < m.startingVpn a) ∧
      (∀ n ∈ inorder r, m.endingVpn a < m.startingVpn n) := by
  obtain ⟨range, ordered⟩ := inOrder
  simp only [inorder_node, pairwise_append, pairwise_cons, mem_append, mem_cons] at range ordered
  refine ⟨⟨fun n mem => range n (by tauto), ordered.1⟩,
    ⟨fun n mem => range n (by tauto), ordered.2.1.2⟩, range a (by tauto), ?_, ordered.2.1.1⟩
  intro n mem
  exact ordered.2.2 n mem a (by tauto)

/-- The search for a page goes by even nodes only. -/
def Deepens (m : Memory) (vpn : Nat) : BinaryTree Addr → Prop
  | .nil => True
  | .node a l r =>
    m.balance a = 0 ∧ if vpn < m.startingVpn a then Deepens m vpn l else Deepens m vpn r

/-- The empty place a page belongs to: what is before it ends before the page, what is after
it starts after the page. -/
structure Place (m : Memory) (vpn : Nat) (t : BinaryTree Addr) (inner : List (Crumb Addr)) :
    Prop where
  shape : t = plug .nil inner
  below : ∀ n ∈ before inner, m.endingVpn n < vpn
  above : ∀ n ∈ after inner, vpn < m.startingVpn n
  level : Level m.balance inner ↔ Deepens m vpn t

/-- Where a page lies against the range of a node. -/
def probe (m : Memory) (vpn : Nat) (n : Addr) : Ordering :=
  if vpn < m.startingVpn n then .lt else if vpn ≤ m.endingVpn n then .eq else .gt

theorem probe_lt : probe m vpn n = .lt ↔ vpn < m.startingVpn n := by
  unfold probe
  split_ifs <;> simp_all

theorem probe_gt : probe m vpn n = .gt ↔ m.startingVpn n ≤ vpn ∧ m.endingVpn n < vpn := by
  unfold probe
  split_ifs <;> simp <;> omega

theorem probe_eq : probe m vpn n = .eq ↔ m.startingVpn n ≤ vpn ∧ vpn ≤ m.endingVpn n := by
  unfold probe
  split_ifs <;> simp <;> omega

/-- A page lies before every node after one that it does not lie behind. -/
theorem InOrder.respects {nodes : List Addr} (inOrder : InOrder m nodes) (vpn : Nat) :
    Respects (probe m vpn) nodes := by
  refine inOrder.ordered.imp_of_mem fun {a b} mem _ ordered notBehind => ?_
  have range := inOrder.range a mem
  rw [ne_eq, probe_gt] at notBehind
  rw [probe_lt]
  omega

/-- The answer of `MiFindNodeOrParent` for the end of a descent. -/
def landed : Landing Addr → TableSearchResult
  | .found node => .foundNode node
  | .asLeft parent => .insertAsLeft parent
  | .asRight parent => .insertAsRight parent

theorem findLoop_eq (m : Memory) (vpn fuel : Nat) (node : Addr) :
    findLoop m vpn fuel node = (LinkedTree.descend null m.links (probe m vpn) fuel node).map landed := by
  induction fuel generalizing node with
  | zero => rfl
  | succ fuel ih =>
    rw [findLoop, LinkedTree.descend]
    unfold probe
    by_cases low : vpn < m.startingVpn node
    · simp only [low, if_true, apply_ite (Option.map landed), ih]
      rfl
    · by_cases high : vpn ≤ m.endingVpn node
      · simp [low, high, landed]
      · simp only [low, high, if_false, apply_ite (Option.map landed), ih]
        rfl

/-- The search goes the way to a place exactly if the place is where the page belongs. -/
theorem deepens_plug {inner : List (Crumb Addr)} (below : ∀ n ∈ before inner, probe m vpn n = .gt)
    (above : ∀ n ∈ after inner, probe m vpn n = .lt) :
    Deepens m vpn (plug t inner) ↔ Level m.balance inner ∧ Deepens m vpn t := by
  induction inner generalizing t with
  | nil => simp [Level, plug]
  | cons crumb inner ih =>
    cases crumb with
    | leftOf a =>
      have low : vpn < m.startingVpn a := probe_lt.mp (above a (by simp [after]))
      rw [plug, ih below (fun n mem => above n (by simp [after, mem])), Deepens, if_pos low, Level]
      tauto
    | rightOf l a =>
      have high := probe_gt.mp (below a (by simp [before]))
      rw [plug, ih (fun n mem => below n (by simp [before, mem])) above, Deepens,
        if_neg (by omega), Level]
      tauto

variable {fuel : Nat} {up : Addr}

/-- The search finds the node of the page, or the empty place where the page belongs. -/
theorem findLoop_spec (vpn : Nat) (nonempty : t ≠ .nil) (linked : Linked m.links null up t)
    (absent : null ∉ inorder t) (inOrder : InOrder m (inorder t))
    (enough : (inorder t).length ≤ fuel) :
    (∃ n ∈ inorder t, findLoop m vpn fuel (rootOf null t) = some (.foundNode n) ∧
        m.startingVpn n ≤ vpn ∧ vpn ≤ m.endingVpn n) ∨
      ∃ landing inner, findLoop m vpn fuel (rootOf null t) = some (landed landing) ∧
        LandsBelow landing inner ∧ Place m vpn t inner := by
  rw [findLoop_eq]
  rcases descend_spec nonempty linked absent (inOrder.respects vpn) enough with
    ⟨n, mem, found, same⟩ | ⟨landing, inner, found, lands, rfl, below, above⟩
  · exact .inl ⟨n, mem, by rw [found]; rfl, probe_eq.mp same⟩
  · refine .inr ⟨landing, inner, by rw [found]; rfl, lands, rfl, ?_, ?_, ?_⟩
    · exact fun n mem => (probe_gt.mp (below n mem)).2
    · exact fun n mem => probe_lt.mp (above n mem)
    · rw [deepens_plug below above, Deepens, and_true]

/-! ## Overlapping ranges -/

/-- A node and a range of pages have a page in common. -/
def Overlaps (m : Memory) (startVpn endVpn : Nat) (n : Addr) : Prop :=
  m.startingVpn n ≤ endVpn ∧ startVpn ≤ m.endingVpn n

/-- The search answers `NULL` only if no node overlaps the range. -/
theorem conflictLoop_spec {startVpn endVpn : Nat} (linked : Linked m.links null up t)
    (absent : null ∉ inorder t) (inOrder : InOrder m (inorder t)) (enough : (inorder t).length + 1 ≤ fuel) :
    ∃ answer, conflictLoop m startVpn endVpn fuel (rootOf null t) = some answer ∧
      (answer = null ↔ ∀ n ∈ inorder t, ¬ Overlaps m startVpn endVpn n) := by
  induction t generalizing up fuel with
  | nil =>
    obtain _ | fuel := fuel
    · simp at enough
    exact ⟨null, by simp [conflictLoop], by simp⟩
  | node a l r ihl ihr =>
    obtain _ | fuel := fuel
    · simp at enough
    obtain ⟨-, left, right, below, beyond⟩ := linked
    obtain ⟨orderL, orderR, rangeA, beforeA, afterA⟩ := inOrder.node
    simp only [inorder_node, mem_append, mem_cons, length_append, length_cons] at absent enough
    have present : ¬ a = null := fun eq => absent (.inr (.inl eq.symm))
    rw [rootOf_node, conflictLoop, if_neg present, left, right, inorder_node]
    simp only [forall_mem_append, forall_mem_cons]
    -- only the side the range lies on is searched
    by_cases behind : m.endingVpn a < startVpn
    · have apart : ∀ n ∈ inorder l, ¬ Overlaps m startVpn endVpn n := fun n mem overlaps => by
        have := beforeA n mem
        exact absurd overlaps.2 (by omega)
      obtain ⟨answer, found, nowhere⟩ := ihr beyond (by tauto) orderR (show _ + 1 ≤ fuel by omega)
      refine ⟨answer, by rw [if_pos behind, found],
        nowhere.trans ⟨fun none => ?_, fun none => none.2.2⟩⟩
      exact ⟨apart, fun overlaps => absurd overlaps.2 (by omega), none⟩
    · rw [if_neg behind]
      by_cases ahead : endVpn < m.startingVpn a
      · have apart : ∀ n ∈ inorder r, ¬ Overlaps m startVpn endVpn n := fun n mem overlaps => by
          have := afterA n mem
          exact absurd overlaps.1 (by omega)
        obtain ⟨answer, found, nowhere⟩ := ihl below (by tauto) orderL (show _ + 1 ≤ fuel by omega)
        refine ⟨answer, by rw [if_pos ahead, found], nowhere.trans ⟨fun none => ?_, And.left⟩⟩
        exact ⟨none, fun overlaps => absurd overlaps.1 (by omega), apart⟩
      · refine ⟨a, by rw [if_neg ahead], iff_of_false present fun none => none.2.1 ?_⟩
        exact ⟨by omega, by omega⟩

variable {node : Addr} {path : List (Crumb Addr)}

/-! ## The links of the new node -/

theorem hangLeft_eq (L : Links Addr) (parent node : Addr) : hangLeft null L parent node =
      (((L.setLeft node null).setRight node null).setLeft parent node).setParent node parent := by
  simp [hangLeft, blank, Links.setParent, Links.setLeft, Links.setRight, Function.update_idem]

theorem hangRight_eq (L : Links Addr) (parent node : Addr) : hangRight null L parent node =
      (((L.setLeft node null).setRight node null).setRight parent node).setParent node parent := by
  simp [hangRight, blank, Links.setParent, Links.setLeft, Links.setRight, Function.update_idem]

/-- The climb that begins where a node has been hung into the tree. -/
theorem insertLoop_start (fuel count : Nat) (sp : Space) (links : Links Addr) (parent node : Addr) :
    insertLoop fuel
        { sp with
          numberGenericTableElements := count
          memory := ((sp.memory.withLinks links).setBalance node 0).setBalance
            sp.balancedRoot (-1) }
        node parent =
      (growFrom null sp.balancedRoot balanceField fuel sp.memory.skeleton links parent node).map
        fun outcome =>
          { sp.climbed outcome.1
              (if outcome.2 then (sp.depthOfTree + 1) % 2 ^ 5 else sp.depthOfTree) with
            numberGenericTableElements := count } :=
  insertLoop_eq fuel { sp with numberGenericTableElements := count }
    (((sp.memory.skeleton.withLinks links).setBalance balanceField node 0).setBalance balanceField
      sp.balancedRoot (-1)) node parent

/-! ## The insertion -/

/-- A table and its tree: the links, the balances, the depth and the count are those of the
tree, and its ranges are in order. -/
structure Represents (s : Space) (t : BinaryTree Addr) : Prop where
  hangs : Hangs s.memory.links null s.balancedRoot t
  exact : Exact s.memory.balance t
  depth : s.depthOfTree = t.height
  count : s.numberGenericTableElements = (inorder t).length
  inOrder : InOrder s.memory (inorder t)

/-- The outcome of an insertion of `node` into the tree `t`. -/
structure Inserted (arch : Platform) (s s' : Space) (node : Addr) (t t' : BinaryTree Addr) :
    Prop where
  hangs : Hangs s'.memory.links null s'.balancedRoot t'
  exact : Exact s'.memory.balance t'
  sequence : ∃ xs ys, inorder t = xs ++ ys ∧ inorder t' = xs ++ node :: ys ∧
    (∀ n ∈ xs, s.memory.endingVpn n < s.memory.startingVpn node) ∧
    (∀ n ∈ ys, s.memory.startingVpn node < s.memory.startingVpn n)
  ranges : s.memory.SameRanges s'.memory
  root : s'.balancedRoot = s.balancedRoot
  count : s'.numberGenericTableElements = (s.numberGenericTableElements + 1) % 2 ^ arch.countBits
  growth : (Deepens s.memory (s.memory.startingVpn node) t ∧ t'.height = t.height + 1 ∧
      s'.depthOfTree = (s.depthOfTree + 1) % 2 ^ 5) ∨
    (¬ Deepens s.memory (s.memory.startingVpn node) t ∧ t'.height = t.height ∧
      s'.depthOfTree = s.depthOfTree)

variable {arch : Platform} {s : Space}

/-- The climb from a new leaf. -/
theorem insert_leaf {links : Links Addr} (represents : Represents s t)
    (fresh : node ∉ null :: s.balancedRoot :: inorder t)
    (place : Place s.memory (s.memory.startingVpn node) t path)
    (hangs : Hangs links null s.balancedRoot (plug (.node node .nil .nil) path))
    (enough : path.length + 1 ≤ fuel) :
    ∃ s' t', insertLoop fuel { s with
          numberGenericTableElements :=
            (s.numberGenericTableElements + 1) % 2 ^ arch.countBits
          memory := ((s.memory.withLinks links).setBalance node 0).setBalance s.balancedRoot (-1) }
        node (above s.balancedRoot path) = some s' ∧
      Inserted arch s s' node t t' := by
  obtain ⟨rfl, below, onward, level⟩ := place
  obtain ⟨k', arrived, t', run, hangs', exact', sequence, outcome⟩ := growFrom_spec
    balanceField_keeps (k := s.memory.skeleton) represents.hangs represents.exact fresh hangs enough
  refine ⟨_, t', (insertLoop_start _ _ _ _ _ _).trans (congrArg _ run), hangs', exact', ?_,
    ⟨rfl, rfl⟩, rfl, rfl, ?_⟩
  · exact ⟨before path, after path, by simp [inorder_plug], sequence, below, onward⟩
  · rw [height_plug, ← level]
    rcases outcome with ⟨even, height, rfl⟩ | ⟨uneven, height, rfl⟩
    · exact .inl ⟨even, height, rfl⟩
    · exact .inr ⟨uneven, height, rfl⟩

theorem insertNode_spec (represents : Represents s t)
    (fresh : node ∉ null :: s.balancedRoot :: inorder t)
    (disjoint : ∀ n ∈ inorder t, ¬ Overlaps s.memory (s.memory.startingVpn node) (s.memory.endingVpn node) n)
    (range : s.memory.startingVpn node ≤ s.memory.endingVpn node)
    (enough : (inorder t).length + 1 ≤ fuel) :
    ∃ s' t', insertNode arch fuel s node = some s' ∧ Inserted arch s s' node t t' := by
  have distinct := represents.hangs.distinct
  simp only [List.nodup_cons, List.mem_cons, not_or] at distinct
  by_cases empty : t = .nil
  · -- The tree is empty: the node hangs off the table.
    subst empty
    have find : findNodeOrParent fuel s (s.memory.startingVpn node) = some .emptyTree := by
      simp [findNodeOrParent, represents.count]
    have depth : s.depthOfTree = 0 := represents.depth
    have run : insertNode arch fuel s node = some { s with
        memory := (s.memory.withLinks (hangRight null s.memory.links s.balancedRoot
          node)).setBalance node 0
        depthOfTree := 1
        numberGenericTableElements :=
          (s.numberGenericTableElements + 1) % 2 ^ arch.countBits } := by
      rw [insertNode, find, hangRight_eq]
    exact ⟨_, .node node .nil .nil, run, hangs_first represents.hangs fresh,
      by simp [Exact, Memory.setBalance, balanceField], ⟨[], [], rfl, rfl, by simp, by simp⟩,
      ⟨rfl, rfl⟩, rfl, rfl, .inl ⟨trivial, rfl, by rw [depth]; rfl⟩⟩
  · have nonempty : ¬ s.numberGenericTableElements = 0 := by
      rw [represents.count]
      intro none
      exact empty (eq_nil_of_inorder (List.eq_nil_of_length_eq_zero none))
    have find := findLoop_spec (s.memory.startingVpn node) empty represents.hangs.linked
      distinct.1.2 represents.inOrder (show (inorder t).length ≤ fuel by omega)
    rw [← represents.hangs.anchor] at find
    rcases find with ⟨n, mem, -, low, high⟩ | ⟨landing, inner, found, lands, place⟩
    · exact absurd ⟨by omega, high⟩ (disjoint n mem)
    · have findEq : findNodeOrParent fuel s (s.memory.startingVpn node) = some (landed landing) := by
        rw [findNodeOrParent, if_neg nonempty, found]
      have short : inner.length + 1 ≤ fuel := by
        have ways := length_le_beside inner
        have size := (perm_plug inner (.nil : BinaryTree Addr)).length_eq
        rw [← place.shape] at size
        simp only [inorder_nil, List.nil_append] at size
        omega
      have hangs := represents.hangs
      rw [place.shape] at hangs
      cases lands with
      | left =>
        have leaf := hangs_hang hangs (place.shape ▸ fresh)
        simp only [hangLeft_eq] at leaf
        rw [insertNode, findEq]
        exact insert_leaf represents fresh place leaf short
      | right =>
        have leaf := hangs_hang hangs (place.shape ▸ fresh)
        simp only [hangRight_eq] at leaf
        rw [insertNode, findEq]
        exact insert_leaf represents fresh place leaf short

/-! ## Removing a node -/

/-- The outcome of the removal of a node that stood between `xs` and `ys`. -/
structure Removed (arch : Platform) (s s' : Space) (t t' : BinaryTree Addr)
    (xs ys : List Addr) : Prop where
  hangs : Hangs s'.memory.links null s'.balancedRoot t'
  exact : Exact s'.memory.balance t'
  sequence : inorder t' = xs ++ ys
  ranges : s.memory.SameRanges s'.memory
  root : s'.balancedRoot = s.balancedRoot
  count : s'.numberGenericTableElements =
    (s.numberGenericTableElements + (2 ^ arch.countBits - 1)) % 2 ^ arch.countBits
  height : (t'.height = t.height ∧ s'.depthOfTree = s.depthOfTree) ∨
    (t'.height + 1 = t.height ∧ s'.depthOfTree = (s.depthOfTree + (2 ^ 5 - 1)) % 2 ^ 5)

/-- **Removing a node leaves its neighbours in order.** -/
theorem removeNode_spec {xs ys : List Addr} (hangs : Hangs s.memory.links null s.balancedRoot t)
    (exact : Exact s.memory.balance t) (split : inorder t = xs ++ node :: ys)
    (enough : (inorder t).length + 1 ≤ fuel) :
    ∃ s' t', removeNode arch fuel s node = some s' ∧ Removed arch s s' t t' xs ys := by
  obtain ⟨k', shorter, t', run, hangs', exact', sequence, height⟩ := takeOut_spec
    balanceField_keeps (k := s.memory.skeleton) hangs exact split enough
  refine ⟨_, t', (removeNode_eq _ _ _ _).trans (congrArg _ run), hangs', exact', sequence,
    ⟨rfl, rfl⟩, rfl, rfl, ?_⟩
  rcases height with ⟨level, rfl⟩ | ⟨lower, rfl⟩
  · exact .inl ⟨level, by simp [Space.climbed]⟩
  · exact .inr ⟨lower, by simp [Space.climbed]⟩

end Ntoskrnl.Mm.Vad
