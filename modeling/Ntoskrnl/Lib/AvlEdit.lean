/-
# Ntoskrnl.Lib.AvlEdit -- hanging a node into a balanced tree and taking one out

A new node is hung into an empty place, without children, and the climb puts the
balances in order.  A node with at most one child is taken out of its place and the
climb follows; for a node with two children its neighbour on the longer side is taken
out, and only after the climb gets the place, the links and the balance of the node,
wherever the rotations have left it.  In the sequence the neighbour has stood next to
the node, so the node is all that is missing in the end.
-/
import Ntoskrnl.Lib.AvlClimb

namespace Ntoskrnl.Lib.Avl

set_option autoImplicit false

open Lib.LinkedTree Lib.SplayTree
open Function (update update_of_ne update_self)
open List hiding after

variable {α : Type} [DecidableEq α]

attribute [local grind =] nodup_cons nodup_append inorder_node inorder_nil

/-! ## The two changes -/

section Definitions

variable (null top : α) (store : Int → Int)

variable (fuel : Nat) (L : Links α) (k : Skeleton α) (parent node : α)

/-- The links of a node that is nowhere yet. -/
def blank : Links α :=
  ((L.setParent node null).setLeft node null).setRight node null

/-- The node becomes the left child of `parent`. -/
def hangLeft : Links α :=
  ((blank null L node).setLeft parent node).setParent node parent

/-- The node becomes the right child of `parent`. -/
def hangRight : Links α :=
  ((blank null L node).setRight parent node).setParent node parent

/-- The climb from a node that has just been hung below `parent` with the given links. -/
def growFrom (links : Links α) (parent node : α) : Option (Skeleton α × Bool) :=
  growLoop null top store fuel
    (((k.withLinks links).setBalance store node 0).setBalance store top (-1)) node parent

/-- The node that is taken out of its place: the node itself, if it has at most one child, else
its neighbour on the longer side. -/
def easyDelete : Option α :=
  if k.links.left node = null ∨ k.links.right node = null then some node
  else if 0 ≤ k.balance node then leftmost null k.links fuel (k.links.right node)
  else rightmost null k.links fuel (k.links.left node)

/-- The only child of a node takes its place. -/
def unlink (easy : α) : Links α :=
  let parent := L.parent easy
  let child := if L.left easy = null then L.right easy else L.left easy
  (L.replaceChild parent easy child).adopt null child parent

/-- The stand-in `easy` takes the place, the links and the balance of `node`. -/
def standIn (easy : α) : Skeleton α :=
  let L := k.links
  let parent := L.parent node
  let copied := ((L.setParent easy parent).setLeft easy (L.left node)).setRight easy (L.right node)
  let placed := copied.replaceChild parent node easy
  { links := (placed.adopt null (placed.left easy) easy).adopt null (placed.right easy) easy
    balance := update k.balance easy (k.balance node) }

/-- A node is taken out; and whether the whole tree has become shorter. -/
def takeOut : Option (Skeleton α × Bool) :=
  match easyDelete null fuel k node with
  | none => none
  | some easy =>
    let a : Int := if k.links.left (k.links.parent easy) = easy then -1 else 1
    let unlinked := (k.withLinks (unlink null k.links easy)).setBalance store top 0
    match shrinkLoop null top store fuel unlinked (unlinked.links.parent easy) a with
    | none => none
    | some (k, shorter) =>
      some (if node ≠ easy then standIn null k node easy else k, shorter)

end Definitions

variable {null top : α} {store : Int → Int} {L : Links α} {k : Skeleton α}
  {path : List (Crumb α)} {node : α}

/-! ## A new leaf -/

/-- The links of a node and of its child in one place. -/
def ChildIs (L L' : Links α) (crumb : Crumb α) (child : α) : Prop :=
  match crumb with
  | .leftOf p _ => L'.left p = child ∧ L'.right p = L.right p
  | .rightOf _ p => L'.left p = L.left p ∧ L'.right p = child

variable {crumb : Crumb α}

omit [DecidableEq α] in
/-- A node that was nowhere is hung into an empty place. -/
theorem hangs_leaf {L' : Links α} (hangs : Hangs L null top (plug .nil (crumb :: path)))
    (fresh : node ∉ null :: top :: inorder (plug .nil (crumb :: path)))
    (others : ∀ a, a ≠ node → a ≠ stepNode crumb → SameAt L L' a)
    (own : L'.parent node = stepNode crumb ∧ L'.left node = null ∧ L'.right node = null)
    (parent : L'.parent (stepNode crumb) = L.parent (stepNode crumb))
    (child : ChildIs L L' crumb node) :
    Hangs L' null top (plug (.node node .nil .nil) (crumb :: path)) := by
  obtain ⟨self, noLeft, -, way, distinct⟩ := hangs_plug.mp hangs
  have apart : ∀ a ∈ null :: top :: (inorder .nil ++ beside (crumb :: path)), a ≠ node := by
    rintro a mem rfl
    refine fresh ?_
    rw [mem_cons, mem_cons, (perm_plug _ _).mem_iff]
    simpa using mem
  rw [hangs_plug]
  rcases crumb with ⟨p, s⟩ | ⟨s, p⟩ <;>
  · obtain ⟨up, left, right, other, way⟩ := way
    simp only [beside, before, after, inorder_nil, nil_append, nodup_cons,
      nodup_append, mem_cons, mem_append] at distinct apart
    have topSame := others top (by grind) (show top ≠ p by grind)
    refine ⟨topSame.1.trans self, topSame.2.1.trans noLeft,
      ⟨own.1, own.2.1, own.2.2, trivial, trivial⟩,
      ⟨parent.trans up, by simp [child.1, left, rootOf_node],
        by simp [child.2, right, rootOf_node], ?_, ?_⟩, ?_⟩
    · exact other.congr fun a mem => others a (by grind) (show a ≠ p by grind)
    · refine way.congr (fun a mem => others a ?_ ?_) topSame.2.2 <;>
        (simp only [stepNode, beside, mem_append] at mem ⊢; grind)
    · simp only [beside, before, after, inorder_node, inorder_nil, nil_append,
        nodup_cons, nodup_append, mem_cons, mem_append]
      grind

variable {t child : BinaryTree α} {easy : α} {xs : List α}

omit [DecidableEq α] in
/-- A node that was nowhere is not the parent it is hung below. -/
theorem fresh_ne_step (fresh : node ∉ null :: top :: inorder (plug t (crumb :: path))) :
    stepNode crumb ≠ node := by
  rintro rfl
  refine fresh (mem_cons_of_mem _ (mem_cons_of_mem _ ?_))
  rw [(perm_plug _ _).mem_iff]
  cases crumb <;> simp [stepNode, beside, before, after]

variable {s : BinaryTree α}

/-- The node is hung on the side that is empty. -/
theorem hangs_hang (hangs : Hangs L null top (plug .nil (crumb :: path)))
    (fresh : node ∉ null :: top :: inorder (plug .nil (crumb :: path))) :
    Hangs (match crumb with
      | .leftOf p _ => hangLeft null L p node
      | .rightOf _ p => hangRight null L p node) null top
      (plug (.node node .nil .nil) (crumb :: path)) := by
  have ne := fresh_ne_step fresh
  have ne' := ne.symm
  refine hangs_leaf hangs fresh (fun a other step => ?_) ?_ ?_ ?_ <;>
    cases crumb <;> rw [stepNode] at *
  all_goals simp [SameAt, ChildIs, hangLeft, hangRight, blank, update_of_ne, *]

/-- The first node of a tree is hung off the anchor. -/
theorem hangs_first (hangs : Hangs L null top .nil) (fresh : node ∉ [null, top]) :
    Hangs (hangRight null L top node) null top (.node node .nil .nil) := by
  have distinct := hangs.distinct
  simp only [mem_cons, not_mem_nil, or_false, not_or] at fresh
  have ne : top ≠ node := .symm fresh.2
  refine ⟨?_, ?_, ?_, ⟨?_, ?_, ?_, trivial, trivial⟩, ?_⟩
  · simpa [hangRight, blank, update_of_ne ne] using hangs.self
  · simpa [hangRight, blank, update_of_ne ne] using hangs.noLeft
  · simp [hangRight]
  · simp [hangRight]
  · simp [hangRight, blank]
  · simp [hangRight, blank, update_of_ne fresh.2]
  · grind

variable {fuel : Nat}

/-- **The climb from a new leaf.** -/
theorem growFrom_spec (keeps : Keeps store) {links : Links α}
    (hangs : Hangs k.links null top (plug .nil path)) (exact : Exact k.balance (plug .nil path))
    (fresh : node ∉ null :: top :: inorder (plug .nil path))
    (leaf : Hangs links null top (plug (.node node .nil .nil) path))
    (enough : path.length + 1 ≤ fuel) :
    ∃ k' arrived t', growFrom null top store fuel k links (above top path) node =
        some (k', arrived) ∧ Hangs k'.links null top t' ∧ Exact k'.balance t' ∧
      inorder t' = before path ++ node :: after path ∧ Grown k path 0 t' arrived := by
  have distinct := hangs.distinct
  simp only [nodup_cons] at distinct
  simp only [mem_cons, not_or] at fresh
  have members : ∀ a ∈ before path ++ after path, a ∈ inorder (plug .nil path) := by
    rw [inorder_plug]
    simp
  have same : ∀ a ∈ before path ++ after path,
      (((k.withLinks links).setBalance store node 0).setBalance store top (-1)).balance a =
        k.balance a := by
    intro a mem
    have neNode : a ≠ node := fun eq => fresh.2.2 (eq ▸ members a mem)
    have neTop : a ≠ top := fun eq => distinct.2.1 (eq ▸ members a mem)
    simp [update_of_ne neNode, update_of_ne neTop]
  have even : Exact
      (((k.withLinks links).setBalance store node 0).setBalance store top (-1)).balance
        (.node node .nil .nil) := by
    simp [Exact, update_of_ne fresh.2.1, keeps.zero]
  have way := ((exact_plug path .nil).mp exact).2
  obtain ⟨k', arrived, t', run, settled, outcome⟩ := growLoop_spec keeps (h := 0)
    (k := ((k.withLinks links).setBalance store node 0).setBalance store top (-1)) leaf even
    (way.congr same) rfl (.inl rfl) (by simp [keeps.negOne]) enough
  refine ⟨k', arrived, t', run, settled.hangs, settled.exact, ?_, ?_⟩
  · rw [settled.sequence, inorder_plug]
    simp
  · rw [Grown, level_congr same] at outcome
    exact outcome

/-! ## Taking a node out of its place -/

/-- The only child of a node takes its place. -/
theorem hangs_unlink {l r : BinaryTree α} (hangs : Hangs L null top (plug (.node node l r) path))
    (only : (l = .nil ∧ child = r) ∨ (r = .nil ∧ child = l)) :
    Hangs (unlink null L node) null top (plug child path) := by
  obtain ⟨-, -, ⟨parent, left, right, below, beyond⟩, -, distinct⟩ := hangs_plug.mp hangs
  have present : rootOf null (.node node l r) ≠ null := by
    rw [rootOf_node]
    rintro rfl
    simp at distinct
  have linked : Linked L null node child := by
    rcases only with ⟨-, rfl⟩ | ⟨-, rfl⟩
    · exact beyond
    · exact below
  have fewer : (null :: top :: (inorder child ++ beside path)).Nodup := by
    rcases only with ⟨rfl, rfl⟩ | ⟨rfl, rfl⟩
    · simp only [inorder_node, inorder_nil, nil_append, nodup_cons, cons_append,
        mem_cons] at distinct ⊢
      tauto
    · simp only [inorder_node, inorder_nil, nodup_cons, append_assoc,
        singleton_append, nodup_middle, mem_cons, mem_append] at distinct ⊢
      tauto
  have replaced := hangs.replace present (fun b _ => ⟨rfl, rfl, rfl⟩) linked fewer
  have child : (if L.left node = null then L.right node else L.left node) = rootOf null child := by
    rw [left, right]
    rcases only with ⟨rfl, rfl⟩ | ⟨rfl, rfl⟩
    · rw [rootOf_nil, if_pos rfl]
    · split
      next eq => rw [eq, rootOf_nil]
      next => rfl
  rw [unlink, child, parent]
  exact replaced

/-- Whether a node is a left child tells the side, also right below the anchor. -/
theorem left_sideOf (hangs : Hangs L null top (plug t path)) (tall : 0 < t.height) :
    (if L.left (above top path) = rootOf null t then -1 else 1) = sideOf path := by
  cases path with
  | nil =>
    obtain ⟨a, l, r, rfl⟩ := exists_node_of_height tall
    have noLeft := (hangs_plug.mp hangs).2.1
    have distinct := (hangs_plug.mp hangs).2.2.2.2
    refine if_neg ?_
    rw [above, noLeft]
    rintro rfl
    simp at distinct
  | cons =>
    rw [above_cons]
    exact left_side hangs tall

/-- Taking out a node with at most one child, and climbing. -/
theorem shrinkLoop_easy (keeps : Keeps store) {l r : BinaryTree α}
    (hangs : Hangs k.links null top (plug (.node easy l r) path))
    (exact : Exact k.balance (plug (.node easy l r) path))
    (only : (l = .nil ∧ child = r) ∨ (r = .nil ∧ child = l)) (enough : path.length + 1 ≤ fuel) :
    ∃ k' shorter t', shrinkLoop null top store fuel
        ((k.withLinks (unlink null k.links easy)).setBalance store top 0)
        ((unlink null k.links easy).parent easy)
        (if k.links.left (k.links.parent easy) = easy then -1 else 1) = some (k', shorter) ∧
      Settled null top k' (plug child path) t' ∧
      Shrunk path (BinaryTree.node easy l r).height t' shorter := by
  have parent : k.links.parent easy = above top path := parent_root hangs (by simp)
  have side : (if k.links.left (above top path) = easy then -1 else 1) = sideOf path :=
    left_sideOf hangs (by simp)
  have distinct := (hangs_plug.mp hangs).2.2.2.2
  obtain ⟨-, left, right, -⟩ := (hangs_plug.mp hangs).2.2.1
  -- The node that is taken out still knows its parent.
  have kept : (unlink null k.links easy).parent easy = above top path := by
    rw [unlink, Links.adopt_parent_other, Links.replaceChild_parent, parent]
    have apart : ∀ s : BinaryTree α, easy ∉ inorder s → easy ≠ rootOf null s := by
      intro s outside eq
      exact outside (rootOf_mem eq.symm (by grind))
    rw [left, right]
    split
    · exact apart r (by grind)
    · exact apart l (by grind)
  obtain ⟨exactNode, way⟩ := (exact_plug path (.node easy l r)).mp exact
  obtain ⟨-, -, -, exactL, exactR⟩ := exactNode
  have exactChild : Exact k.balance child := by
    rcases only with ⟨-, rfl⟩ | ⟨-, rfl⟩
    · exact exactR
    · exact exactL
  have height : (BinaryTree.node easy l r).height = child.height + 1 := by
    rcases only with ⟨rfl, rfl⟩ | ⟨rfl, rfl⟩ <;> simp
  have wayNext : ExactPath
      ((k.withLinks (unlink null k.links easy)).setBalance store top 0).balance path
        (BinaryTree.node easy l r).height := by
    refine way.congr fun a mem => update_of_ne ?_ ..
    simp only [beside] at distinct
    grind
  rw [kept, parent, side]
  exact shrinkLoop_spec keeps (k := (k.withLinks (unlink null k.links easy)).setBalance store top 0)
    (hangs_unlink hangs only) (exactChild.update (by grind)) wayNext height
    (by simp [keeps.zero]) enough

/-! ## The neighbour in the place of the node -/

theorem hangs_standIn {l r : BinaryTree α}
    (hangs : Hangs k.links null top (plug (.node node l r) path))
    (fresh : easy ∉ null :: top :: inorder (plug (.node node l r) path)) :
    Hangs (standIn null k node easy).links null top (plug (.node easy l r) path) := by
  obtain ⟨-, -, ⟨parent, left, right, below, beyond⟩, -, distinct⟩ := hangs_plug.mp hangs
  rw [mem_cons, mem_cons, (perm_plug _ _).mem_iff] at fresh
  have distinct' : (null :: top :: (inorder (.node easy l r) ++ beside path)).Nodup := by
    grind
  have aboveMem := above_mem top path
  have rootOut : ∀ s : BinaryTree α, ∀ a, a ∉ inorder s → a ≠ null → a ≠ rootOf null s := by
    intro s a outside nonnull eq
    exact outside (rootOf_mem eq.symm nonnull)
  let copied := ((k.links.setParent easy (above top path)).setLeft easy (rootOf null l)).setRight
    easy (rootOf null r)
  let turned := (copied.adopt null (rootOf null l) easy).adopt null (rootOf null r) easy
  have same : ∀ b, b ≠ easy → b ≠ rootOf null l → b ≠ rootOf null r → SameAt k.links turned b := by
    intro b ne neL neR
    refine ⟨?_, ?_, ?_⟩ <;>
      simp [turned, copied, Links.adopt_parent_other null _ neL,
        Links.adopt_parent_other null _ neR, update_of_ne ne]
  have parentEasy : turned.parent easy = above top path := by
    have neL : easy ≠ rootOf null l := rootOut l easy (by grind) (by grind)
    have neR : easy ≠ rootOf null r := rootOut r easy (by grind) (by grind)
    simp [turned, copied, Links.adopt_parent_other null _ neL, Links.adopt_parent_other null _ neR]
  have linked : Linked turned null (above top path) (.node easy l r) := by
    refine ⟨parentEasy, by simp [turned, copied], by simp [turned, copied], ?_, ?_⟩
    · refine below.rehang (by grind) (fun b mem => ?_) (fun b mem other => ?_) fun b mem eq => ?_
      · have ne : b ≠ easy := by grind
        simp [turned, copied, update_of_ne ne]
      · exact (same b (by grind) other (rootOut r b (by grind) (by grind))).1
      · have neR := rootOut r b (by grind) (by grind)
        have present : rootOf null l ≠ null := by grind
        rw [Links.adopt_parent_other null _ neR, eq]
        exact Links.adopt_parent_child _ present
    · refine beyond.rehang (by grind) (fun b mem => ?_) (fun b mem other => ?_) fun b mem eq => ?_
      · have ne : b ≠ easy := by grind
        simp [turned, copied, update_of_ne ne]
      · exact (same b (by grind) (rootOut l b (by grind) (by grind)) other).1
      · have present : rootOf null r ≠ null := by grind
        rw [eq]
        exact Links.adopt_parent_child _ present
  have replaced := hangs.replace (by simp; grind)
    (fun b mem => same b ?_ (rootOut l b ?_ ?_) (rootOut r b ?_ ?_)) linked distinct'
  · -- The source writes the same links in another order.
    have ne : easy ≠ above top path := by grind
    rw [Links.adopt_self null (by
      rw [Links.replaceChild_parent]; exact parentEasy)] at replaced
    have links : (standIn null k node easy).links =
        turned.replaceChild (above top path) node easy := by
      let placed := copied.replaceChild (above top path) node easy
      have children : placed.left easy = copied.left easy ∧ placed.right easy = copied.right easy :=
        copied.replaceChild_other ne
      have leftEasy : copied.left easy = rootOf null l := by simp [copied]
      have rightEasy : copied.right easy = rootOf null r := by simp [copied]
      simp only [turned, Links.replaceChild_adopt]
      have stands : (standIn null k node easy).links =
          (placed.adopt null (placed.left easy) easy).adopt null (placed.right easy) easy := by
        rw [standIn, parent, left, right]
      rw [stands, children.1, children.2, leftEasy, rightEasy]
    rw [links]
    exact replaced
  all_goals
    grind

variable {zs : List α}

/-- The neighbour takes the place of the node in the sequence, and the tree keeps its height. -/
theorem standIn_spec (hangs : Hangs k.links null top t) (exact : Exact k.balance t)
    (sequence : inorder t = xs ++ node :: zs) (fresh : easy ∉ null :: top :: inorder t) :
    ∃ t', Hangs (standIn null k node easy).links null top t' ∧
      Exact (standIn null k node easy).balance t' ∧ inorder t' = xs ++ easy :: zs ∧
      t'.height = t.height := by
  obtain ⟨path, l, r, rfl, rfl, rfl⟩ := Hangs.at_node hangs sequence
  refine ⟨plug (.node easy l r) path, hangs_standIn hangs fresh, ?_, by simp [inorder_plug], ?_⟩
  · obtain ⟨⟨factor, low, high, exactL, exactR⟩, way⟩ := (exact_plug path _).mp exact
    have outside : ∀ a ∈ inorder l ++ inorder r ++ (before path ++ after path), a ≠ easy := by
      rintro a mem rfl
      refine fresh ?_
      rw [inorder_plug]
      simp only [inorder_node, mem_append, mem_cons] at mem ⊢
      tauto
    have other : ∀ a ∈ inorder l ++ inorder r ++ (before path ++ after path),
        (standIn null k node easy).balance a = k.balance a := by
      intro a mem
      exact update_of_ne (outside a mem) ..
    have own : (standIn null k node easy).balance easy = k.balance node :=
      update_self ..
    refine (exact_plug path _).mpr ⟨⟨own.trans factor, own ▸ low, own ▸ high, ?_, ?_⟩, ?_⟩
    · exact exactL.congr fun a mem => other a (by simp [mem])
    · exact exactR.congr fun a mem => other a (by simp [mem])
    · exact way.congr fun a mem => other a (mem_append_right _ mem)
  · rw [height_plug, height_plug]
    rfl

/-! ## The removal -/

/-- The outcome of taking out a node: what is left of the sequence, and whether the whole tree is
shorter. -/
structure TakenOut (null top : α) (k' : Skeleton α) (shorter : Bool) (t t' : BinaryTree α)
    (rest : List α) : Prop where
  hangs : Hangs k'.links null top t'
  exact : Exact k'.balance t'
  sequence : inorder t' = rest
  height : (t'.height = t.height ∧ shorter = false) ∨ (t'.height + 1 = t.height ∧ shorter)

/-- A node is taken out, and the others are left. -/
def TakesOut (null top : α) (store : Int → Int) (fuel : Nat) (k : Skeleton α) (node : α)
    (t : BinaryTree α) (rest : List α) : Prop :=
  ∃ k' shorter t', takeOut null top store fuel k node = some (k', shorter) ∧
    TakenOut null top k' shorter t t' rest

variable {l r : BinaryTree α}

omit [DecidableEq α] in
theorem length_path_le : path.length ≤ (inorder (plug t path)).length := by
  have ways := length_le_beside path
  have size := (perm_plug path t).length_eq
  rw [length_append] at size
  omega

/-- The node has at most one child: it is taken out itself. -/
theorem takeOut_self (keeps : Keeps store)
    (hangs : Hangs k.links null top (plug (.node node l r) path))
    (exact : Exact k.balance (plug (.node node l r) path))
    (only : (l = .nil ∧ child = r) ∨ (r = .nil ∧ child = l))
    (enough : (inorder (plug (.node node l r) path)).length + 1 ≤ fuel) :
    TakesOut null top store fuel k node (plug (.node node l r) path)
      (before path ++ inorder l ++ (inorder r ++ after path)) := by
  obtain ⟨-, left, right, -⟩ := (hangs_plug.mp hangs).2.2.1
  have easy : easyDelete null fuel k node = some node := by
    rw [easyDelete, if_pos]
    rw [left, right]
    rcases only with ⟨rfl, -⟩ | ⟨rfl, -⟩
    · exact .inl rfl
    · exact .inr rfl
  obtain ⟨k', shorter, t', run, settled, outcome⟩ := shrinkLoop_easy keeps hangs exact only
    (show path.length + 1 ≤ fuel from (Nat.succ_le_succ length_path_le).trans enough)
  refine ⟨k', shorter, t', ?_, settled.hangs, settled.exact, ?_, ?_⟩
  · rw [takeOut, easy]
    dsimp only
    rw [Skeleton.setBalance_links, Skeleton.withLinks_links, run]
    simp
  · rw [settled.sequence, inorder_plug]
    rcases only with ⟨rfl, rfl⟩ | ⟨rfl, rfl⟩ <;> simp
  · rw [height_plug]
    exact outcome

/-- A neighbour is taken out of its place and then stands in for the node. -/
theorem takeOut_neighbour (keeps : Keeps store) {l' r' : BinaryTree α}
    (hangs : Hangs k.links null top t) (exact : Exact k.balance t)
    (shape : t = plug (.node easy l' r') path)
    (only : (l' = .nil ∧ child = r') ∨ (r' = .nil ∧ child = l'))
    (found : easyDelete null fuel k node = some easy)
    (rest : inorder (plug child path) = xs ++ node :: zs) (enough : (inorder t).length + 1 ≤ fuel) :
    TakesOut null top store fuel k node t (xs ++ easy :: zs) := by
  subst shape
  obtain ⟨k₁, shorter, t₁, run, settled, outcome⟩ := shrinkLoop_easy keeps hangs exact only
    (show path.length + 1 ≤ fuel from (Nat.succ_le_succ length_path_le).trans enough)
  have distinct := (hangs_plug.mp hangs).2.2.2.2
  -- The neighbour is not in the tree any more.
  have gone : easy ∉ inorder (plug child path) := by
    rw [(perm_plug path child).mem_iff]
    rcases only with ⟨-, rfl⟩ | ⟨-, rfl⟩ <;> grind
  have fresh : easy ∉ null :: top :: inorder t₁ := by
    rw [settled.sequence]
    grind
  have ne : node ≠ easy := by
    rintro rfl
    exact gone (by simp [rest])
  obtain ⟨t', hangs', exact', sequence, height⟩ := standIn_spec settled.hangs settled.exact
    (settled.sequence.trans rest) fresh
  refine ⟨standIn null k₁ node easy, shorter, t', ?_, hangs', exact', sequence, ?_⟩
  · rw [takeOut, found]
    dsimp only
    rw [Skeleton.setBalance_links, Skeleton.withLinks_links, run]
    simp [ne]
  · rw [height_plug, height]
    exact outcome

omit [DecidableEq α] in
theorem exists_node (some : t ≠ .nil) : ∃ a l r, t = .node a l r := by
  cases t with
  | nil => exact absurd rfl some
  | node a l r => exact ⟨a, l, r, rfl⟩

/-- **Removing a node leaves its neighbours in order.** -/
theorem takeOut_spec (keeps : Keeps store) {ys : List α} (hangs : Hangs k.links null top t)
    (exact : Exact k.balance t) (split : inorder t = xs ++ node :: ys)
    (enough : (inorder t).length + 1 ≤ fuel) :
    TakesOut null top store fuel k node t (xs ++ ys) := by
  obtain ⟨path, l, r, rfl, rfl, rfl⟩ := Hangs.at_node hangs split
  by_cases small : l = .nil ∨ r = .nil
  · rcases small with rfl | rfl
    · exact takeOut_self keeps hangs exact (.inl ⟨rfl, rfl⟩) enough
    · exact takeOut_self keeps hangs exact (.inr ⟨rfl, rfl⟩) enough
  rw [not_or] at small
  have distinct := (hangs_plug.mp hangs).2.2.2.2
  obtain ⟨-, left, right, below, beyond⟩ := (hangs_plug.mp hangs).2.2.1
  have size := (perm_plug path (.node node l r)).length_eq
  obtain ⟨a, al, ar, rfl⟩ := exists_node small.1
  obtain ⟨b, bl, br, rfl⟩ := exists_node small.2
  have absent : null ∉ inorder (.node a al ar) ∧ null ∉ inorder (.node b bl br) ∧ a ≠ null ∧
      b ≠ null := by
    grind
  have both : ¬ (k.links.left node = null ∨ k.links.right node = null) := by
    rw [left, right]
    tauto
  rw [inorder_node, length_append, length_append, length_cons] at size
  by_cases heavy : 0 ≤ k.balance node
  · -- The successor stands in.
    obtain ⟨easy, r', inner, found, shape, edge⟩ := leftmost_eq beyond absent.2.1
      (show _ ≤ fuel by omega) (.rightOf (.node a al ar) node :: path)
    have easyFound : easyDelete null fuel k node = some easy := by
      rw [easyDelete, if_neg both, if_pos heavy, right, rootOf_node, found]
    have same := congrArg inorder shape
    rw [inorder_plug, inorder_plug, before_append, after_append, edge, append_nil,
      append_assoc, append_assoc] at same
    have tail := append_cancel_left same
    simp only [after] at tail
    have taken := takeOut_neighbour keeps hangs exact shape (.inl ⟨rfl, rfl⟩) easyFound
      (show _ = (before path ++ inorder (.node a al ar)) ++ node ::
          (inorder r' ++ (after inner ++ after path)) by
        rw [inorder_plug, before_append, after_append, edge]
        simp [before, after]) enough
    rw [tail]
    simpa using taken
  · -- The predecessor stands in.
    obtain ⟨easy, l', inner, found, shape, edge⟩ := rightmost_eq below absent.1
      (show _ ≤ fuel by omega) (.leftOf node (.node b bl br) :: path)
    have easyFound : easyDelete null fuel k node = some easy := by
      rw [easyDelete, if_neg both, if_neg heavy, left, rootOf_node, found]
    have same := congrArg inorder shape
    rw [inorder_plug, inorder_plug, before_append, after_append, edge] at same
    have head := append_cancel_right same
    simp only [before] at head
    have taken := takeOut_neighbour keeps hangs exact shape (.inr ⟨rfl, rfl⟩) easyFound
      (show _ = (before path ++ before inner ++ inorder l') ++ node ::
          (inorder (.node b bl br) ++ after path) by
        rw [inorder_plug, before_append, after_append, edge]
        simp [before, after]) enough
    rw [head]
    simpa using taken

end Ntoskrnl.Lib.Avl
