/-
# Ntoskrnl.Lib.LinkedTree -- trees of nodes with parent links

A binary tree in memory: every node has the address of its parent and of its two
children, an absent child is `null`, and the whole tree hangs off the right child
of an anchor that is its own parent.  The addresses are the labels of a
`BinaryTree`; `Hangs L null top t` says that the links `L` are those of `t`.

A pointer into the tree is a subtree and the way back up to the anchor.  The
links of a plugged tree are those of the subtree and those of the way
(`hangs_plug`), so that a change near one node is proved with a frame lemma on
either side of it.

The walks to the neighbours of a node take fuel; with fuel for the nodes of the tree
they end where its inorder sequence says.
-/
import Mathlib.Data.List.Nodup
import Ntoskrnl.Lib.SplayTree

namespace Ntoskrnl.Lib.LinkedTree

open Lib.SplayTree
open Function (update update_eq_self update_of_ne)
open List hiding after

set_option autoImplicit false

variable {α : Type}

/-! ## Links -/

/-- The link fields of all nodes. -/
structure Links (α : Type) where
  parent : α → α
  left : α → α
  right : α → α

variable {a child parent null top up : α} {L L' : Links α} {path : List (Crumb α)}
  {t : BinaryTree α} {old : α}

namespace Links

variable [DecidableEq α]

def setParent (L : Links α) (a v : α) : Links α := { L with parent := update L.parent a v }

def setLeft (L : Links α) (a v : α) : Links α := { L with left := update L.left a v }

def setRight (L : Links α) (a v : α) : Links α := { L with right := update L.right a v }

section Fields

variable (L : Links α) (a v : α)

@[simp] theorem setParent_parent : (L.setParent a v).parent = update L.parent a v := rfl
@[simp] theorem setParent_left : (L.setParent a v).left = L.left := rfl
@[simp] theorem setParent_right : (L.setParent a v).right = L.right := rfl
@[simp] theorem setLeft_parent : (L.setLeft a v).parent = L.parent := rfl
@[simp] theorem setLeft_left : (L.setLeft a v).left = update L.left a v := rfl
@[simp] theorem setLeft_right : (L.setLeft a v).right = L.right := rfl
@[simp] theorem setRight_parent : (L.setRight a v).parent = L.parent := rfl
@[simp] theorem setRight_left : (L.setRight a v).left = L.left := rfl
@[simp] theorem setRight_right : (L.setRight a v).right = update L.right a v := rfl

end Fields

/-- Put `new` where `g` has `old` as a child: on the left if it is there, else on the right. -/
def replaceChild (L : Links α) (g old new : α) : Links α :=
  if L.left g = old then L.setLeft g new else L.setRight g new

@[simp] theorem replaceChild_parent (L : Links α) (g old new : α) :
    (L.replaceChild g old new).parent = L.parent := by
  unfold replaceChild
  split <;> rfl

theorem replaceChild_other (L : Links α) {g new : α} (other : a ≠ g) :
    (L.replaceChild g old new).left a = L.left a ∧
      (L.replaceChild g old new).right a = L.right a := by
  unfold replaceChild
  split <;> simp [update_of_ne other]

/-- A node is hung below `parent`, where there is one. -/
def adopt (L : Links α) (null child parent : α) : Links α :=
  if child ≠ null then L.setParent child parent else L

@[simp] theorem adopt_left (null : α) (L : Links α) (child parent : α) :
    (L.adopt null child parent).left = L.left := by
  unfold adopt
  split <;> rfl

@[simp] theorem adopt_right (null : α) (L : Links α) (child parent : α) :
    (L.adopt null child parent).right = L.right := by
  unfold adopt
  split <;> rfl

theorem adopt_parent_other (null : α) (L : Links α) (other : a ≠ child) :
    (L.adopt null child parent).parent a = L.parent a := by
  unfold adopt
  split
  · exact update_of_ne other ..
  · rfl

theorem adopt_parent_child (L : Links α) (present : child ≠ null) :
    (L.adopt null child parent).parent child = parent := by
  simp [adopt, present]

theorem replaceChild_adopt (null : α) (L : Links α) (child parent g old new : α) :
    (L.adopt null child parent).replaceChild g old new =
      (L.replaceChild g old new).adopt null child parent := by
  unfold replaceChild
  rw [adopt_left]
  unfold adopt
  split <;> split <;> rfl

theorem adopt_self (null : α) (same : L.parent child = parent) : L.adopt null child parent = L := by
  unfold adopt setParent
  rw [← same, update_eq_self]
  split <;> rfl

end Links

/-! ## The links of a tree -/

/-- The address of the root of a tree, `null` for no tree. -/
def rootOf (null : α) : BinaryTree α → α
  | .nil => null
  | .node a _ _ => a

@[simp] theorem rootOf_nil (null : α) : rootOf null .nil = null := rfl

@[simp] theorem rootOf_node (null a : α) (l r : BinaryTree α) :
    rootOf null (.node a l r) = a := rfl

/-- The nodes of the tree are linked, below a node `up`. -/
def Linked (L : Links α) (null : α) : α → BinaryTree α → Prop
  | _, .nil => True
  | up, .node a l r => L.parent a = up ∧ L.left a = rootOf null l ∧ L.right a = rootOf null r ∧
      Linked L null a l ∧ Linked L null a r

/-- The node above a subtree. -/
def above (top : α) : List (Crumb α) → α
  | [] => top
  | .leftOf a _ :: _ => a
  | .rightOf _ a :: _ => a

/-- The nodes of the way up are linked, around a subtree whose root is `hole`. -/
def LinkedPath (L : Links α) (null top : α) : List (Crumb α) → α → Prop
  | [], hole => L.right top = hole
  | .leftOf a r :: path, hole => L.parent a = above top path ∧ L.left a = hole ∧
      L.right a = rootOf null r ∧ Linked L null a r ∧ LinkedPath L null top path a
  | .rightOf l a :: path, hole => L.parent a = above top path ∧ L.left a = rootOf null l ∧
      L.right a = hole ∧ Linked L null a l ∧ LinkedPath L null top path a

/-- The tree hangs off the right child of the anchor `top`. -/
structure Hangs (L : Links α) (null top : α) (t : BinaryTree α) : Prop where
  self : L.parent top = top
  noLeft : L.left top = null
  anchor : L.right top = rootOf null t
  linked : Linked L null top t
  distinct : (null :: top :: inorder t).Nodup

theorem Hangs.absent (hangs : Hangs L null top t) : null ∉ inorder t := by
  have distinct := hangs.distinct
  simp only [nodup_cons, mem_cons] at distinct
  tauto

/-- The nodes of the way up and of the subtrees beside it. -/
def beside (path : List (Crumb α)) : List α := before path ++ after path

theorem linked_plug (path : List (Crumb α)) (t : BinaryTree α) :
    (Linked L null top (plug t path) ∧ L.right top = rootOf null (plug t path)) ↔
      Linked L null (above top path) t ∧ LinkedPath L null top path (rootOf null t) := by
  induction path generalizing t with
  | nil => rfl
  | cons crumb path ih =>
    cases crumb <;>
    · rw [plug, ih]
      simp only [Linked, rootOf_node, above, LinkedPath]
      tauto

theorem perm_plug (path : List (Crumb α)) (t : BinaryTree α) :
    (inorder (plug t path)).Perm (inorder t ++ beside path) := by
  rw [inorder_plug, append_assoc]
  exact perm_append_comm_assoc _ _ _

/-- What hangs is a subtree and the way up from it. -/
theorem hangs_plug : Hangs L null top (plug t path) ↔ L.parent top = top ∧ L.left top = null ∧
        Linked L null (above top path) t ∧ LinkedPath L null top path (rootOf null t) ∧
        (null :: top :: (inorder t ++ beside path)).Nodup := by
  have perm : (null :: top :: inorder (plug t path)).Perm
      (null :: top :: (inorder t ++ beside path)) := ((perm_plug path t).cons top).cons null
  constructor
  · intro hangs
    have parts := (linked_plug path t).mp ⟨hangs.linked, hangs.anchor⟩
    exact ⟨hangs.self, hangs.noLeft, parts.1, parts.2, perm.nodup_iff.mp hangs.distinct⟩
  · rintro ⟨self, noLeft, linked, way, distinct⟩
    have parts := (linked_plug path t).mpr ⟨linked, way⟩
    exact ⟨self, noLeft, parts.2, parts.1, perm.nodup_iff.mpr distinct⟩

/-- Every node of a tree is the root of a subtree of it. -/
theorem exists_plug (mem : a ∈ inorder t) : ∃ path l r, t = plug (.node a l r) path := by
  suffices ∀ outer, ∃ path l r, plug t outer = plug (.node a l r) path from this []
  induction t with
  | nil => simp at mem
  | node b l r ihl ihr =>
    intro outer
    simp only [inorder_node, mem_append, mem_cons] at mem
    rcases mem with mem | rfl | mem
    · exact ihl mem (.leftOf b r :: outer)
    · exact ⟨outer, l, r, rfl⟩
    · exact ihr mem (.rightOf l b :: outer)

/-! ## Frames -/

def SameAt (L L' : Links α) (a : α) : Prop :=
  L'.parent a = L.parent a ∧ L'.left a = L.left a ∧ L'.right a = L.right a

theorem rootOf_mem (isRoot : rootOf null t = a) (ne : a ≠ null) : a ∈ inorder t := by
  cases t with
  | nil => exact absurd isRoot.symm ne
  | node =>
    rw [rootOf_node] at isRoot
    simp [isRoot]

theorem Linked.congr (linked : Linked L null up t) (same : ∀ a ∈ inorder t, SameAt L L' a) :
    Linked L' null up t := by
  induction t generalizing up with
  | nil => exact linked
  | node a l r ihl ihr =>
    obtain ⟨parent, left, right, below, beyond⟩ := linked
    obtain ⟨sameParent, sameLeft, sameRight⟩ := same a (by simp)
    refine ⟨sameParent.trans parent, sameLeft.trans left, sameRight.trans right, ?_, ?_⟩
    · exact ihl below fun b mem => same b (by simp [mem])
    · exact ihr beyond fun b mem => same b (by simp [mem])

/-- A subtree hung below another node: only the parent of its root has changed. -/
theorem Linked.rehang {up' : α} (linked : Linked L null up t) (nodup : (inorder t).Nodup)
    (children : ∀ a ∈ inorder t, L'.left a = L.left a ∧ L'.right a = L.right a)
    (parents : ∀ a ∈ inorder t, a ≠ rootOf null t → L'.parent a = L.parent a)
    (moved : ∀ a ∈ inorder t, a = rootOf null t → L'.parent a = up') : Linked L' null up' t := by
  cases t with
  | nil => trivial
  | node a l r =>
    obtain ⟨parent, left, right, below, beyond⟩ := linked
    obtain ⟨sameLeft, sameRight⟩ := children a (by simp)
    rw [inorder_node, nodup_middle, nodup_cons] at nodup
    have apart : ∀ b ∈ inorder l ++ inorder r, SameAt L L' b := by
      intro b mem
      have ne : b ≠ a := fun eq => nodup.1 (eq ▸ mem)
      have inside : b ∈ inorder (.node a l r) := by
        simp only [inorder_node, mem_append, mem_cons] at mem ⊢
        tauto
      exact ⟨parents b inside ne, children b inside⟩
    refine ⟨moved a (by simp) rfl, sameLeft.trans left, sameRight.trans right, ?_, ?_⟩
    · exact below.congr fun b mem => apart b (mem_append_left _ mem)
    · exact beyond.congr fun b mem => apart b (mem_append_right _ mem)

theorem above_mem (top : α) (path : List (Crumb α)) : above top path ∈ top :: beside path := by
  cases path with
  | nil => simp [above]
  | cons crumb => cases crumb <;> simp [above, beside, before, after]

theorem LinkedPath.congr {hole : α} (linked : LinkedPath L null top path hole)
    (same : ∀ a ∈ beside path, SameAt L L' a) (sameTop : L'.right top = L.right top) :
    LinkedPath L' null top path hole := by
  induction path generalizing hole with
  | nil => exact sameTop.trans linked
  | cons crumb path ih =>
    -- the same on both sides
    rcases crumb with ⟨a, other⟩ | ⟨other, a⟩ <;>
    · obtain ⟨parent, left, right, linked, way⟩ := linked
      obtain ⟨sameParent, sameLeft, sameRight⟩ := same a (by simp [beside, before, after])
      refine ⟨sameParent.trans parent, sameLeft.trans left, sameRight.trans right, ?_, ?_⟩
      · exact linked.congr fun b mem => same b (by simp [beside, before, after, mem])
      · refine ih way fun b mem => same b ?_
        simp only [beside, before, after, mem_append, mem_cons] at mem ⊢
        tauto

/-- Replacing the child above a subtree leaves the rest of the way as it is. -/
theorem LinkedPath.replaceChild [DecidableEq α] (new : α) (linked : LinkedPath L null top path old)
    (ne : old ≠ null) (outside : old ∉ beside path) (nodup : (null :: top :: beside path).Nodup)
    (noLeft : L.left top = null) :
    LinkedPath (L.replaceChild (above top path) old new) null top path new := by
  cases path with
  | nil =>
    have right : ¬ L.left top = old := fun eq => ne (eq.symm.trans noLeft)
    simp [LinkedPath, above, Links.replaceChild, right]
  | cons crumb path =>
    cases crumb with
    | leftOf a r =>
      obtain ⟨parent, left, right, beyond, way⟩ := linked
      have apart : ∀ b ∈ inorder r ++ beside path, b ≠ a := by
        rintro b mem rfl
        simp only [beside, before, after, nodup_cons, cons_append,
          nodup_middle, mem_append] at nodup mem
        tauto
      have same : ∀ b ∈ inorder r ++ beside path, SameAt L (L.setLeft a new) b := by
        intro b mem
        exact ⟨rfl, update_of_ne (apart b mem) .., rfl⟩
      simp only [above, Links.replaceChild, left, if_true]
      refine ⟨parent, by simp, right, ?_, ?_⟩
      · exact beyond.congr fun b mem => same b (mem_append_left _ mem)
      · exact way.congr (fun b mem => same b (mem_append_right _ mem)) rfl
    | rightOf l a =>
      obtain ⟨parent, left, right, below, way⟩ := linked
      have apart : ∀ b ∈ inorder l ++ beside path, b ≠ a := by
        rintro b mem rfl
        simp only [beside, before, after, nodup_cons, append_assoc,
          singleton_append, mem_append] at nodup mem
        rw [← append_assoc, nodup_middle, nodup_cons] at nodup
        simp only [mem_append] at nodup
        tauto
      have topApart : top ≠ a := by
        rintro rfl
        simp [beside, before] at nodup
      -- the left child is compared first, so it has to be another node
      have notLeft : ¬ L.left a = old := by
        intro eq
        rw [left] at eq
        have mem := rootOf_mem eq ne
        exact outside (by simp [beside, before, mem])
      have same : ∀ b ∈ inorder l ++ beside path, SameAt L (L.setRight a new) b := by
        intro b mem
        exact ⟨rfl, rfl, update_of_ne (apart b mem) ..⟩
      simp only [above, Links.replaceChild, notLeft, if_false]
      refine ⟨parent, left, by simp, ?_, ?_⟩
      · exact below.congr fun b mem => same b (mem_append_left _ mem)
      · exact way.congr (fun b mem => same b (mem_append_right _ mem)) (update_of_ne topApart ..)

/-- **One subtree is put in the place of another.**  The new one is already linked inside,
its root has still to be made the child and to get the parent of the old root. -/
theorem Hangs.replace [DecidableEq α] {turned : Links α} {t' : BinaryTree α}
    (hangs : Hangs L null top (plug t path)) (present : rootOf null t ≠ null)
    (outside : ∀ b ∈ top :: beside path, SameAt L turned b) (linked : Linked turned null up t')
    (distinct : (null :: top :: (inorder t' ++ beside path)).Nodup) :
    Hangs ((turned.replaceChild (above top path) (rootOf null t) (rootOf null t')).adopt null
      (rootOf null t') (above top path)) null top (plug t' path) := by
  obtain ⟨self, noLeft, -, way, nodup⟩ := hangs_plug.mp hangs
  have aboveMem := above_mem top path
  have inside : ∀ b ∈ inorder t', b ∉ top :: beside path := by
    grind
  have apart : ∀ b ∈ top :: beside path, b ≠ rootOf null t' := by
    rintro b mem rfl
    cases t' with
    | nil =>
      simp only [nodup_cons, mem_cons, mem_append] at distinct mem
      tauto
    | node a => exact inside a (by simp) mem
  have oldOutside : rootOf null t ∉ beside path := by
    have mem := rootOf_mem rfl present
    simp only [nodup_cons, nodup_append] at nodup
    exact fun other => nodup.2.2.2.2 _ mem _ other rfl
  have besideNodup : (null :: top :: beside path).Nodup := by
    simp only [nodup_cons, nodup_append, mem_cons, mem_append] at nodup ⊢
    tauto
  have topSame := outside top (by simp)
  have turnedNoLeft : turned.left top = null := topSame.2.1.trans noLeft
  rw [hangs_plug]
  -- the anchor, its empty left side, the new subtree and the way up from it
  refine ⟨?_, ?_, ?_, ?_, distinct⟩
  · rw [Links.adopt_parent_other null _ (apart top (by simp)), Links.replaceChild_parent]
    exact topSame.1.trans self
  · rw [Links.adopt_left]
    by_cases anchor : top = above top path
    · have right : ¬ turned.left (above top path) = rootOf null t := by
        rw [← anchor, turnedNoLeft]
        exact fun eq => present eq.symm
      simp [Links.replaceChild, right, turnedNoLeft]
    · rw [(turned.replaceChild_other anchor).1, turnedNoLeft]
  · have nodupNew : (inorder t').Nodup := by
      simp only [nodup_cons, nodup_append] at distinct
      exact distinct.2.2.1
    refine linked.rehang nodupNew ?_ ?_ ?_
    · intro b mem
      rw [Links.adopt_left, Links.adopt_right]
      exact turned.replaceChild_other fun eq => inside b mem (eq ▸ aboveMem)
    · intro b mem other
      rw [Links.adopt_parent_other null _ other, Links.replaceChild_parent]
    · rintro b mem rfl
      refine Links.adopt_parent_child _ fun eq => ?_
      simp only [nodup_cons, mem_cons, mem_append] at distinct
      rw [eq] at mem
      tauto
  · have turnedWay := way.congr (fun b mem => outside b (mem_cons_of_mem _ mem)) topSame.2.2
    have replaced := turnedWay.replaceChild (rootOf null t') present oldOutside besideNodup
      turnedNoLeft
    refine replaced.congr (fun b mem => ⟨?_, by simp, by simp⟩) (by simp)
    exact Links.adopt_parent_other null _ (apart b (mem_cons_of_mem _ mem))

variable [DecidableEq α]

/-- The walk to the left as far as it goes. -/
def leftmost (null : α) (L : Links α) : Nat → α → Option α
  | 0, _ => none
  | fuel + 1, node =>
    if L.left node ≠ null then leftmost null L fuel (L.left node) else some node

/-- The walk to the right as far as it goes. -/
def rightmost (null : α) (L : Links α) : Nat → α → Option α
  | 0, _ => none
  | fuel + 1, node =>
    if L.right node ≠ null then rightmost null L fuel (L.right node) else some node

/-- The walk up as long as the node is a right child. -/
def climbRight (L : Links α) : Nat → α → Option α
  | 0, _ => none
  | fuel + 1, ptr =>
    if L.right (L.parent ptr) = ptr then climbRight L fuel (L.parent ptr) else some ptr

/-- The walk up as long as the node is a left child. -/
def climbLeft (L : Links α) : Nat → α → Option α
  | 0, _ => none
  | fuel + 1, ptr =>
    if L.left (L.parent ptr) = ptr then climbLeft L fuel (L.parent ptr) else some ptr

/-- The next node of the whole tree, `null` after the last one. -/
def successor (null : α) (L : Links α) (fuel : Nat) (node : α) : Option α :=
  if L.right node ≠ null then leftmost null L fuel (L.right node)
  else
    match climbRight L fuel node with
    | none => none
    | some ptr => some (if L.left (L.parent ptr) = ptr then L.parent ptr else null)

/-- The previous node of the whole tree, `null` before the first one: the anchor, which is its
own parent, is not a node of the tree. -/
def predecessor (null : α) (L : Links α) (fuel : Nat) (node : α) : Option α :=
  if L.left node ≠ null then rightmost null L fuel (L.left node)
  else
    match climbLeft L fuel node with
    | none => none
    | some ptr =>
      some (if L.right (L.parent ptr) = ptr ∧ L.parent (L.parent ptr) ≠ L.parent ptr then
        L.parent ptr else null)

variable {L : Links α} {null top : α}

/-! ## Down to the edge of a subtree -/

variable {a up x : α} {l r t : BinaryTree α} {fuel : Nat} {xs ys : List α} {path : List (Crumb α)}

section Edge

variable (linked : Linked L null up (.node a l r)) (absent : null ∉ inorder (.node a l r))
  (enough : (inorder (.node a l r)).length ≤ fuel)

include linked absent enough

/-- The walk to the left ends at a node without a left child, and nothing is before it. -/
theorem leftmost_eq (path : List (Crumb α)) : ∃ b r' inner, leftmost null L fuel a = some b ∧
      plug (.node a l r) path = plug (.node b .nil r') (inner ++ path) ∧ before inner = [] := by
  induction l generalizing a up r fuel path with
  | nil =>
    cases fuel with
    | zero => simp at enough
    | succ => exact ⟨a, r, [], by simp [leftmost, linked.2.1], rfl, rfl⟩
  | node b l' r' ih =>
    cases fuel with
    | zero => simp at enough
    | succ fuel =>
      obtain ⟨-, left, -, below, -⟩ := linked
      have present : b ≠ null := fun eq => absent (by simp [eq])
      have room : (inorder (.node b l' r')).length ≤ fuel := by
        simp only [inorder_node, length_append, length_cons] at enough ⊢
        omega
      obtain ⟨c, r'', inner, found, shape, edge⟩ :=
        ih below (fun mem => absent (by simp at mem ⊢; tauto)) room (.leftOf a r :: path)
      refine ⟨c, r'', inner ++ [.leftOf a r], ?_, ?_, ?_⟩
      · simp [leftmost, left, present, found]
      · rw [append_assoc]
        exact shape
      · simp [before_append, before, edge]

/-- The walk to the right ends at a node without a right child, and nothing is after it. -/
theorem rightmost_eq (path : List (Crumb α)) : ∃ b l' inner, rightmost null L fuel a = some b ∧
      plug (.node a l r) path = plug (.node b l' .nil) (inner ++ path) ∧ after inner = [] := by
  induction r generalizing a up l fuel path with
  | nil =>
    cases fuel with
    | zero => simp at enough
    | succ => exact ⟨a, l, [], by simp [rightmost, linked.2.2.1], rfl, rfl⟩
  | node b l' r' _ ih =>
    cases fuel with
    | zero => simp at enough
    | succ fuel =>
      obtain ⟨-, -, right, -, beyond⟩ := linked
      have present : b ≠ null := fun eq => absent (by simp [eq])
      have room : (inorder (.node b l' r')).length ≤ fuel := by
        simp only [inorder_node, length_append, length_cons] at enough ⊢
        omega
      obtain ⟨c, l'', inner, found, shape, edge⟩ :=
        ih beyond (fun mem => absent (by simp at mem ⊢; tauto)) room (.rightOf l a :: path)
      refine ⟨c, l'', inner ++ [.rightOf l a], ?_, ?_, ?_⟩
      · simp [rightmost, right, present, found]
      · rw [append_assoc]
        exact shape
      · simp [after_append, after, edge]

theorem leftmost_head : leftmost null L fuel a = some ((inorder (.node a l r)).headD null) := by
  obtain ⟨b, r', inner, found, shape, edge⟩ := leftmost_eq linked absent enough []
  have := congrArg inorder shape
  rw [inorder_plug, inorder_plug, append_nil, edge] at this
  simp only [before, after, nil_append, append_nil] at this
  simp [found, this]

theorem rightmost_last :
    rightmost null L fuel a = some ((inorder (.node a l r)).getLastD null) := by
  obtain ⟨b, l', inner, found, shape, edge⟩ := rightmost_eq linked absent enough []
  have := congrArg inorder shape
  rw [inorder_plug, inorder_plug, append_nil, edge] at this
  simp only [before, after, nil_append, append_nil, inorder_node, inorder_nil] at this
  rw [found, inorder_node, this, ← append_assoc, getLastD_concat]

end Edge

/-! ## A node in the sequence -/

omit [DecidableEq α] in
theorem length_le_beside (path : List (Crumb α)) : path.length ≤ (beside path).length := by
  induction path with
  | nil => simp
  | cons crumb path ih =>
    cases crumb <;> simp only [beside, before, after, length_append, length_cons] at ih ⊢ <;> omega

omit [DecidableEq α] in
/-- A node of the tree as a subtree with the nodes before it and after it. -/
theorem Hangs.at_node (hangs : Hangs L null top t) (split : inorder t = xs ++ x :: ys) :
    ∃ path l r, t = plug (.node x l r) path ∧ xs = before path ++ inorder l ∧
      ys = inorder r ++ after path := by
  obtain ⟨path, l, r, rfl⟩ := exists_plug (t := t) (a := x) (by simp [split])
  have nodup := hangs.distinct
  rw [inorder_plug] at split
  have same : (before path ++ inorder l) ++ x :: (inorder r ++ after path) = xs ++ x :: ys := by
    rw [← split]
    simp
  rw [inorder_plug, inorder_node] at nodup
  have apart : x ∉ before path ++ inorder l ∧ x ∉ inorder r ++ after path := by
    grind
  obtain ⟨eqXs, -, eqYs⟩ := (append_cons_inj_of_notMem apart.1 apart.2).mp same
  exact ⟨path, l, r, rfl, eqXs.symm, eqYs.symm⟩

/-! ## The way up from a node -/

/-- A node below a way up that is linked, apart from all nodes beside it. -/
structure OnWay (L : Links α) (null top : α) (path : List (Crumb α)) (node : α) : Prop where
  self : L.parent top = top
  noLeft : L.left top = null
  parent : L.parent node = above top path
  way : LinkedPath L null top path node
  distinct : (null :: node :: top :: beside path).Nodup

omit [DecidableEq α] in
theorem Hangs.onWay (hangs : Hangs L null top (plug (.node x l r) path)) :
    OnWay L null top path x := by
  obtain ⟨self, noLeft, ⟨parent, -⟩, way, distinct⟩ := hangs_plug.mp hangs
  refine ⟨self, noLeft, parent, way, ?_⟩
  simp only [inorder_node, nodup_cons, nodup_append, mem_cons, mem_append] at distinct ⊢
  grind

omit [DecidableEq α] in
theorem length_lt_plug (path : List (Crumb α)) (x : α) (l r : BinaryTree α) :
    path.length < (inorder (plug (.node x l r) path)).length := by
  have ways := length_le_beside path
  rw [(perm_plug path (.node x l r)).length_eq, inorder_node]
  simp only [length_append, length_cons]
  omega

namespace OnWay

variable {node a : α}

omit [DecidableEq α]

theorem at_top (on : OnWay L null top [] node) :
    L.parent node = top ∧ top ≠ node ∧ null ≠ top ∧ null ≠ node ∧ L.right top = node := by
  have distinct := on.distinct
  simp only [nodup_cons, mem_cons, not_or] at distinct
  exact ⟨on.parent, fun eq => distinct.2.1.1 eq.symm, distinct.1.2.1, distinct.1.1, on.way⟩

theorem at_left (on : OnWay L null top (.leftOf a r :: path) node) :
    L.parent node = a ∧ a ≠ node ∧ L.left a = node ∧ L.right a ≠ node := by
  obtain ⟨-, left, right, -, -⟩ := on.way
  have distinct := on.distinct
  simp only [beside, after, nodup_cons, mem_cons, mem_append] at distinct
  refine ⟨on.parent, by grind, left, fun eq => ?_⟩
  rw [right] at eq
  have mem := rootOf_mem eq (by grind)
  grind

theorem at_right (on : OnWay L null top (.rightOf l a :: path) node) :
    L.parent node = a ∧ a ≠ node ∧ L.right a = node ∧ L.left a ≠ node ∧ L.parent a ≠ a := by
  obtain ⟨up, left, right, -, -⟩ := on.way
  have inside := above_mem top path
  have distinct := on.distinct
  simp only [beside, before, after, nodup_cons, mem_cons, mem_append,
    nodup_append] at distinct inside
  refine ⟨on.parent, by grind, right, fun eq => ?_, by grind⟩
  rw [left] at eq
  have mem := rootOf_mem eq (by grind)
  grind

theorem higher {crumb : Crumb α} (on : OnWay L null top (crumb :: path) node) :
    OnWay L null top path (above top (crumb :: path)) := by
  have distinct := on.distinct
  cases crumb <;>
  · obtain ⟨up, -, -, -, way⟩ := on.way
    refine ⟨on.self, on.noLeft, up, way, ?_⟩
    simp only [above, beside, before, after, nodup_cons, mem_cons, mem_append,
      nodup_append] at distinct ⊢
    grind

end OnWay

/-! ## Up to a neighbour -/

/-- The climb past right children leads below the first node after the hole. -/
theorem climbRight_eq {node : α} (on : OnWay L null top path node)
    (enough : path.length + 2 ≤ fuel) :
    ∃ ptr, climbRight L fuel node = some ptr ∧
      (if L.left (L.parent ptr) = ptr then L.parent ptr else null) = (after path).headD null := by
  induction path generalizing node fuel with
  | nil =>
    obtain ⟨fuel, rfl⟩ : ∃ n, fuel = n + 2 := ⟨fuel - 2, by simp at enough; omega⟩
    obtain ⟨parent, ne, notNull, -, right⟩ := on.at_top
    refine ⟨top, ?_, ?_⟩
    · simp [climbRight, parent, right, on.self, ne.symm]
    · simp [on.self, on.noLeft, notNull, after]
  | cons crumb path ih =>
    obtain ⟨fuel, rfl⟩ := Nat.exists_eq_add_of_lt enough
    cases crumb with
    | leftOf =>
      obtain ⟨parent, -, left, notRight⟩ := on.at_left
      exact ⟨node, by simp [climbRight, parent, notRight], by simp [parent, left, after]⟩
    | rightOf =>
      obtain ⟨parent, -, right, -⟩ := on.at_right
      simp only [climbRight, parent, right, if_true, after]
      exact ih on.higher (by simp)

/-- The climb past left children leads below the last node before the hole. -/
theorem climbLeft_eq {node : α} (on : OnWay L null top path node)
    (enough : path.length + 1 ≤ fuel) :
    ∃ ptr, climbLeft L fuel node = some ptr ∧
      (if L.right (L.parent ptr) = ptr ∧ L.parent (L.parent ptr) ≠ L.parent ptr then
        L.parent ptr else null) = (before path).getLastD null := by
  induction path generalizing node fuel with
  | nil =>
    obtain ⟨fuel, rfl⟩ := Nat.exists_eq_add_of_lt enough
    obtain ⟨parent, -, -, notLeft, -⟩ := on.at_top
    refine ⟨node, ?_, ?_⟩
    · simp [climbLeft, parent, on.noLeft, notLeft]
    · simp [parent, on.self, before]
  | cons crumb path ih =>
    obtain ⟨fuel, rfl⟩ := Nat.exists_eq_add_of_lt enough
    cases crumb with
    | leftOf =>
      obtain ⟨parent, -, left, -⟩ := on.at_left
      simp only [climbLeft, parent, left, if_true, before]
      exact ih on.higher (by simp)
    | rightOf =>
      obtain ⟨parent, -, right, notLeft, notTop⟩ := on.at_right
      refine ⟨node, by simp [climbLeft, parent, notLeft], ?_⟩
      simp [parent, right, notTop, before]

/-! ## The neighbours in the whole tree -/

section Sides

variable (hangs : Hangs L null top (plug (.node x l r) path))
  (enough : (inorder (plug (.node x l r) path)).length ≤ fuel)

include hangs enough

/-- To the right of a node is nothing, or the subtree that begins with the next node. -/
theorem Hangs.right_cases : (L.right x = null ∧ inorder r = []) ∨ (L.right x ≠ null ∧
      leftmost null L fuel (L.right x) = some ((inorder r ++ after path).headD null)) := by
  obtain ⟨-, -, ⟨-, -, right, -, beyond⟩, -, distinct⟩ := hangs_plug.mp hangs
  rw [(perm_plug path (.node x l r)).length_eq] at enough
  simp only [inorder_node, nodup_cons, mem_cons, mem_append,
    length_append, length_cons] at distinct enough
  cases r with
  | nil => exact .inl ⟨right, rfl⟩
  | node b l' r' =>
    have absent : null ∉ inorder (.node b l' r') := by tauto
    have present : b ≠ null := by
      rintro rfl
      simp at absent
    rw [right, rootOf_node, leftmost_head beyond absent (by omega)]
    exact .inr ⟨present, by simp [headD_eq_head?_getD, head?_append]⟩

/-- To the left of a node is nothing, or the subtree that ends with the previous node. -/
theorem Hangs.left_cases : (L.left x = null ∧ inorder l = []) ∨ (L.left x ≠ null ∧
      rightmost null L fuel (L.left x) = some ((before path ++ inorder l).getLastD null)) := by
  obtain ⟨-, -, ⟨-, left, -, below, -⟩, -, distinct⟩ := hangs_plug.mp hangs
  rw [(perm_plug path (.node x l r)).length_eq] at enough
  simp only [inorder_node, nodup_cons, mem_cons, mem_append,
    length_append, length_cons] at distinct enough
  cases l with
  | nil => exact .inl ⟨left, rfl⟩
  | node b l' r' =>
    have absent : null ∉ inorder (.node b l' r') := by tauto
    have present : b ≠ null := by
      rintro rfl
      simp at absent
    rw [left, rootOf_node, rightmost_last below absent (by omega)]
    exact .inr ⟨present, by
      simp [getLastD_eq_getLast?, getLast?_append, getLast?_cons]⟩

end Sides

section Neighbours

variable (hangs : Hangs L null top t) (split : inorder t = xs ++ x :: ys)
  (enough : (inorder t).length + 1 ≤ fuel)

include hangs split enough

/-- **The successor is the next node of the sequence.** -/
theorem successor_eq : successor null L fuel x = some (ys.headD null) := by
  obtain ⟨path, l, r, rfl, rfl, rfl⟩ := hangs.at_node split
  have short := length_lt_plug path x l r
  rcases hangs.right_cases (show _ ≤ fuel by omega) with ⟨none, empty⟩ | ⟨present, found⟩
  · obtain ⟨ptr, climb, answer⟩ := climbRight_eq hangs.onWay (show _ ≤ fuel by omega)
    rw [successor, if_neg (not_not_intro none), climb]
    simp [answer, empty]
  · rw [successor, if_pos present, found]

/-- **The predecessor is the previous node of the sequence.** -/
theorem predecessor_eq : predecessor null L fuel x = some (xs.getLastD null) := by
  obtain ⟨path, l, r, rfl, rfl, rfl⟩ := hangs.at_node split
  have short := length_lt_plug path x l r
  rcases hangs.left_cases (show _ ≤ fuel by omega) with ⟨none, empty⟩ | ⟨present, found⟩
  · obtain ⟨ptr, climb, answer⟩ := climbLeft_eq hangs.onWay (show _ ≤ fuel by omega)
    rw [predecessor, if_neg (not_not_intro none), climb]
    simp [answer, empty]
  · rw [predecessor, if_pos present, found]

end Neighbours

end Ntoskrnl.Lib.LinkedTree
