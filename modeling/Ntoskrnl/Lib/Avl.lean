/-
# Ntoskrnl.Lib.Avl -- balance factors and turns

Each node of a tree in memory has a balance, the height of its right subtree minus
that of its left one, and it is at most one either way (`Exact`).  A pass that climbs
from a subtree to the root knows the balances on its way as they were for the height
the subtree had before (`ExactPath`).

The only change of shape is that a node rises above its parent and the subtree between
them changes hands.  A node whose longer side has become two levels longer than the
other is put in order by one or two such steps: the subtree is balanced then, its
sequence is the same, and it is as high as before or one level lower, which the answer
tells.  How a balance is stored is left open (`store`), as long as the three values
that occur are kept.
-/
import Mathlib.Algebra.Group.Nat.Defs
import Mathlib.Algebra.Ring.Int.Defs
import Mathlib.Order.Lattice
import Ntoskrnl.Lib.LinkedTree

namespace Ntoskrnl.Lib.Avl

open Lib.SplayTree

set_option autoImplicit false

variable {α : Type}

/-- The balances are exact, and at most one either way. -/
def Exact (balance : α → Int) : BinaryTree α → Prop
  | .nil => True
  | .node a l r => balance a = (r.height : Int) - l.height ∧ -1 ≤ balance a ∧ balance a ≤ 1 ∧
      Exact balance l ∧ Exact balance r

/-- The height of the whole tree, for a subtree of height `h`. -/
def heightAt : List (Crumb α) → Nat → Nat
  | [], h => h
  | .leftOf _ r :: path, h => heightAt path (max h r.height + 1)
  | .rightOf l _ :: path, h => heightAt path (max l.height h + 1)

/-- The balances on the way up are exact, for a subtree of height `h`. -/
def ExactPath (balance : α → Int) : List (Crumb α) → Nat → Prop
  | [], _ => True
  | .leftOf a r :: path, h => balance a = (r.height : Int) - h ∧ -1 ≤ balance a ∧ balance a ≤ 1 ∧
      Exact balance r ∧ ExactPath balance path (max h r.height + 1)
  | .rightOf l a :: path, h => balance a = (h : Int) - l.height ∧ -1 ≤ balance a ∧ balance a ≤ 1 ∧
      Exact balance l ∧ ExactPath balance path (max l.height h + 1)

/-- Every node on the way up has two sides of one height. -/
def Level (balance : α → Int) : List (Crumb α) → Prop
  | [] => True
  | .leftOf a _ :: path => balance a = 0 ∧ Level balance path
  | .rightOf _ a :: path => balance a = 0 ∧ Level balance path

/-! ## One step up

What a climb does at a node is the same on both sides up to a sign. -/

def stepNode : Crumb α → α
  | .leftOf a _ => a
  | .rightOf _ a => a

/-- The subtree on the other side. -/
def stepOther : Crumb α → BinaryTree α
  | .leftOf _ r => r
  | .rightOf l _ => l

/-- Which side the climb comes from: what a level more on it adds to the balance. -/
def stepSide : Crumb α → Int
  | .leftOf _ _ => -1
  | .rightOf _ _ => 1

/-- The subtree one step up. -/
def join (crumb : Crumb α) (t : BinaryTree α) : BinaryTree α :=
  match crumb with
  | .leftOf a r => .node a t r
  | .rightOf l a => .node a l t

theorem stepSide_cases (crumb : Crumb α) : stepSide crumb = 1 ∨ stepSide crumb = -1 := by
  cases crumb <;> simp [stepSide]

theorem plug_cons (t : BinaryTree α) (crumb : Crumb α) (path : List (Crumb α)) :
    plug t (crumb :: path) = plug (join crumb t) path := by
  cases crumb <;> rfl

theorem height_join (crumb : Crumb α) (t : BinaryTree α) :
    (join crumb t).height = max t.height (stepOther crumb).height + 1 := by
  cases crumb with
  | leftOf => rfl
  | rightOf => simp [join, stepOther, max_comm]

theorem heightAt_cons (crumb : Crumb α) (path : List (Crumb α)) (h : Nat) :
    heightAt (crumb :: path) h = heightAt path (max h (stepOther crumb).height + 1) := by
  cases crumb with
  | leftOf => rfl
  | rightOf => simp [heightAt, stepOther, max_comm]

variable {crumb : Crumb α} {path : List (Crumb α)} {t : BinaryTree α}

variable {balance balance' : α → Int} {h : Nat}

theorem level_cons :
    Level balance (crumb :: path) ↔ balance (stepNode crumb) = 0 ∧ Level balance path := by
  cases crumb <;> rfl

theorem exact_join : Exact balance (join crumb t) ↔
      (balance (stepNode crumb) = stepSide crumb * (t.height - (stepOther crumb).height) ∧
        -1 ≤ balance (stepNode crumb) ∧ balance (stepNode crumb) ≤ 1) ∧
      Exact balance t ∧ Exact balance (stepOther crumb) := by
  cases crumb with
  | leftOf =>
    simp only [join, Exact, stepNode, stepSide, stepOther, neg_mul, one_mul, neg_sub]
    tauto
  | rightOf =>
    simp only [join, Exact, stepNode, stepSide, stepOther, one_mul]
    tauto

theorem exactPath_cons : ExactPath balance (crumb :: path) h ↔
      (balance (stepNode crumb) = stepSide crumb * (h - (stepOther crumb).height) ∧
        -1 ≤ balance (stepNode crumb) ∧ balance (stepNode crumb) ≤ 1) ∧
      Exact balance (stepOther crumb) ∧
      ExactPath balance path (max h (stepOther crumb).height + 1) := by
  cases crumb with
  | leftOf =>
    simp only [ExactPath, stepNode, stepSide, stepOther, neg_mul, one_mul, neg_sub]
    tauto
  | rightOf =>
    simp only [ExactPath, stepNode, stepSide, stepOther, one_mul, max_comm]
    tauto

theorem height_plug (path : List (Crumb α)) (t : BinaryTree α) :
    (plug t path).height = heightAt path t.height := by
  induction path generalizing t with
  | nil => rfl
  | cons crumb path ih => cases crumb <;> simp [plug, heightAt, ih, BinaryTree.height]

theorem exact_plug (path : List (Crumb α)) (t : BinaryTree α) :
    Exact balance (plug t path) ↔ Exact balance t ∧ ExactPath balance path t.height := by
  induction path generalizing t with
  | nil => simp [plug, ExactPath]
  | cons crumb path ih =>
    cases crumb <;> rw [plug, ih] <;> simp only [Exact, ExactPath, BinaryTree.height] <;> tauto

theorem Exact.congr (exact : Exact balance t) (same : ∀ a ∈ inorder t, balance' a = balance a) :
    Exact balance' t := by
  induction t with
  | nil => trivial
  | node a l r ihl ihr =>
    obtain ⟨factor, low, high, left, right⟩ := exact
    have here := same a (by simp)
    refine ⟨here.trans factor, here ▸ low, here ▸ high, ?_, ?_⟩
    · exact ihl left fun b mem => same b (by simp [mem])
    · exact ihr right fun b mem => same b (by simp [mem])

theorem Exact.update [DecidableEq α] {a : α} {v : Int} (exact : Exact balance t)
    (outside : a ∉ inorder t) : Exact (Function.update balance a v) t :=
  exact.congr fun b mem => Function.update_of_ne (fun eq : b = a => outside (eq ▸ mem)) ..

theorem ExactPath.congr (exact : ExactPath balance path h)
    (same : ∀ a ∈ before path ++ after path, balance' a = balance a) :
    ExactPath balance' path h := by
  induction path generalizing h with
  | nil => trivial
  | cons crumb path ih =>
    rcases crumb with ⟨a, other⟩ | ⟨other, a⟩ <;>
    · obtain ⟨factor, low, high, exact, way⟩ := exact
      have here := same a (by simp [before, after])
      refine ⟨here.trans factor, here ▸ low, here ▸ high, ?_, ?_⟩
      · exact exact.congr fun b mem => same b (by simp [before, after, mem])
      · refine ih way fun b mem => same b ?_
        simp only [before, after, List.mem_append, List.mem_cons] at mem ⊢
        tauto

theorem level_congr (same : ∀ a ∈ before path ++ after path, balance' a = balance a) :
    Level balance' path ↔ Level balance path := by
  induction path with
  | nil => rfl
  | cons crumb path ih =>
    have rest : ∀ a ∈ before path ++ after path, balance' a = balance a := by
      intro a mem
      refine same a ?_
      cases crumb <;> simp only [before, after, List.mem_append, List.mem_cons] at mem ⊢ <;> tauto
    rcases crumb with ⟨a, _⟩ | ⟨_, a⟩ <;>
      simp [Level, same a (by simp [before, after]), ih rest]

theorem exists_node_of_height (tall : 0 < t.height) : ∃ a l r, t = .node a l r := by
  cases t with
  | nil => simp [BinaryTree.height] at tall
  | node a l r => exact ⟨a, l, r, rfl⟩

/-- A tree of height `h` has fewer than `2 ^ h` nodes. -/
theorem length_lt_two_pow (t : BinaryTree α) : (inorder t).length + 1 ≤ 2 ^ t.height := by
  induction t with
  | nil => simp [BinaryTree.height]
  | node a l r ihl ihr =>
    have left := Nat.le_trans ihl (Nat.pow_le_pow_right (by decide) (Nat.le_max_left l.height r.height))
    have right := Nat.le_trans ihr (Nat.pow_le_pow_right (by decide) (Nat.le_max_right l.height r.height))
    simp only [inorder_node, List.length_append, List.length_cons, BinaryTree.height, Nat.pow_succ]
    omega

open Lib.LinkedTree List

/-! ## Steps from either side -/

variable {side : Int} {null up a : α} {L : Links α} {store : Int → Int} {y : BinaryTree α}
  {outer inner : Crumb α}

/-- How a balance is stored: the three that occur are kept. -/
structure Keeps (store : Int → Int) : Prop where
  zero : store 0 = 0
  one : store 1 = 1
  negOne : store (-1) = -1

/-- The child on one side: the right one for 1. -/
def child (L : Links α) (side : Int) (a : α) : α := if side = 1 then L.right a else L.left a

theorem linked_join : Linked L null up (join crumb t) ↔
    L.parent (stepNode crumb) = up ∧ child L (stepSide crumb) (stepNode crumb) = rootOf null t ∧
      child L (-stepSide crumb) (stepNode crumb) = rootOf null (stepOther crumb) ∧
      Linked L null (stepNode crumb) t ∧ Linked L null (stepNode crumb) (stepOther crumb) := by
  cases crumb <;> simp only [join, Linked, stepNode, stepSide, stepOther, child] <;> grind

@[simp] theorem rootOf_join : rootOf null (join crumb t) = stepNode crumb := by
  cases crumb <;> rfl

theorem mem_join : a ∈ inorder (join crumb t) ↔
    a = stepNode crumb ∨ a ∈ inorder t ∨ a ∈ inorder (stepOther crumb) := by
  cases crumb <;> simp only [join, stepNode, stepOther, inorder_node, mem_append, mem_cons] <;> tauto

theorem nodup_join : (inorder (join crumb t)).Nodup ↔
    (stepNode crumb ∉ inorder t ∧ stepNode crumb ∉ inorder (stepOther crumb)) ∧
      (inorder t).Nodup ∧ (inorder (stepOther crumb)).Nodup ∧
      ∀ a ∈ inorder t, ∀ b ∈ inorder (stepOther crumb), a ≠ b := by
  cases crumb <;>
    simp only [join, stepNode, stepOther, inorder_node, nodup_append, nodup_cons, mem_cons] <;> grind

/-- A step can be seen from its other side. -/
theorem exists_flip (crumb : Crumb α) (t : BinaryTree α) :
    ∃ other, join crumb t = join other (stepOther crumb) ∧ stepNode other = stepNode crumb ∧
      stepOther other = t ∧ stepSide other = -stepSide crumb := by
  cases crumb with
  | leftOf a => exact ⟨.rightOf t a, rfl, rfl, rfl, rfl⟩
  | rightOf l a => exact ⟨.leftOf a t, rfl, rfl, rfl, rfl⟩

/-- A tree that is not empty is a step up from its child on either side. -/
theorem exists_join (sign : side = 1 ∨ side = -1) (tall : 0 < t.height) :
    ∃ crumb y, t = join crumb y ∧ stepSide crumb = side := by
  obtain ⟨a, l, r, rfl⟩ := exists_node_of_height tall
  rcases sign with rfl | rfl
  · exact ⟨.rightOf l a, r, rfl, rfl⟩
  · exact ⟨.leftOf a r, l, rfl, rfl⟩

/-- The two steps change places around the subtree between them. -/
theorem inorder_swap (opposite : stepSide inner = -stepSide outer) :
    inorder (join inner (join outer y)) = inorder (join outer (join inner y)) := by
  cases outer <;> cases inner <;> simp [stepSide, join] at opposite ⊢

theorem store_side (keeps : Keeps store) (crumb : Crumb α) :
    store (stepSide crumb) = stepSide crumb ∧ store (-stepSide crumb) = -stepSide crumb := by
  cases crumb with
  | leftOf => exact ⟨keeps.negOne, keeps.one⟩
  | rightOf => exact ⟨keeps.one, keeps.negOne⟩

/-- The balance of a node of the way, for a subtree of height `h`. -/
theorem step_cases {balance : Int}
    (factor : balance = stepSide crumb * (h - (stepOther crumb).height)) (low : -1 ≤ balance)
    (high : balance ≤ 1) :
    (balance = 0 ∧ h = (stepOther crumb).height) ∨
      (balance = -stepSide crumb ∧ (stepOther crumb).height = h + 1) ∨
      (balance = stepSide crumb ∧ h = (stepOther crumb).height + 1) := by
  rcases stepSide_cases crumb with sign | sign <;> rw [sign] at factor ⊢ <;> omega

open Function (update update_apply update_of_ne update_self)

variable [DecidableEq α]

/-! ## Skeletons -/

/-- The links and the balances of all nodes. -/
structure Skeleton (α : Type) where
  links : Links α
  balance : α → Int

section Definitions

variable (null : α) (store : Int → Int)

/-- A node rises above its parent. -/
def promote (L : Links α) (c : α) : Links α :=
  let p := L.parent c
  let g := L.parent p
  let rotated :=
    if L.left p = c then
      let y := L.right c
      ((L.setLeft p y).adopt null y p).setRight c p
    else
      let y := L.left c
      ((L.setRight p y).adopt null y p).setLeft c p
  ((rotated.setParent p c).replaceChild g p c).setParent c g

namespace Skeleton

def setBalance (k : Skeleton α) (node : α) (value : Int) : Skeleton α :=
  { k with balance := update k.balance node (store value) }

def withLinks (k : Skeleton α) (links : Links α) : Skeleton α := { k with links }

def promote (k : Skeleton α) (c : α) : Skeleton α := k.withLinks (Avl.promote null k.links c)

end Skeleton

/-- A node whose longer side has become too long is put in order; and whether the subtree has
kept its height. -/
def rebalance (k : Skeleton α) (s : α) : Skeleton α × Bool :=
  let a := k.balance s
  let r := if a = 1 then k.links.right s else k.links.left s
  if k.balance r = a then
    (((k.promote null r).setBalance store r 0).setBalance store s 0, false)
  else if k.balance r = -a then
    let p := if a = 1 then k.links.left r else k.links.right r
    let turned := (((k.promote null p).promote null p).setBalance store s 0).setBalance store r 0
    let adjusted :=
      if turned.balance p = a then turned.setBalance store s (-a)
      else if turned.balance p = -a then turned.setBalance store r a
      else turned
    (adjusted.setBalance store p 0, false)
  else
    ((k.promote null r).setBalance store r (-a), true)

end Definitions

namespace Skeleton

variable (null : α) (store : Int → Int) (k : Skeleton α) (node : α) (value : Int)
  (links : Links α)

@[simp] theorem setBalance_links : (k.setBalance store node value).links = k.links := rfl
@[simp] theorem setBalance_balance : (k.setBalance store node value).balance =
    update k.balance node (store value) := rfl
omit [DecidableEq α] in
@[simp] theorem withLinks_links : (k.withLinks links).links = links := rfl
omit [DecidableEq α] in
@[simp] theorem withLinks_balance : (k.withLinks links).balance = k.balance := rfl
@[simp] theorem promote_links : (k.promote null node).links = Avl.promote null k.links node := rfl
@[simp] theorem promote_balance : (k.promote null node).balance = k.balance := rfl

end Skeleton

/-! ## One step up in memory -/

variable {null top : α} {store : Int → Int} {L : Links α} {path : List (Crumb α)}
  {crumb outer inner : Crumb α} {t y : BinaryTree α} {a b up v : α}

def setChild (L : Links α) (side : Int) (a v : α) : Links α :=
  if side = 1 then L.setRight a v else L.setLeft a v

/-- Whether a node is a left child tells the side the climb comes from. -/
theorem left_side (hangs : Hangs L null top (plug t (crumb :: path))) (tall : 0 < t.height) :
    (if L.left (stepNode crumb) = rootOf null t then -1 else 1) = stepSide crumb := by
  obtain ⟨a, l, r, rfl⟩ := exists_node_of_height tall
  obtain ⟨-, -, -, way, distinct⟩ := hangs_plug.mp hangs
  cases crumb with
  | leftOf p s =>
    rw [if_pos (show L.left (stepNode (.leftOf p s)) = _ from way.2.1)]
    rfl
  | rightOf s p =>
    have left : L.left p = rootOf null s := way.2.1
    simp only [beside, before, SplayTree.after, inorder_node, nodup_cons, nodup_append, mem_cons,
      mem_append] at distinct
    have different : ¬ L.left p = a := by
      intro eq
      have mem := rootOf_mem (left.symm.trans eq) (by grind)
      grind
    rw [stepNode, rootOf_node, if_neg different]
    rfl

/-! ## Promoting a node -/

/-- The node `c` on one side of `p` gets it as a child and leaves it the child `y`. -/
def turn (null : α) (L : Links α) (side : Int) (p c y : α) : Links α :=
  (setChild ((setChild L side p y).adopt null y p) (-side) c p).setParent p c

section Turn

variable {p c : α} (sign : side = 1 ∨ side = -1)

include sign

theorem child_turn : child (turn null L side p c b) side = update (child L side) p b := by
  funext a
  rcases sign with rfl | rfl <;> simp [child, turn, setChild, update_apply]

theorem child_turn_neg : child (turn null L side p c b) (-side) = update (child L (-side)) c p := by
  funext a
  rcases sign with rfl | rfl <;> simp [child, turn, setChild, update_apply]

theorem turn_children (neP : a ≠ p) (neC : a ≠ c) :
    (turn null L side p c b).left a = L.left a ∧ (turn null L side p c b).right a = L.right a := by
  rcases sign with rfl | rfl <;>
    simp [turn, setChild, update_of_ne neP, update_of_ne neC]

theorem turn_parent (neP : a ≠ p) : (turn null L side p c b).parent a = (L.adopt null b p).parent a := by
  rcases sign with rfl | rfl <;>
    simp [turn, setChild, Links.adopt, update_of_ne neP, apply_ite Links.parent]

end Turn

/-- A node rises above its parent. -/
theorem hangs_promote (opposite : stepSide inner = -stepSide outer)
    (hangs : Hangs L null top (plug (join outer (join inner y)) path)) :
    Hangs (promote null L (stepNode inner)) null top (plug (join inner (join outer y)) path) := by
  have risen := left_side (plug_cons _ outer path ▸ hangs) (by rw [height_join]; omega)
  have sign := stepSide_cases outer
  obtain ⟨-, -, linked, -, distinct⟩ := hangs_plug.mp hangs
  have distinct' : (null :: top :: (inorder (join inner (join outer y)) ++ beside path)).Nodup := by
    rwa [inorder_swap opposite]
  obtain ⟨parentP, nearP, farP, linkedC, linkedZ⟩ := linked_join.mp linked
  obtain ⟨parentC, nearC, farC, linkedY, linkedX⟩ := linked_join.mp linkedC
  rw [rootOf_join] at risen nearP
  rw [opposite] at nearC farC
  rw [neg_neg] at farC
  simp only [nodup_cons, nodup_append, mem_cons, mem_append, mem_join, nodup_join] at distinct
  have rootY : rootOf null y = null ∨ rootOf null y ∈ inorder y := by
    cases y <;> simp
  have ne : stepNode inner ≠ stepNode outer := by grind
  let turned := turn null L (stepSide outer) (stepNode outer) (stepNode inner) (rootOf null y)
  -- besides the two nodes only the subtree between them gets another parent
  have same : ∀ b, b ≠ stepNode outer → b ≠ stepNode inner → b ≠ rootOf null y →
      SameAt L turned b := by
    intro b neP neC neY
    exact ⟨(turn_parent sign neP).trans (Links.adopt_parent_other null _ neY),
      turn_children sign neP neC⟩
  have linked : Linked turned null (turned.parent (stepNode inner)) (join inner (join outer y)) := by
    rw [linked_join, linked_join, opposite, neg_neg, child_turn sign, child_turn_neg sign]
    refine ⟨rfl, by simp, by rw [update_of_ne ne, farC], ⟨by simp [turned, turn], by simp,
      by rw [update_of_ne ne.symm, farP], ?_, ?_⟩, ?_⟩
    · refine linkedY.rehang (by grind) (fun b mem => turn_children sign (by grind) (by grind))
        (fun b mem other => (same b (by grind) (by grind) other).1) fun b mem eq => ?_
      have present : rootOf null y ≠ null := by grind
      subst eq
      rw [turn_parent sign (by grind), Links.adopt_parent_child _ present]
    · exact linkedZ.congr fun b mem => same b (by grind) (by grind) (by grind)
    · exact linkedX.congr fun b mem => same b (by grind) (by grind) (by grind)
  have replaced := hangs.replace (by rw [rootOf_join]; grind) (fun b mem => same b ?_ ?_ ?_) linked
    distinct'
  · have present : stepNode inner ≠ null := by grind
    rcases sign with sign | sign <;> simp only [sign, child] at risen nearC
    · have other : ¬ L.left (stepNode outer) = stepNode inner := by grind
      simpa [promote, parentC, parentP, other, turned, turn, sign, setChild, Links.adopt, present,
        show L.left (stepNode inner) = rootOf null y by simpa using nearC] using replaced
    · have this : L.left (stepNode outer) = stepNode inner := by grind
      simpa [promote, parentC, parentP, this, turned, turn, sign, setChild, Links.adopt, present,
        show L.right (stepNode inner) = rootOf null y by simpa using nearC] using replaced
  all_goals
    grind

/-! ## The three cases -/

/-- A subtree of the tree has been put in order, and nothing else has changed. -/
structure Reordered (null : α) (m m' : Skeleton α) (top : α) (path : List (Crumb α))
    (t t' : BinaryTree α) : Prop where
  hangs : Hangs m'.links null top (plug t' path)
  exact : Exact m'.balance t'
  sequence : inorder t' = inorder t
  others : ∀ a ∉ inorder t, m'.balance a = m.balance a

/-- What `rebalance` does for a node `s` whose shorter side has height `h` and whose
longer side has the root `r`. -/
structure Rebalanced (null : α) (store : Int → Int) (m : Skeleton α) (top : α) (path : List (Crumb α)) (t : BinaryTree α)
    (s r : α) (h : Nat) (t' : BinaryTree α) : Prop where
  reordered : Reordered null m (rebalance null store m s).1 top path t t'
  parent : (rebalance null store m s).1.links.parent s = rootOf null t'
  third : (rebalance null store m s).2 ↔ m.balance r = 0
  height : t'.height = if m.balance r = 0 then h + 3 else h + 2

variable {m m' : Skeleton α}

/-- A balance of the node of a step that is exact and at most one either way. -/
def Balances (balance : Int) (crumb : Crumb α) (h : Nat) : Prop :=
  balance = stepSide crumb * (h - (stepOther crumb).height) ∧ -1 ≤ balance ∧ balance ≤ 1

/-- The node below a step has risen. -/
theorem reordered_single (opposite : stepSide inner = -stepSide outer)
    (hangs : Hangs m.links null top (plug (join outer (join inner y)) path))
    (links : m'.links = promote null m.links (stepNode inner))
    (others : ∀ a, a ≠ stepNode outer → a ≠ stepNode inner → m'.balance a = m.balance a)
    (exactY : Exact m.balance y) (exactOuter : Exact m.balance (stepOther outer))
    (exactInner : Exact m.balance (stepOther inner))
    (balanceOuter : Balances (m'.balance (stepNode outer)) outer y.height)
    (balanceInner : Balances (m'.balance (stepNode inner)) inner (join outer y).height) :
    Reordered null m m' top path (join outer (join inner y)) (join inner (join outer y)) ∧
      m'.links.parent (stepNode outer) = stepNode inner := by
  have distinct := (hangs_plug.mp hangs).2.2.2.2
  simp only [nodup_cons, nodup_append, mem_join, nodup_join] at distinct
  have promoted := links ▸ hangs_promote opposite hangs
  have linked := (linked_join.mp (hangs_plug.mp promoted).2.2.1).2.2.2.1
  refine ⟨⟨promoted, ?_, inorder_swap opposite, ?_⟩, (linked_join.mp linked).1⟩
  · refine exact_join.mpr ⟨balanceInner, exact_join.mpr ⟨balanceOuter, ?_, ?_⟩, ?_⟩
    · exact exactY.congr fun a mem => others a (by grind) (by grind)
    · exact exactOuter.congr fun a mem => others a (by grind) (by grind)
    · exact exactInner.congr fun a mem => others a (by grind) (by grind)
  · intro a outside
    simp only [mem_join] at outside
    exact others a (by grind) (by grind)

/-- The node two steps below has risen twice. -/
theorem reordered_double {low : Crumb α} {w : BinaryTree α} (opposite : stepSide inner = -stepSide outer)
    (along : stepSide low = stepSide outer)
    (hangs : Hangs m.links null top (plug (join outer (join inner (join low w))) path))
    (links : m'.links = promote null (promote null m.links (stepNode low)) (stepNode low))
    (others : ∀ a, a ≠ stepNode outer → a ≠ stepNode inner → a ≠ stepNode low →
      m'.balance a = m.balance a)
    (exactW : Exact m.balance w) (exactOuter : Exact m.balance (stepOther outer))
    (exactInner : Exact m.balance (stepOther inner)) (exactLow : Exact m.balance (stepOther low))
    (balanceOuter : Balances (m'.balance (stepNode outer)) outer (stepOther low).height)
    (balanceInner : Balances (m'.balance (stepNode inner)) inner w.height)
    (balanceLow : m'.balance (stepNode low) = 0 ∧
      (join inner w).height = (join outer (stepOther low)).height) :
    ∃ t', Reordered null m m' top path (join outer (join inner (join low w))) t' ∧
      t'.height = (join inner w).height + 1 ∧ rootOf null t' = stepNode low ∧
      m'.links.parent (stepNode outer) = stepNode low := by
  have distinct := (hangs_plug.mp hangs).2.2.2.2
  simp only [nodup_cons, nodup_append, mem_join, nodup_join] at distinct
  -- the low node rises above the inner one, then above the outer one
  have once := hangs_promote (by rw [along, opposite, neg_neg]) (plug_cons _ outer path ▸ hangs)
  obtain ⟨high, flip, node, other, side⟩ := exists_flip low (join inner w)
  have swap : stepSide high = -stepSide outer := by rw [side, along]
  rw [plug_cons, flip] at once
  have twice := hangs_promote swap once
  rw [node, ← links] at twice
  have linked := (linked_join.mp (hangs_plug.mp twice).2.2.1).2.2.2.1
  refine ⟨_, ⟨twice, ?_, ?_, ?_⟩, ?_, rootOf_join.trans node, (linked_join.mp linked).1.trans node⟩
  · refine exact_join.mpr ⟨?_, exact_join.mpr ⟨balanceOuter, ?_, ?_⟩, ?_⟩
    · rw [node, other, balanceLow.1, balanceLow.2]
      simp
    · exact exactLow.congr fun a mem => others a (by grind) (by grind) (by grind)
    · exact exactOuter.congr fun a mem => others a (by grind) (by grind) (by grind)
    · rw [other]
      refine exact_join.mpr ⟨balanceInner, ?_, ?_⟩
      · exact exactW.congr fun a mem => others a (by grind) (by grind) (by grind)
      · exact exactInner.congr fun a mem => others a (by grind) (by grind) (by grind)
  · have inside : ∀ x x' : BinaryTree α, inorder x = inorder x' →
        inorder (join outer x) = inorder (join outer x') := by
      intro x x' eq
      cases outer <;> simp [join, eq]
    rw [inorder_swap swap, ← flip]
    exact inside _ _ (inorder_swap (by rw [along, opposite, neg_neg]))
  · intro a outside
    simp only [mem_join] at outside
    exact others a (by grind) (by grind) (by grind)
  · rw [height_join, other, ← balanceLow.2, max_self]

section Fields

variable {p s r : α} (null : α) (keeps : Keeps store) (sign : m.balance s = 1 ∨ m.balance s = -1)
  (child : (if m.balance s = 1 then m.links.right s else m.links.left s) = r) (ne : s ≠ r)

include keeps sign child ne

/-- What the first and the third case do to the fields. -/
theorem rebalance_single (single : m.balance r = 0 ∨ m.balance r = m.balance s) :
    (rebalance null store m s).1.links = promote null m.links r ∧
      ((rebalance null store m s).2 ↔ m.balance r = 0) ∧
      (∀ a, a ≠ s → a ≠ r → (rebalance null store m s).1.balance a = m.balance a) ∧
      (rebalance null store m s).1.balance s = m.balance s - m.balance r ∧
      (rebalance null store m s).1.balance r = m.balance r - m.balance s := by
  have field : store (-m.balance s) = -m.balance s := by
    rcases sign with sign | sign <;> simp [sign, keeps.one, keeps.negOne]
  simp only [rebalance, child]
  rcases single with zero | along
  · have apart : ¬ 0 = m.balance s ∧ ¬ 0 = -m.balance s := by omega
    simp +contextual [zero, apart, field, ne, -zero_eq_neg]
  · have apart : ¬ m.balance s = 0 := by omega
    simp +contextual [along, apart, keeps.zero, ne.symm]

/-- What the second case does to the fields: the balance of the node that has risen says which
of the other two is now shorter on one side. -/
theorem rebalance_double (opposite : m.balance r = -m.balance s)
    (inner : (if m.balance s = 1 then m.links.left r else m.links.right r) = p)
    (neS : p ≠ s) (neR : p ≠ r) :
    (rebalance null store m s).1.links = promote null (promote null m.links p) p ∧
      (rebalance null store m s).2 = false ∧
      (∀ a, a ≠ s → a ≠ r → a ≠ p → (rebalance null store m s).1.balance a = m.balance a) ∧
      (rebalance null store m s).1.balance s = (if m.balance p = m.balance s then -m.balance s else 0) ∧
      (rebalance null store m s).1.balance r = (if m.balance p = -m.balance s then m.balance s else 0) ∧
      (rebalance null store m s).1.balance p = 0 := by
  have apart : ¬ -m.balance s = m.balance s := by omega
  have field : store (-m.balance s) = -m.balance s ∧ store (m.balance s) = m.balance s := by
    rcases sign with sign | sign <;> simp [sign, keeps.one, keeps.negOne]
  simp only [rebalance, child, inner, opposite, apart, if_false, if_true, Skeleton.setBalance_balance,
    Skeleton.promote_balance, update_of_ne neS, update_of_ne neR]
  split_ifs with same other <;>
    refine ⟨by simp, trivial, fun a aS aR aP => ?_, ?_, ?_, by simp [keeps.zero]⟩ <;>
    simp [update_apply, keeps.zero, *] <;> grind

end Fields

section Turned

variable (keeps : Keeps store) (hangs : Hangs m.links null top (plug (join crumb t) path))
  (exact : Exact m.balance t) (exactOther : Exact m.balance (stepOther crumb))

include keeps hangs exact exactOther

/-- The side a climb comes from is too long. -/
theorem rebalance_near (balance : m.balance (stepNode crumb) = stepSide crumb)
    (tall : t.height = (stepOther crumb).height + 2) :
    ∃ t', Rebalanced null store m top path (join crumb t) (stepNode crumb) (rootOf null t)
      (stepOther crumb).height t' := by
  have sign := stepSide_cases crumb
  obtain ⟨inner, y, rfl, opposite⟩ :=
    exists_join (show -stepSide crumb = 1 ∨ -stepSide crumb = -1 by omega)
      (show 0 < t.height by omega)
  obtain ⟨⟨factor, low, high⟩, exactY, exactInner⟩ := exact_join.mp exact
  obtain ⟨-, near, -, linked, -⟩ := linked_join.mp (hangs_plug.mp hangs).2.2.1
  have below := (linked_join.mp linked).2.1
  rw [rootOf_join, child] at near
  have distinct := (hangs_plug.mp hangs).2.2.2.2
  simp only [nodup_cons, nodup_append, mem_join, nodup_join] at distinct
  have ne : stepNode crumb ≠ stepNode inner := by grind
  rw [height_join] at tall
  rw [rootOf_join]
  have cases := step_cases factor low high
  rw [opposite, neg_neg] at cases
  by_cases single : m.balance (stepNode inner) = 0 ∨
      m.balance (stepNode inner) = m.balance (stepNode crumb)
  · -- The node below rises; only after a removal it is longer on its inner side afterwards.
    obtain ⟨links, answer, others, newS, newR⟩ :=
      rebalance_single null keeps (balance ▸ sign) (by rw [balance, near]) ne single
    rw [balance] at single newS newR
    obtain ⟨reordered, parent⟩ := reordered_single opposite hangs links others exactY exactOther
      exactInner
      (by
        rw [newS, Balances]
        rcases sign with sign | sign <;> rw [sign] at cases ⊢ <;> omega)
      (by
        rw [newR, Balances, opposite, height_join]
        rcases sign with sign | sign <;> rw [sign] at cases ⊢ <;> omega)
    refine ⟨_, reordered, parent.trans rootOf_join.symm, answer, ?_⟩
    rw [height_join, height_join]
    split <;> omega
  · -- The inner child rises twice; its balance says who of the others gets less.
    obtain ⟨balanceR, heights⟩ : m.balance (stepNode inner) = -stepSide crumb ∧
        y.height = (stepOther inner).height + 1 := by omega
    obtain ⟨under, w, rfl, along⟩ := exists_join sign (show 0 < y.height by omega)
    obtain ⟨⟨factorLow, lowLow, lowHigh⟩, exactW, exactLow⟩ := exact_join.mp exactY
    have cases := step_cases factorLow lowLow lowHigh
    rw [rootOf_join, opposite, child] at below
    simp only [mem_join] at distinct
    have apart : stepNode under ≠ stepNode crumb ∧ stepNode under ≠ stepNode inner := by grind
    have run := @rebalance_double _ _ store m (stepNode under) (stepNode crumb) (stepNode inner) null keeps
      (balance ▸ sign) (by rw [balance, near]) ne (by rw [balanceR, balance])
      (by rw [balance, ← below]; rcases sign with sign | sign <;> simp [sign]) apart.1 apart.2
    rw [balance] at run
    obtain ⟨links, answer, others, newS, newR, newP⟩ := run
    rw [along] at cases
    rw [height_join] at tall heights
    obtain ⟨t', reordered, height, root, parent⟩ := reordered_double opposite along hangs links others
      exactW exactOther exactInner exactLow
      (by
        rw [newS, Balances]
        rcases sign with sign | sign <;> rw [sign] at cases ⊢ <;> split <;> omega)
      (by
        rw [newR, Balances, opposite]
        rcases sign with sign | sign <;> rw [sign] at cases ⊢ <;> split <;> omega)
      ⟨newP, by rw [height_join, height_join]; omega⟩
    refine ⟨t', reordered, parent.trans root.symm, by simp [answer, balanceR]; omega, ?_⟩
    rw [if_neg (by omega), height, height_join]
    omega

/-- The side a climb comes from is too short. -/
theorem rebalance_far (balance : m.balance (stepNode crumb) = -stepSide crumb)
    (tall : (stepOther crumb).height = t.height + 2) :
    ∃ t', Rebalanced null store m top path (join crumb t) (stepNode crumb)
      (rootOf null (stepOther crumb)) t.height t' := by
  obtain ⟨flipped, flip, node, other, side⟩ := exists_flip crumb t
  rw [flip] at hangs ⊢
  rw [← node, ← side] at balance
  rw [← other] at exact tall ⊢
  rw [← node]
  exact rebalance_near keeps hangs exactOther exact balance tall

end Turned

end Ntoskrnl.Lib.Avl
