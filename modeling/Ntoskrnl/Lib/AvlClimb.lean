/-
# Ntoskrnl.Lib.AvlClimb -- from a changed subtree up to the anchor

After a node has been hung below a leaf, the climb goes on as long as the subtree it
comes from has grown.  It stops where a node becomes even, where a rotation takes the
growth back, or at the anchor itself: then the whole tree is one level higher, which
happens exactly when every node on the way was even.

After a node has been taken out, the climb goes on as long as the subtree it comes
from is one level lower than it was, and stops where a node was even before or a
rotation kept the height.  The anchor has a balance of its own, which tells whether
the climb has come up to it.
-/
import Mathlib.Tactic.Ring
import Ntoskrnl.Lib.Avl

namespace Ntoskrnl.Lib.Avl

set_option autoImplicit false

open Lib.LinkedTree Lib.SplayTree
open Function (update_of_ne update_self)
open List hiding after

variable {α : Type} [DecidableEq α]

/-! ## The two climbs -/

section Definitions

variable (null top : α) (store : Int → Int)

/-- The climb after `r` has grown, below `s`; and whether it has come up to the anchor. -/
def growLoop : Nat → Skeleton α → α → α → Option (Skeleton α × Bool)
  | 0, _, _, _ => none
  | fuel + 1, k, r, s =>
    let a : Int := if k.links.left (k.links.parent r) = r then -1 else 1
    if k.balance s = 0 then growLoop fuel (k.setBalance store s a) s (k.links.parent s)
    else if k.balance s ≠ a then
      let k := k.setBalance store s 0
      some (k, decide (k.balance top = 0))
    else some ((rebalance null store k s).1, false)

/-- The climb after the subtree of `p` on side `a` has become shorter; and whether it has come up
to the anchor. -/
def shrinkLoop : Nat → Skeleton α → α → Int → Option (Skeleton α × Bool)
  | 0, _, _, _ => none
  | fuel + 1, k, p, a =>
    let ascend (k : Skeleton α) (p : α) : Option (Skeleton α × Bool) :=
      shrinkLoop fuel k (k.links.parent p) (if k.links.right (k.links.parent p) = p then 1 else -1)
    if k.balance p = a then ascend (k.setBalance store p 0) p
    else if k.balance p = 0 then
      let k := k.setBalance store p (-a)
      some (k, decide (k.balance top ≠ 0))
    else
      let turned := rebalance null store k p
      if turned.2 then some (turned.1, false) else ascend turned.1 (turned.1.links.parent p)

end Definitions

/-! ## After growth -/

/-- A climb has ended: the tree is in order again, with the same sequence. -/
structure Settled (null top : α) (k' : Skeleton α) (t t' : BinaryTree α) : Prop where
  hangs : Hangs k'.links null top t'
  exact : Exact k'.balance t'
  sequence : inorder t' = inorder t

variable {null top : α} {store : Int → Int} {k : Skeleton α} {path : List (Crumb α)}
  {t : BinaryTree α}

variable {k' : Skeleton α} {t' : BinaryTree α}

omit [DecidableEq α] in
/-- A subtree is reordered without the nodes of the way. -/
theorem Reordered.way (reordered : Reordered null k k' top path t t')
    (nodup : (inorder (plug t path)).Nodup) :
    ∀ a ∈ before path ++ after path, k'.balance a = k.balance a := by
  intro a mem
  refine reordered.others a fun inside => ?_
  rw [inorder_plug] at nodup
  grind

omit [DecidableEq α] in
/-- A subtree reordered on the way ends the climb. -/
theorem Reordered.settled (reordered : Reordered null k k' top path t t')
    (way : ExactPath k.balance path t'.height) (nodup : (inorder (plug t path)).Nodup) :
    Settled null top k' (plug t path) (plug t' path) := by
  refine ⟨reordered.hangs, ?_, ?_⟩
  · exact (exact_plug path t').mpr ⟨reordered.exact, way.congr (reordered.way nodup)⟩
  · rw [inorder_plug, inorder_plug, reordered.sequence]

variable {L : Links α} {crumb : Crumb α} {h fuel : Nat}

omit [DecidableEq α] in
/-- The parent of a subtree that is not empty. -/
theorem parent_root (hangs : Hangs L null top (plug t path)) (tall : 0 < t.height) :
    L.parent (rootOf null t) = above top path := by
  obtain ⟨a, l, r, rfl⟩ := exists_node_of_height tall
  exact (hangs_plug.mp hangs).2.2.1.1

omit [DecidableEq α] in
theorem above_cons (top : α) (crumb : Crumb α) (path : List (Crumb α)) :
    above top (crumb :: path) = stepNode crumb := by
  cases crumb <;> rfl

/-- The nodes of one step up are apart from those of the subtree and of the rest of the way. -/
structure StepApart (null top : α) (crumb : Crumb α) (path : List (Crumb α))
    (t : BinaryTree α) : Prop where
  top : stepNode crumb ≠ top
  notNull : stepNode crumb ≠ null
  tree : stepNode crumb ∉ inorder t
  other : stepNode crumb ∉ inorder (stepOther crumb)
  way : stepNode crumb ∉ before path ++ after path

omit [DecidableEq α] in
theorem stepApart (hangs : Hangs L null top (plug t (crumb :: path))) :
    StepApart null top crumb path t := by
  have distinct := (hangs_plug.mp hangs).2.2.2.2
  cases crumb <;>
  · simp only [beside, before, after, nodup_cons, nodup_append, mem_cons, mem_append] at distinct
    constructor <;> simp only [stepNode, stepOther, mem_append] <;> grind

variable {m : Skeleton α} {value : Int}

/-- A node of the way gets the balance it has for the subtree as it is now. -/
theorem exact_setBalance (apart : StepApart null top crumb path t) (exact : Exact m.balance t)
    (exactOther : Exact m.balance (stepOther crumb)) (field : store value = value)
    (factor : value = stepSide crumb * (t.height - (stepOther crumb).height)) (low : -1 ≤ value)
    (high : value ≤ 1) :
    Exact (m.setBalance store (stepNode crumb) value).balance (join crumb t) := by
  refine exact_join.mpr ⟨?_, exact.update apart.tree, exactOther.update apart.other⟩
  simp only [Skeleton.setBalance_balance, update_self, field]
  exact ⟨factor, low, high⟩

theorem way_setBalance (apart : StepApart null top crumb path t) : ∀ a ∈ before path ++ after path,
      (m.setBalance store (stepNode crumb) value).balance a = m.balance a := by
  intro a mem
  exact update_of_ne (fun eq : a = stepNode crumb => apart.way (eq ▸ mem)) ..

/-- A node of the way that keeps its height ends the climb. -/
theorem settled_setBalance (apart : StepApart null top crumb path t)
    (hangs : Hangs k.links null top (plug (join crumb t) path))
    (exactNode : Exact (k.setBalance store (stepNode crumb) value).balance (join crumb t))
    (way : ExactPath k.balance path (join crumb t).height) :
    Settled null top (k.setBalance store (stepNode crumb) value) (plug (join crumb t) path)
      (plug (join crumb t) path) :=
  ⟨hangs, (exact_plug path _).mpr ⟨exactNode, way.congr (way_setBalance apart)⟩, rfl⟩

omit [DecidableEq α] in
theorem top_outside (hangs : Hangs L null top (plug t path)) : top ∉ inorder t := by
  have distinct := hangs.distinct
  rw [inorder_plug] at distinct
  grind

/-- The outcome of a climb after growth. -/
def Grown (k : Skeleton α) (path : List (Crumb α)) (h : Nat) (t' : BinaryTree α)
    (arrived : Bool) : Prop :=
  (Level k.balance path ∧ t'.height = heightAt path h + 1 ∧ arrived) ∨
    (¬ Level k.balance path ∧ t'.height = heightAt path h ∧ arrived = false)

/-- The climb reaches the anchor: the whole tree has grown. -/
theorem growLoop_top (keeps : Keeps store) (hangs : Hangs k.links null top t)
    (tall : 0 < t.height) (anchor : k.balance top = -1) :
    growLoop null top store (fuel + 1) k (rootOf null t) top =
      some (k.setBalance store top 0, true) := by
  have parent : k.links.parent (rootOf null t) = top :=
    parent_root (show Hangs _ null _ (plug t []) from hangs) tall
  have right : ¬ k.links.left top = rootOf null t := by
    obtain ⟨a, l, r, rfl⟩ := exists_node_of_height tall
    rw [hangs.noLeft]
    rintro rfl
    have distinct := hangs.distinct
    simp at distinct
  simp [growLoop, parent, right, anchor, keeps.zero]

/-- **The climb after growth puts the tree in order.** -/
theorem growLoop_spec (keeps : Keeps store) (hangs : Hangs k.links null top (plug t path))
    (exact : Exact k.balance t) (way : ExactPath k.balance path h) (grown : t.height = h + 1)
    (uneven : h = 0 ∨ k.balance (rootOf null t) ≠ 0) (anchor : k.balance top = -1)
    (enough : path.length + 1 ≤ fuel) :
    ∃ k' arrived t', growLoop null top store fuel k (rootOf null t) (above top path) =
        some (k', arrived) ∧ Settled null top k' (plug t path) t' ∧ Grown k path h t' arrived := by
  induction path generalizing k t h fuel with
  | nil =>
    obtain _ | fuel := fuel
    · simp at enough
    refine ⟨_, _, t, growLoop_top keeps hangs (by omega) anchor,
      ⟨hangs, exact.update (top_outside hangs), rfl⟩, ?_⟩
    exact .inl ⟨trivial, grown, rfl⟩
  | cons crumb path ih =>
    obtain _ | fuel := fuel
    · simp at enough
    have parent := parent_root hangs (by omega)
    have apart := stepApart hangs
    have side := left_side hangs (by omega)
    obtain ⟨⟨factor, low, high⟩, exactOther, way⟩ := exactPath_cons.mp way
    rw [above_cons] at parent ⊢
    rw [plug_cons] at hangs ⊢
    simp only [growLoop, parent, side]
    have field := store_side keeps crumb
    rcases step_cases factor low high with ⟨balance, heights⟩ | ⟨balance, heights⟩ |
      ⟨balance, heights⟩
    · -- The node was even: it is one level higher now.
      rw [if_pos balance]
      have exactNode := exact_setBalance apart exact exactOther field.1
        (by rw [grown, heights]; push_cast; ring) (by omega) (by omega)
      have climb := parent_root hangs (by rw [height_join]; omega)
      have root : rootOf null (join crumb t) = stepNode crumb := rootOf_join
      rw [root] at climb
      obtain ⟨k', arrived, t', run, settled, outcome⟩ := ih
        (k := k.setBalance store (stepNode crumb) (stepSide crumb)) hangs exactNode
        (way.congr (way_setBalance apart)) (by rw [height_join]; omega)
        (by
          rw [root]
          simp only [Skeleton.setBalance_balance, update_self, field.1]
          omega)
        (by simpa [update_of_ne apart.top.symm] using anchor)
        (show path.length + 1 ≤ fuel by simp only [length_cons] at enough; omega)
      rw [root] at run
      refine ⟨k', arrived, t', by rw [climb]; exact run, settled, ?_⟩
      unfold Grown at outcome ⊢
      rw [level_congr (way_setBalance apart)] at outcome
      rw [level_cons, heightAt_cons]
      simp only [balance, true_and]
      exact outcome
    · -- The node was longer on the other side: it becomes even.
      rw [if_neg (by omega), if_pos (by omega)]
      have keep : ¬ (k.setBalance store (stepNode crumb) 0).balance top = 0 := by
        simp [update_of_ne apart.top.symm, anchor]
      have exactNode := exact_setBalance apart exact exactOther keeps.zero
        (by rw [grown, heights]; simp) (by omega) (by omega)
      have height : (join crumb t).height = max h (stepOther crumb).height + 1 := by
        rw [height_join]
        omega
      refine ⟨_, _, _, rfl, settled_setBalance apart hangs exactNode (height ▸ way),
        .inr ⟨?_, ?_, decide_eq_false keep⟩⟩
      · rw [level_cons]
        omega
      · rw [height_plug, height, heightAt_cons]
    · -- The node was longer on this side: a rotation takes the level back.
      rw [if_neg (by omega), if_neg (by omega)]
      obtain ⟨t', rebalanced⟩ := rebalance_near keeps hangs exact exactOther balance (by omega)
      have height : t'.height = max h (stepOther crumb).height + 1 := by
        rw [rebalanced.height, if_neg (by omega)]
        omega
      have nodup := hangs.distinct
      simp only [nodup_cons] at nodup
      refine ⟨_, _, plug t' path, rfl, ?_, .inr ⟨?_, ?_, rfl⟩⟩
      · exact rebalanced.reordered.settled (height ▸ way) nodup.2.2
      · rw [level_cons]
        omega
      · rw [height_plug, height, heightAt_cons]

/-! ## After a removal -/

/-- The side a climb comes from; the anchor has the tree on its right. -/
def sideOf : List (Crumb α) → Int
  | [] => 1
  | crumb :: _ => stepSide crumb

/-- Whether a node is a right child tells the side the climb comes from. -/
theorem right_side (hangs : Hangs L null top (plug t path)) (tall : 0 < t.height) :
    (if L.right (above top path) = rootOf null t then 1 else -1) = sideOf path := by
  obtain ⟨a, l, r, rfl⟩ := exists_node_of_height tall
  obtain ⟨-, -, -, way, distinct⟩ := hangs_plug.mp hangs
  cases path with
  | nil => exact if_pos way
  | cons crumb =>
    cases crumb with
    | leftOf p s =>
      have right : L.right p = rootOf null s := way.2.2.1
      simp only [beside, before, after, inorder_node, nodup_cons, nodup_append,
        mem_cons, mem_append] at distinct
      have different : ¬ L.right p = a := by
        intro eq
        have mem := rootOf_mem (right.symm.trans eq) (by grind)
        grind
      rw [above, rootOf_node, if_neg different]
      rfl
    | rightOf s p =>
      rw [above, if_pos (show L.right p = _ from way.2.2.1)]
      rfl

/-- The outcome of a climb after a subtree of height `h` has lost a level. -/
def Shrunk (path : List (Crumb α)) (h : Nat) (t' : BinaryTree α) (arrived : Bool) : Prop :=
  (t'.height = heightAt path h ∧ arrived = false) ∨ (t'.height + 1 = heightAt path h ∧ arrived)

/-- **The climb after a loss puts the tree in order.** -/
theorem shrinkLoop_spec (keeps : Keeps store) (hangs : Hangs k.links null top (plug t path))
    (exact : Exact k.balance t) (way : ExactPath k.balance path h) (shrunk : h = t.height + 1)
    (anchor : k.balance top = 0) (enough : path.length + 1 ≤ fuel) :
    ∃ k' arrived t', shrinkLoop null top store fuel k (above top path) (sideOf path) =
        some (k', arrived) ∧ Settled null top k' (plug t path) t' ∧ Shrunk path h t' arrived := by
  induction path generalizing k t h fuel with
  | nil =>
    obtain _ | fuel := fuel
    · simp at enough
    refine ⟨k.setBalance store top (-1), true, t, ?_, ⟨hangs, exact.update (top_outside hangs), rfl⟩,
      .inr ⟨shrunk.symm, rfl⟩⟩
    simp [shrinkLoop, above, sideOf, anchor, keeps.negOne]
  | cons crumb path ih =>
    obtain _ | fuel := fuel
    · simp at enough
    have apart := stepApart hangs
    have signs := stepSide_cases crumb
    obtain ⟨⟨factor, low, high⟩, exactOther, way⟩ := exactPath_cons.mp way
    rw [plug_cons] at hangs ⊢
    rw [above_cons, sideOf]
    have root : rootOf null (join crumb t) = stepNode crumb := rootOf_join
    have field := store_side keeps crumb
    simp only [shrinkLoop]
    rcases step_cases factor low high with ⟨balance, heights⟩ | ⟨balance, heights⟩ |
      ⟨balance, heights⟩
    · -- The node was even: it becomes longer on the other side and keeps its height.
      rw [if_neg (by omega), if_pos balance]
      have keep : ¬ (k.setBalance store (stepNode crumb) (-stepSide crumb)).balance top ≠ 0 := by
        simp [update_of_ne apart.top.symm, anchor]
      have exactNode := exact_setBalance apart exact exactOther field.2
        (by rw [← heights, shrunk]; push_cast; ring) (by omega) (by omega)
      have height : (join crumb t).height = max h (stepOther crumb).height + 1 := by
        rw [height_join]
        omega
      refine ⟨_, _, _, rfl, settled_setBalance apart hangs exactNode (height ▸ way),
        .inl ⟨?_, decide_eq_false keep⟩⟩
      rw [height_plug, height, heightAt_cons]
    · -- The other side was longer: it is two levels longer now.
      rw [if_neg (by omega), if_neg (by omega)]
      obtain ⟨t', rebalanced⟩ := rebalance_far keeps hangs exact exactOther balance (by omega)
      have nodup := hangs.distinct
      simp only [nodup_cons] at nodup
      by_cases third : k.balance (rootOf null (stepOther crumb)) = 0
      · rw [if_pos (rebalanced.third.mpr third)]
        have height : t'.height = max h (stepOther crumb).height + 1 := by
          rw [rebalanced.height, if_pos third]
          omega
        refine ⟨_, _, plug t' path, rfl, ?_, .inl ⟨?_, rfl⟩⟩
        · exact rebalanced.reordered.settled (height ▸ way) nodup.2.2
        · rw [height_plug, height, heightAt_cons]
      · rw [if_neg (fun eq => third (rebalanced.third.mp eq)), rebalanced.parent]
        have height : t'.height = h + 1 := by
          rw [rebalanced.height, if_neg third]
          omega
        have reordered := rebalanced.reordered
        have anchorNext : (rebalance null store k (stepNode crumb)).1.balance top = 0 :=
          (reordered.others top (top_outside hangs)).trans anchor
        rw [parent_root reordered.hangs (by omega), right_side reordered.hangs (by omega)]
        obtain ⟨k', arrived, t'', run, settled, outcome⟩ := ih reordered.hangs reordered.exact
          (way.congr (reordered.way nodup.2.2)) (by omega) anchorNext (show path.length + 1 ≤ fuel by
            simp only [length_cons] at enough; omega)
        refine ⟨k', arrived, t'', run, ⟨settled.hangs, settled.exact, ?_⟩, ?_⟩
        · rw [settled.sequence, inorder_plug, inorder_plug, reordered.sequence]
        · rw [Shrunk, heightAt_cons]
          exact outcome
    · -- The node was longer on this side: it becomes even and loses a level.
      rw [if_pos balance]
      have exactNode := exact_setBalance apart exact exactOther keeps.zero
        (by rw [shrunk] at heights; simp [show t.height = (stepOther crumb).height by omega])
        (by omega) (by omega)
      have tall : 0 < (join crumb t).height := by
        rw [height_join]
        omega
      have parent := parent_root hangs tall
      have side := right_side hangs tall
      rw [root] at parent side
      obtain ⟨k', arrived, t', run, settled, outcome⟩ := ih
        (k := k.setBalance store (stepNode crumb) 0) hangs exactNode
        (way.congr (way_setBalance apart)) (by rw [height_join]; omega)
        (by simpa [update_of_ne apart.top.symm] using anchor)
        (show path.length + 1 ≤ fuel by simp only [length_cons] at enough; omega)
      refine ⟨k', arrived, t', ?_, settled, ?_⟩
      · rw [Skeleton.setBalance_links, parent, side]
        exact run
      · rw [Shrunk, heightAt_cons]
        exact outcome

end Ntoskrnl.Lib.Avl
