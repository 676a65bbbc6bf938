/-
# Ntoskrnl.Lib.TreeSearch -- descending in a linked tree

A probe says of every node whether what is searched for lies before it, at it or after
it.  If the nodes of the tree are in an order the probe respects, the descent ends at
the node that matches, or at the empty place between the nodes that lie before and
those that lie after.
-/
import Ntoskrnl.Lib.Avl

namespace Ntoskrnl.Lib.LinkedTree

set_option autoImplicit false

open Lib.SplayTree Lib.Avl

variable {α : Type} [DecidableEq α] {inner : List (Crumb α)} {probe : α → Ordering}
  {t : BinaryTree α}

/-- Where a descent ends: at a node, or at the empty place of a child. -/
inductive Landing (α : Type) where
  | found (node : α)
  | asLeft (parent : α)
  | asRight (parent : α)
deriving DecidableEq, Repr

/-- The descent: to the left of nodes that are too high, to the right of those too low. -/
def descend (null : α) (L : Links α) (probe : α → Ordering) : Nat → α → Option (Landing α)
  | 0, _ => none
  | fuel + 1, node =>
    match probe node with
    | .lt =>
      if L.left node ≠ null then descend null L probe fuel (L.left node)
      else some (.asLeft node)
    | .gt =>
      if L.right node ≠ null then descend null L probe fuel (L.right node)
      else some (.asRight node)
    | .eq => some (.found node)

/-- After a node that is not too low, all are too high. -/
def Respects (probe : α → Ordering) (nodes : List α) : Prop :=
  nodes.Pairwise fun a b => probe a ≠ .gt → probe b = .lt

/-- A descent ends below the node of the first step of a way up. -/
inductive LandsBelow : Landing α → List (Crumb α) → Prop where
  | left (p : α) (s : BinaryTree α) (path : List (Crumb α)) :
      LandsBelow (.asLeft p) (.leftOf p s :: path)
  | right (s : BinaryTree α) (p : α) (path : List (Crumb α)) :
      LandsBelow (.asRight p) (.rightOf s p :: path)

omit [DecidableEq α] in
theorem LandsBelow.append {landing : Landing α} (lands : LandsBelow landing inner)
    (outer : List (Crumb α)) : LandsBelow landing (inner ++ outer) := by
  cases lands with
  | left p s path => exact .left p s (path ++ outer)
  | right s p path => exact .right s p (path ++ outer)

/-- The empty place of what is searched for. -/
structure PlaceOf (probe : α → Ordering) (t : BinaryTree α) (inner : List (Crumb α)) : Prop where
  shape : t = plug .nil inner
  below : ∀ n ∈ before inner, probe n = .gt
  above : ∀ n ∈ after inner, probe n = .lt

omit [DecidableEq α] in
/-- The place in the subtree on one side is a place in the tree. -/
theorem PlaceOf.step (place : PlaceOf probe t inner) (crumb : Crumb α)
    (below : ∀ n ∈ before [crumb], probe n = .gt) (above : ∀ n ∈ after [crumb], probe n = .lt) :
    PlaceOf probe (join crumb t) (inner ++ [crumb]) := by
  have whole : ∀ (t : BinaryTree α) (inner : List (Crumb α)),
      plug t (inner ++ [crumb]) = join crumb (plug t inner) := by
    intro t inner
    induction inner generalizing t with
    | nil => rw [List.nil_append, plug_cons]; rfl
    | cons step inner ih => rw [List.cons_append, plug_cons, plug_cons, ih]
  refine ⟨?_, ?_, ?_⟩
  · rw [whole, ← place.shape]
  · intro n mem
    rw [before_append, List.mem_append] at mem
    exact mem.elim (below n) (place.below n)
  · intro n mem
    rw [after_append, List.mem_append] at mem
    exact mem.elim (place.above n) (above n)

omit [DecidableEq α] in
/-- What a probe that respects the nodes of a tree says of the two subtrees. -/
theorem Respects.node {a : α} {l r : BinaryTree α}
    (respects : Respects probe (inorder (.node a l r))) :
    Respects probe (inorder l) ∧ Respects probe (inorder r) ∧
      (∀ n ∈ inorder l, probe a ≠ .lt → probe n = .gt) ∧
      (∀ n ∈ inorder r, probe a ≠ .gt → probe n = .lt) := by
  simp only [Respects, inorder_node, List.pairwise_append, List.pairwise_cons,
    List.mem_cons] at respects
  refine ⟨respects.1, respects.2.1.2, ?_, respects.2.1.1⟩
  intro n mem high
  by_contra low
  exact high (respects.2.2 n mem a (.inl rfl) low)

/-- **The descent finds the node that matches, or the empty place.** -/
theorem descend_spec {null up : α} {L : Links α} {fuel : Nat} (nonempty : t ≠ .nil)
    (linked : Linked L null up t) (absent : null ∉ inorder t)
    (respects : Respects probe (inorder t)) (enough : (inorder t).length ≤ fuel) :
    (∃ n ∈ inorder t, descend null L probe fuel (rootOf null t) = some (.found n) ∧ probe n = .eq) ∨
      ∃ landing inner, descend null L probe fuel (rootOf null t) = some landing ∧
        LandsBelow landing inner ∧ PlaceOf probe t inner := by
  induction t generalizing up fuel with
  | nil => exact absurd rfl nonempty
  | node a l r ihl ihr =>
    obtain _ | fuel := fuel
    · simp at enough
    obtain ⟨-, left, right, below, beyond⟩ := linked
    obtain ⟨orderL, orderR, beforeA, afterA⟩ := respects.node
    simp only [inorder_node, List.mem_append, List.mem_cons, List.length_append,
      List.length_cons] at absent enough
    rw [rootOf_node, descend, left, right]
    cases answer : probe a with
    | eq => exact .inl ⟨a, by simp, rfl, answer⟩
    | lt =>
      -- the search goes left: from here on everything is too large
      have aboveA : ∀ n ∈ after [.leftOf a r], probe n = .lt := by
        intro n mem
        simp only [after, List.append_nil, List.mem_cons] at mem
        rcases mem with rfl | mem
        · exact answer
        · exact afterA n mem (by simp [answer])
      cases l with
      | nil =>
        exact .inr ⟨.asLeft a, [.leftOf a r], by simp, .left a r [], rfl, by
          simp [before], aboveA⟩
      | node b l' r' =>
        have present : b ≠ null := by
          rintro rfl
          simp at absent
        simp only [rootOf_node, present, ne_eq, not_false_eq_true, if_true]
        rcases ihl (by simp) below (by tauto) orderL
          (show (inorder (.node b l' r')).length ≤ fuel by omega) with
          ⟨n, mem, found, same⟩ | ⟨landing, inner, found, lands, place⟩
        · refine .inl ⟨n, ?_, found, same⟩
          simp only [inorder_node, List.mem_append] at mem ⊢
          tauto
        · refine .inr ⟨landing, inner ++ [.leftOf a r], found, lands.append _, ?_⟩
          exact place.step (.leftOf a r) (by simp [before]) aboveA
    | gt =>
      have belowA : ∀ n ∈ before [.rightOf l a], probe n = .gt := by
        intro n mem
        simp only [before, List.nil_append, List.mem_append, List.mem_singleton] at mem
        rcases mem with mem | rfl
        · exact beforeA n mem (by simp [answer])
        · exact answer
      cases r with
      | nil =>
        exact .inr ⟨.asRight a, [.rightOf l a], by simp, .right l a [], rfl, belowA, by
          simp [after]⟩
      | node b l' r' =>
        have present : b ≠ null := by
          rintro rfl
          simp at absent
        simp only [rootOf_node, present, ne_eq, not_false_eq_true, if_true]
        rcases ihr (by simp) beyond (by tauto) orderR
          (show (inorder (.node b l' r')).length ≤ fuel by omega) with
          ⟨n, mem, found, same⟩ | ⟨landing, inner, found, lands, place⟩
        · refine .inl ⟨n, ?_, found, same⟩
          simp only [inorder_node, List.mem_append, List.mem_cons] at mem ⊢
          tauto
        · refine .inr ⟨landing, inner ++ [.rightOf l a], found, lands.append _, ?_⟩
          exact place.step (.rightOf l a) belowA (by simp [after])

end Ntoskrnl.Lib.LinkedTree
