/-
# Ntoskrnl.Mm.Vad.Tree -- the routines on the balanced tree

`MiPromoteNode`, `MiRebalanceNode` and the two climbs are those of the balanced trees
of the library, with a bit field of two bits for the balance of a node.  They change
the links and the balances only; the ranges of the nodes stay what they are.

`MiGetNextNode` and `MiGetPreviousNode` go down to the edge of a subtree, or up to
the first ancestor on the other side.  In a tree that hangs, with fuel for its
nodes, they answer the neighbour in the inorder sequence, and `NULL` at its ends.
-/
import Ntoskrnl.Lib.AvlEdit
import Ntoskrnl.Mm.Vad.Model

namespace Ntoskrnl.Mm.Vad

set_option autoImplicit false

open Lib.LinkedTree Lib.Avl

theorem balanceField_keeps : Keeps balanceField := ⟨rfl, rfl, rfl⟩

namespace Memory

/-- The links and the balances of the nodes. -/
def skeleton (m : Memory) : Skeleton Addr := ⟨m.links, m.balance⟩

/-- The memory with other links and balances. -/
def turned (m : Memory) (k : Skeleton Addr) : Memory :=
  { m with links := k.links, balance := k.balance }

def SameRanges (m m' : Memory) : Prop :=
  m'.startingVpn = m.startingVpn ∧ m'.endingVpn = m.endingVpn

variable (m : Memory) (k : Skeleton Addr) (node : Addr) (value : Int) (links : Links Addr)

theorem skeleton_links : m.skeleton.links = m.links := rfl
@[simp] theorem turned_skeleton : m.turned m.skeleton = m := rfl
@[simp] theorem turned_links : (m.turned k).links = k.links := rfl
@[simp] theorem turned_balance : (m.turned k).balance = k.balance := rfl
@[simp] theorem turned_setBalance :
    (m.turned k).setBalance node value = m.turned (k.setBalance balanceField node value) := rfl
@[simp] theorem turned_withLinks : (m.turned k).withLinks links = m.turned (k.withLinks links) := rfl
@[simp] theorem turned_promote :
    (m.turned k).promote node = m.turned (k.promote null node) := rfl
@[simp] theorem turned_turned (k' : Skeleton Addr) : (m.turned k).turned k' = m.turned k' := rfl

end Memory

section Branches

variable (m : Memory) (c : Prop) [Decidable c]

theorem Memory.turned_ite (x y : Skeleton Addr) :
    m.turned (if c then x else y) = if c then m.turned x else m.turned y := apply_ite m.turned c x y

theorem Memory.turned_pair (x y : Skeleton Addr × Bool) :
    (m.turned (if c then x else y).1, (if c then x else y).2) =
      if c then (m.turned x.1, x.2) else (m.turned y.1, y.2) := by
  split <;> rfl

end Branches

theorem rebalanceNode_turned (m : Memory) (k : Skeleton Addr) (s : Addr) :
    rebalanceNode (m.turned k) s = (m.turned (rebalance null balanceField k s).1,
      (rebalance null balanceField k s).2) := by
  rw [rebalance]
  rw [Memory.turned_pair, Memory.turned_pair]
  rw [← Memory.turned_setBalance m (ite _ _ _), Memory.turned_ite, Memory.turned_ite]
  rfl

/-- The table with the outcome of a climb. -/
def Space.climbed (sp : Space) (k : Skeleton Addr) (depthOfTree : Nat) : Space :=
  { sp with memory := sp.memory.turned k, depthOfTree }

theorem insertLoop_eq (fuel : Nat) (sp : Space) (k : Skeleton Addr) (r s : Addr) :
    insertLoop fuel (sp.climbed k sp.depthOfTree) r s =
      (growLoop null sp.balancedRoot balanceField fuel k r s).map fun outcome =>
        sp.climbed outcome.1
          (if outcome.2 then (sp.depthOfTree + 1) % 2 ^ 5 else sp.depthOfTree) := by
  induction fuel generalizing k r s with
  | zero => rfl
  | succ fuel ih =>
    show (if k.balance s = 0 then insertLoop fuel (sp.climbed (k.setBalance balanceField s
          (if k.links.left (k.links.parent r) = r then -1 else 1)) sp.depthOfTree) s
          (k.links.parent s)
        else if k.balance s ≠ (if k.links.left (k.links.parent r) = r then -1 else 1) then
          some (sp.climbed (k.setBalance balanceField s 0)
            (if (k.setBalance balanceField s 0).balance sp.balancedRoot = 0 then
              (sp.depthOfTree + 1) % 2 ^ 5 else sp.depthOfTree))
        else some { sp with memory := (rebalanceNode (sp.memory.turned k) s).1 }) = _
    rw [growLoop]
    generalize (if k.links.left (k.links.parent r) = r then (-1 : Int) else 1) = a
    split
    · exact ih _ _ _
    · split
      · simp only [Option.map_some, decide_eq_true_eq]
      · rw [rebalanceNode_turned]
        rfl

theorem removeLoop_eq (fuel : Nat) (sp : Space) (k : Skeleton Addr) (p : Addr) (a : Int) :
    removeLoop fuel (sp.climbed k sp.depthOfTree) p a =
      (shrinkLoop null sp.balancedRoot balanceField fuel k p a).map fun outcome =>
        sp.climbed outcome.1
          (if outcome.2 then (sp.depthOfTree + (2 ^ 5 - 1)) % 2 ^ 5 else sp.depthOfTree) := by
  induction fuel generalizing k p a with
  | zero => rfl
  | succ fuel ih =>
    have ascend := fun (k : Skeleton Addr) (p : Addr) => ih k (k.links.parent p)
      (if k.links.right (k.links.parent p) = p then 1 else -1)
    let turned := rebalanceNode (sp.memory.turned k) p
    let parent := turned.1.links.parent p
    show (if k.balance p = a then removeLoop fuel
          (sp.climbed (k.setBalance balanceField p 0) sp.depthOfTree) (k.links.parent p)
          (if k.links.right (k.links.parent p) = p then 1 else -1)
        else if k.balance p = 0 then
          some (sp.climbed (k.setBalance balanceField p (-a))
            (if (k.setBalance balanceField p (-a)).balance sp.balancedRoot ≠ 0 then
              (sp.depthOfTree + (2 ^ 5 - 1)) % 2 ^ 5 else sp.depthOfTree))
        else if turned.2 then some { sp with memory := turned.1 }
        else removeLoop fuel { sp with memory := turned.1 } (turned.1.links.parent parent)
          (if turned.1.links.right (turned.1.links.parent parent) = parent then 1 else -1)) = _
    simp only [turned, parent, shrinkLoop, rebalanceNode_turned]
    split
    · exact ascend (k.setBalance balanceField p 0) p
    · split
      · simp only [Option.map_some, decide_eq_true_eq]
      · split
        · rfl
        · exact ascend _ _

/-- The climb that begins where a node has been taken out. -/
theorem removeLoop_start (fuel : Nat) (sp : Space) (easy : Addr) (a : Int) :
    let memory := (sp.memory.withLinks (unlinkNode sp.memory.links easy)).setBalance
      sp.balancedRoot 0
    let nodes := (sp.memory.skeleton.withLinks (unlink null sp.memory.links easy)).setBalance
      balanceField sp.balancedRoot 0
    removeLoop fuel { sp with memory } (memory.links.parent easy) a =
      (shrinkLoop null sp.balancedRoot balanceField fuel nodes (nodes.links.parent easy) a).map
        fun outcome => sp.climbed outcome.1
          (if outcome.2 then (sp.depthOfTree + (2 ^ 5 - 1)) % 2 ^ 5 else sp.depthOfTree) := by
  intro memory nodes
  exact removeLoop_eq fuel sp nodes _ a

theorem leftmost_lib (L : Links Addr) (fuel : Nat) (node : Addr) :
    leftmost L fuel node = Lib.LinkedTree.leftmost null L fuel node := by
  induction fuel generalizing node with
  | zero => rfl
  | succ fuel ih => simp [leftmost, Lib.LinkedTree.leftmost, ih]

theorem rightmost_lib (L : Links Addr) (fuel : Nat) (node : Addr) :
    rightmost L fuel node = Lib.LinkedTree.rightmost null L fuel node := by
  induction fuel generalizing node with
  | zero => rfl
  | succ fuel ih => simp [rightmost, Lib.LinkedTree.rightmost, ih]

theorem removeNode_eq (arch : Platform) (fuel : Nat) (sp : Space) (node : Addr) :
    removeNode arch fuel sp node =
      (takeOut null sp.balancedRoot balanceField fuel sp.memory.skeleton node).map fun outcome =>
        { sp.climbed outcome.1
            (if outcome.2 then (sp.depthOfTree + (2 ^ 5 - 1)) % 2 ^ 5 else sp.depthOfTree) with
          numberGenericTableElements :=
            (sp.numberGenericTableElements + (2 ^ arch.countBits - 1)) % 2 ^ arch.countBits } := by
  have easy : easyDelete fuel sp.memory node =
      Lib.Avl.easyDelete null fuel sp.memory.skeleton node := by
    simp only [easyDelete, Lib.Avl.easyDelete, leftmost_lib, rightmost_lib]
    rfl
  rw [removeNode, takeOut, easy]
  cases Lib.Avl.easyDelete null fuel sp.memory.skeleton node with
  | none => rfl
  | some easy =>
    dsimp only
    rw [removeLoop_start, Memory.skeleton_links]
    generalize shrinkLoop null sp.balancedRoot balanceField fuel _ _ _ = found
    cases found with
    | none => rfl
    | some =>
      by_cases same : node = easy
      · simp [same, Space.climbed]
      · simp [same, Space.climbed]
        rfl

/-! ## Up to an ancestor -/

open Lib.SplayTree

variable {L : Links Addr} {top node : Addr} {path : List (Crumb Addr)} {fuel : Nat}

/-- On the way up, the first ancestor with the node on its left is the first node after. -/
theorem nextAncestor_eq (on : OnWay L null top path node) (enough : path.length + 2 ≤ fuel) :
    nextAncestor L fuel node = some ((after path).headD null) := by
  induction path generalizing node fuel with
  | nil =>
    obtain ⟨fuel, rfl⟩ : ∃ n, fuel = n + 2 := ⟨fuel - 2, by simp at enough; omega⟩
    obtain ⟨parent, ne, -, notLeft, -⟩ := on.at_top
    simp [nextAncestor, parent, ne, on.noLeft, notLeft, on.self, after]
  | cons crumb path ih =>
    obtain ⟨fuel, rfl⟩ := Nat.exists_eq_add_of_lt enough
    cases crumb with
    | leftOf =>
      obtain ⟨parent, ne, left, -⟩ := on.at_left
      simp [nextAncestor, parent, ne, left, after]
    | rightOf =>
      obtain ⟨parent, ne, -, notLeft, -⟩ := on.at_right
      simp only [nextAncestor, parent, ne, notLeft, if_false, after]
      exact ih on.higher (by simp)

/-- On the way up, the first ancestor with the node on its right is the last node before; the
table itself does not count. -/
theorem previousAncestor_eq (on : OnWay L null top path node) (enough : path.length + 1 ≤ fuel) :
    previousAncestor L fuel node = some ((before path).getLastD null) := by
  induction path generalizing node fuel with
  | nil =>
    obtain ⟨fuel, rfl⟩ := Nat.exists_eq_add_of_lt enough
    obtain ⟨parent, ne, -, -, right⟩ := on.at_top
    simp [previousAncestor, parent, ne, right, on.self, before]
  | cons crumb path ih =>
    obtain ⟨fuel, rfl⟩ := Nat.exists_eq_add_of_lt enough
    cases crumb with
    | leftOf =>
      obtain ⟨parent, ne, -, notRight⟩ := on.at_left
      simp only [previousAncestor, parent, ne, notRight, if_false, before]
      exact ih on.higher (by simp)
    | rightOf =>
      obtain ⟨parent, ne, right, -, notTop⟩ := on.at_right
      simp [previousAncestor, parent, ne, right, notTop.symm, before]

/-! ## Neighbours in the sequence -/

variable {t : BinaryTree Addr} {xs ys : List Addr} {x : Addr} (hangs : Hangs L null top t)
  (split : inorder t = xs ++ x :: ys) (enough : (inorder t).length + 2 ≤ fuel)

include hangs split enough

theorem getNextNode_eq : getNextNode fuel L x = some (ys.headD null) := by
  obtain ⟨path, l, r, rfl, -, rfl⟩ := Hangs.at_node hangs split
  have short := length_lt_plug path x l r
  rcases hangs.right_cases (show _ ≤ fuel by omega) with ⟨none, empty⟩ | ⟨present, found⟩
  · rw [getNextNode, if_pos none, nextAncestor_eq hangs.onWay (by omega), empty, List.nil_append]
  · rw [getNextNode, if_neg present, leftmost_lib, found]

theorem getPreviousNode_eq : getPreviousNode fuel L x = some (xs.getLastD null) := by
  obtain ⟨path, l, r, rfl, rfl, -⟩ := Hangs.at_node hangs split
  have short := length_lt_plug path x l r
  rcases hangs.left_cases (show _ ≤ fuel by omega) with ⟨none, empty⟩ | ⟨present, found⟩
  · rw [getPreviousNode, if_pos none, previousAncestor_eq hangs.onWay (by omega), empty,
      List.append_nil]
  · rw [getPreviousNode, if_neg present, rightmost_lib, found]

end Ntoskrnl.Mm.Vad
