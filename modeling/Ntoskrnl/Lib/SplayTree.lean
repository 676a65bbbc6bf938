/-
# Ntoskrnl.Lib.SplayTree -- binary trees with a cursor, splayed bottom up

A search tree is kept as a `BinaryTree`; a pointer to one of its nodes is a
cursor (`Loc`): the two subtrees of the node, its value, and the way back up to
the root. Splaying, deleting and attaching children change the shape of the
tree and are described here by what they do to its inorder sequence.

* `inorder_splay`: splaying keeps the sequence and puts the node at the root;
* `inorder_delete`: deleting a node removes its value and nothing else;
* `descend_found`, `descend_edge`: a search whose verdicts are ordered along
  the sequence finds its first hit, or the gap where a hit would belong.
-/
import Mathlib.Data.List.Induction
import Mathlib.Data.Tree.Basic

namespace Ntoskrnl.Lib.SplayTree

open List

set_option autoImplicit false

variable {α : Type}

/-- The values of a tree from left to right. -/
def inorder : BinaryTree α → List α
  | .nil => []
  | .node x l r => inorder l ++ x :: inorder r

@[simp] theorem inorder_nil : inorder (.nil : BinaryTree α) = [] := rfl

@[simp] theorem inorder_node (x : α) (l r : BinaryTree α) :
    inorder (.node x l r) = inorder l ++ x :: inorder r := rfl

variable {t : BinaryTree α} {x : α} {xs low hits high : List α}

theorem eq_nil_of_inorder (empty : inorder t = []) : t = .nil := by
  cases t with
  | nil => rfl
  | node => simp at empty

/-- One step up from a subtree: the parent and the subtree on its other side. -/
inductive Crumb (α : Type) where
  | leftOf (parent : α) (right : BinaryTree α)
  | rightOf (left : BinaryTree α) (parent : α)

/-- The values to the left of a subtree, from the steps above it. -/
def before : List (Crumb α) → List α
  | [] => []
  | .leftOf _ _ :: path => before path
  | .rightOf l x :: path => before path ++ inorder l ++ [x]

/-- The values to the right of a subtree. -/
def after : List (Crumb α) → List α
  | [] => []
  | .leftOf x r :: path => x :: inorder r ++ after path
  | .rightOf _ _ :: path => after path

/-- The whole tree around a subtree. -/
def plug (t : BinaryTree α) : List (Crumb α) → BinaryTree α
  | [] => t
  | .leftOf x r :: path => plug (.node x t r) path
  | .rightOf l x :: path => plug (.node x l t) path

theorem inorder_plug (t : BinaryTree α) (path : List (Crumb α)) :
    inorder (plug t path) = before path ++ inorder t ++ after path := by
  induction path generalizing t with
  | nil => simp [plug, before, after]
  | cons crumb path ih => cases crumb <;> simp [plug, before, after, ih]

theorem before_append (inner outer : List (Crumb α)) :
    before (inner ++ outer) = before outer ++ before inner := by
  induction inner with
  | nil => simp [before]
  | cons crumb inner ih => cases crumb <;> simp [before, ih]

theorem after_append (inner outer : List (Crumb α)) :
    after (inner ++ outer) = after inner ++ after outer := by
  induction inner with
  | nil => simp [after]
  | cons crumb inner ih => cases crumb <;> simp [after, ih]

/-- A pointer to a node: its children, its value and the steps up to the root. -/
structure Loc (α : Type) where
  left : BinaryTree α
  val : α
  right : BinaryTree α
  path : List (Crumb α)

namespace Loc

variable (loc : Loc α)

/-- The values before the node. -/
def before : List α :=
  SplayTree.before loc.path ++ inorder loc.left

/-- The values after the node. -/
def after : List α :=
  inorder loc.right ++ SplayTree.after loc.path

/-- The tree the node belongs to. -/
def tree : BinaryTree α :=
  plug (.node loc.val loc.left loc.right) loc.path

theorem inorder_tree : inorder loc.tree = loc.before ++ loc.val :: loc.after := by
  simp [tree, inorder_plug, before, after]

end Loc

/-! ## Splaying -/

/-- Rotate a node with children `l` and `r` to the root, two levels at a time;
the result is its new pair of children. -/
def splayChildren (l r : BinaryTree α) : List (Crumb α) → BinaryTree α × BinaryTree α
  | [] => (l, r)
  | [.leftOf p c] => (l, .node p r c)
  | [.rightOf a p] => (.node p a l, r)
  | .leftOf p c :: .leftOf g d :: path => splayChildren l (.node p r (.node g c d)) path
  | .leftOf p d :: .rightOf a g :: path => splayChildren (.node g a l) (.node p r d) path
  | .rightOf b p :: .rightOf a g :: path => splayChildren (.node p (.node g a b) l) r path
  | .rightOf a p :: .leftOf g d :: path => splayChildren (.node p a l) (.node g r d) path

theorem inorder_splayChildren (l r : BinaryTree α) (path : List (Crumb α)) :
    inorder (splayChildren l r path).1 = before path ++ inorder l ∧
      inorder (splayChildren l r path).2 = inorder r ++ after path := by
  fun_induction splayChildren l r path <;> simp_all [before, after]

/-- `RtlSplay`: the node becomes the root. -/
def Loc.splay (loc : Loc α) : Loc α where
  left := (splayChildren loc.left loc.right loc.path).1
  val := loc.val
  right := (splayChildren loc.left loc.right loc.path).2
  path := []

@[simp] theorem Loc.splay_val (loc : Loc α) : loc.splay.val = loc.val := rfl

@[simp] theorem Loc.splay_path (loc : Loc α) : loc.splay.path = [] := rfl

@[simp] theorem Loc.inorder_splay_left (loc : Loc α) : inorder loc.splay.left = loc.before :=
  (inorder_splayChildren _ _ _).1

@[simp] theorem Loc.inorder_splay_right (loc : Loc α) : inorder loc.splay.right = loc.after :=
  (inorder_splayChildren _ _ _).2

/-- **Splaying only rebalances.** -/
theorem Loc.inorder_splay (loc : Loc α) :
    inorder loc.splay.tree = loc.before ++ loc.val :: loc.after := by
  simp [tree, plug]

/-! ## Attaching and deleting -/

/-- `RtlInsertAsLeftChild`: a new leaf as the left child of the node. -/
def Loc.insertAsLeftChild (loc : Loc α) (x : α) : Loc α :=
  ⟨.nil, x, .nil, .leftOf loc.val loc.right :: loc.path⟩

/-- `RtlInsertAsRightChild`: a new leaf as the right child of the node. -/
def Loc.insertAsRightChild (loc : Loc α) (x : α) : Loc α :=
  ⟨.nil, x, .nil, .rightOf loc.left loc.val :: loc.path⟩

/-- A run of new nodes, each the right child of the one before it. -/
def chain : List α → BinaryTree α
  | [] => .nil
  | x :: xs => .node x .nil (chain xs)

@[simp] theorem inorder_chain (xs : List α) : inorder (chain xs) = xs := by
  induction xs with
  | nil => rfl
  | cons x xs ih => simp [chain, ih]

/-- Hang a tree under the leftmost node of another. -/
def attach (t : BinaryTree α) : BinaryTree α → BinaryTree α
  | .nil => t
  | .node x l r => .node x (attach t l) r

@[simp] theorem inorder_attach (t u : BinaryTree α) :
    inorder (attach t u) = inorder t ++ inorder u := by
  induction u with
  | nil => simp [attach]
  | node x l r ihl => simp [attach, ihl]

/-- The value of the leftmost node. -/
def minimum : BinaryTree α → Option α
  | .nil => none
  | .node x .nil _ => some x
  | .node _ (.node y l r) _ => minimum (.node y l r)

theorem minimum_eq (t : BinaryTree α) : minimum t = (inorder t).head? := by
  fun_induction minimum t <;> simp_all

/-- Unlink the leftmost node; its right subtree takes its place. -/
def popMinimum : BinaryTree α → Option (α × BinaryTree α)
  | .nil => none
  | .node x .nil r => some (x, r)
  | .node x (.node y l r) r' =>
    (popMinimum (.node y l r)).map fun p => (p.1, .node x p.2 r')

theorem popMinimum_inorder {t' : BinaryTree α} (popped : popMinimum t = some (x, t')) :
    inorder t = x :: inorder t' := by
  fun_induction popMinimum t generalizing t' with
  | case1 => simp at popped
  | case2 y r =>
    obtain ⟨rfl, rfl⟩ := popped
    simp
  | case3 y z l r r' ih =>
    simp only [Option.map_eq_some_iff, Prod.mk.injEq, Prod.exists] at popped
    obtain ⟨w, u, inner, rfl, rfl⟩ := popped
    rw [inorder_node, ih inner]
    rfl

theorem popMinimum_eq_none (none_left : popMinimum t = none) : inorder t = [] := by
  fun_induction popMinimum t <;> simp_all

/-- Put a subtree in the place of a deleted node and splay the parent. -/
def splayParent (t : BinaryTree α) : List (Crumb α) → BinaryTree α
  | [] => t
  | .leftOf x r :: path => (Loc.splay ⟨t, x, r, path⟩).tree
  | .rightOf l x :: path => (Loc.splay ⟨l, x, t, path⟩).tree

theorem inorder_splayParent (t : BinaryTree α) (path : List (Crumb α)) :
    inorder (splayParent t path) = before path ++ inorder t ++ after path := by
  cases path with
  | nil => simp [splayParent, before, after]
  | cons crumb =>
    cases crumb <;> simp [splayParent, Loc.inorder_splay, before, after, Loc.before, Loc.after]

/-- The rightmost node below a node with the children `l` and `r`. -/
def rightmost (l : BinaryTree α) (x : α) : BinaryTree α → List (Crumb α) → Loc α
  | .nil, path => ⟨l, x, .nil, path⟩
  | .node y a b, path => rightmost a y b (.rightOf l x :: path)

theorem rightmost_spec (l : BinaryTree α) (x : α) (r : BinaryTree α) (path : List (Crumb α)) :
    (rightmost l x r path).before ++ [(rightmost l x r path).val] =
        before path ++ inorder l ++ x :: inorder r ∧
      after (rightmost l x r path).path = after path := by
  induction r generalizing l x path with
  | nil => simp [rightmost, Loc.before]
  | node y a b _ ih =>
    obtain ⟨upTo, rest⟩ := ih a y (.rightOf l x :: path)
    refine ⟨?_, ?_⟩
    · rw [rightmost, upTo]
      simp [before]
    · rw [rightmost, rest]
      rfl

/-- `RtlDelete`: a node with two children first changes places with its
predecessor; the parent of the place that becomes free is splayed. -/
def Loc.delete (loc : Loc α) : BinaryTree α :=
  match loc.left, loc.right with
  | .nil, r => splayParent r loc.path
  | l, .nil => splayParent l loc.path
  | .node y a b, r =>
    let pred := rightmost a y b []
    splayParent pred.left (pred.path ++ .leftOf pred.val r :: loc.path)

/-- **Deleting a node removes its value and nothing else.** -/
theorem Loc.inorder_delete (loc : Loc α) : inorder loc.delete = loc.before ++ loc.after := by
  rcases loc with ⟨l, x, r, path⟩
  cases l with
  | nil => simp [delete, inorder_splayParent, before, after]
  | node y a b =>
    cases r with
    | nil => simp [delete, inorder_splayParent, before, after]
    | node =>
      obtain ⟨upTo, rest⟩ := rightmost_spec a y b []
      simp only [SplayTree.before, SplayTree.after, nil_append, Loc.before] at upTo rest
      simp only [Loc.delete, inorder_splayParent, before_append, after_append, SplayTree.before,
        SplayTree.after, rest, Loc.before, Loc.after, inorder_node, nil_append]
      rw [← upTo]
      simp

/-! ## Walking in order -/

/-- The leftmost node below a node with the children `l` and `r`. -/
def leftmost (x : α) (r : BinaryTree α) : BinaryTree α → List (Crumb α) → Loc α
  | .nil, path => ⟨.nil, x, r, path⟩
  | .node y a b, path => leftmost y b a (.leftOf x r :: path)

theorem leftmost_spec (l : BinaryTree α) (x : α) (r : BinaryTree α) (path : List (Crumb α)) :
    (leftmost x r l path).before = before path ∧
      (leftmost x r l path).val :: (leftmost x r l path).after =
        inorder l ++ x :: inorder r ++ after path := by
  induction l generalizing x r path with
  | nil => simp [leftmost, Loc.before, Loc.after]
  | node y a b ih =>
    obtain ⟨upTo, rest⟩ := ih y b (.leftOf x r :: path)
    refine ⟨upTo, ?_⟩
    rw [leftmost, rest]
    simp [after]

/-- The first ancestor of which a subtree is a left descendant. -/
def climb (t : BinaryTree α) : List (Crumb α) → Option (Loc α)
  | [] => none
  | .leftOf x r :: path => some ⟨t, x, r, path⟩
  | .rightOf l x :: path => climb (.node x l t) path

/-- `RtlRealSuccessor`. -/
def Loc.successor (loc : Loc α) : Option (Loc α) :=
  match loc.right with
  | .node y a b => some (leftmost y b a (.rightOf loc.left loc.val :: loc.path))
  | .nil => climb (.node loc.val loc.left .nil) loc.path

theorem climb_spec (t : BinaryTree α) (path : List (Crumb α)) :
    (climb t path = none ∧ after path = []) ∨
      ∃ next, climb t path = some next ∧ next.before = before path ++ inorder t ∧
        next.val :: next.after = after path := by
  induction path generalizing t with
  | nil => exact .inl ⟨rfl, rfl⟩
  | cons crumb path ih =>
    cases crumb with
    | leftOf => exact .inr ⟨_, rfl, rfl, rfl⟩
    | rightOf l x =>
      rcases ih (.node x l t) with ⟨stuck, rest⟩ | ⟨next, found, upTo, rest⟩
      · exact .inl ⟨stuck, rest⟩
      · exact .inr ⟨next, found, by simpa [before] using upTo, rest⟩

/-- The successor is the next value of the inorder sequence. -/
theorem Loc.successor_spec (loc : Loc α) : (loc.successor = none ∧ loc.after = []) ∨
      ∃ next, loc.successor = some next ∧ next.before = loc.before ++ [loc.val] ∧
        next.val :: next.after = loc.after := by
  rcases loc with ⟨l, x, r, path⟩
  cases r with
  | nil =>
    rcases climb_spec (.node x l .nil) path with ⟨stuck, rest⟩ | ⟨next, found, upTo, rest⟩
    · exact .inl ⟨stuck, by simp [after, rest]⟩
    · refine .inr ⟨next, found, ?_, ?_⟩
      · rw [upTo]
        simp [before]
      · rw [rest]
        simp [after]
  | node y a b =>
    obtain ⟨upTo, rest⟩ := leftmost_spec a y b (.rightOf l x :: path)
    refine .inr ⟨_, rfl, ?_, ?_⟩
    · rw [upTo]
      simp [SplayTree.before, Loc.before]
    · rw [rest]
      simp [SplayTree.after, Loc.after]

/-- The first node in order. -/
def first : BinaryTree α → Option (Loc α)
  | .nil => none
  | .node x l r => some (leftmost x r l [])

/-- The node at a position of the inorder sequence: the first one, then
successor after successor. -/
def nth (t : BinaryTree α) : Nat → Option (Loc α)
  | 0 => first t
  | i + 1 => (nth t i).bind Loc.successor

variable {ys : List α}

theorem nth_spec (split : inorder t = xs ++ x :: ys) :
    ∃ loc, nth t xs.length = some loc ∧ loc.before = xs ∧ loc.val = x ∧ loc.after = ys := by
  induction xs using reverseRecOn generalizing x ys with
  | nil =>
    cases t with
    | nil => simp at split
    | node y l r =>
      obtain ⟨upTo, rest⟩ := leftmost_spec l y r []
      simp only [after, append_nil, ← inorder_node, split, nil_append, cons.injEq] at rest
      exact ⟨_, rfl, upTo, rest.1, rest.2⟩
  | append_singleton xs y ih =>
    obtain ⟨loc, found, upTo, here, rest⟩ := ih (by simpa using split)
    rcases loc.successor_spec with ⟨-, stuck⟩ | ⟨next, step, upTo', rest'⟩
    · simp [rest] at stuck
    · rw [rest, cons.injEq] at rest'
      refine ⟨next, ?_, by rw [upTo', upTo, here], rest'.1, rest'.2⟩
      rw [length_append, length_singleton, nth, found, Option.bind_some, step]

/-! ## Searching -/

/-- What a search makes of the node it stands at: it has arrived, the wanted
values lie to the right or to the left, or this node is a candidate and a
better one may lie to the left. A candidate says on which side of the wanted
place it counts itself. -/
inductive Probe where
  | stop
  | less
  | greater
  | mark (greaterThan : Bool)
deriving DecidableEq

/-- What a search brings back: the node found, the last node passed on the way,
and whether that node lies beyond the wanted place. -/
structure Descent (α : Type) where
  found : Option (Loc α)
  edge : Option (Loc α)
  greaterThan : Bool

/-- Walk down from a subtree, keeping the last candidate and the last node passed. -/
def descend (probe : α → Probe) :
    BinaryTree α → List (Crumb α) → Option (Loc α) → Option (Loc α) → Bool → Descent α
  | .nil, _, candidate, edge, greaterThan => ⟨candidate, edge, greaterThan⟩
  | .node x l r, path, candidate, edge, greaterThan =>
    match probe x with
    | .stop => ⟨some ⟨l, x, r, path⟩, edge, greaterThan⟩
    | .less => descend probe r (.rightOf l x :: path) candidate (some ⟨l, x, r, path⟩) false
    | .greater => descend probe l (.leftOf x r :: path) candidate (some ⟨l, x, r, path⟩) true
    | .mark beyond =>
      descend probe l (.leftOf x r :: path) (some ⟨l, x, r, path⟩) (some ⟨l, x, r, path⟩) beyond

def search (probe : α → Probe) (t : BinaryTree α) : Descent α :=
  descend probe t [] none none false

/-- A node a search may return. -/
def Probe.Hit (p : Probe) : Prop :=
  p = .stop ∨ ∃ beyond, p = .mark beyond

/-- Verdicts in order: values too small, then hits, then values too large. -/
structure Graded (probe : α → Probe) (low hits high : List α) : Prop where
  low : ∀ x ∈ low, probe x = .less
  hits : ∀ x ∈ hits, (probe x).Hit
  high : ∀ x ∈ high, probe x = .greater

/-- Where a verdict puts a value: before the hits, among them, behind them. -/
def Probe.rank : Probe → Nat
  | .less => 0
  | .stop => 1
  | .mark _ => 1
  | .greater => 2

variable {probe : α → Probe}

/-- Verdicts that never step back grade a sequence. -/
theorem exists_graded (sorted : xs.Pairwise fun a b => (probe a).rank ≤ (probe b).rank) :
    ∃ low hits high, xs = low ++ hits ++ high ∧ Graded probe low hits high := by
  induction xs with
  | nil => exact ⟨[], [], [], rfl, by simp, by simp, by simp⟩
  | cons x xs ih =>
    obtain ⟨later, tail⟩ := pairwise_cons.mp sorted
    obtain ⟨low, hits, high, rfl, lows, hit, highs⟩ := ih tail
    have noLow : 0 < (probe x).rank → low = [] := fun positive => by
      refine eq_nil_iff_forall_not_mem.mpr fun y inside => ?_
      have := later y (by simp [inside])
      rw [lows y inside] at this
      exact absurd this (Nat.not_le.mpr positive)
    cases verdict : probe x with
    | less => exact ⟨x :: low, hits, high, rfl, by simpa [verdict] using lows, hit, highs⟩
    | stop =>
      obtain rfl := noLow (by simp [verdict, Probe.rank])
      refine ⟨[], x :: hits, high, rfl, by simp, ?_, highs⟩
      exact forall_mem_cons.mpr ⟨.inl verdict, hit⟩
    | mark side =>
      obtain rfl := noLow (by simp [verdict, Probe.rank])
      refine ⟨[], x :: hits, high, rfl, by simp, ?_, highs⟩
      exact forall_mem_cons.mpr ⟨.inr ⟨side, verdict⟩, hit⟩
    | greater =>
      obtain rfl := noLow (by simp [verdict, Probe.rank])
      have noHit : hits = [] := by
        refine eq_nil_iff_forall_not_mem.mpr fun y inside => ?_
        have := later y (by simp [inside])
        rcases hit y inside with stop | ⟨side, mark⟩
        · simp [verdict, stop, Probe.rank] at this
        · simp [verdict, mark, Probe.rank] at this
      subst noHit
      exact ⟨[], [], x :: high, rfl, by simp, by simp, by simpa [verdict] using highs⟩

theorem split_two (same : xs ++ x :: ys = low ++ high) :
    (∃ more, low = xs ++ x :: more ∧ ys = more ++ high) ∨
      ∃ less, high = less ++ x :: ys ∧ xs = low ++ less := by
  rcases append_eq_append_iff.mp same with ⟨mid, inLow, rest⟩ | ⟨mid, inLow, rest⟩
  · cases mid with
    | nil => exact .inr ⟨[], rest.symm, by simpa using inLow.symm⟩
    | cons m mid =>
      obtain ⟨rfl, tail⟩ := cons.inj rest
      exact .inl ⟨mid, inLow, tail⟩
  · exact .inr ⟨mid, rest, inLow⟩

/-- A value of a sequence in three parts lies in one of them. -/
theorem split_at (same : xs ++ x :: ys = low ++ hits ++ high) :
    (∃ more, low = xs ++ x :: more ∧ ys = more ++ hits ++ high) ∨
      (∃ first later, hits = first ++ x :: later ∧ xs = low ++ first ∧ ys = later ++ high) ∨
      ∃ less, high = less ++ x :: ys ∧ xs = low ++ hits ++ less := by
  rw [append_assoc] at same
  rcases split_two same with ⟨more, inLow, rest⟩ | ⟨first, beyond, before⟩
  · exact .inl ⟨more, inLow, by rw [rest, append_assoc]⟩
  · rcases split_two beyond.symm with ⟨later, inHits, rest⟩ | ⟨less, inHigh, rest⟩
    · exact .inr (.inl ⟨first, later, inHits, before, rest⟩)
    · exact .inr (.inr ⟨less, inHigh, by rw [before, rest, append_assoc]⟩)

section Descend

variable (t : BinaryTree α) (path : List (Crumb α)) (candidate edge : Option (Loc α))
  (greaterThan : Bool)

/-- **A search finds the first hit**, or any hit that stops it. -/
theorem descend_found (sequence : inorder t = low ++ hits ++ high)
    (graded : Graded probe low hits high) :
    (hits = [] → (descend probe t path candidate edge greaterThan).found = candidate) ∧
      (hits ≠ [] → ∃ loc first later,
        (descend probe t path candidate edge greaterThan).found = some loc ∧
        hits = first ++ loc.val :: later ∧ loc.before = before path ++ low ++ first ∧
        loc.after = later ++ high ++ after path ∧ (first = [] ∨ probe loc.val = .stop)) := by
  induction t generalizing path candidate edge greaterThan low hits high with
  | nil =>
    simp only [inorder_nil, nil_eq, append_eq_nil_iff] at sequence
    exact ⟨fun _ => rfl, fun some => absurd sequence.1.2 some⟩
  | node x l r ihl ihr =>
    obtain ⟨lows, hit, highs⟩ := graded
    rcases split_at sequence with ⟨more, rfl, right⟩ | ⟨early, later, rfl, left, right⟩ |
      ⟨less, rfl, left⟩
    · -- too small: everything wanted lies in the right subtree
      have less : probe x = .less := lows x (by simp)
      have inner := ihr (.rightOf l x :: path) candidate (some ⟨l, x, r, path⟩) false right
        ⟨fun y hy => lows y (by simp [hy]), hit, highs⟩
      simp only [descend, less]
      refine ⟨inner.1, fun some => ?_⟩
      obtain ⟨loc, first, later, found, parts, upTo, rest, kind⟩ := inner.2 some
      exact ⟨loc, first, later, found, parts, by simpa [before] using upTo, rest, kind⟩
    · refine ⟨fun none => by simp at none, fun _ => ?_⟩
      rcases hit x (by simp) with stop | ⟨beyond, mark⟩
      · refine ⟨⟨l, x, r, path⟩, early, later, ?_, rfl, ?_, ?_, .inr stop⟩
        · simp only [descend, stop]
        · simp [Loc.before, left]
        · simp [Loc.after, right]
      · -- a candidate: a hit in the left subtree is preferred
        have leftParts : inorder l = low ++ early ++ [] := by simpa using left
        have inner := ihl (.leftOf x r :: path) (some ⟨l, x, r, path⟩) (some ⟨l, x, r, path⟩)
          beyond leftParts ⟨lows, fun y hy => hit y (by simp [hy]), by simp⟩
        simp only [descend, mark]
        by_cases none : early = []
        · refine ⟨⟨l, x, r, path⟩, [], later, inner.1 none, by simp [none], ?_, ?_, Or.inl rfl⟩
          · simp [Loc.before, left, none]
          · simp [Loc.after, right]
        · obtain ⟨loc, first, later', found, parts, upTo, rest, kind⟩ := inner.2 none
          refine ⟨loc, first, later' ++ x :: later, found, by simp [parts], ?_, ?_, kind⟩
          · simpa [before] using upTo
          · simpa [after, right] using rest
    · have beyond : probe x = .greater := highs x (by simp)
      have inner := ihl (.leftOf x r :: path) candidate (some ⟨l, x, r, path⟩) true left
        ⟨lows, hit, fun y hy => highs y (by simp [hy])⟩
      simp only [descend, beyond]
      refine ⟨inner.1, fun some => ?_⟩
      obtain ⟨loc, first, later, found, parts, upTo, rest, kind⟩ := inner.2 some
      exact ⟨loc, first, later, found, parts, by simpa [before] using upTo,
        by simpa [after] using rest, kind⟩

/-- The gap a search without a hit ends in: left or right of its last node. -/
def Descent.Edge (d : Descent α) (low high : List α) : Prop :=
  ∃ edge, d.edge = some edge ∧ ((d.greaterThan ∧ edge.left = .nil ∧ edge.before = low ∧
        edge.val :: edge.after = high) ∨
      (d.greaterThan = false ∧ edge.right = .nil ∧ edge.before ++ [edge.val] = low ∧
        edge.after = high))

theorem descend_edge (sequence : inorder t = low ++ high)
    (graded : Graded probe low [] high) (nonempty : t ≠ .nil) :
    (descend probe t path candidate edge greaterThan).Edge (before path ++ low)
      (high ++ after path) := by
  induction t generalizing path candidate edge greaterThan low high with
  | nil => exact absurd rfl nonempty
  | node x l r ihl ihr =>
    obtain ⟨lows, hit, highs⟩ := graded
    have parts : inorder l ++ x :: inorder r = low ++ [] ++ high := by simpa using sequence
    rcases split_at parts with ⟨more, rfl, right⟩ | ⟨early, later, none, -, -⟩ | ⟨less, rfl, left⟩
    · have verdict : probe x = .less := lows x (by simp)
      simp only [descend, verdict]
      by_cases leaf : r = .nil
      · subst leaf
        have ends : more = [] ∧ high = [] := by simpa using right
        refine ⟨⟨l, x, .nil, path⟩, rfl, .inr ⟨rfl, rfl, ?_, ?_⟩⟩
        · simp [Loc.before, ends.1]
        · simp [Loc.after, ends.2]
      · have inner := ihr (.rightOf l x :: path) candidate (some ⟨l, x, r, path⟩) false
          (by simpa using right) ⟨fun y hy => lows y (by simp [hy]), by simp, highs⟩ leaf
        simpa [before, after] using inner
    · simp at none
    · have verdict : probe x = .greater := highs x (by simp)
      simp only [descend, verdict]
      by_cases leaf : l = .nil
      · subst leaf
        have ends : low = [] ∧ less = [] := by simpa using left
        refine ⟨⟨.nil, x, r, path⟩, rfl, .inl ⟨rfl, rfl, ?_, ?_⟩⟩
        · simp [Loc.before, ends.1]
        · simp [Loc.after, ends.2]
      · have inner := ihl (.leftOf x r :: path) candidate (some ⟨l, x, r, path⟩) true
          (by simpa using left) ⟨lows, by simp, fun y hy => highs y (by simp [hy])⟩ leaf
        simpa [before, after] using inner

/-- The node stands in the sequence. -/
def Loc.Inside (whole : List α) (loc : Loc α) : Prop :=
  loc.before ++ loc.val :: loc.after = whole

/-- Every node a search touches belongs to the tree it walks. -/
theorem descend_inside (probe : α → Probe) {whole : List α}
    (inside : before path ++ inorder t ++ after path = whole)
    (candidateInside : ∀ loc ∈ candidate, loc.Inside whole)
    (edgeInside : ∀ loc ∈ edge, loc.Inside whole) :
    (∀ loc ∈ (descend probe t path candidate edge greaterThan).found, loc.Inside whole) ∧
      ∀ loc ∈ (descend probe t path candidate edge greaterThan).edge, loc.Inside whole := by
  induction t generalizing path candidate edge greaterThan with
  | nil => exact ⟨candidateInside, edgeInside⟩
  | node x l r ihl ihr =>
    have here : ∀ loc ∈ some (⟨l, x, r, path⟩ : Loc α), loc.Inside whole := by
      intro loc same
      obtain rfl := Option.mem_some_iff.mp same
      simpa [Loc.Inside, Loc.before, Loc.after] using inside
    have below : before (.leftOf x r :: path) ++ inorder l ++ after (.leftOf x r :: path) =
        whole := by simpa [before, after] using inside
    have beyond : before (.rightOf l x :: path) ++ inorder r ++ after (.rightOf l x :: path) =
        whole := by simpa [before, after] using inside
    rw [descend]
    cases probe x with
    | stop => exact ⟨here, edgeInside⟩
    | less => exact ihr _ _ _ _ beyond candidateInside here
    | greater => exact ihl _ _ _ _ below candidateInside here
    | mark => exact ihl _ _ _ _ below here here

end Descend

/-- Splay the last node a search passed, if it passed one. -/
def rebalance (t : BinaryTree α) : Option (Loc α) → BinaryTree α
  | none => t
  | some edge => edge.splay.tree

theorem inorder_rebalance (probe : α → Probe) (t : BinaryTree α) :
    inorder (rebalance t (search probe t).edge) = inorder t := by
  have all : before [] ++ inorder t ++ after [] = inorder t := by simp [before, after]
  have inside := (descend_inside t [] none none false probe all (by simp) (by simp)).2
  cases found : (search probe t).edge with
  | none => rfl
  | some edge =>
    rw [rebalance, Loc.inorder_splay]
    exact inside edge found

/-- What a search finds stands in the tree. -/
theorem search_inside {loc : Loc α} (found : (search probe t).found = some loc) :
    inorder t = loc.before ++ loc.val :: loc.after := by
  have all : before [] ++ inorder t ++ after [] = inorder t := by simp [before, after]
  exact ((descend_inside t [] none none false probe all (by simp) (by simp)).1 loc found).symm

theorem search_found (sequence : inorder t = low ++ hits ++ high)
    (graded : Graded probe low hits high) (some_hit : hits ≠ []) :
    ∃ loc first later, (search probe t).found = some loc ∧ hits = first ++ loc.val :: later ∧
      loc.before = low ++ first ∧ loc.after = later ++ high ∧
      (first = [] ∨ probe loc.val = .stop) := by
  obtain ⟨loc, first, later, found, parts, upTo, rest, kind⟩ :=
    (descend_found t [] none none false sequence graded).2 some_hit
  exact ⟨loc, first, later, found, parts, by simpa [before] using upTo,
    by simpa [after] using rest, kind⟩

theorem search_missed (sequence : inorder t = low ++ high) (graded : Graded probe low [] high) :
    (search probe t).found = none :=
  (descend_found t [] none none false (by simpa using sequence) graded).1 rfl

/-- A new leaf at the end of a search without a hit. -/
def Descent.newLeaf (d : Descent α) (x : α) : Loc α :=
  match d.edge with
  | none => ⟨.nil, x, .nil, []⟩
  | some edge =>
    if d.greaterThan then edge.insertAsLeftChild x else edge.insertAsRightChild x

@[simp] theorem Descent.newLeaf_val (d : Descent α) (x : α) : (d.newLeaf x).val = x := by
  unfold Descent.newLeaf
  split
  · rfl
  · split <;> rfl

/-- **The leaf lands in the gap.** -/
theorem search_newLeaf (sequence : inorder t = low ++ high)
    (graded : Graded probe low [] high) (x : α) :
    ((search probe t).newLeaf x).before = low ∧ ((search probe t).newLeaf x).after = high := by
  by_cases leaf : t = .nil
  · subst leaf
    have ends : low = [] ∧ high = [] := by simpa using sequence
    simp [search, descend, Descent.newLeaf, Loc.before, Loc.after, before, after, ends]
  · have gap := descend_edge t [] none none false sequence graded leaf
    obtain ⟨edge, found, side⟩ := gap
    have found : (search probe t).edge = some edge := found
    rcases side with ⟨greater, noLeft, upTo, rest⟩ | ⟨less, noRight, upTo, rest⟩
    · have greater : (search probe t).greaterThan := greater
      simp only [Descent.newLeaf, found, greater, if_true, Loc.insertAsLeftChild]
      simp only [Loc.before, noLeft, inorder_nil, append_nil, nil_append,
        SplayTree.before, SplayTree.after, Loc.after] at upTo rest ⊢
      exact ⟨upTo, by simpa using rest⟩
    · have less : (search probe t).greaterThan = false := less
      simp only [Descent.newLeaf, found, less, Loc.insertAsRightChild]
      simp only [Loc.before, noRight, inorder_nil, nil_append, Loc.after] at upTo rest ⊢
      exact ⟨by simpa [before] using upTo, by simpa [after] using rest⟩

end Ntoskrnl.Lib.SplayTree
