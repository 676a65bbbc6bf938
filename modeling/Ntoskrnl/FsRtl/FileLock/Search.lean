/-
# Ntoskrnl.FsRtl.FileLock.Search -- what the two tree searches find

Both trees hold stretches of the file in ascending order: a shared node reaches from its
first lock to its extent, an exclusive lock is a stretch of its own.  A search for the
first stretch that overlaps a range therefore finds it, or finds that there is none and
where a new stretch belongs.  The statements are about a list of stretches (`Ascending`)
and are used for both trees.
-/
import Ntoskrnl.FsRtl.FileLock.Nodes

namespace Ntoskrnl.FsRtl.FileLock

open Lib.SplayTree

set_option autoImplicit false

variable {l : Lock} {reach startingByte endingByte : Nat}

section Stretches

variable {α : Type} {first : α → Lock} {extent : α → Nat}

/-- Stretches of the file in ascending order. -/
structure Ascending (first : α → Lock) (extent : α → Nat) (xs : List α) : Prop where
  proper : ∀ x ∈ xs, (first x).Proper
  reach : ∀ x ∈ xs, (first x).endingByte ≤ extent x
  apart : xs.Pairwise fun a b => extent a < (first b).startingByte

variable {equal : Probe} {t : BinaryTree α}

/-- The stretch overlaps the range, or both are empty and equal. -/
def Meets (startingByte endingByte : Nat) (first : Lock) (extent : Nat) : Prop :=
  (startingByte ≤ extent ∧ first.startingByte ≤ endingByte) ∨
    (extent < startingByte ∧ first.endingByte = endingByte ∧ first.startingByte = startingByte)

theorem overlapProbe_rank (proper : l.Proper) (hit : equal.rank = 1) :
    (overlapProbe equal startingByte endingByte l reach).rank = if reach < startingByte then
        if l.endingByte = endingByte ∧ l.startingByte = startingByte then 1 else 0
      else if l.startingByte ≤ endingByte then 1 else 2 := by
  unfold overlapProbe
  rw [proper.not_origin]
  split_ifs <;> simp_all [Probe.rank]

/-- Each verdict says where the stretch lies. -/
theorem overlapProbe_place (proper : l.Proper) (hit : equal.rank = 1) :
    let verdict := overlapProbe equal startingByte endingByte l reach
    (verdict = .less → reach < startingByte) ∧
      (verdict = .greater → startingByte ≤ reach ∧ endingByte < l.startingByte) ∧
      (verdict.Hit → Meets startingByte endingByte l reach) := by
  intro verdict
  have rank : verdict.rank = _ := overlapProbe_rank proper hit
  refine ⟨fun less => ?_, fun greater => ?_, fun isHit => ?_⟩
  · rw [less] at rank
    split_ifs at rank <;> first | assumption | cases rank
  · rw [greater] at rank
    split_ifs at rank <;> first | omega | cases rank
  · have one : verdict.rank = 1 := by rcases isHit with stop | ⟨_, mark⟩ <;> simp [*, Probe.rank]
    rw [one] at rank
    unfold Meets
    split_ifs at rank <;> omega

/-- The verdicts on ascending stretches never step back. -/
theorem Ascending.ranks {xs : List α} (ascending : Ascending first extent xs)
    (hit : equal.rank = 1) (range : startingByte ≤ endingByte + 1) :
    xs.Pairwise fun a b =>
      (overlapProbe equal startingByte endingByte (first a) (extent a)).rank ≤
        (overlapProbe equal startingByte endingByte (first b) (extent b)).rank := by
  refine ascending.apart.imp_of_mem fun {a b} ha hb apart => ?_
  rw [overlapProbe_rank (ascending.proper a ha) hit, overlapProbe_rank (ascending.proper b hb) hit]
  have startA := (ascending.proper a ha).start_le
  have startB := (ascending.proper b hb).start_le
  have reachA := ascending.reach a ha
  have reachB := ascending.reach b hb
  split_ifs <;> omega

/-- A search that finds a stretch: everything before it ends before the range. -/
structure Found (first : α → Lock) (extent : α → Nat) (startingByte endingByte : Nat)
    (xs : List α) (loc : Loc α) : Prop where
  sequence : xs = loc.before ++ loc.val :: loc.after
  before : ∀ x ∈ loc.before, extent x < startingByte
  meets : Meets startingByte endingByte (first loc.val) (extent loc.val)

/-- A search that finds nothing, and the place of a new stretch. -/
structure Missed (first : α → Lock) (extent : α → Nat) (startingByte endingByte : Nat)
    (xs : List α) (d : Descent α) : Prop where
  leaf : ∃ low high, xs = low ++ high ∧ (∀ x ∈ low, extent x < startingByte) ∧
    (∀ x ∈ high, startingByte ≤ extent x ∧ endingByte < (first x).startingByte) ∧
    ∀ x, (d.newLeaf x).before = low ∧ (d.newLeaf x).after = high

/-- What a search brings back is right. -/
def Searched (first : α → Lock) (extent : α → Nat) (startingByte endingByte : Nat)
    (xs : List α) (d : Descent α) : Prop :=
  (∃ loc, d.found = some loc ∧ Found first extent startingByte endingByte xs loc) ∨
    (d.found = none ∧ Missed first extent startingByte endingByte xs d)

/-- **The search is right about ascending stretches.** -/
theorem Ascending.search (ascending : Ascending first extent (inorder t)) (hit : equal.rank = 1)
    (range : startingByte ≤ endingByte + 1) :
    Searched first extent startingByte endingByte (inorder t)
      (search (fun x => overlapProbe equal startingByte endingByte (first x) (extent x)) t) := by
  obtain ⟨low, hits, high, parts, graded⟩ := exists_graded (ascending.ranks hit range)
  have lows : ∀ x ∈ low, extent x < startingByte := fun x inside =>
    (overlapProbe_place (ascending.proper x (by simp [parts, inside])) hit).1 (graded.low x inside)
  have highs : ∀ x ∈ high, startingByte ≤ extent x ∧ endingByte < (first x).startingByte :=
    fun x inside => (overlapProbe_place (ascending.proper x (by simp [parts, inside])) hit).2.1
      (graded.high x inside)
  by_cases none_hit : hits = []
  · subst none_hit
    rw [List.append_nil] at parts
    exact .inr ⟨search_missed parts graded, low, high, parts, lows, highs,
      search_newLeaf parts graded⟩
  · obtain ⟨loc, early, later, found, hitsAre, before, after, kind⟩ :=
      search_found parts graded none_hit
    have here : loc.val ∈ hits := by simp [hitsAre]
    have inside : loc.val ∈ inorder t := by simp [parts, here]
    have proper := ascending.proper _ inside
    have meets := (overlapProbe_place proper hit).2.2 (graded.hits _ here)
    refine .inl ⟨loc, found, ?_, fun x hx => ?_, meets⟩
    · rw [parts, before, after, hitsAre]
      simp
    · rw [before] at hx
      rcases List.mem_append.mp hx with hx | hx
      · exact lows x hx
      · -- an earlier hit is left behind only for a stretch that begins with the range
        have earlier : extent x < (first loc.val).startingByte := by
          have apart := ascending.apart
          rw [parts, hitsAre] at apart
          simp only [List.append_assoc, List.cons_append] at apart
          have := (List.pairwise_append.mp (List.pairwise_append.mp apart).2.1).2.2
          exact this x hx _ (by simp)
        have stop := kind.resolve_left (List.ne_nil_of_mem hx)
        have place : (first loc.val).startingByte ≤ startingByte := by
          rcases meets with ⟨ahead, -⟩ | ⟨-, -, same⟩
          · unfold overlapProbe at stop
            rw [proper.not_origin, if_neg (by simp; omega)] at stop
            split_ifs at stop with _ place
            exact place
          · exact same.le
        omega

/-- A search for bytes of a stretch finds that stretch. -/
theorem Ascending.finds {d : Descent α} (ascending : Ascending first extent (inorder t))
    (searched : Searched first extent startingByte endingByte (inorder t) d)
    (covers : startingByte ≤ endingByte) {x : α} (inside : x ∈ inorder t)
    (start : (first x).startingByte ≤ startingByte) (reach : endingByte ≤ extent x) :
    ∃ loc, d.found = some loc ∧ loc.val = x ∧ inorder t = loc.before ++ x :: loc.after ∧
      x ∉ loc.before ∧ x ∉ loc.after := by
  rcases searched with ⟨loc, hit, found⟩ | ⟨-, missed⟩
  · have apart := ascending.apart
    have sequence := found.sequence
    have reaches := ascending.reach loc.val (by rw [sequence]; simp)
    rw [sequence] at inside apart
    have early : x ∉ loc.before := fun hx => by
      have := found.before x hx
      omega
    have late : x ∉ loc.after := fun hx => by
      have beyond := (List.pairwise_cons.mp (List.pairwise_append.mp apart).2.1).1 x hx
      rcases found.meets with meets | apart
      · omega
      · omega
    obtain rfl : x = loc.val := by simpa [early, late] using inside
    exact ⟨loc, hit, rfl, sequence, early, late⟩
  · obtain ⟨low, high, parts, lows, highs, -⟩ := missed.leaf
    rw [parts] at inside
    rcases List.mem_append.mp inside with inside | inside
    · have := lows x inside
      omega
    · have := (highs x inside).2
      omega

end Stretches

/-! ## The shared tree -/

theorem Ordered.ascending {nodes : List LockTreeNode} (ordered : Ordered nodes) :
    Ascending LockTreeNode.first LockTreeNode.extent nodes :=
  ⟨fun n inside => (ordered.node n inside).proper _ n.first_mem,
    fun n inside => (ordered.node n inside).le_extent n.first_mem, ordered.apart⟩

theorem findShared {t : BinaryTree LockTreeNode} (ordered : Ordered (inorder t))
    (range : startingByte ≤ endingByte + 1) :
    Searched LockTreeNode.first LockTreeNode.extent startingByte endingByte (inorder t)
      (fsRtlFindFirstOverlappingSharedNode t startingByte endingByte) :=
  ordered.ascending.search rfl range

/-! ## The exclusive tree -/

/-- Exclusive locks in ascending order without overlap. -/
structure Separate (locks : List Lock) : Prop where
  proper : ∀ l ∈ locks, l.Proper
  apart : locks.Pairwise fun a b => a.endingByte < b.startingByte

theorem Separate.ascending {locks : List Lock} (separate : Separate locks) :
    Ascending id Lock.endingByte locks :=
  ⟨separate.proper, fun _ _ => le_rfl, separate.apart⟩

theorem Separate.sublist {xs ys : List Lock} (separate : Separate ys) (sub : xs.Sublist ys) :
    Separate xs :=
  ⟨fun l inside => separate.proper l (sub.subset inside), separate.apart.sublist sub⟩

theorem findExclusive {t : BinaryTree Lock} (separate : Separate (inorder t))
    (range : startingByte ≤ endingByte + 1) :
    Searched id Lock.endingByte startingByte endingByte (inorder t)
      (fsRtlFindFirstOverlappingExclusiveNode t startingByte endingByte) :=
  separate.ascending.search rfl range

end Ntoskrnl.FsRtl.FileLock
