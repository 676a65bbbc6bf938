/-
# Ntoskrnl.Arb.AllocationStack -- the stack an arbiter searches for an allocation

`ArbpBuildAllocationStack` lays out one buffer: the allocation states, and behind them the
alternatives they point to.  The size counts a state for every entry with alternatives
and one for the terminator.  The layout advances at every entry, and a state that it
passes over keeps what the buffer holds there, so that an entry without alternatives ends
the stack for `ArbAllocateEntry` and pushes the rest towards the end of the buffer.
-/
import Mathlib.Data.List.Forall2
import Mathlib.Data.List.TakeWhile
import Ntoskrnl.Base.Types

namespace Ntoskrnl.Arb

open Base List

set_option autoImplicit false

variable {δ : Type}

/-- The sizes of `ARBITER_ALLOCATION_STATE` and `ARBITER_ALTERNATIVE`. -/
structure Sizes where
  state : Nat
  alternative : Nat
  state_pos : 0 < state

structure ListEntry (δ : Type) where
  address : Nat
  alternatives : List δ

def ListEntry.asks (entry : ListEntry δ) : Bool :=
  decide (0 < entry.alternatives.length)

/-- The stack of an `ARBITER_INSTANCE` and the bytes behind it.  The maximum is not changed
when the buffer is replaced. -/
structure Instance where
  allocationStackMaxSize : Nat
  allocationStackBytes : Nat
  holds : allocationStackMaxSize ≤ allocationStackBytes
  bounded : allocationStackBytes < 2 ^ 32

/-- A state whose `Entry` is not `NULL`; `alternatives` counts from the first alternative
of the buffer. -/
structure AllocationState where
  entry : Nat
  alternativeCount : Nat
  alternatives : Nat
  start : Nat

/-- The stack as it is left, with the offset of the first alternative.  An alternative is
given by the descriptor `ArbpBuildAlternative` made it from. -/
structure Stack (δ : Type) where
  arbiter : Instance
  tableStart : Nat
  states : List (Option AllocationState)
  table : List δ

def requested (list : List (ListEntry δ)) : List (ListEntry δ) :=
  list.filter ListEntry.asks

def alternativesOf (list : List (ListEntry δ)) : List δ :=
  list.flatMap ListEntry.alternatives

/-- The states of the second loop, from `currentState` and `currentAlternative` on; `held` is
what the buffer holds so far. -/
def fillLocations (held : Nat → Option AllocationState) :
    List (ListEntry δ) → Nat → Nat → List (Option AllocationState)
  | [], _, _ => [none]
  | entry :: rest, currentState, currentAlternative =>
    if entry.asks then
      some ⟨entry.address, entry.alternatives.length, currentAlternative, 1⟩ ::
        fillLocations held rest (currentState + 1) (currentAlternative + entry.alternatives.length)
    else held currentState :: fillLocations held rest (currentState + 1) currentAlternative

section Size

variable (sizes : Sizes) (list : List (ListEntry δ))

/-- The first loop, with its `ULONG` sums reduced at the end. -/
def stackSize : List (ListEntry δ) → Nat → Nat → Nat
  | [], size, allocationCount => ulong (size + allocationCount * sizes.state)
  | entry :: rest, size, allocationCount =>
    if entry.asks then
      stackSize rest (size + entry.alternatives.length * sizes.alternative) allocationCount
    else stackSize rest size (allocationCount - 1)

/-- The bytes of `count` states, the terminator and the alternatives. -/
def bytesFor (count : Nat) : Nat :=
  (count + 1) * sizes.state + (alternativesOf list).length * sizes.alternative

theorem bytesFor_mono {a b : Nat} (le : a ≤ b) : bytesFor sizes list a ≤ bytesFor sizes list b :=
  Nat.add_le_add_right (Nat.mul_le_mul_right _ (Nat.succ_le_succ le)) _

theorem stackSize_eq (size more : Nat) : stackSize sizes list size (list.length + more + 1) =
      ulong (size + bytesFor sizes list ((requested list).length + more)) := by
  induction list generalizing size more with
  | nil => simp [stackSize, bytesFor, alternativesOf, requested]
  | cons entry rest ih =>
    rw [stackSize, length_cons, Nat.add_right_comm rest.length]
    by_cases asks : entry.asks
    · rw [if_pos asks, Nat.add_assoc rest.length, ih]
      simp only [bytesFor, alternativesOf, requested, flatMap_cons, filter_cons_of_pos asks,
        length_append, length_cons, Nat.add_mul]
      congr 1
      omega
    · have none : entry.alternatives = [] := by simpa [ListEntry.asks] using asks
      rw [if_neg asks, Nat.add_sub_cancel, ih]
      simp [bytesFor, alternativesOf, requested, asks, none]

/-- What the first loop comes to. -/
theorem stackSize_counted :
    stackSize sizes list 0 (list.length + 1) = ulong (bytesFor sizes list (requested list).length) := by
  rw [← Nat.zero_add (bytesFor ..)]
  exact stackSize_eq sizes list 0 0

end Size

variable {sizes : Sizes} {list : List (ListEntry δ)}

/-- The buffer is replaced when the size is above the maximum. -/
def Instance.enlarge (arbiter : Instance) (sizes : Sizes) (list : List (ListEntry δ)) : Instance :=
  if small : arbiter.allocationStackMaxSize < stackSize sizes list 0 (list.length + 1) then
    ⟨arbiter.allocationStackMaxSize, stackSize sizes list 0 (list.length + 1), Nat.le_of_lt small,
      stackSize_counted sizes list ▸ Nat.mod_lt _ (by decide)⟩
  else arbiter

/-- What the buffer holds after `RtlZeroMemory`. -/
def zeroed (sizes : Sizes) (size : Nat) (stale : Nat → Option AllocationState) (i : Nat) :
    Option AllocationState :=
  if (i + 1) * sizes.state ≤ size then none else stale i

/-- `ArbpBuildAllocationStack`: `pool` says whether an allocation succeeds, `stale` what the
buffer holds before it is zeroed, and `build` what `ArbpBuildAlternative` returns for a
descriptor.  The first alternative that fails ends the second loop. -/
def arbpBuildAllocationStack (sizes : Sizes) (build : δ → NtStatus)
    (stale : Nat → Option AllocationState) (pool : Bool) (arbiter : Instance)
    (list : List (ListEntry δ)) : Except NtStatus (Stack δ) :=
  let size := stackSize sizes list 0 (list.length + 1)
  if arbiter.allocationStackMaxSize < size ∧ pool = false then .error .insufficientResources
  else
    match (alternativesOf list).find? fun d => !(build d).ntSuccess with
    | some d => .error (build d)
    | none =>
      .ok ⟨arbiter.enlarge sizes list, (list.length + 1) * sizes.state,
        fillLocations (zeroed sizes size stale) list 0 0, alternativesOf list⟩

/-- The states `ArbAllocateEntry` comes to. -/
def visited : List (Option AllocationState) → List AllocationState
  | some state :: rest => state :: visited rest
  | _ => []

/-! ## What the stack is for -/

/-- The state is the entry's, and its array holds the entry's alternatives. -/
structure Describes (table : List δ) (state : AllocationState) (entry : ListEntry δ) : Prop where
  address : state.entry = entry.address
  count : state.alternativeCount = entry.alternatives.length
  complete : (table.drop state.alternatives).take state.alternativeCount = entry.alternatives

/-- All that is written lies in the buffer, the states before the first `NULL` are those of
the entries that ask for something, and their alternatives are theirs alone. -/
structure Covers (sizes : Sizes) (list : List (ListEntry δ)) (stack : Stack δ) : Prop where
  states_inside : stack.states.length * sizes.state ≤ stack.tableStart
  table_inside : stack.tableStart + stack.table.length * sizes.alternative ≤
    stack.arbiter.allocationStackBytes
  exact : Forall₂ (Describes stack.table) (visited stack.states) (requested list)
  disjoint : (visited stack.states).Pairwise fun a b =>
    a.alternatives + a.alternativeCount ≤ b.alternatives

section Filling

variable {held : Nat → Option AllocationState} {i o : Nat}

theorem fillLocations_length : (fillLocations held list i o).length = list.length + 1 := by
  fun_induction fillLocations held list i o with
  | case1 => rfl
  | case2 _ _ _ _ _ ih => rw [length_cons, ih, length_cons]
  | case3 _ _ _ _ _ ih => rw [length_cons, ih, length_cons]

/-- `ArbAllocateEntry` comes to the entries before the first one without alternatives. -/
theorem fillLocations_visited (before : List δ)
    (ends : held (i + (list.takeWhile ListEntry.asks).length) = none) (reached : before.length = o) :
    Forall₂ (Describes (before ++ alternativesOf list)) (visited (fillLocations held list i o))
        (list.takeWhile ListEntry.asks) ∧
      (visited (fillLocations held list i o)).Pairwise
        (fun a b => a.alternatives + a.alternativeCount ≤ b.alternatives) ∧
      ∀ state ∈ visited (fillLocations held list i o), o ≤ state.alternatives := by
  induction list generalizing i o before with
  | nil => simp [fillLocations, visited]
  | cons entry rest ih =>
    rw [fillLocations]
    by_cases asks : entry.asks
    · rw [takeWhile_cons_of_pos asks] at ends ⊢
      rw [length_cons, ← Nat.add_assoc, Nat.add_right_comm] at ends
      obtain ⟨describes, apart, behind⟩ := ih (before ++ entry.alternatives) ends
        (by rw [length_append, reached])
      rw [if_pos asks, alternativesOf, flatMap_cons, ← append_assoc]
      refine ⟨.cons ⟨rfl, rfl, ?_⟩ describes, .cons behind apart, ?_⟩
      · simp [← reached]
      · rintro state (_ | ⟨_, later⟩)
        · exact Nat.le_refl o
        · exact Nat.le_trans (Nat.le_add_right ..) (behind state later)
    · rw [takeWhile_cons_of_neg asks] at ends ⊢
      rw [if_neg asks, show held i = none from ends]
      simp [visited]

end Filling

theorem takeWhile_prefix_requested (list : List (ListEntry δ)) :
    list.takeWhile ListEntry.asks <+: requested list := by
  have front : list.takeWhile ListEntry.asks <+: list := ⟨_, takeWhile_append_dropWhile⟩
  rw [← filter_eq_self.2 fun _ => mem_takeWhile_imp]
  exact front.filter ListEntry.asks

section Building

variable {build : δ → NtStatus} {stale : Nat → Option AllocationState} {pool : Bool}
  {arbiter : Instance} {stack : Stack δ}

section Fits

variable (fits : bytesFor sizes list list.length < 2 ^ 32)

include fits

theorem stackSize_of_fits :
    stackSize sizes list 0 (list.length + 1) = bytesFor sizes list (requested list).length := by
  rw [stackSize_counted, ulong_eq]
  exact Nat.lt_of_le_of_lt (bytesFor_mono sizes list (length_filter_le ..)) fits

/-- The state of the first entry without alternatives is zeroed. -/
theorem first_zeroed (stale : Nat → Option AllocationState) :
    zeroed sizes (stackSize sizes list 0 (list.length + 1)) stale
      (0 + (list.takeWhile ListEntry.asks).length) = none := by
  rw [stackSize_of_fits fits, Nat.zero_add]
  exact if_pos (Nat.le_add_right_of_le (Nat.mul_le_mul_right _
    (Nat.succ_le_succ (takeWhile_prefix_requested list).length_le)))

theorem enlarge_bytes : (arbiter.enlarge sizes list).allocationStackBytes =
      if arbiter.allocationStackMaxSize < bytesFor sizes list (requested list).length then
        bytesFor sizes list (requested list).length
      else arbiter.allocationStackBytes := by
  rw [← stackSize_of_fits fits, Instance.enlarge]
  split <;> rfl

end Fits

variable (ran : arbpBuildAllocationStack sizes build stale pool arbiter list = .ok stack)

include ran

theorem arbpBuildAllocationStack_ok :
    stack = ⟨arbiter.enlarge sizes list, (list.length + 1) * sizes.state,
      fillLocations (zeroed sizes (stackSize sizes list 0 (list.length + 1)) stale) list 0 0,
      alternativesOf list⟩ := by
  simp only [arbpBuildAllocationStack] at ran
  split at ran
  · cases ran
  · split at ran
    · cases ran
    · exact (Except.ok.inj ran).symm

theorem covers_iff : Covers sizes list stack ↔
      bytesFor sizes list list.length ≤ (arbiter.enlarge sizes list).allocationStackBytes ∧
        list.takeWhile ListEntry.asks = requested list := by
  have front := takeWhile_prefix_requested list
  obtain rfl := arbpBuildAllocationStack_ok ran
  have visits (fits : bytesFor sizes list list.length ≤ _) :=
    fillLocations_visited [] (first_zeroed
      (Nat.lt_of_le_of_lt fits (arbiter.enlarge sizes list).bounded) stale) rfl
  constructor
  · intro covers
    have fits := covers.table_inside
    exact ⟨fits, front.eq_of_length ((visits fits).1.length_eq.symm.trans covers.exact.length_eq)⟩
  · rintro ⟨fits, all⟩
    obtain ⟨describes, apart, -⟩ := visits fits
    rw [all] at describes
    exact ⟨by rw [fillLocations_length], fits, describes, apart⟩

/-- **The stack covers the requests in two cases**: every entry has alternatives, or those
without come last and the buffer is kept and has room for their states. -/
theorem allocationStack_covers_iff : Covers sizes list stack ↔
      (∀ entry ∈ list, entry.asks) ∧ bytesFor sizes list list.length < 2 ^ 32 ∨
      list.takeWhile ListEntry.asks = requested list ∧
        bytesFor sizes list (requested list).length ≤ arbiter.allocationStackMaxSize ∧
        bytesFor sizes list list.length ≤ arbiter.allocationStackBytes := by
  rw [covers_iff ran]
  constructor
  · rintro ⟨fits, last⟩
    have small := Nat.lt_of_le_of_lt fits (arbiter.enlarge sizes list).bounded
    by_cases full : (requested list).length = list.length
    · exact .inl ⟨length_filter_eq_length_iff.1 full, small⟩
    · -- A new buffer is a state short for each entry without alternatives.
      have fewer : (requested list).length < _ := Nat.lt_of_le_of_ne (length_filter_le ..) full
      have short := Nat.mul_lt_mul_of_pos_right fewer sizes.state_pos
      rw [enlarge_bytes small] at fits
      refine .inr ⟨last, ?_⟩
      simp only [bytesFor, Nat.add_mul] at fits ⊢
      split at fits <;> omega
  · rintro (⟨all, small⟩ | ⟨last, kept, room⟩)
    · have same : requested list = list := filter_eq_self.2 all
      have holds := arbiter.holds
      refine ⟨?_, by rw [same, takeWhile_eq_self_iff.2 all]⟩
      rw [enlarge_bytes small, same]
      split <;> omega
    · refine ⟨?_, last⟩
      rwa [enlarge_bytes (Nat.lt_of_le_of_lt room arbiter.bounded), if_neg (by omega)]

end Building

def x86 : Sizes := ⟨56, 48, by decide⟩

/-- The instance as it is initialized, with one page. -/
def initial : Instance := ⟨4096, 4096, by decide, by decide⟩

def behindEmpty : List (ListEntry Unit) := [⟨1, []⟩, ⟨2, [()]⟩]

theorem allocationStack_covers_reversed :
    ∃ stack, arbpBuildAllocationStack x86 (fun _ => .success) (fun _ => none) true initial
        behindEmpty.reverse = .ok stack ∧ Covers x86 behindEmpty.reverse stack := by
  have ran : arbpBuildAllocationStack x86 (fun _ => .success) (fun _ => none) true initial
      behindEmpty.reverse = .ok _ := rfl
  exact ⟨_, ran, (allocationStack_covers_iff ran).2 (.inr ⟨rfl, by decide⟩)⟩

/-- The entry behind one without alternatives is not visited. -/
theorem allocationStack_misses :
    ∃ stack, arbpBuildAllocationStack x86 (fun _ => .success) (fun _ => none) true initial
        behindEmpty = .ok stack ∧ ¬Covers x86 behindEmpty stack :=
  ⟨_, rfl, fun covers => nomatch covers.exact⟩

end Ntoskrnl.Arb
