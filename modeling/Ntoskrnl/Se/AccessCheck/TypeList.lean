/-
# Ntoskrnl.Se.AccessCheck.TypeList -- object type lists

A caller may describe an object as a tree of object types (an object, its property
sets, their properties), given as a flat list with a level for each entry.
`SeCaptureObjectTypeList` checks the levels and adds the index of each entry's parent;
`TypeList` is what it lets through.  The access check keeps three masks for each entry,
and an update of one entry is pushed down to the entries below it and up to its
parents.
-/
import Mathlib.Data.List.TakeWhile
import Mathlib.Data.List.Range
import Ntoskrnl.Base.Types

namespace Ntoskrnl.Se.AccessCheck

set_option autoImplicit false

open Base List
open Function (update update_of_ne update_self)

abbrev AccessMask := BitVec 32

abbrev Guid := BitVec 128

/-! ## The captured list -/

/-- What `IOBJECT_TYPE_LIST` keeps of an entry besides its masks; no parent is `-1`. -/
structure ObjectType where
  level : Nat
  objectType : Guid
  parentIndex : Option Nat
  deriving DecidableEq, Repr

def levelOf (types : List ObjectType) (i : Nat) : Nat :=
  (types[i]?.map ObjectType.level).getD 0

def parentOf (types : List ObjectType) (i : Nat) : Option Nat :=
  types[i]?.bind ObjectType.parentIndex

/-- The levels of a captured list: only the first entry has level 0, and an entry is at
most one level below the entry before it. -/
structure Levelled (types : List ObjectType) : Prop where
  nonempty : types ≠ []
  root : levelOf types 0 = 0
  inner : ∀ i, 0 < i → i < types.length → 0 < levelOf types i
  step : ∀ i, i + 1 < types.length → levelOf types (i + 1) ≤ levelOf types i + 1

/-- The parent of an entry is the last entry before it that is one level up. -/
structure Parented (types : List ObjectType) : Prop where
  root : parentOf types 0 = none
  inner : ∀ i, 0 < i → i < types.length → ∃ parent, parentOf types i = some parent ∧ parent < i ∧
    levelOf types i = levelOf types parent + 1 ∧
      ∀ j, parent < j → j < i → levelOf types parent < levelOf types j

structure TypeList where
  types : List ObjectType
  levelled : Levelled types
  parented : Parented types

variable {i : Nat} {entry : ObjectType}

namespace TypeList

variable (list : TypeList)

def length : Nat := list.types.length

def level (i : Nat) : Nat := levelOf list.types i

def parentIndex (i : Nat) : Option Nat := parentOf list.types i

theorem parentIndex_lt {parent : Nat} (found : list.parentIndex i = some parent) : parent < i := by
  rcases Nat.eq_zero_or_pos i with zero | positive
  · rw [zero, parentIndex, list.parented.root] at found
    cases found
  · have inside : i < list.types.length := by
      by_contra outside
      simp [parentIndex, parentOf, getElem?_eq_none (Nat.not_lt.mp outside)] at found
    obtain ⟨other, same, before, -⟩ := list.parented.inner i positive inside
    rw [parentIndex, same] at found
    cases found
    exact before

/-- The entries a loop from `i + 1` visits that stops at the first level not above that
of `i`: everything below `i` in the tree. -/
def below (i : Nat) : List Nat :=
  (range' (i + 1) (list.length - (i + 1))).takeWhile fun j => list.level i < list.level j

/-- The entries the loop over a parent visits that are at the level of its child. -/
def children (parent level : Nat) : List Nat :=
  (list.below parent).filter fun j => list.level j = level

end TypeList

/-! ## Capturing -/

variable {types : List ObjectType}

section Capture

theorem levelOf_append (inside : i < types.length) :
    levelOf (types ++ [entry]) i = levelOf types i := by
  simp [levelOf, getElem?_append_left inside]

theorem levelOf_last : levelOf (types ++ [entry]) types.length = entry.level := by
  simp [levelOf]

theorem parentOf_append (inside : i < types.length) :
    parentOf (types ++ [entry]) i = parentOf types i := by
  simp [parentOf, getElem?_append_left inside]

theorem parentOf_last : parentOf (types ++ [entry]) types.length = entry.parentIndex := by
  simp [parentOf]

/-- `levels` has the last index of each level up to that of the last entry. -/
structure LastSeen (levels : Nat → Nat) (types : List ObjectType) : Prop where
  inside : ∀ level, level ≤ levelOf types (types.length - 1) → levels level < types.length
  level : ∀ level, level ≤ levelOf types (types.length - 1) → levelOf types (levels level) = level
  behind : ∀ level j, level ≤ levelOf types (types.length - 1) → levels level < j →
    j < types.length → level < levelOf types j

/-- What the loop keeps once it has an entry. -/
structure Captured (levels : Nat → Nat) (types : List ObjectType) : Prop where
  levelled : Levelled types
  parented : Parented types
  lastSeen : LastSeen levels types

theorem captured_first (levels : Nat → Nat) (objectType : Guid) :
    Captured (update levels 0 0) [⟨0, objectType, none⟩] where
  levelled := {
    nonempty := cons_ne_nil _ _
    root := rfl
    inner := by
      intro i positive inside
      simp only [length_singleton] at inside
      omega
    step := by
      intro i inside
      simp only [length_singleton] at inside
      omega }
  parented := {
    root := rfl
    inner := by
      intro i positive inside
      simp only [length_singleton] at inside
      omega }
  lastSeen := {
    inside := by
      intro level bound
      obtain rfl : level = 0 := Nat.le_zero.mp bound
      simp
    level := by
      intro level bound
      obtain rfl : level = 0 := Nat.le_zero.mp bound
      simp [levelOf]
    behind := by
      intro level j bound above inside
      simp only [length_singleton] at above inside
      omega }

variable {levels : Nat → Nat} {currentLevel : Nat} {result : List ObjectType}

section Snoc

variable (atMost : currentLevel ≤ levelOf types (types.length - 1) + 1) (objectType : Guid)

include atMost

theorem Levelled.snoc (levelled : Levelled types) (positive : 0 < currentLevel)
    (parent : Option Nat) : Levelled (types ++ [⟨currentLevel, objectType, parent⟩]) := by
  have some : 0 < types.length := length_pos_iff.mpr levelled.nonempty
  refine ⟨by simp, (levelOf_append some).trans levelled.root, ?_, ?_⟩
  · intro i above inside
    rcases Nat.lt_succ_iff_lt_or_eq.mp (length_append ▸ inside) with before | last
    · rw [levelOf_append before]
      exact levelled.inner i above before
    · rw [last, levelOf_last]
      exact positive
  · intro i inside
    rcases Nat.lt_succ_iff_lt_or_eq.mp (length_append ▸ inside) with before | last
    · rw [levelOf_append before, levelOf_append (Nat.lt_of_succ_lt before)]
      exact levelled.step i before
    · have here : i = types.length - 1 := Nat.eq_sub_of_add_eq last
      rw [last, levelOf_last, levelOf_append (last ▸ Nat.lt_succ_self i), here]
      exact atMost

theorem Parented.snoc (parented : Parented types) (lastSeen : LastSeen levels types)
    (some : 0 < types.length) (positive : 0 < currentLevel) :
    Parented (types ++ [⟨currentLevel, objectType, .some (levels (currentLevel - 1))⟩]) := by
  refine ⟨(parentOf_append some).trans parented.root, ?_⟩
  intro i above inside
  rcases Nat.lt_succ_iff_lt_or_eq.mp (length_append ▸ inside) with before | last
  · obtain ⟨parent, found, less, level, between⟩ := parented.inner i above before
    refine ⟨parent, (parentOf_append before).trans found, less, ?_, ?_⟩
    · rw [levelOf_append before, levelOf_append (less.trans before)]
      exact level
    · intro j after less'
      rw [levelOf_append (less.trans before), levelOf_append (less'.trans before)]
      exact between j after less'
  · have bound : currentLevel - 1 ≤ levelOf types (types.length - 1) := by omega
    have less := lastSeen.inside _ bound
    subst last
    refine ⟨levels (currentLevel - 1), parentOf_last, less, ?_, ?_⟩
    · rw [levelOf_last, levelOf_append less, lastSeen.level _ bound]
      exact (Nat.sub_add_cancel positive).symm
    · intro j after less'
      rw [levelOf_append less, levelOf_append less', lastSeen.level _ bound]
      exact lastSeen.behind _ j bound after less'

theorem LastSeen.snoc (lastSeen : LastSeen levels types) (parent : Option Nat) :
    LastSeen (update levels currentLevel types.length)
      (types ++ [⟨currentLevel, objectType, parent⟩]) := by
  have last (entry : ObjectType) :
      levelOf (types ++ [entry]) ((types ++ [entry]).length - 1) = entry.level := by
    rw [length_append, length_singleton, Nat.add_sub_cancel, levelOf_last]
  constructor
  all_goals simp only [last]
  · intro level bound
    rcases Nat.lt_or_eq_of_le bound with less | rfl
    · have inside := lastSeen.inside level (by omega)
      simp [less.ne]
      omega
    · simp
  · intro level bound
    rcases Nat.lt_or_eq_of_le bound with less | rfl
    · have inside := lastSeen.inside level (by omega)
      rw [update_of_ne less.ne, levelOf_append inside]
      exact lastSeen.level level (by omega)
    · rw [update_self, levelOf_last]
  · intro level j bound after inside
    rcases Nat.lt_or_eq_of_le bound with less | rfl
    · rw [update_of_ne less.ne] at after
      rcases Nat.lt_succ_iff_lt_or_eq.mp (length_append ▸ inside) with before | rfl
      · rw [levelOf_append before]
        exact lastSeen.behind level j (by omega) after before
      · rw [levelOf_last]
        exact less
    · rw [update_self] at after
      simp only [length_append, length_singleton] at inside
      omega

end Snoc

end Capture

end Ntoskrnl.Se.AccessCheck
