/-
# Ntoskrnl.Lib.Lz77 -- back-reference parses of a sequence

A token is a literal or a copy of `length` items from `displacement` items back.
`Describes x p ts q` says that the tokens `ts`, taken in order, describe the
items of `x` from position `p` up to position `q`; a copy may overlap what it
produces, so its condition compares `x` with itself at a distance.

`copyForward` is the item-by-item copy inside one buffer that the overlap makes
necessary.  `copyForward_fits` is the fact every decoder rests on: a copy that
fits extends a buffered prefix of `x` to the longer prefix.
-/
import Ntoskrnl.Lib.Checked

namespace Ntoskrnl.Lib.Lz77

open Lib.Checked

set_option autoImplicit false

universe u

/-- A literal, or a copy from `displacement` items back. -/
inductive Token (α : Type u) where
  | literal (item : α)
  | copy (displacement length : Nat)
  deriving DecidableEq, Repr

namespace Token

variable {α : Type u}

/-- How many items the token stands for. -/
def length : Token α → Nat
  | .literal _ => 1
  | .copy _ length => length

def isCopy : Token α → Bool
  | .literal _ => false
  | .copy _ _ => true

end Token

section Parse

variable {α : Type u}

/-- The token describes `x` at position `p`. -/
def Fits (x : List α) (p : Nat) : Token α → Prop
  | .literal item => x[p]? = some item
  | .copy displacement length =>
    1 ≤ displacement ∧ displacement ≤ p ∧ p + length ≤ x.length ∧
      ∀ k, k < length → x[p + k]? = x[p + k - displacement]?

/-- The tokens describe `x` from position `p` up to position `q`. -/
def Describes (x : List α) : Nat → List (Token α) → Nat → Prop
  | p, [], q => p = q
  | p, t :: ts, q => Fits x p t ∧ Describes x (p + t.length) ts q

variable {x : List α} {t : Token α} {q p : Nat} {ts : List (Token α)}

theorem Fits.bound (fits : Fits x p t) : p + t.length ≤ x.length := by
  cases t with
  | literal => exact (List.getElem?_eq_some_iff.mp fits).1
  | copy => exact fits.2.2.1

theorem describes_append {us : List (Token α)} :
    Describes x p (ts ++ us) q ↔ ∃ r, Describes x p ts r ∧ Describes x r us q := by
  induction ts generalizing p with
  | nil => simp [Describes]
  | cons t ts ih => simp [Describes, ih, and_assoc, exists_and_left]

/-- A token that fits at the end of a description extends it. -/
theorem Describes.snoc (described : Describes x p ts q) (fits : Fits x q t) :
    Describes x p (ts ++ [t]) (q + t.length) :=
  describes_append.mpr ⟨q, described, fits, rfl⟩

end Parse

/-! ## The forward copy -/

section Copy

variable {ε α : Type u}

/-- Copy `count` items, one at a time and upwards, to `target` from `displacement`
below it.  An item outside the buffer fails with `onRead` or `onWrite`. -/
def copyForward (onRead onWrite : Nat → ε) (displacement : Nat) :
    Nat → Nat → List α → Except ε (List α)
  | 0, _, m => .ok m
  | count + 1, target, m =>
    if target < displacement then .error (onRead target)
    else do
      let item ← readOr (onRead (target - displacement)) m (target - displacement)
      let m ← writeOr (onWrite target) m target item
      copyForward onRead onWrite displacement count (target + 1) m

variable {onRead onWrite : Nat → ε}

/-- **A copy that fits extends the buffered prefix.**  The items already copied
are themselves items of `x`, so an overlapping copy needs no separate case. -/
theorem copyForward_fits {x m : List α} {i d : Nat} :
    ∀ (count p : Nat), i + (p + count) ≤ m.length → Fits x p (.copy d count) →
      copyForward onRead onWrite d count (i + p) (blit m i (x.take p)) =
        .ok (blit m i (x.take (p + count)))
  | 0, p, _, _ => rfl
  | count + 1, p, room, fits => by
      obtain ⟨positive, back, bound, agree⟩ := fits
      have width : (x.take p).length = p := by simp; omega
      have room' : i + (x.take p).length ≤ m.length := by omega
      have here : p < x.length := by omega
      have source : (blit m i (x.take p))[i + p - d]? = some x[p] := by
        have same := agree 0 (by omega)
        rw [getElem?_blit room', if_pos (by omega), List.getElem?_take_of_lt (by omega),
          show i + p - d - i = p + 0 - d by omega, ← same, Nat.add_zero,
          List.getElem?_eq_getElem here]
      have stored : (blit m i (x.take p)).set (i + p) x[p] = blit m i (x.take (p + 1)) := by
        have grown := blit_snoc (m := m) (i := i) (a := x[p])
          (by omega : i + (x.take p).length < m.length)
        rwa [width, ← List.take_succ_eq_append_getElem here] at grown
      have rest := copyForward_fits count (p + 1) (by omega)
        (x := x) (m := m) (i := i) (d := d) ⟨positive, by omega, by omega, fun k hk => by
          have := agree (k + 1) (by omega)
          rwa [show p + (k + 1) = p + 1 + k by omega] at this⟩
      rw [copyForward, if_neg (by omega), readOr_eq_ok.mpr source]
      simp only [bind, Except.bind]
      rw [writeOr_of_lt (by rw [blit_length room']; omega), stored]
      simp only
      rw [Nat.add_assoc, rest, show p + 1 + count = p + (count + 1) by omega]

/-- A copy inside the buffer from a displacement that does not reach below it
never fails. -/
theorem copyForward_ok {d : Nat} (positive : 1 ≤ d) :
    ∀ (count target : Nat) (m : List α), d ≤ target → target + count ≤ m.length →
      ∃ m', copyForward onRead onWrite d count target m = .ok m' ∧ m'.length = m.length
  | 0, target, m, _, _ => ⟨m, rfl, rfl⟩
  | count + 1, target, m, back, room => by
      have below : target - d < m.length := by omega
      obtain ⟨m', run, length⟩ := copyForward_ok positive count (target + 1)
        (m.set target m[target - d]) (by omega) (by rw [List.length_set]; omega)
      refine ⟨m', ?_, by rw [length, List.length_set]⟩
      rw [copyForward, if_neg (by omega), readOr_of_lt below]
      simp only [bind, Except.bind]
      rw [writeOr_of_lt (by omega)]
      exact run

end Copy

end Ntoskrnl.Lib.Lz77
