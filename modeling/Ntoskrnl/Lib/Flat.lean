/-
# Ntoskrnl.Lib.Flat -- fields of records in a flat byte buffer

A record in a flat buffer is an offset; its fields are little-endian numbers at
fixed distances from it.  `readUchar`, `readUshort` and `readUlong` fail outside
the buffer; `ucharAt`, `ushortAt` and `ulongAt` are the values they give inside.

`Yields x P` says that the checked program `x` ends without a fault and that its
answer has `P`.  A program is gone through with one rule for each kind of step,
so that every read leaves one goal: that it is inside.
-/
import Ntoskrnl.Lib.Checked

namespace Ntoskrnl.Lib.Flat

set_option autoImplicit false

open Lib.Checked

/-! ## Fields -/

variable {ε : Type}

variable (e : ε) (m : List UInt8) (i : Nat)

def ucharAt : Nat := (m.getD i 0).toNat

def ushortAt : Nat := ucharAt m i + 256 * ucharAt m (i + 1)

def ulongAt : Nat := ushortAt m i + 65536 * ushortAt m (i + 2)

def readUchar : Except ε Nat := do
  let byte ← readOr e m i
  pure byte.toNat

def readUshort : Except ε Nat := do
  let low ← readUchar e m i
  let high ← readUchar e m (i + 1)
  pure (low + 256 * high)

def readUlong : Except ε Nat := do
  let low ← readUshort e m i
  let high ← readUshort e m (i + 2)
  pure (low + 65536 * high)

variable {m : List UInt8} {e : ε} {i : Nat}

theorem readUchar_inside (inside : i < m.length) : readUchar e m i = .ok (ucharAt m i) := by
  unfold readUchar ucharAt
  rw [readOr_of_lt inside, List.getD_eq_getElem?_getD, List.getElem?_eq_getElem inside]
  rfl

theorem readUshort_inside (inside : i + 2 ≤ m.length) : readUshort e m i = .ok (ushortAt m i) := by
  unfold readUshort
  rw [readUchar_inside (by omega), readUchar_inside (by omega)]
  rfl

theorem readUlong_inside (inside : i + 4 ≤ m.length) : readUlong e m i = .ok (ulongAt m i) := by
  unfold readUlong
  rw [readUshort_inside (by omega), readUshort_inside (by omega)]
  rfl

/-! ## Programs that end -/

variable {α β : Type}

/-- The program ends without a fault, and its answer has `P`. -/
def Yields (x : Except ε α) (P : α → Prop) : Prop :=
  ∃ a, x = .ok a ∧ P a

namespace Yields

variable {P : α → Prop}

theorem pure {a : α} (holds : P a) : Yields (Pure.pure a : Except ε α) P :=
  ⟨a, rfl, holds⟩

variable {x : Except ε α} {c : Prop}

theorem mono {Q : α → Prop} (yields : Yields x P) (weaker : ∀ a, P a → Q a) : Yields x Q := by
  obtain ⟨a, answer, holds⟩ := yields
  exact ⟨a, answer, weaker a holds⟩

theorem bind {f : α → Except ε β} {Q : β → Prop} (first : Yields x P)
    (second : ∀ a, P a → Yields (f a) Q) : Yields (x >>= f) Q := by
  obtain ⟨a, answer, holds⟩ := first
  rw [answer]
  exact second a holds

theorem ite [Decidable c] {y : Except ε α} (yes : c → Yields x P) (no : ¬ c → Yields y P) :
    Yields (if c then x else y) P := by
  split
  · exact yes ‹c›
  · exact no ‹¬ c›

/-- A guard that answers `false`: what holds of a true answer is left to the rest. -/
theorem guard [Decidable c] {x : Except ε Bool} {P : Prop}
    (rest : ¬ c → Yields x (fun answer => answer → P)) :
    Yields (if c then Pure.pure false else x) (fun answer => answer → P) :=
  ite (fun _ => pure nofun) rest

/-- A check that has to succeed before the rest is done. -/
theorem andThen {x rest : Except ε Bool} {P Q : Prop}
    (first : Yields x (fun answer => answer → P))
    (second : P → Yields rest (fun answer => answer → Q)) :
    Yields (x >>= fun passed => if passed then rest else Pure.pure false)
      (fun answer => answer → Q) := by
  refine first.bind fun passed holds => ite (fun yes => second (holds yes)) fun _ => ?_
  exact pure nofun

variable {f : Nat → Except ε β}

theorem readUchar {P : β → Prop} (inside : i < m.length) (rest : Yields (f (ucharAt m i)) P) :
    Yields (Flat.readUchar e m i >>= f) P := by
  rw [readUchar_inside inside]
  exact rest

theorem readUshort {P : β → Prop} (inside : i + 2 ≤ m.length) (rest : Yields (f (ushortAt m i)) P) :
    Yields (Flat.readUshort e m i >>= f) P := by
  rw [readUshort_inside inside]
  exact rest

theorem readUlong {P : β → Prop} (inside : i + 4 ≤ m.length) (rest : Yields (f (ulongAt m i)) P) :
    Yields (Flat.readUlong e m i >>= f) P := by
  rw [readUlong_inside inside]
  exact rest

end Yields

end Ntoskrnl.Lib.Flat
