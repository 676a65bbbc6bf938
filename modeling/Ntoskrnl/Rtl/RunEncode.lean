/-
# Ntoskrnl.Rtl.RunEncode -- a string made unreadable and readable again

`RtlRunEncodeUnicodeString` goes through the bytes of a string and takes each with the
one before it, as encoded, and with a seed; `RtlRunDecodeUnicodeString` goes back from
the end.  Decoding always restores the string.  The encoding is meant not to produce a
wide character of zero, and it does: the low byte of a character becomes zero when the
bytes up to it cancel out, and the high byte then does if it is the seed.
-/
import Mathlib.Data.Nat.Init
import Mathlib.Logic.Function.Basic

namespace Ntoskrnl.Rtl.RunEncode

open Function (update update_self update_of_ne)

set_option autoImplicit false

/-- The bytes of a string. -/
abbrev Buffer := Nat → BitVec 8

section Routines

variable (seed : BitVec 8)

/-- The bytes of the time, from the second one, until one is not zero. -/
def seedLoop : BitVec 8 → List (BitVec 8) → BitVec 8
  | seed, [] => seed
  | seed, byte :: time => if seed = 0 then seedLoop (seed ||| byte) time else seed

/-- The seed that is used: a seed of zero is replaced. -/
def usedSeed (time : List (BitVec 8)) : BitVec 8 :=
  if seed = 0 then
    let seed := seedLoop (time.getD 1 0) time.tail
    if seed = 0 then 1 else seed
  else seed

/-- The bytes from the second one on, in order. -/
def encodeLoop : Nat → Buffer → Buffer
  | 0, s => s
  | i + 1, s =>
    let s := encodeLoop i s
    update s (i + 1) (s (i + 1) ^^^ (s i ^^^ seed))

/-- The bytes down to the second one. -/
def decodeLoop : Nat → Buffer → Buffer
  | 0, s => s
  | i + 1, s => decodeLoop i (update s (i + 1) (s (i + 1) ^^^ (s i ^^^ seed)))

/-- The first byte, in both directions. -/
def initialByte (length : Nat) (s : Buffer) : Buffer :=
  if 1 ≤ length then update s 0 (s 0 ^^^ (seed ||| 0x43)) else s

/-- `RtlRunEncodeUnicodeString`: the seed that was used, and the string. -/
def rtlRunEncodeUnicodeString (time : List (BitVec 8)) (length : Nat) (s : Buffer) :
    BitVec 8 × Buffer :=
  let seed := usedSeed seed time
  (seed, encodeLoop seed (length - 1) (initialByte seed length s))

/-- `RtlRunDecodeUnicodeString`. -/
def rtlRunDecodeUnicodeString (length : Nat) (s : Buffer) : Buffer :=
  initialByte seed length (decodeLoop seed (length - 1) s)

end Routines

/-- No wide character is zero. -/
def ZeroFree (length : Nat) (s : Buffer) : Prop :=
  ∀ k < length / 2, s (2 * k) ≠ 0 ∨ s (2 * k + 1) ≠ 0

/-- The bytes up to one, taken together. -/
def xorTo (s : Buffer) : Nat → BitVec 8
  | 0 => s 0
  | i + 1 => s (i + 1) ^^^ xorTo s i

variable {seed : BitVec 8} {s : Buffer} {i j : Nat}

theorem xor_cancel (a b : BitVec 8) : a ^^^ b ^^^ b = a := by
  rw [BitVec.xor_assoc, BitVec.xor_self, BitVec.xor_zero]

theorem decode_encode : decodeLoop seed i (encodeLoop seed i s) = s := by
  induction i with
  | zero => rfl
  | succ i ih =>
    rw [decodeLoop, encodeLoop]
    simp only [update_self, update_of_ne (Nat.ne_of_lt (Nat.lt_succ_self i)), xor_cancel,
      Function.update_idem, Function.update_eq_self]
    exact ih

theorem initialByte_twice (length : Nat) :
    initialByte seed length (initialByte seed length s) = s := by
  unfold initialByte
  split
  · rw [update_self, Function.update_idem, xor_cancel, Function.update_eq_self]
  · rfl

theorem encodeLoop_above (lt : i < j) : encodeLoop seed i s j = s j := by
  induction i with
  | zero => rfl
  | succ i ih => rw [encodeLoop, update_of_ne (Nat.ne_of_gt lt), ih (by omega)]

/-- A byte is written once, with the one before it. -/
theorem encodeLoop_succ (le : j + 1 ≤ i) : encodeLoop seed i s (j + 1) =
    s (j + 1) ^^^ (encodeLoop seed i s j ^^^ seed) := by
  induction i, le using Nat.le_induction with
  | base => rw [encodeLoop, update_self, update_of_ne (by omega), encodeLoop_above (by omega)]
  | succ i le ih => rw [encodeLoop, update_of_ne (by omega), update_of_ne (by omega), ih]

theorem encodeLoop_zero : encodeLoop seed i s 0 = s 0 := by
  induction i with
  | zero => rfl
  | succ i ih => rw [encodeLoop, update_of_ne (by omega), ih]

/-- The seed is taken an even number of times up to the low byte of a character. -/
theorem encodeLoop_low (le : 2 * j ≤ i) : encodeLoop seed i s (2 * j) = xorTo s (2 * j) := by
  induction j with
  | zero => exact encodeLoop_zero
  | succ j ih =>
    rw [show 2 * (j + 1) = 2 * j + 1 + 1 by omega, encodeLoop_succ (by omega),
      encodeLoop_succ (by omega), ih (by omega), ← BitVec.xor_assoc (s _) (xorTo _ _), xor_cancel]
    rfl

theorem xorTo_initialByte {length : Nat} (long : 1 ≤ length) :
    xorTo (initialByte seed length s) i = xorTo s i ^^^ (seed ||| 0x43) := by
  rw [initialByte, if_pos long]
  induction i with
  | zero => rw [xorTo, update_self, xorTo]
  | succ i ih => rw [xorTo, update_of_ne (by omega), ih, xorTo, BitVec.xor_assoc]

/-- A zero is produced where the bytes up to the low one of a character cancel out and the
high one is the seed. -/
theorem runEncode_restores_zeroFree_iff (nonzero : seed ≠ 0) (time : List (BitVec 8))
    (length : Nat) (s : Buffer) :
    rtlRunDecodeUnicodeString seed length (rtlRunEncodeUnicodeString seed time length s).2 = s ∧
      ZeroFree length (rtlRunEncodeUnicodeString seed time length s).2 ↔
    ∀ k < length / 2, s (2 * k + 1) = seed → xorTo s (2 * k) ≠ seed ||| 0x43 := by
  rw [rtlRunEncodeUnicodeString, usedSeed, if_neg nonzero, rtlRunDecodeUnicodeString,
    decode_encode, initialByte_twice, and_iff_right rfl]
  refine forall₂_congr fun k lt => ?_
  have high : initialByte seed length s (2 * k + 1) = s (2 * k + 1) := by
    rw [initialByte, if_pos (by omega), update_of_ne (by omega)]
  dsimp only
  rw [encodeLoop_succ (by omega), encodeLoop_low (by omega), xorTo_initialByte (by omega), high]
  constructor
  · intro free same eq
    rw [same, eq, BitVec.xor_self, BitVec.zero_xor, BitVec.xor_self] at free
    exact free.elim (· rfl) (· rfl)
  · intro fine
    by_contra zeros
    rw [not_or, not_not, not_not] at zeros
    obtain ⟨low, zero⟩ := zeros
    have eq := BitVec.xor_eq_zero_iff.mp low
    rw [eq, BitVec.xor_self, BitVec.zero_xor] at zero
    exact fine (BitVec.xor_eq_zero_iff.mp zero) eq

theorem runEncode_restores_zeroFree_ascii :
    ZeroFree 2 (rtlRunEncodeUnicodeString 1 [] 2 fun i => if i = 0 then 0x41 else 0).2 :=
  ((runEncode_restores_zeroFree_iff (by decide) [] 2 _).mpr (by decide)).2

/-- The seed `1` makes the character `0x0143` zero. -/
theorem runEncode_makes_zero : ∃ s : Buffer, ZeroFree 2 s ∧
    ¬ZeroFree 2 (rtlRunEncodeUnicodeString 1 [] 2 s).2 :=
  ⟨fun i => if i = 0 then 0x43 else 1, by unfold ZeroFree; decide⟩

end Ntoskrnl.Rtl.RunEncode
