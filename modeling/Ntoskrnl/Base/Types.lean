/-
# Ntoskrnl.Base.Types -- the NTSTATUS values the modelled routines return, and ULONGs

One constructor for each status a modelled routine can return; `code` is the
value `ntstatus.h` gives it and `ntSuccess` the `NT_SUCCESS` test, which looks at
the sign bit only.  `STATUS_BUFFER_ALL_ZEROS` is a success code.

A `ULONG` is a natural number below `2 ^ 32`.  Sums are reduced with `ulong` where the
source computes them, differences with `ulongSub`.
-/
import Mathlib.Algebra.Group.Nat.Defs
import Mathlib.Tactic.Common

namespace Ntoskrnl.Base

set_option autoImplicit false

inductive NtStatus where
  | success
  | bufferAllZeros
  | bufferOverflow
  | bufferTooSmall
  | notSupported
  | badCompressionBuffer
  | unsupportedCompression
  | invalidParameter
  | noMoreEntries
  | rangeListConflict
  | rangeNotFound
  | accessDenied
  | privilegeNotHeld
  | badImpersonationLevel
  | noMemory
  | pending
  | lockNotGranted
  | rangeNotLocked
  | insufficientResources
  | cancelled
  deriving DecidableEq, Repr

namespace NtStatus

def code : NtStatus → Nat
  | success => 0x00000000
  | bufferAllZeros => 0x00000117
  | bufferOverflow => 0x80000005
  | bufferTooSmall => 0xC0000023
  | notSupported => 0xC00000BB
  | badCompressionBuffer => 0xC0000242
  | unsupportedCompression => 0xC000025F
  | invalidParameter => 0xC000000D
  | noMoreEntries => 0x8000001A
  | rangeListConflict => 0xC0000282
  | rangeNotFound => 0xC000028C
  | accessDenied => 0xC0000022
  | privilegeNotHeld => 0xC0000061
  | badImpersonationLevel => 0xC00000A5
  | noMemory => 0xC0000017
  | pending => 0x00000103
  | lockNotGranted => 0xC0000055
  | rangeNotLocked => 0xC000007E
  | insufficientResources => 0xC000009A
  | cancelled => 0xC0000120

/-- `NT_SUCCESS`: the status is not negative as a 32-bit integer. -/
def ntSuccess (status : NtStatus) : Bool :=
  decide (status.code < 2 ^ 31)

theorem ntSuccess_success : ntSuccess .success := rfl

theorem ntSuccess_iff (status : NtStatus) :
    status.ntSuccess ↔ status = success ∨ status = bufferAllZeros ∨ status = pending := by
  cases status <;> decide

end NtStatus

/-- The conversion to `ULONG`. -/
def ulong (a : Nat) : Nat :=
  a % 2 ^ 32

/-- Subtraction of two `ULONG`s. -/
def ulongSub (a b : Nat) : Nat :=
  (a + 2 ^ 32 - b) % 2 ^ 32

theorem ulong_eq {a : Nat} (bound : a < 2 ^ 32) : ulong a = a :=
  Nat.mod_eq_of_lt bound

theorem ulongSub_eq {a b : Nat} (le : b ≤ a) (bound : a < 2 ^ 32) : ulongSub a b = a - b := by
  unfold ulongSub
  omega

end Ntoskrnl.Base
