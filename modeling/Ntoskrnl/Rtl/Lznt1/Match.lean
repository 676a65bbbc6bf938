/-
# Ntoskrnl.Rtl.Lznt1.Match -- the match finders

`LZNT1FindMatchStandard` and `LZNT1FindMatchMaximum`.  The memory the caller may
read is one byte list; the uncompressed chunk is a window of it, and the
pointers in the index table are offsets that may point anywhere, since the
workspace is never initialised.

An encoder needs only one thing of a match finder (`MatchFunction.Sound`): a
length it returns is zero, or that many bytes really agree with an earlier
string of the chunk and do not run past the window.
-/
import Ntoskrnl.Rtl.Lznt1.Format

namespace Ntoskrnl.Rtl.Lznt1

open Lib.Checked

set_option autoImplicit false

/-- `LZNT1_STANDARD_WORKSPACE`; the maximum workspace is its first four fields. -/
structure Workspace where
  uncompressedBuffer : Nat
  endOfUncompressedBufferPlus1 : Nat
  maxLength : Nat
  matchedString : Nat
  indexPTable : Nat → Nat × Nat

/-- A match function: the memory, the Ziv string and the workspace to the length
of the match and the workspace it leaves. -/
abbrev MatchFunction := List UInt8 → Nat → Workspace → Except Fault (Nat × Workspace)

def readByte (memory : List UInt8) (p : Nat) : Except Fault UInt8 :=
  readOr (.readUncompressed p) memory p

def sameByte (memory : List UInt8) (p q : Nat) : Except Fault Bool := do
  let a ← readByte memory p
  let b ← readByte memory q
  return a == b

/-- The test that at least three characters match, each read only after the one
before it matched. -/
def sameThree (memory : List UInt8) (entry zivString : Nat) : Except Fault Bool := do
  if ← sameByte memory entry zivString then
    if ← sameByte memory (entry + 1) (zivString + 1) then
      sameByte memory (entry + 2) (zivString + 2)
    else return false
  else return false

/-- Extend a match of `length` bytes, byte by byte, to at most `limit` bytes. -/
def extendMatch (memory : List UInt8) (entry zivString limit length : Nat) : Except Fault Nat :=
  if length < limit then do
    if ← sameByte memory (zivString + length) (entry + length) then
      extendMatch memory entry zivString limit (length + 1)
    else return length
  else .ok length
termination_by limit - length

/-- How far the scan of a match may go: `MaxLength`, and the end of the buffer. -/
def matchLimit (workspace : Workspace) (zivString : Nat) : Nat :=
  min workspace.maxLength (workspace.endOfUncompressedBufferPlus1 - zivString)

/-- The length of the match at one table entry, 0 when the entry does not lie
before the Ziv string in the buffer or fewer than three bytes agree. -/
def entryLength (memory : List UInt8) (zivString : Nat) (workspace : Workspace) (entry : Nat) :
    Except Fault Nat :=
  if workspace.uncompressedBuffer ≤ entry ∧ entry < zivString then do
    if ← sameThree memory entry zivString then
      extendMatch memory entry zivString (matchLimit workspace zivString) 3
    else return 0
  else .ok 0

def standardIndex (z0 z1 z2 : UInt8) : Nat :=
  (40543 * ((((z0.toNat <<< 4) ^^^ z1.toNat) <<< 4) ^^^ z2.toNat)) >>> 4 &&& 0xfff

def lznt1FindMatchStandard : MatchFunction := fun memory zivString workspace => do
  let z0 ← readByte memory zivString
  let z1 ← readByte memory (zivString + 1)
  let z2 ← readByte memory (zivString + 2)
  let index := standardIndex z0 z1 z2
  let (firstEntry, secondEntry) := workspace.indexPTable index
  let firstLength ← entryLength memory zivString workspace firstEntry
  let secondLength ← entryLength memory zivString workspace secondEntry
  let indexPTable := Function.update workspace.indexPTable index (zivString, firstEntry)
  if secondLength ≤ firstLength then
    return (firstLength, { workspace with indexPTable, matchedString := firstEntry })
  else
    return (secondLength, { workspace with indexPTable, matchedString := secondEntry })

/-- The loop of `LZNT1FindMatchMaximum` over the candidates from `q` on. -/
def maximumLoop (memory : List UInt8) (zivString q bestMatchedLength : Nat)
    (workspace : Workspace) : Except Fault (Nat × Workspace) :=
  if q < zivString then do
    let i ← extendMatch memory q zivString (matchLimit workspace zivString) 0
    if bestMatchedLength ≤ i then
      maximumLoop memory zivString (q + 1) i { workspace with matchedString := q }
    else maximumLoop memory zivString (q + 1) bestMatchedLength workspace
  else .ok (bestMatchedLength, workspace)
termination_by zivString - q

def lznt1FindMatchMaximum : MatchFunction := fun memory zivString workspace => do
  let (bestMatchedLength, workspace) ←
    maximumLoop memory zivString workspace.uncompressedBuffer 0 workspace
  return (if bestMatchedLength < 3 then 0 else bestMatchedLength, workspace)

/-! ## Soundness -/

/-- The two strings agree on their first `length` bytes. -/
def Agree (memory : List UInt8) (p q length : Nat) : Prop :=
  ∀ k, k < length → memory[p + k]? = memory[q + k]?

/-- `length` bytes at the Ziv string match an earlier string of the chunk. -/
structure Matched (memory : List UInt8) (workspace : Workspace) (zivString matched length : Nat) :
    Prop where
  three : 3 ≤ length
  bound : length ≤ workspace.maxLength
  inside : zivString + length ≤ workspace.endOfUncompressedBufferPlus1
  low : workspace.uncompressedBuffer ≤ matched
  before : matched < zivString
  agree : Agree memory zivString matched length

/-- The fields of the workspace a match function leaves alone. -/
def SameChunk (before after : Workspace) : Prop :=
  after.uncompressedBuffer = before.uncompressedBuffer ∧
    after.endOfUncompressedBufferPlus1 = before.endOfUncompressedBufferPlus1 ∧
    after.maxLength = before.maxLength

/-- A length a sound match function returns is zero or that of a real match. -/
def MatchFunction.Sound (matchFunction : MatchFunction) : Prop :=
  ∀ (memory : List UInt8) (zivString length : Nat) (before after : Workspace),
    3 ≤ before.maxLength → zivString + 3 ≤ before.endOfUncompressedBufferPlus1 →
    matchFunction memory zivString before = .ok (length, after) →
    SameChunk before after ∧
      (length = 0 ∨ Matched memory before zivString after.matchedString length)

section Soundness

variable {memory : List UInt8} {entry zivString limit : Nat}

theorem sameByte_true {p q : Nat} (run : sameByte memory p q = .ok true) :
    memory[p]? = memory[q]? := by
  obtain ⟨a, ha, run⟩ := bind_eq_ok.mp run
  obtain ⟨b, hb, run⟩ := bind_eq_ok.mp run
  have same : a = b := by simpa [pure, Except.pure] using run
  rw [readOr_eq_ok.mp ha, readOr_eq_ok.mp hb, same]

theorem Agree.succ {p q length : Nat} (agree : Agree memory p q length)
    (next : memory[p + length]? = memory[q + length]?) : Agree memory p q (length + 1) := by
  intro k hk
  rcases Nat.lt_succ_iff_lt_or_eq.mp hk with earlier | rfl
  · exact agree k earlier
  · exact next

theorem sameThree_true (run : sameThree memory entry zivString = .ok true) :
    Agree memory zivString entry 3 := by
  obtain ⟨first, h0, run⟩ := bind_eq_ok.mp run
  cases first with
  | false => simp [pure, Except.pure] at run
  | true =>
    obtain ⟨second, h1, run⟩ := bind_eq_ok.mp run
    cases second with
    | false => simp [pure, Except.pure] at run
    | true =>
      have none : Agree memory zivString entry 0 := fun k hk => absurd hk (Nat.not_lt_zero k)
      exact ((none.succ (sameByte_true h0).symm).succ (sameByte_true h1).symm).succ
        (sameByte_true run).symm

/-- An extension only adds bytes that agree and stays below its limit. -/
theorem extendMatch_ok {length result : Nat}
    (run : extendMatch memory entry zivString limit length = .ok result)
    (agree : Agree memory zivString entry length) (start : length ≤ limit) :
    length ≤ result ∧ result ≤ limit ∧ Agree memory zivString entry result := by
  rw [extendMatch] at run
  split at run
  · next more =>
    obtain ⟨same, test, run⟩ := bind_eq_ok.mp run
    cases same with
    | false =>
      obtain rfl : length = result := by simpa [pure, Except.pure] using run
      exact ⟨le_rfl, start, agree⟩
    | true =>
      obtain ⟨grown, bound, agrees⟩ :=
        extendMatch_ok run (agree.succ (sameByte_true test)) more
      exact ⟨by omega, bound, agrees⟩
  · obtain rfl := Except.ok.inj run
    exact ⟨le_rfl, start, agree⟩
termination_by limit - length

theorem entryLength_ok {workspace : Workspace} {length : Nat} (room : 3 ≤ workspace.maxLength)
    (inside : zivString + 3 ≤ workspace.endOfUncompressedBufferPlus1)
    (run : entryLength memory zivString workspace entry = .ok length) :
    length = 0 ∨ Matched memory workspace zivString entry length := by
  unfold entryLength at run
  split at run
  · next window =>
    obtain ⟨three, test, run⟩ := bind_eq_ok.mp run
    cases three with
    | false => exact .inl (by simpa [pure, Except.pure, eq_comm] using run)
    | true =>
      have limit : 3 ≤ matchLimit workspace zivString := by unfold matchLimit; omega
      obtain ⟨grown, bound, agree⟩ := extendMatch_ok run (sameThree_true test) limit
      unfold matchLimit at bound
      exact .inr ⟨grown, by omega, by omega, window.1, window.2, agree⟩
  · exact .inl (Except.ok.inj run).symm

theorem lznt1FindMatchStandard_sound : MatchFunction.Sound lznt1FindMatchStandard := by
  intro memory zivString length before after room inside run
  obtain ⟨z0, -, run⟩ := bind_eq_ok.mp run
  obtain ⟨z1, -, run⟩ := bind_eq_ok.mp run
  obtain ⟨z2, -, run⟩ := bind_eq_ok.mp run
  obtain ⟨firstLength, first, run⟩ := bind_eq_ok.mp run
  obtain ⟨secondLength, second, run⟩ := bind_eq_ok.mp run
  split at run
  · obtain ⟨rfl, rfl⟩ := Prod.mk.inj (pure_eq_ok.mp run)
    exact ⟨⟨rfl, rfl, rfl⟩, entryLength_ok room inside first⟩
  · obtain ⟨rfl, rfl⟩ := Prod.mk.inj (pure_eq_ok.mp run)
    exact ⟨⟨rfl, rfl, rfl⟩, entryLength_ok room inside second⟩

theorem maximumLoop_ok {q best length : Nat} {before after : Workspace}
    (run : maximumLoop memory zivString q best before = .ok (length, after))
    (inside : zivString ≤ before.endOfUncompressedBufferPlus1)
    (low : before.uncompressedBuffer ≤ q)
    (sofar : best < 3 ∨ Matched memory before zivString before.matchedString best) :
    SameChunk before after ∧
      (length < 3 ∨ Matched memory before zivString after.matchedString length) := by
  rw [maximumLoop] at run
  split at run
  · next earlier =>
    obtain ⟨i, scan, run⟩ := bind_eq_ok.mp run
    split at run
    · have scanned := extendMatch_ok scan (fun k hk => absurd hk (Nat.not_lt_zero k))
        (Nat.zero_le _)
      have here : i < 3 ∨ Matched memory before zivString q i := by
        rcases Nat.lt_or_ge i 3 with short | three
        · exact .inl short
        · have bound := scanned.2.1
          unfold matchLimit at bound
          exact .inr ⟨three, by omega, by omega, low, earlier, scanned.2.2⟩
      have carried : i < 3 ∨ Matched memory { before with matchedString := q } zivString q i :=
        here.imp id fun m => ⟨m.three, m.bound, m.inside, m.low, m.before, m.agree⟩
      obtain ⟨same, found⟩ := maximumLoop_ok run inside (Nat.le_succ_of_le low) carried
      exact ⟨same, found.imp id fun m =>
        ⟨m.three, m.bound, m.inside, m.low, m.before, m.agree⟩⟩
    · exact maximumLoop_ok run inside (Nat.le_succ_of_le low) sofar
  · obtain ⟨rfl, rfl⟩ := Prod.mk.inj (Except.ok.inj run)
    exact ⟨⟨rfl, rfl, rfl⟩, sofar⟩
termination_by zivString - q

theorem lznt1FindMatchMaximum_sound : MatchFunction.Sound lznt1FindMatchMaximum := by
  intro memory zivString length before after _ inside run
  obtain ⟨⟨best, workspace⟩, scan, run⟩ := bind_eq_ok.mp run
  obtain ⟨same, found⟩ := maximumLoop_ok scan (by omega) le_rfl (.inl (by decide))
  obtain ⟨rfl, rfl⟩ := Prod.mk.inj (pure_eq_ok.mp run)
  refine ⟨same, ?_⟩
  split
  · exact .inl rfl
  · next three => exact .inr (found.resolve_left three)

end Soundness

end Ntoskrnl.Rtl.Lznt1
