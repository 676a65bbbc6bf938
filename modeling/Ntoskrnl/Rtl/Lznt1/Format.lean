/-
# Ntoskrnl.Rtl.Lznt1.Format -- memory, token formats and chunk images

Buffers are byte lists and pointers offsets into them.  An access outside its
buffer ends the run in a `Fault`, so a run that returns has stayed inside.

The compressed bytes of a decompression lie in a buffer of their own or in the
memory the output goes to (`Source`): a caller may place a chunk inside its own
output buffer.  `Source.Spares` says that what is still to be read survives the
output stored so far.

The data definitions of `lznt1.c` follow: the chunk header, the nine copy token
formats and their largest displacements and lengths, the bit fields of the unions
written out as arithmetic.  The format of a token is fixed by how many bytes of the
chunk precede it; `formatAt` is the counter encoder and decoder agree on.

The abstract side of the codec: a chunk body is a sequence of groups of at most eight
tokens, each led by a flag byte with one bit a token (`bodyBytes`).  `ChunkImage y c`
says that `c` is one chunk, header included, that stands for the bytes `y`, and
`Stream x c` that `c` is a sequence of such chunks for consecutive pieces of `x`, all
but the last of 4096 bytes.  Compressors are shown to produce a `Stream` and
decompressors to invert one, so neither side's proof mentions the other's code.  The
last group of a body may be empty: the hibernation encoder reserves a flag byte before
it knows whether any input is left.
-/
import Mathlib.Tactic.IntervalCases
import Ntoskrnl.Lib.Lz77
import Ntoskrnl.Base.Types

namespace Ntoskrnl.Rtl.Lznt1

open Lib.Checked

set_option autoImplicit false

/-- What a run does wrong when it leaves its buffers or its tables. -/
inductive Fault where
  | readCompressed (offset : Nat)
  | writeCompressed (offset : Nat)
  | readUncompressed (offset : Nat)
  | writeUncompressed (offset : Nat)
  | formatIndex (index : Nat)
  | beforeBuffer (distance : Nat)
  | chunkSizeIndex (index : Nat)
  deriving DecidableEq, Repr

/-- The two bytes `RtlStoreUshort` stores. -/
def ushortBytes (value : Nat) : List UInt8 :=
  [UInt8.ofNat value, UInt8.ofNat (value / 256)]

/-- The value `RtlRetrieveUshort` retrieves. -/
def ushortOf (low high : UInt8) : Nat :=
  low.toNat + 256 * high.toNat

@[simp] theorem ushortBytes_length (value : Nat) : (ushortBytes value).length = 2 := rfl

variable {value : Nat}

theorem ushortOf_ushortBytes (bound : value < 65536) :
    ushortOf (UInt8.ofNat value) (UInt8.ofNat (value / 256)) = value := by
  simp only [ushortOf, UInt8.toNat_ofNat']
  omega

/-- Where the compressed bytes are: in a buffer of their own, or in the memory
that also receives the output. -/
inductive Source where
  | separate (bytes : List UInt8)
  | within
  deriving DecidableEq, Repr

namespace Source

/-- The byte at offset `p`, with `memory` the output memory as it is now. -/
def read (source : Source) (memory : List UInt8) (p : Nat) : Except Fault UInt8 :=
  match source with
  | .separate bytes => readOr (.readCompressed p) bytes p
  | .within => readOr (.readUncompressed p) memory p

/-- `RtlRetrieveUshort`. -/
def readUshort (source : Source) (memory : List UInt8) (p : Nat) : Except Fault Nat := do
  let low ← source.read memory p
  let high ← source.read memory (p + 1)
  return ushortOf low high

def readBlock (source : Source) (memory : List UInt8) : Nat → Nat → Except Fault (List UInt8)
  | 0, _ => .ok []
  | count + 1, p => do
      let byte ← source.read memory p
      let bytes ← readBlock source memory count (p + 1)
      return byte :: bytes

end Source

/-- Store a block of bytes; all of it has to lie in the memory. -/
def writeBlock (onWrite : Nat → Fault) (memory : List UInt8) (p : Nat) (bytes : List UInt8) :
    Except Fault (List UInt8) :=
  if p + bytes.length ≤ memory.length then .ok (blit memory p bytes)
  else .error (onWrite memory.length)

/-- `RtlCopyMemory` from the compressed bytes to the output memory. -/
def copyMemory (source : Source) (memory : List UInt8) (target p count : Nat) :
    Except Fault (List UInt8) := do
  let bytes ← source.readBlock memory count p
  writeBlock .writeUncompressed memory target bytes

/-- `RtlZeroMemory`. -/
def zeroMemory (memory : List UInt8) (target count : Nat) : Except Fault (List UInt8) :=
  writeBlock .writeUncompressed memory target (List.replicate count 0)

/-! ## What a source provides -/

namespace Source

variable (source : Source) (memory : List UInt8)

/-- The bytes are read at offset `p` when the memory is as given. -/
def Holds (p : Nat) (bytes : List UInt8) : Prop :=
  ∀ k byte, bytes[k]? = some byte → source.read memory (p + k) = .ok byte

/-- Storing `out` at `target` changes nothing that is read at offset `p` or later. -/
def Spares (target : Nat) (out : List UInt8) (p : Nat) : Prop :=
  ∀ j, p ≤ j → source.read (blit memory target out) j = source.read memory j

variable {source : Source} {memory : List UInt8} {target p : Nat} {as full bytes out : List UInt8}
  {byte : UInt8}

theorem Holds.head (holds : source.Holds memory p (byte :: bytes)) :
    source.read memory p = .ok byte := by
  simpa using holds 0 byte rfl

theorem Holds.right {bs : List UInt8} (holds : source.Holds memory p (as ++ bs)) :
    source.Holds memory (p + as.length) bs := by
  intro k byte found
  rw [Nat.add_assoc]
  apply holds
  rw [List.getElem?_append_right (Nat.le_add_right _ _), Nat.add_sub_cancel_left]
  exact found

theorem Holds.left {bs : List UInt8} (holds : source.Holds memory p (as ++ bs)) :
    source.Holds memory p as := by
  intro k byte found
  have inside := (List.getElem?_eq_some_iff.mp found).1
  exact holds k byte (by rw [List.getElem?_append_left inside, found])

theorem Holds.tail (holds : source.Holds memory p (byte :: bytes)) :
    source.Holds memory (p + 1) bytes :=
  @Holds.right source memory p [byte] bytes holds

theorem Holds.readUshort (bound : value < 65536) (holds : source.Holds memory p (ushortBytes value)) :
    source.readUshort memory p = .ok value := by
  unfold Source.readUshort
  rw [holds.head, holds.tail.head]
  simp only [bind, Except.bind, pure, Except.pure, ushortOf_ushortBytes bound]

theorem Holds.readBlock : ∀ {bytes : List UInt8} {p : Nat}, source.Holds memory p bytes →
    source.readBlock memory bytes.length p = .ok bytes
  | [], _, _ => rfl
  | byte :: bytes, p, holds => by
      rw [List.length_cons, Source.readBlock, holds.head]
      simp only [bind, Except.bind]
      rw [holds.tail.readBlock]
      rfl

theorem Holds.spared (holds : source.Holds memory p bytes)
    (spares : source.Spares memory target out p) :
    source.Holds (blit memory target out) p bytes :=
  fun k byte found => (spares _ (Nat.le_add_right p k)).trans (holds k byte found)

/-- A separate source holds what lies in it, whatever the output memory. -/
theorem holds_separate (placed : At full p bytes) : (separate full).Holds memory p bytes := by
  intro k byte found
  have inside := (List.getElem?_eq_some_iff.mp found).1
  exact readOr_eq_ok.mpr ((placed k inside).trans found)

theorem holds_within (placed : At memory p bytes) : within.Holds memory p bytes := by
  intro k byte found
  have inside := (List.getElem?_eq_some_iff.mp found).1
  exact readOr_eq_ok.mpr ((placed k inside).trans found)

theorem spares_within (room : target + out.length ≤ memory.length)
    (behind : target + out.length ≤ p) : within.Spares memory target out p := by
  intro j low
  simp only [read, readOr, getElem?_blit_outside room (.inr (Nat.le_trans behind low))]

theorem Holds.copies (holds : source.Holds memory p bytes)
    (room : target + bytes.length ≤ memory.length) :
    copyMemory source memory target p bytes.length = .ok (blit memory target bytes) := by
  unfold copyMemory
  rw [holds.readBlock, ok_bind, writeBlock, if_pos room]

theorem Holds.overruns (holds : source.Holds memory p bytes)
    (full : ¬ target + bytes.length ≤ memory.length) :
    copyMemory source memory target p bytes.length = .error (.writeUncompressed memory.length) := by
  unfold copyMemory
  rw [holds.readBlock, ok_bind, writeBlock, if_neg full]

end Source

open List

/-! ## Chunk headers -/

def maxUncompressedChunkSize : Nat := 4096

theorem maxUncompressedChunkSize_eq : maxUncompressedChunkSize = 4096 := rfl

variable (size chunkHeader format length copyToken displacement : Nat) (compressed : Bool)

/-- `CompressedChunkSizeMinus3 + 3`, the low twelve bits. -/
def getCompressedChunkSize : Nat :=
  chunkHeader % 4096 + 3

def getUncompressedChunkSize (_chunkHeader : Nat) : Nat :=
  maxUncompressedChunkSize

theorem getUncompressedChunkSize_eq : getUncompressedChunkSize chunkHeader = 4096 := rfl

def isChunkCompressed : Bool :=
  decide (chunkHeader / 32768 % 2 = 1)

/-- All sixteen bits of the header are set: size, signature 3 and the flag. -/
def setCompressedChunkHeader (compressedChunkSize : Nat) (compressed : Bool) : Nat :=
  (compressedChunkSize - 3) % 4096 + 3 * 4096 + (if compressed then 32768 else 0)

theorem setCompressedChunkHeader_lt : setCompressedChunkHeader size compressed < 65536 := by
  unfold setCompressedChunkHeader
  split <;> omega

theorem setCompressedChunkHeader_ne_zero : setCompressedChunkHeader size compressed ≠ 0 := by
  unfold setCompressedChunkHeader
  omega

theorem getCompressedChunkSize_set {size : Nat} (low : 3 ≤ size) (high : size ≤ 4098) :
    getCompressedChunkSize (setCompressedChunkHeader size compressed) = size := by
  unfold getCompressedChunkSize setCompressedChunkHeader
  split <;> omega

theorem isChunkCompressed_set :
    isChunkCompressed (setCompressedChunkHeader size compressed) = compressed := by
  unfold isChunkCompressed setCompressedChunkHeader
  cases compressed
  · simp only [Bool.false_eq_true, if_false, decide_eq_false_iff_not]
    omega
  · simp only [if_true, decide_eq_true_eq]
    omega

/-! ## Copy tokens -/

def formatMaxLength : List Nat := [4098, 2050, 1026, 514, 258, 130, 66, 34, 18]

def formatMaxDisplacement : List Nat := [16, 32, 64, 128, 256, 512, 1024, 2048, 4096]

/-- The width of the length field: `FORMAT412` gives twelve bits, each format
after it one bit less, and every value past `FORMAT124` reads like `FORMAT124`. -/
def lengthBits : Nat :=
  if format ≤ 8 then 12 - format else 4

def getLznt1Length : Nat :=
  copyToken % 2 ^ lengthBits format + 3

def getLznt1Displacement : Nat :=
  copyToken / 2 ^ lengthBits format + 1

def setLznt1 : Nat :=
  (length - 3) % 2 ^ lengthBits format +
    (displacement - 1) % 2 ^ (16 - lengthBits format) * 2 ^ lengthBits format

theorem lengthBits_le : lengthBits format ≤ 12 := by
  unfold lengthBits
  split <;> omega

theorem setLznt1_lt : setLznt1 format length displacement < 65536 := by
  have bits := lengthBits_le format
  have high := Nat.mod_lt (displacement - 1) (Nat.two_pow_pos (16 - lengthBits format))
  have split : 2 ^ (16 - lengthBits format) * 2 ^ lengthBits format = 65536 := by
    rw [← Nat.pow_add, Nat.sub_add_cancel (by omega)]
  have step := Nat.mul_le_mul_right (2 ^ lengthBits format) (Nat.succ_le_of_lt high)
  rw [Nat.succ_mul] at step
  unfold setLznt1
  omega

variable {format q position : Nat}

theorem getLznt1Length_set {length : Nat} (displacement : Nat) (low : 3 ≤ length)
    (high : length ≤ 2 ^ lengthBits format + 2) :
    getLznt1Length format (setLznt1 format length displacement) = length := by
  unfold getLznt1Length setLznt1
  rw [Nat.add_mul_mod_self_right, Nat.mod_mod, Nat.mod_eq_of_lt (by omega)]
  omega

theorem getLznt1Displacement_set {displacement : Nat} (length : Nat) (low : 1 ≤ displacement)
    (high : displacement ≤ 2 ^ (16 - lengthBits format)) :
    getLznt1Displacement format (setLznt1 format length displacement) = displacement := by
  have width := Nat.two_pow_pos (lengthBits format)
  unfold getLznt1Displacement setLznt1
  rw [Nat.add_mul_div_right _ _ width, Nat.div_eq_of_lt (Nat.mod_lt _ width),
    Nat.mod_eq_of_lt (by omega)]
  omega

/-! ## The format at a position -/

/-- The format of a token that starts `position` bytes into its chunk: the first
whose largest displacement reaches back to the start. -/
def formatAt (position : Nat) : Nat :=
  formatMaxDisplacement.findIdx fun d => decide (position ≤ d)

/-- The loop `while (UncompressedBuffer + FormatMaxDisplacement[Format] < Pointer)`,
with `position` the pointer's offset from `UncompressedBuffer`. -/
def advanceFormat (position format : Nat) : Except Fault Nat :=
  match h : formatMaxDisplacement[format]? with
  | none => .error (.formatIndex format)
  | some d => if d < position then advanceFormat position (format + 1) else .ok format
termination_by 9 - format
decreasing_by
  have : format < 9 := (List.getElem?_eq_some_iff.mp h).1
  omega

theorem formatMaxDisplacement_get (h : format < 9) :
    formatMaxDisplacement[format]? = some (2 ^ (4 + format)) := by
  interval_cases format <;> rfl

theorem advanceFormat_of_get {d : Nat} (entry : formatMaxDisplacement[format]? = some d) :
    advanceFormat position format =
      if d < position then advanceFormat position (format + 1) else .ok format := by
  rw [advanceFormat]
  split
  · next missing => simp [entry] at missing
  · next d' found =>
    rw [entry] at found
    rw [Option.some.inj found]

theorem formatMaxLength_get (h : format < 9) :
    formatMaxLength[format]? = some (2 ^ lengthBits format + 2) := by
  interval_cases format <;> rfl

theorem lt_formatAt (h : format < formatAt position) :
    format < 9 ∧ 2 ^ (4 + format) < position := by
  have short : formatAt position ≤ 9 := findIdx_le_length
  have small : format < 9 := by omega
  have entry := not_of_lt_findIdx h
  have value := formatMaxDisplacement_get small
  rw [getElem?_eq_getElem small] at value
  have width := Option.some.inj value
  simp only [decide_eq_false_iff_not] at entry
  exact ⟨small, by omega⟩

theorem formatAt_lt (h : position ≤ 4096) : formatAt position < 9 := by
  apply findIdx_lt_length_of_exists
  exact ⟨4096, by decide, by simpa using h⟩

theorem formatAt_of_gt (h : 4096 < position) : formatAt position = 9 := by
  unfold formatAt
  rw [findIdx_eq_length_of_false]
  · rfl
  · intro d member
    simp only [formatMaxDisplacement, mem_cons, not_mem_nil, or_false] at member
    simp only [decide_eq_false_iff_not]
    omega

theorem le_of_formatAt (h : position ≤ 4096) : position ≤ 2 ^ (4 + formatAt position) := by
  have small := formatAt_lt h
  have found := findIdx_getElem (p := fun d => decide (position ≤ d)) (w := small)
  have value := formatMaxDisplacement_get small
  rw [getElem?_eq_getElem small] at value
  have entry := Option.some.inj value
  simp only [decide_eq_true_eq] at found
  unfold formatAt at entry ⊢
  omega

theorem formatAt_mono {p : Nat} (h : p ≤ q) : formatAt p ≤ formatAt q := by
  by_contra ahead
  have small : q ≤ 4096 := by
    by_contra far
    have : formatAt p ≤ 9 := findIdx_le_length
    have := formatAt_of_gt (by omega : 4096 < q)
    omega
  have entry := (lt_formatAt (by omega : formatAt q < formatAt p)).2
  have := le_of_formatAt small
  omega

/-- **Every counter that is not ahead reaches the format of the position.** -/
theorem advanceFormat_eq {format : Nat} (small : position ≤ 4096)
    (behind : format ≤ formatAt position) :
    advanceFormat position format = .ok (formatAt position) := by
  have last := formatAt_lt small
  have reach := le_of_formatAt small
  by_cases here : format = formatAt position
  · rw [here, advanceFormat_of_get (formatMaxDisplacement_get last), if_neg (by omega)]
  · obtain ⟨bound, entry⟩ := lt_formatAt (by omega : format < formatAt position)
    rw [advanceFormat_of_get (formatMaxDisplacement_get bound), if_pos entry]
    exact advanceFormat_eq small (by omega)
termination_by 9 - format

/-- Past 4096 bytes no entry stops the loop and it indexes beyond the table. -/
theorem advanceFormat_of_gt {format : Nat} (far : 4096 < position) (behind : format ≤ 9) :
    advanceFormat position format = .error (.formatIndex 9) := by
  by_cases here : format = 9
  · rw [here]
    unfold advanceFormat
    rfl
  · have bound : format < 9 := by omega
    have entry : 2 ^ (4 + format) < position := by
      have : 2 ^ (4 + format) ≤ 2 ^ 12 := Nat.pow_le_pow_right (by decide) (by omega)
      omega
    rw [advanceFormat_of_get (formatMaxDisplacement_get bound), if_pos entry]
    exact advanceFormat_of_gt far (by omega)
termination_by 9 - format

open Lib.Lz77 List

abbrev ByteToken := Token UInt8

/-! ## Tokens and flag bytes -/

variable (p : Nat) (ts us : List ByteToken)

/-- The bytes of a token that starts `p` bytes into its chunk. -/
def tokenBytes : ByteToken → List UInt8
  | .literal byte => [byte]
  | .copy displacement length => ushortBytes (setLznt1 (formatAt p) length displacement)

def tokensBytes : Nat → List ByteToken → List UInt8
  | _, [] => []
  | p, t :: ts => tokenBytes p t ++ tokensBytes (p + t.length) ts

/-- How many bytes a list of tokens stands for. -/
def tokensLength : List ByteToken → Nat
  | [] => 0
  | t :: ts => t.length + tokensLength ts

/-- One bit a token, the first token in the lowest bit. -/
def flagsOf : List ByteToken → Nat
  | [] => 0
  | t :: ts => t.isCopy.toNat + 2 * flagsOf ts

/-- The flag byte and the tokens it describes. -/
def groupBytes (g : List ByteToken) : List UInt8 :=
  UInt8.ofNat (flagsOf g) :: tokensBytes p g

def bodyBytes : Nat → List (List ByteToken) → List UInt8
  | _, [] => []
  | p, g :: gs => groupBytes p g ++ bodyBytes (p + tokensLength g) gs

/-- The token's length fits the field its position gives it. -/
def Sized : ByteToken → Prop
  | .literal _ => True
  | .copy _ length => 3 ≤ length ∧ length ≤ 2 ^ lengthBits (formatAt p) + 2

def AllSized : Nat → List ByteToken → Prop
  | _, [] => True
  | p, t :: ts => Sized p t ∧ AllSized (p + t.length) ts

/-- Every group but the last is full. -/
def Grouped : List (List ByteToken) → Prop
  | [] => True
  | [g] => g.length ≤ 8
  | g :: gs => g.length = 8 ∧ Grouped gs

theorem tokenBytes_length_pos (t : ByteToken) : 0 < (tokenBytes p t).length := by
  cases t <;> simp [tokenBytes]

theorem tokensBytes_append :
    tokensBytes p (ts ++ us) = tokensBytes p ts ++ tokensBytes (p + tokensLength ts) us := by
  induction ts generalizing p with
  | nil => rfl
  | cons t ts ih =>
    simp only [cons_append, tokensBytes, ih, tokensLength, append_assoc, Nat.add_assoc]

theorem tokensLength_append : tokensLength (ts ++ us) = tokensLength ts + tokensLength us := by
  induction ts with
  | nil => simp [tokensLength]
  | cons t ts ih => simp only [cons_append, tokensLength, ih, Nat.add_assoc]

theorem bodyBytes_append (gs hs : List (List ByteToken)) :
    bodyBytes p (gs ++ hs) = bodyBytes p gs ++ bodyBytes (p + tokensLength gs.flatten) hs := by
  induction gs generalizing p with
  | nil => rfl
  | cons g gs ih =>
    simp only [cons_append, bodyBytes, ih, flatten_cons, tokensLength_append,
      append_assoc, Nat.add_assoc]

theorem allSized_append :
    AllSized p (ts ++ us) ↔ AllSized p ts ∧ AllSized (p + tokensLength ts) us := by
  induction ts generalizing p with
  | nil => simp [AllSized, tokensLength]
  | cons t ts ih =>
    simp only [cons_append, AllSized, ih, tokensLength, and_assoc, Nat.add_assoc]

variable {g ts : List ByteToken} {c : List UInt8}

variable {gs : List (List ByteToken)}

theorem grouped_append_last (full : ∀ h ∈ gs, h.length = 8) (short : g.length ≤ 8) :
    Grouped (gs ++ [g]) := by
  induction gs with
  | nil => exact short
  | cons h gs ih =>
    have rest := ih fun k hk => full k (mem_cons_of_mem h hk)
    have head := full h mem_cons_self
    cases gs with
    | nil => exact ⟨head, short⟩
    | cons => exact ⟨head, rest⟩

theorem grouped_cons (grouped : Grouped (g :: gs)) :
    g.length ≤ 8 ∧ (gs ≠ [] → g.length = 8) ∧ Grouped gs := by
  cases gs with
  | nil => exact ⟨grouped, fun h => absurd rfl h, trivial⟩
  | cons => exact ⟨Nat.le_of_eq grouped.1, fun _ => grouped.1, grouped.2⟩

variable {y : List UInt8}

theorem describes_end {p : Nat} (described : Describes y p ts q) : q = p + tokensLength ts := by
  induction ts generalizing p with
  | nil => exact described.symm
  | cons t ts ih =>
    have := ih described.2
    simp only [tokensLength]
    omega

/-! ## Flags -/

theorem flagsOf_lt (ts : List ByteToken) : flagsOf ts < 2 ^ ts.length := by
  induction ts with
  | nil => simp [flagsOf]
  | cons t =>
    have : t.isCopy.toNat ≤ 1 := Bool.toNat_le _
    simp only [flagsOf, length_cons, Nat.pow_succ]
    omega

theorem flagsOf_snoc (ts : List ByteToken) (t : ByteToken) :
    flagsOf (ts ++ [t]) = flagsOf ts + 2 ^ ts.length * t.isCopy.toNat := by
  induction ts with
  | nil => simp [flagsOf]
  | cons s ts ih =>
    simp only [cons_append, flagsOf, ih, length_cons, Nat.pow_succ, Nat.mul_add]
    rw [Nat.mul_comm (2 ^ ts.length) 2, Nat.mul_assoc, Nat.add_assoc]

theorem flagsOf_toNat (short : g.length ≤ 8) : (UInt8.ofNat (flagsOf g)).toNat = flagsOf g := by
  have := flagsOf_lt g
  have : 2 ^ g.length ≤ 2 ^ 8 := Nat.pow_le_pow_right (by decide) short
  rw [UInt8.toNat_ofNat']
  omega

variable {t : ByteToken} {flags k : Nat}

/-- The lowest flag is the first token's. -/
theorem testBit_flagsOf (read : flags / 2 ^ k = flagsOf (t :: ts)) :
    flags.testBit k = t.isCopy := by
  have parity : flags / 2 ^ k % 2 = t.isCopy.toNat := by
    rw [read, flagsOf]
    cases t.isCopy <;> simp [Nat.add_mul_mod_self_left]
  rw [Nat.testBit_eq_decide_div_mod_eq, parity]
  cases t.isCopy <;> decide

theorem flags_next (read : flags / 2 ^ k = flagsOf (t :: ts)) :
    flags / 2 ^ (k + 1) = flagsOf ts := by
  have : t.isCopy.toNat ≤ 1 := Bool.toNat_le _
  rw [Nat.pow_succ, ← Nat.div_div_eq_div_mul, read, flagsOf]
  omega

/-! ## Chunks and streams -/

/-- The groups of a body that stands for `y`. -/
structure Spells (y : List UInt8) (groups : List (List ByteToken)) : Prop where
  grouped : Grouped groups
  described : Describes y 0 groups.flatten y.length
  sized : AllSized 0 groups.flatten
  small : 2 + (bodyBytes 0 groups).length ≤ 4095

/-- `c` is one chunk, header included, standing for `y`. -/
inductive ChunkImage (y : List UInt8) : List UInt8 → Prop where
  | compressed (groups : List (List ByteToken)) (spells : Spells y groups) :
      ChunkImage y (ushortBytes (setCompressedChunkHeader (2 + (bodyBytes 0 groups).length) true) ++
          bodyBytes 0 groups)
  | stored (data : List UInt8) (whole : data.length = 4096) (front : data.take y.length = y) :
      ChunkImage y (ushortBytes (setCompressedChunkHeader 4098 false) ++ data)

/-- `c` is a sequence of chunks standing for consecutive pieces of `x`. -/
inductive Stream : List UInt8 → List UInt8 → Prop where
  | last {y c : List UInt8} (some : y ≠ []) (short : y.length ≤ 4096) (image : ChunkImage y c) :
      Stream y c
  | more {y c x rest : List UInt8} (full : y.length = 4096) (image : ChunkImage y c)
      (tail : Stream x rest) : Stream (y ++ x) (c ++ rest)

variable {x : List UInt8}

theorem Stream.ne_nil (stream : Stream x c) : x ≠ [] := by
  cases stream with
  | last some => exact some
  | more => exact append_ne_nil_of_left_ne_nil (ne_nil_of_length_pos (by omega)) _

/-- A chunk begins with the header that carries its own size. -/
theorem ChunkImage.header (image : ChunkImage y c) (some : y ≠ []) :
    4 ≤ c.length ∧ c.length ≤ 4098 ∧ ∃ compressed body,
      c = ushortBytes (setCompressedChunkHeader c.length compressed) ++ body := by
  cases image with
  | compressed groups spells =>
    obtain ⟨grouped, described, -, small⟩ := spells
    have body : 2 ≤ (bodyBytes 0 groups).length := by
      cases groups with
      | nil =>
        have : y.length = 0 := described.symm
        exact absurd (length_eq_zero_iff.mp this) some
      | cons g gs =>
        cases g with
        | nil =>
          cases gs with
          | nil => exact absurd (length_eq_zero_iff.mp described.symm) some
          | cons => simp [Grouped] at grouped
        | cons t =>
          have := tokenBytes_length_pos 0 t
          simp only [bodyBytes, groupBytes, tokensBytes, length_append, length_cons]
          omega
    simp only [length_append, ushortBytes_length]
    exact ⟨by omega, by omega, true, _, rfl⟩
  | stored data whole =>
    simp only [length_append, ushortBytes_length, whole]
    exact ⟨by omega, by omega, false, data, rfl⟩

/-- A stream begins with a header that is not the terminator. -/
theorem Stream.header (stream : Stream x c) :
    ∃ header rest, c = ushortBytes header ++ rest ∧ header < 65536 ∧ header ≠ 0 := by
  cases stream with
  | last some short image =>
    obtain ⟨-, -, compressed, body, shape⟩ := image.header some
    exact ⟨_, body, shape, setCompressedChunkHeader_lt _ _, setCompressedChunkHeader_ne_zero _ _⟩
  | @more y c x rest full image =>
    have some : y ≠ [] := ne_nil_of_length_pos (by omega)
    obtain ⟨-, -, compressed, body, shape⟩ := image.header some
    refine ⟨setCompressedChunkHeader c.length compressed, body ++ rest, ?_,
      setCompressedChunkHeader_lt _ _, setCompressedChunkHeader_ne_zero _ _⟩
    rw [← append_assoc, ← shape]

end Ntoskrnl.Rtl.Lznt1
