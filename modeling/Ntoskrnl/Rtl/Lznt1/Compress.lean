/-
# Ntoskrnl.Rtl.Lznt1.Compress -- the encoders

`LZNT1CompressChunk` with a match function, `LZNT1CompressChunkHiber`, and the
two buffer routines that call them chunk by chunk.  The memory the caller may
read is one byte list with the uncompressed buffer as a window of it: when a
chunk does not compress, the code copies 4096 bytes from its start whatever its
length, so what lies behind the buffer is read as well.

Both encoders emit through the same few steps (`Cursor`): a literal, a copy
token, and closing a group of eight.  `FlagByte` is emitted late: its place is
reserved when the group opens and the byte stored when the group closes.
Subtracted pointers are compared with the subtrahend on the other side.
-/
import Ntoskrnl.Rtl.Lznt1.Match

namespace Ntoskrnl.Rtl.Lznt1

open Base Lib.Checked Function

set_option autoImplicit false

/-! ## Emitting tokens -/

/-- The pointers and flags of an encoder, and the compressed buffer. -/
structure Cursor where
  out : List UInt8
  inputPointer : Nat
  outputPointer : Nat
  flagPointer : Nat
  flagByte : Nat
  flagBit : Nat
  nullCharacter : UInt8
  deriving DecidableEq, Repr

def putByte (out : List UInt8) (p : Nat) (byte : UInt8) : Except Fault (List UInt8) :=
  writeOr (.writeCompressed p) out p byte

namespace Cursor

/-- The state with which both encoders start: the first flag byte is reserved. -/
def start (out : List UInt8) (uncompressedBuffer compressedBuffer : Nat) : Cursor where
  out
  inputPointer := uncompressedBuffer
  outputPointer := compressedBuffer + 3
  flagPointer := compressedBuffer + 2
  flagByte := 0
  flagBit := 0
  nullCharacter := 0

/-- `NullCharacter |= *(OutputPointer++) = *(InputPointer++)`. -/
def literal (memory : List UInt8) (c : Cursor) : Except Fault Cursor := do
  let byte ← readByte memory c.inputPointer
  let out ← putByte c.out c.outputPointer byte
  return { c with
    out
    inputPointer := c.inputPointer + 1
    outputPointer := c.outputPointer + 1
    nullCharacter := c.nullCharacter ||| byte }

/-- Set the flag, store the two bytes of the token and skip what it covers. -/
def copyToken (token length : Nat) (c : Cursor) : Except Fault Cursor := do
  let out ← putByte c.out c.outputPointer (UInt8.ofNat token)
  let out ← putByte out (c.outputPointer + 1) (UInt8.ofNat (token / 256))
  return { c with
    out
    inputPointer := c.inputPointer + length
    outputPointer := c.outputPointer + 2
    flagByte := c.flagByte ||| 1 <<< c.flagBit }

/-- `ClearFlag(FlagByte, (1 << FlagBit))`. -/
def clearFlag (c : Cursor) : Cursor :=
  { c with flagByte := c.flagByte &&& (0xff ^^^ 1 <<< c.flagBit) }

def nextBit (c : Cursor) : Cursor :=
  { c with flagBit := (c.flagBit + 1) % 8 }

/-- Store the flag byte of the group and reserve the next one. -/
def nextGroup (c : Cursor) : Except Fault Cursor := do
  let out ← putByte c.out c.flagPointer (UInt8.ofNat c.flagByte)
  return { c with
    out
    flagByte := 0
    flagPointer := c.outputPointer
    outputPointer := c.outputPointer + 1 }

end Cursor

/-- The encoders' loop `while (... FormatMaxDisplacement[Format] < InputPointer)`,
which keeps `MaxLength` at the entry of the format. -/
def advanceLength (position format maxLength : Nat) : Except Fault (Nat × Nat) :=
  match _ : formatMaxDisplacement[format]? with
  | none => .error (.formatIndex format)
  | some d =>
    if d < position then
      match formatMaxLength[format + 1]? with
      | none => .error (.formatIndex (format + 1))
      | some maxLength => advanceLength position (format + 1) maxLength
    else .ok (format, maxLength)
termination_by 9 - format
decreasing_by
  have : format < 9 := (List.getElem?_eq_some_iff.mp ‹_›).1
  omega

/-! ## Ending a chunk -/

/-- What a compression call returns: its status, the compressed buffer, the size
it stored (0 when it fails, where the code stores none) and the workspace. -/
structure Encoded (W : Type) where
  status : NtStatus
  out : List UInt8
  size : Nat
  workspace : W

/-- `EndOfUncompressedBufferPlus1` cut down to one chunk. -/
def endOfChunk (uncompressedBuffer endOfUncompressedBufferPlus1 : Nat) : Nat :=
  if uncompressedBuffer + maxUncompressedChunkSize < endOfUncompressedBufferPlus1 then
    uncompressedBuffer + maxUncompressedChunkSize
  else endOfUncompressedBufferPlus1

/-- `EndOfCompressedChunkPlus1`. -/
def endOfCompressedChunk (compressedBuffer endOfCompressedBufferPlus1 : Nat) : Nat :=
  if compressedBuffer + maxUncompressedChunkSize - 1 < endOfCompressedBufferPlus1 then
    compressedBuffer + maxUncompressedChunkSize - 1
  else endOfCompressedBufferPlus1

/-- Store the last flag byte if its place is inside the chunk; otherwise the place
was reserved in vain and is given back. -/
def lastFlag (endOfCompressedChunkPlus1 : Nat) (c : Cursor) : Except Fault (List UInt8 × Nat) :=
  if c.flagPointer < endOfCompressedChunkPlus1 then do
    let out ← putByte c.out c.flagPointer (UInt8.ofNat c.flagByte)
    return (out, c.outputPointer)
  else .ok (c.out, c.outputPointer - 1)

variable {W : Type}

/-- The code after the encoder loops: store the chunk as it is if input is left,
and otherwise the last flag byte and the header. -/
def finishChunk (memory : List UInt8) (uncompressedBuffer endOfUncompressedBufferPlus1
    compressedBuffer endOfCompressedBufferPlus1 : Nat) (c : Cursor) (workspace : W) :
    Except Fault (Encoded W) :=
  if c.inputPointer < endOfUncompressedBufferPlus1 then
    if compressedBuffer + maxUncompressedChunkSize + 2 ≤ endOfCompressedBufferPlus1 then do
      let data ← Source.within.readBlock memory maxUncompressedChunkSize uncompressedBuffer
      let out ← writeBlock .writeCompressed c.out (compressedBuffer + 2) data
      let size := maxUncompressedChunkSize + 2
      let out ← writeBlock .writeCompressed out compressedBuffer
        (ushortBytes (setCompressedChunkHeader size false))
      return ⟨.success, out, size, workspace⟩
    else .ok ⟨.bufferTooSmall, c.out, 0, workspace⟩
  else do
    let (out, outputPointer) ←
      lastFlag (endOfCompressedChunk compressedBuffer endOfCompressedBufferPlus1) c
    let size := outputPointer - compressedBuffer
    let out ← writeBlock .writeCompressed out compressedBuffer
      (ushortBytes (setCompressedChunkHeader size true))
    return ⟨if c.nullCharacter = 0 then .bufferAllZeros else .success, out, size, workspace⟩

/-! ## The standard and maximum engines -/

structure EncodeState where
  cursor : Cursor
  format : Nat
  workspace : Workspace

/-- A pass through an encoder loop goes on or breaks out. -/
inductive EncodeStep (S : Type) where
  | next (s : S)
  | exit (s : S)

section Loops

variable {S : Type} {left : S → Nat} {more : S → Prop} [DecidablePred more]
  {pass : S → Except Fault (EncodeStep S)} {loop : S → Except Fault S}

/-- `loop` makes passes while `more` holds, each with less input left. -/
structure Repeats (left : S → Nat) (more : S → Prop) [DecidablePred more]
    (pass : S → Except Fault (EncodeStep S)) (loop : S → Except Fault S) : Prop where
  eq : ∀ s, loop s = if more s then
    (do match ← pass s with | .exit s' => .ok s' | .next s' => loop s') else .ok s
  less : ∀ {s s'}, more s → pass s = .ok (.next s') → left s' < left s

/-- **The rule of the encoder loops**: each pass keeps `inv`, or it breaks out with `post`. -/
theorem Repeats.post (repeats : Repeats left more pass loop) (inv post : S → Prop)
    (keeps : ∀ s step, inv s → more s → pass s = .ok step →
      match step with | .exit s1 => post s1 | .next s1 => inv s1)
    (ends : ∀ s, inv s → ¬ more s → post s) {s s' : S} (start : inv s) (run : loop s = .ok s') :
    post s' := by
  rw [repeats.eq] at run
  split at run
  · next again =>
    obtain ⟨step, passed, run⟩ := bind_eq_ok.mp run
    have kept := keeps s step start again passed
    cases step with
    | exit => exact Except.ok.inj run ▸ kept
    | next =>
      have := repeats.less again passed
      exact repeats.post inv post keeps ends kept run
  · next stop => exact Except.ok.inj run ▸ ends s start stop
termination_by left s

end Loops

variable (matchFunction : MatchFunction) (memory : List UInt8) (endOfUncompressedBufferPlus1 : Nat)

/-- The tail of the loop body: the next flag bit and, after the eighth and if
there is more input, the next group. -/
def closeToken (c : Cursor) : Except Fault Cursor :=
  let c := c.nextBit
  if c.flagBit = 0 ∧ c.inputPointer < endOfUncompressedBufferPlus1 then c.nextGroup
  else .ok c

/-- Search for a match if at least three characters are left. -/
def searchMatch (inputPointer : Nat) (workspace : Workspace) : Except Fault (Nat × Workspace) :=
  if inputPointer + 3 ≤ endOfUncompressedBufferPlus1 then
    matchFunction memory inputPointer workspace
  else .ok (0, workspace)

/-- One pass through the loop of `LZNT1CompressChunk`. -/
def compressStep (uncompressedBuffer endOfUncompressedBufferPlus1 endOfCompressedChunkPlus1 : Nat)
    (s : EncodeState) : Except Fault (EncodeStep EncodeState) := do
  let c := s.cursor
  let (format, maxLength) ←
    advanceLength (c.inputPointer - uncompressedBuffer) s.format s.workspace.maxLength
  let (length, workspace) ←
    searchMatch matchFunction memory endOfUncompressedBufferPlus1 c.inputPointer
      { s.workspace with maxLength }
  if length = 0 then
    if endOfCompressedChunkPlus1 ≤ c.outputPointer then
      return .exit { s with format, workspace }
    else
      let cursor ← c.clearFlag.literal memory
      let cursor ← closeToken endOfUncompressedBufferPlus1 cursor
      return .next { cursor, format, workspace }
  else
    if endOfCompressedChunkPlus1 ≤ c.outputPointer + 1 then
      return .exit { s with format, workspace }
    else
      let displacement := c.inputPointer - workspace.matchedString
      let cursor ← c.copyToken (setLznt1 format length displacement) length
      let cursor ← closeToken endOfUncompressedBufferPlus1 cursor
      return .next { cursor, format, workspace }

variable {matchFunction : MatchFunction} {memory : List UInt8} {endU : Nat} {origin : UInt32}

section Moves

variable {c c' : Cursor}

theorem Cursor.literal_moves (run : c.literal memory = .ok c') :
    c'.inputPointer = c.inputPointer + 1 := by
  obtain ⟨byte, -, run⟩ := bind_eq_ok.mp run
  obtain ⟨out, -, run⟩ := bind_eq_ok.mp run
  obtain rfl := pure_eq_ok.mp run
  rfl

theorem Cursor.copyToken_moves {token length : Nat} (run : c.copyToken token length = .ok c') :
    c'.inputPointer = c.inputPointer + length := by
  obtain ⟨out, -, run⟩ := bind_eq_ok.mp run
  obtain ⟨out', -, run⟩ := bind_eq_ok.mp run
  obtain rfl := pure_eq_ok.mp run
  rfl

theorem Cursor.nextGroup_moves (run : c.nextGroup = .ok c') : c'.inputPointer = c.inputPointer := by
  obtain ⟨out, -, run⟩ := bind_eq_ok.mp run
  obtain rfl := pure_eq_ok.mp run
  rfl

theorem closeToken_moves (run : closeToken endU c = .ok c') : c'.inputPointer = c.inputPointer := by
  unfold closeToken at run
  simp only at run
  split at run
  · exact (Cursor.nextGroup_moves run).trans rfl
  · obtain rfl := Except.ok.inj run
    rfl

variable {start endChunk : Nat} {s s' : EncodeState}

/-- Every pass that goes on has consumed input. -/
theorem compressStep_next
    (run : compressStep matchFunction memory start endU endChunk s = .ok (.next s')) :
    s.cursor.inputPointer < s'.cursor.inputPointer := by
  obtain ⟨⟨format, maxLength⟩, -, run⟩ := bind_eq_ok.mp run
  obtain ⟨⟨length, workspace⟩, -, run⟩ := bind_eq_ok.mp run
  simp only at run
  split at run
  · split at run
    · cases pure_eq_ok.mp run
    · obtain ⟨c, emitted, run⟩ := bind_eq_ok.mp run
      obtain ⟨c', closed, run⟩ := bind_eq_ok.mp run
      obtain rfl := EncodeStep.next.inj (pure_eq_ok.mp run)
      rw [closeToken_moves closed, Cursor.literal_moves emitted]
      exact Nat.lt_succ_self _
  · split at run
    · cases pure_eq_ok.mp run
    · obtain ⟨c, emitted, run⟩ := bind_eq_ok.mp run
      obtain ⟨c', closed, run⟩ := bind_eq_ok.mp run
      obtain rfl := EncodeStep.next.inj (pure_eq_ok.mp run)
      rw [closeToken_moves closed, Cursor.copyToken_moves emitted]
      omega

/-- The loop of `LZNT1CompressChunk`. -/
def compressLoop (matchFunction : MatchFunction) (memory : List UInt8)
    (uncompressedBuffer endOfUncompressedBufferPlus1 endOfCompressedChunkPlus1 : Nat)
    (s : EncodeState) : Except Fault EncodeState :=
  if s.cursor.inputPointer < endOfUncompressedBufferPlus1 then
    match _ : compressStep matchFunction memory uncompressedBuffer endOfUncompressedBufferPlus1
        endOfCompressedChunkPlus1 s with
    | .error fault => .error fault
    | .ok (.exit s') => .ok s'
    | .ok (.next s') =>
      compressLoop matchFunction memory uncompressedBuffer endOfUncompressedBufferPlus1
        endOfCompressedChunkPlus1 s'
  else .ok s
termination_by endOfUncompressedBufferPlus1 - s.cursor.inputPointer
decreasing_by
  have := compressStep_next ‹_›
  omega

def lznt1CompressChunk (matchFunction : MatchFunction) (memory : List UInt8)
    (uncompressedBuffer endOfUncompressedBufferPlus1 : Nat) (out : List UInt8)
    (compressedBuffer endOfCompressedBufferPlus1 : Nat) (workspace : Workspace) :
    Except Fault (Encoded Workspace) := do
  let endU := endOfChunk uncompressedBuffer endOfUncompressedBufferPlus1
  let s ← compressLoop matchFunction memory uncompressedBuffer endU
    (endOfCompressedChunk compressedBuffer endOfCompressedBufferPlus1)
    { cursor := Cursor.start out uncompressedBuffer compressedBuffer
      format := 0
      workspace :=
        { workspace with
          uncompressedBuffer
          endOfUncompressedBufferPlus1 := endU
          maxLength := 4098 } }
  finishChunk memory uncompressedBuffer endU compressedBuffer endOfCompressedBufferPlus1
    s.cursor s.workspace

/-! ## The hibernation engine -/

/-- `LZNT1_HIBER_WORKSPACE`: offsets biased by an origin that moves up from chunk
to chunk, with the origin itself in entry 0.  All arithmetic wraps at 32 bits. -/
abbrev HiberWorkspace := Nat → UInt32

structure HiberState where
  cursor : Cursor
  format : Nat
  maxLength : Nat
  indexTable : HiberWorkspace

def hiberIndex (b0 b1 b2 : UInt8) : Nat :=
  (((b0.toNat <<< 8) ||| (b0.toNat >>> 4)) ^^^ b1.toNat ^^^ (b2.toNat <<< 4)) &&& 0xfff

/-- The scan that lengthens a match, four bytes at a time while four are left. -/
def extendHiber (memory : List UInt8) (entry inputPointer maxLength1 length : Nat) :
    Except Fault Nat :=
  if length + 3 < maxLength1 then do
    if ← sameByte memory (inputPointer + length) (entry + length) then
      if ← sameByte memory (inputPointer + (length + 1)) (entry + (length + 1)) then
        if ← sameByte memory (inputPointer + (length + 2)) (entry + (length + 2)) then
          if ← sameByte memory (inputPointer + (length + 3)) (entry + (length + 3)) then
            extendHiber memory entry inputPointer maxLength1 (length + 4)
          else return length + 3
        else return length + 2
      else return length + 1
    else return length
  else extendMatch memory entry inputPointer maxLength1 length
termination_by maxLength1 - length

/-- The tail of both loop bodies: after the eighth token a new group, and out of
the loop when the 16 bytes it may need are not left. -/
def closeHiber (endOfCompressedChunkPlus1 : Nat) (s : HiberState) (c : Cursor) :
    Except Fault (EncodeStep HiberState) :=
  let c := c.nextBit
  if c.flagBit = 0 then do
    let c ← c.nextGroup
    if endOfCompressedChunkPlus1 ≤ c.outputPointer + 16 then return .exit { s with cursor := c }
    else return .next { s with cursor := c }
  else .ok (.next { s with cursor := c })

/-- The test of a table entry, which may be garbage: it lies earlier in the chunk
and three characters match. -/
def hiberCandidate (memory : List UInt8) (matchedString inputPointer : Nat)
    (matchedOffset inputOffset : UInt32) : Except Fault Bool :=
  if matchedOffset < inputOffset then sameThree memory matchedString inputPointer
  else .ok false

/-- One pass through the matching loop of `LZNT1CompressChunkHiber`. -/
def hiberStep (memory : List UInt8) (uncompressedBuffer endOfUncompressedBufferPlus1
    endOfCompressedChunkPlus1 : Nat) (indexOrigin : UInt32) (s : HiberState) :
    Except Fault (EncodeStep HiberState) := do
  let c := s.cursor
  let b0 ← readByte memory c.inputPointer
  let b1 ← readByte memory (c.inputPointer + 1)
  let b2 ← readByte memory (c.inputPointer + 2)
  let index := hiberIndex b0 b1 b2
  let matchedIndex := s.indexTable index
  let inputOffset := UInt32.ofNat (c.inputPointer - uncompressedBuffer)
  let s := { s with indexTable := update s.indexTable index (indexOrigin + inputOffset) }
  let matchedOffset := matchedIndex - indexOrigin
  let matchedString := uncompressedBuffer + matchedOffset.toNat
  let three ← hiberCandidate memory matchedString c.inputPointer matchedOffset inputOffset
  if three then
    let (format, maxLength) ←
      advanceLength (c.inputPointer - uncompressedBuffer) s.format s.maxLength
    let maxLength1 := min maxLength (endOfUncompressedBufferPlus1 - c.inputPointer)
    let length ← extendHiber memory matchedString c.inputPointer maxLength1 3
    let displacement := c.inputPointer - matchedString
    let token := (displacement - 1) <<< (12 - format) ||| (length - 3)
    let cursor ← c.copyToken token length
    closeHiber endOfCompressedChunkPlus1 { s with format, maxLength } cursor
  else
    let cursor ← c.literal memory
    closeHiber endOfCompressedChunkPlus1 s cursor

/-- One pass through the loop that emits what is left as literals. -/
def hiberLiteralStep (memory : List UInt8) (uncompressedBuffer endOfCompressedChunkPlus1 : Nat)
    (s : HiberState) : Except Fault (EncodeStep HiberState) := do
  let c := s.cursor
  let (format, maxLength) ← advanceLength (c.inputPointer - uncompressedBuffer) s.format s.maxLength
  let cursor ← c.literal memory
  closeHiber endOfCompressedChunkPlus1 { s with format, maxLength } cursor

variable {entry p limit : Nat}

theorem extendMatch_ge {length result : Nat}
    (run : extendMatch memory entry p limit length = .ok result) : length ≤ result := by
  rw [extendMatch] at run
  split at run
  · obtain ⟨same, -, run⟩ := bind_eq_ok.mp run
    cases same with
    | false => exact Nat.le_of_eq (pure_eq_ok.mp run)
    | true =>
      have := extendMatch_ge run
      omega
  · exact Nat.le_of_eq (Except.ok.inj run)
termination_by limit - length

/-- Four bytes a round or one: the scan is the same. -/
theorem extendHiber_eq (length : Nat) :
    extendHiber memory entry p limit length = extendMatch memory entry p limit length := by
  rw [extendHiber]
  split
  · iterate 4
      rw [extendMatch, if_pos (by omega)]
      refine bind_congr fun same => ?_
      cases same
      · rfl
      refine .trans (if_pos rfl) (.trans ?_ (if_pos rfl).symm)
    exact extendHiber_eq (length + 4)
  · rfl
termination_by limit - length

theorem closeHiber_next {s s' : HiberState} (run : closeHiber endChunk s c = .ok (.next s')) :
    s'.cursor.inputPointer = c.inputPointer := by
  unfold closeHiber at run
  simp only at run
  split at run
  · obtain ⟨c', closed, run⟩ := bind_eq_ok.mp run
    split at run
    · simp [pure, Except.pure] at run
    · obtain rfl := EncodeStep.next.inj (pure_eq_ok.mp run)
      exact (Cursor.nextGroup_moves closed).trans rfl
  · obtain rfl := EncodeStep.next.inj (Except.ok.inj run)
    rfl

theorem hiberStep_next {s s' : HiberState}
    (run : hiberStep memory start endU endChunk origin s = .ok (.next s')) :
    s.cursor.inputPointer < s'.cursor.inputPointer := by
  obtain ⟨b0, -, run⟩ := bind_eq_ok.mp run
  obtain ⟨b1, -, run⟩ := bind_eq_ok.mp run
  obtain ⟨b2, -, run⟩ := bind_eq_ok.mp run
  obtain ⟨three, -, run⟩ := bind_eq_ok.mp run
  cases three with
  | true =>
    obtain ⟨⟨format, maxLength⟩, -, run⟩ := bind_eq_ok.mp run
    obtain ⟨length, extended, run⟩ := bind_eq_ok.mp run
    obtain ⟨c, emitted, run⟩ := bind_eq_ok.mp run
    have := extendMatch_ge (extendHiber_eq 3 ▸ extended)
    have := Cursor.copyToken_moves emitted
    have := closeHiber_next run
    omega
  | false =>
    obtain ⟨c, emitted, run⟩ := bind_eq_ok.mp run
    have := Cursor.literal_moves emitted
    have := closeHiber_next run
    omega

theorem hiberLiteralStep_next {s s' : HiberState}
    (run : hiberLiteralStep memory start endChunk s = .ok (.next s')) :
    s.cursor.inputPointer < s'.cursor.inputPointer := by
  obtain ⟨⟨format, maxLength⟩, -, run⟩ := bind_eq_ok.mp run
  obtain ⟨c, emitted, run⟩ := bind_eq_ok.mp run
  have := Cursor.literal_moves emitted
  have := closeHiber_next run
  omega

end Moves

/-- The matching loop: at least three characters have to be left. -/
def hiberLoop (memory : List UInt8) (uncompressedBuffer endOfUncompressedBufferPlus1
    endOfCompressedChunkPlus1 : Nat) (indexOrigin : UInt32) (s : HiberState) :
    Except Fault HiberState :=
  if s.cursor.inputPointer + 3 ≤ endOfUncompressedBufferPlus1 then
    match _ : hiberStep memory uncompressedBuffer endOfUncompressedBufferPlus1
        endOfCompressedChunkPlus1 indexOrigin s with
    | .error fault => .error fault
    | .ok (.exit s') => .ok s'
    | .ok (.next s') =>
      hiberLoop memory uncompressedBuffer endOfUncompressedBufferPlus1
        endOfCompressedChunkPlus1 indexOrigin s'
  else .ok s
termination_by endOfUncompressedBufferPlus1 - s.cursor.inputPointer
decreasing_by
  have := hiberStep_next ‹_›
  omega

/-- The loop that emits what is left as literals. -/
def hiberLiteralLoop (memory : List UInt8) (uncompressedBuffer endOfUncompressedBufferPlus1
    endOfCompressedChunkPlus1 : Nat) (s : HiberState) : Except Fault HiberState :=
  if s.cursor.inputPointer < endOfUncompressedBufferPlus1 then
    match _ : hiberLiteralStep memory uncompressedBuffer endOfCompressedChunkPlus1 s with
    | .error fault => .error fault
    | .ok (.exit s') => .ok s'
    | .ok (.next s') =>
      hiberLiteralLoop memory uncompressedBuffer endOfUncompressedBufferPlus1
        endOfCompressedChunkPlus1 s'
  else .ok s
termination_by endOfUncompressedBufferPlus1 - s.cursor.inputPointer
decreasing_by
  have := hiberLiteralStep_next ‹_›
  omega

section Repeats

variable {start endChunk : Nat}

theorem compressLoop_repeats : Repeats (fun s => endU - s.cursor.inputPointer)
    (fun s => s.cursor.inputPointer < endU)
    (compressStep matchFunction memory start endU endChunk)
    (compressLoop matchFunction memory start endU endChunk) where
  eq s := by
    rw [compressLoop]
    refine if_congr .rfl ?_ rfl
    split <;> simp [*, Bind.bind, Except.bind]
  less more pass := by
    have := compressStep_next pass
    omega

theorem hiberLoop_repeats : Repeats (fun s => endU - s.cursor.inputPointer)
    (fun s => s.cursor.inputPointer + 3 ≤ endU)
    (hiberStep memory start endU endChunk origin) (hiberLoop memory start endU endChunk origin) where
  eq s := by
    rw [hiberLoop]
    refine if_congr .rfl ?_ rfl
    split <;> simp [*, Bind.bind, Except.bind]
  less more pass := by
    have := hiberStep_next pass
    omega

theorem hiberLiteralLoop_repeats : Repeats (fun s => endU - s.cursor.inputPointer)
    (fun s => s.cursor.inputPointer < endU) (hiberLiteralStep memory start endChunk) (hiberLiteralLoop memory start endU endChunk) where
  eq s := by
    rw [hiberLiteralLoop]
    refine if_congr .rfl ?_ rfl
    split <;> simp [*, Bind.bind, Except.bind]
  less more pass := by
    have := hiberLiteralStep_next pass
    omega

end Repeats

/-- Either loop is entered only with more than 16 bytes of output left. -/
def whileRoom (endOfCompressedChunkPlus1 : Nat) (loop : HiberState → Except Fault HiberState)
    (s : HiberState) : Except Fault HiberState :=
  if s.cursor.outputPointer + 16 < endOfCompressedChunkPlus1 then loop s else .ok s

def lznt1CompressChunkHiber (memory : List UInt8)
    (uncompressedBuffer endOfUncompressedBufferPlus1 : Nat) (out : List UInt8)
    (compressedBuffer endOfCompressedBufferPlus1 : Nat) (workspace : HiberWorkspace) :
    Except Fault (Encoded HiberWorkspace) := do
  let indexOrigin := workspace 0 + 8192
  let endU := endOfChunk uncompressedBuffer endOfUncompressedBufferPlus1
  let endChunk := endOfCompressedChunk compressedBuffer endOfCompressedBufferPlus1
  let s ← whileRoom endChunk (hiberLoop memory uncompressedBuffer endU endChunk indexOrigin)
    { cursor := Cursor.start out uncompressedBuffer compressedBuffer
      format := 0
      maxLength := 4098
      indexTable := workspace }
  let s ← whileRoom endChunk (hiberLiteralLoop memory uncompressedBuffer endU endChunk) s
  finishChunk memory uncompressedBuffer endU compressedBuffer endOfCompressedBufferPlus1
    s.cursor (update s.indexTable 0 indexOrigin)

/-! ## Whole buffers -/

inductive CompressionEngine where
  | standard
  | maximum
  | hiber
  | other (value : Nat)
  deriving DecidableEq, Repr

/-- How a buffer routine calls its encoder for one chunk. -/
abbrev ChunkEncoder (W : Type) :=
  Nat → Nat → List UInt8 → Nat → Nat → W → Except Fault (Encoded W)

/-- The code after the loop: the terminator, if it fits, and the status. -/
def finishBuffer (compressedBuffer endOfCompressedBuffer compressedChunk : Nat) (allZero : Bool)
    (out : List UInt8) (workspace : W) : Except Fault (Encoded W) :=
  let status : NtStatus := if allZero then .bufferAllZeros else .success
  let size := compressedChunk - compressedBuffer
  if compressedChunk + 2 ≤ endOfCompressedBuffer then do
    let out ← writeBlock .writeCompressed out compressedChunk [0, 0]
    return ⟨status, out, size, workspace⟩
  else .ok ⟨status, out, size, workspace⟩

/-- The chunk loop that `RtlCompressBufferLZNT1` and `RtlCompressBufferLZNT1_HIBER`
share; a chunk that fails ends it. -/
def compressChunksLoop (encode : ChunkEncoder W) (endOfUncompressedBuffer
    compressedBuffer endOfCompressedBuffer uncompressedChunk compressedChunk : Nat) (allZero : Bool)
    (out : List UInt8) (workspace : W) : Except Fault (Encoded W) :=
  if uncompressedChunk < endOfUncompressedBuffer then do
    let chunk ← encode uncompressedChunk endOfUncompressedBuffer out compressedChunk
      endOfCompressedBuffer workspace
    if chunk.status.ntSuccess then
      compressChunksLoop encode endOfUncompressedBuffer compressedBuffer endOfCompressedBuffer
        (uncompressedChunk + maxUncompressedChunkSize) (compressedChunk + chunk.size)
        (allZero && decide (chunk.status = .bufferAllZeros)) chunk.out chunk.workspace
    else return { chunk with size := 0 }
  else
    finishBuffer compressedBuffer endOfCompressedBuffer compressedChunk allZero out workspace
termination_by endOfUncompressedBuffer - uncompressedChunk
decreasing_by
  unfold maxUncompressedChunkSize
  omega

def rtlCompressBufferLznt1 (engine : CompressionEngine) (memory : List UInt8)
    (uncompressedBuffer uncompressedBufferSize : Nat) (out : List UInt8)
    (compressedBuffer compressedBufferSize : Nat) (workspace : Workspace) :
    Except Fault (Encoded Workspace) :=
  let endU := uncompressedBuffer + uncompressedBufferSize
  let endC := compressedBuffer + compressedBufferSize
  match engine with
  | .standard =>
    compressChunksLoop (lznt1CompressChunk lznt1FindMatchStandard memory) endU compressedBuffer
      endC uncompressedBuffer compressedBuffer true out workspace
  | .maximum =>
    compressChunksLoop (lznt1CompressChunk lznt1FindMatchMaximum memory) endU compressedBuffer
      endC uncompressedBuffer compressedBuffer true out workspace
  | _ => .ok ⟨.notSupported, out, 0, workspace⟩

def rtlCompressBufferLznt1Hiber (engine : CompressionEngine) (memory : List UInt8)
    (uncompressedBuffer uncompressedBufferSize : Nat) (out : List UInt8)
    (compressedBuffer compressedBufferSize : Nat) (workspace : HiberWorkspace) :
    Except Fault (Encoded HiberWorkspace) :=
  match engine with
  | .hiber =>
    compressChunksLoop (lznt1CompressChunkHiber memory)
      (uncompressedBuffer + uncompressedBufferSize) compressedBuffer
      (compressedBuffer + compressedBufferSize) uncompressedBuffer compressedBuffer true out
      workspace
  | _ => .ok ⟨.notSupported, out, 0, workspace⟩

end Ntoskrnl.Rtl.Lznt1
