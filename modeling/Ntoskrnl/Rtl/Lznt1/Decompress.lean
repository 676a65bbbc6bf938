/-
# Ntoskrnl.Rtl.Lznt1.Decompress -- the decoder

`LZNT1DecompressChunk`, `RtlDecompressBufferLZNT1` and
`RtlDecompressFragmentLZNT1` as the C code computes them.  A pointer is an
offset, every access is checked, and a run that would leave a buffer or the
format tables ends in a `Fault` instead.

A diagnostic `PtrToUlong(p)` that a failing call leaves in its size argument is
the offset `p`.
-/
import Ntoskrnl.Rtl.Lznt1.Format

namespace Ntoskrnl.Rtl.Lznt1

open Base Lib.Checked Lib.Lz77

set_option autoImplicit false

/-! ## One chunk -/

/-- What a decompression call returns: its status, the output memory and the
value left in its size argument. -/
structure Decoded where
  status : NtStatus
  memory : List UInt8
  size : Nat
  deriving DecidableEq, Repr

structure ChunkState where
  memory : List UInt8
  outputPointer : Nat
  inputPointer : Nat
  flagByte : UInt8
  flagBit : Nat
  format : Nat
  deriving DecidableEq, Repr

/-- How one pass through the decoder loop ends. -/
inductive ChunkStep where
  | next (s : ChunkState)
  | exit (s : ChunkState)
  | bad (memory : List UInt8) (inputPointer : Nat)
  deriving DecidableEq, Repr

section Chunk

variable (source : Source) (uncompressedBuffer endOfUncompressedBufferPlus1
  endOfCompressedBufferPlus1 : Nat)

/-- The tail of the loop body: the next flag bit and, after the eighth, the next
flag byte. -/
def nextFlag (s : ChunkState) : Except Fault ChunkStep :=
  let s := { s with flagBit := (s.flagBit + 1) % 8 }
  if s.flagBit = 0 then
    if endOfCompressedBufferPlus1 ≤ s.inputPointer then .ok (.exit s)
    else do
      let flagByte ← source.read s.memory s.inputPointer
      return .next { s with flagByte, inputPointer := s.inputPointer + 1 }
  else .ok (.next s)

def decompressLiteral (s : ChunkState) : Except Fault ChunkStep := do
  let byte ← source.read s.memory s.inputPointer
  let memory ← writeOr (.writeUncompressed s.outputPointer) s.memory s.outputPointer byte
  nextFlag source endOfCompressedBufferPlus1
    { s with memory, outputPointer := s.outputPointer + 1, inputPointer := s.inputPointer + 1 }

def decompressCopy (s : ChunkState) : Except Fault ChunkStep :=
  if endOfCompressedBufferPlus1 ≤ s.inputPointer + 1 then
    .ok (.bad s.memory s.inputPointer)
  else do
    let copyToken ← source.readUshort s.memory s.inputPointer
    let displacement := getLznt1Displacement s.format copyToken
    let length := getLznt1Length s.format copyToken
    if s.outputPointer - uncompressedBuffer < displacement then
      return .bad s.memory (s.inputPointer + 2)
    else
      let length :=
        if endOfUncompressedBufferPlus1 ≤ s.outputPointer + length then
          endOfUncompressedBufferPlus1 - s.outputPointer
        else length
      let memory ← copyForward .readUncompressed .writeUncompressed displacement length
        s.outputPointer s.memory
      nextFlag source endOfCompressedBufferPlus1
        { s with
          memory
          outputPointer := s.outputPointer + length
          inputPointer := s.inputPointer + 2 }

/-- One pass through the decoder loop. -/
def decompressStep (s : ChunkState) : Except Fault ChunkStep := do
  let format ← advanceFormat (s.outputPointer - uncompressedBuffer) s.format
  let s := { s with format }
  if s.flagByte.toNat.testBit s.flagBit then
    decompressCopy source uncompressedBuffer endOfUncompressedBufferPlus1
      endOfCompressedBufferPlus1 s
  else decompressLiteral source endOfCompressedBufferPlus1 s

end Chunk

section Progress

variable {source : Source} {uncompressedBuffer endU endC : Nat} {s s' : ChunkState}

theorem nextFlag_next (run : nextFlag source endC s = .ok (.next s')) :
    s.inputPointer ≤ s'.inputPointer := by
  unfold nextFlag at run
  simp only at run
  split at run
  · split at run
    · simp at run
    · obtain ⟨flagByte, -, h⟩ := bind_eq_ok.mp run
      obtain rfl := ChunkStep.next.inj (pure_eq_ok.mp h)
      exact Nat.le_succ _
  · obtain rfl := ChunkStep.next.inj (Except.ok.inj run)
    exact le_rfl

/-- Every pass that goes on has consumed a byte of the chunk. -/
theorem decompressStep_next
    (run : decompressStep source uncompressedBuffer endU endC s = .ok (.next s')) :
    s.inputPointer < s'.inputPointer := by
  obtain ⟨format, -, run⟩ := bind_eq_ok.mp run
  simp only at run
  split at run
  · unfold decompressCopy at run
    split at run
    · simp at run
    · obtain ⟨copyToken, -, run⟩ := bind_eq_ok.mp run
      simp only at run
      split at run
      · simp [pure, Except.pure] at run
      · obtain ⟨memory, -, run⟩ := bind_eq_ok.mp run
        exact Nat.lt_of_lt_of_le (by simp) (nextFlag_next run)
  · obtain ⟨byte, -, run⟩ := bind_eq_ok.mp run
    obtain ⟨memory, -, run⟩ := bind_eq_ok.mp run
    exact Nat.lt_of_lt_of_le (by simp) (nextFlag_next run)

end Progress

/-- The decoder loop of `LZNT1DecompressChunk`. -/
def decompressLoop (source : Source) (uncompressedBuffer endOfUncompressedBufferPlus1
    endOfCompressedBufferPlus1 : Nat) (s : ChunkState) : Except Fault Decoded :=
  if s.outputPointer < endOfUncompressedBufferPlus1 ∧
      s.inputPointer < endOfCompressedBufferPlus1 then
    match _ : decompressStep source uncompressedBuffer endOfUncompressedBufferPlus1
        endOfCompressedBufferPlus1 s with
    | .error fault => .error fault
    | .ok (.bad memory inputPointer) => .ok ⟨.badCompressionBuffer, memory, inputPointer⟩
    | .ok (.exit s') => .ok ⟨.success, s'.memory, s'.outputPointer - uncompressedBuffer⟩
    | .ok (.next s') =>
      decompressLoop source uncompressedBuffer endOfUncompressedBufferPlus1
        endOfCompressedBufferPlus1 s'
  else .ok ⟨.success, s.memory, s.outputPointer - uncompressedBuffer⟩
termination_by endOfCompressedBufferPlus1 - s.inputPointer
decreasing_by
  have := decompressStep_next ‹_›
  omega

def lznt1DecompressChunk (source : Source) (memory : List UInt8)
    (uncompressedBuffer endOfUncompressedBufferPlus1 compressedBuffer
      endOfCompressedBufferPlus1 : Nat) : Except Fault Decoded := do
  let flagByte ← source.read memory compressedBuffer
  decompressLoop source uncompressedBuffer endOfUncompressedBufferPlus1
    endOfCompressedBufferPlus1
    { memory
      outputPointer := uncompressedBuffer
      inputPointer := compressedBuffer + 1
      flagByte
      flagBit := 0
      format := 0 }

/-! ## A whole buffer -/

structure BufferState where
  memory : List UInt8
  chunkHeader : Nat
  compressedChunk : Nat
  uncompressedChunk : Nat
  deriving DecidableEq, Repr

inductive BufferStep where
  | next (s : BufferState)
  | exit (s : BufferState)
  | fail (status : NtStatus) (memory : List UInt8) (size : Nat)
  deriving DecidableEq, Repr

section Buffer

variable (source : Source) (endOfUncompressedBuffer endOfCompressedBuffer : Nat)

/-- The part of the loop body that expands one chunk.  A stored chunk stands for
4096 bytes, cut off at the end of the output. -/
def expandChunk (s : BufferState) : Except Fault Decoded :=
  if isChunkCompressed s.chunkHeader then
    lznt1DecompressChunk source s.memory s.uncompressedChunk endOfUncompressedBuffer
      (s.compressedChunk + 2) (s.compressedChunk + getCompressedChunkSize s.chunkHeader)
  else
    let uncompressedChunkSize :=
      if endOfUncompressedBuffer < s.uncompressedChunk + getUncompressedChunkSize s.chunkHeader then
        endOfUncompressedBuffer - s.uncompressedChunk
      else getUncompressedChunkSize s.chunkHeader
    if endOfCompressedBuffer < s.compressedChunk + 2 + uncompressedChunkSize then
      .ok ⟨.badCompressionBuffer, s.memory, s.compressedChunk⟩
    else do
      let memory ← copyMemory source s.memory s.uncompressedChunk (s.compressedChunk + 2)
        uncompressedChunkSize
      return ⟨.success, memory, uncompressedChunkSize⟩

/-- The part of the loop body after a chunk was expanded to
`uncompressedChunkSize` bytes: fetch the next header, and when more follows fill
a short chunk up with zeros. -/
def nextChunk (s : BufferState) (uncompressedChunkSize : Nat) : Except Fault BufferStep :=
  if s.uncompressedChunk = endOfUncompressedBuffer then .ok (.exit s)
  else if endOfCompressedBuffer < s.compressedChunk + 2 then .ok (.exit s)
  else do
    let savedChunkSize := getUncompressedChunkSize s.chunkHeader
    let chunkHeader ← source.readUshort s.memory s.compressedChunk
    if chunkHeader = 0 then return .exit s
    else if uncompressedChunkSize < savedChunkSize then
      let t1 := savedChunkSize - uncompressedChunkSize
      let t2 := s.uncompressedChunk + t1
      if endOfUncompressedBuffer ≤ t2 then return .exit s
      else
        let memory ← zeroMemory s.memory s.uncompressedChunk t1
        return .next { s with memory, chunkHeader, uncompressedChunk := t2 }
    else return .next { s with chunkHeader }

/-- One pass through the loop of `RtlDecompressBufferLZNT1`. -/
def bufferStep (s : BufferState) : Except Fault BufferStep :=
  let compressedChunkSize := getCompressedChunkSize s.chunkHeader
  if endOfCompressedBuffer < s.compressedChunk + compressedChunkSize then
    .ok (.fail .badCompressionBuffer s.memory s.compressedChunk)
  else do
    let chunk ← expandChunk source endOfUncompressedBuffer endOfCompressedBuffer s
    if chunk.status.ntSuccess then
      nextChunk source endOfUncompressedBuffer endOfCompressedBuffer
        { s with
          memory := chunk.memory
          compressedChunk := s.compressedChunk + compressedChunkSize
          uncompressedChunk := s.uncompressedChunk + chunk.size } chunk.size
    else return .fail chunk.status chunk.memory chunk.size

end Buffer

section BufferProgress

variable {source : Source} {endU endC : Nat} {s s' : BufferState} {size : Nat}

/-- A pass over a chunk that lies in the buffer, by how the chunk expanded. -/
theorem bufferStep_whole (whole : s.compressedChunk + getCompressedChunkSize s.chunkHeader ≤ endC) :
    bufferStep source endU endC s = match expandChunk source endU endC s with
      | .error fault => .error fault
      | .ok chunk =>
        if chunk.status.ntSuccess then
          nextChunk source endU endC
            { s with
              memory := chunk.memory
              compressedChunk := s.compressedChunk + getCompressedChunkSize s.chunkHeader
              uncompressedChunk := s.uncompressedChunk + chunk.size } chunk.size
        else .ok (.fail chunk.status chunk.memory chunk.size) := by
  unfold bufferStep
  rw [if_neg (by omega)]
  cases expandChunk source endU endC s <;> rfl

theorem nextChunk_next (run : nextChunk source endU endC s size = .ok (.next s')) :
    s'.compressedChunk = s.compressedChunk ∧ s.compressedChunk + 2 ≤ endC := by
  unfold nextChunk at run
  split at run
  · simp at run
  split at run
  · simp at run
  next room =>
    obtain ⟨chunkHeader, -, run⟩ := bind_eq_ok.mp run
    simp only at run
    split at run
    · simp [pure, Except.pure] at run
    split at run
    · split at run
      · simp [pure, Except.pure] at run
      · obtain ⟨memory, -, run⟩ := bind_eq_ok.mp run
        obtain rfl := BufferStep.next.inj (pure_eq_ok.mp run)
        exact ⟨rfl, by omega⟩
    · obtain rfl := BufferStep.next.inj (pure_eq_ok.mp run)
      exact ⟨rfl, by omega⟩

/-- Every pass that goes on has moved to a later chunk inside the buffer. -/
theorem bufferStep_next (run : bufferStep source endU endC s = .ok (.next s')) :
    s.compressedChunk < s'.compressedChunk ∧ s'.compressedChunk ≤ endC := by
  unfold bufferStep at run
  simp only at run
  split at run
  · simp at run
  · obtain ⟨chunk, -, run⟩ := bind_eq_ok.mp run
    split at run
    · obtain ⟨same, room⟩ := nextChunk_next run
      simp only [getCompressedChunkSize] at same room
      omega
    · simp [pure, Except.pure] at run

/-- The loop of `RtlDecompressBufferLZNT1` and the code after it. -/
def bufferLoop (source : Source) (uncompressedBuffer endOfUncompressedBuffer
    endOfCompressedBuffer : Nat) (s : BufferState) : Except Fault Decoded :=
  match _ : bufferStep source endOfUncompressedBuffer endOfCompressedBuffer s with
  | .error fault => .error fault
  | .ok (.fail status memory size) => .ok ⟨status, memory, size⟩
  | .ok (.exit s') =>
    if endOfCompressedBuffer < s'.compressedChunk then
      .ok ⟨.badCompressionBuffer, s'.memory, s'.compressedChunk⟩
    else .ok ⟨.success, s'.memory, s'.uncompressedChunk - uncompressedBuffer⟩
  | .ok (.next s') =>
    bufferLoop source uncompressedBuffer endOfUncompressedBuffer endOfCompressedBuffer s'
termination_by endOfCompressedBuffer - s.compressedChunk
decreasing_by
  have := bufferStep_next ‹_›
  omega

variable {start : Nat}

theorem bufferLoop_exit (run : bufferStep source endU endC s = .ok (.exit s'))
    (inside : s'.compressedChunk ≤ endC) :
    bufferLoop source start endU endC s =
      .ok ⟨.success, s'.memory, s'.uncompressedChunk - start⟩ := by
  rw [bufferLoop]
  split <;> simp_all

theorem bufferLoop_next (run : bufferStep source endU endC s = .ok (.next s')) :
    bufferLoop source start endU endC s = bufferLoop source start endU endC s' := by
  rw [bufferLoop]
  split <;> simp_all

theorem bufferLoop_fail {status : NtStatus} {memory : List UInt8}
    (run : bufferStep source endU endC s = .ok (.fail status memory size)) :
    bufferLoop source start endU endC s = .ok ⟨status, memory, size⟩ := by
  rw [bufferLoop]
  split <;> simp_all

theorem bufferLoop_fault {fault : Fault} (run : bufferStep source endU endC s = .error fault) :
    bufferLoop source start endU endC s = .error fault := by
  rw [bufferLoop]
  split <;> simp_all

end BufferProgress

def rtlDecompressBufferLznt1 (source : Source) (memory : List UInt8)
    (uncompressedBuffer uncompressedBufferSize compressedBuffer compressedBufferSize : Nat) :
    Except Fault Decoded := do
  let chunkHeader ← source.readUshort memory compressedBuffer
  bufferLoop source uncompressedBuffer (uncompressedBuffer + uncompressedBufferSize)
    (compressedBuffer + compressedBufferSize)
    { memory
      chunkHeader
      compressedChunk := compressedBuffer
      uncompressedChunk := uncompressedBuffer }

end Ntoskrnl.Rtl.Lznt1
