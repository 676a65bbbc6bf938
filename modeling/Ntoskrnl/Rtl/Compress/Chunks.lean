/-
# Ntoskrnl.Rtl.Compress.Chunks -- format dispatch and chunked transfer

`RtlCompressBuffer` and `RtlDecompressBuffer` choose a routine by the low byte of
the format and engine word.  `RtlCompressChunks` compresses a buffer in pieces of
one chunk and records the size of each; `RtlDecompressChunks` takes the recorded
sizes and the compressed bytes, which may come in two parts, and rebuilds the
buffer.

A pointer is an offset, and an `Int` where the code lets it point in front of its
buffer: after the switch to the tail `CompressedBuffer` is biased by the bytes of
the current chunk that lie in the first part.  `NumberOfChunks` is a `USHORT`.

`Packed x cs` says that `cs` are the compressed chunks for the consecutive pieces
of `x`: nothing for a piece of zeros, the padded piece itself, or an LZNT1 image.
`RtlCompressChunks` leaves such chunks one behind the other and records their
lengths; the receiver's side starts from there.
-/
import Ntoskrnl.Rtl.Lznt1.RoundTrip

namespace Ntoskrnl.Rtl.Compress

open Base Lib.Checked Rtl.Lznt1

set_option autoImplicit false

/-! ## Dispatch on the format -/

def compressionFormatNone : Nat := 0x0000
def compressionFormatDefault : Nat := 0x0001
def compressionFormatLznt1 : Nat := 0x0002

/-- The engine in the high byte of the format and engine word. -/
def engineOf (engine : Nat) : CompressionEngine :=
  if engine = 0x0000 then .standard
  else if engine = 0x0100 then .maximum
  else if engine = 0x0200 then .hiber
  else .other engine

variable {α : Type}

/-- The routine a format selects, or the status for a format without one.  The
tables have eight entries and are indexed by a format below sixteen. -/
def selectFormat (format : Nat) (fail : NtStatus → α) (lznt1 : Except Fault α) : Except Fault α :=
  if format = compressionFormatNone ∨ format = compressionFormatDefault then
    .ok (fail .invalidParameter)
  else if format &&& 0x00f0 ≠ 0 then .ok (fail .unsupportedCompression)
  else if format = compressionFormatLznt1 then lznt1
  else if format < 8 then .ok (fail .unsupportedCompression)
  else .error (.formatIndex format)

def rtlCompressBuffer (compressionFormatAndEngine : Nat) (memory : List UInt8)
    (uncompressedBuffer uncompressedBufferSize : Nat) (out : List UInt8)
    (compressedBuffer compressedBufferSize : Nat) (workspace : Workspace) :
    Except Fault (Encoded Workspace) :=
  selectFormat (compressionFormatAndEngine &&& 0x00ff) (fun status => ⟨status, out, 0, workspace⟩)
    (rtlCompressBufferLznt1 (engineOf (compressionFormatAndEngine &&& 0xff00)) memory
      uncompressedBuffer uncompressedBufferSize out compressedBuffer compressedBufferSize
      workspace)

def rtlDecompressBuffer (compressionFormat : Nat) (source : Source) (memory : List UInt8)
    (uncompressedBuffer uncompressedBufferSize compressedBuffer compressedBufferSize : Nat) :
    Except Fault Decoded :=
  selectFormat (compressionFormat &&& 0x00ff) (fun status => ⟨status, memory, 0⟩)
    (rtlDecompressBufferLznt1 source memory uncompressedBuffer uncompressedBufferSize
      compressedBuffer compressedBufferSize)

/-! ## Compressed data info -/

/-- `COMPRESSED_DATA_INFO`. -/
structure CompressedDataInfo where
  compressionFormatAndEngine : Nat
  chunkShift : Nat
  clusterShift : Nat
  reserved : Nat
  numberOfChunks : Nat
  compressedChunkSizes : List Nat
  deriving DecidableEq, Repr

namespace CompressedDataInfo

variable (info : CompressedDataInfo)

def uncompressedChunkSize : Nat :=
  1 <<< info.chunkShift

/-- The `ULONG` in front of `CompressedChunkSizes`: two `UCHAR`s and a `USHORT`. -/
def wordBefore : Nat :=
  info.clusterShift + 256 * info.reserved + 65536 * info.numberOfChunks

/-- `*CurrentCompressedChunkSize`, which may be backed up to the word before. -/
def chunkSize (index : Int) : Except Fault Nat :=
  if 0 ≤ index then
    readOr (.chunkSizeIndex index.toNat) info.compressedChunkSizes index.toNat
  else if index = -1 then .ok info.wordBefore
  else .error (.beforeBuffer (-index).toNat)

end CompressedDataInfo

/-! ## RtlCompressChunks -/

structure CompressState where
  uncompressedBuffer : Nat
  uncompressedBufferSize : Nat
  out : List UInt8
  compressedBuffer : Nat
  compressedBufferSize : Nat
  info : CompressedDataInfo
  workspace : Workspace

/-- What one chunk leaves: the compressed buffer, `FinalCompressedSize` and the
workspace; `none` when the chunk has no room even uncompressed. -/
abbrev StoredChunk := Option (List UInt8 × Nat × Workspace)

/-- The chunk goes out uncompressed, padded with zeros to a whole chunk. -/
def storeUncompressed (memory : List UInt8) (uncompressedChunkSize sizeToCompress : Nat)
    (uncompressedBuffer : Nat) (out : List UInt8) (compressedBuffer : Nat) :
    Except Fault (List UInt8) := do
  let bytes ← Source.within.readBlock memory sizeToCompress uncompressedBuffer
  let out ← writeBlock .writeCompressed out compressedBuffer bytes
  if uncompressedChunkSize > sizeToCompress then
    writeBlock .writeCompressed out (compressedBuffer + sizeToCompress)
      (List.replicate (uncompressedChunkSize - sizeToCompress) 0)
  else return out

def compressOneChunk (memory : List UInt8) (sizeToCompress : Nat) (s : CompressState) :
    Except Fault StoredChunk := do
  let r ← rtlCompressBuffer s.info.compressionFormatAndEngine memory s.uncompressedBuffer
    sizeToCompress s.out s.compressedBuffer s.compressedBufferSize s.workspace
  if r.status = .bufferAllZeros then return some (r.out, 0, r.workspace)
  else if r.status.ntSuccess then return some (r.out, r.size, r.workspace)
  else if s.compressedBufferSize < s.info.uncompressedChunkSize then return none
  else
    let out ← storeUncompressed memory s.info.uncompressedChunkSize sizeToCompress
      s.uncompressedBuffer r.out s.compressedBuffer
    return some (out, s.info.uncompressedChunkSize, r.workspace)

/-- The bytes of the next chunk: a whole chunk or what is left. -/
def nextSize (uncompressedBufferSize uncompressedChunkSize : Nat) : Nat :=
  if uncompressedBufferSize ≥ uncompressedChunkSize then uncompressedChunkSize
  else uncompressedBufferSize

/-- Record the size of the chunk and move on. -/
def CompressState.advance (s : CompressState) (sizeToCompress : Nat) (out : List UInt8)
    (finalCompressedSize : Nat) (workspace : Workspace) : CompressState :=
  { uncompressedBuffer := s.uncompressedBuffer + sizeToCompress
    uncompressedBufferSize := s.uncompressedBufferSize - sizeToCompress
    out := out
    compressedBuffer := s.compressedBuffer + finalCompressedSize
    compressedBufferSize := ulongSub s.compressedBufferSize finalCompressedSize
    info :=
      { s.info with
        numberOfChunks := (s.info.numberOfChunks + 1) % 65536
        compressedChunkSizes := s.info.compressedChunkSizes ++ [finalCompressedSize] }
    workspace := workspace }

variable {size : Nat}

theorem nextSize_pos (shift : Nat) (left : size - nextSize size (1 <<< shift) ≠ 0) :
    0 < nextSize size (1 <<< shift) := by
  have positive : 0 < 1 <<< shift := by simp [Nat.shiftLeft_eq]
  unfold nextSize at left ⊢
  split <;> omega

def compressChunks (memory : List UInt8) (s : CompressState) :
    Except Fault (NtStatus × CompressState) := do
  let sizeToCompress := nextSize s.uncompressedBufferSize s.info.uncompressedChunkSize
  match ← compressOneChunk memory sizeToCompress s with
  | none => return (.bufferTooSmall, s)
  | some (out, finalCompressedSize, workspace) =>
    let s' := s.advance sizeToCompress out finalCompressedSize workspace
    if s.uncompressedBufferSize - sizeToCompress ≠ 0 then compressChunks memory s'
    else return (.success, s')
termination_by s.uncompressedBufferSize
decreasing_by
  have := nextSize_pos s.info.chunkShift ‹_›
  show s.uncompressedBufferSize - nextSize _ _ < _
  unfold CompressedDataInfo.uncompressedChunkSize at *
  omega

/-- The caller's `CompressedBufferSize` is replaced by the size of the data less
a sixteenth. -/
def rtlCompressChunks (memory : List UInt8) (uncompressedBuffer uncompressedBufferSize : Nat)
    (out : List UInt8) (compressedBuffer : Nat) (info : CompressedDataInfo)
    (workspace : Workspace) : Except Fault (NtStatus × CompressState) :=
  compressChunks memory
    { uncompressedBuffer := uncompressedBuffer
      uncompressedBufferSize := uncompressedBufferSize
      out := out
      compressedBuffer := compressedBuffer
      compressedBufferSize := uncompressedBufferSize - uncompressedBufferSize / 16
      info := { info with numberOfChunks := 0, compressedChunkSizes := [] }
      workspace := workspace }

/-! ## RtlDecompressChunks -/

structure DecompressState where
  memory : List UInt8
  source : Source
  compressedBuffer : Int
  compressedBufferSize : Nat
  compressedTailSize : Nat
  currentCompressedChunkSize : Int
  chunksToGo : Nat
  deriving DecidableEq, Repr

/-- A chunk is done, with `size` what `*CurrentCompressedChunkSize` reads at the
end of the pass; or the routine returns. -/
inductive ChunksStep where
  | next (s : DecompressState) (size : Nat)
  | fail (status : NtStatus) (memory : List UInt8)
  deriving DecidableEq, Repr

/-- The offset of a pointer that is about to be used. -/
def offsetOf (pointer : Int) : Except Fault Nat :=
  if 0 ≤ pointer then .ok pointer.toNat else .error (.beforeBuffer (-pointer).toNat)

/-- The update at the end of a pass. -/
def DecompressState.advance (s : DecompressState) (size : Nat) : DecompressState :=
  { s with
    compressedBuffer := s.compressedBuffer + size
    compressedBufferSize := ulongSub s.compressedBufferSize size
    currentCompressedChunkSize := s.currentCompressedChunkSize + 1
    chunksToGo := s.chunksToGo - 1 }

/-- No chunk is left: zeros, with the size pointer backed up for the common code. -/
def outOfChunks (info : CompressedDataInfo) (uncompressedBuffer sizeToDecompress : Nat)
    (s : DecompressState) : Except Fault ChunksStep := do
  let memory ← zeroMemory s.memory uncompressedBuffer sizeToDecompress
  let size ← info.chunkSize (s.currentCompressedChunkSize - 1)
  return .next
    { s with
      memory := memory
      chunksToGo := 1
      currentCompressedChunkSize := s.currentCompressedChunkSize - 1 } size

section Decompress

variable (tailSource : Source) (compressedTail : Nat) (info : CompressedDataInfo)
  (uncompressedBuffer uncompressedBufferSize : Nat)

/-- Make the tail the current buffer, biased by what is left of the first part. -/
def DecompressState.switchToTail (s : DecompressState) : DecompressState :=
  { s with
    source := tailSource
    compressedBuffer := compressedTail - s.compressedBufferSize
    compressedBufferSize := s.compressedTailSize + s.compressedBufferSize
    compressedTailSize := 0 }

/-- A chunk that is not compressed; it may extend into the tail. -/
def copyUncompressed (sizeToDecompress size : Nat) (s : DecompressState) :
    Except Fault ChunksStep := do
  let p ← offsetOf s.compressedBuffer
  if sizeToDecompress ≥ s.compressedBufferSize then
    if s.compressedTailSize = 0 ∧ sizeToDecompress > s.compressedBufferSize then
      return .fail .badCompressionBuffer s.memory
    else
      let memory ← copyMemory s.source s.memory uncompressedBuffer p s.compressedBufferSize
      let memory ← copyMemory tailSource memory (uncompressedBuffer + s.compressedBufferSize)
        compressedTail (sizeToDecompress - s.compressedBufferSize)
      return .next ({ s with memory := memory }.switchToTail tailSource compressedTail) size
  else
    let memory ← copyMemory s.source s.memory uncompressedBuffer p sizeToDecompress
    return .next { s with memory := memory } size

/-- A chunk that extends into the tail is put together in the last chunk of the
uncompressed buffer. -/
def reassemble (size : Nat) (s : DecompressState) : Except Fault DecompressState := do
  let pointer : Int := uncompressedBuffer + uncompressedBufferSize - info.uncompressedChunkSize
  let scratch ← offsetOf pointer
  let p ← offsetOf s.compressedBuffer
  let memory ← copyMemory s.source s.memory scratch p s.compressedBufferSize
  let memory ← copyMemory tailSource memory (scratch + s.compressedBufferSize) compressedTail
    (size - s.compressedBufferSize)
  return { s with memory := memory, source := .within, compressedBuffer := pointer }

/-- If the chunk did not come out whole, zero the rest. -/
def zeroRest (sizeToDecompress : Nat) (d : Decoded) : Except Fault (List UInt8) :=
  if sizeToDecompress > d.size then
    zeroMemory d.memory (uncompressedBuffer + d.size) (sizeToDecompress - d.size)
  else .ok d.memory

/-- The call of `RtlDecompressBuffer` and what follows it. -/
def expandNormal (sizeToDecompress size : Nat) (s : DecompressState) : Except Fault ChunksStep := do
  let p ← offsetOf s.compressedBuffer
  let d ← rtlDecompressBuffer info.compressionFormatAndEngine s.source s.memory
    uncompressedBuffer sizeToDecompress p size
  if d.status.ntSuccess then
    let memory ← zeroRest uncompressedBuffer sizeToDecompress d
    let s := { s with memory := memory }
    if size ≥ s.compressedBufferSize then
      return .next (s.switchToTail tailSource compressedTail) size
    else return .next s size
  else return .fail d.status d.memory

def decompressNormal (sizeToDecompress size : Nat) (s : DecompressState) :
    Except Fault ChunksStep :=
  if size > s.compressedBufferSize then
    if s.compressedTailSize = 0 then .ok (.fail .badCompressionBuffer s.memory)
    else do
      let s ← reassemble tailSource compressedTail info uncompressedBuffer uncompressedBufferSize
        size s
      expandNormal tailSource compressedTail info uncompressedBuffer sizeToDecompress size s
  else expandNormal tailSource compressedTail info uncompressedBuffer sizeToDecompress size s

def decompressOneChunk (sizeToDecompress : Nat) (s : DecompressState) : Except Fault ChunksStep :=
  if s.chunksToGo = 0 then outOfChunks info uncompressedBuffer sizeToDecompress s
  else do
    let size ← info.chunkSize s.currentCompressedChunkSize
    if size = 0 then
      let memory ← zeroMemory s.memory uncompressedBuffer sizeToDecompress
      return .next { s with memory := memory } size
    else if size = info.uncompressedChunkSize then
      copyUncompressed tailSource compressedTail uncompressedBuffer sizeToDecompress size s
    else
      decompressNormal tailSource compressedTail info uncompressedBuffer uncompressedBufferSize
        sizeToDecompress size s

def decompressChunks (uncompressedBuffer uncompressedBufferSize : Nat) (s : DecompressState) :
    Except Fault (NtStatus × List UInt8) := do
  let sizeToDecompress := nextSize uncompressedBufferSize info.uncompressedChunkSize
  match ← decompressOneChunk tailSource compressedTail info uncompressedBuffer
      uncompressedBufferSize sizeToDecompress s with
  | .fail status memory => return (status, memory)
  | .next s' size =>
    if uncompressedBufferSize - sizeToDecompress ≠ 0 then
      decompressChunks (uncompressedBuffer + sizeToDecompress)
        (uncompressedBufferSize - sizeToDecompress) (s'.advance size)
    else return (.success, s'.memory)
termination_by uncompressedBufferSize
decreasing_by
  have := nextSize_pos info.chunkShift ‹_›
  unfold CompressedDataInfo.uncompressedChunkSize at *
  omega

end Decompress

/-- The two parts of the compressed data may lie in the memory of the output. -/
def rtlDecompressChunks (memory : List UInt8) (uncompressedBuffer uncompressedBufferSize : Nat)
    (bufferSource : Source) (compressedBuffer compressedBufferSize : Nat) (tailSource : Source)
    (compressedTail compressedTailSize : Nat) (info : CompressedDataInfo) :
    Except Fault (NtStatus × List UInt8) :=
  decompressChunks tailSource compressedTail info uncompressedBuffer uncompressedBufferSize
    { memory := memory
      source := bufferSource
      compressedBuffer := compressedBuffer
      compressedBufferSize := compressedBufferSize
      compressedTailSize := compressedTailSize
      currentCompressedChunkSize := 0
      chunksToGo := info.numberOfChunks }

open List

/-! ## Packed data -/

/-- One chunk `c` for the piece `y`. -/
inductive Packing : List UInt8 → List UInt8 → Prop where
  | zeros {y : List UInt8} (zeros : y = replicate y.length 0) : Packing y []
  | uncompressed {y : List UInt8} : Packing y (y ++ replicate (4096 - y.length) 0)
  | compressed {y c : List UInt8} (stream : Stream y c) : Packing y c

inductive Packed : List UInt8 → List (List UInt8) → Prop where
  | last {y c : List UInt8} (some : y ≠ []) (short : y.length ≤ 4096) (packing : Packing y c) :
      Packed y [c]
  | more {y c x : List UInt8} {cs : List (List UInt8)} (full : y.length = 4096)
      (packing : Packing y c) (rest : Packed x cs) : Packed (y ++ x) (c :: cs)

theorem Packed.ne_nil {x : List UInt8} {cs : List (List UInt8)} (packed : Packed x cs) :
    x ≠ [] := by
  cases packed with
  | last some => exact some
  | more => exact append_ne_nil_of_left_ne_nil (ne_nil_of_length_pos (by omega)) _

variable {info : CompressedDataInfo}

theorem chunkSize_of_shift (shift : info.chunkShift = 12) : info.uncompressedChunkSize = 4096 := by
  rw [CompressedDataInfo.uncompressedChunkSize, shift]
  rfl

theorem selectFormat_lznt1 {format : Nat} (fail : NtStatus → α) (lznt1 : Except Fault α)
    (is : format = compressionFormatLznt1) : selectFormat format fail lznt1 = lznt1 := by
  subst is
  rfl

/-! ## What RtlCompressChunks leaves -/

section Compress

variable {memory : List UInt8} {start base : Nat} {out y : List UInt8}

theorem storeUncompressed_ok {out' : List UInt8} (placed : At memory start y)
    (short : y.length ≤ 4096)
    (run : storeUncompressed memory 4096 y.length start out base = .ok out') :
    out'.length = out.length ∧ (∀ j, j < base → out'[j]? = out[j]?) ∧
      At out' base (y ++ replicate (4096 - y.length) 0) := by
  obtain ⟨bytes, block, run⟩ := bind_eq_ok.mp run
  obtain ⟨stored, write, run⟩ := bind_eq_ok.mp run
  obtain ⟨length, found⟩ := readBlock_ok block
  obtain ⟨room, rfl⟩ := writeBlock_ok write
  have same : bytes = y := by
    apply ext_getElem?
    intro k
    rcases Nat.lt_or_ge k y.length with inside | past
    · rw [← found k (by omega), placed k inside]
    · rw [getElem?_eq_none (by omega), getElem?_eq_none past]
  subst same
  split at run
  · obtain ⟨room', rfl⟩ := writeBlock_ok run
    rw [blit_length room] at room'
    rw [blit_blit (by omega)]
    have whole : base + (bytes ++ replicate (4096 - bytes.length) 0).length ≤ out.length := by
      rw [length_append]
      omega
    exact ⟨blit_length whole, fun j below => getElem?_blit_outside whole (.inl below),
      at_blit whole⟩
  · obtain rfl := pure_eq_ok.mp run
    have full : 4096 - bytes.length = 0 := by omega
    rw [full, replicate_zero, append_nil]
    exact ⟨blit_length room, fun j below => getElem?_blit_outside room (.inl below), at_blit room⟩

variable {workspace : Workspace}

/-- **One chunk is packed** behind what is already in the compressed buffer. -/
theorem compressOneChunk_ok {s : CompressState}
    (format : s.info.compressionFormatAndEngine &&& 0x00ff = compressionFormatLznt1)
    (shift : s.info.chunkShift = 12) (placed : At memory s.uncompressedBuffer y) (some : y ≠ [])
    (short : y.length ≤ 4096)
    (run : compressOneChunk memory y.length s = .ok (.some (out, size, workspace))) :
    out.length = s.out.length ∧ (∀ j, j < s.compressedBuffer → out[j]? = s.out[j]?) ∧
      ∃ c, Packing y c ∧ size = c.length ∧ At out s.compressedBuffer c := by
  obtain ⟨r, compress, run⟩ := bind_eq_ok.mp run
  rw [rtlCompressBuffer, selectFormat_lznt1 _ _ format] at compress
  have result := rtlCompressBufferLznt1_ok placed some compress
  rw [chunkSize_of_shift shift] at run
  split at run
  · next allZeros =>
    obtain ⟨rfl, rfl, rfl⟩ := run
    refine ⟨result.length, result.frame, [], .zeros ?_, rfl, at_nil _ _⟩
    apply ext_getElem?
    intro k
    rcases Nat.lt_or_ge k y.length with inside | past
    · rw [result.zeros allZeros k inside, getElem?_replicate_of_lt inside]
    · rw [getElem?_eq_none past, getElem?_eq_none (by simpa using past)]
  split at run
  · next success =>
    obtain ⟨rfl, rfl, rfl⟩ := run
    obtain ⟨c, stream, at_c, length⟩ := result.stream success
    exact ⟨result.length, result.frame, c, .compressed stream, by omega, at_c⟩
  split at run
  · exact nomatch pure_eq_ok.mp run
  · obtain ⟨stored, store, run⟩ := bind_eq_ok.mp run
    obtain ⟨rfl, rfl, rfl⟩ := run
    obtain ⟨length, frame, at_c⟩ := storeUncompressed_ok placed short store
    refine ⟨length.trans result.length, fun j below => (frame j below).trans (result.frame j below),
      _, .uncompressed, ?_, at_c⟩
    rw [length_append, length_replicate]
    omega

/-- What a run over `x` from `s` to `s'` leaves. -/
structure ChunksResult (x : List UInt8) (s s' : CompressState) (cs : List (List UInt8)) : Prop where
  packed : Packed x cs
  length : s'.out.length = s.out.length
  frame : ∀ j, j < s.compressedBuffer → s'.out[j]? = s.out[j]?
  placed : At s'.out s.compressedBuffer cs.flatten
  info : s'.info = { s.info with
    numberOfChunks := (s.info.numberOfChunks + cs.length) % 65536
    compressedChunkSizes := s.info.compressedChunkSizes ++ cs.map List.length }

/-- **The chunks of a whole buffer are packed one behind the other** and their
lengths recorded; the number of chunks is kept modulo 65536. -/
theorem compressChunks_ok {s s' : CompressState} {x : List UInt8}
    (format : s.info.compressionFormatAndEngine &&& 0x00ff = compressionFormatLznt1)
    (shift : s.info.chunkShift = 12) (placed : At memory s.uncompressedBuffer x) (some : x ≠ [])
    (size : s.uncompressedBufferSize = x.length)
    (run : compressChunks memory s = .ok (.success, s')) :
    ∃ cs, ChunksResult x s s' cs := by
  rw [compressChunks, chunkSize_of_shift shift, size] at run
  obtain ⟨stored, chunk, run⟩ := bind_eq_ok.mp run
  cases stored with
  | none => exact nomatch (pure_eq_ok.mp run)
  | some stored =>
  obtain ⟨out, final, workspace⟩ := stored
  dsimp only at run
  -- a whole chunk with more input behind it, or the last chunk
  by_cases more : 4096 < x.length
  · have whole : nextSize x.length 4096 = 4096 := if_pos (by omega)
    have width : (x.take 4096).length = 4096 := by rw [length_take]; omega
    have left : (x.drop 4096).length = x.length - 4096 := length_drop
    rw [whole] at run chunk
    rw [if_pos (by omega)] at run
    obtain ⟨first, rest⟩ := at_append.mp ((take_append_drop 4096 x).symm ▸ placed)
    rw [← width] at chunk
    obtain ⟨length, frame, c, packing, rfl, at_c⟩ := compressOneChunk_ok format shift first
      (ne_nil_of_length_pos (by omega)) (by omega) chunk
    rw [width] at rest
    obtain ⟨cs, result⟩ := compressChunks_ok
      (s := s.advance 4096 out c.length workspace) format shift rest
      (ne_nil_of_length_pos (by omega)) (by rw [left, ← size]; rfl) run
    refine ⟨c :: cs, ?_⟩
    exact
      { packed := by
          rw [← take_append_drop 4096 x]
          exact .more width packing result.packed
        length := result.length.trans length
        frame := fun j below =>
          (result.frame j (Nat.lt_add_right _ below)).trans (frame j below)
        placed := by
          refine at_append.mpr ⟨at_c.congr fun j _ high => result.frame j high, result.placed⟩
        info := by
          rw [result.info]
          simp only [CompressState.advance, map_cons, length_cons,
            CompressedDataInfo.mk.injEq, append_assoc, cons_append, nil_append,
            true_and, and_true]
          omega }
  · have whole : nextSize x.length 4096 = x.length := by
      unfold nextSize
      split <;> omega
    rw [whole] at run chunk
    rw [if_neg (by omega)] at run
    obtain ⟨length, frame, c, packing, rfl, at_c⟩ := compressOneChunk_ok format shift placed some
      (by omega) chunk
    obtain rfl := (Prod.mk.inj (pure_eq_ok.mp run)).2
    refine ⟨[c], ?_⟩
    exact
      { packed := .last some (by omega) packing
        length := length
        frame := frame
        placed := by
          rw [flatten_singleton]
          exact at_c
        info := rfl }
termination_by x.length

/-- **`RtlCompressChunks` leaves packed chunks and records their lengths.** -/
theorem rtlCompressChunks_ok {x : List UInt8} {r : CompressState}
    (format : info.compressionFormatAndEngine &&& 0x00ff = compressionFormatLznt1)
    (shift : info.chunkShift = 12) (placed : At memory start x) (some : x ≠ [])
    (run : rtlCompressChunks memory start x.length out base info workspace = .ok (.success, r)) :
    ∃ cs, Packed x cs ∧ At r.out base cs.flatten ∧ r.out.length = out.length ∧ r.info = { info with
        numberOfChunks := cs.length % 65536
        compressedChunkSizes := cs.map List.length } := by
  obtain ⟨cs, result⟩ := compressChunks_ok format shift placed some rfl run
  refine ⟨cs, result.packed, result.placed, result.length, ?_⟩
  rw [result.info, Nat.zero_add, nil_append]

end Compress

end Ntoskrnl.Rtl.Compress
