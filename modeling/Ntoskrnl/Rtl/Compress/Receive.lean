/-
# Ntoskrnl.Rtl.Compress.Receive -- one chunk at the receiver

`Reading` is the position of `RtlDecompressChunks` in the two parts of the
compressed data, through the switch to the tail and its biased pointer; `Passed`
is what one pass of the loop does to it and to the output.  The chunk that spans
the split is put together in the last 4096 bytes of the output, which later
passes overwrite, so a pass is described by what is left once the rest is stored.

The receiver knows a chunk only by its recorded length: `delivered` is what it
makes of one.
-/
import Ntoskrnl.Rtl.Compress.Chunks

namespace Ntoskrnl.Rtl.Compress

open Base Lib.Checked Rtl.Lznt1 List

set_option autoImplicit false

/-! ## Where the receiver reads -/

/-- The cursor after `consumed` bytes: in the first part, which is left with the
chunk that exhausts it, or in the tail.  Once everything is consumed the pointer
is never used again. -/
inductive Reading (head tail : List UInt8) (consumed : Nat) (s : DecompressState) : Prop where
  | inHead (source : s.source = .separate head) (pointer : s.compressedBuffer = consumed)
      (size : s.compressedBufferSize = head.length - consumed)
      (tailSize : s.compressedTailSize = tail.length)
      (short : consumed < head.length ∨ consumed = 0)
  | inTail (source : s.source = .separate tail)
      (pointer : consumed < head.length + tail.length →
        s.compressedBuffer = (consumed : Int) - head.length)
      (size : s.compressedBufferSize = head.length + tail.length - consumed)
      (tailSize : s.compressedTailSize = 0)
      (past : head.length ≤ consumed) (started : 0 < consumed)

/-- The chunk of `size` bytes behind `consumed` bytes begins in the first part, or is
the first one, and does not end there. -/
def Spans (headSize consumed size : Nat) : Prop :=
  (consumed < headSize ∨ consumed = 0) ∧ headSize < consumed + size

theorem offsetOf_natCast (p : Nat) : offsetOf (p : Int) = .ok p := by
  rw [offsetOf, if_pos (Int.natCast_nonneg p), Int.toNat_natCast]

theorem at_take {m bs : List UInt8} {i : Nat} (placed : At m i bs) (k : Nat) : At m i (bs.take k) :=
  (at_append.mp ((take_append_drop k bs).symm ▸ placed)).1

namespace Reading

variable {head tail c : List UInt8} {consumed size : Nat} {s : DecompressState}

variable (reading : Reading head tail consumed s)

include reading

/-- The next chunk lies in the current buffer as far as that goes, and goes on at
the start of the tail. -/
theorem parts (placed : At (head ++ tail) consumed c) (some : c ≠ []) :
    ∃ (full : List UInt8) (p : Nat), s.source = .separate full ∧ s.compressedBuffer = p ∧
      At full p (c.take s.compressedBufferSize) ∧ At tail 0 (c.drop s.compressedBufferSize) := by
  have inside := placed.bound some
  have positive := length_pos_iff.mpr some
  rw [length_append] at inside
  cases reading with
  | inHead source pointer =>
    refine ⟨head, consumed, source, pointer, ?_, ?_⟩
    · intro k bound
      rw [length_take] at bound
      rw [← at_take placed _ k (by rw [length_take]; exact bound), getElem?_append_left (by omega)]
    · intro k bound
      rw [length_drop] at bound
      rw [getElem?_drop, ← placed _ (by omega), getElem?_append_right (by omega)]
      congr 1
      omega
  | inTail source pointer =>
    refine ⟨tail, consumed - head.length, source, ?_, ?_, ?_⟩
    · omega
    · intro k bound
      rw [length_take] at bound
      rw [← at_take placed _ k (by rw [length_take]; exact bound), getElem?_append_right (by omega)]
      congr 1
      omega
    · rw [drop_eq_nil_of_le (by omega)]
      exact at_nil _ _

/-- The chunk goes beyond the current buffer exactly when it spans the split. -/
theorem spans_iff (inside : consumed + size ≤ (head ++ tail).length) :
    Spans head.length consumed size ↔ s.compressedBufferSize < size := by
  rw [length_append] at inside
  unfold Spans
  cases reading with
  | inHead => omega
  | inTail => omega

/-- A chunk that ends inside the current buffer leaves the cursor there, and so
does a chunk of no bytes. -/
theorem stay (wide : (head ++ tail).length < 2 ^ 32)
    (fewer : size < s.compressedBufferSize ∨ size = 0) (memory : List UInt8) :
    Reading head tail (consumed + size) ({ s with memory := memory }.advance size) := by
  rw [length_append] at wide
  cases reading with
  | inHead source pointer left tailSize =>
    refine .inHead source ?_ ?_ tailSize (by omega)
    · show s.compressedBuffer + size = _
      rw [pointer]
      rfl
    · show ulongSub s.compressedBufferSize size = _
      rw [ulongSub_eq (by omega) (by omega)]
      omega
  | inTail source pointer left tailSize =>
    refine .inTail source ?_ ?_ tailSize (by omega) (by omega)
    · intro more
      show s.compressedBuffer + size = _
      omega
    · show ulongSub s.compressedBufferSize size = _
      rw [ulongSub_eq (by omega) (by omega)]
      omega

/-- The chunk that exhausts the current buffer takes the cursor to the tail. -/
theorem switch (wide : (head ++ tail).length < 2 ^ 32)
    (exhausted : s.compressedBufferSize ≤ size) (some : 0 < size)
    (inside : consumed + size ≤ (head ++ tail).length) (s' : DecompressState)
    (bytes : s'.compressedBufferSize = s.compressedBufferSize)
    (left : s'.compressedTailSize = s.compressedTailSize) :
    Reading head tail (consumed + size) ((s'.switchToTail (.separate tail) 0).advance size) := by
  rw [length_append] at wide inside
  have total : (s'.switchToTail (.separate tail) 0).compressedBufferSize =
      s.compressedTailSize + s.compressedBufferSize := by
    rw [← bytes, ← left]
    rfl
  cases reading with
  | inHead =>
    refine .inTail rfl ?_ ?_ rfl (by omega) (by omega)
    · intro more
      show ((0 : Nat) : Int) - s'.compressedBufferSize + size = _
      omega
    · show ulongSub (s'.switchToTail (.separate tail) 0).compressedBufferSize size = _
      rw [ulongSub_eq (by omega) (by omega)]
      omega
  | inTail =>
    refine .inTail rfl ?_ ?_ rfl (by omega) (by omega)
    · omega
    · show ulongSub (s'.switchToTail (.separate tail) 0).compressedBufferSize size = _
      rw [ulongSub_eq (by omega) (by omega)]
      omega

end Reading

/-! ## One chunk at the receiver -/

/-- What arrives of the piece `y` whose chunk is `c`, as long as chunks are counted. -/
def delivered (y c : List UInt8) : List UInt8 :=
  if c.length = 4096 then c.take y.length else y

theorem delivered_length {y c : List UInt8} (short : y.length ≤ 4096) :
    (delivered y c).length = y.length := by
  unfold delivered
  split
  · rw [length_take]
    omega
  · rfl

/-- A pass over a chunk of `size` bytes stores `piece` at `start`, up to scratch
data further on that later passes overwrite. -/
structure Passed (head tail : List UInt8) (consumed size start room : Nat) (piece : List UInt8)
    (s s' : DecompressState) : Prop where
  length : s'.memory.length = s.memory.length
  stores : ∀ z : List UInt8, z.length = room - piece.length →
    blit s'.memory (start + piece.length) z = blit s.memory start (piece ++ z)
  current : s'.currentCompressedChunkSize = s.currentCompressedChunkSize
  toGo : s'.chunksToGo = s.chunksToGo
  reading : piece.length = 4096 → Reading head tail (consumed + size) (s'.advance size)

section Receive

variable {head tail y c : List UInt8} {consumed start room : Nat} {s : DecompressState}
  {info : CompressedDataInfo} {full memory bytes : List UInt8} {target p index : Nat}

/-- Storing the piece and nothing else. -/
theorem Passed.of_store {size : Nat} {piece : List UInt8} {s' : DecompressState}
    (memory : s'.memory = blit s.memory start piece) (wide : start + room ≤ s.memory.length)
    (short : piece.length ≤ room)
    (current : s'.currentCompressedChunkSize = s.currentCompressedChunkSize)
    (toGo : s'.chunksToGo = s.chunksToGo)
    (reading : piece.length = 4096 → Reading head tail (consumed + size) (s'.advance size)) :
    Passed head tail consumed size start room piece s s' where
  length := by rw [memory, blit_length (by omega)]
  stores z length := by rw [memory, blit_blit (by omega)]
  current := current
  toGo := toGo
  reading := reading

theorem zeroMemory_ok {count : Nat} (room : target + count ≤ memory.length) :
    zeroMemory memory target count = .ok (blit memory target (replicate count 0)) := by
  rw [zeroMemory, writeBlock, if_pos (by rw [length_replicate]; exact room)]

theorem copyMemory_placed (placed : At full p bytes) (room : target + bytes.length ≤ memory.length) :
    copyMemory (.separate full) memory target p bytes.length = .ok (blit memory target bytes) :=
  (Source.holds_separate placed).copies room

/-- Two stretches of bytes are put together in memory. -/
theorem copyMemory_halves {rest : List UInt8} {q k : Nat} (first : At full p (bytes.take k))
    (second : At rest q (bytes.drop k)) (within : k ≤ bytes.length)
    (room : target + bytes.length ≤ memory.length) :
    copyMemory (.separate full) memory target p k = .ok (blit memory target (bytes.take k)) ∧
      copyMemory (.separate rest) (blit memory target (bytes.take k)) (target + k) q
        (bytes.length - k) = .ok (blit memory target bytes) := by
  have width₁ : (bytes.take k).length = k := length_take_of_le within
  have width₂ : (bytes.drop k).length = bytes.length - k := length_drop
  have copy₁ := copyMemory_placed first (by omega : target + _ ≤ memory.length)
  have copy₂ := copyMemory_placed second (by rw [blit_length (by omega)]; omega :
    target + k + _ ≤ (blit memory target (bytes.take k)).length)
  have joined := blit_blit (by omega :
    target + (bytes.take k).length + (bytes.drop k).length ≤ memory.length)
  rw [width₁, take_append_drop] at joined
  rw [width₁] at copy₁
  rw [width₂, joined] at copy₂
  exact ⟨copy₁, copy₂⟩

/-- A chunk recorded with the size of a whole chunk is copied. -/
theorem copyUncompressed_passed (reading : Reading head tail consumed s)
    (wide : (head ++ tail).length < 2 ^ 32) (placed : At (head ++ tail) consumed c)
    (whole : c.length = 4096) (short : y.length ≤ 4096) (le : y.length ≤ room)
    (inside : start + room ≤ s.memory.length) :
    ∃ s', copyUncompressed (.separate tail) 0 start y.length 4096 s = .ok (.next s' 4096) ∧
      Passed head tail consumed 4096 start room (c.take y.length) s s' := by
  have some : c ≠ [] := ne_nil_of_length_pos (by omega)
  have end_le := placed.bound some
  have width : (c.take y.length).length = y.length := by
    rw [length_take]
    omega
  obtain ⟨full, p, source, pointer, first, second⟩ := reading.parts placed some
  unfold copyUncompressed
  rw [pointer, offsetOf_natCast, ok_bind, source]
  split
  · next exhausted =>
    -- the chunk uses up this part and may run on into the tail
    have enough : ¬ (s.compressedTailSize = 0 ∧ y.length > s.compressedBufferSize) := by
      rw [length_append] at end_le
      cases reading with
      | inHead => omega
      | inTail => omega
    have upTo : (c.take y.length).take s.compressedBufferSize = c.take s.compressedBufferSize := by
      rw [take_take, Nat.min_eq_left exhausted]
    obtain ⟨copy₁, copy₂⟩ := copyMemory_halves (upTo.symm ▸ first)
      (drop_take ▸ at_take second (y.length - s.compressedBufferSize)) (by omega)
      (by omega : start + _ ≤ s.memory.length)
    rw [width] at copy₂
    rw [if_neg enough, copy₁, ok_bind, copy₂]
    refine ⟨_, rfl, .of_store rfl inside (by omega) rfl rfl fun _ => ?_⟩
    exact reading.switch wide (by omega) (by omega) (by omega) _ rfl rfl
  · next more =>
    have within : c.take y.length = (c.take s.compressedBufferSize).take y.length := by
      rw [take_take]
      congr 1
      omega
    have copy := copyMemory_placed (at_take first y.length)
      (by rw [← within]; omega : start + _ ≤ s.memory.length)
    rw [← within, width] at copy
    rw [copy]
    refine ⟨_, rfl, .of_store rfl inside (by omega) rfl rfl ?_⟩
    intro complete
    rw [← pointer, ← source]
    exact reading.stay wide (.inl (by omega)) _

/-- A chunk that the decoder expands is stored and the cursor moved. -/
theorem expandNormal_ok
    (format : info.compressionFormatAndEngine &&& 0x00ff = compressionFormatLznt1)
    (pointer : s.compressedBuffer = p)
    (decoded : rtlDecompressBufferLznt1 s.source s.memory start y.length p c.length =
      .ok ⟨.success, blit s.memory start y, y.length⟩) :
    expandNormal (.separate tail) 0 info start y.length c.length s =
      .ok (.next (if c.length ≥ s.compressedBufferSize then
          { s with memory := blit s.memory start y }.switchToTail (.separate tail) 0
        else { s with memory := blit s.memory start y }) c.length) := by
  unfold expandNormal
  rw [pointer, offsetOf_natCast, ok_bind, rtlDecompressBuffer, selectFormat_lznt1 _ _ format,
    decoded, ok_bind]
  rw [if_pos NtStatus.ntSuccess_success, zeroRest, if_neg (Nat.lt_irrefl _), ok_bind]
  dsimp only
  split
  · rfl
  · rfl

section Reassemble

variable (reading : Reading head tail consumed s) (placed : At (head ++ tail) consumed c)
  (shift : info.chunkShift = 12) (inside : start + room = s.memory.length)
  (spans : s.compressedBufferSize < c.length)

include reading placed shift inside spans

/-- The chunk that spans the split is put together 4096 bytes before the end. -/
theorem reassemble_ok (small : c.length ≤ 4096) (within : 4096 ≤ start + room) :
    reassemble (.separate tail) 0 info start room c.length s = .ok { s with
        memory := blit s.memory (start + room - 4096) c
        source := .within
        compressedBuffer := (start + room - 4096 : Nat) } := by
  have some : c ≠ [] := ne_nil_of_length_pos (by omega)
  obtain ⟨full, p, source, pointer, first, second⟩ := reading.parts placed some
  have scratch : (start : Int) + room - info.uncompressedChunkSize = (start + room - 4096 : Nat) := by
    rw [chunkSize_of_shift shift]
    omega
  obtain ⟨copy₁, copy₂⟩ := copyMemory_halves first second spans.le
    (by omega : start + room - 4096 + c.length ≤ s.memory.length)
  unfold reassemble
  dsimp only
  rw [scratch, offsetOf_natCast, ok_bind, pointer, offsetOf_natCast, ok_bind, source, copy₁,
    ok_bind, copy₂]
  rfl

/-- That may begin in front of the buffer, and a chunk of more than 4096 bytes does not fit. -/
theorem reassemble_fault (cramped : 4096 < c.length ∨ start + room < 4096) :
    ∃ fault, reassemble (.separate tail) 0 info start room c.length s = .error fault := by
  rcases Nat.lt_or_ge (start + room) 4096 with front | within
  · unfold reassemble
    dsimp only
    rw [offsetOf, if_neg (by rw [chunkSize_of_shift shift]; omega)]
    exact ⟨_, rfl⟩
  have some : c ≠ [] := ne_nil_of_length_pos (by omega)
  obtain ⟨full, p, source, pointer, first, second⟩ := reading.parts placed some
  have width₁ : (c.take s.compressedBufferSize).length = s.compressedBufferSize := by
    rw [length_take]
    omega
  have width₂ : (c.drop s.compressedBufferSize).length = c.length - s.compressedBufferSize :=
    length_drop
  have scratch : (start : Int) + room - info.uncompressedChunkSize = (start + room - 4096 : Nat) := by
    rw [chunkSize_of_shift shift]
    omega
  unfold reassemble
  dsimp only
  rw [scratch, offsetOf_natCast, ok_bind, pointer, offsetOf_natCast, ok_bind, source]
  by_cases fits : s.compressedBufferSize ≤ 4096
  · have copy₁ := copyMemory_placed first (by omega : start + room - 4096 + _ ≤ s.memory.length)
    have copy₂ := (Source.holds_separate second).overruns (by rw [blit_length (by omega)]; omega :
        ¬ start + room - 4096 + s.compressedBufferSize + _ ≤
          (blit s.memory (start + room - 4096) (c.take s.compressedBufferSize)).length)
    rw [width₁] at copy₁
    rw [width₂] at copy₂
    rw [copy₁, ok_bind, copy₂]
    exact ⟨_, rfl⟩
  · have copy₁ := (Source.holds_separate first).overruns
      (by omega : ¬ start + room - 4096 + _ ≤ s.memory.length)
    rw [width₁] at copy₁
    rw [copy₁]
    exact ⟨_, rfl⟩

end Reassemble

/-- A compressed chunk spans the split and cannot be put together: it is too large, or the
buffer is too small. -/
def Cramps (headSize consumed size total : Nat) : Prop :=
  size ≠ 4096 ∧ Spans headSize consumed size ∧ (4096 < size ∨ total < 4096)

/-- A pass delivers a chunk, unless it cannot be put together. -/
def Delivers (head tail : List UInt8) (consumed size start room : Nat) (y : List UInt8)
    (s : DecompressState) (run : Except Fault ChunksStep) : Prop :=
  (Cramps head.length consumed size (start + room) ∧ ∃ fault, run = .error fault) ∨
    (¬ Cramps head.length consumed size (start + room) ∧
      ∃ s', run = .ok (.next s' size) ∧ Passed head tail consumed size start room y s s')

section Pass

variable (format : info.compressionFormatAndEngine &&& 0x00ff = compressionFormatLznt1)
  (shift : info.chunkShift = 12) (reading : Reading head tail consumed s)
  (wide : (head ++ tail).length < 2 ^ 32) (placed : At (head ++ tail) consumed c)

include format shift reading wide placed

/-- **A compressed chunk is expanded to its piece**, wherever the split is. -/
theorem decompressNormal_passed
    (stream : Stream y c) (other : c.length ≠ 4096) (le : y.length ≤ room)
    (short : y.length ≤ 4096) (inside : start + room = s.memory.length)
    (clear : Spans head.length consumed c.length → c.length ≤ 4096 → 4096 ≤ start + room →
      4096 ≤ room ∧ Trails (room - 4096) y c) :
    Delivers head tail consumed c.length start room y s
      (decompressNormal (.separate tail) 0 info start room y.length c.length s) := by
  have some : c ≠ [] := by
    obtain ⟨header, rest, shape, -⟩ := stream.header
    rw [shape]
    exact append_ne_nil_of_left_ne_nil (cons_ne_nil _ _) _
  have positive := length_pos_iff.mpr some
  have end_le := placed.bound some
  obtain ⟨full, p, source, pointer, first, second⟩ := reading.parts placed some
  unfold decompressNormal
  split
  · next across =>
    -- the chunk is in both parts: it is put together at the end of the output
    have spans := (reading.spans_iff end_le).mpr across
    have more : s.compressedTailSize ≠ 0 := by
      have := second.bound (ne_nil_of_length_pos (by rw [length_drop]; omega))
      rw [length_drop] at this
      cases reading with
      | inHead => omega
      | inTail =>
        rw [length_append] at end_le
        omega
    rw [if_neg more]
    by_cases cramped : 4096 < c.length ∨ start + room < 4096
    · obtain ⟨fault, failed⟩ := reassemble_fault reading placed shift inside across cramped
      refine Or.inl ⟨⟨other, spans, cramped⟩, fault, ?_⟩
      rw [failed]
      rfl
    · obtain ⟨room_le, trails⟩ := clear spans (by omega) (by omega)
      refine Or.inr ⟨fun cramps => cramped cramps.2.2, ?_⟩
      rw [reassemble_ok reading placed shift inside across (by omega) (by omega), ok_bind,
        Nat.add_sub_assoc room_le]
      have moved : start + (room - 4096) + c.length ≤ s.memory.length := by omega
      have decoded := rtlDecompressBufferLznt1_inPlace trails stream.ne_nil short
        (by rw [blit_length moved]; omega) (at_blit moved)
      rw [expandNormal_ok (s := { s with
        memory := blit s.memory (start + (room - 4096)) c
        source := .within
        compressedBuffer := (start + (room - 4096) : Nat) }) format rfl decoded]
      dsimp only
      rw [if_pos (by omega)]
      refine ⟨_, rfl, ?_⟩
      exact
        { length := by
            show (blit (blit _ _ _) _ _).length = _
            rw [blit_length (by rw [blit_length moved]; omega), blit_length moved]
          stores := fun z length => by
            show blit (blit (blit _ _ _) _ _) _ _ = _
            rw [blit_blit (by rw [blit_length moved]; omega),
              blit_cover moved (by omega) (by rw [length_append]; omega)
                (by rw [length_append]; omega)]
          current := rfl
          toGo := rfl
          reading := fun _ => reading.switch wide (by omega) positive end_le _ rfl rfl }
  · next fits =>
    refine Or.inr ⟨fun cramps => fits ((reading.spans_iff end_le).mp cramps.2.1), ?_⟩
    rw [take_of_length_le (by omega)] at first
    rw [expandNormal_ok format pointer
      (by rw [source]; exact rtlDecompressBufferLznt1_stream stream (by omega) first)]
    refine ⟨_, rfl, .of_store ?_ (by omega) le ?_ ?_ ?_⟩
    · split <;> rfl
    · split <;> rfl
    · split <;> rfl
    · intro _
      split
      · exact reading.switch wide (by omega) positive end_le _ rfl rfl
      · exact reading.stay wide (Or.inl (by omega)) _

/-- **One pass over a counted chunk** delivers it. -/
theorem decompressOneChunk_passed
    (packing : Packing y c) (le : y.length ≤ room) (short : y.length ≤ 4096)
    (inside : start + room = s.memory.length) (counted : s.chunksToGo ≠ 0)
    (current : s.currentCompressedChunkSize = index)
    (recorded : info.compressedChunkSizes[index]? = some c.length)
    (clear : c.length ≠ 4096 → Spans head.length consumed c.length → c.length ≤ 4096 →
      4096 ≤ start + room → 4096 ≤ room ∧ Trails (room - 4096) y c) :
    Delivers head tail consumed c.length start room (delivered y c) s
      (decompressOneChunk (.separate tail) 0 info start room y.length s) := by
  have size : info.chunkSize s.currentCompressedChunkSize = .ok c.length := by
    rw [current]
    exact readOr_eq_ok.mpr recorded
  unfold decompressOneChunk
  rw [if_neg counted, size, ok_bind, chunkSize_of_shift shift]
  -- a chunk of the full size is copied, an empty one stands for zeros
  by_cases whole : c.length = 4096
  · obtain ⟨s', run, passed⟩ :=
      copyUncompressed_passed reading wide placed whole short le (Nat.le_of_eq inside)
    refine .inr ⟨fun cramps => cramps.1 whole, s', ?_, ?_⟩
    · rw [whole, if_neg (by decide), if_pos rfl, run]
    · rw [whole, delivered, if_pos whole]
      exact passed
  · rw [show delivered y c = y from if_neg whole]
    cases packing with
    | zeros zeros =>
      refine .inr ⟨fun ⟨_, spans, _⟩ => ?_, ?_⟩
      · unfold Spans at spans
        rw [length_nil] at spans
        omega
      rw [length_nil, zeroMemory_ok (by omega)]
      refine ⟨_, rfl, .of_store (by rw [← zeros]) (by omega) le rfl rfl ?_⟩
      exact fun _ => reading.stay wide (.inr rfl) _
    | uncompressed =>
      rw [length_append, length_replicate] at whole
      omega
    | compressed stream =>
      have some : c.length ≠ 0 := by
        obtain ⟨header, rest, shape, -⟩ := stream.header
        rw [shape, length_append, ushortBytes_length]
        omega
      rw [if_neg some, if_neg whole]
      exact decompressNormal_passed format shift reading wide placed stream whole le short inside
        (clear whole)

end Pass

/-- When no chunk is counted any more the rest is filled with zeros. -/
theorem decompressChunks_zeros (shift : info.chunkShift = 12) {s : DecompressState}
    {start room : Nat} (inside : start + room = s.memory.length)
    (none : s.chunksToGo = 0) (current : s.currentCompressedChunkSize = index)
    (recorded : index ≤ info.compressedChunkSizes.length) :
    decompressChunks (.separate tail) 0 info start room s =
      .ok (.success, blit s.memory start (replicate room 0)) := by
  have before : ∃ size, info.chunkSize (s.currentCompressedChunkSize - 1) = .ok size := by
    rw [current]
    cases index with
    | zero => exact ⟨_, rfl⟩
    | succ =>
      rw [Int.natCast_succ, Int.add_sub_cancel]
      exact ⟨_, readOr_of_lt (by omega)⟩
  obtain ⟨size, before⟩ := before
  have next : nextSize room 4096 ≤ room := by
    unfold nextSize
    split <;> omega
  have fits : start + (replicate (nextSize room 4096) (0 : UInt8)).length ≤ s.memory.length := by
    rw [length_replicate]
    omega
  have pass : decompressOneChunk (.separate tail) 0 info start room (nextSize room 4096) s =
      .ok (.next
        { s with
          memory := blit s.memory start (replicate (nextSize room 4096) 0)
          chunksToGo := 1
          currentCompressedChunkSize := s.currentCompressedChunkSize - 1 } size) := by
    rw [decompressOneChunk, if_pos none, outOfChunks, zeroMemory_ok (by omega), before]
    rfl
  rw [decompressChunks, chunkSize_of_shift shift, pass, ok_bind]
  dsimp only
  split
  · next more =>
    rw [decompressChunks_zeros shift (by
        show _ = (blit _ _ _).length
        rw [blit_length fits]
        omega) rfl (by
        show s.currentCompressedChunkSize - 1 + 1 = _
        rw [Int.sub_add_cancel]
        exact current) recorded]
    show Except.ok (NtStatus.success, blit (blit _ _ _) _ _) = _
    have joined := blit_blit (by rw [length_replicate, length_replicate]; omega :
      start + (replicate (nextSize room 4096) (0 : UInt8)).length +
        (replicate (room - nextSize room 4096) (0 : UInt8)).length ≤ s.memory.length)
    rw [length_replicate, ← replicate_add, Nat.add_sub_cancel' next] at joined
    rw [joined]
  · next done =>
    have whole : nextSize room 4096 = room := by omega
    rw [whole]
    rfl
termination_by room
decreasing_by
  have left : room - nextSize room 4096 ≠ 0 := ‹_›
  have positive : 0 < nextSize room 4096 := nextSize_pos 12 left
  omega

end Receive

end Ntoskrnl.Rtl.Compress
