/-
# Ntoskrnl.Rtl.Compress.Transfer -- what arrives of a chunked transfer

The receiver's loop over all chunks.  What it delivers is not always what was
sent: an LZNT1 image of exactly 4096 bytes is taken for a piece that was not
compressed, and chunks past the `USHORT` count are taken for zeros.  `received` is
what arrives, for every split of the data into two parts, and `Arrives` says of
each piece whether it does.

A chunk that spans the split is put together in the last 4096 bytes of the output and
expanded from there.  It comes out right as long as the output does not overwrite the
part of it that is still to be read (`Clear`).
-/
import Ntoskrnl.Rtl.Compress.Receive

namespace Ntoskrnl.Rtl.Compress

open Base Lib.Checked Rtl.Lznt1 List Function

set_option autoImplicit false

/-! ## The whole transfer at the receiver -/

/-- What arrives of `x` when `toGo` chunks are counted. -/
def received : Nat → List UInt8 → List (List UInt8) → List UInt8
  | 0, x, _ => replicate x.length 0
  | _ + 1, _, [] => []
  | toGo + 1, x, c :: cs => delivered (x.take 4096) c ++ received toGo (x.drop 4096) cs

/-- Where the chunk with the given index starts. -/
def startOf (sizes : List Nat) (index : Nat) : Nat :=
  (sizes.take index).sum

def sizeAt (sizes : List Nat) (index : Nat) : Nat :=
  sizes.getD index 0

/-- The chunk with the given index spans the split, `consumed` bytes coming before
the first of the chunks. -/
def SpansAt (headSize consumed : Nat) (sizes : List Nat) (index : Nat) : Prop :=
  Spans headSize (consumed + startOf sizes index) (sizeAt sizes index)

variable {headSize consumed size room : Nat} {cs : List (List UInt8)} {sizes : List Nat}

theorem spansAt_zero :
    SpansAt headSize consumed (size :: sizes) 0 ↔ Spans headSize consumed size := by
  rw [SpansAt, startOf, take_zero, sum_nil, Nat.add_zero, sizeAt, getD_cons_zero]

variable {index : Nat}

theorem spansAt_succ : SpansAt headSize consumed (size :: sizes) (index + 1) ↔
      SpansAt headSize (consumed + size) sizes index := by
  rw [SpansAt, startOf, take_succ_cons, sum_cons, sizeAt, ← Nat.add_assoc]
  rfl

theorem sizeAt_zero : sizeAt (size :: sizes) 0 = size := rfl

theorem sizeAt_succ : sizeAt (size :: sizes) (index + 1) = sizeAt sizes index := rfl

variable {toGo : Nat}

theorem received_last {y c : List UInt8} (short : y.length ≤ 4096) :
    received (toGo + 1) y [c] = delivered y c := by
  have none : y.drop 4096 = [] := drop_eq_nil_of_le short
  rw [received, take_of_length_le short, none]
  cases toGo with
  | zero | succ => exact append_nil _

variable {x : List UInt8}

theorem received_more {y c : List UInt8} (full : y.length = 4096) :
    received (toGo + 1) (y ++ x) (c :: cs) = delivered y c ++ received toGo x cs := by
  rw [received, take_left' full, drop_left' full]

theorem received_length (packed : Packed x cs) :
    ∀ toGo, (received toGo x cs).length = x.length := by
  induction packed with
  | last some short =>
    intro toGo
    cases toGo with
    | zero => exact length_replicate
    | succ => rw [received_last short, delivered_length short]
  | more full packing rest ih =>
    intro toGo
    cases toGo with
    | zero => exact length_replicate
    | succ =>
      rw [received_more full, length_append, length_append, ih, delivered_length (by omega)]

variable {info : CompressedDataInfo}

section Transfer

variable {head tail : List UInt8}

variable {toGo total start n : Nat} {s : DecompressState} {y x c stream : List UInt8}

def pieceAt (x : List UInt8) (index : Nat) : List UInt8 :=
  (x.drop (4096 * index)).take 4096

def chunkBytesAt (stream : List UInt8) (sizes : List Nat) (index : Nat) : List UInt8 :=
  (stream.drop (startOf sizes index)).take (sizeAt sizes index)

theorem pieceAt_zero (short : y.length ≤ 4096) (ends : x = [] ∨ y.length = 4096) :
    pieceAt (y ++ x) 0 = y := by
  rw [pieceAt, drop_zero]
  rcases ends with rfl | full
  · rw [append_nil, take_of_length_le short]
  · exact take_left' full

theorem pieceAt_succ (full : y.length = 4096) : pieceAt (y ++ x) (index + 1) = pieceAt x index := by
  rw [pieceAt, pieceAt, Nat.mul_succ, Nat.add_comm, ← drop_drop, drop_left' full]

theorem chunkBytesAt_zero : chunkBytesAt (c ++ stream) (c.length :: sizes) 0 = c := by
  rw [chunkBytesAt, startOf, take_zero, sum_nil, drop_zero, sizeAt_zero, take_left' rfl]

theorem chunkBytesAt_succ :
    chunkBytesAt (c ++ stream) (c.length :: sizes) (index + 1) = chunkBytesAt stream sizes index := by
  rw [chunkBytesAt, startOf, take_succ_cons, sum_cons, ← drop_drop, drop_left' rfl]
  rfl

/-- A chunk is to be put together for which there is no place. -/
def Cramped (headSize consumed toGo total : Nat) (sizes : List Nat) : Prop :=
  ∃ index, index < toGo ∧
    Cramps headSize (consumed + startOf sizes index) (sizeAt sizes index) total

theorem cramped_cons : Cramped headSize consumed (toGo + 1) total (size :: sizes) ↔
      Cramps headSize consumed size total ∨
        Cramped headSize (consumed + size) toGo total sizes := by
  constructor
  · rintro ⟨index, counted, other, spans, cramped⟩
    cases index with
    | zero => exact .inl ⟨other, spansAt_zero.mp spans, cramped⟩
    | succ index => exact .inr ⟨index, by omega, other, spansAt_succ.mp spans, cramped⟩
  · rintro (⟨other, spans, cramped⟩ | ⟨index, counted, other, spans, cramped⟩)
    · exact ⟨0, by omega, other, spansAt_zero.mpr spans, cramped⟩
    · exact ⟨index + 1, by omega, other, spansAt_succ.mpr spans, cramped⟩

/-- A compressed chunk that is put together lies behind its output, and none of it is
overwritten before it is read. -/
def Clear (headSize consumed toGo total : Nat) (x stream : List UInt8) (sizes : List Nat) : Prop :=
  ∀ index, index < toGo → sizeAt sizes index ≠ 4096 → SpansAt headSize consumed sizes index →
    sizeAt sizes index ≤ 4096 → 4096 ≤ total → 4096 * (index + 1) ≤ x.length ∧
      Trails (x.length - 4096 * (index + 1)) (pieceAt x index) (chunkBytesAt stream sizes index)

section Clear

variable (clear : Clear headSize consumed (toGo + 1) total (y ++ x) (c ++ stream)
  (c.length :: sizes))

include clear

theorem Clear.first (short : y.length ≤ 4096) (ends : x = [] ∨ y.length = 4096)
    (other : c.length ≠ 4096) (spans : Spans headSize consumed c.length)
    (small : c.length ≤ 4096) (within : 4096 ≤ total) :
    4096 ≤ (y ++ x).length ∧ Trails ((y ++ x).length - 4096) y c := by
  have first := clear 0 (by omega) other (spansAt_zero.mpr spans) small within
  rwa [pieceAt_zero short ends, chunkBytesAt_zero] at first

theorem Clear.rest (full : y.length = 4096) :
    Clear headSize (consumed + c.length) toGo total x stream sizes := by
  intro index counted other spans small within
  obtain ⟨room, trails⟩ :=
    clear (index + 1) (by omega) other (spansAt_succ.mpr spans) small within
  rw [pieceAt_succ full, chunkBytesAt_succ, length_append] at trails
  rw [length_append] at room
  refine ⟨by omega, ?_⟩
  rwa [show y.length + x.length - 4096 * (index + 1 + 1) = x.length - 4096 * (index + 1) by omega]
    at trails

end Clear

/-- A pass of the loop that delivers its chunk. -/
theorem decompressChunks_pass {s' : DecompressState} (shift : info.chunkShift = 12)
    (width : nextSize room 4096 = n)
    (pass : decompressOneChunk (.separate tail) 0 info start room n s = .ok (.next s' size)) :
    decompressChunks (.separate tail) 0 info start room s = if room - n ≠ 0 then
        decompressChunks (.separate tail) 0 info (start + n) (room - n) (s'.advance size)
      else .ok (.success, s'.memory) := by
  rw [decompressChunks, chunkSize_of_shift shift, width, pass]
  rfl

theorem decompressChunks_fault {fault : Fault} (shift : info.chunkShift = 12)
    (width : nextSize room 4096 = n)
    (pass : decompressOneChunk (.separate tail) 0 info start room n s = .error fault) :
    decompressChunks (.separate tail) 0 info start room s = .error fault := by
  rw [decompressChunks, chunkSize_of_shift shift, width, pass]
  rfl

/-- **The loop delivers packed chunks**, or ends in the fault of putting one together.
Induction on the chunks; one pass each. -/
theorem decompressChunks_packed
    (format : info.compressionFormatAndEngine &&& 0x00ff = compressionFormatLznt1)
    (shift : info.chunkShift = 12) (wide : (head ++ tail).length < 2 ^ 32)
    (packed : Packed x cs) :
    ∀ {s : DecompressState} {start consumed index : Nat}, Reading head tail consumed s →
      At (head ++ tail) consumed cs.flatten → start + x.length = s.memory.length →
      s.currentCompressedChunkSize = index →
      At info.compressedChunkSizes index (cs.map List.length) →
      index ≤ info.compressedChunkSizes.length →
      Clear head.length consumed s.chunksToGo s.memory.length x cs.flatten (cs.map List.length) →
      (Cramped head.length consumed s.chunksToGo s.memory.length (cs.map List.length) ∧
        ∃ fault, decompressChunks (.separate tail) 0 info start x.length s = .error fault) ∨
      (¬ Cramped head.length consumed s.chunksToGo s.memory.length (cs.map List.length) ∧
        decompressChunks (.separate tail) 0 info start x.length s =
          .ok (.success, blit s.memory start (received s.chunksToGo x cs))) := by
  -- by the chunks; those past `chunksToGo` are taken as zeros
  induction packed with
  | @last y c some short packing =>
    intro s start consumed index reading placed inside current recorded bound clear
    rw [flatten_singleton] at placed
    cases toGo : s.chunksToGo with
    | zero =>
      refine .inr ⟨fun ⟨_, counted, _⟩ => absurd counted (Nat.not_lt_zero _), ?_⟩
      exact decompressChunks_zeros shift inside toGo current bound
    | succ left =>
      have clear : Clear head.length consumed (left + 1) s.memory.length (y ++ []) (c ++ [])
          [c.length] := by
        rw [append_nil, ← toGo]
        exact clear
      have width : nextSize y.length 4096 = y.length := by
        unfold nextSize
        split <;> omega
      have first := Clear.first clear short (.inl rfl)
      rw [append_nil, ← inside] at first
      rcases decompressOneChunk_passed format shift reading wide placed packing le_rfl
        short inside (by omega) current (at_cons.mp recorded).1 first with
        ⟨cramps, fault, pass⟩ | ⟨fits, s', pass, passed⟩
      · exact .inl ⟨cramped_cons.mpr (.inl (inside ▸ cramps)), fault,
          decompressChunks_fault shift width pass⟩
      · refine .inr ⟨?_, ?_⟩
        · rw [map_singleton, cramped_cons, ← inside]
          rintro (cramps | ⟨k, _, _, spans, _⟩)
          · exact fits cramps
          · rw [show sizeAt [] k = 0 from rfl, Spans] at spans
            omega
        · rw [decompressChunks_pass shift width pass, if_neg (by omega), received_last short]
          have stored := passed.stores [] (by rw [delivered_length short]; simp)
          rw [blit_nil, append_nil] at stored
          rw [stored]
  | @more y c x cs full packing rest ih =>
    intro s start consumed index reading placed inside current recorded bound clear
    obtain ⟨first, others⟩ := at_append.mp placed
    obtain ⟨recorded₁, recorded₂⟩ := at_cons.mp recorded
    have positive := length_pos_iff.mpr rest.ne_nil
    cases toGo : s.chunksToGo with
    | zero =>
      refine .inr ⟨fun ⟨_, counted, _⟩ => absurd counted (Nat.not_lt_zero _), ?_⟩
      exact decompressChunks_zeros shift inside toGo current bound
    | succ left =>
      rw [toGo] at clear
      have total : (y ++ x).length = 4096 + x.length := by rw [length_append, full]
      have width : nextSize (y ++ x).length 4096 = y.length := by
        unfold nextSize
        rw [if_pos (by omega), full]
      have front := Clear.first clear (by omega) (.inr full)
      rw [← inside] at front
      rcases decompressOneChunk_passed format shift reading wide first packing (by omega)
        (by omega) inside (by omega) current recorded₁ front with
        ⟨cramps, fault, pass⟩ | ⟨fits, s', pass, passed⟩
      · exact .inl ⟨cramped_cons.mpr (.inl (inside ▸ cramps)), fault,
          decompressChunks_fault shift width pass⟩
      · have size : (delivered y c).length = 4096 := by rw [delivered_length (by omega), full]
        have toGo' : (s'.advance c.length).chunksToGo = left := by
          show s'.chunksToGo - 1 = left
          rw [passed.toGo, toGo]
          rfl
        have same : (s'.advance c.length).memory.length = s.memory.length := passed.length
        -- the rest of the chunks, from the state this one leaves
        have next := @ih (s'.advance c.length) (start + 4096) (consumed + c.length) (index + 1)
          (passed.reading size) others
          (by show _ = s'.memory.length; rw [passed.length]; omega)
          (by
            show s'.currentCompressedChunkSize + 1 = ((index + 1 : Nat) : Int)
            rw [passed.current, current]
            rfl)
          recorded₂
          (by
            have := (List.getElem?_eq_some_iff.mp recorded₁).1
            omega)
          (by rw [toGo', same]; exact Clear.rest clear full)
        have left' : (y ++ x).length - y.length = x.length := by omega
        rw [decompressChunks_pass shift width pass, left', if_pos (by omega), full]
        rw [toGo', same] at next
        rcases next with ⟨cramped, fault, run⟩ | ⟨fits', run⟩
        · exact .inl ⟨cramped_cons.mpr (.inr cramped), fault, run⟩
        · refine .inr ⟨?_, ?_⟩
          · rw [map_cons, cramped_cons, ← inside]
            rintro (cramps | cramped)
            · exact fits cramps
            · exact fits' (inside ▸ cramped)
          · rw [run, received_more full]
            have stored := passed.stores (received left x cs) (by rw [received_length rest]; omega)
            rw [size] at stored
            show Except.ok (NtStatus.success, blit s'.memory _ _) = _
            rw [stored]

/-! ## When everything arrives -/

/-- The piece with the given index arrives: its chunk is counted and, if it has the
size of a piece that was not compressed, is such a piece; or it is not counted and
the piece is zero. -/
def Arrives (x stream : List UInt8) (sizes : List Nat) (counted index : Nat) : Prop :=
  if index < counted then
    sizeAt sizes index = 4096 →
      (chunkBytesAt stream sizes index).take (pieceAt x index).length = pieceAt x index
  else pieceAt x index = replicate (pieceAt x index).length 0

theorem delivered_eq_iff : delivered y c = y ↔ (c.length = 4096 → c.take y.length = y) := by
  unfold delivered
  split
  · next whole => exact ⟨fun same _ => same, fun same => same whole⟩
  · next other => exact ⟨fun _ whole => absurd whole other, fun _ => rfl⟩

/-- The first piece arrives. -/
theorem arrives_zero (short : y.length ≤ 4096) (ends : x = [] ∨ y.length = 4096) :
    Arrives (y ++ x) (c ++ stream) (c.length :: sizes) (toGo + 1) 0 ↔ delivered y c = y := by
  rw [Arrives, if_pos (Nat.succ_pos toGo), pieceAt_zero short ends, chunkBytesAt_zero, sizeAt_zero,
    delivered_eq_iff]

theorem arrives_succ (full : y.length = 4096) :
    Arrives (y ++ x) (c ++ stream) (c.length :: sizes) (toGo + 1) (index + 1) ↔
      Arrives x stream sizes toGo index := by
  simp [Arrives, pieceAt_succ full, chunkBytesAt_succ, sizeAt_succ]

theorem arrives_uncounted : Arrives x stream sizes 0 index ↔
    pieceAt x index = replicate (pieceAt x index).length 0 := by
  rw [Arrives, if_neg (Nat.not_lt_zero _)]

end Transfer

/-- Zeros are zeros in every piece. -/
theorem replicate_eq_iff (x : List UInt8) :
    replicate x.length 0 = x ↔ ∀ index, 4096 * index < x.length →
      pieceAt x index = replicate (pieceAt x index).length 0 := by
  constructor
  · intro zeros index _
    rw [pieceAt, ← zeros, drop_replicate, take_replicate, length_replicate]
  · intro pieces
    apply ext_getElem?
    intro j
    rcases Nat.lt_or_ge j x.length with inside | past
    · have piece := pieces (j / 4096) (by omega)
      have found : x[j]? = (pieceAt x (j / 4096))[j % 4096]? := by
        rw [pieceAt, getElem?_take_of_lt (Nat.mod_lt _ (by decide)), getElem?_drop, Nat.div_add_mod]
      have width : j % 4096 < (pieceAt x (j / 4096)).length := by
        rw [pieceAt, length_take, length_drop]
        omega
      rw [found, piece, getElem?_replicate_of_lt inside, getElem?_replicate_of_lt width]
    · rw [getElem?_eq_none (by simpa using past), getElem?_eq_none past]

/-- **What arrives is what was sent exactly when every piece arrives.** -/
theorem received_eq_iff (packed : Packed x cs) : ∀ toGo, received toGo x cs = x ↔
      ∀ index, 4096 * index < x.length → Arrives x cs.flatten (cs.map List.length) toGo index := by
  induction packed with
  | @last y c some short =>
    intro toGo
    cases toGo with
    | zero => simpa only [received, arrives_uncounted] using replicate_eq_iff y
    | succ toGo =>
      have first : Arrives (y ++ []) (c ++ []) (c.length :: []) (toGo + 1) 0 ↔
          delivered y c = y := arrives_zero short (.inl rfl)
      rw [append_nil, append_nil] at first
      rw [received_last short, flatten_singleton, ← first]
      constructor
      · intro arrives index inside
        obtain rfl : index = 0 := by omega
        exact arrives
      · intro arrives
        exact arrives 0 (length_pos_iff.mpr some)
  | @more y c x cs full packing rest ih =>
    intro toGo
    cases toGo with
    | zero => simpa only [received, arrives_uncounted] using replicate_eq_iff (y ++ x)
    | succ toGo =>
      rw [received_more full]
      have halves : delivered y c ++ received toGo x cs = y ++ x ↔
          delivered y c = y ∧ received toGo x cs = x :=
        ⟨fun same => append_inj same (delivered_length (by omega)),
          fun same => by rw [same.1, same.2]⟩
      rw [halves, ih toGo, ← arrives_zero (by omega) (Or.inr full)]
      constructor
      · rintro ⟨first, others⟩ index inside
        cases index with
        | zero => exact first
        | succ index =>
          rw [length_append] at inside
          exact (arrives_succ full).mpr (others index (by omega))
      · intro arrives
        refine ⟨arrives 0 (by rw [length_append]; omega), fun index inside => ?_⟩
        exact (arrives_succ full).mp (arrives (index + 1) (by
          rw [length_append]
          omega))

/-- **Chunked transfer.**  Take any data, any LZNT1 engine and any split of the
compressed stream into two parts.  If a compressed chunk that spans the split is not
overwritten before it is read, the receiver rebuilds the data exactly when every piece
arrives and the chunk that spans the split is at most 4096 bytes and the data no less. -/
theorem chunkedTransfer_iff (x memory out u : List UInt8) (start base : Nat)
    (info : CompressedDataInfo) (workspace : Workspace) (r : CompressState)
    (head tail : List UInt8)
    (format : info.compressionFormatAndEngine &&& 0x00ff = compressionFormatLznt1)
    (shift : info.chunkShift = 12) (placed : At memory start x) (some : x ≠ [])
    (width : u.length = x.length) (wide : out.length < 2 ^ 32)
    (run : rtlCompressChunks memory start x.length out base info workspace = .ok (.success, r))
    (split : head ++ tail = (r.out.drop base).take r.info.compressedChunkSizes.sum)
    (clear : Clear head.length 0 r.info.numberOfChunks x.length x (head ++ tail)
      r.info.compressedChunkSizes) :
    rtlDecompressChunks u 0 x.length (.separate head) 0 head.length (.separate tail) 0 tail.length
        r.info = .ok (.success, x) ↔
      (∀ index, 4096 * index < x.length →
        Arrives x (head ++ tail) r.info.compressedChunkSizes r.info.numberOfChunks index) ∧
      ¬ Cramped head.length 0 r.info.numberOfChunks x.length r.info.compressedChunkSizes := by
  obtain ⟨cs, packed, stored, length, data⟩ :=
    rtlCompressChunks_ok format shift placed some run
  have sizes : r.info.compressedChunkSizes = cs.map List.length := by rw [data]
  have stream : head ++ tail = cs.flatten := by
    rw [split, sizes, ← length_flatten]
    exact (at_drop.mpr stored).take_eq
  have bound : (head ++ tail).length < 2 ^ 32 := by
    rw [stream]
    by_cases none : cs.flatten = []
    · rw [none]
      decide
    · have := stored.bound none
      omega
  have reading : Reading head tail 0
      ⟨u, .separate head, (0 : Nat), head.length, tail.length, 0, r.info.numberOfChunks⟩ :=
    .inHead rfl rfl rfl rfl (.inr rfl)
  have format' : r.info.compressionFormatAndEngine &&& 0x00ff = compressionFormatLznt1 := by
    rw [data]
    exact format
  have result := decompressChunks_packed format' (by rw [data]; exact shift) bound packed reading
    (by rw [stream]; exact at_self _) (by rw [Nat.zero_add]; exact width.symm)
    (rfl : (0 : Int) = (0 : Nat)) (by rw [sizes]; exact at_self _) (Nat.zero_le _)
    (by rw [← sizes, ← stream]; exact width.symm ▸ clear)
  rw [← sizes] at result
  have arrives := received_eq_iff packed r.info.numberOfChunks
  rw [← stream, ← sizes] at arrives
  unfold rtlDecompressChunks
  rcases result with ⟨cramped, fault, failed⟩ | ⟨fits, done⟩
  · rw [failed]
    exact ⟨fun same => (nomatch same), fun both => absurd (width ▸ cramped) both.2⟩
  · rw [done, blit_full (by rw [received_length packed, width]), ← arrives]
    constructor
    · intro same
      exact ⟨(Prod.mk.inj (Except.ok.inj same)).2, width ▸ fits⟩
    · intro both
      rw [both.1]

/-- What a caller sees of a compression: its status, the buffer and the chunk sizes. -/
def observed (r : NtStatus × CompressState) : NtStatus × List UInt8 × CompressedDataInfo :=
  (r.1, r.2.out, r.2.info)

theorem exists_of_observed {run : Except Fault (NtStatus × CompressState)} {status : NtStatus}
    {out : List UInt8} (seen : run.map observed = .ok (status, out, info)) :
    ∃ r, run = .ok (status, r) ∧ r.out = out ∧ r.info = info := by
  cases run with
  | error => exact nomatch seen
  | ok r =>
    obtain ⟨rfl, rfl, rfl⟩ : r.1 = status ∧ r.2.out = out ∧ r.2.info = info := by
      simpa [Except.map, observed] using seen
    exact ⟨r.2, rfl, rfl, rfl⟩

/-- Thirty-two equal bytes, compressed in one chunk of six bytes. -/
theorem rtlCompressChunks_equalBytes :
    ∃ r, rtlCompressChunks (replicate 32 7) 0 32 (replicate 30 0) 0
        ⟨2, 12, 0, 0, 0, []⟩ ⟨0, 0, 0, 0, fun _ => (0, 0)⟩ = .ok (.success, r) ∧
      r.out = [3, 176, 2, 7, 28, 0] ++ replicate 24 0 ∧ r.info = ⟨2, 12, 0, 0, 1, [6]⟩ :=
  exists_of_observed (by decide +kernel)

section EqualBytes

variable {memory : List UInt8} (equal : ∀ p < 4097, readByte memory p = .ok 7)

include equal

theorem sameByte_equalBytes {p q : Nat} (first : p < 4097) (second : q < 4097) :
    sameByte memory p q = .ok true := by
  rw [sameByte, equal p first, equal q second]
  rfl

theorem extendMatch_equalBytes {limit length : Nat} (inside : limit < 4097)
    (le : length ≤ limit) : extendMatch memory 0 1 limit length = .ok limit := by
  rw [extendMatch]
  split
  · rw [sameByte_equalBytes equal (by omega) (by omega)]
    exact extendMatch_equalBytes inside (by omega)
  · exact congrArg _ (by omega)
termination_by limit - length

/-- The match at the second byte runs to the end of the chunk. -/
theorem entryLength_equalBytes (table : Nat → Nat × Nat) :
    entryLength memory 1 ⟨0, 4096, 4098, 0, table⟩ 0 = .ok 4095 := by
  have three : sameThree memory 0 1 = .ok true := by
    simp only [sameThree, sameByte_equalBytes equal, ok_bind, if_true, Nat.reduceAdd, Nat.reduceLT]
  rw [entryLength, if_pos ⟨le_rfl, Nat.one_pos⟩, three]
  exact @extendMatch_equalBytes _ equal 4095 _ (by decide) (by decide)

/-- The workspace with one entry in its table. -/
def equalSpace (entry : Nat) : Workspace :=
  ⟨0, 4096, 4098, 0, update (fun _ => (0, 0)) (standardIndex 7 7 7) (entry, 0)⟩

/-- The first 4096 bytes are a literal and a copy. -/
theorem compressLoop_equalBytes : compressLoop lznt1FindMatchStandard memory 0 4096 3841
        ⟨Cursor.start (replicate 12 0) 0 0, 0, ⟨0, 4096, 4098, 0, fun _ => (0, 0)⟩⟩ =
      .ok ⟨⟨[0, 0, 0, 7, 252, 15] ++ replicate 6 0, 4096, 6, 2, 2, 2, 7⟩, 0, equalSpace 1⟩ := by
  have advance {position : Nat} (near : position ≤ 16) :
      advanceLength position 0 4098 = .ok (0, 4098) := by
    rw [advanceLength]
    exact if_neg (Nat.not_lt.mpr near)
  rw [(compressLoop_repeats ..).eq, if_pos (by decide)]
  refine bind_eq_ok.mpr ⟨.next ⟨⟨[0, 0, 0, 7] ++ replicate 8 0, 1, 4, 2, 0, 1, 7⟩, 0, equalSpace 0⟩,
    ?_, ?_⟩
  · refine bind_eq_ok.mpr ⟨_, advance (Nat.zero_le _), bind_eq_ok.mpr ⟨(0, _), ?_,
      bind_eq_ok.mpr ⟨_, bind_eq_ok.mpr ⟨7, equal 0 (by decide), rfl⟩, rfl⟩⟩⟩
    exact bind_eq_ok.mpr ⟨7, equal 0 (by decide), bind_eq_ok.mpr ⟨7, equal 1 (by decide),
      bind_eq_ok.mpr ⟨7, equal 2 (by decide), rfl⟩⟩⟩
  -- the first byte is a literal, all others are one copy token
  have copied : Cursor.copyToken (setLznt1 0 4095 1) 4095
      ⟨[0, 0, 0, 7] ++ replicate 8 0, 1, 4, 2, 0, 1, 7⟩ =
      .ok ⟨[0, 0, 0, 7, 252, 15] ++ replicate 6 0, 4096, 6, 2, 2, 1, 7⟩ := by decide +kernel
  have table : { equalSpace 0 with
      indexPTable := update (equalSpace 0).indexPTable (standardIndex 7 7 7) (1, 0) } = equalSpace 1 :=
    congrArg (Workspace.mk 0 4096 4098 0) (update_idem ..)
  have match' := entryLength_equalBytes equal (equalSpace 0).indexPTable
  show compressLoop .. = _
  rw [(compressLoop_repeats ..).eq, if_pos (by decide)]
  refine bind_eq_ok.mpr ⟨.next ⟨⟨[0, 0, 0, 7, 252, 15] ++ replicate 6 0, 4096, 6, 2, 2, 2, 7⟩, 0,
    equalSpace 1⟩, ?_, ?_⟩
  · refine bind_eq_ok.mpr ⟨_, advance (by decide), bind_eq_ok.mpr
      ⟨(4095, equalSpace 1), ?_, bind_eq_ok.mpr ⟨_, copied, rfl⟩⟩⟩
    refine bind_eq_ok.mpr ⟨7, equal 1 (by decide), bind_eq_ok.mpr ⟨7, equal 2 (by decide),
      bind_eq_ok.mpr ⟨7, equal 3 (by decide), ?_⟩⟩⟩
    rw [← table]
    exact bind_eq_ok.mpr ⟨_, match', bind_eq_ok.mpr ⟨_, match', rfl⟩⟩
  · show compressLoop .. = _
    rw [(compressLoop_repeats ..).eq, if_neg (by decide)]

/-- They take six bytes. -/
theorem compressOneChunk_equalBytes :
    compressOneChunk memory 4096 ⟨0, 4097, replicate 12 0, 0, 3841, ⟨2, 12, 0, 0, 0, []⟩,
        ⟨0, 0, 0, 0, fun _ => (0, 0)⟩⟩ =
      .ok (some ([3, 176, 2, 7, 252, 15] ++ replicate 6 0, 6, equalSpace 1)) := by
  have finished : finishChunk memory 0 4096 0 3841
      ⟨[0, 0, 0, 7, 252, 15] ++ replicate 6 0, 4096, 6, 2, 2, 2, 7⟩ (equalSpace 1) =
      .ok ⟨.success, [3, 176, 2, 7, 252, 15] ++ replicate 6 0, 6, equalSpace 1⟩ := by
    rw [finishChunk, if_neg (Nat.lt_irrefl 4096)]
    exact bind_eq_ok.mpr ⟨([0, 0, 2, 7, 252, 15] ++ replicate 6 0, 6), by decide +kernel,
      bind_eq_ok.mpr ⟨[3, 176, 2, 7, 252, 15] ++ replicate 6 0, by decide +kernel, rfl⟩⟩
  refine bind_eq_ok.mpr ⟨⟨.success, _, _, _⟩, (selectFormat_lznt1 _ _ rfl).trans ?_, rfl⟩
  show compressChunksLoop .. = _
  rw [compressChunksLoop, if_pos (by decide)]
  refine bind_eq_ok.mpr ⟨_, bind_eq_ok.mpr ⟨_, compressLoop_equalBytes equal, finished⟩,
    (if_pos rfl).trans ?_⟩
  rw [compressChunksLoop, if_neg (by decide), finishBuffer, if_pos (by decide)]
  exact bind_eq_ok.mpr ⟨[3, 176, 2, 7, 252, 15] ++ replicate 6 0, by decide +kernel, rfl⟩

end EqualBytes

/-- With the last byte in a chunk of its own. -/
theorem rtlCompressChunks_twoChunks :
    ∃ r, rtlCompressChunks (replicate 4097 7) 0 4097 (replicate 12 0) 0 ⟨2, 12, 0, 0, 0, []⟩
        ⟨0, 0, 0, 0, fun _ => (0, 0)⟩ = .ok (.success, r) ∧
      r.out = [3, 176, 2, 7, 252, 15, 1, 176, 0, 7, 0, 0] ∧ r.info = ⟨2, 12, 0, 0, 2, [6, 4]⟩ := by
  have equal : ∀ p < 4097, readByte (replicate 4097 7) p = .ok 7 := fun p inside =>
    readOr_eq_ok.mpr (getElem?_replicate_of_lt inside)
  have last : (compressChunks (replicate 4097 7) ⟨4096, 1, [3, 176, 2, 7, 252, 15] ++ replicate 6 0,
      6, 3835, ⟨2, 12, 0, 0, 1, [6]⟩, equalSpace 1⟩).map observed =
      .ok (.success, [3, 176, 2, 7, 252, 15, 1, 176, 0, 7, 0, 0], ⟨2, 12, 0, 0, 2, [6, 4]⟩) := by
    decide +kernel
  obtain ⟨r, last, seen⟩ := exists_of_observed last
  refine ⟨r, ?_, seen⟩
  rw [rtlCompressChunks, compressChunks]
  exact bind_eq_ok.mpr ⟨_, compressOneChunk_equalBytes equal, (if_pos (by decide)).trans last⟩

theorem trails_equalBytes : Trails 1 (replicate 4096 7) [3, 176, 2, 7, 252, 15] := by
  refine ⟨[[.literal 7, .copy 1 4095]], ⟨Nat.le_of_ble_eq_true rfl, ?_,
    ⟨trivial, ⟨by decide, by decide +kernel⟩, trivial⟩, by decide +kernel⟩, by decide +kernel,
    by simp [Paced, tokenBytes, Lib.Lz77.Token.length]⟩
  rw [length_replicate]
  refine ⟨getElem?_replicate_of_lt (by decide), ⟨Nat.one_pos, Nat.le_refl 1,
    (length_replicate (n := 4096)).ge, fun k (short : k < 4095) => ?_⟩, rfl⟩
  show (replicate 4096 7)[0 + 1 + k]? = (replicate 4096 7)[0 + 1 + k - 1]?
  rw [getElem?_replicate_of_lt (by omega), getElem?_replicate_of_lt (by omega)]

/-- With the first chunk across the split and the last one in the tail both arrive. -/
theorem chunkedTransfer_iff_equalBytes :
    ∃ r, rtlCompressChunks (replicate 4097 7) 0 4097 (replicate 12 0) 0 ⟨2, 12, 0, 0, 0, []⟩
        ⟨0, 0, 0, 0, fun _ => (0, 0)⟩ = .ok (.success, r) ∧
      r.info.compressedChunkSizes = [6, 4] ∧
      rtlDecompressChunks (replicate 4097 0) 0 4097 (.separate [3, 176, 2]) 0 3
        (.separate [7, 252, 15, 1, 176, 0, 7]) 0 7 r.info = .ok (.success, replicate 4097 7) := by
  obtain ⟨r, run, out, info⟩ := rtlCompressChunks_twoChunks
  refine ⟨r, run, by rw [info], ?_⟩
  have piece : pieceAt (replicate 4097 (7 : UInt8)) 0 = replicate 4096 7 := by
    rw [pieceAt, Nat.mul_zero, drop_zero, take_replicate, Nat.min_eq_left (by decide)]
  have transfer := chunkedTransfer_iff (replicate 4097 7) (replicate 4097 7) (replicate 12 0)
    (replicate 4097 0) 0 0 ⟨2, 12, 0, 0, 0, []⟩ _ r [3, 176, 2] [7, 252, 15, 1, 176, 0, 7] rfl rfl
    (at_self _) (cons_ne_nil 7 (replicate 4096 7)) (length_replicate.trans length_replicate.symm)
    (by decide) (by rw [length_replicate]; exact run) (by rw [out, info]; rfl) (by
      rw [info, length_replicate]
      intro index counted _ spans
      match index, counted, spans with
      | 0, _, _ =>
        rw [piece, length_replicate]
        exact fun _ _ => ⟨by omega, trails_equalBytes⟩
      | 1, _, ⟨first, _⟩ => exact absurd first (by decide))
  rw [length_replicate, info] at transfer
  rw [info]
  refine transfer.mpr ⟨fun index inside => ?_, ?_⟩
  · have counted : index < 2 := by omega
    rw [Arrives, if_pos counted]
    match index, counted with
    | 0, _ | 1, _ => exact fun whole => absurd whole (by decide)
  · rintro ⟨index, counted, _, _, cramped⟩
    match index, counted with
    | 0, _ | 1, _ => exact absurd cramped (by decide)

/-- **With the chunk in the tail it is put together in front of the buffer**: the
scratch area of 4096 bytes that ends with the output begins 4064 bytes before it. -/
theorem chunkedTransfer_shortBuffer :
    ∃ r, rtlCompressChunks (replicate 32 7) 0 32 (replicate 30 0) 0
        ⟨2, 12, 0, 0, 0, []⟩ ⟨0, 0, 0, 0, fun _ => (0, 0)⟩ = .ok (.success, r) ∧
      [] ++ [3, 176, 2, 7, 28, 0] = r.out.take r.info.compressedChunkSizes.sum ∧
      r.info.compressedChunkSizes = [6] ∧
      rtlDecompressChunks (replicate 32 0) 0 32 (.separate []) 0 0
        (.separate [3, 176, 2, 7, 28, 0]) 0 6 r.info = .error (.beforeBuffer 4064) := by
  obtain ⟨r, run, out, info⟩ := rtlCompressChunks_equalBytes
  refine ⟨r, run, by rw [out, info]; rfl, by rw [info], ?_⟩
  rw [info]
  decide +kernel

end Ntoskrnl.Rtl.Compress
