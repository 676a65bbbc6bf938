/-
# Ntoskrnl.Rtl.Lznt1.Safety -- the decoder on arbitrary input

Where a decoder run goes depends on the compressed bytes and on the room for the
output, never on the bytes it produces.  `walk` follows a run of the chunk
decoder without its memory: it lists the offsets from the start of the chunk at
which tokens are decoded and gives the number of bytes the chunk expands to.
`streamStarts` does the same chunk by chunk for a whole buffer.

The decoder is given the end of the whole output, not of its chunk, and looks up
the format of every token in a table with nine entries.  The run stays inside
its buffers in any case; it stays inside the table if and only if no token is
decoded more than 4096 bytes into its chunk.
-/
import Ntoskrnl.Rtl.Lznt1.Decompress

namespace Ntoskrnl.Rtl.Lznt1

open Base Lib.Checked Lib.Lz77 List

set_option autoImplicit false

/-! ## A run without its memory -/

/-- The offsets at which tokens are decoded, and how many bytes the chunk expands
to (`none` when it is ill-formed). -/
structure Trace where
  starts : List Nat
  size : Option Nat
  deriving DecidableEq, Repr

variable {t : Trace} {p : Nat}

namespace Trace

def startedAt (p : Nat) (t : Trace) : Trace :=
  { t with starts := p :: t.starts }

/-- Every token is decoded within the reach of the format table. -/
def InTable (t : Trace) : Prop :=
  ∀ q ∈ t.starts, q ≤ 4096

theorem inTable_startedAt : (t.startedAt p).InTable ↔ p ≤ 4096 ∧ t.InTable :=
  forall_mem_cons

theorem inTable_singleton {size : Option Nat} : (⟨[p], size⟩ : Trace).InTable ↔ p ≤ 4096 := by
  simp [InTable]

end Trace

/-- The tokens of a chunk body with `room` bytes of output: `flags` and `k` are the
flag byte and bit, `k = 8` before the next flag byte, and `p` bytes are out. -/
def walk (room flags k p : Nat) : List UInt8 → Trace
  | [] => ⟨[], some p⟩
  | byte :: rest =>
    if k = 8 then walk room byte.toNat 0 p rest
    else if room ≤ p then ⟨[], some p⟩
    else if flags.testBit k then
      match rest with
      | [] => ⟨[p], none⟩
      | byte' :: rest =>
        let copyToken := ushortOf byte byte'
        if p < getLznt1Displacement (formatAt p) copyToken then ⟨[p], none⟩
        else
          (walk room flags (k + 1)
            (p + min (getLznt1Length (formatAt p) copyToken) (room - p)) rest).startedAt p
    else (walk room flags (k + 1) (p + 1) rest).startedAt p

section Walk

variable {room flags k : Nat} {byte : UInt8} {rest : List UInt8}

theorem walk_flag : walk room flags 8 p (byte :: rest) = walk room byte.toNat 0 p rest := by
  cases rest <;> simp [walk]

theorem walk_full (bit : k < 8) (full : room ≤ p) (bytes : List UInt8) :
    walk room flags k p bytes = ⟨[], some p⟩ := by
  match bytes with
  | [] => rfl
  | [byte] => simp [walk, Nat.ne_of_lt bit, full]
  | byte :: byte' :: rest => simp [walk, Nat.ne_of_lt bit, full]

theorem walk_literal (bit : k < 8) (more : p < room) (literal : flags.testBit k = false) :
    walk room flags k p (byte :: rest) = (walk room flags (k + 1) (p + 1) rest).startedAt p := by
  cases rest <;> simp [walk, Nat.ne_of_lt bit, Nat.not_le.mpr more, literal]

theorem walk_truncated (bit : k < 8) (more : p < room) (copy : flags.testBit k) :
    walk room flags k p [byte] = ⟨[p], none⟩ := by
  simp [walk, Nat.ne_of_lt bit, Nat.not_le.mpr more, copy]

theorem walk_copy {byte' : UInt8} (bit : k < 8) (more : p < room) (copy : flags.testBit k) :
    walk room flags k p (byte :: byte' :: rest) =
      if p < getLznt1Displacement (formatAt p) (ushortOf byte byte') then ⟨[p], none⟩
      else
        (walk room flags (k + 1)
          (p + min (getLznt1Length (formatAt p) (ushortOf byte byte')) (room - p))
          rest).startedAt p := by
  simp [walk, Nat.ne_of_lt bit, Nat.not_le.mpr more, copy]

/-- Where there is room and input, a token is decoded. -/
theorem walk_starts (bit : k < 8) (more : p < room) :
    p ∈ (walk room flags k p (byte :: rest)).starts := by
  cases copy : flags.testBit k with
  | false =>
    rw [walk_literal bit more copy]
    exact mem_cons_self
  | true =>
    cases rest with
    | nil =>
      rw [walk_truncated bit more copy]
      exact mem_cons_self
    | cons =>
      rw [walk_copy bit more copy]
      split
      · exact mem_cons_self
      · exact mem_cons_self

end Walk

/-! ## The chunk decoder follows the walk -/

/-- The run ends as the trace says, or in the table when the trace leaves it. -/
inductive Follows (room length : Nat) : Except Fault Decoded → Trace → Prop where
  | expands {memory : List UInt8} {n : Nat} {t : Trace} (inTable : t.InTable)
      (size : t.size = some n) (kept : memory.length = length) (fits : n ≤ room) :
      Follows room length (.ok ⟨.success, memory, n⟩) t
  | illFormed {memory : List UInt8} {p : Nat} {t : Trace} (inTable : t.InTable)
      (size : t.size = none) (kept : memory.length = length) :
      Follows room length (.ok ⟨.badCompressionBuffer, memory, p⟩) t
  | leaves {t : Trace} (overrun : ¬ t.InTable) : Follows room length (.error (.formatIndex 9)) t

variable {run : Except Fault Decoded}

theorem Follows.startedAt {room length : Nat} (follows : Follows room length run t)
    (near : p ≤ 4096) : Follows room length run (t.startedAt p) := by
  cases follows with
  | expands inTable size kept fits =>
    exact .expands (Trace.inTable_startedAt.mpr ⟨near, inTable⟩) size kept fits
  | illFormed inTable size kept =>
    exact .illFormed (Trace.inTable_startedAt.mpr ⟨near, inTable⟩) size kept
  | leaves overrun => exact .leaves fun h => overrun (Trace.inTable_startedAt.mp h).2

section Chunk

variable {c : List UInt8} {start endU endC : Nat}

/-- The pointers of the chunk decoder are inside the two buffers. -/
structure Inside (c : List UInt8) (start endU endC : Nat) (s : ChunkState) : Prop where
  low : start ≤ s.outputPointer
  high : s.outputPointer ≤ endU
  room : endU ≤ s.memory.length
  input : s.inputPointer ≤ endC
  compressed : endC ≤ c.length
  bit : s.flagBit < 8
  behind : s.format ≤ formatAt (s.outputPointer - start)

/-- What is left of the chunk. -/
def left (c : List UInt8) (endC p : Nat) : List UInt8 :=
  (c.take endC).drop p

theorem left_cons (inside : p < endC) (compressed : endC ≤ c.length) :
    ∃ byte, (c)[p]? = some byte ∧ left c endC p = byte :: left c endC (p + 1) := by
  have bound : p < (c.take endC).length := by rw [length_take]; omega
  refine ⟨(c.take endC)[p], ?_, drop_eq_getElem_cons bound⟩
  rw [← getElem?_take_of_lt inside, getElem?_eq_getElem bound]

theorem left_nil (past : endC ≤ p) : left c endC p = [] :=
  drop_eq_nil_of_le (by rw [length_take]; omega)

variable {memory : List UInt8}

theorem read_separate {byte : UInt8} (found : (c)[p]? = some byte) :
    (Source.separate c).read memory p = .ok byte :=
  readOr_eq_ok.mpr found

def traceOf (c : List UInt8) (start endU endC : Nat) (s : ChunkState) : Trace :=
  walk (endU - start) s.flagByte.toNat s.flagBit (s.outputPointer - start)
    (left c endC s.inputPointer)

variable {s : ChunkState}

/-- The flag bit moves on as the walk counts it. -/
theorem nextFlag_walk (inv : Inside c start endU endC s) :
    (∃ s', nextFlag (.separate c) endC s = .ok (.next s') ∧ Inside c start endU endC s' ∧
        s'.memory.length = s.memory.length ∧
        traceOf c start endU endC s' = walk (endU - start) s.flagByte.toNat (s.flagBit + 1)
          (s.outputPointer - start) (left c endC s.inputPointer)) ∨
    (∃ s', nextFlag (.separate c) endC s = .ok (.exit s') ∧ s'.memory = s.memory ∧
        s'.outputPointer = s.outputPointer ∧ endC ≤ s.inputPointer) := by
  have bit := inv.bit
  unfold nextFlag
  by_cases wrap : (s.flagBit + 1) % 8 = 0
  · have eight : s.flagBit + 1 = 8 := by omega
    rw [if_pos wrap]
    by_cases past : endC ≤ s.inputPointer
    · rw [if_pos past]
      exact .inr ⟨_, rfl, rfl, rfl, past⟩
    · rw [if_neg past]
      obtain ⟨byte, found, shape⟩ := left_cons (by omega : s.inputPointer < endC) inv.compressed
      rw [read_separate found]
      refine .inl ⟨_, rfl, ⟨inv.low, inv.high, inv.room, by simp only; omega, inv.compressed,
        by simp only [wrap]; decide, inv.behind⟩, rfl, ?_⟩
      rw [shape, eight, walk_flag]
      simp only [traceOf]
  · rw [if_neg wrap]
    have same : (s.flagBit + 1) % 8 = s.flagBit + 1 := by omega
    exact .inl ⟨_, rfl, ⟨inv.low, inv.high, inv.room, inv.input, inv.compressed,
      by simp only; omega, inv.behind⟩, rfl, by simp only [traceOf, same]⟩

/-- How a pass of the decoder loop relates to the trace of its state. -/
inductive Pass (c : List UInt8) (start endU endC : Nat) (s : ChunkState) :
    Except Fault ChunkStep → Prop where
  | next {s' : ChunkState} (near : s.outputPointer - start ≤ 4096)
      (inv : Inside c start endU endC s') (length : s'.memory.length = s.memory.length)
      (trace : traceOf c start endU endC s =
        (traceOf c start endU endC s').startedAt (s.outputPointer - start)) :
      Pass c start endU endC s (.ok (.next s'))
  | exit {s' : ChunkState} (near : s.outputPointer - start ≤ 4096)
      (length : s'.memory.length = s.memory.length) (low : start ≤ s'.outputPointer)
      (high : s'.outputPointer ≤ endU)
      (trace : traceOf c start endU endC s =
        ⟨[s.outputPointer - start], some (s'.outputPointer - start)⟩) :
      Pass c start endU endC s (.ok (.exit s'))
  | bad {memory : List UInt8} {p : Nat} (near : s.outputPointer - start ≤ 4096)
      (length : memory.length = s.memory.length)
      (trace : traceOf c start endU endC s = ⟨[s.outputPointer - start], none⟩) :
      Pass c start endU endC s (.ok (.bad memory p))
  | overrun (far : 4096 < s.outputPointer - start)
      (trace : ¬ (traceOf c start endU endC s).InTable) :
      Pass c start endU endC s (.error (.formatIndex 9))

theorem Pass.of_format {format : Nat} {r : Except Fault ChunkStep}
    (pass : Pass c start endU endC { s with format } r) : Pass c start endU endC s r := by
  cases pass with
  | next near inv length trace => exact .next near inv length trace
  | exit near length low high trace => exact .exit near length low high trace
  | bad near length trace => exact .bad near length trace
  | overrun far trace => exact .overrun far trace

/-- A pass that has decoded its token ends with the flag bit. -/
theorem pass_nextFlag {s' : ChunkState} (near : s.outputPointer - start ≤ 4096)
    (inv : Inside c start endU endC s') (length : s'.memory.length = s.memory.length)
    (trace : traceOf c start endU endC s =
      (walk (endU - start) s'.flagByte.toNat (s'.flagBit + 1) (s'.outputPointer - start)
        (left c endC s'.inputPointer)).startedAt (s.outputPointer - start)) :
    Pass c start endU endC s (nextFlag (.separate c) endC s') := by
  rcases nextFlag_walk inv with ⟨s2, run, inv2, length2, trace2⟩ | ⟨s2, run, memory, output, past⟩
  · rw [run]
    exact .next near inv2 (length2.trans length) (by rw [trace, trace2])
  · rw [run]
    refine .exit near (by rw [memory, length]) (by rw [output]; exact inv.low)
      (by rw [output]; exact inv.high) ?_
    rw [trace, left_nil past, output]
    rfl

section Passes

variable (inv : Inside c start endU endC s) (more : s.outputPointer < endU)
  (input : s.inputPointer < endC)

include inv more input

theorem pass_literal (near : s.outputPointer - start ≤ 4096)
    (literal : s.flagByte.toNat.testBit s.flagBit = false)
    (format : s.format = formatAt (s.outputPointer - start)) :
    Pass c start endU endC s (decompressLiteral (.separate c) endC s) := by
  obtain ⟨byte, found, shape⟩ := left_cons input inv.compressed
  have room := inv.room
  have low := inv.low
  unfold decompressLiteral
  rw [read_separate found]
  simp only [bind, Except.bind]
  rw [writeOr_of_lt (by omega)]
  refine pass_nextFlag near ⟨by simp only; omega, by simp only; omega,
    by simp only [length_set]; exact room, by simp only; omega, inv.compressed, inv.bit,
    ?_⟩ (by simp only [length_set]) ?_
  · simp only [format]
    exact formatAt_mono (by omega)
  · rw [traceOf, shape, walk_literal inv.bit (by omega) literal]
    rw [show s.outputPointer + 1 - start = s.outputPointer - start + 1 by omega]

theorem pass_copy (near : s.outputPointer - start ≤ 4096)
    (copy : s.flagByte.toNat.testBit s.flagBit)
    (format : s.format = formatAt (s.outputPointer - start)) :
    Pass c start endU endC s (decompressCopy (.separate c) start endU endC s) := by
  obtain ⟨byte, found, shape⟩ := left_cons input inv.compressed
  have room := inv.room
  have low := inv.low
  unfold decompressCopy
  by_cases cut : endC ≤ s.inputPointer + 1
  · rw [if_pos cut]
    exact .bad near rfl (by
      rw [traceOf, shape, left_nil cut, walk_truncated inv.bit (by omega) copy])
  · rw [if_neg cut]
    obtain ⟨byte', found', shape'⟩ :=
      left_cons (by omega : s.inputPointer + 1 < endC) inv.compressed
    have trace : traceOf c start endU endC s =
        walk (endU - start) s.flagByte.toNat s.flagBit (s.outputPointer - start)
          (byte :: byte' :: left c endC (s.inputPointer + 2)) := by
      rw [traceOf, shape, shape']
    rw [walk_copy inv.bit (by omega) copy] at trace
    simp only [Source.readUshort, read_separate found, read_separate found', bind, Except.bind,
      pure, Except.pure, format]
    split
    · next back =>
      rw [if_pos back] at trace
      exact .bad near rfl trace
    · next back =>
      rw [if_neg back] at trace
      -- the length is cut off at the end of the output, in the code by a comparison
      have cutoff : ∀ l : Nat, (if endU ≤ s.outputPointer + l then endU - s.outputPointer else l) =
          min l (endU - start - (s.outputPointer - start)) := by
        intro l
        split <;> omega
      rw [cutoff]
      obtain ⟨memory, copied, length⟩ :=
        @copyForward_ok _ _ Fault.readUncompressed Fault.writeUncompressed
          (getLznt1Displacement (formatAt (s.outputPointer - start)) (ushortOf byte byte'))
          (Nat.le_add_left 1 _)
          (min (getLznt1Length (formatAt (s.outputPointer - start)) (ushortOf byte byte'))
            (endU - start - (s.outputPointer - start))) s.outputPointer s.memory (by omega) (by omega)
      rw [copied]
      refine pass_nextFlag near ⟨by simp only; omega, by simp only; omega,
        by simp only [length]; exact room, by simp only; omega, inv.compressed, inv.bit, ?_⟩
        length ?_
      · exact formatAt_mono (by simp only; omega)
      · rw [trace]
        simp only
        congr 2
        omega

/-- **One pass of the decoder loop on arbitrary input.** -/
theorem decompressStep_pass :
    Pass c start endU endC s (decompressStep (.separate c) start endU endC s) := by
  unfold decompressStep
  by_cases near : s.outputPointer - start ≤ 4096
  · rw [advanceFormat_eq near inv.behind]
    simp only [bind, Except.bind]
    have inv' : Inside c start endU endC { s with format := formatAt (s.outputPointer - start) } :=
      { inv with behind := le_rfl }
    split
    · next copy => exact (pass_copy inv' more input near copy rfl).of_format
    · next literal =>
      exact (pass_literal inv' more input near (by simpa using literal) rfl).of_format
  · have far : 4096 < s.outputPointer - start := by omega
    have bound : s.format ≤ 9 := Nat.le_trans inv.behind (formatAt_of_gt far).le
    rw [advanceFormat_of_gt far bound]
    obtain ⟨byte, -, shape⟩ := left_cons input inv.compressed
    refine .overrun far fun inTable => ?_
    have decoded : s.outputPointer - start ∈ (traceOf c start endU endC s).starts := by
      rw [traceOf, shape]
      exact walk_starts inv.bit (by omega)
    exact absurd (inTable _ decoded) (by omega)

end Passes

/-- **The decoder loop follows the trace from any state inside the buffers.** -/
theorem decompressLoop_follows {s : ChunkState} (inv : Inside c start endU endC s) :
    Follows (endU - start) s.memory.length (decompressLoop (.separate c) start endU endC s)
      (traceOf c start endU endC s) := by
  have high := inv.high
  rw [decompressLoop]
  by_cases going : s.outputPointer < endU ∧ s.inputPointer < endC
  · rw [if_pos going]
    have pass := decompressStep_pass inv going.1 going.2
    split
    · next fault run =>
      rw [run] at pass
      cases pass with
      | overrun far trace => exact .leaves trace
    · next memory p run =>
      rw [run] at pass
      cases pass with
      | bad near length trace =>
        rw [trace]
        exact .illFormed (Trace.inTable_singleton.mpr near) rfl length
    · next s' run =>
      rw [run] at pass
      cases pass with
      | exit near length low' high' trace =>
        rw [trace]
        exact .expands (Trace.inTable_singleton.mpr near) rfl length (by omega)
    · next s' run =>
      have progress := decompressStep_next run
      rw [run] at pass
      cases pass with
      | next near inv' length trace =>
        rw [trace, ← length]
        exact (decompressLoop_follows inv').startedAt near
  · rw [if_neg going]
    have done : traceOf c start endU endC s = ⟨[], some (s.outputPointer - start)⟩ := by
      rw [traceOf]
      rcases Nat.lt_or_ge s.outputPointer endU with more | full
      · rw [left_nil (by omega)]
        rfl
      · exact walk_full inv.bit (by omega) _
    rw [done]
    exact .expands (forall_mem_nil _) rfl rfl (by omega)
termination_by endC - s.inputPointer

def chunkTrace (room : Nat) (body : List UInt8) : Trace :=
  walk room 0 8 0 body

theorem lznt1DecompressChunk_follows {cb : Nat} (fit : start ≤ endU) (room : endU ≤ memory.length)
    (some : cb < endC) (compressed : endC ≤ c.length) :
    Follows (endU - start) memory.length
      (lznt1DecompressChunk (.separate c) memory start endU cb endC)
      (chunkTrace (endU - start) (left c endC cb)) := by
  obtain ⟨byte, found, shape⟩ := left_cons some compressed
  have inv : Inside c start endU endC
      { memory, outputPointer := start, inputPointer := cb + 1, flagByte := byte, flagBit := 0,
        format := 0 } :=
    ⟨le_rfl, fit, room, some, compressed, Nat.zero_lt_succ 7, Nat.zero_le _⟩
  unfold lznt1DecompressChunk
  rw [read_separate found, chunkTrace, shape, walk_flag]
  have follows := decompressLoop_follows inv
  rw [traceOf, Nat.sub_self] at follows
  exact follows

/-! ## A whole buffer -/

/-- The header at an offset of the compressed bytes. -/
def headerAt (c : List UInt8) (p : Nat) : Nat :=
  ushortOf (c.getD p 0) (c.getD (p + 1) 0)

/-- The trace of the chunk at offset `cc`, with `n - pos` bytes of output left. -/
def traceAt (c : List UInt8) (n pos cc : Nat) : Trace :=
  if isChunkCompressed (headerAt c cc) then
    chunkTrace (n - pos) (left c (cc + getCompressedChunkSize (headerAt c cc)) (cc + 2))
  else ⟨[], if c.length < cc + 2 + min 4096 (n - pos) then none else some (min 4096 (n - pos))⟩

/-- The offsets from the start of its chunk at which a token is decoded, for all
chunks from offset `cc` on; the chunk at `cc` expands at `pos` of the output. -/
def streamStarts (c : List UInt8) (n pos cc : Nat) : List Nat :=
  if c.length < cc + getCompressedChunkSize (headerAt c cc) then []
  else
    (traceAt c n pos cc).starts ++ match (traceAt c n pos cc).size with
      | none => []
      | some m =>
        if n ≤ pos + max m 4096 ∨ c.length < cc + getCompressedChunkSize (headerAt c cc) + 2 ∨
            headerAt c (cc + getCompressedChunkSize (headerAt c cc)) = 0 then []
        else
          streamStarts c n (pos + max m 4096) (cc + getCompressedChunkSize (headerAt c cc))
termination_by c.length - cc
decreasing_by
  unfold getCompressedChunkSize at *
  omega

/-- The run returns, or leaves the table because a token starts too far out. -/
inductive Ends (n : Nat) : Except Fault Decoded → List Nat → Prop where
  | returns {d : Decoded} {starts : List Nat} (inTable : ∀ q ∈ starts, q ≤ 4096)
      (size : d.status = .success → d.size ≤ n) : Ends n (.ok d) starts
  | leaves {starts : List Nat} (overrun : ¬ ∀ q ∈ starts, q ≤ 4096) :
      Ends n (.error (.formatIndex 9)) starts

variable {n : Nat} {starts : List Nat}

theorem Ends.iff (ends : Ends n run starts) :
    (∃ d, run = .ok d ∧ (d.status = .success → d.size ≤ n)) ↔ ∀ q ∈ starts, q ≤ 4096 := by
  cases ends with
  | returns inTable size => exact ⟨fun _ => inTable, fun _ => ⟨_, rfl, size⟩⟩
  | leaves overrun => exact ⟨fun ⟨_, h, _⟩ => (nomatch h), fun h => absurd h overrun⟩

theorem Ends.fault (ends : Ends n run starts) (overrun : ¬ ∀ q ∈ starts, q ≤ 4096) :
    run = .error (.formatIndex 9) := by
  cases ends with
  | returns inTable => exact absurd inTable overrun
  | leaves => rfl

theorem Ends.prepend {front : List Nat} (ends : Ends n run starts) (inTable : ∀ q ∈ front, q ≤ 4096) :
    Ends n run (front ++ starts) := by
  cases ends with
  | returns rest size => exact .returns (forall_mem_append.mpr ⟨inTable, rest⟩) size
  | leaves overrun => exact .leaves fun h => overrun (forall_mem_append.mp h).2

variable {n : Nat}

theorem readUshort_separate (inside : p + 2 ≤ c.length) :
    (Source.separate c).readUshort memory p = .ok (headerAt c p) := by
  have found : ∀ q, q < c.length → (c)[q]? = some (c.getD q 0) := fun q hq => by
    rw [getD_eq_getElem?_getD, getElem?_eq_getElem hq]
    rfl
  have first := found p (by omega)
  have second := found (p + 1) (by omega)
  simp only [Source.readUshort, read_separate first, read_separate second, bind, Except.bind, pure,
    Except.pure, headerAt]

theorem copyMemory_separate {target count : Nat} (inside : p + count ≤ c.length)
    (room : target + count ≤ memory.length) :
    ∃ memory', copyMemory (.separate c) memory target p count = .ok memory' ∧
      memory'.length = memory.length := by
  have width : ((c.drop p).take count).length = count := by
    rw [length_take, length_drop]
    omega
  have holds : (Source.separate c).Holds memory p ((c.drop p).take count) := by
    intro k byte found
    have bound := (List.getElem?_eq_some_iff.mp found).1
    rw [getElem?_take_of_lt (by omega), getElem?_drop] at found
    exact read_separate found
  have block := holds.readBlock
  rw [width] at block
  unfold copyMemory
  rw [block]
  simp only [bind, Except.bind, writeBlock, width]
  rw [if_pos room]
  exact ⟨_, rfl, blit_length (by omega)⟩

/-- The buffer loop's pointers are inside the two buffers. -/
structure InBuffers (c : List UInt8) (n : Nat) (s : BufferState) : Prop where
  output : s.uncompressedChunk ≤ n
  room : n ≤ s.memory.length
  input : s.compressedChunk + 2 ≤ c.length
  header : s.chunkHeader = headerAt c s.compressedChunk

theorem expandChunk_follows {s : BufferState} (inv : InBuffers c n s)
    (whole : s.compressedChunk + getCompressedChunkSize s.chunkHeader ≤ c.length) :
    Follows (n - s.uncompressedChunk) s.memory.length (expandChunk (.separate c) n c.length s)
      (traceAt c n s.uncompressedChunk s.compressedChunk) := by
  have output := inv.output
  have room := inv.room
  unfold expandChunk traceAt
  rw [← inv.header]
  split
  · exact lznt1DecompressChunk_follows output room (by unfold getCompressedChunkSize; omega) whole
  · have cut : (if n < s.uncompressedChunk + getUncompressedChunkSize s.chunkHeader then
        n - s.uncompressedChunk else getUncompressedChunkSize s.chunkHeader) =
        min 4096 (n - s.uncompressedChunk) := by
      rw [getUncompressedChunkSize_eq]
      split <;> omega
    have empty : ∀ size, (⟨[], size⟩ : Trace).InTable :=
      nofun
    simp only [cut]
    split
    · exact .illFormed (empty _) rfl rfl
    · next enough =>
      obtain ⟨memory, copied, length⟩ := copyMemory_separate
        (by omega : s.compressedChunk + 2 + min 4096 (n - s.uncompressedChunk) ≤ c.length)
        (by omega : s.uncompressedChunk + min 4096 (n - s.uncompressedChunk) ≤ s.memory.length)
      rw [copied]
      exact .expands (empty _) rfl length (by omega)

/-- What follows a chunk that expanded to `m` bytes. -/
theorem nextChunk_follows {s : BufferState} {m : Nat} (output : s.uncompressedChunk ≤ n)
    (room : n ≤ s.memory.length) (grown : m ≤ s.uncompressedChunk) :
    let place := s.uncompressedChunk - m + max m 4096
    let ended := n ≤ place ∨ c.length < s.compressedChunk + 2 ∨ headerAt c s.compressedChunk = 0
    (∃ s', nextChunk (.separate c) n c.length s m = .ok (.exit s') ∧
        s'.compressedChunk = s.compressedChunk ∧ s'.uncompressedChunk ≤ n ∧ ended) ∨
      ∃ s', nextChunk (.separate c) n c.length s m = .ok (.next s') ∧ InBuffers c n s' ∧
        s'.compressedChunk = s.compressedChunk ∧ s'.uncompressedChunk = place ∧ ¬ ended := by
  intro place ended
  unfold nextChunk
  -- the tests of the source, in its order
  by_cases full : s.uncompressedChunk = n
  · rw [if_pos full]
    exact .inl ⟨_, rfl, rfl, output, by omega⟩
  rw [if_neg full]
  by_cases short : c.length < s.compressedChunk + 2
  · rw [if_pos short]
    exact .inl ⟨_, rfl, rfl, output, .inr (.inl short)⟩
  rw [if_neg short]
  have saved := getUncompressedChunkSize_eq s.chunkHeader
  simp only [readUshort_separate (by omega : s.compressedChunk + 2 ≤ c.length), bind, Except.bind]
  by_cases terminator : headerAt c s.compressedChunk = 0
  · rw [if_pos terminator]
    exact .inl ⟨_, rfl, rfl, output, .inr (.inr terminator)⟩
  rw [if_neg terminator]
  by_cases fewer : m < getUncompressedChunkSize s.chunkHeader
  · rw [if_pos fewer]
    by_cases past : n ≤ s.uncompressedChunk + (getUncompressedChunkSize s.chunkHeader - m)
    · rw [if_pos past]
      exact .inl ⟨_, rfl, rfl, output, by omega⟩
    · rw [if_neg past]
      have fits : s.uncompressedChunk +
          (replicate (getUncompressedChunkSize s.chunkHeader - m) (0 : UInt8)).length ≤
          s.memory.length := by
        rw [length_replicate]
        omega
      simp only [zeroMemory, writeBlock, if_pos fits]
      refine .inr ⟨_, rfl, ⟨by simp only; omega, ?_, by simp only; omega, rfl⟩, rfl,
        by simp only; omega, by omega⟩
      rw [blit_length fits]
      exact room
  · rw [if_neg fewer]
    exact .inr ⟨_, rfl, ⟨output, room, by simp only; omega, rfl⟩, rfl, by simp only; omega,
      by omega⟩

/-- **The buffer loop follows the chunks' traces.** -/
theorem bufferLoop_ends {s : BufferState} (inv : InBuffers c n s) :
    Ends n (bufferLoop (.separate c) 0 n c.length s)
      (streamStarts c n s.uncompressedChunk s.compressedChunk) := by
  have output := inv.output
  rw [streamStarts, ← inv.header]
  by_cases cut : c.length < s.compressedChunk + getCompressedChunkSize s.chunkHeader
  · have step : bufferStep (.separate c) n c.length s =
        .ok (.fail .badCompressionBuffer s.memory s.compressedChunk) := by
      unfold bufferStep
      simp [if_pos cut]
    rw [if_pos cut, bufferLoop_fail step]
    exact .returns nofun nofun
  · have step := @bufferStep_whole (.separate c) n c.length s (by omega)
    have follows := expandChunk_follows inv (by omega)
    rw [if_neg cut]
    generalize expandChunk (.separate c) n c.length s = run at follows step
    -- the chunk leaves the table, is ill-formed, or is expanded
    cases follows with
    | leaves overrun =>
      rw [bufferLoop_fault step]
      exact .leaves fun h => overrun (forall_mem_append.mp h).1
    | illFormed inTable size =>
      rw [bufferLoop_fail step, size, append_nil]
      exact .returns inTable nofun
    | @expands memory m t inTable size kept =>
      have positive : 3 ≤ getCompressedChunkSize s.chunkHeader := Nat.le_add_left 3 _
      have back : s.uncompressedChunk + m - m = s.uncompressedChunk := Nat.add_sub_cancel _ _
      rw [size]
      simp only
      rcases @nextChunk_follows c n
        { s with
          memory
          compressedChunk := s.compressedChunk + getCompressedChunkSize s.chunkHeader
          uncompressedChunk := s.uncompressedChunk + m } m
        (by simp only; omega) (by simp only; rw [kept]; exact inv.room) (by simp only; omega)
        with ⟨s', next, same, bound, stop⟩ | ⟨s', next, inv', same, pos, go⟩
      · simp only [back] at stop same
        rw [bufferLoop_exit (step.trans next) (by omega)]
        rw [if_pos stop, append_nil]
        exact .returns inTable fun _ => by omega
      · rw [bufferLoop_next (step.trans next)]
        simp only [back] at go pos same
        have closer : c.length - s'.compressedChunk < c.length - s.compressedChunk := by omega
        rw [if_neg go]
        have rest := bufferLoop_ends inv'
        rw [pos, same] at rest
        exact rest.prepend inTable
termination_by c.length - s.compressedChunk

end Chunk

/-! ## Safety -/

/-- The run on `c` with an output buffer of any content follows `streamStarts`. -/
theorem rtlDecompressBufferLznt1_ends (c u : List UInt8) (two : 2 ≤ c.length) :
    Ends u.length (rtlDecompressBufferLznt1 (.separate c) u 0 u.length 0 c.length)
      (streamStarts c u.length 0 0) := by
  unfold rtlDecompressBufferLznt1
  rw [readUshort_separate (by omega)]
  simp only [bind, Except.bind, Nat.zero_add]
  exact @bufferLoop_ends c u.length ⟨u, headerAt c 0, 0, 0⟩ ⟨Nat.zero_le _, le_rfl, by omega, rfl⟩

/-- **Decoder safety, exactly.**  On any compressed buffer and any output buffer
the decoder stays inside its buffers and its tables and reports no more bytes
than there is room for, if and only if no token is decoded more than 4096 bytes
into the output of its chunk. -/
theorem rtlDecompressBufferLznt1_safe_iff (c u : List UInt8) (four : 4 ≤ c.length) :
    (∃ d, rtlDecompressBufferLznt1 (.separate c) u 0 u.length 0 c.length = .ok d ∧
        (d.status = .success → d.size ≤ u.length)) ↔
      ∀ q ∈ streamStarts c u.length 0 0, q ≤ 4096 :=
  (rtlDecompressBufferLznt1_ends c u (by omega)).iff

/-- A literal and a copy of 31 bytes. -/
theorem rtlDecompressBufferLznt1_safe_iff_copy : 4 ≤ [3, 176, 2, 7, 28, 0].length ∧
      streamStarts [3, 176, 2, 7, 28, 0] 32 0 0 = [0, 1] ∧
      ∃ d, rtlDecompressBufferLznt1 (.separate [3, 176, 2, 7, 28, 0]) (replicate 32 0) 0 32 0 6 =
        .ok d ∧ (d.status = .success → d.size ≤ 32) :=
  ⟨by decide, by decide +kernel,
    (rtlDecompressBufferLznt1_safe_iff [3, 176, 2, 7, 28, 0] (replicate 32 0) (by decide)).mpr
      (by decide +kernel)⟩

/-- One chunk of seven bytes: a literal, a copy of 4098 bytes from one back and
another literal.  The token after the copy is looked up past the table. -/
def overrunChunk : List UInt8 := [0x04, 0xB0, 0x02, 0x41, 0xFF, 0x0F, 0x42]

theorem rtlDecompressBufferLznt1_overrun : 4 ≤ overrunChunk.length ∧
      rtlDecompressBufferLznt1 (.separate overrunChunk) (replicate 8192 0) 0 8192 0 7 =
        .error (.formatIndex 9) := by
  refine ⟨by decide, ?_⟩
  have ends := rtlDecompressBufferLznt1_ends overrunChunk (replicate 8192 0) (by decide)
  have leaves : ¬ ∀ q ∈ streamStarts overrunChunk 8192 0 0, q ≤ 4096 := by decide +kernel
  rw [length_replicate] at ends
  exact ends.fault leaves

end Ntoskrnl.Rtl.Lznt1
