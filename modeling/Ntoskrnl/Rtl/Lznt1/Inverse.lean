/-
# Ntoskrnl.Rtl.Lznt1.Inverse -- the decoder inverts a stream

`lznt1DecompressChunk_body` and `rtlDecompressBufferLznt1_stream`: from a source of
its own the decoder ends in success with exactly the described bytes in place and
everything else of the memory unchanged.

A chunk that lies in the output memory itself may be overwritten while it is expanded.
It comes out right if the output never reaches what is still to be read (`Paced`):
before each token, and before the flag byte of each group.
-/
import Ntoskrnl.Rtl.Lznt1.Decompress

namespace Ntoskrnl.Rtl.Lznt1

open Base Lib.Checked Lib.Lz77 List

set_option autoImplicit false

/-! ## One chunk -/

variable {groups : List (List ByteToken)} {t : ByteToken}

section Chunk

variable {source : Source} {memory y : List UInt8} {start endU endC : Nat}

variable {s : ChunkState} {cb : Nat} {s' : ChunkState}

theorem decompressLoop_next (inside : s.outputPointer < endU ∧ s.inputPointer < endC)
    (run : decompressStep source start endU endC s = .ok (.next s')) :
    decompressLoop source start endU endC s = decompressLoop source start endU endC s' := by
  rw [decompressLoop, if_pos inside]
  split <;> simp_all

theorem decompressLoop_exit (inside : s.outputPointer < endU ∧ s.inputPointer < endC)
    (run : decompressStep source start endU endC s = .ok (.exit s')) :
    decompressLoop source start endU endC s =
      .ok ⟨.success, s'.memory, s'.outputPointer - start⟩ := by
  rw [decompressLoop, if_pos inside]
  split <;> simp_all

theorem decompressLoop_stop (outside : ¬ (s.outputPointer < endU ∧ s.inputPointer < endC)) :
    decompressLoop source start endU endC s =
      .ok ⟨.success, s.memory, s.outputPointer - start⟩ := by
  rw [decompressLoop, if_neg outside]

/-- The state after a token, before the flag bit moves on. -/
def InGroup.afterToken (memory y : List UInt8) (start : Nat) (s : ChunkState) (p : Nat)
    (t : ByteToken) : ChunkState :=
  { s with
    memory := blit memory start (y.take (p + t.length))
    outputPointer := start + (p + t.length)
    inputPointer := s.inputPointer + (tokenBytes p t).length
    format := formatAt p }

section Fits

variable {p : Nat} (room : start + y.length ≤ memory.length)
  (output : s.memory = blit memory start (y.take p)) (position : s.outputPointer = start + p)

include room output position

/-- A pass over a literal that fits. -/
theorem decompressLiteral_fits {byte : UInt8} (fits : Fits y p (.literal byte))
    (input : source.Holds s.memory s.inputPointer [byte]) :
    decompressLiteral source endC s =
      nextFlag source endC
        { s with
          memory := blit memory start (y.take (p + 1))
          outputPointer := start + (p + 1)
          inputPointer := s.inputPointer + 1 } := by
  obtain ⟨here, item⟩ := List.getElem?_eq_some_iff.mp fits
  have width : (y.take p).length = p := by simp; omega
  have stored : (blit memory start (y.take p)).set (start + p) byte =
      blit memory start (y.take (p + 1)) := by
    have grown := blit_snoc (m := memory) (i := start) (a := byte)
      (by omega : start + (y.take p).length < memory.length)
    rwa [width, ← item, ← take_succ_eq_append_getElem here, item] at grown
  unfold decompressLiteral
  rw [input.head]
  simp only [bind, Except.bind, output, position]
  rw [writeOr_of_lt (by rw [blit_length (by omega)]; omega)]
  simp only [stored, Nat.add_assoc]

/-- A pass over a copy token that fits. -/
theorem decompressCopy_fits {d l : Nat} (fit : start + y.length ≤ endU)
    (small : y.length ≤ 4096) (fits : Fits y p (.copy d l))
    (sized : Sized p (.copy d l)) (format : s.format = formatAt p)
    (input : source.Holds s.memory s.inputPointer (tokenBytes p (.copy d l)))
    (bound : s.inputPointer + 2 ≤ endC) :
    decompressCopy source start endU endC s =
      nextFlag source endC
        { s with
          memory := blit memory start (y.take (p + l))
          outputPointer := start + (p + l)
          inputPointer := s.inputPointer + 2 } := by
  have reach := fits.bound
  have positive := fits.1
  have back := fits.2.1
  simp only [Token.length] at reach
  have width : d ≤ 2 ^ (16 - lengthBits (formatAt p)) := by
    have near : p ≤ 4096 := by omega
    have last := formatAt_lt near
    have := le_of_formatAt near
    rw [lengthBits, if_pos (by omega), show 16 - (12 - formatAt p) = 4 + formatAt p by omega]
    omega
  have copied : copyForward Fault.readUncompressed Fault.writeUncompressed d l (start + p)
      (blit memory start (y.take p)) = .ok (blit memory start (y.take (p + l))) :=
    copyForward_fits l p (by omega) fits
  unfold decompressCopy
  rw [if_neg (by omega), input.readUshort (setLznt1_lt _ _ _)]
  simp only [bind, Except.bind, format, getLznt1Length_set d sized.1 sized.2,
    getLznt1Displacement_set l positive width]
  rw [if_neg (by omega)]
  have clip : (if endU ≤ s.outputPointer + l then endU - s.outputPointer else l) = l := by
    split <;> omega
  rw [clip, output, position, copied]
  simp only [Nat.add_assoc]

/-- **A pass over a token that fits** adds what the token stands for. -/
theorem decompressStep_fits (fit : start + y.length ≤ endU) (small : y.length ≤ 4096)
    (fits : Fits y p t) (sized : Sized p t) (flag : s.flagByte.toNat.testBit s.flagBit = t.isCopy)
    (behind : s.format ≤ formatAt p) (input : source.Holds s.memory s.inputPointer (tokenBytes p t))
    (bound : s.inputPointer + (tokenBytes p t).length ≤ endC) :
    decompressStep source start endU endC s =
      nextFlag source endC (InGroup.afterToken memory y start s p t) := by
  have inside := fits.bound
  unfold decompressStep
  rw [show s.outputPointer - start = p by omega, advanceFormat_eq (by omega) behind]
  simp only [bind, Except.bind]
  rw [flag]
  cases t with
  | literal => exact decompressLiteral_fits room output position fits input
  | copy =>
    exact decompressCopy_fits (s := { s with format := formatAt p }) room output position fit
      small fits sized rfl input bound

end Fits

/-- `behind p input` holds whenever the decoder has written `p` bytes and goes on to read at
`input`: before each token, and before the flag byte of each group. -/
def Paced (behind : Nat → Nat → Prop) : List ByteToken → List (List ByteToken) → Nat → Nat → Prop
  | [], [], _, _ => True
  | [], g :: gs, p, input => behind p input ∧ Paced behind g gs p (input + 1)
  | t :: ts, gs, p, input => behind p input ∧
      Paced behind ts gs (p + t.length) (input + (tokenBytes p t).length)
termination_by g gs => (gs.length, g.length)

theorem Paced.shift {behind behind' : Nat → Nat → Prop} {base : Nat}
    (weaker : ∀ p input, behind p input → behind' p (base + input)) (g : List ByteToken)
    (gs : List (List ByteToken)) (p input : Nat) (paced : Paced behind g gs p input) :
    Paced behind' g gs p (base + input) := by
  fun_induction Paced behind g gs p input with
  | case1 => simp only [Paced]
  | case2 g gs p input ih =>
    rw [Paced]
    exact ⟨weaker p input paced.1, ih paced.2⟩
  | case3 t ts gs p input ih =>
    rw [Paced]
    exact ⟨weaker p input paced.1, Nat.add_assoc .. ▸ ih paced.2⟩

theorem paced_of_forall {behind : Nat → Nat → Prop} (always : ∀ p input, behind p input)
    (g : List ByteToken) (gs : List (List ByteToken)) (p input : Nat) :
    Paced behind g gs p input := by
  fun_induction Paced behind g gs p input with
  | case1 => trivial
  | case2 g gs p input ih => exact ⟨always p input, ih⟩
  | case3 t ts gs p input ih => exact ⟨always p input, ih⟩

/-- The decoder is at position `p` of `y`, inside a group of which `g` is left,
with the groups `gs` to follow. -/
structure InGroup (source : Source) (memory y : List UInt8) (start endC : Nat)
    (g : List ByteToken) (gs : List (List ByteToken)) (s : ChunkState) (p : Nat) : Prop where
  output : s.memory = blit memory start (y.take p)
  position : s.outputPointer = start + p
  input : source.Holds memory s.inputPointer (tokensBytes p g ++ bodyBytes (p + tokensLength g) gs)
  paced : Paced (fun p input => source.Spares memory start (y.take p) input) g gs p s.inputPointer
  ends : s.inputPointer + (tokensBytes p g ++ bodyBytes (p + tokensLength g) gs).length = endC
  described : Describes y p (g ++ gs.flatten) y.length
  sized : AllSized p (g ++ gs.flatten)
  bit : s.flagBit < 8
  short : s.flagBit + g.length ≤ 8
  full : gs ≠ [] → s.flagBit + g.length = 8
  grouped : Grouped gs
  flags : s.flagByte.toNat / 2 ^ s.flagBit = flagsOf g
  behind : s.format ≤ formatAt p

namespace InGroup

variable {s : ChunkState} {p : Nat} {ts : List ByteToken} {gs : List (List ByteToken)}

section Token

variable (inv : InGroup source memory y start endC (t :: ts) gs s p)

include inv

theorem step (room : start + y.length ≤ memory.length) (fit : start + y.length ≤ endU)
    (small : y.length ≤ 4096) :
    decompressStep source start endU endC s =
      nextFlag source endC (afterToken memory y start s p t) := by
  have fits : Fits y p t := inv.described.1
  have inside := fits.bound
  have here := inv.input.spared (Paced.eq_3 .. ▸ inv.paced).1
  rw [← inv.output] at here
  have ends := inv.ends
  simp only [tokensBytes, append_assoc, length_append] at here ends
  exact decompressStep_fits room inv.output inv.position fit small fits inv.sized.1
    (testBit_flagsOf inv.flags) inv.behind here.left (by omega)

theorem afterToken_input : source.Holds memory (afterToken memory y start s p t).inputPointer
        (tokensBytes (p + t.length) ts ++ bodyBytes (p + t.length + tokensLength ts) gs) ∧
      (afterToken memory y start s p t).inputPointer + (tokensBytes (p + t.length) ts ++
          bodyBytes (p + t.length + tokensLength ts) gs).length = endC := by
  have input := inv.input
  have ends := inv.ends
  simp only [tokensBytes, tokensLength, append_assoc, ← Nat.add_assoc] at input ends
  refine ⟨input.right, ?_⟩
  simp only [length_append] at ends ⊢
  simp only [afterToken]
  omega

theorem afterToken_paced :
    Paced (fun p input => source.Spares memory start (y.take p) input) ts gs (p + t.length)
      (afterToken memory y start s p t).inputPointer :=
  (Paced.eq_3 .. ▸ inv.paced).2

/-- The next token is in the same group. -/
theorem same (more : s.flagBit + 1 < 8) : InGroup source memory y start endC ts gs
      { afterToken memory y start s p t with flagBit := s.flagBit + 1 } (p + t.length) where
  output := rfl
  position := rfl
  input := inv.afterToken_input.1
  paced := inv.afterToken_paced
  ends := inv.afterToken_input.2
  described := inv.described.2
  sized := inv.sized.2
  bit := more
  short := by have := inv.short; simp only [length_cons] at this; simp only; omega
  full := fun some => by have := inv.full some; simp only [length_cons] at this; simp only; omega
  grouped := inv.grouped
  flags := flags_next inv.flags
  behind := formatAt_mono (Nat.le_add_right _ _)

end Token

/-- The next token is in the next group. -/
theorem next {g : List ByteToken} (inv : InGroup source memory y start endC [t] (g :: gs) s p) :
    InGroup source memory y start endC g gs
      { afterToken memory y start s p t with
        flagByte := UInt8.ofNat (flagsOf g)
        flagBit := 0
        inputPointer := (afterToken memory y start s p t).inputPointer + 1 } (p + t.length) where
  output := rfl
  position := rfl
  input := inv.afterToken_input.1.tail
  paced := (Paced.eq_2 .. ▸ inv.afterToken_paced).2
  ends := by
    have ends := inv.afterToken_input.2
    simp only [tokensBytes, tokensLength, bodyBytes, groupBytes, nil_append, cons_append,
      Nat.add_zero, length_cons] at ends
    simp only
    omega
  described := by simpa using inv.described.2
  sized := by simpa using inv.sized.2
  bit := Nat.zero_lt_succ 7
  short := by simpa using (grouped_cons inv.grouped).1
  full := fun some => by simpa using (grouped_cons inv.grouped).2.1 some
  grouped := (grouped_cons inv.grouped).2.2
  flags := by
    rw [flagsOf_toNat (grouped_cons inv.grouped).1]
    exact Nat.div_one _
  behind := formatAt_mono (Nat.le_add_right _ _)

end InGroup

/-- **From anywhere inside a body the loop writes the rest of the chunk.** -/
theorem decompressLoop_inGroup (room : start + y.length ≤ memory.length)
    (fit : start + y.length ≤ endU) (small : y.length ≤ 4096) :
    ∀ (g : List ByteToken) (gs : List (List ByteToken)) (s : ChunkState) (p : Nat),
      InGroup source memory y start endC g gs s p →
      decompressLoop source start endU endC s = .ok ⟨.success, blit memory start y, y.length⟩
  | [], gs, s, p, inv => by
      have last : gs = [] := by
        by_contra some
        have := inv.full some
        have := inv.bit
        simp only [length_nil] at *
        omega
      subst last
      have ends : s.inputPointer = endC := by simpa [tokensBytes, bodyBytes] using inv.ends
      have done : p = y.length := inv.described
      rw [decompressLoop_stop (by omega), inv.output, inv.position, done, take_length,
        Nat.add_sub_cancel_left]
  | t :: ts, gs, s, p, inv => by
      have fits : Fits y p t := inv.described.1
      have inside := fits.bound
      have positive : 0 < t.length := by
        cases t with
        | literal => exact Nat.one_pos
        | copy => exact Nat.lt_of_lt_of_le (by decide) inv.sized.1.1
      have input : s.inputPointer < endC := by
        have := tokenBytes_length_pos p t
        have ends := inv.ends
        simp only [tokensBytes, length_append] at ends
        omega
      have going : s.outputPointer < endU ∧ s.inputPointer < endC :=
        ⟨by rw [inv.position]; omega, input⟩
      have step := inv.step room fit small
      let s' := InGroup.afterToken memory y start s p t
      by_cases more : s.flagBit + 1 < 8
      · have flag : nextFlag source endC s' = .ok (.next { s' with flagBit := s.flagBit + 1 }) := by
          simp only [nextFlag, s', InGroup.afterToken, Nat.mod_eq_of_lt more]
          rw [if_neg (by omega)]
        rw [decompressLoop_next going (step.trans flag)]
        exact decompressLoop_inGroup room fit small ts gs _ _ (inv.same more)
      · -- the eighth token: the group ends with it
        have wrap : (s.flagBit + 1) % 8 = 0 := by have := inv.bit; omega
        have last : ts = [] := by
          have := inv.short
          simp only [length_cons] at this
          exact length_eq_zero_iff.mp (by omega)
        subst last
        cases gs with
        | nil =>
          have ends := inv.afterToken_input.2
          simp only [tokensBytes, bodyBytes, append_nil, length_nil, Nat.add_zero] at ends
          have done : p + t.length = y.length := inv.described.2
          have flag : nextFlag source endC s' = .ok (.exit { s' with flagBit := 0 }) := by
            unfold nextFlag
            simp only [show s'.flagBit = s.flagBit from rfl, wrap, if_true]
            exact if_pos ends.ge
          rw [decompressLoop_exit going (step.trans flag)]
          simp [s', InGroup.afterToken, done, take_length]
        | cons g gs =>
          have ends := inv.afterToken_input.2
          have here := inv.afterToken_input.1.spared (Paced.eq_2 .. ▸ inv.afterToken_paced).1
          simp only [tokensBytes, tokensLength, bodyBytes, groupBytes, nil_append,
            cons_append, length_cons] at ends here
          change s'.inputPointer + _ = endC at ends
          have flag : nextFlag source endC s' = .ok (.next { s' with
              flagByte := UInt8.ofNat (flagsOf g)
              flagBit := 0
              inputPointer := s'.inputPointer + 1 }) := by
            unfold nextFlag
            simp only [show s'.flagBit = s.flagBit from rfl, wrap, if_true]
            rw [if_neg (by omega)]
            rw [show s'.memory = blit memory start (y.take (p + t.length)) from rfl, here.head]
            rfl
          rw [decompressLoop_next going (step.trans flag)]
          exact decompressLoop_inGroup room fit small g gs _ _ inv.next
termination_by g gs => (gs.length, g.length)

/-- The chunk decoder inverts a body. -/
theorem lznt1DecompressChunk_body (room : start + y.length ≤ memory.length)
    (fit : start + y.length ≤ endU) (small : y.length ≤ 4096) (some : y ≠ [])
    (spells : Spells y groups) (input : source.Holds memory cb (bodyBytes 0 groups))
    (paced : Paced (fun p input => source.Spares memory start (y.take p) input) [] groups 0 cb)
    (ends : cb + (bodyBytes 0 groups).length = endC) :
    lznt1DecompressChunk source memory start endU cb endC =
      .ok ⟨.success, blit memory start y, y.length⟩ := by
  cases groups with
  | nil => exact absurd (length_eq_zero_iff.mp spells.described.symm) some
  | cons g gs =>
    obtain ⟨short, full, rest⟩ := grouped_cons spells.grouped
    simp only [bodyBytes, groupBytes, cons_append, Nat.zero_add, length_cons] at input ends
    unfold lznt1DecompressChunk
    rw [input.head]
    refine decompressLoop_inGroup room fit small g gs _ 0
      { output := by simp only [take_zero, blit_nil]
        position := rfl
        input := ?_
        paced := (Paced.eq_2 .. ▸ paced).2
        ends := ?_
        described := by simpa using spells.described
        sized := by simpa using spells.sized
        bit := Nat.zero_lt_succ 7
        short := by simpa using short
        full := fun h => by simpa using full h
        grouped := rest
        flags := by simpa [Nat.div_one] using flagsOf_toNat short
        behind := Nat.zero_le _ }
    · rw [Nat.zero_add]
      exact input.tail
    · simp only [Nat.zero_add]
      omega

/-! ## A whole buffer -/

variable {s : BufferState} {c x : List UInt8}

theorem expandChunk_compressed (spells : Spells y groups) (some : y ≠ []) (short : y.length ≤ 4096)
    (header : source.readUshort s.memory s.compressedChunk = .ok s.chunkHeader)
    (input : source.Holds s.memory s.compressedChunk
      (ushortBytes (setCompressedChunkHeader (2 + (bodyBytes 0 groups).length) true) ++
        bodyBytes 0 groups))
    (paced : Paced (fun p input => source.Spares s.memory s.uncompressedChunk (y.take p) input) []
      groups 0 (s.compressedChunk + 2)) (fit : s.uncompressedChunk + y.length ≤ endU)
    (room : endU ≤ s.memory.length) :
    getCompressedChunkSize s.chunkHeader = 2 + (bodyBytes 0 groups).length ∧
      expandChunk source endU endC s =
        .ok ⟨.success, blit s.memory s.uncompressedChunk y, y.length⟩ := by
  rw [input.left.readUshort (setCompressedChunkHeader_lt ..)] at header
  obtain header := (Except.ok.inj header).symm
  have width : getCompressedChunkSize s.chunkHeader = 2 + (bodyBytes 0 groups).length := by
    rw [header]
    have small := spells.small
    have := ((ChunkImage.compressed groups spells).header some).1
    simp only [length_append, ushortBytes_length] at this
    exact getCompressedChunkSize_set true (by omega) (by omega)
  refine ⟨width, ?_⟩
  rw [expandChunk, header, isChunkCompressed_set, ← header]
  exact lznt1DecompressChunk_body (by omega) fit short some spells input.right paced
    (by rw [width]; exact Nat.add_assoc ..)

variable {full : List UInt8}

theorem paced_separate (groups : List (List ByteToken)) (p cb : Nat) :
    Paced (fun p input => (Source.separate full).Spares memory start (y.take p) input) [] groups p
      cb :=
  paced_of_forall (fun _ _ _ _ => rfl) _ _ _ _

/-- **One chunk of a stream is expanded to what it stands for.**  A chunk of
less than 4096 bytes has to be the last of the output. -/
theorem expandChunk_image (image : ChunkImage y c) (some : y ≠ []) (short : y.length ≤ 4096)
    (header : (Source.separate full).readUshort s.memory s.compressedChunk = .ok s.chunkHeader)
    (placed : At full s.compressedChunk c)
    (fit : s.uncompressedChunk + y.length ≤ endU) (room : endU ≤ s.memory.length)
    (last : y.length < 4096 → s.uncompressedChunk + y.length = endU)
    (ends : s.compressedChunk + c.length ≤ endC) :
    getCompressedChunkSize s.chunkHeader = c.length ∧ expandChunk (.separate full) endU endC s =
        .ok ⟨.success, blit s.memory s.uncompressedChunk y, y.length⟩ := by
  have input : (Source.separate full).Holds s.memory s.compressedChunk c :=
    Source.holds_separate placed
  cases image with
  | compressed groups spells =>
    rw [length_append, ushortBytes_length]
    exact expandChunk_compressed spells some short header input (paced_separate groups 0 _) fit room
  | stored data whole front =>
    rw [input.left.readUshort (setCompressedChunkHeader_lt 4098 false)] at header
    obtain header := (Except.ok.inj header).symm
    have width : getCompressedChunkSize s.chunkHeader = 4098 := by
      rw [header]
      exact getCompressedChunkSize_set false (by decide) (by decide)
    simp only [length_append, ushortBytes_length, whole] at ends
    refine ⟨by simp [width, ushortBytes_length, whole], ?_⟩
    -- a stored chunk is cut off at the end of the output
    have cut : (if endU < s.uncompressedChunk + getUncompressedChunkSize s.chunkHeader then
        endU - s.uncompressedChunk else getUncompressedChunkSize s.chunkHeader) = y.length := by
      rw [getUncompressedChunkSize_eq]
      split <;> omega
    have body := input.right
    rw [← take_append_drop y.length data, front, ushortBytes_length] at body
    unfold expandChunk
    rw [if_neg (by rw [header]; decide)]
    simp only [cut]
    rw [if_neg (by omega)]
    simp only [copyMemory, body.left.readBlock, bind, Except.bind, writeBlock]
    rw [if_pos (by omega)]
    rfl

/-- A pass over a chunk, up to the choice of what follows. -/
theorem bufferStep_image {size : Nat} (width : getCompressedChunkSize s.chunkHeader = size)
    (expanded : expandChunk source endU endC s = .ok ⟨.success, blit s.memory s.uncompressedChunk y, y.length⟩)
    (ends : s.compressedChunk + size ≤ endC) :
    bufferStep source endU endC s =
      nextChunk source endU endC
        { s with
          memory := blit s.memory s.uncompressedChunk y
          compressedChunk := s.compressedChunk + size
          uncompressedChunk := s.uncompressedChunk + y.length } y.length := by
  rw [bufferStep_whole (by omega), expanded]
  simp only [width]
  rfl

theorem bufferLoop_last {size : Nat} (width : getCompressedChunkSize s.chunkHeader = size)
    (expanded : expandChunk source endU endC s =
      .ok ⟨.success, blit s.memory s.uncompressedChunk y, y.length⟩)
    (fit : s.uncompressedChunk + y.length = endU) (ends : s.compressedChunk + size = endC) :
    bufferLoop source start endU endC s =
      .ok ⟨.success, blit s.memory s.uncompressedChunk y, endU - start⟩ := by
  have step := bufferStep_image width expanded (Nat.le_of_eq ends)
  rw [nextChunk, if_pos fit] at step
  rw [bufferLoop_exit step (Nat.le_of_eq ends), fit]

/-- **From any chunk on the loop writes the rest of the stream.** -/
theorem bufferLoop_stream (stream : Stream x c) : ∀ s : BufferState, start ≤ s.uncompressedChunk →
      (Source.separate full).readUshort s.memory s.compressedChunk = .ok s.chunkHeader →
      At full s.compressedChunk c →
      s.uncompressedChunk + x.length = endU → endU ≤ s.memory.length →
      s.compressedChunk + c.length = endC →
      bufferLoop (.separate full) start endU endC s =
        .ok ⟨.success, blit s.memory s.uncompressedChunk x, endU - start⟩ := by
  induction stream with
  | last some short image =>
    intro s _ header placed fit room ends
    obtain ⟨width, expanded⟩ := expandChunk_image image some short header placed
      (Nat.le_of_eq fit) room (fun _ => fit) (Nat.le_of_eq ends)
    exact bufferLoop_last width expanded fit ends
  | @more y c x rest full image tail ih =>
    intro s low header placed fit room ends
    have some : y ≠ [] := ne_nil_of_length_pos (by omega)
    rw [length_append] at fit ends
    obtain ⟨here, further⟩ := at_append.mp placed
    obtain ⟨width, expanded⟩ := expandChunk_image image some (Nat.le_of_eq full) header here
      (by omega) room (by omega) (by omega : s.compressedChunk + c.length ≤ endC)
    have step := bufferStep_image width expanded (by omega)
    obtain ⟨next, body, shape, bound, nonzero⟩ := tail.header
    have more : 0 < x.length := length_pos_iff.mpr tail.ne_nil
    have follow (memory : List UInt8) :
        (Source.separate _).readUshort memory (s.compressedChunk + c.length) = .ok next :=
      (Source.holds_separate (at_append.mp (shape ▸ further)).1).readUshort bound
    have two : 2 ≤ rest.length := by
      rw [shape, length_append, ushortBytes_length]
      omega
    rw [nextChunk, if_neg (by simp only; omega), if_neg (by simp only; omega)] at step
    simp only [follow, bind, Except.bind, if_neg nonzero, full, getUncompressedChunkSize_eq,
      Nat.lt_irrefl, if_false] at step
    rw [bufferLoop_next step, ih _ (by simp only; omega) (follow _) further
      (by simp only; omega) (by simp only; rw [blit_length (by omega)]; exact room)
      (by simp only; omega)]
    simp only [← full]
    rw [blit_blit (by omega)]

/-- **`RtlDecompressBufferLZNT1` inverts a stream.** -/
theorem rtlDecompressBufferLznt1_stream (stream : Stream x c)
    (room : start + x.length ≤ memory.length) (placed : At full cb c) :
    rtlDecompressBufferLznt1 (.separate full) memory start x.length cb c.length =
      .ok ⟨.success, blit memory start x, x.length⟩ := by
  obtain ⟨next, body, shape, bound, -⟩ := stream.header
  have header : (Source.separate full).readUshort memory cb = .ok next :=
    (Source.holds_separate (at_append.mp (shape ▸ placed)).1).readUshort bound
  have run : bufferLoop (.separate full) start (start + x.length) (cb + c.length)
      ⟨memory, next, cb, start⟩ = .ok ⟨.success, blit memory start x, start + x.length - start⟩ :=
    bufferLoop_stream stream _ (Nat.le_refl start) header placed rfl room rfl
  unfold rtlDecompressBufferLznt1
  rw [header]
  simp only [bind, Except.bind]
  rw [run, Nat.add_sub_cancel_left]

/-- A compressed chunk, with the output no more than `gap` bytes ahead of what is read whenever
more is to be read. -/
def Trails (gap : Nat) (y c : List UInt8) : Prop :=
  ∃ groups, Spells y groups ∧
    c = ushortBytes (setCompressedChunkHeader (2 + (bodyBytes 0 groups).length) true) ++
      bodyBytes 0 groups ∧ Paced (fun p input => p ≤ gap + input) [] groups 0 2

/-- **A chunk that lies `gap` bytes behind its own output** is expanded in place if the output
never comes up with what is still to be read. -/
theorem rtlDecompressBufferLznt1_inPlace {gap : Nat} (trails : Trails gap y c) (some : y ≠ [])
    (short : y.length ≤ 4096) (room : start + y.length ≤ memory.length)
    (placed : At memory (start + gap) c) :
    rtlDecompressBufferLznt1 .within memory start y.length (start + gap) c.length =
      .ok ⟨.success, blit memory start y, y.length⟩ := by
  obtain ⟨groups, spells, rfl, paced⟩ := trails
  have input := Source.holds_within placed
  have header := input.left.readUshort (setCompressedChunkHeader_lt ..)
  have paced' : Paced (fun p input => Source.within.Spares memory start (y.take p) input) [] groups
      0 (start + gap + 2) := by
    refine paced.shift (fun p input behind => Source.spares_within ?_ ?_) ..
    · rw [length_take]
      omega
    · rw [length_take]
      omega
  obtain ⟨width, expanded⟩ := expandChunk_compressed
    (s := ⟨memory, setCompressedChunkHeader (2 + (bodyBytes 0 groups).length) true, start + gap,
      start⟩) spells some short header input paced' le_rfl room
  unfold rtlDecompressBufferLznt1
  rw [header, length_append, ushortBytes_length]
  simp only [bind, Except.bind]
  rw [bufferLoop_last width expanded rfl rfl, Nat.add_sub_cancel_left]

end Chunk

end Ntoskrnl.Rtl.Lznt1
