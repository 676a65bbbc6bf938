/-
# Ntoskrnl.Rtl.Lznt1.Encode -- the encoders produce chunk images

`Emitted` is the invariant both encoder loops keep: the output holds the bytes
of some full groups and, after the byte reserved for the open group's flags, the
bytes of that group's tokens, and the tokens together describe the input read so
far.  Each emitting step extends it (`Emitted.literal`, `Emitted.copyToken`,
`Emitted.nextGroup`), whatever the match finder chose, and `finishChunk_compressed`
turns it into a `ChunkImage`.

`nullCharacter` collects the literals only; a copy repeats earlier bytes, so it
is zero exactly when all input so far is zero.
-/
import Ntoskrnl.Rtl.Lznt1.Compress

namespace Ntoskrnl.Rtl.Lznt1

open Base Lib.Checked Lib.Lz77 List

set_option autoImplicit false

/-- **The encoders' counter reaches the format of the position, and `MaxLength`
the entry of that format.** -/
theorem advanceLength_eq {position format : Nat} (small : position ≤ 4096)
    (behind : format ≤ formatAt position) :
    advanceLength position format (2 ^ lengthBits format + 2) =
      .ok (formatAt position, 2 ^ lengthBits (formatAt position) + 2) := by
  have last := formatAt_lt small
  have reach := le_of_formatAt small
  rw [advanceLength]
  split
  · next missing =>
    rw [formatMaxDisplacement_get (by omega)] at missing
    simp at missing
  · next d entry =>
    rw [formatMaxDisplacement_get (by omega)] at entry
    obtain rfl := Option.some.inj entry
    by_cases here : format = formatAt position
    · rw [← here] at reach ⊢
      rw [if_neg (by omega)]
    · obtain ⟨-, below⟩ := lt_formatAt (by omega : format < formatAt position)
      rw [if_pos below, formatMaxLength_get (by omega)]
      exact advanceLength_eq small (by omega)
termination_by 9 - format

/-! ## The emission invariant -/

/-- The cursor has emitted the full groups `gs` and the tokens `g` of the open
group, which describe the first `p` bytes of `y`; nothing below `base` changed. -/
structure Emitted (y out : List UInt8) (start base p : Nat) (gs : List (List ByteToken))
    (g : List ByteToken) (c : Cursor) : Prop where
  input : c.inputPointer = start + p
  full : ∀ h ∈ gs, h.length = 8
  described : Describes y 0 (gs.flatten ++ g) p
  sized : AllSized 0 (gs.flatten ++ g)
  flagAt : c.flagPointer = base + 2 + (bodyBytes 0 gs).length
  outputAt : c.outputPointer = c.flagPointer + 1 + (tokensBytes (tokensLength gs.flatten) g).length
  groups : At c.out (base + 2) (bodyBytes 0 gs)
  tokens : At c.out (c.flagPointer + 1) (tokensBytes (tokensLength gs.flatten) g)
  flags : c.flagByte = flagsOf g
  zero : c.nullCharacter = 0 ↔ ∀ k, k < p → y[k]? = some 0
  length : c.out.length = out.length
  frame : ∀ j, j < base → c.out[j]? = out[j]?

/-- What the steps do to the fields the invariant leaves open. -/
def Kept (c c' : Cursor) : Prop :=
  c'.flagBit = c.flagBit ∧ c'.flagPointer = c.flagPointer

variable {d l p : Nat} {m out : List UInt8}

theorem putByte_ok {out' : List UInt8} {byte : UInt8} (run : putByte out p byte = .ok out') :
    p < out.length ∧ out' = out.set p byte :=
  writeOr_eq_ok.mp run

variable {y : List UInt8}

/-- A copy of zeros is zeros, and the bytes it copies come before it. -/
theorem zeros_copy (fits : Fits y p (.copy d l)) :
    (∀ k, k < p → y[k]? = some 0) ↔ ∀ k, k < p + l → y[k]? = some 0 := by
  obtain ⟨positive, back, -, agree⟩ := fits
  refine ⟨fun zeros k => ?_, fun zeros k hk => zeros k (by omega)⟩
  induction k using Nat.strong_induction_on with
  | _ k ih =>
    intro hk
    rcases Nat.lt_or_ge k p with early | late
    · exact zeros k early
    · have same := agree (k - p) (by omega)
      rw [show p + (k - p) = k by omega] at same
      rw [same]
      exact ih (k - d) (by omega) (by omega)

variable {gs : List (List ByteToken)} {memory : List UInt8} {g : List ByteToken}

namespace Emitted

variable {start base : Nat} {c c' : Cursor}

theorem start_cursor (out : List UInt8) (start base : Nat) :
    Emitted y out start base 0 [] [] (Cursor.start out start base) where
  input := rfl
  full := nofun
  described := rfl
  sized := trivial
  flagAt := rfl
  outputAt := rfl
  groups := at_nil _ _
  tokens := at_nil _ _
  flags := rfl
  zero := by simp [Cursor.start]
  length := rfl
  frame := fun _ _ => rfl

variable (inv : Emitted y out start base p gs g c)

include inv

theorem nextBit : Emitted y out start base p gs g c.nextBit :=
  { inv with }

theorem position : tokensLength gs.flatten + tokensLength g = p := by
  have := describes_end inv.described
  rw [tokensLength_append] at this
  omega

/-- Clearing the open bit changes nothing: it was never set. -/
theorem clearFlag (bit : c.flagBit = g.length) (short : g.length < 8) : c.clearFlag = c := by
  have bound := flagsOf_lt g
  have same : c.flagByte &&& (0xff ^^^ 1 <<< c.flagBit) = c.flagByte := by
    rw [inv.flags]
    apply Nat.eq_of_testBit_eq
    intro i
    rw [Nat.testBit_and, Nat.testBit_xor, Nat.one_shiftLeft, Nat.testBit_two_pow]
    rcases Nat.lt_or_ge i g.length with low | high
    · have mask : Nat.testBit 0xff i := by
        rw [show 0xff = 2 ^ 8 - 1 by rfl, Nat.testBit_two_pow_sub_one]
        exact decide_eq_true (by omega)
      rw [mask, decide_eq_false (by omega)]
      simp
    · rw [Nat.testBit_lt_two_pow (Nat.lt_of_lt_of_le bound (Nat.pow_le_pow_right (by decide) high))]
      rfl
  simp only [Cursor.clearFlag] at *
  simp [same]

omit inv in
/-- **A literal extends the open group.** -/
theorem literal (placed : At memory start y) (inv : Emitted y out start base p gs g c)
    (more : p < y.length) (run : c.literal memory = .ok c') :
    ∃ byte, Emitted y out start base (p + 1) gs (g ++ [.literal byte]) c' ∧ Kept c c' ∧
      c'.outputPointer = c.outputPointer + 1 := by
  obtain ⟨byte, read, run⟩ := bind_eq_ok.mp run
  obtain ⟨stored, write, run⟩ := bind_eq_ok.mp run
  obtain rfl := pure_eq_ok.mp run
  obtain ⟨room, rfl⟩ := putByte_ok write
  have item : y[p]? = some byte := by
    rw [← placed p more, ← inv.input]
    exact readOr_eq_ok.mp read
  refine ⟨byte, ?_, ⟨rfl, rfl⟩, rfl⟩
  have bytes : tokensBytes (tokensLength gs.flatten) (g ++ [.literal byte]) =
      tokensBytes (tokensLength gs.flatten) g ++ [byte] := by
    rw [tokensBytes_append]
    rfl
  refine
    { input := by simp only [inv.input, Nat.add_assoc]
      full := inv.full
      described := by
        rw [← append_assoc]
        exact inv.described.snoc item
      sized := by
        rw [← append_assoc, allSized_append]
        exact ⟨inv.sized, trivial, trivial⟩
      flagAt := inv.flagAt
      outputAt := by
        rw [bytes, length_append, length_singleton, ← Nat.add_assoc, ← inv.outputAt]
      groups := inv.groups.set_outside (.inr (by rw [inv.outputAt, inv.flagAt]; omega))
      tokens := by
        rw [bytes, inv.outputAt]
        exact inv.tokens.snoc (by rw [← inv.outputAt]; exact room)
      flags := by
        rw [flagsOf_snoc]
        simpa [Token.isCopy] using inv.flags
      zero := ?_
      length := by rw [length_set, inv.length]
      frame := fun j hj => by
        rw [getElem?_set_ne (by rw [inv.outputAt, inv.flagAt]; omega), inv.frame j hj] }
  -- the OR of the bytes is zero as long as they all are
  simp only [UInt8.or_eq_zero_iff, inv.zero]
  constructor
  · rintro ⟨zeros, rfl⟩ k hk
    rcases Nat.lt_succ_iff_lt_or_eq.mp hk with earlier | rfl
    · exact zeros k earlier
    · exact item
  · intro zeros
    refine ⟨fun k hk => zeros k (by omega), ?_⟩
    exact Option.some.inj (item.symm.trans (zeros p (Nat.lt_succ_self p)))

/-- **A copy token that fits extends the open group.** -/
theorem copyToken (fits : Fits y p (.copy d l)) (sized : Sized p (.copy d l))
    (bit : c.flagBit = g.length) (run : c.copyToken (setLznt1 (formatAt p) l d) l = .ok c') :
    Emitted y out start base (p + l) gs (g ++ [.copy d l]) c' ∧ Kept c c' ∧
      c'.outputPointer = c.outputPointer + 2 := by
  obtain ⟨stored, first, run⟩ := bind_eq_ok.mp run
  obtain ⟨stored', second, run⟩ := bind_eq_ok.mp run
  obtain rfl := pure_eq_ok.mp run
  obtain ⟨room, rfl⟩ := putByte_ok first
  obtain ⟨room', rfl⟩ := putByte_ok second
  rw [length_set] at room'
  have position := inv.position
  refine ⟨?_, ⟨rfl, rfl⟩, rfl⟩
  have bytes : tokensBytes (tokensLength gs.flatten) (g ++ [.copy d l]) =
      tokensBytes (tokensLength gs.flatten) g ++ ushortBytes (setLznt1 (formatAt p) l d) := by
    rw [tokensBytes_append, position]
    rfl
  have below : base + 2 + (bodyBytes 0 gs).length < c.outputPointer := by
    rw [inv.outputAt, inv.flagAt]
    omega
  exact
    { input := by simp only [inv.input, Nat.add_assoc]
      full := inv.full
      described := by
        rw [← append_assoc]
        exact inv.described.snoc fits
      sized := by
        rw [← append_assoc, allSized_append, tokensLength_append, Nat.zero_add, position]
        exact ⟨inv.sized, sized, trivial⟩
      flagAt := inv.flagAt
      outputAt := by
        rw [bytes, length_append, ushortBytes_length, ← Nat.add_assoc, ← inv.outputAt]
      groups := (inv.groups.set_outside (.inr (by omega))).set_outside (.inr (by omega))
      tokens := by
        have one := inv.tokens.snoc (a := UInt8.ofNat (setLznt1 (formatAt p) l d))
          (by rw [← inv.outputAt]; exact room)
        have two := one.snoc (a := UInt8.ofNat (setLznt1 (formatAt p) l d / 256)) (by
            rw [length_set, length_append, ← Nat.add_assoc, ← inv.outputAt]
            exact room')
        rw [bytes]
        rw [length_append, ← Nat.add_assoc, ← inv.outputAt, append_assoc] at two
        exact two
      flags := by
        -- the bit of this token is above those of the earlier ones
        have bound := flagsOf_lt g
        have join := Nat.two_pow_add_eq_or_of_lt bound 1
        rw [Nat.mul_one] at join
        simp only [inv.flags, bit, Nat.one_shiftLeft, flagsOf_snoc, Token.isCopy, Bool.toNat_true,
          Nat.mul_one]
        rw [Nat.or_comm, ← join, Nat.add_comm]
      zero := inv.zero.trans (zeros_copy fits)
      length := by rw [length_set, length_set, inv.length]
      frame := fun j hj => by
        rw [getElem?_set_ne (by omega), getElem?_set_ne (by omega), inv.frame j hj] }

/-- Storing the flag byte completes the group's bytes. -/
theorem close {stored : List UInt8}
    (run : putByte c.out c.flagPointer (UInt8.ofNat c.flagByte) = .ok stored) :
    At stored (base + 2) (bodyBytes 0 (gs ++ [g])) ∧ stored.length = out.length ∧
      ∀ j, j < base → stored[j]? = out[j]? := by
  obtain ⟨room, rfl⟩ := putByte_ok run
  have flagAt := inv.flagAt
  refine ⟨?_, by rw [length_set, inv.length], fun j hj => ?_⟩
  · rw [bodyBytes_append, at_append, ← flagAt]
    refine ⟨inv.groups.set_outside (.inr (by omega)), ?_⟩
    simp only [bodyBytes, append_nil, groupBytes, Nat.zero_add]
    rw [at_cons]
    refine ⟨by simp [room, inv.flags], inv.tokens.set_outside (Or.inl (by omega))⟩
  · rw [getElem?_set_ne (by omega), inv.frame j hj]

theorem bodyBytes_snoc_length : base + 2 + (bodyBytes 0 (gs ++ [g])).length = c.outputPointer := by
  rw [inv.outputAt, inv.flagAt, bodyBytes_append]
  simp only [bodyBytes, groupBytes, append_nil, length_append, length_cons, Nat.zero_add]
  omega

/-- **A full group is closed and an empty one opened.** -/
theorem nextGroup (eight : g.length = 8) (run : c.nextGroup = .ok c') :
    Emitted y out start base p (gs ++ [g]) [] c' ∧ c'.flagBit = c.flagBit ∧
      c'.outputPointer = c.outputPointer + 1 := by
  obtain ⟨stored, write, run⟩ := bind_eq_ok.mp run
  obtain rfl := pure_eq_ok.mp run
  obtain ⟨groups, length, frame⟩ := inv.close write
  have flat : (gs ++ [g]).flatten = gs.flatten ++ g := by simp
  refine ⟨?_, rfl, rfl⟩
  exact
    { input := inv.input
      full := fun h member => by
        rcases mem_append.mp member with early | last
        · exact inv.full h early
        · obtain rfl := mem_singleton.mp last
          exact eight
      described := by
        rw [flat, append_nil]
        exact inv.described
      sized := by
        rw [flat, append_nil]
        exact inv.sized
      flagAt := inv.bodyBytes_snoc_length.symm
      outputAt := rfl
      groups := groups
      tokens := at_nil _ _
      flags := rfl
      zero := inv.zero
      length := length
      frame := frame }

end Emitted

/-! ## Ending a chunk -/

/-- What a chunk encoder leaves in any case: the buffer keeps its length and what
lies below the chunk; and when it succeeds, an image of `y` at `base`. -/
structure ChunkResult {W : Type} (y out : List UInt8) (base : Nat) (r : Encoded W) : Prop where
  length : r.out.length = out.length
  frame : ∀ j, j < base → r.out[j]? = out[j]?
  image : r.status.ntSuccess → ∃ c, ChunkImage y c ∧ At r.out base c ∧ r.size = c.length
  zeros : r.status = .bufferAllZeros → ∀ k, k < y.length → y[k]? = some 0

theorem writeBlock_ok {onWrite : Nat → Fault} {m' bytes : List UInt8}
    (run : writeBlock onWrite m p bytes = .ok m') :
    p + bytes.length ≤ m.length ∧ m' = blit m p bytes := by
  unfold writeBlock at run
  split at run
  · next room => exact ⟨room, (Except.ok.inj run).symm⟩
  · simp at run

theorem readBlock_ok : ∀ {count p : Nat} {bytes : List UInt8},
    Source.within.readBlock memory count p = .ok bytes →
    bytes.length = count ∧ At memory p bytes
  | 0, p, bytes, run => by
      obtain rfl := Except.ok.inj run
      exact ⟨rfl, at_nil _ _⟩
  | count + 1, p, bytes, run => by
      obtain ⟨byte, read, run⟩ := bind_eq_ok.mp run
      obtain ⟨rest, block, run⟩ := bind_eq_ok.mp run
      obtain rfl := pure_eq_ok.mp run
      obtain ⟨length, placed⟩ := readBlock_ok block
      exact ⟨by rw [length_cons, length], at_cons.mpr ⟨readOr_eq_ok.mp read, placed⟩⟩

theorem endOfCompressedChunk_le (base endC : Nat) : endOfCompressedChunk base endC ≤ base + 4095 := by
  unfold endOfCompressedChunk maxUncompressedChunkSize
  split <;> omega

/-- A block stored in front of bytes leaves them in place. -/
theorem at_header {header body : List UInt8} {base : Nat} (room : base + header.length ≤ m.length)
    (placed : At m (base + header.length) body) : At (blit m base header) base (header ++ body) :=
  at_append.mpr ⟨at_blit room, placed.congr fun _ low _ =>
    getElem?_blit_outside room (.inr low)⟩

variable {matchFunction : MatchFunction}

section Finish

variable {W : Type} {start base endC : Nat} {c : Cursor} {workspace : W} {r : Encoded W}

section Finishing

variable (run : finishChunk memory start (start + y.length) base endC c workspace = .ok r)

include run

/-- The fallback stores the chunk and whatever follows it in memory. -/
theorem finishChunk_stored (placed : At memory start y) (short : y.length ≤ 4096)
    (inv : Emitted y out start base p gs g c) (left : p < y.length) :
    ChunkResult y out base r := by
  unfold finishChunk at run
  rw [if_pos (by rw [inv.input]; omega)] at run
  split at run
  · obtain ⟨data, block, run⟩ := bind_eq_ok.mp run
    obtain ⟨out1, write1, run⟩ := bind_eq_ok.mp run
    obtain ⟨out2, write2, run⟩ := bind_eq_ok.mp run
    obtain rfl := pure_eq_ok.mp run
    obtain ⟨whole, data_at⟩ := readBlock_ok block
    obtain ⟨room1, rfl⟩ := writeBlock_ok write1
    obtain ⟨room2, rfl⟩ := writeBlock_ok write2
    rw [blit_length room1] at room2
    have front : data.take y.length = y := by
      apply ext_getElem?
      intro k
      rcases Nat.lt_or_ge k y.length with inside | past
      · rw [getElem?_take_of_lt inside, ← placed k inside,
          ← data_at k (by rw [whole]; exact Nat.lt_of_lt_of_le inside short)]
      · rw [getElem?_take_eq_none past, getElem?_eq_none past]
    refine
      { length := by rw [blit_length (by rw [blit_length room1]; exact room2), blit_length room1,
          inv.length]
        frame := fun j hj => ?_
        image := fun _ => ⟨_, .stored data whole front, ?_, ?_⟩
        zeros := nofun }
    · rw [getElem?_blit_outside (by rw [blit_length room1]; exact room2) (Or.inl hj),
        getElem?_blit_outside room1 (.inl (by omega)), inv.frame j hj]
    · exact at_header (by rw [blit_length room1]; exact room2) (at_blit room1)
    · rw [length_append, ushortBytes_length, whole]
      rfl
  · obtain rfl := Except.ok.inj run
    exact
      { length := inv.length
        frame := inv.frame
        image := fun h => absurd h Bool.false_ne_true
        zeros := nofun }

/-- All input is described: flags, header and size complete the image. -/
theorem finishChunk_compressed (inv : Emitted y out start base y.length gs g c)
    (group : g.length ≤ 8) (room : c.outputPointer ≤ endOfCompressedChunk base endC) :
    ChunkResult y out base r := by
  have limit := endOfCompressedChunk_le base endC
  have ends := inv.bodyBytes_snoc_length
  have flagBelow : c.flagPointer < endOfCompressedChunk base endC := by
    have := inv.outputAt
    omega
  unfold finishChunk lastFlag at run
  rw [if_neg (by rw [inv.input]; omega), if_pos flagBelow] at run
  obtain ⟨⟨out1, outputPointer⟩, flag, run⟩ := bind_eq_ok.mp run
  obtain ⟨stored, write1, flag⟩ := bind_eq_ok.mp flag
  obtain ⟨rfl, rfl⟩ := Prod.mk.inj (pure_eq_ok.mp flag)
  obtain ⟨out2, write2, run⟩ := bind_eq_ok.mp run
  obtain rfl := pure_eq_ok.mp run
  obtain ⟨body, length, frame⟩ := inv.close write1
  obtain ⟨room2, rfl⟩ := writeBlock_ok write2
  have flat : (gs ++ [g]).flatten = gs.flatten ++ g := by simp
  have size : c.outputPointer - base = 2 + (bodyBytes 0 (gs ++ [g])).length := by omega
  have image : ChunkImage y _ := .compressed (gs ++ [g])
    ⟨grouped_append_last inv.full group, by rw [flat]; exact inv.described,
      by rw [flat]; exact inv.sized, by omega⟩
  exact
    { length := by rw [blit_length room2, length]
      frame := fun j hj => by rw [getElem?_blit_outside room2 (Or.inl hj), frame j hj]
      image := fun _ => ⟨_, image, by rw [size] at room2 ⊢; exact at_header room2 body, by
        rw [length_append]; exact size⟩
      zeros := fun h => inv.zero.mp (by
        by_contra nonzero
        rw [if_neg nonzero] at h
        exact nomatch h) }

/-- An encoder loop is over: input is left, or all of it is described and fits. -/
def Ready (y out : List UInt8) (start base endChunk : Nat) (c : Cursor) : Prop :=
  ∃ p gs g, Emitted y out start base p gs g c ∧
    (p < y.length ∨ p = y.length ∧ g.length ≤ 8 ∧ c.outputPointer ≤ endChunk)

/-- **However the loop ended, the code after it leaves an image or fails cleanly.** -/
theorem finishChunk_ready (placed : At memory start y) (short : y.length ≤ 4096)
    (ready : Ready y out start base (endOfCompressedChunk base endC) c) :
    ChunkResult y out base r := by
  obtain ⟨p, gs, g, inv, left | ⟨rfl, group, room⟩⟩ := ready
  · exact finishChunk_stored run placed short inv left
  · exact finishChunk_compressed run inv group room

end Finishing

/-! ## The standard and maximum engines -/

/-- A string of the chunk that agrees with the input is a copy that fits. -/
theorem fits_of_agree {start matched : Nat} (placed : At memory start y) (low : start ≤ matched)
    (before : matched < start + p) (inside : p + l ≤ y.length)
    (agree : Agree memory (start + p) matched l) : Fits y p (.copy (start + p - matched) l) := by
  refine ⟨by omega, by omega, inside, fun k hk => ?_⟩
  have same := agree k hk
  rwa [Nat.add_assoc, placed (p + k) (by omega),
    show matched + k = start + (p + k - (start + p - matched)) by omega,
    placed _ (by omega)] at same

/-- The state of the standard encoder at the head of its loop. -/
structure Running (y out : List UInt8) (start base endChunk : Nat) (s : EncodeState) (p : Nat)
    (gs : List (List ByteToken)) (g : List ByteToken) : Prop where
  emitted : Emitted y out start base p gs g s.cursor
  short : g.length ≤ 8
  isOpen : p < y.length → g.length < 8
  bit : s.cursor.flagBit = g.length % 8
  room : g ≠ [] → s.cursor.outputPointer ≤ endChunk
  ended : p = y.length → g ≠ []
  behind : s.format ≤ formatAt p
  buffer : s.workspace.uncompressedBuffer = start
  bufferEnd : s.workspace.endOfUncompressedBufferPlus1 = start + y.length
  maxLength : s.workspace.maxLength = 2 ^ lengthBits s.format + 2

variable {endChunk : Nat}

theorem running_start (out : List UInt8) (start base endChunk : Nat) (workspace : Workspace)
    (some : y ≠ []) :
    Running y out start base endChunk
      { cursor := Cursor.start out start base
        format := 0
        workspace :=
          { workspace with
            uncompressedBuffer := start
            endOfUncompressedBufferPlus1 := start + y.length
            maxLength := 4098 } } 0 [] [] where
  emitted := .start_cursor out start base
  short := Nat.zero_le _
  isOpen := fun _ => Nat.zero_lt_succ 7
  bit := rfl
  room := fun h => absurd rfl h
  ended := fun h => absurd (length_eq_zero_iff.mp h.symm) some
  behind := Nat.zero_le _
  buffer := rfl
  bufferEnd := rfl
  maxLength := rfl

variable {s : EncodeState}

/-- After a token the group stays open, is closed, or is the last. -/
theorem closeToken_running {t : ByteToken} (inv : Emitted y out start base p gs (g ++ [t]) c)
    (bit : c.flagBit = g.length) (short : g.length < 8) (room : c.outputPointer ≤ endChunk)
    (run : closeToken (start + y.length) c = .ok s.cursor) (behind : s.format ≤ formatAt p)
    (buffer : s.workspace.uncompressedBuffer = start)
    (bufferEnd : s.workspace.endOfUncompressedBufferPlus1 = start + y.length)
    (maxLength : s.workspace.maxLength = 2 ^ lengthBits s.format + 2) :
    ∃ gs' g', Running y out start base endChunk s p gs' g' := by
  have width : (g ++ [t]).length = g.length + 1 := by simp
  have input : c.nextBit.inputPointer = start + p := inv.input
  have flag : c.nextBit.flagBit = (g.length + 1) % 8 := by rw [← bit]; rfl
  unfold closeToken at run
  simp only at run
  split at run
  · next wrap =>
    obtain ⟨closed, keep, -⟩ := inv.nextBit.nextGroup (by omega) run
    exact ⟨gs ++ [g ++ [t]], [], closed, Nat.zero_le _, fun _ => by simp, keep.trans wrap.1,
      fun h => absurd rfl h, fun h => by omega, behind, buffer, bufferEnd, maxLength⟩
  · next more =>
    have same := Except.ok.inj run
    refine ⟨gs, g ++ [t], same ▸ inv.nextBit, by omega, fun left => ?_,
      by rw [width, ← same, flag], fun _ => same ▸ room, fun _ => by simp, behind, buffer,
      bufferEnd, maxLength⟩
    rcases Nat.lt_or_ge (g.length + 1) 8 with few | eight
    · omega
    · exact absurd ⟨by omega, by omega⟩ more

/-- The match function is consulted only with three bytes left. -/
theorem searchMatch_ok (sound : matchFunction.Sound) {endU ziv length : Nat}
    {before after : Workspace}
    (run : searchMatch matchFunction memory endU ziv before = .ok (length, after))
    (ends : before.endOfUncompressedBufferPlus1 = endU) (room : 3 ≤ before.maxLength) :
    SameChunk before after ∧
      (length = 0 ∨ Matched memory before ziv after.matchedString length) := by
  unfold searchMatch at run
  split at run
  · next three => exact sound memory ziv length before after room (by omega) run
  · obtain ⟨rfl, rfl⟩ := Prod.mk.inj (Except.ok.inj run)
    exact ⟨⟨rfl, rfl, rfl⟩, .inl rfl⟩

/-- **One pass keeps the invariant; a pass that breaks out emits nothing.** -/
theorem compressStep_running (sound : matchFunction.Sound) (placed : At memory start y)
    (small : y.length ≤ 4096) (inv : Running y out start base endChunk s p gs g)
    (left : p < y.length) {step : EncodeStep EncodeState}
    (run : compressStep matchFunction memory start (start + y.length) endChunk s = .ok step) :
    match step with
    | .exit s' => s'.cursor = s.cursor
    | .next s' => ∃ p' gs' g', Running y out start base endChunk s' p' gs' g' ∧
        p' ≤ y.length := by
  have emitted := inv.emitted
  have open8 := inv.isOpen left
  have bit : s.cursor.flagBit = g.length := by rw [inv.bit, Nat.mod_eq_of_lt open8]
  have advanced := advanceLength_eq (by omega) inv.behind
  unfold compressStep at run
  simp only [emitted.input, Nat.add_sub_cancel_left, inv.maxLength] at run
  rw [advanced] at run
  simp only [bind, Except.bind] at run
  obtain ⟨⟨length, workspace⟩, search, run⟩ := bind_eq_ok.mp run
  have three : 3 ≤ 2 ^ lengthBits (formatAt p) + 2 := by
    have := Nat.two_pow_pos (lengthBits (formatAt p))
    omega
  obtain ⟨same, found⟩ := searchMatch_ok sound search inv.bufferEnd three
  -- a literal or a copy token; without room for it the cursor stays
  split at run
  · split at run
    · obtain rfl := pure_eq_ok.mp run
      rfl
    · next room =>
      obtain ⟨c, put, run⟩ := bind_eq_ok.mp run
      obtain ⟨c', closed, run⟩ := bind_eq_ok.mp run
      obtain rfl := pure_eq_ok.mp run
      rw [emitted.clearFlag bit open8] at put
      obtain ⟨byte, grown, kept, output⟩ := emitted.literal placed left put
      have fit : c.outputPointer ≤ endChunk := by omega
      obtain ⟨gs', g', inv'⟩ := closeToken_running (s := ⟨c', formatAt p, workspace⟩) grown
        (kept.1.trans bit) open8 fit closed (formatAt_mono (Nat.le_succ p))
        (same.1.trans inv.buffer) (same.2.1.trans inv.bufferEnd) same.2.2
      exact ⟨p + 1, gs', g', inv', left⟩
  · next positive =>
    have hit := found.resolve_left positive
    split at run
    · obtain rfl := pure_eq_ok.mp run
      rfl
    · next room =>
      obtain ⟨c, put, run⟩ := bind_eq_ok.mp run
      obtain ⟨c', closed, run⟩ := bind_eq_ok.mp run
      obtain rfl := pure_eq_ok.mp run
      have inside := hit.inside
      have low := hit.low
      simp only [inv.bufferEnd, inv.buffer] at inside low
      have fits := fits_of_agree placed low hit.before (by omega) hit.agree
      obtain ⟨grown, kept, output⟩ := emitted.copyToken fits ⟨hit.three, hit.bound⟩ bit put
      have fit : c.outputPointer ≤ endChunk := by omega
      obtain ⟨gs', g', inv'⟩ := closeToken_running (s := ⟨c', formatAt p, workspace⟩) grown
        (kept.1.trans bit) open8 fit closed (formatAt_mono (Nat.le_add_right p length))
        (same.1.trans inv.buffer) (same.2.1.trans inv.bufferEnd) same.2.2
      exact ⟨p + length, gs', g', inv', by omega⟩

theorem compressLoop_ready (sound : matchFunction.Sound) (placed : At memory start y)
    (small : y.length ≤ 4096) {s' : EncodeState} (inv : Running y out start base endChunk s p gs g)
    (inside : p ≤ y.length)
    (run : compressLoop matchFunction memory start (start + y.length) endChunk s = .ok s') :
    Ready y out start base endChunk s'.cursor := by
  refine compressLoop_repeats.post
    (fun s => ∃ p gs g, Running y out start base endChunk s p gs g ∧ p ≤ y.length)
    (fun s => Ready y out start base endChunk s.cursor) ?_ ?_ ⟨p, gs, g, inv, inside⟩ run
  · rintro s step ⟨p, gs, g, inv, -⟩ more pass
    have input := inv.emitted.input
    have moved := compressStep_running sound placed small inv (by omega) pass
    cases step with
    | exit => exact ⟨p, gs, g, moved.symm ▸ inv.emitted, .inl (by omega)⟩
    | next => exact moved
  · rintro s ⟨p, gs, g, inv, inside⟩ done
    have input := inv.emitted.input
    have all : p = y.length := by omega
    exact ⟨p, gs, g, inv.emitted, .inr ⟨all, inv.short, inv.room (inv.ended all)⟩⟩

end Finish

/-! ## The chunk at an offset -/

/-- The bytes an encoder called at `start` works on. -/
def chunkAt (memory : List UInt8) (start endU : Nat) : List UInt8 :=
  (memory.drop start).take (endOfChunk start endU - start)

section ChunkAt

variable {start endU : Nat}

theorem endOfChunk_le (start endU : Nat) :
    endOfChunk start endU ≤ endU ∧ endOfChunk start endU ≤ start + 4096 := by
  unfold endOfChunk maxUncompressedChunkSize
  split <;> omega

theorem lt_endOfChunk (some : start < endU) : start < endOfChunk start endU := by
  unfold endOfChunk maxUncompressedChunkSize
  split <;> omega

theorem chunkAt_end (some : start < endU) (inside : endU ≤ memory.length) :
    start + (chunkAt memory start endU).length = endOfChunk start endU := by
  have := endOfChunk_le start endU
  have := lt_endOfChunk some
  rw [chunkAt, length_take, length_drop]
  omega

theorem chunkAt_placed (memory : List UInt8) (start endU : Nat) :
    At memory start (chunkAt memory start endU) := by
  intro k hk
  have inside : k < endOfChunk start endU - start := by
    rw [chunkAt, length_take] at hk
    omega
  rw [chunkAt, getElem?_take_of_lt inside, getElem?_drop]

theorem chunkAt_ne_nil (some : start < endU) (inside : endU ≤ memory.length) :
    chunkAt memory start endU ≠ [] := by
  have := chunkAt_end some inside
  have := lt_endOfChunk some
  exact ne_nil_of_length_pos (by omega)

theorem chunkAt_short (some : start < endU) (inside : endU ≤ memory.length) :
    (chunkAt memory start endU).length ≤ 4096 := by
  have := chunkAt_end some inside
  have := endOfChunk_le start endU
  omega

end ChunkAt

/-- **`LZNT1CompressChunk` leaves an image of its chunk, for any sound match
function and any workspace.** -/
theorem lznt1CompressChunk_ok {start endU base endC : Nat} {workspace : Workspace}
    {r : Encoded Workspace} (sound : matchFunction.Sound) (some : start < endU)
    (inside : endU ≤ memory.length)
    (run : lznt1CompressChunk matchFunction memory start endU out base endC workspace = .ok r) :
    ChunkResult (chunkAt memory start endU) out base r := by
  have short := chunkAt_short some inside
  have placed := chunkAt_placed memory start endU
  obtain ⟨s, loop, run⟩ := bind_eq_ok.mp run
  rw [← chunkAt_end some inside] at loop run
  exact finishChunk_ready run placed short (compressLoop_ready sound placed short
    (running_start out start base _ workspace (chunkAt_ne_nil some inside)) (Nat.zero_le _) loop)

end Ntoskrnl.Rtl.Lznt1
