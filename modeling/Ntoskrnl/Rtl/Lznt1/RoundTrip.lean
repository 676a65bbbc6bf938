/-
# Ntoskrnl.Rtl.Lznt1.RoundTrip -- the hibernation encoder and the round trip

The hibernation encoder checks its output room once a group: a group is opened
only when the 16 bytes its eight tokens may take are left.  It opens the next
group as soon as one is full, so at the end the open group may be empty and the
image then ends in a zero flag byte.

Its table holds offsets biased by an origin, from earlier chunks or from no
chunk at all; the unsigned comparison `MatchedOffset < InputOffset` is what keeps
a stale entry from being used as a match outside the chunk.

`compressChunksLoop_ok` turns the chunks of any correct encoder into a `Stream`;
with the inverse theorem of the decoder this is the round trip.
-/
import Ntoskrnl.Rtl.Lznt1.Encode
import Ntoskrnl.Rtl.Lznt1.Inverse

namespace Ntoskrnl.Rtl.Lznt1

open Base Lib.Checked Lib.Lz77

set_option autoImplicit false

theorem tokensBytes_length_le (p : Nat) (ts : List ByteToken) :
    (tokensBytes p ts).length ≤ 2 * ts.length := by
  induction ts generalizing p with
  | nil => exact Nat.zero_le _
  | cons t ts ih =>
    have := ih (p + t.length)
    have : (tokenBytes p t).length ≤ 2 := by cases t <;> simp [tokenBytes]
    simp only [tokensBytes, List.length_append, List.length_cons]
    omega

/-- The token the encoder puts together by shifting is the one `SetLZNT1` builds. -/
theorem hiberToken_eq {format d l : Nat} (last : format ≤ 8) (positive : 1 ≤ d)
    (near : d ≤ 2 ^ (4 + format)) (high : l ≤ 2 ^ lengthBits format + 2) :
    (d - 1) <<< (12 - format) ||| (l - 3) = setLznt1 format l d := by
  have bits : lengthBits format = 12 - format := by rw [lengthBits, if_pos last]
  have low : l - 3 < 2 ^ (12 - format) := by
    rw [bits] at high
    have := Nat.two_pow_pos (12 - format)
    omega
  have back : d - 1 < 2 ^ (16 - (12 - format)) := by
    rw [show 16 - (12 - format) = 4 + format by omega]
    omega
  rw [setLznt1, bits, Nat.mod_eq_of_lt low, Nat.mod_eq_of_lt back, Nat.shiftLeft_eq,
    Nat.mul_comm (d - 1), ← Nat.two_pow_add_eq_or_of_lt low, Nat.add_comm]

/-! ## The loops -/

/-- The state between tokens.  Whether there is room for the open group is known
inside a loop only (`room`). -/
structure Between (y out : List UInt8) (start base endChunk : Nat) (s : HiberState) (p : Nat)
    (gs : List (List ByteToken)) (g : List ByteToken) : Prop where
  emitted : Emitted y out start base p gs g s.cursor
  inside : p ≤ y.length
  short : g.length < 8
  bit : s.cursor.flagBit = g.length
  fit : p = y.length → s.cursor.outputPointer ≤ endChunk
  behind : s.format ≤ formatAt p
  maxLength : s.maxLength = 2 ^ lengthBits s.format + 2

variable {step : EncodeStep HiberState} {memory : List UInt8}

section Hiber

variable {y out : List UInt8} {start base endChunk : Nat} {c : Cursor}

/-- The group that is open when a loop runs has room for its eight tokens. -/
def GroupRoom (endChunk : Nat) (c : Cursor) : Prop :=
  c.flagPointer + 17 < endChunk

theorem Kept.groupRoom {c' : Cursor} (kept : Kept c c') (room : GroupRoom endChunk c) :
    GroupRoom endChunk c' := by
  unfold GroupRoom at *
  rw [kept.2]
  exact room

/-- A pass is over: the loop goes on with room for the open group, or it breaks out. -/
def Onward (y out : List UInt8) (start base endChunk : Nat) : EncodeStep HiberState → Prop
  | .exit s => ∃ p gs g, Between y out start base endChunk s p gs g
  | .next s => ∃ p gs g, Between y out start base endChunk s p gs g ∧
      GroupRoom endChunk s.cursor

variable {p : Nat}

/-- An entry that passes the test lies in the chunk and agrees in three bytes. -/
theorem hiberCandidate_true {matchedOffset : UInt32}
    (run : hiberCandidate memory (start + matchedOffset.toNat) (start + p) matchedOffset (UInt32.ofNat p) = .ok true)
    (bound : p < 2 ^ 32) :
    matchedOffset.toNat < p ∧ Agree memory (start + p) (start + matchedOffset.toNat) 3 := by
  unfold hiberCandidate at run
  split at run
  · next before =>
    have below := UInt32.lt_iff_toNat_lt.mp before
    rw [UInt32.toNat_ofNat', Nat.mod_eq_of_lt bound] at below
    exact ⟨below, sameThree_true run⟩
  · simp at run

variable {s : HiberState} {gs : List (List ByteToken)} {g : List ByteToken} {origin : UInt32}

/-- **Closing a token** leaves everything emitted inside the chunk. -/
theorem closeHiber_between {t : ByteToken} (run : closeHiber endChunk s c = .ok step)
    (inv : Emitted y out start base p gs (g ++ [t]) c) (inside : p ≤ y.length)
    (bit : c.flagBit = g.length) (short : g.length < 8) (room : GroupRoom endChunk c)
    (behind : s.format ≤ formatAt p) (maxLength : s.maxLength = 2 ^ lengthBits s.format + 2) :
    Onward y out start base endChunk step := by
  have width : (g ++ [t]).length = g.length + 1 := by simp
  have flag : c.nextBit.flagBit = (g.length + 1) % 8 := by rw [← bit]; rfl
  have outputAt := inv.outputAt
  have bytes := tokensBytes_length_le (tokensLength gs.flatten) (g ++ [t])
  unfold GroupRoom at room
  unfold closeHiber at run
  simp only at run
  split at run
  · next wrap =>
    obtain ⟨c', closed, run⟩ := bind_eq_ok.mp run
    obtain ⟨inv', keep, output⟩ := inv.nextBit.nextGroup (by omega) closed
    have outputAt' : c'.outputPointer = c'.flagPointer + 1 := inv'.outputAt
    have output' : c'.outputPointer = c.outputPointer + 1 := output
    -- the eighth token: a new group begins
    have between : Between y out start base endChunk { s with cursor := c' } p
        (gs ++ [g ++ [t]]) [] :=
      { emitted := inv'
        inside := inside
        short := by decide
        bit := keep.trans wrap
        fit := fun _ => by simp only; omega
        behind := behind
        maxLength := maxLength }
    split at run
    · obtain rfl := pure_eq_ok.mp run
      exact ⟨_, _, _, between⟩
    · obtain rfl := pure_eq_ok.mp run
      exact ⟨_, _, _, between, by unfold GroupRoom; simp only; omega⟩
  · next wrap =>
    obtain rfl := Except.ok.inj run
    refine ⟨p, gs, g ++ [t], ?_, room⟩
    exact
      { emitted := inv.nextBit
        inside := inside
        short := by omega
        bit := by rw [width]; simp only; omega
        fit := fun _ => by
          have : c.nextBit.outputPointer = c.outputPointer := rfl
          simp only
          omega
        behind := behind
        maxLength := maxLength }

section Passes

variable (placed : At memory start y) (small : y.length ≤ 4096)
  (inv : Between y out start base endChunk s p gs g) (room : GroupRoom endChunk s.cursor)

include placed small inv room

/-- **One pass of the matching loop.** -/
theorem hiberStep_between (three : p + 3 ≤ y.length)
    (run : hiberStep memory start (start + y.length) endChunk origin s = .ok step) :
    Onward y out start base endChunk step := by
  have emitted := inv.emitted
  have advanced := advanceLength_eq (by omega) inv.behind
  unfold hiberStep at run
  simp only [emitted.input, Nat.add_sub_cancel_left] at run
  obtain ⟨b0, -, run⟩ := bind_eq_ok.mp run
  obtain ⟨b1, -, run⟩ := bind_eq_ok.mp run
  obtain ⟨b2, -, run⟩ := bind_eq_ok.mp run
  obtain ⟨found, candidate, run⟩ := bind_eq_ok.mp run
  cases found with
  | false =>
    obtain ⟨c, put, run⟩ := bind_eq_ok.mp run
    obtain ⟨byte, grown, kept, -⟩ := emitted.literal placed (by omega) put
    exact closeHiber_between run grown (by omega) (kept.1.trans inv.bit) inv.short
      (kept.groupRoom room) (Nat.le_trans inv.behind (formatAt_mono (Nat.le_succ p)))
      inv.maxLength
  | true =>
    obtain ⟨⟨format, maxLength⟩, advance, run⟩ := bind_eq_ok.mp run
    obtain ⟨length, extended, run⟩ := bind_eq_ok.mp run
    obtain ⟨c, put, run⟩ := bind_eq_ok.mp run
    rw [inv.maxLength, advanced] at advance
    obtain ⟨rfl, rfl⟩ := Prod.mk.inj (Except.ok.inj advance)
    obtain ⟨earlier, agree3⟩ := hiberCandidate_true candidate (by omega)
    have width := Nat.two_pow_pos (lengthBits (formatAt p))
    -- three characters match, and the scan lengthens the match
    rw [extendHiber_eq] at extended
    obtain ⟨grew, bound, agree⟩ := extendMatch_ok extended agree3 (by omega)
    have fits := fits_of_agree placed (Nat.le_add_right _ _) (by omega) (by omega) agree
    have token := hiberToken_eq (Nat.le_of_lt_succ (formatAt_lt (by omega))) fits.1
      (Nat.le_trans fits.2.1 (le_of_formatAt (by omega)))
      (by omega : length ≤ 2 ^ lengthBits (formatAt p) + 2)
    rw [token] at put
    obtain ⟨grown, kept, -⟩ := emitted.copyToken fits ⟨grew, by omega⟩ inv.bit put
    exact closeHiber_between run grown (by omega) (kept.1.trans inv.bit) inv.short
      (kept.groupRoom room) (formatAt_mono (Nat.le_add_right p length)) rfl

/-- **One pass of the literal loop.** -/
theorem hiberLiteralStep_between (left : p < y.length)
    (run : hiberLiteralStep memory start endChunk s = .ok step) :
    Onward y out start base endChunk step := by
  have advanced := advanceLength_eq (by omega) inv.behind
  unfold hiberLiteralStep at run
  simp only [inv.emitted.input, Nat.add_sub_cancel_left] at run
  obtain ⟨⟨format, maxLength⟩, advance, run⟩ := bind_eq_ok.mp run
  rw [inv.maxLength, advanced] at advance
  obtain ⟨rfl, rfl⟩ := Prod.mk.inj (Except.ok.inj advance)
  obtain ⟨c, put, run⟩ := bind_eq_ok.mp run
  obtain ⟨byte, grown, kept, -⟩ := inv.emitted.literal placed left put
  exact closeHiber_between run grown left (kept.1.trans inv.bit) inv.short
    (kept.groupRoom room) (formatAt_mono (Nat.le_succ p)) rfl

end Passes

/-- A loop whose passes go onward leaves the state between tokens, also behind its room check. -/
theorem whileRoom_between {left : HiberState → Nat} {more : HiberState → Prop}
    [DecidablePred more] {pass : HiberState → Except Fault (EncodeStep HiberState)}
    {loop : HiberState → Except Fault HiberState} {s' : HiberState}
    (repeats : Repeats left more pass loop)
    (keeps : ∀ s step p gs g, Between y out start base endChunk s p gs g →
      GroupRoom endChunk s.cursor → more s → pass s = .ok step →
      Onward y out start base endChunk step)
    (inv : Between y out start base endChunk s p gs g) (run : whileRoom endChunk loop s = .ok s') :
    ∃ p' gs' g', Between y out start base endChunk s' p' gs' g' := by
  unfold whileRoom at run
  split at run
  · have := inv.emitted.outputAt
    refine repeats.post (fun s => ∃ p gs g, Between y out start base endChunk s p gs g ∧
      GroupRoom endChunk s.cursor) (fun s => ∃ p gs g, Between y out start base endChunk s p gs g)
      ?_ ?_ ⟨p, gs, g, inv, by unfold GroupRoom; omega⟩ run
    · rintro s step ⟨p, gs, g, inv, room⟩ again passed
      have onward := keeps s step p gs g inv room again passed
      cases step <;> exact onward
    · rintro s ⟨p, gs, g, inv, -⟩ -
      exact ⟨p, gs, g, inv⟩
  · obtain rfl := Except.ok.inj run
    exact ⟨p, gs, g, inv⟩

/-- The state between tokens when both loops of `LZNT1CompressChunkHiber` are over. -/
theorem hiberLoops_between {s1 s2 : HiberState} (placed : At memory start y)
    (small : y.length ≤ 4096) (inv : Between y out start base endChunk s p gs g)
    (first : whileRoom endChunk (hiberLoop memory start (start + y.length) endChunk origin) s =
      .ok s1)
    (second : whileRoom endChunk (hiberLiteralLoop memory start (start + y.length) endChunk) s1 =
      .ok s2) : ∃ p' gs' g', Between y out start base endChunk s2 p' gs' g' := by
  obtain ⟨_, _, _, inv1⟩ := whileRoom_between hiberLoop_repeats (fun _ _ _ _ _ inv room more pass =>
      hiberStep_between placed small inv room (by have := inv.emitted.input; omega) pass) inv first
  exact whileRoom_between hiberLiteralLoop_repeats (fun _ _ _ _ _ inv room more pass =>
    hiberLiteralStep_between placed small inv room (by have := inv.emitted.input; omega) pass)
    inv1 second

theorem Between.ready (inv : Between y out start base endChunk s p gs g) :
    Ready y out start base endChunk s.cursor := by
  refine ⟨p, gs, g, inv.emitted, ?_⟩
  rcases Nat.lt_or_ge p y.length with left | past
  · exact .inl left
  · have done : p = y.length := Nat.le_antisymm inv.inside past
    exact .inr ⟨done, Nat.le_of_lt inv.short, inv.fit done⟩

theorem between_start (out : List UInt8) (start base endChunk : Nat)
    (indexTable : HiberWorkspace) (some : y ≠ []) :
    Between y out start base endChunk
      { cursor := Cursor.start out start base, format := 0, maxLength := 4098, indexTable }
      0 [] [] where
  emitted := .start_cursor out start base
  inside := Nat.zero_le _
  short := Nat.zero_lt_succ 7
  bit := rfl
  fit := fun h => absurd (List.length_eq_zero_iff.mp h.symm) some
  behind := Nat.zero_le _
  maxLength := rfl

end Hiber

variable {workspace : HiberWorkspace} {r : Encoded HiberWorkspace}

/-- **`LZNT1CompressChunkHiber` leaves an image of its chunk, for any workspace.** -/
theorem lznt1CompressChunkHiber_ok {out : List UInt8} {start endU base endC : Nat}
    (some : start < endU) (inside : endU ≤ memory.length)
    (run : lznt1CompressChunkHiber memory start endU out base endC workspace = .ok r) :
    ChunkResult (chunkAt memory start endU) out base r := by
  have short := chunkAt_short some inside
  have placed := chunkAt_placed memory start endU
  obtain ⟨s1, first, run⟩ := bind_eq_ok.mp run
  obtain ⟨s2, second, run⟩ := bind_eq_ok.mp run
  rw [← chunkAt_end some inside] at first second run
  obtain ⟨_, _, _, inv⟩ := hiberLoops_between placed short
    (between_start out start base _ workspace (chunkAt_ne_nil some inside)) first second
  exact finishChunk_ready run placed short inv.ready

/-! ## The bytes left to compress -/

/-- What lies in memory from `start` up to `endU`. -/
def restAt (memory : List UInt8) (start endU : Nat) : List UInt8 :=
  (memory.drop start).take (endU - start)

variable {W : Type}

section RestAt

variable {start endU : Nat}

theorem restAt_last (last : endU ≤ start + 4096) :
    restAt memory start endU = chunkAt memory start endU := by
  have : endOfChunk start endU = endU := by
    unfold endOfChunk maxUncompressedChunkSize
    rw [if_neg (by omega)]
  rw [restAt, chunkAt, this]

theorem restAt_more (more : start + 4096 < endU) (inside : endU ≤ memory.length) :
    (chunkAt memory start endU).length = 4096 ∧ restAt memory start endU =
        chunkAt memory start endU ++ restAt memory (start + 4096) endU := by
  have ends : endOfChunk start endU = start + 4096 := by
    unfold endOfChunk maxUncompressedChunkSize
    rw [if_pos more]
  have width := chunkAt_end (by omega : start < endU) inside
  refine ⟨by omega, ?_⟩
  rw [restAt, chunkAt, restAt, ends, Nat.add_sub_cancel_left, ← List.drop_drop,
    show endU - start = 4096 + (endU - (start + 4096)) by omega, List.take_add]

theorem restAt_of_at {x : List UInt8} (placed : At memory start x) :
    restAt memory start (start + x.length) = x := by
  rw [restAt, Nat.add_sub_cancel_left]
  exact (at_drop.mpr placed).take_eq

/-! ## Streams from chunks -/

/-- Every run of the chunk encoder that returns leaves an image or fails cleanly. -/
def ChunkEncoder.Correct {W : Type} (encode : ChunkEncoder W) (memory : List UInt8) : Prop :=
  ∀ (start endU : Nat) (out : List UInt8) (base endC : Nat) (workspace : W) (r : Encoded W),
    start < endU → endU ≤ memory.length →
    encode start endU out base endC workspace = .ok r →
    ChunkResult (chunkAt memory start endU) out base r

/-- What a buffer routine leaves: the compressed buffer keeps its length and what
lies below `base`; and when it succeeds, a stream for `x` at `base`. -/
structure BufferResult {W : Type} (x out : List UInt8) (cb base : Nat) (r : Encoded W) : Prop where
  length : r.out.length = out.length
  frame : ∀ j, j < base → r.out[j]? = out[j]?
  stream : r.status.ntSuccess → ∃ c, Stream x c ∧ At r.out base c ∧ r.size = base + c.length - cb
  zeros : r.status = .bufferAllZeros → ∀ k, k < x.length → x[k]? = some 0

variable {encode : ChunkEncoder W} {cb endC : Nat}

theorem finishBuffer_ok {out : List UInt8} {base : Nat} {allZero : Bool} {workspace : W}
    {r : Encoded W} (run : finishBuffer cb endC base allZero out workspace = .ok r) :
    r.out.length = out.length ∧ (∀ j, j < base → r.out[j]? = out[j]?) ∧
      r.size = base - cb ∧ r.status = if allZero then .bufferAllZeros else .success := by
  unfold finishBuffer at run
  simp only at run
  split at run
  · obtain ⟨out', write, run⟩ := bind_eq_ok.mp run
    obtain rfl := pure_eq_ok.mp run
    obtain ⟨room, rfl⟩ := writeBlock_ok write
    exact ⟨blit_length room, fun j hj => getElem?_blit_outside room (.inl hj), rfl, rfl⟩
  · obtain rfl := Except.ok.inj run
    exact ⟨rfl, fun _ _ => rfl, rfl, rfl⟩

theorem zeros_append {x y : List UInt8} (left : ∀ k, k < x.length → x[k]? = some 0)
    (right : ∀ k, k < y.length → y[k]? = some 0) :
    ∀ k, k < (x ++ y).length → (x ++ y)[k]? = some 0 := by
  intro k hk
  rw [List.length_append] at hk
  rcases Nat.lt_or_ge k x.length with inside | past
  · rw [List.getElem?_append_left inside, left k inside]
  · rw [List.getElem?_append_right past, right _ (by omega)]

/-- **The chunk loop concatenates images to a stream**, for every correct chunk
encoder.  `allZero` carries over from the chunks already done. -/
theorem compressChunksLoop_ok (correct : encode.Correct memory) (inside : endU ≤ memory.length)
    {start base : Nat} {allZero : Bool} {out : List UInt8} {workspace : W} {r : Encoded W}
    (some : start < endU)
    (run : compressChunksLoop encode endU cb endC start base allZero out workspace = .ok r) :
    BufferResult (restAt memory start endU) out cb base r ∧
      (r.status = .bufferAllZeros → allZero) := by
  rw [compressChunksLoop, if_pos some] at run
  obtain ⟨chunk, encoded, run⟩ := bind_eq_ok.mp run
  have result := correct start endU out base endC workspace chunk some inside encoded
  split at run
  · next success =>
    obtain ⟨c, image, placed, size⟩ := result.image success
    have kept : ∀ r : Encoded W, (∀ j, j < base + c.length → r.out[j]? = chunk.out[j]?) →
        At r.out base c ∧ ∀ j, j < base → r.out[j]? = out[j]? := fun r frame =>
      ⟨placed.congr fun j _ high => frame j high,
        fun j hj => (frame j (by omega)).trans (result.frame j hj)⟩
    rw [size, maxUncompressedChunkSize_eq] at run
    -- by the input that is left: another chunk, or the end of the buffer
    by_cases more : start + 4096 < endU
    · obtain ⟨full, split⟩ := restAt_more more inside
      obtain ⟨rest, carried⟩ := compressChunksLoop_ok correct inside more run
      obtain ⟨at_c, frame⟩ := kept r rest.frame
      rw [split]
      simp only [Bool.and_eq_true, decide_eq_true_eq] at carried
      refine ⟨?_, fun zeros => (carried zeros).1⟩
      exact
        { length := rest.length.trans result.length
          frame := frame
          stream := fun ok => by
            obtain ⟨c', stream, at_c', size'⟩ := rest.stream ok
            exact ⟨c ++ c', .more full image stream, at_append.mpr ⟨at_c, at_c'⟩,
              by rw [size', List.length_append]; omega⟩
          zeros := fun zeros =>
            zeros_append (result.zeros (carried zeros).2) (rest.zeros zeros) }
    · rw [compressChunksLoop, if_neg more] at run
      obtain ⟨length, frame', size', status⟩ := finishBuffer_ok run
      obtain ⟨at_c, frame⟩ := kept r frame'
      rw [restAt_last (by omega)]
      have carried : r.status = .bufferAllZeros → allZero ∧ chunk.status = .bufferAllZeros := by
        intro zeros
        rw [status] at zeros
        by_contra other
        rw [if_neg (by simpa using other)] at zeros
        exact nomatch zeros
      refine ⟨?_, fun zeros => (carried zeros).1⟩
      exact
        { length := length.trans result.length
          frame := frame
          stream := fun _ => ⟨c, .last (chunkAt_ne_nil some inside)
            (chunkAt_short some inside) image, at_c, size'⟩
          zeros := fun zeros => result.zeros (carried zeros).2 }
  · next failed =>
    obtain rfl := pure_eq_ok.mp run
    have absurdly : chunk.status ≠ .bufferAllZeros := fun h => failed (by rw [h]; rfl)
    refine ⟨?_, fun zeros => absurd zeros absurdly⟩
    exact
      { length := result.length
        frame := result.frame
        stream := fun ok => absurd ok failed
        zeros := fun zeros => absurd zeros absurdly }
termination_by endU - start
decreasing_by omega

end RestAt

theorem lznt1CompressChunk_correct {matchFunction : MatchFunction} (sound : matchFunction.Sound)
    (memory : List UInt8) :
    ChunkEncoder.Correct (lznt1CompressChunk matchFunction memory) memory :=
  fun _ _ _ _ _ _ _ some inside run => lznt1CompressChunk_ok sound some inside run

section Routines

variable {x out : List UInt8} {start cb size : Nat}

/-- The window of `memory` that holds `x` lies inside it. -/
theorem window_of_at (placed : At memory start x) (some : x ≠ []) :
    start < start + x.length ∧ start + x.length ≤ memory.length :=
  ⟨Nat.lt_add_of_pos_right (List.length_pos_iff.mpr some), placed.bound some⟩

theorem bufferResult_unsupported (workspace : W) :
    BufferResult x out cb cb ⟨.notSupported, out, 0, workspace⟩ where
  length := rfl
  frame _ _ := rfl
  stream h := absurd h Bool.false_ne_true
  zeros h := nomatch h

variable {engine : CompressionEngine}

/-- **`RtlCompressBufferLZNT1` leaves a stream for its input or fails cleanly.** -/
theorem rtlCompressBufferLznt1_ok {workspace : Workspace} {r : Encoded Workspace}
    (placed : At memory start x) (some : x ≠ [])
    (run : rtlCompressBufferLznt1 engine memory start x.length out cb size workspace = .ok r) :
    BufferResult x out cb cb r := by
  obtain ⟨nonempty, inside⟩ := window_of_at placed some
  rw [← restAt_of_at placed]
  cases engine with
  | standard =>
    exact (compressChunksLoop_ok (lznt1CompressChunk_correct lznt1FindMatchStandard_sound memory)
      inside nonempty run).1
  | maximum =>
    exact (compressChunksLoop_ok (lznt1CompressChunk_correct lznt1FindMatchMaximum_sound memory)
      inside nonempty run).1
  | hiber | other =>
    obtain rfl := Except.ok.inj run
    exact bufferResult_unsupported workspace

/-- **`RtlCompressBufferLZNT1_HIBER` leaves a stream for its input or fails cleanly.** -/
theorem rtlCompressBufferLznt1Hiber_ok (placed : At memory start x) (some : x ≠ [])
    (run : rtlCompressBufferLznt1Hiber engine memory start x.length out cb size workspace = .ok r) :
    BufferResult x out cb cb r := by
  obtain ⟨nonempty, inside⟩ := window_of_at placed some
  unfold rtlCompressBufferLznt1Hiber at run
  split at run
  · rw [← restAt_of_at placed]
    exact (compressChunksLoop_ok (fun _ _ _ _ _ _ _ some inside run =>
      lznt1CompressChunkHiber_ok some inside run) inside nonempty run).1
  · obtain rfl := Except.ok.inj run
    exact bufferResult_unsupported workspace

/-! ## The round trip -/

variable {r : Encoded W}

/-- The bytes a successful compression stored are a stream. -/
theorem BufferResult.image (result : BufferResult x out 0 0 r)
    (success : r.status = .success ∨ r.status = .bufferAllZeros) :
    ∃ c, Stream x c ∧ r.out.take r.size = c ∧ r.size = c.length := by
  obtain ⟨c, stream, placed, size⟩ := result.stream ((NtStatus.ntSuccess_iff _).mpr (success.imp_right Or.inl))
  have whole : r.size = c.length := by omega
  exact ⟨c, stream, by rw [whole]; exact placed.take_eq, whole⟩

/-- A buffer that was compressed successfully decompresses to the original. -/
theorem BufferResult.decompress (result : BufferResult x out 0 0 r)
    (success : r.status = .success ∨ r.status = .bufferAllZeros) {u : List UInt8}
    (width : u.length = x.length) :
    rtlDecompressBufferLznt1 (.separate (r.out.take r.size)) u 0 x.length 0 r.size =
      .ok ⟨.success, x, x.length⟩ := by
  obtain ⟨c, stream, image, size⟩ := result.image success
  have run := rtlDecompressBufferLznt1_stream stream (by omega : 0 + _ ≤ u.length) (at_self c)
  rw [blit_full width] at run
  rw [image, size, run]

/-- **LZNT1 round trip.**  Whatever the engine, the workspace, the size and the
content of the compressed buffer and the content of the output buffer: what a
successful compression of `x` stored decompresses to `x`. -/
theorem lznt1_roundTrip (x memory out u : List UInt8) (start : Nat) (placed : At memory start x)
    (some : x ≠ []) (width : u.length = x.length) :
    (∀ (engine : CompressionEngine) (workspace : Workspace) (r : Encoded Workspace),
      rtlCompressBufferLznt1 engine memory start x.length out 0 out.length workspace = .ok r →
      r.status = .success ∨ r.status = .bufferAllZeros →
      rtlDecompressBufferLznt1 (.separate (r.out.take r.size)) u 0 x.length 0 r.size =
        .ok ⟨.success, x, x.length⟩) ∧
    (∀ (engine : CompressionEngine) (workspace : HiberWorkspace) (r : Encoded HiberWorkspace),
      rtlCompressBufferLznt1Hiber engine memory start x.length out 0 out.length workspace = .ok r →
      r.status = .success ∨ r.status = .bufferAllZeros →
      rtlDecompressBufferLznt1 (.separate (r.out.take r.size)) u 0 x.length 0 r.size =
        .ok ⟨.success, x, x.length⟩) :=
  ⟨fun _ _ _ run success => (rtlCompressBufferLznt1_ok placed some run).decompress success width,
    fun _ _ _ run success =>
      (rtlCompressBufferLznt1Hiber_ok placed some run).decompress success width⟩

/-- The part of a compression's result that can be compared. -/
def Encoded.observed {W : Type} (r : Encoded W) : NtStatus × List UInt8 × Nat :=
  (r.status, r.out, r.size)

theorem exists_of_observed {run : Except Fault (Encoded W)} {result : NtStatus × List UInt8 × Nat}
    (h : run.map Encoded.observed = .ok result) : ∃ r, run = .ok r ∧ r.observed = result := by
  cases run with
  | error => exact nomatch h
  | ok r => exact ⟨r, rfl, Except.ok.inj h⟩

/-- Ten bytes with a repetition, compressed to a literal, a literal and a copy. -/
theorem lznt1_roundTrip_repeated : ∃ r : Encoded Workspace,
      rtlCompressBufferLznt1 .standard [1, 2, 1, 2, 1, 2, 1, 2, 1, 2] 0 10
        (List.replicate 16 0) 0 16 ⟨0, 0, 0, 0, fun _ => (3, 5)⟩ = .ok r ∧
      r.size = 7 ∧
      rtlDecompressBufferLznt1 (.separate (r.out.take r.size)) (List.replicate 10 9) 0 10 0 r.size =
        .ok ⟨.success, [1, 2, 1, 2, 1, 2, 1, 2, 1, 2], 10⟩ := by
  obtain ⟨r, run, observed⟩ := exists_of_observed (by decide +kernel :
    (rtlCompressBufferLznt1 .standard [1, 2, 1, 2, 1, 2, 1, 2, 1, 2] 0 10
      (List.replicate 16 0) 0 16 ⟨0, 0, 0, 0, fun _ => (3, 5)⟩).map Encoded.observed =
    .ok (.success, [4, 176, 4, 1, 2, 5, 16, 0, 0, 0, 0, 0, 0, 0, 0, 0], 7))
  simp only [Encoded.observed, Prod.mk.injEq] at observed
  exact ⟨r, run, observed.2.2,
    (lznt1_roundTrip [1, 2, 1, 2, 1, 2, 1, 2, 1, 2] [1, 2, 1, 2, 1, 2, 1, 2, 1, 2]
      (List.replicate 16 0) (List.replicate 10 9) 0 (at_self _) (by decide) (by decide)).1
      .standard _ r run (Or.inl observed.1)⟩

end Routines

end Ntoskrnl.Rtl.Lznt1
