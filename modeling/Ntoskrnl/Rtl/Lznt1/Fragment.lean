/-
# Ntoskrnl.Rtl.Lznt1.Fragment -- extracting part of a compressed buffer

`RtlDecompressFragmentLZNT1` skips chunks by their headers, then takes what it
needs of each following chunk: a stored chunk is copied in part, a compressed
chunk is expanded straight into the fragment when all of it is wanted and
through a workspace of one chunk otherwise.

`fragmentLoop_stream` says that from any chunk of a stream on this yields the
wanted bytes of the original, by induction over the chunks that are left.
-/
import Ntoskrnl.Rtl.Lznt1.RoundTrip

namespace Ntoskrnl.Rtl.Lznt1

open Base Lib.Checked Lib.Lz77 List

set_option autoImplicit false

/-! ## Skipping chunks -/

/-- The state in which the fragment is extracted: the chunk it starts in, and its
offset from the start of that chunk. -/
structure SkipState where
  chunkHeader : Nat
  compressedChunk : Nat
  fragmentOffset : Nat
  deriving DecidableEq, Repr

/-- Skipping reaches the first chunk of the fragment or ends the call. -/
inductive SkipResult where
  | reached (s : SkipState)
  | ended (status : NtStatus) (size : Nat)
  deriving DecidableEq, Repr

/-- The loop `while (FragmentOffset >= UncompressedChunkSize)`. -/
def skipLoop (source : Source) (endOfCompressedBuffer : Nat) (memory : List UInt8)
    (s : SkipState) : Except Fault SkipResult :=
  if getUncompressedChunkSize s.chunkHeader ≤ s.fragmentOffset then
    if endOfCompressedBuffer < s.compressedChunk + getCompressedChunkSize s.chunkHeader then
      .ok (.ended .badCompressionBuffer s.compressedChunk)
    else if endOfCompressedBuffer <
        s.compressedChunk + getCompressedChunkSize s.chunkHeader + 2 then
      .ok (.ended .success 0)
    else do
      let chunkHeader ← source.readUshort memory
        (s.compressedChunk + getCompressedChunkSize s.chunkHeader)
      if chunkHeader = 0 then return .ended .success 0
      else
        skipLoop source endOfCompressedBuffer memory
          { chunkHeader
            compressedChunk := s.compressedChunk + getCompressedChunkSize s.chunkHeader
            fragmentOffset := s.fragmentOffset - getUncompressedChunkSize s.chunkHeader }
  else .ok (.reached s)
termination_by s.fragmentOffset
decreasing_by
  have := getUncompressedChunkSize_eq s.chunkHeader
  omega

/-! ## Extracting -/

structure FragmentState where
  fragment : List UInt8
  workSpace : List UInt8
  chunkHeader : Nat
  compressedChunk : Nat
  fragmentOffset : Nat
  uncompressedFragmentSize : Nat
  currentUncompressedFragment : Nat
  deriving DecidableEq, Repr

/-- What becomes of the bytes wanted of one chunk: `copySize` bytes were copied,
the chunk ended before them and so does the call, or the chunk is ill-formed. -/
inductive CopyResult where
  | copied (fragment workSpace : List UInt8) (copySize : Nat)
  | short (fragment : List UInt8) (count : Nat)
  | fail (status : NtStatus) (fragment : List UInt8) (size : Nat)
  deriving DecidableEq, Repr

section Extract

variable (source : Source) (endOfUncompressedFragment endOfCompressedBuffer : Nat)

variable (s : FragmentState) (copySize : Nat)

/-- The chunk is expanded straight into the fragment. -/
def expandDirect : Except Fault CopyResult := do
  let chunk ← lznt1DecompressChunk source s.fragment s.currentUncompressedFragment
    endOfUncompressedFragment (s.compressedChunk + 2)
    (s.compressedChunk + getCompressedChunkSize s.chunkHeader)
  if chunk.status.ntSuccess then return .copied chunk.memory s.workSpace chunk.size
  else return .fail chunk.status chunk.memory chunk.size

/-- The chunk is expanded into the workspace and the part that is wanted copied
from there. -/
def expandWorkSpace : Except Fault CopyResult := do
  let chunk ← lznt1DecompressChunk source s.workSpace 0 maxUncompressedChunkSize
    (s.compressedChunk + 2) (s.compressedChunk + getCompressedChunkSize s.chunkHeader)
  if chunk.status.ntSuccess then
    let count := ulongSub chunk.size s.fragmentOffset
    if count < copySize then
      let fragment ← copyMemory (.separate chunk.memory) s.fragment s.currentUncompressedFragment
        s.fragmentOffset count
      return .short fragment count
    else
      let fragment ← copyMemory (.separate chunk.memory) s.fragment s.currentUncompressedFragment
        s.fragmentOffset copySize
      return .copied fragment chunk.memory copySize
  else return .fail chunk.status s.fragment chunk.size

/-- The part of the loop body that copies what is wanted of one chunk. -/
def copyChunk : Except Fault CopyResult :=
  if isChunkCompressed s.chunkHeader then
    if s.fragmentOffset = 0 ∧ copySize = getUncompressedChunkSize s.chunkHeader then
      expandDirect source endOfUncompressedFragment s
    else expandWorkSpace source s copySize
  else if endOfCompressedBuffer < s.compressedChunk + 2 + s.fragmentOffset + copySize then
    .ok (.fail .badCompressionBuffer s.fragment s.compressedChunk)
  else do
    let fragment ← copyMemory source s.fragment s.currentUncompressedFragment
      (s.compressedChunk + 2 + s.fragmentOffset) copySize
    return .copied fragment s.workSpace copySize

/-- How a pass through the extraction loop ends. -/
inductive FragmentStep where
  | next (s : FragmentState)
  | done (d : Decoded)
  deriving DecidableEq, Repr

/-- The tail of the loop body: `s` has its offsets advanced already. -/
def nextFragment : Except Fault FragmentStep :=
  if s.uncompressedFragmentSize = 0 then
    .ok (.done ⟨.success, s.fragment, s.currentUncompressedFragment⟩)
  else if endOfCompressedBuffer < s.compressedChunk + getCompressedChunkSize s.chunkHeader + 2 then
    .ok (.done ⟨.success, s.fragment, s.currentUncompressedFragment⟩)
  else do
    let chunkHeader ← source.readUshort s.fragment
      (s.compressedChunk + getCompressedChunkSize s.chunkHeader)
    if chunkHeader = 0 then
      return .done ⟨.success, s.fragment, s.currentUncompressedFragment⟩
    else
      return .next
        { s with
          chunkHeader
          compressedChunk := s.compressedChunk + getCompressedChunkSize s.chunkHeader }

/-- One pass through the extraction loop. -/
def fragmentStep : Except Fault FragmentStep :=
  if endOfCompressedBuffer < s.compressedChunk + getCompressedChunkSize s.chunkHeader then
    .ok (.done ⟨.badCompressionBuffer, s.fragment, s.compressedChunk⟩)
  else do
    let copySize := min (getUncompressedChunkSize s.chunkHeader - s.fragmentOffset)
      s.uncompressedFragmentSize
    match ← copyChunk source endOfUncompressedFragment endOfCompressedBuffer s copySize with
    | .fail status fragment size => return .done ⟨status, fragment, size⟩
    | .short fragment count =>
      return .done ⟨.success, fragment, s.currentUncompressedFragment + count⟩
    | .copied fragment workSpace copySize =>
      nextFragment source endOfCompressedBuffer
        { s with
          fragment
          workSpace
          fragmentOffset := 0
          uncompressedFragmentSize := s.uncompressedFragmentSize - copySize
          currentUncompressedFragment := s.currentUncompressedFragment + copySize }

end Extract

variable {source : Source}

section Progress

variable {endF endC : Nat} {s s' : FragmentState}

theorem nextFragment_next (run : nextFragment source endC s = .ok (.next s')) :
    s.compressedChunk < s'.compressedChunk ∧ s'.compressedChunk ≤ endC := by
  have positive : 3 ≤ getCompressedChunkSize s.chunkHeader := Nat.le_add_left 3 _
  unfold nextFragment at run
  split at run
  · simp at run
  split at run
  · simp at run
  · obtain ⟨chunkHeader, -, run⟩ := bind_eq_ok.mp run
    split at run
    · simp [pure, Except.pure] at run
    · obtain rfl := FragmentStep.next.inj (pure_eq_ok.mp run)
      simp only
      omega

theorem fragmentStep_next (run : fragmentStep source endF endC s = .ok (.next s')) :
    s.compressedChunk < s'.compressedChunk ∧ s'.compressedChunk ≤ endC := by
  unfold fragmentStep at run
  split at run
  · simp at run
  · obtain ⟨result, -, run⟩ := bind_eq_ok.mp run
    cases result with
    | copied =>
      have moved := nextFragment_next run
      exact moved
    | short | fail => simp [pure, Except.pure] at run

end Progress

/-- The extraction loop of `RtlDecompressFragmentLZNT1`. -/
def fragmentLoop (source : Source) (endOfUncompressedFragment endOfCompressedBuffer : Nat)
    (s : FragmentState) : Except Fault Decoded :=
  match _ : fragmentStep source endOfUncompressedFragment endOfCompressedBuffer s with
  | .error fault => .error fault
  | .ok (.done d) => .ok d
  | .ok (.next s') =>
    fragmentLoop source endOfUncompressedFragment endOfCompressedBuffer s'
termination_by endOfCompressedBuffer - s.compressedChunk
decreasing_by
  have := fragmentStep_next ‹_›
  omega

def rtlDecompressFragmentLznt1 (fragment : List UInt8) (uncompressedFragmentSize : Nat)
    (source : Source) (compressedBuffer compressedBufferSize fragmentOffset : Nat)
    (workSpace : List UInt8) : Except Fault Decoded := do
  let chunkHeader ← source.readUshort fragment compressedBuffer
  let endOfCompressedBuffer := compressedBuffer + compressedBufferSize
  match ← skipLoop source endOfCompressedBuffer fragment
      { chunkHeader, compressedChunk := compressedBuffer, fragmentOffset } with
  | .ended status size => return ⟨status, fragment, size⟩
  | .reached s =>
    fragmentLoop source uncompressedFragmentSize endOfCompressedBuffer
      { fragment
        workSpace
        chunkHeader := s.chunkHeader
        compressedChunk := s.compressedChunk
        fragmentOffset := s.fragmentOffset
        uncompressedFragmentSize
        currentUncompressedFragment := 0 }

/-! ## Fragments of a stream -/

variable {c memory : List UInt8}

section Stream

variable {full x : List UInt8}

theorem Stream.readUshort {p : Nat} (stream : Stream x c) (placed : At full p c) :
    ∃ header, (Source.separate full).readUshort memory p = .ok header ∧ header ≠ 0 := by
  obtain ⟨header, rest, shape, bound, nonzero⟩ := stream.header
  rw [shape] at placed
  exact ⟨header, (Source.holds_separate placed).left.readUshort bound, nonzero⟩

theorem Stream.two_le (stream : Stream x c) : 2 ≤ c.length := by
  obtain ⟨header, rest, shape, -, -⟩ := stream.header
  rw [shape, length_append, ushortBytes_length]
  omega

variable {y : List UInt8} {o n i : Nat} {m : List UInt8}

theorem ChunkImage.size_of_header {p header : Nat} (image : ChunkImage y c) (some : y ≠ [])
    (placed : At full p c) (read : (Source.separate full).readUshort memory p = .ok header) :
    getCompressedChunkSize header = c.length := by
  obtain ⟨low, high, compressed, body, shape⟩ := image.header some
  rw [shape] at placed
  rw [(Source.holds_separate placed).left.readUshort (setCompressedChunkHeader_lt _ _)] at read
  obtain rfl := Except.ok.inj read
  exact getCompressedChunkSize_set compressed (by omega) high

/-- **Skipping reaches the chunk that holds the offset.** -/
theorem skipLoop_stream (stream : Stream x c) :
    ∀ s : SkipState, At full s.compressedChunk c → s.compressedChunk + c.length = full.length →
      (Source.separate full).readUshort memory s.compressedChunk = .ok s.chunkHeader →
      s.fragmentOffset < x.length →
      ∃ s' x' c', skipLoop (.separate full) full.length memory s = .ok (.reached s') ∧
        Stream x' c' ∧ At full s'.compressedChunk c' ∧
        s'.compressedChunk + c'.length = full.length ∧
        (Source.separate full).readUshort memory s'.compressedChunk = .ok s'.chunkHeader ∧
        s'.fragmentOffset < 4096 ∧ x'.drop s'.fragmentOffset = x.drop s.fragmentOffset := by
  induction stream with
  | @last y c some short image =>
    intro s placed ends read inside
    refine ⟨s, y, c, ?_, .last some short image, placed, ends, read, by omega, rfl⟩
    rw [skipLoop, if_neg (by rw [getUncompressedChunkSize_eq]; omega)]
  | @more y c x rest width image tail ih =>
    intro s placed ends read inside
    obtain ⟨here, there⟩ := at_append.mp placed
    have some : y ≠ [] := ne_nil_of_length_pos (by omega)
    have size := image.size_of_header some here read
    rw [length_append] at ends inside
    -- a chunk in front of the fragment is passed by its header
    by_cases skip : 4096 ≤ s.fragmentOffset
    · obtain ⟨header, read', nonzero⟩ := @Stream.readUshort _ memory _ _ _ tail there
      have two := tail.two_le
      obtain ⟨s', x', c', run, found⟩ := ih
        ⟨header, s.compressedChunk + c.length, s.fragmentOffset - 4096⟩ there (by simp only; omega)
        read' (by simp only; omega)
      refine ⟨s', x', c', ?_, ?_⟩
      · rw [skipLoop, if_pos (by rw [getUncompressedChunkSize_eq]; exact skip), size,
          if_neg (by omega), if_neg (by omega), read']
        simp only [bind, Except.bind, if_neg nonzero]
        exact run
      · rw [drop_append, drop_eq_nil_of_le (by omega : y.length ≤ s.fragmentOffset),
          nil_append, width]
        exact found
    · refine ⟨s, y ++ x, c ++ rest, ?_, .more width image tail, placed, ?_, read, by omega,
        rfl⟩
      · rw [skipLoop, if_neg (by rw [getUncompressedChunkSize_eq]; exact skip)]
      · rw [length_append]
        omega

/-- The `n` bytes of `y` from offset `o` on. -/
def slice (y : List UInt8) (o n : Nat) : List UInt8 :=
  (y.drop o).take n

theorem slice_length (inside : o + n ≤ y.length) : (slice y o n).length = n := by
  rw [slice, length_take, length_drop]
  omega

theorem at_slice (placed : At m i y) (inside : o + n ≤ y.length) : At m (i + o) (slice y o n) := by
  intro k hk
  rw [slice_length inside] at hk
  rw [slice, getElem?_take_of_lt hk, getElem?_drop, Nat.add_assoc]
  exact placed (o + k) (by omega)

/-- Part of what the source holds is copied. -/
theorem copyMemory_slice {target : Nat} (placed : At m i y) (inside : o + n ≤ y.length)
    (room : target + n ≤ memory.length) :
    copyMemory (.separate m) memory target (i + o) n = .ok (blit memory target (slice y o n)) := by
  have width := slice_length inside
  have copied := (Source.holds_separate (at_slice placed inside)).copies
    (by omega : target + (slice y o n).length ≤ memory.length)
  rwa [width] at copied

variable {s : FragmentState} {groups : List (List ByteToken)} {copySize : Nat}

section Body

variable (some : y ≠ []) (short : y.length ≤ 4096) (spells : Spells y groups)
  (body : At full (s.compressedChunk + 2) (bodyBytes 0 groups))
  (size : getCompressedChunkSize s.chunkHeader = 2 + (bodyBytes 0 groups).length)

include some short spells body size

/-- All of a compressed chunk is wanted: it is expanded in place. -/
theorem expandDirect_body (room : s.currentUncompressedFragment + y.length ≤ s.fragment.length) :
    expandDirect (.separate full) s.fragment.length s =
      .ok (.copied (blit s.fragment s.currentUncompressedFragment y) s.workSpace y.length) := by
  have expanded : lznt1DecompressChunk (.separate full) s.fragment
      s.currentUncompressedFragment s.fragment.length (s.compressedChunk + 2)
      (s.compressedChunk + getCompressedChunkSize s.chunkHeader) =
      .ok ⟨.success, blit s.fragment s.currentUncompressedFragment y, y.length⟩ :=
    lznt1DecompressChunk_body room room short some spells (Source.holds_separate body)
      (paced_separate groups 0 _) (by omega)
  rw [expandDirect, expanded]
  rfl

/-- Part of a compressed chunk is wanted: it is copied from the workspace. -/
theorem expandWorkSpace_body (wanted : s.fragmentOffset + copySize ≤ y.length)
    (room : s.currentUncompressedFragment + copySize ≤ s.fragment.length)
    (workSpace : s.workSpace.length = 4096) :
    expandWorkSpace (.separate full) s copySize =
      .ok (.copied (blit s.fragment s.currentUncompressedFragment
        (slice y s.fragmentOffset copySize)) (blit s.workSpace 0 y) copySize) := by
  have limit : 0 + y.length ≤ maxUncompressedChunkSize := by
    rw [maxUncompressedChunkSize_eq]
    omega
  have fits : 0 + y.length ≤ s.workSpace.length := by omega
  have expanded : lznt1DecompressChunk (.separate full) s.workSpace 0 maxUncompressedChunkSize
      (s.compressedChunk + 2) (s.compressedChunk + getCompressedChunkSize s.chunkHeader) =
      .ok ⟨.success, blit s.workSpace 0 y, y.length⟩ :=
    lznt1DecompressChunk_body fits limit short some spells (Source.holds_separate body)
      (paced_separate groups 0 _) (by omega)
  have enough : ulongSub y.length s.fragmentOffset = y.length - s.fragmentOffset :=
    ulongSub_eq (by omega) (by omega)
  have copied := copyMemory_slice (at_blit fits) wanted room
  rw [Nat.zero_add] at copied
  rw [expandWorkSpace, expanded, ok_bind]
  rw [if_pos NtStatus.ntSuccess_success, if_neg (by rw [enough]; omega), copied]
  rfl

end Body

section Image

variable (image : ChunkImage y c) (some : y ≠ []) (short : y.length ≤ 4096)
  (placed : At full s.compressedChunk c) (ends : s.compressedChunk + c.length ≤ full.length)
  (read : (Source.separate full).readUshort s.fragment s.compressedChunk = .ok s.chunkHeader)

include image some short placed ends read

/-- **What is wanted of a chunk is copied**, whichever way the code takes. -/
theorem copyChunk_image (wanted : s.fragmentOffset + copySize ≤ y.length)
    (room : s.currentUncompressedFragment + copySize ≤ s.fragment.length)
    (workSpace : s.workSpace.length = 4096) :
    ∃ workSpace', workSpace'.length = 4096 ∧
      copyChunk (.separate full) s.fragment.length full.length s copySize =
        .ok (.copied (blit s.fragment s.currentUncompressedFragment
          (slice y s.fragmentOffset copySize)) workSpace' copySize) := by
  have size := image.size_of_header some placed read
  cases image with
  | compressed groups spells =>
    rw [(Source.holds_separate placed).left.readUshort (setCompressedChunkHeader_lt _ _)] at read
    have header := (Except.ok.inj read).symm
    have body := (at_append.mp placed).2
    rw [length_append] at size
    unfold copyChunk
    rw [if_pos (by rw [header, isChunkCompressed_set])]
    split
    · next whole =>
      -- all of the chunk is wanted: it is expanded in place
      have all := whole.2
      rw [getUncompressedChunkSize_eq] at all
      have everything : slice y s.fragmentOffset copySize = y := by
        rw [slice, whole.1, drop_zero, take_of_length_le (by omega)]
      have count : copySize = y.length := by omega
      rw [everything, count]
      exact ⟨s.workSpace, workSpace, expandDirect_body some short spells body size (by omega)⟩
    · exact ⟨blit s.workSpace 0 y, by rw [blit_length (by omega), workSpace],
        expandWorkSpace_body some short spells body size wanted room workSpace⟩
  | stored data whole front =>
    rw [(Source.holds_separate placed).left.readUshort (setCompressedChunkHeader_lt _ _)] at read
    have header := (Except.ok.inj read).symm
    have body := (at_append.mp placed).2
    rw [ushortBytes_length, ← take_append_drop y.length data, front] at body
    simp only [length_append, ushortBytes_length, whole] at ends
    refine ⟨s.workSpace, workSpace, ?_⟩
    unfold copyChunk
    rw [if_neg (by rw [header]; decide), if_neg (by omega),
      copyMemory_slice (at_append.mp body).1 wanted room]
    rfl

/-- A pass over a chunk of a stream copies what is wanted of it. -/
theorem fragmentStep_image
    (size : min (4096 - s.fragmentOffset) s.uncompressedFragmentSize = copySize)
    (wanted : s.fragmentOffset + copySize ≤ y.length)
    (room : s.currentUncompressedFragment + s.uncompressedFragmentSize = s.fragment.length)
    (workSpace : s.workSpace.length = 4096) :
    ∃ workSpace', workSpace'.length = 4096 ∧
      fragmentStep (.separate full) s.fragment.length full.length s =
        nextFragment (.separate full) full.length
          { s with
            fragment := blit s.fragment s.currentUncompressedFragment
              (slice y s.fragmentOffset copySize)
            workSpace := workSpace'
            fragmentOffset := 0
            uncompressedFragmentSize := s.uncompressedFragmentSize - copySize
            currentUncompressedFragment := s.currentUncompressedFragment + copySize } := by
  obtain ⟨workSpace', length, copied⟩ := copyChunk_image image some short placed ends read wanted
    (by omega) workSpace
  have chunk := image.size_of_header some placed read
  refine ⟨workSpace', length, ?_⟩
  unfold fragmentStep
  rw [if_neg (by omega)]
  simp only [getUncompressedChunkSize_eq, size, copied]
  rfl

end Image

theorem fragmentLoop_done {endF endC : Nat} {d : Decoded}
    (run : fragmentStep source endF endC s = .ok (.done d)) :
    fragmentLoop source endF endC s = .ok d := by
  rw [fragmentLoop]
  split <;> simp_all

theorem fragmentLoop_next {endF endC : Nat} {s' : FragmentState}
    (run : fragmentStep source endF endC s = .ok (.next s')) :
    fragmentLoop source endF endC s = fragmentLoop source endF endC s' := by
  rw [fragmentLoop]
  split <;> simp_all

/-- **From any chunk on the loop extracts the rest of the fragment.** -/
theorem fragmentLoop_stream (stream : Stream x c) :
    ∀ s : FragmentState, At full s.compressedChunk c → s.compressedChunk + c.length = full.length →
      (Source.separate full).readUshort s.fragment s.compressedChunk = .ok s.chunkHeader →
      s.fragmentOffset < 4096 → 0 < s.uncompressedFragmentSize →
      s.fragmentOffset + s.uncompressedFragmentSize ≤ x.length →
      s.currentUncompressedFragment + s.uncompressedFragmentSize = s.fragment.length →
      s.workSpace.length = 4096 →
      fragmentLoop (.separate full) s.fragment.length full.length s =
        .ok ⟨.success, blit s.fragment s.currentUncompressedFragment
          (slice x s.fragmentOffset s.uncompressedFragmentSize), s.fragment.length⟩ := by
  induction stream with
  | @last y c some short image =>
    intro s placed ends read _ _ wanted room workSpace
    obtain ⟨workSpace', -, step⟩ := fragmentStep_image image some short placed
      (Nat.le_of_eq ends) read (by omega) wanted room workSpace
    rw [nextFragment, if_pos (Nat.sub_self _)] at step
    rw [fragmentLoop_done step, room]
  | @more y c x rest width image tail ih =>
    intro s placed ends read low positive wanted room workSpace
    have some : y ≠ [] := ne_nil_of_length_pos (by omega)
    obtain ⟨here, there⟩ := at_append.mp placed
    rw [length_append] at ends wanted
    have chunk := image.size_of_header some here read
    -- the fragment ends in this chunk or goes on in the next one
    by_cases last : s.fragmentOffset + s.uncompressedFragmentSize ≤ 4096
    · obtain ⟨workSpace', -, step⟩ := fragmentStep_image image some (Nat.le_of_eq width) here
        (by omega) read (by omega : _ = s.uncompressedFragmentSize) (by omega) room workSpace
      rw [nextFragment, if_pos (Nat.sub_self _)] at step
      have inside : slice (y ++ x) s.fragmentOffset s.uncompressedFragmentSize =
          slice y s.fragmentOffset s.uncompressedFragmentSize := by
        rw [slice, slice, drop_append_of_le_length (by omega),
          take_append_of_le_length (by rw [length_drop]; omega)]
      rw [fragmentLoop_done step, room, inside]
    · have size : min (4096 - s.fragmentOffset) s.uncompressedFragmentSize =
          4096 - s.fragmentOffset := by omega
      obtain ⟨workSpace', length, step⟩ := fragmentStep_image image some (Nat.le_of_eq width)
        here (by omega) read size (by omega) room workSpace
      have front := slice_length (by omega : s.fragmentOffset + (4096 - s.fragmentOffset) ≤ y.length)
      generalize isFirst : slice y s.fragmentOffset (4096 - s.fragmentOffset) = first at step front
      have fits : s.currentUncompressedFragment + first.length ≤ s.fragment.length := by omega
      have whole := blit_length fits
      obtain ⟨header, read', nonzero⟩ := @Stream.readUshort _
        (blit s.fragment s.currentUncompressedFragment first) _ _ _ tail there
      have two := tail.two_le
      have follow := ih ⟨blit s.fragment s.currentUncompressedFragment first, workSpace', header,
          s.compressedChunk + c.length, 0,
          s.uncompressedFragmentSize - (4096 - s.fragmentOffset),
          s.currentUncompressedFragment + (4096 - s.fragmentOffset)⟩
        there (by simp only; omega) read' (Nat.zero_lt_succ 4095) (by simp only; omega)
        (by simp only; omega) (by simp only; omega) length
      simp only [nextFragment, chunk, read', bind, Except.bind, if_neg nonzero] at step
      rw [if_neg (by omega), if_neg (by omega)] at step
      rw [fragmentLoop_next step]
      simp only [whole] at follow
      -- the two parts of the fragment make one slice
      have joined : slice (y ++ x) s.fragmentOffset s.uncompressedFragmentSize =
          first ++ slice x 0 (s.uncompressedFragmentSize - (4096 - s.fragmentOffset)) := by
        have all : (y.drop s.fragmentOffset).length = 4096 - s.fragmentOffset := by
          rw [length_drop, width]
        rw [← isFirst, slice, slice, slice, drop_append_of_le_length (by omega), take_append, all,
          drop_zero, take_of_length_le (by omega : (y.drop s.fragmentOffset).length ≤ _),
          take_of_length_le (by omega : (y.drop s.fragmentOffset).length ≤ _)]
      have stitched := @blit_blit _ s.fragment
        (slice x 0 (s.uncompressedFragmentSize - (4096 - s.fragmentOffset))) first
        s.currentUncompressedFragment (by rw [slice_length (by omega : 0 + _ ≤ x.length)]; omega)
      rw [front] at stitched
      rw [joined, ← stitched]
      exact follow

/-- **Fragments of a stream.** -/
theorem rtlDecompressFragmentLznt1_stream {fragment workSpace : List UInt8} (stream : Stream x c)
    (some : 0 < n) (inside : o + n ≤ x.length) (room : fragment.length = n)
    (scratch : workSpace.length = 4096) :
    rtlDecompressFragmentLznt1 fragment n (.separate c) 0 c.length o workSpace =
      .ok ⟨.success, slice x o n, n⟩ := by
  obtain ⟨header, read, -⟩ := @Stream.readUshort c fragment _ _ 0 stream (at_self c)
  obtain ⟨s, x', c', skip, stream', placed, ends, read', low, same⟩ := skipLoop_stream stream
    ⟨header, 0, o⟩ (at_self c) (Nat.zero_add _) read (by simp only; omega)
  have rest : o + n ≤ x.length ∧ x'.length - s.fragmentOffset = x.length - o := by
    refine ⟨inside, ?_⟩
    have := congrArg length same
    simpa only [length_drop] using this
  have run := fragmentLoop_stream stream'
    ⟨fragment, workSpace, s.chunkHeader, s.compressedChunk, s.fragmentOffset, n, 0⟩ placed ends
    read' low some (by simp only; omega) (by simp only; omega) scratch
  have wanted : slice x' s.fragmentOffset n = slice x o n := by
    rw [slice, same, slice]
  simp only [wanted, room] at run
  rw [blit_full (by rw [slice_length inside, room])] at run
  unfold rtlDecompressFragmentLznt1
  simp only [read, bind, Except.bind, Nat.zero_add, skip]
  exact run

end Stream

/-- **A fragment of a compressed buffer is the fragment of the original.**  For
every engine, workspace and compressed buffer, and for any content of the
fragment buffer and of the fragment workspace. -/
theorem lznt1_fragment (x memory out fragment workSpace : List UInt8) (start o n : Nat)
    (placed : At memory start x) (some : 0 < n) (inside : o + n ≤ x.length)
    (room : fragment.length = n) (scratch : workSpace.length = 4096) :
    (∀ (engine : CompressionEngine) (workspace : Workspace) (r : Encoded Workspace),
      rtlCompressBufferLznt1 engine memory start x.length out 0 out.length workspace = .ok r →
      r.status = .success ∨ r.status = .bufferAllZeros →
      rtlDecompressFragmentLznt1 fragment n (.separate (r.out.take r.size)) 0 r.size o workSpace =
        .ok ⟨.success, slice x o n, n⟩) ∧
    (∀ (engine : CompressionEngine) (workspace : HiberWorkspace) (r : Encoded HiberWorkspace),
      rtlCompressBufferLznt1Hiber engine memory start x.length out 0 out.length workspace = .ok r →
      r.status = .success ∨ r.status = .bufferAllZeros →
      rtlDecompressFragmentLznt1 fragment n (.separate (r.out.take r.size)) 0 r.size o workSpace =
        .ok ⟨.success, slice x o n, n⟩) := by
  have nonempty : x ≠ [] := ne_nil_of_length_pos (by omega)
  refine ⟨fun _ _ _ run success => ?_, fun _ _ _ run success => ?_⟩
  · obtain ⟨c, stream, image, size⟩ := (rtlCompressBufferLznt1_ok placed nonempty run).image success
    rw [image, size]
    exact rtlDecompressFragmentLznt1_stream stream some inside room scratch
  · obtain ⟨c, stream, image, size⟩ :=
      (rtlCompressBufferLznt1Hiber_ok placed nonempty run).image success
    rw [image, size]
    exact rtlDecompressFragmentLznt1_stream stream some inside room scratch

/-- Three bytes from the middle of ten. -/
theorem lznt1_fragment_middle : ∃ r : Encoded Workspace,
      rtlCompressBufferLznt1 .maximum [1, 2, 3, 1, 2, 3, 1, 2, 3, 4] 0 10
        (replicate 16 0) 0 16 ⟨0, 0, 0, 0, fun _ => (0, 0)⟩ = .ok r ∧
      rtlDecompressFragmentLznt1 [9, 9, 9] 3 (.separate (r.out.take r.size)) 0 r.size 2
        (replicate 4096 0) = .ok ⟨.success, [3, 1, 2], 3⟩ := by
  obtain ⟨r, run, observed⟩ := exists_of_observed (by decide +kernel :
    (rtlCompressBufferLznt1 .maximum [1, 2, 3, 1, 2, 3, 1, 2, 3, 4] 0 10
      (replicate 16 0) 0 16 ⟨0, 0, 0, 0, fun _ => (0, 0)⟩).map Encoded.observed =
    .ok (.success, [6, 176, 8, 1, 2, 3, 3, 32, 4, 0, 0, 0, 0, 0, 0, 0], 9))
  simp only [Encoded.observed, Prod.mk.injEq] at observed
  exact ⟨r, run, (lznt1_fragment [1, 2, 3, 1, 2, 3, 1, 2, 3, 4] [1, 2, 3, 1, 2, 3, 1, 2, 3, 4]
      (replicate 16 0) [9, 9, 9] (replicate 4096 0) 0 2 3 (at_self _) (by decide)
      (by decide) rfl length_replicate).1 .maximum _ r run (Or.inl observed.1)⟩

end Ntoskrnl.Rtl.Lznt1
