/-
# Ntoskrnl.Mm.Vad.Downwards -- the highest empty range of addresses

`MiFindEmptyAddressRangeDownTree` looks for room from a limit downwards: above the last
node, then between each two neighbours, then below the first node.  The start a range
just below the limit would have is computed once; a gap the limit falls into gives out
that start.

Above the last node and between neighbours the answer is right.  Below the first node
it is aligned downwards without a second look, and ends up below the lowest user address
if no aligned range of the size lies there; and a size that rounding to pages carries out
of the word is taken for zero.  `downwards_sound_iff` says when the answer is right.
-/
import Ntoskrnl.Mm.Vad.Upwards

namespace Ntoskrnl.Mm.Vad

set_option autoImplicit false

open Lib.LinkedTree Lib.SplayTree List

/-! ## The search -/

inductive DownSearch where
  | success (base : Nat)
  | noMemory
deriving DecidableEq, Repr

variable {rest back : List Addr} {node first last previous : Addr} {base : Nat}

section Down

variable (arch : Platform) (m : Memory) (sizeOfRange highest alignment : Nat)

/-- The size as the routine uses it. -/
def roundedSize : Nat := arch.roundToSize sizeOfRange pageSize

/-- `OptimalStart`. -/
def optimalStart : Nat :=
  alignToSize (highest + 1 - roundedSize arch sizeOfRange) alignment

/-- The answer from the gap above the last node, if there is room. -/
def baseAbove (last : Addr) : Option Nat :=
  let alignedEndingVa := baseBehind arch m alignment last
  if alignedEndingVa < highest then
    if roundedSize arch sizeOfRange < highest - alignedEndingVa then
      some (alignToSize (highest - roundedSize arch sizeOfRange) alignment)
    else none
  else none

/-- The answer that ends right below a node. -/
def baseBefore (node : Addr) : Nat :=
  alignToSize (arch.sub (vpnToVa (m.startingVpn node)) (roundedSize arch sizeOfRange))
    alignment

/-- The answer from the gap between two neighbours. -/
def baseBetween (previous node : Addr) : Option Nat :=
  let optimalStartVpn := vaToVpn (optimalStart arch sizeOfRange highest alignment)
  let lowest := arch.roundToSize (1 + m.endingVpn previous) (alignment / pageSize)
  if m.endingVpn previous < optimalStartVpn then
    if roundedSize arch sizeOfRange / pageSize ≤ arch.sub (m.startingVpn node) lowest then
      if m.endingVpn previous < optimalStartVpn ∧ vaToVpn highest < m.startingVpn node then
        some (optimalStart arch sizeOfRange highest alignment)
      else if lowest < m.startingVpn node then
        some (baseBefore arch m sizeOfRange alignment node)
      else none
    else none
  else none

/-- The answer from the gap below the first node. -/
def baseBelow (first : Addr) : Option Nat :=
  if vaToVpn lowestUserAddress < m.startingVpn first then
    if roundedSize arch sizeOfRange / pageSize ≤
        m.startingVpn first - vaToVpn lowestUserAddress then
      if vaToVpn highest < m.startingVpn first then
        some (optimalStart arch sizeOfRange highest alignment)
      else some (baseBefore arch m sizeOfRange alignment first)
    else none
  else none

/-- The gap above the last node passes its tests. -/
def FitsAtTop (last : Addr) : Prop :=
  baseBehind arch m alignment last < highest ∧
    roundedSize arch sizeOfRange < highest - baseBehind arch m alignment last

/-- The gap between two neighbours passes its tests. -/
def FitsInside (previous node : Addr) : Prop :=
  let lowest := arch.roundToSize (1 + m.endingVpn previous) (alignment / pageSize)
  m.endingVpn previous < vaToVpn (optimalStart arch sizeOfRange highest alignment) ∧
    roundedSize arch sizeOfRange / pageSize ≤ arch.sub (m.startingVpn node) lowest ∧
    (vaToVpn highest < m.startingVpn node ∨ lowest < m.startingVpn node)

/-- The gap below the first node passes its tests. -/
def FitsAtBottom (first : Addr) : Prop :=
  vaToVpn lowestUserAddress < m.startingVpn first ∧
    roundedSize arch sizeOfRange / pageSize ≤ m.startingVpn first - vaToVpn lowestUserAddress

/-- The loop of `MiFindEmptyAddressRangeDownTree`. -/
def downLoop (fuel : Nat) : Nat → Addr → Option DownSearch
  | 0, _ => none
  | turns + 1, node =>
    match getPreviousNode fuel m.links node with
    | none => none
    | some previous =>
      if previous ≠ null then
        match baseBetween arch m sizeOfRange highest alignment previous node with
        | some base => some (.success base)
        | none => downLoop fuel turns previous
      else
        match baseBelow arch m sizeOfRange highest alignment node with
        | some base => some (.success base)
        | none => some .noMemory

/-- `MiFindEmptyAddressRangeDownTree`. -/
def findEmptyAddressRangeDownTree (fuel : Nat) (s : Space) : Option DownSearch :=
  if highest + 1 < roundedSize arch sizeOfRange then some .noMemory
  else if s.numberGenericTableElements = 0 then
    some (.success (optimalStart arch sizeOfRange highest alignment))
  else
    match rightmost s.memory.links fuel (s.memory.links.right s.balancedRoot) with
    | none => none
    | some last =>
      match baseAbove arch s.memory sizeOfRange highest alignment last with
      | some base => some (.success base)
      | none => downLoop arch s.memory sizeOfRange highest alignment fuel fuel last

/-! ## The search over the sequence of nodes -/

/-- The loop over the nodes before the present one, the nearest first. -/
def scanDown : Addr → List Addr → DownSearch
  | node, [] =>
    match baseBelow arch m sizeOfRange highest alignment node with
    | some base => .success base
    | none => .noMemory
  | node, previous :: rest =>
    match baseBetween arch m sizeOfRange highest alignment previous node with
    | some base => .success base
    | none => scanDown previous rest

/-- The whole search in a tree with nodes, the last first. -/
def searchDown (last : Addr) (rest : List Addr) : DownSearch :=
  if highest + 1 < roundedSize arch sizeOfRange then .noMemory
  else
    match baseAbove arch m sizeOfRange highest alignment last with
    | some base => .success base
    | none => scanDown arch m sizeOfRange highest alignment last rest

variable {arch m sizeOfRange highest alignment}

variable {t : BinaryTree Addr} {fuel : Nat}

theorem baseAbove_none : baseAbove arch m sizeOfRange highest alignment last = none ↔
    ¬ FitsAtTop arch m sizeOfRange highest alignment last := by
  simp only [baseAbove, FitsAtTop]
  repeat' split
  all_goals simp_all

theorem baseBetween_none : baseBetween arch m sizeOfRange highest alignment previous node = none ↔
      ¬ FitsInside arch m sizeOfRange highest alignment previous node := by
  simp only [baseBetween, FitsInside]
  repeat' split
  all_goals simp_all

theorem baseBelow_none : baseBelow arch m sizeOfRange highest alignment first = none ↔
    ¬ FitsAtBottom arch m sizeOfRange first := by
  unfold baseBelow FitsAtBottom
  repeat' split
  all_goals simp_all

theorem downLoop_eq {top : Addr} {turns : Nat} {b : List Addr} (hangs : Hangs m.links null top t)
    (split : inorder t = rest.reverse ++ node :: b) (enough : (inorder t).length + 2 ≤ fuel)
    (turnsLeft : rest.length < turns) :
    downLoop arch m sizeOfRange highest alignment fuel turns node =
      some (scanDown arch m sizeOfRange highest alignment node rest) := by
  induction rest generalizing b node turns with
  | nil =>
    obtain ⟨turns, rfl⟩ := Nat.exists_eq_add_of_lt turnsLeft
    simp only [downLoop, getPreviousNode_eq hangs split enough, scanDown, reverse_nil,
      getLastD_nil, ne_eq, not_true, if_false]
    cases baseBelow arch m sizeOfRange highest alignment node <;> rfl
  | cons previous rest ih =>
    obtain ⟨turns, rfl⟩ := Nat.exists_eq_add_of_lt turnsLeft
    have present : previous ≠ null := by
      rintro rfl
      exact hangs.absent (by simp [split])
    simp only [downLoop, getPreviousNode_eq hangs split enough, scanDown, reverse_cons,
      getLastD_concat, ne_eq, present, not_false_eq_true, if_true]
    cases baseBetween arch m sizeOfRange highest alignment previous node with
    | some => rfl
    | none => exact ih (b := node :: b) (by simp [split]) (by rw [length_cons]; omega)

theorem findEmptyAddressRangeDownTree_eq {s : Space}
    (hangs : Hangs s.memory.links null s.balancedRoot t)
    (count : s.numberGenericTableElements = (inorder t).length)
    (sequence : inorder t = rest.reverse ++ [last]) (enough : (inorder t).length + 2 ≤ fuel) :
    findEmptyAddressRangeDownTree arch sizeOfRange highest alignment fuel s =
      some (searchDown arch s.memory sizeOfRange highest alignment last rest) := by
  unfold findEmptyAddressRangeDownTree searchDown
  by_cases large : highest + 1 < roundedSize arch sizeOfRange
  · rw [if_pos large, if_pos large]
  rw [if_neg large, if_neg large]
  cases t with
  | nil => simp at sequence
  | node =>
    have nonempty : ¬ s.numberGenericTableElements = 0 := by
      rw [count]
      simp
    rw [if_neg nonempty, hangs.anchor, rootOf_node,
      rightmost_lib, rightmost_last hangs.linked hangs.absent (by omega), sequence, getLastD_concat]
    dsimp only
    have turns : rest.length < fuel := by
      rw [sequence] at enough
      simp at enough
      omega
    cases baseAbove arch s.memory sizeOfRange highest alignment last with
    | some => rfl
    | none => exact downLoop_eq hangs sequence enough turns

/-! ## What the answer has to be -/

/-- The size rounded up to pages. -/
def pagesOf (sizeOfRange : Nat) : Nat := (sizeOfRange + (pageSize - 1)) / pageSize * pageSize

/-- A base is right: aligned, in the user range, ending at the limit or before, and free. -/
def DownwardsSound (m : Memory) (nodes : List Addr) (sizeOfRange highest alignment base : Nat) :
    Prop :=
  alignment ∣ base ∧ lowestUserAddress ≤ base ∧ base + pagesOf sizeOfRange ≤ highest + 1 ∧
    Free m nodes base (pagesOf sizeOfRange)

variable {nodes : List Addr}

theorem free_of_bytes {size : Nat} (positive : 1 ≤ size)
    (apart : ∀ n ∈ nodes, base + size ≤ vpnToVa (m.startingVpn n) ∨
      vpnToVa (m.endingVpn n + 1) ≤ base) : Free m nodes base size := by
  intro n mem
  have := apart n mem
  simp only [vpnToVa, vaToVpn, pageSize] at *
  omega

theorem vpnToVa_mono {p q : Nat} (le : p ≤ q) : vpnToVa p ≤ vpnToVa q :=
  Nat.mul_le_mul_right _ le

theorem alignToSize_spec (x : Nat) {a : Nat} (pos : 0 < a) :
    a ∣ alignToSize x a ∧ alignToSize x a ≤ x ∧ ∀ b, a ∣ b → b ≤ x → b ≤ alignToSize x a := by
  refine ⟨Nat.dvd_mul_left .., Nat.div_mul_le_self .., ?_⟩
  rintro b ⟨q, rfl⟩ atMost
  rw [Nat.mul_comm]
  refine Nat.mul_le_mul_right a ((Nat.le_div_iff_mul_le pos).mpr ?_)
  rwa [Nat.mul_comm]

theorem roundedSize_eq (atLeast : pageSize ≤ sizeOfRange)
    (stays : sizeOfRange + (pageSize - 1) < 2 ^ arch.wordBits) :
    roundedSize arch sizeOfRange = pagesOf sizeOfRange ∧ 1 ≤ pagesOf sizeOfRange ∧
      pagesOf sizeOfRange / pageSize * pageSize = pagesOf sizeOfRange := by
  refine ⟨?_, ?_, ?_⟩
  · unfold roundedSize Platform.roundToSize pagesOf
    rw [Nat.mod_eq_of_lt stays]
  · simp only [pagesOf, pageSize] at *
    omega
  · simp only [pagesOf, pageSize]
    omega

/-- A start just below the limit. -/
theorem optimalStart_spec (pos : 0 < alignment)
    (fits : ¬ highest + 1 < roundedSize arch sizeOfRange) :
    alignment ∣ optimalStart arch sizeOfRange highest alignment ∧
      optimalStart arch sizeOfRange highest alignment + roundedSize arch sizeOfRange ≤
        highest + 1 := by
  obtain ⟨divides, atMost, -⟩ :=
    alignToSize_spec (highest + 1 - roundedSize arch sizeOfRange) pos
  exact ⟨divides, by unfold optimalStart; omega⟩

/-- A start just below a node, where the size fits above a multiple of the alignment. -/
theorem baseBefore_spec {low : Nat} (pos : 0 < alignment)
    (inWord : vpnToVa (m.startingVpn node) < 2 ^ arch.wordBits)
    (fits : low + roundedSize arch sizeOfRange ≤ vpnToVa (m.startingVpn node)) :
    alignment ∣ baseBefore arch m sizeOfRange alignment node ∧
      baseBefore arch m sizeOfRange alignment node + roundedSize arch sizeOfRange ≤
        vpnToVa (m.startingVpn node) ∧
      (alignment ∣ low → low ≤ baseBefore arch m sizeOfRange alignment node) := by
  unfold baseBefore
  rw [sub_of_le (by omega) inWord]
  obtain ⟨divides, atMost, most⟩ :=
    alignToSize_spec (vpnToVa (m.startingVpn node) - roundedSize arch sizeOfRange) pos
  exact ⟨divides, by omega, fun multiple => most low multiple (by omega)⟩

/-! ## The three gaps -/

theorem UserRanges.start_inWord (user : UserRanges arch m nodes) {n : Addr} (mem : n ∈ nodes) :
    vpnToVa (m.startingVpn n) < 2 ^ arch.wordBits := by
  obtain ⟨range, high⟩ := user.inWord mem
  have word := arch.inWord
  simp only [vpnToVa, vpnToVaEnding, pageSize] at *
  omega

variable (atLeast : pageSize ≤ sizeOfRange)
  (stays : sizeOfRange + (pageSize - 1) < 2 ^ arch.wordBits)
  (fits : ¬ highest + 1 < roundedSize arch sizeOfRange)
  (power : PowerOfTwo arch 12 alignment) {front : List Addr}
include atLeast stays fits power

theorem baseBetween_sound (user : UserRanges arch m (front ++ previous :: node :: back))
    (given : baseBetween arch m sizeOfRange highest alignment previous node = some base) :
    DownwardsSound m (front ++ previous :: node :: back) sizeOfRange highest alignment base := by
  obtain ⟨rounded, positive, whole⟩ := roundedSize_eq atLeast stays
  have mem : previous ∈ front ++ previous :: node :: back := by simp
  have memNode : node ∈ front ++ previous :: node :: back := by simp
  have alignmentPos := power.pos
  obtain ⟨a, rfl, pos, -, small⟩ := power.pages (le_refl 12)
  have low := user.low previous mem
  have range := user.range previous mem
  have inWord := user.start_inWord memNode
  have around := fun n memN => user.around (n := n) memN
  simp only [baseBetween, Nat.mul_div_cancel a (show 0 < pageSize by decide),
    Option.ite_none_right_eq_some] at given
  obtain ⟨above, room, given⟩ := given
  split at given
  next limit =>
    -- The limit is in this gap: the range ends at the limit.
    cases given
    obtain ⟨divides, ends⟩ := optimalStart_spec alignmentPos fits
    rw [rounded] at ends
    refine ⟨divides, ?_, ends, free_of_bytes positive fun n memN => ?_⟩
    · simp only [lowestUserAddress, vaToVpn, pageSize] at *
      omega
    · have side := around n memN
      simp only [vpnToVa, vaToVpn, pageSize] at *
      omega
  next limit =>
    -- The node above ends the range.
    obtain ⟨before, ⟨⟩⟩ := Option.ite_none_right_eq_some.mp given
    obtain ⟨⟨q, multiple⟩, behind, -⟩ := roundToSize_spec pos (round_behind user mem small)
    rw [sub_of_le before.le (by simp only [vpnToVa, pageSize] at inWord; omega)] at room
    have aligned : a * pageSize ∣ arch.roundToSize (1 + m.endingVpn previous) a * pageSize :=
      Nat.mul_dvd_mul_right ⟨q, multiple⟩ _
    have enough : arch.roundToSize (1 + m.endingVpn previous) a * pageSize +
        roundedSize arch sizeOfRange ≤ vpnToVa (m.startingVpn node) := by
      simp only [vpnToVa, pageSize] at *
      omega
    obtain ⟨divides, ends, most⟩ := baseBefore_spec alignmentPos inWord enough
    refine ⟨divides, ?_, ?_, free_of_bytes positive fun n memN => ?_⟩
    · simp only [lowestUserAddress, vaToVpn, pageSize] at *
      omega
    · simp only [vpnToVa, vaToVpn, pageSize] at *
      omega
    · have side := around n memN
      simp only [vpnToVa, pageSize] at *
      omega

omit atLeast stays fits power in
/-- Rounding the end of a node up to the alignment leaves the word. -/
def RoundsOver (arch : Platform) (m : Memory) (alignment : Nat) (node : Addr) : Prop :=
  2 ^ arch.wordBits ≤ vpnToVaEnding (m.endingVpn node) + (alignment - 1)

omit atLeast stays fits power in
/-- The highest aligned range of the size that ends before the limit is a free user range. -/
def TopFree (m : Memory) (nodes : List Addr) (sizeOfRange highest alignment : Nat) : Prop :=
  ∃ base, alignment ∣ base ∧ base + pagesOf sizeOfRange ≤ highest ∧
    highest < base + pagesOf sizeOfRange + alignment ∧ lowestUserAddress ≤ base ∧
    Free m nodes base (pagesOf sizeOfRange)

theorem baseAbove_sound_iff (user : UserRanges arch m (front ++ [last]))
    (given : baseAbove arch m sizeOfRange highest alignment last = some base) :
    DownwardsSound m (front ++ [last]) sizeOfRange highest alignment base ↔
      (RoundsOver arch m alignment last →
        TopFree m (front ++ [last]) sizeOfRange highest alignment) := by
  obtain ⟨rounded, positive, whole⟩ := roundedSize_eq atLeast stays
  have memLast : last ∈ front ++ [last] := by simp
  simp only [baseAbove, Option.ite_none_right_eq_some] at given
  obtain ⟨-, room, ⟨⟩⟩ := given
  rw [rounded] at room ⊢
  have pos := power.pos
  obtain ⟨divides, atMost, most⟩ := alignToSize_spec (highest - pagesOf sizeOfRange) pos
  have next := Nat.lt_div_mul_add pos (a := highest - pagesOf sizeOfRange)
  constructor
  · rintro ⟨-, low, -, free⟩ -
    exact ⟨_, divides, by omega, by unfold alignToSize; omega, low, free⟩
  · intro topFree
    -- where rounding leaves the word, the room above is free by hypothesis
    by_cases wraps : RoundsOver arch m alignment last
    · obtain ⟨b, aligned, ends, highestOne, low, free⟩ := topFree wraps
      have same : b = alignToSize (highest - pagesOf sizeOfRange) alignment :=
        le_antisymm (most b aligned (by omega)) (Nat.le_of_lt_add_of_dvd (by omega) divides aligned)
      rw [← same]
      exact ⟨aligned, low, by omega, free⟩
    · have behind := (@roundToSize_spec _ arch _ pos (not_le.mp wraps)).2.1
      have nonzero : baseBehind arch m alignment last ≠ 0 := by
        simp only [baseBehind, vpnToVaEnding, pageSize] at *
        omega
      have behind := baseBehind_above user memLast power (le_refl 12) nonzero
      have atLeastBehind := most (baseBehind arch m alignment last) (Nat.dvd_mul_left ..) (by omega)
      have low := user.low last memLast
      have range := user.range last memLast
      refine ⟨divides, ?_, by omega, free_of_bytes positive fun n mem => .inr ?_⟩
      · simp only [lowestUserAddress, vaToVpn, vpnToVa, pageSize] at *
        omega
      · exact (vpnToVa_mono (Nat.succ_le_succ (user.le_last mem))).trans
          (behind.trans atLeastBehind)

omit atLeast stays fits power in
/-- An aligned range of the size lies below a node, in the user range and up to the limit. -/
def RoomBelow (m : Memory) (sizeOfRange highest alignment : Nat) (first : Addr) : Prop :=
  ∃ base, alignment ∣ base ∧ lowestUserAddress ≤ base ∧ base + pagesOf sizeOfRange ≤ highest + 1 ∧
    base + pagesOf sizeOfRange ≤ vpnToVa (m.startingVpn first)

/-- Below the first node the highest aligned range is given out. -/
theorem baseBelow_spec (user : UserRanges arch m (first :: back))
    (given : baseBelow arch m sizeOfRange highest alignment first = some base) :
    alignment ∣ base ∧ base + pagesOf sizeOfRange ≤ highest + 1 ∧
      base + pagesOf sizeOfRange ≤ vpnToVa (m.startingVpn first) ∧
      ∀ b, alignment ∣ b → b + pagesOf sizeOfRange ≤ highest + 1 →
        b + pagesOf sizeOfRange ≤ vpnToVa (m.startingVpn first) → b ≤ base := by
  obtain ⟨rounded, positive, whole⟩ := roundedSize_eq atLeast stays
  have inWord := user.start_inWord (n := first) (by simp)
  simp only [baseBelow, Option.ite_none_right_eq_some] at given
  obtain ⟨-, room, given⟩ := given
  split at given
  next limit =>
    cases given
    obtain ⟨divides, atMost, most⟩ :=
      alignToSize_spec (highest + 1 - roundedSize arch sizeOfRange) power.pos
    rw [rounded] at fits
    rw [optimalStart, rounded] at *
    refine ⟨divides, by omega, ?_, fun b aligned ends _ => most b aligned (by omega)⟩
    simp only [vpnToVa, vaToVpn, pageSize] at *
    omega
  next limit =>
    cases given
    have spec := fun low => @baseBefore_spec _ _ _ sizeOfRange _ low power.pos inWord
    rw [rounded] at spec room
    obtain ⟨divides, ends, -⟩ := spec 0 (by
      simp only [vpnToVa, pageSize] at *
      omega)
    refine ⟨divides, ?_, ends, fun b aligned _ ends => (spec b ends).2.2 aligned⟩
    simp only [vpnToVa, vaToVpn, pageSize] at *
    omega

theorem baseBelow_sound_iff (user : UserRanges arch m (first :: back))
    (given : baseBelow arch m sizeOfRange highest alignment first = some base) :
    DownwardsSound m (first :: back) sizeOfRange highest alignment base ↔
      RoomBelow m sizeOfRange highest alignment first := by
  obtain ⟨divides, ends, below, most⟩ := baseBelow_spec atLeast stays fits power user given
  constructor
  · rintro ⟨-, low, -⟩
    exact ⟨base, divides, low, ends, below⟩
  · rintro ⟨b, aligned, low, ends', below'⟩
    refine ⟨divides, low.trans (most b aligned ends' below'), ends,
      free_of_bytes (roundedSize_eq atLeast stays).2.1 fun n mem => .inl ?_⟩
    exact below.trans (vpnToVa_mono (user.first_le mem))

/-! ## The whole search -/

omit atLeast stays fits power in
/-- No gap between two neighbours passes its tests; the later node comes first. -/
def NoneInside (arch : Platform) (m : Memory) (sizeOfRange highest alignment : Nat)
    (nodes : List Addr) : Prop :=
  nodes.IsChain fun node previous => ¬ FitsInside arch m sizeOfRange highest alignment previous node

theorem scanDown_sound_iff (user : UserRanges arch m (rest.reverse ++ node :: back)) :
    (∀ base, scanDown arch m sizeOfRange highest alignment node rest = .success base →
        DownwardsSound m (rest.reverse ++ node :: back) sizeOfRange highest alignment base) ↔
      (NoneInside arch m sizeOfRange highest alignment (node :: rest) →
        FitsAtBottom arch m sizeOfRange (rest.getLastD node) →
          RoomBelow m sizeOfRange highest alignment (rest.getLastD node)) := by
  induction rest generalizing back node with
  | nil =>
    have single : NoneInside arch m sizeOfRange highest alignment [node] :=
      isChain_singleton _
    simp only [scanDown, single, true_imp_iff, getLastD_nil, reverse_nil, nil_append] at user ⊢
    cases given : baseBelow arch m sizeOfRange highest alignment node with
    | none => simp [baseBelow_none.mp given]
    | some =>
      have passes := mt baseBelow_none.mpr (given ▸ Option.some_ne_none _)
      have sound := baseBelow_sound_iff atLeast stays fits power user given
      simpa [not_not.mp passes] using sound
  | cons previous rest ih =>
    simp only [scanDown]
    have shape : (previous :: rest).reverse ++ node :: back =
        rest.reverse ++ previous :: node :: back := by simp
    rw [shape] at user ⊢
    cases given : baseBetween arch m sizeOfRange highest alignment previous node with
    | some =>
      refine iff_of_true ?_ fun nowhere => ?_
      · rintro _ ⟨⟩
        exact baseBetween_sound atLeast stays fits power user given
      · have := baseBetween_none.mpr (isChain_cons_cons.mp nowhere).1
        rw [given] at this
        cases this
    | none =>
      rw [getLastD_cons, NoneInside, isChain_cons_cons, and_iff_right (baseBetween_none.mp given)]
      exact ih user

omit atLeast stays fits power

theorem scanDown_noMemory_iff :
    scanDown arch m sizeOfRange highest alignment node rest = .noMemory ↔
      NoneInside arch m sizeOfRange highest alignment (node :: rest) ∧
        ¬ FitsAtBottom arch m sizeOfRange (rest.getLastD node) := by
  induction rest generalizing node with
  | nil =>
    rw [getLastD_nil, ← @baseBelow_none _ _ _ _ highest alignment, scanDown, NoneInside]
    cases baseBelow arch m sizeOfRange highest alignment node <;> simp
  | cons previous rest ih =>
    rw [getLastD_cons, NoneInside, isChain_cons_cons, ← baseBetween_none, and_assoc, scanDown]
    cases baseBetween arch m sizeOfRange highest alignment previous node with
    | some => simp
    | none => simpa [NoneInside] using ih

/-- When the answer is right.  Above the last node, rounding its end must not leave the word, or
the range at the limit is free; if only the gap below the first node passes its tests, there
must be room.  A size that rounding to pages carries out of the word is taken for zero, and no
gap may pass its tests for it. -/
def DownwardsCondition (arch : Platform) (m : Memory) (sizeOfRange highest alignment : Nat)
    (last : Addr) (rest : List Addr) : Prop :=
  if sizeOfRange + (pageSize - 1) < 2 ^ arch.wordBits then
    pagesOf sizeOfRange ≤ highest + 1 → (FitsAtTop arch m sizeOfRange highest alignment last →
        RoundsOver arch m alignment last →
          TopFree m (rest.reverse ++ [last]) sizeOfRange highest alignment) ∧
      (¬ FitsAtTop arch m sizeOfRange highest alignment last →
        NoneInside arch m sizeOfRange highest alignment (last :: rest) →
          FitsAtBottom arch m sizeOfRange (rest.getLastD last) →
            RoomBelow m sizeOfRange highest alignment (rest.getLastD last))
  else
    ¬ FitsAtTop arch m sizeOfRange highest alignment last ∧
      NoneInside arch m sizeOfRange highest alignment (last :: rest) ∧
      ¬ FitsAtBottom arch m sizeOfRange (rest.getLastD last)

/-- **The search downwards is right exactly when its lowest gap is.**  For every tree with
nodes, every limit up to the highest user address, every size from a page and every alignment
from a page the search ends; the base it gives out is sound if and only if the condition
holds. -/
theorem downwards_sound_iff {s : Space} {t : BinaryTree Addr} {last : Addr} {rest : List Addr}
    (hangs : Hangs s.memory.links null s.balancedRoot t)
    (count : s.numberGenericTableElements = (inorder t).length)
    (sequence : inorder t = rest.reverse ++ [last])
    (user : UserRanges arch s.memory (inorder t))
    (power : PowerOfTwo arch 12 alignment) (atLeast : pageSize ≤ sizeOfRange)
    (inWord : sizeOfRange < 2 ^ arch.wordBits)
    (limit : highest ≤ arch.highestVadAddress)
    {fuel : Nat} (enough : (inorder t).length + 2 ≤ fuel) :
    ∃ answer,
      findEmptyAddressRangeDownTree arch sizeOfRange highest alignment fuel s = some answer ∧
      ((∀ base, answer = .success base →
          DownwardsSound s.memory (inorder t) sizeOfRange highest alignment base) ↔
        DownwardsCondition arch s.memory sizeOfRange highest alignment last rest) := by
  refine ⟨_, findEmptyAddressRangeDownTree_eq hangs count sequence enough, ?_⟩
  rw [sequence] at user ⊢
  unfold DownwardsCondition
  by_cases stays : sizeOfRange + (pageSize - 1) < 2 ^ arch.wordBits
  · rw [if_pos stays, ← (roundedSize_eq atLeast stays).1]
    unfold searchDown
    by_cases large : highest + 1 < roundedSize arch sizeOfRange
    · simp [large]
    · simp only [large, if_false, not_lt.mp large, true_imp_iff]
      cases given : baseAbove arch s.memory sizeOfRange highest alignment last with
      | some =>
        have passes := mt baseAbove_none.mpr (given ▸ Option.some_ne_none _)
        have sound := baseAbove_sound_iff atLeast stays large power user given
        simpa [not_not.mp passes] using sound
      | none =>
        simp only [baseAbove_none.mp given, false_imp_iff, not_false_eq_true, true_imp_iff, true_and]
        exact scanDown_sound_iff atLeast stays large power user
  · -- The size is taken for zero: whatever is given out cannot hold it.
    rw [if_neg stays]
    obtain ⟨a, eq, positive, ⟨q, divides⟩, small⟩ := power.pages (le_refl 12)
    have nothing : roundedSize arch sizeOfRange = 0 := by
      have page := Nat.le_mul_of_pos_left pageSize positive
      exact roundToSize_wraps inWord (by omega) (not_lt.mp stays)
    have search : searchDown arch s.memory sizeOfRange highest alignment last rest = .noMemory ↔
        ¬ FitsAtTop arch s.memory sizeOfRange highest alignment last ∧
          NoneInside arch s.memory sizeOfRange highest alignment (last :: rest) ∧
          ¬ FitsAtBottom arch s.memory sizeOfRange (rest.getLastD last) := by
      rw [← baseAbove_none, ← scanDown_noMemory_iff, searchDown, if_neg (by omega)]
      cases baseAbove arch s.memory sizeOfRange highest alignment last <;> simp
    rw [← search]
    cases searchDown arch s.memory sizeOfRange highest alignment last rest with
    | noMemory => simp
    | success base =>
      refine iff_of_false (fun sound => ?_) (by simp)
      obtain ⟨-, -, ends, -⟩ := sound base rfl
      have word := arch.inWord
      have whole : 2 ^ arch.wordBits ≤ pagesOf sizeOfRange := by
        rw [eq, Nat.mul_right_comm] at divides
        rw [divides] at stays ⊢
        simp only [pagesOf, pageSize] at stays ⊢
        omega
      omega

/-- The end of the gap between two nodes is given out. -/
theorem downwards_sound_iff_twoRanges :
    DownwardsSound (twoRanges 0x10 0x1F 0x40 0x7FFDF).memory [8, 12] 0x10000 0x7FFDFFFF 0x1000
      0x30000 := by
  obtain ⟨answer, found, sound⟩ := @downwards_sound_iff _ 0x10000 0x7FFDFFFF _ _ _ 12 [8]
    (twoRanges_hangs 0x10 0x1F 0x40 0x7FFDF) rfl rfl twoRanges_user ⟨12, by decide, by decide, rfl⟩
    (by decide) (by decide) (by decide) 4 (by decide)
  have given : findEmptyAddressRangeDownTree x86 0x10000 0x7FFDFFFF 0x1000 4
      (twoRanges 0x10 0x1F 0x40 0x7FFDF) = some (.success 0x30000) := by decide +kernel
  cases found.symm.trans given
  refine sound.mpr ?_ 0x30000 rfl
  rw [DownwardsCondition, if_pos (by decide)]
  refine fun _ => ⟨fun _ wraps => absurd wraps (by unfold RoundsOver; decide), fun _ nowhere => ?_⟩
  exact absurd (isChain_cons_cons.mp nowhere).1 (by unfold FitsInside; decide +kernel)

/-- Below a first node, address zero is given out twice: for 128K under a limit of 128K, and for
64K with an alignment of 256K. -/
theorem downwards_unsound :
    UserRanges x86 (oneRange 0x100 0x100).memory [8] ∧ PowerOfTwo x86 12 0x1000 ∧
      findEmptyAddressRangeDownTree x86 0x20000 0x1FFFF 0x1000 3 (oneRange 0x100 0x100) =
        some (.success 0) ∧
      findEmptyAddressRangeDownTree x86 0x10000 0x30000 0x40000 3 (oneRange 0x30 0x7FFDF) =
        some (.success 0) ∧
      ¬ DownwardsSound (oneRange 0x100 0x100).memory [8] 0x20000 0x1FFFF 0x1000 0 ∧
      ¬ DownwardsSound (oneRange 0x30 0x7FFDF).memory [8] 0x10000 0x30000 0x40000 0 := by
  refine ⟨oneRange_user (by decide) (by decide) (by decide), ⟨12, by decide, by decide, rfl⟩,
    by decide +kernel, by decide +kernel, ?_, ?_⟩
  · rintro ⟨-, low, -⟩
    exact absurd low (by decide)
  · rintro ⟨-, low, -⟩
    exact absurd low (by decide)

end Down

end Ntoskrnl.Mm.Vad
