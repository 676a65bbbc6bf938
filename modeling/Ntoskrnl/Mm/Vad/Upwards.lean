/-
# Ntoskrnl.Mm.Vad.Upwards -- an empty range of addresses

`MiFindEmptyAddressRangeInTree` looks for room upwards: below the first node, then
between each two neighbours, then above the last.  The three tests are written
separately, in pages or in bytes, with unsigned subtractions that may wrap; all
arithmetic here is that of a word of the platform.  The walk over the tree is first
replaced by a recursion over the sequence of its nodes (`gapLoop_eq`).

The gap between two neighbours passes its test exactly when it holds an aligned range
of the size (`fitsBetween_iff`), and the base given out there is that range.  So the
answer can only be wrong at the two ends: below the first node, where the lowest user
address is given out whatever the alignment, and above the last, where the test can pass
although no aligned range of the size lies there.  `upwards_sound_iff` says that it is wrong
exactly then.
-/
import Mathlib.Tactic.Positivity
import Ntoskrnl.Mm.Vad.Tree

namespace Ntoskrnl.Mm.Vad

open Lib.LinkedTree Lib.SplayTree List

set_option autoImplicit false

/-! ## Pages and bytes -/

def pageSize : Nat := 0x1000
def x64K : Nat := 0x10000
def lowestUserAddress : Nat := 0x10000

def vaToVpn (va : Nat) : Nat := va / pageSize
def vpnToVa (vpn : Nat) : Nat := vpn * pageSize
def vpnToVaEnding (vpn : Nat) : Nat := vpn * pageSize + (pageSize - 1)

namespace Platform

variable (arch : Platform)

def sub (x y : Nat) : Nat := (x + (2 ^ arch.wordBits - y)) % 2 ^ arch.wordBits

/-- `MI_ROUND_TO_SIZE`, for an alignment that is a power of two. -/
def roundToSize (x alignment : Nat) : Nat :=
  (x + (alignment - 1)) % 2 ^ arch.wordBits / alignment * alignment

end Platform

/-- `MI_ALIGN_TO_SIZE`. -/
def alignToSize (x alignment : Nat) : Nat := x / alignment * alignment

/-! ## Looking upwards -/

inductive RangeSearch where
  | success (base : Nat) (previousVad : Option Addr)
  | noMemory
deriving DecidableEq, Repr

variable {least a : Nat}

section Up

variable (arch : Platform) (m : Memory) (sizeOfRange alignment : Nat)

def sizeOfRangeVpn : Nat := (sizeOfRange + (pageSize - 1)) / pageSize

/-- The test of the gap below the first node. -/
def fitsBelow (first : Addr) : Prop :=
  vaToVpn lowestUserAddress < m.startingVpn first ∧
    sizeOfRangeVpn sizeOfRange < m.startingVpn first - vaToVpn lowestUserAddress

/-- The test of the gap between two neighbours. -/
def fitsBetween (node next : Addr) : Prop :=
  sizeOfRangeVpn sizeOfRange ≤ arch.sub (m.startingVpn next)
      (arch.roundToSize (1 + m.endingVpn node) (alignment / pageSize)) ∧
    arch.roundToSize (1 + m.endingVpn node) (alignment / pageSize) < m.startingVpn next

/-- The test of the gap above the last node. -/
def fitsAbove (last : Addr) : Prop :=
  m.endingVpn last + vaToVpn x64K < vaToVpn arch.highestVadAddress ∧
    sizeOfRange ≤ arch.sub arch.highestVadAddress
      (arch.roundToSize (vpnToVa (m.endingVpn last)) alignment)

/-- The address given out behind a node. -/
def baseBehind (node : Addr) : Nat :=
  arch.roundToSize (vpnToVaEnding (m.endingVpn node)) alignment

instance (first : Addr) : Decidable (fitsBelow m sizeOfRange first) := by
  unfold fitsBelow
  infer_instance

instance (node next : Addr) : Decidable (fitsBetween arch m sizeOfRange alignment node next) := by
  unfold fitsBetween
  infer_instance

instance (last : Addr) : Decidable (fitsAbove arch m sizeOfRange alignment last) := by
  unfold fitsAbove
  infer_instance

/-- The loop of `MiFindEmptyAddressRangeInTree`. -/
def gapLoop (fuel : Nat) : Nat → Addr → Option RangeSearch
  | 0, _ => none
  | turns + 1, node =>
    match getNextNode fuel m.links node with
    | none => none
    | some next =>
      if next ≠ null then
        if fitsBetween arch m sizeOfRange alignment node next then
          some (.success (baseBehind arch m alignment node) (some node))
        else gapLoop fuel turns next
      else if fitsAbove arch m sizeOfRange alignment node then
        some (.success (baseBehind arch m alignment node) (some node))
      else some .noMemory

/-- `MiFindEmptyAddressRangeInTree`. -/
def findEmptyAddressRangeInTree (fuel : Nat) (s : Space) : Option RangeSearch :=
  if s.numberGenericTableElements = 0 then some (.success lowestUserAddress none)
  else
    match leftmost s.memory.links fuel (s.memory.links.right s.balancedRoot) with
    | none => none
    | some first =>
      if fitsBelow s.memory sizeOfRange first then
        some (.success lowestUserAddress (some null))
      else gapLoop arch s.memory sizeOfRange alignment fuel fuel first

/-- The loop over the nodes after the present one. -/
def scanGaps : Addr → List Addr → RangeSearch
  | node, [] =>
    if fitsAbove arch m sizeOfRange alignment node then
      .success (baseBehind arch m alignment node) (some node)
    else .noMemory
  | node, next :: rest =>
    if fitsBetween arch m sizeOfRange alignment node next then
      .success (baseBehind arch m alignment node) (some node)
    else scanGaps next rest

variable {arch m sizeOfRange alignment}

variable {t : BinaryTree Addr} {fuel x : Nat}

theorem gapLoop_eq {top : Addr} {turns : Nat} {b after : List Addr} {node : Addr}
    (hangs : Hangs m.links null top t) (split : inorder t = b ++ node :: after)
    (enough : (inorder t).length + 2 ≤ fuel) (turnsLeft : after.length < turns) :
    gapLoop arch m sizeOfRange alignment fuel turns node =
      some (scanGaps arch m sizeOfRange alignment node after) := by
  induction after generalizing b node turns with
  | nil =>
    obtain ⟨turns, rfl⟩ := Nat.exists_eq_add_of_lt turnsLeft
    simp only [gapLoop, getNextNode_eq hangs split enough, scanGaps, headD_nil, ne_eq,
      not_true, if_false]
    split <;> rfl
  | cons next rest ih =>
    obtain ⟨turns, rfl⟩ := Nat.exists_eq_add_of_lt turnsLeft
    have present : next ≠ null := by
      rintro rfl
      exact hangs.absent (by simp [split])
    simp only [gapLoop, getNextNode_eq hangs split enough, scanGaps, headD_cons, ne_eq,
      present, not_false_eq_true, if_true]
    split
    · rfl
    · exact ih (b := b ++ [node]) (by simp [split]) (by rw [length_cons]; omega)

/-- The whole search, over the sequence of the nodes. -/
theorem findEmptyAddressRangeInTree_eq {s : Space}
    (hangs : Hangs s.memory.links null s.balancedRoot t)
    (count : s.numberGenericTableElements = (inorder t).length)
    (enough : (inorder t).length + 2 ≤ fuel) :
    findEmptyAddressRangeInTree arch sizeOfRange alignment fuel s = some (match inorder t with
        | [] => .success lowestUserAddress none
        | first :: rest =>
          if fitsBelow s.memory sizeOfRange first then
            .success lowestUserAddress (some null)
          else scanGaps arch s.memory sizeOfRange alignment first rest) := by
  unfold findEmptyAddressRangeInTree
  cases t with
  | nil => simp [count]
  | node a l r =>
    have nonempty : ¬ s.numberGenericTableElements = 0 := by
      rw [count]
      simp
    rw [if_neg nonempty, hangs.anchor, rootOf_node,
      leftmost_lib, leftmost_head hangs.linked hangs.absent (by omega)]
    cases sequence : inorder (.node a l r) with
    | nil => simp at sequence
    | cons first rest =>
      simp only [headD_cons]
      by_cases below : fitsBelow s.memory sizeOfRange first
      · simp only [below, if_true]
      · simp only [below, if_false]
        have turns : rest.length < fuel := by
          rw [sequence, length_cons] at enough
          omega
        exact gapLoop_eq (b := []) hangs sequence enough turns

/-! ## What the answer has to be -/

/-- The nodes of a process: ranges of user pages, in order and disjoint. -/
structure UserRanges (arch : Platform) (m : Memory) (nodes : List Addr) : Prop where
  range : ∀ n ∈ nodes, m.startingVpn n ≤ m.endingVpn n
  low : ∀ n ∈ nodes, vaToVpn lowestUserAddress ≤ m.startingVpn n
  high : ∀ n ∈ nodes, m.endingVpn n ≤ vaToVpn arch.highestVadAddress
  ordered : nodes.Pairwise fun n n' => m.endingVpn n < m.startingVpn n'

/-- A power of two that a word holds, of at least `2 ^ least`. -/
def PowerOfTwo (arch : Platform) (least alignment : Nat) : Prop :=
  ∃ k, least ≤ k ∧ k < arch.wordBits ∧ alignment = 2 ^ k

/-- The pages of the `size` bytes at `base` overlap no node. -/
def Free (m : Memory) (nodes : List Addr) (base size : Nat) : Prop :=
  ∀ n ∈ nodes, vaToVpn (base + size - 1) < m.startingVpn n ∨ m.endingVpn n < vaToVpn base

/-- The answer wanted: a base has the alignment and its pages are user pages of no node; and
no answer is given only where no gap between neighbours has an aligned range. -/
def UpwardsSound (arch : Platform) (m : Memory) (nodes : List Addr)
    (sizeOfRange alignment : Nat) : RangeSearch → Prop
  | .success base _ =>
    alignment ∣ base ∧ lowestUserAddress ≤ base ∧
      vaToVpn (base + sizeOfRange - 1) ≤ vaToVpn arch.highestVadAddress ∧
      Free m nodes base sizeOfRange
  | .noMemory =>
    ∀ node next, [node, next] <:+: nodes → ¬ ∃ base, alignment ∣ base ∧
      vpnToVa (m.endingVpn node + 1) ≤ base ∧ base + sizeOfRange ≤ vpnToVa (m.startingVpn next)

/-! ## Rounding -/

/-- An alignment of at least a page is a number of pages, and divides the word. -/
theorem PowerOfTwo.pages (power : PowerOfTwo arch least alignment) (page : 12 ≤ least) :
    ∃ a, alignment = a * pageSize ∧ 0 < a ∧ alignment ∣ 2 ^ arch.wordBits ∧
      2 * alignment ≤ 2 ^ arch.wordBits := by
  obtain ⟨k, atLeast, below, rfl⟩ := power
  refine ⟨2 ^ (k - 12), ?_, by positivity, Nat.pow_dvd_pow 2 (by omega), ?_⟩
  · rw [show pageSize = 2 ^ 12 from rfl, ← pow_add]
    congr 1
    omega
  · rw [← pow_succ']
    exact Nat.pow_le_pow_right (by omega) below

theorem PowerOfTwo.pos (power : PowerOfTwo arch least alignment) : 0 < alignment := by
  obtain ⟨k, -, -, rfl⟩ := power
  positivity

/-- Rounding that stays in the word gives the next multiple. -/
theorem roundToSize_spec (pos : 0 < a) (stays : x + (a - 1) < 2 ^ arch.wordBits) :
    a ∣ arch.roundToSize x a ∧ x ≤ arch.roundToSize x a ∧
      ∀ b, a ∣ b → x ≤ b → arch.roundToSize x a ≤ b := by
  unfold Platform.roundToSize
  rw [Nat.mod_eq_of_lt stays]
  have split := Nat.div_add_mod (x + (a - 1)) a
  have small := Nat.mod_lt (x + (a - 1)) pos
  rw [Nat.mul_comm] at split
  refine ⟨Nat.dvd_mul_left a _, by omega, ?_⟩
  rintro b ⟨q, rfl⟩ atMost
  rw [Nat.mul_comm a q]
  refine Nat.mul_le_mul_right a ?_
  have := Nat.div_lt_iff_lt_mul (k := a) (x := x + (a - 1)) (y := q + 1) pos
  have : x + (a - 1) < (q + 1) * a := by
    rw [Nat.add_mul, Nat.mul_comm q a]
    omega
  omega

/-- Rounding that leaves the word gives zero. -/
theorem roundToSize_wraps (inWord : x < 2 ^ arch.wordBits) (small : a ≤ 2 ^ arch.wordBits)
    (wraps : 2 ^ arch.wordBits ≤ x + (a - 1)) : arch.roundToSize x a = 0 := by
  unfold Platform.roundToSize
  rw [Nat.mod_eq_sub_mod wraps, Nat.mod_eq_of_lt (by omega), Nat.div_eq_of_lt (by omega),
    Nat.zero_mul]

theorem sub_of_le {y : Nat} (le : y ≤ x) (inWord : x < 2 ^ arch.wordBits) :
    arch.sub x y = x - y := by
  unfold Platform.sub
  rw [show x + (2 ^ arch.wordBits - y) = x - y + 2 ^ arch.wordBits by omega,
    Nat.add_mod_right, Nat.mod_eq_of_lt (by omega)]

/-- Behind a page, rounding bytes is rounding pages. -/
theorem roundToSize_bytes {vpn : Nat} (pos : 0 < a)
    (stays : vpnToVaEnding vpn + (a * pageSize - 1) < 2 ^ arch.wordBits) :
    arch.roundToSize (vpnToVaEnding vpn) (a * pageSize) =
      arch.roundToSize (1 + vpn) a * pageSize := by
  unfold Platform.roundToSize
  have pages : 1 + vpn + (a - 1) < 2 ^ arch.wordBits := by
    simp only [vpnToVaEnding, pageSize] at stays
    omega
  rw [Nat.mod_eq_of_lt stays, Nat.mod_eq_of_lt pages, ← Nat.mul_assoc]
  congr 2
  rw [Nat.mul_comm a pageSize, ← Nat.div_div_eq_div_mul]
  congr 1
  simp only [vpnToVaEnding, pageSize] at *
  omega

end Up

variable {arch : Platform} {m : Memory} {nodes : List Addr} {sizeOfRange alignment : Nat}

/-! ## Gaps between neighbours -/

variable {n node next : Addr} {front : List Addr} {previous : Option Addr} {first last : Addr}
  {back rest : List Addr}

section User

variable (user : UserRanges arch m nodes)

include user

theorem UserRanges.inWord (mem : n ∈ nodes) :
    m.startingVpn n ≤ m.endingVpn n ∧ vpnToVaEnding (m.endingVpn n) ≤ arch.highestVadAddress := by
  refine ⟨user.range n mem, ?_⟩
  have high := user.high n mem
  have aligned := arch.aligned
  simp only [vaToVpn, vpnToVaEnding, pageSize] at *
  omega

theorem UserRanges.start_lt (mem : n ∈ nodes) : m.startingVpn n < 2 ^ arch.wordBits := by
  obtain ⟨range, high⟩ := user.inWord mem
  have word := arch.inWord
  simp only [vpnToVaEnding, pageSize] at high
  omega

omit user in
/-- The number of pages of a size, and the last page of the range at a page. -/
theorem last_page {p : Nat} (one : 1 ≤ sizeOfRange) :
    vaToVpn (p * pageSize + sizeOfRange - 1) + 1 = p + sizeOfRangeVpn sizeOfRange := by
  simp only [vaToVpn, sizeOfRangeVpn, pageSize]
  omega

/-- Rounding up the page behind a node stays in the word. -/
theorem round_behind (mem : n ∈ nodes) (fits : 2 * (a * pageSize) ≤ 2 ^ arch.wordBits) :
    1 + m.endingVpn n + (a - 1) < 2 ^ arch.wordBits := by
  have high := (user.inWord mem).2
  have word := arch.inWord
  simp only [vpnToVaEnding, pageSize] at *
  omega

theorem fitsBetween_iff (power : PowerOfTwo arch 16 alignment) (one : 1 ≤ sizeOfRange)
    (mem : node ∈ nodes) (memNext : next ∈ nodes) :
    fitsBetween arch m sizeOfRange alignment node next ↔
      ∃ base, alignment ∣ base ∧ vpnToVa (m.endingVpn node + 1) ≤ base ∧
        base + sizeOfRange ≤ vpnToVa (m.startingVpn next) := by
  obtain ⟨a, rfl, pos, -, small⟩ := power.pages (by omega)
  obtain ⟨⟨q, divides⟩, above, least⟩ := roundToSize_spec pos (round_behind user mem small)
  have nextInWord := user.start_lt memNext
  have pages : a * pageSize / pageSize = a := Nat.mul_div_cancel a (by decide)
  unfold fitsBetween
  rw [pages]
  constructor
  · rintro ⟨room, before⟩
    rw [sub_of_le before.le nextInWord] at room
    refine ⟨arch.roundToSize (1 + m.endingVpn node) a * pageSize, ?_, ?_, ?_⟩
    · exact Nat.mul_dvd_mul_right ⟨q, divides⟩ _
    · simp only [vpnToVa, pageSize] at *
      omega
    · simp only [vpnToVa, sizeOfRangeVpn, pageSize] at *
      omega
  · rintro ⟨base, ⟨k, rfl⟩, low, fits⟩
    have rearranged : a * pageSize * k = a * k * pageSize := by
      rw [Nat.mul_right_comm]
    rw [rearranged] at low fits
    have atMost : arch.roundToSize (1 + m.endingVpn node) a ≤ a * k := by
      refine least _ ⟨k, rfl⟩ ?_
      simp only [vpnToVa, pageSize] at low
      omega
    have before : arch.roundToSize (1 + m.endingVpn node) a < m.startingVpn next := by
      simp only [vpnToVa, pageSize] at fits
      omega
    rw [sub_of_le before.le nextInWord]
    simp only [vpnToVa, sizeOfRangeVpn, pageSize] at *
    omega

end User

/-- Nodes on either side of a gap. -/
theorem UserRanges.around (user : UserRanges arch m (front ++ node :: next :: back))
    (mem : n ∈ front ++ node :: next :: back) :
    m.endingVpn n ≤ m.endingVpn node ∨ m.startingVpn next ≤ m.startingVpn n := by
  have ordered := user.ordered
  have range := user.range
  simp only [pairwise_append, pairwise_cons, mem_cons, mem_append] at *
  have nodeRange := range node (by simp)
  have nextRange := range next (by simp)
  rcases mem with mem | rfl | rfl | mem
  · have := ordered.2.2 n mem node (by simp)
    omega
  · omega
  · omega
  · have := ordered.2.1.2.1 n mem
    omega

theorem UserRanges.first_le (user : UserRanges arch m (first :: rest)) (mem : n ∈ first :: rest) :
    m.startingVpn first ≤ m.startingVpn n := by
  have range := user.range first (by simp)
  rcases mem_cons.mp mem with rfl | mem
  · exact le_refl _
  · have := (pairwise_cons.mp user.ordered).1 n mem
    omega

theorem UserRanges.le_last (user : UserRanges arch m (front ++ [last]))
    (mem : n ∈ front ++ [last]) : m.endingVpn n ≤ m.endingVpn last := by
  have range := user.range last (by simp)
  rcases mem_append.mp mem with mem | mem
  · have := (pairwise_append.mp user.ordered).2.2 n mem last (by simp)
    omega
  · rw [mem_singleton.mp mem]

/-- A range given out between two neighbours. -/
theorem between_sound (user : UserRanges arch m (front ++ node :: next :: back))
    (power : PowerOfTwo arch 16 alignment) (one : 1 ≤ sizeOfRange)
    (fits : fitsBetween arch m sizeOfRange alignment node next) :
    UpwardsSound arch m (front ++ node :: next :: back) sizeOfRange alignment
      (.success (baseBehind arch m alignment node) previous) := by
  have mem : node ∈ front ++ node :: next :: back := by simp
  have memNext : next ∈ front ++ node :: next :: back := by simp
  obtain ⟨a, rfl, pos, divides, small⟩ := power.pages (by omega)
  obtain ⟨aligned, above, -⟩ := roundToSize_spec pos (round_behind user mem small)
  obtain ⟨nextRange, nextHigh⟩ := user.inWord memNext
  have low := user.low node mem
  have nodeRange := user.range node mem
  have word := arch.inWord
  have nextInWord := user.start_lt memNext
  unfold fitsBetween at fits
  rw [Nat.mul_div_cancel a (by decide)] at fits
  obtain ⟨room, before⟩ := fits
  rw [sub_of_le before.le nextInWord] at room
  -- The multiple found is in the word, so rounding bytes did not leave it either.
  have stays : vpnToVaEnding (m.endingVpn node) + (a * pageSize - 1) < 2 ^ arch.wordBits := by
    obtain ⟨q, multiple⟩ := aligned
    obtain ⟨parts, word⟩ := divides
    have less : a * q * pageSize < a * pageSize * parts := by
      simp only [vpnToVaEnding, pageSize] at *
      omega
    rw [Nat.mul_right_comm] at less
    have lessParts : q + 1 ≤ parts := Nat.lt_of_mul_lt_mul_left less
    have room := Nat.mul_le_mul_left (a * pageSize) lessParts
    rw [Nat.mul_add, Nat.mul_right_comm] at room
    simp only [vpnToVaEnding, pageSize] at *
    omega
  have base : baseBehind arch m (a * pageSize) node =
      arch.roundToSize (1 + m.endingVpn node) a * pageSize := roundToSize_bytes pos stays
  have last := last_page (p := arch.roundToSize (1 + m.endingVpn node) a) one
  rw [base]
  refine ⟨Nat.mul_dvd_mul_right aligned _, ?_, ?_, fun n memN => ?_⟩
  · simp only [lowestUserAddress, vaToVpn, pageSize] at *
    omega
  · have high := user.high next memNext
    omega
  · have first : vaToVpn (arch.roundToSize (1 + m.endingVpn node) a * pageSize) =
        arch.roundToSize (1 + m.endingVpn node) a := Nat.mul_div_cancel _ (by decide)
    rcases user.around memN with side | side
    · omega
    · omega

/-! ## The two ends -/

/-- The lowest user address, given out below every node, is right for one alignment. -/
theorem below_sound_iff (power : PowerOfTwo arch 16 alignment)
    (inRange : vaToVpn (lowestUserAddress + sizeOfRange - 1) ≤ vaToVpn arch.highestVadAddress)
    (free : Free m nodes lowestUserAddress sizeOfRange) :
    UpwardsSound arch m nodes sizeOfRange alignment (.success lowestUserAddress previous) ↔
      alignment = x64K := by
  obtain ⟨k, atLeast, -, rfl⟩ := power
  constructor
  · rintro ⟨divides, -⟩
    have : k ≤ 16 := (Nat.pow_dvd_pow_iff_le_right (by decide)).mp divides
    rw [show k = 16 by omega]
    rfl
  · intro eq
    rw [eq]
    exact ⟨⟨1, rfl⟩, le_refl _, inRange, free⟩

theorem first_free (one : 1 ≤ sizeOfRange) (user : UserRanges arch m (first :: rest))
    (fits : fitsBelow m sizeOfRange first) :
    vaToVpn (lowestUserAddress + sizeOfRange - 1) ≤ vaToVpn arch.highestVadAddress ∧
      Free m (first :: rest) lowestUserAddress sizeOfRange := by
  obtain ⟨-, room⟩ := fits
  have last := last_page (p := 16) one
  have lowest : vaToVpn lowestUserAddress = 16 := rfl
  have same : 16 * pageSize = lowestUserAddress := rfl
  rw [same] at last
  have firstRange := user.range first (by simp)
  have firstHigh := user.high first (by simp)
  refine ⟨by omega, fun n mem => .inl ?_⟩
  have := user.first_le mem
  omega

/-- What is given out behind a node is behind it, unless rounding has left the word. -/
theorem baseBehind_above (user : UserRanges arch m nodes) (mem : n ∈ nodes)
    (power : PowerOfTwo arch least alignment) (page : 12 ≤ least)
    (nonzero : baseBehind arch m alignment n ≠ 0) :
    vpnToVa (m.endingVpn n + 1) ≤ baseBehind arch m alignment n := by
  obtain ⟨a, rfl, pos, -, small⟩ := power.pages page
  have high := (user.inWord mem).2
  have word := arch.inWord
  have stays : vpnToVaEnding (m.endingVpn n) + (a * pageSize - 1) < 2 ^ arch.wordBits := by
    by_contra leaves
    exact nonzero (roundToSize_wraps (by omega) (by omega) (by omega))
  obtain ⟨⟨q, multiple⟩, above, -⟩ :=
    roundToSize_spec (Nat.mul_pos pos (by decide)) stays
  unfold baseBehind
  rw [multiple, Nat.mul_right_comm] at above ⊢
  simp only [vpnToVa, vpnToVaEnding, pageSize] at *
  omega

/-- An aligned range of the size lies above a node, up to the end of the user range. -/
def RoomAbove (arch : Platform) (m : Memory) (sizeOfRange alignment : Nat) (last : Addr) : Prop :=
  ∃ base, alignment ∣ base ∧ vpnToVa (m.endingVpn last + 1) ≤ base ∧
    vaToVpn (base + sizeOfRange - 1) ≤ vaToVpn arch.highestVadAddress

/-- What is given out behind a node is the lowest aligned address there. -/
theorem baseBehind_le {base : Nat} (power : PowerOfTwo arch 16 alignment)
    (aligned : alignment ∣ base) (behind : vpnToVa (m.endingVpn n + 1) ≤ base)
    (inWord : base < 2 ^ arch.wordBits) :
    baseBehind arch m alignment n ≤ base ∧ 0 < baseBehind arch m alignment n := by
  have pos := power.pos
  obtain ⟨-, -, -, ⟨parts, word⟩, -⟩ := power.pages (by decide)
  -- The next multiple of the alignment after the base is still in the word.
  have stays : vpnToVaEnding (m.endingVpn n) + (alignment - 1) < 2 ^ arch.wordBits := by
    obtain ⟨q, rfl⟩ := aligned
    rw [word] at inWord ⊢
    have room := Nat.mul_le_mul_left alignment (Nat.lt_of_mul_lt_mul_left inWord)
    rw [Nat.mul_succ] at room
    simp only [vpnToVa, vpnToVaEnding, pageSize] at *
    omega
  obtain ⟨-, above, most⟩ := roundToSize_spec pos stays
  refine ⟨most base aligned ?_, ?_⟩
  · simp only [vpnToVa, vpnToVaEnding, pageSize] at *
    omega
  · unfold baseBehind
    simp only [vpnToVaEnding, pageSize] at *
    omega

/-- What is given out behind the last node is right when there is room above it. -/
theorem above_sound_iff (user : UserRanges arch m (front ++ [last]))
    (power : PowerOfTwo arch 16 alignment) (one : 1 ≤ sizeOfRange) :
    UpwardsSound arch m (front ++ [last]) sizeOfRange alignment
        (.success (baseBehind arch m alignment last) previous) ↔
      RoomAbove arch m sizeOfRange alignment last := by
  have memLast : last ∈ front ++ [last] := by simp
  have multiple : alignment ∣ baseBehind arch m alignment last := Nat.dvd_mul_left ..
  have above := baseBehind_above user memLast power (by decide)
  constructor
  · rintro ⟨-, low, high, -⟩
    refine ⟨_, multiple, above fun zero => ?_, high⟩
    rw [zero] at low
    exact absurd low (by decide)
  · rintro ⟨base, aligned, behind, high⟩
    have word := arch.inWord
    have inWord : base < 2 ^ arch.wordBits := by
      have whole := arch.aligned
      simp only [vaToVpn, pageSize] at *
      omega
    obtain ⟨atMost, positive⟩ := baseBehind_le power aligned behind inWord
    have behind := above positive.ne'
    have low := user.low last memLast
    have range := user.range last memLast
    refine ⟨multiple, ?_, (Nat.div_le_div_right (by omega)).trans high, fun n mem => .inr ?_⟩
    · simp only [lowestUserAddress, vaToVpn, vpnToVa, pageSize] at *
      omega
    · exact (user.le_last mem).trans_lt ((Nat.le_div_iff_mul_le (by decide)).mpr behind)

/-! ## The search -/

/-- No gap between two neighbours passes the test. -/
def NoneBetween (arch : Platform) (m : Memory) (sizeOfRange alignment : Nat)
    (nodes : List Addr) : Prop :=
  nodes.IsChain fun n n' => ¬ fitsBetween arch m sizeOfRange alignment n n'

theorem NoneBetween.noMemory (user : UserRanges arch m nodes)
    (power : PowerOfTwo arch 16 alignment) (one : 1 ≤ sizeOfRange)
    (nowhere : NoneBetween arch m sizeOfRange alignment nodes) :
    UpwardsSound arch m nodes sizeOfRange alignment .noMemory := by
  intro node next neighbours gap
  have mem : node ∈ nodes := neighbours.subset (by simp)
  have memNext : next ∈ nodes := neighbours.subset (by simp)
  have pair := IsChain.infix nowhere neighbours
  rw [isChain_pair] at pair
  exact pair ((fitsBetween_iff user power one mem memNext).mpr gap)

theorem scanGaps_sound_iff {f : List Addr} (user : UserRanges arch m (f ++ node :: rest))
    (power : PowerOfTwo arch 16 alignment) (one : 1 ≤ sizeOfRange)
    (passed : NoneBetween arch m sizeOfRange alignment (f ++ [node])) :
    UpwardsSound arch m (f ++ node :: rest) sizeOfRange alignment
        (scanGaps arch m sizeOfRange alignment node rest) ↔
      (NoneBetween arch m sizeOfRange alignment (node :: rest) →
        fitsAbove arch m sizeOfRange alignment (rest.getLastD node) →
          RoomAbove arch m sizeOfRange alignment (rest.getLastD node)) := by
  induction rest generalizing f node with
  | nil =>
    have single : NoneBetween arch m sizeOfRange alignment [node] := isChain_singleton _
    simp only [scanGaps, single, true_imp_iff, getLastD_nil]
    split
    next fits =>
      simp only [fits, true_imp_iff]
      exact above_sound_iff user power one
    next misses =>
      simp only [misses, false_imp_iff, iff_true]
      exact passed.noMemory user power one
  | cons next rest ih =>
    simp only [scanGaps]
    split
    next fits =>
      refine iff_of_true (between_sound user power one fits) fun nowhere => ?_
      exact absurd fits (isChain_cons_cons.mp nowhere).1
    next misses =>
      have passedNext : NoneBetween arch m sizeOfRange alignment ((f ++ [node]) ++ [next]) := by
        rw [append_assoc]
        exact isChain_split.mpr ⟨passed, by simpa using misses⟩
      have shape : f ++ node :: next :: rest = (f ++ [node]) ++ next :: rest := by simp
      rw [shape] at user ⊢
      rw [ih user passedNext, getLastD_cons]
      exact imp_congr_left (isChain_cons_cons.trans (and_iff_right misses)).symm

/-- When the answer is right: if the range goes below the first node, the alignment is 64K; and
if the test above the last node is reached and passes, there is room. -/
def UpwardsCondition (arch : Platform) (m : Memory) (nodes : List Addr)
    (sizeOfRange alignment : Nat) : Prop :=
  match nodes with
  | [] => alignment = x64K
  | first :: rest =>
    (fitsBelow m sizeOfRange first → alignment = x64K) ∧ (¬ fitsBelow m sizeOfRange first →
        NoneBetween arch m sizeOfRange alignment (first :: rest) →
          fitsAbove arch m sizeOfRange alignment (rest.getLastD first) →
            RoomAbove arch m sizeOfRange alignment (rest.getLastD first))

/-- **The search upwards is right exactly when its two ends are.**  For every tree of disjoint
user ranges, every size up to the user range and every alignment of at least 64K the search
ends; its answer is sound if and only if the condition holds. -/
theorem upwards_sound_iff {s : Space} {t : BinaryTree Addr}
    (hangs : Hangs s.memory.links null s.balancedRoot t)
    (count : s.numberGenericTableElements = (inorder t).length)
    (user : UserRanges arch s.memory (inorder t))
    (power : PowerOfTwo arch 16 alignment) (atLeast : pageSize ≤ sizeOfRange)
    (atMost : lowestUserAddress + sizeOfRange ≤ arch.highestVadAddress + 1)
    {fuel : Nat} (enough : (inorder t).length + 2 ≤ fuel) :
    ∃ answer, findEmptyAddressRangeInTree arch sizeOfRange alignment fuel s = some answer ∧
      (UpwardsSound arch s.memory (inorder t) sizeOfRange alignment answer ↔
        UpwardsCondition arch s.memory (inorder t) sizeOfRange alignment) := by
  have one : 1 ≤ sizeOfRange := le_trans (by decide) atLeast
  refine ⟨_, findEmptyAddressRangeInTree_eq hangs count enough, ?_⟩
  cases sequence : inorder t with
  | nil =>
    refine below_sound_iff power ?_ (fun n mem => by simp at mem)
    exact Nat.div_le_div_right (by omega)
  | cons first =>
    rw [sequence] at user
    simp only [UpwardsCondition]
    split
    next fits =>
      obtain ⟨inRange, free⟩ := first_free one user fits
      rw [below_sound_iff power inRange free]
      simp [fits]
    next misses =>
      have start : NoneBetween arch s.memory sizeOfRange alignment ([] ++ [first]) :=
        isChain_singleton _
      have scan := scanGaps_sound_iff (f := []) user power one start
      rw [nil_append] at scan
      rw [scan]
      simp [misses]

/-- A table at address 4 whose only node, at address 8, covers the pages from `first` to
`last`. -/
def oneRange (first last : Nat) : Space where
  memory := {
    links := {
      parent := fun _ => 4
      left := fun _ => null
      right := fun a => if a = 4 then 8 else null }
    balance := fun _ => 0
    startingVpn := fun a => if a = 8 then first else 0
    endingVpn := fun a => if a = 8 then last else 0 }
  balancedRoot := 4
  depthOfTree := 1
  numberGenericTableElements := 1

theorem oneRange_user {first last : Nat} (range : first ≤ last)
    (low : vaToVpn lowestUserAddress ≤ first) (high : last ≤ vaToVpn arch.highestVadAddress) :
    UserRanges arch (oneRange first last).memory (inorder (.node 8 .nil .nil)) := by
  refine ⟨?_, ?_, ?_, pairwise_singleton _ _⟩ <;>
    simpa [oneRange]

/-- A table at address 4 with a node at address 8 and, to the right of it, one at address 12, for
the pages from `first` to `last` and from `first'` to `last'`. -/
def twoRanges (first last first' last' : Nat) : Space where
  memory := {
    links := {
      parent := fun a => if a = 12 then 8 else 4
      left := fun _ => null
      right := fun a => if a = 4 then 8 else if a = 8 then 12 else null }
    balance := fun a => if a = 8 then 1 else 0
    startingVpn := fun a => if a = 8 then first else first'
    endingVpn := fun a => if a = 8 then last else last' }
  balancedRoot := 4
  depthOfTree := 2
  numberGenericTableElements := 2

theorem twoRanges_hangs (first last first' last' : Nat) :
    Hangs (twoRanges first last first' last').memory.links null 4
      (.node 8 .nil (.node 12 .nil .nil)) :=
  ⟨rfl, rfl, rfl, ⟨rfl, rfl, rfl, trivial, rfl, rfl, rfl, trivial, trivial⟩, by simp [null]⟩

/-- All user pages but the 32 after the first 16. -/
theorem twoRanges_user : UserRanges x86 (twoRanges 0x10 0x1F 0x40 0x7FFDF).memory
      (inorder (.node 8 .nil (.node 12 .nil .nil))) := by
  refine ⟨?_, ?_, ?_, ?_⟩ <;> decide

/-- The gap between two nodes is given out. -/
theorem upwards_sound_iff_twoRanges :
    UpwardsSound x86 (twoRanges 0x10 0x1F 0x40 0x7FFDF).memory [8, 12] 0x20000 0x20000
      (.success 0x20000 (some 8)) := by
  obtain ⟨answer, found, sound⟩ := @upwards_sound_iff _ 0x20000 _ _ _
    (twoRanges_hangs 0x10 0x1F 0x40 0x7FFDF) rfl twoRanges_user ⟨17, by decide, by decide, rfl⟩
    (by decide) (by decide) 4 (by decide)
  have given : findEmptyAddressRangeInTree x86 0x20000 0x20000 4 (twoRanges 0x10 0x1F 0x40 0x7FFDF) =
      some (.success 0x20000 (some 8)) := by decide +kernel
  cases found.symm.trans given
  refine sound.mpr ⟨fun below => absurd below (by decide), fun _ nowhere => ?_⟩
  exact absurd (isChain_cons_cons.mp nowhere).1 (by decide +kernel)

/-- A table without nodes, at address 4. -/
def noRange : Space :=
  initializeVadTableAvl (oneRange 0 0).memory 4

/-- In an empty tree the lowest user address is given out for an alignment of 128K, which it
does not have; and above a node that ends 256 MB below the limit, a range is given out that
ends behind the limit. -/
theorem upwards_unsound :
    (Hangs noRange.memory.links null noRange.balancedRoot .nil ∧ PowerOfTwo x86 16 0x20000 ∧
      findEmptyAddressRangeInTree x86 0x1000 0x20000 2 noRange =
        some (.success lowestUserAddress none) ∧
      ¬ UpwardsSound x86 noRange.memory [] 0x1000 0x20000 (.success lowestUserAddress none)) ∧
    (UserRanges x86 (oneRange 0x10 0x70000).memory [8] ∧ PowerOfTwo x86 16 0x10000 ∧
      findEmptyAddressRangeInTree x86 0xFFDF000 0x10000 3 (oneRange 0x10 0x70000) =
        some (.success 0x70010000 (some 8)) ∧
      ¬ UpwardsSound x86 (oneRange 0x10 0x70000).memory [8] 0xFFDF000 0x10000
        (.success 0x70010000 (some 8))) := by
  refine ⟨⟨⟨rfl, rfl, rfl, trivial, by decide⟩, ⟨17, by decide, by decide, rfl⟩, rfl, ?_⟩,
    oneRange_user (by decide) (by decide) (by decide), ⟨16, by decide, by decide, rfl⟩,
    by decide +kernel, ?_⟩
  · rintro ⟨divides, -⟩
    exact absurd divides (by decide)
  · rintro ⟨-, -, high, -⟩
    exact absurd high (by decide)

end Ntoskrnl.Mm.Vad
