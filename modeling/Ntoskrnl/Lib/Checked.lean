/-
# Ntoskrnl.Lib.Checked -- buffers with checked accesses

A buffer is a list; a pointer into it is an offset from its start.  Every access
is checked: `readOr e m i` and `writeOr e m i a` fail with the error `e` when `i`
is not an offset of `m`.  A program over such buffers lives in `Except ε`, and
its result is taken apart with `bind_eq_ok` and the two access lemmas, never by
unfolding the monad.

`At m i bs` says that the bytes `bs` lie in `m` from offset `i` on, and
`blit m i bs` is `m` with `bs` stored there.  Nothing here mentions what the
bytes mean.
-/
import Mathlib.Data.List.Basic

namespace Ntoskrnl.Lib.Checked

open List

set_option autoImplicit false

universe u v

variable {ε α : Type u}

/-! ## Accesses -/

variable {β : Type u}

theorem bind_eq_ok {x : Except ε α} {f : α → Except ε β} {r : β} :
    (x >>= f) = .ok r ↔ ∃ a, x = .ok a ∧ f a = .ok r := by
  cases x with
  | error | ok => simp [bind, Except.bind]

theorem ok_bind (a : α) (f : α → Except ε β) : (Except.ok a >>= f) = f a := rfl

variable {a : α} {e : ε} {m bs as : List α} {i j : Nat}

theorem pure_eq_ok {r : α} : (pure a : Except ε α) = .ok r ↔ a = r := by
  simp [pure, Except.pure]

/-- Read the buffer at `i`, or fail with `e`. -/
def readOr (e : ε) (m : List α) (i : Nat) : Except ε α :=
  match m[i]? with
  | some a => .ok a
  | none => .error e

/-- Store `a` at `i`, or fail with `e`. -/
def writeOr (e : ε) (m : List α) (i : Nat) (a : α) : Except ε (List α) :=
  if i < m.length then .ok (m.set i a) else .error e

theorem readOr_eq_ok : readOr e m i = .ok a ↔ m[i]? = some a := by
  unfold readOr
  cases m[i]? <;> simp

theorem readOr_of_lt (h : i < m.length) : readOr e m i = .ok m[i] :=
  readOr_eq_ok.mpr (getElem?_eq_getElem h)

variable {m' : List α}

theorem writeOr_eq_ok : writeOr e m i a = .ok m' ↔ i < m.length ∧ m' = m.set i a := by
  unfold writeOr
  by_cases h : i < m.length
  · simp [h, eq_comm]
  · simp [h]

theorem writeOr_of_lt (h : i < m.length) : writeOr e m i a = .ok (m.set i a) :=
  writeOr_eq_ok.mpr ⟨h, rfl⟩

/-! ## Bytes at an offset -/

/-- The bytes `bs` lie in `m` from offset `i` on. -/
def At (m : List α) (i : Nat) (bs : List α) : Prop :=
  ∀ k, k < bs.length → m[i + k]? = bs[k]?

@[simp] theorem at_nil (m : List α) (i : Nat) : At m i [] := by
  intro k hk
  simp at hk

theorem at_cons {b : α} : At m i (b :: bs) ↔ m[i]? = some b ∧ At m (i + 1) bs := by
  constructor
  · intro h
    refine ⟨by simpa using h 0 (by simp), fun k hk => ?_⟩
    have := h (k + 1) (by simpa using hk)
    simpa [Nat.add_assoc, Nat.add_comm 1 k] using this
  · rintro ⟨head, tail⟩ k hk
    cases k with
    | zero => simpa using head
    | succ k =>
      have := tail k (by simpa using hk)
      simpa [Nat.add_assoc, Nat.add_comm 1 k] using this

theorem at_append : At m i (as ++ bs) ↔ At m i as ∧ At m (i + as.length) bs := by
  induction as generalizing i with
  | nil => simp
  | cons a as ih =>
    rw [cons_append, at_cons, ih, at_cons, and_assoc, length_cons,
      Nat.add_right_comm, Nat.add_assoc]

theorem At.bound (h : At m i bs) (ne : bs ≠ []) : i + bs.length ≤ m.length := by
  have pos : 0 < bs.length := length_pos_iff.mpr ne
  have last := h (bs.length - 1) (by omega)
  have inside : i + (bs.length - 1) < m.length := by
    rw [getElem?_eq_getElem (by omega : bs.length - 1 < bs.length)] at last
    exact (List.getElem?_eq_some_iff.mp last).1
  omega

/-- What lies at an offset depends only on the buffer there. -/
theorem At.congr (h : At m i bs) (same : ∀ j, i ≤ j → j < i + bs.length → m'[j]? = m[j]?) :
    At m' i bs := by
  intro k hk
  rw [same (i + k) (by omega) (by omega), h k hk]

theorem At.set_outside (h : At m i bs) (outside : j < i ∨ i + bs.length ≤ j) :
    At (m.set j a) i bs :=
  h.congr fun l _ _ => getElem?_set_ne (by omega)

/-- A store just past the bytes extends them. -/
theorem At.snoc (h : At m i bs) (room : i + bs.length < m.length) :
    At (m.set (i + bs.length) a) i (bs ++ [a]) := by
  rw [at_append, at_cons]
  exact ⟨h.set_outside (.inr (Nat.le_refl _)), by simp [room], at_nil _ _⟩

theorem At.take_eq (h : At m 0 bs) : m.take bs.length = bs := by
  apply ext_getElem?
  intro k
  by_cases hk : k < bs.length
  · rw [getElem?_take_of_lt hk]
    simpa using h k hk
  · rw [getElem?_take_eq_none (by omega), getElem?_eq_none (by omega)]

theorem at_drop : At (m.drop i) j bs ↔ At m (i + j) bs := by
  simp only [At, getElem?_drop, Nat.add_assoc]

theorem at_self (m : List α) : At m 0 m := by
  intro k _
  simp

/-! ## Storing a block -/

/-- `m` with the block `bs` stored from offset `i` on. -/
def blit (m : List α) (i : Nat) (bs : List α) : List α :=
  m.take i ++ bs ++ m.drop (i + bs.length)

section Blit

variable (room : i + bs.length ≤ m.length)

include room

theorem blit_length : (blit m i bs).length = m.length := by
  simp only [blit, length_append, length_take, length_drop]
  omega

theorem getElem?_blit (j : Nat) :
    (blit m i bs)[j]? = if i ≤ j ∧ j < i + bs.length then bs[j - i]? else m[j]? := by
  unfold blit
  have left : (m.take i).length = i := by simp; omega
  rcases Nat.lt_or_ge j i with before | after
  · rw [append_assoc, getElem?_append_left (by omega), getElem?_take_of_lt before,
      if_neg (by omega)]
  · rcases Nat.lt_or_ge j (i + bs.length) with inside | past
    · rw [getElem?_append_left (by simp only [length_append]; omega),
        getElem?_append_right (by omega), if_pos ⟨after, inside⟩, left]
    · rw [getElem?_append_right (by simp only [length_append]; omega),
        if_neg (by omega), getElem?_drop]
      simp only [length_append, left]
      congr 1
      omega

theorem getElem?_blit_outside (outside : j < i ∨ i + bs.length ≤ j) :
    (blit m i bs)[j]? = m[j]? := by
  rw [getElem?_blit room, if_neg (by omega)]

theorem at_blit : At (blit m i bs) i bs := by
  intro k hk
  rw [getElem?_blit room, if_pos (by omega), Nat.add_sub_cancel_left]

end Blit

theorem blit_nil (m : List α) (i : Nat) : blit m i [] = m := by
  simp [blit]

/-- One more store past the block. -/
theorem blit_snoc (room : i + bs.length < m.length) :
    (blit m i bs).set (i + bs.length) a = blit m i (bs ++ [a]) := by
  have room' : i + (bs ++ [a]).length ≤ m.length := by simp; omega
  apply ext_getElem?
  intro j
  rw [getElem?_blit room', getElem?_set, blit_length (by omega), getElem?_blit (by omega)]
  simp only [length_append, length_singleton]
  by_cases here : i + bs.length = j
  · subst here
    simp [room]
  · rw [if_neg here]
    by_cases inside : i ≤ j ∧ j < i + bs.length
    · rw [if_pos inside, if_pos (by omega), getElem?_append_left (by omega)]
    · rw [if_neg inside, if_neg (by omega)]

/-- A second block stored right after the first. -/
theorem blit_blit (room : i + as.length + bs.length ≤ m.length) :
    blit (blit m i as) (i + as.length) bs = blit m i (as ++ bs) := by
  have ra : i + as.length ≤ m.length := by omega
  apply ext_getElem?
  intro j
  rw [getElem?_blit (by rw [blit_length ra]; exact room), getElem?_blit ra,
    getElem?_blit (by simp only [length_append]; omega)]
  simp only [length_append]
  by_cases second : i + as.length ≤ j ∧ j < i + as.length + bs.length
  · rw [if_pos second, if_pos (by omega), getElem?_append_right (by omega)]
    congr 1
    omega
  · rw [if_neg second]
    by_cases first : i ≤ j ∧ j < i + as.length
    · rw [if_pos first, if_pos (by omega), getElem?_append_left (by omega)]
    · rw [if_neg first, if_neg (by omega)]

/-- A store that covers an earlier one hides it. -/
theorem blit_cover (inside : i + as.length ≤ m.length) (low : j ≤ i)
    (high : i + as.length ≤ j + bs.length) (room : j + bs.length ≤ m.length) :
    blit (blit m i as) j bs = blit m j bs := by
  apply ext_getElem?
  intro k
  rw [getElem?_blit (by rw [blit_length inside]; exact room), getElem?_blit room]
  split
  · rfl
  · exact getElem?_blit_outside inside (by omega)

theorem blit_full (same : m.length = bs.length) : blit m 0 bs = bs := by
  simp [blit, ← same]

end Ntoskrnl.Lib.Checked
