/-
# Ntoskrnl.Lib.RunLength -- piecewise constant functions as lists of runs

A function on the natural numbers that is `d` from some point on is stored as a list of
runs.  A run has the position where it stops and a tag; it starts where the run before
it stops.  The list is canonical when the stops increase and no run has the tag of the
one behind it, where the last run is followed by `d`.  A function has at most one
canonical list (`Canonical.unique`).

An edit gives the positions from `v` up to `w` one tag `t`.  `weld` puts the canonical
list of the result together from the runs before `v` and the runs from `w` on: a
neighbour with the tag `t` swallows the new run.
-/
import Mathlib.Data.List.Chain

namespace Ntoskrnl.Lib.RunLength

open List

set_option autoImplicit false

universe u

structure Run (τ : Type u) where
  stop : Nat
  tag : τ
  deriving DecidableEq, Repr

variable {τ : Type u} {a b : List (Run τ)}

/-- The tag at a position; `d` behind the last run. -/
def value (d : τ) : List (Run τ) → Nat → τ
  | [], _ => d
  | run :: runs, x => if x < run.stop then run.tag else value d runs x

/-- Where the runs end, when they begin at `start`. -/
def limit (start : Nat) : List (Run τ) → Nat
  | [] => start
  | run :: runs => limit run.stop runs

def Increasing (start : Nat) : List (Run τ) → Prop
  | [] => True
  | run :: runs => start < run.stop ∧ Increasing run.stop runs

/-- The tag right behind the position where the runs begin. -/
def nextTag (d : τ) : List (Run τ) → τ
  | [] => d
  | run :: _ => run.tag

/-- No run has the tag of the one behind it. -/
def Reduced (d : τ) (runs : List (Run τ)) : Prop :=
  (runs.map Run.tag ++ [d]).IsChain (· ≠ ·)

structure Canonical (d : τ) (runs : List (Run τ)) : Prop where
  increasing : Increasing 0 runs
  reduced : Reduced d runs

/-! ## Appending -/

variable {start : Nat}

section Append

variable {d : τ} {x : Nat} {runs first rest : List (Run τ)}

@[simp] theorem limit_append : limit start (first ++ rest) = limit (limit start first) rest := by
  induction first generalizing start with
  | nil => rfl
  | cons run runs ih => exact ih

@[simp] theorem increasing_append :
    Increasing start (first ++ rest) ↔
      Increasing start first ∧ Increasing (limit start first) rest := by
  induction first generalizing start with
  | nil => simp [Increasing, limit]
  | cons run runs ih => simp [Increasing, limit, ih, and_assoc]

theorem Increasing.le_limit (inc : Increasing start runs) : start ≤ limit start runs := by
  induction runs generalizing start with
  | nil => exact le_rfl
  | cons run runs ih => exact Nat.le_trans (Nat.le_of_lt inc.1) (ih inc.2)

theorem value_append_left (inc : Increasing start first) (above : start ≤ x)
    (below : x < limit start first) : value d (first ++ rest) x = value d first x := by
  induction first generalizing start with
  | nil => exact absurd below (Nat.not_lt.mpr above)
  | cons run runs ih =>
    show (if x < run.stop then run.tag else value d (runs ++ rest) x) = _
    rw [value]
    split
    · rfl
    · next behind => exact ih inc.2 (Nat.le_of_not_lt behind) below

theorem value_append_right (inc : Increasing start first) (behind : limit start first ≤ x) :
    value d (first ++ rest) x = value d rest x := by
  induction first generalizing start with
  | nil => rfl
  | cons run runs ih =>
    have : run.stop ≤ limit run.stop runs := inc.2.le_limit
    show (if x < run.stop then run.tag else value d (runs ++ rest) x) = _
    rw [if_neg (Nat.not_lt.mpr (Nat.le_trans this behind))]
    exact ih inc.2 behind

theorem value_behind (inc : Increasing start runs) (behind : limit start runs ≤ x) :
    value d runs x = d := by
  have : value d (runs ++ []) x = d := value_append_right inc behind
  rwa [append_nil] at this

/-- Inside the runs the tag behind them does not matter. -/
theorem value_inside {d' : τ} (inc : Increasing start runs) (above : start ≤ x)
    (below : x < limit start runs) : value d runs x = value d' runs x := by
  induction runs generalizing start with
  | nil => exact absurd below (Nat.not_lt.mpr above)
  | cons run runs ih =>
    rw [value, value]
    split
    · rfl
    · next behind => exact ih inc.2 (Nat.le_of_not_lt behind) below

theorem value_start (inc : Increasing start runs) : value d runs start = nextTag d runs := by
  cases runs with
  | nil => rfl
  | cons => exact if_pos inc.1

@[simp] theorem reduced_cons {run : Run τ} :
    Reduced d (run :: runs) ↔ run.tag ≠ nextTag d runs ∧ Reduced d runs := by
  cases runs <;> simp [Reduced, nextTag]

end Append

/-! ## Uniqueness -/

/-- A run is followed by another tag. -/
theorem value_stop_ne {d : τ} {run : Run τ} {runs : List (Run τ)}
    (inc : Increasing start (run :: runs)) (red : Reduced d (run :: runs)) :
    run.tag ≠ value d (run :: runs) run.stop := by
  rw [value, if_neg (Nat.lt_irrefl _), value_start inc.2]
  exact (reduced_cons.mp red).1

theorem unique_from {d : τ} (inc_a : Increasing start a) (inc_b : Increasing start b)
    (red_a : Reduced d a) (red_b : Reduced d b) (same : ∀ x, start ≤ x → value d a x = value d b x) :
    a = b := by
  induction a generalizing start b with
  | nil =>
    cases b with
    | nil => rfl
    | cons run =>
      have at_start := same start le_rfl
      rw [value_start inc_b] at at_start
      exact absurd (at_start.symm.trans (same run.stop inc_b.1.le)) (value_stop_ne inc_b red_b)
  | cons run runs ih =>
    cases b with
    | nil =>
      have at_start := same start le_rfl
      rw [value_start inc_a] at at_start
      exact absurd (at_start.trans (same run.stop inc_a.1.le).symm) (value_stop_ne inc_a red_a)
    | cons run' =>
      have tag : run.tag = run'.tag := by
        have at_start := same start le_rfl
        rwa [value_start inc_a, value_start inc_b] at at_start
      -- a run that stops first is followed by another tag
      have stop : run.stop = run'.stop := by
        rcases Nat.lt_trichotomy run.stop run'.stop with first | equal | second
        · have at_stop := (same run.stop inc_a.1.le).trans (if_pos first)
          exact absurd (tag.trans at_stop.symm) (value_stop_ne inc_a red_a)
        · exact equal
        · have at_stop := (same run'.stop inc_b.1.le).symm.trans (if_pos second)
          exact absurd (tag.symm.trans at_stop.symm) (value_stop_ne inc_b red_b)
      obtain ⟨stop', tag'⟩ := run'
      cases tag
      cases stop
      refine congrArg _ (ih inc_a.2 inc_b.2 (reduced_cons.mp red_a).2 (reduced_cons.mp red_b).2 ?_)
      intro x above
      have at_x := same x (Nat.le_trans (Nat.le_of_lt inc_a.1) above)
      rwa [value, value, if_neg (Nat.not_lt.mpr above), if_neg (Nat.not_lt.mpr above)] at at_x

/-- **A function has one canonical list of runs.** -/
theorem Canonical.unique {d : τ} (can_a : Canonical d a) (can_b : Canonical d b)
    (same : ∀ x, value d a x = value d b x) : a = b :=
  unique_from can_a.increasing can_b.increasing can_a.reduced can_b.reduced fun x _ => same x

theorem Canonical.nil (d : τ) : Canonical d [] :=
  ⟨trivial, isChain_singleton d⟩

/-! ## Before a position and after it -/

/-- The runs of `f` up to `v`. -/
structure Before (d : τ) (f : Nat → τ) (v : Nat) (runs : List (Run τ)) : Prop where
  increasing : Increasing 0 runs
  limit_eq : limit 0 runs = v
  reduced : (runs.map Run.tag).IsChain (· ≠ ·)
  value_eq : ∀ x, x < v → value d runs x = f x

/-- The runs of `f` from `w` on. -/
structure After (d : τ) (f : Nat → τ) (w : Nat) (runs : List (Run τ)) : Prop where
  increasing : Increasing w runs
  reduced : Reduced d runs
  value_eq : ∀ x, w ≤ x → value d runs x = f x

/-- The runs before `v`, when `v` is behind `before` in a run with tag `u`. -/
def cutLeft (before : List (Run τ)) (v : Nat) (u : τ) : List (Run τ) :=
  if limit 0 before = v then before else before ++ [⟨v, u⟩]

/-- The runs from `w` on, when `w` is in a run that is followed by `after`. -/
def cutRight (w : Nat) (run : Run τ) (after : List (Run τ)) : List (Run τ) :=
  if w = run.stop then after else run :: after

section Cut

variable {d : τ} {before after : List (Run τ)} {run : Run τ} {v w : Nat}

theorem Canonical.before_inside (can : Canonical d (before ++ run :: after))
    (above : limit 0 before ≤ v) (below : v ≤ run.stop) :
    Before d (value d (before ++ run :: after)) v (cutLeft before v run.tag) := by
  obtain ⟨inc, inc_run⟩ := increasing_append.mp can.increasing
  have red : (before.map Run.tag ++ run.tag :: (after.map Run.tag ++ [d])).IsChain (· ≠ ·) := by
    simpa [Reduced] using can.reduced
  have red_run := (isChain_split.mp red).1
  unfold cutLeft
  split
  · next here =>
    refine ⟨inc, here, red_run.left_of_append, fun x low => ?_⟩
    exact (value_append_left inc (Nat.zero_le x) (here ▸ low)).symm
  · next inside =>
    refine ⟨?_, ?_, ?_, fun x low => ?_⟩
    · simp only [increasing_append, Increasing, and_true]
      exact ⟨inc, by omega⟩
    · simp [limit]
    · simpa using red_run
    · by_cases early : x < limit 0 before
      · rw [value_append_left inc (Nat.zero_le x) early,
          value_append_left inc (Nat.zero_le x) early]
      · rw [value_append_right inc (Nat.le_of_not_lt early),
          value_append_right inc (Nat.le_of_not_lt early), value, if_pos low, value,
          if_pos (Nat.lt_of_lt_of_le low below)]

theorem Canonical.before_limit (can : Canonical d before) (behind : limit 0 before ≤ v) :
    Before d (value d before) v (cutLeft before v d) := by
  unfold cutLeft
  split
  · next here =>
    exact ⟨can.increasing, here, .left_of_append can.reduced, fun x low => rfl⟩
  · next inside =>
    refine ⟨?_, ?_, ?_, fun x low => ?_⟩
    · simp only [increasing_append, Increasing, and_true]
      exact ⟨can.increasing, by omega⟩
    · simp [limit]
    · simpa [Reduced] using can.reduced
    · by_cases early : x < limit 0 before
      · rw [value_append_left can.increasing (Nat.zero_le x) early]
      · rw [value_append_right can.increasing (Nat.le_of_not_lt early), value, if_pos low,
          value_behind can.increasing (Nat.le_of_not_lt early)]

theorem Canonical.after_inside (can : Canonical d (before ++ run :: after))
    (above : limit 0 before ≤ w) (below : w ≤ run.stop) :
    After d (value d (before ++ run :: after)) w (cutRight w run after) := by
  obtain ⟨inc, inc_run⟩ := increasing_append.mp can.increasing
  have red : Reduced d (run :: after) := by
    have := can.reduced
    rw [Reduced, map_append, append_assoc] at this
    exact this.right_of_append
  have tail : ∀ x, w ≤ x → value d (before ++ run :: after) x = value d (run :: after) x :=
    fun x high => value_append_right inc (Nat.le_trans above high)
  unfold cutRight
  split
  · next here =>
    refine ⟨here ▸ inc_run.2, (reduced_cons.mp red).2, fun x high => ?_⟩
    rw [tail x high, value, if_neg (by omega)]
  · next inside =>
    exact ⟨⟨by omega, inc_run.2⟩, red, fun x high => (tail x high).symm⟩

theorem Canonical.after_limit (can : Canonical d before) (behind : limit 0 before ≤ w) :
    After d (value d before) w [] :=
  ⟨trivial, (Canonical.nil d).reduced,
    fun _ high => (value_behind can.increasing (Nat.le_trans behind high)).symm⟩

theorem After.nothing (d : τ) (w : Nat) : After d (fun _ => d) w [] :=
  ⟨trivial, (Canonical.nil d).reduced, fun _ _ => rfl⟩

end Cut

/-! ## Welding -/

section Weld

variable [DecidableEq τ] {d t : τ} {f g : Nat → τ} {v w : Nat} {runs first rest : List (Run τ)}

/-- A last run with tag `t` is left to the run behind it. -/
def trimLast (t : τ) (runs : List (Run τ)) : List (Run τ) :=
  if runs.getLast?.map Run.tag = some t then runs.dropLast else runs

/-- A run with tag `t` up to `w`, or nothing when the runs behind it have the tag. -/
def join (d : τ) (w : Nat) (t : τ) (runs : List (Run τ)) : List (Run τ) :=
  if nextTag d runs = t then runs else ⟨w, t⟩ :: runs

@[simp] theorem trimLast_nil : trimLast t ([] : List (Run τ)) = [] := rfl

@[simp] theorem trimLast_concat {run : Run τ} :
    trimLast t (runs ++ [run]) = if run.tag = t then runs else runs ++ [run] := by
  simp [trimLast]

/-- The runs before a run with tag `t` that reaches at least to `v`. -/
structure Leading (t : τ) (f : Nat → τ) (v : Nat) (runs : List (Run τ)) : Prop where
  increasing : Increasing 0 runs
  limit_le : limit 0 runs ≤ v
  reduced : Reduced t runs
  value_eq : ∀ x, x < v → value t runs x = f x

theorem Before.leading (before : Before d f v runs) : Leading t f v (trimLast t runs) := by
  have inside : ∀ x, x < v → value t runs x = f x := fun x low => by
    rw [← before.value_eq x low]
    exact value_inside before.increasing (Nat.zero_le x) (before.limit_eq ▸ low)
  rcases eq_nil_or_concat' runs with rfl | ⟨init, last, rfl⟩
  · exact ⟨trivial, Nat.zero_le v, isChain_singleton t, inside⟩
  · obtain ⟨inc, inc_last, -⟩ := increasing_append.mp before.increasing
    have stop : last.stop = v := by simpa [limit] using before.limit_eq
    have red : (init.map Run.tag ++ [last.tag]).IsChain (· ≠ ·) := by
      simpa using before.reduced
    rw [trimLast_concat]
    split
    · next same =>
      refine ⟨inc, by omega, ?_, fun x low => ?_⟩
      · rw [Reduced, ← same]
        exact red
      · rw [← inside x low]
        by_cases early : x < limit 0 init
        · exact (value_append_left inc (Nat.zero_le x) early).symm
        · rw [value_append_right inc (Nat.le_of_not_lt early), value, stop, if_pos low, same,
            value_behind inc (Nat.le_of_not_lt early)]
    · next other =>
      refine ⟨before.increasing, Nat.le_of_eq before.limit_eq, ?_, inside⟩
      have both := isChain_append_cons_cons.mpr ⟨red, other, isChain_singleton t⟩
      simpa [Reduced] using both

theorem After.increasing_join (after : After d g w rest) (before : start < w) :
    Increasing start (join d w t rest) := by
  unfold join
  split
  · cases rest with
    | nil => trivial
    | cons => exact ⟨Nat.lt_trans before after.increasing.1, after.increasing.2⟩
  · exact ⟨before, after.increasing⟩

theorem After.value_join (after : After d g w rest) (x : Nat) :
    value d (join d w t rest) x = if x < w then t else g x := by
  unfold join
  split
  · next same =>
    split
    · next low =>
      cases rest with
      | nil => exact same
      | cons =>
        rw [value, if_pos (Nat.lt_trans low after.increasing.1)]
        exact same
    · next high => exact after.value_eq x (Nat.le_of_not_lt high)
  · rw [value]
    split
    · rfl
    · next high => exact after.value_eq x (Nat.le_of_not_lt high)

theorem After.reduced_join (after : After d g w rest) (lead : Reduced t first) :
    Reduced d (first ++ join d w t rest) := by
  unfold join
  split
  · next same =>
    have red := after.reduced
    cases rest with
    | nil =>
      rw [append_nil]
      rwa [show d = t from same]
    | cons =>
      cases same
      simp only [Reduced, map_append, append_assoc] at red ⊢
      exact isChain_split.mpr ⟨lead, red⟩
  · next other =>
    have red : Reduced d (⟨w, t⟩ :: rest) := reduced_cons.mpr ⟨.symm other, after.reduced⟩
    simp only [Reduced, map_append, append_assoc]
    exact isChain_split.mpr ⟨lead, red⟩

/-- **An edit between two cuts.**  The runs before `v`, one tag up to `w` and the runs
from `w` on make a canonical list. -/
theorem weld (before : Before d f v first) (after : After d g w rest) (some : v < w) :
    Canonical d (trimLast t first ++ join d w t rest) ∧
      ∀ x, value d (trimLast t first ++ join d w t rest) x =
        if x < v then f x else if x < w then t else g x := by
  have lead : Leading t f v (trimLast t first) := before.leading
  have le := lead.limit_le
  refine ⟨⟨?_, after.reduced_join lead.reduced⟩, fun x => ?_⟩
  · exact increasing_append.mpr
      ⟨lead.increasing, after.increasing_join (Nat.lt_of_le_of_lt le some)⟩
  · by_cases early : x < limit 0 (trimLast t first)
    · have low : x < v := Nat.lt_of_lt_of_le early le
      rw [value_append_left lead.increasing (Nat.zero_le x) early, if_pos low,
        ← lead.value_eq x low]
      exact value_inside lead.increasing (Nat.zero_le x) early
    · rw [value_append_right lead.increasing (Nat.le_of_not_lt early), after.value_join]
      by_cases low : x < v
      · rw [if_pos low, if_pos (Nat.lt_trans low some), ← lead.value_eq x low,
          value_behind lead.increasing (Nat.le_of_not_lt early)]
      · rw [if_neg low]

end Weld

/-! ## Moving runs up -/

/-- The run `amount` further up, its tag changed by `σ`. -/
def Run.shift (amount : Nat) (σ : τ → τ) (run : Run τ) : Run τ :=
  ⟨run.stop + amount, σ run.tag⟩

variable {d : τ} {f : Nat → τ} {w amount : Nat} {runs : List (Run τ)} {σ : τ → τ}

theorem increasing_shift (inc : Increasing start runs) :
    Increasing (start + amount) (runs.map (Run.shift amount σ)) := by
  induction runs generalizing start with
  | nil => trivial
  | cons run runs ih => exact ⟨Nat.add_lt_add_right inc.1 amount, ih inc.2⟩

theorem value_shift (keeps : σ d = d) (x : Nat) :
    value d (runs.map (Run.shift amount σ)) (x + amount) = σ (value d runs x) := by
  induction runs with
  | nil => exact keeps.symm
  | cons run runs ih =>
    simp only [map_cons, value, Run.shift, Nat.add_lt_add_iff_right]
    split
    · rfl
    · exact ih

theorem After.shift (after : After d f w runs) (keeps : σ d = d)
    (injective : Function.Injective σ) :
    After d (fun x => σ (f (x - amount))) (w + amount) (runs.map (Run.shift amount σ)) where
  increasing := increasing_shift after.increasing
  reduced := by
    have red := isChain_map_of_isChain σ (fun a b ne => injective.ne ne) after.reduced
    simpa [Reduced, keeps, Function.comp_def, Run.shift] using red
  value_eq x high := by
    obtain ⟨y, rfl⟩ := Nat.exists_eq_add_of_le' (Nat.le_trans (Nat.le_add_left amount w) high)
    rw [value_shift keeps, Nat.add_sub_cancel, after.value_eq y (by omega)]

end Ntoskrnl.Lib.RunLength
