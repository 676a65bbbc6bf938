/-
# Ntoskrnl.Rtl.Ranges.Invert -- the complement of a range list

`RtlInvertRangeList` adds the gap before each entry and then the rest of the address space.
The start of the rest wraps to zero behind an entry that ends at the top, and the test for
that is all that keeps the rest from being added.  Before the first entry the start is zero
as well, so the complement of an empty list is empty.
-/
import Ntoskrnl.Rtl.Ranges.Invariant

namespace Ntoskrnl.Rtl.Ranges

open Base List

set_option autoImplicit false

/-- `MAX_ULONGLONG`. -/
def maxUlonglong : Nat := 2 ^ 64 - 1

/-- The loop of `RtlInvertRangeList` and what follows it. -/
def invertLoop (inverted : RangeList) (currentStart : Nat) : List Entry → NtStatus × RangeList
  | [] =>
    if currentStart > (currentStart + maxUlonglong) % 2 ^ 64 then
      rtlAddRange inverted currentStart maxUlonglong 0 0 0 0
    else (.success, inverted)
  | currentRange :: rest =>
    if currentRange.start > currentStart then
      let (status, inverted) := rtlAddRange inverted currentStart (currentRange.start - 1) 0 0 0 0
      if status.ntSuccess then invertLoop inverted ((currentRange.stop + 1) % 2 ^ 64) rest
      else (status, inverted)
    else invertLoop inverted ((currentRange.stop + 1) % 2 ^ 64) rest

def rtlInvertRangeList (inverted list : RangeList) : NtStatus × RangeList :=
  invertLoop inverted 0 list.entries

/-- The address lies in an entry. -/
def Covered (entries : List Entry) (a : Nat) : Prop :=
  ∃ entry ∈ entries, entry.start ≤ a ∧ a ≤ entry.stop

variable {inverted : RangeList} {start low : Nat} {entries : List Entry}

/-- A range behind every entry goes to the end of the list. -/
theorem addRangeLoop_behind {entry : Range} (ok : ListOk entries)
    (behind : ∀ e ∈ entries, e.stop < entry.start) (valid : entry.start ≤ entry.stop) :
    addRangeLoop entry 0 entries = (.success, entries ++ [.allocated entry]) := by
  induction entries with
  | nil => rfl
  | cons current rest ih =>
    obtain ⟨first, others, -⟩ := ListOk.cons_iff.mp ok
    have before := behind current mem_cons_self
    have some := first.start_le_stop
    rw [addRangeLoop, if_neg (by omega), if_neg (by unfold RangeIntersect RangeDisjoint; omega),
      ih others fun e mem => behind e (mem_cons_of_mem _ mem)]
    rfl

/-- What the loop has added: ordered ranges below `low`. -/
structure Gaps (inverted : RangeList) (low : Nat) : Prop where
  ok : ListOk inverted.entries
  below : ∀ e ∈ inverted.entries, e.stop < low

theorem Gaps.add (gaps : Gaps inverted start) (stop : Nat) (valid : start ≤ stop) :
    ∃ inverted', rtlAddRange inverted start stop 0 0 0 0 = (.success, inverted') ∧
      Gaps inverted' (stop + 1) ∧
      ∀ a, Covered inverted'.entries a ↔ Covered inverted.entries a ∨ (start ≤ a ∧ a ≤ stop) := by
  let entry := newRange start stop 0 0 0 0
  have added : rtlpAddRange inverted.entries entry 0 =
      (.success, inverted.entries ++ [.allocated entry]) :=
    addRangeLoop_behind gaps.ok gaps.below valid
  refine ⟨_, by rw [rtlAddRange, if_neg (by omega), added]; rfl, ⟨⟨?_, ?_⟩, ?_⟩, fun a => ?_⟩
  · simp only [mem_append, mem_singleton]
    rintro e (mem | rfl)
    · exact gaps.ok.each e mem
    · exact valid
  · refine pairwise_append.mpr ⟨gaps.ok.ordered, pairwise_singleton _ _, fun e mem e' mem' => ?_⟩
    rw [mem_singleton.mp mem']
    exact gaps.below e mem
  · simp only [mem_append, mem_singleton]
    rintro e (mem | rfl)
    · exact Nat.lt_succ_of_lt (Nat.lt_of_lt_of_le (gaps.below e mem) valid)
    · exact Nat.lt_succ_self stop
  · simp only [Covered, mem_append, mem_singleton, or_and_right, exists_or, exists_eq_left]
    rfl

/-- **The loop adds what is covered by no entry from `low` on.**  Only the first pass is at
address zero. -/
theorem invertLoop_gaps (gaps : Gaps inverted low) (ok : ListOk entries)
    (above : ∀ e ∈ entries, low ≤ e.start ∧ e.stop < 2 ^ 64) (word : low ≤ 2 ^ 64)
    (some : 0 < low ∨ entries ≠ []) :
    ∃ inverted', invertLoop inverted (low % 2 ^ 64) entries = (.success, inverted') ∧
      ListOk inverted'.entries ∧ ∀ a < 2 ^ 64, Covered inverted'.entries a ↔
        Covered inverted.entries a ∨ (low ≤ a ∧ ¬ Covered entries a) := by
  induction entries generalizing inverted low with
  | nil =>
    -- the last gap ends with the word, unless its start has wrapped
    have low0 : 0 < low := some.resolve_right (· rfl)
    have none (a : Nat) : ¬ Covered [] a := by simp [Covered]
    simp only [none, not_false_eq_true, and_true]
    rw [invertLoop]
    split
    · next rest =>
      have inside : low < 2 ^ 64 := by
        refine Nat.lt_of_le_of_ne word ?_
        rintro rfl
        exact absurd rest (by decide)
      obtain ⟨inverted', added, gaps', covered⟩ :=
        gaps.add maxUlonglong (by unfold maxUlonglong; omega)
      rw [Nat.mod_eq_of_lt inside]
      refine ⟨inverted', added, gaps'.ok, fun a high => (covered a).trans (or_congr_right ?_)⟩
      unfold maxUlonglong
      omega
    · next wrapped =>
      have top : low = 2 ^ 64 := by
        unfold maxUlonglong at wrapped
        omega
      exact ⟨inverted, rfl, gaps.ok, fun a high => by rw [or_iff_left]; omega⟩
  | cons entry rest ih =>
    obtain ⟨first, others, order⟩ := ListOk.cons_iff.mp ok
    obtain ⟨from', within⟩ := above entry mem_cons_self
    have valid := first.start_le_stop
    have above' : ∀ e ∈ rest, entry.stop + 1 ≤ e.start ∧ e.stop < 2 ^ 64 := fun e mem =>
      ⟨order e mem, (above e (mem_cons_of_mem _ mem)).2⟩
    have split (a : Nat) : Covered (entry :: rest) a ↔
        (entry.start ≤ a ∧ a ≤ entry.stop) ∨ Covered rest a := by simp [Covered]
    have past (a : Nat) (inside : Covered rest a) : entry.stop < a := by
      obtain ⟨e, mem, starts, -⟩ := inside
      exact Nat.lt_of_lt_of_le (order e mem) starts
    -- the gap in front of this entry, if there is one
    have step : ∃ inverted', invertLoop inverted low (entry :: rest) =
          invertLoop inverted' ((entry.stop + 1) % 2 ^ 64) rest ∧ Gaps inverted' entry.start ∧
        ∀ a, Covered inverted'.entries a ↔
          Covered inverted.entries a ∨ (low ≤ a ∧ a < entry.start) := by
      rw [invertLoop]
      split
      · obtain ⟨inverted', added, gaps', covered⟩ := gaps.add (entry.start - 1) (by omega)
        simp only [added, NtStatus.ntSuccess_success, if_true]
        rw [Nat.sub_add_cancel (by omega)] at gaps'
        exact ⟨inverted', rfl, gaps', fun a => (covered a).trans (or_congr_right (by omega))⟩
      · exact ⟨inverted, rfl, ⟨gaps.ok, fun e mem => (gaps.below e mem).trans_le from'⟩,
          fun a => by rw [or_iff_left]; omega⟩
    obtain ⟨inverted', step, gaps', covered⟩ := step
    obtain ⟨result, run, ok', all⟩ := ih
      ⟨gaps'.ok, fun e mem => by have := gaps'.below e mem; omega⟩ others above' (by omega)
      (.inl (Nat.succ_pos entry.stop))
    rw [Nat.mod_eq_of_lt (by omega), step]
    refine ⟨result, run, ok', fun a high => ?_⟩
    rw [all a high, covered, split, or_assoc]
    refine or_congr_right ?_
    by_cases inside : Covered rest a
    · have := past a inside
      simp only [inside, not_true, and_false, or_true, or_false, iff_false]
      omega
    · simp only [inside, not_false_iff, and_true, or_false]
      omega

/-- The inverted list covers what the other one does not, by disjoint entries. -/
def Complement (inverted list : RangeList) : Prop :=
  (∀ a < 2 ^ 64, Covered inverted.entries a ↔ ¬ Covered list.entries a) ∧
    inverted.entries.Pairwise fun e e' => RangeDisjoint e.start e.stop e'.start e'.stop

/-- **The complement of a range list is right exactly if the list has an entry.** -/
theorem rtlInvertRangeList_iff (list : RangeList) (ok : ListOk list.entries)
    (word : ∀ e ∈ list.entries, e.stop < 2 ^ 64) :
    ∃ inverted, rtlInvertRangeList rtlInitializeRangeList list = (.success, inverted) ∧
      (Complement inverted list ↔ list.entries ≠ []) := by
  by_cases some : list.entries = []
  · refine ⟨rtlInitializeRangeList, by rw [rtlInvertRangeList, some]; rfl, ?_⟩
    refine iff_of_false (fun complement => ?_) (not_not.mpr some)
    have nowhere := complement.1 0 (by decide)
    simp [Covered, some, rtlInitializeRangeList] at nowhere
  · obtain ⟨inverted, run, ok', covered⟩ := invertLoop_gaps
      (⟨.nil, nofun⟩ : Gaps rtlInitializeRangeList 0) ok (fun e mem => ⟨Nat.zero_le _, word e mem⟩)
      (Nat.zero_le _) (.inr some)
    refine ⟨inverted, run, iff_of_true ⟨fun a high => ?_, ?_⟩ some⟩
    · rw [covered a high]
      simp [Covered, rtlInitializeRangeList]
    · refine ok'.ordered.imp_of_mem fun {e e'} mem _ order => .inl ⟨?_, order⟩
      exact Nat.lt_of_le_of_lt (ok'.each e mem).start_le_stop order

theorem rtlInvertRangeList_iff_top : ∃ inverted, rtlInvertRangeList rtlInitializeRangeList
        ⟨[.allocated (newRange 5 maxUlonglong 0 0 0 0)], 1, 1⟩ = (.success, inverted) ∧
      (Complement inverted ⟨[.allocated (newRange 5 maxUlonglong 0 0 0 0)], 1, 1⟩ ↔
        [Entry.allocated (newRange 5 maxUlonglong 0 0 0 0)] ≠ []) := by
  refine rtlInvertRangeList_iff ⟨[.allocated (newRange 5 maxUlonglong 0 0 0 0)], 1, 1⟩
    (ListOk.cons_iff.mpr ⟨?_, ListOk.nil, nofun⟩) fun e mem => ?_
  · show 5 ≤ maxUlonglong
    decide
  · rw [mem_singleton.mp mem]
    decide

/-- No address is in the complement of an empty list. -/
theorem rtlInvertRangeList_empty :
    rtlInvertRangeList rtlInitializeRangeList rtlInitializeRangeList =
        (.success, rtlInitializeRangeList) ∧
      ¬ Complement rtlInitializeRangeList rtlInitializeRangeList := by
  refine ⟨by decide, fun complement => ?_⟩
  have nowhere := complement.1 0 (by decide)
  simp [Covered, rtlInitializeRangeList] at nowhere

end Ntoskrnl.Rtl.Ranges
