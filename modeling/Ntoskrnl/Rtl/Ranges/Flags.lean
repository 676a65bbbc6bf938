/-
# Ntoskrnl.Rtl.Ranges.Flags -- the conflict flags of a range list

`RtlpAddToMergedRange` sets the flags of a new range and of every member it clashes
with; nothing clears a flag but the dissolution of a merged range, which adds all
members that are left again.  While the members of an absorbed entry are moved one by
one, their flags speak of members that have not arrived yet.  So a flag is justified
by a list of leaves that may be larger than what is in the header (`Justified`), while
it is complete for the ranges in the header only (`Flagged`).
-/
import Mathlib.Data.List.Flatten
import Ntoskrnl.Rtl.Ranges.Runs

namespace Ntoskrnl.Rtl.Ranges

open Base List

set_option autoImplicit false

/-! ## Flags of one header -/

/-- A flag that is set has another of the leaves to show for it. -/
def Justified (all : List Leaf) (r : Range) : Prop :=
  r.conflict → ∃ m ∈ all.erase r.toLeaf, m.Clash r.toLeaf

/-- Two ranges that clash both carry the flag. -/
def Marked (a b : Range) : Prop :=
  a.toLeaf.Clash b.toLeaf → a.conflict ∧ b.conflict

/-- Clashes among the ranges are all flagged, and flags are justified by the leaves. -/
structure Flagged (all : List Leaf) (ranges : List Range) : Prop where
  complete : ranges.Pairwise Marked
  justified : ∀ r ∈ ranges, Justified all r

theorem Marked.symm {a b : Range} (marked : Marked a b) : Marked b a :=
  fun clash => (marked clash.symm).symm

variable {few all : List Leaf} {r : Range}

theorem Justified.mono (justified : Justified few r) (sub : few.Subperm all) : Justified all r := by
  intro flag
  obtain ⟨m, mem, clash⟩ := justified flag
  exact ⟨m, (sub.erase r.toLeaf).subset mem, clash⟩

theorem Flagged.mono {ranges : List Range} (flagged : Flagged few ranges) (sub : few.Subperm all) :
    Flagged all ranges :=
  ⟨flagged.complete, fun r mem => (flagged.justified r mem).mono sub⟩

theorem markConflict_flag {entry current : Range} : (markConflict entry current).conflict ↔
      current.conflict ∨ current.toLeaf.Clash entry.toLeaf := by
  rw [← conflicts_iff, markConflict]
  split <;> simp_all

variable {entries : List Entry}

section Add

variable {merged : Merged} {entry : Range} {flags : Nat} {e : Entry}

/-- **Adding a range flags it and what it clashes with**, and nothing else. -/
theorem Flagged.add (allowed : addIfConflict flags)
    (flagged : Flagged all merged.members) (justified : Justified all entry)
    (sub : (entry.toLeaf :: merged.leaves).Subperm all) :
    Flagged all (rtlpAddToMergedRange merged entry flags).2.members := by
  have present : ∀ m ∈ merged.leaves, m ∈ all.erase entry.toLeaf := fun m mem => by
    have rest := (sub.erase entry.toLeaf).subset
    rw [erase_cons_head] at rest
    exact rest mem
  unfold rtlpAddToMergedRange
  rw [if_neg (by simp [allowed])]
  generalize added : { entry with
    conflict := entry.conflict || merged.members.any (conflicts · entry) } = new
  have leaf : new.toLeaf = entry.toLeaf := by rw [← added]
  have flag : new.conflict ↔ entry.conflict ∨ ∃ m ∈ merged.leaves, m.Clash entry.toLeaf := by
    rw [← added, Bool.or_eq_true, any_conflicts_iff]
    rfl
  have perm := insertByStart_perm new (merged.members.map (markConflict new))
  constructor
  · -- two that clash are both marked
    rw [perm.pairwise_iff Marked.symm, pairwise_cons, pairwise_map]
    constructor
    · intro b mem clash
      obtain ⟨m, found, rfl⟩ := mem_map.mp mem
      rw [markConflict_toLeaf] at clash
      exact ⟨flag.mpr (.inr ⟨_, mem_map_of_mem found, leaf ▸ clash.symm⟩),
        markConflict_flag.mpr (.inr clash.symm)⟩
    · refine flagged.complete.imp fun marked clash => ?_
      rw [markConflict_toLeaf, markConflict_toLeaf] at clash
      obtain ⟨first, second⟩ := marked clash
      exact ⟨markConflict_flag.mpr (.inl first), markConflict_flag.mpr (.inl second)⟩
  · -- what is marked clashes with another one
    intro r mem
    rcases mem_cons.mp (perm.mem_iff.mp mem) with rfl | mem
    · intro set
      rw [leaf]
      rcases flag.mp set with old | ⟨m, found, clash⟩
      · exact justified old
      · exact ⟨m, present m found, clash⟩
    · obtain ⟨m, found, rfl⟩ := mem_map.mp mem
      intro set
      rw [markConflict_toLeaf]
      rcases markConflict_flag.mp set with old | clash
      · exact flagged.justified m found old
      · refine ⟨entry.toLeaf, ?_, leaf ▸ clash.symm⟩
        by_cases same : entry.toLeaf = m.toLeaf
        · exact same ▸ present m.toLeaf (mem_map_of_mem found)
        · exact (mem_erase_of_ne same).mpr (sub.subset mem_cons_self)

theorem Flagged.addAll (allowed : addIfConflict flags) {ranges : List Range}
    (flagged : Flagged all merged.members) (justified : ∀ r ∈ ranges, Justified all r)
    (sub : (ranges.map Range.toLeaf ++ merged.leaves).Subperm all) :
    Flagged all (ranges.foldl (addIgnoringStatus flags) merged).members := by
  induction ranges generalizing merged with
  | nil => exact flagged
  | cons r rest ih =>
    have one : (r.toLeaf :: merged.leaves).Subperm all :=
      ((sublist_append_right _ _).cons_cons r.toLeaf).subperm.trans sub
    refine ih (flagged.add allowed (justified r mem_cons_self) one)
      (fun t mem => justified t (mem_cons_of_mem r mem)) ?_
    have moved : (rest.map Range.toLeaf ++ (addIgnoringStatus flags merged r).leaves).Perm
        (r.toLeaf :: (rest.map Range.toLeaf ++ merged.leaves)) :=
      ((addToMerged_leaves (addToMerged_success allowed)).append_left _).trans
        perm_middle
    exact moved.subperm.trans sub

/-! ## Flags of a list -/

/-- In every entry the flags are those of the clashes among its own leaves. -/
def FlagsExact (entries : List Entry) : Prop :=
  ∀ e ∈ entries, Flagged e.leaves e.ranges

theorem flagged_allocated (cleared : entry.conflict = false) :
    Flagged (Entry.allocated entry).leaves (Entry.allocated entry).ranges := by
  refine ⟨pairwise_singleton _ _, fun r mem set => ?_⟩
  rw [mem_singleton.mp mem, cleared] at set
  exact absurd set (by decide)

theorem leaves_subperm (mem : e ∈ entries) : e.leaves.Subperm (leavesOf entries) := by
  have inside := (singleton_sublist.mpr mem).flatMap Entry.ranges
  rw [flatMap_singleton] at inside
  exact (inside.map Range.toLeaf).subperm

theorem justified_rangesOf (exact : FlagsExact entries) (mem : r ∈ rangesOf entries) :
    Justified (leavesOf entries) r := by
  obtain ⟨e, found, inside⟩ := mem_flatMap.mp mem
  exact ((exact e found).justified r inside).mono (leaves_subperm found)

/-- The leaves of the header that `RtlpAddIntersectingRanges` builds justify the flags
of all that was moved into it; the new range comes last. -/
theorem rtlpAddIntersectingRanges_flags (allowed : addIfConflict flags)
    (cleared : entry.conflict = false) {first : Entry} {rest : List Entry}
    (exact : FlagsExact (first :: rest)) :
    FlagsExact (rtlpAddIntersectingRanges first rest entry flags).2 := by
  unfold rtlpAddIntersectingRanges
  rw [if_neg (by simp [allowed]), absorb_eq]
  have kept : ∀ e ∈ reached entry rest, e ∈ first :: rest := fun e mem =>
    mem_cons_of_mem first ((takeWhile_sublist _).mem mem)
  have dropped : ∀ e ∈ beyond entry rest, e ∈ first :: rest := fun e mem =>
    mem_cons_of_mem first ((dropWhile_sublist _).mem mem)
  have moved := foldl_addIgnoringStatus_leaves allowed (rangesOf (reached entry rest))
    first.toMerged
  rw [toMerged_members] at moved
  have own := exact first mem_cons_self
  -- the flags of the moved ranges speak of all the leaves that come together
  have collected := @Flagged.addAll (leavesOf (reached entry rest) ++ first.leaves)
    first.toMerged flags allowed _
    (toMerged_members first ▸ own.mono (sublist_append_right _ _).subperm)
    (fun r mem => (justified_rangesOf (fun e found => exact e (kept e found)) mem).mono
      (sublist_append_left _ _).subperm)
    (by rw [Merged.leaves, toMerged_members]; exact Subperm.refl _)
  intro e mem
  rcases mem_cons.mp mem with rfl | mem
  · have added := Flagged.add allowed (collected.mono (moved.symm.subperm.trans
      (sublist_cons_self entry.toLeaf _).subperm))
      (fun set => absurd (cleared.symm.trans set) (by decide)) (.refl _)
    exact added.mono (addToMerged_leaves (addToMerged_success allowed)).symm.subperm
  · exact exact e (dropped e mem)

theorem addRangeLoop_flags (allowed : addIfConflict flags)
    (cleared : entry.conflict = false) (exact : FlagsExact entries) :
    FlagsExact (addRangeLoop entry flags entries).2 := by
  induction entries with
  | nil =>
    intro e mem
    rw [mem_singleton.mp mem]
    exact flagged_allocated cleared
  | cons current rest ih =>
    unfold addRangeLoop
    split
    · intro e mem
      rcases mem_cons.mp mem with rfl | mem
      · exact flagged_allocated cleared
      · exact exact e mem
    split
    · exact rtlpAddIntersectingRanges_flags allowed cleared exact
    · intro e mem
      rcases mem_cons.mp mem with rfl | mem
      · exact exact e mem_cons_self
      · exact ih (fun e found => exact e (mem_cons_of_mem current found)) e mem

/-- **A dissolved header starts with no flags**, and what is left of it is added again. -/
theorem rtlpDeleteFromMergedRange_flags (left : List Range) :
    FlagsExact (rtlpDeleteFromMergedRange left) := by
  have step : ∀ (ranges : List Range) (keepList : List Entry), FlagsExact keepList →
      FlagsExact (ranges.foldl (fun keepList current => (rtlpAddRange keepList current 1).2)
        keepList) := by
    intro ranges
    induction ranges with
    | nil => exact fun keepList exact => exact
    | cons r rest ih => exact fun keepList exact => ih _ (addRangeLoop_flags rfl rfl exact)
  exact step left [] fun e mem => absurd mem not_mem_nil

theorem FlagsExact.cons (own : Flagged e.leaves e.ranges) (exact : FlagsExact entries) :
    FlagsExact (e :: entries) :=
  forall_mem_cons.mpr ⟨own, exact⟩

theorem dissolve_flags (exact : FlagsExact entries) (left : List Range) :
    FlagsExact (rtlpDeleteFromMergedRange left ++ entries) :=
  forall_mem_append.mpr ⟨rtlpDeleteFromMergedRange_flags left, exact⟩

theorem Deletes.flagsExact {p : Range → Bool} {entries' : List Entry}
    (deletes : Deletes p entries entries') (exact : FlagsExact entries) : FlagsExact entries' := by
  induction deletes with
  | plain => exact (forall_mem_cons.mp exact).2
  | dissolved rest found => exact dissolve_flags (forall_mem_cons.mp exact).2 _
  | behind current _ ih =>
    obtain ⟨own, others⟩ := forall_mem_cons.mp exact
    exact .cons own (ih others)

theorem ownersScan_flags (owner : Nat) (exact : FlagsExact entries) :
    FlagsExact (ownersScan owner entries).1 := by
  induction entries with
  | nil => exact exact
  | cons current rest ih =>
    obtain ⟨own, others⟩ := forall_mem_cons.mp exact
    cases current with
    | allocated =>
      unfold ownersScan
      split
      · exact ih others
      · exact .cons own (ih others)
    | merged =>
      unfold ownersScan
      split
      · next left _ => exact dissolve_flags others left
      · exact .cons own (ih others)

theorem ownersLoop_flags (owner : Nat) (list : RangeList) (exact : FlagsExact list.entries) :
    FlagsExact (ownersLoop owner list).entries := by
  induction list using ownersLoop.induct owner with
  | case1 list scan list' again ih =>
    rw [ownersLoop, if_pos again]
    exact ih (ownersScan_flags owner exact)
  | case2 list scan done =>
    rw [ownersLoop, if_neg done]
    exact ownersScan_flags owner exact

end Add

/-! ## Runs -/

/-- An addition has `RTL_RANGE_LIST_ADD_IF_CONFLICT`. -/
def Call.AllowsConflicts : Call → Prop
  | addRange _ _ _ flags _ _ => addIfConflict flags
  | _ => True

variable {list : RangeList}

theorem exec_flags {call : Call} (allow : call.AllowsConflicts) (exact : FlagsExact list.entries) :
    FlagsExact (call.exec list).2.entries := by
  cases call with
  | addRange start stop attributes flags userData owner =>
    show FlagsExact (rtlAddRange list start stop attributes flags userData owner).2.entries
    unfold rtlAddRange
    split
    · exact exact
    · dsimp only
      split <;> exact addRangeLoop_flags allow rfl exact
  | deleteRange start stop owner =>
    show FlagsExact (rtlDeleteRange list start stop owner).2.entries
    unfold rtlDeleteRange
    split
    · next found => exact (deleteLoop_deletes found).flagsExact exact
    · exact exact
  | deleteOwnersRanges owner => exact ownersLoop_flags owner list exact

variable {calls : List Call}

theorem run_flags (allow : ∀ call ∈ calls, call.AllowsConflicts) (exact : FlagsExact list.entries) :
    FlagsExact (runCalls list calls).entries := by
  induction calls generalizing list with
  | nil => exact exact
  | cons call calls ih =>
    obtain ⟨first, others⟩ := forall_mem_cons.mp allow
    exact ih others (exec_flags first exact)

theorem safeRun_of_allowsConflicts (allow : ∀ call ∈ calls, call.AllowsConflicts) :
    SafeRun list calls := by
  induction calls generalizing list with
  | nil => exact trivial
  | cons call calls ih =>
    obtain ⟨first, others⟩ := forall_mem_cons.mp allow
    refine ⟨?_, ih others⟩
    cases call with
    | addRange => exact fun _ => .inl first
    | deleteRange | deleteOwnersRanges => exact trivial

/-- Ranges of different entries do not clash, so the flags of the list are complete. -/
theorem complete_rangesOf (ok : ListOk entries) (exact : FlagsExact entries) :
    (rangesOf entries).Pairwise Marked := by
  unfold rangesOf
  rw [pairwise_flatMap]
  refine ⟨fun e mem => (exact e mem).complete, ?_⟩
  refine ok.ordered.imp_of_mem fun mem mem' order r found t found' clash => ?_
  exact absurd clash ((ok.each _ mem).not_clash (ok.each _ mem') order (mem_map_of_mem found)
    (mem_map_of_mem found'))

/-- **The conflict flags are exact.**  After any run of additions that allow conflicts
and of deletions, a range of the list carries `RTL_RANGE_CONFLICT` just when another
range of the list intersects it and not both are shared. -/
theorem conflictFlag_iff (calls : List Call) (allow : ∀ call ∈ calls, call.AllowsConflicts)
    (before after : List Range) (r : Range)
    (split : rangesOf (runCalls rtlInitializeRangeList calls).entries = before ++ r :: after) :
    r.conflict ↔ ∃ m ∈ before ++ after,
      RangeIntersect m.start m.stop r.start r.stop ∧ ¬(m.shared ∧ r.shared) := by
  have ok := (run_sound sound_initialize (safeRun_of_allowsConflicts allow)).1.ok
  have exact : FlagsExact (runCalls rtlInitializeRangeList calls).entries :=
    run_flags allow fun e mem => absurd mem not_mem_nil
  have complete := complete_rangesOf ok exact
  have justified := justified_rangesOf exact (split ▸ mem_append_right _ mem_cons_self)
  rw [split, perm_middle.pairwise_iff Marked.symm, pairwise_cons] at complete
  constructor
  · intro set
    obtain ⟨m, mem, clash⟩ := justified set
    rw [leavesOf, split] at mem
    have others := (perm_middle.map Range.toLeaf).erase r.toLeaf |>.mem_iff.mp mem
    rw [map_cons, erase_cons_head] at others
    obtain ⟨t, found, rfl⟩ := mem_map.mp others
    exact ⟨t, found, clash⟩
  · rintro ⟨m, mem, clash⟩
    exact (complete.1 m mem (.symm clash)).1

/-- A range that is not shared clashes with one of two shared ranges and is deleted. -/
def sharedCalls : List Call :=
  [.addRange 5 15 0 3 0 1, .addRange 12 20 0 3 0 2, .addRange 0 10 0 1 0 3, .deleteRange 0 10 3]

theorem conflictFlag_iff_sharedCalls : (∀ call ∈ sharedCalls, call.AllowsConflicts) ∧
      rangesOf (runCalls rtlInitializeRangeList sharedCalls).entries =
        [] ++ ⟨⟨5, 15, 0, true, 0, 1⟩, false⟩ :: [⟨⟨12, 20, 0, true, 0, 2⟩, false⟩] ∧
      (false ↔ ∃ m ∈ [] ++ [Range.mk ⟨12, 20, 0, true, 0, 2⟩ false],
        RangeIntersect m.start m.stop 5 15 ∧ ¬(m.shared ∧ true)) := by
  have allow : ∀ call ∈ sharedCalls, call.AllowsConflicts := by
    intro call mem
    simp only [sharedCalls, mem_cons, not_mem_nil, or_false] at mem
    rcases mem with rfl | rfl | rfl | rfl <;> trivial
  exact ⟨allow, rfl, conflictFlag_iff sharedCalls allow [] _ ⟨⟨5, 15, 0, true, 0, 1⟩, false⟩ rfl⟩

end Ntoskrnl.Rtl.Ranges
