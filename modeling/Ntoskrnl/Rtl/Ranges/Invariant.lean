/-
# Ntoskrnl.Rtl.Ranges.Invariant -- well-formed range lists

`Collected` is what a header says about its members while ranges are moved into it:
they are sorted by start, the header's limits are their hull and it is shared only
if they all are.  An addition keeps it, and fails only when conflicts are not allowed
and a member clashes with the new range; so members that are moved from one header to
another all arrive when no two of them clash, or when conflicts are allowed.

`ListOk` is the representation invariant: the entries are disjoint and in order, and
a merged entry has at least two members, collects them and is linked by them.  It is
kept by every addition that loses no range, and an addition loses no range unless it
absorbs a merged entry whose members clash while conflicts are not allowed.
-/
import Mathlib.Data.List.TakeWhile
import Ntoskrnl.Lib.Interval
import Ntoskrnl.Rtl.Ranges.Model

namespace Ntoskrnl.Rtl.Ranges

open Base Lib.Interval List

set_option autoImplicit false

/-! ## Clashing ranges -/

/-- The two ranges intersect and are not both shared. -/
def Leaf.Clash (l m : Leaf) : Prop :=
  RangeIntersect l.start l.stop m.start m.stop ∧ ¬ (l.shared ∧ m.shared)

variable {entry : Range}

theorem conflicts_iff {current : Range} :
    conflicts current entry ↔ current.toLeaf.Clash entry.toLeaf := by
  simp only [conflicts, Bool.and_eq_true, decide_eq_true_eq, Bool.not_eq_true',
    Bool.and_eq_false_iff, Leaf.Clash, and_congr_right_iff]
  intro _
  cases entry.shared <;> cases current.shared <;> decide

theorem Leaf.Clash.symm {l m : Leaf} (clash : l.Clash m) : m.Clash l := by
  refine ⟨?_, fun both => clash.2 both.symm⟩
  have := clash.1
  unfold RangeIntersect RangeDisjoint at this ⊢
  omega

/-- The range can be added to the present ones. -/
def Admits (flags : Nat) (present : List Leaf) (l : Leaf) : Prop :=
  addIfConflict flags ∨ ∀ m ∈ present, ¬ m.Clash l

/-! ## One addition -/

def Merged.leaves (merged : Merged) : List Leaf :=
  merged.members.map Range.toLeaf

variable {flags : Nat}

section Add

variable {merged : Merged}

variable {members : List Range}

theorem any_conflicts_iff : members.any (conflicts · entry) ↔
      ∃ l ∈ members.map Range.toLeaf, l.Clash entry.toLeaf := by
  rw [any_eq_true]
  constructor
  · rintro ⟨current, mem, conflict⟩
    exact ⟨current.toLeaf, mem_map_of_mem mem, conflicts_iff.mp conflict⟩
  · rintro ⟨l, mem, clash⟩
    obtain ⟨current, found, rfl⟩ := mem_map.mp mem
    exact ⟨current, found, conflicts_iff.mpr clash⟩

/-- **An addition succeeds exactly when the members admit the range**; otherwise the
header stays as it was. -/
theorem addToMerged_admits (admits : Admits flags merged.leaves entry.toLeaf) :
    (rtlpAddToMergedRange merged entry flags).1 = .success := by
  unfold rtlpAddToMergedRange
  rw [if_neg]
  rw [Bool.and_eq_true, any_conflicts_iff]
  rintro ⟨⟨l, mem, clash⟩, refused⟩
  rcases admits with allowed | none
  · rw [allowed] at refused
    exact nomatch refused
  · exact none l mem clash

/-- The header after an addition. -/
theorem addToMerged_eq (success : (rtlpAddToMergedRange merged entry flags).1 = .success) :
    ∃ added : Range, (rtlpAddToMergedRange merged entry flags).2 =
      { start := min entry.start merged.start
        stop := max entry.stop merged.stop
        shared := merged.shared && entry.shared
        members := insertByStart added (merged.members.map (markConflict added)) } := by
  unfold rtlpAddToMergedRange at success ⊢
  dsimp only at success ⊢
  split at success
  · exact nomatch success
  · next accepted =>
    rw [if_neg accepted]
    refine ⟨{ entry with conflict := entry.conflict || merged.members.any (conflicts · entry) }, ?_⟩
    simp only [Merged.mk.injEq, and_true]
    refine ⟨by split <;> omega, by split <;> omega, ?_⟩
    cases merged.shared <;> cases entry.shared <;> rfl

theorem insertByStart_sorted (sorted : members.Pairwise fun a b => a.start ≤ b.start) :
    (insertByStart entry members).Pairwise fun a b => a.start ≤ b.start := by
  induction members with
  | nil => exact pairwise_singleton _ _
  | cons current rest ih =>
    obtain ⟨first, others⟩ := pairwise_cons.mp sorted
    unfold insertByStart
    split
    · next before =>
      refine pairwise_cons.mpr ⟨fun b mem => ?_, sorted⟩
      rcases mem_cons.mp mem with rfl | mem
      · exact Nat.le_of_lt before
      · exact Nat.le_trans (Nat.le_of_lt before) (first b mem)
    · next behind =>
      refine pairwise_cons.mpr ⟨fun b mem => ?_, ih others⟩
      rcases mem_cons.mp ((insertByStart_perm entry rest).mem_iff.mp mem) with rfl | mem
      · exact Nat.le_of_not_lt behind
      · exact first b mem

/-- The header says what its members are. -/
structure Collected (merged : Merged) : Prop where
  sorted : merged.members.Pairwise fun a b => a.start ≤ b.start
  valid : ∀ l ∈ merged.leaves, l.start ≤ l.stop
  hull : Hull Leaf.start Leaf.stop merged.leaves merged.start merged.stop
  shared : merged.shared → ∀ l ∈ merged.leaves, l.shared

/-- A header with the one range it is made from. -/
theorem collected_convert {range : Range} (valid : range.start ≤ range.stop) :
    Collected (rtlpConvertToMergedRange range) where
  sorted := pairwise_singleton _ _
  valid l mem := by
    rw [mem_singleton.mp mem]
    exact valid
  hull := .singleton range.toLeaf
  shared is l mem := by
    rw [mem_singleton.mp mem]
    exact is

/-- **Every addition that succeeds keeps what the header says.** -/
theorem Collected.add (collected : Collected merged) (valid : entry.start ≤ entry.stop)
    (admits : Admits flags merged.leaves entry.toLeaf) :
    Collected (rtlpAddToMergedRange merged entry flags).2 ∧
      (rtlpAddToMergedRange merged entry flags).2.leaves.Perm (entry.toLeaf :: merged.leaves) := by
  have success := addToMerged_admits admits
  have perm : (rtlpAddToMergedRange merged entry flags).2.leaves.Perm
      (entry.toLeaf :: merged.leaves) := addToMerged_leaves success
  have members : ∀ l ∈ (rtlpAddToMergedRange merged entry flags).2.leaves,
      l = entry.toLeaf ∨ l ∈ merged.leaves := fun l mem =>
    mem_cons.mp (perm.mem_iff.mp mem)
  have hull := (collected.hull.cons entry.toLeaf).perm perm.symm
  obtain ⟨added, shape⟩ := addToMerged_eq success
  refine ⟨?_, perm⟩
  exact
    { sorted := by
        rw [shape]
        apply insertByStart_sorted
        rw [pairwise_map]
        refine collected.sorted.imp fun {a b} le => ?_
        rw [markConflict_toLeaf, markConflict_toLeaf]
        exact le
      valid := fun l mem => by
        rcases members l mem with rfl | old
        · exact valid
        · exact collected.valid l old
      hull := by
        rw [shape] at hull ⊢
        exact hull
      shared := fun is l mem => by
        rw [shape, Bool.and_eq_true] at is
        rcases members l mem with rfl | old
        · exact is.2
        · exact collected.shared is.1 l old }

/-! ## Moving ranges to another header -/

/-- **Ranges that do not clash with the members or with each other all arrive**, and
so do all ranges when conflicts are allowed. -/
theorem Collected.addAll (ranges : List Range) (collected : Collected merged)
    (valid : ∀ r ∈ ranges, r.start ≤ r.stop)
    (admits : ∀ r ∈ ranges, Admits flags merged.leaves r.toLeaf)
    (apart : ranges.Pairwise fun r t => Admits flags [r.toLeaf] t.toLeaf) :
    Collected (ranges.foldl (addIgnoringStatus flags) merged) ∧
      (ranges.foldl (addIgnoringStatus flags) merged).leaves.Perm
        (ranges.map Range.toLeaf ++ merged.leaves) := by
  induction ranges generalizing merged with
  | nil => exact ⟨collected, .refl _⟩
  | cons r rest ih =>
    obtain ⟨first, others⟩ := pairwise_cons.mp apart
    obtain ⟨added, perm⟩ := collected.add (valid r mem_cons_self) (admits r mem_cons_self)
    obtain ⟨all, perm'⟩ := ih added (fun t mem => valid t (mem_cons_of_mem r mem)) (fun t mem => by
        rcases first t mem with allowed | clear
        · exact .inl allowed
        rcases admits t (mem_cons_of_mem r mem) with allowed | none
        · exact .inl allowed
        refine .inr fun m found => ?_
        rcases mem_cons.mp (perm.mem_iff.mp found) with rfl | old
        · exact clear r.toLeaf (mem_singleton.mpr rfl)
        · exact none m old) others
    refine ⟨all, perm'.trans ?_⟩
    exact (perm.append_left _).trans perm_middle

end Add

/-! ## Well-formed entries -/

/-- A merged range with members that overlap in a chain. -/
structure MergedOk (merged : Merged) : Prop extends Collected merged where
  two : 2 ≤ merged.members.length
  linked : Linked Leaf.start Leaf.stop merged.leaves merged.start merged.stop

def EntryOk : Entry → Prop
  | .allocated range => range.start ≤ range.stop
  | .merged header => MergedOk header

structure ListOk (entries : List Entry) : Prop where
  each : ∀ entry ∈ entries, EntryOk entry
  ordered : entries.Pairwise fun a b => a.stop < b.start

def Entry.leaves (entry : Entry) : List Leaf :=
  entry.ranges.map Range.toLeaf

theorem toMerged_leaves (entry : Entry) : entry.toMerged.leaves = entry.leaves := by
  cases entry <;> rfl

variable {l : Leaf} {e : Entry} {entries : List Entry}

theorem mem_leavesOf : l ∈ leavesOf entries ↔ ∃ entry ∈ entries, l ∈ entry.leaves := by
  simp only [leavesOf, rangesOf, Entry.leaves, mem_map, mem_flatMap]
  constructor
  · rintro ⟨range, ⟨entry, mem, found⟩, rfl⟩
    exact ⟨entry, mem, range, found, rfl⟩
  · rintro ⟨entry, mem, range, found, rfl⟩
    exact ⟨range, ⟨entry, mem, found⟩, rfl⟩

namespace EntryOk

variable {entry : Entry}

variable (ok : EntryOk entry)

include ok

theorem collected : Collected entry.toMerged := by
  cases entry with
  | allocated => exact collected_convert ok
  | merged => exact ok.toCollected

theorem hull : Hull Leaf.start Leaf.stop entry.leaves entry.start entry.stop := by
  cases entry with
  | allocated range => exact .singleton range.toLeaf
  | merged => exact ok.toCollected.hull

theorem linked : Linked Leaf.start Leaf.stop entry.leaves entry.start entry.stop := by
  cases entry with
  | allocated range => exact .singleton range.toLeaf
  | merged => exact ok.linked

theorem valid (mem : l ∈ entry.leaves) : l.start ≤ l.stop :=
  ok.collected.valid l (toMerged_leaves entry ▸ mem)

theorem start_le_stop : entry.start ≤ entry.stop := by
  obtain ⟨l, mem, same⟩ := ok.hull.left
  have below := ok.hull.below l mem
  have valid := ok.valid mem
  omega

theorem leaves_ne_nil : entry.leaves ≠ [] := by
  obtain ⟨l, mem, -⟩ := ok.hull.left
  exact ne_nil_of_mem mem

/-- The ranges of an entry do not clash with those of an entry behind it. -/
theorem not_clash {other : Entry} {m : Leaf} (ok' : EntryOk other)
    (order : entry.stop < other.start) (mem : l ∈ entry.leaves) (mem' : m ∈ other.leaves) :
    ¬ l.Clash m := by
  have := ok.hull.below l mem
  have := ok'.hull.above m mem'
  have := ok.valid mem
  exact fun clash => clash.1 (.inl ⟨by omega, by omega⟩)

end EntryOk

variable {rest : List Entry}

namespace ListOk

variable {entry : Entry}

theorem nil : ListOk [] :=
  ⟨fun _ mem => (nomatch mem), .nil⟩

theorem cons_iff : ListOk (entry :: rest) ↔
    EntryOk entry ∧ ListOk rest ∧ ∀ e ∈ rest, entry.stop < e.start := by
  constructor
  · intro ok
    obtain ⟨first, others⟩ := pairwise_cons.mp ok.ordered
    exact ⟨ok.each entry mem_cons_self,
      ⟨fun e mem => ok.each e (mem_cons_of_mem entry mem), others⟩, first⟩
  · rintro ⟨ok, others, first⟩
    refine ⟨fun e mem => ?_, pairwise_cons.mpr ⟨first, others.ordered⟩⟩
    rcases mem_cons.mp mem with rfl | mem
    · exact ok
    · exact others.each e mem

/-- An entry starts where one of the leaves does, so a bound on the leaves bounds the
entries. -/
theorem le_start (ok : ListOk entries) {low : Nat} (bound : ∀ l ∈ leavesOf entries, low ≤ l.start)
    (mem : e ∈ entries) : low ≤ e.start := by
  obtain ⟨l, found, same⟩ := (ok.each e mem).hull.left
  exact same ▸ bound l (mem_leavesOf.mpr ⟨e, mem, found⟩)

theorem stop_le (ok : ListOk entries) {high : Nat} (bound : ∀ l ∈ leavesOf entries, l.stop ≤ high)
    (mem : e ∈ entries) :
    e.stop ≤ high := by
  obtain ⟨l, found, same⟩ := (ok.each e mem).hull.right
  exact same ▸ bound l (mem_leavesOf.mpr ⟨e, mem, found⟩)

end ListOk

/-! ## The entries a new range reaches -/

/-- The entries up to the first one behind the new range. -/
def reached (entry : Range) (entries : List Entry) : List Entry :=
  entries.takeWhile fun current => !decide (entry.stop < current.start)

/-- The entries from the first one behind the new range on. -/
def beyond (entry : Range) (entries : List Entry) : List Entry :=
  entries.dropWhile fun current => !decide (entry.stop < current.start)

theorem reached_append_beyond (entry : Range) (entries : List Entry) :
    reached entry entries ++ beyond entry entries = entries :=
  takeWhile_append_dropWhile

theorem le_of_mem_reached (mem : e ∈ reached entry entries) : e.start ≤ entry.stop := by
  have := mem_takeWhile_imp mem
  simpa using this

theorem lt_of_mem_beyond (ok : ListOk entries) (mem : e ∈ beyond entry entries) :
    entry.stop < e.start := by
  induction entries with
  | nil => exact nomatch mem
  | cons current rest ih =>
    obtain ⟨first, others, order⟩ := ListOk.cons_iff.mp ok
    unfold beyond at mem
    rw [dropWhile_cons] at mem
    split at mem
    · exact ih others mem
    · next behind =>
      have behind : entry.stop < current.start := by simpa using behind
      rcases mem_cons.mp mem with rfl | mem
      · exact behind
      · have := order e mem
        have := first.start_le_stop
        omega

theorem absorb_eq (entry : Range) (flags : Nat) (entries : List Entry) (merged : Merged) :
    absorb entry flags merged entries =
      ((rangesOf (reached entry entries)).foldl (addIgnoringStatus flags) merged,
        beyond entry entries) := by
  induction entries generalizing merged with
  | nil => rfl
  | cons current rest ih =>
    unfold absorb
    by_cases behind : entry.stop < current.start
    · simp [reached, beyond, rangesOf, behind]
    · rw [if_neg behind, ih]
      simp [reached, beyond, rangesOf, behind]

/-- The check for conflicts has passed for every range the new one reaches. -/
theorem conflictsWithRest_reached (none : conflictsWithRest entry entries = false)
    (mem : e ∈ reached entry entries) (found : l ∈ e.leaves) : ¬ l.Clash entry.toLeaf := by
  induction entries with
  | nil => exact nomatch mem
  | cons current rest ih =>
    unfold conflictsWithRest at none
    unfold reached at mem
    rw [takeWhile_cons] at mem
    split at none
    · next behind => simp [behind] at mem
    · next near =>
      rw [if_pos (by simpa using near)] at mem
      cases current with
      | merged header =>
        obtain ⟨here, later⟩ := Bool.or_eq_false_iff.mp none
        rcases mem_cons.mp mem with rfl | mem
        · intro clash
          have conflict : header.members.any (conflicts · entry) :=
            any_conflicts_iff.mpr ⟨l, found, clash⟩
          rw [here] at conflict
          exact nomatch conflict
        · exact ih later mem
      | allocated =>
        obtain ⟨here, later⟩ := Bool.or_eq_false_iff.mp none
        rcases mem_cons.mp mem with rfl | mem
        · obtain rfl := mem_singleton.mp found
          rw [Bool.not_eq_false', Bool.and_eq_true] at here
          exact fun clash => clash.2 here.symm
        · exact ih later mem

/-! ## Adding a range -/

/-- No two members of the merged range clash. -/
def Compatible (header : Merged) : Prop :=
  header.leaves.Pairwise fun l m => ¬ l.Clash m

/-- Every merged range among the entries may be moved to another header. -/
def Movable (flags : Nat) (entries : List Entry) : Prop :=
  addIfConflict flags ∨ ∀ header, Entry.merged header ∈ entries → Compatible header

section Intersecting

variable {first : Entry}

/-- The ranges of the entries that are reached can be moved one after the other. -/
theorem pairwise_admits (ok : ListOk entries) (movable : Movable flags entries) :
    (rangesOf entries).Pairwise fun r t => Admits flags [r.toLeaf] t.toLeaf := by
  unfold rangesOf
  rw [pairwise_flatMap]
  constructor
  · intro e mem
    cases e with
    | allocated => exact pairwise_singleton _ _
    | merged header =>
      rcases movable with allowed | compatible
      · exact pairwise_of_forall fun _ _ => .inl allowed
      · refine (pairwise_map.mp (compatible header mem)).imp fun clear => .inr ?_
        intro m found
        rw [mem_singleton.mp found]
        exact clear
  · refine ok.ordered.imp_of_mem fun {a b} mem_a mem_b order => ?_
    intro r found_r t found_t
    refine .inr fun m found => ?_
    rw [mem_singleton.mp found]
    exact (ok.each a mem_a).not_clash (ok.each b mem_b) order (mem_map_of_mem found_r)
      (mem_map_of_mem found_t)

/-- What the first intersecting entry has collected before the new range is added. -/
theorem absorb_collected (ok : ListOk (first :: rest)) (movable : Movable flags (reached entry rest)) :
    Collected (absorb entry flags first.toMerged rest).1 ∧
      (absorb entry flags first.toMerged rest).1.leaves.Perm
        (leavesOf (reached entry rest) ++ first.leaves) := by
  obtain ⟨first_ok, rest_ok, order⟩ := ListOk.cons_iff.mp ok
  have subset : (reached entry rest).Sublist rest := takeWhile_sublist _
  have reached_ok : ListOk (reached entry rest) :=
    ⟨fun e mem => rest_ok.each e (subset.mem mem), rest_ok.ordered.sublist subset⟩
  have inside : ∀ r ∈ rangesOf (reached entry rest), ∃ e ∈ reached entry rest,
      r.toLeaf ∈ e.leaves := by
    intro r mem
    obtain ⟨e, mem_e, found⟩ := mem_flatMap.mp mem
    exact ⟨e, mem_e, mem_map_of_mem found⟩
  rw [absorb_eq, ← toMerged_leaves first]
  refine first_ok.collected.addAll _ (fun r mem => ?_) (fun r mem => ?_)
    (pairwise_admits reached_ok movable)
  · obtain ⟨e, mem_e, found⟩ := inside r mem
    exact (reached_ok.each e mem_e).valid found
  · obtain ⟨e, mem_e, found⟩ := inside r mem
    refine .inr fun m found_m => ?_
    rw [toMerged_leaves] at found_m
    exact first_ok.not_clash (reached_ok.each e mem_e) (order e (subset.mem mem_e)) found_m found

section Meeting

variable (ok : ListOk (first :: rest))
  (meets : RangeIntersect entry.start entry.stop first.start first.stop)
  (valid : entry.start ≤ entry.stop)

include ok meets valid

/-- **The new range links what it reaches.** -/
theorem mergedOk_of_collected {merged : Merged} (collected : Collected merged)
    (perm : merged.leaves.Perm (entry.toLeaf :: (leavesOf (reached entry rest) ++ first.leaves))) :
    MergedOk merged := by
  obtain ⟨first_ok, rest_ok, order⟩ := ListOk.cons_iff.mp ok
  have first_valid := first_ok.start_le_stop
  have meets' : first.start ≤ entry.stop ∧ entry.start ≤ first.stop := by
    unfold RangeIntersect RangeDisjoint at meets
    omega
  have added : entry.toLeaf ∈ merged.leaves := perm.mem_iff.mpr mem_cons_self
  have members : ∀ l ∈ merged.leaves, l = entry.toLeaf ∨ l ∈ first.leaves ∨
      ∃ e ∈ reached entry rest, l ∈ e.leaves := by
    intro l mem
    rcases mem_cons.mp (perm.mem_iff.mp mem) with same | mem
    · exact .inl same
    · rcases mem_append.mp mem with mem | mem
      · exact .inr (.inr (mem_leavesOf.mp mem))
      · exact .inr (.inl mem)
  have first_mem : ∀ l ∈ first.leaves, l ∈ merged.leaves := fun l mem =>
    perm.mem_iff.mpr (mem_cons_of_mem _ (mem_append_right _ mem))
  have first_linked := first_ok.linked.mono first_mem
  have in_rest : ∀ e ∈ reached entry rest, e ∈ rest := fun e mem =>
    (takeWhile_sublist _).mem mem
  refine { toCollected := collected, two := ?_, linked := ?_ }
  · have some := length_pos_iff.mpr first_ok.leaves_ne_nil
    have count := perm.length_eq
    rw [length_cons, length_append] at count
    have same : merged.leaves.length = merged.members.length := length_map _
    omega
  · refine .bridge added ?_ ?_
    · -- The leftmost member is the new range or belongs to the first entry.
      obtain ⟨l, mem, same⟩ := collected.hull.left
      rcases members l mem with rfl | found | ⟨e, mem_e, found⟩
      · exact .inl (Nat.le_of_eq same)
      · exact .inr ⟨_, _, first_linked, same ▸ first_ok.hull.above l found, meets'.2⟩
      · have := (rest_ok.each e (in_rest e mem_e)).hull.above l found
        have := order e (in_rest e mem_e)
        omega
    · obtain ⟨l, mem, same⟩ := collected.hull.right
      rcases members l mem with rfl | found | ⟨e, mem_e, found⟩
      · exact .inl (Nat.le_of_eq same.symm)
      · exact .inr ⟨_, _, first_linked, meets'.1, same ▸ first_ok.hull.below l found⟩
      · have e_ok := rest_ok.each e (in_rest e mem_e)
        refine .inr ⟨_, _, e_ok.linked.mono fun m found_m => perm.mem_iff.mpr ?_,
          le_of_mem_reached mem_e, same ▸ e_ok.hull.below l found⟩
        exact mem_cons_of_mem _ (mem_append_left _ (mem_leavesOf.mpr ⟨e, mem_e, found_m⟩))

/-- What an addition to a list leaves: nothing is changed, or the list is well formed
and has one leaf more. -/
inductive Added (entries : List Entry) (l : Leaf) : NtStatus × List Entry → Prop where
  | refused : Added entries l (.rangeListConflict, entries)
  | success {entries' : List Entry} (ok : ListOk entries')
      (leaves : (leavesOf entries').Perm (l :: leavesOf entries)) :
      Added entries l (.success, entries')

theorem rtlpAddIntersectingRanges_added (movable : conflictsWithRest entry (first :: rest) = false →
      Movable flags (reached entry rest)) :
    Added (first :: rest) entry.toLeaf (rtlpAddIntersectingRanges first rest entry flags) := by
  obtain ⟨first_ok, rest_ok, order⟩ := ListOk.cons_iff.mp ok
  unfold rtlpAddIntersectingRanges
  split
  · exact .refused
  · next accepted =>
    have movable : Movable flags (reached entry rest) := by
      by_cases allowed : addIfConflict flags
      · exact Or.inl allowed
      · exact movable (by simpa [allowed] using accepted)
    obtain ⟨collected, perm⟩ := absorb_collected ok movable
    have admits : Admits flags (absorb entry flags first.toMerged rest).1.leaves entry.toLeaf := by
      by_cases allowed : addIfConflict flags
      · exact Or.inl allowed
      · have none : conflictsWithRest entry (first :: rest) = false := by
          simpa [allowed] using accepted
        have near : ¬ entry.stop < first.start := by
          unfold RangeIntersect RangeDisjoint at meets
          omega
        have all : reached entry (first :: rest) = first :: reached entry rest := by
          simp [reached, near]
        refine Or.inr fun m mem => ?_
        rcases mem_append.mp (perm.mem_iff.mp mem) with mem | mem
        · obtain ⟨e, mem_e, found⟩ := mem_leavesOf.mp mem
          exact conflictsWithRest_reached none (all ▸ mem_cons_of_mem first mem_e) found
        · exact conflictsWithRest_reached none (all ▸ mem_cons_self) mem
    obtain ⟨collected', perm'⟩ := collected.add valid admits
    have leaves := perm'.trans (perm.cons entry.toLeaf)
    have merged_ok := mergedOk_of_collected ok meets valid collected' leaves
    rw [absorb_eq] at collected' perm' merged_ok leaves admits
    rw [absorb_eq]
    dsimp only at merged_ok leaves admits ⊢
    have success := addToMerged_admits admits
    rw [show rtlpAddToMergedRange _ _ _ = (_, _) from Prod.ext success rfl]
    -- the merged entry stands before all that lies beyond the new range
    refine .success (ListOk.cons_iff.mpr ⟨merged_ok, ?_, ?_⟩) ?_
    · have suffix : (beyond entry rest).Sublist rest := dropWhile_sublist _
      exact ⟨fun e mem => rest_ok.each e (suffix.mem mem), rest_ok.ordered.sublist suffix⟩
    · intro e mem
      have split := rest_ok.ordered
      rw [← reached_append_beyond entry rest, pairwise_append] at split
      obtain ⟨l, found, same⟩ := merged_ok.toCollected.hull.right
      show Merged.stop _ < _
      rw [← same]
      rcases mem_cons.mp (leaves.mem_iff.mp found) with rfl | found
      · exact lt_of_mem_beyond rest_ok mem
      · rcases mem_append.mp found with found | found
        · obtain ⟨e', mem_e', found⟩ := mem_leavesOf.mp found
          have := split.2.2 e' mem_e' e mem
          have := (rest_ok.each e' ((takeWhile_sublist _).mem mem_e')).hull.below l found
          omega
        · have := first_ok.hull.below l found
          have := order e ((dropWhile_sublist _).mem mem)
          omega
    · rw [leavesOf_cons, leavesOf_cons]
      refine (Perm.append_right _ leaves).trans ?_
      refine Perm.cons _ ?_
      rw [← reached_append_beyond entry rest, leavesOf_append, reached_append_beyond]
      refine (Perm.append_right _ perm_append_comm).trans ?_
      rw [append_assoc]
      exact .refl _

end Meeting

end Intersecting

/-- The entries `RtlpAddRange` would move: none if the range conflicts, and otherwise those it
reaches behind the first one it intersects. -/
def absorbed (entry : Range) : List Entry → List Entry
  | [] => []
  | current :: rest =>
    if RangeIntersect entry.start entry.stop current.start current.stop then
      if conflictsWithRest entry (current :: rest) then [] else reached entry rest
    else absorbed entry rest

/-- **Adding a range keeps the list well formed and loses nothing**, if every merged
range it absorbs may be moved. -/
theorem addRangeLoop_added (valid : entry.start ≤ entry.stop) (ok : ListOk entries)
    (movable : Movable flags (absorbed entry entries)) :
    Added entries entry.toLeaf (addRangeLoop entry flags entries) := by
  induction entries with
  | nil =>
    refine .success (ListOk.cons_iff.mpr ⟨valid, ListOk.nil, nofun⟩) ?_
    exact .refl _
  | cons current rest ih =>
    obtain ⟨first, others, order⟩ := ListOk.cons_iff.mp ok
    unfold addRangeLoop
    unfold absorbed at movable
    split
    · next behind =>
      refine .success (ListOk.cons_iff.mpr ⟨valid, ok, fun e mem => ?_⟩) (.refl _)
      show entry.stop < e.start
      rcases mem_cons.mp mem with rfl | mem
      · exact behind
      · have := order e mem
        have := first.start_le_stop
        omega
    · next near =>
      split
      · next meets =>
        rw [if_pos meets] at movable
        refine rtlpAddIntersectingRanges_added ok meets valid fun none => ?_
        rwa [if_neg (by simp [none])] at movable
      · next apart =>
        rw [if_neg apart] at movable
        have past : current.stop < entry.start := by
          unfold RangeIntersect RangeDisjoint at apart
          omega
        have result := ih others movable
        generalize addRangeLoop entry flags rest = added at result
        cases result with
        | refused => exact .refused
        | @success entries' ok' leaves =>
          refine .success (ListOk.cons_iff.mpr ⟨first, ok', fun e mem => ?_⟩) ?_
          · refine ok'.le_start (fun l found => ?_) mem
            rcases mem_cons.mp (leaves.mem_iff.mp found) with rfl | found
            · exact past
            · obtain ⟨e', mem', found⟩ := mem_leavesOf.mp found
              have := order e' mem'
              have := (others.each e' mem').hull.above l found
              omega
          · rw [leavesOf_cons, leavesOf_cons]
            exact (leaves.append_left _).trans perm_middle

end Ntoskrnl.Rtl.Ranges
