/-
# Ntoskrnl.FsRtl.Oplock.Consistency -- the fields of the structure agree

File object, exclusive Irp, level II list, waiting list, state bits and references
say the same thing after every call, as long as no exclusive request finds more
than one level II Irp. Such a request breaks only the first of them and leaves the
others on a list that the new state does not know about; a file object that has
asked for level II twice is enough.
-/
import Ntoskrnl.FsRtl.Oplock.Runs

namespace Ntoskrnl.FsRtl.Oplock

open List

open Rtl.Security (flagOn)

set_option autoImplicit false

/-! ## What consistency says -/

/-- References taken on a file object and not given back. -/
def heldReferences (trace : List Event) (fileObject : FileObject) : Int :=
  ((trace.filterMap Event.referenced?).count fileObject : Int) -
    (trace.filterMap Event.dereferenced?).count fileObject

/-- What the fields of the structure and the references say about each other. -/
structure ConsistentOplock (o : NonopaqueOplock) (trace : List Event) : Prop where
  owner : o.fileObject ≠ none ↔ flagOn o.oplockState exclusiveFlag
  exclusiveIrp : o.irpExclusiveOplock ≠ none ↔ flagOn o.oplockState exclusiveFlag ∧
    flagOn o.oplockState oplockBreakMask = false ∧ flagOn o.oplockState pendingFlag = false
  levelII : o.irpOplocksII ≠ [] ↔ o.oplockState = oplockIIGranted
  waiting : o.waitingIrps ≠ [] → flagOn o.oplockState oplockBreakMask
  referenced : ∀ fileObject, heldReferences trace fileObject =
    (o.irpOplocksII.countP (fun irp => irp.fileObject = fileObject) : Int) +
      if flagOn o.oplockState exclusiveFlag ∧ flagOn o.oplockState pendingFlag = false ∧
        o.fileObject = some fileObject then 1 else 0

/-- The oplock of the file is consistent; without one, no reference is held. -/
def Consistent (s : System) : Prop :=
  match s.oplock with
  | some o => ConsistentOplock o s.trace
  | none => ∀ fileObject, heldReferences s.trace fileObject = 0

theorem idle_flags :
    flagOn noOplocksHeld exclusiveFlag = false ∧ flagOn noOplocksHeld oplockBreakMask = false ∧
      noOplocksHeld ≠ oplockIIGranted := by
  decide

theorem count_map_fileObject (irps : List Irp) (fileObject : FileObject) :
    (irps.map Irp.fileObject).count fileObject =
      irps.countP (fun irp => irp.fileObject = fileObject) := by
  rw [count, countP_map]
  exact countP_congr fun irp _ => by simp

theorem count_owner (owner fileObject : FileObject) :
    ([owner].count fileObject : Int) = if owner = fileObject then 1 else 0 := by
  by_cases same : owner = fileObject <;> simp [same]

/-- A laid-out state is consistent if its references are accounted for. -/
theorem Ownership.consistent (a : Ownership) {trace : List Event}
    (balanced : ∀ fileObject, heldReferences trace fileObject = a.referenced.count fileObject) :
    ConsistentOplock a.oplock trace := by
  cases a with
  | idle =>
    constructor <;> simp [oplock, idle_flags, balanced, Ownership.referenced, oplockIrps]
  | shared =>
    refine ⟨by simp +decide [oplock], by simp +decide [oplock], by simp [oplock],
      by simp [oplock], fun fileObject => ?_⟩
    rw [balanced, Ownership.referenced, oplockIrps, count_map_fileObject]
    · simp +decide [oplock]
    · rintro _ _ _ _ ⟨⟩
  | reserved =>
    constructor <;> simp +decide [oplock, balanced, Ownership.referenced, oplockIrps]
  | exclusive kind irp =>
    have flags := exclusive_flags kind
    refine ⟨by simp [oplock, flags], by simp [oplock, flags], by simp [oplock, flags],
      by simp [oplock], fun fileObject => ?_⟩
    rw [balanced]
    exact (count_owner irp.fileObject fileObject).trans (by simp [oplock, flags])
  | breaking kind stage owner =>
    have flags := breaking_flags kind stage
    refine ⟨by simp [oplock, flags], by simp [oplock, flags], by simp [oplock, flags],
      by simp [oplock, flags], fun fileObject => ?_⟩
    rw [balanced]
    exact (count_owner owner fileObject).trans (by simp [oplock, flags])

variable {s : System} {a : Ownership}

theorem Sound.consistent (sound : Sound s a) : Consistent s := by
  have balanced (fileObject : FileObject) :
      heldReferences s.trace fileObject = a.referenced.count fileObject := by
    rw [heldReferences, sound.references.count fileObject]
    omega
  unfold Consistent
  rcases sound.laid with laid | ⟨laid, rfl⟩
  · rw [laid]
    exact a.consistent balanced
  · rw [laid]
    exact balanced

/-- An exclusive request that finds several level II Irps leaves some of them on the
list, whether or not its Irp is cancelled. -/
theorem exclusiveRequest_leaves {cancelled : Irp → Bool} {pool : Bool} {first second : Irp}
    {others : List Irp} (kind : Kind) (irp : Irp) (cleanupComplete : Bool)
    (accepted : refusesRequest irp cleanupComplete = false) :
    ∃ o, (exclusiveRequest cancelled pool (some (Ownership.shared first (second :: others)).oplock) irp 1
        cleanupComplete kind.bits).oplock = some o ∧
      o.irpOplocksII ≠ [] ∧ o.oplockState ≠ oplockIIGranted := by
  have allowed : flagOn oplockIIGranted (levelIIOplock ||| noOplock ||| pendingFlag) := by decide
  simp only [exclusiveRequest, accepted, ne_eq, not_true_eq_false, Bool.false_eq_true, or_self, if_false,
    withOplock, Outcome.result, requestExclusiveOplock, exclusive_ne_pending kind, Ownership.oplock,
    allowed, if_true, yieldOplockII]
  refine ⟨_, rfl, ?_⟩
  by_cases given : cancelled irp
  · simp only [given, if_true, cancelExclusiveIrp, releaseOplock]
    exact ⟨cons_ne_nil _ _, by decide⟩
  · simp only [given, Bool.false_eq_true, if_false]
    exact ⟨cons_ne_nil _ _, (exclusive_flags kind).2.2.2.2.2.2.2.2.2.2.2⟩

/-- Otherwise the call itself makes the file inconsistent. -/
theorem Sound.call_inconsistent (sound : Sound s a) {c : Call} (several : ¬ FindsOneLevelII s c) :
    ¬ Consistent (s.call c) := by
  obtain ⟨requests, o, laid, long⟩ : RequestsExclusive s c ∧ ∃ o ∈ s.oplock, 1 < o.irpOplocksII.length := by
    simpa [FindsOneLevelII] using several
  have same : o = a.oplock := by
    rcases sound.laid with eq | ⟨eq, -⟩
    · rw [eq] at laid
      exact (Option.some.inj laid).symm
    · rw [eq] at laid
      exact nomatch laid
  subst same
  obtain ⟨first, second, others, rfl⟩ : ∃ first second others, a = .shared first (second :: others) := by
    cases a with
    | shared first others =>
      cases others with
      | nil => simp [Ownership.oplock] at long
      | cons second others => exact ⟨first, second, others, rfl⟩
    | idle | reserved | exclusive
    | breaking => simp [Ownership.oplock] at long
  cases c with
  | fsctrl irp locks pool =>
    obtain ⟨function, one, accepted⟩ := requests
    obtain ⟨o, eq, left, state⟩ : ∃ o, (s.fsctrlResult irp locks pool).oplock = some o ∧
        o.irpOplocksII ≠ [] ∧ o.oplockState ≠ oplockIIGranted := by
      unfold System.fsctrlResult
      rw [Option.mem_def.mp laid]
      rcases function with eq | eq | eq
      · simp only [oplockFsctrl, System.openCount, eq, one]
        exact exclusiveRequest_leaves .levelI irp _ accepted
      · simp only [oplockFsctrl, System.openCount, eq, one]
        exact exclusiveRequest_leaves .batch irp _ accepted
      · simp only [oplockFsctrl, System.openCount, eq, one]
        exact exclusiveRequest_leaves .filter irp _ accepted
    -- level II Irps are left in a state that is not level II
    intro consistent
    have consistent : ConsistentOplock o (s.call (.fsctrl irp locks pool)).trace := by
      simpa only [Consistent, System.call, System.absorb, System.result, eq] using consistent
    exact state (consistent.levelII.mp left)
  | openFile | check | cancel => exact requests.elim

/-! ## Every sequence of calls -/

/-- **The oplock stays consistent exactly as long as no exclusive request finds
several level II Irps.** In every legal sequence of calls, the file is consistent
after each of them if and only if each exclusive request that `FsRtlOplockFsctrl`
passes on finds at most one level II Irp. -/
theorem oplock_consistent_iff (calls : List Call) (legal : LegalRun calls) :
    (∀ before, before <+: calls → Consistent (System.after before)) ↔
      ∀ before c, before ++ [c] <+: calls → FindsOneLevelII (System.after before) c := by
  constructor
  · intro consistent before c sub
    have single (earlier : List Call) (c' : Call) (a : Ownership) (sub' : earlier ++ [c'] <+: calls)
        (sound : Sound (.after earlier) a) : FindsOneLevelII (.after earlier) c' := by
      by_contra several
      exact sound.call_inconsistent several (System.after_snoc earlier c' ▸ consistent _ sub')
    obtain ⟨a, sound⟩ := sound_after legal single before ((prefix_append _ _).trans sub)
    exact single before c a sub sound
  · intro single before sub
    obtain ⟨a, sound⟩ := sound_after legal (fun earlier c _ sub' _ => single earlier c sub') before sub
    exact sound.consistent

/-- A request on file object 1. -/
def requestOf (id : Nat) (code : FsControlCode) : Call :=
  .fsctrl ⟨id, 1, .fileSystemControl code, false, false, false⟩ 0 true

/-- One file object asks for level II and then for level I. -/
theorem oplock_consistent_once : Consistent (System.after
      [.openFile 1, requestOf 1 .requestOplockLevel2, requestOf 2 .requestOplockLevel1]) :=
  (oplock_consistent_iff _ ((everyStep_iff Legal _ _).mp (by decide))).mpr
    ((everyStep_iff FindsOneLevelII _ _).mp (by decide)) _ prefix_rfl

/-- One file object asks for level II twice and then for level I. -/
def twiceLevelII : List Call :=
  [.openFile 1, requestOf 1 .requestOplockLevel2, requestOf 2 .requestOplockLevel2,
    requestOf 3 .requestOplockLevel1]

/-- The second level II Irp stays on the list. -/
theorem oplock_inconsistent_twice :
    LegalRun twiceLevelII ∧ ¬ Consistent (System.after twiceLevelII) := by
  refine ⟨(everyStep_iff Legal _ _).mp (by decide), fun consistent => ?_⟩
  have levelII := ConsistentOplock.levelII consistent
  revert levelII
  decide

end Ntoskrnl.FsRtl.Oplock
