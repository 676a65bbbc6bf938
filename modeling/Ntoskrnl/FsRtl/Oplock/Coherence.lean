/-
# Ntoskrnl.FsRtl.Oplock.Coherence -- no write overtakes somebody's cached data

A file object that holds an oplock may cache the file. When a write of another file
object is let through, every exclusive oplock of others and every level II oplock
has been broken, and whoever was told to give up an exclusive oplock has
acknowledged it or closed the file. Whatever had to wait is released once, by the
end of the break it waits for.
-/
import Ntoskrnl.FsRtl.Oplock.Runs

namespace Ntoskrnl.FsRtl.Oplock

open Lib.Ledger List
open Rtl.Security (flagOn)

set_option autoImplicit false

/-! ## Breaks, waits and writes -/

variable (calls : List Call) (s : System) (fileObject : FileObject)

/-- No file object has more than one level II request outstanding. -/
def OneLevelIIEach : Prop :=
  ∀ o ∈ s.oplock, ∀ fileObject, o.irpOplocksII.countP (fun irp => irp.fileObject = fileObject) ≤ 1

/-- The exclusive oplock of `owner` is being broken. -/
def BreakUnderway (owner : FileObject) : Prop :=
  ∃ o ∈ s.oplock, o.fileObject = some owner ∧ flagOn o.oplockState oplockBreakMask

def System.waitingIrps : List Irp := s.oplock.elim [] NonopaqueOplock.waitingIrps

/-- The call lets a non-paging write of `fileObject` through: the check returns
success, or a write that waited is completed with success. -/
def LetsThrough (c : Call) (fileObject : FileObject) : Prop :=
  (∃ irp completionRoutine pool, c = .check irp completionRoutine pool ∧ irp.majorFunction = .write ∧
      irp.pagingIo = false ∧ irp.fileObject = fileObject ∧
      (s.result c).reply = .returns .success) ∨
    ∃ irp, .released irp .success ∈ (s.result c).events ∧ irp.majorFunction = .write ∧
      irp.fileObject = fileObject

/-- Every oplock Irp has been completed as often as it was granted, except an
exclusive one of `fileObject` itself. -/
def OplocksCompleted : Prop :=
  ∀ irp : Irp, irp.fileObject ≠ fileObject ∨ ¬ irp.AsksExclusive →
    (s.trace.filterMap Event.granted?).count irp = (s.trace.filterMap Event.broken?).count irp

/-- Every break of another owner that was under way at some point has been ended by a
call of that owner: an acknowledgement or its cleanup. -/
def BreaksEnded : Prop :=
  ∀ before later owner, calls = before ++ later → owner ≠ fileObject →
    BreakUnderway (System.after before) owner →
    ∃ between c rest, later = between ++ c :: rest ∧
      BreakUnderway (System.after (before ++ between)) owner ∧
      ¬ BreakUnderway (System.after (before ++ between ++ [c])) owner ∧ EndsBreak owner c

/-- Irps wait only during a break, none twice, and each has been released as often as
it was queued but for those that wait now. -/
structure WaitsAccounted (s : System) : Prop where
  counted : ∀ irp, (s.trace.filterMap Event.queued?).count irp =
    (s.trace.filterMap Event.released?).count irp + s.waitingIrps.count irp
  distinct : s.waitingIrps.Nodup
  underway : s.waitingIrps ≠ [] → ∃ owner, BreakUnderway s owner

/-- An Irp that waits for a break which is over by now waited until a call, made while
the break was under way, released it exactly once. -/
def ReleasedOnce : Prop :=
  ∀ before later irp owner, calls = before ++ later → irp ∈ (System.after before).waitingIrps →
    BreakUnderway (System.after before) owner → ¬ BreakUnderway (System.after calls) owner →
    ∃ between c rest, later = between ++ c :: rest ∧
      (∀ early, early <+: between → irp ∈ (System.after (before ++ early)).waitingIrps ∧
        BreakUnderway (System.after (before ++ early)) owner) ∧
      (((System.after (before ++ between)).result c).events.filterMap Event.released?).count irp = 1 ∧
      irp ∉ (System.after (before ++ between ++ [c])).waitingIrps

/-! ## What a sound file shows -/

variable {s : System} {c : Call} {a : Ownership}

theorem Sound.waitingIrps_eq (sound : Sound s a) : s.waitingIrps = a.waitingIrps := by
  unfold System.waitingIrps
  rcases sound.laid with laid | ⟨laid, rfl⟩
  · rw [laid]
    cases a <;> rfl
  · rw [laid]
    rfl

theorem Sound.breakUnderway_iff (sound : Sound s a) (owner : FileObject) :
    BreakUnderway s owner ↔ a.BreakOf owner := by
  unfold BreakUnderway
  rcases sound.laid with laid | ⟨laid, rfl⟩
  · rw [laid]
    cases a with
    | idle | shared => simp [Ownership.oplock, Ownership.BreakOf]
    | reserved => simp +decide [Ownership.oplock, Ownership.BreakOf]
    | exclusive => simp [Ownership.oplock, Ownership.BreakOf, exclusive_flags]
    | breaking => simp [Ownership.oplock, Ownership.BreakOf, breaking_flags]
  · rw [laid]
    simp [Ownership.BreakOf]

theorem Sound.waitsAccounted (sound : Sound s a) : WaitsAccounted s where
  counted irp := sound.waitingIrps_eq ▸ sound.waits.count irp
  distinct := sound.waitingIrps_eq ▸ sound.distinct
  underway := by
    intro some
    rw [sound.waitingIrps_eq] at some
    cases a with
    | breaking kind stage owner => exact ⟨owner, (sound.breakUnderway_iff owner).mpr rfl⟩
    | _ => exact absurd rfl some

/-- If every file object has at most one level II request, an exclusive request finds
at most its own. -/
theorem Sound.findsOneLevelII (sound : Sound s a) (legal : Legal s c) (each : OneLevelIIEach s) :
    FindsOneLevelII s c := by
  intro requests o laid
  cases c with
  | fsctrl irp =>
    obtain ⟨asks, one, accepted⟩ := requests
    have known : irp.fileObject ∈ s.opened ∨ irp.fileObject ∈ s.cleaned := by
      rcases asks with eq | eq | eq <;> simpa [eq] using legal.2
    have opened := opened_of_accepted known accepted
    have same : ∀ other ∈ o.irpOplocksII, other.fileObject = irp.fileObject := by
      intro other mem
      have held : other.fileObject ∈ s.opened := by
        refine sound.opened _ ?_
        rcases sound.laid with eq | ⟨eq, -⟩
        · obtain rfl : a.oplock = o := Option.some.inj (eq.symm.trans laid)
          cases a with
          | shared => exact mem_map_of_mem mem
          | _ => exact nomatch mem
        · rw [eq] at laid
          exact nomatch laid
      exact Finset.card_le_one.mp (le_of_eq one) _ held _ opened
    have all := each o laid irp.fileObject
    rwa [countP_eq_length.mpr fun other mem => decide_eq_true (same other mem)] at all
  | openFile | check | cancel => exact requests.elim

/-! ## What a move can do to a break -/

variable {irp : Irp} {fileObject : FileObject} {calls : List Call} {isOpen : FileObject → Prop}

section Moves

variable {a' : Ownership} {events : List Event}

variable {owner : FileObject}

/-- Only its owner ends a break. -/
theorem Moves.breakOf (moves : Moves c isOpen a events a') (breaks : a.BreakOf owner)
    (notEnded : ¬ EndsBreak owner c) : a'.BreakOf owner := by
  cases moves with
  | stays | waits | closes | withdraws => exact breaks
  | ends endsBreak | endsII irp endsBreak
  | endsIICancelled irp information endsBreak =>
    obtain rfl := breaks
    exact absurd endsBreak notEnded
  | reserves fileObject free => rcases free with rfl | ⟨other, rfl⟩ <;> exact breaks.elim
  | grants kind irp asks opened free | grantsCancelled irp information free =>
    rcases free with rfl | ⟨other, rfl⟩ | ⟨other, rfl⟩ <;> exact breaks.elim
  | grantsII irps => cases irps <;> exact breaks.elim
  | grantsIICancelled => exact breaks
  | @dropsII irps => cases irps <;> exact breaks.elim
  | _ => exact breaks.elim

/-- Whoever still waits after a call waits for the same break. -/
theorem Moves.breakOf_of_waiting (moves : Moves c isOpen a events a') (breaks : a.BreakOf owner)
    (waiting : a'.waitingIrps ≠ []) : a'.BreakOf owner := by
  cases moves with
  | stays | waits | closes | withdraws => exact breaks
  | begins => exact breaks.elim
  | grantsIICancelled => exact breaks
  | dropsII => exact absurd (Ownership.waitingIrps_ofShared _) waiting
  | _ => exact absurd rfl waiting

variable {status : Status}

/-- Completing oplock Irps releases nobody. -/
theorem Breaks.not_released {irps : List Irp} (breaks : Breaks irps events) :
    .released irp status ∉ events := by
  intro mem
  have mem := mem_filterMap.mpr ⟨_, mem, (rfl : Event.released? (.released irp status) = some irp)⟩
  rw [breaks.silent (fun _ => rfl) fun _ _ _ => rfl] at mem
  exact nomatch mem

theorem Quiet.not_released (quiet : Quiet events) : .released irp status ∉ events := by
  intro mem
  obtain ⟨_, _, _, eq⟩ := quiet _ mem
  exact nomatch eq

theorem Waits.not_released {other : Irp} {waiting waiting' : List Irp}
    (waits : Waits other waiting events waiting') : .released irp .success ∉ events := by
  cases waits <;> simp

/-- A write that waited is let through only when nobody holds the file any more. -/
theorem Moves.idle_of_released (moves : Moves c isOpen a events a') (patient : a.Patient)
    (mem : .released irp .success ∈ events) (write : irp.majorFunction = .write) : a' = .idle := by
  cases moves with
  | stays quiet => exact absurd mem quiet.not_released
  | reserves => exact nomatch mem
  | unreserves => rfl
  | grantsII | grantsIICancelled => simp at mem
  | grants kind other asks opened free breaks =>
    rcases mem_append.mp mem with mem | mem
    · exact absurd mem breaks.not_released
    · simp at mem
  | grantsCancelled => rfl
  | dropsII split breaks => exact absurd mem breaks.not_released
  | drops => rfl
  | begins stage other information waits =>
    rcases mem_cons.mp mem with eq | mem
    · exact nomatch eq
    · exact absurd mem waits.not_released
  | waits stage' other waits => exact absurd mem waits.not_released
  | closes kind stage owner waiting quiet => exact absurd mem quiet.not_released
  | withdraws => simp at mem
  | ends => rfl
  | @endsII _ _ waiting =>
    have waited : irp ∈ waiting := by simpa [released] using mem
    exact absurd write (patient rfl irp waited)
  | endsIICancelled => rfl

theorem Moves.not_queued (moves : Moves c isOpen a events a') (waited : irp ∈ a.waitingIrps) :
    irp ∉ events.filterMap Event.queued? := by
  have silent (waiting : List Irp) : (released waiting).filterMap Event.queued? = [] :=
    filterMap_released _ fun _ => rfl
  cases moves with
  | stays quiet =>
    rw [quiet.filterMap_eq_nil fun _ _ _ => rfl]
    exact not_mem_nil
  | waits stage' other waits =>
    intro mem
    cases waits with
    | refused => exact nomatch mem
    | queued fresh | withdrawn fresh => exact fresh (mem_singleton.mp mem ▸ waited)
  | closes kind stage owner waiting quiet =>
    rw [quiet.filterMap_eq_nil fun _ _ _ => rfl]
    exact not_mem_nil
  | withdraws =>
    rw [filterMap_released _ fun _ => rfl]
    exact not_mem_nil
  | @ends _ _ owner waiting _ answers endsBreak quiet all =>
    rw [(all.filterMap Event.queued?).mem_iff, filterMap_cons_none rfl, filterMap_append,
      quiet.filterMap_eq_nil fun _ _ _ => rfl, silent]
    exact not_mem_nil
  | endsII =>
    rw [filterMap_cons_none rfl, silent]
    exact not_mem_nil
  | endsIICancelled =>
    rw [filterMap_cons_none rfl, filterMap_cons_none rfl, filterMap_cons_none rfl, silent]
    exact not_mem_nil
  | reserves => exact not_mem_nil
  | grants kind other asks opened free | grantsCancelled other information free =>
    rw [free.waitingIrps] at waited
    exact nomatch waited
  | grantsII | grantsIICancelled => exact not_mem_nil
  | dropsII split breaks =>
    rw [breaks.silent (fun _ => rfl) fun _ _ _ => rfl]
    exact not_mem_nil
  | _ => exact nomatch waited

/-! ## Letting a write through -/

/-- Nobody but `fileObject` has an oplock or a break under way. -/
def ClearFor (fileObject : FileObject) : Ownership → Prop
  | .idle => True
  | .shared _ _ => False
  | .reserved _ => True
  | .exclusive _ irp => irp.fileObject = fileObject
  | .breaking _ _ owner _ => owner = fileObject

theorem clearFor_of_owner (owns : a.oplock.fileObject = some fileObject) :
    ClearFor fileObject a := by
  cases a with
  | idle => trivial
  | shared => exact nomatch owns
  | reserved => trivial
  | exclusive | breaking => exact Option.some.inj owns

/-- A write that is checked and let through finds the way clear afterwards. -/
theorem checkWrite_clear (sound : Sound s a) {completionRoutine pool : Bool}
    (legal : Legal s (.check irp completionRoutine pool)) (write : irp.majorFunction = .write)
    (notPaging : irp.pagingIo = false)
    (success : (s.checkResult irp completionRoutine pool).reply = .returns .success)
    (laid' : Laid (s.checkResult irp completionRoutine pool).oplock a') :
    ClearFor irp.fileObject a' := by
  have idle (eq : a'.oplock = Ownership.idle.oplock) : ClearFor irp.fileObject a' := by
    rw [idle_of_noOplocksHeld (congrArg NonopaqueOplock.oplockState eq)]
    trivial
  unfold System.checkResult checkOplock at success laid'
  rcases sound.laid with laid | ⟨laid, rfl⟩
  · rw [laid] at success laid'
    simp only [notPaging, Bool.false_eq_true, if_false, write, reduceCtorEq] at success laid'
    by_cases none : a.oplock.oplockState = noOplocksHeld
    · rw [if_pos none] at laid'
      exact idle (idle_of_noOplocksHeld none ▸ laid'.eq_of_some)
    · rw [if_neg none] at success laid'
      simp only [checkHeldOplock, write, breakLevel] at success laid'
      -- the write breaks the oplock to none unless the writer owns it
      by_cases breaks : a.oplock.oplockState = oplockIIGranted ∨ a.oplock.fileObject ≠ some irp.fileObject
      · rw [if_pos breaks] at success laid'
        have notOwner : a.oplock.fileObject ≠ some irp.fileObject := by
          rcases breaks with granted | notOwner
          · rw [fileObject_of_granted granted]
            exact nofun
          · exact notOwner
        obtain ⟨a'', eq, -, -, clears⟩ : Clears (fun irp => irp ∈ s.cancelled)
            (.check irp completionRoutine pool) (· ∈ s.opened) a
            (oplockBreakToNone (fun irp => irp ∈ s.cancelled) pool a.oplock irp completionRoutine) :=
          oplockBreakToNone_clears sound.live (sound.laid.fresh legal.1) notOwner
        rw [clears success] at eq
        exact idle (laid'.eq_of_some.trans eq)
      · rw [if_neg breaks] at laid'
        refine clearFor_of_owner ?_
        rw [laid'.eq_of_some]
        exact not_not.mp (not_or.mp breaks).2
  · rw [laid] at laid'
    rcases laid' with eq | ⟨-, rfl⟩
    · exact nomatch eq
    · trivial

/-- **A call that lets a write through leaves the way clear for it.** -/
theorem letsThrough_clear (sound : Sound s a) (legal : Legal s c)
    (moves : Moves c (· ∈ s.opened) a (s.result c).events a') (sound' : Sound (s.call c) a')
    (lets : LetsThrough s c fileObject) : ClearFor fileObject a' := by
  rcases lets with ⟨irp, completionRoutine, pool, rfl, write, notPaging, rfl, success⟩ |
    ⟨irp, mem, write, -⟩
  · refine checkWrite_clear sound legal write notPaging success ?_
    have laid := sound'.laid
    rwa [System.call, System.close_oplock] at laid
  · rw [moves.idle_of_released sound.patient mem write]
    trivial

/-- When the way is clear for `fileObject`, everybody else's oplock has been
completed. -/
theorem Sound.oplocksCompleted (sound : Sound s a) (clear : ClearFor fileObject a) :
    OplocksCompleted s fileObject := by
  intro irp other
  have notHeld : irp ∉ a.oplockIrps := by
    intro mem
    cases a with
    | exclusive =>
      obtain rfl := mem_singleton.mp mem
      rcases other with differ | notExclusive
      · exact differ clear
      · exact notExclusive sound.asked
    | shared => exact clear
    | _ => exact nomatch mem
  rw [sound.grants.count irp, count_eq_zero.mpr notHeld, Nat.add_zero]

end Moves

/-! ## Every sequence of calls -/

/-- A run in which no file object has more than one level II request outstanding stays
sound, and every call of it is a move of the protocol. -/
theorem moves_each (legal : LegalRun calls)
    (each : ∀ before, before <+: calls → OneLevelIIEach (System.after before)) {before : List Call}
    (sub : before ++ [c] <+: calls) :
    ∃ a a', Sound (System.after before) a ∧ Sound (System.after (before ++ [c])) a' ∧
      Moves c (· ∈ (System.after before).opened) a ((System.after before).result c).events a' := by
  have single (earlier : List Call) (c' : Call) (a : Ownership) (sub' : earlier ++ [c'] <+: calls)
      (sound : Sound (.after earlier) a) : FindsOneLevelII (.after earlier) c' :=
    sound.findsOneLevelII (legal earlier c' sub') (each earlier ((prefix_append _ _).trans sub'))
  obtain ⟨a, sound⟩ := sound_after legal single before ((prefix_append _ _).trans sub)
  obtain ⟨a', sound', moves⟩ := sound.call (legal before c sub) (single before c a sub sound)
  exact ⟨a, a', sound, System.after_snoc before c ▸ sound', moves⟩

theorem breakEnded (legal : LegalRun calls)
    (each : ∀ before, before <+: calls → OneLevelIIEach (System.after before))
    (owner : FileObject) (later before : List Call) (split : calls = before ++ later)
    (underway : BreakUnderway (System.after before) owner)
    (finished : ¬ BreakUnderway (System.after calls) owner) :
    ∃ between c rest, later = between ++ c :: rest ∧
      BreakUnderway (System.after (before ++ between)) owner ∧
      ¬ BreakUnderway (System.after (before ++ between ++ [c])) owner ∧ EndsBreak owner c := by
  induction later generalizing before with
  | nil =>
    rw [split, append_nil] at finished
    exact absurd underway finished
  | cons c later ih =>
    have split' : calls = before ++ [c] ++ later := by rw [split, append_assoc]; rfl
    by_cases still : BreakUnderway (.after (before ++ [c])) owner
    · obtain ⟨between, c', rest, rfl, onward, ended, endsBreak⟩ := ih (before ++ [c]) split' still
      refine ⟨c :: between, c', rest, rfl, ?_, ?_, endsBreak⟩
      · simpa using onward
      · simpa using ended
    · refine ⟨[], c, later, rfl, by simpa using underway, by simpa using still, ?_⟩
      obtain ⟨a, a', sound, sound', moves⟩ := moves_each legal each (split' ▸ prefix_append _ _)
      by_contra notEnded
      refine still ((sound'.breakUnderway_iff owner).mpr ?_)
      exact moves.breakOf ((sound.breakUnderway_iff owner).mp underway) notEnded

theorem released_once {a' : Ownership} (sound : Sound s a)
    (moves : Moves c isOpen a (s.result c).events a') (waited : irp ∈ a.waitingIrps)
    (gone : irp ∉ a'.waitingIrps) :
    ((s.result c).events.filterMap Event.released?).count irp = 1 := by
  have settled := moves.settled.waits.count_eq irp
  rw [count_append, count_append, count_eq_zero.mpr (moves.not_queued waited),
    count_eq_zero.mpr gone, count_eq_one_of_mem sound.distinct waited] at settled
  omega

/-- An Irp waits until it is released, once, by the end of the break. -/
theorem releasedOnce (legal : LegalRun calls)
    (each : ∀ before, before <+: calls → OneLevelIIEach (System.after before)) :
    ReleasedOnce calls := by
  intro before later irp owner split waits underway finished
  induction later generalizing before with
  | nil =>
    rw [split, append_nil] at finished
    exact absurd underway finished
  | cons c later ih =>
    have split' : calls = before ++ [c] ++ later := by rw [split, append_assoc]; rfl
    obtain ⟨a, a', sound, sound', moves⟩ := moves_each legal each (split' ▸ prefix_append _ _)
    by_cases still : irp ∈ (System.after (before ++ [c])).waitingIrps
    · have onward : BreakUnderway (.after (before ++ [c])) owner := by
        refine (sound'.breakUnderway_iff owner).mpr ?_
        refine moves.breakOf_of_waiting ((sound.breakUnderway_iff owner).mp underway) ?_
        exact ne_nil_of_mem (sound'.waitingIrps_eq ▸ still)
      obtain ⟨between, c', rest, rfl, until', once, gone⟩ := ih (before ++ [c]) split' still onward
      refine ⟨c :: between, c', rest, rfl, ?_, by simpa using once, by simpa using gone⟩
      intro early sub
      cases early with
      | nil => simpa using ⟨waits, underway⟩
      | cons first early =>
        obtain ⟨rfl, shorter⟩ := cons_prefix_cons.mp sub
        simpa using until' early shorter
    · refine ⟨[], c, later, rfl, ?_, ?_, by simpa using still⟩
      · intro early sub
        rw [prefix_nil.mp sub, append_nil]
        exact ⟨waits, underway⟩
      · rw [append_nil]
        exact released_once sound moves (sound.waitingIrps_eq ▸ waits) (sound'.waitingIrps_eq ▸ still)

/-- **Cache coherence.** Take any legal sequence of calls in which no file object has
more than one level II request outstanding. When its last call lets a write of
`fileObject` through, every exclusive oplock Irp of another file object and every
level II oplock Irp granted so far has been completed, and every break of another
owner has been ended by that owner. Every Irp put on the waiting list is released
exactly once, by the end of the break it waits for. -/
theorem oplock_coherent (calls : List Call) (c : Call) (legal : LegalRun (calls ++ [c]))
    (each : ∀ before, before <+: calls ++ [c] → OneLevelIIEach (System.after before)) :
    (∀ fileObject, LetsThrough (System.after calls) c fileObject →
      OplocksCompleted (System.after (calls ++ [c])) fileObject ∧
        BreaksEnded (calls ++ [c]) fileObject) ∧
      WaitsAccounted (System.after (calls ++ [c])) ∧ ReleasedOnce (calls ++ [c]) := by
  obtain ⟨a, a', sound, sound', moves⟩ := moves_each legal each prefix_rfl
  refine ⟨fun fileObject lets => ?_, sound'.waitsAccounted, releasedOnce legal each⟩
  have clear : ClearFor fileObject a' :=
    letsThrough_clear sound (legal calls c prefix_rfl) moves (System.after_snoc calls c ▸ sound') lets
  refine ⟨sound'.oplocksCompleted clear, fun before later owner split other underway => ?_⟩
  refine breakEnded legal each owner later before split underway fun still => ?_
  have breaks := (sound'.breakUnderway_iff owner).mp still
  cases a' with
  | breaking => exact other (breaks.symm.trans clear)
  | _ => exact breaks

/-- File object 1 takes a level I oplock, and a write of file object 2 has to wait for
it. -/
def writeWaits : List Call :=
  [.openFile 1, .fsctrl ⟨1, 1, .fileSystemControl .requestOplockLevel1, false, false, false⟩ 0 true,
    .openFile 2, .check ⟨2, 2, .write, false, false, false⟩ true true]

/-- The owner acknowledges the break. -/
def acknowledge : Call :=
  .fsctrl ⟨3, 1, .fileSystemControl .oplockBreakAcknowledge, false, false, false⟩ 0 true

/-- The write goes through. -/
theorem oplock_coherent_acknowledged : LetsThrough (System.after writeWaits) acknowledge 2 ∧
      OplocksCompleted (System.after (writeWaits ++ [acknowledge])) 2 ∧
      BreaksEnded (writeWaits ++ [acknowledge]) 2 := by
  have lets : LetsThrough (System.after writeWaits) acknowledge 2 :=
    Or.inr ⟨⟨2, 2, .write, false, false, false⟩, by decide, rfl, rfl⟩
  have short : ∀ before ∈ (writeWaits ++ [acknowledge]).inits, ∀ o ∈ (System.after before).oplock,
      o.irpOplocksII.length ≤ 1 := by
    decide
  exact ⟨lets, (oplock_coherent writeWaits acknowledge ((everyStep_iff Legal _ _).mp (by decide))
    fun before sub o laid _ =>
      countP_le_length.trans (short before ((mem_inits _ _).mpr sub) o laid)).1 2 lets⟩

/-! ## Fast I/O -/

def fsRtlOplockIsFastIoPossible (oplock : Option NonopaqueOplock) : Bool :=
  !oplock.any (flagOn ·.oplockState (levelIIOplock ||| oplockBreakMask))

/-- Fast I/O stops at level II oplocks and at breaks. -/
theorem Ownership.fastIo_iff (a : Ownership) : fsRtlOplockIsFastIoPossible (some a.oplock) ↔
      a.oplock.irpOplocksII = [] ∧ ∀ owner, ¬ a.BreakOf owner := by
  unfold fsRtlOplockIsFastIoPossible oplock BreakOf
  cases a with
  | idle | shared | reserved => simp +decide
  | exclusive kind => cases kind <;> simp +decide
  | breaking kind stage => cases kind <;> cases stage <;> simp +decide

/-- **Fast I/O is possible just if no level II oplock is held and no break is under way.**
Then no Irp waits, and all oplocks have been completed but an exclusive one of one file
object. -/
theorem fastIoPossible_iff (legal : LegalRun calls)
    (single : ∀ before c, before ++ [c] <+: calls → FindsOneLevelII (System.after before) c) :
    let s := System.after calls
    (fsRtlOplockIsFastIoPossible s.oplock ↔
      (∀ o ∈ s.oplock, o.irpOplocksII = []) ∧ ∀ owner, ¬ BreakUnderway s owner) ∧
    (fsRtlOplockIsFastIoPossible s.oplock →
      (∃ owner, OplocksCompleted s owner) ∧ s.waitingIrps = []) := by
  intro s
  obtain ⟨a, sound⟩ : ∃ a, Sound s a :=
    sound_after legal (fun earlier c _ sub _ => single earlier c sub) calls prefix_rfl
  have possible_iff : fsRtlOplockIsFastIoPossible s.oplock ↔
      a.oplock.irpOplocksII = [] ∧ ∀ owner, ¬ a.BreakOf owner := by
    rw [← a.fastIo_iff]
    rcases sound.laid with laid | ⟨laid, rfl⟩
    · rw [laid]
    · rw [laid]
      rfl
  constructor
  · simp only [possible_iff, sound.breakUnderway_iff]
    rcases sound.laid with laid | ⟨laid, rfl⟩
    · simp [laid]
    · simp [laid, Ownership.oplock]
  · intro possible
    obtain ⟨noneII, noBreak⟩ := possible_iff.mp possible
    obtain ⟨nobody, owner, clear⟩ : a.waitingIrps = [] ∧ ∃ owner, ClearFor owner a := by
      cases a with
      | idle | reserved => exact ⟨rfl, 0, trivial⟩
      | shared => cases noneII
      | exclusive _ irp => exact ⟨rfl, irp.fileObject, rfl⟩
      | breaking _ _ owner => exact (noBreak owner rfl).elim
    exact ⟨⟨owner, sound.oplocksCompleted clear⟩, sound.waitingIrps_eq.trans nobody⟩

/-- The write that waited is through. -/
theorem fastIoPossible_acknowledged :
    (System.after (writeWaits ++ [acknowledge])).waitingIrps = [] :=
  ((fastIoPossible_iff ((everyStep_iff Legal _ _).mp (by decide))
    ((everyStep_iff FindsOneLevelII _ _).mp (by decide))).2 (by decide)).2

end Ntoskrnl.FsRtl.Oplock
