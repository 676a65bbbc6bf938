/-
# Ntoskrnl.Rtl.Security.Effective -- the effective part of an inherited ACL

With automatic inheritance and no ACL of its own, an object gets the ACEs
`RtlpGenerateInheritAcl` makes of the ACL of its parent.  Each ACE that concerns the
object has an effective form; duplicates are left out, and the effective ACE may be
merged with the inheritable one.  As far as the object itself goes this changes
nothing bit by bit: every effective ACE of the result is the effective form of an
ACE of the parent, and every bit of an effective form is in the result.
-/
import Ntoskrnl.Rtl.Security.Inherit

namespace Ntoskrnl.Rtl.Security

open List Lib.Checked

set_option autoImplicit false

/-! ## What an ACE is about -/

/-- What two comparable ACEs must share: everything but the mask, the flags and the
bits of an object ACE that announce no GUID. -/
structure Subject where
  isObject : Bool
  kind : BaseAceType
  objectType : Option Guid
  inheritedObjectType : Option Guid
  sid : Sid
deriving DecidableEq, Repr

def AceBody.subject? : AceBody → Option Subject
  | .known kind _ sid => some ⟨false, kind, none, none, sid⟩
  | .object kind _ _ objectType inheritedObjectType sid =>
    some ⟨true, kind, objectType, inheritedObjectType, sid⟩
  | .compound .. => none
  | .unknown .. => none

theorem subject?_isSome (body : AceBody) : body.subject?.isSome = body.comparable := by
  cases body <;> rfl

variable {child : Ace}

theorem compareSids_none {inheritedSid childSid : Sid}
    (same : compareSids none none child inheritedSid childSid) :
    childSid = inheritedSid := by
  unfold compareSids at same
  split at same
  · assumption
  · split at same
    · exact nomatch same
    · exact nomatch same

/-- ACEs that compare equal, with no SIDs to stand for others, are about the same. -/
theorem subject?_of_compareAces {inherited : Ace} (same : compareAces inherited child none none) :
    child.body.subject? = inherited.body.subject? := by
  unfold compareAces at same
  split at same
  · next kind _ inheritedSid childKind _ childSid eq eq' =>
    simp only [Bool.and_eq_true, beq_iff_eq] at same
    rw [eq, eq', AceBody.subject?, AceBody.subject?, same.1.1, compareSids_none same.2]
  · next eq eq' =>
    simp only [Bool.and_eq_true, beq_iff_eq] at same
    obtain ⟨⟨⟨⟨sameKind, -⟩, sameInherited⟩, sameObject⟩, sids⟩ := same
    rw [eq, eq', AceBody.subject?, AceBody.subject?, sameKind, sameInherited, sameObject,
      compareSids_none sids]
  · cases same

/-! ## Duplicates -/

theorem getLsbD_without (masks others : Masks) (i : Nat) :
    (masks.without others).effective.getLsbD i =
      (masks.effective.getLsbD i && !others.effective.getLsbD i) := by
  by_cases small : i < 32
  · simp [Masks.without, small]
  · simp [Masks.without, BitVec.getLsbD_of_ge _ i (Nat.le_of_not_lt small)]

theorem Masks.not_effective_of_empty {masks : Masks} (empty : masks.empty) (i : Nat) :
    masks.effective.getLsbD i = false := by
  have zero : masks.effective = 0 := by
    have := (beq_iff_eq.mp empty)
    exact (BitVec.or_eq_zero_iff.mp (BitVec.or_eq_zero_iff.mp this).1).1
  rw [zero]
  exact BitVec.getLsbD_zero

variable {ace : Ace} {i : Nat}

theorem getLsbD_masks : ace.masks.effective.getLsbD i ↔
    ace.inheritOnly = false ∧ ace.body.mask.getLsbD i := by
  unfold Ace.masks
  cases ace.inheritOnly <;> simp

/-- `ace` says something about bit `i` for whatever `subject` is about, effectively. -/
def Ace.Carries (subject : Subject) (i : Nat) (ace : Ace) : Prop :=
  ace.inheritOnly = false ∧ ace.body.subject? = some subject ∧ ace.body.mask.getLsbD i

variable {subject : Subject} {newAce : Ace}

/-- Every bit of an ACE whose bits are all matched is carried by an ACE of the list. -/
theorem carries_of_allMatched (about : newAce.body.subject? = some subject) (aces : List Ace) :
    ∀ masks : Masks, allMatched newAce masks aces → masks.effective.getLsbD i →
      ∃ ace ∈ aces, ace.Carries subject i := by
  induction aces with
  | nil => exact nofun
  | cons ace aces ih =>
    intro masks matched bit
    unfold allMatched at matched
    split at matched
    · next compared =>
      simp only [Bool.and_eq_true] at compared
      by_cases here : ace.masks.effective.getLsbD i
      · obtain ⟨effective, set⟩ := getLsbD_masks.mp here
        refine ⟨ace, mem_cons_self .., effective, ?_, set⟩
        rw [← subject?_of_compareAces compared.2, about]
      · have left : (masks.without ace.masks).effective.getLsbD i := by
          rw [Bool.not_eq_true] at here
          rw [getLsbD_without, bit, here]
          rfl
        split at matched
        · next empty =>
          rw [Masks.not_effective_of_empty empty i] at left
          exact nomatch left
        · obtain ⟨other, mem, carries⟩ := ih _ matched left
          exact ⟨other, mem_cons_of_mem _ mem, carries⟩
    · obtain ⟨other, mem, carries⟩ := ih _ matched bit
      exact ⟨other, mem_cons_of_mem _ mem, carries⟩

variable {aces : List Ace} {old : Ace} {acl : Acl}

/-- A duplicate adds no bit. -/
theorem carries_of_isDuplicateAce (duplicate : isDuplicateAce aces newAce)
    (carries : newAce.Carries subject i) : ∃ ace ∈ aces, ace.Carries subject i := by
  obtain ⟨effective, about, bit⟩ := carries
  simp only [isDuplicateAce, Bool.and_eq_true] at duplicate
  exact carries_of_allMatched about aces newAce.masks duplicate.2
    (getLsbD_masks.mpr ⟨effective, bit⟩)

/-! ## One ACE of the directory -/

variable {args : InheritArguments} {next : Generated}

/-- The effective form of an ACE of the directory, if the ACE concerns the object. -/
def effectiveOf (args : InheritArguments) (old : Ace) : Except Failure (Option AceBody) := do
  if (args.isDirectoryObject && flagOn old.aceFlags containerInheritAce) ||
      (!args.isDirectoryObject && flagOn old.aceFlags objectInheritAce) then do
    let effective ← effectiveForm args.genericMapping args.creator
      (args.isDirectoryObject && propagate old) (some args.newObjectType) old.body
    pure effective.body
  else pure none

/-- How an effective form gets behind the ACEs that are there: not at all if it is a duplicate. -/
def Adds (aces : List Ace) : Option AceBody → List Ace → Prop
  | none, new => new = []
  | some body, new =>
    (new = [] ∧ ∃ ace : Ace, ace.body = body ∧ ace.inheritOnly = false ∧ isDuplicateAce aces ace) ∨
    ∃ ace : Ace, new = [ace] ∧ ace.body = body ∧ ace.inheritOnly = false

/-- What one turn adds: the effective form, and ACEs that are not effective. -/
structure Turn (args : InheritArguments) (old : Ace) (aces aces' : List Ace) : Prop where
  adds : ∃ form new inheritable, effectiveOf args old = .ok form ∧
    aces' = aces ++ new ++ inheritable ∧ Adds aces form new ∧
    ∀ ace ∈ inheritable, ace.inheritOnly

/-- The effective ACEs that stand for the ACEs of a directory. -/
structure Stands (args : InheritArguments) (directory aces : List Ace) : Prop where
  formed : ∀ old ∈ directory, ∃ form, effectiveOf args old = .ok form
  /-- Every effective ACE is the effective form of an ACE of the directory. -/
  sound : ∀ ace ∈ aces, ace.inheritOnly = false →
    ∃ old ∈ directory, effectiveOf args old = .ok (some ace.body)
  /-- Every effective form is there, if not as such then bit by bit. -/
  complete : ∀ old ∈ directory, ∀ body, effectiveOf args old = .ok (some body) →
    (∃ ace ∈ aces, ace.inheritOnly = false ∧ ace.body = body) ∨
      ∃ subject, body.subject? = some subject ∧ ∀ i, body.mask.getLsbD i →
        ∃ ace ∈ aces, ace.Carries subject i

/-- One more ACE of the directory. -/
theorem Stands.turn {directory aces' : List Ace} (stands : Stands args directory aces)
    (turn : Turn args old aces aces') :
    Stands args (directory ++ [old]) aces' := by
  obtain ⟨form, new, inheritable, formEq, rfl, adds, only⟩ := turn.adds
  have kept : ∀ ace ∈ aces, ace ∈ aces ++ new ++ inheritable := fun ace mem =>
    mem_append_left _ (mem_append_left _ mem)
  refine ⟨?_, ?_, ?_⟩
  · intro ace mem
    rcases mem_append.mp mem with earlier | last
    · exact stands.formed ace earlier
    · exact ⟨form, mem_singleton.mp last ▸ formEq⟩
  · intro ace mem effective
    rcases mem_append.mp mem with mem | last
    · rcases mem_append.mp mem with earlier | mem
      · obtain ⟨source, mem, eq⟩ := stands.sound ace earlier effective
        exact ⟨source, mem_append_left _ mem, eq⟩
      · refine ⟨old, mem_append_right _ (mem_singleton_self old), ?_⟩
        cases form with
        | none => exact absurd (adds ▸ mem) (not_mem_nil)
        | some =>
          rcases adds with ⟨rfl, -⟩ | ⟨copy, rfl, bodyEq, -⟩
          · exact absurd mem not_mem_nil
          · rw [mem_singleton.mp mem, bodyEq]
            exact formEq
    · exact nomatch effective.symm.trans (only ace last)
  · intro source mem body eq
    rcases mem_append.mp mem with earlier | last
    · rcases stands.complete source earlier body eq with ⟨ace, mem, there⟩ | ⟨subject, about, bits⟩
      · exact .inl ⟨ace, kept ace mem, there⟩
      · refine .inr ⟨subject, about, fun i bit => ?_⟩
        obtain ⟨ace, mem, carries⟩ := bits i bit
        exact ⟨ace, kept ace mem, carries⟩
    · obtain rfl := mem_singleton.mp last
      obtain rfl : form = some body := Except.ok.inj (formEq.symm.trans eq)
      rcases adds with ⟨-, duplicate, rfl, effective, isDuplicate⟩ | ⟨copy, rfl, rfl, effective⟩
      · have comparable : duplicate.body.subject?.isSome := by
          simp only [isDuplicateAce, Bool.and_eq_true] at isDuplicate
          rw [subject?_isSome, isDuplicate.1.1]
        obtain ⟨subject, about⟩ := Option.isSome_iff_exists.mp comparable
        refine .inr ⟨subject, about, fun i bit => ?_⟩
        obtain ⟨ace, mem, carries⟩ := carries_of_isDuplicateAce isDuplicate ⟨effective, about, bit⟩
        exact ⟨ace, kept ace mem, carries⟩
      · exact .inl ⟨copy, by simp, effective, rfl⟩

variable {directory : Option Acl} {result : NewAcl}

end Ntoskrnl.Rtl.Security
