/-
# Ntoskrnl.Rtl.Security.ValidCopies -- when copies of ACEs are valid

What `RtlValidAcl` asks of a list of ACEs, in terms of the list: each ACE is well
formed, and every ACE that has another one behind it is of even size.  From this,
what becomes of it when ACEs are copied.
-/
import Ntoskrnl.Rtl.Security.CopyAces

namespace Ntoskrnl.Rtl.Security

open List Lib.Checked

set_option autoImplicit false

/-! ## Valid lists -/

/-- Every ACE with another one behind it is of even size. -/
def EvenPlaces (aces : List Ace) : Prop := aces.Pairwise fun ace _ => ace.aceSize % 2 = 0

theorem wordAligned_iff {address : Nat} : wordAligned address ↔ address % 2 = 0 := by
  simp only [wordAligned, beq_iff_eq]
  omega

theorem longAligned_iff {value : Nat} : longAligned value ↔ value % 4 = 0 := by
  simp only [longAligned, beq_iff_eq]
  omega

variable {ace : Ace} {aclSize : Nat}

theorem validFrom_cons {revision offset : Nat} {aces : List Ace} :
    validFrom revision aclSize offset (ace :: aces) ↔
      offset + sizeofAceHeader ≤ aclSize ∧ offset % 2 = 0 ∧ sizeofAceHeader ≤ ace.aceSize ∧
      offset + ace.aceSize ≤ aclSize ∧ validBody revision ace ∧
      validFrom revision aclSize (offset + ace.aceSize) aces := by
  simp [validFrom, decide_eq_true_eq, wordAligned_iff, and_assoc]

theorem evenPlaces_of_validFrom {revision : Nat} {aces : List Ace} :
    ∀ {offset : Nat}, validFrom revision aclSize offset aces →
      EvenPlaces aces ∧ ∀ ace ∈ aces, validBody revision ace := by
  induction aces with
  | nil => exact fun _ => ⟨.nil, by simp⟩
  | cons ace aces ih =>
    intro offset valid
    obtain ⟨-, aligned, -, -, body, rest⟩ := validFrom_cons.mp valid
    obtain ⟨places, bodies⟩ := ih rest
    refine ⟨pairwise_cons.mpr ⟨fun next mem => ?_, places⟩, forall_mem_cons.mpr ⟨body, bodies⟩⟩
    cases aces with
    | nil => cases mem
    | cons =>
      obtain ⟨-, alignedNext, -⟩ := validFrom_cons.mp rest
      omega

theorem validFrom_of_evenPlaces {revision : Nat} {aces : List Ace} (places : EvenPlaces aces)
    (bodies : ∀ ace ∈ aces, validBody revision ace) :
    ∀ {offset : Nat}, (aces ≠ [] → offset % 2 = 0) → offset + totalSize aces ≤ aclSize →
      validFrom revision aclSize offset aces := by
  induction aces with
  | nil => exact fun _ _ => rfl
  | cons ace aces ih =>
    intro offset aligned fits
    obtain ⟨even, places⟩ := pairwise_cons.mp places
    have least := aceSize_pos ace
    rw [totalSize_cons] at fits
    have here := aligned (by simp)
    refine validFrom_cons.mpr ⟨by simp only [sizeofAceHeader]; omega, here, least, by omega,
      bodies ace (by simp), ?_⟩
    refine ih places (fun each mem => bodies each (by simp [mem])) (fun more => ?_) (by omega)
    obtain ⟨following, mem⟩ := exists_mem_of_ne_nil aces more
    have := even following mem
    omega

/-- The validity of an ACL without free room. -/
theorem valid_iff {revision : Nat} {aces : List Ace} (least : aclRevision2 ≤ revision)
    (most : revision ≤ aclRevision4) :
    (Acl.mk revision (totalSize aces + sizeofAcl) aces).valid ↔
      EvenPlaces aces ∧ ∀ ace ∈ aces, validBody revision ace := by
  simp only [Acl.valid, Acl.validRevision, Bool.and_eq_true, decide_eq_true_eq]
  constructor
  · exact fun valid => evenPlaces_of_validFrom valid.2
  · rintro ⟨places, bodies⟩
    refine ⟨⟨⟨least, most⟩, by omega⟩, ?_⟩
    exact validFrom_of_evenPlaces places bodies (fun _ => by decide) (by omega)

variable {acl : Acl}

theorem Acl.valid.revision (valid : acl.valid) : acl.aclRevision ≤ aclRevision4 := by
  simp only [Acl.valid, Acl.validRevision, Bool.and_eq_true, decide_eq_true_eq] at valid
  exact valid.1.1.2

theorem Acl.valid.aces (valid : acl.valid) :
    EvenPlaces acl.aces ∧ ∀ ace ∈ acl.aces, validBody acl.aclRevision ace := by
  simp only [Acl.valid, Bool.and_eq_true] at valid
  exact evenPlaces_of_validFrom valid.2

/-! ## Valid entries -/

/-- The flags do not matter. -/
theorem validBody_aceFlags (revision : Nat) (ace : Ace) (aceFlags : AceFlags) :
    validBody revision { ace with aceFlags } = validBody revision ace := rfl

/-- Nor does the mask. -/
theorem validBody_setMask (revision : Nat) (ace : Ace) (mask : AccessMask) :
    validBody revision { ace with body := ace.body.setMask mask } = validBody revision ace := by
  obtain ⟨aceFlags, body, rest⟩ := ace
  cases body <;> rfl

theorem validBody_mono {revision revision' : Nat} (more : revision ≤ revision')
    (valid : validBody revision ace) : validBody revision' ace := by
  unfold validBody at valid ⊢
  split at valid
  · exact valid
  · simp only [Bool.and_eq_true, decide_eq_true_eq] at valid ⊢
    obtain ⟨⟨⟨⟨⟨low, aligned⟩, fixed⟩, type⟩, first⟩, second⟩ := valid
    exact ⟨⟨⟨⟨⟨Nat.le_trans low more, aligned⟩, fixed⟩, type⟩, first⟩, second⟩
  · simp only [Bool.and_eq_true, decide_eq_true_eq] at valid ⊢
    obtain ⟨⟨⟨⟨low, aligned⟩, fixed⟩, least⟩, whole⟩ := valid
    exact ⟨⟨⟨⟨Nat.le_trans low more, aligned⟩, fixed⟩, least⟩, whole⟩
  · rfl

/-- A well-formed ACE the kernel knows is of even size. -/
theorem even_of_validBody {revision : Nat} (valid : validBody revision ace)
    (ms : ace.body.isMs) : ace.aceSize % 2 = 0 := by
  have aligned : longAligned ace.aceSize := by
    unfold validBody at valid
    split at valid
    · simp only [Bool.and_eq_true] at valid
      exact valid.1.1
    · simp only [Bool.and_eq_true] at valid
      exact valid.1.1.1.1.2
    · simp only [Bool.and_eq_true] at valid
      exact valid.1.1.1.2
    · next unknown =>
      rw [unknown] at ms
      cases ms
  have := longAligned_iff.mp aligned
  omega

/-! ## Effective copies -/

/-- Two bodies that differ in their masks and SIDs only. -/
def SameShape : AceBody → AceBody → Prop
  | .known kind _ _, .known kind' _ _ => kind = kind'
  | .compound _ compoundAceType _ _ _, .compound _ compoundAceType' _ _ _ =>
    compoundAceType = compoundAceType'
  | .object kind _ _ objectType inheritedObjectType _,
      .object kind' _ _ objectType' inheritedObjectType' _ =>
      kind = kind' ∧ objectType = objectType' ∧ inheritedObjectType = inheritedObjectType'
  | .unknown aceType _, .unknown aceType' _ => aceType = aceType'
  | _, _ => False

/-- An object or compound ACE for a SID without sub-authorities. -/
def AceBody.sidTooShort : AceBody → Bool
  | .compound _ _ _ _ clientSid => clientSid.subAuthorities.isEmpty
  | .object _ _ _ _ _ sid => sid.subAuthorities.isEmpty
  | _ => false

theorem sameShape_refl (body : AceBody) : SameShape body body := by
  cases body <;> simp [SameShape]

variable {revision : Nat} {mapping : GenericMapping} {will : Bool} {body : AceBody} {creator : Creator}

/-- Where no object types are asked for, the effective form has the shape of the ACE. -/
theorem effectiveForm_shape {old : AceBody} {effective : Effective}
    (form : effectiveForm mapping creator will none old = .ok effective)
    (kept : effective.body = some body) : SameShape old body := by
  unfold effectiveForm at form
  split at form
  · cases form
    cases kept
    exact sameShape_refl _
  · obtain ⟨serverSid, server, form⟩ := bind_eq_ok.mp form
    simp only [Option.bind_none, reduceCtorEq, if_false, decide_false, Bool.false_and,
      Bool.or_false, Bool.false_eq_true] at form
    split at form
    · cases form
      cases kept
    · obtain ⟨clientSid, client, form⟩ := bind_eq_ok.mp form
      cases form
      cases kept
      cases old <;> simp [SameShape, AceBody.replaceSids, AceBody.setMask]

variable {old : Ace}

/-- An effective copy of a well-formed ACE is well formed unless its SID is too short. -/
theorem validBody_effectiveAce (autoInherit : Bool)
    (valid : validBody revision old) (shape : SameShape old.body body) :
    validBody revision (effectiveAce autoInherit old body) ↔ body.sidTooShort = false := by
  obtain ⟨aceFlags, oldBody, rest⟩ := old
  -- only the length of the SIDs can have changed
  cases oldBody with
  | known =>
    cases body with
    | known =>
      refine iff_of_true ?_ rfl
      simp only [validBody, effectiveAce, Ace.aceSize, AceBody.size, AceBody.isMs,
        Sid.length, lengthSid, if_true, length_nil, Bool.and_eq_true,
        decide_eq_true_eq, longAligned_iff, sizeofKnownAce, sizeofUlong, sizeofSid]
      omega
    | _ => exact shape.elim
  | compound mask compoundAceType =>
    cases body with
    | compound mask' compoundAceType' =>
      obtain rfl : compoundAceType = compoundAceType' := shape
      simp only [validBody, Bool.and_eq_true, decide_eq_true_eq] at valid
      simp only [validBody, effectiveAce, Ace.aceSize, AceBody.size, AceBody.isMs,
        Sid.length, lengthSid, if_true, length_nil, Bool.and_eq_true,
        decide_eq_true_eq, longAligned_iff, sizeofKnownCompoundAce, sizeofUlong, sizeofSid,
        AceBody.sidTooShort, isEmpty_eq_false_iff, ← length_pos_iff]
      have type := valid.1.1.2
      have low := valid.1.1.1.1.1
      constructor
      · omega
      · intro long
        exact ⟨⟨⟨⟨⟨low, by omega⟩, by omega⟩, type⟩, by omega⟩, by omega⟩
    | _ => exact shape.elim
  | object kind mask otherFlags objectType inheritedObjectType =>
    cases body with
    | object =>
      obtain ⟨rfl, rfl, rfl⟩ := shape
      simp only [validBody, Bool.and_eq_true, decide_eq_true_eq] at valid
      have aligned : AceBody.guids objectType inheritedObjectType % 4 = 0 := by
        simp only [AceBody.guids, sizeofGuid]
        split <;> split <;> rfl
      simp only [validBody, effectiveAce, Ace.aceSize, AceBody.size, AceBody.isMs,
        Sid.length, lengthSid, if_true, length_nil, Bool.and_eq_true,
        decide_eq_true_eq, longAligned_iff, sizeofKnownObjectAce, sizeofUlong, sizeofSid,
        AceBody.sidTooShort, isEmpty_eq_false_iff, ← length_pos_iff]
      have low := valid.1.1.1.1
      constructor
      · omega
      · intro long
        exact ⟨⟨⟨⟨low, by omega⟩, by omega⟩, by omega⟩, by omega⟩
    | _ => exact shape.elim
  | unknown =>
    cases body with
    | unknown => exact iff_of_true rfl rfl
    | _ => exact shape.elim

theorem effectiveAce_parity (autoInherit : Bool)
    (valid : validBody revision old) (shape : SameShape old.body body) :
    (effectiveAce autoInherit old body).aceSize % 2 = old.aceSize % 2 := by
  cases ms : old.body.isMs with
  | false =>
    obtain ⟨aceFlags, oldBody, rest⟩ := old
    cases oldBody with
    | unknown =>
      cases body with
      | unknown => rfl
      | _ => exact shape.elim
    | _ => cases ms
  | true =>
    rw [even_of_validBody valid ms]
    simp only [Ace.aceSize, effectiveAce, ms, if_true, length_nil]
    cases body with
    | unknown => simp [AceBody.size, sizeofAceHeader]
    | _ =>
      simp only [AceBody.size, AceBody.guids, Sid.length, lengthSid, sizeofGuid]
      repeat' split
      all_goals omega

/-! ## Mapped copies -/

/-- What the options say for an ACE that is not inherited any more: the bit is not kept, and
was not there or is taken off. -/
structure Uninherits (options : CopyOptions) (old : Ace) : Prop where
  notRetained : options.retainInheritedAceBit = false
  off : old.inherited = false ∨ ~~~options.aceFlagsToReset &&& inheritedAce = 0

/-- The copies of an ACE: its effective form, or itself, with other flags. -/
inductive CopyOf (options : CopyOptions) (creator : Creator) (old : Ace) : Ace → Prop where
  | effective {effective : Effective} {body : AceBody} (applies : old.inheritOnly = false)
      (form : effectiveForm options.genericMapping creator (options.generatesInheritAce old) none
        old.body = .ok effective) (kept : effective.body = some body) (aceFlags : AceFlags) :
      CopyOf options creator old { effectiveAce false old body with aceFlags }
  | inheritable (aceFlags : AceFlags) : CopyOf options creator old { old with aceFlags }

variable {options : CopyOptions} {copy : Ace}

theorem mem_withInheritable {ace : Option Ace} {mapped : Bool}
    (mem : copy ∈ withInheritable options old ace mapped) :
    (∃ a, ace = some a ∧ copy = options.reset a) ∨
      (∃ a, ace = some a ∧ copy = options.reset { options.reset a with
        aceFlags := (options.reset a).aceFlags ||| (old.aceFlags &&& validInheritFlags) }) ∨
      copy = options.reset { old with aceFlags := old.aceFlags ||| inheritOnlyAce } := by
  have changed {change : Ace → Ace} (mem : copy ∈ (ace.map change).toList) :
      ∃ a, ace = some a ∧ copy = change a := by
    obtain ⟨a, some, rfl⟩ := Option.map_eq_some_iff.mp (Option.mem_toList.mp mem)
    exact ⟨a, some, rfl⟩
  unfold withInheritable at mem
  split at mem
  · split at mem
    · exact .inr (.inl (changed mem))
    · split at mem
      · rcases mem_append.mp mem with mem | mem
        · exact .inl (changed mem)
        · exact .inr (.inr (mem_singleton.mp mem))
      · exact .inl (changed mem)
  · exact .inl (changed mem)

variable {new : List Ace}

section Copied

variable (copied : mappedCopies options creator old = .ok new)

include copied

/-- The effective part of the copies. -/
theorem mappedCopies_ok : ∃ ace mapped, new = withInheritable options old ace mapped ∧
      ((old.inheritOnly ∧ ace = none) ∨ (old.inheritOnly = false ∧ ∃ effective,
        effectiveForm options.genericMapping creator (options.generatesInheritAce old) none
          old.body = .ok effective ∧ mapped = effective.effectiveAceMapped ∧
        ace = effective.body.map
          (effectiveAce (options.retainInheritedAceBit && old.inherited) old))) := by
  unfold mappedCopies at copied
  split at copied
  · next only =>
    cases copied
    exact ⟨none, false, rfl, .inl ⟨only, rfl⟩⟩
  · next only =>
    obtain ⟨effective, form, copied⟩ := bind_eq_ok.mp copied
    cases copied
    exact ⟨_, _, rfl, .inr ⟨by simpa using only, effective, form, rfl, rfl⟩⟩

theorem copyOf_of_mem (mem : copy ∈ new) : CopyOf options creator old copy := by
  obtain ⟨ace, mapped, rfl, source⟩ := mappedCopies_ok copied
  have fromEffective : ∀ a, ace = some a → ∃ effective body, old.inheritOnly = false ∧
      effectiveForm options.genericMapping creator (options.generatesInheritAce old) none
        old.body = .ok effective ∧ effective.body = some body ∧
      a = { effectiveAce false old body with aceFlags := a.aceFlags } := by
    rintro a rfl
    rcases source with ⟨-, none⟩ | ⟨applies, effective, form, -, some⟩
    · cases none
    · obtain ⟨body, kept, rfl⟩ := Option.map_eq_some_iff.mp some.symm
      exact ⟨effective, body, applies, form, kept, rfl⟩
  rcases mem_withInheritable mem with ⟨a, some, rfl⟩ | ⟨a, some, rfl⟩ | rfl
  · obtain ⟨effective, body, applies, form, kept, eq⟩ := fromEffective a some
    rw [eq]
    exact .effective applies form kept _
  · obtain ⟨effective, body, applies, form, kept, eq⟩ := fromEffective a some
    rw [eq]
    exact .effective applies form kept _
  · exact .inheritable _

theorem not_inherited_of_mem (uninherits : Uninherits options old) (mem : copy ∈ new) :
    copy.inherited = false := by
  have reset : ∀ ace : Ace, (old.inherited = false → ace.inherited = false) →
      (options.reset ace).inherited = false := by
    intro ace off
    rcases uninherits.off with was | cleared
    · exact flagOn_and (off was)
    · exact flagOn_cleared cleared
  obtain ⟨ace, mapped, rfl, source⟩ := mappedCopies_ok copied
  have effective : ∀ a, ace = some a → a.inherited = false := by
    rintro a rfl
    rcases source with ⟨-, none⟩ | ⟨-, form, -, -, some⟩
    · cases none
    · obtain ⟨body, -, rfl⟩ := Option.map_eq_some_iff.mp some.symm
      rw [uninherits.notRetained]
      simp only [Ace.inherited, effectiveAce, Bool.false_and, Bool.false_eq_true, if_false,
        flagOn_or_left]
      rw [flagOn_cleared (by decide)]
      rfl
  rcases mem_withInheritable mem with ⟨a, some, rfl⟩ | ⟨a, some, rfl⟩ | rfl
  · exact reset a fun _ => effective a some
  · refine reset _ fun was => ?_
    have base := reset a fun _ => effective a some
    simp only [Ace.inherited] at base was ⊢
    rw [flagOn_or_left, base, flagOn_and was]
    rfl
  · refine reset _ fun was => ?_
    simp only [Ace.inherited] at was ⊢
    rw [flagOn_or_left, was]
    rfl

end Copied

theorem CopyOf.parity (copyOf : CopyOf options creator old copy) (valid : validBody revision old) :
    copy.aceSize % 2 = old.aceSize % 2 := by
  cases copyOf with
  | effective applies form kept =>
    exact effectiveAce_parity false valid (effectiveForm_shape form kept)
  | inheritable => rfl

/-- An ACE of an unknown type has one copy at most. -/
theorem length_mappedCopies_le (copied : mappedCopies options creator old = .ok new)
    (unknown : old.body.isMs = false) :
    new.length ≤ 1 := by
  obtain ⟨ace, mapped, rfl, source⟩ := mappedCopies_ok copied
  have short : ∀ change : Ace → Ace, (ace.map change).toList.length ≤ 1 := by
    cases ace <;> simp
  unfold withInheritable
  split
  · split
    · exact short _
    · next apart =>
      rcases source with ⟨-, rfl⟩ | ⟨-, effective, form, rfl, rfl⟩
      · split <;> simp
      · simp only [effectiveForm, unknown] at form
        cases form
        exact absurd ⟨rfl, by simp⟩ apart
  · exact short _

/-! ## Copies of a list -/

variable {aces new : List Ace}

theorem copies_mapped (sids : options.mapSids = some creator)
    (copied : copies options old = .ok new) :
    (options.aceTypeToCopy.selects old ∧ mappedCopies options creator old = .ok new) ∨
      (options.aceTypeToCopy.selects old = false ∧ new = []) := by
  unfold copies at copied
  split at copied
  · next selected =>
    rw [sids] at copied
    exact .inl ⟨selected, copied⟩
  · next selected =>
    cases copied
    exact .inr ⟨by simpa using selected, rfl⟩

theorem copies_parity (sids : options.mapSids = some creator)
    (copied : copies options old = .ok new) (valid : validBody revision old)
    (mem : copy ∈ new) : copy.aceSize % 2 = old.aceSize % 2 := by
  rcases copies_mapped sids copied with ⟨-, mapped⟩ | ⟨-, rfl⟩
  · exact (copyOf_of_mem mapped mem).parity valid
  · cases mem

theorem copiesOfAll_cons (copied : copiesOfAll options (old :: aces) = .ok new) :
    ∃ first others, copies options old = .ok first ∧ copiesOfAll options aces = .ok others ∧
      new = first ++ others := by
  obtain ⟨first, head, copied⟩ := bind_eq_ok.mp copied
  obtain ⟨others, tail, copied⟩ := bind_eq_ok.mp copied
  cases copied
  exact ⟨first, others, head, tail, rfl⟩

/-- Every copy is one of an ACE of the list. -/
theorem exists_of_mem_copiesOfAll (copied : copiesOfAll options aces = .ok new) (mem : copy ∈ new) :
    ∃ old ∈ aces, ∃ part, copies options old = .ok part ∧ copy ∈ part := by
  induction aces generalizing new with
  | nil =>
    cases copied
    cases mem
  | cons old aces ih =>
    obtain ⟨first, others, head, tail, rfl⟩ := copiesOfAll_cons copied
    rcases mem_append.mp mem with mem | mem
    · exact ⟨old, by simp, first, head, mem⟩
    · obtain ⟨other, otherMem, part, copiedPart, memPart⟩ := ih tail mem
      exact ⟨other, by simp [otherMem], part, copiedPart, memPart⟩

/-- Every ACE of the list has its copies among those of the list. -/
theorem copies_of_copiesOfAll (copied : copiesOfAll options aces = .ok new) (mem : old ∈ aces) :
    ∃ part, copies options old = .ok part ∧ ∀ copy ∈ part, copy ∈ new := by
  induction aces generalizing new with
  | nil => cases mem
  | cons other aces ih =>
    obtain ⟨first, others, head, tail, rfl⟩ := copiesOfAll_cons copied
    rcases mem_cons.mp mem with rfl | mem
    · exact ⟨first, head, fun copy memFirst => mem_append_left others memFirst⟩
    · obtain ⟨part, copiedPart, within⟩ := ih tail mem
      exact ⟨part, copiedPart, fun copy memPart => mem_append_right first (within copy memPart)⟩

theorem evenPlaces_copiesOfAll (sids : options.mapSids = some creator)
    (copied : copiesOfAll options aces = .ok new) (places : EvenPlaces aces)
    (bodies : ∀ ace ∈ aces, validBody revision ace) : EvenPlaces new := by
  induction aces generalizing new with
  | nil =>
    cases copied
    exact .nil
  | cons old aces ih =>
    obtain ⟨first, others, head, tail, rfl⟩ := copiesOfAll_cons copied
    obtain ⟨even, places⟩ := pairwise_cons.mp places
    have valid := bodies old (by simp)
    have parity : ∀ copy ∈ first, copy.aceSize % 2 = old.aceSize % 2 :=
      fun _ => copies_parity sids head valid
    refine pairwise_append.mpr
      ⟨?_, ih tail places fun ace mem => bodies ace (by simp [mem]), fun copy mem next memNext => ?_⟩
    · by_cases odd : old.aceSize % 2 = 0
      · -- Every copy is of even size.
        refine .imp_of_mem (fun mem _ _ => (parity _ mem).trans odd)
          (pairwise_of_forall fun _ _ => trivial)
      · -- Only an ACE of an unknown type is of odd size, and it has one copy.
        have unknown : old.body.isMs = false := by
          by_contra ms
          exact odd (even_of_validBody valid (by simpa using ms))
        have short : first.length ≤ 1 := by
          rcases copies_mapped sids head with ⟨-, mapped⟩ | ⟨-, rfl⟩
          · exact length_mappedCopies_le mapped unknown
          · simp
        match first, short with
        | [], _ => exact .nil
        | [_], _ => exact pairwise_singleton _ _
    · obtain ⟨following, memFollowing, -⟩ := exists_of_mem_copiesOfAll tail memNext
      exact (parity copy mem).trans (even following memFollowing)

end Ntoskrnl.Rtl.Security
