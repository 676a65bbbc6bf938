/-
# Ntoskrnl.Se.AccessCheck.FastTraverse -- the shortcut for traverse access

`SeFastTraverseCheck` looks for an ACE that allows the access to everyone before any ACE that
denies it to anyone, so that the token need not be looked at.  It does not look at the
denials of object ACEs, which the full check applies even where the caller has no type list.
-/
import Ntoskrnl.Se.AccessCheck.FirstMatch

namespace Ntoskrnl.Se.AccessCheck

set_option autoImplicit false

open TypeList Base Request Sample

/-- `SeWorldSid`, S-1-1-0. -/
def seWorldSid : Sid := ⟨1, 1, [0]⟩

/-- The loop of `SeFastTraverseCheck`; everyone includes the anonymous user. -/
def traverseLoop (traverseAccess : AccessMask) : List Ace → Bool
  | [] => false
  | ace :: rest =>
    if ace.inheritOnly then traverseLoop traverseAccess rest
    else
      match ace.type with
      | .accessAllowed sid =>
        if traverseAccess &&& ace.mask ≠ 0 ∧ sid = seWorldSid then true
        else traverseLoop traverseAccess rest
      | .accessDenied _ =>
        if traverseAccess &&& ace.mask ≠ 0 then false else traverseLoop traverseAccess rest
      | _ => traverseLoop traverseAccess rest

/-- `tokenIsRestricted` is the flag of the access state. -/
def seFastTraverseCheck (securityDescriptor : Option SecurityDescriptor) (tokenIsRestricted : Bool)
    (traverseAccess : AccessMask) : Bool :=
  match securityDescriptor with
  | none => false
  | some securityDescriptor =>
    match securityDescriptor.daclPresent, securityDescriptor.dacl with
    | false, _ | true, none => true
    | true, some dacl =>
      if dacl = [] then false
      else if tokenIsRestricted then false
      else traverseLoop traverseAccess dacl

/-- The ACE allows or denies the bit to the token. -/
def Pass.decides (pass : Pass) (k : Nat) (ace : Ace) : Bool :=
  (pass.effect false false ace).any (·.mask.getLsbD k)

def Ace.IsObjectDenial (ace : Ace) : Prop :=
  match ace.type with
  | .accessDeniedObject _ _ => True
  | _ => False

variable {dacl : List Ace}

section Loop

variable {pass : Pass} {ace : Ace} {k : Nat}

theorem twoPow_and {mask : AccessMask} (word : k < 32) :
    BitVec.twoPow 32 k &&& mask ≠ 0 ↔ mask.getLsbD k := by
  rw [mask_ne_zero]
  simp only [BitVec.getLsbD_and, BitVec.getLsbD_twoPow, Bool.and_eq_true, decide_eq_true_eq]
  exact ⟨fun ⟨_, ⟨_, same⟩, bit⟩ => same ▸ bit, fun bit => ⟨k, ⟨word, rfl⟩, bit⟩⟩

theorem decides_iff : pass.decides k ace ↔
    ace.mask.getLsbD k ∧ ∃ effect, pass.effect false false ace = some effect := by
  rw [Pass.decides, Option.any_eq_true]
  constructor
  · rintro ⟨effect, found, bit⟩
    exact ⟨(Pass.effect_spec found).2.1 ▸ bit, effect, found⟩
  · rintro ⟨bit, effect, found⟩
    exact ⟨effect, found, (Pass.effect_spec found).2.1.symm ▸ bit⟩

/-- Where the shortcut says yes, some ACE decides the bit, and the first one that does is an
allow ACE or the denial of an object ACE. -/
theorem traverseLoop_first (self : pass.principalSelfSid = none) (word : k < 32)
    (world : sepSidInTokenEx pass.eToken none seWorldSid false false)
    (fast : traverseLoop (BitVec.twoPow 32 k) dacl) :
    ∃ ace, dacl.find? (pass.decides k) = some ace ∧ (ace.IsAllow ↔ ¬ ace.IsObjectDenial) := by
  induction dacl with
  | nil => cases fast
  | cons ace rest ih =>
    rw [traverseLoop] at fast
    simp only [twoPow_and word] at fast
    by_cases decides : pass.decides k ace
    · obtain ⟨bit, effect, found⟩ := decides_iff.mp decides
      obtain ⟨here, -, -, kind⟩ := Pass.effect_spec found
      unfold Ace.IsAllow Ace.IsObjectDenial
      cases type : ace.type <;> simp_all
    · rw [List.find?_cons_of_neg decides]
      -- an ACE for everyone has an effect
      by_contra not
      rw [decides_iff] at decides
      unfold Pass.effect at decides
      cases type : ace.type <;> simp_all

/-- On a list of one entry an effect reaches the bits of its mask. -/
theorem allows_iff_first (one : pass.localTypeList.length = 1) :
    Allows pass.localTypeList (pass.effects false false dacl) 0 k ↔
      ∃ ace, dacl.find? (pass.decides k) = some ace ∧ ace.IsAllow := by
  have hits {ace : Ace} : (pass.effect false false ace).any (Effect.hits pass.localTypeList 0 k) =
      pass.decides k ace := by
    cases found : pass.effect false false ace with
    | none => simp [Pass.decides, found]
    | some effect =>
      have inside := Pass.effect_inside found
      have start : effect.start = 0 := by omega
      simp [Pass.decides, found, Effect.hits, Covers, start]
  simp [allows_iff_find, hits]

end Loop

section Check

variable {simple : SimpleRequest} {subject : Subject} {securityDescriptor : SecurityDescriptor}
  {desired previously : AccessMask}

/-- An object without a DACL is open to everyone. -/
theorem checkRest_noDacl
    (open' : securityDescriptor.daclPresent = false ∨ securityDescriptor.dacl = none)
    (noMaximum : desired &&& maximumAllowed = 0) (noSystem : desired &&& accessSystemSecurity = 0)
    (nonzero : desired ≠ 0) :
    (simple.checkRest subject securityDescriptor desired previously).granted := by
  have some : previously ||| desired ≠ 0 := fun none => nonzero (BitVec.or_eq_zero_iff.mp none).2
  have verdict : sepAccessCheck (simple.request securityDescriptor desired previously) subject =
      ⟨true, [.success], [previously ||| desired], true, false⟩ := by
    have success : (simple.request securityDescriptor desired previously).returnOneStatus .success
        (previously ||| desired) 0 = _ := returnOneStatus_success rfl some
    rw [← success]
    simp only [sepAccessCheck, checkDacl, SimpleRequest.request, noSystem, noMaximum]
    rcases open' with absent | absent
    · simp [absent]
    · cases securityDescriptor.daclPresent <;> simp [absent]
  rw [SimpleRequest.checkRest, if_neg nonzero, verdict]
  rfl

/-- What privileges grant is granted if there is pool to say which were used. -/
theorem checkRest_privileged {granted : AccessMask} {count : Nat} (nonzero : desired ≠ 0)
    (some : granted ≠ 0) (used : 0 < count)
    (verdict : sepAccessCheck (simple.request securityDescriptor desired previously) subject =
      (simple.request securityDescriptor desired previously).returnOneStatus .success granted count) :
    (simple.checkRest subject securityDescriptor desired previously).granted ↔
      (simple.privileges → simple.poolAvailable) := by
  rw [SimpleRequest.checkRest, if_neg nonzero, verdict]
  simp only [returnOneStatus, some, and_false, if_false, used, true_and, assembleFails,
    SimpleRequest.request]
  cases simple.privileges <;> cases simple.poolAvailable <;> simp [NtStatus.ntSuccess_success]

/-- `ACCESS_SYSTEM_SECURITY` takes the security privilege. -/
theorem checkRest_system (mode : simple.accessMode = .userMode)
    (system : desired = accessSystemSecurity) :
    (simple.checkRest subject securityDescriptor desired previously).granted ↔
      subject.effectiveToken.seSecurityPrivilege ∧ (simple.privileges → simple.poolAvailable) := by
  subst system
  cases held : subject.effectiveToken.seSecurityPrivilege with
  | false =>
    simp [SimpleRequest.checkRest, sepAccessCheck, SimpleRequest.request, mode,
      sepSinglePrivilegeCheck, held, returnOneStatus, accessSystemSecurity, NtStatus.ntSuccess,
      NtStatus.code]
  | true =>
    have some : previously ||| accessSystemSecurity ≠ 0 := fun none =>
      absurd (BitVec.or_eq_zero_iff.mp none).2 (by decide)
    rw [checkRest_privileged (by decide) some Nat.one_pos (by
      simp [sepAccessCheck, SimpleRequest.request, sepSinglePrivilegeCheck, held,
        accessSystemSecurity])]
    simp

/-- `WRITE_OWNER` is granted by the take-ownership privilege. -/
theorem checkRest_takeOwnership (present : securityDescriptor.daclPresent)
    (acl : securityDescriptor.dacl = some dacl) (owner : desired = writeOwner)
    (place : simple.privileges) (held : subject.effectiveToken.seTakeOwnershipPrivilege) :
    (simple.checkRest subject securityDescriptor desired previously).granted ↔
      simple.poolAvailable := by
  subst owner
  have some : previously ||| writeOwner ≠ 0 := fun none =>
    absurd (BitVec.or_eq_zero_iff.mp none).2 (by decide)
  rw [checkRest_privileged (by decide) some Nat.one_pos (by
    simp [sepAccessCheck, checkDacl, SimpleRequest.request, sepSinglePrivilegeCheck, held, place,
      present, acl, writeOwner, accessSystemSecurity])]
  simp [place]

/-- One bit is granted exactly if the first ACE that decides it is an allow ACE. -/
theorem permitted_twoPow {k : Nat} (unrestricted : subject.effectiveToken.isRestricted = false)
    (word : k < 32) (single : desired = BitVec.twoPow 32 k) :
    (simple.request securityDescriptor desired previously).Permitted subject dacl desired ↔
      ∃ ace, dacl.find? (((simple.request securityDescriptor 0 0).pass subject).decides k) =
        some ace ∧ ace.IsAllow := by
  have one : ((simple.request securityDescriptor 0 0).pass subject).localTypeList.length = 1 := rfl
  rw [← allows_iff_first one]
  unfold Permitted Pass.Permits
  simp only [unrestricted, Bool.false_eq_true, IsEmpty.forall_iff, and_true, single,
    BitVec.getLsbD_twoPow, word, decide_true, Bool.true_and, decide_eq_true_eq, forall_eq']
  exact ⟨fun all => all 0 ((leaf_length_one one).mpr rfl), fun allows j leaf =>
    (leaf_length_one one).mp leaf ▸ allows⟩

end Check

/-- **The shortcut is sound where object ACEs deny nothing.**  Where it says yes for one bit that
is not `MAXIMUM_ALLOWED`, a user-mode `SeAccessCheck` for a token that is not restricted and has
everyone among its groups grants the bit exactly if the caller may act for its client and a
privilege grants it, there is no DACL, ownership covers the bit, or the first ACE that decides the
bit is not the denial of an object ACE. -/
theorem seFastTraverseCheck_sound_iff (simple : SimpleRequest) (subject : Subject)
    (securityDescriptor : SecurityDescriptor) (k : Nat) (word : k < 32)
    (desired : simple.desiredAccess = BitVec.twoPow 32 k)
    (mode : simple.accessMode = .userMode)
    (descriptor : simple.securityDescriptor = some securityDescriptor)
    (unrestricted : subject.effectiveToken.isRestricted = false)
    (world : sepSidInTokenEx subject.effectiveToken none seWorldSid false false)
    (noMaximum : simple.desiredAccess &&& maximumAllowed = 0)
    (fast : seFastTraverseCheck (some securityDescriptor) false simple.desiredAccess) :
    (seAccessCheck simple subject).granted ↔
      ¬ (subject.clientToken.isSome ∧ simple.impersonationLevel.belowImpersonation) ∧
      if simple.desiredAccess = accessSystemSecurity then
        subject.effectiveToken.seSecurityPrivilege ∧ (simple.privileges → simple.poolAvailable)
      else simple.desiredAccess &&& ownerCovered subject.effectiveToken securityDescriptor = 0 →
        ∀ dacl, securityDescriptor.daclPresent → securityDescriptor.dacl = some dacl →
          if simple.desiredAccess = writeOwner ∧ simple.privileges ∧
              subject.effectiveToken.seTakeOwnershipPrivilege then simple.poolAvailable
          else ∀ ace, dacl.find? (((simple.request securityDescriptor 0 0).pass subject).decides k) =
            some ace → ¬ ace.IsObjectDenial := by
  have single (mask : AccessMask) : simple.desiredAccess &&& mask = 0 ↔ mask.getLsbD k = false := by
    rw [← not_iff_not, Bool.not_eq_false, desired]
    exact twoPow_and word
  have other {m : Nat} (not : simple.desiredAccess ≠ BitVec.twoPow 32 m) :
      simple.desiredAccess &&& BitVec.twoPow 32 m = 0 := by
    rw [single, BitVec.getLsbD_twoPow, Bool.and_eq_false_iff]
    exact .inr (decide_eq_false fun same => not (same ▸ desired))
  have nonzero : simple.desiredAccess ≠ 0 := by
    rw [desired]
    exact mask_ne_zero.mpr ⟨k, by simp [word]⟩
  by_cases mayAct : subject.clientToken.isSome ∧ simple.impersonationLevel.belowImpersonation
  · simp [seAccessCheck, mode, descriptor, mayAct]
  rw [seAccessCheck_fixed mode descriptor mayAct noMaximum nonzero, and_iff_right mayAct]
  by_cases covered :
      simple.desiredAccess &&& ownerCovered subject.effectiveToken securityDescriptor = 0
  · rw [and_not_of_zero covered, covered]
    split
    · next system => exact checkRest_system mode system
    next notSystem =>
    have noSystem : simple.desiredAccess &&& accessSystemSecurity = 0 :=
      other (m := 24) notSystem
    rw [forall_prop_of_true rfl]
    cases present : securityDescriptor.daclPresent with
    | false => exact iff_of_true (checkRest_noDacl (.inl present) noMaximum noSystem nonzero) (by simp)
    | true =>
      cases acl : securityDescriptor.dacl with
      | none => exact iff_of_true (checkRest_noDacl (.inr acl) noMaximum noSystem nonzero) (by simp)
      | some dacl =>
        simp only [true_imp_iff, Option.some.injEq, forall_eq']
        split
        · next taken => exact checkRest_takeOwnership present acl taken.1 taken.2.1 taken.2.2
        next notTaken =>
        have noOwner : ¬ (simple.desiredAccess &&& writeOwner ≠ 0 ∧ simple.privileges ∧
            subject.effectiveToken.seTakeOwnershipPrivilege) := fun taken =>
          notTaken ⟨by_contra fun not => taken.1 (other (m := 19) not), taken.2⟩
        have loop : traverseLoop (BitVec.twoPow 32 k) dacl := by
          simp only [seFastTraverseCheck, present, acl, Bool.false_eq_true, if_false, desired] at fast
          split at fast
          · cases fast
          · exact fast
        obtain ⟨ace, first, kind⟩ :=
          @traverseLoop_first dacl ((simple.request securityDescriptor 0 0).pass subject) k rfl word
            world loop
        obtain ⟨granted, refused⟩ := checkRest_cases simple.desiredAccess
          (simple.previouslyGrantedAccess ||| 0) mode present acl noMaximum noSystem noOwner
        rw [permitted_twoPow unrestricted word desired] at granted refused
        simp only [first, Option.some.injEq, forall_eq', ← kind]
        by_cases allow : ace.IsAllow
        · rw [granted ⟨ace, first, allow⟩]
          exact iff_of_true rfl allow
        · rw [refused fun ⟨_, first', allow'⟩ => allow (Option.some.inj (first.symm.trans first') ▸ allow')]
          exact iff_of_false Bool.false_ne_true allow
  · -- the owner has the bit without an ACE
    have rest : simple.desiredAccess &&&
        ~~~ownerCovered subject.effectiveToken securityDescriptor = 0 := by
      rw [single, Bool.not_eq_false] at covered
      rw [single, BitVec.getLsbD_not, covered]
      simp
    have notSystem : simple.desiredAccess ≠ accessSystemSecurity := fun system => covered (by
      rw [system, ownerCovered]
      split <;> decide)
    rw [rest, SimpleRequest.checkRest, if_pos rfl, if_neg notSystem]
    exact iff_of_true rfl (absurd · covered)

/-- The sample user, with everyone among its groups. -/
def Sample.worldToken : Token :=
  ⟨[⟨user, seGroupEnabled⟩, ⟨seWorldSid, seGroupEnabled⟩], [], false, false, false⟩

def Sample.worldAce : Ace := ⟨false, 32, .accessAllowed seWorldSid⟩

theorem seFastTraverseCheck_sound_worldAce :
    seFastTraverseCheck (some ⟨service, true, some [worldAce]⟩) false 32 ∧
      (seAccessCheck (simple [worldAce] service 32 0) ⟨worldToken, none⟩).granted := by
  refine ⟨by decide, (seFastTraverseCheck_sound_iff (simple [worldAce] service 32 0)
    ⟨worldToken, none⟩ ⟨service, true, some [worldAce]⟩ 5 (by decide) rfl rfl rfl rfl (by decide)
    (by decide) (by decide)).mpr ⟨by decide, ?_⟩⟩
  rw [if_neg (by decide)]
  intro _ dacl _ acl
  obtain rfl := Option.some.inj acl
  rw [if_neg (by decide)]
  intro ace first
  obtain rfl := List.mem_singleton.mp (List.mem_of_find?_eq_some first)
  exact id

/-- An object ACE that denies the bit to the user stands before the ACE for everyone. -/
theorem seFastTraverseCheck_objectDenial :
    let dacl := [⟨false, 32, .accessDeniedObject none user⟩, worldAce]
    seFastTraverseCheck (some ⟨service, true, some dacl⟩) false 32 ∧
      sepSidInTokenEx worldToken none seWorldSid false false ∧
      (seAccessCheck (simple dacl service 32 0) ⟨worldToken, none⟩).granted = false := by
  decide +kernel

end Ntoskrnl.Se.AccessCheck
