/-
# Ntoskrnl.Se.AccessCheck.DenyOnly -- SIDs carried for denials only

A filtered token carries SIDs that must not give it anything.  No ACE does.  Ownership is
tested by another routine, which takes the first SID of the token for its user and does not
look at the attributes: a token whose user is deny-only owns the objects of that user.  The
theorem says exactly when such a token gets something.
-/
import Ntoskrnl.Se.AccessCheck.FirstMatch

namespace Ntoskrnl.Se.AccessCheck

set_option autoImplicit false

open TypeList Base Request

/-- The SID is not in the token, or only for denials. -/
def Inert (token : Token) (sid : Sid) : Prop :=
  ∀ entry ∈ token.userAndGroups, entry.sid = sid → entry.DenyOnly ∧ ¬ entry.Enabled

/-- The SID an allow ACE gives access to; of a compound ACE it is the client's. -/
def Ace.grantee (ace : Ace) : Option Sid :=
  match ace.type with
  | .accessAllowed sid | .accessAllowedObject _ sid | .accessAllowedCompound sid _ => some sid
  | .accessDenied _ | .accessDeniedObject _ _ | .other => none

/-- Every allow ACE names an inert SID. -/
def InertDacl (token : Token) (dacl : List Ace) : Prop :=
  ∀ ace ∈ dacl, ∀ sid, ace.grantee = some sid → Inert token sid

variable {sid : Sid} {token : Token}

theorem Inert.not_in_token (inert : Inert token sid) :
    sepSidInTokenEx token none sid false false = false := by
  rw [← Bool.not_eq_true, sepSidInTokenEx_iff]
  rintro ⟨i, entry, at', here, -, counts⟩
  obtain ⟨denyOnly, disabled⟩ := inert entry (List.mem_of_getElem? at') here
  rcases counts with enabled | ⟨deny, -⟩ | ⟨-, -, allowed⟩
  · exact disabled enabled
  · cases deny
  · exact allowed denyOnly

/-- The test for ownership finds an inert SID exactly if it is the first one. -/
theorem Inert.owner_iff (inert : Inert token sid) : sepSidInToken token none sid false ↔
      ∃ user, token.userAndGroups.head? = some user ∧ user.sid = sid := by
  rw [sepSidInToken, sidLoop_iff]
  simp only [principal, Nat.zero_add, decide_eq_true_eq, Bool.false_eq_true, false_and, or_false]
  constructor
  · rintro ⟨i, entry, at', here, -, rfl | enabled⟩
    · exact ⟨entry, by rwa [List.head?_eq_getElem?], here⟩
    · exact absurd enabled (inert entry (List.mem_of_getElem? at') here).2
  · rintro ⟨user, first, here⟩
    refine ⟨0, user, by rwa [← List.head?_eq_getElem?], here, ?_, .inl rfl⟩
    exact fun i' less => absurd less (Nat.not_lt_zero _)

variable {subject : Subject}

section Inert

variable {pass : Pass} {dacl : List Ace}

section Pass

variable (self : pass.principalSelfSid = none) (inert : InertDacl pass.eToken dacl)

include self inert

/-- In the pass for the user and the groups nothing is allowed. -/
theorem inert_effect {ace : Ace} (member : ace ∈ dacl) {effect : Effect}
    (found : pass.effect false false ace = some effect) : effect.allow = false := by
  have refused (sid : Sid) (named : ace.grantee = some sid) :
      sepSidInTokenEx pass.eToken none sid false false = false :=
    (inert ace member sid named).not_in_token
  have kind := (Pass.effect_spec found).2.2.2
  unfold Ace.grantee at refused
  cases type : ace.type <;> simp_all

theorem inert_not_allows (j k : Nat) :
    ¬ Allows pass.localTypeList (pass.effects false false dacl) j k := by
  rintro ⟨effect, found, allow⟩
  obtain ⟨ace, member, here⟩ := List.mem_filterMap.mp (List.mem_of_find?_eq_some found)
  rw [inert_effect self inert member here] at allow
  cases allow

theorem inert_not_permits (given : pass.listGiven = false) (wellFormed : pass.WellFormed)
    {mask : AccessMask} (some : mask ≠ 0) : ¬ pass.Permits false false dacl mask := by
  obtain ⟨k, bit⟩ := mask_ne_zero.mp some
  intro permits
  exact inert_not_allows self inert 0 k
    (permits 0 ((leaf_length_one (wellFormed given)).mpr rfl) k bit)

end Pass

/-- Neither pass of the maximum check grants anything. -/
theorem inert_maximum {request : Request} (self : request.principalSelfSid = none)
    (list : request.objectTypeList = none) (inert : InertDacl subject.effectiveToken dacl) :
    (request.maximumAccess subject dacl 0).currentGranted = 0 := by
  have one : (request.pass subject).localTypeList.length = 1 :=
    pass_wellFormed (by simp [Request.pass, list])
  have leaf : (request.pass subject).localTypeList.Leaf 0 := (leaf_length_one one).mpr rfl
  have group (k : Nat) : ((request.pass subject).groupAccess dacl 0).currentGranted.getLsbD k ≠ true :=
    fun bit => inert_not_allows self inert 0 k ((Pass.groupAccess_leaf pass_wellFormed leaf).mp bit)
  refine mask_ext fun k => iff_of_false ?_ (by simp)
  unfold maximumAccess
  split
  · intro bit
    exact group k ((Pass.restricted_granted pass_wellFormed (steady_length_one one _)).mp bit).2
  · exact group k

end Inert

/-! ## The verdict -/

/-- The caller is refused and is left with no bits. -/
def SimpleVerdict.NoAccess (verdict : SimpleVerdict) : Prop :=
  verdict.granted = false ∧ verdict.grantedAccess.getD 0 = 0

theorem maximumAllowed_bit {k : Nat} : maximumAllowed.getLsbD k ↔ k = 25 := by
  have single : maximumAllowed = BitVec.twoPow 32 25 := by decide
  rw [single]
  simp [eq_comm]

theorem returnOneStatus_refused (request : Request) (one : request.returnResultList = false)
    {status : NtStatus} (failed : status = .success ∨ status.ntSuccess = false) :
    (request.returnOneStatus status 0 0).someAccessGranted = false ∧
      (request.returnOneStatus status 0 0).grantedAccess = [0] := by
  rcases failed with rfl | failed
  · simp [returnOneStatus, one, NtStatus.ntSuccess, NtStatus.code]
  · have other : status ≠ .success := by
      rintro rfl
      cases failed
    simp [returnOneStatus, one, other, failed]

section Verdict

variable {simple : SimpleRequest} {securityDescriptor : SecurityDescriptor} {dacl : List Ace}
  {desired previously : AccessMask}

theorem and_maximum_eq (none : desired &&& ~~~maximumAllowed = 0)
    (asked : desired &&& maximumAllowed ≠ 0) : desired = maximumAllowed := by
  refine mask_ext fun k => ⟨within_iff.mp none k, fun bit => ?_⟩
  obtain ⟨k', bits⟩ := mask_ne_zero.mp asked
  rw [BitVec.getLsbD_and, Bool.and_eq_true, maximumAllowed_bit] at bits
  rw [maximumAllowed_bit.mp bit, ← bits.2]
  exact bits.1

section Inert

variable (inert : InertDacl subject.effectiveToken dacl)
  (noSecurity : subject.effectiveToken.seSecurityPrivilege = false)
  (noTake : subject.effectiveToken.seTakeOwnershipPrivilege = false)

include inert noSecurity noTake

/-- What the ACEs leave of a request: a caller who was granted something before and asks for
the maximum alone keeps it, and any other one is refused. -/
theorem sepAccessCheck_inert (request : Request) (mode : request.previousMode = .userMode)
    (has : request.HasDacl dacl) (self : request.principalSelfSid = none)
    (list : request.objectTypeList = none) (one : request.returnResultList = false)
    (some : request.desiredAccess ≠ 0) :
    (request.desiredAccess = maximumAllowed ∧ request.previouslyGrantedAccess ≠ 0 →
      sepAccessCheck request subject =
        request.returnOneStatus .success request.previouslyGrantedAccess 0) ∧
    (¬ (request.desiredAccess = maximumAllowed ∧ request.previouslyGrantedAccess ≠ 0) →
      ∃ status, (status = .success ∨ status.ntSuccess = false) ∧
        sepAccessCheck request subject = request.returnOneStatus status 0 0) := by
  by_cases system : request.desiredAccess &&& accessSystemSecurity = 0
  · have noPrivilege : request.NoPrivilege subject := by
      refine ⟨system, fun ⟨_, _, held⟩ => ?_⟩
      rw [mode, noTake] at held
      cases held
    rw [sepAccessCheck_aces has noPrivilege]
    unfold checkAces
    by_cases empty : dacl = []
    · rw [if_pos empty]
      exact ⟨fun keeps => if_pos keeps, fun loses => ⟨.accessDenied, .inr rfl, if_neg loses⟩⟩
    · rw [if_neg empty]
      by_cases maximum : request.desiredAccess &&& maximumAllowed = 0
      · have notMaximum : request.desiredAccess ≠ maximumAllowed := by
          intro same
          rw [same] at maximum
          exact absurd maximum (by decide)
        have normal := (checkAces_normal subject maximum one empty
          request.desiredAccess request.previouslyGrantedAccess 0).2 fun permitted =>
            inert_not_permits self inert (by simp [Request.pass, list]) pass_wellFormed some permitted.1
        rw [checkAces, if_neg empty] at normal
        exact ⟨fun keeps => absurd keeps.1 notMaximum, fun _ => ⟨.accessDenied, .inr rfl, normal⟩⟩
      · rw [if_pos (.inl maximum)]
        simp only [one, Bool.false_eq_true, if_false, inert_maximum self list inert]
        rw [show maximumAllowed ||| 0 = maximumAllowed from BitVec.or_zero,
          show request.previouslyGrantedAccess ||| 0 = request.previouslyGrantedAccess from
            BitVec.or_zero]
        -- `MAXIMUM_ALLOWED` alone, or together with bits that no ACE grants
        by_cases more : request.desiredAccess &&& ~~~maximumAllowed = 0
        · rw [if_neg (not_not.mpr more)]
          have same := and_maximum_eq more maximum
          refine ⟨fun _ => rfl, fun loses => ⟨.success, .inl rfl, ?_⟩⟩
          rw [show request.previouslyGrantedAccess = 0 from
            not_not.mp fun before => loses ⟨same, before⟩]
        · rw [if_pos more]
          refine ⟨fun keeps => absurd ?_ more, fun _ => ⟨.accessDenied, .inr rfl, rfl⟩⟩
          rw [keeps.1]
          decide
  · have refused : sepAccessCheck request subject = request.returnOneStatus .privilegeNotHeld 0 0 := by
      unfold sepAccessCheck
      rw [if_pos system, if_neg]
      rw [mode, noSecurity]
      exact Bool.false_ne_true
    refine ⟨fun keeps => absurd ?_ system, fun _ => ⟨.privilegeNotHeld, .inr rfl, refused⟩⟩
    rw [keeps.1]
    decide

theorem checkRest_inert (simple : SimpleRequest) (previously : AccessMask)
    (mode : simple.accessMode = .userMode) (present : securityDescriptor.daclPresent)
    (acl : securityDescriptor.dacl = some dacl) (some : desired ≠ 0) :
    (desired = maximumAllowed ∧ previously ≠ 0 →
      (simple.checkRest subject securityDescriptor desired previously).granted) ∧
    (¬ (desired = maximumAllowed ∧ previously ≠ 0) →
      (simple.checkRest subject securityDescriptor desired previously).NoAccess) := by
  obtain ⟨keeps, loses⟩ := sepAccessCheck_inert inert noSecurity noTake
    (simple.request securityDescriptor desired previously) mode ⟨present, acl⟩ rfl rfl rfl some
  unfold SimpleRequest.checkRest SimpleVerdict.NoAccess
  rw [if_neg some]
  constructor
  · intro both
    have verdict := (keeps both).trans (returnOneStatus_success rfl both.2)
    simp only [verdict]
    rfl
  · intro not
    obtain ⟨status, failed, verdict⟩ := loses not
    obtain ⟨refused, nothing⟩ := returnOneStatus_refused
      (simple.request securityDescriptor desired previously) rfl failed
    simp only [verdict, refused, nothing]
    simp

end Inert

/-- The bits the owner can ask for without the ACEs. -/
def ownerAnswered : AccessMask := writeDac ||| readControl ||| maximumAllowed

/-- The token's user is the owner although the owner is inert, and the request is one that
ownership answers. -/
structure OwnedByUser (simple : SimpleRequest) (subject : Subject)
    (securityDescriptor : SecurityDescriptor) : Prop where
  user : ∃ user, subject.effectiveToken.userAndGroups.head? = some user ∧
    user.sid = securityDescriptor.owner
  restricted : subject.effectiveToken.isRestricted →
    sepSidInTokenEx subject.effectiveToken none securityDescriptor.owner false true
  mayAct : ¬ (subject.clientToken.isSome ∧
    simple.impersonationLevel.belowImpersonation)
  some : simple.desiredAccess ≠ 0
  answered : simple.desiredAccess &&& ~~~ownerAnswered = 0

theorem Inert.sepTokenIsOwner_iff (inert : Inert token securityDescriptor.owner) :
    sepTokenIsOwner token securityDescriptor ↔
      (∃ user, token.userAndGroups.head? = some user ∧ user.sid = securityDescriptor.owner) ∧
        (token.isRestricted → sepSidInTokenEx token none securityDescriptor.owner false true) := by
  rw [sepTokenIsOwner, Bool.and_eq_true, inert.owner_iff]
  cases token.isRestricted <;> simp

theorem owner_rest_maximum (asked : desired &&& maximumAllowed ≠ 0) :
    desired &&& ~~~(writeDac ||| readControl) = maximumAllowed ↔ desired &&& ~~~ownerAnswered = 0 := by
  have assoc : desired &&& ~~~ownerAnswered =
      desired &&& ~~~(writeDac ||| readControl) &&& ~~~maximumAllowed := by
    rw [ownerAnswered, BitVec.not_or, BitVec.and_assoc]
  have kept : desired &&& ~~~(writeDac ||| readControl) &&& maximumAllowed ≠ 0 := by
    rwa [BitVec.and_assoc, show ~~~(writeDac ||| readControl) &&& maximumAllowed = maximumAllowed
      by decide]
  rw [assoc]
  constructor
  · intro same
    rw [same]
    decide
  · exact fun none => and_maximum_eq none kept

theorem owner_rest_zero (noMaximum : desired &&& maximumAllowed = 0) :
    desired &&& ~~~(writeDac ||| readControl) = 0 ↔ desired &&& ~~~ownerAnswered = 0 := by
  have assoc : desired &&& ~~~ownerAnswered =
      desired &&& ~~~maximumAllowed &&& ~~~(writeDac ||| readControl) := by
    rw [ownerAnswered, BitVec.not_or, BitVec.and_comm (~~~(writeDac ||| readControl)),
      BitVec.and_assoc]
  rw [assoc, and_not_of_zero noMaximum]

end Verdict

/-- **Deny-only SIDs grant nothing, the token's user apart.**  A token for which the owner and
the SIDs of all allow ACEs are absent or deny-only, without privileges and earlier grants, is
refused by a user-mode `SeAccessCheck` on an object with a DACL, exactly unless the owner is
the first SID of the token and the request is for the bits ownership answers. -/
theorem denyOnly_noAccess (simple : SimpleRequest) (subject : Subject)
    (securityDescriptor : SecurityDescriptor) (dacl : List Ace)
    (mode : simple.accessMode = .userMode)
    (descriptor : simple.securityDescriptor = some securityDescriptor)
    (present : securityDescriptor.daclPresent) (acl : securityDescriptor.dacl = some dacl)
    (inert : InertDacl subject.effectiveToken dacl)
    (inertOwner : Inert subject.effectiveToken securityDescriptor.owner)
    (before : simple.previouslyGrantedAccess = 0)
    (noSecurity : subject.effectiveToken.seSecurityPrivilege = false)
    (noTake : subject.effectiveToken.seTakeOwnershipPrivilege = false) :
    (seAccessCheck simple subject).NoAccess ↔ ¬ OwnedByUser simple subject securityDescriptor := by
  have user : simple.accessMode ≠ .kernelMode := by simp [mode]
  have rest {desired : AccessMask} (previously : AccessMask) (some : desired ≠ 0) :=
    checkRest_inert inert noSecurity noTake simple previously mode present acl some
  have granted_iff {verdict : SimpleVerdict} {P : Prop} (yes : P → verdict.granted)
      (no : ¬ P → verdict.NoAccess) : verdict.NoAccess ↔ ¬ P := by
    refine ⟨fun nothing holds => ?_, no⟩
    rw [nothing.1] at yes
    exact Bool.false_ne_true (yes holds)
  unfold seAccessCheck
  simp only [if_neg user, descriptor, before, if_true]
  by_cases mayAct : subject.clientToken.isSome ∧
      simple.impersonationLevel.belowImpersonation
  · rw [if_pos mayAct]
    exact iff_of_true ⟨rfl, rfl⟩ fun owned => owned.mayAct mayAct
  rw [if_neg mayAct]
  by_cases nothing : simple.desiredAccess = 0
  · rw [if_pos nothing]
    exact iff_of_true ⟨rfl, rfl⟩ fun owned => owned.some nothing
  rw [if_neg nothing]
  by_cases owner : sepTokenIsOwner subject.effectiveToken securityDescriptor
  · obtain ⟨first, restricted⟩ := inertOwner.sepTokenIsOwner_iff.mp owner
    have owned_iff : OwnedByUser simple subject securityDescriptor ↔
        simple.desiredAccess &&& ~~~ownerAnswered = 0 :=
      ⟨fun owned => owned.answered, fun answered => ⟨first, restricted, mayAct, nothing, answered⟩⟩
    rw [owned_iff]
    by_cases asked : simple.desiredAccess &&& ownerAnswered = 0
    · -- No bit of the request is one of the owner's.
      have outside : ¬ simple.desiredAccess &&& ~~~ownerAnswered = 0 := by
        rw [and_not_of_zero asked]
        exact nothing
      rw [if_neg fun both => both.1 asked]
      exact iff_of_true ((rest 0 nothing).2 fun both => both.2 rfl) outside
    rw [if_pos ⟨asked, owner⟩]
    by_cases maximum : simple.desiredAccess &&& maximumAllowed = 0
    · rw [if_neg (not_not.mpr maximum), ← owner_rest_zero maximum]
      by_cases done : simple.desiredAccess &&& ~~~(writeDac ||| readControl) = 0
      · rw [done]
        exact iff_of_false (fun refused => Bool.noConfusion refused.1) (not_not.mpr rfl)
      · refine iff_of_true ((rest _ done).2 fun both => ?_) done
        have none := and_zero_of_left maximum (~~~(writeDac ||| readControl))
        rw [both.1] at none
        exact absurd none (by decide)
    · have some : simple.desiredAccess &&& ~~~(writeDac ||| readControl) ≠ 0 := by
        intro none
        refine maximum ?_
        have same : ~~~(writeDac ||| readControl) &&& maximumAllowed = maximumAllowed := by decide
        rw [← same, ← BitVec.and_assoc, none]
        exact BitVec.zero_and
      rw [if_pos maximum, ← owner_rest_maximum maximum]
      refine granted_iff (fun same => (rest _ some).1 ⟨same, by decide⟩) fun other => ?_
      exact (rest _ some).2 fun both => other both.1
  · rw [if_neg fun both => owner both.2]
    refine iff_of_true ((rest 0 nothing).2 fun both => both.2 rfl) fun owned => owner ?_
    exact inertOwner.sepTokenIsOwner_iff.mpr ⟨owned.user, owned.restricted⟩

namespace Sample

/-- A token with the user and a group, the latter for denials only. -/
def filteredGroup : Token :=
  ⟨[⟨user, seGroupEnabled⟩, ⟨service, seGroupUseForDenyOnly⟩], [], false, false, false⟩

/-- A token whose user is there for denials only. -/
def filteredUser : Token := ⟨[⟨user, seGroupUseForDenyOnly⟩], [], false, false, false⟩

def serviceDacl : List Ace := [⟨false, 0x00060001, .accessAllowed service⟩]

theorem serviceDacl_inert : InertDacl filteredGroup serviceDacl := by
  simp only [InertDacl, serviceDacl, List.forall_mem_singleton, Ace.grantee, Option.some.injEq,
    forall_eq', Inert]
  decide

end Sample

open Sample

theorem denyOnly_noAccess_serviceDacl :
    (seAccessCheck (simple serviceDacl service writeDac 0) ⟨filteredGroup, none⟩).NoAccess ↔
      ¬ OwnedByUser (simple serviceDacl service writeDac 0) ⟨filteredGroup, none⟩
        ⟨service, true, some serviceDacl⟩ :=
  denyOnly_noAccess (simple serviceDacl service writeDac 0) ⟨filteredGroup, none⟩
    ⟨service, true, some serviceDacl⟩ serviceDacl rfl rfl rfl rfl serviceDacl_inert
    (serviceDacl_inert _ List.mem_cons_self service rfl) rfl rfl rfl

/-- A token whose user is deny-only gets `WRITE_DAC` on an object of that user. -/
theorem denyOnly_user_owns : InertDacl filteredUser serviceDacl ∧ Inert filteredUser user ∧
      seAccessCheck (simple serviceDacl user writeDac 0) ⟨filteredUser, none⟩ =
        ⟨true, some writeDac, .success⟩ := by
  refine ⟨?_, ?_, by decide +kernel⟩
  · simp only [InertDacl, serviceDacl, List.forall_mem_singleton, Ace.grantee, Option.some.injEq,
      forall_eq', Inert]
    decide
  · unfold Inert
    decide

end Ntoskrnl.Se.AccessCheck
