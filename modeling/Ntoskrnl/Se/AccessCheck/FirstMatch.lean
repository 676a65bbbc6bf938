/-
# Ntoskrnl.Se.AccessCheck.FirstMatch -- SeAccessCheck without a type list

`SeAccessCheck` in user mode gives the owner the two owner bits and sends the rest of the
request to the ACEs.  There each bit is decided by the first ACE that names it for the
token.  SIDs a token carries for denials only take part in denials, with one exception: the
test for ownership takes the first SID of the token whatever its attributes are.
-/
import Ntoskrnl.Se.AccessCheck.Agreement

namespace Ntoskrnl.Se.AccessCheck

set_option autoImplicit false

open TypeList Base Request

/-! ## The first ACE for a bit -/

/-- The SID is in the list the pass uses, and its first entry there counts: it is enabled,
or it is deny-only and the ACE is a denial, or it is the user and not deny-only. -/
def SidCounts (token : Token) (restricted deny : Bool) (sid : Sid) : Prop :=
  ∃ i entry, (if restricted then token.restrictedSids else token.userAndGroups)[i]? = some entry ∧
    entry.sid = sid ∧
    (∀ i' < i, ∀ other, (if restricted then token.restrictedSids else token.userAndGroups)[i']? =
      some other → other.sid ≠ sid) ∧
    (entry.Enabled ∨ (deny ∧ entry.DenyOnly) ∨ (restricted = false ∧ i = 0 ∧ ¬ entry.DenyOnly))

variable {sid : Sid}

theorem sidLoop_iff {decides : Nat → SidAndAttributes → Bool} {start : Nat}
    {sids : List SidAndAttributes} : sidLoop decides sid start sids ↔
      ∃ i entry, sids[i]? = some entry ∧ entry.sid = sid ∧
        (∀ i' < i, ∀ other, sids[i']? = some other → other.sid ≠ sid) ∧
          decides (start + i) entry := by
  induction sids generalizing start with
  | nil => simp [sidLoop]
  | cons first rest ih =>
    rw [sidLoop]
    split
    next here =>
      constructor
      · intro counts
        exact ⟨0, first, rfl, here, fun i' less => absurd less (Nat.not_lt_zero _), counts⟩
      · rintro ⟨i, entry, at', -, before, counts⟩
        cases i with
        | zero =>
          cases at'
          exact counts
        | succ => exact absurd here (before 0 (Nat.zero_lt_succ _) first rfl)
    next other =>
      rw [ih]
      constructor
      · rintro ⟨i, entry, at', here, before, counts⟩
        refine ⟨i + 1, entry, at', here, fun i' less earlier at'' => ?_, by
          rwa [Nat.add_assoc, Nat.add_comm 1] at counts⟩
        cases i' with
        | zero =>
          cases at''
          exact other
        | succ i' => exact before i' (Nat.lt_of_succ_lt_succ less) earlier at''
      · rintro ⟨i, entry, at', here, before, counts⟩
        cases i with
        | zero =>
          cases at'
          exact absurd here other
        | succ i =>
          refine ⟨i, entry, at', here, fun i' less earlier at'' => ?_, by
            rwa [Nat.add_assoc, Nat.add_comm 1]⟩
          exact before (i' + 1) (Nat.succ_lt_succ less) earlier at''

theorem sepSidInTokenEx_iff {token : Token} {restricted deny : Bool} :
    sepSidInTokenEx token none sid deny restricted ↔ SidCounts token restricted deny sid := by
  rw [sepSidInTokenEx, sidLoop_iff]
  refine exists₂_congr fun i entry => ?_
  simp only [principal, Nat.zero_add, decide_eq_true_eq]
  tauto

/-- The ACE takes part in a check without a type list: it names the bit and its SID counts.
An allow ACE for one object type only does not. -/
def Ace.Matches (token : Token) (restricted : Bool) (k : Nat) (ace : Ace) : Prop :=
  ace.inheritOnly = false ∧ ace.mask.getLsbD k ∧ match ace.type with
    | .accessAllowed sid | .accessAllowedObject none sid => SidCounts token restricted false sid
    | .accessDenied sid | .accessDeniedObject _ sid => SidCounts token restricted true sid
    | .accessAllowedObject (some _) _ | .accessAllowedCompound _ _ | .other => False

def Ace.IsAllow (ace : Ace) : Prop :=
  match ace.type with
  | .accessAllowed _ | .accessAllowedObject _ _ | .accessAllowedCompound _ _ => True
  | .accessDenied _ | .accessDeniedObject _ _ | .other => False

/-- The first ACE of the DACL that matches for the bit allows it. -/
def FirstMatchAllows (token : Token) (restricted : Bool) (dacl : List Ace) (k : Nat) : Prop :=
  ∃ before ace after, dacl = before ++ ace :: after ∧
    (∀ earlier ∈ before, ¬ earlier.Matches token restricted k) ∧
    ace.Matches token restricted k ∧ ace.IsAllow

def NoCompound (dacl : List Ace) : Prop :=
  ∀ ace ∈ dacl, ∀ clientSid serverSid, ace.type ≠ .accessAllowedCompound clientSid serverSid

variable {securityDescriptor : SecurityDescriptor} {subject : Subject}

section Match

variable {pass : Pass} {restricted server : Bool} {dacl : List Ace} {ace : Ace} {k : Nat}
  {list : TypeList} {j : Nat}

theorem leaf_length_one (one : list.length = 1) : list.Leaf j ↔ j = 0 := by
  constructor
  · rintro ⟨inside, -⟩
    omega
  · rintro rfl
    exact ⟨length_pos, below_length_one one⟩

theorem steady_length_one {access : Nat → Access} (one : list.length = 1) (effects : List Effect) :
    Steady list access effects := by
  induction effects generalizing access with
  | nil => trivial
  | cons effect effects ih =>
    refine ⟨fun c inside _ _ p up => ?_, ih⟩
    rw [show c = 0 by omega, parentIndex_zero] at up
    cases up

theorem effect_allow {effect : Effect} (found : pass.effect restricted server ace = some effect) :
    effect.allow ↔ ace.IsAllow := by
  have kind := (Pass.effect_spec found).2.2.2
  unfold Ace.IsAllow
  cases type : ace.type <;> simp_all

/-- Without a type list an ACE has an effect on a bit exactly if it matches. -/
theorem effect_hits (restricted server : Bool) (k : Nat)
    (self : pass.principalSelfSid = none) (given : pass.listGiven = false)
    (plain : ∀ clientSid serverSid, ace.type ≠ .accessAllowedCompound clientSid serverSid) :
    (pass.effect restricted server ace).any (Effect.hits pass.localTypeList 0 k) ↔
      ace.Matches pass.eToken restricted k := by
  have hits (allow : Bool) : Effect.hits pass.localTypeList 0 k ⟨0, allow, ace.mask⟩ =
      ace.mask.getLsbD k := by
    simp [Effect.hits, Covers]
  unfold Pass.effect Ace.Matches
  simp only [self, given, ← sepSidInTokenEx_iff]
  cases ace.inheritOnly with
  | true => simp
  | false =>
    cases type : ace.type with
    | other => simp
    | accessAllowedCompound clientSid serverSid => exact absurd type (plain clientSid serverSid)
    | accessAllowed sid =>
      cases counts : sepSidInTokenEx pass.eToken none sid false restricted <;>
        simp [hits, counts]
    | accessDenied sid =>
      cases counts : sepSidInTokenEx pass.eToken none sid true restricted <;>
        simp [hits, counts]
    | accessAllowedObject objectType sid =>
      cases objectType with
      | none =>
        cases counts : sepSidInTokenEx pass.eToken none sid false restricted <;>
          simp [hits, counts]
      | some => simp
    | accessDeniedObject objectType sid =>
      cases counts : sepSidInTokenEx pass.eToken none sid true restricted
      · simp [counts]
      · cases objectType <;> simp [hits, counts]

/-- A bit is decided by the first ACE that has an effect on it. -/
theorem allows_iff_find : Allows list (pass.effects restricted server dacl) j k ↔
      ∃ ace, dacl.find? (fun ace => (pass.effect restricted server ace).any (Effect.hits list j k)) =
        some ace ∧ ace.IsAllow := by
  unfold Allows Pass.effects
  rw [List.find?_filterMap]
  constructor
  · rintro ⟨effect, found, allow⟩
    obtain ⟨ace, first, effect'⟩ := Option.bind_eq_some_iff.mp found
    exact ⟨ace, first, (effect_allow effect').mp allow⟩
  · rintro ⟨ace, first, allow⟩
    have hit := List.find?_some first
    obtain ⟨effect, effect', -⟩ := (Option.any_eq_true _ _).mp hit
    exact ⟨effect, Option.bind_eq_some_iff.mpr ⟨ace, first, effect'⟩, (effect_allow effect').mpr allow⟩

/-- **Without a type list both passes decide each bit by its first matching ACE.** -/
theorem permits_iff_firstMatch (wellFormed : pass.WellFormed) (self : pass.principalSelfSid = none)
    (given : pass.listGiven = false) (plain : NoCompound dacl) (mask : AccessMask) :
    pass.Permits restricted server dacl mask ↔
      ∀ k, mask.getLsbD k → FirstMatchAllows pass.eToken restricted dacl k := by
  have allows (k : Nat) : Allows pass.localTypeList (pass.effects restricted server dacl) 0 k ↔
      FirstMatchAllows pass.eToken restricted dacl k := by
    have spec (ace : Ace) (member : ace ∈ dacl) :=
      effect_hits restricted server k self given (plain ace member)
    rw [allows_iff_find]
    constructor
    · rintro ⟨ace, first, allow⟩
      obtain ⟨matched, before, after, rfl, none⟩ := List.find?_eq_some_iff_append.mp first
      refine ⟨before, ace, after, rfl, fun earlier member matched => ?_,
        (spec ace (by simp)).mp matched, allow⟩
      have := none earlier member
      rw [(spec earlier (by simp [member])).mpr matched] at this
      cases this
    · rintro ⟨before, ace, after, rfl, none, matched, allow⟩
      refine ⟨ace, List.find?_eq_some_iff_append.mpr ⟨(spec ace (by simp)).mpr matched, before,
        after, rfl, fun earlier member => ?_⟩, allow⟩
      rw [Bool.not_eq_true', ← Bool.not_eq_true, spec earlier (by simp [member])]
      exact none earlier member
  unfold Pass.Permits
  simp [leaf_length_one (wellFormed given), allows]

/-! ## SeAccessCheck for a fixed request -/

/-- The first matching ACE allows the bit, for the user and the groups and, if the token is
restricted, for the restricting SIDs. -/
def BitAllowed (token : Token) (dacl : List Ace) (k : Nat) : Prop :=
  FirstMatchAllows token false dacl k ∧ (token.isRestricted → FirstMatchAllows token true dacl k)

/-- The bits ownership covers. -/
def ownerCovered (token : Token) (securityDescriptor : SecurityDescriptor) : AccessMask :=
  if sepTokenIsOwner token securityDescriptor then writeDac ||| readControl else 0

variable {simple : SimpleRequest} {desired previously : AccessMask}

theorem permitted_iff (plain : NoCompound dacl) :
    (simple.request securityDescriptor desired previously).Permitted subject dacl desired ↔
      ∀ k, desired.getLsbD k → BitAllowed subject.effectiveToken dacl k := by
  unfold Permitted BitAllowed
  rw [permits_iff_firstMatch pass_wellFormed rfl rfl plain,
    permits_iff_firstMatch pass_wellFormed rfl rfl plain]
  exact ⟨fun ⟨groups, restricting⟩ k bit => ⟨groups k bit, fun is => restricting is k bit⟩,
    fun all => ⟨fun k bit => (all k bit).1, fun is k bit => (all k bit).2 is⟩⟩

/-- The part of the request sent to the ACEs is granted as a whole or not at all. -/
theorem checkRest_cases (desired previously : AccessMask) (mode : simple.accessMode = .userMode)
    (present : securityDescriptor.daclPresent) (acl : securityDescriptor.dacl = some dacl)
    (noMaximum : desired &&& maximumAllowed = 0)
    (noSystem : desired &&& accessSystemSecurity = 0)
    (noOwner : ¬ (desired &&& writeOwner ≠ 0 ∧ simple.privileges ∧
      subject.effectiveToken.seTakeOwnershipPrivilege)) :
    ((simple.request securityDescriptor desired previously).Permitted subject dacl desired →
      simple.checkRest subject securityDescriptor desired previously =
        ⟨true, some (previously ||| desired), .success⟩) ∧
    (¬ (simple.request securityDescriptor desired previously).Permitted subject dacl desired →
      simple.checkRest subject securityDescriptor desired previously =
        ⟨false, some 0, .accessDenied⟩) := by
  have noPrivilege : (simple.request securityDescriptor desired previously).NoPrivilege subject := by
    refine ⟨noSystem, fun ⟨owner, place, held⟩ => noOwner ⟨owner, place, ?_⟩⟩
    rw [SimpleRequest.request, mode] at held
    simpa [sepSinglePrivilegeCheck] using held
  have has : (simple.request securityDescriptor desired previously).HasDacl dacl := ⟨present, acl⟩
  have aces := sepAccessCheck_aces has noPrivilege
  unfold SimpleRequest.checkRest
  by_cases nothing : desired = 0
  · subst nothing
    refine ⟨fun _ => by simp, fun refused => absurd ⟨?_, fun _ => ?_⟩ refused⟩ <;>
      exact fun j leaf k bit => by simp at bit
  · rw [if_neg nothing, aces]
    -- for an empty DACL the source returns before the passes
    by_cases empty : dacl = []
    · subst empty
      obtain ⟨k, bit⟩ := mask_ne_zero.mp nothing
      obtain ⟨j, leaf, -⟩ := exists_leaf (simple.request securityDescriptor desired
        previously).localTypeList.length_pos
      have notMaximum : desired ≠ maximumAllowed := by
        rintro rfl
        exact absurd noMaximum (by decide)
      refine ⟨fun all => absurd (all.1 j leaf k bit) not_allows_nil, fun _ => ?_⟩
      simp [checkAces, SimpleRequest.request, notMaximum, returnOneStatus, NtStatus.ntSuccess,
        NtStatus.code]
    · have oneResult :
          (simple.request securityDescriptor desired previously).returnResultList = false := rfl
      obtain ⟨granted, denied⟩ := checkAces_normal subject noMaximum oneResult empty desired previously 0
      constructor
      · intro all
        have some : previously ||| desired ≠ 0 := by
          obtain ⟨k, bit⟩ := mask_ne_zero.mp nothing
          exact mask_ne_zero.mpr ⟨k, by rw [BitVec.getLsbD_or, bit, Bool.or_true]⟩
        have verdict := (granted all).trans (returnOneStatus_success rfl some)
        simp only [SimpleRequest.request] at verdict ⊢
        rw [verdict]
        rfl
      · intro refused
        have verdict := denied refused
        simp only [SimpleRequest.request] at verdict ⊢
        rw [verdict]
        rfl

end Match

section Masks

variable {a b c : AccessMask}

theorem and_not_or_and (a b mask : AccessMask) : a ||| b &&& mask ||| b &&& ~~~mask = a ||| b := by
  ext k inside
  simp only [BitVec.getElem_or, BitVec.getElem_and, BitVec.getElem_not]
  cases a[k] <;> cases b[k] <;> cases mask[k] <;> rfl

theorem and_zero_of_left (none : a &&& c = 0) (b : AccessMask) : a &&& b &&& c = 0 := by
  rw [BitVec.and_assoc, BitVec.and_comm b, ← BitVec.and_assoc, none]
  exact BitVec.zero_and

theorem and_or_right_zero (none : a &&& c = 0) (b : AccessMask) : a &&& (b ||| c) = a &&& b := by
  refine mask_ext fun k => ?_
  have free : (a &&& c).getLsbD k = false := by
    rw [none]
    exact BitVec.getLsbD_zero
  rw [BitVec.getLsbD_and] at free
  rw [BitVec.getLsbD_and, BitVec.getLsbD_and, BitVec.getLsbD_or, Bool.and_or_distrib_left, free,
    Bool.or_false]

theorem and_not_of_zero (none : a &&& c = 0) : a &&& ~~~c = a := by
  have split := and_not_or_and 0 a c
  rw [none] at split
  simpa using split

end Masks

/-- A fixed request in user mode: what ownership covers is granted, the rest goes to the ACEs. -/
theorem seAccessCheck_fixed {simple : SimpleRequest} (mode : simple.accessMode = .userMode)
    (descriptor : simple.securityDescriptor = some securityDescriptor)
    (mayAct : ¬ (subject.clientToken.isSome ∧ simple.impersonationLevel.belowImpersonation))
    (noMaximum : simple.desiredAccess &&& maximumAllowed = 0) (some : simple.desiredAccess ≠ 0) :
    seAccessCheck simple subject = simple.checkRest subject securityDescriptor
      (simple.desiredAccess &&& ~~~ownerCovered subject.effectiveToken securityDescriptor)
      (simple.previouslyGrantedAccess |||
        simple.desiredAccess &&& ownerCovered subject.effectiveToken securityDescriptor) := by
  have user : simple.accessMode ≠ .kernelMode := by simp [mode]
  unfold seAccessCheck
  simp only [if_neg user, descriptor, if_neg mayAct, if_neg some, and_or_right_zero noMaximum,
    noMaximum, ne_eq, not_true_eq_false, if_false]
  unfold ownerCovered
  by_cases owner : sepTokenIsOwner subject.effectiveToken securityDescriptor
  · split
    · rfl
    next untouched =>
      have untouched : simple.desiredAccess &&& (writeDac ||| readControl) = 0 := by
        by_contra touched
        exact untouched ⟨touched, owner⟩
      rw [and_not_of_zero untouched, untouched]
      simp
  · rw [if_neg fun both => owner both.2, if_neg owner,
      and_not_of_zero (show simple.desiredAccess &&& 0 = 0 from BitVec.and_zero)]
    simp

/-- **The DACL is evaluated first-match per bit.**  A user-mode `SeAccessCheck` without type
list, privileges, compound ACEs and `MAXIMUM_ALLOWED`, by a caller who may act for its client,
grants a request of some bits exactly if each of them that ownership does not cover is allowed
by the first ACE that matches for it.  A request of no bits is granted exactly if bits were
granted before.  What is granted is the request and what was granted before, or nothing. -/
theorem seAccessCheck_firstMatch (simple : SimpleRequest) (subject : Subject)
    (securityDescriptor : SecurityDescriptor) (dacl : List Ace)
    (mode : simple.accessMode = .userMode)
    (descriptor : simple.securityDescriptor = some securityDescriptor)
    (present : securityDescriptor.daclPresent) (acl : securityDescriptor.dacl = some dacl)
    (plain : NoCompound dacl)
    (mayAct : ¬ (subject.clientToken.isSome ∧
      simple.impersonationLevel.belowImpersonation))
    (noMaximum : simple.desiredAccess &&& maximumAllowed = 0)
    (noSystem : simple.desiredAccess &&& accessSystemSecurity = 0)
    (noOwner : ¬ (simple.desiredAccess &&& writeOwner ≠ 0 ∧ simple.privileges ∧
      subject.effectiveToken.seTakeOwnershipPrivilege)) :
    (simple.desiredAccess ≠ 0 → ((seAccessCheck simple subject).granted ↔
      ∀ k, (simple.desiredAccess &&&
          ~~~ownerCovered subject.effectiveToken securityDescriptor).getLsbD k →
        BitAllowed subject.effectiveToken dacl k)) ∧
    (simple.desiredAccess = 0 → ((seAccessCheck simple subject).granted ↔
      simple.previouslyGrantedAccess ≠ 0)) ∧
    ((seAccessCheck simple subject).granted → (seAccessCheck simple subject).grantedAccess =
      some (simple.previouslyGrantedAccess ||| simple.desiredAccess)) ∧
    ((seAccessCheck simple subject).granted = false →
      (seAccessCheck simple subject).grantedAccess = none ∨
        (seAccessCheck simple subject).grantedAccess = some 0) := by
  by_cases nothing : simple.desiredAccess = 0
  · have user : simple.accessMode ≠ .kernelMode := by simp [mode]
    unfold seAccessCheck
    simp only [if_neg user, descriptor, if_neg mayAct, if_pos nothing]
    refine ⟨absurd nothing, fun _ => ?_, ?_, ?_⟩
    all_goals split
    · simpa using ‹_›
    · simpa using ‹_›
    · intro granted
      cases granted
    · simp [nothing]
    · exact fun _ => .inl rfl
    · intro granted
      cases granted
  · rw [seAccessCheck_fixed mode descriptor mayAct noMaximum nothing]
    have rest := checkRest_cases
      (simple.desiredAccess &&& ~~~ownerCovered subject.effectiveToken securityDescriptor)
      (simple.previouslyGrantedAccess |||
        simple.desiredAccess &&& ownerCovered subject.effectiveToken securityDescriptor)
      mode present acl (and_zero_of_left noMaximum _) (and_zero_of_left noSystem _)
      fun ⟨owner, held⟩ => noOwner ⟨fun none => owner (and_zero_of_left none _), held⟩
    rw [permitted_iff plain] at rest
    by_cases allowed : ∀ k, (simple.desiredAccess &&&
        ~~~ownerCovered subject.effectiveToken securityDescriptor).getLsbD k →
          BitAllowed subject.effectiveToken dacl k
    · rw [rest.1 allowed, and_not_or_and]
      exact ⟨fun _ => iff_of_true rfl allowed, (absurd · nothing), fun _ => rfl, nofun⟩
    · rw [rest.2 allowed]
      exact ⟨fun _ => iff_of_false Bool.false_ne_true allowed, (absurd · nothing),
        fun granted => (nomatch granted), fun _ => .inr rfl⟩

/-- The sample object and caller, without `MAXIMUM_ALLOWED` and privileges. -/
def Sample.simple (dacl : List Ace) (owner : Sid) (desired previously : AccessMask) :
    SimpleRequest where
  securityDescriptor := some ⟨owner, true, some dacl⟩
  impersonationLevel := .securityImpersonation
  desiredAccess := desired
  previouslyGrantedAccess := previously
  genericAll := 0
  accessMode := .userMode
  privileges := true
  poolAvailable := true

open Sample

theorem seAccessCheck_firstMatch_plainDacl :
    (seAccessCheck (simple plainDacl service 1 0) ⟨restrictedToken, none⟩).granted ↔
      ∀ k, ((1 : AccessMask) &&&
          ~~~ownerCovered restrictedToken ⟨service, true, some plainDacl⟩).getLsbD k →
        BitAllowed restrictedToken plainDacl k :=
  (seAccessCheck_firstMatch (simple plainDacl service 1 0) ⟨restrictedToken, none⟩
    ⟨service, true, some plainDacl⟩ plainDacl rfl rfl rfl rfl
    (by
      intro ace member clientSid serverSid
      simp only [plainDacl, List.mem_cons, List.not_mem_nil, or_false] at member
      rcases member with rfl | rfl <;> simp)
    (by decide) (by decide) (by decide) (by decide)).1 (by decide)

/-- A bit that was granted before is checked against the ACEs again, a request of no bits after no
grants is refused, and so is a client that is only identified. -/
theorem seAccessCheck_previously :
    (seAccessCheck (simple plainDacl service 4 4) ⟨restrictedToken, none⟩).granted = false ∧
      (seAccessCheck (simple plainDacl service 0 0) ⟨restrictedToken, none⟩).granted = false ∧
      (seAccessCheck (simple plainDacl service 1 0) ⟨restrictedToken, some restrictedToken⟩).granted ∧
      (seAccessCheck { simple plainDacl service 1 0 with impersonationLevel := .securityIdentification }
        ⟨restrictedToken, some restrictedToken⟩).granted = false := by
  decide +kernel

end Ntoskrnl.Se.AccessCheck
