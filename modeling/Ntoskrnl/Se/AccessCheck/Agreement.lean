/-
# Ntoskrnl.Se.AccessCheck.Agreement -- when the two passes agree

For a restricted token the ACEs are gone through twice: once for the user and the groups,
once for the restricting SIDs.  The second time the grants of the first wait in the
remaining masks and are put on top at the end.  At a leaf the result is what both passes
grant; at an inner entry only if the second pass does not recompute the remaining mask,
which gives it the OR of its children where the first pass had the AND.

A request for a mask goes through the normal pass, a request for the maximum through the
other one.  For a token that is not restricted they agree for every DACL and every type
list.  For a restricted token two differences in the second pass come in: the server SID
of a compound ACE is looked up in different lists, and the recomputed remaining masks of
inner entries let through what the groups were not granted.
-/
import Ntoskrnl.Se.AccessCheck.Passes

namespace Ntoskrnl.Se.AccessCheck

open TypeList List
open Function (update update_of_ne update_self)

set_option autoImplicit false

theorem zeroAccess_kept (list : TypeList) : Kept list Request.zeroAccess where
  agrees := by
    intro p inner
    obtain ⟨c, child⟩ := exists_mem_of_ne_nil _ inner
    have some : (list.childrenOf p).map Request.zeroAccess ≠ [] := by simpa using inner
    refine Prod.ext (mask_ext fun k => ?_) (mask_ext fun k => ?_)
    · simp only [grantsPart]
      rw [ofChildren_currentGranted some]
      exact ⟨fun bit => absurd bit (by simp [Request.zeroAccess]),
        fun all => absurd (all _ (mem_map_of_mem child)) (by simp [Request.zeroAccess])⟩
    · simp only [grantsPart]
      rw [ofChildren_currentDenied]
      simp only [mem_map, exists_exists_and_eq_and]
      exact ⟨fun bit => ⟨c, child, bit⟩, by rintro ⟨_, _, bit⟩; exact bit⟩
  exclusive := by
    intro j k bit
    simp [Request.zeroAccess] at bit

variable {dacl : List Ace} {subject : Subject} {access : Nat → Access}

namespace Pass

variable {pass : Pass} {j k p : Nat}

/-! ## The pass for the user and the groups -/

/-- The masks after the first pass. -/
def groupAccess (pass : Pass) (dacl : List Ace) : Nat → Access :=
  pass.sepMaximumAccessCheck false dacl Request.zeroAccess

section Restrictions

variable (wellFormed : pass.WellFormed)

include wellFormed

theorem groupAccess_eq : pass.groupAccess dacl =
    (pass.effects false false dacl).foldl (maximumEffect pass.localTypeList) Request.zeroAccess :=
  maximumLoop_eq wellFormed false dacl Request.zeroAccess

theorem groupAccess_leaf (leaf : pass.localTypeList.Leaf j) :
    (pass.groupAccess dacl j).currentGranted.getLsbD k ↔
      Allows pass.localTypeList (pass.effects false false dacl) j k := by
  rw [groupAccess_eq wellFormed, maximumEffects_leaf leaf]
  simp [Request.zeroAccess]

/-- The masks at the end of the second loop, before the grants are put together. -/
def restrictedAccess (pass : Pass) (dacl : List Ace) : Nat → Access :=
  (pass.effects true false dacl).foldl (maximumEffect pass.localTypeList)
    (enterRestricted (pass.groupAccess dacl))

theorem sepMaximumAccessCheck_restricted :
    pass.sepMaximumAccessCheck true dacl (pass.groupAccess dacl) =
      leaveRestricted (pass.restrictedAccess dacl) := by
  rw [sepMaximumAccessCheck, if_pos rfl, maximumLoop_eq wellFormed, restrictedAccess]

end Restrictions

end Pass

/-! ## The remaining masks during the second pass -/

/-- Wherever an effect changes an entry, the same remains at the parent of the entry and at all
children of that parent, so that the parent is recomputed to what it had. -/
def SteadyAt (list : TypeList) (access : Nat → Access) (effect : Effect) : Prop :=
  ∀ c < list.length, list.Covers c effect.start →
    Pass.maximumEffect list access effect c ≠ access c → ∀ p ∈ list.parentIndex c,
      ∀ s ∈ list.childrenOf p, (access s).remaining = (access p).remaining

instance (list : TypeList) (access : Nat → Access) (effect : Effect) :
    Decidable (SteadyAt list access effect) := by
  unfold SteadyAt
  infer_instance

/-- Every effect is steady in the masks it meets. -/
def Steady (list : TypeList) : (Nat → Access) → List Effect → Prop
  | _, [] => True
  | access, effect :: effects =>
    SteadyAt list access effect ∧ Steady list (Pass.maximumEffect list access effect) effects

section Remaining

variable {list : TypeList} {i j : Nat} {effect : Effect}

variable {field : Field} {mask : AccessMask}

theorem update_remaining {access : Access} (other : field ≠ .updateRemaining) :
    (access.update mask field).remaining = access.remaining := by
  cases field with
  | updateRemaining => exact absurd rfl other
  | updateCurrentGranted => rfl
  | updateCurrentDenied => rfl

/-- The way up leaves what remains where it only goes through even parents. -/
theorem sepUpdateParentTypeList_remaining
    (steady : ∀ c p, list.parentIndex c = some p → list.Covers c i →
      (c = i ∨ sepUpdateParentTypeList list access i c ≠ access c) →
        ∀ s ∈ list.childrenOf p, (access s).remaining = (access p).remaining) (j : Nat) :
    (sepUpdateParentTypeList list access i j).remaining = (access j).remaining := by
  fun_induction sepUpdateParentTypeList list access i with
  | case1 | case2 => rfl
  | case3 access i parent found new changed ih =>
    have child := child_of_parentIndex found
    have all := steady i parent found covers_refl (.inl rfl)
    have same : new.remaining = (access parent).remaining := by
      refine mask_ext fun k => ?_
      simp only [new]
      rw [children_of_parentIndex found, ofChildren_remaining]
      refine ⟨?_, fun bit => ⟨access i, mem_map_of_mem child, by rwa [all i child]⟩⟩
      rintro ⟨_, member, bit⟩
      obtain ⟨s, inside, rfl⟩ := mem_map.mp member
      rwa [← all s inside]
    have kept (j : Nat) : (update access parent new j).remaining = (access j).remaining := by
      by_cases here : j = parent
      · rw [here, update_self, same]
      · rw [update_of_ne here]
    rw [ih, kept]
    intro c p up covers moved s inside
    rw [kept, kept]
    refine steady c p up (covers.trans (.inr (below_of_child child))) (.inr ?_) s inside
    by_cases here : c = parent
    · rw [here, sepUpdateParentTypeList_apart _ fun bad => (lt_of_mem_below bad).ne rfl, update_self]
      exact changed
    · have moved := moved.resolve_left here
      rwa [update_of_ne here] at moved

theorem SteadyAt.remaining (steady : SteadyAt list access effect) (j : Nat) :
    (Pass.maximumEffect list access effect j).remaining = (access j).remaining := by
  unfold SteadyAt Pass.maximumEffect at *
  generalize chosen : (if effect.allow then Field.updateCurrentGranted
    else .updateCurrentDenied) = field at *
  have other : field ≠ .updateRemaining := by
    rw [← chosen]
    split <;> simp
  have started (j : Nat) : (update access effect.start
      ((access effect.start).update effect.mask field) j).remaining = (access j).remaining := by
    by_cases here : j = effect.start
    · rw [here, update_self, update_remaining other]
    · rw [update_of_ne here]
  simp only [sepAddAccessTypeList, other, false_and, if_false] at steady ⊢
  split at steady
  next unchanged =>
    rw [foldl_update_apply below_nodup, if_pos unchanged]
    split
    · rw [update_remaining other, started]
    · rw [started]
  next changed =>
    have raised := @sepUpdateParentTypeList_remaining
      (update access effect.start ((access effect.start).update effect.mask field)) list effect.start
      fun c p up covers moved s inside => by
        rw [started, started]
        have child := child_of_parentIndex up
        refine steady c (mem_below.mp (below_of_child child)).2.1 covers ?_ p up s inside
        -- An entry at or above the target is not changed again on the way down.
        rw [foldl_update_apply below_nodup, if_neg (not_below_of_covers covers)]
        by_cases here : c = effect.start
        · rw [here, sepUpdateParentTypeList_apart _ fun bad => (lt_of_mem_below bad).ne rfl]
          exact changed
        · have moved := moved.resolve_left here
          rwa [update_of_ne here] at moved
    rw [foldl_update_apply below_nodup, if_neg changed]
    split
    · rw [update_remaining other, raised, started]
    · rw [raised, started]

theorem Steady.remaining {effects : List Effect} (steady : Steady list access effects) (j : Nat) :
    (effects.foldl (Pass.maximumEffect list) access j).remaining = (access j).remaining := by
  induction effects generalizing access with
  | nil => rfl
  | cons effect effects ih => exact (ih steady.2).trans (steady.1.remaining j)

end Remaining

namespace Pass

variable {pass : Pass} {j k : Nat}

/-- What the groups were granted waits unchanged while the ACEs are read for the restricting
SIDs. -/
def SteadyFor (pass : Pass) (dacl : List Ace) : Prop :=
  Steady pass.localTypeList (enterRestricted (pass.groupAccess dacl)) (pass.effects true false dacl)

/-- **With steady effects both passes have to grant a bit.** -/
theorem restricted_granted (wellFormed : pass.WellFormed) (steady : pass.SteadyFor dacl) :
    (pass.sepMaximumAccessCheck true dacl (pass.groupAccess dacl) j).currentGranted.getLsbD k ↔
      (pass.restrictedAccess dacl j).currentGranted.getLsbD k ∧
        (pass.groupAccess dacl j).currentGranted.getLsbD k := by
  have waiting : (pass.restrictedAccess dacl j).remaining =
      (pass.groupAccess dacl j).currentGranted := steady.remaining j
  rw [sepMaximumAccessCheck_restricted wellFormed, leaveRestricted, waiting, BitVec.getLsbD_and,
    Bool.and_eq_true]

end Pass

open Base

theorem within_iff {a b : AccessMask} : a &&& ~~~b = 0 ↔ ∀ k, a.getLsbD k → b.getLsbD k := by
  rw [← not_iff_not, ← ne_eq, mask_ne_zero]
  simp only [andNot_bit, not_forall, Bool.not_eq_true, exists_prop]

namespace Request

variable {request : Request}

theorem pass_wellFormed : (request.pass subject).WellFormed := by
  intro given
  cases list : request.objectTypeList with
  | none =>
    simp only [Request.pass, localTypeList, list]
    rfl
  | some => simp [Request.pass, list] at given

/-- No bit of the request is granted by a privilege. -/
def NoPrivilege (request : Request) (subject : Subject) : Prop :=
  request.desiredAccess &&& accessSystemSecurity = 0 ∧
    ¬ (request.desiredAccess &&& writeOwner ≠ 0 ∧ request.privileges ∧
      sepSinglePrivilegeCheck subject.effectiveToken.seTakeOwnershipPrivilege request.previousMode)

/-- The object has the DACL. -/
def HasDacl (request : Request) (dacl : List Ace) : Prop :=
  request.securityDescriptor.daclPresent ∧ request.securityDescriptor.dacl = some dacl

/-- Without privileges the check comes down to the ACEs. -/
theorem sepAccessCheck_aces (has : request.HasDacl dacl)
    (noPrivilege : request.NoPrivilege subject) :
    sepAccessCheck request subject =
      request.checkAces subject dacl request.desiredAccess request.previouslyGrantedAccess 0 := by
  obtain ⟨present, acl⟩ := has
  obtain ⟨noSystem, noOwner⟩ := noPrivilege
  simp only [sepAccessCheck, noSystem, ne_eq, not_true_eq_false, if_false, checkDacl, present, acl]
  rw [if_neg noOwner]

/-- Both passes, the second one for a restricted token only, permit the mask. -/
def Permitted (request : Request) (subject : Subject) (dacl : List Ace) (mask : AccessMask) : Prop :=
  (request.pass subject).Permits false false dacl mask ∧
    (subject.effectiveToken.isRestricted → (request.pass subject).Permits true true dacl mask)

section Normal

variable (subject : Subject) (noMaximum : request.desiredAccess &&& maximumAllowed = 0)
  (oneResult : request.returnResultList = false) (aces : dacl ≠ [])
  (remaining previously : AccessMask) (count : Nat)

include noMaximum oneResult aces

theorem checkAces_normal : (request.Permitted subject dacl remaining →
      request.checkAces subject dacl remaining previously count =
        request.returnOneStatus .success (previously ||| request.desiredAccess) count) ∧
    (¬ request.Permitted subject dacl remaining →
      request.checkAces subject dacl remaining previously count =
        request.returnOneStatus .accessDenied 0 count) := by
  have zero (j : Nat) : (zeroAccess j).Exclusive := (zeroAccess_kept fixedTypeList).exclusive j
  have first := Pass.sepNormalAccessCheck_iff (request.pass subject) false zero remaining dacl
  have second := Pass.sepNormalAccessCheck_iff (request.pass subject) true
    (normalLoop_exclusive (request.pass subject) false
      (Waiting.uniform fixedTypeList zero remaining).exclusive dacl) remaining dacl
  unfold checkAces
  rw [if_neg aces, if_neg (by simp [noMaximum, oneResult])]
  constructor
  · rintro ⟨groups, restricting⟩
    have groups := first.mpr groups
    simp only [groups, ne_eq, not_true_eq_false, if_false]
    split
    next restricted =>
      have restricting := second.mpr (restricting restricted)
      exact if_neg (not_not.mpr restricting)
    next => rfl
  · intro refused
    by_cases groups : (request.pass subject).Permits false false dacl remaining
    · have restricted : subject.effectiveToken.isRestricted := by
        by_contra unrestricted
        exact refused ⟨groups, fun restricted => absurd restricted unrestricted⟩
      have restricting : ¬ (request.pass subject).Permits true true dacl remaining :=
        fun restricting => refused ⟨groups, fun _ => restricting⟩
      have groups := first.mpr groups
      simp only [groups, ne_eq, not_true_eq_false, if_false, restricted, if_true]
      exact if_pos (mt second.mp restricting)
    · exact if_pos (mt first.mp groups)

end Normal

theorem returnOneStatus_success (oneResult : request.returnResultList = false) {granted : AccessMask}
    (some : granted ≠ 0) : request.returnOneStatus .success granted 0 =
      ⟨true, [.success], [granted], true, false⟩ := by
  simp only [returnOneStatus, some, and_false, if_false]
  simp [oneResult, NtStatus.ntSuccess_success]

end Request

open Request

namespace Sample

def user : Sid := ⟨1, 5, [21, 1000]⟩
def restricting : Sid := ⟨1, 5, [21, 2000]⟩
def service : Sid := ⟨1, 5, [21, 3000]⟩

/-- A token for the user whose restricting SIDs are given. -/
def token (restrictedSids : List SidAndAttributes) : Token :=
  ⟨[⟨user, seGroupEnabled⟩], restrictedSids, !restrictedSids.isEmpty, false, false⟩

def restrictedToken : Token := token [⟨restricting, seGroupEnabled⟩]

/-- A user-mode request without privileges. -/
def request (dacl : List Ace) (list : Option TypeList) (desired : AccessMask) : Request where
  securityDescriptor := ⟨service, true, some dacl⟩
  principalSelfSid := none
  desiredAccess := desired
  objectTypeList := list
  genericAll := 0
  previouslyGrantedAccess := 0
  previousMode := .userMode
  privileges := true
  poolAvailable := true
  returnResultList := false

def plainDacl : List Ace :=
  [⟨false, 1, .accessAllowed user⟩, ⟨false, 3, .accessAllowed restricting⟩]

end Sample

open Sample

end Ntoskrnl.Se.AccessCheck
