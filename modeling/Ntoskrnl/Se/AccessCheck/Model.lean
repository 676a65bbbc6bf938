/-
# Ntoskrnl.Se.AccessCheck.Model -- the access check

`accessck.c`: which SIDs of a token an ACE matches, the two ways the ACEs of a DACL are
gone through (`SepNormalAccessCheck` for a fixed request, `SepMaximumAccessCheck` for
`MAXIMUM_ALLOWED` and result lists), and the routines around them.  A pass changes the
three masks of each entry of the type list, kept here as a function of the index.

Tracing, locking and the privilege set returned to the caller are left out; whether the
pool has room for that set is an input.
-/
import Ntoskrnl.Se.AccessCheck.TypeList

namespace Ntoskrnl.Se.AccessCheck

set_option autoImplicit false

open Base Function

/-! ## Masks -/

def readControl : AccessMask := 0x00020000
def writeDac : AccessMask := 0x00040000
def writeOwner : AccessMask := 0x00080000
def accessSystemSecurity : AccessMask := 0x01000000
def maximumAllowed : AccessMask := 0x02000000

/-- The masks of an entry of a type list. -/
structure Access where
  remaining : AccessMask
  currentGranted : AccessMask
  currentDenied : AccessMask
  deriving DecidableEq, Repr

/-- `ACCESS_MASK_FIELD_TO_UPDATE`. -/
inductive Field where
  | updateRemaining
  | updateCurrentGranted
  | updateCurrentDenied
  deriving DecidableEq, Repr

/-- What an update does to the masks of one entry. -/
def Access.update (mask : AccessMask) : Field → Access → Access
  | .updateRemaining, access => { access with remaining := access.remaining &&& ~~~mask }
  | .updateCurrentGranted, access =>
    { access with currentGranted := access.currentGranted ||| (mask &&& ~~~access.currentDenied) }
  | .updateCurrentDenied, access =>
    { access with currentDenied := access.currentDenied ||| (mask &&& ~~~access.currentGranted) }

/-- The masks a parent gets from its children. -/
def Access.ofChildren (children : List Access) : Access where
  remaining := children.foldl (fun mask child => mask ||| child.remaining) 0
  currentGranted := children.foldl (fun mask child => mask &&& child.currentGranted) 0xFFFFFFFF
  currentDenied := children.foldl (fun mask child => mask ||| child.currentDenied) 0

/-! ## The type list during a check -/

def sepObjectInTypeList (list : TypeList) (objectType : Guid) : Option Nat :=
  list.types.findIdx? fun entry => entry.objectType = objectType

def sepUpdateParentTypeList (list : TypeList) (access : Nat → Access) (startIndex : Nat) :
    Nat → Access :=
  match _ : list.parentIndex startIndex with
  | none => access
  | some parent =>
    let new := Access.ofChildren ((list.children parent (list.level startIndex)).map access)
    if new = access parent then access
    else sepUpdateParentTypeList list (update access parent new) parent
termination_by startIndex
decreasing_by exact list.parentIndex_lt ‹_›

def sepAddAccessTypeList (list : TypeList) (access : Nat → Access) (startIndex : Nat)
    (accessMask : AccessMask) (field : Field) : Nat → Access :=
  let started := update access startIndex ((access startIndex).update accessMask field)
  let unchanged := started startIndex = access startIndex
  if field = .updateRemaining ∧ unchanged then started
  else
    let avoidParent := unchanged
    let raised := if avoidParent then started else sepUpdateParentTypeList list started startIndex
    (list.below startIndex).foldl
      (fun access j => update access j ((access j).update accessMask field)) raised

/-! ## SIDs and tokens -/

structure Sid where
  revision : Nat
  identifierAuthority : Nat
  subAuthority : List Nat
  deriving DecidableEq, Repr

/-- `SePrincipalSelfSid`, S-1-5-10. -/
def sePrincipalSelfSid : Sid := ⟨1, 5, [10]⟩

def seGroupEnabled : BitVec 32 := 0x00000004
def seGroupUseForDenyOnly : BitVec 32 := 0x00000010

structure SidAndAttributes where
  sid : Sid
  attributes : BitVec 32
  deriving DecidableEq, Repr

def SidAndAttributes.Enabled (entry : SidAndAttributes) : Prop :=
  entry.attributes &&& seGroupEnabled ≠ 0

def SidAndAttributes.DenyOnly (entry : SidAndAttributes) : Prop :=
  entry.attributes &&& seGroupUseForDenyOnly ≠ 0

instance (entry : SidAndAttributes) : Decidable entry.Enabled :=
  inferInstanceAs (Decidable (_ ≠ _))

instance (entry : SidAndAttributes) : Decidable entry.DenyOnly :=
  inferInstanceAs (Decidable (_ ≠ _))

/-- `isRestricted` is the token flag `TOKEN_IS_RESTRICTED`; of the privileges only the two
the access check asks for are kept. -/
structure Token where
  userAndGroups : List SidAndAttributes
  restrictedSids : List SidAndAttributes
  isRestricted : Bool
  seSecurityPrivilege : Bool
  seTakeOwnershipPrivilege : Bool
  deriving DecidableEq, Repr

/-- An ACE that names the principal itself is read as naming the object's own SID. -/
def principal (principalSelfSid : Option Sid) (sid : Sid) : Sid :=
  match principalSelfSid with
  | some self => if sid = sePrincipalSelfSid then self else sid
  | none => sid

/-- The loop over the SIDs of a token from index `i` on: the first entry with the SID
decides. -/
def sidLoop (decides : Nat → SidAndAttributes → Bool) (sid : Sid) : Nat → List SidAndAttributes → Bool
  | _, [] => false
  | i, entry :: rest =>
    if entry.sid = sid then decides i entry else sidLoop decides sid (i + 1) rest

def sepSidInToken (token : Token) (principalSelfSid : Option Sid) (sid : Sid) (denyAce : Bool) :
    Bool :=
  sidLoop (fun i entry => i = 0 ∨ entry.Enabled ∨ (denyAce ∧ entry.DenyOnly))
    (principal principalSelfSid sid) 0 token.userAndGroups

def sepSidInTokenEx (token : Token) (principalSelfSid : Option Sid) (sid : Sid)
    (denyAce restricted : Bool) : Bool :=
  sidLoop (fun i entry => (restricted = false ∧ i = 0 ∧ ¬ entry.DenyOnly) ∨ entry.Enabled ∨
      (denyAce ∧ entry.DenyOnly))
    (principal principalSelfSid sid) 0
    (if restricted then token.restrictedSids else token.userAndGroups)

/-! ## ACEs and descriptors -/

/-- The ACE types the check looks at; every other type is skipped.  The object type is
the one of `RtlObjectAceObjectType`, absent when the ACE has none. -/
inductive AceType where
  | accessAllowed (sid : Sid)
  | accessAllowedObject (objectType : Option Guid) (sid : Sid)
  | accessAllowedCompound (clientSid serverSid : Sid)
  | accessDenied (sid : Sid)
  | accessDeniedObject (objectType : Option Guid) (sid : Sid)
  | other
  deriving DecidableEq, Repr

structure Ace where
  inheritOnly : Bool
  mask : AccessMask
  type : AceType
  deriving DecidableEq, Repr

structure SecurityDescriptor where
  owner : Sid
  daclPresent : Bool
  dacl : Option (List Ace)
  deriving DecidableEq, Repr

inductive ProcessorMode where
  | kernelMode
  | userMode
  deriving DecidableEq, Repr

/-- The arguments the two passes share: the tokens, the object's own SID, the list the
pass works on and whether the caller gave one. -/
structure Pass where
  eToken : Token
  primaryToken : Token
  principalSelfSid : Option Sid
  localTypeList : TypeList
  listGiven : Bool

namespace Pass

variable (pass : Pass) (restricted : Bool)

/-! ## The maximum pass -/

/-- An update of the whole object, with the shortcut for a list of one entry. -/
def updateObject (access : Nat → Access) (mask : AccessMask) (field : Field) : Nat → Access :=
  if pass.localTypeList.length = 1 then
    update access 0 ((access 0).update mask field)
  else sepAddAccessTypeList pass.localTypeList access 0 mask field

/-- The body of the loop of `SepMaximumAccessCheck`. -/
def maximumAce (access : Nat → Access) (ace : Ace) : Nat → Access :=
  if ace.inheritOnly then access
  else
    match ace.type with
    | .accessAllowed sid =>
      if sepSidInTokenEx pass.eToken pass.principalSelfSid sid false restricted then
        pass.updateObject access ace.mask .updateCurrentGranted
      else access
    | .accessAllowedObject none sid =>
      if sepSidInTokenEx pass.eToken pass.principalSelfSid sid false restricted then
        pass.updateObject access ace.mask .updateCurrentGranted
      else access
    | .accessAllowedObject (some objectType) sid =>
      if pass.listGiven = false then access
      else if sepSidInTokenEx pass.eToken pass.principalSelfSid sid false restricted then
        match sepObjectInTypeList pass.localTypeList objectType with
        | some index =>
          sepAddAccessTypeList pass.localTypeList access index ace.mask .updateCurrentGranted
        | none => access
      else access
    | .accessAllowedCompound clientSid serverSid =>
      -- The server SID is looked up in the groups of the primary token in both passes.
      if sepSidInTokenEx pass.eToken pass.principalSelfSid clientSid false restricted &&
          sepSidInTokenEx pass.primaryToken none serverSid false false then
        pass.updateObject access ace.mask .updateCurrentGranted
      else access
    | .accessDenied sid =>
      if sepSidInTokenEx pass.eToken pass.principalSelfSid sid true restricted then
        pass.updateObject access ace.mask .updateCurrentDenied
      else access
    | .accessDeniedObject objectType sid =>
      if sepSidInTokenEx pass.eToken pass.principalSelfSid sid true restricted then
        match objectType with
        | none => pass.updateObject access ace.mask .updateCurrentDenied
        | some objectType =>
          if pass.listGiven = false then
            update access 0 ((access 0).update ace.mask .updateCurrentDenied)
          else
            match sepObjectInTypeList pass.localTypeList objectType with
            | some index =>
              sepAddAccessTypeList pass.localTypeList access index ace.mask .updateCurrentDenied
            | none => access
      else access
    | .other => access

/-- Before the restricted pass the grants so far move to the remaining masks; the denied
masks stay. -/
def enterRestricted (access : Nat → Access) : Nat → Access := fun j =>
  { access j with remaining := (access j).currentGranted, currentGranted := 0 }

def leaveRestricted (access : Nat → Access) : Nat → Access := fun j =>
  { access j with currentGranted := (access j).currentGranted &&& (access j).remaining }

def sepMaximumAccessCheck (dacl : List Ace) (access : Nat → Access) : Nat → Access :=
  if restricted then
    leaveRestricted (dacl.foldl (pass.maximumAce restricted) (enterRestricted access))
  else dacl.foldl (pass.maximumAce restricted) access

/-! ## The normal pass -/

/-- The body of the loop of `SepNormalAccessCheck`; `none` leaves the loop. -/
def normalAce (access : Nat → Access) (ace : Ace) : Option (Nat → Access) :=
  if ace.inheritOnly then some access
  else
    match ace.type with
    | .accessAllowed sid =>
      if sepSidInTokenEx pass.eToken pass.principalSelfSid sid false restricted then
        some (pass.updateObject access ace.mask .updateRemaining)
      else some access
    | .accessAllowedObject none sid =>
      if sepSidInTokenEx pass.eToken pass.principalSelfSid sid false restricted then
        some (pass.updateObject access ace.mask .updateRemaining)
      else some access
    | .accessAllowedObject (some objectType) sid =>
      if pass.listGiven = false then some access
      else if sepSidInTokenEx pass.eToken pass.principalSelfSid sid false restricted then
        match sepObjectInTypeList pass.localTypeList objectType with
        | some index =>
          some (sepAddAccessTypeList pass.localTypeList access index ace.mask .updateRemaining)
        | none => some access
      else some access
    | .accessAllowedCompound clientSid serverSid =>
      -- Here the server SID is looked up among the restricting SIDs in the restricted pass.
      if sepSidInTokenEx pass.eToken pass.principalSelfSid clientSid false restricted &&
          sepSidInTokenEx pass.primaryToken none serverSid false restricted then
        some (pass.updateObject access ace.mask .updateRemaining)
      else some access
    | .accessDenied sid =>
      if sepSidInTokenEx pass.eToken pass.principalSelfSid sid true restricted then
        if (access 0).remaining &&& ace.mask ≠ 0 then none else some access
      else some access
    | .accessDeniedObject objectType sid =>
      if sepSidInTokenEx pass.eToken pass.principalSelfSid sid true restricted then
        match objectType, pass.listGiven with
        | none, _ | some _, false =>
          if (access 0).remaining &&& ace.mask ≠ 0 then none else some access
        | some objectType, true =>
          match sepObjectInTypeList pass.localTypeList objectType with
          | some index =>
            if (access index).remaining &&& ace.mask ≠ 0 then none else some access
          | none => some access
      else some access
    | .other => some access

def normalLoop (access : Nat → Access) : List Ace → (Nat → Access)
  | [] => access
  | ace :: aces =>
    if (access 0).remaining = 0 then access
    else
      match pass.normalAce restricted access ace with
      | none => access
      | some access => normalLoop access aces

def sepNormalAccessCheck (remaining : AccessMask) (dacl : List Ace) (access : Nat → Access) :
    Nat → Access :=
  pass.normalLoop restricted (fun j => { access j with remaining := remaining }) dacl

end Pass

/-! ## SepAccessCheck -/

structure Subject where
  primaryToken : Token
  clientToken : Option Token
  deriving DecidableEq, Repr

/-- `EffectiveToken`: the client's token while impersonating. -/
def Subject.effectiveToken (subject : Subject) : Token :=
  subject.clientToken.getD subject.primaryToken

/-- The other arguments of `SepAccessCheck`: `privileges` says that the caller gave a place
for the privilege set, `poolAvailable` that memory for it can be had. -/
structure Request where
  securityDescriptor : SecurityDescriptor
  principalSelfSid : Option Sid
  desiredAccess : AccessMask
  objectTypeList : Option TypeList
  genericAll : AccessMask
  previouslyGrantedAccess : AccessMask
  previousMode : ProcessorMode
  privileges : Bool
  poolAvailable : Bool
  returnResultList : Bool

/-- What the caller gets: one entry of the two lists for each entry of the result list, or
one alone. -/
structure Verdict where
  retVal : Bool
  accessStatus : List NtStatus
  grantedAccess : List AccessMask
  someAccessGranted : Bool
  someAccessDenied : Bool
  deriving DecidableEq, Repr

/-- `SepSinglePrivilegeCheck`: the kernel holds every privilege. -/
def sepSinglePrivilegeCheck (held : Bool) (previousMode : ProcessorMode) : Bool :=
  previousMode = .kernelMode ∨ held

/-- `SepAssemblePrivileges` leaves a null pointer behind. -/
def Request.assembleFails (request : Request) : Bool :=
  request.privileges && !request.poolAvailable

/-- The list for a caller that gives none. -/
def fixedTypeList : TypeList where
  types := [⟨0, 0, none⟩]
  levelled := (captured_first (fun _ => 0) 0).levelled
  parented := (captured_first (fun _ => 0) 0).parented

namespace Request

variable (request : Request) (subject : Subject)

def localTypeList : TypeList := request.objectTypeList.getD fixedTypeList

def objectTypeListLength : Nat :=
  match request.objectTypeList with
  | some list => list.length
  | none => 0

def pass : Pass where
  eToken := subject.effectiveToken
  primaryToken := subject.primaryToken
  principalSelfSid := request.principalSelfSid
  localTypeList := request.localTypeList
  listGiven := request.objectTypeList.isSome

/-- From the label `ReturnOneStatus` on. -/
def returnOneStatus (status : NtStatus) (previouslyGranted : AccessMask) (privilegeCount : Nat) :
    Verdict :=
  let status := if status = .success ∧ previouslyGranted = 0 then .accessDenied else status
  let noMemory := status.ntSuccess ∧ 0 < privilegeCount ∧ request.assembleFails
  let status := if noMemory then .noMemory else status
  let previouslyGranted := if noMemory then 0 else previouslyGranted
  let count := if request.returnResultList then request.objectTypeListLength else 1
  { retVal := ¬ noMemory
    accessStatus := List.replicate count status
    grantedAccess := List.replicate count previouslyGranted
    someAccessGranted := status.ntSuccess
    someAccessDenied := !status.ntSuccess }

/-- The masks both passes start from. -/
def zeroAccess : Nat → Access := fun _ => ⟨0, 0, 0⟩

/-- The masks after the maximum pass, or both of them for a restricted token. -/
def maximumAccess (dacl : List Ace) : Nat → Access :=
  let pass := request.pass subject
  let access := pass.sepMaximumAccessCheck false dacl zeroAccess
  if subject.effectiveToken.isRestricted then pass.sepMaximumAccessCheck true dacl access
  else access

/-- The result list; an entry succeeds when it has every required bit and some bit. -/
def resultList (access : Nat → Access) (previouslyGranted : AccessMask) (privilegeCount : Nat) :
    Verdict :=
  let both := request.desiredAccess ||| previouslyGranted
  let maximum := request.desiredAccess &&& maximumAllowed ≠ 0
  let grantedMask := if maximum then ~~~maximumAllowed else both
  let requiredMask := if maximum then both &&& ~~~maximumAllowed else both
  let granted := (List.range request.localTypeList.length).map fun j =>
    ((access j).currentGranted ||| previouslyGranted) &&& grantedMask
  let status := granted.map fun mask =>
    if mask = 0 then NtStatus.accessDenied
    else if ~~~mask &&& requiredMask ≠ 0 then .accessDenied
    else .success
  let someGranted := status.any (· = .success)
  let someDenied := status.any (· = .accessDenied)
  if someGranted ∧ privilegeCount ≠ 0 ∧ request.assembleFails then
    { retVal := false
      accessStatus := status.map fun _ => .noMemory
      grantedAccess := granted.map fun _ => 0
      someAccessGranted := false
      someAccessDenied := true }
  else
    { retVal := true
      accessStatus := status
      grantedAccess := granted
      someAccessGranted := someGranted
      someAccessDenied := someDenied }

/-- The part of `SepAccessCheck` after the privileges: the ACEs of a DACL. -/
def checkAces (dacl : List Ace) (remaining previouslyGranted : AccessMask)
    (privilegeCount : Nat) : Verdict :=
  if dacl = [] then
    if remaining = maximumAllowed ∧ previouslyGranted ≠ 0 then
      request.returnOneStatus .success previouslyGranted privilegeCount
    else request.returnOneStatus .accessDenied 0 privilegeCount
  else if request.desiredAccess &&& maximumAllowed ≠ 0 ∨ request.returnResultList then
    let access := request.maximumAccess subject dacl
    if request.returnResultList then request.resultList access previouslyGranted privilegeCount
    else if remaining &&& ~~~(maximumAllowed ||| (access 0).currentGranted) ≠ 0 then
      request.returnOneStatus .accessDenied 0 privilegeCount
    else
      request.returnOneStatus .success (previouslyGranted ||| (access 0).currentGranted)
        privilegeCount
  else
    let pass := request.pass subject
    let access := pass.sepNormalAccessCheck false remaining dacl zeroAccess
    if (access 0).remaining ≠ 0 then request.returnOneStatus .accessDenied 0 privilegeCount
    else
      let access :=
        if subject.effectiveToken.isRestricted then
          pass.sepNormalAccessCheck true remaining dacl access
        else access
      if (access 0).remaining ≠ 0 then request.returnOneStatus .accessDenied 0 privilegeCount
      else
        request.returnOneStatus .success (previouslyGranted ||| request.desiredAccess)
          privilegeCount

/-- The part of `SepAccessCheck` after the check for `ACCESS_SYSTEM_SECURITY`.  An object
without a DACL is open to everyone. -/
def checkDacl (remaining previouslyGranted : AccessMask) (privilegeCount : Nat) : Verdict :=
  match request.securityDescriptor.daclPresent, request.securityDescriptor.dacl with
  | false, _ | true, none =>
    let granted :=
      if request.desiredAccess &&& maximumAllowed ≠ 0 then
        request.genericAll ||| (request.desiredAccess ||| previouslyGranted) &&& ~~~maximumAllowed
      else previouslyGranted ||| request.desiredAccess
    request.returnOneStatus .success granted privilegeCount
  | true, some dacl =>
    if remaining &&& writeOwner ≠ 0 ∧ request.privileges ∧
        sepSinglePrivilegeCheck subject.effectiveToken.seTakeOwnershipPrivilege
          request.previousMode then
      let remaining := remaining &&& ~~~writeOwner
      let previouslyGranted := previouslyGranted ||| writeOwner
      if remaining = 0 then
        request.returnOneStatus .success previouslyGranted (privilegeCount + 1)
      else request.checkAces subject dacl remaining previouslyGranted (privilegeCount + 1)
    else request.checkAces subject dacl remaining previouslyGranted privilegeCount

end Request

def sepAccessCheck (request : Request) (subject : Subject) : Verdict :=
  let remaining := request.desiredAccess
  let previouslyGranted := request.previouslyGrantedAccess
  if remaining &&& accessSystemSecurity ≠ 0 then
    if sepSinglePrivilegeCheck subject.effectiveToken.seSecurityPrivilege request.previousMode then
      let remaining := remaining &&& ~~~accessSystemSecurity
      let previouslyGranted := previouslyGranted ||| accessSystemSecurity
      if remaining = 0 then request.returnOneStatus .success previouslyGranted 1
      else request.checkDacl subject remaining previouslyGranted 1
    else request.returnOneStatus .privilegeNotHeld 0 0
  else request.checkDacl subject remaining previouslyGranted 0

/-! ## SeAccessCheck -/

def sepTokenIsOwner (token : Token) (securityDescriptor : SecurityDescriptor) : Bool :=
  sepSidInToken token none securityDescriptor.owner false &&
    (!token.isRestricted || sepSidInTokenEx token none securityDescriptor.owner false true)

/-- `SECURITY_IMPERSONATION_LEVEL`. -/
inductive ImpersonationLevel where
  | securityAnonymous
  | securityIdentification
  | securityImpersonation
  | securityDelegation
  deriving DecidableEq, Repr

/-- The levels below `SecurityImpersonation` do not let a server act for its client. -/
def ImpersonationLevel.belowImpersonation : ImpersonationLevel → Bool
  | .securityAnonymous | .securityIdentification => true
  | .securityImpersonation | .securityDelegation => false

/-- The arguments of `SeAccessCheck` besides the tokens. -/
structure SimpleRequest where
  securityDescriptor : Option SecurityDescriptor
  impersonationLevel : ImpersonationLevel
  desiredAccess : AccessMask
  previouslyGrantedAccess : AccessMask
  genericAll : AccessMask
  accessMode : ProcessorMode
  privileges : Bool
  poolAvailable : Bool
  deriving DecidableEq, Repr

/-- What `SeAccessCheck` returns; a granted mask it did not write is absent. -/
structure SimpleVerdict where
  granted : Bool
  grantedAccess : Option AccessMask
  accessStatus : NtStatus
  deriving DecidableEq, Repr

namespace SimpleRequest

/-- The call of `SepAccessCheck` that `SeAccessCheck` makes. -/
def request (simple : SimpleRequest) (securityDescriptor : SecurityDescriptor)
    (desiredAccess previouslyGrantedAccess : AccessMask) : Request where
  securityDescriptor := securityDescriptor
  principalSelfSid := none
  desiredAccess := desiredAccess
  objectTypeList := none
  genericAll := simple.genericAll
  previouslyGrantedAccess := previouslyGrantedAccess
  previousMode := simple.accessMode
  privileges := simple.privileges
  poolAvailable := simple.poolAvailable
  returnResultList := false

/-- After the owner's bits have been moved to the bits already granted. -/
def checkRest (simple : SimpleRequest) (subject : Subject)
    (securityDescriptor : SecurityDescriptor) (desired previously : AccessMask) : SimpleVerdict :=
  if desired = 0 then ⟨true, some previously, .success⟩
  else
    let verdict := sepAccessCheck (simple.request securityDescriptor desired previously) subject
    { granted := verdict.retVal && verdict.someAccessGranted
      grantedAccess := verdict.grantedAccess.head?
      accessStatus := verdict.accessStatus.headD .success }

end SimpleRequest

def seAccessCheck (simple : SimpleRequest) (subject : Subject) : SimpleVerdict :=
  let desired := simple.desiredAccess
  let previously := simple.previouslyGrantedAccess
  if simple.accessMode = .kernelMode then
    let granted :=
      if desired &&& maximumAllowed ≠ 0 then
        simple.genericAll ||| (desired &&& ~~~maximumAllowed) ||| previously
      else desired ||| previously
    ⟨true, some granted, .success⟩
  else
    match simple.securityDescriptor with
    | none => ⟨false, none, .accessDenied⟩
    | some securityDescriptor =>
      if subject.clientToken.isSome ∧ simple.impersonationLevel.belowImpersonation then
        ⟨false, none, .badImpersonationLevel⟩
      else if desired = 0 then
        if previously = 0 then ⟨false, none, .accessDenied⟩
        else ⟨true, some previously, .success⟩
      else if desired &&& (writeDac ||| readControl ||| maximumAllowed) ≠ 0 ∧
          sepTokenIsOwner subject.effectiveToken securityDescriptor then
        let previously :=
          if desired &&& maximumAllowed ≠ 0 then previously ||| (writeDac ||| readControl)
          else previously ||| desired &&& (writeDac ||| readControl)
        simple.checkRest subject securityDescriptor (desired &&& ~~~(writeDac ||| readControl))
          previously
      else simple.checkRest subject securityDescriptor desired previously

end Ntoskrnl.Se.AccessCheck
