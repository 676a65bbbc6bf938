/-
# Ntoskrnl.Se.AccessCheck.Restricting -- does restricting a token take access away?

Giving a token restricting SIDs should never add access.  In the normal check it does not.
In the maximum check the restricted pass keeps the user's grants in masks that the tree
updates recompute, so an entry can get what only one of its children was granted.  Where
every parent that is recomputed was granted the same as its children, nothing is added.
-/
import Ntoskrnl.Se.AccessCheck.Agreement

namespace Ntoskrnl.Se.AccessCheck

set_option autoImplicit false

open TypeList Base Request List

/-! ## The restricted caller -/

variable {request : Request} {sids : List SidAndAttributes} {subject : Subject}

section Restrict

variable {dacl : List Ace}

end Restrict

/-! ## Comparing two verdicts -/

variable {count : Nat}

section Below

variable {verdict : Verdict}

end Below

/-! ## Where restricting is safe -/

namespace Request

variable (request : Request) (subject : Subject)

/-- `SeTakeOwnershipPrivilege` grants a bit of what remains. -/
def TakesOwnership (remaining : AccessMask) : Prop :=
  remaining &&& writeOwner ≠ 0 ∧ request.privileges ∧
    sepSinglePrivilegeCheck subject.effectiveToken.seTakeOwnershipPrivilege request.previousMode

/-- The call is answered before the ACEs are read: a bit is asked for that only a privilege the
caller lacks can grant, or privileges grant the whole request. -/
def Settled : Prop :=
  let rest := request.desiredAccess &&& ~~~accessSystemSecurity
  if request.desiredAccess &&& accessSystemSecurity ≠ 0 then
    sepSinglePrivilegeCheck subject.effectiveToken.seSecurityPrivilege request.previousMode →
      rest = 0 ∨ (request.TakesOwnership subject rest ∧ rest &&& ~~~writeOwner = 0)
  else request.TakesOwnership subject request.desiredAccess ∧
    request.desiredAccess &&& ~~~writeOwner = 0

end Request

section Safe

variable {dacl : List Ace}

section Below

variable (unrestricted : subject.effectiveToken.isRestricted = false)

include unrestricted

end Below

end Safe

namespace Sample

end Sample

open Sample

end Ntoskrnl.Se.AccessCheck
