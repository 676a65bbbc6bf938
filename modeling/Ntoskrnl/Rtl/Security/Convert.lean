/-
# Ntoskrnl.Rtl.Security.Convert -- finding out which ACEs were inherited

`RtlpConvertAclToAutoInherit` takes an ACL from the days before automatic
inheritance, works out what the object would have inherited from its parent, and
looks for that in the ACL.  If all of it is there, the ACL is split: what the parent
does not account for stays in front as explicit ACEs, and behind it comes what is
inherited.  Otherwise the ACL is copied and protected from inheritance.

What is inherited is worked out twice.  The first time the creator SIDs stay, so that
an ACE of the owner can be told from one of `CREATOR_OWNER`; the second time they are
replaced.
-/
import Ntoskrnl.Rtl.Security.Inherit

namespace Ntoskrnl.Rtl.Security

set_option autoImplicit false

/-! ## Matching the ACEs -/

/-- What `RtlpConvertAclToAutoInherit` is told. -/
structure ConvertArguments where
  parentAcl : Option Acl
  childAcl : Acl
  objectType : Option Guid
  isDirectoryObject : Bool
  ownerSid : Sid
  groupSid : Sid
  genericMapping : GenericMapping

/-- What the parent is asked for, with these SIDs for the owner and the group. -/
def ConvertArguments.inherit (args : ConvertArguments) (ownerSid groupSid : Sid) :
    InheritArguments where
  childAcl := none
  childGenericControl := 0
  isDirectoryObject := args.isDirectoryObject
  autoInherit := true
  defaultDescriptorForObject := false
  creator := ⟨ownerSid, some groupSid, some ownerSid, some groupSid⟩
  genericMapping := args.genericMapping
  isSacl := true
  newObjectType := args.objectType.toList

/-- The mapped mask of an ACE, for each of those it concerns. -/
def localMasks (mapping : GenericMapping) (ace : Ace) : Masks where
  containerInherit :=
    if flagOn (aceFlagsInAce ace) containerInheritAce then applyGenericMask mapping ace.body else 0
  objectInherit :=
    if flagOn (aceFlagsInAce ace) objectInheritAce then applyGenericMask mapping ace.body else 0
  effective :=
    if flagOn (aceFlagsInAce ace) effectiveAceFlag then applyGenericMask mapping ace.body else 0

/-- `ACE_INFO`: an ACE of the child with its masks and what is left of them. -/
structure AceInfo where
  ace : Ace
  original : Masks
  left : Masks
deriving DecidableEq, Repr

def aceInfo (mapping : GenericMapping) (ace : Ace) : AceInfo :=
  ⟨ace, localMasks mapping ace, localMasks mapping ace⟩

/-- One inherited ACE against the ACEs of the child: what is left of it, and of them. -/
def matchInherited (args : ConvertArguments) (inherited : Ace) (original : Masks) :
    Masks → List AceInfo → Masks × List AceInfo
  | remaining, [] => (remaining, [])
  | remaining, info :: infos =>
    if compareAces inherited info.ace (some args.ownerSid) (some args.groupSid) then
      let (remaining, infos) := matchInherited args inherited original
        (remaining.without info.original) infos
      (remaining, { info with left := info.left.without original } :: infos)
    else
      let (remaining, infos) := matchInherited args inherited original remaining infos
      (remaining, info :: infos)

/-- All inherited ACEs against the ACEs of the child; nothing if the child is to be protected. -/
def matchAll (args : ConvertArguments) : List Ace → List AceInfo → Option (List AceInfo)
  | [], infos => some infos
  | inherited :: aces, infos =>
    if inherited.body.comparable then
      if applyGenericMask args.genericMapping inherited.body = 0 ∨
          aceFlagsInAce inherited = 0 then matchAll args aces infos
      else
        let original := localMasks args.genericMapping inherited
        let (remaining, infos) := matchInherited args inherited original original infos
        if remaining.empty then matchAll args aces infos else none
    else none

/-! ## The ACEs that stay -/

/-- `ResultantMask`. -/
def AceInfo.resultantMask (info : AceInfo) : AccessMask :=
  info.left.effective ||| info.left.containerInherit ||| info.left.objectInherit

/-- The entry of `RtlBaseAceType`. -/
def AceBody.baseAceType? : AceBody → Option BaseAceType
  | .known kind _ _ | .object kind _ _ _ _ _ => some kind
  | .compound .. | .unknown .. => none

/-- No ACE that stays has an inherited one of the opposite kind in front of it. -/
def keepsOrder : Bool → Bool → List AceInfo → Bool
  | _, _, [] => true
  | inheritedAllowFound, inheritedDenyFound, info :: infos =>
    let allows := info.ace.body.baseAceType? == some .accessAllowed
    let denies := info.ace.body.baseAceType? == some .accessDenied
    if info.resultantMask = 0 then
      keepsOrder (inheritedAllowFound || allows) (inheritedDenyFound || denies) infos
    else if allows && inheritedDenyFound then false
    else if denies && inheritedAllowFound then false
    else keepsOrder inheritedAllowFound inheritedDenyFound infos

/-- One turn of the loop over the generic bits: the mask of the new ACE and what is left. -/
def tryGenericBit (mapping : GenericMapping) (childMask : AccessMask)
    (state : AccessMask × AccessMask) (genericBit : AccessMask) : AccessMask × AccessMask :=
  if state.2 = 0 then state
  else if flagOn genericBit childMask then
    let genericMask := mapGenericMask mapping genericBit
    if flagOn state.2 genericMask then (state.1 ||| genericBit, state.2 &&& ~~~genericMask)
    else state
  else state

/-- The mask of an ACE that stays, with generic bits for what they stood for. -/
def newMask (mapping : GenericMapping) (childMask resultantMask : AccessMask) : AccessMask :=
  let (mask, left) := [genericRead, genericWrite, genericExecute, genericAll].foldl
    (tryGenericBit mapping childMask) (childMask &&& resultantMask, resultantMask &&& ~~~childMask)
  mask ||| left

/-- An ACE that stays. -/
def newAce (mapping : GenericMapping) (info : AceInfo) : Ace :=
  { info.ace with
    aceFlags := info.ace.aceFlags &&& ~~~inheritedAce
    body := info.ace.body.setMask (newMask mapping info.ace.body.mask info.resultantMask) }

def staying (infos : List AceInfo) : List AceInfo :=
  infos.filter fun info => info.resultantMask != 0

/-! ## The conversion -/

/-- Whether the pool gives what is asked for, in the order in which it is. -/
structure ConvertPool where
  inheritedAcl : Bool × Bool
  childAceInfo : Bool
  realInheritedAcl : Bool × Bool
  newAcl : Bool
  protectedAcl : Bool
  /-- What the blocks of the two inherited ACLs hold. -/
  stale : Acl × Acl

end Ntoskrnl.Rtl.Security
