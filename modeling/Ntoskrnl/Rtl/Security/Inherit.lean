/-
# Ntoskrnl.Rtl.Security.Inherit -- building the ACL of a new object

`RtlpInheritAcl` builds an ACL from the ACL a caller asks for and the ACL of the
parent directory.  It works in two passes: the first into a small buffer, the second
into one of the size the first has asked for.  The buffer is initialised by
`RtlCreateAcl`, whose answer nobody looks at: of a size it refuses, the buffer keeps
what the pool block happened to hold, and `stale` is that read as an ACL.

A protected ACL is to inherit nothing.  Whether the ACL of the directory is asked is one
condition over three flags and the mode of inheritance; that the ACL is protected is
recorded by another.  They agree with automatic inheritance.  Without it the flag that
counts is the one that says an ACL is present: a protected ACL that is not marked present
takes ACEs from the directory and is reported as protected all the same.
-/
import Ntoskrnl.Rtl.Security.CopyAces

namespace Ntoskrnl.Rtl.Security

set_option autoImplicit false

/-! ## Duplicates -/

/-- `AceFlagsInAce`: whom the ACE concerns, with the effective bit in place of inherit-only. -/
def aceFlagsInAce (ace : Ace) : AceFlags :=
  (ace.aceFlags &&& (objectInheritAce ||| containerInheritAce)) |||
    ((ace.aceFlags &&& inheritOnlyAce) ^^^ inheritOnlyAce)

def effectiveAceFlag : AceFlags := inheritOnlyAce

def compareSids (ownerSid groupSid : Option Sid) (child : Ace) (inheritedSid childSid : Sid) :
    Bool :=
  if childSid = inheritedSid then true
  else if aceFlagsInAce child ≠ effectiveAceFlag then false
  else if ownerSid.isNone && groupSid.isNone then false
  else if equalPrefixSid inheritedSid (creatorSid securityCreatorOwnerRid) then
    let rid := inheritedSid.subAuthorities.headD 0
    if rid = securityCreatorOwnerRid then ownerSid == some childSid
    else if rid = securityCreatorGroupRid then groupSid == some childSid
    else false
  else false

/-- The flags of system ACEs that tell which accesses they are for. -/
def sameAudits (kind : BaseAceType) (inherited child : Ace) : Bool :=
  !kind.isSystem || child.aceFlags &&& (successfulAccessAceFlag ||| failedAccessAceFlag) ==
      inherited.aceFlags &&& (successfulAccessAceFlag ||| failedAccessAceFlag)

/-- `RtlpCompareAces`, of ACEs that are neither compound nor unknown. -/
def compareAces (inherited child : Ace) (ownerSid groupSid : Option Sid) : Bool :=
  match inherited.body, child.body with
  | .known kind _ inheritedSid, .known childKind _ childSid =>
    childKind == kind && sameAudits childKind inherited child &&
      compareSids ownerSid groupSid child inheritedSid childSid
  | .object kind _ _ objectType inheritedObjectType inheritedSid,
      .object childKind _ _ childObjectType childInheritedObjectType childSid =>
      childKind == kind && sameAudits childKind inherited child &&
        childInheritedObjectType == inheritedObjectType && childObjectType == objectType &&
        compareSids ownerSid groupSid child inheritedSid childSid
  | _, _ => false

/-- The mask of an ACE, for each of those it concerns. -/
structure Masks where
  containerInherit : AccessMask
  objectInherit : AccessMask
  effective : AccessMask
deriving DecidableEq, Repr

def Ace.masks (ace : Ace) : Masks where
  containerInherit := if flagOn ace.aceFlags containerInheritAce then ace.body.mask else 0
  objectInherit := if flagOn ace.aceFlags objectInheritAce then ace.body.mask else 0
  effective := if ace.inheritOnly then 0 else ace.body.mask

/-- The bits that are left when those of another ACE are matched. -/
def Masks.without (masks others : Masks) : Masks where
  containerInherit := masks.containerInherit &&& ~~~others.containerInherit
  objectInherit := masks.objectInherit &&& ~~~others.objectInherit
  effective := masks.effective &&& ~~~others.effective

def Masks.empty (masks : Masks) : Bool :=
  masks.effective ||| masks.containerInherit ||| masks.objectInherit == 0

/-- `IsV4AceType` and not `IsCompoundAceType`. -/
def AceBody.comparable : AceBody → Bool
  | .known .. | .object .. => true
  | .compound .. | .unknown .. => false

/-- The loop of `RtlpIsDuplicateAce`. -/
def allMatched (newAce : Ace) : Masks → List Ace → Bool
  | _, [] => false
  | masks, ace :: aces =>
    if ace.body.comparable && ace.inherited && compareAces ace newAce none none then
      if (masks.without ace.masks).empty then true
      else allMatched newAce (masks.without ace.masks) aces
    else allMatched newAce masks aces

/-- `RtlpIsDuplicateAce`, of an ACE behind those of the list. -/
def isDuplicateAce (aces : List Ace) (newAce : Ace) : Bool :=
  newAce.body.comparable && newAce.inherited && allMatched newAce newAce.masks aces

/-! ## Inheriting from the directory -/

/-- What `RtlpInheritAcl` is told, besides the ACL of the directory. -/
structure InheritArguments where
  childAcl : Option Acl
  childGenericControl : GenericControl
  isDirectoryObject : Bool
  autoInherit : Bool
  defaultDescriptorForObject : Bool
  creator : Creator
  genericMapping : GenericMapping
  isSacl : Bool
  /-- Empty if there is no list. -/
  newObjectType : List Guid

/-- `Propagate`. -/
def propagate (ace : Ace) : Bool :=
  !flagOn ace.aceFlags noPropagateInheritAce &&
    (flagOn ace.aceFlags objectInheritAce || flagOn ace.aceFlags containerInheritAce)

/-- The result of inheriting ACEs. -/
structure Generated where
  acl : Acl
  newLength : Nat
  newExtraLength : Nat
  objectAceInherited : Bool
  aclOverflowed : Bool

/-- The effective ACE of `RtlpGenerateInheritedAce`, unless it is a duplicate. -/
def generateEffective (args : InheritArguments) (old : Ace) (acl : Acl) :
    Except Failure (Acl × CopiedEffective × Nat) := do
  if (args.isDirectoryObject && flagOn old.aceFlags containerInheritAce) ||
      (!args.isDirectoryObject && flagOn old.aceFlags objectInheritAce) then do
    let copied ← copyEffectiveAce args.genericMapping args.creator
      args.autoInherit (args.isDirectoryObject && propagate old)
      (some args.newObjectType) acl.room old
    match copied.ace with
    | none => pure (acl, copied, 0)
    | some ace =>
      if isDuplicateAce acl.aces ace then
        pure (acl, { copied with newAceLength := 0 }, copied.newAceLength)
      else pure ({ acl with aces := acl.aces ++ [ace] }, copied, 0)
  else pure (acl, ⟨0, none, false, false, false⟩, 0)

/-- The inheritance bits of the original ACE, merged into the effective ACE at the end. -/
def mergeFlags (args : InheritArguments) (old ace : Ace) : Ace :=
  { ace with
    aceFlags := ace.aceFlags ||| (old.aceFlags &&& (containerInheritAce ||| objectInheritAce)) |||
      (if args.autoInherit then inheritedAce else 0) }

/-- `RtlpGenerateInheritedAce`. -/
def generateInheritedAce (args : InheritArguments) (old : Ace) (acl : Acl) :
    Except Failure Generated := do
  if ¬ acl.firstFreeAce then throw .badInheritanceAcl else do
  let (withEffective, copied, extra) ← generateEffective args old acl
  if args.isDirectoryObject && propagate old then
    if copied.newAceLength ≠ 0 ∧ ¬ copied.effectiveAceMapped then
      let aces := if copied.aclOverflowed then withEffective.aces
        else withEffective.aces.dropLast ++
          (withEffective.aces.getLast?.map (mergeFlags args old)).toList
      pure ⟨{ withEffective with aces }, copied.newAceLength, extra, copied.objectAceInherited,
        copied.aclOverflowed⟩
    else if ¬ old.body.isMs ∨ old.body.mask ≠ 0 then
      let lengthRequired := copied.newAceLength + old.aceSize
      if 0xFFFF < lengthRequired then throw .badInheritanceAcl
      else if withEffective.room < old.aceSize then
        pure ⟨withEffective, lengthRequired, extra, copied.objectAceInherited, true⟩
      else if copied.aclOverflowed then
        pure ⟨withEffective, lengthRequired, extra, copied.objectAceInherited, true⟩
      else
        let inheritable := { old with
          aceFlags := old.aceFlags ||| inheritOnlyAce |||
            (if args.autoInherit then inheritedAce else 0) }
        if args.autoInherit && isDuplicateAce withEffective.aces inheritable then
          pure ⟨withEffective, copied.newAceLength, max extra old.aceSize,
            copied.objectAceInherited, false⟩
        else
          pure ⟨{ withEffective with aces := withEffective.aces ++ [inheritable] },
            lengthRequired, extra, copied.objectAceInherited, false⟩
    else pure ⟨withEffective, copied.newAceLength, extra, copied.objectAceInherited,
      copied.aclOverflowed⟩
  else pure ⟨withEffective, copied.newAceLength, extra, copied.objectAceInherited,
    copied.aclOverflowed⟩

/-- One turn of the loop of `RtlpGenerateInheritAcl`. -/
def generateNext (args : InheritArguments) (before : Generated) (old : Ace) :
    Except Failure Generated := do
  let next ← generateInheritedAce args old before.acl
  let extra := if before.newExtraLength < next.newLength then 0
    else before.newExtraLength - next.newLength
  pure ⟨next.acl, before.newLength + next.newLength, max extra next.newExtraLength,
    before.objectAceInherited || next.objectAceInherited,
    before.aclOverflowed || next.aclOverflowed⟩

/-- `RtlpGenerateInheritAcl`.  The extra length is asked for only after an overflow. -/
def generateInheritAcl (args : InheritArguments) (aces : List Ace) (acl : Acl) :
    Except Failure Generated := do
  let generated ← aces.foldlM (generateNext args) ⟨acl, 0, 0, false, false⟩
  pure { generated with
    newLength := if generated.aclOverflowed then
      generated.newLength + generated.newExtraLength else generated.newLength }

/-! ## The ACL of the object -/

def sepAclPresent : GenericControl := 0x0004
def sepAclDefaulted : GenericControl := 0x0008
def sepAclAutoInherited : GenericControl := 0x0400
def sepAclProtected : GenericControl := 0x1000

/-- The part of the ACL that comes from the child ACL. -/
structure ChildPart where
  acl : Acl
  aclRevision : Nat
  childNewAclSize : Nat
  aclOverflowed : Bool
  nullAclOk : Bool
  newAclExplicitlyAssigned : Bool
  aclProtected : Bool

/-- How the ACEs of the child ACL are copied. -/
def InheritArguments.childOptions (args : InheritArguments) : CopyOptions where
  genericMapping := args.genericMapping
  aceTypeToCopy :=
    if ¬ args.autoInherit then .copyAllAces
    else if flagOn args.childGenericControl sepAclProtected then .copyAllAces
    else .copyNonInheritedAces
  aceFlagsToReset :=
    if ¬ args.autoInherit then 0
    else if flagOn args.childGenericControl sepAclProtected then inheritedAce
    else 0
  mapSids := if args.autoInherit then some args.creator else none
  isDirectoryObject := args.isDirectoryObject
  retainInheritedAceBit := false

def childPart (args : InheritArguments) (buffer : Acl) : Except Failure ChildPart := do
  if flagOn args.childGenericControl sepAclDefaulted then
    pure ⟨buffer, aclRevision2, 0, false, true, false, false⟩
  else
    let aclProtected := flagOn args.childGenericControl sepAclProtected
    if flagOn args.childGenericControl (sepAclPresent ||| sepAclProtected) then
      match args.childAcl with
      | some child => do
          let (acl, size, aclOverflowed) ← copyAces args.childOptions child.aces buffer
          if args.defaultDescriptorForObject ∧ size ≠ 0 ∧ ¬ acl.firstFreeAce then
            throw .badInheritanceAcl
          else
            pure ⟨acl, max aclRevision2 child.aclRevision, size, aclOverflowed, false, true,
              aclProtected⟩
      | none =>
        if args.autoInherit ∧ ¬ args.isSacl ∧
            args.childGenericControl &&& (sepAclPresent ||| sepAclProtected) =
              sepAclPresent then throw .invalidAcl
        else pure ⟨buffer, aclRevision2, 0, false, true, true, aclProtected⟩
    else pure ⟨buffer, aclRevision2, 0, false, true, false, aclProtected⟩

/-- Whether the ACL of the directory is asked. -/
def consultsDirectory (args : InheritArguments) (aclProtected : Bool) : Bool :=
  (!args.autoInherit && !flagOn args.childGenericControl sepAclPresent ||
      flagOn args.childGenericControl sepAclDefaulted) ||
    (args.autoInherit && !aclProtected)

/-- The ACL with the part of the directory. -/
structure BothParts where
  acl : Acl
  aclRevision : Nat
  directoryNewAclSize : Nat
  usedChildNewAclSize : Nat
  aclOverflowed : Bool

/-- The part of the directory.  A default ACL is taken out again if ACEs for the type of the
object have been inherited. -/
def directoryPart (args : InheritArguments) (directoryAcl : Option Acl) (child : ChildPart) :
    Except Failure BothParts := do
  if consultsDirectory args child.aclProtected then
    match directoryAcl with
    | none => pure ⟨child.acl, child.aclRevision, 0, child.childNewAclSize, child.aclOverflowed⟩
    | some directory =>
      if ¬ directory.validRevision then throw .unknownRevision else do
      let generated ← generateInheritAcl args directory.aces child.acl
      let aclOverflowed := child.aclOverflowed || generated.aclOverflowed
      let aclRevision := max child.aclRevision directory.aclRevision
      if args.defaultDescriptorForObject ∧ child.childNewAclSize ≠ 0 ∧
          generated.objectAceInherited ∧ ¬ aclOverflowed then
        if ¬ generated.acl.firstFreeAce then throw .badInheritanceAcl else
        let aces := generated.acl.aces.drop child.acl.aces.length
        pure ⟨{ generated.acl with aces }, aclRevision, generated.newLength, 0, aclOverflowed⟩
      else
        pure ⟨generated.acl, aclRevision, generated.newLength, child.childNewAclSize, aclOverflowed⟩
  else pure ⟨child.acl, child.aclRevision, 0, child.childNewAclSize, child.aclOverflowed⟩

structure NewAcl where
  /-- `none` is the `NULL` ACL. -/
  acl : Option Acl
  newAclExplicitlyAssigned : Bool
  newGenericControl : GenericControl
deriving DecidableEq, Repr

def newControl (args : InheritArguments) (aclProtected : Bool) : GenericControl :=
  (if args.autoInherit then sepAclAutoInherited else 0) |||
    (if aclProtected then sepAclProtected else 0)

/-- `RtlpInheritAcl2`, into a buffer. -/
def inheritAcl2 (args : InheritArguments) (directoryAcl : Option Acl) (buffer : Acl) :
    Except Failure NewAcl := do
  let child ← childPart args buffer
  let both ← directoryPart args directoryAcl child
  let control := newControl args child.aclProtected
  let size := both.directoryNewAclSize + both.usedChildNewAclSize
  if size = 0 ∧ ¬ child.newAclExplicitlyAssigned then throw .noInheritance
  else if size = 0 ∧ child.nullAclOk then pure ⟨none, child.newAclExplicitlyAssigned, control⟩
  else if 0xFFFF < size + sizeofAcl then throw .badInheritanceAcl
  else if both.aclOverflowed then
    throw (.bufferTooSmall (both.directoryNewAclSize + child.childNewAclSize + sizeofAcl))
  else
    pure ⟨some ⟨both.aclRevision, size + sizeofAcl, both.acl.aces⟩,
      child.newAclExplicitlyAssigned, control⟩

/-- `MAX_USTRING`. -/
def maxUstring : Nat := 0xFFFE

/-- `RtlCreateAcl` of revision `ACL_REVISION`, in a block that holds `stale`. -/
def createAcl (stale : Acl) (aclLength : Nat) : Acl :=
  if aclLength < sizeofAcl ∨ maxUstring < aclLength then stale
  else ⟨aclRevision2, aclLength &&& 0xFFFC, []⟩

variable {α : Type}

/-- The two passes: a buffer of `first` bytes, then one of the size that was asked for.
`allocate` is whether the pool gives the first and the second block. -/
def twoPasses (first : Nat) (allocate : Bool × Bool) (stale : Acl) (build : Acl → Except Failure α) :
    Except Failure α :=
  if ¬ allocate.1 then throw .noMemory
  else
    match build (createAcl stale first) with
    | .error (.bufferTooSmall required) =>
      if ¬ allocate.2 then throw .noMemory else build (createAcl stale required)
    | outcome => outcome

/-- `RtlpInheritAcl`. -/
def inheritAcl (args : InheritArguments) (directoryAcl : Option Acl)
    (allocate : Bool × Bool) (stale : Acl) : Except Failure NewAcl :=
  twoPasses 200 allocate stale (inheritAcl2 args directoryAcl)

open Lib.Checked

variable {args : InheritArguments} {directory : Option Acl} {buffer stale : Acl}
  {allocate : Bool × Bool} {result : NewAcl}

/-! ## The two passes -/

theorem twoPasses_ok {first : Nat} {build : Acl → Except Failure α} {result : α}
    (run : twoPasses first allocate stale build = .ok result) :
    build (createAcl stale first) = .ok result ∨ ∃ required,
      build (createAcl stale first) = .error (.bufferTooSmall required) ∧
      build (createAcl stale required) = .ok result := by
  unfold twoPasses at run
  split at run
  · cases run
  · split at run
    · next required asked =>
      split at run
      · cases run
      · exact .inr ⟨required, asked, run⟩
    · exact .inl run

theorem aces_createAcl {length : Nat} (least : sizeofAcl ≤ length) (most : length ≤ maxUstring) :
    (createAcl stale length).aces = [] := by
  rw [createAcl, if_neg (by omega)]

/-! ## The part of the child -/

/-- Neither the directory nor a default is in play. -/
structure Explicit (args : InheritArguments) : Prop where
  isProtected : flagOn args.childGenericControl sepAclProtected
  notDefaulted : flagOn args.childGenericControl sepAclDefaulted = false

/-- The part of a protected child ACL: nothing, or copies of its ACEs. -/
theorem childPart_protected (explicit : Explicit args) {part : ChildPart}
    (run : childPart args buffer = .ok part) :
    part.aclProtected ∧ part.newAclExplicitlyAssigned ∧
      ((args.childAcl = none ∧ part.nullAclOk ∧ part.childNewAclSize = 0) ∨
        (part.nullAclOk = false ∧ ∃ child, args.childAcl = some child ∧
          copyAces args.childOptions child.aces buffer =
            .ok (part.acl, part.childNewAclSize, part.aclOverflowed))) := by
  unfold childPart at run
  rw [explicit.notDefaulted, flagOn_or, explicit.isProtected, Bool.or_true] at run
  simp only [Bool.false_eq_true, if_false, if_true] at run
  split at run
  next child given =>
    obtain ⟨⟨acl, size, aclOverflowed⟩, copy, run⟩ := bind_eq_ok.mp run
    split at run
    · cases run
    · cases run
      exact ⟨rfl, rfl, .inr ⟨rfl, child, given, copy⟩⟩
  next given =>
    split at run
    · cases run
    · cases run
      exact ⟨rfl, rfl, .inl ⟨given, rfl, rfl⟩⟩

theorem neverResizes_childPart (args : InheritArguments) (buffer : Acl) :
    NeverResizes (childPart args buffer) := by
  refine .ite (.ok _) (.ite ?_ (.ok _))
  split
  · refine .bind (neverResizes_copyAces _ _ _) fun copied => ?_
    exact .ite neverResizes_badInheritanceAcl (.ok _)
  · exact .ite (fun _ => nofun) (.ok _)

/-! ## The directory is not asked -/

section Marked

variable (explicit : Explicit args)
    (marked : args.autoInherit ∨ flagOn args.childGenericControl sepAclPresent)

include explicit marked

theorem not_consultsDirectory : consultsDirectory args true = false := by
  unfold consultsDirectory
  rw [explicit.notDefaulted]
  rcases marked with auto | present
  · simp [auto]
  · simp [present]

/-- What one pass does for a protected child ACL if the directory is not asked. -/
theorem inheritAcl2_protected : inheritAcl2 args directory buffer = (do
      let part ← childPart args buffer
      let control := newControl args true
      if part.childNewAclSize = 0 ∧ part.nullAclOk then pure ⟨none, true, control⟩
      else if 0xFFFF < part.childNewAclSize + sizeofAcl then throw .badInheritanceAcl
      else if part.aclOverflowed then throw (.bufferTooSmall (part.childNewAclSize + sizeofAcl))
      else pure ⟨some ⟨part.aclRevision, part.childNewAclSize + sizeofAcl, part.acl.aces⟩, true,
        control⟩) := by
  unfold inheritAcl2
  cases run : childPart args buffer with
  | error => rfl
  | ok =>
    obtain ⟨isProtected, assigned, -⟩ := childPart_protected explicit run
    simp only [bind, Except.bind, directoryPart, isProtected, assigned,
      not_consultsDirectory explicit marked, Bool.false_eq_true, if_false, pure, Except.pure,
      Nat.zero_add, not_true_eq_false, and_false]

/-- The directory does not matter then. -/
theorem inheritAcl_directory (directory' : Option Acl) : inheritAcl args directory' allocate stale =
      inheritAcl args directory allocate stale := by
  have same : inheritAcl2 args directory' = inheritAcl2 args directory := by
    funext buffer
    rw [inheritAcl2_protected explicit marked, inheritAcl2_protected explicit marked]
  rw [inheritAcl, inheritAcl, same]

/-- A successful pass: the `NULL` ACL, or the ACEs of the buffer and the copies. -/
theorem inheritAcl2_ok (run : inheritAcl2 args directory buffer = .ok result) :
    result.newGenericControl = newControl args true ∧
      ((result.acl = none ∧ args.childAcl = none) ∨ ∃ acl child copied size,
        result.acl = some acl ∧ args.childAcl = some child ∧
        copyAces args.childOptions child.aces buffer = .ok (copied, size, false) ∧
        acl.aces = copied.aces) := by
  rw [inheritAcl2_protected explicit marked] at run
  obtain ⟨part, found, run⟩ := bind_eq_ok.mp run
  obtain ⟨-, -, ⟨none, nullAclOk, empty⟩ | ⟨nullAclOk, child, some, copied⟩⟩ :=
    childPart_protected explicit found
  · rw [if_pos ⟨empty, nullAclOk⟩] at run
    cases run
    exact ⟨rfl, .inl ⟨rfl, none⟩⟩
  · rw [if_neg (by simp [nullAclOk])] at run
    split at run
    · cases run
    · split at run
      · cases run
      · next fits =>
        rw [Bool.not_eq_true] at fits
        cases run
        exact ⟨rfl, .inr ⟨_, child, part.acl, _, rfl, some, fits ▸ copied, rfl⟩⟩

/-- A pass that asks for more room. -/
theorem inheritAcl2_bufferTooSmall {required : Nat}
    (run : inheritAcl2 args directory buffer = .error (.bufferTooSmall required)) :
    required ≤ 0xFFFF ∧ ∃ child acl size, args.childAcl = some child ∧
      copyAces args.childOptions child.aces buffer = .ok (acl, size, true) ∧
      required = size + sizeofAcl := by
  rw [inheritAcl2_protected explicit marked] at run
  cases found : childPart args buffer with
  | error =>
    simp only [found, bind, Except.bind, Except.error.injEq] at run
    exact absurd (found.trans (congrArg Except.error run))
      (neverResizes_childPart args buffer required)
  | ok =>
    simp only [found, bind, Except.bind] at run
    obtain ⟨-, -, ⟨none, nullAclOk, empty⟩ | ⟨nullAclOk, child, some, copied⟩⟩ :=
      childPart_protected explicit found
    · rw [if_pos ⟨empty, nullAclOk⟩] at run
      cases run
    · rw [if_neg (by simp [nullAclOk])] at run
      split at run
      · cases run
      · split at run
        · next overflowed =>
          cases run
          exact ⟨by omega, child, _, _, some, overflowed ▸ copied, rfl⟩
        · cases run

end Marked

/-! ## Protected ACLs -/

/-- The ACL is the `NULL` ACL or made of copies of the ACEs of the child ACL. -/
def CopiesChild (args : InheritArguments) (acl : Option Acl) : Prop :=
  acl = none ∨ ∃ new child, acl = some new ∧ args.childAcl = some child ∧
    copiesOfAll args.childOptions child.aces = .ok new.aces

/-- Nothing is inherited: the outcome is the same for every directory, the ACL has ACEs of the
child only, and is marked as protected. -/
structure InheritsNothing (args : InheritArguments) (directory : Option Acl)
    (allocate : Bool × Bool) (stale : Acl) (result : NewAcl) : Prop where
  independent : ∀ directory', inheritAcl args directory' allocate stale =
    inheritAcl args directory allocate stale
  copies : CopiesChild args result.acl
  isProtected : flagOn result.newGenericControl sepAclProtected

/-- The copies of the ACEs of the child come to 65527 bytes, which with the header is more than
`RtlCreateAcl` takes.  Where a copy has no room in the first 200 bytes, what follows its SID is
counted too. -/
def AsksTooMuch (args : InheritArguments) : Prop :=
  ∃ child acl, args.childAcl = some child ∧
    copyAces args.childOptions child.aces ⟨aclRevision2, 200, []⟩ = .ok (acl, 65527, true)

theorem flagOn_newControl (args : InheritArguments) :
    flagOn (newControl args true) sepAclProtected := by
  unfold newControl
  cases args.autoInherit <;> decide

/-- An ACE that lets the members of a group with the identifier authority 1 read. -/
def readersAce (aceFlags : AceFlags) : Ace :=
  ⟨aceFlags, .known .accessAllowed 1 (.ofRid 1 0), []⟩

/-- An ACE of a type the kernel does not know, with these flags. -/
def vendorAce (aceFlags : AceFlags) : Ace :=
  ⟨aceFlags, .unknown 9 (by decide), []⟩

/-- An ACE that files and directories inherit. -/
def passedOn : Ace :=
  vendorAce (objectInheritAce ||| containerInheritAce ||| noPropagateInheritAce)

example : Acl.valid ⟨2, 12, [passedOn]⟩ := by decide

/-- Without automatic inheritance the ACE is copied behind the others, if there is room. -/
theorem generateInheritAcl_passedOn (auto : args.autoInherit = false) {acl : Acl}
    {generated : Generated} (run : generateInheritAcl args [passedOn] acl = .ok generated) :
    generated.newLength = 4 ∧ generated.objectAceInherited = false ∧
      (generated.aclOverflowed = false → generated.acl.aces = acl.aces ++ [vendorAce 0]) := by
  have copy (will : Bool) : copyEffectiveAce args.genericMapping args.creator args.autoInherit will
      (some args.newObjectType) acl.room passedOn =
      if acl.room < 4 then .ok ⟨4, none, false, false, true⟩
      else .ok ⟨4, some (vendorAce 0), false, false, false⟩ := by
    rw [auto]
    change (if acl.room < 4 then _ else _) = _
    split <;> rfl
  have effective : generateEffective args passedOn acl =
      if acl.room < 4 then .ok (acl, ⟨4, none, false, false, true⟩, 0)
      else .ok ({ acl with aces := acl.aces ++ [vendorAce 0] },
        ⟨4, some (vendorAce 0), false, false, false⟩, 0) := by
    rw [generateEffective, if_pos (by cases args.isDirectoryObject <;> rfl), copy]
    split <;> rfl
  have stays : (args.isDirectoryObject && propagate passedOn) = false := by
    cases args.isDirectoryObject <;> rfl
  obtain ⟨whole, turn, run⟩ := bind_eq_ok.mp run
  obtain ⟨turned, turn, last⟩ := bind_eq_ok.mp turn
  obtain ⟨next, generate, turn⟩ := bind_eq_ok.mp turn
  cases last
  cases turn
  cases run
  simp only [generateInheritedAce, effective, stays] at generate
  split at generate
  · cases generate
  split at generate
  · cases generate
    exact ⟨rfl, rfl, fun fits => by cases fits⟩
  · cases generate
    exact ⟨rfl, rfl, fun _ => rfl⟩

/-- A directory that is asked passes the ACE on. -/
theorem inheritAcl2_passedOn (explicit : Explicit args) (auto : args.autoInherit = false)
    (absent : flagOn args.childGenericControl sepAclPresent = false)
    (run : inheritAcl2 args (some ⟨2, 12, [passedOn]⟩) buffer = .ok result) :
    ¬ CopiesChild args result.acl := by
  obtain ⟨part, found, run⟩ := bind_eq_ok.mp run
  obtain ⟨both, directory, run⟩ := bind_eq_ok.mp run
  simp only [directoryPart, consultsDirectory, auto, absent, Bool.not_false, Bool.and_self,
    Bool.true_or, if_true] at directory
  obtain ⟨generated, generate, directory⟩ := bind_eq_ok.mp directory
  obtain ⟨four, noObject, inherited⟩ := generateInheritAcl_passedOn auto generate
  simp only [noObject, Bool.false_eq_true, false_and, and_false, if_false] at directory
  cases directory
  have some : ∀ a b, ¬ (generated.newLength + a = 0 ∧ b) := fun a b zero => by omega
  dsimp only at run
  rw [if_neg (some _ _), if_neg (some _ _)] at run
  split at run
  · cases run
  split at run
  · cases run
  next fits =>
  cases run
  obtain ⟨ownFits, inheritedFits⟩ := Bool.or_eq_false_iff.mp (Bool.not_eq_true _ ▸ fits)
  rintro (none | ⟨new, child, given, childGiven, copied⟩)
  · cases none
  cases given
  obtain ⟨-, -, ⟨none, -⟩ | ⟨-, child', childGiven', copy⟩⟩ := childPart_protected explicit found
  · cases none.symm.trans childGiven
  · cases childGiven.symm.trans childGiven'
    rw [ownFits] at copy
    obtain ⟨new, copied', aces, -⟩ := copyAces_ok copy
    have same : generated.acl.aces = new := Except.ok.inj (copied.symm.trans copied')
    have longer := congrArg List.length same
    rw [inherited inheritedFits, aces, List.length_append, List.length_append] at longer
    rw [List.length_singleton] at longer
    omega

/-- **A protected ACL inherits nothing if and only if inheritance is automatic or the ACL is
marked present, and the second pass, if there is one, starts from an empty ACL.** -/
theorem protected_inheritsNothing_iff (explicit : Explicit args) {result : NewAcl}
    (run : inheritAcl args directory allocate stale = .ok result) :
    InheritsNothing args directory allocate stale result ↔ (args.autoInherit ∨
          flagOn args.childGenericControl sepAclPresent) ∧
        (AsksTooMuch args → stale.aces = []) := by
  by_cases marked : args.autoInherit ∨ flagOn args.childGenericControl sepAclPresent
  swap
  · -- The directory is asked, and what it passes on is not of the child.
    refine iff_of_false (fun nothing => ?_) fun condition => marked condition.1
    rw [not_or, Bool.not_eq_true, Bool.not_eq_true] at marked
    rcases twoPasses_ok ((nothing.independent _).trans run) with pass | ⟨_, -, pass⟩
    all_goals exact inheritAcl2_passedOn explicit marked.1 marked.2 pass nothing.copies
  have nothing : CopiesChild args result.acl → flagOn result.newGenericControl sepAclProtected →
      InheritsNothing args directory allocate stale result :=
    fun copies isProtected => ⟨inheritAcl_directory explicit marked, copies, isProtected⟩
  rcases twoPasses_ok run with first | ⟨required, asked, second⟩
  · obtain ⟨control, outcome⟩ := inheritAcl2_ok explicit marked first
    refine iff_of_true (nothing ?_ (control ▸ flagOn_newControl args)) ⟨marked, ?_⟩
    · rcases outcome with ⟨none, -⟩ | ⟨acl, child, _, _, some, given, copy, aces⟩
      · exact .inl none
      · obtain ⟨new, copied, rfl, -⟩ := copyAces_ok copy
        exact .inr ⟨acl, child, some, given, aces ▸ copied⟩
    · rintro ⟨child, acl, given, counted⟩
      rcases outcome with ⟨-, none⟩ | ⟨_, child', _, _, -, given', copy, -⟩
      · cases none.symm.trans given
      · obtain rfl := Option.some.inj (given.symm.trans given')
        cases counted.symm.trans copy
  · obtain ⟨most, child, _, size, given, counted, rfl⟩ :=
      inheritAcl2_bufferTooSmall explicit marked asked
    obtain ⟨control, ⟨-, none⟩ | ⟨acl, child', _, _, some, given', copy, aces⟩⟩ :=
      inheritAcl2_ok explicit marked second
    · cases none.symm.trans given
    obtain rfl := Option.some.inj (given.symm.trans given')
    obtain ⟨new, copied, rfl, -⟩ := copyAces_ok copy
    constructor
    · intro inherits
      refine ⟨marked, ?_⟩
      rintro ⟨child', _, given', counted'⟩
      obtain rfl := Option.some.inj (given.symm.trans given')
      obtain ⟨-, rfl⟩ : _ ∧ 65527 = size := by simpa using counted'.symm.trans counted
      rcases inherits.copies with none | ⟨acl', child', some', given', copied'⟩
      · cases none.symm.trans some
      · obtain rfl := Option.some.inj (some.symm.trans some')
        obtain rfl := Option.some.inj (given.symm.trans given')
        have same : acl.aces = new := Except.ok.inj (copied'.symm.trans copied)
        rw [same, createAcl, if_pos (Or.inr (by decide))] at aces
        simpa using aces
    · rintro ⟨-, blank⟩
      refine nothing (.inr ⟨acl, child, some, given, ?_⟩) (control ▸ flagOn_newControl args)
      have start : (createAcl stale (size + sizeofAcl)).aces = [] := by
        by_cases largest : size = 65527
        · subst largest
          exact blank ⟨child, _, given, counted⟩
        · exact aces_createAcl (Nat.le_add_left ..) (by simp only [maxUstring, sizeofAcl] at *; omega)
      rw [start] at aces
      exact aces ▸ copied

/-- The arguments of a caller that asks for the ACL of a file, with these flags and no
automatic inheritance. -/
def plainArguments (childGenericControl : GenericControl) (childAcl : Option Acl) :
    InheritArguments where
  childAcl := childAcl
  childGenericControl := childGenericControl
  isDirectoryObject := false
  autoInherit := false
  defaultDescriptorForObject := false
  creator := ⟨.ofRid 5 18, none, none, none⟩
  genericMapping := ⟨1, 2, 4, 7⟩
  isSacl := false
  newObjectType := []

/-- A protected ACL that is marked present is copied, whatever the directory has. -/
theorem protected_inheritsNothing_iff_present :
    inheritAcl (plainArguments (sepAclPresent ||| sepAclProtected) (some ⟨2, 28, [readersAce 0]⟩))
        (some ⟨2, 28, [readersAce objectInheritAce]⟩) (true, true) ⟨2, 8, []⟩ =
      .ok ⟨some ⟨2, 28, [readersAce 0]⟩, true, sepAclProtected⟩ ∧
    InheritsNothing
      (plainArguments (sepAclPresent ||| sepAclProtected) (some ⟨2, 28, [readersAce 0]⟩))
      (some ⟨2, 28, [readersAce objectInheritAce]⟩) (true, true) ⟨2, 8, []⟩
      ⟨some ⟨2, 28, [readersAce 0]⟩, true, sepAclProtected⟩ := by
  have run : inheritAcl
      (plainArguments (sepAclPresent ||| sepAclProtected) (some ⟨2, 28, [readersAce 0]⟩))
      (some ⟨2, 28, [readersAce objectInheritAce]⟩) (true, true) ⟨2, 8, []⟩ =
      .ok ⟨some ⟨2, 28, [readersAce 0]⟩, true, sepAclProtected⟩ := by decide
  exact ⟨run, (protected_inheritsNothing_iff ⟨by decide, by decide⟩ run).mpr
    ⟨.inr (by decide), fun _ => rfl⟩⟩

/-- **A protected child that is not marked present, without automatic inheritance: the ACE of
the directory is inherited, and the ACL is reported as protected.** -/
theorem protected_inherits : inheritAcl (plainArguments sepAclProtected none)
        (some ⟨2, 28, [readersAce objectInheritAce]⟩) (true, true) ⟨2, 8, []⟩ =
      .ok ⟨some ⟨2, 28, [readersAce 0]⟩, true, sepAclProtected⟩ ∧
    inheritAcl (plainArguments sepAclProtected none) none (true, true) ⟨2, 8, []⟩ =
      .ok ⟨none, true, sepAclProtected⟩ ∧
    ¬ CopiesChild (plainArguments sepAclProtected none) (some ⟨2, 28, [readersAce 0]⟩) := by
  refine ⟨by decide, by decide, ?_⟩
  rintro (none | ⟨new, child, -, given, -⟩)
  · cases none
  · cases given

end Ntoskrnl.Rtl.Security
