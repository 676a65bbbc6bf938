/-
# Ntoskrnl.Rtl.Security.Acl -- access control lists and their entries

An ACL as the list of its ACEs.  An ACE is its flags, what its type says is in it,
and the bytes that may follow its last SID; its size is the sum of these, and its
type is read off what is in it.  Of an ACE of a type the kernel does not know only
the bytes are kept.  A SID has at most fifteen sub-authorities and the one
revision there is, as every SID `RtlValidAcl` lets pass.

Access masks and flags are machine words.

`RtlMapGenericMask` expands the generic bits of a mask one after the other and clears
them.  The rights a generic bit stands for may have generic bits in turn, and whether
these are expanded depends on the order; so the mapping is not determined bit by bit.
It is monotone, and bits that are not generic neither change nor matter.
-/
import Mathlib.Algebra.GroupWithZero.Nat
import Ntoskrnl.Rtl.Security.Valid

namespace Ntoskrnl.Rtl.Security

set_option autoImplicit false

/-! ## Security identifiers -/

abbrev AccessMask := BitVec 32
abbrev AceFlags := BitVec 8
abbrev GenericControl := BitVec 32
abbrev Guid := BitVec 128

variable {w : Nat}

variable (flags bits : BitVec w)

/-- `FlagOn`. -/
def flagOn : Bool := flags &&& bits != 0

theorem flagOn_or (bits' : BitVec w) :
    flagOn flags (bits ||| bits') = (flagOn flags bits || flagOn flags bits') := by
  have distributes : flags &&& (bits ||| bits') = (flags &&& bits) ||| (flags &&& bits') := by
    ext i
    simp [Bool.and_or_distrib_left]
  rw [Bool.eq_iff_iff, Bool.or_eq_true]
  simp only [flagOn, distributes, bne_iff_ne, ne_eq]
  exact (not_congr BitVec.or_eq_zero_iff).trans not_and_or

theorem flagOn_comm : flagOn flags bits = flagOn bits flags := by
  rw [flagOn, flagOn, BitVec.and_comm]

theorem flagOn_or_left (flags' bits : BitVec w) :
    flagOn (flags ||| flags') bits = (flagOn flags bits || flagOn flags' bits) := by
  rw [flagOn_comm, flagOn_or, flagOn_comm bits, flagOn_comm bits]

variable {bits flags : BitVec w}

theorem flagOn_cleared {mask : BitVec w} (cleared : ~~~mask &&& bits = 0) :
    flagOn (flags &&& ~~~mask) bits = false := by
  rw [flagOn, BitVec.and_assoc, cleared]
  simp

theorem flagOn_and {mask : BitVec w} (off : flagOn flags bits = false) :
    flagOn (flags &&& mask) bits = false := by
  simp only [flagOn, bne_eq_false_iff_eq] at off ⊢
  rw [BitVec.and_assoc, BitVec.and_comm mask, ← BitVec.and_assoc, off]
  simp

structure Sid where
  identifierAuthority : BitVec 48
  subAuthorities : List (BitVec 32)
  short : subAuthorities.length ≤ sidMaxSubAuthorities
deriving DecidableEq, Repr

/-- The SID with a single sub-authority. -/
def Sid.ofRid (authority : BitVec 48) (rid : BitVec 32) : Sid :=
  ⟨authority, [rid], Nat.le_of_ble_eq_true rfl⟩

/-- `SeLengthSid`. -/
def Sid.length (sid : Sid) : Nat := lengthSid sid.subAuthorities.length

/-- `RtlEqualPrefixSid`: all but the last sub-authority. -/
def equalPrefixSid (sid₁ sid₂ : Sid) : Bool :=
  sid₁.identifierAuthority == sid₂.identifierAuthority &&
    sid₁.subAuthorities.length == sid₂.subAuthorities.length &&
    sid₁.subAuthorities.dropLast == sid₂.subAuthorities.dropLast

def securityCreatorOwnerRid : BitVec 32 := 0
def securityCreatorGroupRid : BitVec 32 := 1
def securityCreatorOwnerServerRid : BitVec 32 := 2
def securityCreatorGroupServerRid : BitVec 32 := 3

def creatorSid (rid : BitVec 32) : Sid := ⟨3, [rid], Nat.le_of_ble_eq_true rfl⟩

/-! ## Access masks -/

def standardRightsAll : AccessMask := 0x001F0000
def specificRightsAll : AccessMask := 0x0000FFFF
def accessSystemSecurity : AccessMask := 0x01000000
def genericRead : AccessMask := 0x80000000
def genericWrite : AccessMask := 0x40000000
def genericExecute : AccessMask := 0x20000000
def genericAll : AccessMask := 0x10000000

structure GenericMapping where
  genericRead : AccessMask
  genericWrite : AccessMask
  genericExecute : AccessMask
  genericAll : AccessMask
deriving DecidableEq, Repr

/-- `RtlMapGenericMask`. -/
def mapGenericMask (mapping : GenericMapping) (mask : AccessMask) : AccessMask :=
  let mask := if flagOn mask genericRead then mask ||| mapping.genericRead else mask
  let mask := if flagOn mask genericWrite then mask ||| mapping.genericWrite else mask
  let mask := if flagOn mask genericExecute then mask ||| mapping.genericExecute else mask
  let mask := if flagOn mask genericAll then mask ||| mapping.genericAll else mask
  mask &&& ~~~(genericRead ||| genericWrite ||| genericExecute ||| genericAll)

/-! ## Entries -/

def objectInheritAce : AceFlags := 0x1
def containerInheritAce : AceFlags := 0x2
def noPropagateInheritAce : AceFlags := 0x4
def inheritOnlyAce : AceFlags := 0x8
def inheritedAce : AceFlags := 0x10
def validInheritFlags : AceFlags := 0x1F
def successfulAccessAceFlag : AceFlags := 0x40
def failedAccessAceFlag : AceFlags := 0x80

/-- The four kinds of ACEs, which are also the entries of `RtlBaseAceType`. -/
inductive BaseAceType where
  | accessAllowed
  | accessDenied
  | systemAudit
  | systemAlarm
deriving DecidableEq, Repr

/-- `RtlIsSystemAceType`. -/
def BaseAceType.isSystem : BaseAceType → Bool
  | .accessAllowed | .accessDenied => false
  | .systemAudit | .systemAlarm => true

/-- What the type of an ACE says is in it. -/
inductive AceBody where
  /-- `KNOWN_ACE`. -/
  | known (kind : BaseAceType) (mask : AccessMask) (sid : Sid)
  /-- `KNOWN_COMPOUND_ACE`. -/
  | compound (mask : AccessMask) (compoundAceType reserved : BitVec 16)
      (serverSid clientSid : Sid)
  /-- `KNOWN_OBJECT_ACE`; `otherFlags` are the bits of `Flags` that announce no GUID. -/
  | object (kind : BaseAceType) (mask : AccessMask) (otherFlags : BitVec 30)
      (objectType inheritedObjectType : Option Guid) (sid : Sid)
  /-- A type beyond `ACCESS_MAX_MS_ACE_TYPE`. -/
  | unknown (aceType : BitVec 8) (beyond : 8 < aceType.toNat)
deriving DecidableEq, Repr

namespace AceBody

/-- `IsMSAceType`. -/
def isMs : AceBody → Bool
  | .unknown _ _ => false
  | _ => true

/-- The field all types the kernel knows have in one place. -/
def mask : AceBody → AccessMask
  | .known _ mask _ => mask
  | .compound mask _ _ _ _ => mask
  | .object _ mask _ _ _ _ => mask
  | .unknown _ _ => 0

def setMask (mask : AccessMask) : AceBody → AceBody
  | .known kind _ sid => .known kind mask sid
  | .compound _ compoundAceType reserved serverSid clientSid =>
    .compound mask compoundAceType reserved serverSid clientSid
  | .object kind _ otherFlags objectType inheritedObjectType sid =>
    .object kind mask otherFlags objectType inheritedObjectType sid
  | .unknown aceType beyond => .unknown aceType beyond

/-- The bits `RtlApplyGenericMask` leaves in the mask of an ACE of this type. -/
def meaningful (mapping : GenericMapping) : AceBody → AccessMask
  | .known .accessAllowed _ _ | .known .accessDenied _ _ | .compound ..
  | .object .accessAllowed .. | .object .accessDenied .. => mapping.genericAll
  | _ => mapping.genericAll ||| accessSystemSecurity

/-- The room of the GUIDs that are present. -/
def guids (objectType inheritedObjectType : Option Guid) : Nat :=
  (if objectType.isSome then sizeofGuid else 0) +
    (if inheritedObjectType.isSome then sizeofGuid else 0)

/-- The bytes up to the end of the last SID. -/
def size : AceBody → Nat
  | .known _ _ sid => 8 + sid.length
  | .compound _ _ _ serverSid clientSid => 12 + serverSid.length + clientSid.length
  | .object _ _ _ objectType inheritedObjectType sid =>
    12 + guids objectType inheritedObjectType + sid.length
  | .unknown _ _ => sizeofAceHeader

end AceBody

/-- `RtlApplyGenericMask`. -/
def applyGenericMask (mapping : GenericMapping) (body : AceBody) : AccessMask :=
  mapGenericMask mapping body.mask &&& body.meaningful mapping

structure Ace where
  aceFlags : AceFlags
  body : AceBody
  /-- The bytes behind the last SID, or behind the header of an unknown ACE. -/
  rest : List UInt8
deriving DecidableEq, Repr

namespace Ace

/-- `AceSize`. -/
def aceSize (ace : Ace) : Nat := ace.body.size + ace.rest.length

/-- `AceInherited`. -/
def inherited (ace : Ace) : Bool := flagOn ace.aceFlags inheritedAce

def inheritOnly (ace : Ace) : Bool := flagOn ace.aceFlags inheritOnlyAce

/-- `RtlApplyAceToObject`. -/
def applyToObject (mapping : GenericMapping) (ace : Ace) : Ace :=
  if ace.inheritOnly then ace
  else { ace with body := ace.body.setMask (applyGenericMask mapping ace.body) }

end Ace

/-- The room the ACEs of a list take. -/
def totalSize (aces : List Ace) : Nat := (aces.map Ace.aceSize).sum

@[simp] theorem totalSize_nil : totalSize [] = 0 := rfl

@[simp] theorem totalSize_cons (ace : Ace) (aces : List Ace) :
    totalSize (ace :: aces) = ace.aceSize + totalSize aces := by
  simp [totalSize]

@[simp] theorem totalSize_append (aces aces' : List Ace) :
    totalSize (aces ++ aces') = totalSize aces + totalSize aces' := by
  simp [totalSize]

/-! ## Lists -/

structure Acl where
  aclRevision : Nat
  aclSize : Nat
  aces : List Ace
deriving DecidableEq, Repr

namespace Acl

/-- `ValidAclRevision`. -/
def validRevision (acl : Acl) : Bool :=
  decide (aclRevision2 ≤ acl.aclRevision) && decide (acl.aclRevision ≤ aclRevision4)

/-- The first byte behind the ACEs. -/
def used (acl : Acl) : Nat := sizeofAcl + totalSize acl.aces

/-- `RtlFirstFreeAce`: the ACEs are within the ACL. -/
def firstFreeAce (acl : Acl) : Bool := decide (acl.used ≤ acl.aclSize)

/-- The room behind the ACEs. -/
def room (acl : Acl) : Nat := acl.aclSize - acl.used

end Acl

/-- What `RtlValidAcl` asks of one ACE, besides its place. -/
def validBody (revision : Nat) (ace : Ace) : Bool :=
  match ace.body with
  | .known _ _ sid =>
    longAligned ace.aceSize &&
      decide (sizeofKnownAce - sizeofUlong + sizeofSid - sizeofUlong ≤ ace.aceSize) &&
      decide (sizeofKnownAce - sizeofUlong + sid.length ≤ ace.aceSize)
  | .compound _ compoundAceType _ serverSid clientSid =>
    decide (aclRevision3 ≤ revision) && longAligned ace.aceSize &&
      decide (sizeofKnownCompoundAce - sizeofUlong + sizeofSid ≤ ace.aceSize) &&
      decide (compoundAceType.toNat = compoundAceImpersonation) &&
      decide (sizeofKnownCompoundAce - sizeofUlong + serverSid.length + sizeofSid ≤ ace.aceSize) &&
      decide (sizeofKnownCompoundAce - sizeofUlong + serverSid.length + clientSid.length ≤
        ace.aceSize)
  | .object _ _ _ objectType inheritedObjectType sid =>
    decide (aclRevision4 ≤ revision) && longAligned ace.aceSize &&
      decide (sizeofKnownObjectAce - sizeofUlong ≤ ace.aceSize) &&
      decide (sizeofKnownObjectAce - sizeofUlong + AceBody.guids objectType inheritedObjectType +
        sizeofSid ≤ ace.aceSize) &&
      decide (sizeofKnownObjectAce - sizeofUlong + AceBody.guids objectType inheritedObjectType +
        sid.length ≤ ace.aceSize)
  | .unknown _ _ => true

/-- The loop of `RtlValidAcl`, at an offset from the ACL.  The size field of an ACE must be at
an even address; the ACL is at one itself. -/
def validFrom (revision aclSize : Nat) : Nat → List Ace → Bool
  | _, [] => true
  | offset, ace :: aces =>
    decide (offset + sizeofAceHeader ≤ aclSize) && wordAligned (offset + 2) &&
      decide (sizeofAceHeader ≤ ace.aceSize) && decide (offset + ace.aceSize ≤ aclSize) &&
      validBody revision ace && validFrom revision aclSize (offset + ace.aceSize) aces

/-- `RtlValidAcl`, of an ACL at an even address. -/
def Acl.valid (acl : Acl) : Bool :=
  acl.validRevision && decide (sizeofAcl ≤ acl.aclSize) &&
    validFrom acl.aclRevision acl.aclSize sizeofAcl acl.aces

/-! ## Words as sets of bits -/

theorem flagOn_iff : flagOn flags bits ↔ ∃ i, flags.getLsbD i ∧ bits.getLsbD i := by
  constructor
  · intro on
    by_contra none
    have zero : flags &&& bits = 0 := by
      ext i
      by_contra some
      refine none ⟨i, ?_⟩
      simpa [BitVec.getLsbD_eq_getElem, ‹i < w›] using some
    simp [flagOn, zero] at on
  · rintro ⟨i, inFlags, inBits⟩
    rw [flagOn, bne_iff_ne]
    intro zero
    have off := congrArg (fun word => word.getLsbD i) zero
    simp [inFlags, inBits] at off

/-- All bits of one word are in another. -/
def Within (mask mask' : AccessMask) : Prop := ∀ i, mask.getLsbD i → mask'.getLsbD i

variable {mask mask' genericBit extra : AccessMask}

theorem Within.and_left {other : AccessMask} : Within (mask &&& other) mask := by
  intro i set
  rw [BitVec.getLsbD_and, Bool.and_eq_true] at set
  exact set.1

theorem Within.or {mask₁ mask₂ mask₁' mask₂' : AccessMask} (first : Within mask₁ mask₁')
    (second : Within mask₂ mask₂') : Within (mask₁ ||| mask₂) (mask₁' ||| mask₂') := by
  intro i set
  rw [BitVec.getLsbD_or, Bool.or_eq_true] at set ⊢
  exact set.imp (first i) (second i)

/-! ## Generic bits -/

def genericBits : AccessMask := genericRead ||| genericWrite ||| genericExecute ||| genericAll

def expand (genericBit rights mask : AccessMask) : AccessMask :=
  if flagOn mask genericBit then mask ||| rights else mask

variable (mapping : GenericMapping)

theorem mapGenericMask_eq (mask : AccessMask) : mapGenericMask mapping mask =
      expand genericAll mapping.genericAll (expand genericExecute mapping.genericExecute
        (expand genericWrite mapping.genericWrite (expand genericRead mapping.genericRead mask)))
          &&& ~~~genericBits := rfl

/-- More bits that are not generic expand to no more. -/
theorem Within.expand (rights : AccessMask) (plain : flagOn extra genericBit = false)
    (within : Within mask (mask' ||| extra)) :
    Within (expand genericBit rights mask) (expand genericBit rights mask' ||| extra) := by
  intro i set
  unfold Security.expand at set ⊢
  by_cases on : flagOn mask genericBit
  · have on' : flagOn mask' genericBit := by
      obtain ⟨j, inMask, inBit⟩ := flagOn_iff.mp on
      have there := within j inMask
      rw [BitVec.getLsbD_or, Bool.or_eq_true] at there
      rcases there with inMask' | inExtra
      · exact flagOn_iff.mpr ⟨j, inMask', inBit⟩
      · exact nomatch plain.symm.trans (flagOn_iff.mpr ⟨j, inExtra, inBit⟩)
    rw [if_pos on, BitVec.getLsbD_or, Bool.or_eq_true] at set
    rw [if_pos on', BitVec.getLsbD_or, BitVec.getLsbD_or]
    rcases set with inMask | inRights
    · have there := within i inMask
      rw [BitVec.getLsbD_or] at there
      revert there
      cases mask'.getLsbD i <;> cases extra.getLsbD i <;> simp
    · simp [inRights]
  · rw [if_neg on] at set
    have there := within i set
    rw [BitVec.getLsbD_or, Bool.or_eq_true] at there ⊢
    refine there.imp_left fun inMask' => ?_
    split
    · rw [BitVec.getLsbD_or, inMask', Bool.true_or]
    · exact inMask'

theorem flagOn_genericBits (plain : flagOn mask genericBits = false) :
    flagOn mask genericRead = false ∧ flagOn mask genericWrite = false ∧
      flagOn mask genericExecute = false ∧ flagOn mask genericAll = false := by
  simp only [genericBits, flagOn_or, Bool.or_eq_false_iff] at plain
  exact ⟨plain.1.1.1, plain.1.1.2, plain.1.2, plain.2⟩

theorem Within.mapGenericMask {mapping : GenericMapping} (plain : flagOn extra genericBits = false)
    (within : Within mask (mask' ||| extra)) :
    Within (mapGenericMask mapping mask) (mapGenericMask mapping mask' ||| extra) := by
  obtain ⟨noRead, noWrite, noExecute, noAll⟩ := flagOn_genericBits plain
  have all := (((within.expand mapping.genericRead noRead).expand mapping.genericWrite
    noWrite).expand mapping.genericExecute noExecute).expand mapping.genericAll noAll
  intro i set
  rw [mapGenericMask_eq, BitVec.getLsbD_and, Bool.and_eq_true] at set
  have there := all i set.1
  rw [BitVec.getLsbD_or] at there ⊢
  rw [mapGenericMask_eq, BitVec.getLsbD_and, set.2, Bool.and_true]
  exact there

theorem mapGenericMask_plain (mask : AccessMask) :
    flagOn (mapGenericMask mapping mask) genericBits = false := by
  exact flagOn_cleared (by decide)

theorem Within.plain (within : Within mask mask') (plain : flagOn mask' genericBits = false) :
    flagOn mask genericBits = false := by
  rw [Bool.eq_false_iff]
  intro on
  obtain ⟨i, inMask, generic⟩ := flagOn_iff.mp on
  exact nomatch plain.symm.trans (flagOn_iff.mpr ⟨i, within i inMask, generic⟩)

theorem expand_of_plain {rights : AccessMask} (plain : flagOn mask genericBit = false) :
    expand genericBit rights mask = mask := by
  rw [expand, plain]
  rfl

theorem mapGenericMask_of_plain (plain : flagOn mask genericBits = false) :
    mapGenericMask mapping mask = mask := by
  obtain ⟨noRead, noWrite, noExecute, noAll⟩ := flagOn_genericBits plain
  rw [mapGenericMask_eq, expand_of_plain noRead, expand_of_plain noWrite,
    expand_of_plain noExecute, expand_of_plain noAll]
  ext i
  rw [BitVec.getElem_and, BitVec.getElem_not]
  cases set : mask[i] with
  | false => rfl
  | true =>
    have notGeneric : genericBits[i] = false := by
      rw [Bool.eq_false_iff]
      intro generic
      exact nomatch plain.symm.trans (flagOn_iff.mpr ⟨i, by
        simpa [BitVec.getLsbD_eq_getElem, ‹i < 32›] using And.intro set generic⟩)
    rw [notGeneric]
    rfl

theorem mapGenericMask_mono (within : Within mask mask') :
    Within (mapGenericMask mapping mask) (mapGenericMask mapping mask') := by
  have mapped : Within (mapGenericMask mapping mask) (mapGenericMask mapping mask' ||| 0#32) :=
    .mapGenericMask (by decide) (by rwa [BitVec.or_zero])
  rwa [BitVec.or_zero] at mapped

theorem within_mapGenericMask (plain : flagOn mask genericBits = false) (within : Within mask mask') :
    Within mask (mapGenericMask mapping mask') := by
  have mapped := mapGenericMask_mono mapping within
  rwa [mapGenericMask_of_plain mapping plain] at mapped

end Ntoskrnl.Rtl.Security
