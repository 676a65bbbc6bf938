/-
# Ntoskrnl.Rtl.Security.Valid -- self-relative security descriptors

`RtlValidRelativeSecurityDescriptor` decides whether an untrusted buffer holds a
security descriptor: a header of twenty bytes with the offsets of an owner, a
group and two ACLs.  It is the gate between bytes a caller wrote and code that
follows those offsets, so two things are wanted of it: that it never reads
outside the buffer itself, and that nothing it accepts lies outside.

The buffer is the list of its bytes and every read of the model is checked.  The
alignment tests of `RtlValidAcl` look at addresses, so the address of the buffer
is a parameter.
-/
import Ntoskrnl.Lib.Flat

namespace Ntoskrnl.Rtl.Security

set_option autoImplicit false

open Lib.Flat

/-! ## Sizes and constants -/

inductive Fault where
  /-- A read at or past the end of the buffer. -/
  | outside
deriving DecidableEq, Repr

def sizeofSecurityDescriptorRelative : Nat := 20
def sizeofAcl : Nat := 8
def sizeofAceHeader : Nat := 4
def sizeofSid : Nat := 12
def sizeofGuid : Nat := 16
def sizeofUlong : Nat := 4
def sizeofKnownAce : Nat := 12
def sizeofKnownCompoundAce : Nat := 16
def sizeofKnownObjectAce : Nat := 16

def securityDescriptorRevision : Nat := 1
def sidRevision : Nat := 1
def sidMaxSubAuthorities : Nat := 15
def aclRevision2 : Nat := 2
def aclRevision3 : Nat := 3
def aclRevision4 : Nat := 4
def compoundAceImpersonation : Nat := 1

def seDaclPresent : Nat := 0x0004
def seSaclPresent : Nat := 0x0010
def seSelfRelative : Nat := 0x8000

def ownerSecurityInformation : Nat := 0x1
def groupSecurityInformation : Nat := 0x2

/-- `RtlpAreControlBitsSet`, and the tests of single bits. -/
def bitsSet (value bits : Nat) : Bool := value &&& bits == bits

/-- `SeLengthSid`, from the sub-authority count. -/
def lengthSid (subAuthorityCount : Nat) : Nat := 8 + 4 * subAuthorityCount

def wordAligned (address : Nat) : Bool := (address + 1) / 2 * 2 == address
def longAligned (value : Nat) : Bool := (value + 3) / 4 * 4 == value

def isKnownAceType (aceType : Nat) : Bool := aceType ≤ 3
def isCompoundAceType (aceType : Nat) : Bool := aceType == 4
def isObjectAceType (aceType : Nat) : Bool := 5 ≤ aceType && aceType ≤ 8

def aceObjectTypePresent : Nat := 0x1
def aceInheritedObjectTypePresent : Nat := 0x2

/-- The room the GUIDs of an object ACE take, from its flags. -/
def guidSize (flags : Nat) : Nat :=
  (if bitsSet flags aceObjectTypePresent then sizeofGuid else 0) +
    (if bitsSet flags aceInheritedObjectTypePresent then sizeofGuid else 0)

/-! ## The validation -/

/-- The test made of each SID: its revision, its count, and that `fixed` bytes before it
and `more` bytes after it fit in `limit` as well. -/
def sidFits (sd : List UInt8) (sid fixed more limit : Nat) : Except Fault Bool := do
  let revision ← readUchar .outside sd sid
  if revision ≠ sidRevision then pure false else do
  let subAuthorityCount ← readUchar .outside sd (sid + 1)
  if sidMaxSubAuthorities < subAuthorityCount then pure false else do
  if limit < fixed + lengthSid subAuthorityCount + more then pure false else pure true

def validKnownAce (sd : List UInt8) (ace aceSize : Nat) : Except Fault Bool := do
  if ¬ longAligned aceSize ∨
      aceSize < sizeofKnownAce - sizeofUlong + sizeofSid - sizeofUlong then pure false else do
  sidFits sd (ace + 8) (sizeofKnownAce - sizeofUlong) 0 aceSize

def validCompoundAce (sd : List UInt8) (revision ace aceSize : Nat) : Except Fault Bool := do
  if revision < aclRevision3 ∨ ¬ longAligned aceSize ∨
      aceSize < sizeofKnownCompoundAce - sizeofUlong + sizeofSid then pure false else do
  let compoundAceType ← readUshort .outside sd (ace + 8)
  if compoundAceType ≠ compoundAceImpersonation then pure false else do
  let first ← sidFits sd (ace + 12) (sizeofKnownCompoundAce - sizeofUlong) sizeofSid aceSize
  if first then do
    let subAuthorityCount ← readUchar .outside sd (ace + 12 + 1)
    sidFits sd (ace + 12 + lengthSid subAuthorityCount)
      (sizeofKnownCompoundAce - sizeofUlong + lengthSid subAuthorityCount) 0 aceSize
  else pure false

def validObjectAce (sd : List UInt8) (revision ace aceSize : Nat) : Except Fault Bool := do
  if revision < aclRevision4 ∨ ¬ longAligned aceSize ∨
      aceSize < sizeofKnownObjectAce - sizeofUlong then pure false else do
  let flags ← readUlong .outside sd (ace + 8)
  if aceSize < sizeofKnownObjectAce - sizeofUlong + guidSize flags + sizeofSid then
    pure false else do
  sidFits sd (ace + 12 + guidSize flags)
    (sizeofKnownObjectAce - sizeofUlong + guidSize flags) 0 aceSize

/-- One turn of the loop of `RtlValidAcl`.  Of an ACE of another type only the header is
looked at. -/
def validAce (base : Nat) (sd : List UInt8) (acl aclSize revision ace : Nat) :
    Except Fault Bool := do
  if acl + aclSize < ace + sizeofAceHeader then pure false else do
  let aceSize ← readUshort .outside sd (ace + 2)
  if ¬ wordAligned (base + ace + 2) ∨ aceSize < sizeofAceHeader ∨
      acl + aclSize < ace + aceSize then pure false else do
  let aceType ← readUchar .outside sd ace
  if isKnownAceType aceType then validKnownAce sd ace aceSize
  else if isCompoundAceType aceType then validCompoundAce sd revision ace aceSize
  else if isObjectAceType aceType then validObjectAce sd revision ace aceSize
  else pure true

/-- The loop of `RtlValidAcl` over the ACEs still to be looked at. -/
def validAces (base : Nat) (sd : List UInt8) (acl aclSize revision : Nat) :
    Nat → Nat → Except Fault Bool
  | 0, _ => pure true
  | count + 1, ace => do
    let valid ← validAce base sd acl aclSize revision ace
    if valid then do
      let aceSize ← readUshort .outside sd (ace + 2)
      validAces base sd acl aclSize revision count (ace + aceSize)
    else pure false

/-- `RtlValidAcl`, of the ACL at offset `acl` of the buffer. -/
def validAcl (base : Nat) (sd : List UInt8) (acl : Nat) : Except Fault Bool := do
  let revision ← readUchar .outside sd acl
  if revision < aclRevision2 ∨ aclRevision4 < revision then pure false else do
  if ¬ wordAligned (base + acl + 2) then pure false else do
  let aclSize ← readUshort .outside sd (acl + 2)
  if aclSize < sizeofAcl then pure false else do
  let aceCount ← readUshort .outside sd (acl + 4)
  validAces base sd acl aclSize revision aceCount (acl + sizeofAcl)

/-- `RtlpValidateSDOffsetAndSize`: the value of `MaxLength` where it answers `TRUE`. -/
def validateSDOffsetAndSize (offset length minLength : Nat) : Option Nat :=
  if offset < sizeofSecurityDescriptorRelative then none
  else if length ≤ offset then none
  else if length - offset < minLength then none
  else if offset % sizeofUlong ≠ 0 then none
  else some (length - offset)

/-- The test of the owner or the group, whose offset stands at `field`. -/
def validSidField (sd : List UInt8) (field : Nat) (required : Bool) : Except Fault Bool := do
  let offset ← readUlong .outside sd field
  if offset = 0 then pure (!required)
  else
    match validateSDOffsetAndSize offset sd.length sizeofSid with
    | none => pure false
    | some maxLength => sidFits sd offset 0 0 maxLength

/-- The test of the DACL or the SACL, whose offset stands at `field`. -/
def validAclField (base : Nat) (sd : List UInt8) (field presentBit : Nat) : Except Fault Bool := do
  let control ← readUshort .outside sd 2
  if ¬ bitsSet control presentBit then pure true else do
  let offset ← readUlong .outside sd field
  if offset = 0 then pure true
  else
    match validateSDOffsetAndSize offset sd.length sizeofAcl with
    | none => pure false
    | some maxLength => do
      let aclSize ← readUshort .outside sd (offset + 2)
      if maxLength < aclSize then pure false else validAcl base sd offset

/-- `RtlValidRelativeSecurityDescriptor` of a buffer at address `base`; the length passed
is the length of the buffer. -/
def validRelativeSecurityDescriptor (base : Nat) (sd : List UInt8)
    (requiredInformation : Nat) : Except Fault Bool := do
  if sd.length < sizeofSecurityDescriptorRelative then pure false else do
  let revision ← readUchar .outside sd 0
  if revision ≠ securityDescriptorRevision then pure false else do
  let control ← readUshort .outside sd 2
  if ¬ bitsSet control seSelfRelative then pure false else do
  let owner ← validSidField sd 4 (bitsSet requiredInformation ownerSecurityInformation)
  if owner then do
    let group ← validSidField sd 8 (bitsSet requiredInformation groupSecurityInformation)
    if group then do
      let dacl ← validAclField base sd 16 seDaclPresent
      if dacl then validAclField base sd 12 seSaclPresent else pure false
    else pure false
  else pure false

/-! ## What lies where -/

/-- The `size` bytes at `offset` are in the buffer, and outside the header. -/
def Lies (sd : List UInt8) (offset size : Nat) : Prop :=
  sizeofSecurityDescriptorRelative ≤ offset ∧ offset + size ≤ sd.length

def SidLies (sd : List UInt8) (sid : Nat) : Prop :=
  Lies sd sid (lengthSid (ucharAt sd (sid + 1)))

/-- The SIDs of an ACE of one of the types that have SIDs. -/
def aceSids (sd : List UInt8) (ace : Nat) : List Nat :=
  if isKnownAceType (ucharAt sd ace) then [ace + 8]
  else if isCompoundAceType (ucharAt sd ace) then
    [ace + 12, ace + 12 + lengthSid (ucharAt sd (ace + 12 + 1))]
  else if isObjectAceType (ucharAt sd ace) then [ace + 12 + guidSize (ulongAt sd (ace + 8))]
  else []

/-- The GUIDs of an object ACE: the object type, and behind it the inherited type. -/
def aceGuids (sd : List UInt8) (ace : Nat) : List Nat :=
  if isObjectAceType (ucharAt sd ace) then
    let flags := ulongAt sd (ace + 8)
    (if bitsSet flags aceObjectTypePresent then [ace + 12] else []) ++
      (if bitsSet flags aceInheritedObjectTypePresent then
        [ace + 12 + if bitsSet flags aceObjectTypePresent then sizeofGuid else 0] else [])
  else []

/-- An ACE, its SIDs and its GUIDs. -/
structure AceLies (sd : List UInt8) (ace : Nat) : Prop where
  whole : Lies sd ace (ushortAt sd (ace + 2))
  header : sizeofAceHeader ≤ ushortAt sd (ace + 2)
  sids : ∀ sid ∈ aceSids sd ace, SidLies sd sid
  guids : ∀ guid ∈ aceGuids sd ace, Lies sd guid sizeofGuid

/-- The ACE that follows `ace` after `index` others, by their sizes. -/
def aceFrom (sd : List UInt8) (ace : Nat) : Nat → Nat
  | 0 => ace
  | index + 1 => aceFrom sd (ace + ushortAt sd (ace + 2)) index

structure AclLies (sd : List UInt8) (acl : Nat) : Prop where
  whole : Lies sd acl (ushortAt sd (acl + 2))
  header : sizeofAcl ≤ ushortAt sd (acl + 2)
  aces : ∀ index < ushortAt sd (acl + 4), AceLies sd (aceFrom sd (acl + sizeofAcl) index)

/-- Everything a descriptor points at. -/
structure DescriptorLies (sd : List UInt8) : Prop where
  header : sizeofSecurityDescriptorRelative ≤ sd.length
  owner : ulongAt sd 4 ≠ 0 → SidLies sd (ulongAt sd 4)
  group : ulongAt sd 8 ≠ 0 → SidLies sd (ulongAt sd 8)
  dacl : bitsSet (ushortAt sd 2) seDaclPresent → ulongAt sd 16 ≠ 0 → AclLies sd (ulongAt sd 16)
  sacl : bitsSet (ushortAt sd 2) seSaclPresent → ulongAt sd 12 ≠ 0 → AclLies sd (ulongAt sd 12)

/-! ## One SID, one ACE -/

variable {base : Nat} {sd : List UInt8}

theorem sidFits_yields {sid fixed more limit : Nat} (inside : sid + 2 ≤ sd.length) :
    Yields (sidFits sd sid fixed more limit) (fun answer => answer →
      fixed + lengthSid (ucharAt sd (sid + 1)) + more ≤ limit) := by
  apply Yields.readUchar (by omega)
  apply Yields.guard
  intro _
  apply Yields.readUchar (by omega)
  apply Yields.guard
  intro _
  apply Yields.guard
  intro fits
  exact Yields.pure fun _ => by omega

variable {ace aceSize revision acl aclSize field : Nat}

theorem validKnownAce_yields (inside : ace + aceSize ≤ sd.length) :
    Yields (validKnownAce sd ace aceSize) (fun answer => answer →
      ace + 8 + lengthSid (ucharAt sd (ace + 8 + 1)) ≤ ace + aceSize) := by
  apply Yields.guard
  intro long
  have room : 16 ≤ aceSize := by
    simp only [sizeofKnownAce, sizeofUlong, sizeofSid] at long
    omega
  refine (sidFits_yields (by omega)).mono fun answer fits valid => ?_
  have := fits valid
  simp only [sizeofKnownAce, sizeofUlong] at this
  omega

theorem validCompoundAce_yields (inside : ace + aceSize ≤ sd.length) :
    Yields (validCompoundAce sd revision ace aceSize) (fun answer => answer →
      ace + 12 + lengthSid (ucharAt sd (ace + 12 + 1)) +
        lengthSid (ucharAt sd (ace + 12 + lengthSid (ucharAt sd (ace + 12 + 1)) + 1))
          ≤ ace + aceSize) := by
  apply Yields.guard
  intro long
  have room : 24 ≤ aceSize := by
    simp only [sizeofKnownCompoundAce, sizeofUlong, sizeofSid] at long
    omega
  apply Yields.readUshort (by omega)
  apply Yields.guard
  intro _
  refine Yields.andThen (sidFits_yields (by omega)) fun fits => ?_
  -- The first test leaves room for the fixed part of the second SID.
  have second : 12 + lengthSid (ucharAt sd (ace + 12 + 1)) + 12 ≤ aceSize := fits
  apply Yields.readUchar (by omega)
  refine (sidFits_yields (by omega)).mono fun answer fits valid => ?_
  have := fits valid
  simp only [sizeofKnownCompoundAce, sizeofUlong] at this
  omega

theorem validObjectAce_yields (inside : ace + aceSize ≤ sd.length) :
    Yields (validObjectAce sd revision ace aceSize) (fun answer => answer →
      ace + 12 + guidSize (ulongAt sd (ace + 8)) +
        lengthSid (ucharAt sd (ace + 12 + guidSize (ulongAt sd (ace + 8)) + 1))
          ≤ ace + aceSize) := by
  apply Yields.guard
  intro long
  have room : 12 ≤ aceSize := by
    simp only [sizeofKnownObjectAce, sizeofUlong] at long
    omega
  apply Yields.readUlong (by omega)
  apply Yields.guard
  intro short
  have guids : 12 + guidSize (ulongAt sd (ace + 8)) + 12 ≤ aceSize := by
    simp only [sizeofKnownObjectAce, sizeofUlong, sizeofSid] at short
    omega
  refine (sidFits_yields (by omega)).mono fun answer fits valid => ?_
  have := fits valid
  simp only [sizeofKnownObjectAce, sizeofUlong] at this
  omega

/-- The GUIDs of an object ACE lie before its SID. -/
theorem aceGuids_before {guid : Nat} (mem : guid ∈ aceGuids sd ace) :
    isObjectAceType (ucharAt sd ace) ∧ ace + 12 ≤ guid ∧
      guid + sizeofGuid ≤ ace + 12 + guidSize (ulongAt sd (ace + 8)) := by
  unfold aceGuids at mem
  split at mem
  next object =>
    refine ⟨object, ?_⟩
    unfold guidSize
    rcases List.mem_append.mp mem with mem | mem
    · split at mem
      next present =>
        rw [List.mem_singleton.mp mem, if_pos present]
        omega
      next => simp at mem
    · split at mem
      next present =>
        rw [List.mem_singleton.mp mem, if_pos present]
        omega
      next => simp at mem
  next => simp at mem

theorem validAce_yields (header : sizeofSecurityDescriptorRelative ≤ ace)
    (inside : acl + aclSize ≤ sd.length) :
    Yields (validAce base sd acl aclSize revision ace) (fun answer => answer → AceLies sd ace) := by
  apply Yields.guard
  intro room
  simp only [sizeofAceHeader] at room
  apply Yields.readUshort (by omega)
  apply Yields.guard
  intro sized
  simp only [not_or, Nat.not_lt] at sized
  obtain ⟨-, atLeast, atMost⟩ := sized
  have whole : ace + ushortAt sd (ace + 2) ≤ sd.length := by omega
  have lies {offset size : Nat} (after : ace ≤ offset)
      (before : offset + size ≤ ace + ushortAt sd (ace + 2)) : Lies sd offset size :=
    ⟨by omega, by omega⟩
  have noGuids (other : ¬ isObjectAceType (ucharAt sd ace)) :
      ∀ guid ∈ aceGuids sd ace, Lies sd guid sizeofGuid := by
    intro guid mem
    exact absurd (aceGuids_before mem).1 other
  apply Yields.readUchar (by omega)
  -- each kind has its SIDs at places of its own; an unknown type has none
  refine Yields.ite (fun known => ?_) fun unknown => Yields.ite (fun compound => ?_)
    fun simple => Yields.ite (fun object => ?_) fun other => ?_
  · refine (validKnownAce_yields whole).mono fun answer fits valid =>
      ⟨lies (by omega) (by omega), atLeast, fun sid mem => ?_, noGuids ?_⟩
    · rw [aceSids, if_pos known, List.mem_singleton] at mem
      subst mem
      exact lies (by omega) (fits valid)
    · simp only [isKnownAceType, decide_eq_true_eq] at known
      simp only [isObjectAceType, Bool.and_eq_true, decide_eq_true_eq]
      omega
  · refine (validCompoundAce_yields whole).mono fun answer fits valid =>
      ⟨lies (by omega) (by omega), atLeast, fun sid mem => ?_, noGuids ?_⟩
    · have := fits valid
      rw [aceSids, if_neg unknown, if_pos compound, List.mem_pair] at mem
      rcases mem with rfl | rfl
      · exact lies (by omega) (by omega)
      · exact lies (by omega) (by omega)
    · simp only [isCompoundAceType, beq_iff_eq] at compound
      simp only [isObjectAceType, Bool.and_eq_true, decide_eq_true_eq]
      omega
  · refine (validObjectAce_yields whole).mono fun answer fits valid =>
      ⟨lies (by omega) (by omega), atLeast, fun sid mem => ?_, fun guid mem => ?_⟩
    · rw [aceSids, if_neg unknown, if_neg simple, if_pos object, List.mem_singleton] at mem
      subst mem
      exact lies (by omega) (fits valid)
    · have := fits valid
      obtain ⟨-, after, before⟩ := aceGuids_before mem
      exact lies (by omega) (by omega)
  · refine Yields.pure fun _ =>
      ⟨lies (by omega) (by omega), atLeast, fun sid mem => ?_, noGuids other⟩
    simp [aceSids, unknown, simple, other] at mem

/-! ## ACLs and descriptors -/

/-- The loop keeps to the ACL: each turn ends at an offset no turn before it passed. -/
theorem validAces_yields (inside : acl + aclSize ≤ sd.length) (count ace : Nat)
    (header : sizeofSecurityDescriptorRelative ≤ ace) :
    Yields (validAces base sd acl aclSize revision count ace) (fun answer => answer →
      ∀ index < count, AceLies sd (aceFrom sd ace index)) := by
  induction count generalizing ace with
  | zero => exact Yields.pure fun _ index absurd => by omega
  | succ count ih =>
    refine Yields.andThen (validAce_yields header inside) fun first => ?_
    have fields : ace + 4 ≤ sd.length := Nat.le_trans (Nat.add_le_add_left first.header ace)
      first.whole.2
    apply Yields.readUshort (by omega)
    refine (ih (ace + ushortAt sd (ace + 2)) (by omega)).mono fun answer later valid => ?_
    rintro (- | index) before
    · exact first
    · exact later valid index (by omega)

theorem validAcl_yields (header : sizeofSecurityDescriptorRelative ≤ acl)
    (fields : acl + sizeofAcl ≤ sd.length) (inside : acl + ushortAt sd (acl + 2) ≤ sd.length) :
    Yields (validAcl base sd acl) (fun answer => answer → AclLies sd acl) := by
  simp only [sizeofAcl] at fields
  apply Yields.readUchar (by omega)
  apply Yields.guard
  intro _
  apply Yields.guard
  intro _
  apply Yields.readUshort (by omega)
  apply Yields.guard
  intro sized
  apply Yields.readUshort (by omega)
  refine (validAces_yields inside _ _ (by omega)).mono fun answer aces valid => ?_
  exact ⟨⟨header, inside⟩, by omega, aces valid⟩

theorem validateSDOffsetAndSize_eq_some {offset length minLength maxLength : Nat}
    (valid : validateSDOffsetAndSize offset length minLength = some maxLength) :
    sizeofSecurityDescriptorRelative ≤ offset ∧ offset + minLength ≤ length ∧
      offset + maxLength = length := by
  unfold validateSDOffsetAndSize at valid
  split at valid
  · cases valid
  split at valid
  · cases valid
  split at valid
  · cases valid
  split at valid
  · cases valid
  cases valid
  omega

theorem validSidField_yields {required : Bool} (inside : field + 4 ≤ sd.length) :
    Yields (validSidField sd field required) (fun answer => answer →
      ulongAt sd field ≠ 0 → SidLies sd (ulongAt sd field)) := by
  apply Yields.readUlong inside
  refine Yields.ite (fun absent => Yields.pure fun _ present => absurd absent present)
    fun present => ?_
  split
  next => exact .pure (by rintro ⟨⟩)
  next maxLength valid =>
    obtain ⟨header, room, whole⟩ := validateSDOffsetAndSize_eq_some valid
    simp only [sizeofSid] at room
    refine (sidFits_yields (by omega)).mono fun answer fits valid _ => ?_
    have := fits valid
    exact ⟨header, by omega⟩

theorem validAclField_yields {presentBit : Nat} (inside : field + 4 ≤ sd.length)
    (control : 4 ≤ sd.length) :
    Yields (validAclField base sd field presentBit) (fun answer => answer →
      bitsSet (ushortAt sd 2) presentBit → ulongAt sd field ≠ 0 →
        AclLies sd (ulongAt sd field)) := by
  apply Yields.readUshort (by omega)
  refine Yields.ite (fun absent => Yields.pure fun _ present => absurd present absent)
    fun present => ?_
  apply Yields.readUlong inside
  refine Yields.ite (fun absent => Yields.pure fun _ _ present => absurd absent present)
    fun nonzero => ?_
  split
  next => exact .pure (by rintro ⟨⟩)
  next maxLength valid =>
    obtain ⟨header, room, whole⟩ := validateSDOffsetAndSize_eq_some valid
    have fields : ulongAt sd field + 8 ≤ sd.length := room
    apply Yields.readUshort (by omega)
    apply Yields.guard
    intro sized
    exact (validAcl_yields header room (by omega)).mono fun answer lies valid _ _ => lies valid

/-- **The validation of a self-relative descriptor stays in its buffer, and so does all it
accepts.**  Of every buffer, at whatever address, the routine ends without a read at or past
its end; where it answers `TRUE`, the owner and the group, both ACLs, each of their ACEs and
each SID and GUID in an ACE are within the buffer and outside the header. -/
theorem validRelativeSecurityDescriptor_contained (base : Nat) (sd : List UInt8)
    (requiredInformation : Nat) :
    ∃ answer, validRelativeSecurityDescriptor base sd requiredInformation = .ok answer ∧
      (answer → DescriptorLies sd) := by
  apply Yields.guard
  intro long
  have header : 20 ≤ sd.length := Nat.not_lt.mp long
  apply Yields.readUchar (by omega)
  apply Yields.guard
  intro _
  apply Yields.readUshort (by omega)
  apply Yields.guard
  intro _
  refine Yields.andThen (validSidField_yields (by omega)) fun owner => ?_
  refine Yields.andThen (validSidField_yields (by omega)) fun group => ?_
  refine Yields.andThen (validAclField_yields (by omega) (by omega)) fun dacl => ?_
  refine (validAclField_yields (by omega) (by omega)).mono fun answer sacl valid => ?_
  exact ⟨header, owner, group, dacl, sacl valid⟩

/-- A descriptor with a DACL of one ACE is accepted. -/
example : validRelativeSecurityDescriptor 0
    [1, 0, 0x04, 0x80, 0, 0, 0, 0, 0, 0, 0, 0, 0, 0, 0, 0, 20, 0, 0, 0,
      2, 0, 28, 0, 1, 0, 0, 0, 0, 0, 20, 0, 1, 0, 0, 0, 1, 1, 0, 0, 0, 0, 0, 1, 0, 0, 0, 0] 0
      = .ok true := by
  decide +kernel

end Ntoskrnl.Rtl.Security
