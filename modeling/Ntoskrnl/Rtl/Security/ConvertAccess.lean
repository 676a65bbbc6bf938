/-
# Ntoskrnl.Rtl.Security.ConvertAccess -- what a converted ACL grants

A DACL is read bit by bit: the first effective ACE for one of the SIDs at hand that
has the bit decides.  `RtlpConvertAclToAutoInherit` is to change an ACL only in form.
It finds the inherited ACEs anywhere in the ACL, in whatever order, and puts them back
in the order of the parent; so where the child has the ACEs of the parent in another
order, and some of them allow what others deny, the ACL grants something else
afterwards.  A bit is granted as before exactly if the ACE that comes first for it
then is of the kind of the one that came first.
-/
import Ntoskrnl.Rtl.Security.ConvertMatch

namespace Ntoskrnl.Rtl.Security

open List Lib.Checked

set_option autoImplicit false

/-! ## Reading a DACL -/

/-- Who asks: the SIDs that are held, and which object types an object ACE may be for. -/
structure Asker where
  holds : Sid → Bool
  asksFor : Option Guid → Bool

variable (args : ConvertArguments) (asker : Asker)

/-- Whether an ACE is for the one who asks.  ACEs of the system decide nothing. -/
def AceBody.isFor : AceBody → Bool
  | .known kind _ sid => !kind.isSystem && asker.holds (args.standsFor sid)
  | .object kind _ _ objectType _ sid =>
    !kind.isSystem && asker.asksFor objectType && asker.holds (args.standsFor sid)
  | .compound _ _ _ serverSid clientSid =>
    asker.holds (args.standsFor serverSid) && asker.holds (args.standsFor clientSid)
  | .unknown .. => false

def AceBody.allows : AceBody → Bool
  | .known kind _ _ | .object kind _ _ _ _ _ => kind == .accessAllowed
  | .compound .. => true
  | .unknown .. => false

/-- The ACE decides about a bit of the access mask. -/
def Ace.decides (bit : Nat) (ace : Ace) : Bool :=
  !ace.inheritOnly && ace.body.isFor args asker &&
    (applyGenericMask args.genericMapping ace.body).getLsbD bit

/-- The first ACE that decides about a bit grants it or not. -/
def grants (aces : List Ace) (bit : Nat) : Bool :=
  (aces.find? (Ace.decides args asker bit)).any fun ace => ace.body.allows

def grantedAccess (aces : List Ace) : AccessMask :=
  (range 32).foldl (fun mask bit =>
    if grants args asker aces bit then mask ||| BitVec.twoPow 32 bit else mask) 0

variable {args : ConvertArguments} {asker : Asker} {bit : Nat} {ace : Ace}

theorem decides_iff : ace.decides args asker bit ↔
    ace.inheritOnly = false ∧ ace.body.isFor args asker ∧
      (applyGenericMask args.genericMapping ace.body).getLsbD bit := by
  simp [Ace.decides, and_assoc]

variable {aces aces' : List Ace} {child : Ace} {body : AceBody}

/-- The owner and the group are not themselves creator SIDs that stand for others. -/
structure ConvertArguments.Named (args : ConvertArguments) : Prop where
  owner : args.standsFor args.ownerSid = args.ownerSid
  group : args.standsFor args.groupSid = args.groupSid

theorem ConvertArguments.Named.standsFor_standsFor (named : args.Named) (sid : Sid) :
    args.standsFor (args.standsFor sid) = args.standsFor sid := by
  by_cases owner : sid = creatorSid securityCreatorOwnerRid
  · rw [owner, standsFor_owner, named.owner]
  by_cases group : sid = creatorSid securityCreatorGroupRid
  · rw [group, standsFor_group, named.group]
  have own : args.standsFor sid = sid := by
    rw [ConvertArguments.standsFor, if_neg owner, if_neg group]
  rw [own, own]

theorem eq_creatorSid {sid : Sid} {rid : BitVec 32}
    (creators : equalPrefixSid sid (creatorSid securityCreatorOwnerRid))
    (head : sid.subAuthorities.headD 0 = rid) : sid = creatorSid rid := by
  obtain ⟨authority, subAuthorities, short⟩ := sid
  simp only [equalPrefixSid, Bool.and_eq_true, beq_iff_eq] at creators
  obtain ⟨⟨rfl, length⟩, -⟩ := creators
  obtain ⟨only, rfl⟩ := length_eq_one_iff.mp length
  obtain rfl : only = rid := head
  rfl

theorem standsFor_of_compareSids (named : args.Named) {inheritedSid childSid : Sid}
    (same : compareSids (some args.ownerSid) (some args.groupSid) child inheritedSid
      childSid) : args.standsFor childSid = args.standsFor inheritedSid := by
  unfold compareSids at same
  split at same
  · next eq => rw [eq]
  split at same
  · exact nomatch same
  split at same
  · exact nomatch same
  split at same
  swap
  · exact nomatch same
  next creators =>
  dsimp only at same
  split at same
  · next owner =>
    rw [eq_creatorSid creators owner, standsFor_owner, ← Option.some.inj (beq_iff_eq.mp same),
      named.owner]
  split at same
  · next group =>
    rw [eq_creatorSid creators group, standsFor_group, ← Option.some.inj (beq_iff_eq.mp same),
      named.group]
  · exact nomatch same

/-- ACEs that are for the same. -/
def AceBody.Alike (args : ConvertArguments) (body body' : AceBody) : Prop :=
  ∀ asker, body'.isFor args asker = body.isFor args asker

theorem alike_of_subject {body' : AceBody} {subject : Subject}
    (about : body.subject? = some subject) (about' : body'.subject? = some subject) :
    body.Alike args body' := by
  have reads : ∀ {body : AceBody}, body.subject? = some subject → ∀ asker : Asker,
      body.isFor args asker = (!subject.kind.isSystem &&
        (!subject.isObject || asker.asksFor subject.objectType) &&
        asker.holds (args.standsFor subject.sid)) := by
    intro body about asker
    cases body <;> cases about <;> simp [AceBody.isFor]
  exact fun asker => (reads about' asker).trans (reads about asker).symm

theorem alike_of_compareAces (named : args.Named) {inherited : Ace}
    (same : compareAces inherited child (some args.ownerSid) (some args.groupSid)) :
    inherited.body.Alike args child.body := by
  intro asker
  unfold compareAces at same
  split at same
  · next eq eq' =>
    simp only [Bool.and_eq_true, beq_iff_eq] at same
    simp [eq, eq', AceBody.isFor, same.1.1, standsFor_of_compareSids named same.2]
  · next eq eq' =>
    simp only [Bool.and_eq_true, beq_iff_eq] at same
    obtain ⟨⟨⟨⟨sameKind, -⟩, -⟩, sameObject⟩, sids⟩ := same
    simp [eq, eq', AceBody.isFor, sameKind, sameObject, standsFor_of_compareSids named sids]
  · cases same

theorem alike_mapSids (named : args.Named) (body : AceBody) :
    body.Alike args (body.mapSids args.standsFor) := by
  intro asker
  cases body <;> simp [AceBody.mapSids, AceBody.isFor, named.standsFor_standsFor]

theorem isMs_of_isFor (isFor : body.isFor args asker) : body.isMs := by
  cases body with
  | unknown => cases isFor
  | _ => rfl

/-! ## What the conversion changes -/

/-- What is left of an ACE of the child where these ACEs are inherited. -/
def ConvertArguments.left (args : ConvertArguments) (inherited : List Ace) (ace : Ace) :
    AceInfo :=
  (aceInfo args.genericMapping ace).leftBy args inherited

/-- The ACEs the parent yields with the constant creator SIDs and with the owner and the group,
if all of the first are matched, the order is kept and the result is not too large. -/
def ConvertArguments.parts (args : ConvertArguments) (pool : ConvertPool) :
    Option (List Ace × List Ace) := do
  let constant ← (inheritAcl args.constant args.parentAcl pool.inheritedAcl pool.stale.1).toOption
  let inheritedAcl ← constant.acl
  let real ← (inheritAcl args.real args.parentAcl pool.realInheritedAcl pool.stale.2).toOption
  let realInheritedAcl ← real.acl
  let infos ← matchAll args inheritedAcl.aces (args.childAcl.aces.map (aceInfo args.genericMapping))
  let aclLength := realInheritedAcl.aclSize + totalSize ((staying infos).map fun info => info.ace)
  let aclRevision := max realInheritedAcl.aclRevision args.childAcl.aclRevision
  if aclLength < sizeofAcl ∨ maxUstring < aclLength ∨ aclRevision < aclRevision2 ∨
      aclRevision4 < aclRevision then none
  else if args.childAcl.aces.all (fun ace => ace.body.comparable) ∧
      keepsOrder false false infos then some (inheritedAcl.aces, realInheritedAcl.aces)
  else none

/-- The child ACL and what its conversion puts in its place, unless it is protected. -/
structure Split (args : ConvertArguments) (inherited real aces : List Ace) : Prop where
  comparable : ∀ ace ∈ args.childAcl.aces, ace.body.comparable
  parent : ∃ parent, Stands args.constant parent inherited ∧ Stands args.real parent real
  found : ∀ ace ∈ inherited, ∀ i, (localMasks args.genericMapping ace).effective.getLsbD i →
      ∃ info ∈ args.childAcl.aces.map (aceInfo args.genericMapping),
        info.original.effective.getLsbD i ∧
        compareAces ace info.ace (some args.ownerSid) (some args.groupSid)
  aces : aces = (staying (args.childAcl.aces.map (args.left inherited))).map
    (newAce args.genericMapping) ++ real

variable {acl : Acl} {pool : ConvertPool} {control : GenericControl}

theorem flagOn_aceFlagsInAce (ace : Ace) :
    flagOn (aceFlagsInAce ace) effectiveAceFlag = !ace.inheritOnly := by
  unfold aceFlagsInAce Ace.inheritOnly
  generalize ace.aceFlags = flags
  revert flags
  decide

theorem getLsbD_localMasks {mapping : GenericMapping} {i : Nat} :
    (localMasks mapping ace).effective.getLsbD i ↔
      ace.inheritOnly = false ∧ (applyGenericMask mapping ace.body).getLsbD i := by
  unfold localMasks
  rw [flagOn_aceFlagsInAce]
  cases ace.inheritOnly <;> simp

theorem within_localMasks (mapping : GenericMapping) (ace : Ace) :
    Within (aceInfo mapping ace).resultantMask (applyGenericMask mapping ace.body) := by
  intro i set
  simp only [AceInfo.resultantMask, aceInfo, localMasks, BitVec.getLsbD_or, Bool.or_eq_true] at set
  rcases set with (set | set) | set
  all_goals
    split at set
    · exact set
    · simp at set

section Newly

variable {info : AceInfo} (mapping : GenericMapping) (is : info.ace = ace)

include is

theorem inheritOnly_newAce : (newAce mapping info).inheritOnly = ace.inheritOnly := by
  subst is
  unfold Ace.inheritOnly newAce flagOn
  rw [BitVec.and_assoc, show ~~~inheritedAce &&& inheritOnlyAce = inheritOnlyAce by decide]

theorem isFor_newAce : (newAce mapping info).body.isFor args asker = ace.body.isFor args asker := by
  subst is
  unfold newAce
  cases info.ace.body <;> rfl

theorem applyGenericMask_newAce (comparable : ace.body.comparable) :
    applyGenericMask mapping (newAce mapping info).body =
      mapGenericMask mapping (newMask mapping ace.body.mask info.resultantMask) &&&
        ace.body.meaningful mapping := by
  subst is
  unfold newAce applyGenericMask
  rw [meaningful_setMask]
  cases body : info.ace.body with
  | unknown =>
    rw [body] at comparable
    cases comparable
  | _ => rfl

/-- The ACE that stays decides about no more bits, and about all that are left. -/
theorem decides_newAce (comparable : ace.body.comparable)
    (left : Within info.resultantMask (applyGenericMask args.genericMapping ace.body)) :
    ((newAce args.genericMapping info).decides args asker bit → ace.decides args asker bit) ∧
      (ace.decides args asker bit → info.resultantMask.getLsbD bit →
        (newAce args.genericMapping info).decides args asker bit) := by
  have mapped : Within info.resultantMask
      (mapGenericMask args.genericMapping ace.body.mask) := fun i set =>
    Within.and_left i (left i set)
  obtain ⟨noMore, all⟩ := newMask_spec mapped
  simp only [decides_iff, inheritOnly_newAce _ is, isFor_newAce _ is,
    applyGenericMask_newAce _ is comparable, BitVec.getLsbD_and, Bool.and_eq_true]
  constructor
  · rintro ⟨effective, isFor, set, meaningful⟩
    refine ⟨effective, isFor, ?_⟩
    rw [applyGenericMask, BitVec.getLsbD_and, noMore bit set, meaningful]
    rfl
  · rintro ⟨effective, isFor, set⟩ remains
    rw [applyGenericMask, BitVec.getLsbD_and, Bool.and_eq_true] at set
    exact ⟨effective, isFor, all bit remains, set.2⟩

end Newly

/-! ## The votes before and after -/

variable {inheriting : InheritArguments} {parent : List Ace}

/-- An effective form is there, as such or as ACEs that are alike. -/
theorem Stands.alike (args : ConvertArguments) (stands : Stands inheriting parent aces)
    {old : Ace} (mem : old ∈ parent) (made : effectiveOf inheriting old = .ok (some body))
    (set : body.mask.getLsbD bit) :
    ∃ ace ∈ aces, ace.inheritOnly = false ∧ ace.body.mask.getLsbD bit ∧
      body.Alike args ace.body := by
  rcases stands.complete old mem body made with ⟨ace, mem, effective, rfl⟩ | ⟨subject, about, bits⟩
  · exact ⟨ace, mem, effective, set, fun _ => rfl⟩
  · obtain ⟨ace, mem, effective, about', set⟩ := bits bit set
    exact ⟨ace, mem, effective, set, alike_of_subject about about'⟩

/-- An effective ACE that was inherited has its mask as it is. -/
theorem Stands.applyGenericMask (stands : Stands inheriting parent aces) (mem : ace ∈ aces)
    (effective : ace.inheritOnly = false) (isFor : ace.body.isFor args asker) :
    applyGenericMask inheriting.genericMapping ace.body = ace.body.mask := by
  obtain ⟨old, -, made⟩ := stands.sound ace mem effective
  exact applyGenericMask_effectiveOf made (isMs_of_isFor isFor)

section Parts

variable {parent inherited real : List Ace} {verdict : Bool} (named : args.Named)
  (stands : Stands args.constant parent inherited)
  (stands' : Stands args.real parent real)

include named stands stands'

/-- About what is inherited, the child has an ACE that decides. -/
theorem decides_of_real (found : ∀ ace ∈ inherited, ∀ i,
      (localMasks args.genericMapping ace).effective.getLsbD i →
      ∃ info ∈ args.childAcl.aces.map (aceInfo args.genericMapping),
        info.original.effective.getLsbD i ∧
        compareAces ace info.ace (some args.ownerSid) (some args.groupSid))
    (mem : ace ∈ real) (decides : ace.decides args asker bit) :
    ∃ child ∈ args.childAcl.aces, child.decides args asker bit := by
  obtain ⟨effective, isFor, set⟩ := decides_iff.mp decides
  have raw := stands'.applyGenericMask mem effective isFor
  obtain ⟨old, inParent, made'⟩ := stands'.sound ace mem effective
  obtain ⟨form, made, eq⟩ := effectiveOf_real args old
  obtain ⟨body, rfl, renamed⟩ := Option.map_eq_some_iff.mp (Except.ok.inj (eq.symm.trans made'))
  have inBody : body.mask.getLsbD bit := by
    rw [← AceBody.mask_mapSids args.standsFor, renamed, ← raw]
    exact set
  obtain ⟨first, inFirst, firstEffective, firstBit, alike⟩ :=
    stands.alike args inParent made inBody
  have firstIsFor : first.body.isFor args asker := by
    rw [alike asker, ← alike_mapSids named body asker, renamed, isFor]
  rw [← stands.applyGenericMask inFirst firstEffective firstIsFor] at firstBit
  obtain ⟨info, inChild, original, same⟩ :=
    found first inFirst bit (getLsbD_localMasks.mpr ⟨firstEffective, firstBit⟩)
  obtain ⟨child, inChild', rfl⟩ := mem_map.mp inChild
  obtain ⟨childEffective, childBit⟩ := getLsbD_localMasks.mp original
  refine ⟨child, inChild', decides_iff.mpr ⟨childEffective, ?_, childBit⟩⟩
  exact (alike_of_compareAces named same asker).trans firstIsFor

/-- What matching has taken from the child is inherited. -/
theorem decides_real {first : Ace} (inFirst : first ∈ inherited)
    (same : compareAces first child (some args.ownerSid) (some args.groupSid))
    (set : (localMasks args.genericMapping first).effective.getLsbD bit)
    (decides : child.decides args asker bit) :
    ∃ ace ∈ real, ace.decides args asker bit := by
  obtain ⟨-, isFor, -⟩ := decides_iff.mp decides
  obtain ⟨effective, firstBit⟩ := getLsbD_localMasks.mp set
  have firstIsFor : first.body.isFor args asker :=
    (alike_of_compareAces named same asker).symm.trans isFor
  have raw := stands.applyGenericMask inFirst effective firstIsFor
  obtain ⟨old, inParent, made⟩ := stands.sound first inFirst effective
  obtain ⟨form, made', eq⟩ := effectiveOf_real args old
  obtain rfl : form = some first.body := Except.ok.inj (made'.symm.trans made)
  have inBody : (first.body.mapSids args.standsFor).mask.getLsbD bit := by
    rw [AceBody.mask_mapSids, ← raw]
    exact firstBit
  obtain ⟨ace, mem, effective', aceBit, alike⟩ :=
    stands'.alike args inParent eq inBody
  have aceIsFor : ace.body.isFor args asker :=
    (alike asker).trans ((alike_mapSids named first.body asker).trans firstIsFor)
  rw [← stands'.applyGenericMask mem effective' aceIsFor] at aceBit
  exact ⟨ace, mem, decides_iff.mpr ⟨effective', aceIsFor, aceBit⟩⟩

end Parts

/-- What is left of an ACE of the child decides about the bit. -/
def Ace.keeps (args : ConvertArguments) (asker : Asker) (inherited : List Ace) (bit : Nat)
    (ace : Ace) : Bool :=
  (args.left inherited ace).resultantMask != 0 &&
    (newAce args.genericMapping (args.left inherited ace)).decides args asker bit

section Split

variable {inherited real : List Ace} (split : Split args inherited real aces)

include split

/-- A bit is decided after the conversion exactly if it was before. -/
theorem Split.decides_iff (named : args.Named) :
    (∃ ace ∈ args.childAcl.aces, ace.decides args asker bit) ↔
      (∃ ace ∈ args.childAcl.aces, ace.keeps args asker inherited bit) ∨
        ∃ ace ∈ real, ace.decides args asker bit := by
  obtain ⟨parent, stands, stands'⟩ := split.parent
  -- Of an ACE of the child no more than its own bits are left.
  have leaves (child : Ace) : Leaves args inherited (aceInfo args.genericMapping child)
      (args.left inherited child) := leaves_leftBy inherited _
  have left (child : Ace) : Within (args.left inherited child).resultantMask
      (applyGenericMask args.genericMapping child.body) := fun i set =>
    within_localMasks _ _ i ((leaves child).resultant i set)
  constructor
  · rintro ⟨child, inChild, decides⟩
    obtain ⟨effective, -, set⟩ := Security.decides_iff.mp decides
    rcases (leaves child).accounted bit (getLsbD_localMasks.mpr ⟨effective, set⟩) with
      remains | ⟨first, inFirst, same, here⟩
    · have resultant : (args.left inherited child).resultantMask.getLsbD bit := by
        rw [AceInfo.resultantMask, BitVec.getLsbD_or, BitVec.getLsbD_or, remains,
          Bool.true_or, Bool.true_or]
      refine .inl ⟨child, inChild, Bool.and_eq_true_iff.mpr ⟨bne_iff_ne.mpr fun zero => ?_,
        (decides_newAce (leaves child).ace (split.comparable child inChild) (left child)).2 decides
          resultant⟩⟩
      rw [zero] at resultant
      simp at resultant
    · exact .inr (decides_real named stands stands' inFirst same here decides)
  · rintro (⟨child, inChild, keeps⟩ | ⟨ace, mem, decides⟩)
    · exact ⟨child, inChild, (decides_newAce (leaves child).ace (split.comparable child inChild)
        (left child)).1 (Bool.and_eq_true_iff.mp keeps).2⟩
    · exact decides_of_real named stands stands' split.found mem decides

end Split

end Ntoskrnl.Rtl.Security
