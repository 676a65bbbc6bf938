/-
# Ntoskrnl.Rtl.Security.Merge -- setting the ACL of an object

`RtlpComputeMergedAcl` builds the ACL an object gets when a caller sets one.  If
neither the present nor the new ACL is protected, the ACEs of the new ACL that are
not inherited come first, and those of the present ACL that are inherited follow: an
inherited ACE cannot be edited by setting an ACL.

The ACL that is built is not always one `RtlValidAcl` accepts.  An effective copy
leaves the bytes behind a SID behind, and `RtlValidAcl` wants room for a
sub-authority in object and compound ACEs even where the SID has none; and the last
ACE of a valid ACL may have an odd size, which no ACE with another one behind it may.
-/
import Ntoskrnl.Rtl.Security.Inherit
import Ntoskrnl.Rtl.Security.ValidCopies

namespace Ntoskrnl.Rtl.Security

open List Lib.Checked

set_option autoImplicit false

/-! ## The merge -/

structure MergeArguments where
  currentAcl : Option Acl
  currentGenericControl : GenericControl
  modificationAcl : Option Acl
  modificationGenericControl : GenericControl
  clientOwnerSid : Sid
  clientGroupSid : Option Sid
  genericMapping : GenericMapping
  isSacl : Bool

structure MergedAcl where
  /-- `none` is the `NULL` ACL. -/
  acl : Option Acl
  newGenericControl : GenericControl
deriving DecidableEq, Repr

variable (args : MergeArguments) (buffer : Acl)

/-- The owner and the group stand in for the SIDs of the server as well. -/
def MergeArguments.creator : Creator :=
  ⟨args.clientOwnerSid, args.clientGroupSid, some args.clientOwnerSid, args.clientGroupSid⟩

/-- How ACEs of the new ACL are copied; the object is taken for a container. -/
def MergeArguments.copyMapping (aceTypeToCopy : AceTypeToCopy)
    (aceFlagsToReset : AceFlags) (retainInheritedAceBit : Bool) : CopyOptions :=
  ⟨args.genericMapping, aceTypeToCopy, aceFlagsToReset, some args.creator, true,
    retainInheritedAceBit⟩

/-- How the inherited ACEs of the present ACL are copied: their SIDs are mapped already. -/
def MergeArguments.copyInherited : CopyOptions :=
  ⟨args.genericMapping, .copyInheritedAces, 0, none, true, false⟩

/-- What the copying has built. -/
structure MergeState where
  acl : Acl
  aclRevision : Nat
  newAclSize : Nat
  aclOverflowed : Bool
  nullAclOk : Bool

/-- Copy ACEs behind those that are there. -/
def MergeState.copy (options : CopyOptions) (acl : Acl) (state : MergeState) :
    Except Failure MergeState := do
  let (newAcl, size, aclOverflowed) ← copyAces options acl.aces state.acl
  pure ⟨newAcl, max state.aclRevision acl.aclRevision, state.newAclSize + size,
    state.aclOverflowed || aclOverflowed, state.nullAclOk⟩

/-- The new ACL is protected: it is taken as it is, with no ACE marked as inherited. -/
def mergeProtected : Except Failure MergeState :=
  match args.modificationAcl with
  | some modification =>
    MergeState.copy (args.copyMapping .copyAllAces inheritedAce false) modification
      ⟨buffer, aclRevision2, 0, false, false⟩
  | none => pure ⟨buffer, aclRevision2, 0, false, true⟩

/-- Only the present ACL is protected: the new one is taken as it is. -/
def mergeUnprotect : Except Failure MergeState :=
  match args.modificationAcl with
  | some modification =>
    MergeState.copy (args.copyMapping .copyAllAces 0 true) modification
      ⟨buffer, aclRevision2, 0, false, false⟩
  | none =>
    if ¬ args.isSacl then throw .invalidAcl
    else pure ⟨buffer, aclRevision2, 0, false, true⟩

/-- The part of the new ACL if neither is protected. -/
def mergeModification : Except Failure MergeState :=
  match args.modificationAcl with
  | some modification =>
    MergeState.copy (args.copyMapping .copyNonInheritedAces 0 false) modification
      ⟨buffer, aclRevision2, 0, false, args.isSacl && decide (modification.aces ≠ [])⟩
  | none =>
    if ¬ args.isSacl then throw .invalidAcl
    else pure ⟨buffer, aclRevision2, 0, false, args.isSacl⟩

/-- Neither is protected. -/
def mergeBoth : Except Failure MergeState := do
  let state ← mergeModification args buffer
  match args.currentAcl with
  | some current => MergeState.copy args.copyInherited current state
  | none => pure state

def mergeAces : Except Failure MergeState :=
  if flagOn args.modificationGenericControl sepAclProtected then
    mergeProtected args buffer
  else if flagOn args.currentGenericControl sepAclProtected then
    mergeUnprotect args buffer
  else mergeBoth args buffer

/-- `RtlpComputeMergedAcl2`, into a buffer. -/
def computeMergedAcl2 : Except Failure MergedAcl := do
  let state ← mergeAces args buffer
  let control := sepAclAutoInherited |||
    (if flagOn args.modificationGenericControl sepAclProtected then sepAclProtected else 0)
  if state.newAclSize = 0 ∧ state.nullAclOk then pure ⟨none, control⟩
  else if 0xFFFF < state.newAclSize + sizeofAcl then throw .badInheritanceAcl
  else if state.aclOverflowed then throw (.bufferTooSmall (state.newAclSize + sizeofAcl))
  else
    pure ⟨some ⟨state.aclRevision, state.newAclSize + sizeofAcl, state.acl.aces⟩, control⟩

/-- `RtlpComputeMergedAcl`. -/
def computeMergedAcl (allocate : Bool × Bool) (stale : Acl) : Except Failure MergedAcl :=
  twoPasses 1024 allocate stale (computeMergedAcl2 args)

/-! ## What is copied -/

/-- The ACEs of the new and of the present ACL. -/
def MergeArguments.modificationAces : List Ace :=
  (args.modificationAcl.map Acl.aces).getD []

def MergeArguments.currentAces : List Ace :=
  (args.currentAcl.map Acl.aces).getD []

/-- The inherited ACEs of the present ACL, as they come into the new one. -/
def MergeArguments.back : List Ace :=
  (args.currentAces.filter Ace.inherited).map (Ace.applyToObject args.genericMapping)

/-- The revision of the result. -/
def MergeArguments.revision : Nat :=
  max (max aclRevision2 ((args.modificationAcl.map Acl.aclRevision).getD aclRevision2))
    ((args.currentAcl.map Acl.aclRevision).getD aclRevision2)

/-- How the ACEs of the new ACL are copied if neither is protected. -/
def MergeArguments.front : CopyOptions :=
  args.copyMapping .copyNonInheritedAces 0 false

variable {args buffer} {stale : Acl} {allocate : Bool × Bool}

variable {state : MergeState} {front : List Ace} {result : MergedAcl}

variable {options : CopyOptions} {old : Ace}

theorem MergeState.copy_ok {acl : Acl} {state' : MergeState}
    (run : MergeState.copy options acl state = .ok state') :
    state'.nullAclOk = state.nullAclOk ∧
      state'.aclRevision = max state.aclRevision acl.aclRevision ∧
      (state'.aclOverflowed = false → state.aclOverflowed = false ∧ ∃ new,
        copiesOfAll options acl.aces = .ok new ∧ state'.acl.aces = state.acl.aces ++ new ∧
        state'.newAclSize = state.newAclSize + totalSize new) := by
  obtain ⟨⟨newAcl, size, aclOverflowed⟩, copy, run⟩ := bind_eq_ok.mp run
  cases run
  refine ⟨rfl, rfl, fun fits => ?_⟩
  obtain ⟨before, here⟩ := Bool.or_eq_false_iff.mp fits
  obtain rfl : aclOverflowed = false := here
  obtain ⟨new, copied, rfl, rfl, -⟩ := copyAces_ok copy
  exact ⟨before, new, copied, rfl, rfl⟩

theorem neverResizes_copy (options : CopyOptions) (acl : Acl) (state : MergeState) :
    NeverResizes (MergeState.copy options acl state) :=
  .bind (neverResizes_copyAces _ _ _) fun _ => .ok _

theorem neverResizes_mergeAces (args : MergeArguments) (buffer : Acl) :
    NeverResizes (mergeAces args buffer) := by
  have invalid : NeverResizes (throw .invalidAcl : Except Failure MergeState) := fun _ => nofun
  refine .ite ?_ (.ite ?_ (.bind ?_ fun state => ?_))
  · unfold mergeProtected
    split
    · exact neverResizes_copy _ _ _
    · exact .ok _
  · unfold mergeUnprotect
    split
    · exact neverResizes_copy _ _ _
    · exact .ite invalid (.ok _)
  · unfold mergeModification
    split
    · exact neverResizes_copy _ _ _
    · exact .ite invalid (.ok _)
  · split
    · exact neverResizes_copy _ _ _
    · exact .ok _

/-- The plain copies of the inherited ACEs: unchanged but for the masks of effective ACEs. -/
theorem copiesOfAll_copyInherited (args : MergeArguments) (aces : List Ace) :
    copiesOfAll args.copyInherited aces =
      .ok ((aces.filter Ace.inherited).map (Ace.applyToObject args.genericMapping)) := by
  have keeps : ∀ ace, args.copyInherited.reset ace = ace := by
    rintro ⟨aceFlags, body, rest⟩
    have all : aceFlags &&& ~~~(0 : AceFlags) = aceFlags := BitVec.and_allOnes
    exact congrArg (fun flags => Ace.mk flags body rest) all
  have plain : ∀ ace, plainCopy args.copyInherited ace = ace.applyToObject args.genericMapping := by
    intro ace
    rw [plainCopy, keeps]
    split
    · rfl
    · next unknown =>
      obtain ⟨aceFlags, body, rest⟩ := ace
      cases body with
      | unknown => exact (ite_self _).symm
      | _ => exact absurd rfl unknown
  induction aces with
  | nil => rfl
  | cons ace aces ih =>
    rw [copiesOfAll, ih]
    cases inherited : ace.inherited <;>
      simp [copies, MergeArguments.copyInherited, AceTypeToCopy.selects, inherited, bind,
        Except.bind, pure, Except.pure]
    exact plain ace

/-- Only the selected ACEs count. -/
theorem copiesOfAll_filter (options : CopyOptions) (aces : List Ace) :
    copiesOfAll options (aces.filter options.aceTypeToCopy.selects) = copiesOfAll options aces := by
  induction aces with
  | nil => rfl
  | cons ace aces ih =>
    cases selected : options.aceTypeToCopy.selects ace with
    | true => rw [filter_cons_of_pos selected, copiesOfAll, copiesOfAll, ih]
    | false =>
      rw [filter_cons_of_neg (by simp [selected]), ih, copiesOfAll, copies,
        if_neg (by simp [selected])]
      cases copiesOfAll options aces <;> rfl

/-- The part of the new ACL if neither is protected. -/
theorem mergeModification_ok (run : mergeModification args buffer = .ok state) :
    state.aclRevision = max aclRevision2
        ((args.modificationAcl.map Acl.aclRevision).getD aclRevision2) ∧
      (state.aclOverflowed = false → ∃ front,
        copiesOfAll args.front args.modificationAces = .ok front ∧
        state.acl.aces = buffer.aces ++ front ∧ state.newAclSize = totalSize front) ∧
      (args.isSacl = false → state.nullAclOk = false) := by
  unfold mergeModification at run
  unfold MergeArguments.modificationAces
  split at run
  next modification given =>
    obtain ⟨isNull, revision, copied⟩ := MergeState.copy_ok run
    rw [given]
    refine ⟨revision, fun fits => ?_, fun dacl => by rw [isNull, dacl]; rfl⟩
    obtain ⟨-, front, copies, aces, size⟩ := copied fits
    exact ⟨front, copies, aces, by rw [size, Nat.zero_add]⟩
  next given =>
    split at run
    · cases run
    · cases run
      rw [given]
      exact ⟨rfl, fun _ => ⟨[], rfl, (append_nil _).symm, rfl⟩, id⟩

/-- What is built if neither ACL is protected. -/
theorem mergeBoth_ok (run : mergeBoth args buffer = .ok state)
    (fits : state.aclOverflowed = false) : ∃ front,
      copiesOfAll args.front args.modificationAces = .ok front ∧
      state.acl.aces = buffer.aces ++ (front ++ args.back) ∧
      state.newAclSize = totalSize (front ++ args.back) ∧
      state.aclRevision = args.revision := by
  obtain ⟨middle, first, run⟩ := bind_eq_ok.mp run
  obtain ⟨revision, modification, -⟩ := mergeModification_ok first
  cases given : args.currentAcl with
  | none =>
    rw [given] at run
    obtain rfl : middle = state := Except.ok.inj run
    obtain ⟨front, copies, aces, size⟩ := modification fits
    have back : args.back = [] := by
      simp [MergeArguments.back, MergeArguments.currentAces, given]
    simp only [back, append_nil]
    refine ⟨front, copies, aces, size, ?_⟩
    rw [revision, MergeArguments.revision, given]
    simp only [Option.map_none, Option.getD_none]
    omega
  | some current =>
    rw [given] at run
    obtain ⟨-, last, copied⟩ := MergeState.copy_ok run
    obtain ⟨before, back, copies, aces, size⟩ := copied fits
    obtain ⟨front, copiesFront, acesFront, sizeFront⟩ := modification before
    rw [copiesOfAll_copyInherited] at copies
    obtain rfl := Except.ok.inj copies
    rw [MergeArguments.back, MergeArguments.currentAces, MergeArguments.revision, given]
    refine ⟨front, copiesFront, ?_, ?_, ?_⟩
    · rw [aces, acesFront, append_assoc]
      rfl
    · rw [size, sizeFront, totalSize_append]
      rfl
    · rw [last, revision]
      rfl

/-! ## When the result is valid -/

/-- Both ACLs are valid, where there are any. -/
structure MergeArguments.Valid (args : MergeArguments) : Prop where
  current : ∀ acl, args.currentAcl = some acl → acl.valid
  modification : ∀ acl, args.modificationAcl = some acl → acl.valid

theorem MergeArguments.Valid.revision (valid : args.Valid) :
    aclRevision2 ≤ args.revision ∧ args.revision ≤ aclRevision4 := by
  have bound : ∀ acl : Option Acl, (∀ a, acl = some a → a.valid) →
      (acl.map Acl.aclRevision).getD aclRevision2 ≤ aclRevision4 := by
    intro acl allValid
    cases acl with
    | none => decide
    | some acl => exact Acl.valid.revision (allValid acl rfl)
  have modification := bound _ valid.modification
  have current := bound _ valid.current
  have small : aclRevision2 ≤ aclRevision4 := by decide
  unfold MergeArguments.revision
  omega

theorem valid_aces {acl : Option Acl} {revision : Nat} (valid : ∀ a, acl = some a → a.valid)
    (least : (acl.map Acl.aclRevision).getD aclRevision2 ≤ revision) :
    EvenPlaces ((acl.map Acl.aces).getD []) ∧
      ∀ ace ∈ (acl.map Acl.aces).getD [], validBody revision ace := by
  cases acl with
  | none => simp [EvenPlaces]
  | some acl =>
    obtain ⟨places, bodies⟩ := Acl.valid.aces (valid acl rfl)
    exact ⟨places, fun ace mem => validBody_mono least (bodies ace mem)⟩

theorem MergeArguments.Valid.modificationAces (valid : args.Valid) :
    EvenPlaces args.modificationAces ∧ ∀ ace ∈ args.modificationAces, validBody args.revision ace :=
  valid_aces valid.modification (by unfold MergeArguments.revision; omega)

theorem MergeArguments.Valid.currentAces (valid : args.Valid) : EvenPlaces args.currentAces ∧
      ∀ ace ∈ args.currentAces, validBody args.revision ace :=
  valid_aces valid.current (by unfold MergeArguments.revision; omega)

theorem MergeArguments.Valid.back (valid : args.Valid) : EvenPlaces args.back ∧ ∀ ace ∈ args.back,
      validBody args.revision ace := by
  obtain ⟨places, bodies⟩ := valid.currentAces
  constructor
  · refine pairwise_map.mpr ((places.filter _).imp fun {ace _} even => ?_)
    rw [aceSize_applyToObject]
    exact even
  · intro ace mem
    obtain ⟨old, memOld, rfl⟩ := mem_map.mp mem
    have body := bodies old (mem_filter.mp memOld).1
    unfold Ace.applyToObject
    split
    · exact body
    · rw [validBody_setMask]
      exact body

/-- The new ACL stays valid: no effective copy of an object or compound ACE is for a SID
without sub-authorities, and no copy of odd size has an inherited ACE behind it. -/
structure StaysValid (args : MergeArguments) : Prop where
  longSids : ∀ old ∈ args.modificationAces, old.inherited = false → old.inheritOnly = false →
    ∀ effective body, effectiveForm args.genericMapping args.creator
      (args.front.generatesInheritAce old) none old.body = .ok effective →
      effective.body = some body → body.sidTooShort = false
  even : (∃ ace ∈ args.currentAces, ace.inherited) →
    ∀ old ∈ args.modificationAces, ∀ part, copies args.front old = .ok part →
      part ≠ [] → old.aceSize % 2 = 0

/-- The effective copy is among the copies, whatever becomes of its flags. -/
theorem mem_withInheritable_of_some {a : Ace} {mapped : Bool} :
    ∃ aceFlags, { a with aceFlags } ∈ withInheritable options old (some a) mapped := by
  unfold withInheritable
  split
  · split
    · exact ⟨_, mem_singleton.mpr rfl⟩
    · split
      · exact ⟨_, mem_append_left _ (mem_singleton.mpr rfl)⟩
      · exact ⟨_, mem_singleton.mpr rfl⟩
  · exact ⟨_, mem_singleton.mpr rfl⟩

theorem front_selects : args.front.aceTypeToCopy.selects old = !old.inherited := rfl

/-- The front is well formed if and only if no SID is too short. -/
theorem validBody_front_iff (valid : args.Valid)
    (copied : copiesOfAll args.front args.modificationAces = .ok front) :
    (∀ ace ∈ front, validBody args.revision ace) ↔
      ∀ old ∈ args.modificationAces, old.inherited = false → old.inheritOnly = false →
        ∀ effective body, effectiveForm args.genericMapping args.creator
          (args.front.generatesInheritAce old) none old.body = .ok effective →
          effective.body = some body → body.sidTooShort = false := by
  obtain ⟨-, bodies⟩ := valid.modificationAces
  constructor
  · intro wellFormed old mem explicit applies effective body form kept
    obtain ⟨part, copiedPart, within⟩ := copies_of_copiesOfAll copied mem
    rcases copies_mapped rfl copiedPart with ⟨-, mapped⟩ | ⟨unselected, -⟩
    · obtain ⟨ace, isMapped, rfl, ⟨only, -⟩ | ⟨-, effective', form', -, rfl⟩⟩ :=
        mappedCopies_ok mapped
      · rw [applies] at only
        cases only
      · obtain rfl := Except.ok.inj (form.symm.trans form')
        rw [kept] at within
        obtain ⟨aceFlags, memCopy⟩ := mem_withInheritable_of_some
          (a := effectiveAce (args.front.retainInheritedAceBit && old.inherited) old body)
        have copyValid := wellFormed _ (within _ memCopy)
        rw [validBody_aceFlags] at copyValid
        exact (validBody_effectiveAce _ (bodies old mem) (effectiveForm_shape form kept)).mp
          copyValid
    · rw [front_selects, explicit] at unselected
      cases unselected
  · intro longSids ace mem
    obtain ⟨old, memOld, part, copiedPart, memPart⟩ := exists_of_mem_copiesOfAll copied mem
    rcases copies_mapped rfl copiedPart with ⟨selected, mapped⟩ | ⟨-, rfl⟩
    · cases copyOf_of_mem mapped memPart with
      | effective applies form kept =>
        rw [validBody_aceFlags]
        refine (validBody_effectiveAce _ (bodies old memOld) (effectiveForm_shape form kept)).mpr ?_
        exact longSids old memOld (by simpa [front_selects] using selected) applies _ _ form kept
      | inheritable => exact bodies old memOld
    · cases memPart

/-- The result is valid if and only if the condition holds. -/
theorem merged_valid_iff (valid : args.Valid)
    (copied : copiesOfAll args.front args.modificationAces = .ok front) :
    (Acl.mk args.revision (totalSize (front ++ args.back) + sizeofAcl)
      (front ++ args.back)).valid ↔ StaysValid args := by
  obtain ⟨least, most⟩ := valid.revision
  obtain ⟨placesBack, bodiesBack⟩ := valid.back
  obtain ⟨placesOld, bodiesOld⟩ := valid.modificationAces
  have placesFront := evenPlaces_copiesOfAll rfl copied placesOld bodiesOld
  rw [valid_iff least most]
  constructor
  · rintro ⟨places, bodies⟩
    have across := (pairwise_append.mp places).2.2
    refine ⟨(validBody_front_iff valid copied).mp fun ace mem =>
      bodies ace (mem_append_left _ mem), ?_⟩
    rintro ⟨ace, memAce, inherited⟩ old memOld part copiedPart nonempty
    obtain ⟨copy, memCopy⟩ := exists_mem_of_ne_nil part nonempty
    obtain ⟨part', copiedPart', within⟩ := copies_of_copiesOfAll copied memOld
    obtain rfl := Except.ok.inj (copiedPart.symm.trans copiedPart')
    rw [← copies_parity rfl copiedPart (bodiesOld old memOld) memCopy]
    exact across copy (within copy memCopy) _
      (mem_map.mpr ⟨ace, mem_filter.mpr ⟨memAce, inherited⟩, rfl⟩)
  · intro stays
    refine ⟨pairwise_append.mpr ⟨placesFront, placesBack, fun copy mem next memNext => ?_⟩,
      fun ace mem => ?_⟩
    · obtain ⟨ace, memAce, -⟩ := mem_map.mp memNext
      obtain ⟨memCurrent, inherited⟩ := mem_filter.mp memAce
      obtain ⟨old, memOld, part, copiedPart, memPart⟩ := exists_of_mem_copiesOfAll copied mem
      rw [copies_parity rfl copiedPart (bodiesOld old memOld) memPart]
      exact stays.even ⟨ace, memCurrent, inherited⟩ old memOld part copiedPart
        (ne_nil_of_mem memPart)
    · rcases mem_append.mp mem with mem | mem
      · exact (validBody_front_iff valid copied).mpr stays.longSids ace mem
      · exact bodiesBack ace mem

/-! ## Setting an ACL -/

/-- The copies come to 65527 bytes, which with the header is more than `RtlCreateAcl` takes.
Where a copy has no room in the first 1024 bytes, what follows its SID is counted too. -/
def MergeAsksTooMuch (args : MergeArguments) : Prop :=
  ∃ state, mergeAces args ⟨aclRevision2, 1024, []⟩ = .ok state ∧ state.aclOverflowed ∧
    state.newAclSize = 65527

theorem computeMergedAcl2_ok (run : computeMergedAcl2 args buffer = .ok result) :
    ∃ state, mergeAces args buffer = .ok state ∧ ((result.acl = none ∧ state.nullAclOk ∧ state.newAclSize = 0) ∨
        (result.acl = some ⟨state.aclRevision, state.newAclSize + sizeofAcl, state.acl.aces⟩ ∧
          state.aclOverflowed = false)) := by
  obtain ⟨state, merged, run⟩ := bind_eq_ok.mp run
  refine ⟨state, merged, ?_⟩
  dsimp only at run
  split at run
  · next nothing =>
    cases run
    exact .inl ⟨rfl, nothing.2, nothing.1⟩
  · split at run
    · cases run
    · split at run
      · cases run
      · next fits =>
        cases run
        exact .inr ⟨rfl, by simpa using fits⟩

/-- A pass that asks for more room has overflowed, and asks for what an ACL can have. -/
theorem computeMergedAcl2_bufferTooSmall {required : Nat}
    (run : computeMergedAcl2 args buffer = .error (.bufferTooSmall required)) :
    required ≤ 0xFFFF ∧ ∃ state, mergeAces args buffer = .ok state ∧ state.aclOverflowed ∧
      required = state.newAclSize + sizeofAcl := by
  unfold computeMergedAcl2 at run
  cases merged : mergeAces args buffer with
  | error =>
    simp only [merged, bind, Except.bind, Except.error.injEq] at run
    exact absurd (merged.trans (congrArg Except.error run))
      (neverResizes_mergeAces args buffer required)
  | ok state =>
    simp only [merged, bind, Except.bind] at run
    split at run
    · cases run
    · split at run
      · cases run
      · next small =>
        split at run
        · next overflowed =>
          cases run
          exact ⟨by omega, state, rfl, overflowed, rfl⟩
        · cases run

/-- The pass that succeeds starts from an empty ACL, unless the first has asked too much. -/
theorem computeMergedAcl_ok (run : computeMergedAcl args allocate stale = .ok result) :
    ∃ buffer, computeMergedAcl2 args buffer = .ok result ∧ ∀ P : List Ace → Prop, P [] →
        (P buffer.aces ↔ (MergeAsksTooMuch args → P stale.aces)) := by
  have blank {buffer : Acl} (empty : buffer.aces = []) (within : ¬ MergeAsksTooMuch args)
      (P : List Ace → Prop) (nil : P []) :
      P buffer.aces ↔ (MergeAsksTooMuch args → P stale.aces) :=
    iff_of_true (empty ▸ nil) fun asks => absurd asks within
  rcases twoPasses_ok run with first | ⟨required, asked, second⟩
  · refine ⟨_, first, blank (aces_createAcl (by decide) (by decide)) ?_⟩
    rintro ⟨state, merged, overflowed, size⟩
    obtain ⟨state', merged', outcome⟩ := computeMergedAcl2_ok first
    cases merged.symm.trans merged'
    rcases outcome with ⟨-, -, empty⟩ | ⟨-, fits⟩
    · omega
    · cases fits.symm.trans overflowed
  · obtain ⟨most, state, merged, overflowed, rfl⟩ := computeMergedAcl2_bufferTooSmall asked
    by_cases largest : state.newAclSize = 65527
    · have same : createAcl stale (state.newAclSize + sizeofAcl) = stale :=
        if_pos (.inr (by rw [largest]; decide))
      rw [same] at second
      exact ⟨_, second, fun P _ => ⟨fun holds _ => holds, fun holds =>
        holds ⟨state, merged, overflowed, largest⟩⟩⟩
    · refine ⟨_, second, blank (aces_createAcl (Nat.le_add_left ..) ?_) ?_⟩
      · simp only [maxUstring, sizeofAcl] at most ⊢
        omega
      · rintro ⟨state', merged', -, size⟩
        cases merged.symm.trans merged'
        exact largest size

/-- Setting an ACL has not edited inherited ACEs: the result is valid, and made of copies of ACEs
of the new ACL that are not inherited, followed by the inherited ACEs of the present ACL. -/
structure KeepsInherited (args : MergeArguments) (new : Acl) : Prop where
  valid : new.valid
  split : ∃ front, copiesOfAll args.front
      (args.modificationAces.filter fun ace => !ace.inherited) = .ok front ∧
    (∀ ace ∈ front, ace.inherited = false) ∧ new.aces = front ++ args.back

theorem front_not_inherited (copied : copiesOfAll args.front args.modificationAces = .ok front) :
    ∀ ace ∈ front, ace.inherited = false := by
  intro ace mem
  obtain ⟨old, -, part, copiedPart, memPart⟩ := exists_of_mem_copiesOfAll copied mem
  rcases copies_mapped rfl copiedPart with ⟨selected, mapped⟩ | ⟨-, rfl⟩
  · exact not_inherited_of_mem mapped ⟨rfl, .inl (by simpa [front_selects] using selected)⟩
      memPart
  · cases memPart

theorem keepsInherited_iff (valid : args.Valid) {new : Acl}
    (modificationFree : flagOn args.modificationGenericControl sepAclProtected = false)
    (currentFree : flagOn args.currentGenericControl sepAclProtected = false)
    (run : computeMergedAcl args allocate stale = .ok result) (given : result.acl = some new) :
    KeepsInherited args new ↔ (MergeAsksTooMuch args → stale.aces = []) ∧ StaysValid args := by
  obtain ⟨buffer, pass, start⟩ := computeMergedAcl_ok run
  obtain ⟨state, merged, ⟨isNull, -⟩ | ⟨built, fits⟩⟩ := computeMergedAcl2_ok pass
  · rw [given] at isNull
    cases isNull
  obtain rfl := Option.some.inj (given.symm.trans built)
  rw [mergeAces, modificationFree, currentFree] at merged
  obtain ⟨front, copied, aces, size, revision⟩ := mergeBoth_ok merged fits
  have selected : copiesOfAll args.front
      (args.modificationAces.filter fun ace => !ace.inherited) = .ok front :=
    (copiesOfAll_filter args.front args.modificationAces).trans copied
  rw [← start (· = []) rfl]
  by_cases empty : buffer.aces = []
  · rw [empty, nil_append] at aces
    have validity := merged_valid_iff valid copied
    rw [aces, size, revision]
    constructor
    · exact fun keeps => ⟨empty, validity.mp keeps.valid⟩
    · exact fun condition =>
        ⟨validity.mpr condition.2, front, selected, front_not_inherited copied, rfl⟩
  · refine iff_of_false (fun keeps => empty ?_) fun condition => empty condition.1
    obtain ⟨front', selected', -, whole⟩ := keeps.split
    obtain rfl := Except.ok.inj (selected.symm.trans selected')
    exact self_eq_append_left.mp (whole.symm.trans aces)

theorem mergeProtected_ok (run : mergeProtected args buffer = .ok state)
    (fits : state.aclOverflowed = false) :
    ∃ new, state.acl.aces = buffer.aces ++ new ∧ ∀ ace ∈ new, ace.inherited = false := by
  unfold mergeProtected at run
  split at run
  · obtain ⟨-, -, copied⟩ := MergeState.copy_ok run
    obtain ⟨-, new, copies, aces, -⟩ := copied fits
    refine ⟨new, aces, fun ace mem => ?_⟩
    obtain ⟨old, -, part, copiedPart, memPart⟩ := exists_of_mem_copiesOfAll copies mem
    rcases copies_mapped rfl copiedPart with ⟨-, mapped⟩ | ⟨-, rfl⟩
    · exact not_inherited_of_mem mapped
        ⟨rfl, .inr (show ~~~inheritedAce &&& inheritedAce = 0 by decide)⟩ memPart
    · cases memPart
  · cases run
    exact ⟨[], by simp, by simp⟩

theorem protected_not_inherited_iff
    (isProtected : flagOn args.modificationGenericControl sepAclProtected)
    (run : computeMergedAcl args allocate stale = .ok result) :
    (∀ new, result.acl = some new → ∀ ace ∈ new.aces, ace.inherited = false) ↔
      (MergeAsksTooMuch args → ∀ ace ∈ stale.aces, ace.inherited = false) := by
  obtain ⟨buffer, pass, start⟩ := computeMergedAcl_ok run
  obtain ⟨state, merged, outcome⟩ := computeMergedAcl2_ok pass
  rw [mergeAces, if_pos isProtected] at merged
  rcases outcome with ⟨isNull, nullAclOk, -⟩ | ⟨built, fits⟩
  · -- The `NULL` ACL: there is no new ACL, so the first pass cannot have overflowed.
    refine iff_of_true (fun new given => ?_) fun asks => ?_
    · rw [isNull] at given
      cases given
    · obtain ⟨first, mergedFirst, overflowed, -⟩ := asks
      rw [mergeAces, if_pos isProtected] at mergedFirst
      unfold mergeProtected at merged mergedFirst
      split at merged
      · rw [(MergeState.copy_ok merged).1] at nullAclOk
        cases nullAclOk
      next given =>
        rw [given] at mergedFirst
        cases mergedFirst
        cases overflowed
  · obtain ⟨copies, aces, clean⟩ := mergeProtected_ok merged fits
    have all : (∀ new, result.acl = some new → ∀ ace ∈ new.aces, ace.inherited = false) ↔
        ∀ ace ∈ buffer.aces, ace.inherited = false := by
      constructor
      · intro every ace mem
        exact every _ built ace (by rw [aces]; exact mem_append_left _ mem)
      · intro every new given ace mem
        obtain rfl := Option.some.inj (built.symm.trans given)
        rw [aces] at mem
        exact (mem_append.mp mem).elim (every ace) (clean ace)
    rw [all]
    exact start (∀ ace ∈ ·, ace.inherited = false) (by simp)

/-- A DACL is `NULL` only if the new ACL is, and is protected. -/
theorem null_dacl (dacl : args.isSacl = false)
    (run : computeMergedAcl args allocate stale = .ok result) (isNull : result.acl = none) :
    args.modificationAcl = none ∧ flagOn args.modificationGenericControl sepAclProtected := by
  obtain ⟨buffer, pass, -⟩ := computeMergedAcl_ok run
  obtain ⟨state, merged, ⟨-, nullAclOk, -⟩ | ⟨built, -⟩⟩ := computeMergedAcl2_ok pass
  swap
  · rw [isNull] at built
    cases built
  unfold mergeAces at merged
  split at merged
  · next isProtected =>
    unfold mergeProtected at merged
    split at merged
    · rw [(MergeState.copy_ok merged).1] at nullAclOk
      cases nullAclOk
    next given => exact ⟨given, isProtected⟩
  · split at merged
    · unfold mergeUnprotect at merged
      split at merged
      · rw [(MergeState.copy_ok merged).1] at nullAclOk
        cases nullAclOk
      · simp [dacl, throw, throwThe, MonadExceptOf.throw] at merged
    · obtain ⟨middle, first, merged⟩ := bind_eq_ok.mp merged
      have strict := (mergeModification_ok first).2.2 dacl
      split at merged
      · rw [(MergeState.copy_ok merged).1, strict] at nullAclOk
        cases nullAclOk
      · cases merged
        rw [strict] at nullAclOk
        cases nullAclOk

/-- **Setting an ACL cannot edit inherited ACEs.  The order and the origin of the ACEs are as
they should be unless the second pass starts from what the pool block held, and the result is
valid if and only if the copies stay valid; a protected ACL has no inherited ACE; and a DACL
is `NULL` only if the new one is and is protected.** -/
theorem computeMergedAcl_keepsInherited (valid : args.Valid) {result : MergedAcl}
    (run : computeMergedAcl args allocate stale = .ok result) :
    (flagOn args.modificationGenericControl sepAclProtected = false →
      flagOn args.currentGenericControl sepAclProtected = false →
      ∀ new, result.acl = some new → (KeepsInherited args new ↔
        (MergeAsksTooMuch args → stale.aces = []) ∧ StaysValid args)) ∧
    (flagOn args.modificationGenericControl sepAclProtected →
      ((∀ new, result.acl = some new → ∀ ace ∈ new.aces, ace.inherited = false) ↔
        (MergeAsksTooMuch args → ∀ ace ∈ stale.aces, ace.inherited = false))) ∧
    (args.isSacl = false → result.acl = none → args.modificationAcl = none ∧
      flagOn args.modificationGenericControl sepAclProtected) :=
  ⟨fun modificationFree currentFree _ given =>
      keepsInherited_iff valid modificationFree currentFree run given,
    fun isProtected => protected_not_inherited_iff isProtected run,
    fun dacl isNull => null_dacl dacl run isNull⟩

/-- The arguments of a caller that sets a DACL, neither protected. -/
def setDacl (currentAcl modificationAcl : Acl) : MergeArguments where
  currentAcl := some currentAcl
  currentGenericControl := 0
  modificationAcl := some modificationAcl
  modificationGenericControl := 0
  clientOwnerSid := .ofRid 5 18
  clientGroupSid := none
  genericMapping := ⟨1, 2, 4, 7⟩
  isSacl := false

/-- One ACE is set, and the inherited one stays behind it. -/
theorem computeMergedAcl_keepsInherited_readers :
    KeepsInherited (setDacl ⟨2, 28, [readersAce inheritedAce]⟩ ⟨2, 28, [readersAce 0]⟩)
      ⟨2, 48, [readersAce 0, readersAce inheritedAce]⟩ := by
  have valid : (setDacl ⟨2, 28, [readersAce inheritedAce]⟩ ⟨2, 28, [readersAce 0]⟩).Valid := by
    constructor <;> (rintro acl given; cases given; decide)
  have run : computeMergedAcl
      (setDacl ⟨2, 28, [readersAce inheritedAce]⟩ ⟨2, 28, [readersAce 0]⟩) (true, true)
      ⟨2, 8, []⟩ =
      .ok ⟨some ⟨2, 48, [readersAce 0, readersAce inheritedAce]⟩, sepAclAutoInherited⟩ := by decide
  refine ((computeMergedAcl_keepsInherited valid run).1 (by decide) (by decide) _ rfl).mpr
    ⟨fun _ => rfl, fun old mem explicit applies effective body form kept => ?_,
      fun _ old mem part copied nonempty => ?_⟩
  · obtain rfl := mem_singleton.mp mem
    have shape := effectiveForm_shape form kept
    cases body <;> first | rfl | exact shape.elim
  · obtain rfl := mem_singleton.mp mem
    decide

/-- An object ACE for a SID without sub-authorities, with four bytes behind the SID. -/
def shortSidAce : Ace :=
  ⟨0, .object .accessAllowed 1 0 none none ⟨1, [], by decide⟩, [0, 0, 0, 0]⟩

/-- **A valid ACL is set on an object without inherited ACEs, and the ACL the object gets is not
valid: the effective copy has lost the four bytes.** -/
theorem computeMergedAcl_invalid : (Acl.mk 2 8 []).valid ∧ (Acl.mk 4 32 [shortSidAce]).valid ∧
    computeMergedAcl (setDacl ⟨2, 8, []⟩ ⟨4, 32, [shortSidAce]⟩) (true, true) ⟨2, 8, []⟩ =
      .ok ⟨some ⟨4, 28, [{ shortSidAce with rest := [] }]⟩, sepAclAutoInherited⟩ ∧
    (Acl.mk 4 28 [{ shortSidAce with rest := [] }]).valid = false := by
  decide

end Ntoskrnl.Rtl.Security
