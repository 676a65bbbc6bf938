/-
# Ntoskrnl.Rtl.Security.CopyAces -- copying the entries of an ACL

`RtlpCopyEffectiveAce` writes one ACE as it applies to an object: the creator SIDs
replaced, the mask mapped, the inheritance flags cleared.  `RtlpCopyAces` writes the
selected ACEs of an ACL behind those of another, and may turn one ACE into none,
one, or an effective and an inheritable one.

Both go on when the room runs out, to find out how much would have been needed; what
they have written then is thrown away.  `copies` is what one ACE becomes when there
is room, and `copyAces_ok` says that a copy that did not overflow is made of these.
-/
import Ntoskrnl.Rtl.Security.Acl

namespace Ntoskrnl.Rtl.Security

open Lib.Checked

set_option autoImplicit false

/-! ## The effective form of an entry -/

/-- How the routines that build ACLs fail. -/
inductive Failure where
  | unknownRevision
  | badInheritanceAcl
  | bufferTooSmall (required : Nat)
  | noInheritance
  | invalidAcl
  | noMemory
  /-- A `NULL` SID is followed. -/
  | accessViolation
deriving DecidableEq, Repr

/-- The SIDs that take the place of the creator SIDs. -/
structure Creator where
  clientOwnerSid : Sid
  clientGroupSid : Option Sid
  serverOwnerSid : Option Sid
  serverGroupSid : Option Sid
deriving DecidableEq, Repr

/-- What takes the place of a SID, if it is one of the creator SIDs.  There may be no group; then
`CREATOR_GROUP` stays, but `CREATOR_GROUP_SERVER` is not looked after. -/
def mapCreatorSid (creator : Creator) (sid : Sid) : Except Failure (Option Sid) :=
  if equalPrefixSid sid (creatorSid securityCreatorOwnerRid) then
    let rid := sid.subAuthorities.headD 0
    if rid = securityCreatorOwnerRid then pure (some creator.clientOwnerSid)
    else if rid = securityCreatorGroupRid then pure creator.clientGroupSid
    else if rid = securityCreatorOwnerServerRid then
      pure (some (creator.serverOwnerSid.getD creator.clientOwnerSid))
    else if rid = securityCreatorGroupServerRid then
      match creator.serverGroupSid.or creator.clientGroupSid with
      | some group => pure (some group)
      | none => throw .accessViolation
    else pure none
  else pure none

namespace AceBody

def serverSid? : AceBody → Option Sid
  | .compound _ _ _ serverSid _ => some serverSid
  | _ => none

def sid? : AceBody → Option Sid
  | .known _ _ sid => some sid
  | .compound _ _ _ _ clientSid => some clientSid
  | .object _ _ _ _ _ sid => some sid
  | .unknown _ _ => none

def inheritedObjectType? : AceBody → Option Guid
  | .object _ _ _ _ inheritedObjectType _ => inheritedObjectType
  | _ => none

/-- The ACE with other SIDs, where there are any. -/
def replaceSids (server client : Option Sid) : AceBody → AceBody
  | .known kind mask sid => .known kind mask (client.getD sid)
  | .compound mask compoundAceType reserved serverSid clientSid =>
    .compound mask compoundAceType reserved (server.getD serverSid) (client.getD clientSid)
  | .object kind mask otherFlags objectType inheritedObjectType sid =>
    .object kind mask otherFlags objectType inheritedObjectType (client.getD sid)
  | .unknown aceType beyond => .unknown aceType beyond

/-- Without the inherited object type; with no GUID left it is an ACE of the base type. -/
def dropInheritedObjectType : AceBody → AceBody
  | .object kind mask otherFlags (some objectType) _ sid =>
    .object kind mask otherFlags (some objectType) none sid
  | .object kind mask _ none _ sid => .known kind mask sid
  | body => body

end AceBody

/-- The effective form of an ACE. -/
structure Effective where
  /-- Nothing, if the ACE is dropped. -/
  body : Option AceBody
  effectiveAceMapped : Bool
  objectAceInherited : Bool
deriving DecidableEq, Repr

/-- What `RtlpCopyEffectiveAce` makes of an ACE.  `newObjectType` is `none` if the caller does not
ask for `ObjectAceInherited`; no list of types is the same as an empty one. -/
def effectiveForm (mapping : GenericMapping) (creator : Creator) (willGenerateInheritAce : Bool)
    (newObjectType : Option (List Guid)) (old : AceBody) : Except Failure Effective := do
  if ¬ old.isMs then pure ⟨some old, false, false⟩ else do
  let server ← old.serverSid?.elim (pure none) (mapCreatorSid creator)
  let matched := newObjectType.bind fun types =>
    old.inheritedObjectType?.map fun guid => types.contains guid
  -- An ACE for objects of another type is not inherited.
  if matched = some false then pure ⟨none, server.isSome, false⟩ else do
  let objectAceInherited := decide (matched = some true)
  let localMask := applyGenericMask mapping old
  let mapped := server.isSome || (objectAceInherited && !willGenerateInheritAce) ||
    localMask != old.mask
  let localMask := localMask &&& (standardRightsAll ||| specificRightsAll ||| accessSystemSecurity)
  if localMask = 0 then pure ⟨none, mapped, objectAceInherited⟩ else do
  let client ← old.sid?.elim (pure none) (mapCreatorSid creator)
  let mapped := mapped || client.isSome
  -- The inherited object type stays only if the caller can merge the two ACEs.
  let body := old.replaceSids server client
  let body := if objectAceInherited && (!willGenerateInheritAce || mapped) then
    body.dropInheritedObjectType else body
  pure ⟨some (body.setMask localMask), mapped, objectAceInherited⟩

/-- The effective ACE, marked as inherited or not.  The bytes behind the SID are left behind. -/
def effectiveAce (autoInherit : Bool) (old : Ace) (body : AceBody) : Ace where
  aceFlags := (old.aceFlags &&& ~~~validInheritFlags) ||| (if autoInherit then inheritedAce else 0)
  body := body
  rest := if old.body.isMs then [] else old.rest

structure CopiedEffective where
  newAceLength : Nat
  /-- The ACE that was written. -/
  ace : Option Ace
  effectiveAceMapped : Bool
  objectAceInherited : Bool
  aclOverflowed : Bool
deriving DecidableEq, Repr

/-- `RtlpCopyEffectiveAce`, into an ACL with so much room.  Each replacement changes
`LengthRequired` as it changes the size of the ACE. -/
def copyEffectiveAce (mapping : GenericMapping) (creator : Creator) (autoInherit
    willGenerateInheritAce : Bool) (newObjectType : Option (List Guid)) (room : Nat) (old : Ace) :
    Except Failure CopiedEffective := do
  let effective ← effectiveForm mapping creator willGenerateInheritAce newObjectType old.body
  match effective.body with
  | none =>
    pure ⟨0, none, effective.effectiveAceMapped, effective.objectAceInherited, false⟩
  | some body =>
    let lengthRequired := body.size + old.rest.length
    if room < lengthRequired then
      if 0xFFFF < lengthRequired then throw .badInheritanceAcl else
      pure ⟨lengthRequired, none, effective.effectiveAceMapped, effective.objectAceInherited, true⟩
    else
      let ace := effectiveAce autoInherit old body
      if 0xFFFF < ace.aceSize then throw .badInheritanceAcl else
      pure ⟨ace.aceSize, some ace, effective.effectiveAceMapped,
        effective.objectAceInherited, false⟩

/-! ## Copying a list -/

inductive AceTypeToCopy where
  | copyInheritedAces
  | copyNonInheritedAces
  | copyAllAces
deriving DecidableEq, Repr

def AceTypeToCopy.selects : AceTypeToCopy → Ace → Bool
  | .copyInheritedAces, ace => ace.inherited
  | .copyNonInheritedAces, ace => !ace.inherited
  | .copyAllAces, _ => true

structure CopyOptions where
  genericMapping : GenericMapping
  aceTypeToCopy : AceTypeToCopy
  aceFlagsToReset : AceFlags
  /-- `MapSids`, with the SIDs to map to. -/
  mapSids : Option Creator
  isDirectoryObject : Bool
  retainInheritedAceBit : Bool
deriving DecidableEq, Repr

def CopyOptions.reset (options : CopyOptions) (ace : Ace) : Ace :=
  { ace with aceFlags := ace.aceFlags &&& ~~~options.aceFlagsToReset }

/-- The state of the loop of `RtlpCopyAces`. -/
structure CopyState where
  aces : List Ace
  /-- The room behind `AcePosition`. -/
  room : Nat
  newAclSize : Nat
  aclOverflowed : Bool
deriving DecidableEq, Repr

/-- The end of a turn: the position moves, to the end of the ACL after an overflow. -/
def CopyState.advance (state : CopyState) (written : List Ace) (newAceSize : Nat)
    (aclOverflowed : Bool) : CopyState where
  aces := state.aces ++ written
  room := if aclOverflowed then 0 else state.room - newAceSize
  newAclSize := state.newAclSize + newAceSize
  aclOverflowed := aclOverflowed

/-- `GenerateInheritAce` of `RtlpCopyAces`. -/
def CopyOptions.generatesInheritAce (options : CopyOptions) (old : Ace) : Bool :=
  options.isDirectoryObject && flagOn old.aceFlags (objectInheritAce ||| containerInheritAce)

/-- The turn of the loop if SIDs are mapped, once the effective ACE is dealt with. -/
def copyInheritable (options : CopyOptions) (state : CopyState) (old : Ace)
    (effective : CopiedEffective) : Except Failure CopyState :=
  let aclOverflowed := state.aclOverflowed || effective.aclOverflowed
  let written := if aclOverflowed then effective.ace else effective.ace.map options.reset
  let tempRoom := if effective.aclOverflowed then state.room
    else state.room - effective.newAceLength
  if options.generatesInheritAce old then
    if effective.newAceLength ≠ 0 ∧ ¬ effective.effectiveAceMapped then
      let merged := if aclOverflowed then written else written.map fun ace =>
        options.reset { ace with
          aceFlags := ace.aceFlags ||| (old.aceFlags &&& validInheritFlags) }
      pure (state.advance merged.toList effective.newAceLength aclOverflowed)
    else if ¬ old.body.isMs ∨ old.body.mask ≠ 0 then
      let newAceSize := effective.newAceLength + old.aceSize
      if 0xFFFF < newAceSize then throw .badInheritanceAcl
      else if tempRoom < old.aceSize then pure (state.advance written.toList newAceSize true)
      else if aclOverflowed then pure (state.advance written.toList newAceSize true)
      else
        let inheritable := options.reset { old with aceFlags := old.aceFlags ||| inheritOnlyAce }
        pure (state.advance (written.toList ++ [inheritable]) newAceSize false)
    else pure (state.advance written.toList effective.newAceLength aclOverflowed)
  else pure (state.advance written.toList effective.newAceLength aclOverflowed)

/-- The turn of the loop if SIDs are mapped. -/
def copyMapped (options : CopyOptions) (creator : Creator) (state : CopyState) (old : Ace) :
    Except Failure CopyState := do
  let effective ← if old.inheritOnly then pure ⟨0, none, false, false, false⟩ else
    copyEffectiveAce options.genericMapping creator
      (options.retainInheritedAceBit && old.inherited) (options.generatesInheritAce old) none
      state.room old
  copyInheritable options state old effective

/-- The turn of the loop if SIDs are not mapped. -/
def copyPlain (options : CopyOptions) (state : CopyState) (old : Ace) : CopyState :=
  if state.room < old.aceSize then state.advance [] old.aceSize true
  else if state.aclOverflowed then state.advance [] old.aceSize true
  else
    let ace := if old.body.isMs then old.applyToObject options.genericMapping else old
    state.advance [options.reset ace] old.aceSize false

/-- One turn of the loop of `RtlpCopyAces`. -/
def copyAce (options : CopyOptions) (state : CopyState) (old : Ace) : Except Failure CopyState :=
  if options.aceTypeToCopy.selects old then
    match options.mapSids with
    | some creator => copyMapped options creator state old
    | none => pure (copyPlain options state old)
  else pure state

/-- `RtlpCopyAces`: the ACL copied to, with the cumulative length and whether it overflowed. -/
def copyAces (options : CopyOptions) (aces : List Ace) (newAcl : Acl) :
    Except Failure (Acl × Nat × Bool) := do
  if ¬ newAcl.validRevision then throw .unknownRevision else do
  if ¬ newAcl.firstFreeAce then throw .badInheritanceAcl else do
  let state ← aces.foldlM (copyAce options) ⟨newAcl.aces, newAcl.room, 0, false⟩
  if 0xFFFF < state.newAclSize then throw .badInheritanceAcl else
  pure ({ newAcl with aces := state.aces }, state.newAclSize, state.aclOverflowed)

/-! ## What an entry becomes -/

/-- The copies of an ACE, from its effective copy. -/
def withInheritable (options : CopyOptions) (old : Ace) (ace : Option Ace)
    (effectiveAceMapped : Bool) : List Ace :=
  if options.generatesInheritAce old then
    if ace.isSome ∧ ¬ effectiveAceMapped then
      (ace.map fun ace => options.reset { options.reset ace with
        aceFlags := (options.reset ace).aceFlags ||| (old.aceFlags &&& validInheritFlags) }).toList
    else if ¬ old.body.isMs ∨ old.body.mask ≠ 0 then
      (ace.map options.reset).toList ++
        [options.reset { old with aceFlags := old.aceFlags ||| inheritOnlyAce }]
    else (ace.map options.reset).toList
  else (ace.map options.reset).toList

/-- What the mapped copy of an ACE is when there is room. -/
def mappedCopies (options : CopyOptions) (creator : Creator) (old : Ace) :
    Except Failure (List Ace) := do
  let effective ← if old.inheritOnly then pure ⟨none, false, false⟩ else
    effectiveForm options.genericMapping creator (options.generatesInheritAce old) none old.body
  pure (withInheritable options old (effective.body.map
    (effectiveAce (options.retainInheritedAceBit && old.inherited) old))
    effective.effectiveAceMapped)

def plainCopy (options : CopyOptions) (old : Ace) : Ace :=
  options.reset (if old.body.isMs then old.applyToObject options.genericMapping else old)

/-- What an ACE becomes: nothing if it is not selected. -/
def copies (options : CopyOptions) (old : Ace) : Except Failure (List Ace) :=
  if options.aceTypeToCopy.selects old then
    match options.mapSids with
    | some creator => mappedCopies options creator old
    | none => pure [plainCopy options old]
  else pure []

def copiesOfAll (options : CopyOptions) : List Ace → Except Failure (List Ace)
  | [] => pure []
  | old :: aces => do
      let first ← copies options old
      let others ← copiesOfAll options aces
      pure (first ++ others)

theorem size_pos (body : AceBody) : 4 ≤ body.size := by
  cases body <;> simp only [AceBody.size, sizeofAceHeader] <;> omega

theorem aceSize_pos (ace : Ace) : 4 ≤ ace.aceSize :=
  Nat.le_trans (size_pos ace.body) (Nat.le_add_right _ _)

@[simp] theorem aceSize_reset (options : CopyOptions) (ace : Ace) :
    (options.reset ace).aceSize = ace.aceSize := rfl

theorem size_setMask (mask : AccessMask) (body : AceBody) : (body.setMask mask).size = body.size := by
  cases body <;> rfl

theorem aceSize_applyToObject (mapping : GenericMapping) (ace : Ace) :
    (ace.applyToObject mapping).aceSize = ace.aceSize := by
  unfold Ace.applyToObject
  split
  · rfl
  · simp [Ace.aceSize, size_setMask]

theorem aceSize_plainCopy (options : CopyOptions) (old : Ace) :
    (plainCopy options old).aceSize = old.aceSize := by
  unfold plainCopy
  split
  · exact aceSize_applyToObject _ _
  · rfl

/-- A turn that does not overflow writes the copies of the ACE and accounts for them. -/
structure Wrote (state state' : CopyState) (new : List Ace) : Prop where
  aces : state'.aces = state.aces ++ new
  size : state'.newAclSize = state.newAclSize + totalSize new
  room : state'.room + totalSize new = state.room
  before : state.aclOverflowed = false

variable {state state' : CopyState} {old : Ace} {options : CopyOptions} {creator : Creator}
  {size : Nat} {α : Type}

theorem Wrote.advance {new : List Ace} (fits : totalSize new ≤ state.room)
    (exact : size = totalSize new) (before : state.aclOverflowed = false) :
    Wrote state (state.advance new size false) new := by
  refine ⟨rfl, ?_, ?_, before⟩
  · simp [CopyState.advance, exact]
  · simp only [CopyState.advance, Bool.false_eq_true, if_false, exact]
    omega

theorem copyEffectiveAce_ok {mapping : GenericMapping} {autoInherit will : Bool}
    {types : Option (List Guid)} {room : Nat} {copied : CopiedEffective}
    (run : copyEffectiveAce mapping creator autoInherit will types room old = .ok copied)
    (fits : copied.aclOverflowed = false) :
    ∃ effective, effectiveForm mapping creator will types old.body = .ok effective ∧
      copied.ace = effective.body.map (effectiveAce autoInherit old) ∧
      copied.effectiveAceMapped = effective.effectiveAceMapped ∧
      copied.newAceLength = totalSize copied.ace.toList ∧ copied.newAceLength ≤ room := by
  obtain ⟨⟨body, mapped, inherited⟩, form, run⟩ := bind_eq_ok.mp run
  refine ⟨_, form, ?_⟩
  cases body with
  | none =>
    obtain rfl : _ = copied := Except.ok.inj run
    exact ⟨rfl, rfl, rfl, Nat.zero_le _⟩
  | some body =>
    dsimp only at run
    split at run
    · split at run
      · cases run
      · obtain rfl : _ = copied := Except.ok.inj run
        cases fits
    · next enough =>
      split at run
      · cases run
      · obtain rfl : _ = copied := Except.ok.inj run
        have smaller : (effectiveAce autoInherit old body).aceSize ≤
            body.size + old.rest.length := by
          simp only [Ace.aceSize, effectiveAce]
          split <;> simp
        exact ⟨rfl, rfl, by simp, by simp only; omega⟩

theorem copyInheritable_ok {effective : CopiedEffective}
    (run : copyInheritable options state old effective = .ok state')
    (fits : state'.aclOverflowed = false) (length : effective.aclOverflowed = false →
      effective.newAceLength = totalSize effective.ace.toList ∧
        effective.newAceLength ≤ state.room) :
    effective.aclOverflowed = false ∧ Wrote state state'
      (withInheritable options old effective.ace effective.effectiveAceMapped) := by
  -- an overflow that is there already is kept by every branch
  have none : ¬ (state.aclOverflowed || effective.aclOverflowed) := by
    intro overflowed
    simp only [copyInheritable, overflowed, if_true, ite_self] at run
    split at run
    · split at run
      · cases run; cases fits
      · split at run
        · split at run
          · cases run
          · cases run; cases fits
        · cases run; cases fits
    · cases run; cases fits
  simp only [Bool.or_eq_true, not_or, Bool.not_eq_true] at none
  obtain ⟨before, here⟩ := none
  obtain ⟨exact, small⟩ := length here
  refine ⟨here, ?_⟩
  have present : effective.newAceLength ≠ 0 ↔ effective.ace.isSome := by
    rw [exact]
    cases effective.ace with
    | none => simp
    | some ace =>
      have := aceSize_pos ace
      simp only [Option.toList_some, totalSize_cons, totalSize_nil, Option.isSome_some, iff_true]
      omega
  have resized : ∀ change : Ace → Ace, (∀ ace, (change ace).aceSize = ace.aceSize) →
      effective.newAceLength = totalSize (effective.ace.map change).toList := by
    intro change same
    rw [exact]
    cases effective.ace with
    | none => rfl
    | some => simp [same]
  have plain := resized options.reset (aceSize_reset options)
  simp only [copyInheritable, before, here, Bool.or_self, Bool.false_eq_true, if_false,
    present] at run
  unfold withInheritable
  split at run
  · next generates =>
    rw [if_pos generates]
    split at run
    · next merges =>
      rw [if_pos merges]
      have merged := resized (fun ace => options.reset { options.reset ace with
        aceFlags := (options.reset ace).aceFlags ||| (old.aceFlags &&& validInheritFlags) })
        fun ace => rfl
      cases run
      rw [Option.map_map]
      exact .advance (merged ▸ small) merged before
    · next merges =>
      rw [if_neg merges]
      split at run
      · next masked =>
        rw [if_pos masked]
        split at run
        · cases run
        · split at run
          · cases run; cases fits
          · next enough =>
            cases run
            have both : effective.newAceLength + old.aceSize =
                totalSize ((effective.ace.map options.reset).toList ++
                  [options.reset { old with aceFlags := old.aceFlags ||| inheritOnlyAce }]) := by
              rw [totalSize_append, ← plain]
              rfl
            exact .advance (by rw [← both]; omega) both before
      · next masked =>
        rw [if_neg masked]
        cases run
        exact .advance (plain ▸ small) plain before
  · next generates =>
    rw [if_neg generates]
    cases run
    exact .advance (plain ▸ small) plain before

theorem copyMapped_ok (run : copyMapped options creator state old = .ok state')
    (fits : state'.aclOverflowed = false) :
    ∃ new, mappedCopies options creator old = .ok new ∧ Wrote state state' new := by
  unfold copyMapped at run
  unfold mappedCopies
  split at run
  · next only =>
    obtain ⟨-, wrote⟩ := copyInheritable_ok run fits fun _ => ⟨rfl, Nat.zero_le _⟩
    exact ⟨_, by rw [if_pos only]; rfl, wrote⟩
  · next only =>
    obtain ⟨effective, copy, run⟩ := bind_eq_ok.mp run
    obtain ⟨here, wrote⟩ := copyInheritable_ok run fits fun here => by
      obtain ⟨_, _, _, _, length⟩ := copyEffectiveAce_ok copy here
      exact length
    obtain ⟨form, formed, ace, mapped, -⟩ := copyEffectiveAce_ok copy here
    rw [ace, mapped] at wrote
    exact ⟨_, by rw [if_neg only, formed]; rfl, wrote⟩

theorem copyAce_ok (run : copyAce options state old = .ok state')
    (fits : state'.aclOverflowed = false) :
    ∃ new, copies options old = .ok new ∧ Wrote state state' new := by
  unfold copyAce at run
  unfold copies
  split at run
  · next selected =>
    rw [if_pos selected]
    cases sids : options.mapSids with
    | some =>
      rw [sids] at run
      exact copyMapped_ok run fits
    | none =>
      rw [sids] at run
      refine ⟨_, rfl, ?_⟩
      cases run
      unfold copyPlain at fits ⊢
      split at fits
      · cases fits
      · next enough =>
        split at fits
        · cases fits
        · next before =>
          rw [if_neg enough, if_neg before]
          have size : old.aceSize = totalSize [plainCopy options old] := by
            simp [aceSize_plainCopy]
          have advanced : Wrote state
              (state.advance [plainCopy options old] old.aceSize false) [plainCopy options old] :=
            .advance (by omega) size (by simpa using before)
          exact advanced
  · next selected =>
    rw [if_neg selected]
    cases run
    exact ⟨[], rfl, by simp, by simp, by simp, fits⟩

/-- The whole loop: what it has written are the copies of the ACEs, in their order. -/
theorem foldlM_copyAce_ok (aces : List Ace) :
    ∀ {state : CopyState}, aces.foldlM (copyAce options) state = .ok state' →
      state'.aclOverflowed = false →
      ∃ new, copiesOfAll options aces = .ok new ∧ Wrote state state' new := by
  induction aces with
  | nil =>
    intro state run fits
    cases run
    exact ⟨[], rfl, by simp, by simp, by simp, fits⟩
  | cons old aces ih =>
    intro state run fits
    obtain ⟨middle, step, run⟩ := bind_eq_ok.mp run
    obtain ⟨others, copied, wrote⟩ := ih run fits
    obtain ⟨first, copiedFirst, wroteFirst⟩ := copyAce_ok step wrote.before
    refine ⟨first ++ others, ?_, ?_, ?_, ?_, wroteFirst.before⟩
    · rw [copiesOfAll, copiedFirst, copied]
      rfl
    · rw [wrote.aces, wroteFirst.aces, List.append_assoc]
    · rw [wrote.size, wroteFirst.size, totalSize_append, Nat.add_assoc]
    · have := wrote.room
      have := wroteFirst.room
      rw [totalSize_append]
      omega

/-- **A copy that does not overflow adds the copies of the selected ACEs, in their order.** -/
theorem copyAces_ok {aces : List Ace} {newAcl newAcl' : Acl}
    (run : copyAces options aces newAcl = .ok (newAcl', size, false)) :
    ∃ new, copiesOfAll options aces = .ok new ∧
      newAcl' = { newAcl with aces := newAcl.aces ++ new } ∧ size = totalSize new ∧
      newAcl'.used ≤ newAcl'.aclSize := by
  unfold copyAces at run
  split at run
  · cases run
  · split at run
    · cases run
    · next within =>
      obtain ⟨state, loop, run⟩ := bind_eq_ok.mp run
      split at run
      · cases run
      · simp only [pure, Except.pure, Except.ok.injEq, Prod.mk.injEq] at run
        obtain ⟨rfl, rfl, fits⟩ := run
        obtain ⟨new, copied, wrote⟩ := foldlM_copyAce_ok aces loop fits
        have size := wrote.size
        have room := wrote.room
        rw [Nat.zero_add] at size
        refine ⟨new, copied, by rw [wrote.aces], size, ?_⟩
        simp only [Acl.firstFreeAce, decide_eq_true_eq, Decidable.not_not] at within
        simp only [Acl.room, Acl.used, wrote.aces, totalSize_append] at room within ⊢
        omega

/-! ## Which failures a copy has -/

/-- A computation that does not ask for another buffer itself. -/
def NeverResizes (outcome : Except Failure α) : Prop :=
  ∀ required, outcome ≠ .error (.bufferTooSmall required)

theorem NeverResizes.ok (value : α) : NeverResizes (.ok value : Except Failure α) := fun _ => nofun

theorem NeverResizes.bind {β : Type} {first : Except Failure α} {next : α → Except Failure β}
    (here : NeverResizes first) (later : ∀ value, NeverResizes (next value)) :
    NeverResizes (first >>= next) := by
  cases first with
  | error =>
    intro required eq
    exact here required (congrArg Except.error (Except.error.inj eq))
  | ok value => exact later value

theorem NeverResizes.ite {p : Prop} [Decidable p] {yes no : Except Failure α}
    (whenTrue : NeverResizes yes) (whenFalse : NeverResizes no) :
    NeverResizes (if p then yes else no) := by
  split
  · exact whenTrue
  · exact whenFalse

theorem neverResizes_badInheritanceAcl :
    NeverResizes (throw .badInheritanceAcl : Except Failure α) := fun _ => nofun

theorem neverResizes_mapCreatorSid (creator : Creator) (sid : Sid) :
    NeverResizes (mapCreatorSid creator sid) := by
  refine .ite (.ite (.ok _) (.ite (.ok _) (.ite (.ok _) (.ite ?_ (.ok _))))) (.ok _)
  split
  · exact .ok _
  · exact fun _ => nofun

theorem neverResizes_effectiveForm (mapping : GenericMapping) (creator : Creator) (will : Bool)
    (types : Option (List Guid)) (old : AceBody) :
    NeverResizes (effectiveForm mapping creator will types old) := by
  have sids : ∀ sid : Option Sid, NeverResizes (sid.elim (pure none) (mapCreatorSid creator)) := by
    intro sid
    cases sid with
    | none => exact .ok _
    | some sid => exact neverResizes_mapCreatorSid creator sid
  refine .ite (.ok _) (.bind (sids _) fun server => ?_)
  exact .ite (.ok _) (.ite (.ok _) (.bind (sids _) fun client => .ok _))

theorem neverResizes_copyEffectiveAce (mapping : GenericMapping) (creator : Creator)
    (autoInherit will : Bool) (types : Option (List Guid)) (room : Nat) (old : Ace) :
    NeverResizes (copyEffectiveAce mapping creator autoInherit will types room old) := by
  refine .bind (neverResizes_effectiveForm _ _ _ _ _) fun effective => ?_
  split
  · exact .ok _
  · exact .ite (.ite neverResizes_badInheritanceAcl (.ok _))
      (.ite neverResizes_badInheritanceAcl (.ok _))

theorem neverResizes_copyInheritable (options : CopyOptions) (state : CopyState) (old : Ace)
    (effective : CopiedEffective) :
    NeverResizes (copyInheritable options state old effective) := by
  refine .ite (.ite (.ok _) (.ite ?_ (.ok _))) (.ok _)
  exact .ite neverResizes_badInheritanceAcl (.ite (.ok _) (.ite (.ok _) (.ok _)))

theorem neverResizes_copyAce (options : CopyOptions) (state : CopyState) (old : Ace) :
    NeverResizes (copyAce options state old) := by
  refine .ite ?_ (.ok _)
  split
  · have rest := neverResizes_copyInheritable options state old
    exact .ite (rest _) (.bind (neverResizes_copyEffectiveAce _ _ _ _ _ _ _) rest)
  · exact .ok _

theorem neverResizes_copyAces (options : CopyOptions) (aces : List Ace) (newAcl : Acl) :
    NeverResizes (copyAces options aces newAcl) := by
  have loop : ∀ state, NeverResizes (aces.foldlM (copyAce options) state) := by
    induction aces with
    | nil => exact fun state => .ok _
    | cons old aces ih =>
      intro state
      exact .bind (neverResizes_copyAce options state old) ih
  refine .ite (fun _ => nofun) (.ite neverResizes_badInheritanceAcl ?_)
  exact .bind (loop _) fun state => .ite neverResizes_badInheritanceAcl (.ok _)

end Ntoskrnl.Rtl.Security
