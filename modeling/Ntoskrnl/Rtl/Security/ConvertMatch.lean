/-
# Ntoskrnl.Rtl.Security.ConvertMatch -- the parts of a converted ACL

What matching leaves of the ACEs of the child, what becomes of their masks, and how
the two ACLs the parent yields differ: the one with the constant creator SIDs, which
is matched, and the one with the owner and the group, which is kept.
-/
import Ntoskrnl.Rtl.Security.Convert
import Ntoskrnl.Rtl.Security.Effective

namespace Ntoskrnl.Rtl.Security

open List Lib.Checked

set_option autoImplicit false

variable {args : ConvertArguments}

/-! ## The masks of the ACEs that stay -/

/-- What the loop over the generic bits keeps. -/
structure Restores (mapping : GenericMapping) (childMask resultantMask : AccessMask)
    (state : AccessMask × AccessMask) : Prop where
  inChild : Within state.1 childMask
  left : Within state.2 resultantMask
  covers : ∀ i, resultantMask.getLsbD i → state.1.getLsbD i ∨ state.2.getLsbD i ∨
      ∃ genericBit, Within genericBit state.1 ∧ (mapGenericMask mapping genericBit).getLsbD i

theorem restores_start (mapping : GenericMapping) (childMask resultantMask : AccessMask) :
    Restores mapping childMask resultantMask
      (childMask &&& resultantMask, resultantMask &&& ~~~childMask) := by
  refine ⟨.and_left, .and_left, fun i set => ?_⟩
  have small : i < 32 := BitVec.lt_of_getLsbD set
  cases here : childMask.getLsbD i with
  | false =>
    refine .inr (.inl ?_)
    rw [BitVec.getLsbD_and, BitVec.getLsbD_not, set, here, decide_eq_true small]
    rfl
  | true =>
    refine .inl ?_
    rw [BitVec.getLsbD_and, set, here]
    rfl

variable {mapping : GenericMapping} {body : AceBody} {inherited : Ace}
  {resultantMask childMask : AccessMask}

theorem Restores.tryGenericBit {state : AccessMask × AccessMask}
    (restores : Restores mapping childMask resultantMask state) {genericBit : AccessMask}
    (single : flagOn genericBit childMask → Within genericBit childMask) :
    Restores mapping childMask resultantMask (tryGenericBit mapping childMask state genericBit) := by
  unfold Security.tryGenericBit
  split
  · exact restores
  split
  swap
  · exact restores
  next inChild =>
  dsimp only
  split
  swap
  · exact restores
  refine ⟨?_, fun i set => restores.left i (Within.and_left i set), ?_⟩
  · simpa using restores.inChild.or (single inChild)
  · intro i set
    have small : i < 32 := BitVec.lt_of_getLsbD set
    simp only [BitVec.getLsbD_or, BitVec.getLsbD_and, BitVec.getLsbD_not, small]
    rcases restores.covers i set with inMask | inLeft | ⟨earlier, within, mapped⟩
    · simp [inMask]
    · cases mapped : (mapGenericMask mapping genericBit).getLsbD i with
      | false => simp [inLeft]
      | true =>
        refine .inr (.inr ⟨genericBit, fun j inBit => ?_, mapped⟩)
        rw [BitVec.getLsbD_or, inBit, Bool.or_true]
    · refine .inr (.inr ⟨earlier, fun j inBit => ?_, mapped⟩)
      rw [BitVec.getLsbD_or, within j inBit, Bool.true_or]

/-- A word of one bit is in every word that has a bit of it. -/
theorem within_of_twoPow (place : Nat) {mask : AccessMask}
    (on : flagOn (BitVec.twoPow 32 place) mask) : Within (BitVec.twoPow 32 place) mask := by
  obtain ⟨j, atPlace, inMask⟩ := flagOn_iff.mp on
  intro i set
  simp only [BitVec.getLsbD_twoPow, Bool.and_eq_true, decide_eq_true_eq] at atPlace set
  rw [← set.2, atPlace.2]
  exact inMask

theorem newMask_restores (mapping : GenericMapping) (childMask resultantMask : AccessMask) :
    ∃ state, Restores mapping childMask resultantMask state ∧
      newMask mapping childMask resultantMask = state.1 ||| state.2 := by
  have start := restores_start mapping childMask resultantMask
  have all := (((start.tryGenericBit (within_of_twoPow 31)).tryGenericBit
    (within_of_twoPow 30)).tryGenericBit
    (within_of_twoPow 29)).tryGenericBit (within_of_twoPow 28)
  exact ⟨_, all, rfl⟩

/-- **The mask of an ACE that stays means no more than the ACE meant, and all that is left.** -/
theorem newMask_spec (within : Within resultantMask (mapGenericMask mapping childMask)) :
    Within (mapGenericMask mapping (newMask mapping childMask resultantMask))
        (mapGenericMask mapping childMask) ∧
      Within resultantMask (mapGenericMask mapping (newMask mapping childMask resultantMask)) := by
  obtain ⟨state, restores, eq⟩ := newMask_restores mapping childMask resultantMask
  have plain : flagOn resultantMask genericBits = false :=
    within.plain (mapGenericMask_plain mapping childMask)
  have inNew : Within state.1 (newMask mapping childMask resultantMask) := fun i set => by
    rw [eq, BitVec.getLsbD_or, set, Bool.true_or]
  constructor
  · intro i set
    have bounded : Within (newMask mapping childMask resultantMask) (childMask ||| resultantMask) :=
      eq ▸ restores.inChild.or restores.left
    have there := Within.mapGenericMask plain bounded i set
    rw [BitVec.getLsbD_or, Bool.or_eq_true] at there
    exact there.elim id (within i)
  · intro i set
    -- What is in both words is not generic, and so is not changed.
    have stays : Within (newMask mapping childMask resultantMask &&& resultantMask)
        (mapGenericMask mapping (newMask mapping childMask resultantMask)) := by
      refine within_mapGenericMask mapping (Within.plain (fun j both => ?_) plain) Within.and_left
      rw [BitVec.getLsbD_and, Bool.and_eq_true] at both
      exact both.2
    rcases restores.covers i set with inMask | inLeft | ⟨genericBit, inMask, mapped⟩
    · exact stays i (by rw [BitVec.getLsbD_and, inNew i inMask, set]; rfl)
    · exact stays i (by rw [BitVec.getLsbD_and, eq, BitVec.getLsbD_or, inLeft, set, Bool.or_true]; rfl)
    · exact mapGenericMask_mono mapping (fun j set => inNew j (inMask j set)) i mapped

/-! ## The two sets of creator SIDs -/

/-- The SID an effective ACE is for: the owner and the group stand for the creator SIDs. -/
def ConvertArguments.standsFor (args : ConvertArguments) (sid : Sid) : Sid :=
  if sid = creatorSid securityCreatorOwnerRid then args.ownerSid
  else if sid = creatorSid securityCreatorGroupRid then args.groupSid
  else sid

namespace AceBody

def mapSids (rename : Sid → Sid) : AceBody → AceBody
  | .known kind mask sid => .known kind mask (rename sid)
  | .compound mask compoundAceType reserved serverSid clientSid =>
    .compound mask compoundAceType reserved (rename serverSid) (rename clientSid)
  | .object kind mask otherFlags objectType inheritedObjectType sid =>
    .object kind mask otherFlags objectType inheritedObjectType (rename sid)
  | .unknown aceType beyond => .unknown aceType beyond

@[simp] theorem mask_mapSids (rename : Sid → Sid) (body : AceBody) :
    (body.mapSids rename).mask = body.mask := by
  cases body <;> rfl

end AceBody

/-- The arguments of the first and of the second call of `RtlpInheritAcl`. -/
def ConvertArguments.constant (args : ConvertArguments) : InheritArguments :=
  args.inherit (creatorSid securityCreatorOwnerRid) (creatorSid securityCreatorGroupRid)

def ConvertArguments.real (args : ConvertArguments) : InheritArguments :=
  args.inherit args.ownerSid args.groupSid

theorem standsFor_owner (args : ConvertArguments) :
    args.standsFor (creatorSid securityCreatorOwnerRid) = args.ownerSid := if_pos rfl

theorem standsFor_group (args : ConvertArguments) :
    args.standsFor (creatorSid securityCreatorGroupRid) = args.groupSid := by
  rw [ConvertArguments.standsFor, if_neg (by decide), if_pos rfl]

theorem standsFor_other {sid : Sid}
    (other : ∀ rid, rid = securityCreatorOwnerRid ∨ rid = securityCreatorGroupRid →
      sid ≠ creatorSid rid) : args.standsFor sid = sid := by
  simp [ConvertArguments.standsFor, other]

/-- The creator SIDs are replaced by SIDs that stand for the constants. -/
theorem mapCreatorSid_real (args : ConvertArguments) (sid : Sid) :
    ∃ found found', mapCreatorSid args.constant.creator sid = .ok found ∧
      mapCreatorSid args.real.creator sid = .ok found' ∧ found'.isSome = found.isSome ∧
      found'.getD sid = args.standsFor (found.getD sid) := by
  have own := standsFor_owner args
  have grp := standsFor_group args
  unfold mapCreatorSid
  by_cases creators : equalPrefixSid sid (creatorSid securityCreatorOwnerRid)
  · simp only [creators, if_true]
    by_cases owner : sid.subAuthorities.headD 0 = securityCreatorOwnerRid
    · simp only [owner, if_true]
      exact ⟨_, _, rfl, rfl, rfl, own.symm⟩
    · simp only [owner, if_false]
      by_cases group : sid.subAuthorities.headD 0 = securityCreatorGroupRid
      · simp only [group, if_true]
        exact ⟨_, _, rfl, rfl, rfl, grp.symm⟩
      · simp only [group, if_false]
        split
        · exact ⟨_, _, rfl, rfl, rfl, own.symm⟩
        · split
          · exact ⟨_, _, rfl, rfl, rfl, grp.symm⟩
          · refine ⟨_, _, rfl, rfl, rfl, (standsFor_other ?_).symm⟩
            rintro rid (rfl | rfl) rfl
            · exact owner rfl
            · exact group rfl
  · simp only [creators, Bool.false_eq_true, if_false]
    refine ⟨_, _, rfl, rfl, rfl, (standsFor_other ?_).symm⟩
    rintro rid (rfl | rfl) rfl <;> exact creators (by decide)

variable {old : AceBody} {i : Nat}

/-- Replacing SIDs by what stands for them renames the body. -/
theorem mapSids_form (args : ConvertArguments) (drops : Prop) [Decidable drops]
    (mask : AccessMask) {server client server' client' : Option Sid}
    (servers : ∀ sid ∈ old.serverSid?, server'.getD sid = args.standsFor (server.getD sid))
    (clients : ∀ sid ∈ old.sid?, client'.getD sid = args.standsFor (client.getD sid)) :
    (if drops then (old.replaceSids server' client').dropInheritedObjectType
      else old.replaceSids server' client').setMask mask =
    ((if drops then (old.replaceSids server client).dropInheritedObjectType
      else old.replaceSids server client).setMask mask).mapSids args.standsFor := by
  cases old with
  | known kind mask sid =>
    simp only [AceBody.replaceSids, clients sid rfl]
    split <;> rfl
  | compound mask compoundAceType reserved serverSid clientSid =>
    simp only [AceBody.replaceSids, servers serverSid rfl, clients clientSid rfl]
    split <;> rfl
  | object kind mask otherFlags objectType inheritedObjectType sid =>
    simp only [AceBody.replaceSids, clients sid rfl]
    split <;> cases objectType <;> rfl
  | unknown => split <;> rfl

/-- The replacement for a SID that may not be there. -/
theorem elim_mapCreatorSid_real (args : ConvertArguments) (sid? : Option Sid) :
    ∃ found found', sid?.elim (pure none) (mapCreatorSid args.constant.creator) = .ok found ∧
      sid?.elim (pure none) (mapCreatorSid args.real.creator) = .ok found' ∧
      found'.isSome = found.isSome ∧
      ∀ sid ∈ sid?, found'.getD sid = args.standsFor (found.getD sid) := by
  cases sid? with
  | none => exact ⟨none, none, rfl, rfl, rfl, nofun⟩
  | some sid =>
    obtain ⟨found, found', first, second, same, eq⟩ := mapCreatorSid_real args sid
    refine ⟨found, found', first, second, same, fun other is => ?_⟩
    cases is
    exact eq

/-- **The second call makes the same ACEs effective as the first, for other SIDs.** -/
theorem effectiveForm_real (args : ConvertArguments) (mapping : GenericMapping) (will : Bool)
    (types : Option (List Guid)) (old : AceBody) :
    ∃ form, effectiveForm mapping args.constant.creator will types old = .ok form ∧
      effectiveForm mapping args.real.creator will types old =
        .ok { form with body := form.body.map (AceBody.mapSids args.standsFor) } := by
  obtain ⟨server, server', serverEq, serverEq', serverSame, servers⟩ :=
    elim_mapCreatorSid_real args old.serverSid?
  obtain ⟨client, client', clientEq, clientEq', clientSame, clients⟩ :=
    elim_mapCreatorSid_real args old.sid?
  unfold effectiveForm
  by_cases ms : old.isMs
  swap
  · cases old with
    | unknown => exact ⟨_, rfl, rfl⟩
    | _ => exact absurd rfl ms
  rw [if_neg (not_not.mpr ms)]
  simp only [serverEq, serverEq', clientEq, clientEq', bind, Except.bind, serverSame, clientSame]
  split
  · exact ⟨_, rfl, rfl⟩
  split
  · exact ⟨_, rfl, rfl⟩
  refine ⟨_, rfl, ?_⟩
  simp only [pure, Except.pure, Option.map_some, mapSids_form args _ _ servers clients]

theorem effectiveOf_real (args : ConvertArguments) (old : Ace) :
    ∃ form, effectiveOf args.constant old = .ok form ∧
      effectiveOf args.real old = .ok (form.map (AceBody.mapSids args.standsFor)) := by
  obtain ⟨form, first, second⟩ := effectiveForm_real args args.genericMapping
    (args.isDirectoryObject && propagate old) (some args.objectType.toList) old.body
  by_cases concerned : ((args.isDirectoryObject && flagOn old.aceFlags containerInheritAce) ||
      (!args.isDirectoryObject && flagOn old.aceFlags objectInheritAce))
  · have body {outcome : Except Failure Effective} {form : Effective} (made : outcome = .ok form) :
        (do pure (← outcome).body) = (.ok form.body : Except Failure _) := by rw [made]; rfl
    exact ⟨form.body, (if_pos concerned).trans (body first), (if_pos concerned).trans (body second)⟩
  · exact ⟨none, if_neg concerned, if_neg concerned⟩

/-! ## The masks of effective forms -/

theorem meaningful_setMask (mapping : GenericMapping) (mask : AccessMask) (body : AceBody) :
    (body.setMask mask).meaningful mapping = body.meaningful mapping := by
  cases body with
  | known kind | object kind => cases kind <;> rfl
  | _ => rfl

/-- Other SIDs and a dropped GUID change nothing about what a mask is set to and means. -/
theorem mask_form (mapping : GenericMapping) (drops : Prop) [Decidable drops]
    (server client : Option Sid) (mask : AccessMask) (ms : old.isMs) :
    let form := (if drops then (old.replaceSids server client).dropInheritedObjectType
      else old.replaceSids server client).setMask mask
    form.mask = mask ∧ form.meaningful mapping = old.meaningful mapping := by
  cases old with
  | unknown => exact nomatch ms
  | known kind => split <;> cases kind <;> exact ⟨rfl, rfl⟩
  | compound => split <;> exact ⟨rfl, rfl⟩
  | object kind _ _ objectType =>
    split <;> cases objectType <;> cases kind <;> exact ⟨rfl, rfl⟩

/-- A mapped and cut mask is not changed by mapping it again. -/
theorem applyGenericMask_cut (mapping : GenericMapping) (old body : AceBody) (rights : AccessMask)
    (mask : body.mask = applyGenericMask mapping old &&& rights)
    (meaningful : body.meaningful mapping = old.meaningful mapping) :
    applyGenericMask mapping body = body.mask := by
  have within : Within body.mask (mapGenericMask mapping old.mask) := by
    intro i set
    rw [mask, applyGenericMask, BitVec.getLsbD_and, BitVec.getLsbD_and, Bool.and_eq_true,
      Bool.and_eq_true] at set
    exact set.1.1
  have plain := within.plain (mapGenericMask_plain mapping old.mask)
  rw [applyGenericMask, mapGenericMask_of_plain mapping plain, meaningful, mask, applyGenericMask]
  ext i
  simp only [BitVec.getElem_and]
  cases (mapGenericMask mapping old.mask)[i] <;> cases (old.meaningful mapping)[i] <;>
    cases rights[i] <;> rfl

/-- Mapping the mask of an effective form changes nothing. -/
theorem applyGenericMask_effectiveForm {creator : Creator} {will : Bool}
    {types : Option (List Guid)} {form : Effective}
    (run : effectiveForm mapping creator will types old = .ok form) (made : form.body = some body)
    (ms : body.isMs) : applyGenericMask mapping body = body.mask := by
  unfold effectiveForm at run
  split at run
  · next unknown =>
    cases run
    cases made
    exact absurd ms unknown
  next known =>
  rw [not_not] at known
  obtain ⟨server, servers, run⟩ := bind_eq_ok.mp run
  dsimp only at run
  split at run
  · cases run
    cases made
  split at run
  · cases run
    cases made
  obtain ⟨client, clients, run⟩ := bind_eq_ok.mp run
  cases run
  cases made
  exact applyGenericMask_cut mapping old _ _ (mask_form mapping _ server client _ known).1
    (mask_form mapping _ server client _ known).2

theorem applyGenericMask_effectiveOf {args : InheritArguments} {old : Ace}
    (made : effectiveOf args old = .ok (some body)) (ms : body.isMs) :
    applyGenericMask args.genericMapping body = body.mask := by
  unfold effectiveOf at made
  split at made
  · obtain ⟨form, run, made⟩ := bind_eq_ok.mp made
    exact applyGenericMask_effectiveForm run (Except.ok.inj made) ms
  · cases made

/-! ## Matching -/

/-- What one inherited ACE leaves of an ACE of the child. -/
def AceInfo.after (args : ConvertArguments) (inherited : Ace) (original : Masks)
    (info : AceInfo) : AceInfo :=
  if compareAces inherited info.ace (some args.ownerSid) (some args.groupSid) then
    { info with left := info.left.without original }
  else info

/-- What the inherited ACEs of a list leave of an ACE of the child. -/
structure Leaves (args : ConvertArguments) (aces : List Ace) (info info' : AceInfo) : Prop where
  ace : info'.ace = info.ace
  original : info'.original = info.original
  resultant : Within info'.resultantMask info.resultantMask
  accounted : ∀ i, info.left.effective.getLsbD i → info'.left.effective.getLsbD i ∨
    ∃ inherited ∈ aces, compareAces inherited info.ace (some args.ownerSid) (some args.groupSid) ∧
      (localMasks args.genericMapping inherited).effective.getLsbD i

theorem Leaves.refl (aces : List Ace) (info : AceInfo) : Leaves args aces info info :=
  ⟨rfl, rfl, fun _ set => set, fun _ set => .inl set⟩

theorem leaves_after (inherited : Ace) (info : AceInfo) : Leaves args [inherited] info
    (info.after args inherited (localMasks args.genericMapping inherited)) := by
  unfold AceInfo.after
  split
  · next same =>
    refine ⟨rfl, rfl, (Within.and_left.or Within.and_left).or Within.and_left, fun i set => ?_⟩
    cases here : (localMasks args.genericMapping inherited).effective.getLsbD i with
    | true => exact .inr ⟨inherited, mem_singleton_self _, same, here⟩
    | false =>
      refine .inl ?_
      rw [getLsbD_without, set, here]
      rfl
  · exact .refl _ info

theorem Leaves.cons {aces : List Ace} {info info' info'' : AceInfo}
    (first : Leaves args [inherited] info info') (rest : Leaves args aces info' info'') :
    Leaves args (inherited :: aces) info info'' := by
  refine ⟨rest.ace.trans first.ace, rest.original.trans first.original,
    fun i set => first.resultant i (rest.resultant i set), fun i set => ?_⟩
  rcases first.accounted i set with left | ⟨ace, mem, same, here⟩
  · rcases rest.accounted i left with left | ⟨ace, mem, same, here⟩
    · exact .inl left
    · exact .inr ⟨ace, mem_cons_of_mem _ mem, first.ace ▸ same, here⟩
  · exact .inr ⟨ace, mem_singleton.mp mem ▸ mem_cons_self .., same, here⟩

/-- What a list of inherited ACEs leaves of an ACE of the child. -/
def AceInfo.leftBy (args : ConvertArguments) (aces : List Ace) (info : AceInfo) : AceInfo :=
  aces.foldl (fun info ace =>
    info.after args ace (localMasks args.genericMapping ace)) info

theorem leaves_leftBy (aces : List Ace) :
    ∀ info : AceInfo, Leaves args aces info (info.leftBy args aces) := by
  induction aces with
  | nil => exact .refl []
  | cons inherited aces ih => exact fun info => (leaves_after inherited info).cons (ih _)

end Ntoskrnl.Rtl.Security
