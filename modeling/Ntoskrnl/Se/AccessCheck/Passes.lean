/-
# Ntoskrnl.Se.AccessCheck.Passes -- both passes decide each bit by its first match

An ACE of a DACL either does nothing in a pass or allows or denies a mask at one entry of
the type list (`Effect`), and both loops are runs over these effects.  For a bit and a leaf
only the first effect matters that has the bit and covers the leaf: the maximum pass grants
the bit there exactly if that effect allows, and the normal pass ends with nothing
remaining exactly if it allows for every leaf and every requested bit.  Every inner entry
has what it would compute from its children.
-/
import Ntoskrnl.Se.AccessCheck.Update

namespace Ntoskrnl.Se.AccessCheck

open TypeList List

set_option autoImplicit false

/-! ## Effects -/

/-- The mask an ACE allows or denies, and the entry it does so at. -/
structure Effect where
  start : Nat
  allow : Bool
  mask : AccessMask
  deriving DecidableEq, Repr

/-- The effect has the bit and covers the entry. -/
def Effect.hits (list : TypeList) (j k : Nat) (effect : Effect) : Bool :=
  decide (list.Covers effect.start j) && effect.mask.getLsbD k

/-- The first effect on the bit at the entry allows it. -/
def Allows (list : TypeList) (effects : List Effect) (j k : Nat) : Prop :=
  ∃ effect, effects.find? (Effect.hits list j k) = some effect ∧ effect.allow

variable {list : TypeList}

section Allows

variable {effect : Effect} {effects : List Effect} {j k : Nat}

theorem not_allows_nil : ¬ Allows list [] j k := by
  rintro ⟨effect, found, -⟩
  cases found

theorem allows_cons_hit (hit : effect.hits list j k) :
    Allows list (effect :: effects) j k ↔ effect.allow := by
  simp [Allows, hit]

theorem allows_cons_miss (miss : effect.hits list j k = false) :
    Allows list (effect :: effects) j k ↔ Allows list effects j k := by
  simp [Allows, miss]

theorem hits_iff : effect.hits list j k ↔ list.Covers effect.start j ∧ effect.mask.getLsbD k := by
  simp [Effect.hits]

end Allows

variable {access : Nat → Access} {mask : AccessMask} {ace : Ace}

namespace Pass

variable (pass : Pass) (restricted server : Bool)

/-- What an ACE does in a pass; `server` says whether the server SID of a compound ACE is
looked up among the restricting SIDs. -/
def effect (ace : Ace) : Option Effect :=
  if ace.inheritOnly then none
  else
    match ace.type with
    | .accessAllowed sid | .accessAllowedObject none sid =>
      if sepSidInTokenEx pass.eToken pass.principalSelfSid sid false restricted then
        some ⟨0, true, ace.mask⟩
      else none
    | .accessAllowedObject (some objectType) sid =>
      if pass.listGiven = false then none
      else if sepSidInTokenEx pass.eToken pass.principalSelfSid sid false restricted then
        (sepObjectInTypeList pass.localTypeList objectType).map (⟨·, true, ace.mask⟩)
      else none
    | .accessAllowedCompound clientSid serverSid =>
      if sepSidInTokenEx pass.eToken pass.principalSelfSid clientSid false restricted &&
          sepSidInTokenEx pass.primaryToken none serverSid false server then
        some ⟨0, true, ace.mask⟩
      else none
    | .accessDenied sid =>
      if sepSidInTokenEx pass.eToken pass.principalSelfSid sid true restricted then
        some ⟨0, false, ace.mask⟩
      else none
    | .accessDeniedObject objectType sid =>
      if sepSidInTokenEx pass.eToken pass.principalSelfSid sid true restricted then
        match objectType, pass.listGiven with
        | none, _ | some _, false => some ⟨0, false, ace.mask⟩
        | some objectType, true =>
          (sepObjectInTypeList pass.localTypeList objectType).map (⟨·, false, ace.mask⟩)
      else none
    | .other => none

def effects (dacl : List Ace) : List Effect := dacl.filterMap (pass.effect restricted server)

/-- Every requested bit is allowed at every leaf. -/
def Permits (dacl : List Ace) (mask : AccessMask) : Prop :=
  ∀ j, pass.localTypeList.Leaf j → ∀ k, mask.getLsbD k →
    Allows pass.localTypeList (pass.effects restricted server dacl) j k

/-- A caller that gives no list is checked on a list of one entry. -/
def WellFormed : Prop := pass.listGiven = false → pass.localTypeList.length = 1

variable {pass} {field : Field}

theorem single_update (one : list.length = 1) : sepAddAccessTypeList list access 0 mask field =
      Function.update access 0 ((access 0).update mask field) := by
  have noParents (access : Nat → Access) : sepUpdateParentTypeList list access 0 = access := by
    rw [sepUpdateParentTypeList]
    split
    · rfl
    next found =>
      rw [parentIndex_zero] at found
      cases found
  unfold sepAddAccessTypeList
  simp [below_length_one one, foldl_nil, noParents, ite_self]

theorem updateObject_eq : pass.updateObject access mask field =
    sepAddAccessTypeList pass.localTypeList access 0 mask field := by
  unfold updateObject
  split
  next one => rw [single_update one]
  next => rfl

/-- What an effect does to the masks in the maximum pass. -/
def maximumEffect (list : TypeList) (access : Nat → Access) (effect : Effect) : Nat → Access :=
  sepAddAccessTypeList list access effect.start effect.mask
    (if effect.allow then .updateCurrentGranted else .updateCurrentDenied)

theorem maximumAce_eq (wellFormed : pass.WellFormed) : pass.maximumAce restricted access ace =
      match pass.effect restricted false ace with
      | none => access
      | some effect => maximumEffect pass.localTypeList access effect := by
  unfold maximumAce effect
  split
  · rfl
  cases ace.type with
  | other => rfl
  | accessAllowedObject objectType =>
    cases objectType with
    | none =>
      simp only [updateObject_eq]
      split <;> rfl
    | some objectType =>
      simp only
      split
      · rfl
      split
      · cases sepObjectInTypeList pass.localTypeList objectType <;> rfl
      · rfl
  | accessDeniedObject objectType =>
    simp only [updateObject_eq]
    split
    next =>
      cases objectType with
      | none => rfl
      | some objectType =>
        cases given : pass.listGiven with
        | false => exact (single_update (wellFormed given)).symm
        | true =>
          simp only [Bool.true_eq_false, if_false]
          cases sepObjectInTypeList pass.localTypeList objectType <;> rfl
    next => rfl
  | _ =>
    simp only [updateObject_eq]
    split <;> rfl

theorem normalAce_eq : pass.normalAce restricted access ace =
    match pass.effect restricted restricted ace with
    | none => some access
    | some effect =>
      if effect.allow then
        some (sepAddAccessTypeList pass.localTypeList access effect.start effect.mask .updateRemaining)
      else if (access effect.start).remaining &&& effect.mask ≠ 0 then none
      else some access := by
  unfold normalAce effect
  split
  · rfl
  cases ace.type with
  | other => rfl
  | accessAllowedObject objectType =>
    cases objectType with
    | none =>
      simp only [updateObject_eq]
      split <;> rfl
    | some objectType =>
      simp only
      split
      · rfl
      split
      · cases sepObjectInTypeList pass.localTypeList objectType <;> rfl
      · rfl
  | accessDeniedObject objectType =>
    simp only
    split
    next =>
      cases objectType with
      | none => rfl
      | some objectType =>
        cases given : pass.listGiven with
        | false => rfl
        | true =>
          simp only
          cases sepObjectInTypeList pass.localTypeList objectType <;> rfl
    next => rfl
  | _ =>
    simp only [updateObject_eq]
    split <;> rfl

end Pass

/-! ## The maximum pass -/

section Maximum

variable {effect : Effect} {effects : List Effect} {j k : Nat}

/-- What the maximum pass keeps. -/
structure Kept (list : TypeList) (access : Nat → Access) : Prop where
  agrees : ∀ p, AgreesAt grantsPart list access p
  exclusive : ∀ j, (access j).Exclusive

theorem maximumEffect_covered (covers : list.Covers effect.start j) :
    Pass.maximumEffect list access effect j = (access j).update effect.mask
      (if effect.allow then .updateCurrentGranted else .updateCurrentDenied) := by
  refine sepAddAccessTypeList_covered (fun bad => ?_) covers
  split at bad
  · cases bad
  · cases bad

/-- The bits granted, or denied. -/
def Access.decided (access : Access) : Bool → AccessMask
  | true => access.currentGranted
  | false => access.currentDenied

/-- What an effect does to a bit of a leaf.  A leaf is not above the target, so an effect that
does not hit it leaves the bit alone. -/
theorem maximumEffect_bits (access : Nat → Access) (leaf : list.Leaf j) (effect : Effect) (k : Nat)
    (allow : Bool) :
    ((Pass.maximumEffect list access effect j).decided allow).getLsbD k ↔
      ((access j).decided allow).getLsbD k ∨ (effect.hits list j k ∧
        effect.allow = allow ∧ ((access j).decided !allow).getLsbD k = false) := by
  by_cases covers : list.Covers effect.start j
  · have hit : effect.hits list j k = effect.mask.getLsbD k := by simp [Effect.hits, covers]
    rw [maximumEffect_covered covers, hit]
    cases allow <;> cases effect.allow
    · exact update_denied_bit.trans (by simp [Access.decided])
    · simp [Access.update, Access.decided]
    · simp [Access.update, Access.decided]
    · exact update_granted_bit.trans (by simp [Access.decided])
  · rw [Pass.maximumEffect, sepAddAccessTypeList_apart covers leaf.not_above]
    simp [Effect.hits, covers]

/-- A bit is granted, or denied, at a leaf if it was before, or if it was not denied, or granted,
before and the first effect on it says so. -/
theorem maximumEffects_decided (leaf : list.Leaf j) (allow : Bool) :
    ((effects.foldl (Pass.maximumEffect list) access j).decided allow).getLsbD k ↔
      ((access j).decided allow).getLsbD k ∨ (((access j).decided !allow).getLsbD k = false ∧
        ∃ effect, effects.find? (Effect.hits list j k) = some effect ∧ effect.allow = allow) := by
  induction effects generalizing access with
  | nil => simp
  | cons effect effects ih =>
    simp only [foldl_cons, ih, maximumEffect_bits access leaf, ← Bool.not_eq_true, find?_cons]
    cases effect.hits list j k with
    | true => cases allow <;> cases verdict : effect.allow <;> simp [verdict] <;> tauto
    | false => simp

theorem maximumEffects_leaf (leaf : list.Leaf j) :
    (effects.foldl (Pass.maximumEffect list) access j).currentGranted.getLsbD k ↔
      (access j).currentGranted.getLsbD k ∨
        ((access j).currentDenied.getLsbD k = false ∧ Allows list effects j k) :=
  maximumEffects_decided leaf true

end Maximum

variable {pass : Pass}

namespace Pass

theorem maximumLoop_eq (wellFormed : pass.WellFormed) (restricted : Bool) (dacl : List Ace)
    (access : Nat → Access) : dacl.foldl (pass.maximumAce restricted) access =
      (pass.effects restricted false dacl).foldl (maximumEffect pass.localTypeList) access := by
  induction dacl generalizing access with
  | nil => rfl
  | cons ace dacl ih =>
    rw [foldl_cons, ih, maximumAce_eq restricted wellFormed, effects, effects, filterMap_cons]
    cases pass.effect restricted false ace <;> rfl

end Pass

/-! ## The normal pass -/

section Normal

variable {restricted : Bool}

theorem mask_ne_zero : mask ≠ 0 ↔ ∃ k, mask.getLsbD k := by
  rw [← not_iff_not, not_not, not_exists]
  constructor
  · rintro rfl k
    simp
  · intro none
    exact mask_ext fun k => by simp [none k]

/-- The remaining masks agree with the leaves and no bit is granted and denied. -/
structure Waiting (list : TypeList) (access : Nat → Access) : Prop where
  agrees : ∀ p, AgreesAt remainingPart list access p
  exclusive : ∀ j, (access j).Exclusive

theorem Waiting.uniform (list : TypeList) (exclusive : ∀ j, (access j).Exclusive) (remaining : AccessMask) :
    Waiting list fun j => { access j with remaining := remaining } where
  agrees := by
    intro p inner
    refine mask_ext fun k => ?_
    simp only [remainingPart]
    rw [ofChildren_remaining]
    obtain ⟨c, child⟩ := exists_mem_of_ne_nil _ inner
    simp only [mem_map, exists_exists_and_eq_and]
    exact ⟨fun bit => ⟨c, child, bit⟩, by rintro ⟨_, _, bit⟩; exact bit⟩
  exclusive := exclusive

theorem Waiting.remove (waiting : Waiting list access) (start : Nat) (mask : AccessMask) :
    Waiting list (sepAddAccessTypeList list access start mask .updateRemaining) where
  agrees := sepAddAccessTypeList_agrees (distributes_remaining mask) (fun _ => waiting.agrees)
    waiting.exclusive waiting.agrees
  exclusive := sepAddAccessTypeList_exclusive waiting.exclusive

theorem Waiting.remove_leaf (waiting : Waiting list access) (effect : Effect) {j k : Nat}
    (leaf : list.Leaf j) :
    (sepAddAccessTypeList list access effect.start effect.mask .updateRemaining j).remaining.getLsbD
      k ↔ (access j).remaining.getLsbD k ∧ effect.hits list j k = false := by
  by_cases covers : list.Covers effect.start j
  · rw [sepAddAccessTypeList_covered (fun _ => waiting.agrees) covers, update_remaining_bit]
    simp [Effect.hits, covers]
  · rw [sepAddAccessTypeList_apart covers leaf.not_above]
    simp [Effect.hits, covers]

/-- Nothing remains for the object exactly if nothing remains at any leaf. -/
theorem Waiting.zero_iff (waiting : Waiting list access) : (access 0).remaining = 0 ↔
    ∀ j, list.Leaf j → ∀ k, (access j).remaining.getLsbD k = false := by
  rw [← not_iff_not, ← ne_eq, mask_ne_zero]
  simp only [remaining_iff_leaves waiting.agrees length_pos, not_forall, Bool.not_eq_false]
  constructor
  · rintro ⟨k, j, leaf, -, bit⟩
    exact ⟨j, leaf, k, bit⟩
  · rintro ⟨j, leaf, k, bit⟩
    exact ⟨k, j, leaf, covers_zero leaf.1, bit⟩

/-- The loop ends with nothing remaining exactly if the first effect on every remaining bit
of every leaf allows it.  A denial of a remaining bit ends the loop, and a leaf it covers
then keeps the bit. -/
theorem normalLoop_iff (waiting : Waiting pass.localTypeList access)
    (inside : ∀ ace effect, pass.effect restricted restricted ace = some effect →
      effect.start < pass.localTypeList.length) (dacl : List Ace) :
    (pass.normalLoop restricted access dacl 0).remaining = 0 ↔
      ∀ j, pass.localTypeList.Leaf j → ∀ k, (access j).remaining.getLsbD k →
        Allows pass.localTypeList (pass.effects restricted restricted dacl) j k := by
  induction dacl generalizing access with
  | nil =>
    rw [Pass.normalLoop, waiting.zero_iff]
    simp [Pass.effects, not_allows_nil]
  | cons ace dacl ih =>
    rw [Pass.normalLoop]
    split
    next done =>
      have none := waiting.zero_iff.mp done
      refine iff_of_true done fun j leaf k bit => ?_
      rw [none j leaf k] at bit
      cases bit
    next more =>
      rw [Pass.normalAce_eq, Pass.effects, filterMap_cons]
      cases found : pass.effect restricted restricted ace with
      | none => exact ih waiting
      | some effect =>
        have start := inside ace effect found
        -- an allow ACE clears its bits; the denial of a bit that remains ends the loop
        cases allow : effect.allow with
        | true =>
          simp only [allow, if_true]
          rw [ih (waiting.remove effect.start effect.mask)]
          refine forall₃_congr fun j leaf k => ?_
          rw [waiting.remove_leaf effect leaf]
          cases hit : effect.hits pass.localTypeList j k with
          | true => simp [allows_cons_hit hit, allow]
          | false => simp [allows_cons_miss hit, Pass.effects]
        | false =>
          simp only [allow, Bool.false_eq_true, if_false]
          by_cases denied : (access effect.start).remaining &&& effect.mask ≠ 0
          · rw [if_pos denied]
            refine iff_of_false more fun all => ?_
            obtain ⟨k, bit⟩ := mask_ne_zero.mp denied
            rw [BitVec.getLsbD_and, Bool.and_eq_true] at bit
            obtain ⟨j, leaf, covers, bit'⟩ :=
              (remaining_iff_leaves waiting.agrees start).mp bit.1
            have := (allows_cons_hit (hits_iff.mpr ⟨covers, bit.2⟩)).mp (all j leaf k bit')
            rw [allow] at this
            cases this
          · rw [if_neg denied]
            rw [ih waiting]
            refine forall₄_congr fun j leaf k bit => ?_
            rw [allows_cons_miss, Pass.effects]
            rw [← Bool.not_eq_true, hits_iff]
            rintro ⟨covers, bit'⟩
            refine denied (mask_ne_zero.mpr ⟨k, ?_⟩)
            rw [BitVec.getLsbD_and, bit', remaining_of_below waiting.agrees covers bit]
            rfl

theorem normalLoop_exclusive (pass : Pass) (restricted : Bool)
    (exclusive : ∀ j, (access j).Exclusive) (dacl : List Ace) (j : Nat) :
    (pass.normalLoop restricted access dacl j).Exclusive := by
  induction dacl generalizing access with
  | nil => exact exclusive j
  | cons ace dacl ih =>
    rw [Pass.normalLoop]
    split
    · exact exclusive j
    · rw [Pass.normalAce_eq]
      cases pass.effect restricted restricted ace with
      | none => exact ih exclusive
      | some =>
        simp only
        split
        · exact ih (sepAddAccessTypeList_exclusive exclusive)
        · split
          · exact exclusive j
          · exact ih exclusive

end Normal

namespace Pass

variable {restricted server : Bool}

/-- An effect has its ACE's mask and kind, at the object or at an entry that an ACE names; what
it allows, it allows to a SID that counts. -/
theorem effect_spec {effect : Effect} (found : pass.effect restricted server ace = some effect) :
    ace.inheritOnly = false ∧ effect.mask = ace.mask ∧
    (effect.start = 0 ∨
      ∃ objectType, sepObjectInTypeList pass.localTypeList objectType = some effect.start) ∧
    match ace.type with
    | .accessAllowed sid | .accessAllowedObject _ sid | .accessAllowedCompound sid _ =>
      effect.allow ∧ sepSidInTokenEx pass.eToken pass.principalSelfSid sid false restricted
    | .accessDenied _ | .accessDeniedObject _ _ => effect.allow = false
    | .other => False := by
  unfold Pass.effect at found
  split at found
  · cases found
  next here =>
    refine ⟨by simpa using here, ?_⟩
    -- one case for each way an ACE comes to have an effect
    repeat' split at found
    all_goals first
      | contradiction
      | cases found; simp_all
      | obtain ⟨index, named, rfl⟩ := Option.map_eq_some_iff.mp found
        exact ⟨rfl, .inr ⟨_, named⟩, by simp_all⟩

theorem effect_inside {effect : Effect} (found : pass.effect restricted server ace = some effect) :
    effect.start < pass.localTypeList.length := by
  rcases (effect_spec found).2.2.1 with zero | ⟨objectType, named⟩
  · rw [zero]
    exact length_pos
  · exact (findIdx?_eq_some_iff_getElem.mp named).1

/-- **The normal pass leaves nothing of a request exactly if the first effect on each of
its bits allows it at every leaf.** -/
theorem sepNormalAccessCheck_iff (pass : Pass) (restricted : Bool)
    (exclusive : ∀ j, (access j).Exclusive) (remaining : AccessMask) (dacl : List Ace) :
    (pass.sepNormalAccessCheck restricted remaining dacl access 0).remaining = 0 ↔
      pass.Permits restricted restricted dacl remaining :=
  normalLoop_iff (.uniform _ exclusive remaining) (fun _ _ => effect_inside) dacl

end Pass

variable {field : Field}

def wholePart : Part Access where
  get := id
  congr _ _ same := by rw [map_id, map_id] at same; rw [same]

theorem distributes_untouched {M : Type} {part : Part M}
    (same : ∀ access : Access, part.get (access.update mask field) = part.get access) :
    Distributes part mask field := by
  intro parent children _ _ agrees
  rw [same, agrees]
  refine part.congr _ _ ?_
  rw [map_map]
  exact map_congr_left fun child _ => (same child).symm

theorem distributes_whole (mask : AccessMask) (field : Field) : Distributes wholePart mask field := by
  intro parent children some exclusive agrees
  have both (remaining : Distributes remainingPart mask field)
      (grants : Distributes grantsPart mask field) :
      parent.update mask field = .ofChildren (children.map (.update mask field)) := by
    have grants := grants parent children some exclusive (congrArg grantsPart.get agrees)
    exact Access.mk.injEq .. ▸ ⟨remaining parent children some exclusive
      (congrArg Access.remaining agrees), congrArg Prod.fst grants, congrArg Prod.snd grants⟩
  cases field with
  | updateRemaining => exact both (distributes_remaining mask) (distributes_untouched fun _ => rfl)
  | updateCurrentGranted => exact both (distributes_untouched fun _ => rfl) (distributes_granted mask)
  | updateCurrentDenied => exact both (distributes_untouched fun _ => rfl) (distributes_denied mask)

/-- The inner entries are right and no bit is granted and denied. -/
structure Tidy (list : TypeList) (access : Nat → Access) : Prop where
  whole : ∀ p, AgreesAt wholePart list access p
  exclusive : ∀ j, (access j).Exclusive

theorem Tidy.waiting (tidy : Tidy list access) : Waiting list access :=
  ⟨fun p inner => congrArg Access.remaining (tidy.whole p inner), tidy.exclusive⟩

theorem Tidy.update (tidy : Tidy list access) (start : Nat) (mask : AccessMask) (field : Field) :
    Tidy list (sepAddAccessTypeList list access start mask field) :=
  ⟨sepAddAccessTypeList_agrees (distributes_whole mask field) (fun _ => tidy.waiting.agrees)
    tidy.exclusive tidy.whole, sepAddAccessTypeList_exclusive tidy.exclusive⟩

/-- The masks before a pass; `SeCaptureObjectTypeList` clears the other two. -/
def uniformAccess (remaining : AccessMask) : Nat → Access := fun _ => ⟨remaining, 0, 0⟩

theorem tidy_uniform (list : TypeList) (remaining : AccessMask) :
    Tidy list (uniformAccess remaining) where
  whole := by
    intro p inner
    have some : (list.childrenOf p).map (uniformAccess remaining) ≠ [] := by simpa using inner
    refine (Access.mk.injEq ..).mpr ⟨?_, ?_, ?_⟩ <;> refine mask_ext fun k => ?_
    · refine Iff.trans ?_ ofChildren_remaining.symm
      simp [uniformAccess, exists_mem_of_ne_nil _ inner]
    · refine .trans ?_ (ofChildren_currentGranted some).symm
      simp [uniformAccess, exists_mem_of_ne_nil _ inner]
    · refine .trans ?_ ofChildren_currentDenied.symm
      simp [uniformAccess]
  exclusive := fun _ _ _ => BitVec.getLsbD_zero

/-- The updates of a normal pass: a mask is taken off at an entry. -/
def removals (list : TypeList) (access : Nat → Access) (updates : List (Nat × AccessMask)) :
    Nat → Access :=
  updates.foldl (fun access update =>
    sepAddAccessTypeList list access update.1 update.2 .updateRemaining) access

theorem removals_leaf (tidy : Tidy list access) (updates : List (Nat × AccessMask)) {j k : Nat}
    (leaf : list.Leaf j) :
    Tidy list (removals list access updates) ∧
      ((removals list access updates j).remaining.getLsbD k ↔ (access j).remaining.getLsbD k ∧
          ∀ update ∈ updates, list.Covers update.1 j → update.2.getLsbD k = false) := by
  induction updates generalizing access with
  | nil => exact ⟨tidy, by simp [removals]⟩
  | cons update updates ih =>
    obtain ⟨kept, bits⟩ := ih (tidy.update update.1 update.2 .updateRemaining)
    refine ⟨kept, bits.trans ?_⟩
    rw [tidy.waiting.remove_leaf ⟨update.1, true, update.2⟩ leaf]
    simp [Effect.hits, and_assoc]

theorem maximumEffects_tidy (tidy : Tidy list access) (effects : List Effect) :
    Tidy list (effects.foldl (Pass.maximumEffect list) access) := by
  induction effects generalizing access with
  | nil => exact tidy
  | cons effect effects ih => exact ih (tidy.update _ _ _)

/-- **The bookkeeping is exact.**  For every captured list and every sequence of updates of one
kind after a uniform start: at a leaf a bit remains exactly if no update at the leaf or above it
removed it, it is granted or denied exactly if the first update there that names it grants or
denies it, and every inner entry has the masks its children give. -/
theorem typeList_exact (list : TypeList) (remaining : AccessMask) :
    (∀ updates : List (Nat × AccessMask),
      let access := removals list (uniformAccess remaining) updates
      (∀ j, list.Leaf j → ∀ k, (access j).remaining.getLsbD k ↔ remaining.getLsbD k ∧
          ∀ update ∈ updates, list.Covers update.1 j → update.2.getLsbD k = false) ∧
      ∀ p, list.childrenOf p ≠ [] → access p = Access.ofChildren ((list.childrenOf p).map access)) ∧
    (∀ effects : List Effect,
      let access := effects.foldl (Pass.maximumEffect list) (uniformAccess remaining)
      (∀ j, list.Leaf j → ∀ k, ((access j).currentGranted.getLsbD k ↔
          ∃ effect, effects.find? (Effect.hits list j k) = some effect ∧ effect.allow) ∧
        ((access j).currentDenied.getLsbD k ↔
          ∃ effect, effects.find? (Effect.hits list j k) = some effect ∧ effect.allow = false)) ∧
      ∀ p, list.childrenOf p ≠ [] →
        access p = Access.ofChildren ((list.childrenOf p).map access)) := by
  have start := tidy_uniform list remaining
  refine ⟨fun updates => ⟨fun j leaf k => (removals_leaf start updates leaf).2, ?_⟩,
    fun effects => ⟨fun j leaf k => ⟨?_, ?_⟩, (maximumEffects_tidy start effects).whole⟩⟩
  · obtain ⟨j, leaf, -⟩ := exists_leaf list.length_pos
    exact (removals_leaf (k := 0) start updates leaf).1.whole
  · exact (maximumEffects_decided leaf true).trans (by simp [uniformAccess, Access.decided])
  · exact (maximumEffects_decided leaf false).trans (by simp [uniformAccess, Access.decided])

end Ntoskrnl.Se.AccessCheck
