/-
# Ntoskrnl.Se.AccessCheck.Update -- what an update does to the tree

`SepAddAccessTypeList` changes an entry, recomputes the parents, and only then changes the
entries below.  Both steps have an early exit.  Whatever part of the masks the parents had
in agreement with their children before, they have afterwards, and every entry that is not
a parent of the target is changed exactly if the target covers it.  So the leaves can be
followed one by one, and the inner entries read off them.
-/
import Ntoskrnl.Se.AccessCheck.Tree

namespace Ntoskrnl.Se.AccessCheck

set_option autoImplicit false

open TypeList List
open Function (update update_eq_self update_of_ne update_self)

/-! ## Masks bit by bit -/

variable {start mask : AccessMask} {f : Access → AccessMask} {k : Nat}

section Bits

variable {access : Access} {b a : AccessMask}

theorem andNot_bit : (a &&& ~~~b).getLsbD k ↔ a.getLsbD k ∧ b.getLsbD k = false := by
  simp only [BitVec.getLsbD_and, BitVec.getLsbD_not, Bool.and_eq_true, decide_eq_true_eq,
    Bool.not_eq_true']
  exact ⟨fun ⟨old, _, new⟩ => ⟨old, new⟩, fun ⟨old, new⟩ => ⟨old, BitVec.lt_of_getLsbD old, new⟩⟩

theorem update_remaining_bit : (access.update mask .updateRemaining).remaining.getLsbD k ↔
    access.remaining.getLsbD k ∧ mask.getLsbD k = false :=
  andNot_bit

theorem update_granted_bit : (access.update mask .updateCurrentGranted).currentGranted.getLsbD k ↔
      access.currentGranted.getLsbD k ∨
        (mask.getLsbD k ∧ access.currentDenied.getLsbD k = false) := by
  rw [Access.update, BitVec.getLsbD_or, Bool.or_eq_true, andNot_bit]

theorem update_denied_bit : (access.update mask .updateCurrentDenied).currentDenied.getLsbD k ↔
      access.currentDenied.getLsbD k ∨
        (mask.getLsbD k ∧ access.currentGranted.getLsbD k = false) := by
  rw [Access.update, BitVec.getLsbD_or, Bool.or_eq_true, andNot_bit]

theorem mask_ext (same : ∀ k, a.getLsbD k ↔ b.getLsbD k) : a = b :=
  BitVec.eq_of_getLsbD_eq fun k _ => Bool.eq_iff_iff.mpr (same k)

variable {children : List Access}

theorem foldl_or_bit : (children.foldl (fun mask child => mask ||| f child) start).getLsbD k ↔
      start.getLsbD k ∨ ∃ child ∈ children, (f child).getLsbD k := by
  induction children generalizing start with
  | nil => simp
  | cons child children ih =>
    rw [foldl_cons, ih, BitVec.getLsbD_or, Bool.or_eq_true, exists_mem_cons_iff, or_assoc]

theorem foldl_and_bit : (children.foldl (fun mask child => mask &&& f child) start).getLsbD k ↔
      start.getLsbD k ∧ ∀ child ∈ children, (f child).getLsbD k := by
  induction children generalizing start with
  | nil => simp
  | cons child children ih =>
    rw [foldl_cons, ih, BitVec.getLsbD_and, Bool.and_eq_true, forall_mem_cons, and_assoc]

theorem ofChildren_remaining : (Access.ofChildren children).remaining.getLsbD k ↔
    ∃ child ∈ children, child.remaining.getLsbD k := by
  rw [Access.ofChildren, foldl_or_bit]
  simp

theorem ofChildren_currentDenied : (Access.ofChildren children).currentDenied.getLsbD k ↔
    ∃ child ∈ children, child.currentDenied.getLsbD k := by
  rw [Access.ofChildren, foldl_or_bit]
  simp

theorem allOnes_bit : (0xFFFFFFFF : AccessMask).getLsbD k ↔ k < 32 := by
  have same : (0xFFFFFFFF : AccessMask) = BitVec.allOnes 32 := by decide
  rw [same, BitVec.getLsbD_allOnes, decide_eq_true_eq]

theorem ofChildren_currentGranted (some : children ≠ []) :
    (Access.ofChildren children).currentGranted.getLsbD k ↔
      ∀ child ∈ children, child.currentGranted.getLsbD k := by
  rw [Access.ofChildren, foldl_and_bit, allOnes_bit]
  refine ⟨And.right, fun all => ⟨?_, all⟩⟩
  obtain ⟨child, member⟩ := exists_mem_of_ne_nil children some
  exact BitVec.lt_of_getLsbD (all child member)

/-- No bit of the entry is both granted and denied. -/
def Access.Exclusive (access : Access) : Prop :=
  ∀ k, access.currentGranted.getLsbD k → access.currentDenied.getLsbD k = false

theorem Access.Exclusive.update {access : Access} (exclusive : access.Exclusive)
    (mask : AccessMask) (field : Field) : (access.update mask field).Exclusive := by
  intro k granted
  have before := exclusive k
  cases field with
  | updateRemaining => exact before granted
  | updateCurrentGranted =>
    rcases update_granted_bit.mp granted with old | new
    · exact before old
    · exact new.2
  | updateCurrentDenied =>
    have granted : access.currentGranted.getLsbD k := granted
    rw [← Bool.not_eq_true, update_denied_bit, before granted, granted]
    simp

theorem Access.Exclusive.ofChildren (some : children ≠ [])
    (exclusive : ∀ child ∈ children, child.Exclusive) :
    (Access.ofChildren children).Exclusive := by
  intro k granted
  rw [Bool.eq_false_iff]
  intro denied
  obtain ⟨child, member, bit⟩ := ofChildren_currentDenied.mp denied
  have granted := (ofChildren_currentGranted some).mp granted child member
  rw [exclusive child member k granted] at bit
  cases bit

end Bits

/-! ## Agreement of the parents with their children -/

/-- A part of the masks of an entry that a parent computes from the same part of its
children. -/
structure Part (M : Type) where
  get : Access → M
  congr : ∀ children children' : List Access, children.map get = children'.map get →
    get (Access.ofChildren children) = get (Access.ofChildren children')

theorem foldl_congr_map {op : AccessMask → AccessMask → AccessMask}
    {children children' : List Access} (same : children.map f = children'.map f) :
    children.foldl (fun mask child => op mask (f child)) start =
      children'.foldl (fun mask child => op mask (f child)) start := by
  rw [← foldl_map (f := f) (g := op), ← foldl_map (f := f) (g := op), same]

def remainingPart : Part AccessMask where
  get := Access.remaining
  congr _ _ same := foldl_congr_map same

def grantsPart : Part (AccessMask × AccessMask) where
  get access := (access.currentGranted, access.currentDenied)
  congr children children' same := by
    have granted := congrArg (map Prod.fst) same
    have denied := congrArg (map Prod.snd) same
    simp only [map_map] at granted denied
    exact Prod.ext (foldl_congr_map granted) (foldl_congr_map denied)

variable {P : Nat → Access → Prop} {M : Type}

section Agreement

variable (part : Part M) (list : TypeList)

/-- The parent `p` has what it would compute from its children. -/
def AgreesAt (access : Nat → Access) (p : Nat) : Prop :=
  list.childrenOf p ≠ [] →
    part.get (access p) = part.get (Access.ofChildren ((list.childrenOf p).map access))

variable {part list} {access access' : Nat → Access} {p i : Nat}

theorem AgreesAt.congr (agrees : AgreesAt part list access p)
    (here : part.get (access' p) = part.get (access p))
    (children : ∀ c ∈ list.childrenOf p, part.get (access' c) = part.get (access c)) :
    AgreesAt part list access' p := by
  intro inner
  rw [here, agrees inner]
  refine part.congr _ _ ?_
  rw [map_map, map_map]
  exact map_congr_left fun c child => (children c child).symm

/-! ## Recomputing the parents -/

theorem update_agreesAt (found : list.parentIndex i = some p) : AgreesAt part list (update access p
      (Access.ofChildren ((list.children p (list.level i)).map access))) p := by
  intro inner
  rw [update_self, children_of_parentIndex found]
  refine part.congr _ _ (congrArg _ ?_)
  refine map_congr_left fun c child => ?_
  rw [update_of_ne (lt_of_child child).ne']

/-- Recomputing the parents of `i` leaves every entry alone that is not above `i`. -/
theorem sepUpdateParentTypeList_apart (access : Nat → Access) {j : Nat} (apart : i ∉ list.below j) :
    sepUpdateParentTypeList list access i j = access j := by
  fun_induction sepUpdateParentTypeList list access i with
  | case1 access i root => rfl
  | case2 access i parent found new same => rfl
  | case3 access i parent found new changed ih =>
    have below := below_of_child (child_of_parentIndex found)
    rw [ih fun above => apart (mem_below_trans above below)]
    refine update_of_ne ?_ _ _
    rintro rfl
    exact apart below

/-- If only the parent of `i` may disagree with its children, recomputing the parents
brings everything back into agreement. -/
theorem sepUpdateParentTypeList_agrees (access : Nat → Access)
    (others : list.parentIndex i ≠ some p → AgreesAt part list access p) :
    AgreesAt part list (sepUpdateParentTypeList list access i) p := by
  fun_induction sepUpdateParentTypeList list access i with
  | case1 access i root => exact others (by simp [root])
  | case2 access i parent found new same =>
    by_cases here : parent = p
    · subst here
      intro inner
      rw [← same, ← children_of_parentIndex found]
    · exact others (by simp [found, here])
  | case3 access i parent found new changed ih =>
    refine ih fun above => ?_
    by_cases here : parent = p
    · subst here
      exact update_agreesAt found
    · refine (others (by simp [found, here])).congr ?_ fun c child => ?_
      · rw [update_of_ne (Ne.symm here)]
      · rw [update_of_ne]
        rintro rfl
        exact above (parentIndex_of_child child)

/-- What every entry has, a parent computed from its children included, they all have after the
parents are recomputed. -/
theorem sepUpdateParentTypeList_forall
    (computed : ∀ parent (access : Nat → Access), i ∈ list.below parent →
      list.childrenOf parent ≠ [] → (∀ j, P j (access j)) →
      P parent (Access.ofChildren ((list.childrenOf parent).map access)))
    (all : ∀ j, P j (access j)) (j : Nat) : P j (sepUpdateParentTypeList list access i j) := by
  fun_induction sepUpdateParentTypeList list access i with
  | case1 access i root => exact all j
  | case2 access i parent found new same => exact all j
  | case3 access i parent found new changed ih =>
    have child := child_of_parentIndex found
    have below := below_of_child child
    refine ih (fun p access above => computed p access (mem_below_trans above below)) fun j => ?_
    by_cases here : j = parent
    · subst here
      rw [update_self]
      simp only [new]
      rw [children_of_parentIndex found]
      exact computed j access below (ne_nil_of_mem child) all
    · rw [update_of_ne here]
      exact all j

end Agreement

/-! ## The update as a whole -/

theorem foldl_update_apply {f : Access → Access} {targets : List Nat} (nodup : targets.Nodup)
    (access : Nat → Access) (j : Nat) :
    targets.foldl (fun access j => update access j (f (access j))) access j =
      if j ∈ targets then f (access j) else access j := by
  induction targets generalizing access with
  | nil => simp
  | cons target targets ih =>
    obtain ⟨fresh, nodup⟩ := nodup_cons.mp nodup
    rw [foldl_cons, ih nodup]
    by_cases here : j = target
    · subst here
      simp [fresh]
    · simp [here]

section Add

variable {list : TypeList} {access : Nat → Access} {start j p : Nat} {field : Field}

/-- Where the parents' remaining masks are those of the entries below, the early exit for
an unchanged target loses nothing. -/
theorem remaining_of_below (agrees : ∀ p, AgreesAt remainingPart list access p) {p : Nat}
    (covers : list.Covers p j) (bit : (access j).remaining.getLsbD k) :
    (access p).remaining.getLsbD k := by
  rcases covers with rfl | inside
  · exact bit
  · obtain ⟨c, child, covers⟩ := exists_child inside
    have less := lt_of_child child
    have upTo := covers.le
    have here := remaining_of_below agrees covers bit
    have same := agrees p (ne_nil_of_mem child)
    simp only [remainingPart] at same
    rw [same, ofChildren_remaining]
    exact ⟨access c, mem_map_of_mem child, here⟩
termination_by j - p

/-- The update leaves the entries alone that are neither covered by the target nor above it. -/
theorem sepAddAccessTypeList_apart (outside : ¬ list.Covers start j) (apart : start ∉ list.below j) :
    sepAddAccessTypeList list access start mask field j = access j := by
  have other : j ≠ start := fun same => outside (.inl same)
  have started (value : Access) : update access start value j = access j :=
    update_of_ne other _ _
  unfold sepAddAccessTypeList
  split
  · exact started _
  · rw [foldl_update_apply below_nodup, if_neg fun inside => outside (.inr inside)]
    split
    · exact started _
    · rw [sepUpdateParentTypeList_apart _ apart]
      exact started _

theorem not_below_of_covers (covers : list.Covers start j) : start ∉ list.below j := by
  intro above
  have := covers.le
  have := lt_of_mem_below above
  omega

/-- The update changes the target and everything below it. -/
theorem sepAddAccessTypeList_covered
    (quiet : field = .updateRemaining → ∀ p, AgreesAt remainingPart list access p)
    (covers : list.Covers start j) :
    sepAddAccessTypeList list access start mask field j = (access j).update mask field := by
  unfold sepAddAccessTypeList
  split
  next unchanged =>
    obtain ⟨rfl, unchanged⟩ := unchanged
    rw [update_self] at unchanged
    rcases covers with rfl | inside
    · rw [update_self]
    · rw [update_of_ne (lt_of_mem_below inside).ne']
      -- A bit of the mask that remained at `j` would remain at the target.
      have none (k : Nat) (bit : (access j).remaining.getLsbD k) : mask.getLsbD k = false := by
        have above := remaining_of_below (quiet rfl) (.inr inside) bit
        rw [← unchanged] at above
        exact (update_remaining_bit.mp above).2
      have same : (access j).remaining &&& ~~~mask = (access j).remaining := by
        refine mask_ext fun k => ?_
        rw [andNot_bit]
        exact and_iff_left_of_imp (none k)
      rw [Access.update, same]
  next =>
    have raised (value : Access) : (if update access start value start = access start
        then update access start value
        else sepUpdateParentTypeList list (update access start value) start) j =
          update access start value j := by
      split
      · rfl
      · exact sepUpdateParentTypeList_apart _ (not_below_of_covers covers)
    rw [foldl_update_apply below_nodup, raised]
    rcases covers with rfl | inside
    · rw [if_neg fun above => (lt_of_mem_below above).ne rfl, update_self]
    · rw [if_pos inside, update_of_ne (lt_of_mem_below inside).ne']

/-- A part of the masks for which the update of a parent is what it computes from the
updated children. -/
def Distributes {M : Type} (part : Part M) (mask : AccessMask) (field : Field) : Prop :=
  ∀ (parent : Access) (children : List Access), children ≠ [] →
    (∀ child ∈ children, child.Exclusive) →
    part.get parent = part.get (Access.ofChildren children) →
    part.get (parent.update mask field) =
      part.get (Access.ofChildren (children.map (Access.update mask field)))

/-- The update keeps the agreement of the parents with their children. -/
theorem sepAddAccessTypeList_agrees {part : Part M} (distributes : Distributes part mask field)
    (quiet : field = .updateRemaining → ∀ p, AgreesAt remainingPart list access p)
    (exclusive : ∀ j, (access j).Exclusive) (agrees : ∀ p, AgreesAt part list access p) (p : Nat) :
    AgreesAt part list (sepAddAccessTypeList list access start mask field) p := by
  by_cases covered : list.Covers start p
  · -- The parent and its children are all updated.
    intro inner
    have children : (list.childrenOf p).map (sepAddAccessTypeList list access start mask field) =
        ((list.childrenOf p).map access).map (.update mask field) := by
      rw [map_map]
      refine map_congr_left fun c child => ?_
      exact sepAddAccessTypeList_covered quiet (covered.trans (.inr (below_of_child child)))
    rw [sepAddAccessTypeList_covered quiet covered, children]
    refine distributes _ _ (by simpa using inner) ?_ (agrees p inner)
    intro child member
    obtain ⟨c, -, rfl⟩ := mem_map.mp member
    exact exclusive c
  · have child_outside {c : Nat} (child : c ∈ list.childrenOf p) : c ∉ list.below start :=
      fun inside => covered (covers_of_child child inside)
    unfold sepAddAccessTypeList
    simp only
    split
    next unchanged =>
      rw [update_self] at unchanged
      rw [unchanged.2, update_eq_self]
      exact agrees p
    next =>
      have raised : AgreesAt part list
          (if update access start ((access start).update mask field) start = access start
          then update access start ((access start).update mask field)
          else sepUpdateParentTypeList list
            (update access start ((access start).update mask field)) start) p := by
        split
        next unchanged =>
          rw [update_self] at unchanged
          rw [unchanged, update_eq_self]
          exact agrees p
        next =>
          refine sepUpdateParentTypeList_agrees _ fun notParent => ?_
          refine (agrees p).congr ?_ fun c child => ?_
          · rw [update_of_ne fun same => covered (.inl same)]
          · rw [update_of_ne]
            rintro rfl
            exact notParent (parentIndex_of_child child)
      refine raised.congr ?_ fun c child => ?_
      · rw [foldl_update_apply below_nodup, if_neg fun inside => covered (.inr inside)]
      · rw [foldl_update_apply below_nodup, if_neg (child_outside child)]

/-- What every entry has, an updated one and a parent computed from its children included, they
all have after the update. -/
theorem sepAddAccessTypeList_forall
    (updated : ∀ j access, P j access → P j (access.update mask field))
    (computed : ∀ parent (access : Nat → Access), start ∈ list.below parent →
      list.childrenOf parent ≠ [] → (∀ j, P j (access j)) →
      P parent (Access.ofChildren ((list.childrenOf parent).map access)))
    (all : ∀ j, P j (access j)) (j : Nat) :
    P j (sepAddAccessTypeList list access start mask field j) := by
  have started (j : Nat) : P j (update access start ((access start).update mask field) j) := by
    by_cases here : j = start
    · rw [here, update_self]
      exact updated start _ (all start)
    · rw [update_of_ne here]
      exact all j
  have raised := sepUpdateParentTypeList_forall computed started j
  unfold sepAddAccessTypeList
  split
  · exact started j
  · rw [foldl_update_apply below_nodup]
    split
    · refine updated j _ ?_
      split
      · exact started j
      · exact raised
    · split
      · exact started j
      · exact raised

theorem sepAddAccessTypeList_exclusive (exclusive : ∀ j, (access j).Exclusive) (j : Nat) :
    (sepAddAccessTypeList list access start mask field j).Exclusive := by
  refine sepAddAccessTypeList_forall (P := fun _ => Access.Exclusive)
    (fun _ _ exclusive => exclusive.update mask field) (fun parent access _ inner exclusive => ?_)
    exclusive j
  exact .ofChildren (by simpa using inner) (forall_mem_map.mpr fun c _ => exclusive c)

/-! ## Which updates keep which part -/

theorem distributes_remaining (mask : AccessMask) :
    Distributes remainingPart mask .updateRemaining := by
  intro parent children some exclusive agrees
  simp only [remainingPart] at agrees ⊢
  refine mask_ext fun k => ?_
  rw [update_remaining_bit, agrees, ofChildren_remaining, ofChildren_remaining]
  simp only [mem_map, exists_exists_and_eq_and, update_remaining_bit]
  constructor
  · rintro ⟨⟨child, member, bit⟩, free⟩
    exact ⟨child, member, bit, free⟩
  · rintro ⟨child, member, bit, free⟩
    exact ⟨⟨child, member, bit⟩, free⟩

theorem distributes_granted (mask : AccessMask) :
    Distributes grantsPart mask .updateCurrentGranted := by
  intro parent children some exclusive agrees
  simp only [grantsPart, Prod.mk.injEq] at agrees ⊢
  obtain ⟨granted, denied⟩ := agrees
  refine ⟨mask_ext fun k => ?_, denied.trans (foldl_congr_map ?_)⟩
  · rw [update_granted_bit, granted, ofChildren_currentGranted some, denied,
      ofChildren_currentGranted (by simpa using some)]
    simp only [forall_mem_map, update_granted_bit, ← Bool.not_eq_true,
      ofChildren_currentDenied, not_exists, not_and]
    constructor
    · rintro (all | ⟨bit, free⟩) child member
      · exact .inl (all child member)
      · exact .inr ⟨bit, free child member⟩
    · intro all
      by_cases bit : mask.getLsbD k
      · refine .inr ⟨bit, fun child member bad => ?_⟩
        rcases all child member with good | free
        · rw [exclusive child member k good] at bad
          cases bad
        · exact free.2 bad
      · exact .inl fun child member => (all child member).resolve_right fun both => bit both.1
  · rw [map_map]
    rfl

theorem distributes_denied (mask : AccessMask) :
    Distributes grantsPart mask .updateCurrentDenied := by
  intro parent children some exclusive agrees
  simp only [grantsPart, Prod.mk.injEq] at agrees ⊢
  obtain ⟨granted, denied⟩ := agrees
  refine ⟨granted.trans (foldl_congr_map ?_), mask_ext fun k => ?_⟩
  · rw [map_map]
    rfl
  · rw [update_denied_bit, granted, denied, ofChildren_currentDenied, ofChildren_currentDenied]
    simp only [mem_map, exists_exists_and_eq_and, update_denied_bit, ← Bool.not_eq_true,
      ofChildren_currentGranted some, not_forall]
    constructor
    · rintro (⟨child, member, bit⟩ | ⟨bit, child, member, free⟩)
      · exact ⟨child, member, .inl bit⟩
      · exact ⟨child, member, .inr ⟨bit, free⟩⟩
    · rintro ⟨child, member, bit | ⟨bit, free⟩⟩
      · exact .inl ⟨child, member, bit⟩
      · exact .inr ⟨bit, child, member, free⟩

/-! ## Reading the inner entries off the leaves -/

/-- What holds at a parent exactly if it holds at a child holds exactly if it holds at a leaf. -/
theorem any_iff_leaves {P : Nat → Prop} (inside : p < list.length)
    (parents : ∀ p, list.childrenOf p ≠ [] → (P p ↔ ∃ c ∈ list.childrenOf p, P c)) :
    P p ↔ ∃ j, list.Leaf j ∧ list.Covers p j ∧ P j := by
  refine leaf_induction (motive := fun p => P p ↔ ∃ j, list.Leaf j ∧ list.Covers p j ∧ P j) ?_ ?_
    inside
  · intro p leaf
    constructor
    · exact fun holds => ⟨p, leaf, covers_refl, holds⟩
    · rintro ⟨j, -, rfl | inside, holds⟩
      · exact holds
      · exact absurd inside leaf.not_above
  · intro p inner ih
    rw [parents p inner]
    constructor
    · rintro ⟨c, child, holds⟩
      obtain ⟨j, leaf, covers, holds⟩ := (ih c child).mp holds
      exact ⟨j, leaf, (covers_leaf_iff inner leaf).mpr ⟨c, child, covers⟩, holds⟩
    · rintro ⟨j, leaf, covers, holds⟩
      obtain ⟨c, child, covers⟩ := (covers_leaf_iff inner leaf).mp covers
      exact ⟨c, child, (ih c child).mpr ⟨j, leaf, covers, holds⟩⟩

/-- A bit remains at an entry exactly if it remains at some leaf under it. -/
theorem remaining_iff_leaves (agrees : ∀ p, AgreesAt remainingPart list access p)
    (inside : p < list.length) : (access p).remaining.getLsbD k ↔
      ∃ j, list.Leaf j ∧ list.Covers p j ∧ (access j).remaining.getLsbD k := by
  refine any_iff_leaves (P := fun p => (access p).remaining.getLsbD k) inside fun p inner => ?_
  have same := agrees p inner
  simp only [remainingPart] at same
  rw [same, ofChildren_remaining]
  simp [mem_map, exists_exists_and_eq_and]

end Add

end Ntoskrnl.Se.AccessCheck
