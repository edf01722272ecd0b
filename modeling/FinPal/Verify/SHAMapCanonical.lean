import FinPal.SHAMap.Tree

/-!
# Canonical SHAMaps

The trees that the operations build: every inner node but the root has two items below it, and one
of version 2 stores the depth where their keys part. Such a tree is determined by its items.
-/

namespace FinPal.SHAMap
open Tag Node DigitTree
variable {v : Version} {d d' depth : ℕ} {common id tag : Tag} {p q : InnerNode} {t e root : Node}
  {s : Set SHAMapItem} {children : Fin 16 → Node} {i j item other : SHAMapItem} {type : TNType}
  {stack : Stack}

def digit (i : SHAMapItem) (d : ℕ) : Fin 16 := selectBranch d i.key

def route (id : Tag) (d : ℕ) : Fin 16 := selectBranch d id

theorem digit_eq_route : digit i = route id ↔ i.key = id := by
  constructor
  · intro h
    exact Agree.eq fun d _ => congrFun h d
  · rintro rfl
    rfl

/-- What a node of version 2 at a position stores, with these items below it. -/
structure FitsV2 (d depth : ℕ) (common : Tag) (s : Set SHAMapItem) : Prop where
  le : d ≤ depth
  common_eq : prefixOf depth common = common
  agree : ∀ i ∈ s, Agree depth i.key common
  split : ∃ i ∈ s, ∃ j ∈ s, selectBranch depth i.key ≠ selectBranch depth j.key

/-- What an inner node stores fits the items below it. -/
def Fits : Version → ℕ → InnerNode → Set SHAMapItem → Prop
  | .one, _, p, _ => p = .v1
  | .two, d, p, s => ∃ depth common, p = .v2 depth common ∧ FitsV2 d depth common s

/-- A canonical tree below the root, at a position. -/
abbrev CanonicalAt (v : Version) : ℕ → Node → Prop := Canonical digit InnerNode.depth (Fits v)

abbrev BranchesAt (v : Version) : ℕ → InnerNode → (Fin 16 → Node) → Prop :=
  Branches digit InnerNode.depth (Fits v)

/-- The way of a key down the tree, with the nodes it has passed. -/
abbrev KeyWalk (id : Tag) : ℕ → Node → Stack → Node → ℕ → Prop :=
  Walk InnerNode.depth (route id) fun p => p.hasCommonPrefix id = true

def rootNode : Version → InnerNode
  | .one => .v1
  | .two => .v2 0 (.replicate 32 0)

/-- The root is an inner node of any number of items. -/
def WellFormed (v : Version) (root : Node) : Prop :=
  ∃ children, root = .inner (rootNode v) children ∧ BranchesAt v 0 (rootNode v) children

theorem fitsUnique (v : Version) : FitsUnique (Fits v) := by
  intro d p q s hp hq
  cases v with
  | one => exact hp.trans hq.symm
  | two =>
    obtain ⟨depth, common, rfl, h⟩ := hp
    obtain ⟨depth', common', rfl, h'⟩ := hq
    -- The items part at both depths, and agree above them.
    have hle {depth depth' : ℕ} {common common' : Tag} (h : FitsV2 d depth common s)
        (h' : FitsV2 d depth' common' s) : depth' ≤ depth := by
      by_contra hlt
      obtain ⟨i, hi, j, hj, hne⟩ := h.split
      exact hne (((h'.agree i hi).trans (h'.agree j hj).symm) depth (not_le.1 hlt))
    obtain rfl : depth = depth' := le_antisymm (hle h' h) (hle h h')
    obtain ⟨i, hi, -⟩ := h.split
    rw [← h.common_eq, ← h'.common_eq, prefixOf_congr ((h.agree i hi).symm.trans (h'.agree i hi))]

theorem Fits.put (h : Fits v d p s) (hpa : p.hasCommonPrefix item.key = true) :
    Fits v d p {i | i = item ∨ i ∈ s ∧ digit i ≠ route item.key} := by
  cases v with
  | one => exact h
  | two =>
    obtain ⟨depth, common, rfl, h⟩ := h
    refine ⟨depth, common, rfl, h.le, h.common_eq, ?_, ?_⟩
    · rintro i (rfl | ⟨hi, -⟩)
      · exact (hasCommonPrefix_iff.1 hpa).symm
      · exact h.agree i hi
    -- An item with the key of the new one takes the same branch.
    have hm : ∀ i ∈ s, ∃ i' ∈ {i | i = item ∨ i ∈ s ∧ digit i ≠ route item.key},
        i'.key = i.key := by
      intro i hi
      by_cases hk : i.key = item.key
      · exact ⟨item, .inl rfl, hk.symm⟩
      · exact ⟨i, .inr ⟨hi, fun heq => hk (digit_eq_route.1 heq)⟩, rfl⟩
    obtain ⟨i, hi, j, hj, _⟩ := h.split
    obtain ⟨i', hi', hke⟩ := hm i hi
    obtain ⟨j', hj', hkeyj⟩ := hm j hj
    exact ⟨i', hi', j', hj', by rwa [hke, hkeyj]⟩

theorem CanonicalAt.reposition (h : CanonicalAt .two d t)
    (hle : ∀ depth common children, t = .inner (.v2 depth common) children → d' ≤ depth) :
    CanonicalAt .two d' t := by
  cases h with
  | null => exact .null
  | leaf i l => exact .leaf i l
  | inner fits two branch below =>
    obtain ⟨depth, common, rfl, h⟩ := fits
    exact .inner ⟨depth, common, rfl, hle _ _ _ rfl, h.common_eq, h.agree, h.split⟩ two branch below

theorem CanonicalAt.mono (h : CanonicalAt .two d t) (hle : d' ≤ d) : CanonicalAt .two d' t := by
  refine h.reposition ?_
  rintro _ _ _ rfl
  obtain ⟨⟨_, _, heq, h⟩, -⟩ := canonical_inner.1 h
  cases heq
  exact hle.trans h.le

/-! ### The way down -/

/-- What `walkTowardsKey` leaves on the stack where a walk ends. -/
def landing (isv2 : Bool) : Node → ℕ → Stack → Stack
  | .null, _, stack => stack
  | .leaf item type, d, stack => (.leaf item type, if isv2 then 64 else d) :: stack
  | .inner n children, d, stack => (.inner n children, n.depth d) :: stack

theorem walkTowardsKey_eq (isv2 : Bool) (id : Tag) (t : Node) (d : ℕ) (stack0 : Stack) :
    ∃ stack e d', KeyWalk id d t stack e d' ∧
      walkTowardsKey isv2 id t d stack0 = landing isv2 e d' (stack ++ stack0) := by
  induction t generalizing d stack0 with
  | null => exact ⟨[], .null, d, .absent, rfl⟩
  | leaf item type => exact ⟨[], .leaf item type, d, .found _ _, rfl⟩
  | inner n children ih =>
    by_cases hp : n.hasCommonPrefix id = true
    · obtain ⟨stack, e, d', hw, heq⟩ := ih (selectBranch (n.depth d) id) (n.depth d + 1)
        ((.inner n children, n.depth d) :: stack0)
      refine ⟨_, e, d', .down hp hw, ?_⟩
      rw [List.append_assoc]
      simpa [walkTowardsKey, hp] using heq
    · refine ⟨[], .inner n children, d, .blocked _ hp, ?_⟩
      simp [walkTowardsKey, hp, landing]

theorem rootNode_hasCommonPrefix (v : Version) (id : Tag) :
    (rootNode v).hasCommonPrefix id = true := by
  cases v with
  | one => rfl
  | two => exact hasCommonPrefix_iff.2 fun d hd => absurd hd (Nat.not_lt_zero d)

theorem rootNode_depth (v : Version) : (rootNode v).depth 0 = 0 := by
  cases v <;> rfl

theorem below_root (h : BranchesAt v 0 (rootNode v) children) (b : Fin 16) :
    CanonicalAt v 1 (children b) := by
  have hb := h.below b
  rwa [rootNode_depth] at hb

theorem mem_below_root (h : BranchesAt v 0 (rootNode v) children) {b : Fin 16} :
    i ∈ children b ↔ i ∈ inner (rootNode v) children ∧ digit i 0 = b := by
  rw [h.mem_child, rootNode_depth]

theorem KeyWalk.agree (h : KeyWalk id d t stack e d') (hc : CanonicalAt v d t)
    (hd : ∀ i ∈ t, Agree d i.key id) : ∀ i ∈ e, Agree d' i.key id := by
  induction h with
  | absent | found | blocked => exact hd
  | @down d _ p _ _ _ hp _ ih =>
    obtain ⟨fits, -, hb⟩ := canonical_inner.1 hc
    refine ih (hb.below _) fun i hi => agree_succ.2 ⟨?_, hb.branch _ i hi⟩
    cases v with
    | one =>
      obtain rfl : p = .v1 := fits
      exact hd i ⟨_, hi⟩
    | two =>
      obtain ⟨_, _, rfl, hf⟩ := fits
      exact (hf.agree i ⟨_, hi⟩).trans (hasCommonPrefix_iff.1 hp)

theorem key_ne_of_not_pass (h : CanonicalAt v d (.inner p children))
    (hp : ¬ p.hasCommonPrefix id = true) (hi : i ∈ inner p children) : i.key ≠ id := by
  rintro rfl
  obtain ⟨fits, -⟩ := canonical_inner.1 h
  cases v with
  | one =>
    obtain rfl : p = .v1 := fits
    exact hp rfl
  | two =>
    obtain ⟨_, _, rfl, hf⟩ := fits
    exact hp (hasCommonPrefix_iff.2 (hf.agree i hi).symm)

theorem WellFormed.walk (h : WellFormed v root) (id : Tag) :
    ∃ children stack e d', root = .inner (rootNode v) children ∧
      BranchesAt v 0 (rootNode v) children ∧ KeyWalk id 1 (children (route id 0)) stack e d' ∧
      walkTowardsKey root.isV2 id root 0 [] = landing root.isV2 e d' (stack ++ [(root, 0)]) := by
  obtain ⟨children, rfl, hb⟩ := h
  obtain ⟨stack, e, d', hw, heq⟩ := walkTowardsKey_eq (isV2 (.inner (rootNode v) children)) id
    (children (route id 0)) 1 [(.inner (rootNode v) children, 0)]
  refine ⟨children, stack, e, d', rfl, hb, hw, ?_⟩
  rw [← heq]
  simp [walkTowardsKey, rootNode_hasCommonPrefix, rootNode_depth, route]

theorem WellFormed.isV2_eq (h : WellFormed v root) : root.isV2 = decide (v = .two) := by
  obtain ⟨-, rfl, -⟩ := h
  cases v <;> rfl

theorem KeyWalk.exists_top (h : KeyWalk id d t stack e d') (v : Version)
    (children : Fin 16 → Node) :
    ∃ n children' depth rest, stack ++ [(.inner (rootNode v) children, 0)] =
      (.inner n children', depth) :: rest ∧ n.hasCommonPrefix id = true := by
  cases stack with
  | nil => exact ⟨_, _, _, _, rfl, rootNode_hasCommonPrefix v id⟩
  | cons x rest =>
    obtain ⟨n, children', hx, hp⟩ := h.passed (List.mem_cons_self)
    obtain ⟨node, depth⟩ := x
    obtain rfl : node = .inner n children' := hx
    exact ⟨n, children', depth, _, rfl, hp⟩

theorem findKey_eq_some (h : WellFormed v root) :
    findKey root id = some i ↔ i ∈ root ∧ i.key = id := by
  obtain ⟨children, _, e, _, rfl, hb, hw, heq⟩ := h.walk id
  have hc := hw.canonical_end (below_root hb _)
  have he (hi : i ∈ inner (rootNode v) children) (hk : i.key = id) : i ∈ e := by
    have hro := digit_eq_route.2 hk
    exact hw.mem_end (below_root hb _) hro ((mem_below_root hb).2 ⟨hi, by rw [hro]⟩)
  unfold findKey
  rw [heq]
  cases e with
  | null =>
    obtain ⟨n, children', _, _, ht, -⟩ := hw.exists_top v children
    rw [ht]
    constructor
    · intro h
      cases h
    · rintro ⟨hi, hk⟩
      exact absurd (he hi hk) notMem_null
  | leaf item _ =>
    have hm : item ∈ inner (rootNode v) children := ⟨_, hw.mem rfl⟩
    simp only [landing]
    constructor
    · intro h
      split_ifs at h with hk
      cases h
      exact ⟨hm, hk⟩
    rintro ⟨hi, hk⟩
    obtain rfl : i = item := he hi hk
    rw [if_pos hk]
  | inner n children' =>
    constructor
    · intro h
      cases h
    · rintro ⟨hi, hk⟩
      exact absurd hk (key_ne_of_not_pass hc hw.not_pass (he hi hk))

theorem mem_iff_findKey (h : WellFormed v root) : i ∈ root ↔ findKey root i.key = some i := by
  rw [findKey_eq_some h]
  exact (and_iff_left rfl).symm

/-! ### Putting an item at the end of the way -/

theorem dirtyUp_eq (target : Tag) (stack : Stack) (child : Node) :
    dirtyUp target stack child = plug (route target) (fun node => node) stack child := by
  induction stack generalizing child with
  | nil => rfl
  | cons x stack ih => exact ih _

theorem put_root {e' : Node} (hb : BranchesAt v 0 (rootNode v) children)
    (hw : KeyWalk item.key 1 (children (route item.key 0)) stack e d') (he : CanonicalAt v d' e')
    (hm : ∀ i, i ∈ e' ↔ i = item ∨ i ∈ e ∧ i.key ≠ item.key) :
    let root' := dirtyUp item.key (stack ++ [(.inner (rootNode v) children, 0)]) e'
    WellFormed v root' ∧
      ∀ i, i ∈ root' ↔ i = item ∨ i ∈ inner (rootNode v) children ∧ i.key ≠ item.key := by
  simp only [← digit_eq_route.not] at hm ⊢
  have hf : ∀ d p s, Fits v d p s → p.hasCommonPrefix item.key = true →
      Fits v d p {i | i = item ∨ i ∈ s ∧ digit i ≠ route item.key} := fun _ _ _ => Fits.put
  obtain ⟨_, hch⟩ := hw.put rfl hf (below_root hb _) he hm
  rw [dirtyUp_eq, plug_append]
  refine ⟨⟨_, rfl, hb.update ?_ (by rwa [rootNode_depth])⟩, fun i => ?_⟩
  · intro i hi
    rw [rootNode_depth]
    obtain rfl | ⟨hi, -⟩ := (hch i).1 hi
    · rfl
    · exact ((mem_below_root hb).1 hi).2
  rw [← rootNode_depth v] at hch
  have hp := hb.mem_update_put hch (i := i)
  rwa [rootNode_depth v] at hp

theorem canonical_pair (hne : selectBranch d item.key ≠ selectBranch d other.key) :
    let node := ((empty .v1).setChild (selectBranch d item.key) (.leaf item type)).setChild
        (selectBranch d other.key) (.leaf other type)
    CanonicalAt .one d node ∧ (∀ i, i ∈ node ↔ i = item ∨ i = other) ∧ node.Labelled type := by
  intro node
  have hm : ∀ i, i ∈ node ↔ i = item ∨ i = other := fun i => mem_pair hne
  have hit : item ≠ other := fun heq => hne (by rw [heq])
  refine ⟨canonical_inner.2 ⟨rfl, ⟨item, (hm _).2 (.inl rfl), other, (hm _).2 (.inr rfl), hit⟩,
    ?_⟩, hm, ?_⟩
  · refine ((Branches.null d InnerNode.v1).update ?_ (.leaf item type)).update ?_ (.leaf other type)
    · rintro i rfl
      rfl
    · rintro i rfl
      rfl
  · exact .update (.update (fun _ => trivial) rfl) rfl

theorem pushShared_spec (type : TNType) (hne : item.key ≠ other.key) (fuel : ℕ) (hfu : 64 ≤ d + fuel)
    (hag : Agree d item.key other.key) (stack : Stack) :
    let r := pushShared item.key other.key fuel d stack
    ∃ e', dirtyUp item.key r.1 (((empty .v1).setChild (selectBranch r.2 item.key)
        (.leaf item type)).setChild (selectBranch r.2 other.key) (.leaf other type)) =
        dirtyUp item.key stack e' ∧
      CanonicalAt .one d e' ∧ (∀ i, i ∈ e' ↔ i = item ∨ i = other) ∧ e'.Labelled type := by
  induction fuel generalizing d stack with
  | zero => exact absurd (hag.mono hfu).eq hne
  | succ fuel ih =>
    intro r
    by_cases hbr : selectBranch d item.key = selectBranch d other.key
    case neg =>
      have hr : r = (stack, d) := if_neg hbr
      rw [hr]
      exact ⟨_, rfl, canonical_pair hbr⟩
    case pos =>
      have hr : r = pushShared item.key other.key fuel (d + 1) ((.empty .v1, d) :: stack) :=
        if_pos hbr
      rw [hr]
      obtain ⟨e', heq, hc, hm, hla⟩ := ih (by omega) (agree_succ.2 ⟨hag, hbr⟩)
        ((.empty .v1, d) :: stack)
      have hm' : ∀ i, i ∈ (empty .v1).setChild (selectBranch d item.key) e' ↔
          i = item ∨ i = other := by
        intro i
        refine mem_update.trans ⟨?_, fun h => .inl ((hm i).2 h)⟩
        rintro (h | ⟨_, _, h⟩)
        · exact (hm i).1 h
        · exact absurd h notMem_null
      refine ⟨_, heq, canonical_inner.2 ⟨rfl, ?_, ?_⟩, hm', .update (fun _ => trivial) hla⟩
      · exact ⟨item, (hm' _).2 (.inl rfl), other, (hm' _).2 (.inr rfl), fun h => hne (by rw [h])⟩
      refine (Branches.null d InnerNode.v1).update (fun i hi => ?_) hc
      obtain rfl | rfl := (hm i).1 hi
      · rfl
      · exact hbr.symm

theorem canonical_pairV2 {t1 t2 : Node} {b1 b2 : Fin 16} (hne : b1 ≠ b2) (hle : d ≤ depth)
    (hco : prefixOf depth common = common) (h1 : CanonicalAt .two (depth + 1) t1)
    (h2 : CanonicalAt .two (depth + 1) t2) (hi : i ∈ t1) (hj : j ∈ t2)
    (hke1 : ∀ i ∈ t1, Agree depth i.key common ∧ selectBranch depth i.key = b1)
    (hke2 : ∀ i ∈ t2, Agree depth i.key common ∧ selectBranch depth i.key = b2) :
    let node := ((empty (.v2 depth common)).setChild b1 t1).setChild b2 t2
    CanonicalAt .two d node ∧ ∀ i, i ∈ node ↔ i ∈ t1 ∨ i ∈ t2 := by
  intro node
  have hm : ∀ i, i ∈ node ↔ i ∈ t1 ∨ i ∈ t2 := fun i => mem_pair hne
  have hsp : selectBranch depth i.key ≠ selectBranch depth j.key := by
    rw [(hke1 i hi).2, (hke2 j hj).2]
    exact hne
  have hi' : i ∈ node := (hm i).2 (.inl hi)
  have hj' : j ∈ node := (hm j).2 (.inr hj)
  refine ⟨canonical_inner.2 ⟨⟨depth, common, rfl, hle, hco, ?_, i, hi', j, hj', hsp⟩,
    ⟨i, hi', j, hj', fun heq => hsp (by rw [heq])⟩, ?_⟩, hm⟩
  · intro i hi
    obtain hi | hi := (hm i).1 hi
    · exact (hke1 i hi).1
    · exact (hke2 i hi).1
  · exact ((Branches.null d (InnerNode.v2 depth common)).update (fun i hi => (hke1 i hi).2)
      h1).update (fun i hi => (hke2 i hi).2) h2

theorem setChildren_spec (otherType type : TNType) (hne : other.key ≠ item.key)
    (hag : Agree d other.key item.key) :
    CanonicalAt .two d (setChildren other otherType item type) ∧
      (∀ i, i ∈ setChildren other otherType item type ↔ i = item ∨ i = other) ∧
      (otherType = type → (setChildren other otherType item type).Labelled type) := by
  obtain ⟨hsh, hpa, hco⟩ := branchPoint_spec hne
  unfold setChildren
  generalize branchPoint other.key item.key = point at hsh hpa hco
  obtain ⟨depth, _⟩ := point
  dsimp only at hsh hpa hco ⊢
  subst hco
  have hle : d ≤ depth := by
    by_contra hlt
    exact hpa (hag depth (not_le.1 hlt))
  have hco0 := (agree_prefixOf depth other.key).symm
  obtain ⟨hc, hm⟩ := canonical_pairV2 hpa hle (prefixOf_prefixOf depth other.key)
    (.leaf other otherType) (.leaf item type) rfl rfl
    (by rintro i rfl; exact ⟨hco0, rfl⟩)
    (by rintro i rfl; exact ⟨hsh.symm.trans hco0, rfl⟩)
  refine ⟨hc, fun i => (hm i).trans or_comm, fun hty => ?_⟩
  exact .update (.update (fun _ => trivial) hty) rfl

theorem splitInner_spec (type : TNType)
    (h : CanonicalAt .two d (.inner (.v2 depth common) children))
    (hp : hasCommonPrefix depth common item.key = false)
    (hag : ∀ i ∈ inner (.v2 depth common) children, Agree d i.key item.key) :
    CanonicalAt .two d (splitInner (.inner (.v2 depth common) children) depth common item type) ∧
      ∀ i, i ∈ splitInner (.inner (.v2 depth common) children) depth common item type ↔
        i = item ∨ i ∈ inner (.v2 depth common) children := by
  obtain ⟨⟨_, _, heq, hfi⟩, ⟨j, hj, -⟩, -⟩ := canonical_inner.1 h
  cases heq
  obtain ⟨hlt, hpa⟩ := getCommonPrefix_spec hp
  have hsh : Agree (getCommonPrefix depth common item.key) common item.key :=
    getCommonPrefix_agree
  unfold splitInner
  generalize getCommonPrefix depth common item.key = r at hlt hpa hsh
  have hle : d ≤ r := by
    by_contra hr
    have hco := hfi.agree j hj r hlt
    exact hpa (hco.symm.trans (hag j hj r (not_le.1 hr)))
  have hco0 := (agree_prefixOf r item.key).symm
  -- The old node stands deeper than the new one.
  have hold : CanonicalAt .two (r + 1) (.inner (.v2 depth common) children) := by
    refine CanonicalAt.reposition h ?_
    rintro _ _ _ ⟨⟩
    exact hlt
  obtain ⟨hc, hm⟩ := canonical_pairV2 hpa hle (prefixOf_prefixOf r item.key) hold
    (.leaf item type) hj rfl
    (fun i hi => ⟨((hfi.agree i hi).mono hlt.le).trans (hsh.trans hco0),
      hfi.agree i hi r hlt⟩)
    (by rintro i rfl; exact ⟨hco0, rfl⟩)
  exact ⟨hc, fun i => (hm i).trans or_comm⟩

/-! ### The operations -/

theorem mem_end_of_key (hb : BranchesAt v 0 (rootNode v) children)
    (hw : KeyWalk id 1 (children (route id 0)) stack e d') :
    (i ∈ e ∧ i.key = id) ↔ i ∈ inner (rootNode v) children ∧ i.key = id := by
  constructor
  · rintro ⟨hi, hk⟩
    exact ⟨⟨_, hw.mem hi⟩, hk⟩
  rintro ⟨hi, hk⟩
  have hro := digit_eq_route.2 hk
  exact ⟨hw.mem_end (below_root hb _) hro ((mem_below_root hb).2 ⟨hi, by rw [hro]⟩), hk⟩

theorem addGiveItem_end (isTransaction hasMeta : Bool) (h : WellFormed v root)
    (hab : ∀ i ∈ root, i.key ≠ item.key) :
    ∃ children stack e d' e', root = .inner (rootNode v) children ∧
      BranchesAt v 0 (rootNode v) children ∧
      KeyWalk item.key 1 (children (route item.key 0)) stack e d' ∧
      addGiveItem root item isTransaction hasMeta =
        (true, dirtyUp item.key (stack ++ [(root, 0)]) e') ∧
      CanonicalAt v d' e' ∧ (∀ i, i ∈ e' ↔ i = item ∨ i ∈ e) ∧
      (e.Labelled (.of isTransaction hasMeta) → e'.Labelled (.of isTransaction hasMeta)) := by
  have hv := h.isV2_eq
  obtain ⟨children, stack, e, d', rfl, hb, hw, heq⟩ := h.walk item.key
  have hc := hw.canonical_end (below_root hb _)
  have hag : ∀ i ∈ e, Agree d' i.key item.key := by
    refine KeyWalk.agree hw (below_root hb _) fun i hi => ?_
    exact agree_succ.2 ⟨fun d hd => absurd hd (Nat.not_lt_zero d), ((mem_below_root hb).1 hi).2⟩
  have hne : ∀ i ∈ e, i.key ≠ item.key := fun i hi => hab i ⟨_, hw.mem hi⟩
  refine ⟨children, stack, e, d', ?_⟩
  generalize ha : addGiveItem _ _ _ _ = r
  unfold addGiveItem at ha
  dsimp only at ha
  rw [heq] at ha
  cases e with
  | null =>
    obtain ⟨n, children', depth, _, ht, hpa⟩ := KeyWalk.exists_top hw v children
    rw [landing, ht] at ha
    refine ⟨.leaf item (.of isTransaction hasMeta), rfl, hb, hw, ?_, .leaf _ _, ?_, fun _ => rfl⟩
    · rw [ht, ← ha]
      simp [hpa, dirtyUp]
    · intro i
      simp
  | leaf other otherType =>
    have hot : other.key ≠ item.key := hne other rfl
    rw [landing, hv] at ha
    cases v with
    | one =>
      obtain ⟨e', he', hc', hm, hla⟩ := pushShared_spec (.of isTransaction hasMeta)
        hot.symm 64 (by omega) (hag other rfl).symm
        (stack ++ [(.inner (rootNode .one) children, 0)])
      refine ⟨e', rfl, hb, hw, ?_, hc', hm, fun _ => hla⟩
      rw [← ha]
      simpa [hot] using he'
    | two =>
      obtain ⟨hc', hm, hla⟩ := setChildren_spec otherType
        (.of isTransaction hasMeta) hot (hag other rfl)
      refine ⟨_, rfl, hb, hw, ?_, hc', hm, hla⟩
      rw [← ha]
      simp [hot]
  | inner n children' =>
    have hpa := hw.not_pass
    cases v with
    | one =>
      obtain rfl : n = .v1 := (canonical_inner.1 hc).1
      exact absurd rfl hpa
    | two =>
      obtain ⟨⟨depth, _, rfl, -⟩, -⟩ := canonical_inner.1 hc
      rw [Bool.not_eq_true] at hpa
      obtain ⟨hc', hm⟩ := splitInner_spec (.of isTransaction hasMeta) hc hpa hag
      refine ⟨_, rfl, hb, hw, ?_, hc', hm, fun hla => ?_⟩
      · rw [← ha]
        simp [landing, hpa]
      · exact .update (.update (fun _ => trivial) hla) rfl

theorem labelled_dirtyUp {e' : Node} (hw : KeyWalk id 1 (children (route id 0)) stack e d')
    (hr : (inner (rootNode v) children).Labelled type) (he' : e'.Labelled type) :
    (dirtyUp id (stack ++ [(.inner (rootNode v) children, 0)]) e').Labelled type := by
  rw [dirtyUp_eq, plug_append]
  exact Labelled.update hr (hw.labelled (hr _) (fun _ h => h) he')

section
variable (isTransaction hasMeta : Bool) (h : WellFormed v root)

include hasMeta h

theorem addGiveItem_of_mem (hi : i ∈ root) (hk : i.key = item.key) :
    addGiveItem root item isTransaction hasMeta = (false, root) := by
  obtain ⟨_, _, e, _, rfl, hb, hw, heq⟩ := h.walk item.key
  obtain ⟨he, -⟩ := (mem_end_of_key hb hw).2 ⟨hi, hk⟩
  unfold addGiveItem
  dsimp only
  rw [heq]
  cases e with
  | null => exact absurd he notMem_null
  | leaf other _ =>
    obtain rfl : i = other := he
    simp [landing, hk]
  | inner n _ =>
    exact absurd hk (key_ne_of_not_pass (hw.canonical_end (below_root hb _)) hw.not_pass he)

theorem addGiveItem_of_notMem (hab : ∀ i ∈ root, i.key ≠ item.key) :
    ∃ root', addGiveItem root item isTransaction hasMeta = (true, root') ∧ WellFormed v root' ∧
      (∀ i, i ∈ root' ↔ i = item ∨ i ∈ root) ∧
      (root.Labelled (.of isTransaction hasMeta) → root'.Labelled (.of isTransaction hasMeta)) := by
  obtain ⟨_, _, e, _, e', rfl, hb, hw, heq, hc, hm, hla⟩ :=
    addGiveItem_end isTransaction hasMeta h hab
  have hm' : ∀ i, i ∈ e' ↔ i = item ∨ i ∈ e ∧ i.key ≠ item.key := by
    intro i
    rw [hm, and_iff_left_of_imp fun hi => hab i ⟨_, hw.mem hi⟩]
  obtain ⟨hwf, hr⟩ := put_root hb hw hc hm'
  refine ⟨_, heq, hwf, fun i => ?_, fun ht => ?_⟩
  · rw [hr, and_iff_left_of_imp (hab i)]
  · exact labelled_dirtyUp hw ht (hla (hw.labelled_end (ht _)))

theorem updateGiveItem_of_notMem (hab : ∀ i ∈ root, i.key ≠ item.key) :
    updateGiveItem root item isTransaction hasMeta = (false, root) := by
  obtain ⟨children, _, e, _, rfl, -, hw, heq⟩ := h.walk item.key
  unfold updateGiveItem
  dsimp only
  rw [heq]
  cases e with
  | null =>
    obtain ⟨n, children', _, _, ht, -⟩ := KeyWalk.exists_top hw v children
    rw [landing, ht]
  | leaf other _ => exact if_pos (hab other ⟨_, hw.mem rfl⟩)
  | inner n children' => rfl

end

theorem eq_of_leafHash {old : SHAMapItem} {oldType : TNType} (hkey : old.key = item.key)
    (h : LeafHash.of item type = .of old oldType) : item = old ∧ type = oldType := by
  cases item
  cases old
  cases type <;> cases oldType <;> simp_all [LeafHash.of]

theorem updateGiveItem_of_mem (isTransaction hasMeta : Bool) (h : WellFormed v root)
    (hi : i ∈ root) (hk : i.key = item.key) :
    ∃ root', updateGiveItem root item isTransaction hasMeta = (true, root') ∧ WellFormed v root' ∧
      (∀ j, j ∈ root' ↔ j = item ∨ j ∈ root ∧ j.key ≠ item.key) ∧
      (root.Labelled (.of isTransaction hasMeta) → root'.Labelled (.of isTransaction hasMeta)) := by
  have hwf := h
  obtain ⟨_, _, e, _, rfl, hb, hw, heq⟩ := h.walk item.key
  obtain ⟨he, -⟩ := (mem_end_of_key hb hw).2 ⟨hi, hk⟩
  unfold updateGiveItem
  dsimp only
  rw [heq]
  cases e with
  | null => exact absurd he notMem_null
  | leaf old oldType =>
    obtain rfl : i = old := he
    have hm (j) : j ∈ (.leaf item (.of isTransaction hasMeta) : Node) ↔
        j = item ∨ j ∈ (.leaf i oldType : Node) ∧ j.key ≠ item.key := by
      rw [mem_leaf]
      refine ⟨.inl, ?_⟩
      rintro (hj | ⟨rfl, hne⟩)
      · exact hj
      · exact absurd hk hne
    by_cases hha : LeafHash.of item (.of isTransaction hasMeta) = .of i oldType
    · obtain ⟨rfl, -⟩ := eq_of_leafHash hk hha
      refine ⟨_, by simp [landing, hha], hwf, fun j => ⟨fun hj => ?_, ?_⟩, fun hty => hty⟩
      · by_cases hjk : j.key = item.key
        · exact .inl (hb.eq_of_digit hj hi (digit_eq_route.2 hjk))
        · exact .inr ⟨hj, hjk⟩
      rintro (rfl | ⟨hj, -⟩)
      · exact hi
      · exact hj
    · obtain ⟨hwf', hro⟩ := put_root hb hw (.leaf item (.of isTransaction hasMeta)) hm
      exact ⟨_, by simp [landing, hk, hha], hwf', hro, fun hty => labelled_dirtyUp hw hty rfl⟩
  | inner n _ =>
    exact absurd hk (key_ne_of_not_pass (hw.canonical_end (below_root hb _)) hw.not_pass he)

/-! ### Deletion -/

theorem mem_branches {b : Fin 16} : b ∈ branches children ↔ children b ≠ .null := by
  unfold branches
  rw [List.mem_filter]
  cases h : children b <;> simp [isNull]

theorem onlyBelow_unique {t : Node} (h : onlyBelow t = some i) : ∀ j, j ∈ t ↔ j = i := by
  induction t with
  | null => cases h
  | leaf _ _ =>
    cases h
    exact fun j => mem_leaf
  | inner n children ih =>
    rw [onlyBelow] at h
    split at h
    case h_2 => cases h
    case h_1 b hb =>
      intro j
      rw [← ih b h j]
      constructor
      · rintro ⟨c, hc⟩
        have hm : c ∈ branches children := mem_branches.2 (ne_null_of_mem hc)
        rw [hb, List.mem_singleton] at hm
        rwa [← hm]
      · exact fun hj => ⟨b, hj⟩

theorem two_of_branches (h : BranchesAt v d p children) {b c : Fin 16} (hbc : b ≠ c)
    (hb : children b ≠ .null) (hc : children c ≠ .null) :
    ∃ i ∈ inner p children, ∃ j ∈ inner p children, digit i (p.depth d) ≠ digit j (p.depth d) := by
  obtain ⟨i, hi⟩ := (h.below b).exists_mem hb
  obtain ⟨j, hj⟩ := (h.below c).exists_mem hc
  refine ⟨i, ⟨b, hi⟩, j, ⟨c, hj⟩, ?_⟩
  rw [h.branch b i hi, h.branch c j hj]
  exact hbc

theorem branches_cases (hne : ∃ i, i ∈ inner p children) :
    (∃ b, branches children = [b] ∧ children b ≠ .null ∧
      ∀ i, i ∈ inner p children ↔ i ∈ children b) ∨
    ∃ b c rest, branches children = b :: c :: rest ∧ b ≠ c ∧ children b ≠ .null ∧
      children c ≠ .null := by
  have hno : (branches children).Nodup := (List.nodup_finRange 16).filter _
  cases hli : branches children with
  | nil =>
    obtain ⟨i, b, hi⟩ := hne
    have hb := mem_branches.2 (ne_null_of_mem hi)
    rw [hli] at hb
    cases hb
  | cons b rest =>
    rw [hli] at hno
    have hb : children b ≠ .null := mem_branches.1 (hli ▸ List.mem_cons_self)
    cases rest with
    | nil =>
      refine .inl ⟨b, rfl, hb, fun i => ⟨?_, fun hi => ⟨b, hi⟩⟩⟩
      rintro ⟨c, hc⟩
      have hcb := mem_branches.2 (ne_null_of_mem hc)
      rw [hli, List.mem_singleton] at hcb
      rwa [← hcb]
    | cons c rest =>
      have hc : children c ≠ .null :=
        mem_branches.1 (hli ▸ List.mem_cons_of_mem _ List.mem_cons_self)
      refine .inr ⟨b, c, rest, rfl, ?_, hb, hc⟩
      rintro rfl
      simp at hno

theorem pullUp_spec (v : Version) (type : TNType) (d : ℕ) (p : InnerNode)
    (children : Fin 16 → Node) (s : Set SHAMapItem) (hfi : Fits v d p s)
    (hs : ∀ i ∈ inner p children, i ∈ s)
    (hb : BranchesAt v d p children) (hne : ∃ i, i ∈ inner p children) :
    CanonicalAt v d (pullUp (decide (v = .two)) type (.inner p children)) ∧
      ∀ i, i ∈ pullUp (decide (v = .two)) type (.inner p children) ↔ i ∈ inner p children := by
  unfold pullUp
  cases v with
  | one =>
    obtain rfl : p = .v1 := hfi
    obtain ⟨b, hli, hnu, hm⟩ | ⟨b, c, rest, hli, hbc, hnu, hnu'⟩ := branches_cases hne
    · simp only [hli, reduceCtorEq, decide_false]
      split
      case h_1 item hon => exact ⟨.leaf _ _, fun i => (onlyBelow_unique hon i).symm⟩
      case h_2 hon =>
        -- The only child is an inner node, with two items below it.
        have hch := hb.below b
        simp only [onlyBelow, hli] at hon
        refine ⟨canonical_inner.2 ⟨rfl, ?_, hb⟩, fun i => Iff.rfl⟩
        generalize children b = child at hch hon hnu hm
        cases hch with
        | null => exact absurd rfl hnu
        | leaf => cases hon
        | inner _ two =>
          obtain ⟨i, hi, j, hj, hij⟩ := two
          exact ⟨i, (hm i).2 hi, j, (hm j).2 hj, hij⟩
    simp only [hli, reduceCtorEq, decide_false]
    obtain ⟨i, hi, j, hj, hij⟩ := two_of_branches hb hbc hnu hnu'
    exact ⟨canonical_inner.2 ⟨rfl, ⟨i, hi, j, hj, fun heq => hij (by rw [heq])⟩, hb⟩,
      fun _ => trivial⟩
  | two =>
    obtain ⟨depth, common, rfl, h⟩ := hfi
    obtain ⟨b, hli, hnu, hm⟩ | ⟨b, c, rest, hli, hbc, hnu, hnu'⟩ := branches_cases hne
    · simp only [hli, decide_true]
      exact ⟨CanonicalAt.mono (hb.below b) (h.le.trans (Nat.le_succ depth)), fun i => (hm i).symm⟩
    simp only [hli, decide_true]
    obtain ⟨i, hi, j, hj, hij⟩ := two_of_branches hb hbc hnu hnu'
    exact ⟨canonical_inner.2 ⟨⟨depth, common, rfl, h.le, h.common_eq,
      fun i hi => h.agree i (hs i hi), i, hi, j, hj, hij⟩,
      ⟨i, hi, j, hj, fun heq => hij (by rw [heq])⟩, hb⟩, fun _ => trivial⟩

theorem labelled_pullUp (isv2 : Bool) (h : t.Labelled type) :
    (pullUp isv2 type t).Labelled type := by
  unfold pullUp
  split
  · split
    · exact h _
    · trivial
    · split
      · rfl
      · exact h
    · exact h
  · exact h

theorem KeyWalk.depth_pos (h : KeyWalk id d t stack e d') (hc : CanonicalAt v d t) (hd : 0 < d) :
    ∀ x ∈ stack, x.2 ≠ 0 := by
  induction h with
  | absent | found | blocked => exact fun x hx => by cases hx
  | @down d _ p _ _ _ _ _ ih =>
    obtain ⟨fits, -, hb⟩ := canonical_inner.1 hc
    have hde : 0 < p.depth d := by
      cases v with
      | one =>
        obtain rfl : p = .v1 := fits
        exact hd
      | two =>
        obtain ⟨_, _, rfl, h⟩ := fits
        exact hd.trans_le h.le
    intro x hx
    rw [List.mem_append, List.mem_singleton] at hx
    obtain hx | rfl := hx
    · exact ih (hb.below _) (Nat.succ_pos _) x hx
    · exact hde.ne'

theorem unlink_append {isv2 : Bool} (h : ∀ x ∈ stack, x.2 ≠ 0) (stack' : Stack) (prevNode : Node) :
    unlink isv2 id type (stack ++ stack') prevNode =
      unlink isv2 id type stack' (plug (route id) (pullUp isv2 type) stack prevNode) := by
  induction stack generalizing prevNode with
  | nil => rfl
  | cons x stack ih =>
    obtain ⟨_, depth⟩ := x
    have hde : depth ≠ 0 := h _ List.mem_cons_self
    rw [List.cons_append, unlink, if_neg hde]
    exact ih (fun x hx => h x (List.mem_cons_of_mem _ hx)) _

theorem delItem_of_notMem (h : WellFormed v root) (hab : ∀ i ∈ root, i.key ≠ id) :
    delItem root id = (false, root) := by
  obtain ⟨children, _, e, _, rfl, -, hw, heq⟩ := h.walk id
  unfold delItem
  rw [heq]
  cases e with
  | null =>
    obtain ⟨n, children', _, _, ht, -⟩ := KeyWalk.exists_top hw v children
    rw [landing, ht]
  | leaf other _ => exact if_pos (hab other ⟨_, hw.mem rfl⟩)
  | inner n children' => rfl

theorem delItem_of_mem (h : WellFormed v root) (hi : i ∈ root) :
    ∃ root', delItem root i.key = (true, root') ∧ WellFormed v root' ∧
      (∀ j, j ∈ root' ↔ j ∈ root ∧ j.key ≠ i.key) ∧
      ∀ type, root.Labelled type → root'.Labelled type := by
  have hv := h.isV2_eq
  obtain ⟨children, stack, e, _, rfl, hb, hw, heq⟩ := h.walk i.key
  obtain ⟨he, -⟩ := (mem_end_of_key hb hw).2 ⟨hi, rfl⟩
  cases e with
  | null => exact absurd he notMem_null
  | inner n _ =>
    exact absurd rfl (key_ne_of_not_pass (hw.canonical_end (below_root hb _)) hw.not_pass he)
  | leaf old type =>
    obtain rfl : i = old := he
    obtain ⟨_, hm⟩ := hw.erase (pullUp_spec v type) (below_root hb _)
    have hde := KeyWalk.depth_pos hw (below_root hb _) Nat.one_pos
    have hd : delItem (.inner (rootNode v) children) i.key =
        (true, .inner (rootNode v) (Function.update children (route i.key 0)
          (plug (route i.key) (pullUp (decide (v = .two)) type) stack .null))) := by
      unfold delItem
      rw [heq, hv]
      simp only [landing, ne_eq, not_true_eq_false, if_false]
      rw [unlink_append hde]
      rfl
    refine ⟨_, hd, ⟨_, rfl, hb.update ?_ (by rwa [rootNode_depth])⟩, fun j => ?_, ?_⟩
    · intro j hj
      rw [rootNode_depth]
      exact ((mem_below_root hb).1 ((hm j).1 hj).1).2
    · rw [hb.mem_update_erase (hw.mem rfl) hm, and_congr_right fun hj => not_congr ⟨?_, ?_⟩]
      · rintro rfl
        rfl
      · exact fun hk => hb.eq_of_digit hj hi (digit_eq_route.2 hk)
    intro ty hla
    have hty : type = ty := hw.labelled_end (hla _)
    subst hty
    exact .update hla (hw.labelled (hla _) (fun _ => labelled_pullUp _) trivial)

end FinPal.SHAMap
