import FinPal.Verify.SharedWalk

/-!
# Adding and updating with shared nodes
-/

namespace FinPal.MapState
open HeapFormat SHAMap Tag DigitTree Function SharedNode
variable {T : Makers} {s s₀ : MapState} {p q c : NodePtr} {n : SharedNode} {t u root : Node}
  {X : Set NodePtr} {hs : NodeStack} {fs : Stack} {id : Tag} {b : Fin 16} {depth d m : ℕ}
  {item other : SHAMapItem} {type otherType : TNType} {node : InnerNode} {children : Fin 16 → Node}
  {v : Version}

/-! ### New nodes -/

theorem make_notMem (ho : Orderly T s.f) (n : SharedNode)
    (hX : ∀ x ∈ X, ∃ c, s.f.node x = some c) : (s.make n).2 ∉ X := by
  intro hm
  obtain ⟨c, hc⟩ := hX _ hm
  rw [make_fresh ho n] at hc
  cases hc

theorem Climb.allocated (h : Climb T s₀ X id hs fs s) : ∀ x ∈ onStack hs, ∃ c, s.f.node x = some c := by
  intro x hx
  obtain ⟨e, he, rfl⟩ := List.mem_map.1 hx
  obtain ⟨c, hc, -⟩ := h.seen e he
  exact ⟨c, hc⟩

theorem stored_newLeaf (s : MapState) (item : SHAMapItem) (type : TNType) (seq : ℕ)
    (hX : (s.make (.newLeaf item type seq)).2 ∉ X) :
    (s.make (.newLeaf item type seq)).1.f.Stored X (.leaf item type)
      (s.make (.newLeaf item type seq)).2 :=
  ⟨hX, _, make_self s _, rfl, rfl⟩

theorem hash_empty (node : InnerNode) : (Node.empty node).hash = .zero := by
  have hn : Node.branches (fun _ => .null) = [] := by decide
  rw [Node.hash.eq_def]
  exact if_pos hn

theorem stored_newInner (s : MapState) (node : InnerNode) (seq : ℕ)
    (hX : (s.make (.newInner node seq)).2 ∉ X) :
    (s.make (.newInner node seq)).1.f.Stored X (Node.empty node)
      (s.make (.newInner node seq)).2 := by
  refine ⟨hX, _, fun _ => none, make_self s _, rfl, ⟨.inl ?_, fun _ _ => rfl⟩, fun b => ⟨fun _ => rfl, nofun⟩⟩
  exact (hash_empty node).symm

theorem stored_setChild (hkn : Known T s) (hp : Owned s p) (ht : s.f.Stored X (.inner node children) p)
    (hq : s.f.Stored (insert p X) u q) :
    (s.modify p (·.setChild b (some q))).f.Stored X (setChild (.inner node children) b u) p := by
  have hst := ht.mono (Set.empty_subset _)
  obtain ⟨hpX, n, _, hn, hsh, hg, hbe⟩ := ht
  have hseq := hp.seq_ne_zero hkn hn
  have hm (v : Node) (r : NodePtr) (hr : s.f.Stored (insert p X) v r) :
      (s.modify p (·.setChild b (some q))).f.Stored X v r :=
    (modify_stored (Set.mem_insert _ _) _ hr).mono (Set.subset_insert _ _)
  refine ⟨hpX, _, _, modify_self hn _, shape_setChild hsh (some q),
    good_setChild hsh hg hseq (some q),
    kids_update (kid_some (hm u q hq)) fun b' _ => ?_⟩
  refine ⟨(hbe b').1, fun r hr => hm _ r (((hbe b').2 r hr).insert_apart ?_)⟩
  exact ⟨_, hst, .inr (height_child_lt node children b')⟩

theorem Climb.hang_leaf (h : Climb T s₀ X id hs fs s) (hp : Owned s p) (hpX : p ∈ X)
    (hphs : p ∉ onStack hs) (ht : s.f.Stored (onStack hs) (.inner node children) p)
    (item : SHAMapItem) (type : TNType) (b : Fin 16) :
    let new := s.make (.newLeaf item type s.map.seq)
    let s' := new.1.modify p (·.setChild b (some new.2))
    Climb T s₀ (insert new.2 X) id hs fs s' ∧ Writes s s' ∧
      s'.f.Stored (onStack hs) (DigitTree.setChild (.inner node children) b (.leaf item type)) p := by
  intro new s'
  have ho := h.isolated.toOrderly
  have hfr : new.2 ∉ insert p (onStack hs) := by
    refine make_notMem ho _ fun x hx => ?_
    obtain rfl | hx := hx
    · exact ht.exists_cell
    · exact h.allocated x hx
  have hle := stored_newLeaf s item type _ hfr
  have ht' : new.1.f.Stored (onStack hs) (.inner node children) p :=
    (make_stored ho _ ht).mono (Set.subset_insert _ _)
  have hcl : Climb T s₀ (insert new.2 X) id hs fs new.1 := h.make rfl nofun
  have hw : Writes s new.1 := make_writes ho _
  have hown := hw.owned p hp
  refine ⟨hcl.setChild hown (.inr hpX) hphs b (some new.2) ?_, ?_,
    stored_setChild hcl.known hown ht' hle⟩
  · rintro q ⟨⟩
    exact (make_owned s rfl).seen
  · exact hw.trans (modify_writes hown fun _ => seq_setChild _)

/-! ### At an inner node -/

theorem add_inner (h : Landed s root item.key p m hs (.inner node children) fs)
    (hi : Isolated T s.f) (hkn : Known T s) (hr : Visible T s s.map.root) (type : TNType) :
    let r := s.unshareNode p m
    let new := r.1.make (.newLeaf item type r.1.map.seq)
    Done T s (SHAMap.dirtyUp item.key fs
        (setChild (.inner node children) (selectBranch m item.key) (.leaf item type)))
      (dirtyUp item.key hs r.2
        (new.1.modify r.2 (·.setChild (selectBranch m item.key) (some new.2)))) := by
  obtain ⟨hcl, hp, hphs, ht⟩ := h.climb hi hkn hr
  obtain ⟨hcl, ho, hn, ht, hf⟩ :=
    hcl.unshare_foot hp (Set.mem_insert _ _) hphs ht h.rooted
  obtain ⟨hcl, hw, ht⟩ := hcl.hang_leaf ho (Set.mem_insert _ _) hn ht item type
    (selectBranch m item.key)
  exact dirtyUp_spec hcl (hw.owned _ ho).seen ht hf

/-! ### At a leaf, in version 1 -/

theorem Climb.push (h : Climb T s₀ X id hs fs s) (hp : Owned s p) (hpX : p ∈ X)
    (hphs : p ∉ onStack hs) (ht : s.f.Stored (onStack hs) (Node.empty node) p) (hne : hs ≠ [])
    (hd : depth ≠ 0) : Climb T s₀ X id ((p, depth) :: hs) ((Node.empty node, depth) :: fs) s where
  known := h.known
  isolated := h.isolated
  writes := h.writes
  frames := by
    obtain ⟨-, n, cs, hn, hsh, hgo, hbe⟩ := ht
    refine .cons ⟨rfl, node, _, n, cs, rfl, hn, hsh, hgo, fun b _ => ⟨(hbe b).1, fun q hq => ?_⟩⟩
      h.frames
    exact ((hbe b).2 q hq).elim
  subset := by
    intro e he
    obtain rfl | he := List.mem_cons.1 he
    · exact hpX
    · exact h.subset e he
  nodup := List.nodup_cons.2 ⟨hphs, h.nodup⟩
  seen := by
    intro e he
    obtain rfl | he := List.mem_cons.1 he
    · exact hp.seen
    · exact h.seen e he
  rooted := .inr ⟨hne, hd, h.rooted⟩

/-- The loop over the branches that two keys share: a new node is at its foot. -/
structure Pushing (T : Makers) (s₀ : MapState) (id : Tag) (fs : Stack) (depth : ℕ) (w : Pushed) :
    Prop where
  climb : ∃ X, Climb T s₀ X id w.stack fs w.s ∧ w.node ∈ X
  owned : Owned w.s w.node
  notMem : w.node ∉ onStack w.stack
  stored : w.s.f.Stored (onStack w.stack) (Node.empty .v1) w.node
  ne_nil : w.stack ≠ []
  depth_ne : depth ≠ 0
  depth_eq : w.depth = depth

theorem pushing_pushShared (other : Tag) (fuel : ℕ) {w : Pushed} (h : Pushing T s₀ id fs depth w) :
    Pushing T s₀ id (SHAMap.pushShared id other fuel depth fs).1
      (SHAMap.pushShared id other fuel depth fs).2 (pushShared id other fuel w) := by
  induction fuel generalizing depth fs w with
  | zero => exact h
  | succ fuel ih =>
    obtain ⟨s, _, _, _⟩ := w
    obtain ⟨⟨X, hcl, hX⟩, ho, hn, hst, hne, hd, rfl⟩ := h
    dsimp only at hcl hX ho hn hst hne hd
    unfold SHAMap.pushShared pushShared
    split
    · have hord := hcl.isolated.toOrderly
      have hp := hcl.push ho hX hn hst hne hd
      have hfr := make_notMem hord (.newInner .v1 s.map.seq) hp.allocated
      refine ih ⟨⟨_, hp.make rfl nofun, .inl rfl⟩, make_owned s rfl, hfr,
        stored_newInner s .v1 _ hfr, List.cons_ne_nil _ _, Nat.succ_ne_zero _, rfl⟩
    · exact ⟨⟨X, hcl, hX⟩, ho, hn, hst, hne, hd, rfl⟩

theorem splitLeaf_spec (h : Climb T s₀ X item.key hs fs s) (hne : hs ≠ []) (hd : depth ≠ 0)
    (other : SHAMapItem) (type : TNType) :
    let w := SHAMap.pushShared item.key other.key 64 depth fs
    Done T s₀ (SHAMap.dirtyUp item.key w.1
        (((Node.empty .v1).setChild (selectBranch w.2 item.key) (.leaf item type)).setChild
          (selectBranch w.2 other.key) (.leaf other type)))
      (s.splitLeaf hs depth other item type s.map.seq) := by
  have hord := h.isolated.toOrderly
  have hfr := make_notMem hord (.newInner .v1 s.map.seq) h.allocated
  have hpu : Pushing T s₀ item.key fs depth
      ⟨(s.make (.newInner .v1 s.map.seq)).1, hs, (s.make (.newInner .v1 s.map.seq)).2, depth⟩ :=
    ⟨⟨_, h.make rfl nofun, .inl rfl⟩, make_owned s rfl, hfr, stored_newInner s .v1 _ hfr, hne, hd,
      rfl⟩
  replace hpu := pushing_pushShared other.key 64 hpu
  unfold splitLeaf
  dsimp only
  generalize pushShared item.key other.key 64 ⟨_, hs, _, depth⟩ = w at hpu
  generalize SHAMap.pushShared item.key other.key 64 depth fs = w' at hpu
  obtain ⟨_, _, _, wdepth⟩ := w
  obtain ⟨_, _⟩ := w'
  obtain ⟨⟨X, hcl, hX⟩, ho, hn, hst, hne, -, rfl⟩ := hpu
  dsimp only at hcl hX ho hn hst hne ⊢
  obtain ⟨hcl, hw, hst⟩ := hcl.hang_leaf ho hX hn hst item type
    (selectBranch wdepth item.key)
  replace ho := hw.owned _ ho
  obtain ⟨hcl, hw, hst⟩ := hcl.hang_leaf ho (.inr hX) hn hst other type
    (selectBranch wdepth other.key)
  exact dirtyUp_spec hcl (hw.owned _ ho).seen hst fun hnil => absurd hnil hne

/-! ### Above a node, in version 2 -/

theorem ofChildren_eq (k1 : Tag) (p1 : NodePtr) (k2 : Tag) (p2 : NodePtr) (seq : ℕ) :
    ofChildren k1 p1 k2 p2 seq = ⟨.inner (.v2 (branchPoint k1 k2).1 (branchPoint k1 k2).2) (update
          (update (fun _ => none) (selectBranch (branchPoint k1 k2).1 k1) (some p1))
          (selectBranch (branchPoint k1 k2).1 k2) (some p2)) fun _ => .zero, .zero, seq⟩ := rfl

theorem setChildren_eq (item1 : SHAMapItem) (type1 : TNType) (item2 : SHAMapItem) (type2 : TNType) :
    setChildren item1 type1 item2 type2 =
      .inner (.v2 (branchPoint item1.key item2.key).1 (branchPoint item1.key item2.key).2)
        (update (update (fun _ => .null)
          (selectBranch (branchPoint item1.key item2.key).1 item1.key) (.leaf item1 type1))
          (selectBranch (branchPoint item1.key item2.key).1 item2.key) (.leaf item2 type2)) := rfl

theorem stored_ofChildren {p1 p2 : NodePtr} {other item : SHAMapItem} {seq : ℕ} (s : MapState)
    (hseq : seq ≠ 0)
    (hX : (s.make (.ofChildren other.key p1 item.key p2 seq)).2 ∉ X) (ho : Orderly T s.f)
    (h1 : s.f.Stored X (.leaf other otherType) p1) (h2 : s.f.Stored X (.leaf item type) p2) :
    (s.make (.ofChildren other.key p1 item.key p2 seq)).1.f.Stored X
      (setChildren other otherType item type)
      (s.make (.ofChildren other.key p1 item.key p2 seq)).2 := by
  have hst (u q) (hq : s.f.Stored X u q) :
      (s.make (.ofChildren other.key p1 item.key p2 seq)).1.f.Stored X u q :=
    (make_stored ho _ hq).mono (Set.subset_insert _ _)
  have hse := make_self s (.ofChildren other.key p1 item.key p2 seq)
  rw [setChildren_eq]
  rw [ofChildren_eq] at hse hX hst ⊢
  refine ⟨hX, _, _, hse, rfl, ⟨.inr ⟨rfl, hseq⟩, fun _ _ => rfl⟩, ?_⟩
  refine kids_update (kid_some (hst _ _ h2)) fun b _ => ?_
  refine kids_update (kid_some (hst _ _ h1)) (fun _ _ => ?_) b
  exact ⟨fun _ => rfl, nofun⟩

theorem child_ofChildren {k1 k2 : Tag} {p1 p2 : NodePtr} {seq : ℕ}
    (h : (ofChildren k1 p1 k2 p2 seq).child b = some q) : q = p1 ∨ q = p2 := by
  rw [ofChildren_eq] at h
  unfold child at h
  dsimp only at h
  by_cases hb2 : b = selectBranch (branchPoint k1 k2).1 k2
  · subst hb2
    rw [update_self] at h
    exact .inr (Option.some.inj h).symm
  rw [update_of_ne hb2] at h
  by_cases hb1 : b = selectBranch (branchPoint k1 k2).1 k1
  · subst hb1
    rw [update_self] at h
    exact .inl (Option.some.inj h).symm
  · rw [update_of_ne hb1] at h
    cases h

theorem Climb.unshare_parent (h : Climb T s₀ X id ((q, d) :: hs) ((t, d) :: fs) s) (hc : Visible T s c)
    (hu : s.f.Stored (onStack ((q, d) :: hs)) u c) :
    let r := s.unshareNode q d
    Climb T s₀ (insert r.2 X) id ((r.2, d) :: hs) ((t, d) :: fs) r.1 ∧ Owned r.1 r.2 ∧
      Visible T r.1 c ∧ r.1.f.Stored (onStack ((r.2, d) :: hs)) u c := by
  obtain ⟨hcl, n, hun⟩ := h.unshare
  refine ⟨hcl, hun.owned, hun.writes.seen hc, ?_⟩
  refine (hun.stored (X := onStack ((q, d) :: hs)) List.mem_cons_self hu).mono ?_
  intro x hx
  obtain rfl | hx := List.mem_cons.1 hx
  · exact .inl rfl
  · exact .inr (List.mem_cons_of_mem _ hx)

theorem splitLeafV2_spec (h : Climb T s₀ X item.key hs fs s) (hne : hs ≠ []) (hp : Owned s p)
    (ht : s.f.Stored (onStack hs) (.leaf other otherType) p) (type : TNType) :
    Done T s₀ (SHAMap.dirtyUp item.key fs (setChildren other otherType item type))
      (s.splitLeafV2 hs p other item type) := by
  have ho := h.isolated.toOrderly
  have hn := make_notMem ho (.newLeaf item type s.map.seq) h.allocated
  have hle := stored_newLeaf s item type s.map.seq hn
  have hp1 := (make_writes ho (.newLeaf item type s.map.seq)).owned p hp
  have ht1 := (make_stored ho (.newLeaf item type s.map.seq) ht).mono (Set.subset_insert _ _)
  have hcl : Climb T s₀ _ item.key hs fs (s.make (.newLeaf item type s.map.seq)).1 :=
    h.make rfl nofun
  have hown := make_owned (n := .newLeaf item type s.map.seq) s rfl
  have hseq : (s.make (.newLeaf item type s.map.seq)).1.map.seq = s.map.seq := rfl
  unfold splitLeafV2
  dsimp only
  generalize s.make (.newLeaf item type s.map.seq) = new at hn hle hp1 ht1 hcl hown hseq
  rw [← hseq]
  -- The node over both leaves.
  have ho1 := hcl.isolated.toOrderly
  have hin := make_notMem ho1 (.ofChildren other.key p item.key new.2 new.1.map.seq)
    hcl.allocated
  have hst := stored_ofChildren new.1 hcl.known.pos hin ho1 ht1 hle
  have howne := make_owned (n := .ofChildren other.key p item.key new.2 new.1.map.seq) new.1 rfl
  have hcl1 :=
    hcl.make (n := .ofChildren other.key p item.key new.2 new.1.map.seq) rfl fun b q hb => by
      obtain rfl | rfl := child_ofChildren hb
      · exact hp1.seen
      · exact hown.seen
  generalize new.1.make (.ofChildren other.key p item.key new.2 new.1.map.seq) = inner
    at hst howne hcl1
  obtain _ | ⟨⟨q, d⟩, hs⟩ := hs
  · exact absurd rfl hne
  obtain ⟨t, fs, rfl, -⟩ := hcl1.head
  obtain ⟨hcl2, -, hse, hst⟩ := hcl1.unshare_parent howne.seen hst
  exact dirtyUp_spec hcl2 hse hst fun hnil => by cases hnil

theorem Climb.setChild_head (h : Climb T s₀ X id ((p, d) :: hs) ((t, d) :: fs) s) (hp : Owned s p)
    (child : Option NodePtr) (hch : ∀ q, child = some q → Visible T s q) :
    Climb T s₀ X id ((p, d) :: hs) ((t, d) :: fs) (s.modify p (·.setChild (route id d) child)) := by
  obtain ⟨_, _, heq, hfr, hpX, hphs, -, -⟩ := h.head
  cases heq
  have ht := h.tail.setChild hp hpX hphs (route id d) child hch
  have hw := modify_writes (g := (·.setChild (route id d) child)) hp fun _ => seq_setChild child
  refine ⟨ht.known, ht.isolated, ht.writes, .cons ⟨rfl, ?_⟩ ht.frames, h.subset, h.nodup,
    fun e he => hw.seen (h.seen e he), h.rooted⟩
  obtain ⟨node, children, n, _, rfl, hn, hsh, hg, hbe⟩ := hfr
  have hseq := hp.seq_ne_zero h.known hn
  refine ⟨node, children, _, _, rfl, modify_self hn _, shape_setChild hsh child,
    good_setChild hsh hg hseq child, fun b hb => ?_⟩
  rw [update_of_ne hb]
  exact ⟨(hbe b hb).1, fun q hq => modify_stored hpX _ ((hbe b hb).2 q hq)⟩

theorem splitInner_spec (h : Climb T s₀ X item.key hs fs s) (hne : hs ≠ []) (hp : Owned s p)
    (ht : s.f.Stored (onStack hs) t p) (depth : ℕ) (common : Tag) (type : TNType) :
    Done T s₀ (SHAMap.dirtyUp item.key fs (SHAMap.splitInner t depth common item type))
      (s.splitInner hs p depth common item type) := by
  obtain _ | ⟨⟨q, d⟩, hs⟩ := hs
  · exact absurd rfl hne
  obtain ⟨u, fs, rfl, -⟩ := h.head
  obtain ⟨hcl, hpa, hse, ht⟩ := h.unshare_parent hp.seen ht
  unfold splitInner SHAMap.splitInner
  dsimp only
  have hseq := hcl.writes.seq_eq.trans h.writes.seq_eq.symm
  generalize s.unshareNode q d = parent at hcl hpa hse ht hseq
  rw [← hseq]
  generalize getCommonPrefix depth common item.key = depth'
  -- The new node over the inner node and the leaf.
  have ho := hcl.isolated.toOrderly
  have hn := make_notMem ho (.newInner (.v2 depth' (prefixOf depth' item.key)) parent.1.map.seq)
    hcl.allocated
  have hem := stored_newInner parent.1 (.v2 depth' (prefixOf depth' item.key)) parent.1.map.seq hn
  have ht1 := make_stored ho (.newInner (.v2 depth' (prefixOf depth' item.key)) parent.1.map.seq) ht
  have hw1 := make_writes ho (.newInner (.v2 depth' (prefixOf depth' item.key)) parent.1.map.seq)
  have ho1 := make_owned (n := .newInner (.v2 depth' (prefixOf depth' item.key)) parent.1.map.seq)
    parent.1 rfl
  have hcl1 : Climb T s₀ _ item.key _ _ _ :=
    hcl.make (n := .newInner (.v2 depth' (prefixOf depth' item.key)) parent.1.map.seq) rfl nofun
  generalize parent.1.make (.newInner (.v2 depth' (prefixOf depth' item.key)) parent.1.map.seq) = new
    at hn hem ht1 hw1 ho1 hcl1
  have hpa1 := hw1.owned _ hpa
  have hcl2 := hcl1.setChild ho1 (Set.mem_insert _ _) hn (selectBranch depth' common)
    (some p) (by rintro _ ⟨⟩; exact hw1.seen hse)
  have hw2 := modify_writes (g := (·.setChild (selectBranch depth' common) (some p))) ho1
    fun _ => seq_setChild _
  have hst := stored_setChild (b := selectBranch depth' common) hcl1.known ho1 hem ht1
  obtain ⟨hcl3, hw3, hst⟩ := hcl2.hang_leaf (hw2.owned _ ho1) (Set.mem_insert _ _) hn
    hst item type (selectBranch depth' item.key)
  replace hw3 := hw2.trans hw3
  have ho3 := hw3.owned _ ho1
  have hpa3 := hw3.owned _ hpa1
  have hcl4 := hcl3.setChild_head hpa3 (some new.2) (by rintro _ ⟨⟩; exact ho3.seen)
  refine dirtyUp_spec hcl4 ?_ (modify_stored List.mem_cons_self _ hst) fun hnil => by cases hnil
  exact (modify_writes hpa3 fun _ => seq_setChild _).seen ho3.seen

/-! ### The operations -/

theorem Landed.leaf_ne_nil (h : Landed s root id p m hs (.leaf other otherType) fs)
    (hwf : WellFormed v root) (ht : s.f.Stored ∅ root s.map.root) : hs ≠ [] ∧ m ≠ 0 := by
  obtain ⟨rfl, -, rfl⟩ | ⟨hne, hm, -⟩ := h.rooted
  · obtain ⟨_, rfl, -⟩ := hwf
    cases h.trail.stored.unique ht
  · exact ⟨hne, hm⟩

/-- An operation ends with the tree and answer of the one in `SHAMap.Tree`. -/
def Agrees (T : Makers) (s : MapState) (r : MapState × Bool) (r' : Bool × Node) : Prop :=
  Done T s r'.2 r.1 ∧ r.2 = r'.1

theorem item_leaf (h : s.f.Stored X (.leaf item type) p) : s.f.item p = some item := by
  unfold Family.item
  rw [(body_leaf h).1]

theorem item_inner (h : s.f.Stored X (.inner node children) p) : s.f.item p = none := by
  obtain ⟨_, _, hb, -⟩ := body_inner h
  unfold Family.item
  rw [hb]

theorem Owned.seq_eq (h : Owned s p) : s.f.seq p = s.map.seq := by
  obtain ⟨-, n, hn, hseq⟩ := h
  unfold Family.seq
  rw [hn]
  exact hseq

theorem addGiveItem_spec (hwf : WellFormed v root) (hi : Isolated T s.f) (hkn : Known T s)
    (hro : Visible T s s.map.root) (ht : s.f.Stored ∅ root s.map.root) (item : SHAMapItem)
    (isTransaction hasMeta : Bool) : Agrees T s (s.addGiveItem item isTransaction hasMeta)
      (SHAMap.addGiveItem root item isTransaction hasMeta) := by
  have hsa : Done T s root s := ⟨hi, .refl s, hro, ht⟩
  have hv2 := isV2_eq hwf ht
  obtain ⟨p, m, hs, t, _, h⟩ := exists_landed hwf ht item.key
  obtain ⟨hcl, hp, hphs, hst⟩ := h.climb hi hkn hro
  obtain ⟨hcl', ho, -, hst', -⟩ :=
    hcl.unshare_foot hp (Set.mem_insert _ _) hphs hst h.rooted
  unfold addGiveItem SHAMap.addGiveItem
  dsimp only
  rw [h.heap, h.tree, hv2]
  dsimp only
  cases t with
  | null => exact hst.elim
  | leaf other _ =>
    rw [item_leaf hst, (body_leaf hst').1]
    dsimp only
    by_cases hk : other.key = item.key
    · rw [if_pos (by simp [hk]), if_pos hk]
      exact ⟨hsa, rfl⟩
    obtain ⟨hne, hm⟩ := h.leaf_ne_nil hwf ht
    rw [if_neg (by simp [hk])]
    split
    · exact ⟨splitLeafV2_spec hcl' hne ho hst' _, rfl⟩
    · rw [ho.seq_eq]
      exact ⟨splitLeaf_spec hcl' hne hm other _, rfl⟩
  | inner node children =>
    obtain ⟨_, _, hbo, -⟩ := body_inner hst'
    rw [item_inner hst, hbo]
    dsimp only
    rw [if_neg (by simp)]
    by_cases hpa : node.hasCommonPrefix item.key = true
    · rw [if_pos hpa, if_pos hpa]
      exact ⟨add_inner h hi hkn hro _, rfl⟩
    rw [if_neg hpa, if_neg hpa]
    have hne : hs ≠ [] := by
      obtain ⟨rfl, -, rfl⟩ | ⟨hne, -⟩ := h.rooted
      · obtain ⟨children, rfl, -⟩ := hwf
        cases h.trail.stored.unique ht
        exact absurd (rootNode_hasCommonPrefix v _) hpa
      · exact hne
    cases node with
    | v1 => exact absurd rfl hpa
    | v2 depth common => exact ⟨splitInner_spec hcl' hne ho hst' depth common _, rfl⟩

theorem modify_eq_self {g : SharedNode → SharedNode} (hn : s.f.node p = some n) (hg : g n = n) :
    s.modify p g = s := by
  have hno : (s.f.modify p g).node = s.f.node := by
    change update s.f.node p ((s.f.node p).map g) = s.f.node
    rw [hn, Option.map_some, hg, ← hn, update_eq_self]
  unfold modify
  rw [show s.f.modify p g = s.f from by rw [Family.mk.injEq]; exact ⟨hno, rfl, rfl⟩]

theorem node_leaf (h : s.f.Stored X (.leaf item type) p) :
    ∃ seq, s.f.node p = some (.newLeaf item type seq) := by
  obtain ⟨-, n, hn, hsh, hg⟩ := h
  obtain ⟨body, hash, seq⟩ := n
  cases body with
  | inner => cases hsh
  | leaf _ _ =>
    cases hsh
    obtain rfl : hash = .leaf (.of item type) := hg
    exact ⟨seq, hn⟩

theorem updateGiveItem_spec (hwf : WellFormed v root) (hi : Isolated T s.f) (hkn : Known T s)
    (hro : Visible T s s.map.root) (ht : s.f.Stored ∅ root s.map.root) (item : SHAMapItem)
    (isTransaction hasMeta : Bool) : Agrees T s (s.updateGiveItem item isTransaction hasMeta)
      (SHAMap.updateGiveItem root item isTransaction hasMeta) := by
  have hsa : Done T s root s := ⟨hi, .refl s, hro, ht⟩
  obtain ⟨p, m, _, t, _, h⟩ := exists_landed hwf ht item.key
  obtain ⟨hcl, hp, hphs, hst⟩ := h.climb hi hkn hro
  unfold updateGiveItem SHAMap.updateGiveItem
  dsimp only
  rw [h.heap, h.tree]
  dsimp only
  cases t with
  | null => exact hst.elim
  | inner _ _ =>
    rw [item_inner hst]
    exact ⟨hsa, rfl⟩
  | leaf old oldType =>
    rw [item_leaf hst]
    dsimp only
    by_cases hk : old.key = item.key
    · rw [if_pos (by simp [hk]), if_neg (not_not.2 hk)]
      obtain ⟨hne, hm⟩ := h.leaf_ne_nil hwf ht
      obtain ⟨n, hn⟩ := hst.exists_cell
      have hun := unshareNode_spec hi hkn hp hn m
      obtain ⟨hcl', ho, hnot, hst', -⟩ :=
        hcl.unshare_foot hp (Set.mem_insert _ _) hphs hst h.rooted
      generalize s.unshareNode p m = r at hun hcl' ho hnot hst'
      generalize TNType.of isTransaction hasMeta = type
      obtain ⟨_, hle⟩ := node_leaf hst'
      have hse := modify_self hle (·.setItem item type)
      have hha : (r.1.modify r.2 (·.setItem item type)).f.hash r.2 = .leaf (.of item type) := by
        unfold Family.hash
        rw [hse]
        rfl
      rw [hha, (body_leaf hst').2]
      by_cases heq : LeafHash.of item type = .of old oldType
      · rw [if_pos (congrArg _ heq), if_pos heq]
        -- The leaf stays the same, and a copy is not linked.
        obtain ⟨rfl, rfl⟩ := eq_of_leafHash hk heq
        rw [modify_eq_self hle rfl]
        have hmap := hun.map hm
        refine ⟨⟨hun.isolated, hun.writes, ?_, ?_⟩, rfl⟩
        · rw [hmap]
          exact hun.writes.seen hro
        · rw [hmap]
          exact ht.congr fun q _ c hc => hun.kept q c hc
      rw [if_neg (fun h => heq (NodeHash.leaf.inj h)), if_neg heq]
      have hseq (n : SharedNode) : (n.setItem item type).seq = n.seq := rfl
      have hcl1 := hcl'.modify ho (Set.mem_insert _ _) hnot hseq fun _ _ _ _ hb => by
        cases hb
      refine ⟨dirtyUp_spec hcl1 ((modify_writes ho hseq).owned _ ho).seen ?_
        fun hnil => absurd hnil hne, rfl⟩
      exact ⟨hnot, _, hse, rfl, rfl⟩
    · rw [if_neg (by simp [hk]), if_pos hk]
      exact ⟨hsa, rfl⟩

end FinPal.MapState
