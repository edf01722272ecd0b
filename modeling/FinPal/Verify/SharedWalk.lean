import FinPal.Verify.SharedWrites

/-!
# Walks in the heap

A walk towards a key goes down the nodes as it goes down the tree that they stand for, and leaves the
state at the foot of a way up.
-/

namespace FinPal
open HeapFormat SHAMap Tag DigitTree
variable {v : Version} {d : ℕ} {t root : Node} {p : NodePtr} {node : InnerNode}
  {children : Fin 16 → Node} {id : Tag}

/-! ### The height of a tree -/

namespace SHAMap

theorem selectBranch_eq_zero (hd : 64 ≤ d) (key : Tag) : selectBranch d key = 0 := by
  have hb : key.byte (d / 2) = 0 := by
    unfold byte
    rw [dif_neg (by omega)]
  unfold selectBranch
  simp [hb]

theorem CanonicalAt.le_depth (h : CanonicalAt v d (.inner node children)) : d ≤ node.depth d := by
  obtain ⟨fits, -⟩ := canonical_inner.1 h
  cases v with
  | one =>
    obtain rfl : node = .v1 := fits
    exact le_rfl
  | two =>
    obtain ⟨_, _, rfl, hf⟩ := fits
    exact hf.le

theorem CanonicalAt.depth_lt (h : CanonicalAt v d (.inner node children)) : node.depth d < 64 := by
  generalize ht : inner node children = t at h
  induction h generalizing node children with
  | null => cases ht
  | leaf => cases ht
  | @inner d p ch _ two branch below ih =>
    cases ht
    obtain ⟨i, ⟨b, hi⟩, j, ⟨c, hj⟩, hne⟩ := two
    by_contra hge
    have hbc : b = c := by
      rw [← branch b i hi, ← branch c j hj]
      exact (selectBranch_eq_zero (not_lt.1 hge) _).trans (selectBranch_eq_zero (not_lt.1 hge) _).symm
    subst hbc
    -- Both are below the same branch, which is deeper still.
    cases hch : ch b with
    | null =>
      rw [hch] at hi
      exact notMem_null hi
    | leaf k l =>
      rw [hch] at hi hj
      exact hne ((mem_leaf.1 hi).trans (mem_leaf.1 hj).symm)
    | inner n' _ =>
      have hlt := ih b hch.symm
      have hle := CanonicalAt.le_depth (hch ▸ below b)
      omega

theorem CanonicalAt.height_le (h : CanonicalAt v d t) (hd : d ≤ 64) : d + t.height ≤ 64 := by
  induction t generalizing d with
  | null => exact hd
  | leaf i l => exact hd
  | inner node children ih =>
    have hlt := h.depth_lt
    have hle := h.le_depth
    obtain ⟨-, -, hb⟩ := canonical_inner.1 h
    have hsup : Finset.univ.sup (fun b => (children b).height) ≤ 63 - node.depth d := by
      refine Finset.sup_le fun b _ => ?_
      have := ih b (hb.below b) (by omega)
      omega
    unfold height
    omega

theorem WellFormed.height_le (h : WellFormed v root) : root.height ≤ 64 := by
  obtain ⟨children, rfl, hb⟩ := h
  have hsup : Finset.univ.sup (fun b => (children b).height) ≤ 63 := by
    refine Finset.sup_le fun b _ => ?_
    have := (below_root hb b).height_le (by omega)
    omega
  unfold height
  omega

end SHAMap

/-! ### Walks -/

namespace MapState
variable {T : Makers} {s : MapState} {f : Family} {hs : NodeStack} {fs : Stack} {rootPtr : NodePtr}
  {m fuel : ℕ} {X : Set NodePtr}

theorem body_leaf {item : SHAMapItem} {type : TNType} (h : f.Stored X (.leaf item type) p) :
    f.body p = some (.leaf item type) ∧ f.hash p = .leaf (.of item type) := by
  obtain ⟨-, n, hn, hsh, hg⟩ := h
  obtain ⟨body, _, _⟩ := n
  cases body with
  | inner => cases hsh
  | leaf _ _ =>
    cases hsh
    unfold Family.body Family.hash
    rw [hn]
    exact ⟨rfl, hg⟩

theorem body_inner (h : f.Stored X (.inner node children) p) :
    ∃ cs hashes, f.body p = some (.inner node cs hashes) ∧
      (∀ n, f.node p = some n → n.shape = .inner node cs) ∧
      ∀ b, (cs b = none → children b = .null) ∧ ∀ q, cs b = some q → f.Stored X (children b) q := by
  obtain ⟨-, n, cs, hn, hsh, -, hbe⟩ := h
  obtain ⟨hashes, _, _, rfl⟩ := SharedNode.eq_inner hsh
  refine ⟨cs, hashes, ?_, ?_, hbe⟩
  · unfold Family.body
    rw [hn]
    rfl
  intro _ hn'
  cases hn.symm.trans hn'
  rfl

theorem walk_below (isv2 : Bool) (fuel : ℕ) (hfu : t.height < fuel) (hc : CanonicalAt v d t) (hd : d ≠ 0)
    (htr : Trail nodeFormat f.node (route id) digit hs fs t p) (hne : hs ≠ [])
    (hro : Rooted rootPtr hs) :
    ∃ p' m t' hs' fs', f.walkTowardsKey isv2 id fuel p d hs = (p', m) :: hs' ∧
      SHAMap.walkTowardsKey isv2 id t d fs = (t', m) :: fs' ∧
      Trail nodeFormat f.node (route id) digit hs' fs' t' p' ∧
      Rooted rootPtr ((p', m) :: hs') ∧ ∃ i, i ∈ t' := by
  induction t generalizing d p hs fs fuel with
  | null => exact htr.stored.elim
  | leaf item type =>
    obtain ⟨fuel, rfl⟩ := Nat.exists_eq_succ_of_ne_zero (Nat.ne_of_gt hfu)
    refine ⟨p, if isv2 then 64 else d, .leaf item type, hs, fs, ?_, rfl, htr, ?_, item, rfl⟩
    · rw [Family.walkTowardsKey, (body_leaf htr.stored).1]
    refine .inr ⟨hne, ?_, hro⟩
    split
    · decide
    · exact hd
  | inner node children ih =>
    obtain ⟨fuel, rfl⟩ := Nat.exists_eq_succ_of_ne_zero (Nat.ne_zero_of_lt hfu)
    obtain ⟨-, -, hb⟩ := canonical_inner.1 hc
    obtain ⟨i, hi⟩ := hc.exists_mem nofun
    have hde : node.depth d ≠ 0 := by
      have := hc.le_depth
      omega
    have hro' : Rooted rootPtr ((p, node.depth d) :: hs) := .inr ⟨hne, hde, hro⟩
    obtain ⟨cs, _, hbo, hsh, hbe⟩ := body_inner htr.stored
    rw [Family.walkTowardsKey, hbo, SHAMap.walkTowardsKey]
    dsimp only
    by_cases hpa : node.hasCommonPrefix id = true
    · rw [if_pos hpa, if_pos hpa]
      cases hcs : cs (selectBranch (node.depth d) id) with
      | none =>
        rw [(hbe _).1 hcs]
        exact ⟨p, _, _, hs, fs, rfl, rfl, htr, hro', i, hi⟩
      | some q =>
        obtain ⟨n, hn⟩ := htr.stored.exists_cell
        refine ih (selectBranch (node.depth d) id) fuel ?_ (hb.below _) (Nat.succ_ne_zero _)
          (.child htr hn (hsh n hn) hcs hb.branch) (List.cons_ne_nil _ _) hro'
        exact (height_child_lt node children _).trans_le (Nat.le_of_lt_succ hfu)
    · rw [if_neg hpa, if_neg hpa]
      exact ⟨p, _, _, hs, fs, rfl, rfl, htr, hro', i, hi⟩

/-- Where a walk from the root has come to. -/
structure Landed (s : MapState) (root : Node) (id : Tag) (p : NodePtr) (m : ℕ) (hs : NodeStack)
    (t : Node) (fs : Stack) : Prop where
  heap : s.walkTowardsKey id = (p, m) :: hs
  tree : SHAMap.walkTowardsKey root.isV2 id root 0 [] = (t, m) :: fs
  trail : Trail nodeFormat s.f.node (route id) digit hs fs t p
  rooted : Rooted s.map.root ((p, m) :: hs)
  item : hs ≠ [] → ∃ i, i ∈ t

theorem isV2_eq (h : WellFormed v root) (ht : s.f.Stored X root s.map.root) :
    s.isV2 = root.isV2 := by
  obtain ⟨_, rfl, -⟩ := h
  obtain ⟨_, _, hb, -⟩ := body_inner ht
  unfold isV2
  rw [hb]
  cases v <;> rfl

theorem exists_landed (h : WellFormed v root) (ht : s.f.Stored ∅ root s.map.root) (id : Tag) :
    ∃ p m hs t fs, Landed s root id p m hs t fs := by
  have hv2 := isV2_eq h ht
  have hhe := h.height_le
  obtain ⟨children, rfl, hb⟩ := h
  obtain ⟨cs, _, hbo, hsh, hbe⟩ := body_inner ht
  have htr : Trail nodeFormat s.f.node (route id) digit [] [] _ s.map.root := .root ht
  have hro : Rooted s.map.root [(s.map.root, 0)] := .inl ⟨rfl, rfl, rfl⟩
  have htree (isv2) : SHAMap.walkTowardsKey isv2 id (.inner (SHAMap.rootNode v) children) 0 [] =
      SHAMap.walkTowardsKey isv2 id (children (selectBranch 0 id)) 1
        [(.inner (SHAMap.rootNode v) children, 0)] := by
    simp [SHAMap.walkTowardsKey, rootNode_depth, rootNode_hasCommonPrefix]
  cases hcs : cs (selectBranch 0 id) with
  | none =>
    have hwa : s.walkTowardsKey id = [(s.map.root, 0)] := by
      unfold walkTowardsKey
      rw [show Family.wayLength = 64 + 1 from rfl, Family.walkTowardsKey, hbo]
      simp [rootNode_depth, hcs]
    refine ⟨s.map.root, 0, [], _, [], hwa, ?_, htr, hro, fun h => absurd rfl h⟩
    rw [htree, (hbe _).1 hcs]
    rfl
  | some q =>
    have hwa : s.walkTowardsKey id = s.f.walkTowardsKey s.isV2 id 64 q 1 [(s.map.root, 0)] := by
      unfold walkTowardsKey
      rw [show Family.wayLength = 64 + 1 from rfl, Family.walkTowardsKey, hbo]
      simp [rootNode_depth, rootNode_hasCommonPrefix, hcs]
    rw [hv2] at hwa
    obtain ⟨n, hn⟩ := ht.exists_cell
    have hbr := hb.branch
    rw [rootNode_depth] at hbr
    obtain ⟨p', m, t', hs', fs', hw, hf, htr', hro', hit⟩ := walk_below
      (Node.isV2 (.inner (SHAMap.rootNode v) children)) 64
      ((height_child_lt _ children _).trans_le hhe) (below_root hb _) one_ne_zero
      (.child htr hn (hsh n hn) hcs hbr) (List.cons_ne_nil _ _) hro
    refine ⟨p', m, hs', t', fs', hwa.trans hw, ?_, htr', hro', fun _ => hit⟩
    rw [htree]
    exact hf

theorem seen_of_trail (h : Trail nodeFormat s.f.node (route id) digit hs fs t p)
    (hro : Rooted s.map.root ((p, m) :: hs)) (hi : Isolated T s.f)
    (hr : Visible T s s.map.root) : Visible T s p ∧ ∀ e ∈ hs, Visible T s e.1 := by
  induction h generalizing m with
  | root =>
    obtain ⟨-, -, rfl⟩ | ⟨hne, -⟩ := hro
    · exact ⟨hr, nofun⟩
    · exact absurd rfl hne
  | @child _ _ c _ p q k hs fs _ get shape child _ ih =>
    obtain ⟨hn, -⟩ | ⟨-, -, hro⟩ := hro
    · cases hn
    obtain ⟨hq, hhs⟩ := ih hro
    refine ⟨?_, fun e he => ?_⟩
    · rw [← SharedNode.child_of_shape shape] at child
      exact hq.child hi get child
    obtain rfl | he := List.mem_cons.1 he
    · exact hq
    · exact hhs e he

namespace Landed

theorem climb (h : Landed s root id p m hs t fs) (hiso : Isolated T s.f) (hkn : Known T s)
    (hr : Visible T s s.map.root) :
    Climb T s (insert p (onStack hs)) id hs fs s ∧ Visible T s p ∧ p ∉ onStack hs ∧
      s.f.Stored (onStack hs) t p := by
  obtain ⟨hp, hhs⟩ := seen_of_trail h.trail h.rooted hiso hr
  have hnot : p ∉ onStack hs := by
    intro hm
    obtain ⟨e, he, heq⟩ := List.mem_map.1 hm
    exact h.trail.notMem e he heq
  have hst : s.f.Stored (onStack hs) t p := by
    refine h.trail.stored.of_apart fun x hx => ?_
    obtain ⟨e, he, rfl⟩ := List.mem_map.1 hx
    obtain ⟨u, hu, hlt⟩ := h.trail.above e he
    exact ⟨u, hu, .inr hlt⟩
  refine ⟨⟨hkn, hiso, .refl s, ?_, fun e he => .inr (List.mem_map_of_mem he), h.trail.nodup, hhs,
    ?_⟩, hp, hnot, hst⟩
  · by_cases hn : hs = []
    · subst hn
      cases h.trail
      exact .nil
    obtain ⟨i, hi⟩ := h.item hn
    have hfr := h.trail.frames hi fun y hy => by
      obtain rfl : y = p := hy
      exact ⟨t, h.trail.stored, hi⟩
    exact hfr
  obtain ⟨rfl, -⟩ | ⟨-, -, hro⟩ := h.rooted
  · trivial
  · exact hro

end Landed

theorem Climb.unshare_foot {s0 : MapState} (h : Climb T s0 X id hs fs s)
    (hp : Visible T s p) (hpX : p ∈ X) (hphs : p ∉ onStack hs) (ht : s.f.Stored (onStack hs) t p)
    (hro : Rooted s.map.root ((p, m) :: hs)) :
    let r := s.unshareNode p m
    Climb T s0 (insert r.2 X) id hs fs r.1 ∧ Owned r.1 r.2 ∧ r.2 ∉ onStack hs ∧
      r.1.f.Stored (onStack hs) t r.2 ∧ (hs = [] → r.2 = r.1.map.root) := by
  intro r
  obtain ⟨n, hn⟩ := ht.exists_cell
  have hun : Unshared T s p n m r := unshareNode_spec h.isolated h.known hp hn m
  have hnot : r.2 ∉ onStack hs := by
    obtain heq | hno := hun.place
    · rw [heq]
      exact hphs
    intro hmem
    obtain ⟨e, he, heq⟩ := List.mem_map.1 hmem
    obtain ⟨c, hc, -⟩ := h.seen e he
    rw [heq, hno] at hc
    cases hc
  refine ⟨?_, hun.owned, hnot, ht.clone hn hun.kept hnot hun.node h.known.pos, ?_⟩
  · refine ⟨hun.writes.known h.known, hun.isolated, h.writes.trans hun.writes,
      h.frames.imp (fun e _ c hc => hun.kept _ c hc) fun u q hu => hun.stored hpX hu,
      fun e he => .inr (h.subset e he), h.nodup, fun e he => hun.writes.seen (h.seen e he), ?_⟩
    obtain ⟨rfl, -⟩ | ⟨-, hm, hro⟩ := hro
    · trivial
    · rw [hun.map hm]
      exact hro
  rintro rfl
  obtain ⟨-, hm, hr⟩ | ⟨hne, -⟩ := hro
  · exact (hun.root hm hr.symm).symm
  · exact absurd rfl hne

end MapState
end FinPal
