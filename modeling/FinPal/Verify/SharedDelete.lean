import FinPal.Verify.SharedAdd

/-!
# Deleting with shared nodes

`delItem` leaves at the root of the map the tree that it makes in `SHAMap.Tree`. On the way up a node
that has one branch left may give way to what is below it.
-/

namespace FinPal
open HeapFormat SHAMap Tag DigitTree

/-! ### Heights on the way up -/

namespace SHAMap
variable {t u : Node} {h : ℕ} {fs : Stack}

/-- The trees on a stack grow, up to the root. -/
def Growing : ℕ → Stack → Prop
  | h, [] => h ≤ 64
  | h, (t, _) :: fs => h < t.height ∧ Growing t.height fs

theorem Growing.le (hg : Growing h fs) : h ≤ 64 := by
  induction fs generalizing h with
  | nil => exact hg
  | cons e fs ih => exact hg.1.le.trans (ih hg.2)

theorem Growing.mono {h' : ℕ} (hg : Growing h fs) (hle : h' ≤ h) : Growing h' fs := by
  cases fs with
  | nil => exact hle.trans hg
  | cons e fs => exact ⟨hle.trans_lt hg.1, hg.2⟩

theorem height_setChild_le (b : Fin 16) (hu : u.height < t.height) :
    (setChild t b u).height ≤ t.height := by
  cases t with
  | null => exact le_rfl
  | leaf => exact le_rfl
  | inner _ children =>
    have hsup : Finset.univ.sup (fun c => (Function.update children b u c).height) ≤
        Finset.univ.sup fun c => (children c).height := by
      refine Finset.sup_le fun c _ => ?_
      by_cases hcb : c = b
      · subst hcb
        rw [Function.update_self]
        exact Nat.le_of_lt_succ hu
      · rw [Function.update_of_ne hcb]
        exact Finset.le_sup (f := fun c => (children c).height) (Finset.mem_univ c)
    exact Nat.succ_le_succ hsup

theorem height_pullUp_le (isv2 : Bool) (type : TNType) (t : Node) :
    (pullUp isv2 type t).height ≤ t.height := by
  unfold pullUp
  split
  · split
    · exact (height_child_lt _ _ _).le
    · exact Nat.zero_le _
    · split
      · exact Nat.zero_le _
      · exact le_rfl
    · exact le_rfl
  · exact le_rfl

end SHAMap

namespace MapState
variable {T : Makers} {s s0 : MapState} {f : Family} {p q c : NodePtr} {t u root : Node}
  {X : Set NodePtr} {hs : NodeStack} {fs : Stack} {id : Tag} {m fuel : ℕ} {node : InnerNode}
  {children : Fin 16 → Node} {v : Version} {type : TNType} {cs : Fin 16 → Option NodePtr}

theorem growing_of_trail (h : Trail nodeFormat s.f.node (route id) digit hs fs t p)
    (hro : Rooted s.map.root ((p, m) :: hs)) (ht : s.f.Stored ∅ root s.map.root)
    (hhe : root.height ≤ 64) : Growing t.height fs := by
  induction h generalizing m with
  | root stored =>
    obtain ⟨-, -, rfl⟩ | ⟨hne, -⟩ := hro
    · cases stored.unique ht
      exact hhe
    · exact absurd rfl hne
  | @child node children c _ p q k hs fs _ _ _ child _ ih =>
    obtain ⟨hn, -⟩ | ⟨-, -, hro⟩ := hro
    · cases hn
    · exact ⟨height_child_lt node children _, ih hro⟩

/-! ### What is left below a node -/

theorem branches_eq (hbe : ∀ b, (cs b = none → children b = .null) ∧
      ∀ q, cs b = some q → f.Stored X (children b) q) :
    SharedNode.branches cs = Node.branches children := by
  refine List.filter_congr fun b _ => ?_
  cases hb : cs b with
  | none => rw [(hbe b).1 hb]; rfl
  | some q =>
    have hne := ((hbe b).2 q hb).ne_null
    cases hch : children b with
    | null => exact absurd hch hne
    | leaf | inner => rfl

theorem exists_child {b : Fin 16} {l : List (Fin 16)}
    (hbe : ∀ b, (cs b = none → children b = .null) ∧
      ∀ q, cs b = some q → f.Stored X (children b) q)
    (hl : Node.branches children = b :: l) : ∃ q, cs b = some q := by
  have hb : b ∈ Node.branches children := by
    rw [hl]
    exact List.mem_cons_self
  refine Option.ne_none_iff_exists'.1 fun hcs => ?_
  exact mem_branches.1 hb ((hbe b).1 hcs)

theorem onlyBelow_eq (h : f.Stored X t p) (hfu : t.height < fuel) :
    f.onlyBelow fuel p = Node.onlyBelow t := by
  induction t generalizing p fuel with
  | null => exact h.elim
  | leaf _ _ =>
    obtain ⟨fuel, rfl⟩ := Nat.exists_eq_succ_of_ne_zero (Nat.ne_zero_of_lt hfu)
    rw [Family.onlyBelow, (body_leaf h).1]
    rfl
  | inner node children ih =>
    obtain ⟨fuel, rfl⟩ := Nat.exists_eq_succ_of_ne_zero (Nat.ne_zero_of_lt hfu)
    obtain ⟨_, _, hbo, -, hbe⟩ := body_inner h
    rw [Family.onlyBelow, hbo, Node.onlyBelow]
    dsimp only
    rw [branches_eq hbe]
    rcases hli : Node.branches children with _ | ⟨b, _ | ⟨-, l⟩⟩
    · rfl
    · obtain ⟨q, hq⟩ := exists_child hbe hli
      dsimp only
      rw [hq]
      exact ih b ((hbe b).2 q hq)
        ((height_child_lt node children b).trans_le (Nat.le_of_lt_succ hfu))
    · rfl

theorem children_eq {hashes : Fin 16 → NodeHash}
    (h : f.body p = some (.inner node cs hashes)) : f.children p = cs := by
  unfold Family.children
  rw [h]

theorem pullUp_spec (h : Climb T s0 X id hs fs s) (hp : Owned s p) (hpX : p ∈ X)
    (hphs : p ∉ onStack hs) (ht : s.f.Stored (onStack hs) (.inner node children) p)
    (hhe : (inner node children : Node).height ≤ 64) (isv2 : Bool) (type : TNType) :
    let up := s.pullUp isv2 type p
    let u := SHAMap.pullUp isv2 type (.inner node children)
    (∃ X, Climb T s0 X id hs fs up.1) ∧ (up.2 = none → u = .null) ∧
      ∀ q, up.2 = some q → Visible T up.1 q ∧ up.1.f.Stored (onStack hs) u q := by
  obtain ⟨_, _, hbo, hsh, hbe⟩ := body_inner ht
  have hbr := branches_eq hbe
  have hst : (∃ X, Climb T s0 X id hs fs s) ∧ (some p = none → (.inner node children : Node) = .null) ∧
      ∀ q, some p = some q → Visible T s q ∧ s.f.Stored (onStack hs) (.inner node children) q := by
    refine ⟨⟨X, h⟩, nofun, ?_⟩
    rintro _ ⟨⟩
    exact ⟨hp.seen, ht⟩
  have hon : s.f.onlyBelow Family.wayLength p = Node.onlyBelow (.inner node children) :=
    onlyBelow_eq ht (Nat.lt_succ_of_le hhe)
  unfold pullUp SHAMap.pullUp
  dsimp only
  rw [children_eq hbo, hbr, hon]
  rcases hli : Node.branches children with _ | ⟨b, _ | ⟨-, l⟩⟩
  · -- Nothing is left.
    cases isv2 with
    | true => exact hst
    | false => exact ⟨⟨X, h⟩, fun _ => rfl, nofun⟩
  · obtain ⟨q, hq⟩ := exists_child hbe hli
    cases isv2 with
    | true =>
      dsimp only
      rw [hq]
      refine ⟨⟨X, h⟩, nofun, ?_⟩
      rintro _ ⟨⟩
      refine ⟨?_, (hbe b).2 q hq⟩
      obtain ⟨n, hn⟩ := ht.exists_cell
      rw [← SharedNode.child_of_shape (hsh n hn)] at hq
      exact hp.seen.child h.isolated hn hq
    | false =>
      dsimp only
      cases Node.onlyBelow (.inner node children) with
      | none => exact hst
      | some item =>
        dsimp only
        have hcl := h.setChild hp hpX hphs b none nofun
        have hseq : s.f.seq p = (s.modify p (·.setChild b none)).map.seq := hp.seq_eq
        rw [hseq]
        generalize s.modify p (·.setChild b none) = s1 at hcl
        have ho := hcl.isolated.toOrderly
        have hfr := make_notMem ho (.newLeaf item type s1.map.seq) hcl.allocated
        refine ⟨⟨_, hcl.make rfl nofun⟩, nofun, ?_⟩
        rintro _ ⟨⟩
        exact ⟨(make_owned s1 rfl).seen, stored_newLeaf s1 item type _ hfr⟩
  · cases isv2 <;> exact hst

/-! ### The way up -/

theorem unlink_spec (h : Climb T s0 X id hs fs s) (hne : hs ≠ []) (isv2 : Bool) (type : TNType)
    (child : Option NodePtr) (hnu : child = none → u = .null)
    (hch : ∀ q, child = some q → Visible T s q ∧ s.f.Stored (onStack hs) u q)
    (hgr : Growing u.height fs) :
    Done T s0 (SHAMap.unlink isv2 id type fs u) (unlink isv2 id type hs child s) := by
  induction hs generalizing X fs s u child with
  | nil => exact absurd rfl hne
  | cons e hs ih =>
    obtain ⟨p, depth⟩ := e
    obtain ⟨t, _, rfl, ⟨_, _, -, -, rfl, -⟩, -⟩ := h.head
    obtain ⟨hcl, n, hun⟩ := h.unshare
    obtain ⟨hcl', ho, hX, hn, hst⟩ := hcl.fill hun.owned child hnu fun q hq => by
      obtain ⟨hse, hu⟩ := hch q hq
      refine ⟨hun.writes.seen hse, ?_⟩
      exact (hun.stored (X := onStack ((p, depth) :: hs)) List.mem_cons_self hu).mono
        (Set.insert_subset_insert (onStack_cons_subset p depth hs))
    obtain ⟨hlt, hgr⟩ := hgr
    have hle := height_setChild_le (route id depth) hlt
    rw [unlink, SHAMap.unlink]
    obtain ⟨rfl, rfl, hro⟩ | ⟨hne, hd, -⟩ := hcl.rooted
    · rw [if_pos rfl]
      cases hcl'.frames
      refine ⟨hcl'.isolated, hcl'.writes, ?_, ?_⟩
      · change Visible T _ (s.unshareNode p 0).1.map.root
        rw [← hro]
        exact ho.seen
      change Family.Stored _ ∅ _ (s.unshareNode p 0).1.map.root
      rw [← hro]
      exact hst.mono (Set.empty_subset _)
    rw [if_neg hd, if_neg hd]
    obtain ⟨⟨_, hup⟩, hno, hso⟩ := pullUp_spec hcl' ho hX hn hst
      (hle.trans hgr.le) isv2 type
    exact ih hup hne _ hno hso (hgr.mono ((height_pullUp_le isv2 type _).trans hle))

theorem delItem_spec (hwf : WellFormed v root) (hi : Isolated T s.f) (hkn : Known T s)
    (hro : Visible T s s.map.root) (ht : s.f.Stored ∅ root s.map.root) (id : Tag) :
    Agrees T s (s.delItem id) (SHAMap.delItem root id) := by
  have hsa : Done T s root s := ⟨hi, .refl s, hro, ht⟩
  obtain ⟨p, m, _, t, _, h⟩ := exists_landed hwf ht id
  obtain ⟨hcl, -, -, hst⟩ := h.climb hi hkn hro
  unfold delItem SHAMap.delItem
  rw [h.heap, h.tree, isV2_eq hwf ht]
  dsimp only
  cases t with
  | null => exact hst.elim
  | inner _ _ =>
    obtain ⟨_, _, hbo, -⟩ := body_inner hst
    rw [hbo]
    exact ⟨hsa, rfl⟩
  | leaf item type =>
    rw [(body_leaf hst).1]
    dsimp only
    by_cases hk : item.key = id
    · rw [if_neg (not_not.2 hk), if_neg (not_not.2 hk)]
      have hgr := growing_of_trail h.trail h.rooted ht hwf.height_le
      exact ⟨unlink_spec hcl (h.leaf_ne_nil hwf ht).1 _ type none (fun _ => rfl) nofun hgr, rfl⟩
    · rw [if_pos hk, if_pos hk]
      exact ⟨hsa, rfl⟩

end MapState
end FinPal
