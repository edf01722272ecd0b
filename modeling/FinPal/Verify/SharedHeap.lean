import FinPal.Lib.HeapTree
import FinPal.SHAMap.Shared
import FinPal.Verify.SHAMapCanonical

/-!
# Who may change a node

A node has the sequence number of the map that made it until it is shared. Every pointer leads to a
node of the same map, of an older map that changes no more, or to a shared one. So the nodes that a
map may still change are seen by no other map.
-/

namespace FinPal
open HeapFormat Function

/-! ### Trees in the heap -/

namespace SharedNode
variable {n : SharedNode} {b m : Fin 16} {seq : ℕ} {children : Fin 16 → Option NodePtr}
  {node : InnerNode}

/-- What a node of the heap stores, without its hash and its number. -/
def shape (n : SharedNode) : NodeShape (Fin 16) InnerNode SHAMapItem TNType NodePtr :=
  match n.body with
  | .leaf item type => .leaf item type
  | .inner node children _ => .inner node children

/-- The hash is that of the tree, or is still to be computed. -/
def Good (n : SharedNode) (t : Node) : Prop :=
  match n.body with
  | .leaf _ _ => n.hash = t.hash
  | .inner _ children hashes => (n.hash = t.hash ∨ n.hash = .zero ∧ n.seq ≠ 0) ∧
      ∀ b, children b = none → hashes b = .zero

def child (n : SharedNode) (b : Fin 16) : Option NodePtr :=
  match n.body with
  | .inner _ children _ => children b
  | .leaf _ _ => none

theorem eq_inner (h : n.shape = .inner node children) :
    ∃ hashes hash seq, n = ⟨.inner node children hashes, hash, seq⟩ := by
  obtain ⟨body, hash, seq⟩ := n
  cases body with
  | leaf => cases h
  | inner _ _ hashes =>
    cases h
    exact ⟨hashes, hash, seq, rfl⟩

theorem child_of_shape (h : n.shape = .inner node children) : n.child = children := by
  obtain ⟨_, _, _, rfl⟩ := eq_inner h
  rfl

@[simp] theorem seq_setChild (c : Option NodePtr) : (n.setChild b c).seq = n.seq := by
  unfold setChild
  split <;> rfl

theorem child_setChild {c : Option NodePtr} {q : NodePtr} (h : (n.setChild m c).child b = some q) :
    n.child b = some q ∨ c = some q := by
  obtain ⟨body, _, _⟩ := n
  cases body with
  | leaf _ _ => cases h
  | inner _ children _ =>
    change update children m c b = some q at h
    by_cases hb : b = m
    · subst hb
      rw [update_self] at h
      exact .inr h
    · rw [update_of_ne hb] at h
      exact .inl h

theorem shape_setChild (h : n.shape = .inner node children) (c : Option NodePtr) :
    (n.setChild b c).shape = .inner node (update children b c) := by
  obtain ⟨_, _, _, rfl⟩ := eq_inner h
  rfl

theorem good_setChild {t t' : Node}
    (h : n.shape = .inner node children) (hg : n.Good t) (hs : n.seq ≠ 0)
    (c : Option NodePtr) : (n.setChild b c).Good t' := by
  obtain ⟨_, _, _, rfl⟩ := eq_inner h
  refine ⟨.inr ⟨rfl, hs⟩, fun b' hb' => ?_⟩
  by_cases hb : b' = b
  · subst hb
    exact update_self ..
  · rw [update_of_ne hb] at hb' ⊢
    exact hg.2 b' hb'

theorem good_clone {t : Node} (hg : n.Good t) (hs : seq ≠ 0) : (n.clone seq).Good t := by
  unfold Good at hg ⊢
  split at hg
  case h_1 hb =>
    rw [clone, hb]
    exact hg
  case h_2 hb =>
    rw [clone, hb]
    exact ⟨hg.1.imp_right fun h => ⟨h.1, hs⟩, hg.2⟩

end SharedNode

/-- Nodes as cells that stand for the nodes of a tree. -/
abbrev nodeFormat : HeapFormat (Fin 16) InnerNode SHAMapItem TNType NodePtr SharedNode where
  shape := SharedNode.shape
  Good := SharedNode.Good

/-- The tree is at a pointer, off the nodes in `X`. -/
abbrev Family.Stored (f : Family) (X : Set NodePtr) : Node → NodePtr → Prop :=
  nodeFormat.Stored f.node X

theorem Family.Stored.clone {f f' : Family} {X : Set NodePtr} {t : Node} {p q : NodePtr}
    {n : SharedNode} {seq : ℕ} (ht : f.Stored X t p) (hn : f.node p = some n)
    (hk : ∀ q n, f.node q = some n → f'.node q = some n) (hq : q ∉ X)
    (hcl : f'.node q = some (n.clone seq)) (hs : seq ≠ 0) : f'.Stored X t q := by
  have ht' : f'.Stored X t p := ht.congr fun q _ => hk q
  cases t with
  | null => exact ht.elim
  | leaf _ _ =>
    obtain ⟨-, n', hn', hsh, hg⟩ := ht
    cases hn.symm.trans hn'
    exact ⟨hq, _, hcl, hsh, SharedNode.good_clone hg hs⟩
  | inner _ _ =>
    obtain ⟨-, n', cs, hn', hsh, hg, hbe⟩ := ht'
    cases (hk p n hn).symm.trans hn'
    exact ⟨hq, _, cs, hcl, hsh, SharedNode.good_clone hg hs, hbe⟩

/-! ### Makers of nodes -/

/-- What there is to know about the maps that make nodes. -/
structure Makers where
  size : ℕ
  seq : ℕ → ℕ
  frozen : ℕ → Prop

variable {T : Makers} {f : Family} {m : ℕ} {p q : NodePtr} {n n' : SharedNode} {b : Fin 16}

/-- The node is shared, or it comes from a map or an older one. -/
def Older (T : Makers) (m : ℕ) (p : NodePtr) (n : SharedNode) : Prop :=
  n.seq = 0 ∨ p.maker = m ∨ T.seq p.maker < T.seq m

/-- The node is shared, or from this map or one that changes no more. -/
def Guarded (T : Makers) (m : ℕ) (p : NodePtr) (n : SharedNode) : Prop :=
  n.seq = 0 ∨ p.maker = m ∨ T.frozen p.maker

/-- Nodes have the sequence numbers of their makers, and point to older ones; what is below a shared
node is shared. -/
structure Orderly (T : Makers) (f : Family) : Prop where
  made : ∀ p n, f.node p = some n → p.index < f.count ∧ p.maker < T.size
  seqs : ∀ p n, f.node p = some n → n.seq = 0 ∨ n.seq = T.seq p.maker
  below : ∀ p n b q, f.node p = some n → n.child b = some q →
    ∃ n', f.node q = some n' ∧ (n.seq = 0 → n'.seq = 0) ∧ Older T p.maker q n'

/-- No node points to one that another map may change. -/
structure Isolated (T : Makers) (f : Family) : Prop extends Orderly T f where
  guarded : ∀ p n b q n', f.node p = some n → n.child b = some q → f.node q = some n' →
    Guarded T p.maker q n'

theorem Orderly.fresh (h : Orderly T f) (m : ℕ) : f.node ⟨m, f.count⟩ = none := by
  by_contra hne
  obtain ⟨n, hn⟩ := Option.ne_none_iff_exists'.1 hne
  exact lt_irrefl _ (h.made _ n hn).1

theorem Orderly.older (h : Orderly T f) (hp : f.node p = some n) (hold : Older T m p n)
    (hb : n.child b = some q) (hq : f.node q = some n') : Older T m q n' := by
  obtain ⟨_, hq', hze, hl⟩ := h.below p n b q hp hb
  cases hq.symm.trans hq'
  obtain hz | rfl | hlt := hold
  · exact .inl (hze hz)
  · exact hl
  obtain hz | heq | hlt' := hl
  · exact .inl hz
  · exact .inr (.inr (by rwa [heq]))
  · exact .inr (.inr (hlt'.trans hlt))

theorem Orderly.maker_eq (h : Orderly T f) (hp : f.node p = some n) (hold : Older T m p n)
    (hne : n.seq ≠ 0) (hs : n.seq = T.seq m) : p.maker = m := by
  obtain hz | heq | hlt := hold
  · exact absurd hz hne
  · exact heq
  obtain hz | heq := h.seqs p n hp
  · exact absurd hz hne
  · rw [← heq, hs] at hlt
    exact absurd hlt (lt_irrefl _)

theorem Isolated.guard (h : Isolated T f) (hp : f.node p = some n) (hgu : Guarded T m p n)
    (hb : n.child b = some q) (hq : f.node q = some n') : Guarded T m q n' := by
  obtain ⟨_, hq', hze, -⟩ := h.below p n b q hp hb
  cases hq.symm.trans hq'
  have hl := h.guarded p n b q n' hp hb hq
  obtain hz | rfl | _ := hgu
  · exact .inl (hze hz)
  · exact hl
  obtain hz | heq | hf := hl
  · exact .inl hz
  · exact .inr (.inr (by rwa [heq]))
  · exact .inr (.inr hf)

/-! ### What an operation on a map may do -/

namespace MapState
variable {s s' s'' : MapState} {t : Node} {X : Set NodePtr}

/-- The map is the one that `T` knows under its name. -/
structure Known (T : Makers) (s : MapState) : Prop where
  lt : s.map.id < T.size
  seq : T.seq s.map.id = s.map.seq
  pos : s.map.seq ≠ 0

/-- The map sees the node, and no one who may change it is another. -/
def Visible (T : Makers) (s : MapState) (p : NodePtr) : Prop :=
  ∃ n, s.f.node p = some n ∧ Older T s.map.id p n ∧ Guarded T s.map.id p n

/-- The node is one that the map may change. -/
def Owned (s : MapState) (p : NodePtr) : Prop :=
  p.maker = s.map.id ∧ ∃ n, s.f.node p = some n ∧ n.seq = s.map.seq

theorem Owned.seen (h : Owned s p) : Visible T s p := by
  obtain ⟨hma, n, hn, -⟩ := h
  exact ⟨n, hn, .inr (.inl hma), .inr (.inl hma)⟩

theorem Owned.seq_ne_zero (h : Owned s p) (hkn : Known T s) (hn : s.f.node p = some n) :
    n.seq ≠ 0 := by
  obtain ⟨-, _, hn', hs⟩ := h
  cases hn.symm.trans hn'
  rw [hs]
  exact hkn.pos

theorem Visible.child (hp : Visible T s p) (hi : Isolated T s.f) (hn : s.f.node p = some n)
    (hb : n.child b = some q) : Visible T s q := by
  obtain ⟨n', hn', hold, hgu⟩ := hp
  cases hn.symm.trans hn'
  obtain ⟨n', hq, -⟩ := hi.below p n b q hn hb
  exact ⟨n', hq, hi.older hn hold hb hq, hi.guard hn hgu hb hq⟩

/-- Only nodes of the map's own are changed, and they stay its own. -/
structure Writes (s s' : MapState) : Prop where
  map : s'.map = { s.map with root := s'.map.root }
  cache : s'.f.treecache = s.f.treecache
  kept : ∀ p n, s.f.node p = some n → ¬ (p.maker = s.map.id ∧ n.seq = s.map.seq) →
    s'.f.node p = some n
  owned : ∀ p, Owned s p → Owned s' p

namespace Writes

theorem id_eq (h : Writes s s') : s'.map.id = s.map.id := by rw [h.map]

theorem seq_eq (h : Writes s s') : s'.map.seq = s.map.seq := by rw [h.map]

theorem refl (s : MapState) : Writes s s := ⟨rfl, rfl, fun _ _ h _ => h, fun _ h => h⟩

section
variable (h : Writes s s')

include h

theorem trans (h' : Writes s' s'') : Writes s s'' where
  map := by rw [h'.map, h.map]
  cache := h'.cache.trans h.cache
  kept p n hp hne := by
    refine h'.kept p n (h.kept p n hp hne) ?_
    rw [h.id_eq, h.seq_eq]
    exact hne
  owned p hp := h'.owned p (h.owned p hp)

theorem seen (hp : Visible T s p) : Visible T s' p := by
  obtain ⟨n, hn, hold, hgu⟩ := hp
  by_cases ho : p.maker = s.map.id ∧ n.seq = s.map.seq
  · exact (h.owned p ⟨ho.1, n, hn, ho.2⟩).seen
  refine ⟨n, h.kept p n hn ho, ?_⟩
  rw [h.id_eq]
  exact ⟨hold, hgu⟩

theorem known (hs : Known T s) : Known T s' where
  lt := by rw [h.id_eq]; exact hs.lt
  seq := by rw [h.id_eq, h.seq_eq]; exact hs.seq
  pos := by rw [h.seq_eq]; exact hs.pos

theorem stored_of_off (ht : s.f.Stored {p | Owned s p} t p) : s'.f.Stored ∅ t p := by
  refine (ht.congr fun q hq c hc => h.kept q c hc fun ho => hq ?_).mono (Set.empty_subset _)
  exact ⟨ho.1, c, hc, ho.2⟩

end

theorem not_own (hs : Known T s) (hmut : ¬ T.frozen s.map.id) (hm : m ≠ s.map.id)
    (hgu : Guarded T m p n) : ¬ (p.maker = s.map.id ∧ n.seq = s.map.seq) := by
  rintro ⟨hma, hseq⟩
  obtain hz | heq | hf := hgu
  · exact hs.pos (hseq.symm.trans hz)
  · exact hm (heq.symm.trans hma)
  · exact hmut (hma ▸ hf)

theorem stored (h : Writes s s') (hi : Isolated T s.f) (hs : Known T s)
    (hmut : ¬ T.frozen s.map.id) (hm : m ≠ s.map.id) (ht : s.f.Stored ∅ t p)
    (hp : ∃ n, s.f.node p = some n ∧ Guarded T m p n) : s'.f.Stored ∅ t p := by
  refine h.stored_of_off
    (ht.avoid (A := fun _ p => ∃ n, s.f.node p = some n ∧ Guarded T m p n) hp ?_ ?_)
  · rintro _ _ p c _ b q ⟨n, hn, hgu⟩ hg hsh hb hq
    cases hn.symm.trans hg
    obtain ⟨n', hn'⟩ := hq.exists_cell
    rw [← SharedNode.child_of_shape hsh] at hb
    exact ⟨n', hn', hi.guard hg hgu hb hn'⟩
  rintro t p ⟨n, hn, hgu⟩ - ⟨hma, n', hn', hseq⟩
  cases hn.symm.trans hn'
  exact not_own hs hmut hm hgu ⟨hma, hseq⟩

theorem stored_shared (h : Writes s s') (hord : Orderly T s.f) (hs : Known T s)
    (ht : s.f.Stored ∅ t p) (hp : ∃ n, s.f.node p = some n ∧ n.seq = 0) : s'.f.Stored ∅ t p := by
  refine h.stored_of_off (ht.avoid (A := fun _ p => ∃ n, s.f.node p = some n ∧ n.seq = 0) hp ?_ ?_)
  · rintro _ - p c _ b q ⟨n, hn, hz⟩ hg hsh hb -
    cases hn.symm.trans hg
    rw [← SharedNode.child_of_shape hsh] at hb
    obtain ⟨n', hn', hze, -⟩ := hord.below p c b q hg hb
    exact ⟨n', hn', hze hz⟩
  rintro t p ⟨n, hn, hz⟩ - ⟨-, n', hn', hseq⟩
  cases hn.symm.trans hn'
  exact hs.pos (hseq.symm.trans hz)

end Writes

/-! ### Making and changing nodes -/

theorem make_node (s : MapState) (n : SharedNode) :
    (s.make n).1.f.node = update s.f.node (s.make n).2 (some n) := rfl

theorem make_self (s : MapState) (n : SharedNode) : (s.make n).1.f.node (s.make n).2 = some n :=
  update_self ..

section
variable (hord : Orderly T s.f) (n : SharedNode)
include hord

theorem make_fresh : s.f.node (s.make n).2 = none := hord.fresh s.map.id

theorem make_of_some (hq : s.f.node q = some n') : (s.make n).1.f.node q = some n' := by
  rw [make_node, update_of_ne]
  · exact hq
  rintro rfl
  rw [make_fresh hord n] at hq
  cases hq

theorem make_stored (h : s.f.Stored X t q) : (s.make n).1.f.Stored (insert (s.make n).2 X) t q := by
  refine (h.insert_fresh (make_fresh hord n)).congr fun q hq c hc => ?_
  exact make_of_some hord n hc

theorem make_writes : Writes s (s.make n).1 where
  map := rfl
  cache := rfl
  kept _ _ hp _ := make_of_some hord n hp
  owned := by
    rintro p ⟨hma, n', hp, hs⟩
    exact ⟨hma, n', make_of_some hord n hp, hs⟩

end

theorem make_owned (s : MapState) (hs : n.seq = s.map.seq) : Owned (s.make n).1 (s.make n).2 :=
  ⟨rfl, n, make_self s n, hs⟩

theorem make_orderly (hord : Orderly T s.f) (hs : Known T s) (hseq : n.seq = 0 ∨ n.seq = s.map.seq)
    (hch : ∀ b q, n.child b = some q →
      ∃ n', s.f.node q = some n' ∧ (n.seq = 0 → n'.seq = 0) ∧ Older T s.map.id q n') :
    Orderly T (s.make n).1.f where
  made p n' hp := by
    rw [make_node] at hp
    by_cases hpq : p = (s.make n).2
    · subst hpq
      exact ⟨Nat.lt_succ_self _, hs.lt⟩
    · rw [update_of_ne hpq] at hp
      exact ⟨Nat.lt_succ_of_lt (hord.made p n' hp).1, (hord.made p n' hp).2⟩
  seqs p n' hp := by
    rw [make_node] at hp
    by_cases hpq : p = (s.make n).2
    · subst hpq
      rw [update_self] at hp
      cases hp
      exact hseq.imp_right fun h => h.trans hs.seq.symm
    · rw [update_of_ne hpq] at hp
      exact hord.seqs p n' hp
  below p n' b q hp hb := by
    rw [make_node] at hp
    have hbe : ∃ n'', s.f.node q = some n'' ∧ (n'.seq = 0 → n''.seq = 0) ∧
        Older T p.maker q n'' := by
      by_cases hpq : p = (s.make n).2
      · subst hpq
        rw [update_self] at hp
        cases hp
        exact hch b q hb
      · rw [update_of_ne hpq] at hp
        exact hord.below p n' b q hp hb
    obtain ⟨n'', hq, hbe⟩ := hbe
    exact ⟨n'', make_of_some hord n hq, hbe⟩

theorem make_isolated (hi : Isolated T s.f) (hs : Known T s) (hseq : n.seq = s.map.seq)
    (hch : ∀ b q, n.child b = some q → Visible T s q) : Isolated T (s.make n).1.f where
  toOrderly := make_orderly hi.toOrderly hs (.inr hseq) fun b q hb => by
    obtain ⟨n', hq, hold, -⟩ := hch b q hb
    exact ⟨n', hq, fun hz => absurd (hseq.symm.trans hz) hs.pos, hold⟩
  guarded p n' b q n'' hp hb hq := by
    rw [make_node] at hp
    by_cases hpq : p = (s.make n).2
    · subst hpq
      rw [update_self] at hp
      cases hp
      obtain ⟨n1, hq1, -, hgu⟩ := hch b q hb
      cases hq.symm.trans (make_of_some hi.toOrderly n hq1)
      exact hgu
    rw [update_of_ne hpq] at hp
    obtain ⟨n1, hq1, -⟩ := hi.below p n' b q hp hb
    cases hq.symm.trans (make_of_some hi.toOrderly n hq1)
    exact hi.guarded p n' b q _ hp hb hq1

variable {g : SharedNode → SharedNode}

theorem modify_self (hp : s.f.node p = some n) (g : SharedNode → SharedNode) :
    (s.modify p g).f.node p = some (g n) := by
  change update s.f.node p ((s.f.node p).map g) p = _
  rw [update_self, hp]
  rfl

theorem modify_of_ne (hq : q ≠ p) (g : SharedNode → SharedNode) :
    (s.modify p g).f.node q = s.f.node q :=
  update_of_ne hq ..

theorem modify_stored (hp : p ∈ X) (g : SharedNode → SharedNode) (h : s.f.Stored X t q) :
    (s.modify p g).f.Stored X t q := by
  refine h.congr fun q hq c hc => ?_
  have hqp : q ≠ p := by
    rintro rfl
    exact hq hp
  rw [modify_of_ne hqp]
  exact hc

theorem modify_writes (hp : Owned s p) (hg : ∀ n, (g n).seq = n.seq) : Writes s (s.modify p g) where
  map := rfl
  cache := rfl
  kept q n hq hne := by
    rw [modify_of_ne]
    · exact hq
    rintro rfl
    obtain ⟨hma, _, hp, hs⟩ := hp
    cases hq.symm.trans hp
    exact hne ⟨hma, hs⟩
  owned := by
    rintro q ⟨hma, n, hq, hs⟩
    by_cases hqp : q = p
    · subst hqp
      exact ⟨hma, g n, modify_self hq g, (hg n).trans hs⟩
    · exact ⟨hma, n, (modify_of_ne hqp g).trans hq, hs⟩

theorem modify_there (hp : s.f.node p = some n) (hs : (g n).seq = n.seq ∨ (g n).seq = 0)
    (hq : s.f.node q = some n') :
    ∃ n'', (s.modify p g).f.node q = some n'' ∧ (n''.seq = n'.seq ∨ n''.seq = 0) := by
  by_cases hqp : q = p
  · subst hqp
    cases hp.symm.trans hq
    exact ⟨g n, modify_self hp g, hs⟩
  · exact ⟨n', (modify_of_ne hqp g).trans hq, .inl rfl⟩

theorem modify_orderly (hord : Orderly T s.f) (hp : s.f.node p = some n)
    (hs : (g n).seq = n.seq ∨ (g n).seq = 0)
    (hch : ∀ b q, (g n).child b = some q →
      ∃ n', s.f.node q = some n' ∧ ((g n).seq = 0 → n'.seq = 0) ∧ Older T p.maker q n') :
    Orderly T (s.modify p g).f where
  made q n' hq := by
    by_cases hqp : q = p
    · subst hqp
      exact hord.made q n hp
    · rw [modify_of_ne hqp] at hq
      exact hord.made q n' hq
  seqs q n' hq := by
    by_cases hqp : q = p
    · subst hqp
      rw [modify_self hp] at hq
      cases hq
      obtain heq | hz := hs
      · rw [heq]
        exact hord.seqs q n hp
      · exact .inl hz
    · rw [modify_of_ne hqp] at hq
      exact hord.seqs q n' hq
  below q n' b r hq hb := by
    have hbe : ∃ n'', s.f.node r = some n'' ∧ (n'.seq = 0 → n''.seq = 0) ∧
        Older T q.maker r n'' := by
      by_cases hqp : q = p
      · subst hqp
        rw [modify_self hp] at hq
        cases hq
        exact hch b r hb
      · rw [modify_of_ne hqp] at hq
        exact hord.below q n' b r hq hb
    obtain ⟨n'', hr, hze, hold⟩ := hbe
    obtain ⟨n1, hr1, heq | hz⟩ := modify_there hp hs hr
    · refine ⟨n1, hr1, fun h => heq.trans (hze h), ?_⟩
      unfold Older
      rw [heq]
      exact hold
    · exact ⟨n1, hr1, fun _ => hz, .inl hz⟩

theorem modify_isolated (hi : Isolated T s.f) (hs : Known T s) (hp : Owned s p)
    (hg : ∀ n, (g n).seq = n.seq)
    (hch : ∀ n b q, s.f.node p = some n → (g n).child b = some q →
      n.child b = some q ∨ Visible T s q) : Isolated T (s.modify p g).f := by
  obtain ⟨hma, n, hn, hseq⟩ := hp
  have hpos : (g n).seq ≠ 0 := by
    rw [hg, hseq]
    exact hs.pos
  have hse (b q) (hb : (g n).child b = some q) :
      ∃ n', s.f.node q = some n' ∧ Older T p.maker q n' ∧ Guarded T p.maker q n' := by
    obtain hb | ⟨n', hq, hold, hgu⟩ := hch n b q hn hb
    · obtain ⟨n', hq, -, hold⟩ := hi.below p n b q hn hb
      exact ⟨n', hq, hold, hi.guarded p n b q n' hn hb hq⟩
    · rw [hma]
      exact ⟨n', hq, hold, hgu⟩
  refine ⟨modify_orderly hi.toOrderly hn (.inl (hg n)) fun b q hb => ?_, ?_⟩
  · obtain ⟨n', hq, hold, -⟩ := hse b q hb
    exact ⟨n', hq, fun hz => absurd hz hpos, hold⟩
  intro q n' b r m hq hb hr
  have hgu : ∃ m0, s.f.node r = some m0 ∧ Guarded T q.maker r m0 := by
    by_cases hqp : q = p
    · subst hqp
      rw [modify_self hn] at hq
      cases hq
      obtain ⟨m0, hm0, -, hgu⟩ := hse b r hb
      exact ⟨m0, hm0, hgu⟩
    rw [modify_of_ne hqp] at hq
    obtain ⟨m0, hm0, -⟩ := hi.below q n' b r hq hb
    exact ⟨m0, hm0, hi.guarded q n' b r m0 hq hb hm0⟩
  obtain ⟨m0, hm0, hgu⟩ := hgu
  obtain ⟨_, hm1, heq | hz⟩ := modify_there hn (.inl (hg n)) hm0
  · cases hr.symm.trans hm1
    unfold Guarded
    rw [heq]
    exact hgu
  · cases hr.symm.trans hm1
    exact .inl hz

end MapState
end FinPal
