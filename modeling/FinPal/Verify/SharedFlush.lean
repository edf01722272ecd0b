import FinPal.Verify.SHAMapHash
import FinPal.Verify.SharedDelete

/-!
# Giving up nodes

`walkSubTree` changes no tree: what is at a node stays there, whoever sees it. It computes hashes
and shares the nodes of a map, and may replace a node by one with the same hash from the cache.
-/

namespace FinPal
open HeapFormat SHAMap Tag DigitTree Function SharedNode DigitTree
variable {txID : Blob → Tag} {T : Makers} {f : Family} {h h' : ℕ} {X Y : Set NodePtr}
  {p q : NodePtr} {n n' : SharedNode} {t u : Node} {node : InnerNode} {children : Fin 16 → Node}

namespace Family

/-- A node that no map changes any more. -/
def Shared (f : Family) (p : NodePtr) : Prop := ∃ n, f.node p = some n ∧ n.seq = 0

/-- What is in the cache is shared, and has the hash it is under. -/
def Cached (txID : Blob → Tag) (f : Family) : Prop :=
  ∀ hash p, f.treecache hash = some p →
    ∃ t, f.Stored ∅ t p ∧ t.hash = hash ∧ Sound txID t ∧ f.Shared p

theorem hash_eq (hp : f.node p = some n) : f.hash p = n.hash := by
  unfold hash
  rw [hp]
  rfl

theorem hash_of_stored (ht : f.Stored X t p) :
    f.hash p = t.hash ∨ f.hash p = .zero ∧ ¬ f.Shared p := by
  cases t with
  | null => exact ht.elim
  | leaf _ _ => exact .inl (MapState.body_leaf ht).2
  | inner _ _ =>
    obtain ⟨-, n, _, hn, hsh, hg, -⟩ := ht
    obtain ⟨_, _, _, rfl⟩ := eq_inner hsh
    rw [hash_eq hn]
    refine hg.1.imp_right fun hz => ⟨hz.1, ?_⟩
    rintro ⟨_, hn', hseq⟩
    cases hn.symm.trans hn'
    exact hz.2 hseq

theorem Shared.hash_eq (hp : f.Shared p) (ht : f.Stored X t p) : f.hash p = t.hash :=
  (hash_of_stored ht).resolve_right fun hz => hz.2 hp

theorem canonicalize_cases (f : Family) (hash : NodeHash) (p : NodePtr) :
    (∃ q, f.treecache hash = some q ∧ f.canonicalize hash p = (f, q)) ∨
      f.treecache hash = none ∧ f.canonicalize hash p =
        ({ f with treecache := update f.treecache hash (some p) }, p) := by
  unfold canonicalize
  cases hq : f.treecache hash with
  | some q => exact .inl ⟨q, rfl, rfl⟩
  | none => exact .inr ⟨rfl, rfl⟩

end Family

namespace MapState
variable {s s' s'' : MapState}

/-- The trees are where they were. Nodes are shared or unchanged, but for those of `X`; nodes with
more than `h` below them are unchanged. -/
structure Settles (h : ℕ) (X : Set NodePtr) (s s' : MapState) : Prop where
  map : s'.map = { s.map with root := s'.map.root }
  there : ∀ p n, s.f.node p = some n → ∃ n', s'.f.node p = some n' ∧ (n'.seq = n.seq ∨ n'.seq = 0)
  kept : ∀ p n, s'.f.node p = some n → n.seq ≠ 0 → p ∉ X → s.f.node p = some n
  stored : ∀ t p, s.f.Stored ∅ t p → s'.f.Stored ∅ t p
  above : ∀ t p, s.f.Stored ∅ t p → h < t.height → s'.f.node p = s.f.node p

namespace Settles

theorem id_eq (hs : Settles h X s s') : s'.map.id = s.map.id := by rw [hs.map]

theorem seq_eq (hs : Settles h X s s') : s'.map.seq = s.map.seq := by rw [hs.map]

theorem refl (h : ℕ) (s : MapState) : Settles h ∅ s s where
  map := rfl
  there _ n hp := ⟨n, hp, .inl rfl⟩
  kept _ _ hp _ _ := hp
  stored _ _ ht := ht
  above _ _ _ _ := rfl

section
variable (hs : Settles h X s s')
include hs

theorem mono (hle : h ≤ h') (hXY : X ⊆ Y) : Settles h' Y s s' where
  map := hs.map
  there := hs.there
  kept p n hp hne hY := hs.kept p n hp hne fun hX => hY (hXY hX)
  stored := hs.stored
  above t p ht hlt := hs.above t p ht (hle.trans_lt hlt)

theorem trans (hs' : Settles h X s' s'') : Settles h X s s'' where
  map := by rw [hs'.map, hs.map]
  there p n hp := by
    obtain ⟨n', hp', hseq⟩ := hs.there p n hp
    obtain ⟨n'', hp'', hseq'⟩ := hs'.there p n' hp'
    refine ⟨n'', hp'', ?_⟩
    obtain heq | hz := hseq'
    · rw [heq]
      exact hseq
    · exact .inr hz
  kept p n hp hne hX := hs.kept p n (hs'.kept p n hp hne hX) hne hX
  stored t p ht := hs'.stored t p (hs.stored t p ht)
  above t p ht hlt := (hs'.above t p (hs.stored t p ht) hlt).trans (hs.above t p ht hlt)

theorem shared (hp : s.f.Shared p) : s'.f.Shared p := by
  obtain ⟨n, hn, hz⟩ := hp
  obtain ⟨n', hn', heq | hz'⟩ := hs.there p n hn
  · exact ⟨n', hn', heq.trans hz⟩
  · exact ⟨n', hn', hz'⟩

theorem close (hX : ∀ x ∈ X, s'.f.Shared x) : Settles h ∅ s s' where
  map := hs.map
  there := hs.there
  kept p n hp hne _ := by
    refine hs.kept p n hp hne fun hpX => ?_
    obtain ⟨_, hp', hz⟩ := hX p hpX
    cases hp.symm.trans hp'
    exact hne hz
  stored := hs.stored
  above := hs.above

theorem known (hk : Known T s) : Known T s' where
  lt := by rw [hs.id_eq]; exact hk.lt
  seq := by rw [hs.id_eq, hs.seq_eq]; exact hk.seq
  pos := by rw [hs.seq_eq]; exact hk.pos

theorem cached (hca : s'.f.treecache = s.f.treecache)
    (hc : s.f.Cached txID) : s'.f.Cached txID := by
  intro hash p hp
  rw [hca] at hp
  obtain ⟨t, ht, hh, hso, hsh⟩ := hc hash p hp
  exact ⟨t, hs.stored t p ht, hh, hso, hs.shared hsh⟩

theorem owned (hp : Owned s p) (ht : s.f.Stored ∅ t p) (hlt : h < t.height) : Owned s' p := by
  obtain ⟨hma, n, hn, hseq⟩ := hp
  refine ⟨hma.trans hs.id_eq.symm, n, ?_, hseq.trans hs.seq_eq.symm⟩
  rw [hs.above t p ht hlt, hn]

end

theorem guarded {m : ℕ} (hs : Settles h ∅ s s')
    (hp : ∃ n, s.f.node p = some n ∧ Older T m p n ∧ Guarded T m p n) :
    ∃ n, s'.f.node p = some n ∧ Older T m p n ∧ Guarded T m p n := by
  obtain ⟨n, hn, hold, hgu⟩ := hp
  obtain ⟨n', hn', -⟩ := hs.there p n hn
  by_cases hz : n'.seq = 0
  · exact ⟨n', hn', .inl hz, .inl hz⟩
  · cases hn.symm.trans (hs.kept p n' hn' hz (Set.notMem_empty p))
    exact ⟨n, hn', hold, hgu⟩

theorem isolated (hs : Settles h ∅ s s') (hi : Isolated T s.f) (ho : Orderly T s'.f) :
    Isolated T s'.f where
  toOrderly := ho
  guarded p n b q n' hp hb hq := by
    obtain ⟨_, hq'', hze, -⟩ := ho.below p n b q hp hb
    cases hq.symm.trans hq''
    by_cases hz : n.seq = 0
    · exact .inl (hze hz)
    have hp' := hs.kept p n hp hz (Set.notMem_empty p)
    obtain ⟨n0, hq0, -, hold⟩ := hi.below p n b q hp' hb
    have hgu := hi.guarded p n b q n0 hp' hb hq0
    obtain ⟨_, hq1, -, hgu'⟩ := hs.guarded ⟨n0, hq0, hold, hgu⟩
    cases hq.symm.trans hq1
    exact hgu'

end Settles

theorem make_settles (ho : Orderly T s.f) (h : ℕ) (n : SharedNode) :
    Settles h {(s.make n).2} s (s.make n).1 where
  map := rfl
  there p n' hp := ⟨n', make_of_some ho n hp, .inl rfl⟩
  kept p n' hp _ hX := by
    rw [make_node, update_of_ne hX] at hp
    exact hp
  stored t p ht := (make_stored ho n ht).mono (Set.empty_subset _)
  above t p ht _ := by
    obtain ⟨n', hp⟩ := ht.exists_cell
    rw [make_of_some ho n hp, hp]

variable {g : SharedNode → SharedNode}

theorem modify_settles (hp : s.f.node p = some n) (ht : s.f.Stored ∅ t p)
    (hseq : (g n).seq = n.seq ∨ (g n).seq = 0)
    (hun : nodeFormat.Unfolds (s.modify p g).f.node (s.f.Stored ∅) t p) :
    Settles t.height {p} s (s.modify p g) where
  map := rfl
  there q n' hq := modify_there hp hseq hq
  kept q n' hq _ hX := by
    rw [modify_of_ne hX] at hq
    exact hq
  stored u q hu := by
    refine .of_unfolds (fun u q hu => ⟨Set.notMem_empty q, ?_⟩) hu
    by_cases hqp : q = p
    · subst hqp
      cases hu.unique ht
      exact hun
    refine hu.unfolds.imp (fun c hc => ?_) fun _ _ _ _ _ _ _ _ _ _ h => h
    rw [modify_of_ne hqp]
    exact hc
  above u q hu hlt := by
    refine modify_of_ne ?_ g
    rintro rfl
    cases hu.unique ht
    exact lt_irrefl _ hlt

/-! ### One node -/

/-- A node of the map is given up: the tree is at a shared node, perhaps another. -/
structure Flushed (txID : Blob → Tag) (T : Makers) (s : MapState) (t : Node) (p : NodePtr)
    (r : MapState × NodePtr) : Prop where
  orderly : Orderly T r.1.f
  cached : r.1.f.Cached txID
  settles : Settles t.height ∅ s r.1
  stored : r.1.f.Stored ∅ t r.2
  shared : r.1.f.Shared r.2
  own : r.1.f.Shared p

/-- The children that a node points to are shared. -/
def SharedBelow (f : Family) (p : NodePtr) : Prop :=
  ∀ n b q, f.node p = some n → n.child b = some q → f.Shared q

theorem unfolds_setSeq (hn : s.f.node p = some n) (ht : s.f.Stored ∅ t p)
    (hh : s.f.hash p = t.hash) :
    nodeFormat.Unfolds (s.modify p (·.setSeq 0)).f.node (s.f.Stored ∅) t p := by
  rw [Family.hash_eq hn] at hh
  have hse := modify_self hn (·.setSeq 0)
  obtain ⟨body, _, _⟩ := n
  cases t with
  | null => exact ht.elim
  | leaf _ _ =>
    obtain ⟨-, n, hn', hsh, hg⟩ := ht
    cases hn.symm.trans hn'
    exact ⟨_, hse, hsh, by cases body <;> first | exact hh | cases hsh⟩
  | inner _ _ =>
    obtain ⟨-, n, cs, hn', hsh, hg, hbe⟩ := ht
    cases hn.symm.trans hn'
    cases body with
    | leaf => cases hsh
    | inner _ _ _ => exact ⟨_, cs, hse, hsh, ⟨.inl hh, hg.2⟩, hbe⟩

theorem share_spec (ho : Orderly T s.f) (hc : s.f.Cached txID) (ht : s.f.Stored ∅ t p)
    (hso : Sound txID t) (hha : s.f.hash p = t.hash) (hbe : SharedBelow s.f p)
    (doWrite : Bool) : Flushed txID T s t p (share doWrite s p) := by
  obtain ⟨n, hn⟩ := ht.exists_cell
  have hset := modify_settles hn ht (.inr rfl) (unfolds_setSeq hn ht hha)
  have ho' : Orderly T (s.modify p (·.setSeq 0)).f := by
    refine modify_orderly ho hn (.inr rfl) fun b q hb => ?_
    obtain ⟨n', hq, hz⟩ := hbe n b q hn hb
    exact ⟨n', hq, fun _ => hz, .inl hz⟩
  have hsh : (s.modify p (·.setSeq 0)).f.Shared p := ⟨_, modify_self hn _, rfl⟩
  have hcl := hset.close fun x hx => by rwa [Set.mem_singleton_iff.1 hx]
  have hc' := hset.cached rfl hc
  have ht' := hset.stored t p ht
  unfold share
  split_ifs with hwr
  · have heq : s.writeNode p = Prod.map (fun f => { s with f }) id
        ((s.modify p (·.setSeq 0)).f.canonicalize ((s.modify p (·.setSeq 0)).f.hash p) p) := rfl
    rw [heq, hsh.hash_eq ht']
    obtain ⟨q, hq, heq⟩ | ⟨-, heq⟩ := Family.canonicalize_cases (s.modify p (·.setSeq 0)).f t.hash p
    · -- A node of the cache with the same hash has the same tree.
      obtain ⟨_, hst, hha', hso', hq⟩ := hc' _ q hq
      cases hash_inj hso' hso hha'
      rw [heq]
      exact ⟨ho', hc', hcl, hst, hq, hsh⟩
    rw [heq]
    refine ⟨⟨ho'.made, ho'.seqs, ho'.below⟩, fun hash q hq => ?_,
      ⟨hcl.map, hcl.there, hcl.kept, hcl.stored, hcl.above⟩, ht', hsh, hsh⟩
    change update _ _ _ _ = _ at hq
    by_cases hh : hash = t.hash
    · subst hh
      rw [update_self] at hq
      cases hq
      exact ⟨t, ht', rfl, hso, hsh⟩
    · rw [update_of_ne hh] at hq
      exact hc' hash q hq
  · exact ⟨ho', hc', hcl, ht', hsh, hsh⟩

theorem preFlushNode_spec (ho : Orderly T s.f) (hk : Known T s) (hn : s.f.node p = some n)
    (hold : Older T s.map.id p n) (hne : n.seq ≠ 0) (ht : s.f.Stored ∅ t p) (h : ℕ) :
    let c := s.preFlushNode p
    Orderly T c.1.f ∧ Settles h {c.2} s c.1 ∧ c.1.f.treecache = s.f.treecache ∧ Owned c.1 c.2 ∧
      c.1.f.Stored ∅ t c.2 := by
  intro c
  by_cases hseq : n.seq = s.map.seq
  · have hc : c = (s, p) := by
      unfold c preFlushNode
      rw [hn]
      exact if_neg (not_not.2 hseq)
    rw [hc]
    have hma := ho.maker_eq hn hold hne (hseq.trans hk.seq.symm)
    exact ⟨ho, (Settles.refl h s).mono le_rfl (Set.empty_subset _), rfl, ⟨hma, n, hn, hseq⟩, ht⟩
  have hc : c = s.make (n.clone s.map.seq) := by
    unfold c preFlushNode
    rw [hn]
    exact if_pos hseq
  rw [hc]
  refine ⟨make_orderly ho hk (.inr rfl) fun b q hb => ?_, make_settles ho h _, rfl,
    make_owned s rfl, ?_⟩
  · obtain ⟨n', hq, -⟩ := ho.below p n b q hn hb
    exact ⟨n', hq, fun hz => absurd hz hk.pos, ho.older hn hold hb hq⟩
  · exact Family.Stored.clone ht hn (fun q n' hq => make_of_some ho _ hq) (Set.notMem_empty _)
      (make_self s _) hk.pos

theorem flushLeaf_spec {item : SHAMapItem} {type : TNType} (ho : Orderly T s.f)
    (hc : s.f.Cached txID) (ht : s.f.Stored ∅ (.leaf item type) p)
    (hso : Sound txID (.leaf item type)) (doWrite : Bool) :
    Flushed txID T s (.leaf item type) p (share doWrite (s.modify p (·.updateHash)) p) := by
  obtain ⟨_, hn⟩ := node_leaf ht
  rw [modify_eq_self hn rfl]
  refine share_spec ho hc ht hso (body_leaf ht).2 (fun n b q hp hb => ?_) doWrite
  cases hn.symm.trans hp
  cases hb

theorem updateHash_eq {cs : Fin 16 → Option NodePtr} {hash : NodeHash} {seq : ℕ}
    (hbe : ∀ b, (cs b = none → children b = .null) ∧
      ∀ q, cs b = some q → f.Stored X (children b) q) :
    updateHash ⟨.inner node cs fun b => Node.hash (children b), hash, seq⟩ =
      ⟨.inner node cs fun b => Node.hash (children b), Node.hash (.inner node children), seq⟩ := by
  have hh := Node.hash.eq_def (.inner node children)
  dsimp only at hh
  rw [← branches_eq hbe] at hh
  exact congrArg (fun h => SharedNode.mk _ h seq) hh.symm

theorem updateHashDeep_spec (ho : Orderly T s.f) (ht : s.f.Stored ∅ (.inner node children) p)
    (hbe : SharedBelow s.f p) : let s' : MapState := { s with f := s.f.updateHashDeep p }
    Orderly T s'.f ∧ Settles (inner node children : Node).height {p} s s' ∧
      s'.f.hash p = Node.hash (.inner node children) ∧ SharedBelow s'.f p := by
  intro s'
  have hst := ht
  obtain ⟨-, n, cs, hn, hsh, hgo, hki⟩ := ht
  obtain ⟨hashes, hash, seq, rfl⟩ := eq_inner hsh
  have hha : (fun b => (cs b).elim (hashes b) s.f.hash) = fun b => Node.hash (children b) := by
    funext b
    cases hb : cs b with
    | none => rw [(hki b).1 hb, Option.elim_none, hgo.2 b hb, Node.hash]
    | some q => exact (hbe _ b q hn hb).hash_eq ((hki b).2 q hb)
  obtain ⟨g, hs', hg⟩ : ∃ g, s' = s.modify p g ∧ g ⟨.inner node cs hashes, hash, seq⟩ =
      ⟨.inner node cs fun b => Node.hash (children b), Node.hash (.inner node children), seq⟩ := by
    refine ⟨_, rfl, ?_⟩
    dsimp only
    rw [hha]
    exact updateHash_eq hki
  rw [hs']
  have hse := modify_self hn g
  rw [hg] at hse
  have hset := modify_settles hn hst (.inl (by rw [hg]))
    ⟨_, cs, hse, rfl, ⟨.inl rfl, fun b hb => congrArg Node.hash ((hki b).1 hb)⟩, hki⟩
  refine ⟨modify_orderly ho hn (.inl (by rw [hg])) fun b q hb => ?_, hset, ?_, ?_⟩
  · rw [hg] at hb ⊢
    exact ho.below p ⟨.inner node cs hashes, hash, seq⟩ b q hn hb
  · exact Family.hash_eq hse
  intro n b q hn' hb
  cases hse.symm.trans hn'
  exact hset.shared (hbe _ b q hn hb)

/-! ### A subtree -/

/-- An inner node of the map's own while its branches are flushed. -/
structure Flushing (txID : Blob → Tag) (T : Makers) (s₀ : MapState) (node : InnerNode)
    (children : Fin 16 → Node) (p : NodePtr) (done : List (Fin 16)) (s : MapState) : Prop where
  orderly : Orderly T s.f
  cached : s.f.Cached txID
  settles : Settles (DigitTree.inner node children : Node).height {p} s₀ s
  owned : Owned s p
  stored : s.f.Stored ∅ (.inner node children) p
  shared : ∀ n, s.f.node p = some n → ∀ b ∈ done, ∀ q, n.child b = some q → s.f.Shared q

variable {s₀ : MapState} {done : List (Fin 16)}

/-- What `flushNode` does for the inner nodes of some height. -/
def FlushSpec (txID : Blob → Tag) (T : Makers) (h : ℕ)
    (flush : NodePtr → MapState → MapState × NodePtr) : Prop :=
  ∀ s p node children, Orderly T s.f → s.f.Cached txID → Known T s → Owned s p →
    s.f.Stored ∅ (.inner node children) p → Sound txID (.inner node children) →
    (DigitTree.inner node children : Node).height ≤ h →
    Flushed txID T s (.inner node children) p (flush p s)

variable {flush : NodePtr → MapState → MapState × NodePtr}

theorem flushChild_spec (hfl : FlushSpec txID T h flush) (ho : Orderly T s.f)
    (hc : s.f.Cached txID) (hk : Known T s) (hn : s.f.node p = some n) (hold : Older T s.map.id p n)
    (hne : n.seq ≠ 0) (ht : s.f.Stored ∅ t p) (hso : Sound txID t) (hhe : t.height ≤ h)
    (doWrite : Bool) : let c := s.preFlushNode p
    let r := if (c.1.f.item c.2).isNone then flush c.2 c.1
      else share doWrite (c.1.modify c.2 (·.updateHash)) c.2
    Orderly T r.1.f ∧ r.1.f.Cached txID ∧ Settles t.height ∅ s r.1 ∧ r.1.f.Stored ∅ t r.2 ∧
      r.1.f.Shared r.2 := by
  intro c r
  obtain ⟨ho', hset, hca, hown, ht'⟩ := preFlushNode_spec ho hk hn hold hne ht t.height
  have hc' := hset.cached hca hc
  have hr : Flushed txID T c.1 t c.2 r := by
    unfold r
    cases t with
    | null => exact ht.elim
    | leaf _ _ =>
      rw [item_leaf ht']
      exact flushLeaf_spec ho' hc' ht' hso doWrite
    | inner _ _ =>
      rw [item_inner ht']
      exact hfl _ _ _ _ ho' hc' (hset.known hk) hown ht' hso hhe
  refine ⟨hr.orderly, hr.cached, ?_, hr.stored, hr.shared⟩
  refine (hset.trans (hr.settles.mono le_rfl (Set.empty_subset _))).close fun x hx => ?_
  rw [Set.mem_singleton_iff.1 hx]
  exact hr.own

theorem Flushing.known (hs : Flushing txID T s₀ node children p done s) (hk : Known T s₀) :
    Known T s := hs.settles.known hk

theorem Flushing.shareChild {b : Fin 16} (hs : Flushing txID T s₀ node children p done s)
    (ho : Orderly T s'.f) (hc : s'.f.Cached txID)
    (hset : Settles (height (children b)) ∅ s s') (hst : s'.f.Stored ∅ (children b) q)
    (hsh : s'.f.Shared q) :
    Flushing txID T s₀ node children p (b :: done) (s'.modify p (·.shareChild b q)) := by
  have hlt := height_child_lt node children b
  have hab := hset.above _ p hs.stored hlt
  have ht := hset.stored _ p hs.stored
  obtain ⟨hma, n, hn, hseq⟩ := hset.owned hs.owned hs.stored hlt
  obtain ⟨-, n', cs, hn', hsha, hgo, hki⟩ := ht
  cases hn.symm.trans hn'
  obtain ⟨_, _, _, rfl⟩ := eq_inner hsha
  have hse := modify_self hn (·.shareChild b q)
  have hs' : Settles (inner node children : Node).height {p} s'
      (s'.modify p (·.shareChild b q)) := by
    refine modify_settles hn (hset.stored _ p hs.stored) (.inl rfl)
      ⟨_, update cs b (some q), hse, rfl, ⟨hgo.1, fun b' hb' => ?_⟩, fun b' => ?_⟩
    · by_cases hbb : b' = b
      · subst hbb
        rw [update_self] at hb'
        cases hb'
      · rw [update_of_ne hbb] at hb'
        exact hgo.2 b' hb'
    by_cases hbb : b' = b
    · subst hbb
      rw [update_self]
      refine ⟨nofun, fun q' hq' => ?_⟩
      cases hq'
      exact hst
    · rw [update_of_ne hbb]
      exact hki b'
  refine ⟨modify_orderly ho hn (.inl rfl) fun b' q' hq' => ?_, hs'.cached rfl hc,
    hs.settles.trans ((hset.mono hlt.le (Set.empty_subset _)).trans hs'),
    ⟨hma, _, hse, hseq⟩, hs'.stored _ p (hset.stored _ p hs.stored), ?_⟩
  · change update cs b (some q) b' = some q' at hq'
    by_cases hbb : b' = b
    · subst hbb
      rw [update_self] at hq'
      cases hq'
      obtain ⟨n', hn', hz⟩ := hsh
      exact ⟨n', hn', fun _ => hz, .inl hz⟩
    rw [update_of_ne hbb] at hq'
    obtain ⟨n', hn', hbe⟩ := ho.below p _ b' q' hn hq'
    exact ⟨n', hn', hbe⟩
  intro n hn' b' hb' q' hq'
  cases hse.symm.trans hn'
  change update cs b (some q) b' = some q' at hq'
  apply hs'.shared
  by_cases hbb : b' = b
  · subst hbb
    rw [update_self] at hq'
    cases hq'
    exact hsh
  rw [update_of_ne hbb] at hq'
  rw [hab] at hn
  exact hset.shared (hs.shared _ hn b' (List.mem_of_ne_of_mem hbb hb') q' hq')

section
variable (doWrite : Bool) (hfl : FlushSpec txID T h flush)
  (hs : Flushing txID T s₀ node children p done s) (hk : Known T s₀)

include hfl hs hk

theorem flushBranch_spec (hso : Sound txID (.inner node children))
    (hhe : (inner node children : Node).height ≤ h + 1) (b : Fin 16) :
    Flushing txID T s₀ node children p (b :: done) (flushBranch doWrite flush p s b) := by
  obtain ⟨hma, n, hn, -⟩ := hs.owned
  obtain ⟨-, _, cs, hn', hsha, -, hki⟩ := hs.stored
  cases hn.symm.trans hn'
  obtain ⟨_, _, _, rfl⟩ := eq_inner hsha
  have hcs : s.f.children p = cs := children_eq (by rw [Family.body, hn]; rfl)
  -- Nothing is done for a branch that is shared already.
  have hsk (hb : ∀ q, cs b = some q → s.f.Shared q) :
      Flushing txID T s₀ node children p (b :: done) s := by
    refine ⟨hs.orderly, hs.cached, hs.settles, hs.owned, hs.stored, fun n hn' b' hb' q hq => ?_⟩
    cases hn.symm.trans hn'
    obtain rfl | hm := List.mem_cons.1 hb'
    · exact hb q hq
    · exact hs.shared _ hn b' hm q hq
  unfold flushBranch
  rw [hcs]
  cases hb : cs b with
  | none => exact hsk fun q hq => absurd (hb.symm.trans hq) nofun
  | some child =>
    obtain ⟨nc, hnc, -, hold⟩ := hs.orderly.below p _ b child hn hb
    rw [hma] at hold
    have hcseq : s.f.seq child = nc.seq := by
      rw [Family.seq, hnc]
      rfl
    dsimp only
    rw [hcseq]
    by_cases hz : nc.seq = 0
    · rw [if_pos hz]
      refine hsk fun q hq => ?_
      cases hb.symm.trans hq
      exact ⟨nc, hnc, hz⟩
    rw [if_neg hz]
    have hlt := height_child_lt node children b
    obtain ⟨ho, hc, hset, hst, hsh⟩ := flushChild_spec hfl hs.orderly hs.cached
      (hs.known hk) hnc hold hz ((hki b).2 child hb) (hso.2.2 b)
      (Nat.le_of_lt_succ (hlt.trans_le hhe)) doWrite
    exact hs.shareChild ho hc hset hst hsh

theorem flushBranches_spec (hso : Sound txID (.inner node children))
    (hhe : (inner node children : Node).height ≤ h + 1) (bs : List (Fin 16)) :
    Flushing txID T s₀ node children p (bs.reverse ++ done)
      (bs.foldl (flushBranch doWrite flush p) s) := by
  induction bs generalizing done s with
  | nil => exact hs
  | cons b bs ih =>
    rw [List.reverse_cons, List.append_assoc]
    exact ih (flushBranch_spec doWrite hfl hs hk hso hhe b)

end

theorem flushNode_spec (txID : Blob → Tag) (T : Makers) (doWrite : Bool) (fuel : ℕ) :
    FlushSpec txID T fuel (flushNode doWrite fuel) := by
  induction fuel with
  | zero =>
    intro s p node children _ _ _ _ _ _ hhe
    exact absurd hhe (Nat.not_succ_le_zero _)
  | succ fuel ih =>
    intro s p node children ho hc hk hp ht hso hhe
    have hst : Flushing txID T s node children p [] s :=
      ⟨ho, hc, (Settles.refl _ s).mono le_rfl (Set.empty_subset _), hp, ht, nofun⟩
    have he := flushBranches_spec doWrite ih hst hk hso hhe (List.finRange 16)
    rw [flushNode]
    generalize (List.finRange 16).foldl (flushBranch doWrite (flushNode doWrite fuel) p) s = s' at he
    have hbe : SharedBelow s'.f p := by
      intro n b q hn hb
      refine he.shared n hn b ?_ q hb
      rw [List.append_nil, List.mem_reverse]
      exact List.mem_finRange b
    obtain ⟨ho', hset, hha, hbe'⟩ := updateHashDeep_spec he.orderly he.stored hbe
    have hsh := share_spec ho' (hset.cached rfl he.cached) (hset.stored _ p he.stored)
      hso hha hbe' doWrite
    refine ⟨hsh.orderly, hsh.cached, ?_, hsh.stored, hsh.shared, hsh.own⟩
    refine ((he.settles.trans hset).trans
      (hsh.settles.mono le_rfl (Set.empty_subset _))).close fun x hx => ?_
    rw [Set.mem_singleton_iff.1 hx]
    exact hsh.own

/-! ### The map -/

variable {v : Version}

/-- The map has given up its nodes: its tree is at a shared root. -/
structure Settled (txID : Blob → Tag) (T : Makers) (s : MapState) (t : Node) (s' : MapState) :
    Prop where
  orderly : Orderly T s'.f
  cached : s'.f.Cached txID
  settles : Settles t.height ∅ s s'
  stored : s'.f.Stored ∅ t s'.map.root
  shared : s'.f.Shared s'.map.root

theorem Settles.setRoot (hs : Settles h X s s') (p : NodePtr) : Settles h X s (s'.setRoot p) where
  map := by
    rw [MapState.setRoot, hs.map]
  there := hs.there
  kept := hs.kept
  stored := hs.stored
  above := hs.above

theorem eq_empty_of_branches (hn : Node.branches children = []) :
    (.inner node children : Node) = Node.empty node := by
  congr 1
  funext b
  by_contra hne
  have hb := mem_branches.2 hne
  rw [hn] at hb
  cases hb

theorem rootNode_eq (hwf : WellFormed v (.inner node children)) :
    rootNode (Node.isV2 (.inner node children)) = node := by
  obtain ⟨_, heq, -⟩ := hwf
  cases heq
  cases v with
  | one => rfl
  | two => rfl

theorem walkSubTree_spec (hwf : WellFormed v t) (hna : Named txID t) (ho : Orderly T s.f)
    (hc : s.f.Cached txID) (hk : Known T s) (hn : s.f.node s.map.root = some n)
    (hold : Older T s.map.id s.map.root n) (ht : s.f.Stored ∅ t s.map.root) (doWrite : Bool) :
    Settled txID T s t (s.walkSubTree doWrite) := by
  have hv2 := isV2_eq hwf ht
  have hhe := hwf.height_le
  obtain ⟨children, rfl, -⟩ := id hwf
  have hst := ht
  obtain ⟨-, _, _, hn', hsha, -, hki⟩ := ht
  cases hn.symm.trans hn'
  unfold walkSubTree
  rw [hn]
  dsimp only
  by_cases hz : n.seq = 0
  · rw [if_pos hz]
    exact ⟨ho, hc, .refl _ s, hst, n, hn, hz⟩
  rw [if_neg hz]
  obtain ⟨_, _, _, rfl⟩ := eq_inner hsha
  dsimp only
  rw [branches_eq hki]
  by_cases hnil : Node.branches children = []
  · rw [if_pos hnil, hv2, rootNode_eq hwf]
    have hset := make_settles ho (inner (SHAMap.rootNode v) children : Node).height
      (.newInner (SHAMap.rootNode v) 0)
    have hsh : (s.make (.newInner (SHAMap.rootNode v) 0)).1.f.Shared
        (s.make (.newInner (SHAMap.rootNode v) 0)).2 := ⟨_, make_self s _, rfl⟩
    refine ⟨make_orderly ho hk (.inl rfl) nofun, hset.cached rfl hc,
      (hset.close fun x hx => ?_).setRoot _, ?_, hsh⟩
    · rwa [Set.mem_singleton_iff.1 hx]
    · rw [eq_empty_of_branches hnil]
      exact stored_newInner s _ 0 (Set.notMem_empty _)
  rw [if_neg hnil]
  obtain ⟨ho', hset, hca, hown, ht'⟩ := preFlushNode_spec ho hk hn hold hz hst
    (inner (SHAMap.rootNode v) children : Node).height
  have hr := flushNode_spec txID T doWrite Family.wayLength _ _ _ _ ho'
    (hset.cached hca hc) (hset.known hk) hown ht' (hwf.sound hna hnil)
    (hhe.trans (by decide))
  refine ⟨hr.orderly, hr.cached, Settles.setRoot (.close (hset.trans
    (hr.settles.mono le_rfl (Set.empty_subset _))) fun x hx => ?_) _, hr.stored, hr.shared⟩
  rw [Set.mem_singleton_iff.1 hx]
  exact hr.own

/-- What is observed through a map and behind it, with no change of a tree. -/
structure Quiet (txID : Blob → Tag) (T : Makers) (s : MapState) (t : Node) (s' : MapState) :
    Prop where
  isolated : Isolated T s'.f
  cached : s'.f.Cached txID
  settles : Settles t.height ∅ s s'
  stored : s'.f.Stored ∅ t s'.map.root
  seen : Visible T s' s'.map.root

theorem Settled.quiet (hs : Settled txID T s t s') (hi : Isolated T s.f) :
    Quiet txID T s t s' where
  isolated := hs.settles.isolated hi hs.orderly
  cached := hs.cached
  settles := hs.settles
  stored := hs.stored
  seen := by
    obtain ⟨n, hn, hz⟩ := hs.shared
    exact ⟨n, hn, .inl hz, .inl hz⟩

variable (hwf : WellFormed v t)

include hwf

theorem flushDirty_spec (hna : Named txID t) (hi : Isolated T s.f)
    (hc : s.f.Cached txID) (hk : Known T s) (hr : Visible T s s.map.root)
    (ht : s.f.Stored ∅ t s.map.root) : Quiet txID T s t s.flushDirty := by
  obtain ⟨n, hn, hold, -⟩ := hr
  exact (walkSubTree_spec hwf hna hi.toOrderly hc hk hn hold ht true).quiet hi

theorem getHash_spec (hna : Named txID t) (hi : Isolated T s.f)
    (hc : s.f.Cached txID) (hk : Known T s) (hr : Visible T s s.map.root)
    (ht : s.f.Stored ∅ t s.map.root) :
    Quiet txID T s t s.getHash.1 ∧ s.getHash.2 = SHAMap.getHash t := by
  have hse := hr
  obtain ⟨n, hn, hold, -⟩ := hr
  unfold getHash SHAMap.getHash
  by_cases hz : s.f.hash s.map.root = .zero
  · rw [if_pos hz]
    have hs := walkSubTree_spec hwf hna hi.toOrderly hc hk hn hold ht false
    exact ⟨hs.quiet hi, hs.shared.hash_eq hs.stored⟩
  rw [if_neg hz]
  refine ⟨⟨hi, hc, .refl _ s, ht, hse⟩, ?_⟩
  exact (Family.hash_of_stored ht).resolve_right fun h => hz h.1

theorem peekItem_spec (ht : s.f.Stored ∅ t s.map.root) (id : Tag) :
    s.peekItem id = SHAMap.peekItem t id := by
  obtain ⟨p, m, _, u, _, hl⟩ := exists_landed hwf ht id
  unfold peekItem SHAMap.peekItem findKey
  rw [hl.heap, hl.tree]
  have hu := hl.trail.stored
  cases u with
  | null => exact hu.elim
  | inner _ _ =>
    dsimp only
    rw [item_inner hu]
    rfl
  | leaf item _ =>
    dsimp only
    rw [item_leaf hu]
    by_cases hk : item.key = id
    · simp [hk]
    · simp [hk]

end MapState
end FinPal
