import FinPal.Ledger.Refs
import FinPal.Ledger.TrustLines
import FinPal.Lib.Ring

/-!
# The pages of a directory

The pages are linked to a ring: their numbers increase from the root, which names the last page as
its previous one, and the last names none, which reads as the root.
-/

namespace FinPal
open Store ViewM State Finset

theorem page_key_inj {root : Digest} {p q : Nat} :
    (keylet.page root p).key = (keylet.page root q).key ↔ p = q := by
  have hr (n) : root ≠ .dirNode root n := fun h => by
    have := congrArg sizeOf h
    simp at this
    omega
  refine ⟨fun h => ?_, fun h => by rw [h]⟩
  change getDirNodeIndex root p = getDirNodeIndex root q at h
  unfold getDirNodeIndex at h
  split at h <;> split at h
  · omega
  · exact absurd h (hr q)
  · exact absurd h.symm (hr p)
  · exact (Digest.dirNode.inj h).2

def State.links (σ : State) (root : Digest) (p : Nat) : Option (Nat × Nat) :=
  (σ.get (keylet.page root p)).map fun n => (n.indexNext, n.indexPrevious)

namespace State
variable {σ σ' : State} {root : Digest} {p : Nat} {n : DirNode}

theorem links_set (σ : State) (root : Digest) (p : Nat) (n : DirNode) (r : Nat) :
    (σ.set (keylet.page root p) n).links root r =
      if r = p then some (n.indexNext, n.indexPrevious) else σ.links root r := by
  simp only [links, get_set, page_key_inj]
  split <;> rfl

theorem links_del (σ : State) (root : Digest) (p r : Nat) :
    (σ.del (keylet.page root p)).links root r = if r = p then none else σ.links root r := by
  simp only [links, get_del, page_key_inj]
  split <;> rfl

theorem links_eq (h : σ.get (keylet.page root p) = some n) :
    σ.links root p = some (n.indexNext, n.indexPrevious) := by
  rw [links, h, Option.map_some]

theorem get_of_links {l : Nat × Nat} (h : σ.links root p = some l) :
    ∃ n, σ.get (keylet.page root p) = some n ∧ n.indexNext = l.1 ∧ n.indexPrevious = l.2 := by
  obtain ⟨n, hn, rfl⟩ := Option.map_eq_some_iff.1 h
  exact ⟨n, hn, rfl, rfl⟩

theorem links_set_of_eq (n' : DirNode) (h : σ.get (keylet.page root p) = some n)
    (hn : n'.indexNext = n.indexNext) (hp : n'.indexPrevious = n.indexPrevious) :
    (σ.set (keylet.page root p) n').links root = σ.links root := by
  funext r
  rw [links_set]
  split
  · next hr => rw [hr, links_eq h, hn, hp]
  · rfl

end State

/-- The pages `S` of a directory and their links make a ring. -/
structure DirRing (σ : State) (root : Digest) (S : Finset Nat) : Prop
    extends LinkedRing (σ.links root) 0 S where
  bound : ∀ p ∈ S, p < 2 ^ 64

section Ring
variable {σ σ' : State} {root entry : Digest} {S : Finset Nat} {ter : TER} {page : Nat}

theorem DirRing.of_links (h : DirRing σ root S) (hl : σ'.links root = σ.links root) :
    DirRing σ' root S where
  toLinkedRing := by rw [hl]; exact h.toLinkedRing
  bound := h.bound

theorem DirRing.of_frame (h : DirRing σ root S) (hf : ∀ k, IsPage root k → σ' k = σ k) :
    DirRing σ' root S := by
  refine h.of_links (funext fun p => ?_)
  have hp : σ' (keylet.page root p).key = σ (keylet.page root p).key := hf _ ⟨p, rfl⟩
  unfold links State.get
  rw [hp]

theorem DirRing.empty (h : ∀ p, σ.links root p = none) : DirRing σ root ∅ where
  toLinkedRing := .empty h
  bound p hp := by simp at hp

/-- A describing function that leaves the links alone. -/
def KeepsLinks (describe : DirNode → DirNode) : Prop :=
  ∀ n, (describe n).indexNext = n.indexNext ∧ (describe n).indexPrevious = n.indexPrevious

theorem keepsLinks_describeOwnerDir (account : AccountID) : KeepsLinks (describeOwnerDir account) :=
  fun _ => ⟨rfl, rfl⟩

theorem dirAdd_ring {dir : Keylet DirNode} {describe : DirNode → DirNode} (hd : KeepsLinks describe)
    (hS : DirRing σ dir.key S) (h : exec (dirAdd dir entry describe) σ = .ok ((ter, page), σ')) :
    ∃ S', DirRing σ' dir.key S' := by
  rcases dirAdd_ok h with ⟨-, -, hg, -, rfl⟩ | ⟨rootNode, _, hro, hno,
    ⟨-, rfl, -, rfl⟩ | ⟨-, rfl⟩ | ⟨-, hpage, hne, n, σ1, σ2, rfl, hn, rfl, hnew, rfl⟩⟩
  · -- the first page
    have hz : σ.links dir.key 0 = none := by
      change (σ.get dir).map _ = none
      rw [hg, Option.map_none]
    refine ⟨{0}, ?_, by simp⟩
    convert hS.singleton hz using 1
    funext r
    change (σ.set (keylet.page dir.key 0) _).links dir.key r = _
    rw [links_set, Function.update_apply, (hd _).1, (hd _).2]
  · exact ⟨S, hS.of_links (links_set_of_eq _ hno rfl rfl)⟩
  · exact ⟨S, hS⟩
  -- a new last page
  have hz : σ.links dir.key 0 = some (rootNode.indexNext, rootNode.indexPrevious) :=
    links_eq hro
  have hm := hS.le_last hz
  have hlast := hS.bound _ (hS.prev hz).1
  have hpa' : page = rootNode.indexPrevious + 1 := by
    omega
  refine ⟨insert page S, hS.push hz (fun r hr => ?_) fun r => ?_, ?_⟩
  · have := hm r hr
    omega
  · have hpr : (if page ≠ 1 then page - 1 else 0) = rootNode.indexPrevious := by split <;> omega
    have hn' := links_eq (p := 0) hn
    rw [links_set] at hn'
    change ((set _ (keylet.page dir.key 0) _).set (keylet.page dir.key page) _).links
      dir.key r = _
    rw [links_set, links_set, links_set, (hd _).1, (hd _).2, hpr]
    exact LinkedRing.push_links hz (links_eq hno) hn'
  intro p hp
  rcases mem_insert.1 hp with rfl | hp
  · omega
  · exact hS.bound p hp

theorem DirRing.cleared (h : DirRing σ root S) (hS : ∀ r ∈ S, σ'.links root r = none)
    (hre : ∀ r, σ.links root r = none → σ'.links root r = none) : DirRing σ' root ∅ := by
  refine .empty fun r => ?_
  by_cases hr : r ∈ S
  · exact hS r hr
  · exact hre r (by simpa using (h.mem r).not.1 hr)

theorem EmptyPair.pages {node : DirNode} {p : Nat} (h : EmptyPair σ root page node p)
    (hS : DirRing σ root S) (hn : σ.links root page = some (node.indexNext, node.indexPrevious)) :
    ∀ r ∈ S, r = 0 ∨ r = p := by
  rcases h with ⟨rfl, hpr, hne, hp, -⟩ | ⟨rfl, hpr, hne, hp, -⟩
  · rw [hpr, hne] at hn
    exact hS.eq_of_base hn hp
  · rw [hpr, hne] at hn
    exact hS.eq_of_last hn hp

theorem dirUnlink_ring {keepRoot : Bool} {node : DirNode} (hS : DirRing σ root S)
    (hn : σ.links root page = some (node.indexNext, node.indexPrevious))
    (h : exec (dirUnlink keepRoot root page node) σ = .ok (ter, σ')) :
    ∃ S', DirRing σ' root S' := by
  rcases dirUnlink_ok h with rfl | ⟨rfl, hpr, rfl⟩ | ⟨p, -, hpa, rfl⟩ |
    ⟨hpage, -, n1, n2, σ1, σ2, hn1, rfl, hn2, rfl, rfl⟩
  · exact ⟨S, hS⟩
  · have ha := hS.eq_base hn hpr
    refine ⟨∅, hS.cleared (fun r hr => ?_) fun r hr => ?_⟩
    · rw [links_del, if_pos (ha r hr)]
    · rw [links_del, hr, ite_self]
  · have ha := hpa.pages hS hn
    refine ⟨∅, hS.cleared (fun r hr => ?_) fun r hr => ?_⟩
    · rw [links_del, links_del]
      rcases ha r hr with rfl | rfl <;> simp
    · rw [links_del, links_del, hr, ite_self, ite_self]
  have hn' := links_eq hn2
  rw [links_set] at hn'
  refine ⟨S.erase page, hS.unlink hn hpage fun r => ?_, fun p hp => ?_⟩
  · rw [links_del, links_set, links_set]
    exact LinkedRing.unlink_links (links_eq hn1) hn'
  · exact hS.bound p (mem_of_mem_erase hp)

theorem dirDelete_ring {keepRoot stable soft : Bool} (hS : DirRing σ root S)
    (h : exec (dirDelete keepRoot page root entry stable soft) σ = .ok (ter, σ')) :
    ∃ S', DirRing σ' root S' := by
  rcases dirDelete_ok h with ⟨-, rfl⟩ | ⟨p, n, -, -, hn, -, rfl, he⟩
  · exact ⟨S, hS⟩
  have hl := links_set_of_eq { n with indexes := removeIndex stable n.indexes entry } hn rfl rfl
  rcases he with rfl | ⟨-, hun⟩
  · exact ⟨S, hS.of_links hl⟩
  · refine dirUnlink_ring (hS.of_links hl) ?_ hun
    rw [hl, links_eq hn]

end Ring

/-! ## Visiting every page -/

def State.pageLines (σ : State) (root : Digest) (p : Nat) : List MTChainState :=
  ((σ.get (keylet.page root p)).elim [] DirNode.indexes).filterMap fun d =>
    σ.get (⟨d⟩ : Keylet MTChainState)

section Walk
variable {σ : State} {root : Digest} {S : Finset Nat}

theorem exec_readItems (σ : State) (l : List Digest) :
    exec (readItems l) σ = .ok (l.filterMap fun d => σ.get (⟨d⟩ : Keylet MTChainState), σ) := by
  induction l with
  | nil => rfl
  | cons d _ ih =>
    rw [readItems, exec_peek_bind]
    cases hd : σ.get (⟨d⟩ : Keylet MTChainState) with
    | none =>
      simp only [List.filterMap_cons, hd]
      exact ih
    | some _ =>
      simp only [List.filterMap_cons, hd]
      exact exec_bind.2 ⟨_, _, ih, rfl⟩

/-- From a page on, `forEachItem` visits each page of the ring that is not before it. -/
theorem exec_forEachItem (hS : DirRing σ root S) {p fuel : Nat} (hp : p ∈ S)
    (hfu : (S.filter (p ≤ ·)).card ≤ fuel) :
    ∃ items, exec (forEachItem root fuel p) σ = .ok (items, σ) ∧
      (items : Multiset MTChainState) = ∑ r ∈ S with p ≤ r, (σ.pageLines root r : Multiset _) := by
  induction fuel generalizing p with
  | zero =>
    rw [Nat.le_zero, card_eq_zero] at hfu
    exact absurd (mem_filter.2 ⟨hp, le_rfl⟩) (by rw [hfu]; simp)
  | succ fuel ih =>
    obtain ⟨l, hl⟩ := Option.isSome_iff_exists.1 ((hS.mem p).1 hp)
    obtain ⟨n, hn, hne, -⟩ := get_of_links hl
    have hri := hS.next hl
    rw [← hne] at hri
    have hli : σ.pageLines root p =
        n.indexes.filterMap fun d => σ.get (⟨d⟩ : Keylet MTChainState) := by
      rw [pageLines, hn, Option.elim_some]
    by_cases h0 : n.indexNext = 0
    · refine ⟨σ.pageLines root p, ?_, ?_⟩
      · rw [forEachItem, exec_peek_bind, hn]
        refine exec_bind.2 ⟨_, _, exec_readItems σ n.indexes, ?_⟩
        rw [if_pos h0, hli]
        rfl
      · rw [h0] at hri
        rw [hri.sum_last _ hp (Nat.zero_le p)]
    have hca : (S.filter (n.indexNext ≤ ·)).card ≤ fuel := by
      have := hri.sum_from (fun _ => 1) hp h0
      simp only [← card_eq_sum_ones] at this
      omega
    obtain ⟨items, hit, hs⟩ := ih hri.1 hca
    refine ⟨σ.pageLines root p ++ items, ?_, ?_⟩
    · rw [forEachItem, exec_peek_bind, hn]
      refine exec_bind.2 ⟨_, _, exec_readItems σ n.indexes, ?_⟩
      rw [if_neg h0, hli]
      exact exec_bind.2 ⟨_, _, hit, rfl⟩
    · rw [hri.sum_from _ hp h0, ← hs, Multiset.coe_add]

theorem exec_forEachItem_root (hS : DirRing σ root S) :
    ∃ items, exec (forEachItem root maxPages 0) σ = .ok (items, σ) ∧
      (items : Multiset MTChainState) = ∑ r ∈ S, (σ.pageLines root r : Multiset _) := by
  rcases S.eq_empty_or_nonempty with rfl | ⟨p, hp⟩
  · have h0 : σ.get (keylet.page root 0) = none := by
      simpa [links] using (hS.mem 0).not.1 (notMem_empty 0)
    obtain ⟨fuel, hf⟩ : ∃ fuel, maxPages = fuel + 1 := ⟨2 ^ 64 - 1, by norm_num [maxPages]⟩
    refine ⟨[], ?_, rfl⟩
    rw [hf, forEachItem, exec_peek_bind, h0]
    rfl
  have hc : (S.filter (0 ≤ ·)).card ≤ maxPages := by
    have hs : S.filter (0 ≤ ·) ⊆ range (2 ^ 64) := fun r hr =>
      mem_range.2 (hS.bound r (mem_filter.1 hr).1)
    simpa [maxPages] using card_le_card hs
  obtain ⟨items, hit, hsum⟩ := exec_forEachItem hS (hS.base p hp).1 hc
  exact ⟨items, hit, by simpa using hsum⟩

end Walk
end FinPal
