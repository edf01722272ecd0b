import FinPal.Verify.SharedHeap

/-!
# Copy on write

On the way up from a change each node that is not the map's own is copied, and gets its new child.
The nodes beside the way are not touched, because no item is on two branches.
-/

namespace FinPal.MapState
open HeapFormat SHAMap Tag
variable {T : Makers} {s s₀ s' : MapState} {p q c : NodePtr} {n : SharedNode} {t : Node}
  {X Y : Set NodePtr} {hs : NodeStack} {fs : Stack} {id : Tag} {b : Fin 16} {depth d : ℕ}

/-! ### Copying -/

/-- `unshareNode` does nothing, or makes a copy that takes the place of a root. -/
theorem unshareNode_cases (s : MapState) (depth : ℕ) (hp : s.f.node p = some n) :
    n.seq = s.map.seq ∧ s.unshareNode p depth = (s, p) ∨
      n.seq ≠ s.map.seq ∧ (s.unshareNode p depth).1.f = (s.make (n.clone s.map.seq)).1.f ∧
        (s.unshareNode p depth).2 = (s.make (n.clone s.map.seq)).2 ∧
        (s.unshareNode p depth).1.map =
          if depth = 0 then { s.map with root := (s.unshareNode p depth).2 } else s.map := by
  unfold unshareNode
  rw [hp]
  dsimp only
  by_cases hseq : n.seq = s.map.seq
  · rw [if_neg (not_not.2 hseq)]
    exact .inl ⟨hseq, rfl⟩
  rw [if_pos hseq]
  refine .inr ⟨hseq, ?_, rfl, ?_⟩
  · split <;> rfl
  · split <;> rfl

/-- The copy is the map's own, and the heap is otherwise as it was. -/
structure Unshared (T : Makers) (s : MapState) (p : NodePtr) (n : SharedNode) (depth : ℕ)
    (r : MapState × NodePtr) : Prop where
  isolated : Isolated T r.1.f
  writes : Writes s r.1
  owned : Owned r.1 r.2
  node : r.1.f.node r.2 = some (n.clone s.map.seq)
  kept : ∀ q n, s.f.node q = some n → r.1.f.node q = some n
  place : r.2 = p ∨ s.f.node r.2 = none
  root : depth = 0 → s.map.root = p → r.1.map.root = r.2
  map : depth ≠ 0 → r.1.map = s.map

theorem unshareNode_spec (hi : Isolated T s.f) (hs : Known T s) (hp : Visible T s p)
    (hn : s.f.node p = some n) (depth : ℕ) : Unshared T s p n depth (s.unshareNode p depth) := by
  obtain ⟨hseq, heq⟩ | ⟨hseq, hf, hq, hm⟩ := unshareNode_cases s depth hn
  · obtain ⟨n', hn', hold, -⟩ := hp
    cases hn.symm.trans hn'
    have hma : p.maker = s.map.id := hi.maker_eq hn hold (by rw [hseq]; exact hs.pos)
      (hseq.trans hs.seq.symm)
    rw [heq]
    refine ⟨hi, .refl s, ⟨hma, n, hn, hseq⟩, ?_, fun _ _ h => h, .inl rfl, fun _ h => h, fun _ => rfl⟩
    rw [hn, ← hseq]
    rfl
  -- The copy points where the node does.
  have hch (b q) (hb : (n.clone s.map.seq).child b = some q) : Visible T s q :=
    hp.child hi hn hb
  have hmake := make_isolated hi hs rfl hch
  have hw := make_writes hi.toOrderly (n.clone s.map.seq)
  have hid : (s.unshareNode p depth).1.map.id = s.map.id ∧
      (s.unshareNode p depth).1.map.seq = s.map.seq := by
    rw [hm]
    split <;> exact ⟨rfl, rfl⟩
  refine ⟨by rwa [hf], ⟨?_, by rw [hf]; rfl, ?_, ?_⟩, ?_, ?_, ?_, .inr ?_, ?_, ?_⟩
  · rw [hm]
    split <;> rfl
  · rw [hf]
    exact hw.kept
  · rintro q ⟨hma, n', hq', hs'⟩
    refine ⟨hma.trans hid.1.symm, n', ?_, hs'.trans hid.2.symm⟩
    rw [hf]
    exact make_of_some hi.toOrderly _ hq'
  · refine ⟨?_, n.clone s.map.seq, ?_, hid.2.symm⟩
    · rw [hq, hid.1]
      rfl
    · rw [hf, hq]
      exact make_self s _
  · rw [hf, hq]
    exact make_self s _
  · intro q n' hq'
    rw [hf]
    exact make_of_some hi.toOrderly _ hq'
  · rw [hq]
    exact make_fresh hi.toOrderly _
  · intro hd _
    rw [hm, if_pos hd]
  · intro hd
    rw [hm, if_neg hd]

theorem Unshared.stored {r : MapState × NodePtr} (h : Unshared T s p n depth r) (hp : p ∈ X)
    (ht : s.f.Stored X t q) : r.1.f.Stored (insert r.2 X) t q := by
  refine Stored.congr ?_ fun q hq c hc => h.kept q c hc
  obtain heq | hn := h.place
  · rw [heq, Set.insert_eq_of_mem hp]
    exact ht
  · exact ht.insert_fresh hn

/-! ### The way up -/

/-- A stack's last entry is the root, and no other is at depth zero. -/
def Rooted (root : NodePtr) : NodeStack → Prop
  | [] => True
  | (p, depth) :: hs => hs = [] ∧ depth = 0 ∧ p = root ∨ hs ≠ [] ∧ depth ≠ 0 ∧ Rooted root hs

/-- A state on the way up, with the part of the way that is still to go. The set `X` has the nodes
that are written. -/
structure Climb (T : Makers) (s₀ : MapState) (X : Set NodePtr) (id : Tag) (hs : NodeStack) (fs : Stack)
    (s : MapState) : Prop where
  known : Known T s
  isolated : Isolated T s.f
  writes : Writes s₀ s
  frames : nodeFormat.Frames s.f.node X (route id) hs fs
  subset : ∀ e ∈ hs, e.1 ∈ X
  nodup : (hs.map Prod.fst).Nodup
  seen : ∀ e ∈ hs, Visible T s e.1
  rooted : Rooted s.map.root hs

/-- The nodes that an operation has passed on its way down. -/
def onStack (hs : NodeStack) : Set NodePtr := {p | p ∈ hs.map Prod.fst}

theorem onStack_cons_subset (p : NodePtr) (depth : ℕ) (hs : NodeStack) :
    onStack hs ⊆ onStack ((p, depth) :: hs) := fun _ hq => List.mem_cons_of_mem _ hq

namespace Climb
section
variable (h : Climb T s₀ X id hs fs s)
include h

theorem onStack_subset : onStack hs ⊆ X := by
  intro p hp
  obtain ⟨e, he, rfl⟩ := List.mem_map.1 hp
  exact h.subset e he

theorem step (hm : s'.map = s.map) (hi : Isolated T s'.f) (hw : Writes s s') (hXY : X ⊆ Y)
    (hn : ∀ e ∈ hs, ∀ c, s.f.node e.1 = some c → s'.f.node e.1 = some c)
    (hst : ∀ t p, s.f.Stored X t p → s'.f.Stored Y t p) : Climb T s₀ Y id hs fs s' where
  known := hw.known h.known
  isolated := hi
  writes := h.writes.trans hw
  frames := h.frames.imp hn hst
  subset e he := hXY (h.subset e he)
  nodup := h.nodup
  seen e he := hw.seen (h.seen e he)
  rooted := by
    rw [hm]
    exact h.rooted

theorem make (hseq : n.seq = s.map.seq) (hch : ∀ b q, n.child b = some q → Visible T s q) :
    Climb T s₀ (insert (s.make n).2 X) id hs fs (s.make n).1 := by
  have ho := h.isolated.toOrderly
  refine h.step rfl (make_isolated h.isolated h.known hseq hch) (make_writes ho n)
    (Set.subset_insert _ _) ?_ fun t p ht => make_stored ho n ht
  intro e _ c hc
  exact make_of_some ho n hc

theorem modify {g : SharedNode → SharedNode} (hp : Owned s p)
    (hpX : p ∈ X) (hphs : p ∉ onStack hs) (hg : ∀ n, (g n).seq = n.seq)
    (hch : ∀ n b q, s.f.node p = some n → (g n).child b = some q →
      n.child b = some q ∨ Visible T s q) : Climb T s₀ X id hs fs (s.modify p g) := by
  refine h.step rfl (modify_isolated h.isolated h.known hp hg hch) (modify_writes hp hg) subset_rfl
    ?_ fun t p ht => modify_stored hpX g ht
  intro e he c hc
  rw [modify_of_ne]
  · exact hc
  · rintro rfl
    exact hphs (List.mem_map_of_mem he)

theorem setChild (hp : Owned s p) (hpX : p ∈ X)
    (hphs : p ∉ onStack hs) (b : Fin 16) (child : Option NodePtr)
    (hch : ∀ q, child = some q → Visible T s q) :
    Climb T s₀ X id hs fs (s.modify p (·.setChild b child)) := by
  refine h.modify hp hpX hphs (fun n => SharedNode.seq_setChild child) fun n b' q _ hq => ?_
  exact (SharedNode.child_setChild hq).imp_right (hch q)

end

theorem head (h : Climb T s₀ X id ((p, depth) :: hs) fs s) :
    ∃ t fs', fs = (t, depth) :: fs' ∧ nodeFormat.Frame s.f.node X (route id depth) p t ∧
      p ∈ X ∧ p ∉ onStack hs ∧ Visible T s p ∧ nodeFormat.Frames s.f.node X (route id) hs fs' := by
  have hfr := h.frames
  cases hfr with
  | @cons _ f _ fs' hf hr =>
    obtain ⟨t, d⟩ := f
    obtain ⟨rfl, hfra⟩ := hf
    refine ⟨t, fs', rfl, hfra, h.subset _ List.mem_cons_self, (List.nodup_cons.1 h.nodup).1,
      h.seen _ List.mem_cons_self, hr⟩

section
variable (h : Climb T s₀ X id ((p, depth) :: hs) ((t, depth) :: fs) s)
include h

theorem tail : Climb T s₀ X id hs fs s where
  known := h.known
  isolated := h.isolated
  writes := h.writes
  frames := (List.forall₂_cons.1 h.frames).2
  subset e he := h.subset e (List.mem_cons_of_mem _ he)
  nodup := (List.nodup_cons.1 h.nodup).2
  seen e he := h.seen e (List.mem_cons_of_mem _ he)
  rooted := by
    obtain ⟨rfl, -⟩ | ⟨-, -, hro⟩ := h.rooted
    · trivial
    · exact hro

theorem unshare :
    Climb T s₀ (insert (s.unshareNode p depth).2 X) id (((s.unshareNode p depth).2, depth) :: hs)
        ((t, depth) :: fs) (s.unshareNode p depth).1 ∧
      ∃ n, Unshared T s p n depth (s.unshareNode p depth) := by
  obtain ⟨_, _, heq, hf, hpX, hphs, hse, hfr⟩ := h.head
  cases heq
  obtain ⟨node, children, n, cs, rfl, hn, hsh, hgo, hbe⟩ := hf
  have hun := unshareNode_spec h.isolated h.known hse hn depth
  generalize s.unshareNode p depth = r at hun
  have hst (u q) (hu : s.f.Stored X u q) : r.1.f.Stored (insert r.2 X) u q := hun.stored hpX hu
  refine ⟨?_, n, hun⟩
  exact {
    known := hun.writes.known h.known
    isolated := hun.isolated
    writes := h.writes.trans hun.writes
    frames := by
      refine .cons ⟨rfl, node, children, _, cs, rfl, hun.node, hsh, ?_, fun b hb => ?_⟩
        (hfr.imp (fun e _ c hc => hun.kept _ c hc) hst)
      · exact SharedNode.good_clone hgo h.known.pos
      · exact ⟨(hbe b hb).1, fun q hq => hst _ q ((hbe b hb).2 q hq)⟩
    subset := by
      intro e he
      obtain rfl | he := List.mem_cons.1 he
      · exact .inl rfl
      · exact .inr (h.subset e (List.mem_cons_of_mem _ he))
    nodup := by
      refine List.nodup_cons.2 ⟨fun hmem => ?_, (List.nodup_cons.1 h.nodup).2⟩
      obtain hp | hno := hun.place
      · rw [hp] at hmem
        exact hphs hmem
      obtain ⟨e, he, heq⟩ := List.mem_map.1 hmem
      obtain ⟨m, hm, -⟩ := h.seen e (List.mem_cons_of_mem _ he)
      rw [heq, hno] at hm
      cases hm
    seen := by
      intro e he
      obtain rfl | he := List.mem_cons.1 he
      · exact hun.owned.seen
      · exact hun.writes.seen (h.seen e (List.mem_cons_of_mem _ he))
    rooted := by
      obtain ⟨rfl, rfl, rfl⟩ | ⟨hne, hd, hro⟩ := h.rooted
      · exact .inl ⟨rfl, rfl, (hun.root rfl rfl).symm⟩
      · rw [hun.map hd]
        exact .inr ⟨hne, hd, hro⟩ }

theorem fill {u : Node} (hp : Owned s p) (child : Option NodePtr) (hnu : child = none → u = .null)
    (hch : ∀ q, child = some q → Visible T s q ∧ s.f.Stored (insert p (onStack hs)) u q) :
    let s' := s.modify p (·.setChild (route id depth) child)
    Climb T s₀ X id hs fs s' ∧ Owned s' p ∧ p ∈ X ∧ p ∉ onStack hs ∧
      s'.f.Stored (onStack hs) (t.setChild (route id depth) u) p := by
  intro s'
  obtain ⟨_, _, heq, hf, hpX, hphs, -, -⟩ := h.head
  cases heq
  have hcl : Climb T s₀ X id hs fs s' :=
    h.tail.setChild hp hpX hphs _ child fun q hq => (hch q hq).1
  have ho : Owned s' p := (modify_writes hp fun n => SharedNode.seq_setChild child).owned p hp
  refine ⟨hcl, ho, hpX, hphs, ?_⟩
  have hfr' := hf
  obtain ⟨_, _, n, _, rfl, hn, hsh, hg, -⟩ := hf
  have hseq := hp.seq_ne_zero h.known hn
  refine hfr'.fill hn hsh hphs (modify_self hn _) (SharedNode.shape_setChild hsh child)
    (SharedNode.good_setChild hsh hg hseq child) ⟨hnu, fun q hq => ?_⟩ fun u q hu => ?_
  · exact (modify_stored (Set.mem_insert _ _) _ (hch q hq).2).mono (Set.subset_insert _ _)
  · exact (modify_stored hpX _ hu).mono h.tail.onStack_subset

end
end Climb

/-- What an operation on a map comes to. -/
structure Done (T : Makers) (s₀ : MapState) (t : Node) (s : MapState) : Prop where
  isolated : Isolated T s.f
  writes : Writes s₀ s
  seen : Visible T s s.map.root
  stored : s.f.Stored ∅ t s.map.root

theorem dirtyUp_spec (h : Climb T s₀ X id hs fs s) (hc : Visible T s c)
    (ht : s.f.Stored (onStack hs) t c) (hro : hs = [] → c = s.map.root) :
    Done T s₀ (SHAMap.dirtyUp id fs t) (dirtyUp id hs c s) := by
  induction hs generalizing X fs s t c with
  | nil =>
    cases h.frames
    obtain rfl := hro rfl
    exact ⟨h.isolated, h.writes, hc, ht.mono (Set.empty_subset _)⟩
  | cons e hs ih =>
    obtain ⟨p, depth⟩ := e
    obtain ⟨u, fs', rfl, -⟩ := h.head
    obtain ⟨hcl, n, hun⟩ := h.unshare
    have ht' := (hun.stored (X := onStack ((p, depth) :: hs)) List.mem_cons_self ht).mono
      (Set.insert_subset_insert (onStack_cons_subset p depth hs))
    obtain ⟨hcl', ho, -, -, hst⟩ := hcl.fill hun.owned (some c) nofun
      (by rintro q ⟨⟩; exact ⟨hun.writes.seen hc, ht'⟩)
    change Done T s₀ (SHAMap.dirtyUp id fs' (u.setChild (route id depth) t)) _
    refine ih hcl' ho.seen hst ?_
    rintro rfl
    obtain ⟨-, -, hro⟩ | ⟨hne, -⟩ := hcl.rooted
    · exact hro
    · exact absurd rfl hne

end FinPal.MapState
