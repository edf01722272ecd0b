import FinPal.Ledger.Directory
import Mathlib.Data.List.Count

/-!
# What directories list

`State.refs` counts how often a page lists an entry. `dirAdd` adds one reference and `dirDelete`
removes one, whatever the links between the pages are: pages are only deleted when they are empty.
-/

namespace FinPal
open Store ViewM State

/-- How often the page under `k` lists the entry `d`. -/
def State.refs (σ : State) (k d : Digest) : Nat :=
  (σ.get (⟨k⟩ : Keylet DirNode)).elim 0 (·.indexes.count d)

def KeepsRefs (σ σ' : State) : Prop := ∀ k d, σ'.refs k d = σ.refs k d

/-- One reference more or less, to `e` on the page under `p`. -/
def RefsBy (f : Nat → Nat) (p e : Digest) (σ σ' : State) : Prop :=
  ∀ k d, σ'.refs k d = if k = p ∧ d = e then f (σ.refs k d) else σ.refs k d

namespace State
variable {σ : State}

theorem refs_set_node (σ : State) (k : Keylet DirNode) (n : DirNode) (k' d : Digest) :
    (σ.set k n).refs k' d = if k' = k.key then n.indexes.count d else σ.refs k' d := by
  unfold refs
  rw [get_set]
  by_cases h : k' = k.key <;> simp [h]

theorem refs_del_node (σ : State) (k : Keylet DirNode) (k' d : Digest) :
    (σ.del k).refs k' d = if k' = k.key then 0 else σ.refs k' d := by
  unfold refs
  rw [get_del]
  by_cases h : k' = k.key <;> simp [h]

theorem refs_eq {k : Keylet DirNode} {n : DirNode} (h : σ.get k = some n) (d : Digest) :
    σ.refs k.key d = n.indexes.count d := by
  unfold refs
  rw [show σ.get (⟨k.key⟩ : Keylet DirNode) = some n from h]
  rfl

end State

theorem KeepsRefs.isRun : IsRun KeepsRefs where
  refl _ _ _ := rfl
  trans _ _ _ h1 h2 k d := (h2 k d).trans (h1 k d)

variable {σ σ' : State} {k : Keylet DirNode} {n : DirNode} {f : Nat → Nat} {e root d : Digest}
  {soft stable keepRoot : Bool} {ter : TER} {entry : Digest} {page : Nat}

theorem KeepsRefs.set (n' : DirNode) (h : σ.get k = some n) (hn : n'.indexes = n.indexes) :
    KeepsRefs σ (σ.set k n') := by
  intro _ d
  rw [refs_set_node]
  split
  · next e => rw [e, refs_eq h, hn]
  · rfl

theorem KeepsRefs.del (h : ∀ d, σ.refs k.key d = 0) : KeepsRefs σ (σ.del k) := by
  intro _ d
  rw [refs_del_node]
  split
  · next e => rw [e, h]
  · rfl

theorem KeepsRefs.zero {k : Digest} (h : KeepsRefs σ σ') (h0 : ∀ d, σ.refs k d = 0) (d : Digest) :
    σ'.refs k d = 0 :=
  (h k d).trans (h0 d)

theorem KeepsRefs.of_keeps (h : Keeps DirNode σ σ') : KeepsRefs σ σ' := by
  intro k d
  unfold refs
  rw [h]

theorem RefsBy.trans_keeps {p : Digest} {σ1 σ2 σ3 : State} (h1 : RefsBy f p e σ1 σ2)
    (h2 : KeepsRefs σ2 σ3) : RefsBy f p e σ1 σ3 :=
  fun k d => (h2 k d).trans (h1 k d)

theorem KeepsRefs.trans_by {p : Digest} {σ1 σ2 σ3 : State} (h1 : KeepsRefs σ1 σ2)
    (h2 : RefsBy f p e σ2 σ3) : RefsBy f p e σ1 σ3 := by
  intro k d
  rw [h2 k d, h1 k d]

theorem RefsBy.set (n' : DirNode) (h : σ.get k = some n)
    (hn : ∀ d, n'.indexes.count d = if d = e then f (n.indexes.count d) else n.indexes.count d) :
    RefsBy f k.key e σ (σ.set k n') := by
  intro k' d
  rw [refs_set_node]
  by_cases hk : k' = k.key
  · subst hk
    rw [if_pos rfl, hn, refs_eq h]
    simp
  · rw [if_neg hk, if_neg fun hc => hk hc.1]

/-! ## dirAdd -/

theorem RefsBy.insert (h : σ k.key = none) (hn : n.indexes = [e]) :
    RefsBy (· + 1) k.key e σ (σ.set k n) := by
  intro k' d
  rw [refs_set_node, hn]
  by_cases hk : k' = k.key
  · subst hk
    have h0 : σ.refs k.key d = 0 := by
      unfold refs
      rw [get_of_none h]
      rfl
    by_cases hd : d = e
    · subst hd; simp [h0]
    · simp [h0, hd, Ne.symm hd]
  · rw [if_neg hk, if_neg fun hc => hk hc.1]

/-- A describing function that leaves the entries alone. -/
def Describes (describe : DirNode → DirNode) : Prop := ∀ n, (describe n).indexes = n.indexes

theorem describes_describeOwnerDir (account : AccountID) : Describes (describeOwnerDir account) :=
  fun _ => rfl

theorem dirAdd_refs {dir : Keylet DirNode} {describe : DirNode → DirNode} (hd : Describes describe)
    (h : exec (dirAdd dir entry describe) σ = .ok ((.tesSUCCESS, page), σ')) :
    RefsBy (· + 1) (keylet.page dir.key page).key entry σ σ' := by
  rcases dirAdd_ok h with ⟨-, rfl, -, hno, rfl⟩ | ⟨_, node, -, hnode,
    ⟨-, rfl, -, rfl⟩ | ⟨ht, -⟩ | ⟨-, -, -, n, σ1, σ2, rfl, hn, rfl, hno, rfl⟩⟩
  · exact RefsBy.insert hno (hd _)
  · refine RefsBy.set _ hnode fun d => ?_
    by_cases e : d = entry
    · subst e; simp
    · simp [e, Ne.symm e]
  · cases ht
  have h1 := KeepsRefs.set { node with indexNext := page } hnode rfl
  have h2 := KeepsRefs.set { n with indexPrevious := page } hn rfl
  exact h1.trans_by (h2.trans_by (RefsBy.insert hno (hd _)))

/-! ## dirDelete -/

theorem dirFind_ok {fuel page : Nat} {r : Option (Nat × DirNode)}
    (h : exec (dirFind root entry soft fuel page) σ = .ok (r, σ')) :
    σ' = σ ∧ ∀ p n, r = some (p, n) →
      σ.get (keylet.page root p) = some n ∧ entry ∈ n.indexes ∧ (soft = false → p = page) := by
  have hfo {page : Nat} {node : DirNode}
      (hf : (σ.get (keylet.page root page)).filter (entry ∈ ·.indexes) = some node) (p : Nat)
      (n : DirNode) (hpn : some (page, node) = some (p, n)) :
      σ.get (keylet.page root p) = some n ∧ entry ∈ n.indexes ∧ (soft = false → p = page) := by
    rw [Option.filter_eq_some_iff] at hf
    cases hpn
    exact ⟨hf.1, by simpa using hf.2, fun _ => rfl⟩
  induction fuel generalizing page with
  | zero =>
    rw [dirFind] at h
    obtain ⟨_, rfl, h⟩ := exec_peek_ok h
    split at h
    · next node hf =>
      obtain ⟨rfl, rfl⟩ := exec_pure.1 h
      exact ⟨rfl, hfo hf⟩
    · obtain ⟨rfl, rfl⟩ := exec_pure.1 h
      exact ⟨rfl, fun _ _ hpn => by cases hpn⟩
  | succ fuel ih =>
    rw [dirFind] at h
    obtain ⟨_, rfl, h⟩ := exec_peek_ok h
    split at h
    · next node hf =>
      obtain ⟨rfl, rfl⟩ := exec_pure.1 h
      exact ⟨rfl, hfo hf⟩
    split at h
    · next hso =>
      obtain ⟨rfl, hp⟩ := ih h
      refine ⟨rfl, fun p n hpn => ?_⟩
      obtain ⟨h1, h2, -⟩ := hp p n hpn
      exact ⟨h1, h2, fun hs => by rw [hs] at hso; cases hso⟩
    · obtain ⟨rfl, rfl⟩ := exec_pure.1 h
      exact ⟨rfl, fun _ _ hpn => by cases hpn⟩

theorem removeIndex_perm {l : List Digest} (he : e ∈ l) :
    (removeIndex stable l e).Perm (l.erase e) := by
  cases stable with
  | true => exact .refl _
  | false =>
    obtain ⟨l1, l2, rfl, hn⟩ := List.eq_append_cons_of_mem he
    have hi : (l1 ++ e :: l2).idxOf e = l1.length := by simp [List.idxOf_append, hn]
    have her : (l1 ++ e :: l2).erase e = l1 ++ l2 := by simp [List.erase_append, hn]
    simp only [removeIndex, Bool.false_eq_true, if_false, her, hi]
    rcases List.eq_nil_or_concat l2 with rfl | ⟨l2, last, rfl⟩
    · simp
    have hl : (l1 ++ e :: (l2 ++ [last])).getLast? = some last := by
      rw [← List.cons_append, ← List.append_assoc, List.getLast?_concat]
    have hs : (l1 ++ e :: (l2 ++ [last])).set l1.length last = l1 ++ last :: (l2 ++ [last]) := by
      simp
    have hd : (l1 ++ last :: (l2 ++ [last])).dropLast = l1 ++ last :: l2 := by
      rw [← List.cons_append, ← List.append_assoc, List.dropLast_concat]
    simp only [List.concat_eq_append, hl, hs, hd]
    exact (List.perm_append_singleton last l2).symm.append_left l1

theorem count_removeIndex {l : List Digest} (he : e ∈ l) (d : Digest) :
    (removeIndex stable l e).count d = if d = e then l.count d - 1 else l.count d := by
  rw [(removeIndex_perm he).count_eq]
  by_cases h : d = e
  · subst h; simp
  · simp [h]

theorem dirUnlink_refs {node : DirNode} (hem : ∀ d, σ.refs (keylet.page root page).key d = 0)
    (h : exec (dirUnlink keepRoot root page node) σ = .ok (ter, σ')) : KeepsRefs σ σ' := by
  rcases dirUnlink_ok h with rfl | ⟨rfl, -, rfl⟩ | ⟨p, -, hp, rfl⟩ |
    ⟨-, -, n1, n2, σ1, σ2, hn1, rfl, hn2, rfl, rfl⟩
  · exact KeepsRefs.isRun.refl _
  · exact .del hem
  · have hz {q : Nat} {n : DirNode} (hn : σ.get (keylet.page root q) = some n)
        (hi : n.indexes = []) (d : Digest) : σ.refs (keylet.page root q).key d = 0 := by
      rw [refs_eq hn, hi, List.count_nil]
    rcases hp with ⟨rfl, -, -, -, n, hn, hi⟩ | ⟨rfl, -, -, -, n, hn, hi⟩
    · have h1 := KeepsRefs.del hem
      exact KeepsRefs.isRun.trans h1 (.del (h1.zero (hz hn hi)))
    · have h1 := KeepsRefs.del (hz hn hi)
      exact KeepsRefs.isRun.trans h1 (.del (h1.zero hem))
  have h1 := KeepsRefs.set { n1 with indexNext := node.indexNext } hn1 rfl
  have h2 := KeepsRefs.set { n2 with indexPrevious := node.indexPrevious } hn2 rfl
  have hk := KeepsRefs.isRun.trans h1 h2
  exact KeepsRefs.isRun.trans hk (.del (hk.zero hem))

/-- `dirDelete` finds nothing, or takes the entry off the page where it is and unlinks that page if
it is empty then. -/
theorem dirDelete_ok (h : exec (dirDelete keepRoot page root entry stable soft) σ = .ok (ter, σ')) :
    (ter = .tefBAD_LEDGER ∧ σ' = σ) ∨
    ∃ p n σ1, (soft = false → p = page) ∧ σ.get (keylet.page root p) = some n ∧ entry ∈ n.indexes ∧
      σ1 = σ.set (keylet.page root p) { n with indexes := removeIndex stable n.indexes entry } ∧
      (σ' = σ1 ∨ (removeIndex stable n.indexes entry = [] ∧
        exec (dirUnlink keepRoot root p n) σ1 = .ok (ter, σ'))) := by
  obtain ⟨hit, _, h1, h⟩ := exec_bind.1 h
  obtain ⟨rfl, hfi⟩ := dirFind_ok h1
  cases hit with
  | none =>
    obtain ⟨rfl, rfl⟩ := exec_pure.1 h
    exact .inl ⟨rfl, rfl⟩
  | some hit =>
    obtain ⟨p, n⟩ := hit
    obtain ⟨hn, hm, hp⟩ := hfi p n rfl
    obtain ⟨n', hn', h⟩ := exec_update_ok h
    obtain rfl : n = n' := Option.mem_unique hn hn'
    refine .inr ⟨p, n, _, hp, hn, hm, rfl, ?_⟩
    split at h
    · next hem => exact .inr ⟨List.isEmpty_iff.1 hem, h⟩
    · exact .inl (exec_pure.1 h).2.symm

theorem dirDelete_refs
    (h : exec (dirDelete keepRoot page root entry stable soft) σ = .ok (ter, σ')) :
    (ter = .tefBAD_LEDGER ∧ σ' = σ) ∨
      ∃ p, (soft = false → p = page) ∧ 0 < σ.refs (keylet.page root p).key entry ∧
        RefsBy (· - 1) (keylet.page root p).key entry σ σ' := by
  rcases dirDelete_ok h with hb | ⟨p, n, -, hp, hn, hm, rfl, he⟩
  · exact .inl hb
  have hs : RefsBy (· - 1) (keylet.page root p).key entry _ _ :=
    RefsBy.set { n with indexes := removeIndex stable n.indexes entry } hn (count_removeIndex hm)
  refine .inr ⟨p, hp, by rw [refs_eq hn]; exact List.count_pos_iff.2 hm, ?_⟩
  rcases he with rfl | ⟨hem, hun⟩
  · exact hs
  · refine hs.trans_keeps (dirUnlink_refs (fun d => ?_) hun)
    rw [refs_set_node, if_pos rfl, hem, List.count_nil]

/-! ## Entries that one page lists -/

/-- The entry is listed once, on page `n` of the directory `dir`, or nowhere. -/
def ListedAt (σ : State) (d : Digest) : Option (Digest × Nat) → Prop
  | some (dir, n) => ∀ p, σ.refs p d = if p = (keylet.page dir n).key then 1 else 0
  | none => ∀ p, σ.refs p d = 0

theorem ListedAt.of_refs {place : Option (Digest × Nat)} (h : ListedAt σ d place)
    (hr : ∀ p, σ'.refs p d = σ.refs p d) : ListedAt σ' d place := by
  cases place with
  | none => exact fun p => (hr p).trans (h p)
  | some place => exact fun p => (hr p).trans (h p)

theorem ListedAt.add {dir : Digest} {n : Nat} (h : ListedAt σ d none)
    (hby : RefsBy (· + 1) (keylet.page dir n).key d σ σ') : ListedAt σ' d (some (dir, n)) := by
  intro p
  rw [hby p d, h p]
  simp

theorem ListedAt.delete {dir : Digest} {n page : Nat} (h : ListedAt σ d (some (dir, n)))
    (hd : Succeeds (dirDelete keepRoot page dir d stable soft) σ σ') : ListedAt σ' d none := by
  rcases dirDelete_refs hd with ⟨ht, -⟩ | ⟨p, -, hpos, hby⟩
  · cases ht
  have hp : (keylet.page dir p).key = (keylet.page dir n).key := by
    by_contra hne
    rw [h, if_neg hne] at hpos
    cases hpos
  intro k
  rw [hby k d, h k, hp]
  by_cases hk : k = (keylet.page dir n).key <;> simp [hk]

end FinPal
