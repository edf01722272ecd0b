import FinPal.Verify.DirectoryEmptiness

/-!
# Paging through an owner's directory
-/

namespace FinPal
open Store State Finset
section
variable {σ : State} {root after : Digest} {f : List (Option Entry) → Bool} {S : Finset Nat} {p : Nat}
  {held : Digest → Option Nat} {l : List Digest} {v : Visit}

theorem visitKeys_append (a b : List Digest) (v : Visit) :
    visitKeys σ after f (a ++ b) v = if (visitKeys σ after f a v).1 then visitKeys σ after f a v
      else visitKeys σ after f b (visitKeys σ after f a v).2 := by
  induction a generalizing v with
  | nil => rfl
  | cons _ a _ =>
    simp only [List.cons_append, visitKeys]
    split_ifs <;> simp_all

theorem visitKeys_skip {pre : List Digest} (h : after ∉ pre) (hv : v.found = false) :
    visitKeys σ after f (pre ++ l) v = visitKeys σ after f l v := by
  induction pre with
  | nil => rfl
  | cons key pre ih =>
    obtain ⟨hne, hp⟩ := List.ne_and_not_mem_of_not_mem_cons h
    have hs : { v with found := decide (key = after) } = v := by
      rw [decide_eq_false hne.symm, ← hv]
    rw [List.cons_append, visitKeys, hv, if_pos (by rfl), hs, ih hp]

/-- Past the marker the entries are visited from the first one on. -/
theorem visitKeys_found (l : List Digest) (hv : v.found = true) : ∃ a b, l = a ++ b ∧
    (visitKeys σ after f l v).2.visited = v.visited ++ a ∧ (l ≠ [] → a ≠ []) := by
  induction l generalizing v with
  | nil => exact ⟨[], [], rfl, by simp [visitKeys], fun h => absurd rfl h⟩
  | cons key l ih =>
    simp only [visitKeys, hv]
    have hr {w : Visit} (hw : w.found = true) (hvis : w.visited = v.visited ++ [key]) :
        ∃ a b, key :: l = a ++ b ∧
          (visitKeys σ after f l w).2.visited = v.visited ++ a ∧ (key :: l ≠ [] → a ≠ []) := by
      obtain ⟨a, b, rfl, h, -⟩ := ih hw
      exact ⟨key :: a, b, rfl, by rw [h, hvis]; simp, nofun⟩
    split
    · contradiction
    split
    · split
      · exact ⟨[key], l, rfl, rfl, nofun⟩
      · exact hr rfl rfl
    · exact hr rfl rfl

section
variable (hS : DirRing σ root S)

include hS

theorem visitPages_eq {fuel : Nat} (hp : p ∈ S)
    (hfu : (S.filter (p < ·)).card < fuel) : visitPages σ after f root fuel p v =
      some (visitKeys σ after f (σ.pageEntries root p ++ σ.entriesAfter root S p) v).2 := by
  induction fuel generalizing p v with
  | zero => omega
  | succ fuel ih =>
    obtain ⟨n, hn⟩ := hS.get_of_mem hp
    rw [visitPages, hn, visitKeys_append, pageEntries_eq hn]
    dsimp only
    obtain ⟨ret, w⟩ := visitKeys σ after f n.indexes v
    cases ret with
    | true => rfl
    | false =>
      dsimp only [Bool.false_eq_true]
      split
      · next h0 =>
        rw [hS.entriesAfter_last hn h0]
        rfl
      · next h0 =>
        have hri := hS.next (links_eq hn)
        rw [hri.filter_lt h0, card_insert_of_notMem (by simp)] at hfu
        rw [hS.entriesAfter_next hn h0]
        exact ih hri.1 (Nat.lt_of_succ_lt_succ hfu)

theorem DirRing.card_lt (hp : p ∈ S) : (S.filter (p < ·)).card < maxPages := by
  have hle := hS.card_le fun _ => True
  rw [filter_true] at hle
  exact (card_lt_card (filter_ssubset.2 ⟨p, hp, lt_irrefl p⟩)).trans_le hle

theorem visitPages_root (v : Visit) :
    visitPages σ after f root maxPages 0 v =
      some (visitKeys σ after f (σ.dirEntries root S) v).2 := by
  rcases S.eq_empty_or_nonempty with rfl | ⟨p, hp⟩
  · have h0 : σ.get (keylet.page root 0) = none := by
      simpa [links] using (hS.mem 0).not.1 (notMem_empty 0)
    rw [show maxPages = (2 ^ 64 - 1) + 1 by norm_num [maxPages], visitPages, h0]
    simp [dirEntries, visitKeys]
  have h0 := (hS.base p hp).1
  rw [σ.dirEntries_eq root h0]
  exact visitPages_eq hS h0 (hS.card_lt h0)

/-- The entries before a page are on the pages before it. -/
theorem DirRing.exists_before (hp : p ∈ S) :
    ∃ pre, σ.dirEntries root S = pre ++ (σ.pageEntries root p ++ σ.entriesAfter root S p) ∧
      ∀ d ∈ pre, ∃ r, r < p ∧ d ∈ σ.pageEntries root r := by
  induction p using Nat.strong_induction_on with
  | _ p ih =>
    by_cases h0 : p = 0
    · subst h0
      exact ⟨[], σ.dirEntries_eq root hp, nofun⟩
    -- the page before it
    obtain ⟨l, hl⟩ := Option.isSome_iff_exists.1 ((hS.mem p).1 hp)
    obtain ⟨ha, hri⟩ := hS.prev hl
    obtain ⟨n, hn⟩ := hS.get_of_mem ha
    have hne : n.indexNext = p := (hS.next (links_eq hn)).unique hri
    obtain ⟨pre, hpre, hbe⟩ := ih l.2 (hri.lt h0).1 ha
    rw [hS.entriesAfter_next hn (hne ▸ h0), hne, ← List.append_assoc] at hpre
    refine ⟨_, hpre, fun d hd => ?_⟩
    rcases List.mem_append.1 hd with hd | hd
    · obtain ⟨r, hr, hd⟩ := hbe d hd
      exact ⟨r, hr.trans (hri.lt h0).1, hd⟩
    · exact ⟨l.2, (hri.lt h0).1, hd⟩

end

section Calls
variable {id : AccountID} (h : HoldsKeys σ (keylet.ownerDir id).key held)
  (hS : DirRing σ (keylet.ownerDir id).key S)
include h hS

/-- The hint has no influence. -/
theorem forEachItemAfter_eq (hi limit : Nat) :
    forEachItemAfter σ after f id hi limit =
      some (visitKeys σ after f (σ.dirEntries (keylet.ownerDir id).key S)
        { found := after = .raw 0, limit }).2 := by
  unfold forEachItemAfter
  by_cases h0 : after = .raw 0
  · simp [h0, visitPages_root hS]
  simp only [h0, ne_eq, not_false_iff, if_true, decide_false]
  split
  · next hm =>
    have hp := h.mem_of_held hS (h.mem_pageEntries.1 hm)
    obtain ⟨pre, hpre, hbe⟩ := hS.exists_before hp
    have hn : after ∉ pre := fun hd => by
      obtain ⟨r, _, hd⟩ := hbe after hd
      have := Option.some.inj ((h.mem_pageEntries.1 hd).symm.trans (h.mem_pageEntries.1 hm))
      omega
    rw [visitPages_eq hS hp (hS.card_lt hp), hpre, visitKeys_skip hn rfl]
  · exact visitPages_root hS _

theorem visited_of_call (hze : held (.raw 0) = none) {visited rest : List Digest}
    (he : σ.dirEntries (keylet.ownerDir id).key S = visited ++ rest) {hi limit : Nat}
    (hca : forEachItemAfter σ (visited.getLast?.getD (.raw 0)) f id hi limit = some v) :
    ∃ a b, rest = a ++ b ∧ v.visited = a ∧ (rest ≠ [] → a ≠ []) := by
  rw [forEachItemAfter_eq h hS] at hca
  obtain rfl := Option.some.inj hca
  rw [he]
  rcases List.eq_nil_or_concat visited with rfl | ⟨pre, last, rfl⟩
  · exact visitKeys_found rest rfl
  obtain ⟨hno, hm⟩ := h.dirEntries hS
  rw [List.concat_eq_append] at he ⊢
  rw [List.getLast?_concat, Option.getD_some, List.append_assoc]
  have hla : last ≠ .raw 0 := by
    rintro rfl
    exact (hm _).1 (by simp [he]) hze
  have hn : last ∉ pre := by
    rw [he, List.append_assoc] at hno
    exact fun hp => (List.nodup_append.1 hno).2.2 _ hp _ (by simp) rfl
  rw [visitKeys_skip hn (decide_eq_false hla), List.singleton_append, visitKeys,
    decide_eq_false hla, if_pos (by rfl)]
  exact visitKeys_found rest (decide_eq_true rfl)

end Calls
end

/-- What calls have visited, each from the last key visited before it. -/
inductive Paged (σ : State) (id : AccountID) : List Digest → Prop
  | nil : Paged σ id []
  | call {f : List (Option Entry) → Bool} {hint limit : Nat} {v : Visit} {visited : List Digest} :
      Paged σ id visited →
      forEachItemAfter σ (visited.getLast?.getD (.raw 0)) f id hint limit = some v →
      Paged σ id (visited ++ v.visited)

theorem Paged.rest {σ : State} {id : AccountID} {held : Digest → Option Nat} {S : Finset Nat}
    {visited : List Digest} (hp : Paged σ id visited)
    (h : HoldsKeys σ (keylet.ownerDir id).key held) (hS : DirRing σ (keylet.ownerDir id).key S)
    (hz : held (.raw 0) = none) :
    ∃ rest, σ.dirEntries (keylet.ownerDir id).key S = visited ++ rest := by
  induction hp with
  | nil => exact ⟨_, rfl⟩
  | call _ hc ih =>
    obtain ⟨rest, he⟩ := ih
    obtain ⟨a, b, rfl, ha, -⟩ := visited_of_call h hS hz he hc
    exact ⟨b, by rw [he, ha, List.append_assoc]⟩

/-- In a directory that holds the keys added and not deleted, a call returns and does the same with
every hint. If zero is no key, calls that go on from the last key visited visit all held keys in one
order, each once, before one visits nothing. -/
theorem items_after_paging {id : AccountID} {σ₀ σ : State} {held : Digest → Option Nat}
    (h₀ : ∀ k, IsPage (keylet.ownerDir id).key k → σ₀ k = none)
    (hrun : DirHistory (keylet.ownerDir id).key σ₀ (fun _ _ _ _ => True) σ held) :
    (∀ after f hint limit,
      (forEachItemAfter σ after f id hint limit).isSome = true ∧
      forEachItemAfter σ after f id hint limit = forEachItemAfter σ after f id 0 limit) ∧
    (held (.raw 0) = none → ∃ entries : List Digest,
      entries.Nodup ∧ (∀ d, d ∈ entries ↔ held d ≠ none) ∧
      ∀ visited, Paged σ id visited → visited <+: entries ∧
        ∀ f hint limit v,
          forEachItemAfter σ (visited.getLast?.getD (.raw 0)) f id hint limit = some v →
          v.visited = [] → visited = entries) := by
  have h := hrun.holdsKeys h₀
  obtain ⟨S, hS⟩ := h.ring
  refine ⟨fun after f hint limit => ?_, fun hze => ?_⟩
  · rw [forEachItemAfter_eq h hS, forEachItemAfter_eq h hS]
    exact ⟨rfl, rfl⟩
  refine ⟨_, (h.dirEntries hS).1, (h.dirEntries hS).2, fun visited hp => ?_⟩
  obtain ⟨rest, he⟩ := hp.rest h hS hze
  refine ⟨⟨rest, he.symm⟩, fun f hint limit v hca hno => ?_⟩
  obtain ⟨a, b, -, ha, hne⟩ := visited_of_call h hS hze he hca
  have hre : rest = [] := by
    by_contra hr
    exact hne hr (ha.symm.trans hno)
  rw [he, hre, List.append_nil]

namespace Sample

/-- 33 keys on two pages, of which one has been deleted with the root to be kept. -/
def twoPages : Option OwnerPages.Run :=
  (OwnerPages.keys.foldlM OwnerPages.add (fun _ => none, fun _ => none)).bind fun r =>
    OwnerPages.delete true r (.account 5)

/-- A wrong hint makes no difference; a call with a limit visits as many keys, which are the first of
the list of all keys. -/
theorem items_after_paging_twoPages : ∃ r v, twoPages = some r ∧ OwnerPages.History r ∧
    forEachItemAfter r.1 (.account 7) (fun _ => true) 1 9 4 =
      forEachItemAfter r.1 (.account 7) (fun _ => true) 1 0 4 ∧
    forEachItemAfter r.1 (.raw 0) (fun _ => true) 1 0 20 = some v ∧ v.visited.length = 20 ∧
    ∃ entries : List Digest, entries.Nodup ∧ .account 32 ∈ entries ∧ v.visited <+: entries := by
  have hrun : (twoPages.any fun r => r.2 (.raw 0) == none && (r.2 (.account 32) == some 1 &&
      (forEachItemAfter r.1 (.raw 0) (fun _ => true) 1 0 20).any fun v => v.visited.length == 20)) =
      true := by decide +kernel
  cases hr : twoPages with
  | none =>
    rw [hr] at hrun
    cases hrun
  | some r =>
    simp only [hr, Option.any_some, Bool.and_eq_true, beq_iff_eq] at hrun
    obtain ⟨hzero, hlast, hcall⟩ := hrun
    obtain ⟨_, ha, hd⟩ := Option.bind_eq_some_iff.1 hr
    have hh := (OwnerPages.history_delete (OwnerPages.history_adds .start ha).1 hd).1
    obtain ⟨hhint, hpaged⟩ := @items_after_paging 1 _ _ _ (fun _ _ => rfl) hh
    obtain ⟨entries, hno, hm, hen⟩ := hpaged hzero
    cases hv : forEachItemAfter r.1 (.raw 0) (fun _ => true) 1 0 20 with
    | none =>
      rw [hv] at hcall
      cases hcall
    | some v =>
      rw [hv, Option.any_some, beq_iff_eq] at hcall
      refine ⟨r, v, rfl, hh, (hhint _ _ _ _).2, hv, hcall, entries, hno, (hm _).2 ?_, ?_⟩
      · rw [hlast]
        simp
      · exact (hen _ (.call .nil hv)).1

/-- A key that is zero is no marker: after it the calls start again. -/
theorem zero_key_restarts :
    (∃ held, DirHistory (keylet.ownerDir 1).key (fun _ => none) (fun _ _ _ _ => True)
      (oneKey (.raw 0)) held) ∧ Paged (oneKey (.raw 0)) 1 [.raw 0, .raw 0] := by
  have hc : forEachItemAfter (oneKey (.raw 0)) (.raw 0) (fun _ => true) 1 0 1 =
      some { found := true, limit := 1, visited := [.raw 0] } := rfl
  exact ⟨⟨_, .add .start rfl (describes_describeOwnerDir 1) (keepsLinks_describeOwnerDir 1) rfl⟩,
    .call (.call .nil hc) hc⟩

end Sample
end FinPal
