import Mathlib.Data.Finset.Sort

/-!
# Ordered maps and successors

What the tables over ordered keys rest on: the entries of a `Std.TreeMap` above a key, a fold over
the entries that touches each key once, and the successor of a key among the live ones, also where
some keys are hidden.
-/

namespace FinPal
open Std (TreeMap)
variable {K V : Type} [LinearOrder K]

/-! ## Entries -/

/-- From the first entry above `key` on. -/
def upperBound (m : TreeMap K V) (key : K) : List (K × V) := m.toList.dropWhile fun e => e.1 ≤ key

def Ascending (l : List (K × V)) : Prop := l.Pairwise fun a b => a.1 < b.1

variable {l : List (K × V)} {key : K} {live : K → Prop} {r : Option K}

theorem Ascending.notMem_tail {k : K} {v : V} (h : Ascending ((k, v) :: l)) (v' : V) :
    (k, v') ∉ l :=
  fun hm => lt_irrefl k ((List.pairwise_cons.1 h).1 _ hm)

theorem Ascending.ext {l' : List (K × V)} (h : Ascending l) (h' : Ascending l')
    (hm : ∀ e, e ∈ l ↔ e ∈ l') : l = l' := by
  exact List.Pairwise.eq_of_mem_iff h h' hm

theorem Ascending.dropWhile_le (h : Ascending l) (key : K) :
    l.dropWhile (fun e => decide (e.1 ≤ key)) = l.filter fun e => decide (key < e.1) := by
  induction l with
  | nil => rfl
  | cons e l ih =>
    obtain ⟨hlt, hl⟩ := List.pairwise_cons.1 h
    by_cases hle : e.1 ≤ key
    · rw [List.dropWhile_cons_of_pos (by simpa using hle), ih hl,
        List.filter_cons_of_neg (by simpa using hle)]
    rw [List.dropWhile_cons_of_neg (by simpa using hle)]
    refine (List.filter_eq_self.2 fun a ha => ?_).symm
    rcases List.mem_cons.1 ha with rfl | ha
    · simpa using hle
    · simpa using (not_le.1 hle).trans (hlt a ha)

theorem ascending_toList (m : TreeMap K V) : Ascending m.toList :=
  m.ordered_keys_toList.imp fun h => compare_lt_iff_lt.1 h

theorem upperBound_eq (m : TreeMap K V) (key : K) :
    upperBound m key = m.toList.filter fun e => decide (key < e.1) :=
  (ascending_toList m).dropWhile_le key

theorem mem_upperBound {m : TreeMap K V} {e : K × V} :
    e ∈ upperBound m key ↔ m[e.1]? = some e.2 ∧ key < e.1 := by
  rw [upperBound_eq, List.mem_filter, ← TreeMap.mem_toList_iff_getElem?_eq_some, decide_eq_true_iff]

theorem ascending_upperBound (m : TreeMap K V) (key : K) : Ascending (upperBound m key) := by
  rw [upperBound_eq]
  exact (ascending_toList m).filter _

theorem getElem?_insert_eq (m : TreeMap K V) (k k' : K) (v : V) :
    (m.insert k v)[k']? = if k' = k then some v else m[k']? := by
  simp [TreeMap.getElem?_insert, @eq_comm K k']

theorem getElem?_erase_eq (m : TreeMap K V) (k k' : K) :
    (m.erase k)[k']? = if k' = k then none else m[k']? := by
  simp [TreeMap.getElem?_erase, @eq_comm K k']

theorem Ascending.find?_le (h : Ascending l) {p : K × V → Bool} {e : K × V}
    (hf : l.find? p = some e) {e' : K × V} (he' : e' ∈ l) (hp : p e' = true) : e.1 ≤ e'.1 := by
  obtain ⟨-, _, _, rfl, has⟩ := List.find?_eq_some_iff_append.1 hf
  rcases List.mem_append.1 he' with hm | hm
  · have := has e' hm
    rw [hp] at this
    cases this
  rcases List.mem_cons.1 hm with rfl | hm
  · exact le_rfl
  · exact ((List.pairwise_cons.1 (List.pairwise_append.1 h).2.1).1 e' hm).le

/-- A fold whose steps each change their own key alone changes each key as its entry says. `Q` is
what a step needs of a key that no step has touched. -/
theorem foldlM_entries {S E O : Type} {step : S → K × V → Except E S} (look : S → K → O)
    (Q : S → K → Prop) (change : V → O → O)
    (hst : ∀ {s s' k v}, Q s k → step s (k, v) = .ok s' → look s' k = change v (look s k) ∧
      ∀ j, j ≠ k → look s' j = look s j ∧ (Q s j → Q s' j))
    (m : TreeMap K V) {s s' : S} (hQ : ∀ k, Q s k) (h : m.toList.foldlM step s = .ok s') (k : K) :
    look s' k = match m[k]? with
      | some v => change v (look s k)
      | none => look s k := by
  suffices hl : ∀ (l : List (K × V)), Ascending l → ∀ s, (∀ k v, (k, v) ∈ l → Q s k) →
      l.foldlM step s = .ok s' →
      (∀ v, (k, v) ∈ l → look s' k = change v (look s k)) ∧
        ((∀ v, (k, v) ∉ l) → look s' k = look s k) by
    obtain ⟨h1, h2⟩ := hl _ (ascending_toList m) s (fun k _ _ => hQ k) h
    simp only [TreeMap.mem_toList_iff_getElem?_eq_some] at h1 h2
    cases hk : m[k]? with
    | none => exact h2 fun v hv => by rw [hk] at hv; cases hv
    | some v => exact h1 v hk
  clear h hQ s
  intro l
  induction l with
  | nil =>
    rintro - s - h
    obtain rfl := Except.ok.inj h
    exact ⟨fun v hv => absurd hv List.not_mem_nil, fun _ => rfl⟩
  | cons e l ih =>
    obtain ⟨j, w⟩ := e
    intro hl s hQ h
    obtain ⟨hlt, hl⟩ := List.pairwise_cons.1 hl
    rw [List.foldlM_cons] at h
    cases hs : step s (j, w) with
    | error e => rw [hs] at h; cases h
    | ok s1 =>
      rw [hs] at h
      have hne {i : K} {v : V} (hi : (i, v) ∈ l) : i ≠ j := (hlt _ hi).ne'
      obtain ⟨hse, hfr⟩ := hst (hQ _ _ List.mem_cons_self) hs
      obtain ⟨h1, h2⟩ := ih hl s1
        (fun i v hi => (hfr i (hne hi)).2 (hQ i v (List.mem_cons_of_mem _ hi))) h
      constructor
      · intro v hv
        rcases List.mem_cons.1 hv with heq | hv
        · cases heq
          -- no later step touches the key
          rw [h2 fun v hv => hne hv rfl, hse]
        · rw [h1 v hv, (hfr k (hne hv)).1]
      intro hv
      have hkj : k ≠ j := fun hkj => hv w (hkj ▸ List.mem_cons_self)
      rw [h2 fun v hm => hv v (List.mem_cons_of_mem _ hm), (hfr k hkj).1]

/-! ## Successors -/

/-- `r` is the least live key above `key`, if there is one below `last`. -/
def IsSucc (live : K → Prop) (key : K) (last : Option K) : Option K → Prop
  | some n => live n ∧ key < n ∧ (∀ x, live x → key < x → n ≤ x) ∧ ∀ l ∈ last, n < l
  | none => ∀ x, live x → key < x → ∃ l ∈ last, l ≤ x

theorem IsSucc.unique {last r' : Option K} (h : IsSucc live key last r)
    (h' : IsSucc live key last r') : r = r' := by
  cases r with
  | none =>
    cases r' with
    | none => rfl
    | some n =>
      obtain ⟨l, hl, hle⟩ := h n h'.1 h'.2.1
      exact absurd (h'.2.2.2 l hl) (not_lt.2 hle)
  | some n =>
    cases r' with
    | none =>
      obtain ⟨l, hl, hle⟩ := h' n h.1 h.2.1
      exact absurd (h.2.2.2 l hl) (not_lt.2 hle)
    | some n' => exact congrArg some (le_antisymm (h.2.2.1 n' h'.1 h'.2.1) (h'.2.2.1 n h.1 h.2.1))

/-- Searches on from a hidden key. There are at most as many rounds as hidden keys, and one. -/
def skipHidden (succ : K → Option K) (hidden : K → Bool) : Nat → K → Option K
  | 0, _ => none
  | rounds + 1, key =>
    match succ key with
    | none => none
    | some next => if hidden next then skipHidden succ hidden rounds next else some next

theorem isSucc_skipHidden {succ : K → Option K} {hid : K → Bool} {last : Option K}
    (hsu : ∀ key, IsSucc live key last (succ key)) {H : Finset K}
    (hH : ∀ x, hid x = true → x ∈ H) {rounds : Nat} (hro : (H.filter (key < ·)).card < rounds) :
    IsSucc (fun x => live x ∧ hid x = false) key last (skipHidden succ hid rounds key) := by
  induction rounds generalizing key with
  | zero => exact absurd hro (Nat.not_lt_zero _)
  | succ rounds ih =>
    have hk := hsu key
    rw [skipHidden]
    cases hs : succ key with
    | none =>
      rw [hs] at hk
      exact fun x hx hlt => hk x hx.1 hlt
    | some next =>
      rw [hs] at hk
      obtain ⟨hli, hlt, hm, hla⟩ := hk
      dsimp only
      by_cases hn : hid next = true
      · rw [if_pos hn]
        have hca : (H.filter (next < ·)).card < rounds := by
          have hsub : H.filter (next < ·) ⊂ H.filter (key < ·) := by
            refine Finset.ssubset_iff_of_subset (fun x hx => ?_) |>.2 ⟨next, ?_, by simp⟩
            · obtain ⟨hx, hnx⟩ := Finset.mem_filter.1 hx
              exact Finset.mem_filter.2 ⟨hx, hlt.trans hnx⟩
            · exact Finset.mem_filter.2 ⟨hH next hn, hlt⟩
          have := Finset.card_lt_card hsub
          omega
        have hre := ih hca
        -- the keys up to `next` are dead or hid
        have hab {x : K} (hx : live x ∧ hid x = false) (hkx : key < x) : next < x := by
          refine lt_of_le_of_ne (hm x hx.1 hkx) fun heq => ?_
          have := hx.2
          rw [← heq, hn] at this
          cases this
        cases hr : skipHidden succ hid rounds next with
        | none =>
          rw [hr] at hre
          exact fun x hx hkx => hre x hx (hab hx hkx)
        | some n =>
          rw [hr] at hre
          exact ⟨hre.1, hlt.trans hre.2.1, fun x hx hkx => hre.2.2.1 x hx (hab hx hkx),
            hre.2.2.2⟩
      · rw [if_neg hn]
        exact ⟨⟨hli, by simpa using hn⟩, hlt, fun x hx => hm x hx.1, hla⟩

/-- The lower one of two keys, where there are two. -/
def lowerKey : Option K → Option K → Option K
  | none, next => next
  | some k, none => some k
  | some k, some next => if k < next then some k else some next

/-- A key from the bound on does not count. -/
def keyBelow (last next : Option K) : Option K :=
  match last with
  | none => next
  | some l => next.filter (· < l)

/-- The successor among two sets of keys, where only the first search knew the bound. -/
theorem IsSucc.lower {live1 live2 : K → Prop} {last o : Option K} (h1 : IsSucc live1 key last r)
    (h2 : IsSucc live2 key none o) (hli : ∀ x, live x ↔ live1 x ∨ live2 x) :
    IsSucc live key last (keyBelow last (lowerKey o r)) := by
  -- a found key is a successor unless it is not below the bound
  have hfo {n : K} (hn : live n) (hkey : key < n)
      (hm : ∀ x, live x → key < x → n ≤ x ∨ ∃ l ∈ last, l ≤ x) :
      IsSucc live key last (keyBelow last (some n)) := by
    cases last with
    | none =>
      refine ⟨hn, hkey, fun x hx hlt => (hm x hx hlt).resolve_right (by simp), by simp⟩
    | some l =>
      by_cases hl : n < l
      · have hso : keyBelow (some l) (some n) = some n := by simp [keyBelow, hl]
        rw [hso]
        refine ⟨hn, hkey, fun x hx hlt => ?_, by simpa using hl⟩
        rcases hm x hx hlt with hle | ⟨_, hl', hle⟩
        · exact hle
        · cases hl'
          exact hl.le.trans hle
      have hno : keyBelow (some l) (some n) = none := by simpa [keyBelow] using hl
      rw [hno]
      intro x hx hlt
      rcases hm x hx hlt with hle | hbo
      · exact ⟨l, rfl, (not_lt.1 hl).trans hle⟩
      · exact hbo
  cases o with
  | none =>
    have hde {x} (hx) : ¬key < x := fun hlt => by
      obtain ⟨l, hl, -⟩ := h2 x hx hlt
      cases hl
    have hli1 {x} (hx) (hlt) : live1 x :=
      ((hli x).1 hx).resolve_right fun hx => hde hx hlt
    cases r with
    | none =>
      cases last with
      | none => exact fun x hx hlt => h1 x (hli1 hx hlt) hlt
      | some l => exact fun x hx hlt => h1 x (hli1 hx hlt) hlt
    | some n =>
      refine hfo ((hli n).2 (.inl h1.1)) h1.2.1 fun x hx hlt => .inl ?_
      exact h1.2.2.1 x (hli1 hx hlt) hlt
  | some k =>
    obtain ⟨hk, hkey, hm, -⟩ := h2
    cases r with
    | none =>
      refine hfo ((hli k).2 (.inr hk)) hkey fun x hx hlt => ?_
      rcases (hli x).1 hx with hx | hx
      · exact .inr (h1 x hx hlt)
      · exact .inl (hm x hx hlt)
    | some n =>
      have hb {x} (hx) (hlt) : n ≤ x ∨ k ≤ x :=
        ((hli x).1 hx).imp (fun hx => h1.2.2.1 x hx hlt) fun hx => hm x hx hlt
      by_cases hkn : k < n
      · rw [show lowerKey (some k) (some n) = some k from if_pos hkn]
        refine hfo ((hli k).2 (.inr hk)) hkey fun x hx hlt => .inl ?_
        exact (hb hx hlt).elim (hkn.le.trans ·) id
      rw [show lowerKey (some k) (some n) = some n from if_neg hkn]
      refine hfo ((hli n).2 (.inl h1.1)) h1.2.1 fun x hx hlt => .inl ?_
      exact (hb hx hlt).elim id ((not_lt.1 hkn).trans ·)

theorem isSucc_find? (m : TreeMap K V) (p : K × V → Bool) (key : K) :
    IsSucc (fun x => ∃ v, m[x]? = some v ∧ p (x, v) = true) key none
      (((upperBound m key).find? p).map Prod.fst) := by
  cases hf : (upperBound m key).find? p with
  | none =>
    rintro x ⟨v, hv, hp⟩ hlt
    have hm : (x, v) ∈ upperBound m key := mem_upperBound.2 ⟨hv, hlt⟩
    exact absurd hp (List.find?_eq_none.1 hf _ hm)
  | some e =>
    obtain ⟨hv, hlt⟩ := mem_upperBound.1 (List.mem_of_find?_eq_some hf)
    refine ⟨⟨e.2, hv, List.find?_some hf⟩, hlt, ?_, by simp⟩
    rintro x ⟨v, hv, hp⟩ hlt
    have hm : (x, v) ∈ upperBound m key := mem_upperBound.2 ⟨hv, hlt⟩
    exact (ascending_upperBound m key).find?_le hf hm hp

end FinPal
