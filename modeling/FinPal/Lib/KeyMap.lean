import Mathlib.Algebra.Order.Group.Nat
import Mathlib.Data.Finmap

/-!
# Maps with one type of values

Association lists whose values all have one type: changing every value, dropping entries, and
counting the keys with a value.
-/

abbrev KeyMap (α β : Type*) := AList fun _ : α => β

namespace AList
variable {α β γ : Type*}

def mapVal (f : α → β → γ) (s : KeyMap α β) : KeyMap α γ where
  entries := s.entries.map fun x => ⟨x.1, f x.1 x.2⟩
  nodupKeys := s.nodupKeys.map₂ f

def filterVal (p : α → β → Bool) (s : KeyMap α β) : KeyMap α β where
  entries := s.entries.filter fun x => p x.1 x.2
  nodupKeys := s.nodupKeys.sublist List.filter_sublist

def countVal [DecidableEq β] (b : β) (s : KeyMap α β) : ℕ := s.entries.countP fun x => x.2 = b

variable [DecidableEq α] {s : KeyMap α β} {a a' : α} {b b' : β}

@[simp] theorem lookup_mapVal (f : α → β → γ) (s : KeyMap α β) (a : α) :
    (mapVal f s).lookup a = (s.lookup a).map (f a) :=
  List.dlookup_map₂ a

theorem lookup_eq_some : s.lookup a = some b ↔ ⟨a, b⟩ ∈ s.entries := AList.mem_lookup_iff

@[simp] theorem lookup_filterVal (p : α → β → Bool) (s : KeyMap α β) (a : α) :
    (filterVal p s).lookup a = (s.lookup a).filter (p a) := by
  apply Option.ext
  intro b
  rw [lookup_eq_some, Option.filter_eq_some_iff, lookup_eq_some]
  exact List.mem_filter

theorem lookup_eq_ite {o : Option β} (h : s.lookup a = o) (a' : α) :
    s.lookup a' = if a' = a then o else s.lookup a' := by
  split
  case isTrue ha => rw [ha, h]
  case isFalse => rfl

theorem lookup_insert_eq (s : KeyMap α β) (a a' : α) (b : β) :
    (s.insert a b).lookup a' = if a' = a then some b else s.lookup a' := by
  split
  case isTrue h => rw [h, AList.lookup_insert]
  case isFalse h => rw [AList.lookup_insert_ne h]

theorem lookup_erase_eq (s : KeyMap α β) (a a' : α) :
    (s.erase a).lookup a' = if a' = a then none else s.lookup a' := by
  split
  case isTrue h => rw [h, AList.lookup_erase]
  case isFalse h => rw [AList.lookup_erase_ne h]

variable [DecidableEq β]

theorem countP_kerase (b : β) (a : α) (l : List (Σ _ : α, β)) : l.countP (fun x => x.2 = b) =
      (l.kerase a).countP (fun x => x.2 = b) + if l.dlookup a = some b then 1 else 0 := by
  induction l with
  | nil => rfl
  | cons x l ih =>
    by_cases ha : a = x.1
    · have hlo : (x :: l).dlookup a = some x.2 := by
        subst ha
        exact List.dlookup_cons_eq l x.1 x.2
      rw [List.kerase_cons_eq ha, hlo, List.countP_cons]
      simp
    rw [List.kerase_cons_ne ha, List.dlookup_cons_ne _ _ ha, List.countP_cons, List.countP_cons,
      ih]
    omega

theorem countVal_erase (b : β) (s : KeyMap α β) (a : α) :
    s.countVal b = (s.erase a).countVal b + if s.lookup a = some b then 1 else 0 :=
  countP_kerase b a s.entries

theorem countVal_insert (b b' : β) (s : KeyMap α β) (a : α) :
    (s.insert a b').countVal b = (s.erase a).countVal b + if b' = b then 1 else 0 := by
  simp [countVal, List.countP_cons, AList.erase]

theorem countVal_eq_card {t : Finset α} (h : ∀ a, s.lookup a = some b ↔ a ∈ t) :
    s.countVal b = t.card := by
  have hk : (s.filterVal fun _ b' => b' = b).keys.toFinset = t := by
    ext a
    rw [List.mem_toFinset, ← AList.mem_keys, ← AList.lookup_isSome, lookup_filterVal, ← h a]
    cases s.lookup a <;> simp [Option.filter_some, apply_ite]
  rw [← hk, List.toFinset_card_of_nodup (AList.keys_nodup _)]
  simp [countVal, filterVal, List.keys, List.countP_eq_length_filter]

theorem exists_keys_of (s : KeyMap α β) (b : β) :
    ∃ A ⊆ s.keys.toFinset, A.card = s.countVal b ∧ ∀ a ∈ A, s.lookup a = some b := by
  have hm (a) : s.lookup a = some b ↔ a ∈ s.keys.toFinset.filter (s.lookup · = some b) := by
    rw [Finset.mem_filter, List.mem_toFinset, ← mem_keys, ← lookup_isSome]
    simp +contextual
  exact ⟨_, Finset.filter_subset .., (countVal_eq_card hm).symm, fun a => (hm a).2⟩

/-- Two maps agree on their common keys, which are two fifths of them all. Values that four fifths of
the keys have in either are then the same. -/
theorem eq_of_overlap {t : KeyMap α β} (hs : 4 * s.keys.toFinset.card < 5 * s.countVal b)
    (ht : 4 * t.keys.toFinset.card < 5 * t.countVal b')
    (hov : s.keys.toFinset.card + t.keys.toFinset.card ≤
      5 * (s.keys.toFinset ∩ t.keys.toFinset).card)
    (hag : ∀ a ∈ s.keys, a ∈ t.keys → s.lookup a = t.lookup a) : b = b' := by
  obtain ⟨A, hA, hcA, hlA⟩ := s.exists_keys_of b
  obtain ⟨B, hB, hcB, hlB⟩ := t.exists_keys_of b'
  -- the keys of `b` and of `b'` are more than all keys together
  have hun := Finset.card_union_add_card_inter s.keys.toFinset t.keys.toFinset
  obtain ⟨a, ha⟩ := Finset.inter_nonempty_of_card_lt_card_add_card
    (hA.trans Finset.subset_union_left) (hB.trans Finset.subset_union_right) (by omega)
  obtain ⟨haA, haB⟩ := Finset.mem_inter.1 ha
  have heq := hag a (List.mem_toFinset.1 (hA haA)) (List.mem_toFinset.1 (hB haB))
  rw [hlA a haA, hlB a haB] at heq
  exact Option.some.inj heq

end AList
