import Mathlib.Data.List.Nodup
import Mathlib.Data.List.TakeWhile
import Mathlib.Order.Nat

/-!
# Indexes by rank

A list of keys that indexes a partial map: it has every key of the map once, and the ranks of the
values do not increase along it. Equal ranks keep their order of insertion.
-/

/-- The keys of a partial map, each once, with ranks that do not increase. -/
structure IsRankIndex {K V : Type*} (rank : V → ℕ) (get : K → Option V) (keys : List K) : Prop where
  nodup : keys.Nodup
  mem_iff : ∀ k, k ∈ keys ↔ (get k).isSome = true
  sorted : keys.Pairwise fun k k' => ∀ v v', get k = some v → get k' = some v' → rank v' ≤ rank v

/-- A key goes behind those that rank at least as high. -/
def insertByRank {K : Type*} (rankOf : K → ℕ) (k : K) (rank : ℕ) (keys : List K) : List K :=
  keys.takeWhile (fun k' => rank ≤ rankOf k') ++ k :: keys.dropWhile fun k' => rank ≤ rankOf k'

def nextKey {K : Type*} [DecidableEq K] (keys : List K) (k : K) : Option K :=
  (keys.dropWhile (· ≠ k)).tail.head?

section insertByRank
variable {K : Type*} {rankOf : K → ℕ} {k : K} {rank : ℕ} {keys : List K}

theorem perm_insertByRank : (insertByRank rankOf k rank keys).Perm (k :: keys) := by
  refine List.perm_middle.trans ?_
  rw [List.takeWhile_append_dropWhile]

theorem length_insertByRank : (insertByRank rankOf k rank keys).length = keys.length + 1 :=
  perm_insertByRank.length_eq

theorem lt_of_mem_dropWhile (h : keys.Pairwise fun k k' => rankOf k' ≤ rankOf k) {k' : K}
    (hk' : k' ∈ keys.dropWhile fun k' => rank ≤ rankOf k') : rankOf k' < rank := by
  induction keys with
  | nil => cases hk'
  | cons k0 keys ih =>
    obtain ⟨hle, h⟩ := List.pairwise_cons.1 h
    by_cases hr : rank ≤ rankOf k0
    · rw [List.dropWhile_cons_of_pos (by simpa using hr)] at hk'
      exact ih h hk'
    rw [List.dropWhile_cons_of_neg (by simpa using hr)] at hk'
    have hlt : rankOf k0 < rank := not_le.1 hr
    obtain rfl | hk' := List.mem_cons.1 hk'
    · exact hlt
    · exact (hle k' hk').trans_lt hlt

end insertByRank

namespace IsRankIndex
open List
variable {K V : Type*} {rank : V → ℕ} {get get' : K → Option V} {keys : List K} {k : K} {v : V}

theorem nil (h : ∀ k, get k = none) : IsRankIndex rank get [] where
  nodup := .nil
  mem_iff k := by simp [h k]
  sorted := .nil

theorem congr (h : IsRankIndex rank get keys)
    (heq : ∀ k, (get' k).map rank = (get k).map rank) : IsRankIndex rank get' keys where
  nodup := h.nodup
  mem_iff k := by
    rw [h.mem_iff k, ← Option.isSome_map, ← heq k, Option.isSome_map]
  sorted := by
    refine h.sorted.imp fun {k1 k2} hle v1 v2 hv1 hv2 => ?_
    have h1 := heq k1
    have h2 := heq k2
    rw [hv1] at h1
    rw [hv2] at h2
    obtain ⟨u1, hu1, hr1⟩ := Option.map_eq_some_iff.1 h1.symm
    obtain ⟨u2, hu2, hr2⟩ := Option.map_eq_some_iff.1 h2.symm
    rw [← hr1, ← hr2]
    exact hle u1 u2 hu1 hu2

theorem erase [BEq K] [LawfulBEq K] (h : IsRankIndex rank get keys) (hk : get' k = none)
    (hne : ∀ k', k' ≠ k → get' k' = get k') : IsRankIndex rank get' (keys.erase k) where
  nodup := h.nodup.erase k
  mem_iff k' := by
    rw [h.nodup.mem_erase_iff]
    by_cases heq : k' = k
    · simp [heq, hk]
    · rw [hne k' heq, ← h.mem_iff k']
      exact and_iff_right heq
  sorted := by
    refine (Pairwise.sublist erase_sublist h.sorted).imp ?_
    intro _ _ hle v1 v2 hv1 hv2
    have hold {k' : K} {u : V} (hu : get' k' = some u) : get k' = some u := by
      rw [← hne k']
      · exact hu
      rintro rfl
      rw [hk] at hu
      cases hu
    exact hle v1 v2 (hold hv1) (hold hv2)

theorem insert (h : IsRankIndex rank get keys) {rankOf : K → ℕ}
    (hra : ∀ k v, get k = some v → rankOf k = rank v) (hno : get k = none)
    (hk : get' k = some v) (hne : ∀ k', k' ≠ k → get' k' = get k') :
    IsRankIndex rank get' (insertByRank rankOf k (rank v) keys) := by
  have hfr : k ∉ keys := by
    rw [h.mem_iff k, hno]
    simp
  have hold {k'} (hm) : get' k' = get k' :=
    hne k' (ne_of_mem_of_not_mem hm hfr)
  have hso : keys.Pairwise fun k1 k2 => rankOf k2 ≤ rankOf k1 := by
    refine h.sorted.imp_of_mem fun {k1 k2} hm1 hm2 hle => ?_
    obtain ⟨v1, hv1⟩ := Option.isSome_iff_exists.1 ((h.mem_iff k1).1 hm1)
    obtain ⟨v2, hv2⟩ := Option.isSome_iff_exists.1 ((h.mem_iff k2).1 hm2)
    rw [hra k1 v1 hv1, hra k2 v2 hv2]
    exact hle v1 v2 hv1 hv2
  have hta {k' : K} (hm : k' ∈ keys.takeWhile fun k' => rank v ≤ rankOf k') :
      rank v ≤ rankOf k' := by simpa using mem_takeWhile_imp hm
  have hdr {k'} (hm) : rankOf k' < rank v := lt_of_mem_dropWhile hso hm
  refine ⟨?_, fun k' => ?_, ?_⟩
  · rw [perm_insertByRank.nodup_iff]
    exact nodup_cons.2 ⟨hfr, h.nodup⟩
  · rw [perm_insertByRank.mem_iff, mem_cons]
    by_cases heq : k' = k
    · simp [heq, hk]
    · rw [hne k' heq, ← h.mem_iff k']
      exact or_iff_right heq
  -- Before the new key are those that rank at least as high, behind it those that rank lower.
  have hva {k'} {u} (hm) (hu) : rank u = rankOf k' :=
    (hra k' u ((hold hm).symm.trans hu)).symm
  have htM {k' : K} (hm : k' ∈ keys.takeWhile fun k' => rank v ≤ rankOf k') : k' ∈ keys :=
    (takeWhile_sublist _).subset hm
  have hdM {k' : K} (hm : k' ∈ keys.dropWhile fun k' => rank v ≤ rankOf k') : k' ∈ keys :=
    (dropWhile_sublist _).subset hm
  refine pairwise_append.2 ⟨?_, pairwise_cons.2 ⟨?_, ?_⟩, ?_⟩
  · refine (Pairwise.sublist (takeWhile_sublist _) hso).imp_of_mem ?_
    intro k1 k2 hm1 hm2 hle v1 v2 hv1 hv2
    rw [hva (htM hm1) hv1, hva (htM hm2) hv2]
    exact hle
  · intro k2 hm2 v1 v2 hv1 hv2
    cases hk.symm.trans hv1
    rw [hva (hdM hm2) hv2]
    exact (hdr hm2).le
  · refine (Pairwise.sublist (dropWhile_sublist _) hso).imp_of_mem ?_
    intro k1 k2 hm1 hm2 hle v1 v2 hv1 hv2
    rw [hva (hdM hm1) hv1, hva (hdM hm2) hv2]
    exact hle
  intro k1 hm1 k2 hm2 v1 v2 hv1 hv2
  rw [hva (htM hm1) hv1]
  obtain rfl | hm2 := mem_cons.1 hm2
  · cases hk.symm.trans hv2
    exact hta hm1
  · rw [hva (hdM hm2) hv2]
    exact (hdr hm2).le.trans (hta hm1)

end IsRankIndex

/-! ### Going along the keys -/

section remaining
variable {K : Type*} [DecidableEq K] {keys : List K} {k : K}

def remaining (keys : List K) : Option K → ℕ
  | none => 0
  | some k => (keys.dropWhile (· ≠ k)).length

theorem remaining_le (keys : List K) (place : Option K) : remaining keys place ≤ keys.length := by
  cases place with
  | none => exact Nat.zero_le _
  | some k => exact (List.dropWhile_sublist _).length_le

theorem dropWhile_ne_append {before after : List K} (h : k ∉ before) :
    (before ++ k :: after).dropWhile (· ≠ k) = k :: after := by
  induction before with
  | nil => simp
  | cons _ before ih =>
    rw [List.mem_cons, not_or] at h
    rw [List.cons_append, List.dropWhile_cons_of_pos (by simpa using Ne.symm h.1)]
    exact ih h.2

end remaining

/-! ### Going on from a key -/

section passed
variable {K : Type*} [DecidableEq K] {keys : List K} {k k' e x : K} {place : Option K}

def passed (keys : List K) : Option K → List K
  | none => keys
  | some k => keys.takeWhile (· ≠ k)

theorem passed_cons (x : K) (keys : List K) (k : K) :
    passed (x :: keys) (some k) = if x = k then [] else x :: passed keys (some k) := by
  simp only [passed, List.takeWhile_cons, ne_eq, decide_not, Bool.not_eq_true',
    decide_eq_false_iff_not, ite_not]

theorem passed_append {before after : List K} (h : k ∉ before) :
    passed (before ++ k :: after) (some k) = before := by
  induction before with
  | nil => rw [List.nil_append, passed_cons, if_pos rfl]
  | cons _ before ih =>
    rw [List.mem_cons, not_or] at h
    rw [List.cons_append, passed_cons, if_neg (Ne.symm h.1), ih h.2]

theorem passed_sublist (keys : List K) (place : Option K) : (passed keys place).Sublist keys := by
  cases place with
  | none => exact .refl _
  | some k => exact List.takeWhile_sublist _

theorem notMem_passed (keys : List K) (k : K) : k ∉ passed keys (some k) := fun h => by
  simpa using List.mem_takeWhile_imp h

omit [DecidableEq K] in
theorem exists_split (hno : keys.Nodup) (hk : k ∈ keys) :
    ∃ before after, keys = before ++ k :: after ∧ k ∉ before ∧ k ∉ after := by
  obtain ⟨before, after, rfl⟩ := List.append_of_mem hk
  obtain ⟨-, haf, hne⟩ := List.nodup_append.1 hno
  exact ⟨before, after, rfl, fun h => hne k h k List.mem_cons_self rfl,
    (List.nodup_cons.1 haf).1⟩

theorem nextKey_spec (hno : keys.Nodup) (hk : k ∈ keys) :
    passed keys (nextKey keys k) = passed keys (some k) ++ [k] ∧
      ∀ k', nextKey keys k = some k' → k' ∈ keys ∧ k' ≠ k := by
  obtain ⟨before, after, rfl, hbe, haf⟩ := exists_split hno hk
  rw [passed_append hbe]
  unfold nextKey
  rw [dropWhile_ne_append hbe, List.tail_cons]
  cases after with
  | nil => exact ⟨rfl, nofun⟩
  | cons k' after =>
    have hsp : before ++ k :: k' :: after = (before ++ [k]) ++ k' :: after := by simp
    refine ⟨?_, ?_⟩
    · rw [List.head?_cons, hsp, passed_append]
      rw [hsp] at hno
      exact fun h => (List.nodup_append.1 hno).2.2 k' h k' List.mem_cons_self rfl
    · rintro _ ⟨rfl⟩
      exact ⟨by simp, fun h => haf (h ▸ List.mem_cons_self)⟩

theorem length_passed_add_remaining (keys : List K) (place : Option K) :
    (passed keys place).length + remaining keys place = keys.length := by
  cases place with
  | none => rfl
  | some k => rw [passed, remaining, ← List.length_append, List.takeWhile_append_dropWhile]

theorem remaining_nextKey_lt (hno : keys.Nodup) (hk : k ∈ keys) :
    remaining keys (nextKey keys k) < remaining keys (some k) := by
  have hlen := length_passed_add_remaining keys (some k)
  have hl' := length_passed_add_remaining keys (nextKey keys k)
  rw [(nextKey_spec hno hk).1, List.length_append, List.length_singleton] at hl'
  omega

section erase
variable [BEq K] [LawfulBEq K]

theorem passed_erase (h : place ≠ some e) : passed (keys.erase e) place = (passed keys place).erase e := by
  cases place with
  | none => rfl
  | some k =>
    have hek : e ≠ k := fun hek => h (by rw [hek])
    induction keys with
    | nil => rfl
    | cons x keys ih =>
      rw [passed_cons]
      by_cases hx : x = e
      · rw [hx, List.erase_cons_head, if_neg hek, List.erase_cons_head]
      rw [List.erase_cons_tail (by simpa using hx), passed_cons, ih]
      split
      · rfl
      · rw [List.erase_cons_tail (by simpa using hx)]

theorem mem_passed_erase (hno : keys.Nodup) (h : place ≠ some e) (x : K) :
    x ∈ passed (keys.erase e) place ↔ x ≠ e ∧ x ∈ passed keys place := by
  rw [passed_erase h, (hno.sublist (passed_sublist keys place)).mem_erase_iff]

end erase

theorem mem_passed_trans (hk' : k' ∈ passed keys (some k)) (hx : x ∈ passed keys (some k')) :
    x ∈ passed keys (some k) := by
  induction keys with
  | nil => cases hx
  | cons y keys ih =>
    rw [passed_cons] at *
    split at hk'
    · cases hk'
    split at hx
    · cases hx
    case isFalse.isFalse hyk hyk' =>
      rw [if_neg hyk, List.mem_cons]
      rw [List.mem_cons] at hk' hx
      exact hx.imp_right (ih (hk'.resolve_left (Ne.symm hyk')))

theorem IsRankIndex.mem_passed {V : Type*} {rank : V → ℕ} {get : K → Option V} {v v' : V}
    (h : IsRankIndex rank get keys) (hk : get k = some v) (hk' : get k' = some v')
    (hlt : rank v < rank v') : k' ∈ passed keys (some k) := by
  have hm : k ∈ keys := (h.mem_iff k).2 (by rw [hk]; rfl)
  have hm' : k' ∈ keys := (h.mem_iff k').2 (by rw [hk']; rfl)
  have hso := h.sorted
  obtain ⟨_, _, rfl, hbe, -⟩ := exists_split h.nodup hm
  rw [passed_append hbe]
  obtain hin | hin := List.mem_append.1 hm'
  · exact hin
  obtain rfl | hin := List.mem_cons.1 hin
  · rw [hk] at hk'
    cases hk'
    exact absurd hlt (lt_irrefl _)
  · have hp := (List.pairwise_append.1 hso).2.1
    exact absurd hlt ((List.pairwise_cons.1 hp).1 k' hin v v' hk hk').not_gt

/-- What comes next ranks no higher than what is passed. -/
theorem IsRankIndex.rank_nextKey_le {V : Type*} {rank : V → ℕ} {get : K → Option V} {v v' : V}
    (h : IsRankIndex rank get keys) (hk : k ∈ keys) (hx : x ∈ passed keys (some k))
    (hn : nextKey keys k = some k') (hv : get x = some v) (hv' : get k' = some v') :
    rank v' ≤ rank v := by
  refine le_of_not_gt fun hlt => notMem_passed keys k' ?_
  have hp := mem_passed_trans hx (h.mem_passed hv hv' hlt)
  rw [← hn, (nextKey_spec h.nodup hk).1]
  exact List.mem_append_left _ hp

/-- What comes behind the place of `k'`, which is passed at `k`, lies between the two. -/
theorem sublist_of_passed (hno : keys.Nodup) (hk : k ∈ keys) (hk' : k' ∈ passed keys (some k))
    (hx : x ∈ passed keys (some k)) (hx' : x ∉ passed keys (some k')) :
    x = k' ∨ List.Sublist [k', x, k] keys := by
  obtain ⟨before, after, rfl, hbe, -⟩ := exists_split hno hk
  rw [passed_append hbe] at hk' hx
  obtain ⟨before, between, rfl, hbe', -⟩ :=
    exists_split (hno.sublist (List.sublist_append_left ..)) hk'
  rw [List.append_assoc, List.cons_append, passed_append hbe'] at hx'
  obtain rfl | hx := List.mem_cons.1 ((List.mem_append.1 hx).resolve_left hx')
  · exact .inl rfl
  right
  have hxk : List.Sublist ([x] ++ [k]) (between ++ k :: after) :=
    (List.singleton_sublist.2 hx).append (List.singleton_sublist.2 List.mem_cons_self)
  rw [List.append_assoc, List.cons_append]
  exact (hxk.cons_cons k').trans (List.sublist_append_right ..)

/-- Going on from `k` passes no other key, and passed ones stay behind, but for those between `back`
and `k` where one goes back. -/
structure GoesOn (keys : List K) (k back : K) (keys' : List K) (next : Option K) : Prop where
  passes : ∀ x ∈ passed keys' next, x ∈ passed keys (some k) ∨ x = k
  stays : ∀ x ∈ keys', x ∈ passed keys (some k) ∨ x = k →
    x ∈ passed keys' next ∨ x = back ∨ List.Sublist [back, x, k] keys

namespace GoesOn

theorem next (hno : keys.Nodup) (hk : k ∈ keys) (back : K) :
    GoesOn keys k back keys (nextKey keys k) := by
  have hm (x) : x ∈ passed keys (nextKey keys k) ↔ x ∈ passed keys (some k) ∨ x = k := by
    rw [(nextKey_spec hno hk).1, List.mem_append, List.mem_singleton]
  exact ⟨fun x hx => (hm x).1 hx, fun x _ hx => .inl ((hm x).2 hx)⟩

variable [BEq K] [LawfulBEq K]

variable (hno : keys.Nodup) (hk : k ∈ keys)

include hno hk

theorem erase_other (hne : e ≠ k) (back : K) :
    GoesOn keys k back (keys.erase e) (nextKey (keys.erase e) k) := by
  have hpl : some k ≠ some e := by simpa using hne.symm
  have hm := mem_passed_erase hno hpl
  have hk' : k ∈ keys.erase e := hno.mem_erase_iff.2 ⟨hne.symm, hk⟩
  have hn := (nextKey_spec (hno.erase e) hk').1
  refine ⟨fun x hx => ?_, fun x hx hbe => .inl ?_⟩
  · rw [hn, List.mem_append, List.mem_singleton, hm] at hx
    exact hx.imp_left And.right
  · rw [hn, List.mem_append, List.mem_singleton, hm]
    exact hbe.imp_left fun h => ⟨(hno.mem_erase_iff.1 hx).1, h⟩

theorem erase_self (back : K) : GoesOn keys k back (keys.erase k) (nextKey keys k) := by
  obtain ⟨hn, hne⟩ := nextKey_spec hno hk
  have hm := mem_passed_erase hno fun h => (hne k h).2 rfl
  refine ⟨fun x hx => ?_, fun x hx hbe => .inl ?_⟩
  · rw [hm, hn, List.mem_append, List.mem_singleton] at hx
    exact hx.2
  · rw [hm, hn, List.mem_append, List.mem_singleton]
    exact ⟨(hno.mem_erase_iff.1 hx).1, hbe⟩

theorem jump (hne : k' ≠ k)
    (hk' : k' ∈ passed keys (nextKey keys k)) : GoesOn keys k k' (keys.erase k) (some k') := by
  have hpl : some k' ≠ some k := by simpa using hne
  have hm := mem_passed_erase hno hpl
  rw [(nextKey_spec hno hk).1, List.mem_append, List.mem_singleton, or_iff_left hne] at hk'
  refine ⟨fun x hx => .inl (mem_passed_trans hk' ((hm x).1 hx).2), fun x hx hbe => ?_⟩
  have hxk : x ≠ k := (hno.mem_erase_iff.1 hx).1
  by_cases h : x ∈ passed keys (some k')
  · exact .inl ((hm x).2 ⟨hxk, h⟩)
  · exact .inr (sublist_of_passed hno hk hk' (hbe.resolve_right hxk) h)

end GoesOn
end passed
