import Mathlib.Algebra.GroupWithZero.Nat
import Mathlib.Data.Finmap

/-!
# Tallies

A tally keeps under each key how often it occurs, and has no entry for a key that does not occur
(`Tallies`). Sums over the entries of a map are taken apart at one key.
-/

namespace FinPal
variable {K : Type} [DecidableEq K]

/-- The map holds exactly the positive ones of the numbers `n`. -/
def Tallies (l : AList fun _ : K => ℕ) (n : K → ℕ) : Prop :=
  ∀ k, l.lookup k = if n k = 0 then none else some (n k)

namespace Tallies
variable {l : AList fun _ : K => ℕ} {n n' : K → ℕ} {k : K} {c : ℕ}

theorem congr (h : Tallies l n) (hn : ∀ k, n' k = n k) : Tallies l n' := fun k => by
  rw [hn, h k]

theorem empty : Tallies (∅ : AList fun _ : K => ℕ) fun _ => 0 := fun k => by simp

variable (h : Tallies l n)

include h

theorem lookup_getD (k : K) : (l.lookup k).getD 0 = n k := by
  rw [h k]
  split
  next h0 => rw [h0, Option.getD_none]
  next => rfl

theorem lookup_eq_none : l.lookup k = none ↔ n k = 0 := by
  rw [h k]
  split <;> simp_all

theorem insert (hc : c ≠ 0) : Tallies (l.insert k c) (Function.update n k c) := by
  intro k'
  by_cases hk : k' = k
  · subst hk
    simp [hc]
  · rw [AList.lookup_insert_ne hk, h k', Function.update_of_ne hk]

theorem erase : Tallies (l.erase k) (Function.update n k 0) := by
  intro k'
  by_cases hk : k' = k
  · subst hk
    simp
  · rw [AList.lookup_erase_ne hk, h k', Function.update_of_ne hk]

end Tallies

/-! ## Numbers of occurrences -/

section Count
variable [BEq K] [LawfulBEq K] (n : K → ℕ) (a : K) (l : List K) (k : K)

theorem update_add_count :
    Function.update n a (n a + 1) k + l.count k = n k + (a :: l).count k := by
  by_cases h : k = a
  · subst h
    simp only [Function.update_self, List.count_cons_self]
    omega
  · rw [Function.update_of_ne h, List.count_cons_of_ne (Ne.symm h)]

theorem update_sub_count :
    Function.update n a (n a - 1) k - l.count k = n k - (a :: l).count k := by
  by_cases h : k = a
  · subst h
    simp only [Function.update_self, List.count_cons_self]
    omega
  · rw [Function.update_of_ne h, List.count_cons_of_ne (Ne.symm h)]

variable {n a l k}

theorem count_le_update (h : (a :: l).count k ≤ n k) :
    l.count k ≤ Function.update n a (n a - 1) k := by
  by_cases e : k = a
  · subst e
    rw [List.count_cons_self] at h
    rw [Function.update_self]
    omega
  · rwa [Function.update_of_ne e, ← List.count_cons_of_ne (Ne.symm e)]

end Count

/-! ## Sums over a map -/

section Sum
variable {V : Type} (g : K → V → ℕ) {s : AList fun _ : K => V}

def entrySum (s : AList fun _ : K => V) : ℕ := (s.entries.map fun e => g e.1 e.2).sum

theorem entrySum_insert (s : AList fun _ : K => V) (k : K) (v : V) :
    entrySum g (s.insert k v) = g k v + entrySum g (s.erase k) := by
  simp [entrySum, AList.insert, AList.erase]

theorem exists_entries {k : K} {v : V} (h : s.lookup k = some v) :
    ∃ l1 l2, s.entries = l1 ++ ⟨k, v⟩ :: l2 ∧ (s.erase k).entries = l1 ++ l2 := by
  have hm := AList.mem_lookup_iff.1 h
  obtain ⟨w, l1, l2, -, hs, her⟩ := List.exists_of_kerase (List.mem_keys_of_mem hm)
  have hw : (⟨k, w⟩ : (_ : K) × V) ∈ s.entries := by simp [hs]
  obtain rfl := Option.some.inj ((AList.mem_lookup_iff.2 hw).symm.trans h)
  exact ⟨l1, l2, hs, her⟩

theorem entrySum_erase (s : AList fun _ : K => V) (k : K) :
    entrySum g s = (s.lookup k).elim 0 (g k) + entrySum g (s.erase k) := by
  cases h : s.lookup k with
  | none =>
    have hen : (s.erase k).entries = s.entries :=
      List.kerase_of_notMem_keys (AList.lookup_eq_none.1 h)
    simp [entrySum, hen]
  | some v =>
    obtain ⟨l1, l2, hs, hr⟩ := exists_entries h
    simp only [entrySum, hs, hr, List.map_append, List.map_cons, List.sum_append, List.sum_cons,
      Option.elim_some]
    omega

omit [DecidableEq K] in
theorem entrySum_add (g' : K → V → ℕ) (s : AList fun _ : K => V) :
    entrySum (fun k v => g k v + g' k v) s = entrySum g s + entrySum g' s := by
  simp [entrySum, List.sum_map_add]

theorem entrySum_congr {g' : K → V → ℕ}
    (h : ∀ k v, s.lookup k = some v → g k v = g' k v) : entrySum g s = entrySum g' s := by
  refine congrArg List.sum (List.map_congr_left fun e he => ?_)
  exact h e.1 e.2 (AList.mem_lookup_iff.2 he)

theorem entrySum_eq_zero (h : ∀ k v, s.lookup k = some v → g k v = 0) : entrySum g s = 0 := by
  rw [entrySum_congr g h]
  simp [entrySum]

end Sum

/-! ## The values of a map -/

section Values
variable {V : Type}

def valuesOf (s : AList fun _ : K => V) : Multiset V := ↑(s.entries.map fun e => e.2)

theorem valuesOf_insert (s : AList fun _ : K => V) (k : K) (v : V) :
    valuesOf (s.insert k v) = v ::ₘ valuesOf (s.erase k) := by
  simp [valuesOf, AList.insert, AList.erase]

theorem valuesOf_erase {s : AList fun _ : K => V} {k : K} {v : V} (h : s.lookup k = some v) :
    valuesOf s = v ::ₘ valuesOf (s.erase k) := by
  obtain ⟨l1, l2, hs, hr⟩ := exists_entries h
  unfold valuesOf
  rw [hs, hr, List.map_append, List.map_cons, List.map_append, Multiset.cons_coe]
  exact Multiset.coe_eq_coe.2 List.perm_middle

theorem valuesOf_erase_none {s : AList fun _ : K => V} {k : K} (h : s.lookup k = none) :
    valuesOf (s.erase k) = valuesOf s := by
  unfold valuesOf
  rw [show (s.erase k).entries = s.entries from
    List.kerase_of_notMem_keys (AList.lookup_eq_none.1 h)]

end Values
end FinPal
