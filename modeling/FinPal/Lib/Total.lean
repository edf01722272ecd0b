import Mathlib.Algebra.BigOperators.Finprod
import Mathlib.Tactic.Abel

/-!
# Totals over a finite map

A map with finitely many keys is summed by a value of its entries. One write changes the total by
the difference of what is under the key after and before (`total_update`).
-/

namespace FinPal
variable {K V A : Type} [AddCommGroup A]

def FiniteKeys (σ : K → Option V) : Prop := {k | σ k ≠ none}.Finite

/-- The value under a key, zero where there is nothing. -/
def valueOf (f : V → A) (o : Option V) : A := o.elim 0 f

@[simp] theorem valueOf_none (f : V → A) : valueOf f none = 0 := rfl
@[simp] theorem valueOf_some (f : V → A) (v : V) : valueOf f (some v) = f v := rfl

noncomputable def total (f : V → A) (σ : K → Option V) : A := ∑ᶠ k, valueOf f (σ k)

variable [DecidableEq K] {f : V → A} {σ : K → Option V}

omit [AddCommGroup A] in
theorem FiniteKeys.update (h : FiniteKeys σ) (k : K) (o : Option V) :
    FiniteKeys (Function.update σ k o) := by
  refine (h.insert k).subset fun k' hk' => ?_
  by_cases he : k' = k
  · exact .inl he
  · exact .inr (by simpa [he] using hk')

omit [DecidableEq K] in
theorem total_eq_sum {s : Finset K} (hs : ∀ k, σ k ≠ none → k ∈ s) :
    total f σ = ∑ k ∈ s, valueOf f (σ k) := by
  refine finsum_eq_sum_of_support_subset _ fun k hk => hs k fun hn => hk ?_
  simp [hn]

theorem total_update (h : FiniteKeys σ) (k : K) (o : Option V) :
    total f (Function.update σ k o) = total f σ + valueOf f o - valueOf f (σ k) := by
  let s := insert k h.toFinset
  have hk : k ∈ s := Finset.mem_insert_self _ _
  have hs (k' : K) (hk' : σ k' ≠ none) : k' ∈ s := Finset.mem_insert_of_mem (h.mem_toFinset.2 hk')
  have hs' (k' : K) (hk' : Function.update σ k o k' ≠ none) : k' ∈ s := by
    by_cases he : k' = k
    · exact he ▸ hk
    · exact hs k' (by simpa [he] using hk')
  have hc : (fun k' => valueOf f (Function.update σ k o k')) =
      Function.update (fun k' => valueOf f (σ k')) k (valueOf f o) := by
    funext k'
    by_cases he : k' = k
    · subst he; simp
    · simp [he]
  rw [total_eq_sum hs, total_eq_sum hs', hc, Finset.sum_update_of_mem hk,
    Finset.sdiff_singleton_eq_erase, ← Finset.add_sum_erase s _ hk]
  abel

end FinPal
