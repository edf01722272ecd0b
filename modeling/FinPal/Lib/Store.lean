import Mathlib.Tactic.Common

/-!
# Programs over a keyed store

A program over a store `K → Option V` is a tree of requests, to be run against different stores, and
may stop with an error; `exec` runs it against a plain map. Changing or erasing an absent key, and
inserting at a present one, are errors of the store itself.
-/

namespace FinPal.Store

theorem bind_ok {E α β : Type} {x : Except E α} {f : α → Except E β} {b : β} :
    x >>= f = .ok b ↔ ∃ a, x = .ok a ∧ f a = .ok b := by
  cases x with
  | error e => simp [Bind.bind, Except.bind]
  | ok a => simp [Bind.bind, Except.bind]

theorem foldlM_induct {E α σ : Type} {f : σ → α → Except E σ} {I : σ → Prop} {l : List α} {s s' : σ}
    (hst : ∀ a ∈ l, ∀ ⦃s s'⦄, I s → f s a = .ok s' → I s') (hs : I s)
    (h : l.foldlM f s = .ok s') : I s' := by
  induction l generalizing s with
  | nil =>
    cases h
    exact hs
  | cons a l ih =>
    obtain ⟨_, h1, h⟩ := bind_ok.1 h
    exact ih (fun b hb => hst b (.tail _ hb)) (hst a (.head _) hs h1) h

/-- The two errors a store raises by itself. -/
class StoreError (E : Type) where
  absent : E
  occupied : E

inductive Prog (K V E : Type) (α : Type) where
  | ret (a : α)
  | fail (e : E)
  | peek (k : K) (next : Option V → Prog K V E α)
  | modify (k : K) (f : V → V) (next : Prog K V E α)
  | insert (k : K) (v : V) (next : Prog K V E α)
  | erase (k : K) (next : Prog K V E α)

namespace Prog
variable {K V E α β : Type}

def bind : Prog K V E α → (α → Prog K V E β) → Prog K V E β
  | ret a, g => g a
  | fail e, _ => fail e
  | peek k next, g => peek k fun v => (next v).bind g
  | modify k f next, g => modify k f (next.bind g)
  | insert k v next, g => insert k v (next.bind g)
  | erase k next, g => erase k (next.bind g)

instance : Monad (Prog K V E) where
  pure := ret
  bind := bind

theorem pure_def (a : α) : (pure a : Prog K V E α) = ret a := rfl
theorem bind_def (p : Prog K V E α) (g : α → Prog K V E β) : p >>= g = p.bind g := rfl

theorem bind_ret (p : Prog K V E α) : p.bind ret = p := by
  induction p with
  | ret | fail => rfl
  | peek k next ih => simp [bind, ih]
  | modify k f next ih | insert k v next ih | _ k next ih => simp [bind, ih]

theorem bind_bind {γ : Type} (p : Prog K V E α) (g : α → Prog K V E β) (h : β → Prog K V E γ) :
    (p.bind g).bind h = p.bind fun a => (g a).bind h := by
  induction p with
  | ret | fail => rfl
  | peek k next ih => simp [bind, ih]
  | modify k f next ih | insert k v next ih | _ k next ih => simp [bind, ih]

instance : LawfulMonad (Prog K V E) := LawfulMonad.mk' _ bind_ret (fun _ _ => rfl) bind_bind

end Prog

section Exec
variable {K V E α β : Type} [DecidableEq K] [StoreError E]

def exec : Prog K V E α → (K → Option V) → Except E (α × (K → Option V))
  | .ret a, σ => .ok (a, σ)
  | .fail e, _ => .error e
  | .peek k next, σ => exec (next (σ k)) σ
  | .modify k f next, σ =>
    match σ k with
    | none => .error StoreError.absent
    | some v => exec next (Function.update σ k (some (f v)))
  | .insert k v next, σ =>
    match σ k with
    | none => exec next (Function.update σ k (some v))
    | some _ => .error StoreError.occupied
  | .erase k next, σ =>
    match σ k with
    | none => .error StoreError.absent
    | some _ => exec next (Function.update σ k none)

theorem exec_bind_eq (p : Prog K V E α) (g : α → Prog K V E β) (σ : K → Option V) :
    exec (p >>= g) σ = exec p σ >>= fun r => exec (g r.1) r.2 := by
  simp only [Prog.bind_def]
  induction p generalizing σ with
  | ret | fail => rfl
  | peek k next ih => exact ih _ σ
  | modify k f next ih | erase k next ih =>
    simp only [Prog.bind, exec]
    split
    · rfl
    · exact ih _
  | insert k v next ih =>
    simp only [Prog.bind, exec]
    split
    · exact ih _
    · rfl

/-! ## What a finished run did -/

variable {σ σ' : K → Option V} {a : α} {b : β}

variable {p : Prog K V E α}

theorem exec_bind {g : α → Prog K V E β} : exec (p >>= g) σ = .ok (b, σ') ↔
      ∃ a σ1, exec p σ = .ok (a, σ1) ∧ exec (g a) σ1 = .ok (b, σ') := by
  rw [exec_bind_eq, bind_ok, Prod.exists]

theorem exec_bind_of_ok {g : α → Prog K V E β} {σ1 : K → Option V}
    (h : exec p σ = .ok (a, σ1)) : exec (p >>= g) σ = exec (g a) σ1 := by
  rw [exec_bind_eq, h]
  rfl

theorem exec_pure {b : α} : exec (pure a : Prog K V E α) σ = .ok (b, σ') ↔ a = b ∧ σ = σ' := by
  simp [Prog.pure_def, exec]

theorem exec_last {b c : β} (h : exec (p >>= fun _ => pure c) σ = .ok (b, σ')) :
    ∃ a, exec p σ = .ok (a, σ') := by
  obtain ⟨a, _, h1, h⟩ := exec_bind.1 h
  obtain ⟨-, rfl⟩ := exec_pure.1 h
  exact ⟨a, h1⟩

theorem exec_fail_ok {e : E} : exec (.fail e : Prog K V E α) σ = .ok (a, σ') ↔ False := by
  simp [exec]

end Exec

/-! ## Frames -/

section Frame
variable {K V E α β : Type}

/-- The program changes no key outside `P`. -/
def Within (P : K → Prop) : Prog K V E α → Prop
  | .ret _ => True
  | .fail _ => True
  | .peek _ next => ∀ v, Within P (next v)
  | .modify k _ next => P k ∧ Within P next
  | .insert k _ next => P k ∧ Within P next
  | .erase k next => P k ∧ Within P next

variable {P : K → Prop}

theorem Within.pure (a : α) : Within P (pure a : Prog K V E α) := trivial

theorem Within.bind {p : Prog K V E α} {g : α → Prog K V E β} (hp : Within P p)
    (hg : ∀ a, Within P (g a)) : Within P (p >>= g) := by
  induction p with
  | ret a => exact hg a
  | fail => trivial
  | peek k next ih => exact fun v => ih v (hp v)
  | modify k f next ih | insert k v next ih | _ k next ih => exact ⟨hp.1, ih hp.2⟩

theorem Within.frame [DecidableEq K] [StoreError E] {p : Prog K V E α} {σ σ' : K → Option V} {a : α}
    (hp : Within P p) (h : exec p σ = .ok (a, σ')) {k : K} (hk : ¬P k) : σ' k = σ k := by
  have hne {k' : K} (h' : P k') : k ≠ k' := fun e => hk (e ▸ h')
  induction p generalizing σ with
  | ret b =>
    cases h
    rfl
  | fail => cases h
  | peek k' next ih => exact ih _ (hp _) h
  | modify k' f next ih | erase k' next ih =>
    simp only [exec] at h
    split at h
    · cases h
    · rw [ih hp.2 h, Function.update_of_ne (hne hp.1)]
  | insert k' v next ih =>
    simp only [exec] at h
    split at h
    · rw [ih hp.2 h, Function.update_of_ne (hne hp.1)]
    · cases h

end Frame

/-! ## Relations that every run keeps -/

section Ensures
variable {K V E α β : Type} [DecidableEq K] [StoreError E]

/-- Every finished run of the program relates the maps before and after. -/
def Ensures (Q : (K → Option V) → (K → Option V) → Prop) (p : Prog K V E α) : Prop :=
  ∀ ⦃σ a σ'⦄, exec p σ = .ok (a, σ') → Q σ σ'

variable {Q : (K → Option V) → (K → Option V) → Prop}

theorem Ensures.pure (hr : ∀ σ, Q σ σ) (a : α) : Ensures Q (pure a : Prog K V E α) := by
  intro σ b _ h
  obtain ⟨-, rfl⟩ := exec_pure.1 h
  exact hr σ

theorem Ensures.bind (htr : ∀ ⦃σ1 σ2 σ3⦄, Q σ1 σ2 → Q σ2 σ3 → Q σ1 σ3) {p : Prog K V E α}
    {g : α → Prog K V E β} (hp : Ensures Q p) (hg : ∀ a, Ensures Q (g a)) : Ensures Q (p >>= g) := by
  intro σ b _ h
  obtain ⟨a, σ1, h1, h2⟩ := exec_bind.1 h
  exact htr (hp h1) (hg a h2)

end Ensures
end FinPal.Store
