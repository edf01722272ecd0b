import FinPal.Lib.Overlay
import FinPal.Protocol.LedgerFormats

/-!
# Views of the ledger

`ViewM` is the monad of the changes that a transactor makes to a view, and `State` what a view
shows: an entry under each key. The pointers that `peek` hands out alias the view's own copy, so a
write is a function of the entry the view then holds (`update k f`).
-/

namespace FinPal
open Store

/-- The null pointer a failed `peek` leaves is used, or `LogicError` stops an insertion at an
occupied key. -/
instance : StoreError Fault where
  absent := .nullPointer
  occupied := .logicError

abbrev State := Digest → Option Entry

abbrev ViewM := Prog Digest Entry Fault

variable {α β γ : Type}

/-! ## States -/

namespace State

/-- The entry of the wanted type under a key, as `ReadView::read` has it. -/
def get [IsEntry α] (σ : State) (k : Keylet α) : Option α := (σ k.key).bind ofEntry

def set [IsEntry α] (σ : State) (k : Keylet α) (a : α) : State :=
  Function.update σ k.key (some (toEntry a))

def del (σ : State) (k : Keylet α) : State := Function.update σ k.key none

variable [IsEntry α] [IsEntry β] {σ : State}

variable {k : Keylet α} {a : AccountRoot} {k' : Keylet β} {o : AccountID}

theorem get_eq_some {a : α} : σ.get k = some a ↔ σ k.key = some (toEntry a) := by
  simp [get, Option.bind_eq_some_iff, ofEntry_eq_some]

theorem get_of_none (h : σ k.key = none) : σ.get k = none := by simp [get, h]

@[simp] theorem get_set_self (σ : State) (k : Keylet α) (a : α) : (σ.set k a).get k = some a := by
  simp [get, set]

theorem set_self {a : α} (h : σ.get k = some a) : σ.set k a = σ := by
  rw [set, ← get_eq_some.1 h, Function.update_eq_self]

theorem get_set_ne (h : k'.key ≠ k.key) (a : α) : (σ.set k a).get k' = σ.get k' := by
  simp [get, set, h]

theorem get_set (σ : State) (k k' : Keylet α) (a : α) :
    (σ.set k a).get k' = if k'.key = k.key then some a else σ.get k' := by
  split
  · next h => simp [get, set, h]
  · next h => exact get_set_ne h a

@[simp] theorem get_del_self (σ : State) (k : Keylet α) : (σ.del k).get k = none := by
  simp [get, del]

omit [IsEntry α] in
theorem get_del_ne (h : k'.key ≠ k.key) : (σ.del k).get k' = σ.get k' := by
  simp [get, del, h]

theorem get_del (σ : State) (k k' : Keylet α) :
    (σ.del k).get k' = if k'.key = k.key then none else σ.get k' := by
  split
  · next h => simp [get, del, h]
  · next h => exact get_del_ne h

theorem get_update_of_none {d : Digest} {e : Option Entry} (k : Keylet α)
    (h0 : ((σ d).bind ofEntry : Option α) = none) (h : (e.bind ofEntry : Option α) = none) :
    get (Function.update σ d e) k = σ.get k := by
  by_cases hk : k.key = d
  · subst hk
    simp [get, h0, h]
  · simp [get, hk]

theorem key_ne {x : α} {y : β} (hx : σ.get k = some x) (hy : σ.get k' = some y)
    (h : (ofEntry (toEntry x) : Option β) = none) : k.key ≠ k'.key := by
  intro hk
  rw [get, ← hk, get_eq_some.1 hx, Option.bind_some, h] at hy
  cases hy

def balance (σ : State) (o : AccountID) : Int :=
  ((σ.get (keylet.account o)).map AccountRoot.balance).getD 0

/-- The number of entries an account pays a reserve for. -/
def ownerCount (σ : State) (o : AccountID) : UInt32 :=
  ((σ.get (keylet.account o)).map AccountRoot.ownerCount).getD 0

theorem balance_eq (h : σ.get (keylet.account o) = some a) : σ.balance o = a.balance := by
  simp [balance, h]

section
variable (σ : State) (o o' : AccountID) (a : AccountRoot)

theorem get_set_account :
    (σ.set (keylet.account o) a).get (keylet.account o') =
      if o' = o then some a else σ.get (keylet.account o') := by
  simp [get_set, keylet.account]

theorem balance_set :
    (σ.set (keylet.account o) a).balance o' = if o' = o then a.balance else σ.balance o' := by
  unfold balance
  rw [get_set_account]
  split <;> rfl

theorem ownerCount_set :
    (σ.set (keylet.account o) a).ownerCount o' =
      if o' = o then a.ownerCount else σ.ownerCount o' := by
  unfold ownerCount
  rw [get_set_account]
  split <;> rfl

end

theorem balance_add {a' : AccountRoot} {d : Int} (ha : σ.get (keylet.account o) = some a)
    (hb : a'.balance = a.balance + d) (o' : AccountID) :
    (σ.set (keylet.account o) a').balance o' = σ.balance o' + if o' = o then d else 0 := by
  rw [balance_set]
  split
  · next h => rw [h, hb, balance_eq ha]
  · rw [add_zero]

theorem ownerCount_sub {a' : AccountRoot} {n : UInt32} (ha : σ.get (keylet.account o) = some a)
    (hn : a'.ownerCount = a.ownerCount - n) (o' : AccountID) :
    (σ.set (keylet.account o) a').ownerCount o' = σ.ownerCount o' - if o' = o then n else 0 := by
  rw [ownerCount_set]
  split
  · next h => rw [h, hn, ownerCount, ha]; rfl
  · rw [UInt32.sub_zero]

@[simp] theorem balance_set_self (σ : State) (o : AccountID) (a : AccountRoot) :
    (σ.set (keylet.account o) a).balance o = a.balance := by
  simp [balance_set]

end State

/-! ## View operations -/

namespace ViewM

def throw (e : Fault) : ViewM α := .fail e

def ofExcept : Except Fault α → ViewM α
  | .ok a => pure a
  | .error e => throw e

/-- `ApplyView::peek`, and `ReadView::read` on the same view. -/
def peek [IsEntry α] (k : Keylet α) : ViewM (Option α) :=
  Prog.peek k.key fun o => .ret (o.bind ofEntry)

/-- `peek` where the source uses the pointer without a test. -/
def peek! [IsEntry α] (k : Keylet α) : ViewM α := do
  match ← peek k with
  | some a => pure a
  | none => throw .nullPointer

/-- The field changes `f` through a peeked pointer, followed by `ApplyView::update`. -/
def update [IsEntry α] (k : Keylet α) (f : α → α) : ViewM Unit := do
  let a ← peek! k
  Prog.modify k.key (fun _ => toEntry (f a)) (.ret ())

def insert [IsEntry α] (k : Keylet α) (a : α) : ViewM Unit :=
  Prog.insert k.key (toEntry a) (.ret ())

/-- `ApplyView::erase` of a peeked pointer. -/
def erase [IsEntry α] (k : Keylet α) : ViewM Unit := do
  let _ ← peek! k
  Prog.erase k.key (.ret ())

section
variable [IsEntry α] {σ σ' : State} {k : Keylet α} {a : α}

theorem exec_throw {e : Fault} {b : β} : exec (throw e : ViewM β) σ = .ok (b, σ') ↔ False :=
  exec_fail_ok

theorem exec_ofExcept {x : Except Fault β} {b : β} :
    exec (ofExcept x) σ = .ok (b, σ') ↔ x = .ok b ∧ σ = σ' := by
  cases x with
  | error e => simp [ofExcept, throw, exec]
  | ok c => simp [ofExcept, exec_pure]

theorem exec_peek {o : Option α} : exec (peek k) σ = .ok (o, σ') ↔ σ.get k = o ∧ σ = σ' := by
  simp [peek, exec, State.get]

theorem exec_peek_bind {g : Option α → ViewM β} :
    exec (peek k >>= g) σ = exec (g (σ.get k)) σ := rfl

theorem exec_peek! : exec (peek! k) σ = .ok (a, σ') ↔ σ.get k = some a ∧ σ = σ' := by
  simp only [peek!, exec_bind, exec_peek]
  constructor
  · rintro ⟨o, σ1, ⟨rfl, rfl⟩, h⟩
    split at h
    · next e =>
      obtain ⟨rfl, rfl⟩ := exec_pure.1 h
      exact ⟨e, rfl⟩
    · exact (exec_throw.1 h).elim
  · rintro ⟨h, rfl⟩
    exact ⟨_, σ, ⟨rfl, rfl⟩, by rw [h]; exact exec_pure.2 ⟨rfl, rfl⟩⟩

variable {g : Unit → ViewM β} {f : α → α} {u : Unit}

theorem exec_peek!_write {p : α → ViewM Unit} {w : α → State}
    (hp : ∀ a, σ k.key = some (toEntry a) → exec (p a) σ = .ok ((), w a)) :
    exec (peek! k >>= p) σ = .ok (u, σ') ↔ ∃ a, σ.get k = some a ∧ w a = σ' := by
  simp only [exec_bind, exec_peek!]
  constructor
  · rintro ⟨a, _, ⟨ha, rfl⟩, h⟩
    rw [hp a (State.get_eq_some.1 ha)] at h
    exact ⟨a, ha, (Prod.mk.inj (Except.ok.inj h)).2⟩
  · rintro ⟨a, ha, rfl⟩
    exact ⟨a, σ, ⟨ha, rfl⟩, hp a (State.get_eq_some.1 ha)⟩

theorem exec_update :
    exec (update k f) σ = .ok (u, σ') ↔ ∃ a, σ.get k = some a ∧ σ.set k (f a) = σ' :=
  exec_peek!_write fun a ha => by simp only [exec, ha]; rfl

theorem exec_insert : exec (insert k a) σ = .ok (u, σ') ↔ σ k.key = none ∧ σ.set k a = σ' := by
  cases h : σ k.key <;> simp [insert, exec, h, State.set]

theorem exec_peek!_bind {g : α → ViewM β} (h : σ.get k = some a) :
    exec (peek! k >>= g) σ = exec (g a) σ :=
  exec_bind_of_ok (exec_peek!.2 ⟨h, rfl⟩)

theorem exec_update_bind (h : σ.get k = some a) :
    exec (update k f >>= g) σ = exec (g ()) (σ.set k (f a)) :=
  exec_bind_of_ok (exec_update.2 ⟨a, h, rfl⟩)

theorem exec_insert_bind (h : σ k.key = none) :
    exec (insert k a >>= g) σ = exec (g ()) (σ.set k a) :=
  exec_bind_of_ok (exec_insert.2 ⟨h, rfl⟩)

theorem exec_erase : exec (erase k) σ = .ok (u, σ') ↔ ∃ a, σ.get k = some a ∧ σ.del k = σ' :=
  exec_peek!_write fun a ha => by simp only [exec, ha]; rfl

theorem exec_erase_bind (h : σ.get k = some a) : exec (erase k >>= g) σ = exec (g ()) (σ.del k) :=
  exec_bind_of_ok (exec_erase.2 ⟨a, h, rfl⟩)

/-! The first step of a program that ends. -/

variable {b : β}

theorem exec_ofExcept_ok {x : Except Fault γ} {g : γ → ViewM β}
    (h : exec (ofExcept x >>= g) σ = .ok (b, σ')) :
    ∃ c, x = .ok c ∧ exec (g c) σ = .ok (b, σ') := by
  obtain ⟨c, _, h1, h⟩ := exec_bind.1 h
  obtain ⟨hc, rfl⟩ := exec_ofExcept.1 h1
  exact ⟨c, hc, h⟩

theorem exec_peek_ok {g : Option α → ViewM β} (h : exec (peek k >>= g) σ = .ok (b, σ')) :
    ∃ o, σ.get k = o ∧ exec (g o) σ = .ok (b, σ') :=
  ⟨_, rfl, h⟩

theorem exec_peek!_ok {g : α → ViewM β} (h : exec (peek! k >>= g) σ = .ok (b, σ')) :
    ∃ a, σ.get k = some a ∧ exec (g a) σ = .ok (b, σ') := by
  obtain ⟨a, _, h1, h⟩ := exec_bind.1 h
  obtain ⟨ha, rfl⟩ := exec_peek!.1 h1
  exact ⟨a, ha, h⟩

theorem exec_update_ok (h : exec (update k f >>= g) σ = .ok (b, σ')) :
    ∃ a, σ.get k = some a ∧ exec (g ()) (σ.set k (f a)) = .ok (b, σ') := by
  obtain ⟨_, _, h1, h⟩ := exec_bind.1 h
  obtain ⟨a, ha, rfl⟩ := exec_update.1 h1
  exact ⟨a, ha, h⟩

theorem exec_insert_ok (h : exec (insert k a >>= g) σ = .ok (b, σ')) :
    σ k.key = none ∧ exec (g ()) (σ.set k a) = .ok (b, σ') := by
  obtain ⟨_, _, h1, h⟩ := exec_bind.1 h
  obtain ⟨hk, rfl⟩ := exec_insert.1 h1
  exact ⟨hk, h⟩

theorem exec_success_ok {Code : Type} [DecidableEq Code] {ter ok : Code} {p : ViewM Code}
    (h : exec (if ter ≠ ok then pure ter else p) σ = .ok (ok, σ')) :
    ter = ok ∧ exec p σ = .ok (ok, σ') := by
  split at h
  · next hne => exact absurd (exec_pure.1 h).1 hne
  · next ht => exact ⟨not_not.1 ht, h⟩

section
variable {Code : Type} {e ok : Code} {g : Option α → ViewM Code}
  (h : exec (peek k >>= g) σ = .ok (ok, σ'))

include h

theorem exec_require (hg : g none = pure e := by rfl)
    (he : e ≠ ok := by decide) : ∃ x, σ.get k = some x ∧ exec (g (some x)) σ = .ok (ok, σ') := by
  obtain ⟨x, hx, h⟩ := exec_peek_ok h
  cases x with
  | none =>
    rw [hg] at h
    exact absurd (exec_pure.1 h).1 he
  | some x => exact ⟨x, hx, h⟩

theorem exec_absent (hg : ∀ x, g (some x) = pure e := by exact fun _ => rfl)
    (he : e ≠ ok := by decide) : σ.get k = none ∧ exec (g none) σ = .ok (ok, σ') := by
  obtain ⟨x, hx, h⟩ := exec_peek_ok h
  cases x with
  | none => exact ⟨hx, h⟩
  | some x =>
    rw [hg] at h
    exact absurd (exec_pure.1 h).1 he

end

theorem exec_guard {Code : Type} {e ok : Code} {c : Prop} [Decidable c] {p : ViewM Code}
    (h : exec (if c then pure e else p) σ = .ok (ok, σ')) (he : e ≠ ok := by decide) :
    ¬c ∧ exec p σ = .ok (ok, σ') := by
  split at h
  · exact absurd (exec_pure.1 h).1 he
  · next hc => exact ⟨hc, h⟩

theorem exec_erase_ok (h : exec (erase k >>= g) σ = .ok (b, σ')) :
    ∃ a, σ.get k = some a ∧ exec (g ()) (σ.del k) = .ok (b, σ') := by
  obtain ⟨_, _, h1, h⟩ := exec_bind.1 h
  obtain ⟨a, ha, rfl⟩ := exec_erase.1 h1
  exact ⟨a, ha, h⟩

theorem exec_erase_last {c : β} (h : exec (erase k >>= fun _ => pure c) σ = .ok (b, σ')) :
    σ.del k = σ' := by
  obtain ⟨_, -, h⟩ := exec_erase_ok h
  exact (exec_pure.1 h).2

end

/-! ## What an operation may change -/

section
variable [IsEntry α] {P : Digest → Prop} {k : Keylet α}

theorem within_peek : Within P (peek k) := fun _ => trivial

theorem within_peek! : Within P (peek! k) := within_peek.bind fun o => by cases o <;> trivial

theorem within_update {f : α → α} (h : P k.key) : Within P (update k f) :=
  within_peek!.bind fun _ => ⟨h, trivial⟩

theorem within_insert {a : α} (h : P k.key) : Within P (insert k a) := ⟨h, trivial⟩

theorem within_erase (h : P k.key) : Within P (erase k) := within_peek!.bind fun _ => ⟨h, trivial⟩

end

/-! ## Relations that operations keep -/

section
variable {Q : State → State → Prop}

/-- The relation is one of runs. -/
structure IsRun (Q : State → State → Prop) : Prop where
  refl : ∀ σ, Q σ σ
  trans : ∀ ⦃σ₁ σ₂ σ₃⦄, Q σ₁ σ₂ → Q σ₂ σ₃ → Q σ₁ σ₃

/-- The relation holds of every change and deletion of an entry of type `α`. -/
structure PermitsChange (Q : State → State → Prop) (α : Type) [IsEntry α] : Prop where
  set : ∀ {σ : State} {k : Keylet α} {x : α} (y : α), σ.get k = some x → Q σ (σ.set k y)
  del : ∀ {σ : State} {k : Keylet α} {x : α}, σ.get k = some x → Q σ (σ.del k)

/-- The relation holds of every write of an entry of type `α`. -/
structure Permits (Q : State → State → Prop) (α : Type) [IsEntry α] : Prop
    extends PermitsChange Q α where
  insert : ∀ {σ : State} {k : Keylet α} (y : α), σ k.key = none → Q σ (σ.set k y)

theorem IsRun.pure (hQ : IsRun Q) (b : β) : Ensures Q (pure b : ViewM β) := .pure hQ.refl b

theorem IsRun.bind (hQ : IsRun Q) {p : ViewM β} {g : β → ViewM γ} (hp : Ensures Q p)
    (hg : ∀ b, Ensures Q (g b)) : Ensures Q (p >>= g) :=
  Ensures.bind hQ.trans hp hg

variable [IsEntry α] {k : Keylet α}

theorem IsRun.peek (hQ : IsRun Q) : Ensures Q (peek k) := fun σ _ _ h => by
  obtain ⟨-, rfl⟩ := exec_peek.1 h
  exact hQ.refl σ

theorem IsRun.peek! (hQ : IsRun Q) : Ensures Q (peek! k) := fun σ _ _ h => by
  obtain ⟨-, rfl⟩ := exec_peek!.1 h
  exact hQ.refl σ

theorem PermitsChange.update (hQ : PermitsChange Q α) {f : α → α} : Ensures Q (update k f) := fun _ _ _ h => by
  obtain ⟨a, ha, rfl⟩ := exec_update.1 h
  exact hQ.set _ ha

theorem Permits.inserted (hQ : Permits Q α) {a : α} : Ensures Q (ViewM.insert k a) :=
  fun _ _ _ h => by
    obtain ⟨ha, rfl⟩ := exec_insert.1 h
    exact hQ.insert _ ha

theorem PermitsChange.erase (hQ : PermitsChange Q α) : Ensures Q (erase k) := fun _ _ _ h => by
  obtain ⟨a, ha, rfl⟩ := exec_erase.1 h
  exact hQ.del ha

def Keeps (β : Type) [IsEntry β] (σ σ' : State) : Prop := ∀ k : Keylet β, σ'.get k = σ.get k

theorem Keeps.balance {σ σ' : State} (h : Keeps AccountRoot σ σ') (o : AccountID) :
    σ'.balance o = σ.balance o := by
  unfold State.balance
  rw [h]

theorem Keeps.ownerCount {σ σ' : State} (h : Keeps AccountRoot σ σ') (o : AccountID) :
    σ'.ownerCount o = σ.ownerCount o := by
  unfold State.ownerCount
  rw [h]

theorem Keeps.isRun [IsEntry β] : IsRun (Keeps β) where
  refl _ _ := rfl
  trans _ _ _ h1 h2 k := (h2 k).trans (h1 k)

theorem Keeps.permits [IsEntry β] (hα : ∀ x : α, (ofEntry (toEntry x) : Option β) = none) :
    Permits (Keeps β) α where
  set {σ k x} y hx k' :=
    State.get_update_of_none k' (by rw [State.get_eq_some.1 hx]; exact hα x) (hα y)
  insert {σ k} y hk k' := State.get_update_of_none k' (by rw [hk]; rfl) (hα y)
  del {σ k x} hx k' := State.get_update_of_none k' (by rw [State.get_eq_some.1 hx]; exact hα x) rfl

end
end ViewM
end FinPal
