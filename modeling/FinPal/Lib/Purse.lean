import Mathlib.Algebra.Order.Group.Defs
import Mathlib.Algebra.Order.Group.PosPart
import Mathlib.Tactic.Abel

/-!
# Purses

A purse is filled by its owner and paid out to one payee. `amount` is all that was put in and
`balance` all that was paid; the rest goes back to the owner when the purse is closed. A `Flow` is
what one step moved. What is put in is held, paid or refunded (`Step.held_add`).
-/

namespace FinPal

structure Purse (A : Type) [AddCommGroup A] [LinearOrder A] where
  amount : A
  balance : A
  nonneg : 0 ≤ balance
  le : balance ≤ amount

/-- What the owner put in, what the payee got and what the owner got back. -/
@[ext] structure Flow (A : Type) where
  deposited : A
  paid : A
  refunded : A

namespace Flow
variable {A : Type} [AddCommGroup A]

instance : Zero (Flow A) := ⟨⟨0, 0, 0⟩⟩

instance : Add (Flow A) :=
  ⟨fun f g => ⟨f.deposited + g.deposited, f.paid + g.paid, f.refunded + g.refunded⟩⟩

@[simp] theorem deposited_zero : (0 : Flow A).deposited = 0 := rfl
@[simp] theorem paid_zero : (0 : Flow A).paid = 0 := rfl
@[simp] theorem refunded_zero : (0 : Flow A).refunded = 0 := rfl
@[simp] theorem deposited_add (f g : Flow A) : (f + g).deposited = f.deposited + g.deposited := rfl
@[simp] theorem paid_add (f g : Flow A) : (f + g).paid = f.paid + g.paid := rfl
@[simp] theorem refunded_add (f g : Flow A) : (f + g).refunded = f.refunded + g.refunded := rfl

/-- The flow seen on the accounts of the owner and the payee. -/
def ofChange [LinearOrder A] (owner payee : A) : Flow A := ⟨owner⁻, payee, owner⁺⟩

end Flow

namespace Purse
variable {A : Type} [AddCommGroup A] [LinearOrder A]

def held (p : Purse A) : A := p.amount - p.balance

/-- What is held where there may be no purse. -/
def heldIn : Option (Purse A) → A
  | none => 0
  | some p => p.held

/-- A purse is opened, filled, paid from, or paid from and closed. -/
inductive Step : Option (Purse A) → Option (Purse A) → Flow A → Prop where
  | opened (p : Purse A) : p.balance = 0 → Step none (some p) ⟨p.amount, 0, 0⟩
  | filled (p q : Purse A) : q.balance = p.balance → p.amount ≤ q.amount →
      Step (some p) (some q) ⟨q.amount - p.amount, 0, 0⟩
  | paid (p q : Purse A) : q.amount = p.amount → p.balance ≤ q.balance →
      Step (some p) (some q) ⟨0, q.balance - p.balance, 0⟩
  | closed (p q : Purse A) : q.amount = p.amount → p.balance ≤ q.balance →
      Step (some p) none ⟨0, q.balance - p.balance, q.held⟩

variable {p q : Option (Purse A)} {f : Flow A}

theorem Step.held_add (h : Step p q f) :
    heldIn p + f.deposited = heldIn q + f.paid + f.refunded := by
  cases h with
  | opened p hb => simp [heldIn, held, hb]
  | filled p q hb _ =>
    simp only [heldIn, held, hb]
    abel
  | paid p q ha _ =>
    simp only [heldIn, held, ha]
    abel
  | closed p q ha _ =>
    simp only [heldIn, held, ha]
    abel

theorem Step.balance_mono {p q : Purse A} (h : Step (some p) (some q) f) :
    p.balance ≤ q.balance := by
  cases h with
  | filled _ _ hb _ => exact hb.ge
  | paid _ _ _ hb => exact hb

theorem Step.refunded_eq_zero {q : Purse A} (h : Step p (some q) f) : f.refunded = 0 := by
  cases h <;> rfl

variable [IsOrderedAddMonoid A]

theorem Step.deposited_nonneg (h : Step p q f) : 0 ≤ f.deposited := by
  cases h with
  | opened p _ => exact p.nonneg.trans p.le
  | filled _ _ _ ha => exact sub_nonneg.2 ha
  | paid => exact le_rfl
  | closed => exact le_rfl

/-- No step both fills and refunds, so the owner's account shows which it was. -/
theorem Step.ofChange (h : Step p q f) : Flow.ofChange (f.refunded - f.deposited) f.paid = f := by
  have hd := h.deposited_nonneg
  have hf {d : A} (hd : 0 ≤ d) : Flow.ofChange (0 - d) 0 = ⟨d, 0, 0⟩ := by
    rw [zero_sub, Flow.ofChange, negPart_eq_neg.2 (neg_nonpos.2 hd), neg_neg,
      posPart_eq_zero.2 (neg_nonpos.2 hd)]
  have ht {r : A} (x : A) (hr : 0 ≤ r) : Flow.ofChange (r - 0) x = ⟨0, x, r⟩ := by
    rw [sub_zero, Flow.ofChange, negPart_eq_zero.2 hr, posPart_eq_self.2 hr]
  cases h with
  | opened | filled => exact hf hd
  | paid => exact ht _ le_rfl
  | closed _ q => exact ht _ (sub_nonneg.2 q.le)

end Purse
end FinPal
