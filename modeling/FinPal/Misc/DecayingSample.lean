import Mathlib.Order.Iterate
import Mathlib.Tactic.Common

/-!
# The decaying balance of a resource consumer

`DecayingSample` of `basics/DecayingSample.h`, on amounts that are not negative and a clock that does
not go back, with `ticks` ticks in a second.
-/

namespace FinPal

structure DecayingSample (Window ticks : ℕ) where
  value : ℕ
  when : ℕ

namespace DecayingSample
variable {Window ticks : ℕ}

def age (Window v : ℕ) : ℕ := v - (v + Window - 1) / Window

def decay (s : DecayingSample Window ticks) (now : ℕ) : DecayingSample Window ticks :=
  if now = s.when then s
  else
    -- `duration_cast` drops the fraction of a second, and `m_when` moves on by it all the same
    let elapsed := (now - s.when) / ticks
    { value := if s.value ≠ 0 then if elapsed > 4 * Window then 0 else (age Window)^[elapsed] s.value
        else s.value
      when := now }

inductive Call where
  | add (amount now : ℕ)
  | value (now : ℕ)

def Call.isAdd : Call → Bool
  | add .. => true
  | value _ => false

def call (s : DecayingSample Window ticks) : Call → DecayingSample Window ticks
  | .add amount now => { s.decay now with value := (s.decay now).value + amount }
  | .value now => s.decay now

/-- What `value (now)` returns after the calls. -/
def valueAfter (s : DecayingSample Window ticks) (calls : List Call) (now : ℕ) : ℕ :=
  ((calls.foldl call s).decay now).value / Window

variable {s s' : DecayingSample Window ticks} {now k : ℕ} {calls : List Call}

/-! ## Reads between the calls that add -/

/-- Within the span that does not reset it, the sample ages once for each whole second. -/
theorem decay_eq (h : (now - s.when) / ticks ≤ 4 * Window) :
    s.decay now = ⟨(age Window)^[(now - s.when) / ticks] s.value, now⟩ := by
  unfold decay
  split
  · next heq => rw [heq, Nat.sub_self, Nat.zero_div, Function.iterate_zero_apply]
  dsimp only
  split
  · rw [if_neg (by omega)]
  · next h0 => rw [not_not.1 h0, Function.iterate_fixed (Nat.zero_sub _ : age Window 0 = 0)]

/-- From the sample of time `last` to the next call that adds, or to the end `t`, no reset is due,
and the whole seconds the calls count (`counted` up to `now`) are all of its whole seconds. -/
def Counted (Window ticks t : ℕ) : ℕ → ℕ → ℕ → List Call → Prop
  | last, now, counted, [] =>
    (t - last) / ticks ≤ 4 * Window ∧ counted + (t - now) / ticks = (t - last) / ticks
  | last, now, counted, .add _ t' :: calls =>
    ((t' - last) / ticks ≤ 4 * Window ∧ counted + (t' - now) / ticks = (t' - last) / ticks) ∧
      Counted Window ticks t t' t' 0 calls
  | last, now, counted, .value t' :: calls =>
    Counted Window ticks t last t' (counted + (t' - now) / ticks) calls

theorem Counted.le {t last : ℕ} (h : Counted Window ticks t last now k calls) :
    k ≤ 4 * Window := by
  induction calls generalizing now k with
  | nil => exact (Nat.le_add_right ..).trans (h.2.trans_le h.1)
  | cons c calls ih =>
    cases c with
    | add v t' => exact (Nat.le_add_right ..).trans (h.1.2.trans_le h.1.1)
    | value t' => exact (Nat.le_add_right ..).trans (ih h)

theorem decay_eq_decay (hle : (now - s'.when) / ticks ≤ 4 * Window)
    (hs : k + (now - s.when) / ticks = (now - s'.when) / ticks)
    (hv : s.value = (age Window)^[k] s'.value) : s.decay now = s'.decay now := by
  rw [decay_eq hle, decay_eq (by omega), hv, ← Function.iterate_add_apply, Nat.add_comm, hs]

theorem valueAfter_filter (h : Counted Window ticks now s'.when s.when k calls)
    (hv : s.value = (age Window)^[k] s'.value) :
    s.valueAfter calls now = s'.valueAfter (calls.filter Call.isAdd) now := by
  induction calls generalizing s s' k with
  | nil => exact congrArg (·.value / Window) (decay_eq_decay h.1 h.2 hv)
  | cons c calls ih =>
    cases c with
    | add v t' =>
      rw [List.filter_cons_of_pos rfl, valueAfter, valueAfter, List.foldl_cons, List.foldl_cons, call,
        call, decay_eq_decay h.1.1 h.1.2 hv, decay_eq h.1.1]
      exact ih (k := 0) h.2 rfl
    | value t' =>
      rw [List.filter_cons_of_neg (by simp [Call.isAdd]), valueAfter, List.foldl_cons, call,
        decay_eq ((Nat.le_add_left ..).trans (Counted.le h))]
      refine ih h ?_
      rw [hv, ← Function.iterate_add_apply, Nat.add_comm]

/-! ## Larger amounts -/

theorem age_mono (hW : 1 ≤ Window) : Monotone (age Window) := by
  refine monotone_nat_of_le_succ fun v => ?_
  have h1 : (v + 1 + Window - 1) / Window = v / Window + 1 := by
    rw [Nat.add_right_comm, Nat.add_sub_cancel, Nat.add_div_right v hW]
  have h2 : v / Window ≤ (v + Window - 1) / Window := Nat.div_le_div_right (by omega)
  unfold age
  omega

/-- The same call, with an amount that is not smaller. -/
inductive Call.Le : Call → Call → Prop
  | add {v v' : ℕ} (t : ℕ) : v ≤ v' → Le (.add v t) (.add v' t)
  | value (t : ℕ) : Le (.value t) (.value t)

theorem decay_mono (hW : 1 ≤ Window) (h : s.value ≤ s'.value ∧ s.when = s'.when) (now : ℕ) :
    (s.decay now).value ≤ (s'.decay now).value ∧ (s.decay now).when = (s'.decay now).when := by
  by_cases hle : (now - s'.when) / ticks ≤ 4 * Window
  · rw [decay_eq hle, decay_eq (by rwa [h.2]), h.2]
    exact ⟨(age_mono hW).iterate _ h.1, rfl⟩
  have hne : now ≠ s'.when := fun heq => hle (by simp [heq])
  simp only [decay, h.2, if_neg hne, if_pos (not_le.1 hle), and_true]
  split <;> split <;> omega

theorem valueAfter_mono (hW : 1 ≤ Window) {calls' : List Call} (hc : calls.Forall₂ Call.Le calls')
    (h : s.value ≤ s'.value ∧ s.when = s'.when) : s.valueAfter calls now ≤ s'.valueAfter calls' now := by
  induction hc generalizing s s' with
  | nil => exact Nat.div_le_div_right (decay_mono hW h now).1
  | cons hc _ ih =>
    cases hc with
    | add t hle => exact ih ((decay_mono hW h t).imp_left (Nat.add_le_add · hle))
    | value t => exact ih (decay_mono hW h t)

/-- Reads do nothing as long as they lose no whole second, and in any case the balance is monotone in
the amounts. -/
theorem balance_reads (hW : 1 ≤ Window) (s : DecayingSample Window ticks) (calls : List Call)
    (now : ℕ) : (Counted Window ticks now s.when s.when 0 calls →
      s.valueAfter calls now = s.valueAfter (calls.filter Call.isAdd) now) ∧
    ∀ {calls'}, calls.Forall₂ Call.Le calls' → s.valueAfter calls now ≤ s.valueAfter calls' now :=
  ⟨fun h => valueAfter_filter h rfl, fun h => valueAfter_mono hW h ⟨le_rfl, rfl⟩⟩

theorem balance_reads_two : valueAfter (⟨10, 0⟩ : DecayingSample 2 10) [.value 3] 19 =
    valueAfter (⟨10, 0⟩ : DecayingSample 2 10) [] 19 :=
  (balance_reads (by decide) ⟨10, 0⟩ [.value 3] 19).1 ⟨by decide, by decide⟩

/-- A read after half a second, and the balance does not decay in the second. -/
theorem read_delays_decay : valueAfter (⟨0, 0⟩ : DecayingSample 2 10) [.add 10 0] 10 = 2 ∧
    valueAfter (⟨0, 0⟩ : DecayingSample 2 10) [.add 10 0, .value 5] 10 = 5 := by
  decide

end DecayingSample
end FinPal
