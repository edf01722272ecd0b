import FinPal.Protocol.IOUAmount
import Mathlib.Data.List.Sort

/-!
# The amount types of the payment engine

The strand flow is a template over `MAmount` and `IOUAmount`. `LawfulFlowAmount` is what its totals
rest on, above all that an amount that fits into what is left of a cap leaves the total within it.
-/

namespace FinPal

class FlowAmount (α : Type) where
  zero : α
  add : α → α → Except Fault α
  sub : α → α → Except Fault α
  lt : α → α → Bool

namespace FlowAmount
variable {α : Type} [FlowAmount α]

/-- The lambda `sum` of the multi-strand flow. -/
def sum : List α → Except Fault α
  | [] => .ok zero
  | x :: l => l.foldlM add x

/-- A list of amounts has a total within `cap`, and `rest` is what is left. -/
structure Fits (cap : α) (l : List α) (total rest : α) : Prop where
  cap_nonneg : lt cap zero = false
  nonneg : ∀ a ∈ l, lt a zero = false
  sum : sum l = .ok total
  total_nonneg : lt total zero = false
  total_le : lt cap total = false
  sub : sub cap total = .ok rest
  rest_nonneg : lt rest zero = false

variable {cap f total rest : α} {l₁ l₂ : List α}

theorem Fits.nonneg_insert (h : Fits cap (l₁ ++ l₂) total rest) (hf : lt f zero = false) :
    ∀ a ∈ l₁ ++ f :: l₂, lt a zero = false := by
  intro a ha
  rcases List.mem_append.1 ha with ha | ha
  · exact h.nonneg a (List.mem_append_left _ ha)
  rcases List.mem_cons.1 ha with rfl | ha
  · exact hf
  · exact h.nonneg a (List.mem_append_right _ ha)

end FlowAmount

open FlowAmount

class LawfulFlowAmount (α : Type) [FlowAmount α] : Prop where
  nonneg_of_pos {a : α} : lt zero a = true → lt a zero = false
  pos_of_ne {a : α} : lt a zero = false → a ≠ zero → lt zero a = true
  fits_nil {cap : α} : lt cap zero = false → Fits cap [] zero cap
  fits_insert {cap total rest f : α} {l₁ l₂ : List α} : Fits cap (l₁ ++ l₂) total rest →
    lt f zero = false → lt rest f = false → ∃ total' rest', Fits cap (l₁ ++ f :: l₂) total' rest'
  fault_of_sum {l : List α} {e : Fault} : (∀ a ∈ l, lt a zero = false) → sum l = .error e →
    e = .exception

theorem FlowAmount.Fits.orderedInsert {α : Type} [FlowAmount α] [LawfulFlowAmount α]
    {cap total rest f : α} {l : List α} (h : Fits cap l total rest) (hf : lt f zero = false)
    (hle : lt rest f = false) :
    ∃ total' rest', Fits cap (l.orderedInsert (fun x y => lt x y) f) total' rest' := by
  rw [List.orderedInsert_eq_take_drop]
  refine LawfulFlowAmount.fits_insert (show Fits cap _ total rest from ?_) hf hle
  rw [List.takeWhile_append_dropWhile]
  exact h

/-! ### Drops -/

/-- The source adds signed words. -/
structure MAmount where
  drops : Int64
  deriving DecidableEq

instance : FlowAmount MAmount where
  zero := ⟨0⟩
  add a b := .ok ⟨a.drops + b.drops⟩
  sub a b := .ok ⟨a.drops - b.drops⟩
  lt a b := a.drops < b.drops

namespace MAmount
variable {a b : MAmount} {l l₁ l₂ : List MAmount}

theorem lt_eq : lt a b = decide (a.drops.toInt < b.drops.toInt) := by
  simp [lt, Int64.lt_iff_toInt_lt]

theorem foldlM_add : l.foldlM add a = .ok ⟨l.foldl (fun s x => s + x.drops) a.drops⟩ := by
  induction l generalizing a with
  | nil => rfl
  | cons x l ih => exact ih

theorem foldl_add {s t : Int64} :
    l.foldl (fun s x => s + x.drops) (s + t) = l.foldl (fun s x => s + x.drops) s + t := by
  induction l generalizing s with
  | nil => rfl
  | cons x l ih =>
    rw [List.foldl_cons, List.foldl_cons, ← ih, Int64.add_assoc, Int64.add_comm t, Int64.add_assoc]

theorem sum_eq : sum l = .ok ⟨l.foldl (fun s x => s + x.drops) 0⟩ := by
  cases l with
  | nil => rfl
  | cons x l => rw [sum, foldlM_add, List.foldl_cons, Int64.zero_add]

theorem sum_insert {f : MAmount} {total : MAmount} (h : sum (l₁ ++ l₂) = .ok total) :
    sum (l₁ ++ f :: l₂) = .ok ⟨total.drops + f.drops⟩ := by
  rw [sum_eq, Except.ok.injEq] at h
  rw [sum_eq, ← h, List.foldl_append, List.foldl_append, List.foldl_cons, foldl_add]

theorem bmod_eq {z : ℤ} (h0 : -2 ^ 63 ≤ z) (h1 : z < 2 ^ 63) : z.bmod (2 ^ 64) = z :=
  Int.bmod_eq_of_le (by norm_num; omega) (by norm_num; omega)

end MAmount

instance : LawfulFlowAmount MAmount where
  nonneg_of_pos h := by
    rw [MAmount.lt_eq, decide_eq_true_iff] at h
    rw [MAmount.lt_eq, decide_eq_false_iff_not]
    exact not_lt.2 h.le
  fault_of_sum _ h := by simp [MAmount.sum_eq] at h
  pos_of_ne {a} h hne := by
    have hz : a.drops.toInt ≠ (0 : Int64).toInt := by
      intro he
      have : a.drops = 0 := Int64.toInt_inj.1 he
      exact hne (by cases a; simp_all [zero])
    rw [MAmount.lt_eq, decide_eq_false_iff_not] at h
    rw [MAmount.lt_eq, decide_eq_true_iff]
    exact lt_of_le_of_ne (not_lt.1 h) hz.symm
  fits_nil {cap} h := by
    refine ⟨h, by simp, rfl, rfl, h, ?_, h⟩
    show Except.ok (MAmount.mk (cap.drops - 0)) = _
    rw [Int64.sub_zero]
  fits_insert {cap total rest f l₁ l₂} h hf hle := by
    have hall := h.nonneg_insert hf
    have htotal := h.total_nonneg
    have hcap := h.total_le
    have hrest := h.sub
    rw [MAmount.lt_eq, decide_eq_false_iff_not] at hf hle htotal hcap
    obtain rfl : MAmount.mk (cap.drops - total.drops) = rest := Except.ok.inj hrest
    have h₀ : (zero : MAmount).drops.toInt = 0 := Int64.toInt_zero
    have hrange := cap.drops.toInt_lt
    rw [h₀] at hf htotal
    have hleft : (cap.drops - total.drops).toInt = cap.drops.toInt - total.drops.toInt := by
      rw [Int64.toInt_sub, MAmount.bmod_eq (by omega) (by omega)]
    simp only [hleft] at hle
    have hnext : (total.drops + f.drops).toInt = total.drops.toInt + f.drops.toInt := by
      rw [Int64.toInt_add, MAmount.bmod_eq (by omega) (by omega)]
    have hleft' : (cap.drops - (total.drops + f.drops)).toInt =
        cap.drops.toInt - (total.drops.toInt + f.drops.toInt) := by
      rw [Int64.toInt_sub, hnext, MAmount.bmod_eq (by omega) (by omega)]
    refine ⟨_, _, h.cap_nonneg, hall, MAmount.sum_insert h.sum, ?_, ?_, rfl, ?_⟩
    all_goals
      rw [MAmount.lt_eq, decide_eq_false_iff_not]
      simp only [h₀, hnext, hleft']
      omega

/-! ### Issued amounts -/

instance : FlowAmount IOUAmount where
  zero := IOUAmount.zero
  add := IOUAmount.add
  sub := IOUAmount.sub
  lt := IOUAmount.lt

namespace IOUAmount
variable {a b : IOUAmount} {l : List IOUAmount}

theorem nonneg_iff : FlowAmount.lt a FlowAmount.zero = false ↔ 0 ≤ a.mantissa := by
  show a.lt zero = false ↔ _
  by_cases h : a.mantissa < 0
  · simp [lt]
  · simp [lt, not_lt.1 h]

theorem le_iff (ha : 0 ≤ a.mantissa) (hb : 0 ≤ b.mantissa) :
    FlowAmount.lt b a = false ↔ a.units ≤ b.units := by
  rw [show FlowAmount.lt b a = _ from lt_eq hb ha, decide_eq_false_iff_not, not_lt]

theorem foldlM_add (ha : 0 ≤ a.mantissa) (hl : ∀ x ∈ l, 0 ≤ x.mantissa) :
    (∃ s, l.foldlM FlowAmount.add a = .ok s ∧ 0 ≤ s.mantissa ∧
        s.units = chopSum 10 15 a.units (l.map units)) ∨
      (l.foldlM FlowAmount.add a = .error .exception ∧
        10 ^ 192 ≤ chopSum 10 15 a.units (l.map units)) := by
  induction l generalizing a with
  | nil => exact .inl ⟨a, rfl, ha, rfl⟩
  | cons x l ih =>
    rw [List.map_cons, chopSum_cons, List.foldlM_cons]
    rcases add_spec ha (hl x (List.mem_cons_self ..)) with ⟨c, hc, hc0, hcu⟩ | ⟨hc, hb⟩
    · rw [← hcu, show FlowAmount.add a x = .ok c from hc]
      exact ih hc0 fun y hy => hl y (List.mem_cons_of_mem _ hy)
    · rw [show FlowAmount.add a x = .error .exception from hc]
      exact .inr ⟨rfl, hb.trans (le_chopSum (by decide) (short_chop (by decide)))⟩

theorem sum_spec (hl : ∀ x ∈ l, 0 ≤ x.mantissa) :
    (∃ s, sum l = .ok s ∧ 0 ≤ s.mantissa ∧ s.units = chopSum 10 15 0 (l.map units)) ∨
      (sum l = .error .exception ∧ 10 ^ 192 ≤ chopSum 10 15 0 (l.map units)) := by
  cases l with
  | nil => exact .inl ⟨zero, rfl, le_rfl, rfl⟩
  | cons x l =>
    have hx := hl x (List.mem_cons_self ..)
    rw [List.map_cons, chopSum_cons, Nat.zero_add, chop_of_short (short_units hx)]
    exact foldlM_add hx fun y hy => hl y (List.mem_cons_of_mem _ hy)

theorem units_of_sum {s : IOUAmount} (hl : ∀ x ∈ l, 0 ≤ x.mantissa) (h : sum l = .ok s) :
    s.units = chopSum 10 15 0 (l.map units) := by
  rcases sum_spec hl with ⟨s', hs', -, hu⟩ | ⟨he, -⟩
  · obtain rfl : s' = s := Except.ok.inj (hs'.symm.trans h)
    exact hu
  · simp [he] at h

end IOUAmount

instance : LawfulFlowAmount IOUAmount where
  nonneg_of_pos {a} h := by
    by_contra hneg
    rw [IOUAmount.nonneg_iff, not_le] at hneg
    have : IOUAmount.lt .zero a = false := by simp [IOUAmount.lt, hneg]
    exact absurd h (by simp [lt, zero, this])
  fault_of_sum {l e} hl h := by
    rcases IOUAmount.sum_spec fun x hx => IOUAmount.nonneg_iff.1 (hl x hx) with
      ⟨s, hs, -⟩ | ⟨he, -⟩
    · simp [hs] at h
    · exact Except.error.inj (h.symm.trans he)
  pos_of_ne {a} h hne := by
    rw [IOUAmount.nonneg_iff] at h
    rcases IOUAmount.eq_zero_or_digits h with rfl | ⟨m, k, hd⟩
    · exact absurd rfl hne
    · rw [show lt zero a = _ from IOUAmount.lt_eq le_rfl h, decide_eq_true_iff]
      exact hd.units_pos
  fits_nil h := ⟨h, by simp, rfl, rfl, h, rfl, h⟩
  fits_insert {cap total rest f l₁ l₂} h hf hle := by
    have hall := h.nonneg_insert hf
    have hlist (x : IOUAmount) (hx : x ∈ l₁ ++ l₂) : 0 ≤ x.mantissa :=
      IOUAmount.nonneg_iff.1 (h.nonneg x hx)
    have hlist' (x : IOUAmount) (hx : x ∈ l₁ ++ f :: l₂) : 0 ≤ x.mantissa :=
      IOUAmount.nonneg_iff.1 (hall x hx)
    have hcap := IOUAmount.nonneg_iff.1 h.cap_nonneg
    have ht := IOUAmount.nonneg_iff.1 h.total_nonneg
    have hf := IOUAmount.nonneg_iff.1 hf
    have hr := IOUAmount.nonneg_iff.1 h.rest_nonneg
    have htu := IOUAmount.units_of_sum hlist h.sum
    have htc := (IOUAmount.le_iff ht hcap).1 h.total_le
    rw [IOUAmount.le_iff hf hr] at hle
    obtain ⟨r, hr₁, -, hru⟩ := IOUAmount.exists_sub hcap ht htc
    obtain rfl : r = rest := Except.ok.inj (hr₁.symm.trans h.sub)
    -- the total with `f` in it, in units
    have hbound : chopSum 10 15 0 ((l₁ ++ f :: l₂).map IOUAmount.units) ≤ cap.units := by
      rw [List.map_append, List.map_cons]
      rw [List.map_append] at htu
      refine chopSum_insert_le (by decide) short_zero (IOUAmount.short_units hcap) ?_ ?_
      · exact htu ▸ htc
      · rw [← htu]
        omega
    rcases IOUAmount.sum_spec hlist' with ⟨s, hs, hs0, hsu⟩ | ⟨-, hbig⟩
    · have hsc : s.units ≤ cap.units := hsu ▸ hbound
      obtain ⟨r', hr', hr0, -⟩ := IOUAmount.exists_sub hcap hs0 hsc
      exact ⟨s, r', h.cap_nonneg, hall, hs, IOUAmount.nonneg_iff.2 hs0,
        (IOUAmount.le_iff hs0 hcap).2 hsc, hr', IOUAmount.nonneg_iff.2 hr0⟩
    · exact absurd (hbig.trans hbound) (not_le.2 (IOUAmount.units_lt hcap))

end FinPal
