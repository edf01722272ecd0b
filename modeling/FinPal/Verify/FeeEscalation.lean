import FinPal.Misc.FeeMetrics
import Mathlib.Algebra.BigOperators.Ring.Finset
import Mathlib.Algebra.Order.BigOperators.Group.Finset

/-!
# The fee level of a series
-/

namespace FinPal.TxQ.FeeMetrics
open Finset

theorem six_mul_sum_squares (n : ℕ) :
    6 * ∑ i ∈ range (n + 1), i ^ 2 = n * (n + 1) * (2 * n + 1) := by
  induction n with
  | zero => rfl
  | succ n ih =>
    rw [sum_range_succ, mul_add, ih]
    ring

theorem sumOfFirstSquares_spec (x : ℕ) :
    (x < 2 ^ 21 ∧ sumOfFirstSquares x = (true, ∑ i ∈ range (x + 1), i ^ 2) ∧
        ∑ i ∈ range (x + 1), i ^ 2 < 2 ^ 64) ∨
      2 ^ 21 ≤ x ∧ sumOfFirstSquares x = (false, maxUInt64) := by
  unfold sumOfFirstSquares
  split
  case isTrue h => exact .inr ⟨h, rfl⟩
  case isFalse h =>
    rw [not_le] at h
    have hs := six_mul_sum_squares x
    have hp : x * (x + 1) < 2 ^ 21 * 2 ^ 21 := Nat.mul_lt_mul_of_lt_of_le h (by omega) (by decide)
    have hlt : x * (x + 1) * (2 * x + 1) < 2 ^ 21 * 2 ^ 21 * 2 ^ 22 :=
      Nat.mul_lt_mul'' hp (by omega)
    refine .inl ⟨h, ?_, by omega⟩
    rw [Nat.mod_eq_of_lt (hp.trans (by decide)), Nat.mod_eq_of_lt (hlt.trans_le (by decide)), ← hs,
      Nat.mul_div_cancel_left _ (by decide)]

/-- The exact level of `n` transactions after `current` are in the ledger. -/
def seriesLevel (m : FeeMetrics) (current n : ℕ) : ℕ :=
  m.escalationMultiplier * (∑ i ∈ range n, (current + i) ^ 2) / m.txnsExpected ^ 2

theorem sum_range_squares (current n : ℕ) :
    ∑ i ∈ range (current + n), i ^ 2 - ∑ i ∈ range current, i ^ 2 =
      ∑ i ∈ range n, (current + i) ^ 2 := by
  rw [sum_range_add, Nat.add_sub_cancel_left]

variable {m : FeeMetrics} {current n : ℕ}

theorem escalatedSeriesFeeLevel_eq (hcur : m.txnsExpected < current) (hn : 1 ≤ n)
    (hsize : current + n ≤ 2 ^ 64) :
    m.escalatedSeriesFeeLevel current n =
      if current + n ≤ 2 ^ 21 ∧ m.seriesLevel current n ≤ maxUInt64 then
        (true, m.seriesLevel current n) else (false, maxUInt64) := by
  have hla : (current + n - 1) % 2 ^ 64 = current + n - 1 := Nat.mod_eq_of_lt (by omega)
  unfold escalatedSeriesFeeLevel
  dsimp only
  rw [hla]
  rcases sumOfFirstSquares_spec (current + n - 1) with ⟨hlt, hs, hbo⟩ | ⟨hge, hs⟩
  · rcases sumOfFirstSquares_spec (current - 1) with ⟨-, hs', -⟩ | ⟨hge', -⟩
    · rw [hs, hs']
      have hcu : current - 1 + 1 = current := by omega
      have hne : current + n - 1 + 1 = current + n := by omega
      rw [hcu, hne]
      rw [hne] at hbo
      have hle : ∑ i ∈ range current, i ^ 2 ≤ ∑ i ∈ range (current + n), i ^ 2 :=
        sum_le_sum_of_subset (range_subset_range.2 (Nat.le_add_right _ _))
      have hdi : (∑ i ∈ range (current + n), i ^ 2 + 2 ^ 64 - ∑ i ∈ range current, i ^ 2) % 2 ^ 64 =
          ∑ i ∈ range n, (current + i) ^ 2 := by
        rw [← sum_range_squares]
        omega
      have hta : m.txnsExpected * m.txnsExpected % 2 ^ 64 = m.txnsExpected ^ 2 := by
        rw [← sq]
        refine Nat.mod_eq_of_lt ((Nat.pow_lt_pow_left (?_ : _ < 2 ^ 21) (by decide)).trans ?_)
        · omega
        · decide
      rw [hdi, hta, mulDiv]
      change (if maxUInt64 < m.seriesLevel current n then _ else (true, m.seriesLevel current n)) = _
      by_cases h : maxUInt64 < m.seriesLevel current n
      · rw [if_pos h, if_neg fun h' => absurd h'.2 (not_le.2 h)]
      · rw [if_neg h, if_pos ⟨by omega, not_lt.1 h⟩]
    · omega
  · rw [hs, if_pos (by rfl), if_neg fun h => absurd h.1 (by omega)]

theorem scaleFeeLevel_le (he : 1 ≤ m.txnsExpected) (hc : m.txnsExpected < current)
    (hs : current < 2 ^ 32) :
    ∃ level, m.scaleFeeLevel current = .ok level ∧
      level ≤ m.escalationMultiplier * current ^ 2 / m.txnsExpected ^ 2 := by
  have hm {x : ℕ} (hx : x < 2 ^ 32) : x * x % 2 ^ 64 = x ^ 2 := by
    rw [← sq]
    exact Nat.mod_eq_of_lt ((Nat.pow_lt_pow_left hx (by decide)).trans_le (by decide))
  unfold scaleFeeLevel
  rw [if_pos hc, hm hs, hm (hc.trans hs), if_neg (pow_pos he 2).ne']
  refine ⟨_, rfl, ?_⟩
  unfold mulDiv
  split
  case isTrue h => exact h.le
  case isFalse => exact le_rfl

theorem sum_div_le (l : ℕ → ℕ) (n d : ℕ) : ∑ i ∈ range n, l i / d ≤ (∑ i ∈ range n, l i) / d := by
  rcases Nat.eq_zero_or_pos d with rfl | hd
  · simp
  · rw [Nat.le_div_iff_mul_le hd, sum_mul]
    exact sum_le_sum fun i _ => Nat.div_mul_le_self _ _

theorem sum_scaleFeeLevel_le (he : 1 ≤ m.txnsExpected) (hcur : m.txnsExpected < current)
    (hsize : current + n ≤ 2 ^ 32) :
    ∃ level : ℕ → ℕ, (∀ i < n, m.scaleFeeLevel (current + i) = .ok (level i)) ∧
      ∑ i ∈ range n, level i ≤ m.seriesLevel current n := by
  have hl (i) : ∃ level, i < n → m.scaleFeeLevel (current + i) = .ok level ∧
      level ≤ m.escalationMultiplier * (current + i) ^ 2 / m.txnsExpected ^ 2 := by
    by_cases hi : i < n
    · have hc' : m.txnsExpected < current + i := by omega
      obtain ⟨level, hok, hle⟩ := scaleFeeLevel_le he hc' (by omega)
      exact ⟨level, fun _ => ⟨hok, hle⟩⟩
    · exact ⟨0, fun h => absurd h hi⟩
  choose level hl using hl
  refine ⟨level, fun i hi => (hl i hi).1, ?_⟩
  calc ∑ i ∈ range n, level i
      ≤ ∑ i ∈ range n, m.escalationMultiplier * (current + i) ^ 2 / m.txnsExpected ^ 2 :=
        sum_le_sum fun i hi => (hl i (mem_range.1 hi)).2
    _ ≤ m.seriesLevel current n := by
        rw [seriesLevel, mul_sum]
        exact sum_div_le _ n _

/-- Sums of squares are exact or flagged, and so is the level of a series of transactions whose
number does not wrap; it is flagged unless it fits, and is at least the sum of their levels. -/
theorem escalated_series_fee (hexp : 1 ≤ m.txnsExpected) (hcur : m.txnsExpected < current)
    (hn : 1 ≤ n) (hsize : current + n ≤ 2 ^ 64) :
    (∀ x, (sumOfFirstSquares x).1 = true → (sumOfFirstSquares x).2 = ∑ i ∈ range (x + 1), i ^ 2) ∧
    (2 ^ 64 ≤ m.seriesLevel current n → (m.escalatedSeriesFeeLevel current n).1 = false) ∧
    ((m.escalatedSeriesFeeLevel current n).1 = true →
      (m.escalatedSeriesFeeLevel current n).2 = m.seriesLevel current n ∧
      ∃ level : ℕ → ℕ, (∀ i < n, m.scaleFeeLevel (current + i) = .ok (level i)) ∧
        ∑ i ∈ range n, level i ≤ m.seriesLevel current n) := by
  refine ⟨fun x hx => ?_, fun hov => ?_, fun hok => ?_⟩
  · rcases sumOfFirstSquares_spec x with ⟨-, hs, -⟩ | ⟨-, hs⟩
    · rw [hs]
    · rw [hs] at hx
      cases hx
  · rw [escalatedSeriesFeeLevel_eq hcur hn hsize, if_neg fun h => absurd h.2 ?_]
    exact not_le.2 (lt_of_lt_of_le (by decide) hov)
  rw [escalatedSeriesFeeLevel_eq hcur hn hsize] at hok ⊢
  split at hok
  case isTrue h =>
    rw [if_pos h]
    exact ⟨rfl, sum_scaleFeeLevel_le hexp hcur (by omega)⟩
  case isFalse => cases hok

def expectOne : FeeMetrics := ⟨1, 1, none, 1, 128000, 128000⟩

/-- Two transactions, where one is expected and three are there. -/
theorem escalated_series_fee_sample :
    (expectOne.escalatedSeriesFeeLevel 3 2).1 = true ∧
      (expectOne.escalatedSeriesFeeLevel 3 2).2 = expectOne.seriesLevel 3 2 :=
  ⟨by decide, ((escalated_series_fee (by decide) (by decide) (by decide) (by decide)).2.2
    (by decide)).1⟩

/-- With 2^64 - 1 transactions in the ledger the number of the last one wraps to 0. -/
theorem wrapped_series_fee :
    expectOne.escalatedSeriesFeeLevel (2 ^ 64 - 1) 2 = (true, 128000) ∧
      2 ^ 64 ≤ expectOne.seriesLevel (2 ^ 64 - 1) 2 := by
  decide +kernel

end FinPal.TxQ.FeeMetrics
