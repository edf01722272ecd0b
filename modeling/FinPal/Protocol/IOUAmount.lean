import FinPal.Protocol.Amount
import FinPal.Lib.Significand
import Mathlib.Tactic.Positivity
import Mathlib.Tactic.NormNum

/-!
# Issued amounts as the payment engine computes with them

`IOUAmount` is a decimal floating point number of sixteen digits (`protocol/impl/IOUAmount.cpp`). A
sum of amounts that are not negative is exact but for the digits behind those (`units_of_add`).
-/

namespace FinPal

/-- The range for the mantissa when normalized. -/
def minMantissa : ℕ := 1000000000000000
def maxMantissa : ℕ := 9999999999999999

/-- The range for the exponent when normalized. -/
def minExponent : ℤ := -96
def maxExponent : ℤ := 80

/-- A normalized amount. Zero has an exponent of its own, so that it sorts below the small positive
ones. -/
structure IOUAmount where
  mantissa : ℤ
  exponent : ℤ
  canonical : (mantissa = 0 ∧ exponent = -100) ∨
    (minMantissa ≤ mantissa.natAbs ∧ mantissa.natAbs ≤ maxMantissa ∧
      minExponent ≤ exponent ∧ exponent ≤ maxExponent)
  deriving DecidableEq

namespace IOUAmount

def zero : IOUAmount := ⟨0, -100, .inl ⟨rfl, rfl⟩⟩

/-- The first loop of `normalize`; the exponent is `n` above the least one. -/
def scaleUp : ℕ → ℕ → ℤ → ℕ × ℤ
  | 0, m, e => (m, e)
  | n + 1, m, e => if m < minMantissa then scaleUp n (m * 10) (e - 1) else (m, e)

/-- The second loop of `normalize`; the exponent is `n` below the greatest one. -/
def scaleDown : ℕ → ℕ → ℤ → Except Fault { r : ℕ × ℤ // r.1 ≤ maxMantissa }
  | 0, m, e => if h : m ≤ maxMantissa then .ok ⟨(m, e), h⟩ else .error .exception
  | n + 1, m, e => if h : m ≤ maxMantissa then .ok ⟨(m, e), h⟩ else scaleDown n (m / 10) (e + 1)

/-- The end of `normalize`: the range of the result, and the sign again. -/
def finish (negative : Bool) : { r : ℕ × ℤ // r.1 ≤ maxMantissa } → Except Fault IOUAmount
  | ⟨(m, e), hm⟩ =>
    if h : e < minExponent ∨ m < minMantissa then .ok zero
    else if h' : maxExponent < e then .error .exception
    else .ok {
      mantissa := if negative then -m else m
      exponent := e
      canonical := .inr (by have : m ≤ maxMantissa := hm; split <;> omega) }

def normalize (mantissa exponent : ℤ) : Except Fault IOUAmount :=
  if mantissa = 0 then .ok zero
  else
    let (m, e) := scaleUp (exponent - minExponent).toNat mantissa.natAbs exponent
    scaleDown (maxExponent - e).toNat m e >>= finish (mantissa < 0)

/-- `operator-`, which normalizes again. -/
def neg (a : IOUAmount) : Except Fault IOUAmount := normalize (-a.mantissa) a.exponent

/-- A mantissa brought to an exponent that is `d` greater. -/
def shift : ℕ → ℤ → ℤ
  | 0, m => m
  | d + 1, m => shift d (m.tdiv 10)

/-- `operator+=`. A sum of less than two digits counts as zero. -/
def add (a b : IOUAmount) : Except Fault IOUAmount :=
  if b = zero then .ok a
  else if a = zero then .ok b
  else
    let m := shift (b.exponent - a.exponent).toNat a.mantissa +
      shift (a.exponent - b.exponent).toNat b.mantissa
    if -10 ≤ m ∧ m ≤ 10 then .ok zero
    else normalize m (max a.exponent b.exponent)

/-- `operator-=`. -/
def sub (a b : IOUAmount) : Except Fault IOUAmount := do
  a.add (← b.neg)

/-- `operator<`. -/
def lt (a b : IOUAmount) : Bool :=
  let lneg : Bool := a.mantissa < 0
  let rneg : Bool := b.mantissa < 0
  if lneg ≠ rneg then lneg
  else if a.mantissa = 0 then 0 < b.mantissa
  else if b.mantissa = 0 then false
  else if b.exponent < a.exponent then lneg
  else if a.exponent < b.exponent then !lneg
  else a.mantissa < b.mantissa

/-! ### Amounts that are not negative -/

/-- A positive amount, as mantissa and distance of the exponent from the least one. -/
structure Digits (a : IOUAmount) (m k : ℕ) : Prop where
  mantissa : a.mantissa = m
  exponent : a.exponent = minExponent + k
  le : minMantissa ≤ m
  ge : m ≤ maxMantissa
  place : k ≤ 176

/-- An amount in units of the least exponent. -/
def units (a : IOUAmount) : ℕ := a.mantissa.toNat * 10 ^ (a.exponent - minExponent).toNat

@[simp] theorem mantissa_zero : zero.mantissa = 0 := rfl
@[simp] theorem units_zero : zero.units = 0 := rfl

variable {a b c : IOUAmount} {m k m' k' : ℕ}

theorem eq_zero_or_digits (h : 0 ≤ a.mantissa) : a = zero ∨ ∃ m k, a.Digits m k := by
  obtain ⟨m, e, hc | ⟨h1, h2, h3, h4⟩⟩ := a
  · obtain ⟨rfl, rfl⟩ := hc
    exact .inl rfl
  have hlow : -96 ≤ e := h3
  have hhigh : e ≤ 80 := h4
  refine .inr ⟨m.natAbs, (e - minExponent).toNat, (Int.natAbs_of_nonneg h).symm, ?_, h1, h2, ?_⟩
  · simp only [minExponent]
    omega
  · simp only [minExponent]
    omega

section
variable (h : a.Digits m k)

include h

theorem Digits.units : a.units = m * 10 ^ k := by
  simp [IOUAmount.units, h.mantissa, h.exponent]

theorem Digits.pos : 0 < a.mantissa := by
  have := h.le
  rw [h.mantissa]
  simp only [minMantissa] at this
  omega

theorem Digits.units_pos : 0 < a.units := by
  have hm : 0 < m := by simpa [h.mantissa] using h.pos
  rw [h.units]
  positivity

theorem Digits.ne_zero : a ≠ zero := by
  rintro rfl
  exact absurd h.pos (by decide)

end

theorem scaleUp_spec (n m : ℕ) : ∃ m' n' : ℕ,
    scaleUp n m (minExponent + n) = (m', minExponent + n') ∧ n' ≤ n ∧ m' * 10 ^ n' = m * 10 ^ n ∧
      (m ≤ maxMantissa → m' ≤ maxMantissa) ∧ (minMantissa ≤ m → m' = m ∧ n' = n) := by
  induction n generalizing m with
  | zero => exact ⟨m, 0, rfl, le_rfl, rfl, id, fun _ => ⟨rfl, rfl⟩⟩
  | succ n ih =>
    by_cases h : m < minMantissa
    · obtain ⟨m', n', he, _, hu, hm, -⟩ := ih (m * 10)
      refine ⟨m', n', ?_, by omega, ?_, ?_, fun h' => absurd h (by omega)⟩
      · rw [scaleUp, if_pos h, ← he]
        congr 1
        push_cast
        omega
      · rw [hu]
        ring
      intro _
      refine hm ?_
      simp only [minMantissa, maxMantissa] at *
      omega
    · exact ⟨m, n + 1, by rw [scaleUp, if_neg h], le_rfl, rfl, id, fun _ => ⟨rfl, rfl⟩⟩

theorem scaleDown_of_le {n : ℕ} {e : ℤ} (h : m ≤ maxMantissa) :
    scaleDown n m e = .ok ⟨(m, e), h⟩ := by
  cases n <;> simp [scaleDown, h]

theorem finish_of_le (negative : Bool) (hl : minMantissa ≤ m) (hm : m ≤ maxMantissa)
    (hk : k ≤ 176) : ∃ c, finish negative ⟨(m, minExponent + k), hm⟩ = .ok c ∧
      c.mantissa = (if negative then -(m : ℤ) else m) ∧ c.exponent = minExponent + k := by
  have hpl : ¬(maxExponent < minExponent + (k : ℤ)) := by
    simp only [maxExponent, minExponent]
    omega
  have hle : ¬(minExponent + (k : ℤ) < minExponent ∨ m < minMantissa) := by omega
  exact ⟨_, by rw [finish, dif_neg hle, dif_neg hpl], rfl, rfl⟩

theorem normalize_eq {z : ℤ} (hz : z ≠ 0) : normalize z (minExponent + k) =
    scaleDown (maxExponent - (scaleUp k z.natAbs (minExponent + k)).2).toNat
      (scaleUp k z.natAbs (minExponent + k)).1 (scaleUp k z.natAbs (minExponent + k)).2 >>=
        finish (z < 0) := by
  have hfuel : (minExponent + k - minExponent).toNat = k := by omega
  simp [normalize, if_neg hz]

theorem normalize_natCast (hpos : 0 < m) : normalize m (minExponent + k) =
    scaleDown (maxExponent - (scaleUp k m (minExponent + k)).2).toNat
      (scaleUp k m (minExponent + k)).1 (scaleUp k m (minExponent + k)).2 >>= finish false := by
  have hn : decide ((m : ℤ) < 0) = false := by simp
  rw [normalize_eq (by omega), hn, Int.natAbs_natCast]

theorem normalize_of_le (hp : 0 < m) (hm : m ≤ maxMantissa) (hk : k ≤ 176) :
    ∃ c, normalize m (minExponent + k) = .ok c ∧ 0 ≤ c.mantissa ∧ c.units ≤ m * 10 ^ k ∧
      (minMantissa ≤ m → c.Digits m k) := by
  obtain ⟨m', k', hup, hk', hu, hmax, hs⟩ := scaleUp_spec k m
  rw [normalize_natCast hp, hup, scaleDown_of_le (hmax hm)]
  by_cases hl : m' < minMantissa
  · refine ⟨zero, ?_, le_rfl, Nat.zero_le _, fun h => ?_⟩
    · refine (pure_bind _ (finish false)).trans ?_
      rw [finish, dif_pos (.inr hl)]
    · exact absurd hl (by have := hs h; omega)
  obtain ⟨c, hc, hcm, hce⟩ := finish_of_le false (not_lt.1 hl) (hmax hm) (hk'.trans hk)
  have hd : c.Digits m' k' := ⟨hcm, hce, not_lt.1 hl, hmax hm, hk'.trans hk⟩
  refine ⟨c, hc, hd.pos.le, (hd.units.trans hu).le, fun h => ?_⟩
  obtain ⟨rfl, rfl⟩ := hs h
  exact hd

theorem normalize_of_gt (hm : maxMantissa < m) (hm' : m / 10 ≤ maxMantissa) (hk : k < 176) :
    ∃ c, normalize m (minExponent + k) = .ok c ∧ c.Digits (m / 10) (k + 1) := by
  have hl : minMantissa ≤ m := by
    simp only [minMantissa, maxMantissa] at *
    omega
  have hl' : minMantissa ≤ m / 10 := by
    simp only [minMantissa, maxMantissa] at *
    omega
  obtain ⟨_, k', hup, -, -, -, hs⟩ := scaleUp_spec k m
  obtain ⟨rfl, rfl⟩ := hs hl
  have hf : (maxExponent - (minExponent + (k' : ℤ))).toNat = (175 - k') + 1 := by
    simp only [maxExponent, minExponent]
    omega
  obtain ⟨c, hc, hcm, hce⟩ := finish_of_le false hl' hm' hk
  refine ⟨c, ?_, hcm, hce, hl', hm', hk⟩
  rw [normalize_natCast (by omega), hup, hf, scaleDown, dif_neg (not_le.2 hm),
    scaleDown_of_le hm', ← hc]
  refine (pure_bind _ (finish false)).trans ?_
  congr 3
  omega

theorem normalize_of_gt_max (hm : maxMantissa < m) (hk : k = 176) :
    normalize m (minExponent + k) = .error .exception := by
  have hl : minMantissa ≤ m := by
    simp only [minMantissa, maxMantissa] at *
    omega
  obtain ⟨_, k', hup, -, -, -, hs⟩ := scaleUp_spec k m
  obtain ⟨rfl, rfl⟩ := hs hl
  have hf : (maxExponent - (minExponent + (k' : ℤ))).toNat = 0 := by
    simp only [maxExponent, minExponent]
    omega
  rw [normalize_natCast (by omega), hup, hf, scaleDown, dif_neg (not_le.2 hm)]
  rfl

theorem shift_natCast (d m : ℕ) : shift d m = (m / 10 ^ d : ℕ) := by
  induction d generalizing m with
  | zero => simp [shift]
  | succ d ih =>
    have h : (m : ℤ).tdiv 10 = (m / 10 : ℕ) := rfl
    rw [shift, h, ih, Nat.div_div_eq_div_mul, pow_succ, Nat.mul_comm]

theorem shift_neg (d : ℕ) (m : ℤ) : shift d (-m) = -shift d m := by
  induction d generalizing m with
  | zero => rfl
  | succ d ih => rw [shift, Int.neg_tdiv, ih, shift]

theorem add_digits (ha : a.Digits m k) (hb : b.Digits m' k') (hle : k' ≤ k) :
    a.add b = normalize (m + m' / 10 ^ (k - k') : ℕ) (minExponent + k) ∧
      b.add a = normalize (m + m' / 10 ^ (k - k') : ℕ) (minExponent + k) := by
  have hd : (a.exponent - b.exponent).toNat = k - k' := by rw [ha.exponent, hb.exponent]; omega
  have hd' : (b.exponent - a.exponent).toNat = 0 := by rw [ha.exponent, hb.exponent]; omega
  have hm : max a.exponent b.exponent = minExponent + k := by
    rw [ha.exponent, hb.exponent]
    omega
  have hl := ha.le
  simp only [minMantissa] at hl
  have hbig (q : ℕ) : ¬(-10 ≤ (m : ℤ) + q ∧ (m : ℤ) + q ≤ 10) := by omega
  constructor
  · rw [add, if_neg hb.ne_zero, if_neg ha.ne_zero, hd, hd', hm, ha.mantissa, hb.mantissa, shift,
      shift_natCast, if_neg (hbig _), Nat.cast_add]
  · rw [add, if_neg ha.ne_zero, if_neg hb.ne_zero, hd, hd', max_comm, hm, ha.mantissa,
      hb.mantissa, shift, shift_natCast, add_comm _ (m : ℤ), if_neg (hbig _), Nat.cast_add]

theorem Digits.le_pow (h : a.Digits m k) : 10 ^ 15 ≤ m := h.le
theorem Digits.lt_pow (h : a.Digits m k) : m < 10 ^ (15 + 1) := Nat.lt_succ_of_le h.ge

theorem Digits.div_place (h : a.Digits m k) : a.units / 10 ^ k = m := by
  rw [h.units, Nat.mul_div_cancel _ (by positivity)]

theorem Digits.ulp_units (h : a.Digits m k) : ulp 10 15 a.units = 10 ^ k :=
  ulp_eq_of_div (by decide) h.div_place h.le_pow h.lt_pow

theorem short_units (h : 0 ≤ a.mantissa) : Short 10 15 a.units := by
  rcases eq_zero_or_digits h with rfl | ⟨m, k, hd⟩
  · exact short_zero
  · rw [Short, hd.ulp_units, hd.units]
    exact Nat.dvd_mul_left _ _

theorem units_lt (h : 0 ≤ a.mantissa) : a.units < 10 ^ 192 := by
  rcases eq_zero_or_digits h with rfl | ⟨m, k, hd⟩
  · exact Nat.pow_pos (by decide)
  calc a.units = m * 10 ^ k := hd.units
    _ < 10 ^ 16 * 10 ^ k := Nat.mul_lt_mul_of_pos_right hd.lt_pow (by positivity)
    _ ≤ 10 ^ 16 * 10 ^ 176 := Nat.mul_le_mul_left _ (Nat.pow_le_pow_right (by decide) hd.place)
    _ = 10 ^ 192 := (pow_add 10 16 176).symm

theorem normalize_sum {q v : ℕ} (hl : minMantissa ≤ m) (hm : m ≤ maxMantissa)
    (hq : q ≤ maxMantissa) (hk : k ≤ 176) (hv : v / 10 ^ k = m + q) :
    (∃ c, normalize (m + q : ℕ) (minExponent + k) = .ok c ∧ 0 ≤ c.mantissa ∧
        c.units = chop 10 15 v) ∨
      (normalize (m + q : ℕ) (minExponent + k) = .error .exception ∧ 10 ^ 192 ≤ chop 10 15 v) := by
  rcases Nat.lt_or_ge maxMantissa (m + q) with hgt | hle
  · have ht : (m + q) / 10 ≤ maxMantissa := by simp only [maxMantissa] at *; omega
    have ht' : 10 ^ 15 ≤ (m + q) / 10 := by simp only [maxMantissa] at *; omega
    have hv' : v / 10 ^ (k + 1) = (m + q) / 10 := by
      rw [pow_succ, ← Nat.div_div_eq_div_mul, hv]
    have hch := chop_eq_of_div (by decide) hv' ht' (Nat.lt_succ_of_le ht)
    rcases hk.lt_or_eq with hk | rfl
    · obtain ⟨c, hc, hd⟩ := normalize_of_gt hgt ht hk
      exact .inl ⟨c, hc, hd.pos.le, hd.units.trans hch.symm⟩
    refine .inr ⟨normalize_of_gt_max hgt rfl, ?_⟩
    calc 10 ^ 192 = 10 ^ 15 * 10 ^ (176 + 1) := by norm_num
      _ ≤ (m + q) / 10 * 10 ^ (176 + 1) := Nat.mul_le_mul_right _ ht'
      _ = chop 10 15 v := hch.symm
  obtain ⟨c, hc, -, -, hd⟩ :=
    normalize_of_le (show 0 < m + q by simp only [minMantissa] at hl; omega) hle hk
  have hd := hd (by omega)
  refine .inl ⟨c, hc, hd.pos.le, hd.units.trans ?_⟩
  exact (chop_eq_of_div (by decide) hv hd.le_pow hd.lt_pow).symm

theorem add_of_digits (ha : a.Digits m k) (hb : b.Digits m' k') (hle : k' ≤ k) :
    (a.units + b.units) / 10 ^ k = m + m' / 10 ^ (k - k') := by
  obtain ⟨d, rfl⟩ := Nat.exists_eq_add_of_le hle
  rw [ha.units, hb.units, Nat.add_sub_cancel_left, Nat.add_comm (_ * _),
    Nat.add_mul_div_right _ _ (by positivity), pow_add, Nat.add_comm m, Nat.mul_comm (10 ^ k'),
    Nat.mul_div_mul_right _ _ (by positivity)]

/-- The sum of amounts that are not negative is their exact sum without the digits behind the first
sixteen, or an exception if that is too large. -/
theorem add_spec (ha : 0 ≤ a.mantissa) (hb : 0 ≤ b.mantissa) :
    (∃ c, a.add b = .ok c ∧ 0 ≤ c.mantissa ∧ c.units = chop 10 15 (a.units + b.units)) ∨
      (a.add b = .error .exception ∧ 10 ^ 192 ≤ chop 10 15 (a.units + b.units)) := by
  rcases eq_zero_or_digits hb with rfl | ⟨_, k', hdb⟩
  · exact .inl ⟨a, if_pos rfl, ha, (chop_of_short (short_units ha)).symm⟩
  rcases eq_zero_or_digits ha with rfl | ⟨m, k, hda⟩
  · refine .inl ⟨b, by rw [add, if_neg hdb.ne_zero, if_pos rfl], hb, ?_⟩
    rw [units_zero, Nat.zero_add, chop_of_short (short_units hb)]
  have hd (x d) (hx) : x / 10 ^ d ≤ maxMantissa :=
    (Nat.div_le_self _ _).trans hx
  rcases Nat.le_total k' k with hle | hle
  · rw [(add_digits hda hdb hle).1]
    exact normalize_sum hda.le hda.ge (hd _ _ hdb.ge) hda.place (add_of_digits hda hdb hle)
  · rw [(add_digits hdb hda hle).2, Nat.add_comm a.units]
    exact normalize_sum hdb.le hdb.ge (hd _ _ hda.ge) hdb.place (add_of_digits hdb hda hle)

theorem neg_of_digits (h : a.Digits m k) :
    ∃ c, a.neg = .ok c ∧ c.mantissa = -m ∧ c.exponent = minExponent + k := by
  obtain ⟨m', _, hup, -, -, -, hs⟩ := scaleUp_spec k m
  obtain ⟨rfl, rfl⟩ := hs h.le
  have hpos : (0 : ℤ) < m' := h.mantissa ▸ h.pos
  have hn : decide (-(m' : ℤ) < 0) = true := decide_eq_true (by omega)
  rw [neg, h.mantissa, h.exponent, normalize_eq (by omega), Int.natAbs_neg, Int.natAbs_natCast, hup,
    hn, scaleDown_of_le h.ge]
  obtain ⟨c, hc, hcm, hce⟩ := finish_of_le true h.le h.ge h.place
  exact ⟨c, (pure_bind _ (finish true)).trans hc, hcm, hce⟩

theorem Digits.place_le (ha : a.Digits m k) (hb : b.Digits m' k') (hle : a.units ≤ b.units) :
    k ≤ k' := by
  by_contra hlt
  rw [not_le] at hlt
  have : b.units < a.units := calc
    b.units = m' * 10 ^ k' := hb.units
    _ < 10 ^ (15 + 1) * 10 ^ k' := Nat.mul_lt_mul_of_pos_right hb.lt_pow (by positivity)
    _ = 10 ^ 15 * 10 ^ (k' + 1) := by ring
    _ ≤ m * 10 ^ k := Nat.mul_le_mul ha.le_pow (Nat.pow_le_pow_right (by decide) hlt)
    _ = a.units := ha.units.symm
  omega

/-- What is left of `a` when `b` is taken: not more than `a` less what `b` has before `a`'s last
digit. -/
theorem exists_sub (ha : 0 ≤ a.mantissa) (hb : 0 ≤ b.mantissa) (hle : b.units ≤ a.units) :
    ∃ r, a.sub b = .ok r ∧ 0 ≤ r.mantissa ∧
      r.units + b.units / ulp 10 15 a.units * ulp 10 15 a.units ≤ a.units := by
  rcases eq_zero_or_digits hb with rfl | ⟨m', k', hdb⟩
  · exact ⟨a, rfl, ha, by simp⟩
  rcases eq_zero_or_digits ha with rfl | ⟨m, k, hda⟩
  · exact absurd hle (by simpa using hdb.units_pos.ne')
  have hk : k' ≤ k := hdb.place_le hda hle
  obtain ⟨c, hc, hcm, _⟩ := neg_of_digits hdb
  have hc0 : c ≠ zero := by
    rintro rfl
    have := hdb.le_pow
    simp only [zero] at hcm
    omega
  have hq : b.units / 10 ^ k = m' / 10 ^ (k - k') := by
    obtain ⟨d, rfl⟩ := Nat.exists_eq_add_of_le hk
    rw [hdb.units, Nat.add_sub_cancel_left, pow_add, Nat.mul_comm (10 ^ k'),
      Nat.mul_div_mul_right _ _ (by positivity)]
  have hqm : m' / 10 ^ (k - k') ≤ m := by
    rw [← hq, ← hda.div_place]
    exact Nat.div_le_div_right hle
  have hs : a.sub b = a.add c := by
    rw [sub, hc]
    exact pure_bind _ _
  have hd : (a.exponent - c.exponent).toNat = k - k' := by rw [hda.exponent]; omega
  have hd' : (c.exponent - a.exponent).toNat = 0 := by rw [hda.exponent]; omega
  have hm : max a.exponent c.exponent = minExponent + k := by
    omega
  rw [hs, hda.ulp_units, hq, add, if_neg hc0, if_neg hda.ne_zero, hd, hd', hm, hda.mantissa, hcm,
    shift, shift_neg, shift_natCast, hda.units]
  generalize m' / 10 ^ (k - k') = q at hqm
  have hca : (m : ℤ) + -(q : ℤ) = (m - q : ℕ) := by omega
  have hto : (m - q) * 10 ^ k + q * 10 ^ k = m * 10 ^ k := by
    rw [← Nat.add_mul, Nat.sub_add_cancel hqm]
  simp only [hca]
  split
  · refine ⟨zero, rfl, le_rfl, ?_⟩
    rw [units_zero, Nat.zero_add]
    exact Nat.mul_le_mul_right _ hqm
  have hge := hda.ge
  obtain ⟨r, hr, hr0, _, -⟩ := normalize_of_le (m := m - q) (by omega) (by omega) hda.place
  exact ⟨r, hr, hr0, by omega⟩

theorem lt_eq (ha : 0 ≤ a.mantissa) (hb : 0 ≤ b.mantissa) :
    a.lt b = decide (a.units < b.units) := by
  have hna : ¬(a.mantissa < 0) := by omega
  have hnb : ¬(b.mantissa < 0) := by omega
  rcases eq_zero_or_digits ha with rfl | ⟨m, k, hda⟩
  · rcases eq_zero_or_digits hb with rfl | ⟨m', k', hdb⟩
    · rfl
    · simp [lt, hdb.pos, hnb, hdb.units_pos]
  rcases eq_zero_or_digits hb with rfl | ⟨m', k', hdb⟩
  · simp [lt, hna]
  have hma : a.mantissa < b.mantissa ↔ m < m' := by rw [hda.mantissa, hdb.mantissa]; omega
  have hpl : b.exponent < a.exponent ↔ k' < k := by rw [hda.exponent, hdb.exponent]; omega
  have hpl' : a.exponent < b.exponent ↔ k < k' := by rw [hda.exponent, hdb.exponent]; omega
  simp only [lt, hna, hnb, hda.pos.ne', hdb.pos.ne', hpl, hpl', hma]
  rcases lt_trichotomy k k' with hk | rfl | hk
  · have : a.units < b.units := by
      by_contra hge
      exact absurd (hdb.place_le hda (not_lt.1 hge)) (by omega)
    simp [this, hk, not_lt.2 hk.le]
  · rw [hda.units, hdb.units]
    simp
  · have : ¬(a.units < b.units) := fun hlt => absurd (hda.place_le hdb hlt.le) (by omega)
    simp [this, hk]

end IOUAmount
end FinPal
