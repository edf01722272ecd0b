import FinPal.Misc.LoadFeeTrack

/-!
# When a scaled fee is exact
-/

namespace FinPal
namespace LoadFeeTrack

theorem euclid_eq_gcd (x y : ℕ) : euclid x y = Nat.gcd y x := by
  fun_induction euclid x y with
  | case1 x => exact (Nat.gcd_zero_left x).symm
  | case2 x y h ih => rw [ih, ← Nat.gcd_rec]

theorem lowestTerms_spec (a : ℕ) {b : ℕ} (hb : 0 < b) :
    ∃ g, 0 < g ∧ a = (lowestTerms a b).1 * g ∧ b = (lowestTerms a b).2 * g := by
  refine ⟨_, Nat.gcd_pos_of_pos_left a hb, ?_⟩
  rw [lowestTerms, if_neg (by omega), euclid_eq_gcd]
  exact ⟨(Nat.div_mul_cancel (Nat.gcd_dvd_right b a)).symm,
    (Nat.div_mul_cancel (Nat.gcd_dvd_left b a)).symm⟩

theorem mulDen_eq {fee baseFee den : ℕ} (hb : 0 < baseFee) (hd : 0 < den) : mulDen fee baseFee den =
      if fee * baseFee ≤ maxUInt64 then .ok (fee * baseFee / den)
      else if maxUInt64 < fee / den * baseFee then .error (.overflowError "scaleFeeLoad")
      else .ok (fee / den * baseFee) := by
  have hdb : div maxUInt64 baseFee = .ok (maxUInt64 / baseFee) := if_neg hb.ne'
  have hdd (a : ℕ) : div a den = .ok (a / den) := if_neg hd.ne'
  have hm {a : ℕ} (h : ¬maxUInt64 < a) : a % 2 ^ 64 = a :=
    Nat.mod_eq_of_lt (by rw [maxUInt64] at h; omega)
  simp only [mulDen, hdb, hdd, bind, Except.bind, Nat.div_lt_iff_lt_mul hb, pure, Except.pure]
  split
  case isTrue h =>
    rw [if_neg h.not_ge]
    split
    · rfl
    case isFalse h => rw [hm h]
  case isFalse h => rw [if_pos (not_lt.1 h), hm h]

namespace Terms
variable {t : Terms}

/-- The scaled fee, in natural numbers. -/
def quotient (t : Terms) : ℕ := t.fee * t.baseFee * t.feeFactor / t.den

theorem reduce_spec (hd : 0 < t.den) : ∃ g1 g2 g3, 0 < g1 ∧ 0 < g2 ∧ 0 < g3 ∧
    t.fee = t.reduce.fee * g1 ∧ t.baseFee = t.reduce.baseFee * g2 ∧
      t.feeFactor = t.reduce.feeFactor * g3 ∧ t.den = t.reduce.den * (g1 * g2 * g3) := by
  obtain ⟨g1, h1, hf, hd1⟩ := lowestTerms_spec t.fee hd
  have hp : 0 < (lowestTerms t.fee t.den).2 := Nat.pos_of_mul_pos_right (hd1 ▸ hd)
  obtain ⟨g2, h2, hb, hd2⟩ := lowestTerms_spec t.baseFee hp
  obtain ⟨g3, h3, hc, hd3⟩ := lowestTerms_spec t.feeFactor (Nat.pos_of_mul_pos_right (hd2 ▸ hp))
  refine ⟨g1, g2, g3, h1, h2, h3, hf, hb, hc, ?_⟩
  rw [mul_comm (g1 * g2), mul_comm g1, ← mul_assoc, ← mul_assoc]
  exact hd1.trans (congrArg (· * g1) (hd2.trans (congrArg (· * g2) hd3)))

theorem quotient_reduce (hd : 0 < t.den) : t.reduce.quotient = t.quotient := by
  obtain ⟨g1, g2, g3, h1, h2, h3, hf, hb, hc, hden⟩ := reduce_spec hd
  have hn : t.fee * t.baseFee * t.feeFactor =
      t.reduce.fee * t.reduce.baseFee * t.reduce.feeFactor * (g1 * g2 * g3) := by
    nth_rewrite 1 [hf, hb, hc]
    ac_rfl
  rw [quotient, quotient, hn, hden,
    Nat.mul_div_mul_right _ _ (Nat.mul_pos (Nat.mul_pos h1 h2) h3)]

/-- The larger and the smaller factor of the last product. -/
def factors (t : Terms) : ℕ × ℕ :=
  let fee := max t.fee t.baseFee
  let product := min t.fee t.baseFee * t.feeFactor
  (max fee product, min fee product)

theorem factors_mul (t : Terms) : t.factors.1 * t.factors.2 = t.fee * t.baseFee * t.feeFactor := by
  rw [factors, max_mul_min, ← mul_assoc, max_mul_min]

theorem scale_eq (hd : 0 < t.den) (hf : 0 < t.fee) (hc : 0 < t.feeFactor) : t.scale =
      if maxUInt64 < min t.fee t.baseFee * t.feeFactor then .error (.overflowError "scaleFeeLoad")
      else if t.baseFee = 0 then .error .divideByZero
      else if t.fee * t.baseFee * t.feeFactor ≤ maxUInt64 then .ok t.quotient
      else if maxUInt64 < t.factors.1 / t.den * t.factors.2 then
        .error (.overflowError "scaleFeeLoad") else .ok (t.factors.1 / t.den * t.factors.2) := by
  rw [scale, div, if_neg hc.ne']
  simp only [Nat.div_lt_iff_lt_mul hc, bind, Except.bind]
  split
  · rfl
  case isFalse hm =>
    rw [Nat.mod_eq_of_lt (by rw [maxUInt64] at hm; omega)]
    split
    case isTrue hb => simp [hb, mulDen, div, bind, Except.bind]
    case isFalse hb =>
      have hp : 0 < t.factors.2 := lt_min (lt_max_of_lt_left hf)
        (Nat.mul_pos (lt_min hf (Nat.pos_of_ne_zero hb)) hc)
      have h := @mulDen_eq t.factors.1 _ _ hp hd
      rwa [factors_mul] at h

/-- The first product fits, and the division is last or leaves too little. -/
def Exact (t : Terms) : Prop :=
  min t.fee t.baseFee * t.feeFactor ≤ maxUInt64 ∧
    (t.fee * t.baseFee * t.feeFactor ≤ maxUInt64 ∨ t.factors.1 % t.den * t.factors.2 < t.den)

instance (t : Terms) : Decidable t.Exact := inferInstanceAs (Decidable (_ ∧ _))

theorem scale_iff (hd : 0 < t.den) (hf : 0 < t.fee) (hc : 0 < t.feeFactor) :
    t.scale ≠ .error .divideByZero ∧ (t.quotient ≤ maxUInt64 → t.scale = .ok t.quotient) ↔
      0 < t.baseFee ∧ (maxUInt64 < t.quotient ∨ t.Exact) := by
  have hq : t.quotient = t.factors.1 / t.den * t.factors.2 +
      t.factors.1 % t.den * t.factors.2 / t.den := by
    rw [quotient, ← factors_mul, ← Nat.mul_add_div hd, ← mul_assoc, ← add_mul, Nat.div_add_mod]
  rw [scale_eq hd hf hc, Exact, ← Nat.div_eq_zero_iff_lt hd]
  grind

end Terms
end LoadFeeTrack

open LoadFeeTrack

/-- `scaleFeeLoad` gives the quotient wherever it fits exactly if, for a fee that is not zero, the
base is not zero either and the reduced products are exact. -/
theorem scaleFeeLoad_exact_iff (fee : UInt64) (feeTrack : LoadFeeTrack) (base : UInt64)
    (units : UInt32) (bUnlimited : Bool) (hfactor : 0 < feeTrack.feeFactor bUnlimited)
    (hunits : 0 < units) :
    let t := terms fee feeTrack base units bUnlimited
    let scaled := scaleFeeLoad fee feeTrack base units bUnlimited
    scaled ≠ .error .divideByZero ∧ (t.quotient ≤ maxUInt64 → scaled = .ok t.quotient) ↔
      fee = 0 ∨ base ≠ 0 ∧ (maxUInt64 < t.quotient ∨ t.reduce.Exact) := by
  intro t scaled
  have hfac : 0 < t.feeFactor := UInt32.lt_iff_toNat_lt.1 hfactor
  have hden : 0 < t.den := Nat.mul_pos (UInt32.lt_iff_toNat_lt.1 hunits) (by decide)
  by_cases hfee : fee = 0
  · simp [scaled, scaleFeeLoad, hfee, t, terms, Terms.quotient]
  obtain ⟨g1, g2, g3, -, h2, -, hf, hb, hc, hd⟩ := Terms.reduce_spec hden
  have hp : 0 < t.fee := Nat.pos_of_ne_zero fun h => hfee (UInt64.toNat_inj.1 h)
  have hba : base ≠ 0 ↔ 0 < t.reduce.baseFee := by
    rw [Nat.pos_iff_ne_zero, not_iff_not, ← UInt64.toNat_inj, UInt64.toNat_zero,
      show base.toNat = t.reduce.baseFee * g2 from hb, Nat.mul_eq_zero, or_iff_left h2.ne']
  rw [show scaled = t.reduce.scale from if_neg hfee, ← Terms.quotient_reduce hden,
    or_iff_right hfee, hba]
  exact Terms.scale_iff (Nat.pos_of_mul_pos_right (hd ▸ hden))
    (Nat.pos_of_mul_pos_right (hf ▸ hp)) (Nat.pos_of_mul_pos_right (hc ▸ hfac))

/-- Four times the usual load. -/
theorem scaleFeeLoad_exact_iff_sample : scaleFeeLoad 10 ⟨1024, 256, 256⟩ 10 10 false = .ok 40 := by
  have h := (scaleFeeLoad_exact_iff 10 ⟨1024, 256, 256⟩ 10 10 false (by decide) (by decide)).2
    (.inr ⟨by decide, .inr ?_⟩)
  · exact h.2 (by decide)
  · simp only [Terms.reduce, lowestTerms, euclid_eq_gcd]
    decide

/-- Without a base fee there is a division by zero. -/
theorem scaleFeeLoad_fails : scaleFeeLoad 10 ⟨256, 256, 256⟩ 0 10 false = .error .divideByZero := by
  rw [scaleFeeLoad, if_neg (by decide), Terms.reduce]
  simp only [lowestTerms, euclid_eq_gcd]
  decide

end FinPal
