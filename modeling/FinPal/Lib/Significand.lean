import Mathlib.Data.Nat.Log
import Mathlib.Tactic.Ring

/-!
# Truncation to leading digits

A number is cut after its `p + 1` leading digits in base `b`. A sum that is cut at every step
depends on the order of its terms, but stays within a cap when each new term fits into what is left
(`chopSum_insert_le`).
-/

namespace FinPal

/-- The place of the last digit that is kept of `v`. -/
def ulp (b p v : ℕ) : ℕ := b ^ (Nat.log b v - p)

/-- `v` without the digits behind the first `p + 1`. -/
def chop (b p v : ℕ) : ℕ := v / ulp b p v * ulp b p v

/-- All digits of `v` are kept. -/
def Short (b p v : ℕ) : Prop := ulp b p v ∣ v

/-- The sum of `l` from `s` on, cut after each term. -/
def chopSum (b p s : ℕ) (l : List ℕ) : ℕ := l.foldl (fun s x => chop b p (s + x)) s

variable {b p : ℕ}

section Chop
variable {v w s s' f q x : ℕ}

theorem ulp_dvd_ulp (h : v ≤ w) : ulp b p v ∣ ulp b p w :=
  Nat.pow_dvd_pow _ (Nat.sub_le_sub_right (Nat.log_mono_right h) _)

theorem chop_le : chop b p v ≤ v := Nat.div_mul_le_self _ _

theorem ulp_dvd_chop : ulp b p v ∣ chop b p v := Nat.dvd_mul_left _ _

theorem le_chop (hd : ulp b p v ∣ w) (h : w ≤ v) : w ≤ chop b p v := by
  obtain ⟨k, rfl⟩ := hd
  rw [Nat.mul_comm]
  rcases Nat.eq_zero_or_pos (ulp b p v) with hu | hu
  · simp [hu]
  · exact Nat.mul_le_mul_right _ ((Nat.le_div_iff_mul_le hu).2 (by rwa [Nat.mul_comm]))

theorem chop_of_short (h : Short b p v) : chop b p v = v := Nat.div_mul_cancel h

@[simp] theorem short_zero : Short b p 0 := dvd_zero _

@[simp] theorem chop_zero : chop b p 0 = 0 := by simp [chop]

theorem ulp_pos (hb : 1 < b) : 0 < ulp b p v := Nat.pow_pos (by omega)

theorem pow_log_le_chop (hv : v ≠ 0) : b ^ Nat.log b v ≤ chop b p v :=
  le_chop (Nat.pow_dvd_pow _ (Nat.sub_le _ _)) (Nat.pow_log_le_self b hv)

theorem ulp_chop (hb : 1 < b) : ulp b p (chop b p v) = ulp b p v := by
  rcases eq_or_ne v 0 with rfl | hv
  · simp
  have hl : Nat.log b (chop b p v) = Nat.log b v :=
    Nat.log_eq_of_pow_le_of_lt_pow (pow_log_le_chop hv)
      (chop_le.trans_lt (Nat.lt_pow_succ_log_self hb v))
  rw [ulp, hl, ulp]

theorem short_chop (hb : 1 < b) : Short b p (chop b p v) := by
  rw [Short, ulp_chop hb]
  exact ulp_dvd_chop

theorem chop_mono (hb : 1 < b) (h : v ≤ w) : chop b p v ≤ chop b p w := by
  rcases (Nat.log_mono_right h).eq_or_lt with heq | hlt
  · have hu : ulp b p v = ulp b p w := by rw [ulp, heq, ulp]
    refine le_chop ?_ (chop_le.trans h)
    exact hu ▸ ulp_dvd_chop
  have hw : w ≠ 0 := by
    rintro rfl
    simp at hlt
  calc chop b p v ≤ v := chop_le
    _ ≤ b ^ (Nat.log b v + 1) := (Nat.lt_pow_succ_log_self hb v).le
    _ ≤ b ^ Nat.log b w := Nat.pow_le_pow_right (by omega) hlt
    _ ≤ chop b p w := pow_log_le_chop hw

theorem le_chop_of_short (hb : 1 < b) (hs : Short b p w) (h : w ≤ v) : w ≤ chop b p v :=
  (chop_of_short hs).symm.le.trans (chop_mono hb h)

theorem ulp_eq_of_div {k m : ℕ} (hb : 1 < b) (h : v / b ^ k = m) (hl : b ^ p ≤ m)
    (hu : m < b ^ (p + 1)) : ulp b p v = b ^ k := by
  have hk : 0 < b ^ k := Nat.pow_pos (by omega)
  have hge : b ^ (p + k) ≤ v := by
    rw [pow_add, ← Nat.le_div_iff_mul_le hk, h]
    exact hl
  have hlt : v < b ^ (p + k + 1) := by
    rw [Nat.add_right_comm, pow_add, ← Nat.div_lt_iff_lt_mul hk, h]
    exact hu
  rw [ulp, Nat.log_eq_of_pow_le_of_lt_pow hge hlt, Nat.add_sub_cancel_left]

theorem chop_eq_of_div {k m : ℕ} (hb : 1 < b) (h : v / b ^ k = m) (hl : b ^ p ≤ m)
    (hu : m < b ^ (p + 1)) : chop b p v = m * b ^ k := by
  rw [chop, ulp_eq_of_div hb h hl hu, h]

theorem chop_add_lt (hb : 1 < b) (hs : Short b p s) (hs' : Short b p s') (hle : s ≤ s')
    (hlt : s' < s + f + ulp b p s) :
    chop b p (s' + q) < chop b p (s + q) + f + ulp b p (chop b p (s + q)) := by
  rw [ulp_chop hb]
  set u := ulp b p s
  have hu : 0 < u := ulp_pos hb
  have hd' : u ∣ s' := (ulp_dvd_ulp hle).trans hs'
  -- both sums lose what `q` has behind the place `u`
  have hup : chop b p (s' + q) ≤ s' + q / u * u := by
    have hd : u ∣ chop b p (s' + q) :=
      (ulp_dvd_ulp (hle.trans (Nat.le_add_right s' q))).trans ulp_dvd_chop
    refine Nat.le_of_lt_add_of_dvd ?_ hd (Nat.dvd_add hd' (Nat.dvd_mul_left _ _))
    exact (chop_le.trans_lt (Nat.add_lt_add_left (Nat.lt_div_mul_add hu) s')).trans_eq
      (Nat.add_assoc ..).symm
  have hdown : s + q / u * u + u ≤ chop b p (s + q) + ulp b p (s + q) := by
    have hd : u ∣ ulp b p (s + q) := ulp_dvd_ulp (Nat.le_add_right s q)
    refine Nat.le_of_lt_add_of_dvd ?_ (Nat.dvd_add (Nat.dvd_add hs (Nat.dvd_mul_left _ _)) dvd_rfl)
      (Nat.dvd_add (hd.trans ulp_dvd_chop) hd)
    have : s + q < chop b p (s + q) + ulp b p (s + q) := Nat.lt_div_mul_add (ulp_pos hb)
    have := Nat.div_mul_le_self q u
    omega
  omega

end Chop

section Sum
variable {s s' f cap : ℕ} {l l1 l2 : List ℕ}

@[simp] theorem chopSum_cons {x : ℕ} :
    chopSum b p s (x :: l) = chopSum b p (chop b p (s + x)) l := rfl

theorem chopSum_append : chopSum b p s (l1 ++ l2) = chopSum b p (chopSum b p s l1) l2 :=
  List.foldl_append

section
variable (hb : 1 < b) (hs : Short b p s)
include hb hs

theorem short_chopSum : Short b p (chopSum b p s l) := by
  induction l generalizing s with
  | nil => exact hs
  | cons x l ih => exact ih (short_chop hb)

theorem chopSum_lt (hs' : Short b p s') (hle : s ≤ s') (hlt : s' < s + f + ulp b p s) :
    chopSum b p s' l < chopSum b p s l + f + ulp b p (chopSum b p s l) := by
  induction l generalizing s s' with
  | nil => exact hlt
  | cons x l ih =>
    exact ih (short_chop hb) (short_chop hb) (chop_mono hb (Nat.add_le_add_right hle x))
      (chop_add_lt hb hs hs' hle hlt)

theorem le_chopSum : s ≤ chopSum b p s l := by
  induction l generalizing s with
  | nil => exact le_rfl
  | cons x l ih => exact (le_chop_of_short hb hs (Nat.le_add_right s x)).trans (ih (short_chop hb))

theorem chopSum_insert_lt : chopSum b p s (l1 ++ f :: l2) <
      chopSum b p s (l1 ++ l2) + f + ulp b p (chopSum b p s (l1 ++ l2)) := by
  rw [chopSum_append, chopSum_append, chopSum_cons]
  have hm : Short b p (chopSum b p s l1) := short_chopSum hb hs
  refine chopSum_lt hb hm (short_chop hb) (le_chop_of_short hb hm (Nat.le_add_right _ _)) ?_
  exact chop_le.trans_lt (Nat.lt_add_of_pos_right (ulp_pos hb))

/-- What is left of a cap is the cap less the sum, cut at the cap's last place; a term that fits
keeps the sum within the cap. -/
theorem chopSum_insert_le (hc : Short b p cap) (hle : chopSum b p s (l1 ++ l2) ≤ cap)
    (hf : f + chopSum b p s (l1 ++ l2) / ulp b p cap * ulp b p cap ≤ cap) :
    chopSum b p s (l1 ++ f :: l2) ≤ cap := by
  by_contra hgt
  rw [not_le] at hgt
  have hlt : chopSum b p s (l1 ++ f :: l2) <
      chopSum b p s (l1 ++ l2) + f + ulp b p (chopSum b p s (l1 ++ l2)) := chopSum_insert_lt hb hs
  have hS : Short b p (chopSum b p s (l1 ++ l2)) := short_chopSum hb hs
  have hS' : Short b p (chopSum b p s (l1 ++ f :: l2)) := short_chopSum hb hs
  generalize chopSum b p s (l1 ++ l2) = S at *
  generalize chopSum b p s (l1 ++ f :: l2) = S' at *
  set u := ulp b p cap
  have hSu : ulp b p S ∣ u := ulp_dvd_ulp hle
  -- `S` and the next multiple of the cap's last place are multiples of the sum's
  have hnext : S + ulp b p S ≤ S / u * u + u := by
    refine Nat.le_of_lt_add_of_dvd ?_ (Nat.dvd_add hS dvd_rfl)
      (Nat.dvd_add (hSu.trans (Nat.dvd_mul_left _ _)) hSu)
    have hu : 0 < u := ulp_pos hb
    have := Nat.lt_div_mul_add (a := S) hu
    omega
  have hS'u : u ∣ S' := (ulp_dvd_ulp hgt.le).trans hS'
  have : S' ≤ cap := Nat.le_of_lt_add_of_dvd (by omega) hS'u hc
  omega

end
end Sum
end FinPal
