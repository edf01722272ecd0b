import Mathlib.Tactic.Ring

/-!
# Numbers as bytes, the most significant one first
-/

namespace BigEndian

/-- The last `w` bytes of `n`. -/
def bytes : ℕ → ℕ → List UInt8
  | 0, _ => []
  | w + 1, n => bytes w (n / 256) ++ [.ofNat n]

def value (s : List UInt8) : ℕ := s.foldl (fun n b => n * 256 + b.toNat) 0

theorem length_bytes (w n : ℕ) : (bytes w n).length = w := by
  induction w generalizing n with
  | zero => rfl
  | succ w ih => rw [bytes, List.length_append, ih, List.length_singleton]

theorem value_bytes (w n : ℕ) : value (bytes w n) = n % 256 ^ w := by
  induction w generalizing n with
  | zero => exact (Nat.mod_one n).symm
  | succ w ih =>
    rw [value, bytes, List.foldl_append, ← value, ih, pow_succ', Nat.mod_mul]
    simp only [List.foldl_cons, List.foldl_nil, UInt8.toNat_ofNat']
    omega

end BigEndian
