import FinPal.Protocol.Indexes

/-!
# Variable length integers

`read_varint`, `size_varint` and `write_varint` of `nodestore/impl/varint.h`. A buffer is the list of
its bytes below the given length, and a read behind them is a fault (`none`).
-/

namespace FinPal.Varint

/-- The number with the digits, the least significant first. -/
def value : Blob → ℕ := List.foldr (fun d t => t * 127 + (d &&& 0x7f).toNat) 0

/-! ## What is written -/

/-- A digit, as the last one and with the mark of those before. -/
theorem digit : ∀ d < 127, (UInt8.ofNat d &&& 0x80 = 0 ∧ (UInt8.ofNat d &&& 0x7f).toNat = d ∧
    (UInt8.ofNat d = 0 → d = 0)) ∧ (UInt8.ofNat d ||| 0x80) &&& 0x80 ≠ 0 ∧
      ((UInt8.ofNat d ||| 0x80) &&& 0x7f).toNat = d := by
  decide

/-- A digit string: the high bit is set in all bytes but the last. -/
def Digits (ds : Blob) : Prop :=
  ∃ init last, ds = init ++ [last] ∧ (∀ b ∈ init, b &&& 0x80 ≠ 0) ∧ last &&& 0x80 = 0

end FinPal.Varint
