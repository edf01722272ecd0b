import FinPal.Misc.FeeMetrics

/-!
# Fees under load

`scaleFeeLoad` (`app/misc/impl/LoadFeeTrack.cpp`) scales a fee by the base fee and by a load factor,
in 64 bits.
-/

namespace FinPal

/-- Scale factors; `lftNormalFee` is the normal one. -/
structure LoadFeeTrack where
  localTxnLoadFee : UInt32
  remoteTxnLoadFee : UInt32
  clusterTxnLoadFee : UInt32

namespace LoadFeeTrack

def lftNormalFee : ℕ := 256

def getScalingFactors (feeTrack : LoadFeeTrack) : UInt32 × UInt32 :=
  (max feeTrack.localTxnLoadFee feeTrack.remoteTxnLoadFee,
    max feeTrack.remoteTxnLoadFee feeTrack.clusterTxnLoadFee)

/-- The factor that `scaleFeeLoad` takes; four times the remote one may wrap. -/
def feeFactor (feeTrack : LoadFeeTrack) (bUnlimited : Bool) : UInt32 :=
  let (feeFactor, uRemFee) := feeTrack.getScalingFactors
  if bUnlimited ∧ uRemFee < feeFactor ∧ feeFactor < 4 * uRemFee then uRemFee else feeFactor

inductive Fault
  | overflowError (what : String)
  | divideByZero
  deriving DecidableEq

/-- The loop of `lowestTerms`. -/
def euclid (x y : ℕ) : ℕ := if _ : y = 0 then x else euclid y (x % y)
termination_by y
decreasing_by exact Nat.mod_lt x (Nat.pos_of_ne_zero ‹_›)

def lowestTerms (a b : ℕ) : ℕ × ℕ :=
  if a = 0 ∧ b = 0 then (a, b) else (a / euclid a b, b / euclid a b)

/-- `fee * baseFee * feeFactor / den`. -/
structure Terms where
  fee : ℕ
  baseFee : ℕ
  feeFactor : ℕ
  den : ℕ

def div (a b : ℕ) : Except Fault ℕ := if b = 0 then .error .divideByZero else .ok (a / b)

/-- The last product, before or after the division. -/
def mulDen (fee baseFee den : ℕ) : Except Fault ℕ := do
  if (← div maxUInt64 baseFee) < fee then
    let fee ← div fee den
    if (← div maxUInt64 baseFee) < fee then throw (.overflowError "scaleFeeLoad")
    return fee * baseFee % 2 ^ 64
  else div (fee * baseFee % 2 ^ 64) den

namespace Terms

def reduce (t : Terms) : Terms :=
  let (fee, den) := lowestTerms t.fee t.den
  let (baseFee, den) := lowestTerms t.baseFee den
  let (feeFactor, den) := lowestTerms t.feeFactor den
  { fee, baseFee, feeFactor, den }

/-- The part of `scaleFeeLoad` after the fraction is reduced. `fee` and `baseFee` are swapped twice,
the larger one to be first. -/
def scale (t : Terms) : Except Fault ℕ := do
  let fee := max t.fee t.baseFee
  let baseFee := min t.fee t.baseFee
  if (← div maxUInt64 t.feeFactor) < baseFee then throw (.overflowError "scaleFeeLoad")
  let baseFee := baseFee * t.feeFactor % 2 ^ 64
  mulDen (max fee baseFee) (min fee baseFee) t.den

end Terms

/-- Of the fees `base` and `units` are read. -/
def terms (fee : UInt64) (feeTrack : LoadFeeTrack) (base : UInt64) (units : UInt32)
    (bUnlimited : Bool) : Terms where
  fee := fee.toNat
  baseFee := base.toNat
  feeFactor := (feeTrack.feeFactor bUnlimited).toNat
  den := units.toNat * lftNormalFee

def scaleFeeLoad (fee : UInt64) (feeTrack : LoadFeeTrack) (base : UInt64) (units : UInt32)
    (bUnlimited : Bool) : Except Fault ℕ :=
  if fee = 0 then .ok 0 else (terms fee feeTrack base units bUnlimited).reduce.scale

end LoadFeeTrack
end FinPal
