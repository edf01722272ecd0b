import FinPal.Protocol.Amount
import Mathlib.Data.List.Sort

/-!
# Fee levels and fee escalation

The arithmetic of the transaction queue (`app/misc/TxQ.h`, `app/misc/impl/TxQ.cpp`): what a
transaction pays relative to the base fee, and the level an open ledger with more transactions than
expected demands. Levels are 64-bit numbers.
-/

namespace FinPal

def maxUInt64 : ℕ := 2 ^ 64 - 1

/-- The product is taken in 128 bits, and a quotient that is too large is clipped and flagged. -/
def mulDiv (value mul div : ℕ) : Bool × ℕ :=
  if maxUInt64 < value * mul / div then (false, maxUInt64) else (true, value * mul / div)

namespace TxQ

def baseLevel : ℕ := 256

structure Setup where
  ledgersInQueue : ℕ := 20
  retrySequencePercent : UInt32 := 25
  multiTxnPercent : Int32 := -90
  minimumEscalationMultiplier : ℕ := baseLevel * 500
  minimumTxnInLedger : ℕ := 500
  minimumTxnInLedgerSA : ℕ := 1000
  targetTxnInLedger : ℕ := 50
  maximumTxnInLedger : Option ℕ := none
  maximumTxnPerAccount : ℕ := 10
  minimumLastLedgerBuffer : UInt32 := 2
  zeroBaseFeeTransactionFeeLevel : ℕ := 256000
  standAlone : Bool := false

def getFeeLevelPaid (feePaid baseRefLevel refTxnCostDrops : ℕ) (setup : Setup) : ℕ :=
  if refTxnCostDrops = 0 then setup.zeroBaseFeeTransactionFeeLevel
  else (mulDiv feePaid baseRefLevel refTxnCostDrops).2

/-- The percentage is unsigned here: a negative one wraps, and the sum wraps back. -/
def increase (level : ℕ) (increasePercent : UInt32) : ℕ :=
  (mulDiv level (100 + increasePercent).toNat 100).2

structure FeeMetrics where
  minimumTxnCount : ℕ
  targetTxnCount : ℕ
  maximumTxnCount : Option ℕ
  txnsExpected : ℕ
  minimumMultiplier : ℕ
  escalationMultiplier : ℕ

namespace FeeMetrics

def new (setup : Setup) : FeeMetrics :=
  let minimumTxnCount := if setup.standAlone then setup.minimumTxnInLedgerSA
    else setup.minimumTxnInLedger
  let targetTxnCount := max setup.targetTxnInLedger minimumTxnCount
  { minimumTxnCount
    targetTxnCount
    maximumTxnCount := setup.maximumTxnInLedger.map (max · targetTxnCount)
    txnsExpected := minimumTxnCount
    minimumMultiplier := setup.minimumEscalationMultiplier
    escalationMultiplier := setup.minimumEscalationMultiplier }

/-- `update`, from the fee levels of the transactions in the closed ledger. -/
def update (m : FeeMetrics) (feeLevels : List ℕ) (timeLeap : Bool) : FeeMetrics :=
  let size := feeLevels.length
  let feeLevels := feeLevels.insertionSort (· ≤ ·)
  let txnsExpected :=
    if timeLeap then max m.minimumTxnCount (min size m.targetTxnCount)
    else if m.txnsExpected < size ∨ m.targetTxnCount < size then
      match m.maximumTxnCount with
      | some maximum => min size maximum
      | none => size
    else m.txnsExpected
  let escalationMultiplier :=
    if size = 0 then m.minimumMultiplier
    else max ((feeLevels.getD (size / 2) 0 + feeLevels.getD ((size - 1) / 2) 0 + 1) % 2 ^ 64 / 2)
      m.minimumMultiplier
  { m with txnsExpected, escalationMultiplier }

/-- The division throws if nothing is expected. -/
def scaleFeeLevel (m : FeeMetrics) (txCount : ℕ) : Except Fault ℕ :=
  if m.txnsExpected < txCount then
    let target := m.txnsExpected * m.txnsExpected % 2 ^ 64
    if target = 0 then .error .exception
    else .ok (mulDiv m.escalationMultiplier (txCount * txCount % 2 ^ 64) target).2
  else .ok baseLevel

def sumOfFirstSquares (x : ℕ) : Bool × ℕ :=
  if 2 ^ 21 ≤ x then (false, maxUInt64) else
    (true, x * (x + 1) % 2 ^ 64 * (2 * x + 1) % 2 ^ 64 / 6)

/-- `escalatedSeriesFeeLevel`, for a series that starts at `current` transactions. Sizes and sums
wrap. -/
def escalatedSeriesFeeLevel (m : FeeMetrics) (current seriesSize : ℕ) : Bool × ℕ :=
  let last := (current + seriesSize - 1) % 2 ^ 64
  let sumNlast := sumOfFirstSquares last
  let sumNcurrent := sumOfFirstSquares (current - 1)
  if !sumNlast.1 then sumNlast
  else mulDiv m.escalationMultiplier ((sumNlast.2 + 2 ^ 64 - sumNcurrent.2) % 2 ^ 64)
    (m.txnsExpected * m.txnsExpected % 2 ^ 64)

end FeeMetrics
end TxQ
end FinPal
