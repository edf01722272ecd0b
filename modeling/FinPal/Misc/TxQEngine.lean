import FinPal.Misc.TxQ
import Mathlib.Data.Fintype.Pi

/-!
# The transaction queue over transactors

The steps the queue takes with a transaction are those of `applySteps.cpp`, for the transactor of
its type. A fault other than an exception ends the process; here it is the code of a caught
exception, which no caller takes for success.
-/

namespace FinPal

instance : Fintype Feature where
  elems := {.multiSign, .escrow, .payChan, .cryptoConditionsSuite}
  complete f := by cases f <;> decide

/-- A transaction with the field that only the queue looks at. -/
structure QueueTx extends STTx where
  previousTxnID : Option TxID := none

/-- A view with what only the queue asks of it. -/
structure QueueView where
  view : OpenView
  feeEscalation : Bool
  txs : List QueueTx := []

/-- The rules of a view: the features of transactors, and fee escalation. -/
abbrev QueueRules := (Feature → Bool) × Bool

namespace QueueView

def bump (v : QueueView) (account : AccountID) (sequence : UInt32) (balance : Int) : QueueView :=
  let key := (keylet.account account).key
  match v.view.entries key, v.view.state.get (keylet.account account) with
  | some sle, some root =>
    let sle := { sle with entry := toEntry { root with sequence, balance } }
    { v with view := { v.view with entries := Function.update v.view.entries key (some sle) } }
  | _, _ => v

end QueueView

/-- What a step returns, or the code of a caught exception. -/
def codeOf : Except Fault TER → TER
  | .ok ter => ter
  | .error _ => .tefEXCEPTION

namespace Engine
variable (app : Application) (T : QueueTx → Transactor) (consequences : QueueTx → TxConsequences)

/-- `invoke_apply` of `applySteps.cpp`. -/
def invokeTransactor (v : QueueView) (tx : QueueTx) (flags : ApplyFlags) (preclaimResult : TER) :
    TER × Bool × QueueView :=
  let baseFee := (T tx).calculateBaseFee v.view.fees tx.toSTTx
  match (T tx).operator { app, view := v.view, tx := tx.toSTTx, flags, baseFee } preclaimResult with
  | .ok o =>
    (o.ter, o.applied, { v with view := o.view, txs := if o.applied then tx :: v.txs else v.txs })
  | .error _ => (.tefEXCEPTION, false, v)

def ofTransactors : Engine QueueView QueueTx QueueRules where
  account tx := tx.account
  sequence tx := tx.sequence.toNat
  fee tx := tx.fee.drops.toOption.getD 0
  lastLedgerSequence tx := tx.lastLedgerSequence
  hasPreviousTxnID tx := tx.previousTxnID.isSome
  hasAccountTxnID tx := tx.accountTxnID.isSome
  consequences := consequences
  rules v := (v.view.enabled, v.feeEscalation)
  feeEscalation rules := rules.2
  seq v := v.view.seq
  txCount v := v.txs.length
  txs v := v.txs
  accountRoot v account := (v.view.state.get (keylet.account account)).map fun root =>
    (root.sequence.toNat, root.balance)
  accountReserve v := v.view.fees.accountReserve 0
  calculateBaseFee v tx := (T tx).calculateBaseFee v.view.fees tx.toSTTx
  preflight rules tx flags := codeOf ((T tx).preflight ⟨app, tx.toSTTx, rules.1, flags⟩)
  invokePreclaim v tx flags := codeOf (FinPal.invokePreclaim (T tx) ⟨app, v.view, tx.toSTTx, flags⟩)
  invokeApply := invokeTransactor app T
  testView v account sequence balance := v.bump account (.ofNat sequence) balance
  sandbox v := { v with txs := [] }
  applySandbox sandbox v := { sandbox with txs := sandbox.txs ++ v.txs }

end Engine
end FinPal
