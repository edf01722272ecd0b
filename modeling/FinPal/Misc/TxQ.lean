import FinPal.Lib.OrderedMap
import FinPal.Lib.RankIndex
import FinPal.Misc.FeeMetrics
import FinPal.Tx.Transactor

/-!
# The transaction queue

Transactions that pay too little for the open ledger wait in the queue (`app/misc/TxQ.h`,
`app/misc/impl/TxQ.cpp`). A `MaybeTx` is stored in the map of its account, by sequence; `byFee`
links the same objects by falling fee level.

What the queue asks of transactions, views and their processing is an `Engine`. Sequences are
natural numbers: none is stepped past the last 32-bit one.
-/

namespace FinPal
open Std (TreeMap)

/-- What an account's transaction can do to the account. -/
structure TxConsequences where
  blocker : Bool
  fee : Int
  potentialSpend : Int

/-- `PreflightResult`, without the transaction it is kept with. -/
structure PreflightResult (Rules : Type) where
  rules : Rules
  ter : TER

/-- Transactions, views and the steps of applying one to the other. -/
structure Engine (View Tx Rules : Type) where
  account : Tx → AccountID
  sequence : Tx → ℕ
  fee : Tx → Int
  lastLedgerSequence : Tx → Option UInt32
  hasPreviousTxnID : Tx → Bool
  hasAccountTxnID : Tx → Bool
  consequences : Tx → TxConsequences
  rules : View → Rules
  feeEscalation : Rules → Bool
  seq : View → UInt32
  txCount : View → ℕ
  txs : View → List Tx
  /-- Sequence and balance. -/
  accountRoot : View → AccountID → Option (ℕ × Int)
  accountReserve : View → Int
  calculateBaseFee : View → Tx → ℕ
  preflight : Rules → Tx → ApplyFlags → TER
  invokePreclaim : View → Tx → ApplyFlags → TER
  /-- Takes the result of preclaim. -/
  invokeApply : View → Tx → ApplyFlags → TER → TER × Bool × View
  /-- The view with another sequence and balance of an account. -/
  testView : View → AccountID → ℕ → Int → View
  /-- An empty open ledger over a view. -/
  sandbox : View → View
  /-- The view with the changes of a sandbox over it. -/
  applySandbox : (sandbox view : View) → View

namespace Engine
variable {View Tx Rules : Type} [DecidableEq Rules] (E : Engine View Tx Rules)

def preclaim (pf : PreflightResult Rules) (tx : Tx) (flags : ApplyFlags) (view : View) : TER :=
  let ter := if pf.rules ≠ E.rules view then E.preflight (E.rules view) tx flags else pf.ter
  if ter ≠ .tesSUCCESS then ter else E.invokePreclaim view tx flags

def likelyToClaimFee (ter : TER) : Bool := ter = .tesSUCCESS ∨ ter.isTecClaim

def doApply (preclaimResult : TER) (tx : Tx) (flags : ApplyFlags) (view : View) :
    TER × Bool × View :=
  if likelyToClaimFee preclaimResult then E.invokeApply view tx flags preclaimResult
  else (preclaimResult, false, view)

def preflightResult (tx : Tx) (flags : ApplyFlags) (view : View) : PreflightResult Rules :=
  ⟨E.rules view, E.preflight (E.rules view) tx flags⟩

/-- `apply` of `apply.cpp`. -/
def apply (view : View) (tx : Tx) (flags : ApplyFlags) : TER × Bool × View :=
  E.doApply (E.preclaim (E.preflightResult tx flags view) tx flags view) tx flags view

def calculateConsequences (pf : PreflightResult Rules) (tx : Tx) : TxConsequences :=
  if pf.ter ≠ .tesSUCCESS then ⟨true, E.fee tx, 0⟩ else E.consequences tx

def feeLevelPaid (setup : TxQ.Setup) (view : View) (tx : Tx) : ℕ :=
  TxQ.getFeeLevelPaid (E.fee tx % 2 ^ 64).toNat TxQ.baseLevel (E.calculateBaseFee view tx) setup

end Engine

/-! ## Objects -/

namespace TxQ

structure MaybeTx (Tx Rules : Type) where
  txn : Tx
  consequences : Option TxConsequences := none
  feeLevel : ℕ
  lastValid : Option UInt32
  retriesRemaining : Int
  flags : ApplyFlags
  pfresult : PreflightResult Rules

def retriesAllowed : Int := 10

structure TxQAccount (Tx Rules : Type) where
  transactions : TreeMap ℕ (MaybeTx Tx Rules) := ∅
  retryPenalty : Bool := false
  dropPenalty : Bool := false

/-- The place of a `MaybeTx`: its account and its sequence. -/
abbrev Ref := AccountID × ℕ

end TxQ

structure TxQ (Tx Rules : Type) where
  setup : TxQ.Setup
  feeMetrics : TxQ.FeeMetrics
  byFee : List TxQ.Ref := []
  byAccount : TreeMap AccountID (TxQ.TxQAccount Tx Rules) := ∅
  maxSize : Option ℕ := none

namespace TxQ
variable {View Tx Rules : Type} [DecidableEq Rules]

def new (setup : Setup) : TxQ Tx Rules where
  setup := setup
  feeMetrics := .new setup

namespace MaybeTx
variable (E : Engine View Tx Rules)

def new (tx : Tx) (feeLevel : ℕ) (flags : ApplyFlags) (pfresult : PreflightResult Rules) :
    MaybeTx Tx Rules where
  txn := tx
  feeLevel := feeLevel
  lastValid := E.lastLedgerSequence tx
  retriesRemaining := retriesAllowed
  flags := flags
  pfresult := pfresult

/-- Preflight is done again when the rules have changed. -/
def refresh (m : MaybeTx Tx Rules) (view : View) : MaybeTx Tx Rules :=
  if m.pfresult.rules ≠ E.rules view then
    { m with pfresult := E.preflightResult m.txn m.flags view }
  else m

def apply (m : MaybeTx Tx Rules) (view : View) : TER × Bool × View :=
  let m := m.refresh E view
  E.doApply (E.preclaim m.pfresult m.txn m.flags view) m.txn m.flags view

/-- An attempt is counted, or more if the account has failed before. -/
def useRetry (m : MaybeTx Tx Rules) (retryPenalty : Bool) : MaybeTx Tx Rules :=
  { m with retriesRemaining :=
      if retryPenalty ∧ 2 < m.retriesRemaining then 1 else m.retriesRemaining - 1 }

/-- The consequences, worked out when first asked for. -/
def getConsequences (m : MaybeTx Tx Rules) : TxConsequences :=
  m.consequences.getD (E.calculateConsequences m.pfresult m.txn)

end MaybeTx

/-! ## Places -/

variable (E : Engine View Tx Rules) (q : TxQ Tx Rules)

def getAccount (account : AccountID) : Option (TxQAccount Tx Rules) := q.byAccount[account]?

def getTx (r : Ref) : Option (MaybeTx Tx Rules) :=
  (q.getAccount r.1).bind fun a => a.transactions[r.2]?

def modifyAccount (account : AccountID) (f : TxQAccount Tx Rules → TxQAccount Tx Rules) :
    TxQ Tx Rules :=
  { q with byAccount := q.byAccount.modify account f }

def modifyTx (r : Ref) (f : MaybeTx Tx Rules → MaybeTx Tx Rules) : TxQ Tx Rules :=
  q.modifyAccount r.1 fun a => { a with transactions := a.transactions.modify r.2 f }

def feeLevelOf (r : Ref) : ℕ := ((q.getTx r).map MaybeTx.feeLevel).getD 0

/-- Looking at the consequences of a queued transaction stores them. -/
def cacheConsequences (r : Ref) : TxQ Tx Rules :=
  q.modifyTx r fun m => { m with consequences := some (m.getConsequences E) }

def isFull (fillPercentage : ℕ) : Bool :=
  q.maxSize.any fun maxSize => maxSize * fillPercentage % 2 ^ 64 / 100 ≤ q.byFee.length

/-- `canBeHeld`, for an account with or without a place in the queue. -/
def canBeHeld (tx : Tx) (view : View) (account : Option (TxQAccount Tx Rules))
    (replacement : Option Ref) : Bool :=
  !E.hasPreviousTxnID tx && !E.hasAccountTxnID tx &&
    (E.lastLedgerSequence tx).all (E.seq view + q.setup.minimumLastLedgerBuffer ≤ ·) &&
    (replacement.isSome ||
      account.all fun a => a.transactions.size < q.setup.maximumTxnPerAccount)

def erase (r : Ref) : TxQ Tx Rules :=
  let q' := q.modifyAccount r.1 fun a => { a with transactions := a.transactions.erase r.2 }
  { q' with byFee := q.byFee.erase r }

def eraseRange (account : AccountID) (sequences : List ℕ) : TxQ Tx Rules :=
  sequences.foldl (fun q s => q.erase (account, s)) q

/-- `eraseAndAdvance`, with the place to go on from. -/
def eraseAndAdvance (r : Ref) : TxQ Tx Rules × Option Ref :=
  let accountNext := (q.getAccount r.1).bind fun a => (upperBound a.transactions r.2).head?
  let feeNext := nextKey q.byFee r
  let useAccountNext := accountNext.any fun next =>
    next.1 = r.2 + 1 && feeNext.all fun r => q.feeLevelOf r < next.2.feeLevel
  (q.erase r, if useAccountNext then accountNext.map fun next => (r.1, next.1) else feeNext)

/-! ## Applying a transaction -/

/-- How a call ends: the queue, the view, and the result or a fault. -/
structure Ended (View Tx Rules α : Type) where
  queue : TxQ Tx Rules
  view : View
  result : Except Fault α

/-- A transaction in `apply`, with its fee level and the one the open ledger demands. -/
structure Candidate (Tx Rules : Type) where
  tx : Tx
  flags : ApplyFlags
  pfresult : PreflightResult Rules
  feeLevelPaid : ℕ
  requiredFeeLevel : ℕ

namespace Candidate
variable (c : Candidate Tx Rules)

def account : AccountID := E.account c.tx
def tSeq : ℕ := E.sequence c.tx
def ref : Ref := (c.account E, c.tSeq E)

/-- What is queued of it. -/
def maybeTx (consequences : Option TxConsequences) : MaybeTx Tx Rules :=
  { MaybeTx.new E c.tx c.feeLevelPaid c.flags c.pfresult with consequences }

end Candidate

variable (c : Candidate Tx Rules)

/-- The queued transaction that goes if the new one is applied or held, and the new one's
consequences as far as known. -/
structure Replacement where
  deleteRef : Option Ref := none
  consequences : Option TxConsequences := none

/-- The fee is high enough for a replacement, or only the new transaction counts. -/
def mayReplace (existing : MaybeTx Tx Rules) (isFirst : Bool) : Bool :=
  increase existing.feeLevel q.setup.retrySequencePercent < c.feeLevelPaid ||
    (existing.feeLevel < c.requiredFeeLevel && c.requiredFeeLevel ≤ c.feeLevelPaid && isFirst)

/-- The part of `apply` on a queued transaction with the same sequence: a code to return, or the
replacement. -/
def findReplacement : TxQ Tx Rules × Except TER Replacement :=
  match q.getAccount (c.account E) with
  | none => (q, .ok {})
  | some txQAcct =>
    match txQAcct.transactions[c.tSeq E]? with
    | none => (q, .ok {})
    | some existing =>
      let isFirst := txQAcct.transactions.minKey? = some (c.tSeq E)
      if !q.mayReplace c existing isFirst then (q, .error .telINSUF_FEE_P)
      else if (upperBound txQAcct.transactions (c.tSeq E)).isEmpty then
        (q, .ok { deleteRef := some (c.ref E) })
      else
        -- a normal transaction in the middle is not replaced by a blocker
        let q := q.cacheConsequences E (c.ref E)
        if (existing.getConsequences E).blocker then (q, .ok { deleteRef := some (c.ref E) })
        else
          let consequences := E.calculateConsequences c.pfresult c.tx
          if consequences.blocker then
            (q, .error (if isFirst then .telINSUF_FEE_P else .telCAN_NOT_QUEUE))
          else (q, .ok { deleteRef := some (c.ref E), consequences := some consequences })

/-- What the transactions before and after the new one may cost. -/
structure MultiTxn where
  nextSeq : ℕ
  fee : Int := 0
  potentialSpend : Int := 0
  includeCurrentFee : Bool := false

/-- The loop over the account's transactions from its sequence on. It ends with a code to return,
with nothing if one before the new transaction is missing, or with the totals. -/
def multiTxnLoop (E : Engine View Tx Rules) (c : Candidate Tx Rules) :
    List (ℕ × MaybeTx Tx Rules) → (workingSeq : ℕ) → MultiTxn → TxQ Tx Rules →
      TxQ Tx Rules × Except TER (Option MultiTxn)
  | [], workingSeq, multi, q => (q, .ok (if workingSeq < c.tSeq E then none else some multi))
  | (seq, m) :: rest, workingSeq, multi, q =>
    if workingSeq < c.tSeq E ∧ seq ≠ workingSeq then (q, .ok none)
    else if seq = c.tSeq E - 1 ∧
        c.feeLevelPaid ≤ increase m.feeLevel q.setup.multiTxnPercent.toUInt32 then
      (q, .error .telINSUF_FEE_P)
    else if seq = c.tSeq E then
      multiTxnLoop E c rest (workingSeq + 1) { multi with includeCurrentFee := !rest.isEmpty } q
    else
      let q := q.cacheConsequences E (c.account E, seq)
      let consequences := m.getConsequences E
      if seq < c.tSeq E ∧ consequences.blocker then (q, .error .telCAN_NOT_QUEUE)
      else
        multiTxnLoop E c rest (workingSeq + 1)
          { multi with
            fee := multi.fee + consequences.fee
            potentialSpend := multi.potentialSpend + consequences.potentialSpend } q

/-- The transactions from a sequence on, if there is one with it. -/
def entriesFrom (a : TxQAccount Tx Rules) (seq : ℕ) : List (ℕ × MaybeTx Tx Rules) :=
  match a.transactions[seq]? with
  | none => []
  | some m => (seq, m) :: upperBound a.transactions seq

/-- The part of `apply` on the account's other transactions, with the view for `preclaim`. -/
def findMultiTxn (view : View) (deleteRef : Option Ref) :
    TxQ Tx Rules × Except TER (Option (MultiTxn × View)) :=
  match q.getAccount (c.account E), E.accountRoot view (c.account E) with
  | some txQAcct, some (aSeq, balance) =>
    if aSeq < c.tSeq E ∧ q.canBeHeld E c.tx view (some txQAcct) deleteRef then
      match multiTxnLoop E c (entriesFrom txQAcct aSeq) aSeq { nextSeq := aSeq } q with
      | (q, .error ter) => (q, .error ter)
      | (q, .ok none) => (q, .ok none)
      | (q, .ok (some multi)) =>
        let totalFee := multi.fee + if multi.includeCurrentFee then E.fee c.tx else 0
        if balance ≤ totalFee ∨ E.accountReserve view ≤ totalFee then (q, .error .telCAN_NOT_QUEUE)
        else
          let testView := E.testView view (c.account E) (c.tSeq E)
            (balance - (multi.fee + multi.potentialSpend))
          (q, .ok (some (multi, testView)))
    else (q, .ok none)
  | _, _ => (q, .ok none)

/-- Applies queued transactions of the account in turn until one fails, counting attempts. -/
def applyAll (E : Engine View Tx Rules) (account : AccountID) :
    List (ℕ × MaybeTx Tx Rules) → TxQ Tx Rules → View → TxQ Tx Rules × Except TER View
  | [], q, view => (q, .ok view)
  | (seq, m) :: rest, q, view =>
    let (ter, didApply, view') := m.apply E view
    let q := q.modifyTx (account, seq) fun m =>
      { m.refresh E view with retriesRemaining := m.retriesRemaining - 1 }
    if didApply then applyAll E account rest q view' else (q, .error ter)

/-- The result and the sandbox, if the queue up to the transaction was applied. -/
def tryClearAccountQueue (sandbox : View) (aSeq : ℕ) (txExtraCount : ℕ) :
    TxQ Tx Rules × Option (TER × View) :=
  match q.getAccount (c.account E) with
  | none => (q, none)
  | some txQAcct =>
    let required := q.feeMetrics.escalatedSeriesFeeLevel (E.txCount sandbox + txExtraCount)
      (c.tSeq E - aSeq + 1)
    let entries := (entriesFrom txQAcct aSeq).takeWhile fun e => e.1 < c.tSeq E
    let totalFeeLevelPaid :=
      entries.foldl (fun total e => (total + e.2.feeLevel) % 2 ^ 64) c.feeLevelPaid
    if !required.1 ∨ totalFeeLevelPaid < required.2 then (q, none)
    else
      match applyAll E (c.account E) entries q sandbox with
      | (q, .error _) => (q, none)
      | (q, .ok view) =>
        let (ter, didApply, view) :=
          E.doApply (E.preclaim c.pfresult c.tx c.flags view) c.tx c.flags view
        if didApply then
          let q := q.eraseRange (c.account E) (entries.map Prod.fst)
          -- a transaction that is replaced goes too
          let q := if (txQAcct.transactions[c.tSeq E]?).isSome then q.erase (c.ref E) else q
          (q, some (ter, view))
        else (q, none)

/-- The fee level a new transaction has to beat: the average over the account with the last entry,
if that entry is below the new one. Sums that would overflow are cut off. -/
def endEffectiveFeeLevel (endAccount : TxQAccount Tx Rules) (lastFeeLevel feeLevelPaid : ℕ) : ℕ :=
  let size := endAccount.transactions.size
  if feeLevelPaid < lastFeeLevel ∨ size = 1 then lastFeeLevel
  else
    let endTotal := endAccount.transactions.toList.foldl
      (fun (total : ℕ × ℕ) e =>
        let next := e.2.feeLevel / size
        let mod := e.2.feeLevel % size
        if maxUInt64 - next ≤ total.1 ∨ maxUInt64 - mod ≤ total.2 then (maxUInt64, 0)
        else (total.1 + next, total.2 + mod)) (0, 0)
    (endTotal.1 + endTotal.2 / size) % 2 ^ 64

/-- Makes room in a full queue: the last transaction of the account with the last entry goes, if
there is one. -/
def makeRoom : TxQ Tx Rules × Except Fault (Option TER) :=
  match q.byFee.getLast? with
  | none => (q, .error .nullPointer)
  | some last =>
    if last.1 = c.account E then (q, .ok (some .telCAN_NOT_QUEUE))
    else
      match q.getAccount last.1 with
      | none => (q, .error .exception)
      | some endAccount =>
        if endEffectiveFeeLevel endAccount (q.feeLevelOf last) c.feeLevelPaid < c.feeLevelPaid then
          match endAccount.transactions.maxKey? with
          | none => (q, .error .nullPointer)
          | some dropSeq => (q.erase (last.1, dropSeq), .ok none)
        else (q, .ok (some .telINSUF_FEE_P))

/-- Stores a transaction in the map of its account, made if need be, and links it. -/
def add (consequences : Option TxConsequences) : TxQ Tx Rules :=
  let account := (q.getAccount (c.account E)).getD {}
  let transactions := account.transactions.insertIfNew (c.tSeq E) (c.maybeTx E consequences)
  { q with
    byAccount := q.byAccount.insert (c.account E) { account with transactions }
    byFee := insertByRank q.feeLevelOf (c.ref E) c.feeLevelPaid q.byFee }

/-- Holds the transaction in the queue, in the place of the one it replaces. -/
def hold (rep : Replacement) : TxQ Tx Rules :=
  let q := match rep.deleteRef with
    | some r => q.erase r
    | none => q
  q.add E c rep.consequences

/-- The end of `apply`: the transaction cannot be applied now and is held, if possible. -/
def applyHeld (rep : Replacement) : TxQ Tx Rules × Except Fault (TER × Bool) :=
  if rep.deleteRef.isNone ∧ q.isFull 100 then
    match q.makeRoom E c with
    | (q, .error fault) => (q, .error fault)
    | (q, .ok (some ter)) => (q, .ok (ter, false))
    | (q, .ok none) => (q.hold E c rep, .ok (.terQUEUED, false))
  else (q.hold E c rep, .ok (.terQUEUED, false))

/-- `apply` from where the transaction can go into the open ledger, or be held. -/
def applyOrHold (rep : Replacement) (multi : Bool) (preclaimResult : TER) (view : View) :
    Ended View Tx Rules (TER × Bool) :=
  if !multi && c.requiredFeeLevel ≤ c.feeLevelPaid then
    let (ter, didApply, view) := E.doApply preclaimResult c.tx c.flags view
    let q := match rep.deleteRef with
      | some r => if didApply then q.erase r else q
      | none => q
    ⟨q, view, .ok (ter, didApply)⟩
  else if !multi && !q.canBeHeld E c.tx view (q.getAccount (c.account E)) rep.deleteRef then
    ⟨q, view, .ok (if c.requiredFeeLevel ≤ c.feeLevelPaid then .telCAN_NOT_QUEUE
      else .telINSUF_FEE_P, false)⟩
  else
    let (q, result) := q.applyHeld E c rep
    ⟨q, view, result⟩

/-- Clearing the account's queue is worth a try: its next transaction is untried, and the new one
pays more than an escalated level. -/
def worthClearing (nextSeq : ℕ) (view : View) : Bool :=
  ((q.getTx (c.account E, nextSeq)).any fun m => m.retriesRemaining = retriesAllowed) &&
    c.requiredFeeLevel < c.feeLevelPaid && baseLevel < c.requiredFeeLevel &&
    E.calculateBaseFee view c.tx ≠ 0

/-- `apply` after the checks that the queue itself makes. -/
def applyChecked (rep : Replacement) (multi : Option (MultiTxn × View)) (view : View) :
    Ended View Tx Rules (TER × Bool) :=
  let preclaimResult := E.preclaim c.pfresult c.tx c.flags ((multi.map Prod.snd).getD view)
  if !Engine.likelyToClaimFee preclaimResult then ⟨q, view, .ok (preclaimResult, false)⟩
  else
    match multi with
    | none => q.applyOrHold E c rep false preclaimResult view
    | some (m, _) =>
      if q.worthClearing E c m.nextSeq view then
        match q.tryClearAccountQueue E c (E.sandbox view) m.nextSeq (E.txCount view) with
        | (q, some (ter, sandbox)) => ⟨q, E.applySandbox sandbox view, .ok (ter, true)⟩
        | (q, none) => q.applyOrHold E c rep true preclaimResult view
      else q.applyOrHold E c rep true preclaimResult view

def apply (view : View) (tx : Tx) (flags : ApplyFlags) : Ended View Tx Rules (TER × Bool) :=
  if !E.feeEscalation (E.rules view) then
    let (ter, didApply, view) := E.apply view tx flags
    ⟨q, view, .ok (ter, didApply)⟩
  else
    let pfresult := E.preflightResult tx flags view
    if pfresult.ter ≠ .tesSUCCESS then ⟨q, view, .ok (pfresult.ter, false)⟩
    else
      match q.feeMetrics.scaleFeeLevel (E.txCount view) with
      | .error fault => ⟨q, view, .error fault⟩
      | .ok requiredFeeLevel =>
        let c : Candidate Tx Rules :=
          ⟨tx, flags, pfresult, E.feeLevelPaid q.setup view tx, requiredFeeLevel⟩
        match q.findReplacement E c with
        | (q, .error ter) => ⟨q, view, .ok (ter, false)⟩
        | (q, .ok rep) =>
          match q.findMultiTxn E c view rep.deleteRef with
          | (q, .error ter) => ⟨q, view, .ok (ter, false)⟩
          | (q, .ok multi) => q.applyChecked E c rep multi view

/-! ## Closed ledgers -/

/-- Erases an entry whose last ledger has gone by. -/
def expire (ledgerSeq : UInt32) (q : TxQ Tx Rules) (r : Ref) : TxQ Tx Rules :=
  if ((q.getTx r).bind MaybeTx.lastValid).any (· ≤ ledgerSeq) then
    (q.modifyAccount r.1 fun a => { a with dropPenalty := true }).erase r
  else q

def dropEmpty : TxQ Tx Rules :=
  { q with byAccount := q.byAccount.filter fun _ a => !a.transactions.isEmpty }

def processClosedLedger (view : View) (timeLeap : Bool) : TxQ Tx Rules :=
  if !E.feeEscalation (E.rules view) then q
  else
    let feeMetrics := q.feeMetrics.update ((E.txs view).map (E.feeLevelPaid q.setup view)) timeLeap
    let maxSize := if timeLeap then q.maxSize
      else some (feeMetrics.txnsExpected * q.setup.ledgersInQueue % 2 ^ 64)
    let q := { q with feeMetrics, maxSize }
    (q.byFee.foldl (expire (E.seq view)) q).dropEmpty

/-! ## Filling the open ledger -/

/-- What `accept` does next: end, or go on at a place. `tried` is what the call of `apply` has
returned, if the turn made one. -/
inductive AcceptStep (View Tx Rules : Type)
  | stop (queue : TxQ Tx Rules) (view : View) (result : Except Fault Bool)
  | goOn (queue : TxQ Tx Rules) (view : View) (ledgerChanged : Bool) (next : Option Ref)
      (tried : Option (TER × Bool))

/-- A transaction that stays has used up a retry. When the queue is nearly full and the account has
failed before, its last transaction goes. -/
def keepForRetry (r : Ref) (account : TxQAccount Tx Rules) : TxQ Tx Rules :=
  let q := q.modifyTx r fun m => m.useRetry account.retryPenalty
  if account.dropPenalty ∧ 1 < account.transactions.size ∧ q.isFull 95 then
    match account.transactions.maxKey? with
    | some dropSeq => q.erase (r.1, dropSeq)
    | none => q
  else q

/-- A transaction that is given up leaves a mark on its account. -/
def giveUp (r : Ref) (retriesRemaining : Int) : TxQ Tx Rules :=
  q.modifyAccount r.1 fun a =>
    if retriesRemaining ≤ 0 then { a with retryPenalty := true } else { a with dropPenalty := true }

def acceptOne (view : View) (ledgerChanged : Bool) (r : Ref) : AcceptStep View Tx Rules :=
  match q.getAccount r.1, q.getTx r with
  | some account, some m =>
    if account.transactions.minKey?.any (· < r.2) then
      .goOn q view ledgerChanged (nextKey q.byFee r) none
    else
      match q.feeMetrics.scaleFeeLevel (E.txCount view) with
      | .error fault => .stop q view (.error fault)
      | .ok requiredFeeLevel =>
        if requiredFeeLevel ≤ m.feeLevel then
          let (ter, didApply, view') := m.apply E view
          let q := q.modifyTx r fun m => m.refresh E view
          if didApply then
            let (q, next) := q.eraseAndAdvance r
            .goOn q view' true next (some (ter, didApply))
          else if ter.isTefFailure ∨ ter.isTemMalformed ∨ m.retriesRemaining ≤ 0 then
            let (q, next) := (q.giveUp r m.retriesRemaining).eraseAndAdvance r
            .goOn q view' ledgerChanged next (some (ter, didApply))
          else
            let q := q.keepForRetry r account
            .goOn q view' ledgerChanged (nextKey q.byFee r) (some (ter, didApply))
        else .stop q view (.ok ledgerChanged)
  | _, _ => .stop q view (.error .exception)

/-- The loop in `accept`, for a number of turns. -/
def acceptLoop (E : Engine View Tx Rules) :
    ℕ → TxQ Tx Rules → View → Bool → Option Ref → Option (Ended View Tx Rules Bool)
  | _, q, view, ledgerChanged, none => some ⟨q, view, .ok ledgerChanged⟩
  | 0, _, _, _, some _ => none
  | turns + 1, q, view, ledgerChanged, some r =>
    match q.acceptOne E view ledgerChanged r with
    | .stop q view result => some ⟨q, view, result⟩
    | .goOn q view ledgerChanged next _ => acceptLoop E turns q view ledgerChanged next

/-- Enough turns for a queue of some size: a turn moves on or makes the queue smaller. -/
def acceptTurns (size : ℕ) : ℕ := size * (size + 1) + size + 1

def accept (view : View) : Option (Ended View Tx Rules Bool) :=
  if !E.feeEscalation (E.rules view) then some ⟨q, view, .ok false⟩
  else acceptLoop E (acceptTurns q.byFee.length) q view false q.byFee.head?

/-! ## Histories -/

/-- The calls that change the queue, each on a view of its own. -/
inductive Call (View Tx : Type)
  | apply (view : View) (tx : Tx) (flags : ApplyFlags)
  | accept (view : View)
  | processClosedLedger (view : View) (timeLeap : Bool)

def step : Call View Tx → TxQ Tx Rules
  | .apply view tx flags => (q.apply E view tx flags).queue
  | .accept view => ((q.accept E view).map Ended.queue).getD q
  | .processClosedLedger view timeLeap => q.processClosedLedger E view timeLeap

def run (calls : List (Call View Tx)) : TxQ Tx Rules := calls.foldl (step E) q

end TxQ
end FinPal
