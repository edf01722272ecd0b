import FinPal.Ledger.ApplyStateTable
import FinPal.Ledger.Directory
import FinPal.Protocol.STTx

/-!
# The transactor

The steps of every transaction (`app/tx/impl/Transactor.cpp`, `applySteps.cpp`): `preflight` looks
at the transaction alone, `preclaim` at the ledger as well, and `operator()` works on a table of
changes and applies it. What one transaction type adds is a `Transactor`.
-/

namespace FinPal
open Store ViewM

/-- The parts of the application that transactions ask. `scaleFeeLoad` is the fee due under the
current load. -/
structure Application where
  crypto : Crypto
  genesisAccount : AccountID
  scaleFeeLoad : (baseFee : Nat) → Fees → (unlimited : Bool) → Int

structure ApplyFlags where
  noCheckSign : Bool := false
  retry : Bool := false
  unlimited : Bool := false

structure PreflightContext where
  app : Application
  tx : STTx
  enabled : Feature → Bool
  flags : ApplyFlags

structure PreclaimContext where
  app : Application
  view : OpenView
  tx : STTx
  flags : ApplyFlags

/-- What `doApply` reads beside the table: the view and the balances that `Transactor::apply` took
from the sender. -/
structure ApplyContext where
  app : Application
  view : OpenView
  tx : STTx
  flags : ApplyFlags
  baseFee : Nat
  mPriorBalance : Int := 0
  mSourceBalance : Int := 0

/-- A computation on a table of changes over a view. -/
abbrev TableM (α : Type) := OpenView → LedgerTable → Except Fault (α × LedgerTable)

def ViewM.onTable {α : Type} (p : ViewM α) : TableM α := fun v t => t.run carrier v.entries p

structure Transactor where
  preflight : PreflightContext → Except Fault TER
  preclaim : PreclaimContext → Except Fault TER := fun _ => .ok .tesSUCCESS
  payees : Nat := 0
  extraFee : Fees → Nat := fun _ => 0
  doApply : ApplyContext → TableM TER

/-! ## Preflight -/

def zeroTxID : TxID := .raw 0

def preflight0 (ctx : PreflightContext) : TER :=
  if ctx.tx.transactionID = zeroTxID then .temINVALID else .tesSUCCESS

def preflight1 (ctx : PreflightContext) : TER :=
  let ret := preflight0 ctx
  if ret ≠ .tesSUCCESS then ret
  else if ctx.tx.account = 0 then .temBAD_SRC_ACCOUNT
  else
    match ctx.tx.fee with
    | .issued _ _ => .temBAD_FEE
    | .native drops =>
      if drops < 0 ∨ !isLegalAmount drops then .temBAD_FEE
      else if !ctx.tx.signingPubKey.isEmpty && !ctx.app.crypto.publicKeyType ctx.tx.signingPubKey then
        .temBAD_SIGNATURE
      else .tesSUCCESS

def preflight2 (ctx : PreflightContext) : TER :=
  if ctx.flags.noCheckSign then .tesSUCCESS
  else
    match ctx.tx.checkSign ctx.app.crypto (ctx.enabled .multiSign) with
    | .ok () => .tesSUCCESS
    | .error _ => .temINVALID

/-- The transactors' own checks stand between `preflight1` and `preflight2`. -/
def preflightWith (checks : PreflightContext → Except Fault TER) (ctx : PreflightContext) :
    Except Fault TER :=
  let ret := preflight1 ctx
  if ret ≠ .tesSUCCESS then .ok ret
  else
    match checks ctx with
    | .ok .tesSUCCESS => .ok (preflight2 ctx)
    | r => r

/-! ## Preclaim -/

def checkSeq (ctx : PreclaimContext) : TER :=
  match ctx.view.state.get (keylet.account ctx.tx.account) with
  | none => .terNO_ACCOUNT
  | some sle =>
    if ctx.tx.sequence ≠ sle.sequence then
      if sle.sequence < ctx.tx.sequence then .terPRE_SEQ
      else if ctx.tx.transactionID ∈ ctx.view.txs then .tefALREADY
      else .tefPAST_SEQ
    -- an absent `sfAccountTxnID` of the account reads as zero
    else if ctx.tx.accountTxnID.any (· ≠ sle.accountTxnID.getD zeroTxID) then .tefWRONG_PRIOR
    else if ctx.tx.lastLedgerSequence.any (· < ctx.view.seq) then .tefMAX_LEDGER
    else .tesSUCCESS

/-- `Transactor::calculateBaseFee`, in fee units: the base once for each payee and once more for
each signature. A transaction type may add to it. -/
def Transactor.calculateBaseFee (T : Transactor) (fees : Fees) (tx : STTx) : Nat :=
  let baseFee := if 1 < T.payees then fees.units * T.payees else fees.units
  baseFee + (tx.signers.getD []).length * baseFee + T.extraFee fees

def checkFee (ctx : PreclaimContext) (baseFee : Nat) : Except Fault TER := do
  let feePaid ← ctx.tx.fee.drops
  if !isLegalAmount feePaid ∨ feePaid < 0 then
    return .temBAD_FEE
  else if ctx.view.isOpen ∧ feePaid < ctx.app.scaleFeeLoad baseFee ctx.view.fees ctx.flags.unlimited then
    return .telINSUF_FEE_P
  else if feePaid = 0 then
    return .tesSUCCESS
  else
    match ctx.view.state.get (keylet.account ctx.tx.account) with
    | none => .error .nullPointer
    | some sle =>
      if sle.balance < feePaid then
        return if 0 < sle.balance ∧ !ctx.view.isOpen then .tecINSUFF_FEE else .terINSUF_FEE_B
      else
        return .tesSUCCESS

def checkSingleSign (ctx : PreclaimContext) : Except Fault TER :=
  match ctx.view.state.get (keylet.account ctx.tx.account) with
  | none => .error .nullPointer
  | some sle =>
    if !ctx.app.crypto.publicKeyType ctx.tx.signingPubKey then .ok .tefBAD_AUTH
    else
      let pkAccount := ctx.app.crypto.calcAccountID ctx.tx.signingPubKey
      if pkAccount = ctx.tx.account then
        .ok (if sle.flags &&& lsfDisableMaster ≠ 0 then .tefMASTER_DISABLED else .tesSUCCESS)
      else if sle.regularKey = some pkAccount then .ok .tesSUCCESS
      else .ok (if sle.regularKey.isSome then .tefBAD_AUTH else .tefBAD_AUTH_MASTER)

/-- Moves the list iterator to the first entry not below the account. `none` when the list ends
first; an empty list has no entry to look at. -/
def seekEntry (account : AccountID) : List SignerEntry → Except Fault (Option (List SignerEntry))
  | [] => .error .nullPointer
  | entry :: rest =>
    if entry.account < account then
      match rest with
      | [] => .ok none
      | _ :: _ => seekEntry account rest
    else .ok (some (entry :: rest))

/-- Whether a signer's key may sign for it: a phantom's own key, the master key unless disabled, or
the regular key. -/
def checkSignerKey (c : Crypto) (σ : State) (signer : Signer) : TER :=
  if !c.publicKeyType signer.signingPubKey then .tefBAD_SIGNATURE
  else
    let pkAccount := c.calcAccountID signer.signingPubKey
    match σ.get (keylet.account signer.account) with
    | none => if pkAccount = signer.account then .tesSUCCESS else .tefBAD_SIGNATURE
    | some root =>
      if pkAccount = signer.account then
        if root.flags &&& lsfDisableMaster ≠ 0 then .tefMASTER_DISABLED else .tesSUCCESS
      else if root.regularKey = some pkAccount then .tesSUCCESS
      else .tefBAD_SIGNATURE

/-- The walk of `Transactor::checkMultiSign` over the signers, with list iterator and weight. The
iterator is not moved past a match. -/
def walkSigners (c : Crypto) (σ : State) : List Signer → List SignerEntry → Nat →
    Except Fault (TER × Nat)
  | [], _, weightSum => .ok (.tesSUCCESS, weightSum)
  | signer :: signers, iter, weightSum => do
    match ← seekEntry signer.account iter with
    | none | some [] => return (.tefBAD_SIGNATURE, weightSum)
    | some (entry :: rest) =>
      if entry.account ≠ signer.account then
        return (.tefBAD_SIGNATURE, weightSum)
      else
        match checkSignerKey c σ signer with
        | .tesSUCCESS => walkSigners c σ signers (entry :: rest) (weightSum + entry.weight)
        | ter => return (ter, weightSum)

def checkMultiSign (ctx : PreclaimContext) : Except Fault TER :=
  match ctx.view.state.get (keylet.signers ctx.tx.account) with
  | none => .ok .tefNOT_MULTI_SIGNING
  | some list => do
    let (ter, weightSum) ← walkSigners ctx.app.crypto ctx.view.state (ctx.tx.signers.getD [])
      list.signerEntries 0
    if ter ≠ .tesSUCCESS then return ter
    else return if weightSum < list.signerQuorum then .tefBAD_QUORUM else .tesSUCCESS

def checkSign (ctx : PreclaimContext) : Except Fault TER :=
  if ctx.view.enabled .multiSign && ctx.tx.signingPubKey.isEmpty then checkMultiSign ctx
  else checkSingleSign ctx

/-- `invoke_preclaim`. The pseudo transactions of the zero account are not checked. -/
def invokePreclaim (T : Transactor) (ctx : PreclaimContext) : Except Fault TER :=
  if ctx.tx.account = 0 then .ok .tesSUCCESS
  else
    let seq := checkSeq ctx
    if seq ≠ .tesSUCCESS then .ok seq
    else do
      let fee ← checkFee ctx (T.calculateBaseFee ctx.view.fees ctx.tx)
      if fee ≠ .tesSUCCESS then return fee
      else
        let sign ← checkSign ctx
        if sign ≠ .tesSUCCESS then return sign
        else T.preclaim ctx

/-! ## Application -/

/-- The account once it has sent the transaction. It chains its transactions when it has
`sfAccountTxnID`. -/
def AccountRoot.sent (a : AccountRoot) (tx : STTx) : AccountRoot :=
  { a with
    sequence := tx.sequence + 1
    accountTxnID := a.accountTxnID.map fun _ => tx.transactionID }

def setSeq (tx : STTx) : ViewM Unit := update (keylet.account tx.account) (·.sent tx)

/-- The fee goes from the sender to the genesis account, which pays none itself. Returns the new
`mSourceBalance`. -/
def payFee (app : Application) (tx : STTx) (mSourceBalance : Int) : ViewM Int := do
  if app.genesisAccount = tx.account then
    return mSourceBalance
  else
    let feePaid ← ofExcept tx.fee.drops
    update (keylet.account tx.account) fun a => { a with balance := mSourceBalance - feePaid }
    update (keylet.account app.genesisAccount) fun m => { m with balance := m.balance + feePaid }
    return mSourceBalance - feePaid

/-- The part of `Transactor::apply` before `doApply`, with `mPriorBalance` and `mSourceBalance`.
Only the pseudo transactions have no account. -/
def beginApply (app : Application) (tx : STTx) : ViewM (Int × Int) := do
  match ← peek (keylet.account tx.account) with
  | none => return (0, 0)
  | some sle =>
    setSeq tx
    let mSourceBalance ← payFee app tx sle.balance
    return (sle.balance, mSourceBalance)

def Transactor.apply (T : Transactor) (ctx : ApplyContext) : TableM TER := fun v t => do
  let (balances, t) ← (beginApply ctx.app ctx.tx).onTable v t
  T.doApply { ctx with mPriorBalance := balances.1, mSourceBalance := balances.2 } v t

/-- Deletes the offers that are still there, a thousand at most. -/
def removeUnfundedOffers : List Digest → Nat → ViewM Unit
  | [], _ => return ()
  | index :: rest, removed => do
    match ← peek (keylet.offer index) with
    | none => removeUnfundedOffers rest removed
    | some offer =>
      let _ ← offerDelete (keylet.offer index) offer
      if removed + 1 = 1000 then return () else removeUnfundedOffers rest (removed + 1)

/-- The offers the table deletes with the `sfTakerPays` they had in the view. -/
def removedOffers (v : OpenView) (t : LedgerTable) : List Digest :=
  t.entries.filterMap fun i =>
    match i.2.action, (v.entries i.1).map SLE.entry, i.2.val.entry with
    | .erase, some (.offer before), .offer after =>
      if before.takerPays.eq after.takerPays then some i.1 else none
    | _, _, _ => none

/-- The fee-claiming part of `operator()`, on a fresh table. The fee, capped to the sender's
balance, is returned. -/
def claimFee (app : Application) (tx : STTx) (fee : Int) (offers : List Digest) : ViewM Int := do
  let txnAcct ← peek! (keylet.account tx.account)
  let fee := if txnAcct.balance < fee then txnAcct.balance else fee
  update (keylet.account tx.account) fun a =>
    { a with balance := txnAcct.balance - fee, sequence := tx.sequence + 1 }
  removeUnfundedOffers offers 0
  update (keylet.account app.genesisAccount) fun m => { m with balance := m.balance + fee }
  return fee

/-- A result of `operator()`: the code, whether it was applied, and the view. -/
structure Outcome where
  ter : TER
  applied : Bool
  view : OpenView

/-- The end of `operator()`: on a closed ledger the fee goes to the pool; the table is applied. -/
def finish (ctx : ApplyContext) (ter : TER) (fee : Int) (t : LedgerTable) : Except Fault Outcome :=
  if !ctx.view.isOpen && fee < 0 then .error .exception
  else do
    let destroyed := if ctx.view.isOpen then 0 else fee
    let view ← ApplyStateTable.applyTable ctx.view t destroyed ctx.tx.transactionID
    return { ter, applied := true, view }

/-- The first part of `operator()`: the work is done unless preclaim has failed. -/
def Transactor.attempt (T : Transactor) (ctx : ApplyContext) (preclaimResult : TER) :
    Except Fault (TER × LedgerTable) :=
  if preclaimResult = .tesSUCCESS then T.apply ctx ctx.view ∅ else .ok (preclaimResult, ∅)

def Transactor.operator (T : Transactor) (ctx : ApplyContext) (preclaimResult : TER) :
    Except Fault Outcome := do
  let (result, t) ← T.attempt ctx preclaimResult
  let fee ← ctx.tx.fee.drops
  let ter := if 5200 < ApplyStateTable.size t then .tecOVERSIZE else result
  if ter = .tecOVERSIZE ∨ (ter.isTecClaim ∧ !ctx.flags.retry) then
    let offers := if ter = .tecOVERSIZE then removedOffers ctx.view t else []
    let (fee, t) ← (claimFee ctx.app ctx.tx fee offers).onTable ctx.view ∅
    finish ctx ter fee t
  else if ter = .tesSUCCESS then
    finish ctx ter fee t
  else
    return { ter, applied := false, view := ctx.view }

/-- `applySteps.cpp` catches exceptions and nothing else. -/
def catchException {α : Type} (a : α) : Except Fault α → Except Fault α
  | .error .exception => .ok a
  | r => r

/-- `preclaim` of `applySteps.cpp`: a preflight result that is no success stands. -/
def Transactor.preclaimed (T : Transactor) (ctx : PreclaimContext) (pf : TER) : Except Fault TER :=
  if pf ≠ .tesSUCCESS then .ok pf else catchException .tefEXCEPTION (invokePreclaim T ctx)

/-- `apply` of `apply.cpp`: preflight, preclaim and application. A preflight that claims a fee skips
the checks of preclaim. -/
def Transactor.applyTx (T : Transactor) (app : Application) (v : OpenView) (tx : STTx)
    (flags : ApplyFlags) : Except Fault Outcome := do
  let pf ← catchException .tefEXCEPTION (T.preflight ⟨app, tx, v.enabled, flags⟩)
  let pc ← T.preclaimed ⟨app, v, tx, flags⟩ pf
  if pc = .tesSUCCESS ∨ pc.isTecClaim then
    let baseFee := if pf = .tesSUCCESS then T.calculateBaseFee v.fees tx else 0
    catchException { ter := .tefEXCEPTION, applied := false, view := v }
      (T.operator { app, view := v, tx, flags, baseFee } pc)
  else
    return { ter := pc, applied := false, view := v }

end FinPal
