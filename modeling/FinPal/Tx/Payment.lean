import FinPal.Ledger.TrustLines
import FinPal.Tx.Transactor

/-!
# Payments

`Payment` of `app/tx/impl/Payment.cpp`, with one destination or a list of payees. A native payment
without paths moves drops between two accounts; every other one is computed by
`MtchainCalc::mtchainCalculate`, a parameter here.
-/

namespace FinPal
open Store ViewM

def tfNoMTChainDirect : UInt32 := 0x00010000
def tfPartialPayment : UInt32 := 0x00020000
def tfLimitQuality : UInt32 := 0x00040000
def tfPaymentMask : UInt32 :=
  ~~~(tfUniversal ||| tfPartialPayment ||| tfLimitQuality ||| tfNoMTChainDirect)

structure Payee where
  destination : AccountID
  amount : Option STAmount := none

structure PathElement where
  account : Option AccountID := none
  currency : Option Currency := none
  issuer : Option AccountID := none

/-- `path::MtchainCalc::Input`. -/
structure MtchainInput where
  partialPaymentAllowed : Bool
  defaultPathsAllowed : Bool
  limitQuality : Bool
  isLedgerOpen : Bool

/-- The parts of `path::MtchainCalc::Output` that a payment looks at. -/
structure MtchainOutput where
  result : TER
  actualAmountOut : STAmount
  fee : Option STAmount := none

/-- The changes of its sandbox are those of the program. -/
structure MtchainCalc where
  mtchainCalculate : (saMaxAmountReq saDstAmountReq : STAmount) → (dst src : AccountID) →
    List (List PathElement) → MtchainInput → ViewM MtchainOutput

structure Payment where
  destination : AccountID := 0
  amount : STAmount := .native 0
  payees : Option (List Payee) := none
  sendMax : Option STAmount := none
  paths : Option (List (List PathElement)) := none
  deliverMin : Option STAmount := none
  destinationTag : Option UInt32 := none

namespace Payment

def maxPathSize : Nat := 6
def maxPathLength : Nat := 8

/-- Whom to pay, and how much. A payee without an amount gets that of the transaction. -/
def getAccountList (f : Payment) : List (AccountID × STAmount) :=
  match f.payees with
  | none => [(f.destination, f.amount)]
  | some payees => payees.map fun p => (p.destination, p.amount.getD f.amount)

/-- Runs a check for each payee up to the first failure. Without payees there is no destination. -/
def forEachPayee (check : AccountID → STAmount → Except Fault TER) :
    List (AccountID × STAmount) → TER → Except Fault TER
  | [], ter => .ok ter
  | (dst, amount) :: rest, _ => do
    let ter ← check dst amount
    if ter ≠ .tesSUCCESS then return ter else forEachPayee check rest ter

def maxSourceAmount (f : Payment) (src : AccountID) (saDstAmount : STAmount) : STAmount :=
  match f.sendMax with
  | some sendMax => sendMax
  | none =>
    match saDstAmount with
    | .native drops => .native drops
    | .issued i q => .issued ⟨i.currency, src⟩ q

/-! ## Preflight -/

/-- The native currency is sent directly, without any of the options of other payments. -/
def checkMDirect (f : Payment) (tx : STTx) : TER :=
  if f.sendMax.isSome then .temBAD_SEND_M_MAX
  else if f.paths.isSome then .temBAD_SEND_M_PATHS
  else if tx.hasFlag tfPartialPayment then .temBAD_SEND_M_PARTIAL
  else if tx.hasFlag tfLimitQuality then .temBAD_SEND_M_LIMIT
  else if tx.hasFlag tfNoMTChainDirect then .temBAD_SEND_M_NO_DIRECT
  else .tesSUCCESS

def checkDeliverMin (f : Payment) (tx : STTx) (saDstAmount : STAmount) : Except Fault TER :=
  match f.deliverMin with
  | none => .ok .tesSUCCESS
  | some dMin =>
    if !tx.hasFlag tfPartialPayment then .ok .temBAD_AMOUNT
    else if !dMin.isLegalNet ∨ dMin.signum ≤ 0 then .ok .temBAD_AMOUNT
    else if dMin.issue ≠ saDstAmount.issue then .ok .temBAD_AMOUNT
    else do
      if ← saDstAmount.lt dMin then return .temBAD_AMOUNT else return .tesSUCCESS

def checkPayee (f : Payment) (dst : AccountID) (saDstAmount : STAmount) (ctx : PreflightContext) :
    Except Fault TER :=
  let tx := ctx.tx
  let maxSource := f.maxSourceAmount tx.account saDstAmount
  let bMDirect := maxSource.getCurrency = mCurrency ∧ saDstAmount.getCurrency = mCurrency
  if tx.flags &&& tfPaymentMask ≠ 0 then .ok .temINVALID_FLAG
  else if !saDstAmount.isLegalNet ∨ !maxSource.isLegalNet then .ok .temBAD_AMOUNT
  else if dst = 0 then .ok .temDST_NEEDED
  else if f.sendMax.isSome ∧ maxSource.signum ≤ 0 then .ok .temBAD_AMOUNT
  else if saDstAmount.signum ≤ 0 then .ok .temBAD_AMOUNT
  else if maxSource.getCurrency = badCurrency ∨ saDstAmount.getCurrency = badCurrency then
    .ok .temBAD_CURRENCY
  else if tx.account = dst ∧ maxSource.getCurrency = saDstAmount.getCurrency ∧ f.paths.isNone then
    .ok .temREDUNDANT
  else if bMDirect ∧ f.checkMDirect tx ≠ .tesSUCCESS then .ok (f.checkMDirect tx)
  else f.checkDeliverMin tx saDstAmount

def preflight (f : Payment) (ctx : PreflightContext) : Except Fault TER :=
  forEachPayee (fun dst amount => preflightWith (f.checkPayee dst amount) ctx) f.getAccountList
    .tecNO_DST

/-! ## Preclaim -/

/-- Paths are limited in an open ledger. -/
def checkPaths (f : Payment) (view : OpenView) (saDstAmount : STAmount) : TER :=
  if f.paths.isSome ∨ f.sendMax.isSome ∨ !saDstAmount.isNative then
    let paths := f.paths.getD []
    if view.isOpen ∧ (maxPathSize < paths.length ∨ paths.any (maxPathLength < ·.length)) then
      .telBAD_PATH_COUNT
    else .tesSUCCESS
  else .tesSUCCESS

def preclaimPayee (f : Payment) (ctx : PreclaimContext) (dst : AccountID) (saDstAmount : STAmount) :
    Except Fault TER :=
  match ctx.view.state.get (keylet.account dst) with
  | none =>
    match saDstAmount with
    | .issued _ _ => .ok .tecNO_DST
    | .native drops =>
      if ctx.view.isOpen ∧ ctx.tx.hasFlag tfPartialPayment then .ok .telNO_DST_PARTIAL
      else if drops < ctx.view.fees.accountReserve 0 then .ok .tecNO_DST_INSUF_M
      else .ok (f.checkPaths ctx.view saDstAmount)
  | some sleDst =>
    if sleDst.flags &&& lsfRequireDestTag ≠ 0 ∧ f.destinationTag.isNone then .ok .tecDST_TAG_NEEDED
    else .ok (f.checkPaths ctx.view saDstAmount)

def preclaim (f : Payment) (ctx : PreclaimContext) : Except Fault TER :=
  forEachPayee (f.preclaimPayee ctx) f.getAccountList .tecNO_DST

/-! ## Application -/

/-- Moves drops between the sender and a destination. `mPriorBalance` and `mSourceBalance` are what
the transactor keeps of the sender's balance. -/
def payDirect (ctx : ApplyContext) (dst : AccountID) (drops : Int) : ViewM TER := do
  let sle ← peek! (keylet.account ctx.tx.account)
  let fee ← ofExcept ctx.tx.fee.drops
  let reserve := ctx.view.fees.accountReserve sle.ownerCount.toNat
  if ctx.mPriorBalance < drops + max reserve fee then
    return .tecUNFUNDED_PAYMENT
  else
    update (keylet.account ctx.tx.account) fun a => { a with balance := ctx.mSourceBalance - drops }
    update (keylet.account dst) fun a =>
      { a with balance := a.balance + drops, flags := a.flags &&& ~~~lsfPasswordSpent }
    return .tesSUCCESS

/-- The total of an issue before a payment, where it is limited. -/
def totalBefore (issue : Issue) : ViewM STAmount := do
  match ← getIssueLimitAmount issue with
  | none => return .ofIssue issue
  | some _ => getIssueTotalAmount' issue

def totalsBefore : List Issue → ViewM (List STAmount)
  | [] => return []
  | issue :: rest => return (← totalBefore issue) :: (← totalsBefore rest)

def checkLimits : List (Issue × STAmount) → ViewM TER
  | [] => return .tesSUCCESS
  | (issue, before) :: rest => do
    match ← getIssueLimitAmount issue with
    | none => checkLimits rest
    | some limit =>
      let total ← getIssueTotalAmount issue
      if ← ofExcept (before.lt total) then
        if ← ofExcept (limit.lt total) then return .tecOVERISSUE else checkLimits rest
      else
        checkLimits rest

def deliveredResult (f : Payment) (saDstAmount : STAmount) (rc : MtchainOutput) :
    Except Fault TER :=
  if rc.result = .tesSUCCESS ∧ !rc.actualAmountOut.eq saDstAmount then
    match f.deliverMin with
    | none => .ok rc.result
    | some dMin => do
      if ← rc.actualAmountOut.lt dMin then return .tecPATH_PARTIAL else return rc.result
  else
    .ok rc.result

def payMtchain (mc : MtchainCalc) (f : Payment) (ctx : ApplyContext) (dst : AccountID)
    (saDstAmount : STAmount) : ViewM TER := do
  let maxSource := f.maxSourceAmount ctx.tx.account saDstAmount
  let issues := saDstAmount.issue ::
    (if f.sendMax.isSome ∧ maxSource.issue ≠ saDstAmount.issue then [maxSource.issue] else [])
  let totals ← totalsBefore issues
  let rc ← mc.mtchainCalculate maxSource saDstAmount dst ctx.tx.account (f.paths.getD [])
    { partialPaymentAllowed := ctx.tx.hasFlag tfPartialPayment
      defaultPathsAllowed := !ctx.tx.hasFlag tfNoMTChainDirect
      limitQuality := ctx.tx.hasFlag tfLimitQuality
      isLedgerOpen := ctx.view.isOpen }
  let ter ← ofExcept (f.deliveredResult saDstAmount rc)
  if ter.isTerRetry then
    return .tecPATH_DRY
  else if ter = .tesSUCCESS then
    checkLimits (issues.zip totals)
  else
    return ter

/-- Creates the destination's account, or marks it as changed. -/
def touchDestination (dst : AccountID) : ViewM Unit := do
  match ← peek (keylet.account dst) with
  | none => insert (keylet.account dst) { account := dst, sequence := 1, balance := 0 }
  | some _ => update (keylet.account dst) id

/-- The amount has no more decimal places than the issue allows. -/
def checkPrecision (saDstAmount : STAmount) (sleIssue : Option MTChainState) : TER :=
  match sleIssue with
  | none => .tesSUCCESS
  | some sle =>
    if !sle.highOut.isNative ∧ sle.highOut.decimal < saDstAmount.decimal then
      .tecIOU_PRECISION_MISMATCH
    else .tesSUCCESS

/-- `doApply` for one payee. -/
def payOne (mc : MtchainCalc) (f : Payment) (ctx : ApplyContext) (dst : AccountID)
    (saDstAmount : STAmount) : ViewM TER := do
  let sleIssue ← peek (keylet.tracker saDstAmount.issue)
  let ter := checkPrecision saDstAmount sleIssue
  if ter ≠ .tesSUCCESS then
    return ter
  else
    touchDestination dst
    match saDstAmount with
    | .native drops =>
      if f.paths.isSome ∨ f.sendMax.isSome then
        f.payMtchain mc ctx dst saDstAmount
      else
        payDirect ctx dst drops
    | .issued _ _ => f.payMtchain mc ctx dst saDstAmount

/-- The sender's balances after a payment, as the loop over the payees keeps them. -/
def afterPaying (ctx : ApplyContext) : STAmount → ApplyContext
  | .native drops =>
    { ctx with
      mPriorBalance := ctx.mPriorBalance - drops
      mSourceBalance := ctx.mSourceBalance - drops }
  | .issued _ _ => ctx

/-- The loop of `doApply`. -/
def payAll (mc : MtchainCalc) (f : Payment) :
    List (AccountID × STAmount) → ApplyContext → TER → ViewM TER
  | [], _, ter => return ter
  | (dst, amount) :: rest, ctx, _ => do
    let ter ← f.payOne mc ctx dst amount
    if ter ≠ .tesSUCCESS then return ter else payAll mc f rest (afterPaying ctx amount) ter

def doApply (mc : MtchainCalc) (f : Payment) (ctx : ApplyContext) : ViewM TER :=
  f.payAll mc f.getAccountList ctx .tecNO_DST

def transactor (mc : MtchainCalc) (f : Payment) : Transactor where
  preflight := f.preflight
  preclaim := f.preclaim
  payees := (f.payees.getD []).length
  doApply ctx := (f.doApply mc ctx).onTable

end Payment
end FinPal
