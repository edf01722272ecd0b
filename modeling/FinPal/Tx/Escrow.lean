import FinPal.Tx.Transactor

/-!
# Escrows

`EscrowCreate`, `EscrowFinish` and `EscrowCancel` of `app/tx/impl/Escrow.cpp`. `CryptoConditions`
stands for the parsers of conditions and fulfillments. The source keeps the answer of a check with
the transaction's identifier; here a condition is checked where it is used.
-/

namespace FinPal
open Store ViewM

/-- `cryptoconditions::Type`. -/
inductive ConditionType where
  | preimageSha256
  | prefixSha256
  | thresholdSha256
  | rsaSha256
  | ed25519Sha256
  deriving DecidableEq

/-- `deserialize` is the type of the condition that the bytes encode; `checkCondition` whether the
first argument encodes a fulfillment of the condition in the second. -/
structure CryptoConditions where
  deserialize : Blob → Option ConditionType
  checkCondition : (fulfillment condition : Blob) → Bool

/-! ## EscrowCreate -/

/-- The destination of an escrow or a channel exists, is given the tag it wants, and accepts the native currency. -/
def checkDestination (sled : Option AccountRoot) (destinationTag : Option UInt32) : TER :=
  match sled with
  | none => .tecNO_DST
  | some sled =>
    if sled.flags &&& lsfRequireDestTag ≠ 0 ∧ destinationTag.isNone then .tecDST_TAG_NEEDED
    else if sled.flags &&& lsfDisallowM ≠ 0 then .tecNO_TARGET
    else .tesSUCCESS

structure EscrowCreate where
  destination : AccountID
  amount : STAmount
  condition : Option Blob := none
  cancelAfter : Option UInt32 := none
  finishAfter : Option UInt32 := none
  destinationTag : Option UInt32 := none

namespace EscrowCreate

def checkTimes (f : EscrowCreate) : TER :=
  match f.cancelAfter, f.finishAfter with
  | none, none => .temBAD_EXPIRATION
  | some cancelAfter, some finishAfter =>
    if cancelAfter ≤ finishAfter then .temBAD_EXPIRATION else .tesSUCCESS
  | _, _ => .tesSUCCESS

def check (cc : CryptoConditions) (f : EscrowCreate) (ctx : PreflightContext) : Except Fault TER :=
  match f.amount with
  | .issued _ _ => .ok .temBAD_AMOUNT
  | .native drops =>
    if drops ≤ 0 then .ok .temBAD_AMOUNT
    else if f.checkTimes ≠ .tesSUCCESS then .ok f.checkTimes
    else
      match f.condition with
      | none => .ok .tesSUCCESS
      | some cb =>
        match cc.deserialize cb with
        | none => .ok .temMALFORMED
        | some type =>
          if type ≠ .preimageSha256 ∧ !ctx.enabled .cryptoConditionsSuite then .ok .temDISABLED
          else .ok .tesSUCCESS

def preflight (cc : CryptoConditions) (f : EscrowCreate) (ctx : PreflightContext) :
    Except Fault TER :=
  if !ctx.enabled .escrow then .ok .temDISABLED else preflightWith (f.check cc) ctx

/-- The entry before its directory page is known. -/
def entry (f : EscrowCreate) (tx : STTx) : Escrow where
  account := tx.account
  destination := f.destination
  amount := f.amount
  condition := f.condition
  cancelAfter := f.cancelAfter
  finishAfter := f.finishAfter
  sourceTag := tx.sourceTag
  destinationTag := f.destinationTag

/-- The part of `doApply` after the checks. -/
def create (f : EscrowCreate) (tx : STTx) (k : Keylet Escrow) (drops : Int) : ViewM TER := do
  insert k (f.entry tx)
  let result ← dirAdd (keylet.ownerDir tx.account) k.key (describeOwnerDir tx.account)
  if result.1 ≠ .tesSUCCESS then
    return result.1
  else
    update k fun e => { e with ownerNode := result.2 }
    update (keylet.account tx.account) fun a =>
      { a with balance := a.balance - drops, ownerCount := a.ownerCount + 1 }
    return .tesSUCCESS

def doApply (f : EscrowCreate) (ctx : ApplyContext) : ViewM TER := do
  let closeTime := ctx.view.parentCloseTime
  if f.cancelAfter.any (· ≤ closeTime) then
    return .tecNO_PERMISSION
  else if f.finishAfter.any (· ≤ closeTime) then
    return .tecNO_PERMISSION
  else
    let account := ctx.tx.account
    let sle ← peek! (keylet.account account)
    let reserve := ctx.view.fees.accountReserve (sle.ownerCount + 1).toNat
    if sle.balance < reserve then
      return .tecINSUFFICIENT_RESERVE
    else
      let drops ← ofExcept f.amount.drops
      if sle.balance < reserve + drops then
        return .tecUNFUNDED
      else
        let sled ← peek (keylet.account f.destination)
        let ter := checkDestination sled f.destinationTag
        if ter ≠ .tesSUCCESS then
          return ter
        else
          -- the sequence of the account is already that of the next transaction
          f.create ctx.tx (keylet.escrow account (sle.sequence - 1)) drops

def transactor (cc : CryptoConditions) (f : EscrowCreate) : Transactor where
  preflight := f.preflight cc
  doApply ctx := (f.doApply ctx).onTable

end EscrowCreate

/-! ## EscrowFinish -/

structure EscrowFinish where
  owner : AccountID
  offerSequence : UInt32
  condition : Option Blob := none
  fulfillment : Option Blob := none

namespace EscrowFinish

def check (f : EscrowFinish) (_ : PreflightContext) : Except Fault TER :=
  if f.condition.isSome ≠ f.fulfillment.isSome then .ok .temMALFORMED else .ok .tesSUCCESS

def preflight (f : EscrowFinish) (ctx : PreflightContext) : Except Fault TER :=
  if !ctx.enabled .escrow then .ok .temDISABLED else preflightWith f.check ctx

/-- `EscrowFinish::calculateBaseFee` charges for the size of the fulfillment. -/
def extraFee (f : EscrowFinish) (fees : Fees) : Nat :=
  match f.fulfillment with
  | none => 0
  | some fb => fees.units * (32 + fb.length / 16)

/-- The fulfillment fits the condition given, and the escrow has that condition. -/
def checkFulfillment (cc : CryptoConditions) (f : EscrowFinish) (cond : Option Blob) : TER :=
  match f.condition with
  | none => if cond.isSome then .tecCRYPTOCONDITION_ERROR else .tesSUCCESS
  | some cb =>
    match f.fulfillment with
    | none => .tecINTERNAL
    | some fb =>
      if !cc.checkCondition fb cb then .tecCRYPTOCONDITION_ERROR
      else if cond ≠ some cb then .tecCRYPTOCONDITION_ERROR
      else .tesSUCCESS

/-- The part of `doApply` after the checks. -/
def release (k : Keylet Escrow) (e : Escrow) : ViewM TER := do
  let ter ← dirDelete true e.ownerNode (keylet.ownerDir e.account).key k.key false (e.ownerNode = 0)
  if ter ≠ .tesSUCCESS then
    return ter
  else
    match ← peek (keylet.account e.destination) with
    | none => return .tecNO_DST
    | some _ =>
      let drops ← ofExcept e.amount.drops
      update (keylet.account e.destination) fun a => { a with balance := a.balance + drops }
      update (keylet.account e.account) fun a => { a with ownerCount := a.ownerCount - 1 }
      erase k
      return .tesSUCCESS

def doApply (cc : CryptoConditions) (f : EscrowFinish) (ctx : ApplyContext) : ViewM TER := do
  let k := keylet.escrow f.owner f.offerSequence
  match ← peek k with
  | none => return .tecNO_TARGET
  | some slep =>
    if slep.finishAfter.any (ctx.view.parentCloseTime ≤ ·) then
      return .tecNO_PERMISSION
    else if slep.cancelAfter.any (· ≤ ctx.view.parentCloseTime) then
      return .tecNO_PERMISSION
    else
      let ter := f.checkFulfillment cc slep.condition
      if ter ≠ .tesSUCCESS then return ter else release k slep

def transactor (cc : CryptoConditions) (f : EscrowFinish) : Transactor where
  preflight := f.preflight
  extraFee := f.extraFee
  doApply ctx := (f.doApply cc ctx).onTable

end EscrowFinish

/-! ## EscrowCancel -/

structure EscrowCancel where
  owner : AccountID
  offerSequence : UInt32

namespace EscrowCancel

def preflight (_ : EscrowCancel) (ctx : PreflightContext) : Except Fault TER :=
  if !ctx.enabled .escrow then .ok .temDISABLED
  else preflightWith (fun _ => .ok .tesSUCCESS) ctx

/-- The part of `doApply` after the checks. -/
def release (k : Keylet Escrow) (e : Escrow) : ViewM TER := do
  let ter ← dirDelete true e.ownerNode (keylet.ownerDir e.account).key k.key false (e.ownerNode = 0)
  if ter ≠ .tesSUCCESS then
    return ter
  else
    let drops ← ofExcept e.amount.drops
    update (keylet.account e.account) fun a =>
      { a with balance := a.balance + drops, ownerCount := a.ownerCount - 1 }
    erase k
    return .tesSUCCESS

def doApply (f : EscrowCancel) (ctx : ApplyContext) : ViewM TER := do
  let k := keylet.escrow f.owner f.offerSequence
  match ← peek k with
  | none => return .tecNO_TARGET
  | some slep =>
    -- an escrow without a cancel time is never cancelled
    if slep.cancelAfter.all (ctx.view.parentCloseTime ≤ ·) then
      return .tecNO_PERMISSION
    else
      release k slep

def transactor (f : EscrowCancel) : Transactor where
  preflight := f.preflight
  doApply ctx := (f.doApply ctx).onTable

end EscrowCancel
end FinPal
