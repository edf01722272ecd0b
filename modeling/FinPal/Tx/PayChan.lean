import FinPal.Tx.Escrow

/-!
# Payment channels

`PayChanCreate`, `PayChanFund` and `PayChanClaim` of `app/tx/impl/PayChan.cpp`. Of `sfAmount`, which
a channel holds, `sfBalance` has been paid to the destination. `PayChanCreate` does not check its
amount in preflight: the check is commented out in the source.
-/

namespace FinPal
open Store ViewM

def tfRenew : UInt32 := 0x00010000
def tfClose : UInt32 := 0x00020000

/-- Removes a channel and gives what it still holds to its owner. -/
def closeChannel (k : Keylet PayChan) : ViewM TER := do
  let slep ← peek! k
  let ter ← dirDelete true slep.ownerNode (keylet.ownerDir slep.account).key k.key false
    (slep.ownerNode = 0)
  if ter ≠ .tesSUCCESS then
    return ter
  else
    let amount ← ofExcept slep.amount.drops
    let balance ← ofExcept slep.balance.drops
    update (keylet.account slep.account) fun a =>
      { a with balance := a.balance + amount - balance, ownerCount := a.ownerCount - 1 }
    erase k
    return .tesSUCCESS

/-- The channel is past its cancel time or its expiration. -/
def PayChan.isExpired (c : PayChan) (closeTime : UInt32) : Bool :=
  c.cancelAfter.any (· ≤ closeTime) || c.expiration.any (· ≤ closeTime)

/-! ## PayChanCreate -/

structure PayChanCreate where
  destination : AccountID
  amount : STAmount
  settleDelay : UInt32
  publicKey : Blob
  cancelAfter : Option UInt32 := none
  destinationTag : Option UInt32 := none

namespace PayChanCreate

def check (f : PayChanCreate) (ctx : PreflightContext) : Except Fault TER :=
  if ctx.tx.account = f.destination then .ok .temDST_IS_SRC
  else if !ctx.app.crypto.publicKeyType f.publicKey then .ok .temMALFORMED
  else .ok .tesSUCCESS

def preflight (f : PayChanCreate) (ctx : PreflightContext) : Except Fault TER :=
  if !ctx.enabled .payChan then .ok .temDISABLED else preflightWith f.check ctx

def preclaim (f : PayChanCreate) (ctx : PreclaimContext) : Except Fault TER :=
  match ctx.view.state.get (keylet.account ctx.tx.account) with
  | none => .error .nullPointer
  | some sle =>
    let reserve := ctx.view.fees.accountReserve (sle.ownerCount + 1).toNat
    if sle.balance < reserve then .ok .tecINSUFFICIENT_RESERVE
    else do
      let needed ← (STAmount.native reserve).add f.amount
      if ← (STAmount.native sle.balance).lt needed then
        return .tecUNFUNDED
      else
        return checkDestination (ctx.view.state.get (keylet.account f.destination)) f.destinationTag

/-- The entry before its directory page is known. -/
def entry (f : PayChanCreate) (tx : STTx) : PayChan where
  account := tx.account
  destination := f.destination
  amount := f.amount
  balance := f.amount.zeroed
  publicKey := f.publicKey
  settleDelay := f.settleDelay
  cancelAfter := f.cancelAfter
  sourceTag := tx.sourceTag
  destinationTag := f.destinationTag

def doApply (f : PayChanCreate) (ctx : ApplyContext) : ViewM TER := do
  let account := ctx.tx.account
  let sle ← peek! (keylet.account account)
  let k := keylet.payChan account f.destination (sle.sequence - 1)
  insert k (f.entry ctx.tx)
  let result ← dirAdd (keylet.ownerDir account) k.key (describeOwnerDir account)
  if result.1 ≠ .tesSUCCESS then
    return result.1
  else
    update k fun c => { c with ownerNode := result.2 }
    let drops ← ofExcept f.amount.drops
    update (keylet.account account) fun a =>
      { a with balance := a.balance - drops, ownerCount := a.ownerCount + 1 }
    return .tesSUCCESS

def transactor (f : PayChanCreate) : Transactor where
  preflight := f.preflight
  preclaim := f.preclaim
  doApply ctx := (f.doApply ctx).onTable

end PayChanCreate

/-! ## PayChanFund -/

structure PayChanFund where
  payChannel : Digest
  amount : STAmount
  expiration : Option UInt32 := none

def isPositiveM : STAmount → Bool
  | .native drops => 0 < drops
  | .issued _ _ => false

namespace PayChanFund

def check (f : PayChanFund) (_ : PreflightContext) : Except Fault TER :=
  if !isPositiveM f.amount then .ok .temBAD_AMOUNT else .ok .tesSUCCESS

def preflight (f : PayChanFund) (ctx : PreflightContext) : Except Fault TER :=
  if !ctx.enabled .payChan then .ok .temDISABLED else preflightWith f.check ctx

/-- The earliest expiration that the owner may set. -/
def minExpiration (slep : PayChan) (closeTime : UInt32) : UInt32 :=
  let earliest := closeTime + slep.settleDelay
  match slep.expiration with
  | some expiration => if expiration < earliest then expiration else earliest
  | none => earliest

def extend (f : PayChanFund) (k : Keylet PayChan) (slep : PayChan) (closeTime : UInt32) :
    ViewM TER := do
  match f.expiration with
  | none => return .tesSUCCESS
  | some expiration =>
    if expiration < minExpiration slep closeTime then
      return .temBAD_EXPIRATION
    else
      update k fun c => { c with expiration := some expiration }
      return .tesSUCCESS

def deposit (f : PayChanFund) (ctx : ApplyContext) (k : Keylet PayChan) : ViewM TER := do
  let sle ← peek! (keylet.account ctx.tx.account)
  let reserve := ctx.view.fees.accountReserve sle.ownerCount.toNat
  if sle.balance < reserve then
    return .tecINSUFFICIENT_RESERVE
  else
    let drops ← ofExcept f.amount.drops
    if sle.balance < reserve + drops then
      return .tecUNFUNDED
    else
      let slep ← peek! k
      let amount ← ofExcept (slep.amount.add f.amount)
      update k fun c => { c with amount }
      update (keylet.account ctx.tx.account) fun a => { a with balance := a.balance - drops }
      return .tesSUCCESS

def doApply (f : PayChanFund) (ctx : ApplyContext) : ViewM TER := do
  let k : Keylet PayChan := ⟨f.payChannel⟩
  match ← peek k with
  | none => return .tecNO_ENTRY
  | some slep =>
    if slep.isExpired ctx.view.parentCloseTime then
      closeChannel k
    else if slep.account ≠ ctx.tx.account then
      return .tecNO_PERMISSION
    else
      let ter ← f.extend k slep ctx.view.parentCloseTime
      if ter ≠ .tesSUCCESS then return ter else f.deposit ctx k

def transactor (f : PayChanFund) : Transactor where
  preflight := f.preflight
  doApply ctx := (f.doApply ctx).onTable

end PayChanFund

/-! ## PayChanClaim -/

structure PayChanClaim where
  payChannel : Digest
  balance : Option STAmount := none
  amount : Option STAmount := none
  signature : Option Blob := none
  publicKey : Option Blob := none

namespace PayChanClaim

/-- A signature authorizes payments up to `sfAmount`, or up to `sfBalance` without it. -/
def checkSignature (f : PayChanClaim) (crypto : Crypto) (sig : Blob) : Except Fault TER :=
  match f.publicKey, f.balance with
  | some publicKey, some bal => do
    let reqBalance ← bal.drops
    let authAmt ← (f.amount.getD bal).drops
    if authAmt < reqBalance then return .tecNO_PERMISSION
    else if !crypto.publicKeyType publicKey then return .temMALFORMED
    else if !crypto.verifyAuthorization publicKey f.payChannel authAmt sig then
      return .temBAD_SIGNATURE
    else return .tesSUCCESS
  | _, _ => .ok .temMALFORMED

def checkAmounts (f : PayChanClaim) : Except Fault TER :=
  match f.balance, f.amount with
  | some bal, some amt => do
    if ← amt.lt bal then return .tecNO_PERMISSION else return .tesSUCCESS
  | _, _ => .ok .tesSUCCESS

def check (f : PayChanClaim) (ctx : PreflightContext) : Except Fault TER :=
  if f.balance.any (!isPositiveM ·) then .ok .temBAD_AMOUNT
  else if f.amount.any (!isPositiveM ·) then .ok .temBAD_AMOUNT
  else do
    let ter ← f.checkAmounts
    if ter ≠ .tesSUCCESS then return ter
    else if ctx.tx.hasFlag tfClose && ctx.tx.hasFlag tfRenew then return .temMALFORMED
    else
      match f.signature with
      | none => return .tesSUCCESS
      | some sig => f.checkSignature ctx.app.crypto sig

def preflight (f : PayChanClaim) (ctx : PreflightContext) : Except Fault TER :=
  if !ctx.enabled .payChan then .ok .temDISABLED else preflightWith f.check ctx

/-- Pays the destination up to the requested balance. -/
def payOut (f : PayChanClaim) (ctx : ApplyContext) (k : Keylet PayChan) (slep : PayChan) :
    ViewM TER := do
  match f.balance with
  | none => return .tesSUCCESS
  | some bal =>
    let chanBalance ← ofExcept slep.balance.drops
    let chanFunds ← ofExcept slep.amount.drops
    let reqBalance ← ofExcept bal.drops
    if ctx.tx.account = slep.destination ∧ f.signature.isNone then
      return .temBAD_SIGNATURE
    else if f.signature.isSome ∧ f.publicKey ≠ some slep.publicKey then
      return .temBAD_SIGNER
    else if chanFunds < reqBalance then
      return .tecUNFUNDED_PAYMENT
    else if reqBalance ≤ chanBalance then
      return .tecUNFUNDED_PAYMENT
    else
      match ← peek (keylet.account slep.destination) with
      | none => return .terNO_ACCOUNT
      | some sled =>
        if ctx.tx.account = slep.account ∧ sled.flags &&& lsfDisallowM ≠ 0 then
          return .tecNO_TARGET
        else
          update (keylet.account slep.destination) fun a =>
            { a with balance := a.balance + (reqBalance - chanBalance) }
          update k fun c => { c with balance := bal }
          return .tesSUCCESS

/-- The owner may take an expiration back. -/
def renew (ctx : ApplyContext) (k : Keylet PayChan) (src : AccountID) : ViewM TER := do
  if ctx.tx.hasFlag tfRenew then
    if src ≠ ctx.tx.account then
      return .tecNO_PERMISSION
    else
      update k fun c => { c with expiration := none }
      return .tesSUCCESS
  else
    return .tesSUCCESS

/-- Closes the channel when it is dry or the destination asks, else lets it expire after the settle
delay. `curExpiration` is the expiration found. -/
def close (ctx : ApplyContext) (k : Keylet PayChan) (curExpiration : Option UInt32) :
    ViewM TER := do
  if ctx.tx.hasFlag tfClose then
    let slep ← peek! k
    if slep.destination = ctx.tx.account ∨ slep.balance.eq slep.amount then
      closeChannel k
    else
      let settleExpiration := ctx.view.parentCloseTime + slep.settleDelay
      if curExpiration.all (settleExpiration < ·) then
        update k fun c => { c with expiration := some settleExpiration }
        return .tesSUCCESS
      else
        return .tesSUCCESS
  else
    return .tesSUCCESS

def doApply (f : PayChanClaim) (ctx : ApplyContext) : ViewM TER := do
  let k : Keylet PayChan := ⟨f.payChannel⟩
  match ← peek k with
  | none => return .tecNO_TARGET
  | some slep =>
    if slep.isExpired ctx.view.parentCloseTime then
      closeChannel k
    else if ctx.tx.account ≠ slep.account ∧ ctx.tx.account ≠ slep.destination then
      return .tecNO_PERMISSION
    else
      let ter ← f.payOut ctx k slep
      if ter ≠ .tesSUCCESS then
        return ter
      else
        let ter ← renew ctx k slep.account
        if ter ≠ .tesSUCCESS then return ter else close ctx k slep.expiration

def transactor (f : PayChanClaim) : Transactor where
  preflight := f.preflight
  doApply ctx := (f.doApply ctx).onTable

end PayChanClaim
end FinPal
