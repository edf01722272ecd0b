import FinPal.Tx.NFToken

/-!
# Approvals and settings of assets and tokens

The transactors of `app/tx/impl/NFAsset.cpp` and `NFToken.cpp` that leave owners alone: approvals
for all tokens of an asset or for one token, their cancellation, the flags of an asset, and the
memos and the imprint of a token.
-/

namespace FinPal
open Store ViewM

/-! ## ApproveAsset and CancelApproveAsset -/

structure ApproveAsset where
  assetID : Digest
  destination : AccountID

namespace ApproveAsset

def preclaim (f : ApproveAsset) (ctx : PreclaimContext) : Except Fault TER :=
  if (ctx.view.state.get (keylet.nfAssetAt f.assetID)).isNone then .ok .tefNO_ASSET
  else if (ctx.view.state.get (keylet.account f.destination)).isNone then .ok .tecNO_DST
  else if f.destination = ctx.tx.account then .ok .temDST_IS_SRC
  else .ok .tesSUCCESS

def assetAuthKey (f : ApproveAsset) (tx : STTx) : Keylet NFTAuth :=
  keylet.nftAuth f.assetID tx.account f.destination

def doApply (f : ApproveAsset) (tx : STTx) : ViewM TER := do
  match ← peek (f.assetAuthKey tx) with
  | some _ => return .tesSUCCESS
  | none =>
    insert (f.assetAuthKey tx) {}
    return .tesSUCCESS

def transactor (f : ApproveAsset) : Transactor where
  preflight := preflightWith fun _ => .ok .tesSUCCESS
  preclaim := f.preclaim
  doApply ctx := (f.doApply ctx.tx).onTable

end ApproveAsset

namespace CancelApproveAsset

def doApply (f : ApproveAsset) (tx : STTx) : ViewM TER := do
  match ← peek (f.assetAuthKey tx) with
  | some _ =>
    erase (f.assetAuthKey tx)
    return .tesSUCCESS
  | none => return .tesSUCCESS

def transactor (f : ApproveAsset) : Transactor where
  preflight := preflightWith fun _ => .ok .tesSUCCESS
  preclaim := f.preclaim
  doApply ctx := (doApply f ctx.tx).onTable

end CancelApproveAsset

/-! ## SetAsset -/

def asfAllowTransferToken : UInt32 := 1

structure SetAsset where
  assetID : Digest
  setFlag : Option UInt32 := none
  clearFlag : Option UInt32 := none

namespace SetAsset

/-- The flags after the change, unless it is not allowed. -/
def newFlags (f : SetAsset) (flags : UInt32) : Option UInt32 :=
  match f.setFlag, f.clearFlag with
  | some flag, _ =>
    if flag = asfAllowTransferToken ∧ flags &&& tfTransferToken = 0 then
      if flags &&& tfToggleTransfer = 0 then none else some (flags ||| tfTransferToken)
    else some flags
  | none, some flag =>
    if flag = asfAllowTransferToken ∧ flags &&& tfTransferToken = 1 then
      if flags &&& tfToggleTransfer = 0 then none else some (flags &&& ~~~tfTransferToken)
    else some flags
  | none, none => some flags

def doApply (f : SetAsset) : ViewM TER := do
  let asset ← peek! (keylet.nfAssetAt f.assetID)
  match f.newFlags asset.flags with
  | none => return .tecNO_PERMISSION
  | some flags =>
    if flags ≠ asset.flags then
      update (keylet.nfAssetAt f.assetID) fun a => { a with flags }
      return .tesSUCCESS
    else
      return .tesSUCCESS

/-- The checks before are those of `DestroyAsset`. -/
def transactor (f : SetAsset) : Transactor where
  preflight := preflightWith fun _ => .ok .tesSUCCESS
  preclaim := DestroyAsset.preclaim ⟨f.assetID⟩
  doApply _ := f.doApply.onTable

end SetAsset

/-! ## ApproveToken and CancelApproveToken -/

structure ApproveToken where
  token : TokenRef
  destination : AccountID

namespace ApproveToken

def doApply (f : ApproveToken) (tx : STTx) : ViewM TER := do
  let some token ← peek f.token.tokenKey | return .tefNO_TOKEN
  if token.owner ≠ tx.account then
    return .tecNO_PERMISSION
  else if f.destination = token.owner then
    return .temDST_IS_SRC
  else if token.approved ≠ some f.destination then
    update f.token.tokenKey fun t => { t with approved := some f.destination }
    return .tesSUCCESS
  else
    return .tesSUCCESS

/-- The checks before are those of `TransferToken`. -/
def transactor (f : ApproveToken) : Transactor where
  preflight := preflightWith fun _ => .ok f.token.check
  preclaim := TransferToken.preclaim ⟨f.token, f.destination⟩
  doApply ctx := (f.doApply ctx.tx).onTable

end ApproveToken

namespace CancelApproveToken

def doApply (r : TokenRef) (tx : STTx) : ViewM TER := do
  let some token ← peek r.tokenKey | return .tefNO_TOKEN
  if token.owner ≠ tx.account then
    return .tecNO_PERMISSION
  else if token.approved.isSome then
    update r.tokenKey fun t => { t with approved := none }
    return .tesSUCCESS
  else
    return .tesSUCCESS

def transactor (r : TokenRef) : Transactor where
  preflight := preflightWith fun _ => .ok r.check
  doApply ctx := (doApply r ctx.tx).onTable

end CancelApproveToken

/-! ## SetToken -/

def MAX_TOKEN_INFO_ENUM : Nat := 16
def MAX_TOKEN_INFO_SIZE : Nat := 1024

/-- `STObject::getFieldVL` throws where the field is absent. -/
def getFieldVL : Option Blob → Except Fault Blob
  | some blob => .ok blob
  | none => .error .exception

/-- The loop of `updateMemos` for a memo of a type. -/
def updateMemosFrom (type : Blob) (memo : Memo) : List Memo → Except Fault (Bool × List Memo)
  | [] => .ok (true, [memo])
  | info :: rest => do
    if (← getFieldVL info.memoType) ≠ type then
      let (changed, rest) ← updateMemosFrom type memo rest
      return (changed, info :: rest)
    else
      let data ← getFieldVL memo.memoData
      if 0 < data.length then
        if data = (← getFieldVL info.memoData) then return (false, info :: rest)
        else return (true, memo :: rest)
      else
        return (true, rest)

/-- Enters a memo under its type: one with data replaces the memo of that type, one with empty data
takes it away. Returns whether there was a change. -/
def updateMemos (infos : List Memo) (memo : Memo) : Except Fault (Bool × List Memo) := do
  updateMemosFrom (← getFieldVL memo.memoType) memo infos

structure SetToken where
  token : TokenRef
  imprint : Option Blob := none
  -- `STArray::add`, of which only the length is looked at
  serialize : List Memo → Blob

namespace SetToken

/-- `SetToken::checkPermission`: no flag of the asset is asked for. -/
def permission (account : AccountID) (token : NFToken) : ViewM Bool := do
  let auth ← peek (keylet.nftAuth token.assetID token.owner account)
  return token.owner = account ∨ token.approved = some account ∨ auth.isSome

/-- The token's memos with those of the transaction entered, and whether that is a change. -/
def newMemos (tx : STTx) (token : NFToken) : Except Fault (Bool × List Memo) :=
  (tx.memos.getD []).foldlM
    (fun r memo => do
      let (changed, infos) ← updateMemos r.2 memo
      return (r.1 || changed, infos))
    (false, token.memos.getD [])

def tooLong (f : SetToken) (memos : List Memo) : Bool :=
  MAX_TOKEN_INFO_ENUM < memos.length || MAX_TOKEN_INFO_SIZE < (f.serialize memos).length

def doApply (f : SetToken) (tx : STTx) : ViewM TER := do
  let some token ← peek f.token.tokenKey | return .tefNO_TOKEN
  let permitted ← permission tx.account token
  if !permitted then
    return .tecNO_PERMISSION
  else
    let (changed, infos) ← ofExcept (newMemos tx token)
    if changed && !infos.isEmpty && f.tooLong infos then
      return .tecINTERNAL
    else
      let memos := if changed then
        if infos.isEmpty then none else some infos else token.memos
      match f.imprint with
      | some imprint =>
        if token.imprint.isSome then
          return .tecNO_PERMISSION
        else
          update f.token.tokenKey fun t => { t with memos, imprint := some imprint }
          return .tesSUCCESS
      | none =>
        if changed then
          update f.token.tokenKey fun t => { t with memos }
          return .tesSUCCESS
        else
          return .tesSUCCESS

def transactor (f : SetToken) : Transactor where
  preflight := preflightWith fun _ => .ok f.token.check
  doApply ctx := (f.doApply ctx.tx).onTable

end SetToken
end FinPal
