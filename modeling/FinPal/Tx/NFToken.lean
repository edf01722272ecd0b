import FinPal.Tx.NFAsset

/-!
# Tokens

The transactors of `app/tx/impl/NFToken.cpp` that create, destroy, revoke and transfer tokens. The
tokens of an asset are listed twice: all by `ltNFT_INDEX`, and those of one owner by
`ltNFT_OWNER_INDEX`. A token is taken off a list by moving the last one into its place.
-/

namespace FinPal
open Store ViewM

def MAX_TOKEN_ID_LENGTH : Nat := 66

/-- `n - 1` in 64 bits. -/
def pred64 (n : Nat) : Nat := if n = 0 then 2 ^ 64 - 1 else n - 1

/-- Counts one more token for an owner, who is added to the asset's owners when new. Returns the
number of tokens before. -/
def addOwnerToken (assetid : Digest) (owner : AccountID) : ViewM Nat := do
  match ← peek (keylet.nftAccount assetid owner) with
  | none =>
    addAssetOwner owner assetid
    update (keylet.nftAccount assetid owner) fun o => { o with tokenNumber := 1 }
    return 0
  | some sleAssetOwner =>
    update (keylet.nftAccount assetid owner) fun o =>
      { o with tokenNumber := sleAssetOwner.tokenNumber + 1 }
    return sleAssetOwner.tokenNumber

/-- Leaves an owner with `ownerTokenNum` tokens. An owner left with none is removed, unless it is
the asset's issuer. -/
def dropOwnerToken (assetid : Digest) (asset : NFAsset) (owner : AccountID)
    (sleAssetOwner : NFTAccount) (ownerTokenNum : Nat) : ViewM Unit :=
  if ownerTokenNum ≠ 0 ∨ owner = asset.issuer then
    update (keylet.nftAccount assetid owner) fun o => { o with tokenNumber := ownerTokenNum }
  else
    removeAssetOwner owner assetid sleAssetOwner

/-- Puts the last token of the asset's list at `tokenIndex`. -/
def moveLastToken (assetid : Digest) (tokenIndex tokenNum : Nat) (lastTokenID : Digest) :
    ViewM Unit :=
  if tokenIndex ≠ tokenNum then do
    update (keylet.nftIndex assetid tokenIndex) fun i => { i with tokenID := lastTokenID }
    update (keylet.nfTokenAt lastTokenID) fun t => { t with tokenIndex := tokenIndex }
  else
    return ()

/-- Puts the last token of the owner's list at `ownerTokenIndex`. -/
def moveLastOwnerToken (assetid : Digest) (owner : AccountID) (ownerTokenIndex ownerTokenNum : Nat)
    (lastOwnerTokenID : Digest) : ViewM Unit :=
  if ownerTokenIndex ≠ ownerTokenNum then do
    update (keylet.nftOwnerIndex assetid owner ownerTokenIndex) fun i =>
      { i with tokenID := lastOwnerTokenID }
    update (keylet.nfTokenAt lastOwnerTokenID) fun t => { t with ownerTokenIndex := ownerTokenIndex }
  else
    return ()

/-! ## CreateToken -/

structure CreateToken where
  assetID : Digest
  ident : Blob
  owner : AccountID
  imprint : Option Blob := none

namespace CreateToken

def check (f : CreateToken) : TER :=
  if MAX_TOKEN_ID_LENGTH < f.ident.length then .temBAD_TOKEN else .tesSUCCESS

def preclaim (f : CreateToken) (ctx : PreclaimContext) : Except Fault TER :=
  if (ctx.view.state.get (keylet.account f.owner)).isNone then .ok .tefNO_OWNER
  else .ok .tesSUCCESS

def doApply (f : CreateToken) (tx : STTx) : ViewM TER := do
  let some asset ← peek (keylet.nfAssetAt f.assetID) | return .tefNO_ASSET
  let k := keylet.nfToken f.assetID f.ident
  let .none ← peek k | return .tefTOKEN_EXIST
  if asset.issuer ≠ tx.account then
    return .tecNO_PERMISSION
  else
    let tokenNum := asset.tokenNumber
    update (keylet.nfAssetAt f.assetID) fun a => { a with tokenNumber := tokenNum + 1 }
    let ownerTokenNum ← addOwnerToken f.assetID f.owner
    insert k
      { assetID := f.assetID
        ident := f.ident
        tokenID := k.key
        owner := f.owner
        tokenIndex := tokenNum
        ownerTokenIndex := ownerTokenNum
        transactionHash := tx.transactionID
        memos := tx.memos
        imprint := f.imprint }
    upsert (keylet.nftIndex f.assetID tokenNum) { tokenID := k.key } fun i =>
      { i with tokenID := k.key }
    upsert (keylet.nftOwnerIndex f.assetID f.owner ownerTokenNum) { tokenID := k.key } fun i =>
      { i with tokenID := k.key }
    return .tesSUCCESS

def transactor (f : CreateToken) : Transactor where
  preflight := preflightWith fun _ => .ok f.check
  preclaim := f.preclaim
  doApply ctx := (f.doApply ctx.tx).onTable

end CreateToken

/-! ## DestroyToken, RevokeToken and TransferToken -/

structure TokenRef where
  tokenID : Option Digest := none
  assetID : Option Digest := none
  ident : Option Blob := none

namespace TokenRef

/-- `DestroyToken::preflight`. -/
def check (r : TokenRef) : TER :=
  if r.tokenID.isSome ∨ (r.assetID.isSome ∧ r.ident.isSome) then .tesSUCCESS else .temMALFORMED

/-- `tokenKey_`; an absent field reads as zero or empty. -/
def tokenKey (r : TokenRef) : Keylet NFToken :=
  match r.tokenID with
  | some id => keylet.nfTokenAt id
  | none => keylet.nfToken (r.assetID.getD (.raw 0)) (r.ident.getD [])

end TokenRef

/-- `DestroyToken::checkPermission`. -/
def destroyPermission (account : AccountID) (token : NFToken) (asset : NFAsset) : Bool :=
  token.owner = account && asset.flags &&& tfDestroyToken ≠ 0

/-- `RevokeToken::checkPermission`. -/
def revokePermission (account : AccountID) (_ : NFToken) (asset : NFAsset) : Bool :=
  asset.issuer = account && asset.flags &&& tfRevokeToken ≠ 0

/-- `TransferToken::checkPermission`: the owner, the approved account and the owner's operators. -/
def transferPermission (account : AccountID) (token : NFToken) (asset : NFAsset) : ViewM Bool := do
  let auth ← peek (keylet.nftAuth token.assetID token.owner account)
  return (token.owner = account ∨ token.approved = some account ∨ auth.isSome) &&
    asset.flags &&& tfTransferToken ≠ 0

/-- `DestroyToken::doApply`, with the permission that its subclass asks for. -/
def destroyToken (r : TokenRef) (permission : NFToken → NFAsset → Bool) : ViewM TER := do
  let k := r.tokenKey
  let some token ← peek k | return .tefNO_TOKEN
  let assetid := token.assetID
  let some asset ← peek (keylet.nfAssetAt assetid) | return .tefINTERNAL
  if !permission token asset then
    return .tecNO_PERMISSION
  else
    let owner := token.owner
    let some sleAssetOwner ← peek (keylet.nftAccount assetid owner) | return .tefINTERNAL
    let some _ ← peek (keylet.nftIndex assetid token.tokenIndex) | return .tefINTERNAL
    let some _ ← peek (keylet.nftOwnerIndex assetid owner token.ownerTokenIndex)
      | return .tefINTERNAL
    let tokenNum := pred64 asset.tokenNumber
    let some last ← peek (keylet.nftIndex assetid tokenNum) | return .tefINTERNAL
    let some _ ← peek (keylet.nfTokenAt last.tokenID) | return .tefINTERNAL
    let ownerTokenNum := pred64 sleAssetOwner.tokenNumber
    let some lastOwner ← peek (keylet.nftOwnerIndex assetid owner ownerTokenNum)
      | return .tefINTERNAL
    let some _ ← peek (keylet.nfTokenAt lastOwner.tokenID) | return .tefINTERNAL
    update (keylet.nfAssetAt assetid) fun a => { a with tokenNumber := tokenNum }
    erase k
    dropOwnerToken assetid asset owner sleAssetOwner ownerTokenNum
    erase (keylet.nftIndex assetid tokenNum)
    erase (keylet.nftOwnerIndex assetid owner ownerTokenNum)
    moveLastToken assetid token.tokenIndex tokenNum last.tokenID
    moveLastOwnerToken assetid owner token.ownerTokenIndex ownerTokenNum lastOwner.tokenID
    return .tesSUCCESS

def DestroyToken.transactor (r : TokenRef) : Transactor where
  preflight := preflightWith fun _ => .ok r.check
  doApply ctx := (destroyToken r (destroyPermission ctx.tx.account)).onTable

def RevokeToken.transactor (r : TokenRef) : Transactor where
  preflight := preflightWith fun _ => .ok r.check
  doApply ctx := (destroyToken r (revokePermission ctx.tx.account)).onTable

structure TransferToken where
  token : TokenRef
  destination : AccountID

namespace TransferToken

def preclaim (f : TransferToken) (ctx : PreclaimContext) : Except Fault TER :=
  if (ctx.view.state.get (keylet.account f.destination)).isNone then .ok .tecNO_DST
  else .ok .tesSUCCESS

def doApply (f : TransferToken) (tx : STTx) : ViewM TER := do
  let k := f.token.tokenKey
  let some token ← peek k | return .tefNO_TOKEN
  let assetid := token.assetID
  let some asset ← peek (keylet.nfAssetAt assetid) | return .tefINTERNAL
  let permitted ← transferPermission tx.account token asset
  if !permitted then
    return .tecNO_PERMISSION
  else if f.destination = token.owner then
    return .tefDST_IS_OWNER
  else
    let owner := token.owner
    let some sleAssetOwner ← peek (keylet.nftAccount assetid owner) | return .tefINTERNAL
    let some _ ← peek (keylet.nftOwnerIndex assetid owner token.ownerTokenIndex)
      | return .tefINTERNAL
    let ownerTokenNum := pred64 sleAssetOwner.tokenNumber
    let some lastOwner ← peek (keylet.nftOwnerIndex assetid owner ownerTokenNum)
      | return .tefINTERNAL
    let some _ ← peek (keylet.nfTokenAt lastOwner.tokenID) | return .tefINTERNAL
    -- off the current owner's list
    dropOwnerToken assetid asset owner sleAssetOwner ownerTokenNum
    erase (keylet.nftOwnerIndex assetid owner ownerTokenNum)
    moveLastOwnerToken assetid owner token.ownerTokenIndex ownerTokenNum lastOwner.tokenID
    -- onto the new owner's list
    let destTokenNum ← addOwnerToken assetid f.destination
    upsert (keylet.nftOwnerIndex assetid f.destination destTokenNum) { tokenID := k.key } fun i =>
      { i with tokenID := k.key }
    update k fun t =>
      { t with owner := f.destination, ownerTokenIndex := destTokenNum, approved := none }
    return .tesSUCCESS

def transactor (f : TransferToken) : Transactor where
  preflight := preflightWith fun _ => .ok f.token.check
  preclaim := f.preclaim
  doApply ctx := (f.doApply ctx.tx).onTable

end TransferToken
end FinPal
