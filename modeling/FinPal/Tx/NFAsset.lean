import FinPal.Tx.Transactor

/-!
# Assets

The transactors of `app/tx/impl/NFAsset.cpp` that create and destroy assets, and the functions that
keep an account's list of assets: `addAssetOwner` appends to it and `removeAssetOwner` moves the
last asset into the gap.
-/

namespace FinPal
open Store ViewM

def MAX_ASSET_ID_LENGTH : Nat := 15
def MAX_ASSET_NAME_LENGTH : Nat := 31

def tfTransferToken : UInt32 := 0x00000001
def tfDestroyToken : UInt32 := 0x00000002
def tfUpdateToken : UInt32 := 0x00000004
def tfToggleTransfer : UInt32 := 0x00000008
def tfRevokeToken : UInt32 := 0x00000010
def tfAssetCapMask : UInt32 :=
  ~~~(tfUniversal ||| tfTransferToken ||| tfDestroyToken ||| tfUpdateToken ||| tfToggleTransfer |||
    tfRevokeToken)

/-- Inserts an entry, or changes the one that is there, of which the source warns. -/
def upsert {α : Type} [IsEntry α] (k : Keylet α) (new : α) (f : α → α) : ViewM Unit := do
  match ← peek k with
  | none => insert k new
  | some _ => update k f

/-- Lists the asset under the owner's next index and creates its `ltNFT_ACCOUNT` entry. -/
def addAssetOwner (owner : AccountID) (assetid : Digest) : ViewM Unit := do
  let sleOwner ← peek! (keylet.account owner)
  let assetNum := sleOwner.assetNumber
  update (keylet.account owner) fun a => { a with assetNumber := assetNum + 1 }
  upsert (keylet.nfAssetIndex owner assetNum) { assetID := assetid }
    fun i => { i with assetID := assetid }
  insert (keylet.nftAccount assetid owner) { tokenNumber := 0, assetIndex := some assetNum }

/-- Takes one off the owner's number of assets, and gives what is left. -/
def decrementAssetNumber (owner : AccountID) : ViewM Nat := do
  let sleOwner ← peek! (keylet.account owner)
  if 0 < sleOwner.assetNumber then
    update (keylet.account owner) fun a => { a with assetNumber := sleOwner.assetNumber - 1 }
    return sleOwner.assetNumber - 1
  else
    return sleOwner.assetNumber

/-- Moves the last asset of the owner's list to `assetIndex`. -/
def moveLastAsset (owner : AccountID) (assetNum assetIndex : Nat) : ViewM Unit := do
  match ← peek (keylet.nfAssetIndex owner assetNum) with
  | none => return ()
  | some last =>
    update (keylet.nfAssetIndex owner assetIndex) fun i => { i with assetID := last.assetID }
    erase (keylet.nfAssetIndex owner assetNum)
    match ← peek (keylet.nftAccount last.assetID owner) with
    | none => return ()
    | some _ =>
      update (keylet.nftAccount last.assetID owner) fun o => { o with assetIndex := some assetIndex }

/-- Removes the owner's `ltNFT_ACCOUNT` entry, whose contents are `sleAssetOwner`, and takes the
asset off the owner's list. -/
def removeAssetOwner (owner : AccountID) (assetid : Digest) (sleAssetOwner : NFTAccount) :
    ViewM Unit := do
  erase (keylet.nftAccount assetid owner)
  let assetNum ← decrementAssetNumber owner
  match sleAssetOwner.assetIndex with
  | none => return ()
  | some assetIndex =>
    match ← peek (keylet.nfAssetIndex owner assetIndex) with
    | none => return ()
    | some _ =>
      if assetNum ≠ assetIndex then
        moveLastAsset owner assetNum assetIndex
      else
        erase (keylet.nfAssetIndex owner assetIndex)

/-! ## CreateAsset -/

structure CreateAsset where
  ident : Blob
  name : Option Blob := none

namespace CreateAsset

def check (f : CreateAsset) (ctx : PreflightContext) : Except Fault TER :=
  if MAX_ASSET_ID_LENGTH < f.ident.length then .ok .temBAD_ASSET
  else if f.name.any (MAX_ASSET_NAME_LENGTH < ·.length) then .ok .temBAD_ASSET
  else if ctx.tx.hasFlag tfAssetCapMask then .ok .temBAD_ASSET
  else .ok .tesSUCCESS

def doApply (f : CreateAsset) (tx : STTx) : ViewM TER := do
  let k := keylet.nfAsset tx.account f.ident
  match ← peek k with
  | some _ => return .tefASSET_EXIST
  | none =>
    insert k
      { issuer := tx.account
        ident := f.ident
        assetID := k.key
        tokenNumber := 0
        transactionHash := tx.transactionID
        name := f.name
        memos := tx.memos
        flags := tx.flags }
    addAssetOwner tx.account k.key
    return .tesSUCCESS

def transactor (f : CreateAsset) : Transactor where
  preflight := preflightWith f.check
  doApply ctx := (f.doApply ctx.tx).onTable

end CreateAsset

/-! ## DestroyAsset -/

structure DestroyAsset where
  assetID : Digest

namespace DestroyAsset

def preclaim (f : DestroyAsset) (ctx : PreclaimContext) : Except Fault TER :=
  match ctx.view.state.get (keylet.nfAssetAt f.assetID) with
  | none => .ok .tefNO_ASSET
  | some asset =>
    if asset.issuer ≠ ctx.tx.account then .ok .tecNO_PERMISSION else .ok .tesSUCCESS

def doApply (f : DestroyAsset) (tx : STTx) : ViewM TER := do
  let asset ← peek! (keylet.nfAssetAt f.assetID)
  if 0 < asset.tokenNumber then
    return .tefDESTROY_ASSET
  else
    match ← peek (keylet.nftAccount f.assetID tx.account) with
    | none =>
      erase (keylet.nfAssetAt f.assetID)
      return .tesSUCCESS
    | some sleAssetOwner =>
      removeAssetOwner tx.account f.assetID sleAssetOwner
      erase (keylet.nfAssetAt f.assetID)
      return .tesSUCCESS

def transactor (f : DestroyAsset) : Transactor where
  preflight := preflightWith fun _ => .ok .tesSUCCESS
  preclaim := f.preclaim
  doApply ctx := (f.doApply ctx.tx).onTable

end DestroyAsset
end FinPal
