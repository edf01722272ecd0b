import FinPal.Protocol.Indexes

/-!
# Ledger entries

One structure for each entry type of `protocol/impl/LedgerFormats.cpp` that the modelled transactors
touch, with the fields they read or write. Absent counters and page numbers read as zero.
`sfPreviousTxnID` and `sfPreviousTxnLgrSeq`, which no transactor writes, stand beside the entry in
`SLE`.
-/

namespace FinPal

/-- A memo as it was sent. It has no template, so that each field may be absent. -/
structure Memo where
  memoType : Option Blob := none
  memoData : Option Blob := none
  memoFormat : Option Blob := none
  deriving DecidableEq

structure AccountRoot where
  account : AccountID
  sequence : UInt32
  balance : Int
  ownerCount : UInt32 := 0
  flags : UInt32 := 0
  accountTxnID : Option TxID := none
  regularKey : Option AccountID := none
  assetNumber : Nat := 0
  transferRate : Option UInt32 := none
  transferFee : Option STAmount := none
  deriving DecidableEq

def lsfPasswordSpent : UInt32 := 0x00010000
def lsfRequireDestTag : UInt32 := 0x00020000
def lsfRequireAuth : UInt32 := 0x00040000
def lsfDisallowM : UInt32 := 0x00080000
def lsfDisableMaster : UInt32 := 0x00100000
def lsfGlobalFreeze : UInt32 := 0x00400000
def lsfDefaultMtchain : UInt32 := 0x00800000

structure DirNode where
  owner : Option AccountID := none
  indexes : List Digest := []
  rootIndex : Digest
  indexNext : Nat := 0
  indexPrevious : Nat := 0
  deriving DecidableEq

structure Offer where
  account : AccountID
  takerPays : STAmount
  bookDirectory : Digest
  bookNode : Nat
  ownerNode : Nat
  takerGets : STAmount := .native 0
  expiration : Option UInt32 := none
  deriving DecidableEq

/-- A trust line, or the tracker of an issue: the line of the issuer with `mAccount`. A tracker may
have a limit and, in `sfHighOut`, an amount with the decimal places of the issue. -/
structure MTChainState where
  balance : STAmount := .native 0
  lowLimit : STAmount := .native 0
  highLimit : STAmount := .native 0
  flags : UInt32 := 0
  lowNode : Option Nat := none
  highNode : Option Nat := none
  lowQualityIn : UInt32 := 0
  lowQualityOut : UInt32 := 0
  highQualityIn : UInt32 := 0
  highQualityOut : UInt32 := 0
  limitAmount : Option STAmount := none
  highOut : STAmount := .native 0
  transferRate : Option UInt32 := none
  deriving DecidableEq

def lsfLowReserve : UInt32 := 0x00010000
def lsfHighReserve : UInt32 := 0x00020000
def lsfLowAuth : UInt32 := 0x00040000
def lsfHighAuth : UInt32 := 0x00080000
def lsfLowNoMtchain : UInt32 := 0x00100000
def lsfHighNoMtchain : UInt32 := 0x00200000
def lsfLowFreeze : UInt32 := 0x00400000
def lsfHighFreeze : UInt32 := 0x00800000

structure Escrow where
  account : AccountID
  destination : AccountID
  amount : STAmount
  condition : Option Blob := none
  cancelAfter : Option UInt32 := none
  finishAfter : Option UInt32 := none
  sourceTag : Option UInt32 := none
  destinationTag : Option UInt32 := none
  ownerNode : Nat := 0
  deriving DecidableEq

structure SignerEntry where
  account : AccountID
  weight : Nat
  deriving DecidableEq

structure SignerList where
  ownerNode : Nat
  signerQuorum : Nat
  signerEntries : List SignerEntry
  deriving DecidableEq

structure PayChan where
  account : AccountID
  destination : AccountID
  amount : STAmount
  balance : STAmount
  publicKey : Blob
  settleDelay : UInt32
  expiration : Option UInt32 := none
  cancelAfter : Option UInt32 := none
  sourceTag : Option UInt32 := none
  destinationTag : Option UInt32 := none
  ownerNode : Nat := 0
  deriving DecidableEq

structure NFAsset where
  issuer : AccountID
  ident : Blob
  assetID : Digest
  tokenNumber : Nat := 0
  name : Option Blob := none
  memos : Option (List Memo) := none
  transactionHash : TxID
  flags : UInt32 := 0
  deriving DecidableEq

structure NFToken where
  assetID : Digest
  ident : Blob
  tokenID : Digest
  owner : AccountID
  approved : Option AccountID := none
  tokenIndex : Nat
  ownerTokenIndex : Nat
  memos : Option (List Memo) := none
  transactionHash : TxID
  imprint : Option Blob := none
  deriving DecidableEq

/-- `ltNFTAUTH`: its presence is the authorisation; no field of it is ever set. -/
structure NFTAuth where
  deriving DecidableEq

/-- `ltNFT_ACCOUNT`: how many tokens of an asset an account owns, and where the account lists the
asset. -/
structure NFTAccount where
  tokenNumber : Nat := 0
  assetIndex : Option Nat := none
  deriving DecidableEq

structure NFTIndex where
  tokenID : Digest
  deriving DecidableEq

structure NFTOwnerIndex where
  tokenID : Digest
  deriving DecidableEq

structure NFAssetIndex where
  assetID : Digest
  deriving DecidableEq

inductive Entry where
  | accountRoot (e : AccountRoot)
  | dirNode (e : DirNode)
  | offer (e : Offer)
  | mtchainState (e : MTChainState)
  | escrow (e : Escrow)
  | signerList (e : SignerList)
  | payChan (e : PayChan)
  | nfAsset (e : NFAsset)
  | nfToken (e : NFToken)
  | nftAuth (e : NFTAuth)
  | nftAccount (e : NFTAccount)
  | nftIndex (e : NFTIndex)
  | nftOwnerIndex (e : NFTOwnerIndex)
  | nfAssetIndex (e : NFAssetIndex)
  deriving DecidableEq

/-- The entry types. `ofEntry` is `Keylet::check`: an entry of another type is not seen. -/
class IsEntry (α : Type) where
  toEntry : α → Entry
  ofEntry : Entry → Option α
  ofEntry_eq_some : ∀ {e a}, ofEntry e = some a ↔ e = toEntry a := by intro e _; cases e <;> simp

export IsEntry (toEntry ofEntry ofEntry_eq_some)

@[simp] theorem ofEntry_toEntry {α : Type} [IsEntry α] (a : α) : ofEntry (toEntry a) = some a :=
  ofEntry_eq_some.2 rfl

instance : IsEntry AccountRoot where
  toEntry := .accountRoot
  ofEntry | .accountRoot e => some e | _ => none

instance : IsEntry DirNode where
  toEntry := .dirNode
  ofEntry | .dirNode e => some e | _ => none

instance : IsEntry Offer where
  toEntry := .offer
  ofEntry | .offer e => some e | _ => none

instance : IsEntry MTChainState where
  toEntry := .mtchainState
  ofEntry | .mtchainState e => some e | _ => none

instance : IsEntry Escrow where
  toEntry := .escrow
  ofEntry | .escrow e => some e | _ => none

instance : IsEntry SignerList where
  toEntry := .signerList
  ofEntry | .signerList e => some e | _ => none

instance : IsEntry PayChan where
  toEntry := .payChan
  ofEntry | .payChan e => some e | _ => none

instance : IsEntry NFAsset where
  toEntry := .nfAsset
  ofEntry | .nfAsset e => some e | _ => none

instance : IsEntry NFToken where
  toEntry := .nfToken
  ofEntry | .nfToken e => some e | _ => none

instance : IsEntry NFTAuth where
  toEntry := .nftAuth
  ofEntry | .nftAuth e => some e | _ => none

instance : IsEntry NFTAccount where
  toEntry := .nftAccount
  ofEntry | .nftAccount e => some e | _ => none

instance : IsEntry NFTIndex where
  toEntry := .nftIndex
  ofEntry | .nftIndex e => some e | _ => none

instance : IsEntry NFTOwnerIndex where
  toEntry := .nftOwnerIndex
  ofEntry | .nftOwnerIndex e => some e | _ => none

instance : IsEntry NFAssetIndex where
  toEntry := .nfAssetIndex
  ofEntry | .nfAssetIndex e => some e | _ => none

/-! ## Keylets -/

namespace keylet

def account (id : AccountID) : Keylet AccountRoot := ⟨.account id⟩
def ownerDir (id : AccountID) : Keylet DirNode := ⟨.ownerDir id⟩
def page (root : Digest) (index : Nat) : Keylet DirNode := ⟨getDirNodeIndex root index⟩
def line (a b : AccountID) (c : Currency) : Keylet MTChainState := ⟨getMtchainStateIndex a b c⟩
def offer (key : Digest) : Keylet Offer := ⟨key⟩
def signers (id : AccountID) : Keylet SignerList := ⟨.signerList id⟩
def escrow (source : AccountID) (seq : UInt32) : Keylet Escrow := ⟨.escrow source seq⟩
def payChan (source dst : AccountID) (seq : UInt32) : Keylet PayChan := ⟨.payChan source dst seq⟩
def nfAsset (issuer : AccountID) (id : Blob) : Keylet NFAsset := ⟨.nfAsset issuer id⟩
def nfAssetAt (assetid : Digest) : Keylet NFAsset := ⟨assetid⟩
def nfAssetIndex (a : AccountID) (i : Nat) : Keylet NFAssetIndex := ⟨.nfAssetIndex a i⟩
def nfToken (assetid : Digest) (id : Blob) : Keylet NFToken := ⟨.nfToken assetid id⟩
def nfTokenAt (tokenid : Digest) : Keylet NFToken := ⟨tokenid⟩
def nftAuth (assetid : Digest) (owner oper : AccountID) : Keylet NFTAuth :=
  ⟨.nftAuth assetid owner oper⟩
def nftAccount (assetid : Digest) (owner : AccountID) : Keylet NFTAccount :=
  ⟨.nftAccount assetid owner⟩
def nftIndex (assetid : Digest) (i : Nat) : Keylet NFTIndex := ⟨.nftIndex assetid i⟩
def nftOwnerIndex (assetid : Digest) (owner : AccountID) (i : Nat) : Keylet NFTOwnerIndex :=
  ⟨.nftOwnerIndex assetid owner i⟩

end keylet

/-! ## Serialised ledger entries -/

/-- An entry with its threading fields: the last transaction that affected it, and the ledger of
that. -/
structure SLE where
  entry : Entry
  previousTxnID : Option TxID := none
  previousTxnLgrSeq : UInt32 := 0
  deriving DecidableEq

/-- The entry's format has `sfPreviousTxnID`. -/
def Entry.isThreadedType : Entry → Bool
  | .accountRoot _ | .offer _ | .mtchainState _ | .escrow _ | .signerList _ | .payChan _ => true
  | _ => false

def SLE.thread (s : SLE) (txID : TxID) (seq : UInt32) : SLE :=
  if s.previousTxnID = some txID then s
  else { s with previousTxnID := some txID, previousTxnLgrSeq := seq }

@[simp] theorem SLE.thread_entry (s : SLE) (txID : TxID) (seq : UInt32) :
    (s.thread txID seq).entry = s.entry := by
  unfold SLE.thread; split <;> rfl

/-- The accounts to whose root `threadOwners` threads the creation or deletion of the entry. -/
def Entry.owners : Entry → List AccountID
  | .escrow e => [e.account, e.destination]
  | .payChan e => [e.account, e.destination]
  | .mtchainState e => [e.lowLimit.getIssuer, e.highLimit.getIssuer]
  | .offer e => [e.account]
  | _ => []

end FinPal
