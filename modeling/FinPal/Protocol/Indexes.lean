import FinPal.Protocol.Amount

/-!
# Ledger indexes

Every index of `protocol/impl/Indexes.cpp` is `sha512Half` of a space tag and the identifying
values. `Digest` is the free type of those hashes, which is collision freedom. `Digest.raw` stands
for the 256-bit values that are no such hash, such as transaction identifiers.
-/

namespace FinPal

abbrev Blob := List UInt8

instance lawfulBEq_blob : LawfulBEq Blob := inferInstance

inductive Digest where
  | raw (n : Nat)
  | account (id : AccountID)
  | ownerDir (id : AccountID)
  | dirNode (root : Digest) (page : Nat)
  | bookDir (payIn payOut : Issue) (quality : Nat)
  | line (low high : AccountID) (currency : Currency)
  | offer (id : AccountID) (seq : UInt32)
  | signerList (id : AccountID)
  | escrow (source : AccountID) (seq : UInt32)
  | payChan (source dst : AccountID) (seq : UInt32)
  | nfAsset (issuer : AccountID) (id : Blob)
  | nfToken (asset : Digest) (id : Blob)
  | nftAuth (asset : Digest) (owner oper : AccountID)
  | nftAccount (asset : Digest) (owner : AccountID)
  | nftIndex (asset : Digest) (tokenIndex : Nat)
  | nftOwnerIndex (asset : Digest) (owner : AccountID) (ownerTokenIndex : Nat)
  | nfAssetIndex (account : AccountID) (assetIndex : Nat)
  deriving DecidableEq

/-- A transaction identifier, the hash of the signed transaction. -/
abbrev TxID := Digest

/-- Page `0` of a directory is its root. -/
def getDirNodeIndex (root : Digest) (page : Nat) : Digest :=
  if page = 0 then root else .dirNode root page

/-- A trust line is filed under its two accounts in increasing order. -/
def getMtchainStateIndex (a b : AccountID) (currency : Currency) : Digest :=
  if a < b then .line a b currency else .line b a currency

theorem getMtchainStateIndex_comm (a b : AccountID) (c : Currency) :
    getMtchainStateIndex a b c = getMtchainStateIndex b a c := by
  unfold getMtchainStateIndex
  rcases lt_trichotomy a b with h | rfl | h
  · rw [if_pos h, if_neg h.asymm]
  · rfl
  · rw [if_neg h.asymm, if_pos h]

/-- A key together with the type of entry expected there. -/
structure Keylet (α : Type) where
  key : Digest

end FinPal
