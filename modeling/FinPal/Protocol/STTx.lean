import FinPal.Protocol.LedgerFormats
import FinPal.Protocol.TER

/-!
# Transactions and their signatures

`STTx` holds the fields that all transactions share. `Crypto` stands for the cryptography: the
signed data is the transaction without its signatures, with the signing account in a
multi-signature; the authorization of a payment channel signs the channel and an amount.
-/

namespace FinPal

structure Signer where
  account : AccountID
  signingPubKey : Blob
  txnSignature : Blob
  deriving DecidableEq

structure STTx where
  transactionID : TxID
  signingHash : Digest
  account : AccountID
  sequence : UInt32
  fee : STAmount
  flags : UInt32 := 0
  accountTxnID : Option TxID := none
  lastLedgerSequence : Option UInt32 := none
  signingPubKey : Blob := []
  txnSignature : Option Blob := none
  signers : Option (List Signer) := none
  memos : Option (List Memo) := none
  sourceTag : Option UInt32 := none

structure Crypto where
  publicKeyType : Blob → Bool
  calcAccountID : Blob → AccountID
  verify : (publicKey : Blob) → (signingHash : Digest) → (signingFor : Option AccountID) →
    (signature : Blob) → (fullyCanonical : Bool) → Bool
  verifyAuthorization : (publicKey : Blob) → (channel : Digest) → (drops : Int) →
    (signature : Blob) → Bool
  toBase58 : AccountID → String

def tfFullyCanonicalSig : UInt32 := 0x80000000
def tfUniversal : UInt32 := tfFullyCanonicalSig

def SYSTEM_CURRENCY_START : Int := 21 * 100000000 * 1000000

/-- The comparison is unsigned, so a negative amount is not legal. -/
def isLegalAmount (drops : Int) : Bool := 0 ≤ drops && drops ≤ SYSTEM_CURRENCY_START

namespace STTx

def minMultiSigners : Nat := 1
def maxMultiSigners : Nat := 8

def hasFlag (tx : STTx) (flag : UInt32) : Bool := tx.flags &&& flag ≠ 0

/-- `STTx::checkSingleSign`; an error carries its text. -/
def checkSingleSign (c : Crypto) (tx : STTx) : Except String Unit :=
  if tx.signers.isSome then
    .error "Cannot both single- and multi-sign."
  else if c.publicKeyType tx.signingPubKey &&
      c.verify tx.signingPubKey tx.signingHash none (tx.txnSignature.getD [])
        (tx.hasFlag tfFullyCanonicalSig) then
    .ok ()
  else
    .error "Invalid signature."

/-- The loop of `STTx::checkMultiSign` over the signers, after `last`. -/
def checkSigners (c : Crypto) (tx : STTx) : AccountID → List Signer → Except String Unit
  | _, [] => .ok ()
  | last, signer :: rest =>
    if signer.account = tx.account then
      .error "Invalid multisigner."
    else if last = signer.account then
      .error "Duplicate Signers not allowed."
    else if signer.account < last then
      .error "Unsorted Signers array."
    else if c.publicKeyType signer.signingPubKey &&
        c.verify signer.signingPubKey tx.signingHash (some signer.account) signer.txnSignature
          (tx.hasFlag tfFullyCanonicalSig) then
      checkSigners c tx signer.account rest
    else
      .error ("Invalid signature on account " ++ c.toBase58 signer.account ++ ".")

/-- The order check starts from the zero account. -/
def checkMultiSign (c : Crypto) (tx : STTx) : Except String Unit :=
  match tx.signers with
  | none => .error "Empty SigningPubKey."
  | some signers =>
    if tx.txnSignature.isSome then
      .error "Cannot both single- and multi-sign."
    else if signers.length < minMultiSigners ∨ maxMultiSigners < signers.length then
      .error "Invalid Signers array size."
    else
      checkSigners c tx 0 signers

def checkSign (c : Crypto) (tx : STTx) (allowMultiSign : Bool) : Except String Unit :=
  if allowMultiSign && tx.signingPubKey.isEmpty then checkMultiSign c tx else checkSingleSign c tx

end STTx
end FinPal
