import FinPal.Tx.Transactor
import Mathlib.Data.List.Sort

/-!
# Signer lists

`SetSignerList` of `app/tx/impl/SetSignerList.cpp`. The list is sorted and checked in preflight; the
sorted list is stored.
-/

namespace FinPal
open Store ViewM

structure SetSignerList where
  signerQuorum : Nat
  signerEntries : Option (List SignerEntry) := none

namespace SetSignerList

inductive Operation where
  | unknown
  | set
  | destroy
  deriving DecidableEq

/-- Whether two neighbours have the same account. -/
def adjacentFind : List SignerEntry → Bool
  | e :: e' :: rest => e.account = e'.account || adjacentFind (e' :: rest)
  | _ => false

/-- The operation, and the signers in the order of their accounts. -/
def determineOperation (f : SetSignerList) : Operation × List SignerEntry :=
  match f.signerEntries with
  | some entries =>
    if f.signerQuorum ≠ 0 then
      (.set, entries.insertionSort fun a b => a.account ≤ b.account)
    else (.unknown, [])
  | none => if f.signerQuorum = 0 then (.destroy, []) else (.unknown, [])

/-- The loop over the signers: no weight is zero and no signer is the account itself. Returns the
weight of all signers. -/
def checkEntries (account : AccountID) : List SignerEntry → Nat → Except TER Nat
  | [], allSignersWeight => .ok allSignersWeight
  | signer :: rest, allSignersWeight =>
    if signer.weight = 0 then .error .temBAD_WEIGHT
    else if signer.account = account then .error .temBAD_SIGNER
    else checkEntries account rest (allSignersWeight + signer.weight)

def validateQuorumAndSignerEntries (quorum : Nat) (signers : List SignerEntry)
    (account : AccountID) : TER :=
  if signers.length < STTx.minMultiSigners ∨ STTx.maxMultiSigners < signers.length then
    .temMALFORMED
  else if adjacentFind signers then .temBAD_SIGNER
  else
    match checkEntries account signers 0 with
    | .error ter => ter
    | .ok allSignersWeight =>
      if quorum = 0 ∨ allSignersWeight < quorum then .temBAD_QUORUM else .tesSUCCESS

def check (f : SetSignerList) (ctx : PreflightContext) : Except Fault TER :=
  match f.determineOperation with
  | (.unknown, _) => .ok .temMALFORMED
  | (.set, signers) => .ok (validateQuorumAndSignerEntries f.signerQuorum signers ctx.tx.account)
  | (.destroy, _) => .ok .tesSUCCESS

def preflight (f : SetSignerList) (ctx : PreflightContext) : Except Fault TER :=
  if !ctx.enabled .multiSign then .ok .temDISABLED else preflightWith f.check ctx

/-- A list costs two units of the owner count, and each of its entries one more. -/
def ownerCountDelta (entryCount : Nat) : Nat := 2 + entryCount

def removeSignersFromLedger (account : AccountID) : ViewM TER := do
  match ← peek (keylet.signers account) with
  | none => return .tesSUCCESS
  | some signers =>
    let result ← dirDelete false signers.ownerNode (keylet.ownerDir account).key
      (keylet.signers account).key false (signers.ownerNode = 0)
    if result = .tesSUCCESS then
      adjustOwnerCount account (-(ownerCountDelta signers.signerEntries.length : Int))
      erase (keylet.signers account)
      return result
    else
      erase (keylet.signers account)
      return result

def replaceSignerList (f : SetSignerList) (ctx : ApplyContext) (signers : List SignerEntry) :
    ViewM TER := do
  let account := ctx.tx.account
  let ter ← removeSignersFromLedger account
  if ter ≠ .tesSUCCESS then
    return ter
  else
    let sle ← peek! (keylet.account account)
    let addedOwnerCount := ownerCountDelta signers.length
    let ownerCount := sle.ownerCount + UInt32.ofNat addedOwnerCount
    if ctx.mPriorBalance < ctx.view.fees.accountReserve ownerCount.toNat then
      return .tecINSUFFICIENT_RESERVE
    else
      insert (keylet.signers account)
        { ownerNode := 0, signerQuorum := f.signerQuorum, signerEntries := signers }
      let result ← dirAdd (keylet.ownerDir account) (keylet.signers account).key
        (describeOwnerDir account)
      if result.1 = .tesSUCCESS then
        update (keylet.signers account) fun l => { l with ownerNode := result.2 }
        adjustOwnerCount account addedOwnerCount
        return result.1
      else
        return result.1

def destroySignerList (ctx : ApplyContext) : ViewM TER := do
  let ledgerEntry ← peek! (keylet.account ctx.tx.account)
  if ledgerEntry.flags &&& lsfDisableMaster ≠ 0 ∧ ledgerEntry.regularKey.isNone then
    return .tecNO_ALTERNATIVE_KEY
  else
    removeSignersFromLedger ctx.tx.account

def doApply (f : SetSignerList) (ctx : ApplyContext) : ViewM TER :=
  match f.determineOperation with
  | (.set, signers) => f.replaceSignerList ctx signers
  | (.destroy, _) => destroySignerList ctx
  | (.unknown, _) => return .temMALFORMED

def transactor (f : SetSignerList) : Transactor where
  preflight := f.preflight
  doApply ctx := (f.doApply ctx).onTable

end SetSignerList
end FinPal
