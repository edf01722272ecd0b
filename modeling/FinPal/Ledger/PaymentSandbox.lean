import FinPal.Protocol.Amount
import Mathlib.Data.List.AList

/-!
# Deferred credits

A payment works on a chain of sandboxes. Each keeps the credits made inside it, one record for two
accounts and a currency, so that `balanceHook` can tell what an account had before
(`ledger/impl/PaymentSandbox.cpp`).
-/

namespace FinPal

/-- `DeferredCredits::Value`. -/
structure DeferredCredit where
  lowAcctCredits : STAmount
  highAcctCredits : STAmount
  lowAcctOrigBalance : STAmount
  deriving DecidableEq

/-- The credits of two records. The original balance stays. -/
def DeferredCredit.plus (v w : DeferredCredit) : Except Fault DeferredCredit := do
  let low ← v.lowAcctCredits.add w.lowAcctCredits
  let high ← v.highAcctCredits.add w.highAcctCredits
  return { v with lowAcctCredits := low, highAcctCredits := high }

structure Adjustment where
  debits : STAmount
  credits : STAmount
  origBalance : STAmount
  deriving DecidableEq

structure DeferredCredits where
  credits : AList fun _ : AccountID × AccountID × Currency => DeferredCredit := ∅
  ownerCounts : AList fun _ : AccountID => UInt32 := ∅
  deriving DecidableEq

namespace DeferredCredits

def makeKey (a1 a2 : AccountID) (c : Currency) : AccountID × AccountID × Currency :=
  if a1 < a2 then (a1, a2, c) else (a2, a1, c)

/-- Records a credit. Only the first one records the sender's balance. -/
def credit (t : DeferredCredits) (sender receiver : AccountID)
    (amount preCreditSenderBalance : STAmount) : Except Fault DeferredCredits := do
  let k := makeKey sender receiver amount.getCurrency
  match t.credits.lookup k with
  | none =>
    let v : DeferredCredit :=
      if sender < receiver then
        { highAcctCredits := amount
          lowAcctCredits := amount.zeroed
          lowAcctOrigBalance := preCreditSenderBalance }
      else
        { highAcctCredits := amount.zeroed
          lowAcctCredits := amount
          lowAcctOrigBalance := -preCreditSenderBalance }
    return { t with credits := t.credits.insert k v }
  | some v =>
    if sender < receiver then
      let sum ← v.highAcctCredits.add amount
      return { t with credits := t.credits.insert k { v with highAcctCredits := sum } }
    else
      let sum ← v.lowAcctCredits.add amount
      return { t with credits := t.credits.insert k { v with lowAcctCredits := sum } }

/-- The adjustments for the balance between `main` and `other`. -/
def adjustments (t : DeferredCredits) (main other : AccountID) (currency : Currency) :
    Option Adjustment :=
  (t.credits.lookup (makeKey main other currency)).map fun v =>
    if main < other then
      ⟨v.highAcctCredits, v.lowAcctCredits, v.lowAcctOrigBalance⟩
    else
      ⟨v.lowAcctCredits, v.highAcctCredits, -v.lowAcctOrigBalance⟩

def recordOwnerCount (t : DeferredCredits) (id : AccountID) (cur next : UInt32) : DeferredCredits :=
  let v := max cur next
  { t with ownerCounts := t.ownerCounts.insert id (((t.ownerCounts.lookup id).map (max v)).getD v) }

def ownerCount (t : DeferredCredits) (id : AccountID) : Option UInt32 := t.ownerCounts.lookup id

def mergeCredit (parent : AList fun _ : AccountID × AccountID × Currency => DeferredCredit)
    (i : Sigma fun _ : AccountID × AccountID × Currency => DeferredCredit) :
    Except Fault (AList fun _ : AccountID × AccountID × Currency => DeferredCredit) := do
  match parent.lookup i.1 with
  | none => return parent.insert i.1 i.2
  | some v => return parent.insert i.1 (← v.plus i.2)

def mergeOwnerCount (parent : AList fun _ : AccountID => UInt32)
    (i : Sigma fun _ : AccountID => UInt32) : AList fun _ : AccountID => UInt32 :=
  parent.insert i.1 (((parent.lookup i.1).map fun v => max v i.2).getD i.2)

def apply (t parent : DeferredCredits) : Except Fault DeferredCredits := do
  let credits ← t.credits.entries.foldlM mergeCredit parent.credits
  return { credits, ownerCounts := t.ownerCounts.entries.foldl mergeOwnerCount parent.ownerCounts }

end DeferredCredits

/-- The amendments that `balanceHook` looks at. -/
structure PaymentRules where
  amendmentRIPD1141 : Bool
  amendmentRIPD1274 : Bool
  fix1368 : Bool
  deriving DecidableEq

def STAmount.min (v w : STAmount) : Except Fault STAmount := do
  return if ← w.lt v then w else v

/-- What one sandbox contributes to the total of the debits, to the last and to the least original
balance. -/
def hookStep (account issuer : AccountID) (currency : Currency) (s : STAmount × STAmount × STAmount)
    (tab : DeferredCredits) : Except Fault (STAmount × STAmount × STAmount) := do
  match tab.adjustments account issuer currency with
  | none => return s
  | some adj =>
    let delta ← s.1.add adj.debits
    return (delta, adj.origBalance, if ← adj.origBalance.lt s.2.2 then adj.origBalance else s.2.2)

/-- The sandboxes are listed from the innermost to its last parent. -/
def balanceHook (rules : PaymentRules) (chain : List DeferredCredits) (account issuer : AccountID)
    (amount : STAmount) : Except Fault STAmount := do
  let currency := amount.getCurrency
  let adjustedAmt ← do
    if rules.amendmentRIPD1141 then
      let (delta, lastBal, minBal) ←
        chain.foldlM (hookStep account issuer currency) (amount.zeroed, amount, amount)
      let adjusted ← amount.min (← lastBal.sub delta)
      let adjusted ← if rules.fix1368 then adjusted.min minBal else pure adjusted
      pure (if rules.amendmentRIPD1274 then adjusted.setIssuer amount.getIssuer else adjusted)
    else
      chain.foldlM (fun adjusted tab =>
        match tab.adjustments account issuer currency with
        | none => pure adjusted
        | some adj => adjusted.sub adj.credits) amount
  return if issuer = mAccount ∧ adjustedAmt.signum < 0 then adjustedAmt.zeroed else adjustedAmt

def ownerCountHook (chain : List DeferredCredits) (account : AccountID) (count : UInt32) : UInt32 :=
  chain.foldl (fun result tab => ((tab.ownerCount account).map (max result)).getD result) count

end FinPal
