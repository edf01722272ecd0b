import FinPal.Ledger.PaymentSandbox
import FinPal.Ledger.TrustLines
import FinPal.Protocol.IOUAmount

/-!
# The sandboxes of a payment

A `PaymentSandbox` shows a state and keeps the credits and owner counts it was told of, beside those
of the sandboxes below it (`ledger/PaymentSandbox.h`), with the functions that steps call on it
(`ledger/impl/View.cpp`, `app/paths/Credit.cpp`).
-/

namespace FinPal
open Store
namespace IOUAmount

def toRat (a : IOUAmount) : ℚ :=
  if 0 ≤ a.exponent then a.mantissa * 10 ^ a.exponent.toNat
  else a.mantissa / 10 ^ (-a.exponent).toNat

/-- The amount of a value. Ledgers hold values of at most 96 decimal places. -/
def ofRat (q : ℚ) : Except Fault IOUAmount :=
  normalize ((q * 10 ^ 96).num.tdiv (q * 10 ^ 96).den) minExponent

end IOUAmount

def IOUAmount.toSTAmount (a : IOUAmount) (issue : Issue) : STAmount := .issued issue a.toRat

/-- `toAmount<IOUAmount>`. -/
def STAmount.toIOU : STAmount → Except Fault IOUAmount
  | native _ => .error .exception
  | issued _ q => IOUAmount.ofRat q

def QUALITY_ONE : ℕ := 1000000000

structure PaymentSandbox where
  /-- What the sandbox shows: its own changes over what its parents show. -/
  view : State
  tab : DeferredCredits := {}
  /-- The tables of the sandboxes below, the nearest first. -/
  parents : List DeferredCredits := []
  rules : PaymentRules
  fix1449 : Bool := true
  /-- The result that a step leaves with the sandbox. -/
  result : TER := .tesSUCCESS

namespace PaymentSandbox

/-- `PaymentSandbox sb (&parent)`. -/
def child (parent : PaymentSandbox) : PaymentSandbox where
  view := parent.view
  parents := parent.tab :: parent.parents
  rules := parent.rules
  fix1449 := parent.fix1449

def apply (sb parent : PaymentSandbox) : Except Fault PaymentSandbox := do
  let tab ← sb.tab.apply parent.tab
  return { parent with view := sb.view, tab }

/-- `accountHolds` of an issue, with `fhIGNORE_FREEZE`. -/
def accountHolds (sb : PaymentSandbox) (account : AccountID) (currency : Currency)
    (issuer : AccountID) : Except Fault STAmount :=
  let amount :=
    match sb.view.get (keylet.line account issuer currency) with
    | none => .issued ⟨currency, issuer⟩ 0
    | some sle => (sle.balanceOf (issuer < account)).setIssuer issuer
  balanceHook sb.rules (sb.tab :: sb.parents) account issuer amount

def creditLimit (sb : PaymentSandbox) (account issuer : AccountID) (currency : Currency) :
    STAmount :=
  match sb.view.get (keylet.line account issuer currency) with
  | none => .issued ⟨currency, account⟩ 0
  | some sle => (if account < issuer then sle.lowLimit else sle.highLimit).setIssuer account

def creditBalance (sb : PaymentSandbox) (account issuer : AccountID) (currency : Currency) :
    STAmount :=
  match sb.view.get (keylet.line account issuer currency) with
  | none => .issued ⟨currency, account⟩ 0
  | some sle => (sle.balanceOf (account < issuer)).setIssuer account

/-- `transferRate` of an issue: that of its tracker, or that of the issuer. -/
def transferRate (sb : PaymentSandbox) (issuer : AccountID) (currency : Currency) : ℕ :=
  match (sb.view.get (keylet.line mAccount issuer currency)).bind (·.transferRate) with
  | some rate => rate.toNat
  | none =>
    match (sb.view.get (keylet.account issuer)).bind (·.transferRate) with
    | some rate => rate.toNat
    | none => QUALITY_ONE

def ownerCount (view : State) (id : AccountID) : UInt32 :=
  ((view.get (keylet.account id)).map (·.ownerCount)).getD 0

/-- The records of `creditHook` and `adjustOwnerCountHook` in a credit from `view` to `view'`. A new
line counts for the receiver; on an old one the sender's count is adjusted when its reserve flag
goes. -/
def recordCredit (tab : DeferredCredits) (view view' : State) (sender receiver : AccountID)
    (amount : STAmount) : Except Fault DeferredCredits := do
  let k := keylet.line sender receiver amount.getCurrency
  match view.get k with
  | none =>
    let saBalance := amount.setIssuer noAccount
    let tab := tab.recordOwnerCount receiver (ownerCount view receiver) (ownerCount view' receiver)
    tab.credit sender receiver saBalance saBalance.zeroed
  | some state =>
    let tab ← tab.credit sender receiver amount (state.balanceOf (receiver < sender))
    if (view'.get k).map (·.flags) ≠ some state.flags then
      return tab.recordOwnerCount sender (ownerCount view sender) (ownerCount view' sender)
    else
      return tab

/-- `mtchainCredit` on a sandbox. -/
def mtchainCredit (sb : PaymentSandbox) (sender receiver : AccountID) (amount : STAmount) :
    Except Fault PaymentSandbox := do
  let (_, view) ← exec (FinPal.mtchainCredit sender receiver amount) sb.view
  let tab ← recordCredit sb.tab sb.view view sender receiver amount
  return { sb with view, tab }

/-- `offerDelete` of an offer that is there. The owner's count changes unless the owner's directory
does not list the offer. -/
def removeOffer (sb : PaymentSandbox) (key : Digest) : Except Fault PaymentSandbox :=
  match sb.view.get (keylet.offer key) with
  | none => .ok sb
  | some offer => do
    let (_, view) ← exec (offerDelete (keylet.offer key) offer) sb.view
    let before := ownerCount sb.view offer.account
    let after := ownerCount view offer.account
    let tab := if before = after then sb.tab else sb.tab.recordOwnerCount offer.account before after
    return { sb with view, tab }

end PaymentSandbox
end FinPal
