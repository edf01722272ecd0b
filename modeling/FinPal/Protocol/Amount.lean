import Mathlib.Algebra.Order.Ring.Rat
import Mathlib.Order.Fin.Basic
import Mathlib.Tactic.Ring

/-!
# Accounts, issues and amounts

A native amount is a whole number of drops. An issued amount carries its issue and an exact rational
value: the rounding of `STAmount::canonicalize` is not modelled, but which operations throw because
their operands are not comparable is.
-/

namespace FinPal

/-- How an operation leaves without a result: a C++ exception, which `applySteps.cpp` catches, a
`LogicError`, which ends the process, or the use of a null pointer. -/
inductive Fault where
  | exception
  | logicError
  | nullPointer
  deriving DecidableEq, Repr

abbrev AccountID := Fin (2 ^ 160)
abbrev Currency := Fin (2 ^ 160)

instance neZero_uint160 : NeZero (2 ^ 160) := ⟨by decide⟩
instance neZero_uint256 : NeZero (2 ^ 256) := ⟨by decide⟩
instance lawfulBEq_uint256 : LawfulBEq (Fin (2 ^ 256)) := inferInstance

/-- The account that stands for the native currency's issuer. -/
def mAccount : AccountID := 0
def noAccount : AccountID := 1
def mCurrency : Currency := 0
def badCurrency : Currency := 0x5852500000000000

structure Issue where
  currency : Currency
  account : AccountID
  deriving DecidableEq, Repr

def mIssue : Issue := ⟨mCurrency, mAccount⟩

/-- A native amount in drops, or a value of an issue. -/
inductive STAmount where
  | native (drops : Int)
  | issued (issue : Issue) (value : ℚ)
  deriving DecidableEq, Repr

namespace STAmount

/-- No amount of an issue. -/
def ofIssue (i : Issue) : STAmount :=
  if i.currency = mCurrency then native 0 else issued i 0

def isNative : STAmount → Bool
  | native _ => true
  | issued _ _ => false

def issue : STAmount → Issue
  | native _ => mIssue
  | issued i _ => i

def getCurrency (v : STAmount) : Currency := v.issue.currency
def getIssuer (v : STAmount) : AccountID := v.issue.account

def signum : STAmount → Int
  | native d => d.sign
  | issued _ q => if q < 0 then -1 else if q = 0 then 0 else 1

def zeroed : STAmount → STAmount
  | native _ => native 0
  | issued i _ => issued i 0

def neg : STAmount → STAmount
  | native d => native (-d)
  | issued i q => issued i (-q)

instance : Neg STAmount := ⟨neg⟩

def setIssuer (v : STAmount) (a : AccountID) : STAmount :=
  match v with
  | native d => native d
  | issued i q => issued { i with account := a } q

/-- Operands are comparable when both are native or of one currency; issuers may differ. The sum has
the issue of the left operand. -/
def add : STAmount → STAmount → Except Fault STAmount
  | native a, native b => .ok (native (a + b))
  | issued i a, issued j b =>
    if i.currency = j.currency then .ok (issued i (a + b)) else .error .exception
  | _, _ => .error .exception

def sub (v w : STAmount) : Except Fault STAmount := v.add (-w)

def lt : STAmount → STAmount → Except Fault Bool
  | native a, native b => .ok (a < b)
  | issued i a, issued j b => if i.currency = j.currency then .ok (a < b) else .error .exception
  | _, _ => .error .exception

/-- `operator==`, which does not look at the issuers. -/
def eq : STAmount → STAmount → Bool
  | native a, native b => a = b
  | issued i a, issued j b => i.currency = j.currency ∧ a = b
  | _, _ => false

/-- A native amount is in the range of the currency. -/
def isLegalNet : STAmount → Bool
  | native d => d.natAbs ≤ 100000000000000000
  | issued _ _ => true

/-- `STAmount::decimal`, the decimal places of an issued value. Values have at most 96. -/
def decimal : STAmount → Nat
  | native _ => 0
  | issued _ q => ((List.range 97).find? fun n => (q * 10 ^ n).den = 1).getD 96

/-- `STAmount::m`, the drops of a native amount. -/
def drops : STAmount → Except Fault Int
  | native d => .ok d
  | issued _ _ => .error .exception

@[simp] theorem neg_native (d : Int) : -native d = native (-d) := rfl
@[simp] theorem neg_issued (i : Issue) (q : ℚ) : -issued i q = issued i (-q) := rfl
@[simp] theorem lt_native (a b : Int) : (native a).lt (native b) = .ok (decide (a < b)) := rfl

/-- The drops of an amount, none for an issued one. -/
def nativeDrops : STAmount → Int
  | native d => d
  | issued _ _ => 0

theorem drops_eq_ok {v : STAmount} {d : Int} : v.drops = .ok d ↔ v = .native d := by
  cases v <;> simp [drops]

end STAmount
end FinPal
