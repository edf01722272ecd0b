import FinPal.Paths.PaySteps

/-!
# How book steps and endpoints are made

`make_BookStepHelper` and `make_MEndpointStep` make and check a step (`app/paths/impl/BookStep.cpp`,
`app/paths/impl/MEndpointStep.cpp`). What it does in a payment enters as a class, `OtherExec`, over
a type `X` for what the object remembers.
-/

namespace FinPal

/-- What a step connects: the `book_` of a `BookStep`, or the `acc_` and `isLast_` of an
`MEndpointStep`. -/
inductive Connects where
  | book (in_ out : Issue)
  | endpoint (acc : AccountID) (isLast : Bool)
  deriving DecidableEq

structure MadeStep (X : Type) where
  connects : Connects
  cache : X

/-- What book steps and endpoints do in a payment, and whether `amendmentRIPD1443` is in force at a
view's parent close time. -/
class OtherExec (X : Type) where
  fresh : X
  rev : Option PrevStep → MadeStep X → StepState → EitherAmount →
    Except StepFault (StepOutcome (MadeStep X))
  fwd : Option PrevStep → MadeStep X → StepState → EitherAmount →
    Except StepFault (StepOutcome (MadeStep X))
  cachedIn : MadeStep X → Option EitherAmount
  cachedOut : MadeStep X → Option EitherAmount
  redeems : MadeStep X → PaymentSandbox → Bool → Except Fault Bool
  amendmentRIPD1443 : PaymentSandbox → Bool

section Make
variable {X : Type} [OtherExec X]

namespace BookStep

/-- The line over which the step before paid the book's issue lets it pass on. -/
def checkPrevStep (ctx : StrandContext (MadeStep X)) (in_ : Issue) : TER :=
  match ctx.prevStep with
  | some (.direct prev) =>
    if OtherExec.amendmentRIPD1443 X ctx.view then
      match ctx.view.view.get (keylet.line prev.src in_.account in_.currency) with
      | none => .terNO_LINE
      | some sle =>
        if sle.flags &&& (if prev.src < in_.account then lsfHighNoMtchain else lsfLowNoMtchain) ≠ 0
        then .terNO_MTCHAIN
        else .tesSUCCESS
    else .tesSUCCESS
  | _ => .tesSUCCESS

def check (ctx : StrandContext (MadeStep X)) (in_ out : Issue) : Except TER Seen :=
  if in_ = out then .error .temBAD_PATH
  else if !isConsistent in_ ∨ !isConsistent out then .error .temBAD_PATH
  -- offers of one step could unfund those of another
  else if out ∈ ctx.seen.bookOuts ∨ out ∈ ctx.seen.directSrc then .error .temBAD_PATH_LOOP
  else
    let ter := checkPrevStep ctx in_
    if ter ≠ .tesSUCCESS then .error ter
    else .ok { ctx.seen with bookOuts := out :: ctx.seen.bookOuts }

/-- `make_BookStepHelper`. -/
def make (ctx : StrandContext (MadeStep X)) (in_ out : Issue) : Except TER (MadeStep X × Seen) := do
  let seen ← check ctx in_ out
  return (⟨.book in_ out, OtherExec.fresh⟩, seen)

end BookStep

namespace MEndpointStep

omit [OtherExec X] in
def check (ctx : StrandContext (MadeStep X)) (acc : AccountID) : TER :=
  if acc = 0 then .temBAD_PATH
  else if (ctx.view.view.get (keylet.account acc)).isNone then .terNO_ACCOUNT
  else if !ctx.isFirst ∧ !ctx.isLast then .temBAD_PATH
  else if ctx.isLast then checkFreeze ctx.view mAccount acc mCurrency
  else checkFreeze ctx.view acc mAccount mCurrency

/-- `make_MEndpointStep`. -/
def make (ctx : StrandContext (MadeStep X)) (acc : AccountID) : Except TER (MadeStep X × Seen) :=
  let ter := check ctx acc
  if ter ≠ .tesSUCCESS then .error ter
  else .ok (⟨.endpoint acc ctx.isLast, OtherExec.fresh⟩, ctx.seen)

end MEndpointStep

instance : OtherStep (MadeStep X) where
  rev := OtherExec.rev
  fwd := OtherExec.fwd
  cachedIn := OtherExec.cachedIn
  cachedOut := OtherExec.cachedOut
  redeems := OtherExec.redeems
  bookStepBook s :=
    match s.connects with
    | .book in_ out => some (in_, out)
    | .endpoint _ _ => none
  equal s s' := s.connects = s'.connects
  makeMEndpointStep := MEndpointStep.make
  makeBookStep := BookStep.make

end Make
end FinPal
