import FinPal.Paths.PaySteps

/-!
# The payment engine

`flow` of `app/paths/Flow.cpp`: the paths of a payment become strands, the strands flow, and if the
payment succeeds its sandbox is merged into the caller's. A payment between two customers of an
issuer with a transfer fee pays that fee by a second flow, to the issuer.
-/

namespace FinPal

/-- The mantissa and the exponent with which an amount enters a division. -/
def EitherAmount.parts : EitherAmount → ℕ × ℤ
  | .iou a => (a.mantissa.natAbs, a.exponent)
  | .m a => IOUAmount.scaleUp 16 a.drops.toInt.natAbs 0

def getRate (offerOut offerIn : EitherAmount) : UInt64 :=
  if offerOut.dry ∨ offerIn.dry then 0
  else
    let (numVal, numOffset) := offerIn.parts
    let (denVal, denOffset) := offerOut.parts
    match IOUAmount.normalize (numVal * 10 ^ 17 / denVal + 5 : ℕ) (numOffset - denOffset - 17) with
    | .error _ => 0
    | .ok r =>
      if r = .zero then 0
      else UInt64.ofNat ((r.exponent + 100).toNat * 2 ^ 56 + r.mantissa.natAbs)

section Flow
variable {B : Type} [OtherStep B]

/-- The engine for amounts of two types over strands of steps. `mToM`: both are drops. -/
def payEngine (B TIn TOut : Type) [OtherStep B] [EngineAmount TIn] [EngineAmount TOut]
    (mToM : Bool) : StrandEngine PaymentSandbox (List (PayStep B)) Digest TIn TOut where
  child := PaymentSandbox.child
  flow sb strand maxIn out := flowStrand (fun s => mToM && s.length = 2) sb strand maxIn out
  apply := PaymentSandbox.apply
  removeOffer := PaymentSandbox.removeOffer
  quality out in_ := ⟨getRate (EngineAmount.toEither out) (EngineAmount.toEither in_)⟩

structure PaymentRequest where
  deliver : STAmount
  src : AccountID
  dst : AccountID
  paths : List STPath := []
  defaultPaths : Bool := true
  partialPayment : Bool := false
  ownerPaysTransferFee : Bool := false
  limitQuality : Option Quality := none
  sendMax : Option STAmount := none

/-- `MtchainCalc::Output`. -/
structure FlowOutput where
  result : TER
  actualAmountIn : STAmount := .native 0
  actualAmountOut : STAmount := .native 0
  fee : Option STAmount := none
  removableOffers : List Digest := []

namespace PaymentRequest

def srcIssue (r : PaymentRequest) : Issue :=
  match r.sendMax with
  | some m => m.issue
  | none =>
    if r.deliver.getCurrency = mCurrency then mIssue else ⟨r.deliver.getCurrency, r.src⟩

def dstIssue (r : PaymentRequest) : Issue := r.deliver.issue

end PaymentRequest

/-- An amount type, with `toAmount` and `toSTAmount`. -/
class PayAmount (α : Type) extends EngineAmount α where
  ofSTAmount : STAmount → Except Fault α
  toSTAmount : α → Issue → STAmount

instance : PayAmount IOUAmount where
  ofSTAmount := STAmount.toIOU
  toSTAmount := IOUAmount.toSTAmount

instance : PayAmount MAmount where
  ofSTAmount v := do return ⟨Int64.ofInt (← v.drops)⟩
  toSTAmount a _ := .native a.drops.toInt

/-- A negative `sendMax` is none. -/
def sendMaxAs {TIn : Type} [PayAmount TIn] (sendMax : Option STAmount) :
    Except Fault (Option TIn) :=
  match sendMax with
  | none => .ok none
  | some m => if m.signum < 0 then .ok none else do return some (← PayAmount.ofSTAmount m)

/-- The multi-strand flow at two amount types. -/
def flowAs (TIn TOut : Type) [PayAmount TIn] [PayAmount TOut] [DecidableEq TOut] (mToM : Bool)
    (sb : PaymentSandbox) (strands : List (List (PayStep B))) (deliver : STAmount)
    (partialPayment : Bool) (limitQuality : Option Quality) (sendMax : Option STAmount) :
    Except Fault (FlowResult PaymentSandbox Digest TIn TOut) := do
  let outReq ← PayAmount.ofSTAmount deliver
  let sendMaxST ← sendMaxAs sendMax
  (payEngine B TIn TOut mToM).flowStrands { outReq, partialPayment, limitQuality, sendMaxST } sb
    strands

def finishFlow {TIn TOut : Type} [PayAmount TIn] [PayAmount TOut] (sb : PaymentSandbox)
    (srcIssue dstIssue : Issue) (f : FlowResult PaymentSandbox Digest TIn TOut) :
    Except Fault (FlowOutput × PaymentSandbox) :=
  let out : FlowOutput := {
    result := f.ter
    actualAmountIn := PayAmount.toSTAmount f.in_ srcIssue
    actualAmountOut := PayAmount.toSTAmount f.out dstIssue }
  if f.ter = .tesSUCCESS then
    match f.sandbox with
    | none => .error .logicError
    | some inner => do return (out, ← inner.apply sb)
  else .ok ({ out with removableOffers := f.removableOffers }, sb)

/-- The payment is between two customers of the issuer. -/
def PaymentRequest.betweenCustomers (r : PaymentRequest) : Bool :=
  r.paths = [] && r.src ≠ r.dstIssue.account && r.dst ≠ r.dstIssue.account &&
    r.dstIssue.currency = r.srcIssue.currency

/-- The fee of the issuer, by a flow of its own. -/
def payIssuerFee (B : Type) [OtherStep B] (r : PaymentRequest) (rc : FlowOutput)
    (sb : PaymentSandbox) (tf : STAmount) : Except Fault (FlowOutput × PaymentSandbox) :=
  match toStrands (B := B) sb r.src r.dstIssue.account tf.issue none [] true false with
  | .error (.fault f) => .error f
  | .error (.ter t) =>
    .ok ({ rc with result :=
      if t = .terNO_LINE then .tecNO_LINE_IOU_FEE else .tecFAILED_IOU_FEE }, sb)
  | .ok strands => do
    let result ← flowAs IOUAmount IOUAmount false sb strands tf false none none
    if result.ter ≠ .tesSUCCESS then
      return ({ rc with result :=
        if result.ter = .tecUNFUNDED_PAYMENT_IOU then .tecUNFUNDED_PAYMENT_IOU_FEE
        else .tecFAILED_IOU_FEE }, sb)
    else
      let (_, sb) ← finishFlow sb r.dstIssue r.dstIssue result
      return ({ rc with fee := some tf }, sb)

/-- What follows the delivery of an issue. -/
def chargeIssuerFee (B : Type) [OtherStep B] (r : PaymentRequest) (rc : FlowOutput)
    (sb : PaymentSandbox) : Except Fault (FlowOutput × PaymentSandbox) :=
  if rc.result = .tesSUCCESS ∧ r.betweenCustomers then
    match sb.view.get (keylet.account r.dstIssue.account) with
    | none => .error .nullPointer
    | some sle =>
      match sle.transferFee with
      | none => .ok (rc, sb)
      | some tf => payIssuerFee B r rc sb tf
  else .ok (rc, sb)

/-- The delivery: one flow at the amount types of the two sides. -/
def deliverFlow (r : PaymentRequest) (sb : PaymentSandbox) (strands : List (List (PayStep B))) :
    Except Fault (FlowOutput × PaymentSandbox) :=
  let srcIsM : Bool := r.srcIssue.currency = mCurrency
  let dstIsM : Bool := r.dstIssue.currency = mCurrency
  match srcIsM, dstIsM with
  | true, true => do
    let f ← flowAs MAmount MAmount true sb strands r.deliver r.partialPayment r.limitQuality
      r.sendMax
    finishFlow sb r.srcIssue r.dstIssue f
  | true, false => do
    let f ← flowAs MAmount IOUAmount false sb strands r.deliver r.partialPayment r.limitQuality
      r.sendMax
    finishFlow sb r.srcIssue r.dstIssue f
  | false, true => do
    let f ← flowAs IOUAmount MAmount false sb strands r.deliver r.partialPayment r.limitQuality
      r.sendMax
    finishFlow sb r.srcIssue r.dstIssue f
  | false, false => do
    let f ← flowAs IOUAmount IOUAmount false sb strands r.deliver r.partialPayment r.limitQuality
      r.sendMax
    finishFlow sb r.srcIssue r.dstIssue f

def flow (B : Type) [OtherStep B] (sb : PaymentSandbox) (r : PaymentRequest) :
    Except Fault (FlowOutput × PaymentSandbox) :=
  match toStrands (B := B) sb r.src r.dst r.dstIssue (r.sendMax.map (·.issue)) r.paths
      r.defaultPaths r.ownerPaysTransferFee with
  | .error (.fault f) => .error f
  | .error (.ter t) => .ok ({ result := t }, sb)
  | .ok strands => do
    let (rc, sb) ← deliverFlow r sb strands
    if r.srcIssue.currency = mCurrency ∨ r.dstIssue.currency = mCurrency then return (rc, sb)
    else chargeIssuerFee B r rc sb

end Flow
end FinPal
