import FinPal.Paths.Sandbox
import FinPal.Paths.StrandFlow

/-!
# Steps and the flow of one strand

`Step` is the virtual class of `app/paths/impl/Steps.h`, and `flowStrand` the flow of a single
strand in `app/paths/impl/StrandFlow.h`: a pass backward finds out what each step needs, executing
the limiting step again on fresh sandboxes, and a pass goes forward from there.
-/

namespace FinPal

inductive EitherAmount where
  | iou (a : IOUAmount)
  | m (a : MAmount)
  deriving DecidableEq

def EitherAmount.dry : EitherAmount → Bool
  | iou a => a = .zero
  | m a => a = ⟨0⟩

/-- `get<T>`, which asserts that the amount is of the type. -/
class EngineAmount (α : Type) extends FlowAmount α where
  toEither : α → EitherAmount
  ofEither : EitherAmount → Except Fault α

instance : EngineAmount IOUAmount where
  toEither := .iou
  ofEither | .iou a => .ok a | .m _ => .error .logicError

instance : EngineAmount MAmount where
  toEither := .m
  ofEither | .m a => .ok a | .iou _ => .error .logicError

structure StepState where
  sb : PaymentSandbox
  afView : PaymentSandbox
  ofrsToRm : List Digest := []

/-- A step throws a `FlowException`, which the strand's flow catches, or another exception. -/
inductive StepFault where
  | flowException (ter : TER) (ofrsToRm : List Digest)
  | fault (f : Fault)

structure StepOutcome (S : Type) where
  step : S
  state : StepState
  in_ : EitherAmount
  out : EitherAmount

/-- The virtual functions of `Step`. Objects keep what they computed last; `rev` and `fwd` also look
at the step before. -/
class Step (S : Type) where
  rev : Option S → S → StepState → EitherAmount → Except StepFault (StepOutcome S)
  fwd : Option S → S → StepState → EitherAmount → Except StepFault (StepOutcome S)
  cachedIn : S → Option EitherAmount
  cachedOut : S → Option EitherAmount

/-- The flow of a strand ends with a result code, or by another exception. -/
inductive Halt where
  | stop (ter : TER) (ofrsToRm : List Digest) (baseResult : Option TER)
  | fault (f : Fault)

/-- The variables of the flow of a strand. `amount` is `stepOut` in the first loop, `stepIn` in the
second; `limiting` is the limiting step and its output. -/
structure StrandRun (S : Type) where
  strand : List S
  state : StepState
  amount : EitherAmount
  limiting : Option (ℕ × EitherAmount) := none
  baseResult : Option TER := none

namespace StrandRun
variable {S : Type}

def stop (r : StrandRun S) (ter : TER) : Halt := .stop ter r.state.ofrsToRm r.baseResult

def call (r : StrandRun S)
    (f : Option S → S → StepState → EitherAmount → Except StepFault (StepOutcome S)) (i : ℕ)
    (amount : EitherAmount) : Except Halt (StrandRun S × EitherAmount × EitherAmount) :=
  match r.strand[i]? with
  | none => .error (.fault .logicError)
  | some step =>
    match f (if i = 0 then none else r.strand[i - 1]?) step r.state amount with
    | .error (.flowException ter ofrsToRm) => .error (.stop ter ofrsToRm r.baseResult)
    | .error (.fault e) => .error (.fault e)
    | .ok o => .ok ({ r with strand := r.strand.set i o.step, state := o.state }, o.in_, o.out)

/-- `baseView.result = sb->result`. -/
def noteResult (r : StrandRun S) : StrandRun S :=
  if r.state.sb.result = .tesSUCCESS then r else { r with baseResult := some r.state.sb.result }

/-- `sb.emplace (&baseView)`. -/
def resetSb (r : StrandRun S) (baseView : PaymentSandbox) : StrandRun S :=
  { r with state := { r.state with sb := baseView.child } }

def resetViews (r : StrandRun S) (baseView : PaymentSandbox) : StrandRun S :=
  { r with state := { r.state with sb := baseView.child, afView := baseView.child } }

end StrandRun

section Strand
variable {S : Type} [Step S] {TIn TOut : Type} [EngineAmount TIn] [EngineAmount TOut]

/-- The limiting step is executed again; it must not be limited again. -/
def limit (baseView : PaymentSandbox) (i : ℕ) (r : StrandRun S) (out : EitherAmount) :
    Except Halt (StrandRun S) := do
  let (r, in', out') ← (r.resetViews baseView).call Step.rev i out
  if out'.dry ∨ out' ≠ out then throw (r.stop .telFAILED_PROCESSING)
  else return { r with limiting := some (i, out'), amount := in' }

/-- The first step is executed again with all that may be spent. -/
def limitIn (baseView : PaymentSandbox) (i : ℕ) (r : StrandRun S) (maxIn : EitherAmount) :
    Except Halt (StrandRun S) := do
  let (r, in', out') ← (r.resetSb baseView).call Step.fwd i maxIn
  if out'.dry ∨ in' ≠ maxIn then throw (r.stop .telFAILED_PROCESSING)
  else return { r with limiting := some (i, out'), amount := in' }

/-- The first step needs more than may be spent. -/
def exceeds (maxIn : Option TIn) (i : ℕ) (in_ : EitherAmount) : Except Halt (Option TIn) :=
  match maxIn with
  | none => .ok none
  | some maxIn =>
    if i ≠ 0 then .ok none
    else
      match EngineAmount.ofEither in_ with
      | .error e => .error (.fault e)
      | .ok needed => .ok (if FlowAmount.lt maxIn needed then some maxIn else none)

/-- The body of the loop from the last step to the first. -/
def revStep (baseView : PaymentSandbox) (maxIn : Option TIn) (i : ℕ) (r : StrandRun S) :
    Except Halt (StrandRun S) := do
  let (r, in_, out) ← r.call Step.rev i r.amount
  let r := r.noteResult
  if out.dry then throw (r.stop .tecPATH_DRY)
  else
    match ← exceeds maxIn i in_ with
    | some maxIn => limitIn baseView i r (EngineAmount.toEither maxIn)
    | none =>
      if out ≠ r.amount then limit baseView i r out
      else return { r with amount := in_ }

def revLoop (baseView : PaymentSandbox) (maxIn : Option TIn) :
    ℕ → StrandRun S → Except Halt (StrandRun S)
  | 0, r => return r
  | i + 1, r => do revLoop baseView maxIn i (← revStep baseView maxIn i r)

/-- The loop forward over the next `n` steps from `i` on. -/
def fwdLoop : ℕ → ℕ → StrandRun S → Except Halt (StrandRun S)
  | 0, _, r => return r
  | n + 1, i, r => do
    let stepIn := r.amount
    let (r, in_, out) ← r.call Step.fwd i stepIn
    if out.dry ∨ in_ ≠ stepIn then throw (r.stop .telFAILED_PROCESSING)
    else fwdLoop n (i + 1) { r with amount := out }

/-- The forward pass, from behind the limiting step if there is one. -/
def fwdPass (r : StrandRun S) : Except Halt (StrandRun S) :=
  match r.limiting with
  | none => .ok r
  | some (i, out) => fwdLoop (r.strand.length - (i + 1)) (i + 1) { r with amount := out }

/-- What the first step took and the last one gave. -/
def strandAmounts (r : StrandRun S) : Except Fault (TIn × TOut) :=
  match r.strand.head?.bind Step.cachedIn, r.strand.getLast?.bind Step.cachedOut with
  | some in_, some out => do return (← EngineAmount.ofEither in_, ← EngineAmount.ofEither out)
  | _, _ => .error .logicError

/-- `flow` for a single strand. `isDirectMToM`: the strand only passes drops on. -/
def flowStrand (isDirectMToM : List S → Bool) (baseView : PaymentSandbox) (strand : List S)
    (maxIn : Option TIn) (out : TOut) :
    Except Fault (StrandResult PaymentSandbox Digest TIn TOut) :=
  if strand = [] then .ok { outcome := .error .temUNKNOWN, ofrsToRm := [], baseResult := none }
  else if isDirectMToM strand then
    .ok { outcome := .error .tecNO_LINE, ofrsToRm := [], baseResult := none }
  else
    let run : Except Halt (StrandRun S) := do
      let r ← revLoop baseView maxIn strand.length
        { strand, state := { sb := baseView.child, afView := baseView.child }
          amount := EngineAmount.toEither out }
      fwdPass r
    match run with
    | .error (.fault e) => .error e
    | .error (.stop ter ofrsToRm baseResult) => .ok { outcome := .error ter, ofrsToRm, baseResult }
    | .ok r => do
      let (in_, out) ← strandAmounts r
      return {
        outcome := .ok (in_, out, r.state.sb)
        ofrsToRm := r.state.ofrsToRm
        baseResult := r.baseResult }

end Strand
end FinPal
