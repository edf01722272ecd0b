import FinPal.Paths.FlowAmount
import FinPal.Protocol.TER

/-!
# The multi-strand flow

In every pass of a payment the strand of the best quality delivers what it can, and what is still
wanted and may still be spent is computed again from all passes so far
(`app/paths/impl/StrandFlow.h`). How a single strand flows belongs to the engine, `StrandEngine`.
-/

namespace FinPal

/-- The better of two qualities has the smaller rate. -/
structure Quality where
  value : UInt64
  deriving DecidableEq

def Quality.lt (lhs rhs : Quality) : Bool := rhs.value < lhs.value

section Engine
variable (Sb Strand Key TIn TOut : Type)

/-- What the flow of one strand returns: what it took and gave and its sandbox, or why it failed;
the offers to remove, a set kept by hash in the source; and what it wrote to `baseView.result`. -/
structure StrandResult where
  outcome : Except TER (TIn × TOut × Sb)
  ofrsToRm : List Key
  baseResult : Option TER

structure StrandEngine where
  /-- `PaymentSandbox sb (&baseView)`. -/
  child : Sb → Sb
  flow : Sb → Strand → Option TIn → TOut → Except Fault (StrandResult Sb Key TIn TOut)
  /-- `PaymentSandbox::apply`, of the first sandbox on the second, its parent. -/
  apply : Sb → Sb → Except Fault Sb
  /-- `offerDelete`, of an offer that is there. -/
  removeOffer : Sb → Key → Except Fault Sb
  quality : TOut → TIn → Quality

structure BestStrand where
  in_ : TIn
  out : TOut
  sb : Sb
  quality : Quality

/-- The variables of the loop. -/
structure FlowState where
  remainingOut : TOut
  remainingIn : Option TIn
  sb : Sb
  /-- The `result` that `sb` carries. -/
  result : TER
  activeStrands : List Strand
  savedIns : List TIn
  savedOuts : List TOut
  ofrsToRmOnFail : List Key

/-- What one pass over the strands has found so far. -/
structure Pass where
  result : TER
  activeStrands : List Strand
  best : Option (BestStrand Sb TIn TOut)
  ofrsToRm : List Key

structure FlowRequest where
  outReq : TOut
  partialPayment : Bool
  limitQuality : Option Quality
  sendMaxST : Option TIn

structure FlowResult where
  ter : TER
  in_ : TIn
  out : TOut
  sandbox : Option Sb
  removableOffers : List Key

end Engine

open FlowAmount
variable {Sb Strand Key TIn TOut : Type} [FlowAmount TIn] [FlowAmount TOut]

/-- A negative `sendMax` is none. -/
def FlowRequest.sendMax (r : FlowRequest TIn TOut) : Option TIn :=
  r.sendMaxST.filter fun m => !lt m zero

def FlowResult.failed (ter : TER) (removableOffers : List Key) : FlowResult Sb Key TIn TOut :=
  { ter, in_ := zero, out := zero, sandbox := none, removableOffers }

def FlowState.running (s : FlowState Sb Strand Key TIn TOut) : Bool :=
  lt zero s.remainingOut && s.remainingIn.all (lt zero ·)

/-- A new best strand is better, or as good and gives more. -/
def BestStrand.improvedBy (b : BestStrand Sb TIn TOut) (q : Quality) (out : TOut) : Bool :=
  b.quality.lt q || (b.quality = q && lt b.out out)

/-- What may still be spent. Without `sendMax` it stays as it is. -/
def FlowState.remaining (r : FlowRequest TIn TOut) (s : FlowState Sb Strand Key TIn TOut)
    (savedIns : List TIn) : Except Fault (Option TIn) :=
  match r.sendMax with
  | none => .ok s.remainingIn
  | some sendMax => do
    let total ← sum savedIns
    let rest ← sub sendMax total
    return some rest

/-- The best strand's amounts are saved; what remains is what the totals leave. -/
def FlowState.save (r : FlowRequest TIn TOut) (s : FlowState Sb Strand Key TIn TOut)
    (b : BestStrand Sb TIn TOut) : Except Fault (FlowState Sb Strand Key TIn TOut) := do
  let savedIns := s.savedIns.orderedInsert (fun x y => lt x y) b.in_
  let savedOuts := s.savedOuts.orderedInsert (fun x y => lt x y) b.out
  let total ← sum savedOuts
  let remainingOut ← sub r.outReq total
  let remainingIn ← s.remaining r savedIns
  return { s with savedIns, savedOuts, remainingOut, remainingIn }

namespace StrandEngine
variable [DecidableEq TOut] [DecidableEq Key]

variable (E : StrandEngine Sb Strand Key TIn TOut)

variable (r : FlowRequest TIn TOut)

/-- A strand that flows is passed over, kept for the next pass, or kept as the best so far. -/
def consider (p : Pass Sb Strand Key TIn TOut) (strand : Strand) (in_ : TIn) (out : TOut)
    (sb : Sb) : Pass Sb Strand Key TIn TOut :=
  let q := E.quality out in_
  if out = zero then p
  else if r.limitQuality.any (q.lt ·) then p
  else
    let p := { p with activeStrands := p.activeStrands ++ [strand] }
    if p.best.all (·.improvedBy q out) then
      { p with best := some { in_, out, sb, quality := q } }
    else p

variable (s : FlowState Sb Strand Key TIn TOut)

def tryStrand (p : Pass Sb Strand Key TIn TOut) (strand : Strand) :
    Except Fault (Pass Sb Strand Key TIn TOut) := do
  let f ← E.flow s.sb strand s.remainingIn s.remainingOut
  let p := { p with
    result := f.baseResult.getD p.result
    ofrsToRm := p.ofrsToRm ∪ f.ofrsToRm }
  match f.outcome with
  | .error _ => return p
  | .ok (in_, out, sb) => return E.consider r p strand in_ out sb

def useBest : Option (BestStrand Sb TIn TOut) → Except Fault (FlowState Sb Strand Key TIn TOut)
  | none => .ok s
  | some b => do
    let s ← s.save r b
    let sb ← E.apply b.sb s.sb
    return { s with sb }

/-- The body of the main loop. The flag is `shouldBreak`. -/
def pass : Except Fault (FlowState Sb Strand Key TIn TOut × Bool) := do
  let p ← s.activeStrands.foldlM (E.tryStrand r s)
    { result := s.result, activeStrands := [], best := none, ofrsToRm := [] }
  let s ← E.useBest r { s with activeStrands := p.activeStrands, result := p.result } p.best
  let sb ← p.ofrsToRm.foldlM E.removeOffer s.sb
  return ({ s with sb, ofrsToRmOnFail := s.ofrsToRmOnFail ∪ p.ofrsToRm }, p.best.isNone)

def maxTries : ℕ := 1000

/-- The main loop with so many tries left, and whether these ran out. -/
def flowLoop (E : StrandEngine Sb Strand Key TIn TOut) (r : FlowRequest TIn TOut) :
    ℕ → FlowState Sb Strand Key TIn TOut → Except Fault (FlowState Sb Strand Key TIn TOut × Bool)
  | 0, s => return (s, s.running)
  | n + 1, s => do
    if s.running then
      let (s, shouldBreak) ← E.pass r s
      if shouldBreak then return (s, false) else flowLoop E r n s
    else return (s, false)

def start (baseView : Sb) (strands : List Strand) : FlowState Sb Strand Key TIn TOut where
  remainingOut := r.outReq
  remainingIn := r.sendMax
  sb := E.child baseView
  result := .tesSUCCESS
  activeStrands := strands
  savedIns := []
  savedOuts := []
  ofrsToRmOnFail := []

def report (actualIn : TIn) (actualOut : TOut) : FlowResult Sb Key TIn TOut :=
  if actualOut ≠ r.outReq ∧ lt r.outReq actualOut then .failed .tefEXCEPTION s.ofrsToRmOnFail
  else if actualOut ≠ r.outReq ∧ !r.partialPayment then
    { ter := if s.result ≠ .tesSUCCESS then s.result else .tecPATH_PARTIAL
      in_ := actualIn
      out := actualOut
      sandbox := none
      removableOffers := s.ofrsToRmOnFail }
  else if actualOut ≠ r.outReq ∧ actualOut = zero then .failed .tecPATH_DRY s.ofrsToRmOnFail
  else
    { ter := .tesSUCCESS
      in_ := actualIn
      out := actualOut
      sandbox := some s.sb
      removableOffers := s.ofrsToRmOnFail }

/-- `flow`, the one for several strands. -/
def flowStrands (baseView : Sb) (strands : List Strand) :
    Except Fault (FlowResult Sb Key TIn TOut) := do
  let (s, exhausted) ← E.flowLoop r (maxTries - 1) (E.start r baseView strands)
  if exhausted then return .failed .telFAILED_PROCESSING s.ofrsToRmOnFail
  else do
    let actualOut ← sum s.savedOuts
    let actualIn ← sum s.savedIns
    return report r s actualIn actualOut

end StrandEngine
end FinPal
