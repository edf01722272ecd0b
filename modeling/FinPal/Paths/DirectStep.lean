import FinPal.Paths.Step

/-!
# Steps between accounts

`DirectStepI` moves an issue from an account to another over the trust line between them
(`app/paths/impl/DirectStep.cpp`).
-/

namespace FinPal
namespace IOUAmount

/-- The least power of ten not below `v` in `mulRatio`'s table. -/
def log10Ceil (v : ℕ) : ℕ := ((List.range 30).find? fun n => v ≤ 10 ^ n).getD 30

/-- `log10Floor` of the greatest signed word. -/
def fl64 : ℕ := 18

/-- The remainder of the division is brought in as far as the word has room. -/
def growRatio (low rem den : ℕ) (exponent : ℤ) : ℕ × ℕ × ℤ :=
  if rem = 0 then (low, rem, exponent)
  else
    let roomToGrow := fl64 - log10Ceil low
    let low := low * 10 ^ roomToGrow
    let rem := rem * 10 ^ roomToGrow
    (low + rem / den, rem % den, exponent - roomToGrow)

def mulRatio (amt : IOUAmount) (num den : ℕ) (roundUp : Bool) : Except Fault IOUAmount :=
  if den = 0 then .error .exception
  else do
    let neg : Bool := amt.mantissa < 0
    let mul := amt.mantissa.natAbs * num
    let (low, rem, exponent) := growRatio (mul / den) (mul % den) den amt.exponent
    let mustShrink := log10Ceil low - fl64
    let hasRem : Bool := rem ≠ 0 || low % 10 ^ mustShrink ≠ 0
    let mantissa : ℤ := low / 10 ^ mustShrink
    let result ← normalize (if neg then -mantissa else mantissa) (exponent + mustShrink)
    if hasRem ∧ roundUp ∧ !neg then
      if result = zero then normalize minMantissa minExponent
      else normalize (result.mantissa + 1) result.exponent
    else if hasRem ∧ !roundUp ∧ neg then
      if result = zero then normalize (-minMantissa) minExponent
      else normalize (result.mantissa - 1) result.exponent
    else return result

end IOUAmount

/-- What a direct step asks of the step before it. -/
structure PrevStep where
  redeems : PaymentSandbox → Bool → Except Fault Bool
  lineQualityIn : PaymentSandbox → ℕ

structure DirectCache where
  in_ : IOUAmount
  srcToDst : IOUAmount
  out : IOUAmount
  srcRedeems : Bool
  deriving DecidableEq

structure DirectStepI where
  src : AccountID
  dst : AccountID
  currency : Currency
  isLast : Bool
  cache : Option DirectCache := none
  deriving DecidableEq

/-- The most that can flow from `src` to `dst`, and whether `src` redeems. -/
def maxFlow (sb : PaymentSandbox) (src dst : AccountID) (cur : Currency) :
    Except Fault (IOUAmount × Bool) := do
  let srcOwed ← (← sb.accountHolds src cur dst).toIOU
  if 0 < srcOwed.mantissa then return (srcOwed, true)
  else
    let limit ← (sb.creditLimit dst src cur).toIOU
    return (← limit.add srcOwed, limit.mantissa ≤ 0)

/-- The quality a side of the line has set: `dst`'s quality in or `src`'s out. -/
def lineQuality (sb : PaymentSandbox) (src dst : AccountID) (currency : Currency) (qin : Bool) :
    ℕ :=
  if src = dst then QUALITY_ONE
  else
    match sb.view.get (keylet.line dst src currency) with
    | none => QUALITY_ONE
    | some sle =>
      let q :=
        if qin then if dst < src then sle.lowQualityIn else sle.highQualityIn
        else if src < dst then sle.lowQualityOut else sle.highQualityOut
      if q = 0 then QUALITY_ONE else q.toNat

namespace DirectStepI

def redeems (d : DirectStepI) (sb : PaymentSandbox) (fwd : Bool) : Except Fault Bool :=
  if !fwd then do
    let srcOwed ← sb.accountHolds d.src d.currency d.dst
    return 0 < srcOwed.signum
  else return (d.cache.map (·.srcRedeems)).getD false

def lineQualityIn (d : DirectStepI) (sb : PaymentSandbox) : ℕ :=
  lineQuality sb d.src d.dst d.currency true

/-- `srcQOut` and `dstQIn`. A transfer rate is charged when the step issues and the one before
redeems. -/
def qualities (d : DirectStepI) (prev : Option PrevStep) (sb : PaymentSandbox)
    (srcRedeems fwd : Bool) : Except Fault (ℕ × ℕ) :=
  if srcRedeems then
    match prev with
    | none => .ok (QUALITY_ONE, QUALITY_ONE)
    | some p =>
      .ok (max (lineQuality sb d.src d.dst d.currency false) (p.lineQualityIn sb), QUALITY_ONE)
  else do
    let prevStepRedeems ←
      match prev with
      | none => pure false
      | some p => p.redeems sb fwd
    let srcQOut := if prevStepRedeems then sb.transferRate d.src d.currency else QUALITY_ONE
    let dstQIn := lineQuality sb d.src d.dst d.currency true
    return (srcQOut, if d.isLast then min dstQIn QUALITY_ONE else dstQIn)

def issue (d : DirectStepI) (srcRedeems : Bool) : Issue :=
  ⟨d.currency, if srcRedeems then d.dst else d.src⟩

def limited (srcRedeems : Bool) : TER :=
  if srcRedeems then .tecUNFUNDED_PAYMENT_IOU else .tecEXCEED_TRUST_LIMIT

def revImp (d : DirectStepI) (prev : Option PrevStep) (sb : PaymentSandbox) (out : IOUAmount) :
    Except Fault (DirectStepI × PaymentSandbox × IOUAmount × IOUAmount) := do
  let (maxSrcToDst, srcRedeems) ← maxFlow sb d.src d.dst d.currency
  let (srcQOut, dstQIn) ← d.qualities prev sb srcRedeems false
  if maxSrcToDst.mantissa ≤ 0 then
    return ({ d with cache := some ⟨.zero, .zero, .zero, srcRedeems⟩ },
      { sb with result := limited srcRedeems }, .zero, .zero)
  else
    let srcToDst ← out.mulRatio QUALITY_ONE dstQIn true
    if !maxSrcToDst.lt srcToDst then
      let in_ ← srcToDst.mulRatio srcQOut QUALITY_ONE true
      let sb ← sb.mtchainCredit d.src d.dst (srcToDst.toSTAmount (d.issue srcRedeems))
      return ({ d with cache := some ⟨in_, srcToDst, out, srcRedeems⟩ }, sb, in_, out)
    else
      let in_ ← maxSrcToDst.mulRatio srcQOut QUALITY_ONE true
      let actualOut ← maxSrcToDst.mulRatio dstQIn QUALITY_ONE false
      let sb ← sb.mtchainCredit d.src d.dst (maxSrcToDst.toSTAmount (d.issue srcRedeems))
      return ({ d with cache := some ⟨in_, maxSrcToDst, actualOut, srcRedeems⟩ },
        { sb with result := limited srcRedeems }, in_, actualOut)

/-- The amounts of the pass back are kept unless the pass forward needs much more. The source
compares the mantissas in floating point. -/
def setCacheLimiting (c : DirectCache) (fwdIn fwdSrcToDst fwdOut : IOUAmount) (srcRedeems : Bool) :
    Except Fault DirectCache := do
  let muchMore ←
    if c.in_.lt fwdIn then do
      let smallDiff ← IOUAmount.normalize 1 (-9)
      let diff ← fwdIn.sub c.in_
      pure (smallDiff.lt diff && (fwdIn.exponent ≠ c.in_.exponent || c.in_.mantissa = 0 ||
        101 * c.in_.mantissa < 100 * fwdIn.mantissa))
    else pure false
  if muchMore then return ⟨fwdIn, fwdSrcToDst, fwdOut, srcRedeems⟩
  else return {
    in_ := fwdIn
    srcToDst := if fwdSrcToDst.lt c.srcToDst then fwdSrcToDst else c.srcToDst
    out := if fwdOut.lt c.out then fwdOut else c.out
    srcRedeems }

/-- The amounts of the pass forward, in a step that limits the flow or not. -/
def fwdCache (cache : DirectCache) (in_ maxSrcToDst : IOUAmount) (srcQOut dstQIn : ℕ)
    (srcRedeems : Bool) : Except Fault DirectCache := do
  let srcToDst ← in_.mulRatio QUALITY_ONE srcQOut false
  if !maxSrcToDst.lt srcToDst then
    let out ← srcToDst.mulRatio dstQIn QUALITY_ONE false
    setCacheLimiting cache in_ srcToDst out srcRedeems
  else
    let actualIn ← maxSrcToDst.mulRatio srcQOut QUALITY_ONE true
    let out ← maxSrcToDst.mulRatio dstQIn QUALITY_ONE false
    setCacheLimiting cache actualIn maxSrcToDst out srcRedeems

def fwdImp (d : DirectStepI) (prev : Option PrevStep) (sb : PaymentSandbox) (in_ : IOUAmount) :
    Except Fault (DirectStepI × PaymentSandbox × IOUAmount × IOUAmount) :=
  match d.cache with
  | none => .error .logicError
  | some cache => do
    let (maxSrcToDst, srcRedeems) ← maxFlow sb d.src d.dst d.currency
    let (srcQOut, dstQIn) ← d.qualities prev sb srcRedeems true
    if maxSrcToDst.mantissa ≤ 0 then
      return ({ d with cache := some ⟨.zero, .zero, .zero, srcRedeems⟩ }, sb, .zero, .zero)
    else
      let cache ← fwdCache cache in_ maxSrcToDst srcQOut dstQIn srcRedeems
      let sb ← sb.mtchainCredit d.src d.dst (cache.srcToDst.toSTAmount (d.issue srcRedeems))
      return ({ d with cache := some cache }, sb, cache.in_, cache.out)

end DirectStepI
end FinPal
