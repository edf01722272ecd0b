import FinPal.Paths.DirectStep

/-!
# From paths to strands

`toStrand` turns the elements of a path into steps and checks each (`app/paths/impl/PaySteps.cpp`).
The steps between accounts are `DirectStepI`; book steps and the endpoints of native payments enter
as a type `B` with their virtual functions, `OtherStep`.
-/

namespace FinPal

/-- An element without an account is an offer. -/
structure STPathElement where
  account : Option AccountID := none
  currency : Option Currency := none
  issuer : Option AccountID := none
  deriving DecidableEq

namespace STPathElement

def isAccount (e : STPathElement) : Bool := e.account.isSome
def isOffer (e : STPathElement) : Bool := e.account.isNone
def isNone (e : STPathElement) : Bool := e.account.isNone && e.currency.isNone && e.issuer.isNone
def getAccountID (e : STPathElement) : AccountID := e.account.getD 0
def getCurrency (e : STPathElement) : Currency := e.currency.getD 0
def getIssuerID (e : STPathElement) : AccountID := e.issuer.getD 0

/-- `operator==`, which does not tell an absent field from zero. -/
def eq (e e' : STPathElement) : Bool :=
  e.isAccount = e'.isAccount && e.getAccountID = e'.getAccountID &&
    e.getCurrency = e'.getCurrency && e.getIssuerID = e'.getIssuerID

def isMAccount (e : STPathElement) : Bool :=
  e.account = some mAccount && e.currency.isNone && e.issuer.isNone

end STPathElement

abbrev STPath := List STPathElement

def isConsistent (i : Issue) : Bool := (i.currency = mCurrency) = (i.account = mAccount)

/-- The issues that a strand has been through: as the source and as the destination of direct steps,
and out of books. -/
structure Seen where
  directSrc : List Issue := []
  directDst : List Issue := []
  bookOuts : List Issue := []
  deriving DecidableEq

inductive PayStep (B : Type) where
  | direct (d : DirectStepI)
  | other (b : B)

structure StrandContext (B : Type) where
  view : PaymentSandbox
  strandSrc : AccountID
  strandDst : AccountID
  isFirst : Bool
  isLast : Bool
  ownerPaysTransferFee : Bool
  prevStep : Option (PayStep B)
  seen : Seen

/-- The virtual functions of book steps and endpoints, and how these are made. -/
class OtherStep (B : Type) where
  rev : Option PrevStep → B → StepState → EitherAmount → Except StepFault (StepOutcome B)
  fwd : Option PrevStep → B → StepState → EitherAmount → Except StepFault (StepOutcome B)
  cachedIn : B → Option EitherAmount
  cachedOut : B → Option EitherAmount
  redeems : B → PaymentSandbox → Bool → Except Fault Bool
  bookStepBook : B → Option (Issue × Issue)
  equal : B → B → Bool
  makeMEndpointStep : StrandContext B → AccountID → Except TER (B × Seen)
  makeBookStep : StrandContext B → Issue → Issue → Except TER (B × Seen)

namespace PayStep
variable {B : Type} [OtherStep B]

def asPrev : PayStep B → PrevStep
  | direct d => ⟨d.redeems, d.lineQualityIn⟩
  | other b => ⟨OtherStep.redeems b, fun _ => QUALITY_ONE⟩

def directStepSrcAcct : PayStep B → Option AccountID
  | direct d => some d.src
  | other _ => none

def bookStepBook : PayStep B → Option (Issue × Issue)
  | direct _ => none
  | other b => OtherStep.bookStepBook b

def equal : PayStep B → PayStep B → Bool
  | direct d, direct d' => d.src = d'.src && d.dst = d'.dst && d.currency = d'.currency
  | other b, other b' => OtherStep.equal b b'
  | _, _ => false

/-- `StepImp::rev` and `StepImp::fwd` of a direct step. -/
def runDirect (run : PaymentSandbox → IOUAmount →
      Except Fault (DirectStepI × PaymentSandbox × IOUAmount × IOUAmount))
    (state : StepState) (amount : EitherAmount) : Except StepFault (StepOutcome (PayStep B)) :=
  match EngineAmount.ofEither amount >>= run state.sb with
  | .error e => .error (.fault e)
  | .ok (d, sb, in_, out) =>
    .ok { step := direct d, state := { state with sb }, in_ := .iou in_, out := .iou out }

def liftOther : Except StepFault (StepOutcome B) → Except StepFault (StepOutcome (PayStep B))
  | .error e => .error e
  | .ok o => .ok { step := other o.step, state := o.state, in_ := o.in_, out := o.out }

instance : Step (PayStep B) where
  rev prev
    | direct d => runDirect (d.revImp (prev.map asPrev))
    | other b => fun state amount => liftOther (OtherStep.rev (prev.map asPrev) b state amount)
  fwd prev
    | direct d => runDirect (d.fwdImp (prev.map asPrev))
    | other b => fun state amount => liftOther (OtherStep.fwd (prev.map asPrev) b state amount)
  cachedIn
    | direct d => d.cache.map fun c => .iou c.in_
    | other b => OtherStep.cachedIn b
  cachedOut
    | direct d => d.cache.map fun c => .iou c.out
    | other b => OtherStep.cachedOut b

end PayStep

def checkFreeze (sb : PaymentSandbox) (src dst : AccountID) (currency : Currency) : TER :=
  if (sb.view.get (keylet.account dst)).any (·.flags &&& lsfGlobalFreeze ≠ 0) then .terNO_LINE
  else if (sb.view.get (keylet.line src dst currency)).any
      (·.flags &&& (if src < dst then lsfHighFreeze else lsfLowFreeze) ≠ 0) then .terNO_LINE
  else .tesSUCCESS

def checkNoMTChain (sb : PaymentSandbox) (prev cur next : AccountID) (currency : Currency) : TER :=
  match sb.view.get (keylet.line prev cur currency),
      sb.view.get (keylet.line cur next currency) with
  | some sleIn, some sleOut =>
    if sleIn.flags &&& (if prev < cur then lsfHighNoMtchain else lsfLowNoMtchain) ≠ 0 ∧
        sleOut.flags &&& (if next < cur then lsfHighNoMtchain else lsfLowNoMtchain) ≠ 0 then
      .terNO_MTCHAIN
    else .tesSUCCESS
  | _, _ => .terNO_LINE

/-- A strand is not made, or an exception. -/
inductive StrandError where
  | ter (t : TER)
  | fault (f : Fault)
  deriving DecidableEq

def StrandError.ofFault {α : Type} : Except Fault α → Except StrandError α
  | .error f => .error (.fault f)
  | .ok a => .ok a

section Strands
variable {B : Type} [OtherStep B]

namespace DirectStepI

def checkLine (ctx : StrandContext B) (d : DirectStepI) : Except StrandError MTChainState :=
  if d.src = 0 ∨ d.dst = 0 ∨ d.src = d.dst then .error (.ter .temBAD_PATH)
  else
    match ctx.view.view.get (keylet.account d.src),
        ctx.view.view.get (keylet.line d.src d.dst d.currency) with
    | none, _ => .error (.ter .terNO_ACCOUNT)
    | some _, none => .error (.ter .terNO_LINE)
    | some sleSrc, some sleLine =>
      let authField := if d.dst < d.src then lsfHighAuth else lsfLowAuth
      if sleSrc.flags &&& lsfRequireAuth ≠ 0 ∧ sleLine.flags &&& authField = 0 ∧
          sleLine.balance.signum = 0 then
        .error (.ter .terNO_AUTH)
      else .ok sleLine

/-- The line is not frozen and does not refuse to pass the issue on. -/
def checkFlags (ctx : StrandContext B) (d : DirectStepI) (sleLine : MTChainState) : TER :=
  let freeze :=
    if ctx.isLast ∧ ctx.isFirst then .tesSUCCESS else checkFreeze ctx.view d.src d.dst d.currency
  if freeze ≠ .tesSUCCESS then freeze
  else
    match ctx.prevStep with
    | none => .tesSUCCESS
    | some prev =>
      let noMTChain :=
        match prev.directStepSrcAcct with
        | none => .tesSUCCESS
        | some prevSrc => checkNoMTChain ctx.view prevSrc d.src d.dst d.currency
      if noMTChain ≠ .tesSUCCESS then noMTChain
      else if ctx.view.fix1449 ∧ prev.bookStepBook.isSome ∧
          sleLine.flags &&& (if d.dst < d.src then lsfHighNoMtchain else lsfLowNoMtchain) ≠ 0 then
        .terNO_MTCHAIN
      else .tesSUCCESS

def checkLoop (ctx : StrandContext B) (d : DirectStepI) : Except StrandError Seen :=
  let srcIssue : Issue := ⟨d.currency, d.src⟩
  let dstIssue : Issue := ⟨d.currency, d.dst⟩
  -- a book that gives the source's issue is in place only right before the step
  if srcIssue ∈ ctx.seen.bookOuts ∧ (ctx.prevStep.isNone ∨
      (ctx.prevStep.bind (·.bookStepBook)).any (·.2 ≠ srcIssue)) then
    .error (.ter .temBAD_PATH_LOOP)
  else if srcIssue ∈ ctx.seen.directSrc ∨ dstIssue ∈ ctx.seen.directDst then
    .error (.ter .temBAD_PATH_LOOP)
  else
    .ok { ctx.seen with
      directSrc := srcIssue :: ctx.seen.directSrc
      directDst := dstIssue :: ctx.seen.directDst }

/-- What `dst` owes `src` is not at its limit. -/
def checkLimit (ctx : StrandContext B) (d : DirectStepI) : Except StrandError TER := do
  let owed := ctx.view.creditBalance d.dst d.src d.currency
  if owed.signum < 0 then
    if ← StrandError.ofFault ((-owed).lt (ctx.view.creditLimit d.dst d.src d.currency)) then
      return .tesSUCCESS
    else return .tecEXCEED_TRUST_LIMIT
  else return .tesSUCCESS

def check (ctx : StrandContext B) (d : DirectStepI) : Except StrandError Seen := do
  let sleLine ← checkLine ctx d
  let flags := checkFlags ctx d sleLine
  if flags ≠ .tesSUCCESS then throw (.ter flags)
  else
    let seen ← checkLoop ctx d
    let limit ← checkLimit ctx d
    if limit ≠ .tesSUCCESS then throw (.ter limit) else return seen

end DirectStepI

def makeDirectStepI (ctx : StrandContext B) (src dst : AccountID) (c : Currency) :
    Except StrandError (PayStep B × Seen) := do
  let d : DirectStepI := { src, dst, currency := c, isLast := ctx.isLast }
  let seen ← d.check ctx
  return (.direct d, seen)

def liftMake : Except TER (B × Seen) → Except StrandError (PayStep B × Seen)
  | .error t => .error (.ter t)
  | .ok (b, seen) => .ok (.other b, seen)

/-- `make_BookStepII`, `make_BookStepIX` and `make_BookStepXI`: a native side is `mIssue`. -/
def makeBookStep (ctx : StrandContext B) (in_ out : Issue) :
    Except StrandError (PayStep B × Seen) :=
  liftMake (OtherStep.makeBookStep ctx (if in_.currency = mCurrency then mIssue else in_)
    (if out.currency = mCurrency then mIssue else out))

def toStep (ctx : StrandContext B) (e1 e2 : STPathElement) (curIssue : Issue) :
    Except StrandError (PayStep B × Seen) :=
  if ctx.isFirst ∧ e1.isAccount ∧ e1.currency = some mCurrency then
    liftMake (OtherStep.makeMEndpointStep ctx e1.getAccountID)
  else if ctx.isLast ∧ e1.isMAccount ∧ e2.isAccount then
    liftMake (OtherStep.makeMEndpointStep ctx e2.getAccountID)
  else if e1.isAccount ∧ e2.isAccount then
    makeDirectStepI ctx e1.getAccountID e2.getAccountID curIssue.currency
  else if e1.isOffer ∧ e2.isAccount then .error (.fault .exception)
  else
    let outCurrency := e2.currency.getD curIssue.currency
    if curIssue.currency = mCurrency ∧ outCurrency = mCurrency then .error (.ter .temBAD_PATH)
    else makeBookStep ctx curIssue ⟨outCurrency, e2.issuer.getD curIssue.account⟩

structure StrandBuild (B : Type) where
  strand : List (PayStep B) := []
  curIssue : Issue
  seen : Seen := {}

/-- What does not change while a strand is made. -/
structure StrandParams where
  view : PaymentSandbox
  src : AccountID
  dst : AccountID
  ownerPaysTransferFee : Bool

def StrandBuild.ctx (b : StrandBuild B) (p : StrandParams) (isLast : Bool) : StrandContext B where
  view := p.view
  strandSrc := p.src
  strandDst := p.dst
  isFirst := b.strand.isEmpty
  isLast := isLast
  ownerPaysTransferFee := p.ownerPaysTransferFee
  prevStep := b.strand.getLast?
  seen := b.seen

def StrandBuild.push (b : StrandBuild B) (made : Except StrandError (PayStep B × Seen)) :
    Except StrandError (StrandBuild B) := do
  let (step, seen) ← made
  return { b with strand := b.strand ++ [step], seen }

def STPathElement.issueFrom (e : STPathElement) (cur : Issue) : Issue where
  currency := e.currency.getD cur.currency
  account := (e.account.or e.issuer).getD cur.account

/-- An account that a path leaves out around an offer, or between two accounts. -/
def StrandBuild.implied (b : StrandBuild B) (p : StrandParams) (cur next : STPathElement) :
    Except StrandError (StrandBuild B × STPathElement) := do
  let missing : Bool :=
    if next.isAccount then
      b.curIssue.currency ≠ mCurrency && b.curIssue.account ≠ cur.getAccountID &&
        b.curIssue.account ≠ next.getAccountID
    else b.curIssue.account ≠ cur.getAccountID
  if cur.isAccount ∧ missing then
    let b' ← b.push (makeDirectStepI (b.ctx p false) cur.getAccountID b.curIssue.account
      b.curIssue.currency)
    return (b', { account := some b.curIssue.account })
  else return (b, cur)

/-- A change of currency without an offer in the path. -/
def StrandBuild.exchange (b : StrandBuild B) (p : StrandParams) (cur next : STPathElement) :
    Except StrandError (StrandBuild B × STPathElement) := do
  match next.currency with
  | none => return (b, cur)
  | some nextCurrency =>
    if next.isAccount ∧ nextCurrency ≠ b.curIssue.currency then
      let nextIssue : Issue := ⟨nextCurrency, next.issuer.getD b.curIssue.account⟩
      let b ← b.push (makeBookStep (b.ctx p false) b.curIssue nextIssue)
      return ({ b with curIssue := nextIssue },
        { currency := some nextIssue.currency, issuer := some nextIssue.account })
    else return (b, cur)

def StrandBuild.link (p : StrandParams) (b : StrandBuild B) (cur next : STPathElement)
    (isLast : Bool) : Except StrandError (StrandBuild B) :=
  if cur.isNone ∨ next.isNone then .error (.ter .temBAD_PATH)
  else
    let b := { b with curIssue := cur.issueFrom b.curIssue }
    if cur.isOffer ∧ next.isAccount then
      -- the step of the offer is there already
      if b.curIssue.account ≠ next.getAccountID ∧ next.getAccountID ≠ mAccount then
        b.push (makeDirectStepI (b.ctx p false) b.curIssue.account next.getAccountID
          b.curIssue.currency)
      else .ok b
    else do
      let (b, cur) ← b.implied p cur next
      let (b, cur) ← b.exchange p cur next
      b.push (toStep (b.ctx p isLast) cur next b.curIssue)

def linkAll (p : StrandParams) : StrandBuild B → List STPathElement →
    Except StrandError (StrandBuild B)
  | b, cur :: next :: rest => do
    linkAll p (← b.link p cur next rest.isEmpty) (next :: rest)
  | b, _ => .ok b

/-- The elements of a path with those that are implied. -/
def pathElements (src dst : AccountID) (deliver : Issue) (sendMaxIssue : Option Issue)
    (curIssue : Issue) (path : STPath) : List STPathElement :=
  let firstNode : STPathElement := ⟨some src, some curIssue.currency, some curIssue.account⟩
  let lastNode : STPathElement := { account := some dst }
  let sendMaxPE : List STPathElement :=
    match sendMaxIssue with
    | none => []
    | some i =>
      if i.account ≠ src ∧ !path.head?.any (fun e => e.account = some i.account) then
        [{ account := some i.account }]
      else []
  let pes := firstNode :: (sendMaxPE ++ path)
  let lastCurrency := ((pes.reverse.find? (·.currency.isSome)).map (·.getCurrency)).getD 0
  let pes :=
    if lastCurrency ≠ deliver.currency then
      pes ++ [{ currency := some deliver.currency, issuer := some deliver.account }]
    else pes
  let pes :=
    if pes.getLast?.any (·.account = some deliver.account) ∨ dst = deliver.account then pes
    else pes ++ [{ account := some deliver.account }]
  if pes.getLast?.any (·.eq lastNode) then pes else pes ++ [lastNode]

def toStrand (view : PaymentSandbox) (src dst : AccountID) (deliver : Issue)
    (sendMaxIssue : Option Issue) (path : STPath) (ownerPaysTransferFee : Bool) :
    Except StrandError (List (PayStep B)) :=
  if src = mAccount ∨ dst = mAccount ∨ !isConsistent deliver ∨
      sendMaxIssue.any (!isConsistent ·) then
    .error (.ter .temBAD_PATH)
  else do
    let currency := (sendMaxIssue.map (·.currency)).getD deliver.currency
    let curIssue := if currency = mCurrency then mIssue else ⟨currency, src⟩
    let b ← linkAll { view, src, dst, ownerPaysTransferFee } { curIssue }
      (pathElements src dst deliver sendMaxIssue curIssue path)
    return b.strand

/-- The strands so far and why the last path gave none. -/
def addPath (view : PaymentSandbox) (src dst : AccountID) (deliver : Issue)
    (sendMax : Option Issue) (ownerPaysTransferFee : Bool)
    (s : List (List (PayStep B)) × TER) (path : STPath) :
    Except StrandError (List (List (PayStep B)) × TER) :=
  match toStrand view src dst deliver sendMax path ownerPaysTransferFee with
  | .error (.fault f) => .error (.fault f)
  | .error (.ter t) => if t.isTemMalformed then .error (.ter t) else .ok (s.1, t)
  | .ok strand =>
    if strand.isEmpty then .error (.fault .exception)
    else if s.1.any fun s' =>
        s'.length = strand.length && (s'.zipWith PayStep.equal strand).all id then
      .ok s
    else .ok (s.1 ++ [strand], s.2)

def toStrands (view : PaymentSandbox) (src dst : AccountID) (deliver : Issue)
    (sendMax : Option Issue) (paths : List STPath) (addDefaultPath ownerPaysTransferFee : Bool) :
    Except StrandError (List (List (PayStep B))) := do
  let add := addPath view src dst deliver sendMax ownerPaysTransferFee
  let s ←
    if addDefaultPath then do
      let (strands, ter) ← add ([], .tesSUCCESS) []
      if ter ≠ .tesSUCCESS ∧ paths = [] then throw (.ter ter) else pure (strands, .tesSUCCESS)
    else if paths = [] then throw (.ter .temMTCHAIN_EMPTY)
    else pure ([], .tesSUCCESS)
  let (strands, lastFailTer) ← paths.foldlM add s
  if strands.isEmpty ∧ lastFailTer ≠ .tesSUCCESS then throw (.ter lastFailTer) else return strands

end Strands
end FinPal
