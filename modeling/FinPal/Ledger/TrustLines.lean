import FinPal.Ledger.Directory

/-!
# Trust lines and issue trackers

The credits of `ledger/impl/View.cpp`: a trust line holds a balance from the view of its low
account. Each credit calls `creditHook` of `ledger/impl/ApplyViewBase.cpp`, which keeps the total of
an issue in its tracker. Assertions are not modelled.
-/

namespace FinPal
open Store ViewM

/-! ## Totals of an issue -/

/-- The tracker of an issue is filed as a line of `mAccount` with the issuer. -/
def keylet.tracker (issue : Issue) : Keylet MTChainState :=
  keylet.line mAccount issue.account issue.currency

/-- The trust lines among the entries a page lists. -/
def readItems : List Digest → ViewM (List MTChainState)
  | [] => return []
  | key :: rest => do
    match ← peek (⟨key⟩ : Keylet MTChainState) with
    | some line => return line :: (← readItems rest)
    | none => readItems rest

/-- The trust lines that `forEachItem` visits from a page on. There are `2 ^ 64` page numbers; on a
cycle the source does not return. -/
def forEachItem (root : Digest) : Nat → Nat → ViewM (List MTChainState)
  | 0, _ => throw .logicError
  | fuel + 1, page => do
    match ← peek (keylet.page root page) with
    | none => return []
    | some node =>
      let items ← readItems node.indexes
      if node.indexNext = 0 then
        return items
      else
        return items ++ (← forEachItem root fuel node.indexNext)

def maxPages : Nat := 2 ^ 64

def addOwed (issue : Issue) (total : STAmount) (line : MTChainState) : Except Fault STAmount :=
  if line.balance.getCurrency = issue.currency then
    let balance := if line.lowLimit.getIssuer = issue.account then -line.balance else line.balance
    if 0 < balance.signum then total.add balance else .ok total
  else
    .ok total

/-- Adds what the issuer owes on all lines of its directory. -/
def addOwner (issue : Issue) (total : STAmount) : ViewM STAmount := do
  let lines ← forEachItem (keylet.ownerDir issue.account).key maxPages 0
  ofExcept (lines.foldlM (addOwed issue) total)

/-- The new total of a tracker: its balance counts once it is not native. -/
def newTotal (amount tracked : STAmount) : ViewM STAmount :=
  if tracked.isNative then addOwner amount.issue amount else ofExcept (amount.add tracked)

def updateIssueTotalAmount (amount : STAmount) : ViewM TER := do
  match ← peek (keylet.tracker amount.issue) with
  | none => return .tecNO_ENTRY
  | some sleIssue =>
    let total ← newTotal amount sleIssue.balance
    update (keylet.tracker amount.issue) fun s => { s with balance := total }
    return .tesSUCCESS

def getIssueLimitAmount (issue : Issue) : ViewM (Option STAmount) := do
  let sleLimit ← peek (keylet.tracker issue)
  return sleLimit.bind (·.limitAmount)

/-- `getIssueTotalAmount` on a `ReadView`. -/
def getIssueTotalAmount (issue : Issue) : ViewM STAmount := do
  match ← peek (keylet.tracker issue) with
  | none => addOwner issue (.ofIssue issue)
  | some sle => if sle.balance.isNative then addOwner issue (.ofIssue issue) else return sle.balance

/-- `getIssueTotalAmount` on an `ApplyView`, which fills an empty tracker first. -/
def getIssueTotalAmount' (issue : Issue) : ViewM STAmount := do
  match ← peek (keylet.tracker issue) with
  | none => getIssueTotalAmount issue
  | some sle =>
    if sle.balance.isNative then
      let _ ← updateIssueTotalAmount (.ofIssue issue)
      getIssueTotalAmount issue
    else
      return sle.balance

def creditHook (src _dst : AccountID) (amount preCreditBalance : STAmount) : ViewM TER :=
  if preCreditBalance.signum < 0 then
    updateIssueTotalAmount amount
  else if 0 < preCreditBalance.signum then
    updateIssueTotalAmount (-amount)
  else if src ≠ amount.getIssuer then
    updateIssueTotalAmount (amount.setIssuer src).zeroed
  else
    updateIssueTotalAmount amount

/-! ## Creating and deleting lines -/

def newLineFlags (bSetHigh bAuth bNoMTChain bFreeze peerDefault : Bool) : UInt32 :=
  (if bSetHigh then lsfHighReserve else lsfLowReserve) |||
  (if bAuth then if bSetHigh then lsfHighAuth else lsfLowAuth else 0) |||
  (if bNoMTChain then if bSetHigh then lsfHighNoMtchain else lsfLowNoMtchain else 0) |||
  (if bFreeze then if bSetHigh then lsfHighFreeze else lsfLowFreeze else 0) |||
  (if peerDefault then 0 else if bSetHigh then lsfLowNoMtchain else lsfHighNoMtchain)

/-- A new line. The limit and the qualities are those of the account being set, which holds the
balance. -/
def newLine (bSetHigh : Bool) (flags : UInt32) (lowNode highNode : Nat)
    (saBalance saLimit peerLimit : STAmount) (uQualityIn uQualityOut : UInt32) : MTChainState where
  balance := if bSetHigh then -saBalance else saBalance
  lowLimit := if bSetHigh then peerLimit else saLimit
  highLimit := if bSetHigh then saLimit else peerLimit
  flags := flags
  lowNode := some lowNode
  highNode := some highNode
  lowQualityIn := if bSetHigh then 0 else uQualityIn
  lowQualityOut := if bSetHigh then 0 else uQualityOut
  highQualityIn := if bSetHigh then uQualityIn else 0
  highQualityOut := if bSetHigh then uQualityOut else 0

/-- `account` is being set, and `saLimit` is its limit. -/
def trustCreate (bSrcHigh : Bool) (src dst : AccountID) (uIndex : Digest) (account : AccountID)
    (bAuth bNoMTChain bFreeze : Bool) (saBalance saLimit : STAmount)
    (uQualityIn uQualityOut : UInt32) : ViewM TER := do
  let low := if bSrcHigh then dst else src
  let high := if bSrcHigh then src else dst
  let k : Keylet MTChainState := ⟨uIndex⟩
  insert k {}
  let lowNode ← dirAdd (keylet.ownerDir low) uIndex (describeOwnerDir low)
  if lowNode.1 ≠ .tesSUCCESS then
    return lowNode.1
  else
    let highNode ← dirAdd (keylet.ownerDir high) uIndex (describeOwnerDir high)
    if highNode.1 ≠ .tesSUCCESS then
      return highNode.1
    else
      let bSetDst : Bool := saLimit.getIssuer = dst
      let bSetHigh := bSrcHigh ^^ bSetDst
      let slePeer ← peek! (keylet.account (if bSetHigh then low else high))
      let flags := newLineFlags bSetHigh bAuth bNoMTChain bFreeze
        (slePeer.flags &&& lsfDefaultMtchain ≠ 0)
      let peerLimit := STAmount.ofIssue ⟨saBalance.getCurrency, if bSetDst then src else dst⟩
      update k fun _ => newLine bSetHigh flags lowNode.2 highNode.2 saBalance saLimit peerLimit
        uQualityIn uQualityOut
      adjustOwnerCount account 1
      let _ ← creditHook src dst saBalance saBalance.zeroed
      return .tesSUCCESS

/-- Takes a line out of both directories. The line goes even if that fails. -/
def trustDelete (k : Keylet MTChainState) (low high : AccountID) : ViewM TER := do
  let state ← peek! k
  let terLow ← dirDelete false (state.lowNode.getD 0) (keylet.ownerDir low).key k.key false
    state.lowNode.isNone
  if terLow ≠ .tesSUCCESS then
    erase k
    return terLow
  else
    let terHigh ← dirDelete false (state.highNode.getD 0) (keylet.ownerDir high).key k.key false
      state.highNode.isNone
    erase k
    return terHigh

/-! ## Credits -/

structure LineSide where
  reserve : UInt32
  noMtchain : UInt32
  freeze : UInt32
  limit : STAmount
  qualityIn : UInt32
  qualityOut : UInt32

def MTChainState.side (s : MTChainState) (high : Bool) : LineSide :=
  if high then
    ⟨lsfHighReserve, lsfHighNoMtchain, lsfHighFreeze, s.highLimit, s.highQualityIn, s.highQualityOut⟩
  else
    ⟨lsfLowReserve, lsfLowNoMtchain, lsfLowFreeze, s.lowLimit, s.lowQualityIn, s.lowQualityOut⟩

/-- Clears the reserve of a sender whose balance is used up and who has nothing else set on the
line; whether the line is to be deleted. -/
def updateTrustLine (k : Keylet MTChainState) (bSenderHigh : Bool) (sender : AccountID)
    (before after : STAmount) : ViewM Bool := do
  let state ← peek! k
  let side := state.side bSenderHigh
  if 0 < before.signum ∧ after.signum ≤ 0 ∧ state.flags &&& side.reserve ≠ 0 then
    let sle ← peek! (keylet.account sender)
    if (state.flags &&& side.noMtchain ≠ 0) ≠ (sle.flags &&& lsfDefaultMtchain ≠ 0) ∧
        state.flags &&& side.freeze = 0 ∧ side.limit.signum = 0 ∧ side.qualityIn = 0 ∧
        side.qualityOut = 0 then
      adjustOwnerCount sender (-1)
      update k fun s => { s with flags := state.flags &&& ~~~side.reserve }
      return after.signum = 0 && state.flags &&& (state.side (!bSenderHigh)).reserve = 0
    else
      return false
  else
    return false

def MTChainState.balanceOf (s : MTChainState) (high : Bool) : STAmount :=
  if high then -s.balance else s.balance

/-- Creates the line on which a receiver without one is credited. -/
def createLineFor (sender receiver : AccountID) (currency : Currency) (amount : STAmount) :
    ViewM TER := do
  let sleAccount ← peek! (keylet.account receiver)
  trustCreate (receiver < sender) sender receiver (keylet.line sender receiver currency).key receiver
    false (sleAccount.flags &&& lsfDefaultMtchain = 0) false (amount.setIssuer noAccount)
    (.ofIssue ⟨currency, receiver⟩) 0 0

/-- The part of `mtchainCredit` that clears a sender's reserve. It does not call `updateTrustLine`:
each field of the sender's side is chosen where it is read. -/
def clearReserve (k : Keylet MTChainState) (bSenderHigh : Bool) (uSenderID : AccountID)
    (saBefore saBalance : STAmount) : ViewM Bool := do
  let sle ← peek! k
  let uFlags := sle.flags
  if 0 < saBefore.signum ∧ saBalance.signum ≤ 0 ∧
      uFlags &&& (if !bSenderHigh then lsfLowReserve else lsfHighReserve) ≠ 0 then
    let sleSender ← peek! (keylet.account uSenderID)
    if (uFlags &&& (if !bSenderHigh then lsfLowNoMtchain else lsfHighNoMtchain) ≠ 0) ≠
          (sleSender.flags &&& lsfDefaultMtchain ≠ 0) ∧
        uFlags &&& (if !bSenderHigh then lsfLowFreeze else lsfHighFreeze) = 0 ∧
        (if !bSenderHigh then sle.lowLimit else sle.highLimit).signum = 0 ∧
        (if !bSenderHigh then sle.lowQualityIn else sle.highQualityIn) = 0 ∧
        (if !bSenderHigh then sle.lowQualityOut else sle.highQualityOut) = 0 then
      adjustOwnerCount uSenderID (-1)
      update k fun s =>
        { s with flags := uFlags &&& (if !bSenderHigh then ~~~lsfLowReserve else ~~~lsfHighReserve) }
      return saBalance.signum = 0 &&
        uFlags &&& (if bSenderHigh then lsfLowReserve else lsfHighReserve) = 0
    else
      return false
  else
    return false

def mtchainCredit (uSenderID uReceiverID : AccountID) (saAmount : STAmount) : ViewM TER := do
  let k := keylet.line uSenderID uReceiverID saAmount.getCurrency
  let bSenderHigh : Bool := uReceiverID < uSenderID
  match ← peek k with
  | none => createLineFor uSenderID uReceiverID saAmount.getCurrency saAmount
  | some sleMtchainState =>
    let saBefore := if bSenderHigh then -sleMtchainState.balance else sleMtchainState.balance
    let _ ← creditHook uSenderID uReceiverID saAmount saBefore
    let saBalance ← ofExcept (saBefore.sub saAmount)
    let bDelete ← clearReserve k bSenderHigh uSenderID saBefore saBalance
    update k fun s => { s with balance := if bSenderHigh then -saBalance else saBalance }
    if bDelete then
      trustDelete k (if bSenderHigh then uReceiverID else uSenderID)
        (if !bSenderHigh then uReceiverID else uSenderID)
    else
      return .tesSUCCESS

def issueIOU (account : AccountID) (amount : STAmount) (issue : Issue) : ViewM TER := do
  let k := keylet.line issue.account account issue.currency
  let bSenderHigh : Bool := account < issue.account
  match ← peek k with
  | none => createLineFor issue.account account issue.currency amount
  | some state =>
    let startBalance := if bSenderHigh then -state.balance else state.balance
    let finalBalance ← ofExcept (startBalance.sub amount)
    let mustDelete ← updateTrustLine k bSenderHigh issue.account startBalance finalBalance
    let _ ← creditHook issue.account account amount startBalance
    update k fun s => { s with balance := if bSenderHigh then -finalBalance else finalBalance }
    if mustDelete then
      trustDelete k (if bSenderHigh then account else issue.account)
        (if bSenderHigh then issue.account else account)
    else
      return .tesSUCCESS

def redeemIOU (account : AccountID) (amount : STAmount) (issue : Issue) : ViewM TER := do
  let k := keylet.line account issue.account issue.currency
  let bSenderHigh : Bool := issue.account < account
  match ← peek k with
  | none => return .tefINTERNAL
  | some state =>
    let startBalance := if bSenderHigh then -state.balance else state.balance
    let finalBalance ← ofExcept (startBalance.sub amount)
    let mustDelete ← updateTrustLine k bSenderHigh account startBalance finalBalance
    let _ ← creditHook account issue.account amount startBalance
    update k fun s => { s with balance := if bSenderHigh then -finalBalance else finalBalance }
    if mustDelete then
      trustDelete k (if bSenderHigh then issue.account else account)
        (if bSenderHigh then account else issue.account)
    else
      return .tesSUCCESS

/-! ### The credits in one form -/

/-- Writes a balance in the terms of one side, and deletes a line no longer needed. -/
def writeBalance (k : Keylet MTChainState) (bSenderHigh : Bool) (sender receiver : AccountID)
    (balance : STAmount) (bDelete : Bool) : ViewM TER := do
  update k fun s => { s with balance := if bSenderHigh then -balance else balance }
  if bDelete then
    trustDelete k (if bSenderHigh then receiver else sender)
      (if bSenderHigh then sender else receiver)
  else
    return .tesSUCCESS

/-- The two ways to clear a reserve are the same. -/
theorem clearReserve_eq (k : Keylet MTChainState) (high : Bool) (sender : AccountID)
    (before after : STAmount) :
    clearReserve k high sender before after = updateTrustLine k high sender before after := by
  cases high <;> rfl

theorem mtchainCredit_eq (sender receiver : AccountID) (amount : STAmount) :
    mtchainCredit sender receiver amount =
      (peek (keylet.line sender receiver amount.getCurrency) >>= fun o => match o with
        | none => createLineFor sender receiver amount.getCurrency amount
        | some state => do
          let before := state.balanceOf (receiver < sender)
          let _ ← creditHook sender receiver amount before
          let after ← ofExcept (before.sub amount)
          let bDelete ← updateTrustLine (keylet.line sender receiver amount.getCurrency)
            (receiver < sender) sender before after
          writeBalance (keylet.line sender receiver amount.getCurrency) (receiver < sender) sender
            receiver after bDelete) := by
  unfold mtchainCredit
  simp only [clearReserve_eq]
  generalize decide (receiver < sender) = high
  cases high <;> rfl

/-- What `issueIOU` and `redeemIOU` do on a line: the reserve is cleared before the hook. -/
def moveIOU (sender receiver : AccountID) (amount : STAmount) (issue : Issue)
    (state : MTChainState) : ViewM TER := do
  let before := state.balanceOf (receiver < sender)
  let after ← ofExcept (before.sub amount)
  let mustDelete ← updateTrustLine (keylet.line sender receiver issue.currency)
    (receiver < sender) sender before after
  let _ ← creditHook sender receiver amount before
  writeBalance (keylet.line sender receiver issue.currency) (receiver < sender) sender receiver
    after mustDelete

theorem issueIOU_eq (account : AccountID) (amount : STAmount) (issue : Issue) :
    issueIOU account amount issue =
      peek (keylet.line issue.account account issue.currency) >>= fun o => match o with
        | none => createLineFor issue.account account issue.currency amount
        | some state => moveIOU issue.account account amount issue state := by
  unfold issueIOU moveIOU
  generalize decide (account < issue.account) = high
  cases high <;> rfl

theorem redeemIOU_eq (account : AccountID) (amount : STAmount) (issue : Issue) :
    redeemIOU account amount issue =
      peek (keylet.line account issue.account issue.currency) >>= fun o => match o with
        | none => pure .tefINTERNAL
        | some state => moveIOU account issue.account amount issue state := by
  unfold redeemIOU moveIOU
  generalize decide (issue.account < account) = high
  cases high <;> rfl

end FinPal
