import FinPal.Consensus.Timing
import FinPal.Lib.KeyMap
import Mathlib.Data.UInt

/-!
# A consensus round

How a node and the peers it listens to find the transactions of the next ledger
(`app/ledger/impl/LedgerConsensusImp.cpp`, `DisputedTx.h`, `LedgerProposal.cpp`). The node keeps its
position, which names a set by its ID, those of the peers, the sets it has acquired, and the votes
on each disputed transaction.

Identifiers and differences of sets are left open in `TxSets`. What the rest of the server answers
comes with the events, as do the consequences of `checkLCL` and what `playbackProposals` repeats.
-/

namespace FinPal
open LedgerTiming

/-- A position in a round: `LedgerProposal`, seen through `RCLCxPos`. -/
structure Position (SetID LedgerID : Type) where
  prevLedger : LedgerID
  currentHash : SetID
  closeTime : ℤ
  proposeSeq : UInt32
  seenTime : ℤ
  deriving DecidableEq

namespace Position
variable {SetID LedgerID : Type}

def seqJoin : UInt32 := 0
def seqLeave : UInt32 := 0xffffffff

def isBowOut (p : Position SetID LedgerID) : Bool := p.proposeSeq = seqLeave

def isStale (p : Position SetID LedgerID) (lastValid : ℤ) : Bool := p.seenTime < lastValid

/-- `changePosition`, or nothing once the position has bowed out. -/
def changePosition (p : Position SetID LedgerID) (newPosition : SetID) (closeTime now : ℤ) :
    Option (Position SetID LedgerID) :=
  if p.proposeSeq = seqLeave then none
  else some { p with
    currentHash := newPosition, closeTime := closeTime, seenTime := now,
    proposeSeq := p.proposeSeq + 1 }

def bowOut (p : Position SetID LedgerID) (now : ℤ) : Position SetID LedgerID :=
  if p.isBowOut then p else { p with seenTime := now, proposeSeq := seqLeave }

end Position

/-- The votes on a transaction, kept under its ID. -/
structure DisputedTx (NodeID : Type) where
  yays : ℤ := 0
  nays : ℤ := 0
  ourVote : Bool
  votes : KeyMap NodeID Bool := ∅

namespace DisputedTx
variable {NodeID : Type} [DecidableEq NodeID]

def setOurVote (d : DisputedTx NodeID) (o : Bool) : DisputedTx NodeID := { d with ourVote := o }

def setVote (d : DisputedTx NodeID) (peer : NodeID) (votesYes : Bool) : DisputedTx NodeID :=
  match d.votes.lookup peer with
  | none =>
    { d with
      votes := d.votes.insert peer votesYes
      yays := if votesYes then d.yays + 1 else d.yays
      nays := if votesYes then d.nays else d.nays + 1 }
  | some before =>
    if votesYes && !before then
      { d with votes := d.votes.insert peer true, nays := d.nays - 1, yays := d.yays + 1 }
    else if !votesYes && before then
      { d with votes := d.votes.insert peer false, nays := d.nays + 1, yays := d.yays - 1 }
    else d

def unVote (d : DisputedTx NodeID) (peer : NodeID) : DisputedTx NodeID :=
  match d.votes.lookup peer with
  | none => d
  | some true => { d with votes := d.votes.erase peer, yays := d.yays - 1 }
  | some false => { d with votes := d.votes.erase peer, nays := d.nays - 1 }

/-- The vote `updateVote` leaves us with: a change needs an opposing vote, and who does not propose
follows the majority. -/
def newVote (d : DisputedTx NodeID) (percentTime : ℕ) (proposing : Bool) : Bool :=
  if d.ourVote && d.nays == 0 then d.ourVote
  else if !d.ourVote && d.yays == 0 then d.ourVote
  else if proposing then
    (d.yays * 100 + if d.ourVote then 100 else 0) / (d.nays + d.yays + 1) > neededWeight percentTime
  else d.yays > d.nays

end DisputedTx

/-- What the round needs of sets of transactions: `getID`, and the differences that `getDifferences`
finds (it looks at 65536 at most). -/
structure TxSets (TxID SetID : Type) where
  getID : Finset TxID → SetID
  getDifferences : Finset TxID → Finset TxID → List TxID

/-- The fields of a closed ledger that a round reads. -/
structure ClosedLedger (LedgerID : Type) where
  hash : LedgerID
  seq : ℕ
  closeTime : ℤ
  parentCloseTime : ℤ
  closeTimeResolution : ℤ
  closeAgree : Bool

inductive RoundState
  | «open» | establish | processing | accepted
  deriving DecidableEq

structure LedgerConsensus (NodeID TxID SetID LedgerID : Type) where
  state : RoundState := .open
  closeTime : ℤ := 0
  prevLedgerHash : LedgerID
  previousLedger : ClosedLedger LedgerID
  acquiringLedger : Option LedgerID := none
  ourPosition : Option (Position SetID LedgerID) := none
  ourSet : Option (Finset TxID) := none
  proposing : Bool := false
  validating : Bool := false
  haveCorrectLCL : Bool := false
  consensusFail : Bool := false
  haveCloseTimeConsensus : Bool := false
  roundTime : ℕ := 0
  closePercent : ℕ := 0
  closeResolution : ℤ := 30
  previousProposers : ℕ := 0
  previousRoundTime : ℕ := 0
  peerPositions : KeyMap NodeID (Position SetID LedgerID) := ∅
  acquired : SetID → Option (Finset TxID) := fun _ => none
  disputes : KeyMap TxID (DisputedTx NodeID) := ∅
  compares : Finset SetID := ∅
  deadNodes : Finset NodeID := ∅

/-- What the timer reads from the rest of the server. `initialSet` has the transactions of the open
ledger, whose parent is `openParent`, and the pseudo-transactions that are due. -/
structure TimerInput (TxID LedgerID : Type) where
  roundTime : ℕ
  closeTime : ℤ
  lastCloseTime : ℤ
  anyTransactions : Bool
  nodesAfter : ℕ
  initialSet : Finset TxID
  openParent : LedgerID

namespace LedgerConsensus
variable {NodeID TxID SetID LedgerID : Type}
  [DecidableEq NodeID] [DecidableEq TxID] [DecidableEq SetID] [DecidableEq LedgerID]
  (sets : TxSets TxID SetID) (c : LedgerConsensus NodeID TxID SetID LedgerID)

/-! ### Disputes -/

/-- The vote of a peer on a new dispute, if its set is acquired. -/
def peerVote (txID : TxID) (txn : DisputedTx NodeID) (pit : Σ _ : NodeID, Position SetID LedgerID) :
    DisputedTx NodeID :=
  match c.acquired pit.2.currentHash with
  | some set => txn.setVote pit.1 (txID ∈ set)
  | none => txn

def addDisputedTransaction (txID : TxID) : LedgerConsensus NodeID TxID SetID LedgerID :=
  if (c.disputes.lookup txID).isSome then c
  else
    let ourVote := match c.ourSet with
      | some set => decide (txID ∈ set)
      | none => false
    let txn := c.peerPositions.entries.foldl (c.peerVote txID) { ourVote }
    { c with disputes := c.disputes.insert txID txn }

def createDisputes (m₁ m₂ : Finset TxID) : LedgerConsensus NodeID TxID SetID LedgerID :=
  if sets.getID m₁ = sets.getID m₂ then c
  else (sets.getDifferences m₁ m₂).foldl addDisputedTransaction c

/-- Disputes between our set and that of an ID, unless they were compared before. -/
def compareOnce (hash : SetID) (ourSet set : Finset TxID) :
    LedgerConsensus NodeID TxID SetID LedgerID :=
  if hash ∈ c.compares then c
  else createDisputes sets { c with compares := insert hash c.compares } ourSet set

def adjustCount (map : Finset TxID) (peers : List NodeID) :
    LedgerConsensus NodeID TxID SetID LedgerID :=
  { c with
    disputes := c.disputes.mapVal fun txID d => peers.foldl (fun d p => d.setVote p (txID ∈ map)) d }

def peersAt (hash : SetID) : List NodeID :=
  (c.peerPositions.entries.filter fun it => it.2.currentHash = hash).map Sigma.fst

/-- Disputes between our set and a new one, if we take part with another position. -/
def compareWithOurs (map : Finset TxID) : LedgerConsensus NodeID TxID SetID LedgerID :=
  match c.ourPosition, c.ourSet with
  | some pos, some ourSet =>
    if pos.isBowOut then c
    else if sets.getID map = pos.currentHash then c
    else
      let c := createDisputes sets c ourSet map
      { c with compares := insert (sets.getID map) c.compares }
  | _, _ => c

def mapCompleteInternal (map : Finset TxID) : LedgerConsensus NodeID TxID SetID LedgerID :=
  let hash := sets.getID map
  if (c.acquired hash).isSome then c
  else
    let c := compareWithOurs sets c map
    let c := adjustCount c map (c.peersAt hash)
    { c with acquired := Function.update c.acquired hash (some map) }

/-- `getSet` is what `inboundTransactions_` has for the ID of the position's set. -/
def peerPosition (peerID : NodeID) (newPosition : Position SetID LedgerID)
    (getSet : Option (Finset TxID)) : LedgerConsensus NodeID TxID SetID LedgerID :=
  if newPosition.prevLedger ≠ c.prevLedgerHash then c
  else if peerID ∈ c.deadNodes then c
  else if (c.peerPositions.lookup peerID).any fun current =>
      newPosition.proposeSeq ≤ current.proposeSeq then c
  else if newPosition.isBowOut then
    { c with
      disputes := c.disputes.mapVal fun _ d => d.unVote peerID
      peerPositions := c.peerPositions.erase peerID
      deadNodes := insert peerID c.deadNodes }
  else
    let c := { c with peerPositions := c.peerPositions.insert peerID newPosition }
    let c := if (c.acquired newPosition.currentHash).isSome then c
      else { c with acquired := Function.update c.acquired newPosition.currentHash getSet }
    match c.acquired newPosition.currentHash with
    | some set =>
      { c with disputes := c.disputes.mapVal fun txID d => d.setVote peerID (txID ∈ set) }
    | none => c

/-! ### Our position -/

def leaveConsensus (now : ℤ) : LedgerConsensus NodeID TxID SetID LedgerID :=
  { c with ourPosition := c.ourPosition.map fun p => p.bowOut now, proposing := false }

/-- `makeInitialPosition` and `takeInitialPosition`. -/
def takeInitialPosition (initialSet : Finset TxID) (openParent : LedgerID) (now : ℤ) :
    LedgerConsensus NodeID TxID SetID LedgerID :=
  let c : LedgerConsensus NodeID TxID SetID LedgerID := { c with
    ourPosition := some ⟨openParent, sets.getID initialSet, c.closeTime, Position.seqJoin, now⟩
    ourSet := some initialSet
    disputes := c.disputes.mapVal fun txID d => d.setOurVote (txID ∈ initialSet)
    compares := insert (sets.getID initialSet) c.compares }
  let c := c.peerPositions.entries.foldl
    (fun c it => match c.acquired it.2.currentHash with
      | some set => compareOnce sets c it.2.currentHash initialSet set
      | none => c) c
  mapCompleteInternal sets c initialSet

def effectiveCloseTime (closeTime : ℤ) : ℤ :=
  if closeTime = 0 then closeTime
  else max (roundCloseTime closeTime c.closeResolution) (c.previousLedger.closeTime + 1)

/-- Positions that are not fresh any more are removed, with their votes. -/
def removeStale (peerCutoff : ℤ) : LedgerConsensus NodeID TxID SetID LedgerID :=
  let stale := (c.peerPositions.entries.filter fun it => it.2.isStale peerCutoff).map Sigma.fst
  { c with
    disputes := c.disputes.mapVal fun _ d => stale.foldl DisputedTx.unVote d
    peerPositions := c.peerPositions.filterVal fun _ p => !p.isStale peerCutoff }

def changedVotes : KeyMap TxID (DisputedTx NodeID) :=
  c.disputes.filterVal fun _ d => d.newVote c.closePercent c.proposing != d.ourVote

def changedSet (set : Finset TxID) : Finset TxID :=
  c.changedVotes.entries.foldl
    (fun set it => if it.2.ourVote then set.erase it.1 else insert it.1 set) set

/-- The close time with most votes among those with enough, in the order of the times, and whether
they suffice for consensus. -/
def countCloseTimes (times : List ℤ) (threshVote threshConsensus : ℕ) : ℤ × Bool :=
  let (closeTime, _, consensus) := (times.dedup.insertionSort (· ≤ ·)).foldl
    (fun (closeTime, threshVote, consensus) t =>
      let votes := times.count t
      if votes ≥ threshVote then (t, votes, consensus || votes ≥ threshConsensus)
      else (closeTime, threshVote, consensus))
    (0, threshVote, false)
  (closeTime, consensus)

/-- The close time that `updateOurPositions` finds, and whether it has consensus. -/
def agreedCloseTime (ourPosition : Position SetID LedgerID) : ℤ × Bool :=
  if c.peerPositions.entries = [] then (c.effectiveCloseTime ourPosition.closeTime, true)
  else
    let times := c.peerPositions.entries.map fun it => c.effectiveCloseTime it.2.closeTime
    let times := if c.proposing then c.effectiveCloseTime ourPosition.closeTime :: times else times
    countCloseTimes times (participantsNeeded times.length (neededWeight c.closePercent))
      (participantsNeeded times.length avCtConsensusPct)

def updateVotes : LedgerConsensus NodeID TxID SetID LedgerID :=
  { c with
    disputes := c.disputes.mapVal fun _ d => d.setOurVote (d.newVote c.closePercent c.proposing) }

/-- The set `updateOurPositions` proposes anew: a changed one, or the same with another close time
or before our position is stale. -/
def proposedSet (pos : Position SetID LedgerID) (set : Finset TxID) (closeTime now : ℤ) :
    Option (Finset TxID) :=
  if c.changedVotes.entries ≠ [] then some (c.changedSet set)
  else if closeTime ≠ pos.closeTime ∨ pos.isStale (now - proposeInterval) then some set
  else none

/-- The set is replaced before the position is asked to change. -/
def takePosition (pos : Position SetID LedgerID) (ourSet : Finset TxID) (closeTime now : ℤ) :
    LedgerConsensus NodeID TxID SetID LedgerID :=
  let c := { c with ourSet := some ourSet }
  match pos.changePosition (sets.getID ourSet) closeTime now with
  | none => c
  | some pos => mapCompleteInternal sets { c with ourPosition := some pos } ourSet

def updateOurPositions (now : ℤ) : LedgerConsensus NodeID TxID SetID LedgerID :=
  let c := c.removeStale (now - proposeFreshness)
  match c.ourPosition, c.ourSet with
  | some pos, some set =>
    let (closeTime, consensus) := c.agreedCloseTime pos
    let ourSet := c.proposedSet pos set closeTime now
    let c := { c.updateVotes with haveCloseTimeConsensus := consensus }
    match ourSet with
    | none => c
    | some ourSet => takePosition sets c pos ourSet closeTime now
  | _, _ => c

/-! ### Phases -/

/-- One peer in `haveConsensus`: who agrees, who does not, and disputes for a set not compared with
ours yet. -/
def countPosition (ourPosition : SetID)
    (counts : ℕ × ℕ × LedgerConsensus NodeID TxID SetID LedgerID)
    (position : Position SetID LedgerID) : ℕ × ℕ × LedgerConsensus NodeID TxID SetID LedgerID :=
  let (agree, disagree, c) := counts
  if position.isBowOut then (agree, disagree, c)
  else if position.currentHash = ourPosition then (agree + 1, disagree, c)
  else
    let c := match c.acquired position.currentHash, c.acquired ourPosition with
      | some set, some ourSet => compareOnce sets c position.currentHash ourSet set
      | _, _ => c
    (agree, disagree + 1, c)

def countPositions (ourPosition : SetID) : ℕ × ℕ × LedgerConsensus NodeID TxID SetID LedgerID :=
  (c.peerPositions.entries.map Sigma.snd).foldl (countPosition sets ourPosition) (0, 0, c)

def haveConsensus (currentValidations : ℕ) : Bool × LedgerConsensus NodeID TxID SetID LedgerID :=
  match c.ourPosition with
  | none => (false, c)
  | some pos =>
    let (agree, disagree, c) := countPositions sets c pos.currentHash
    match checkConsensus c.previousProposers (agree + disagree) agree currentValidations
        c.previousRoundTime c.roundTime c.proposing with
    | .no => (false, c)
    | .movedOn => (true, { c with consensusFail := true })
    | .yes => (true, { c with consensusFail := false })

/-- `stateEstablish`, with the set that `beginAccept` hands to `accept`, if it is called. -/
def stateEstablish (input : TimerInput TxID LedgerID) :
    LedgerConsensus NodeID TxID SetID LedgerID × Option (Finset TxID) :=
  if c.roundTime < ledgerMinConsensus then (c, none)
  else
    let c := updateOurPositions sets c input.closeTime
    let (reached, c) := haveConsensus sets c input.nodesAfter
    if !reached then (c, none)
    else if !c.haveCloseTimeConsensus then (c, none)
    else ({ c with state := .processing }, c.ourSet)

def closeLedger (input : TimerInput TxID LedgerID) : LedgerConsensus NodeID TxID SetID LedgerID :=
  takeInitialPosition sets { c with state := .establish, closeTime := input.closeTime }
    input.initialSet input.openParent input.closeTime

/-- How long ago the last ledger closed, in milliseconds: by its own time if agreed on, else by the
time we saw. -/
def sinceClose (input : TimerInput TxID LedgerID) : ℤ :=
  let ledger := c.previousLedger
  let previousCloseCorrect := c.haveCorrectLCL && ledger.closeAgree &&
    ledger.closeTime != ledger.parentCloseTime + 1
  let closeTime := if previousCloseCorrect then ledger.closeTime
    else roundCloseTime input.lastCloseTime c.closeResolution
  (roundCloseTime input.closeTime c.closeResolution - closeTime) * 1000

def statePreClose (input : TimerInput TxID LedgerID) : LedgerConsensus NodeID TxID SetID LedgerID :=
  if shouldCloseLedger input.anyTransactions c.previousProposers c.peerPositions.entries.length
      input.nodesAfter c.previousRoundTime (c.sinceClose input) c.roundTime
      (max ledgerIdleInterval c.previousLedger.closeTimeResolution) then
    closeLedger sets c input
  else c

/-- The time of the round, also as a part of the previous round's. -/
def tick (roundTime : ℕ) : LedgerConsensus NodeID TxID SetID LedgerID :=
  { c with
    roundTime := roundTime
    closePercent := roundTime * 100 / max c.previousRoundTime avMinConsensusTime }

/-- `timerEntry` after `checkLCL`. -/
def timerEntry (input : TimerInput TxID LedgerID) :
    LedgerConsensus NodeID TxID SetID LedgerID × Option (Finset TxID) :=
  let c := c.tick input.roundTime
  match c.state with
  | .open =>
    let c := statePreClose sets c input
    if c.state = .establish then stateEstablish sets c input else (c, none)
  | .establish => stateEstablish sets c input
  | .processing | .accepted => (c, none)

/-! ### Ledger changes -/

/-- The first part of `handleLCL`: the network is on another ledger. -/
def switchLCL (lclHash : LedgerID) (now : ℤ) : LedgerConsensus NodeID TxID SetID LedgerID :=
  if c.prevLedgerHash = lclHash then c
  else
    let c := { c with prevLedgerHash := lclHash }
    let c := if c.haveCorrectLCL ∧ c.proposing ∧ c.ourPosition.isSome then c.leaveConsensus now else c
    { c with proposing := false, peerPositions := ∅, disputes := ∅, compares := ∅, deadNodes := ∅ }

/-- `handleLCL` where the ledger has to be acquired first. -/
def acquireLCL : LedgerConsensus NodeID TxID SetID LedgerID :=
  if c.previousLedger.hash = c.prevLedgerHash ∨ c.acquiringLedger = some c.prevLedgerHash then c
  else { c with acquiringLedger := some c.prevLedgerHash, haveCorrectLCL := false }

/-- `validates`: we have validation keys and a ledger of the network; `full`: we are in sync with
it. -/
def startRound (prevLCLHash : LedgerID) (prevLedger : ClosedLedger LedgerID) (closeTime : ℤ)
    (previousProposers previousConvergeTime : ℕ) (validates full : Bool) :
    LedgerConsensus NodeID TxID SetID LedgerID :=
  if c.state = .processing then c
  else
    { state := .open
      closeTime := closeTime
      prevLedgerHash := prevLCLHash
      previousLedger := prevLedger
      acquiringLedger := c.acquiringLedger
      proposing := validates && full
      validating := validates
      haveCorrectLCL := prevLedger.hash = prevLCLHash
      closeResolution := getNextLedgerTimeResolution prevLedger.closeTimeResolution
        prevLedger.closeAgree (prevLedger.seq + 1)
      previousProposers := previousProposers
      previousRoundTime := previousConvergeTime }

/-- The end of `accept`; `compatible`: the new ledger may be validated. -/
def acceptDone (compatible : Bool) : LedgerConsensus NodeID TxID SetID LedgerID :=
  { c with state := .accepted, validating := c.validating && compatible }

end LedgerConsensus

/-! ### Events -/

inductive RoundEvent (NodeID TxID SetID LedgerID : Type)
  | peerPosition (peerID : NodeID) (newPosition : Position SetID LedgerID)
    (getSet : Option (Finset TxID))
  | gotMap (map : Finset TxID)
  | timerEntry (input : TimerInput TxID LedgerID)
  | switchLCL (lclHash : LedgerID) (now : ℤ)
  | acquireLCL
  | startRound (prevLCLHash : LedgerID) (prevLedger : ClosedLedger LedgerID) (closeTime : ℤ)
    (previousProposers previousConvergeTime : ℕ) (validates full : Bool)
  /-- `handleLCL` stops proposing after it has started a round. -/
  | stopProposing
  | leaveConsensus (now : ℤ)
  | acceptDone (compatible : Bool)

namespace LedgerConsensus
variable {NodeID TxID SetID LedgerID : Type}
  [DecidableEq NodeID] [DecidableEq TxID] [DecidableEq SetID] [DecidableEq LedgerID]
  (sets : TxSets TxID SetID) (c : LedgerConsensus NodeID TxID SetID LedgerID)

/-- One event, with the set that `stateEstablish` hands to `accept`, if it does. -/
def step : RoundEvent NodeID TxID SetID LedgerID →
      LedgerConsensus NodeID TxID SetID LedgerID × Option (Finset TxID)
  | .peerPosition peerID newPosition getSet => (c.peerPosition peerID newPosition getSet, none)
  | .gotMap map => (mapCompleteInternal sets c map, none)
  | .timerEntry input => timerEntry sets c input
  | .switchLCL lclHash now => (c.switchLCL lclHash now, none)
  | .acquireLCL => (c.acquireLCL, none)
  | .startRound prevLCLHash prevLedger closeTime previousProposers previousConvergeTime validates full =>
    (c.startRound prevLCLHash prevLedger closeTime previousProposers previousConvergeTime validates
      full, none)
  | .stopProposing => ({ c with proposing := false }, none)
  | .leaveConsensus now => (c.leaveConsensus now, none)
  | .acceptDone compatible => (c.acceptDone compatible, none)

def run (events : List (RoundEvent NodeID TxID SetID LedgerID)) :
    LedgerConsensus NodeID TxID SetID LedgerID :=
  events.foldl (fun c e => (c.step sets e).1) c

end LedgerConsensus
end FinPal
