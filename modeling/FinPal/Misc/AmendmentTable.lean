import FinPal.Protocol.Amount
import Mathlib.Data.List.AList
import Mathlib.Data.List.Sort

/-!
# Voting for amendments

The vote on the amendments a server knows, at a flag ledger (`app/misc/impl/AmendmentTable.cpp`). It
looks at one ledger and the validations of its parent, and answers with pseudo-transactions, as
flags for each amendment.
-/

namespace FinPal

/-- The name of an amendment, a `uint256`. -/
abbrev AmendmentID := Fin (2 ^ 256)

/-- `NetClock::time_point`, in seconds. -/
abbrev NetTime := UInt32

def tfGotMajority : UInt32 := 0x00010000
def tfLostMajority : UInt32 := 0x00020000

structure AmendmentState where
  vetoed : Bool := false
  enabled : Bool := false
  supported : Bool := false
  deriving DecidableEq

structure AmendmentBallot where
  isTrusted : Bool
  amendments : Option (List AmendmentID)
  deriving DecidableEq

structure AmendmentSet where
  votes_ : AList (fun _ : AmendmentID => ℕ) := ∅
  trustedValidations : ℕ := 0

namespace AmendmentSet

/-- `++votes_[amendment]`. -/
def increment (votes : AList fun _ : AmendmentID => ℕ) (amendment : AmendmentID) :
    AList fun _ : AmendmentID => ℕ :=
  votes.insert amendment ((votes.lookup amendment).getD 0 + 1)

/-- Counts a ballot, on which an amendment counts once. -/
def tally (s : AmendmentSet) (amendments : List AmendmentID) : AmendmentSet where
  votes_ := amendments.dedup.foldl increment s.votes_
  trustedValidations := s.trustedValidations + 1

def votes (s : AmendmentSet) (amendment : AmendmentID) : ℕ := (s.votes_.lookup amendment).getD 0

def ofValidations (valSet : List AmendmentBallot) : AmendmentSet :=
  valSet.foldl (fun s v => if v.isTrusted then s.tally (v.amendments.getD []) else s) {}

def threshold (s : AmendmentSet) (majorityFraction : ℕ) : ℕ :=
  max 1 (s.trustedValidations * majorityFraction / 256)

end AmendmentSet

structure AmendmentTable where
  amendmentMap : AList (fun _ : AmendmentID => AmendmentState) := ∅
  /-- For how many seconds an amendment must hold a majority. -/
  majorityTime : ℕ
  /-- The support that an amendment needs, in parts of 256. -/
  majorityFraction : ℕ

namespace AmendmentTable
variable (t : AmendmentTable)

variable (amendment : AmendmentID)

def get : Option AmendmentState := t.amendmentMap.lookup amendment

/-- Writes to the state of an amendment; one that is not known is entered. -/
def modify (f : AmendmentState → AmendmentState) : AmendmentTable :=
  { t with amendmentMap := t.amendmentMap.insert amendment (f ((t.get amendment).getD {})) }

def veto : Bool × AmendmentTable :=
  (!((t.get amendment).getD {}).vetoed, t.modify amendment ({ · with vetoed := true }))

def unVeto : Bool × AmendmentTable :=
  match t.get amendment with
  | none => (false, t)
  | some s => if s.vetoed then (true, t.modify amendment ({ · with vetoed := false })) else (false, t)

def enable : Bool × AmendmentTable :=
  (!((t.get amendment).getD {}).enabled, t.modify amendment ({ · with enabled := true }))

def disable : Bool × AmendmentTable :=
  match t.get amendment with
  | none => (false, t)
  | some s =>
    if s.enabled then (true, t.modify amendment ({ · with enabled := false })) else (false, t)

/-- What a report on one amendment does to the table. -/
def getJson : AmendmentTable := t.modify amendment id

/-- The enabled amendments are those of the ledger. -/
def doValidatedLedger (enabled : List AmendmentID) : AmendmentTable :=
  { t with
    amendmentMap := t.amendmentMap.keys.foldl (fun m a =>
      m.insert a { (m.lookup a).getD {} with enabled := a ∈ enabled }) t.amendmentMap }

/-- The action for one amendment. A majority since the time 0 counts as none. -/
def action (closeTime : NetTime) (enabledAmendments : List AmendmentID)
    (majorityAmendments : AList fun _ : AmendmentID => NetTime) (vote : AmendmentSet)
    (amendment : AmendmentID) (state : AmendmentState) : Option UInt32 :=
  let hasValMajority : Bool := vote.threshold t.majorityFraction ≤ vote.votes amendment
  let majorityTime := (majorityAmendments.lookup amendment).getD 0
  if amendment ∈ enabledAmendments then none
  else if hasValMajority ∧ majorityTime = 0 ∧ !state.vetoed then some tfGotMajority
  else if !hasValMajority ∧ majorityTime ≠ 0 then some tfLostMajority
  else if majorityTime ≠ 0 ∧ majorityTime.toNat + t.majorityTime ≤ closeTime.toNat ∧ !state.vetoed
    then some 0
  else none

/-- The actions are a `std::map`. -/
def doVoting (closeTime : NetTime) (enabledAmendments : List AmendmentID)
    (majorityAmendments : AList fun _ : AmendmentID => NetTime) (valSet : List AmendmentBallot) :
    List (AmendmentID × UInt32) :=
  let vote := AmendmentSet.ofValidations valSet
  (t.amendmentMap.entries.filterMap fun e =>
    (t.action closeTime enabledAmendments majorityAmendments vote e.1 e.2).map (e.1, ·)).insertionSort
      fun x y => x.1 ≤ y.1

end AmendmentTable
end FinPal
