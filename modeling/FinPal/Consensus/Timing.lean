import Mathlib.Data.List.Sort

/-!
# Ledger timing

The decisions of a round that depend on times and counts alone, and the protocol parameters
(`app/ledger/impl/LedgerTiming.cpp`). Network times are in seconds, times of a round in
milliseconds.
-/

namespace FinPal.LedgerTiming

def minimumConsensusPercentage : ℕ := 80
def ledgerPossibleTimeResolutions : List ℤ := [10, 20, 30, 60, 90, 120]
def increaseLedgerTimeResolutionEvery : ℕ := 8
def decreaseLedgerTimeResolutionEvery : ℕ := 1
def ledgerIdleInterval : ℤ := 10
def ledgerMinConsensus : ℕ := 1950
def ledgerMinClose : ℕ := 2000
def proposeFreshness : ℤ := 20
def proposeInterval : ℤ := 12
def avInitConsensusPct : ℕ := 50
def avMidConsensusTime : ℕ := 50
def avMidConsensusPct : ℕ := 65
def avLateConsensusTime : ℕ := 85
def avLateConsensusPct : ℕ := 70
def avStuckConsensusTime : ℕ := 200
def avStuckConsensusPct : ℕ := 95
def avCtConsensusPct : ℕ := 75
def avMinConsensusTime : ℕ := 5000

/-- The percentage of yes votes needed after a part of the previous round's time. -/
def neededWeight (percentTime : ℕ) : ℕ :=
  if percentTime < avMidConsensusTime then avInitConsensusPct
  else if percentTime < avLateConsensusTime then avMidConsensusPct
  else if percentTime < avStuckConsensusTime then avLateConsensusPct
  else avStuckConsensusPct

/-- Coarser after a disagreement, finer again after some agreements. -/
def getNextLedgerTimeResolution (previousResolution : ℤ) (previousAgree : Bool) (ledgerSeq : ℕ) : ℤ :=
  match ledgerPossibleTimeResolutions.idxOf? previousResolution with
  | none => previousResolution
  | some i =>
    if !previousAgree && ledgerSeq % decreaseLedgerTimeResolutionEvery = 0 then
      (ledgerPossibleTimeResolutions[i + 1]?).getD previousResolution
    else if previousAgree && ledgerSeq % increaseLedgerTimeResolutionEvery = 0 then
      if i = 0 then previousResolution
      else (ledgerPossibleTimeResolutions[i - 1]?).getD previousResolution
    else previousResolution

def roundCloseTime (closeTime closeResolution : ℤ) : ℤ :=
  if closeTime = 0 then closeTime
  else
    let closeTime := closeTime + closeResolution / 2
    closeTime - closeTime % closeResolution

def shouldCloseLedger (anyTransactions : Bool)
    (previousProposers proposersClosed proposersValidated previousTime : ℕ) (currentTime : ℤ)
    (openTime : ℕ) (idleInterval : ℤ) : Bool :=
  if previousTime > 600000 ∨ currentTime > 600000 then true
  else if proposersClosed + proposersValidated > previousProposers / 2 then true
  else if !anyTransactions then currentTime ≥ idleInterval * 1000
  else if openTime < ledgerMinClose then false
  else if openTime < previousTime / 2 then false
  else true

def checkConsensusReached (agreeing total : ℕ) (countSelf : Bool) : Bool :=
  if total = 0 then true
  else
    let self := if countSelf then 1 else 0
    (agreeing + self) * 100 / (total + self) > minimumConsensusPercentage

inductive ConsensusState
  | no | movedOn | yes
  deriving DecidableEq

def checkConsensus (previousProposers currentProposers currentAgree currentFinished
    previousAgreeTime currentAgreeTime : ℕ) (proposing : Bool) : ConsensusState :=
  if currentAgreeTime ≤ ledgerMinConsensus then .no
  else if currentProposers < previousProposers * 3 / 4 ∧
      currentAgreeTime < previousAgreeTime + ledgerMinConsensus then .no
  else if checkConsensusReached currentAgree currentProposers proposing then .yes
  else if checkConsensusReached currentFinished currentProposers false then .movedOn
  else .no

/-- How many participants reach a percentage. -/
def participantsNeeded (participants percent : ℕ) : ℕ :=
  let result := (participants * percent + percent / 2) / 100
  if result = 0 then 1 else result

/-- Consensus takes more than the minimum percentage of the others, and of us if we count. -/
theorem share_of_checkConsensusReached {agreeing total : ℕ} {countSelf : Bool}
    (h : checkConsensusReached agreeing total countSelf = true) :
    total = 0 ∨ minimumConsensusPercentage * (total + countSelf.toNat) <
      100 * (agreeing + countSelf.toNat) := by
  unfold checkConsensusReached at h
  split at h
  case isTrue hto => exact .inl hto
  case isFalse hto =>
    right
    have hs : (if countSelf = true then 1 else 0) = countSelf.toNat := by cases countSelf <;> rfl
    simp only [hs, gt_iff_lt, decide_eq_true_eq] at h
    have hp : 0 < total + countSelf.toNat := by omega
    have hle := (Nat.le_div_iff_mul_le hp).1 h
    rw [Nat.succ_mul] at hle
    omega

end FinPal.LedgerTiming
