import FinPal.Misc.AmendmentTable
import FinPal.Protocol.TER

/-!
# Amendment pseudo-transactions

`Change::applyAmendment` of `app/tx/impl/Change.cpp` on the one ledger object that it changes. It
also tells the server's table when an amendment is enabled; that an unsupported one blocks the
server is left out.
-/

namespace FinPal

/-- An element of `sfMajorities`. -/
structure Majority where
  amendment : AmendmentID
  closeTime : NetTime
  deriving DecidableEq

/-- The object at `keylet::amendments`. -/
structure AmendmentsSLE where
  amendments : List AmendmentID := []
  /-- The field is absent when it would be empty. -/
  majorities : Option (List Majority) := none
  deriving DecidableEq

def getEnabledAmendments (sle : Option AmendmentsSLE) : List AmendmentID := (sle.getD {}).amendments

def majoritiesOf (sle : Option AmendmentsSLE) : List Majority := ((sle.getD {}).majorities).getD []

def getMajorityAmendments (sle : Option AmendmentsSLE) : AList fun _ : AmendmentID => NetTime :=
  (majoritiesOf sle).foldl (fun ret m => ret.insert m.amendment m.closeTime) ∅

namespace Change

/-- The loop over the old majorities: whether the amendment has one, and the majorities of the
others. -/
def passThrough (amendment : AmendmentID) (gotMajority : Bool) :
    List Majority → Except TER (Bool × List Majority)
  | [] => .ok (false, [])
  | m :: old =>
    if m.amendment = amendment then
      if gotMajority then .error .tefALREADY
      else (passThrough amendment gotMajority old).map fun r => (true, r.2)
    else (passThrough amendment gotMajority old).map fun r => (r.1, m :: r.2)

/-- `applyAmendment`, with the server's table. The view changes only with `tesSUCCESS`. -/
def applyAmendment (parentCloseTime : NetTime) (amendment : AmendmentID) (flags : UInt32)
    (sle : Option AmendmentsSLE) (table : AmendmentTable) :
    TER × Option AmendmentsSLE × AmendmentTable :=
  let amendments := getEnabledAmendments sle
  if amendment ∈ amendments then (.tefALREADY, sle, table)
  else
    let gotMajority : Bool := flags &&& tfGotMajority ≠ 0
    let lostMajority : Bool := flags &&& tfLostMajority ≠ 0
    if gotMajority ∧ lostMajority then (.temINVALID_FLAG, sle, table)
    else
      match passThrough amendment gotMajority (majoritiesOf sle) with
      | .error ter => (ter, sle, table)
      | .ok (found, newMajorities) =>
        if !found ∧ lostMajority then (.tefALREADY, sle, table)
        else
          let newMajorities :=
            if gotMajority then newMajorities ++ [⟨amendment, parentCloseTime⟩] else newMajorities
          let enables := !gotMajority ∧ !lostMajority
          (.tesSUCCESS,
            some
              { amendments := if enables then amendments ++ [amendment] else amendments
                majorities := if newMajorities = [] then none else some newMajorities },
            if enables then (table.enable amendment).2 else table)

end Change
end FinPal
