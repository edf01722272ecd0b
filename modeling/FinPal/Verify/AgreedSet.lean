import FinPal.Consensus.LedgerConsensus
import FinPal.Lib.Run

/-!
# The agreed set is the accepted set

`haveConsensus` compares the ID in our position with those in the positions of the peers, and
`beginAccept` takes our set. Position and set change together, except that a position that has bowed
out refuses to change.
-/

namespace FinPal.LedgerConsensus
open Position LedgerTiming
variable {NodeID TxID SetID LedgerID : Type}
 
  {sets : TxSets TxID SetID} {c c' c'' : LedgerConsensus NodeID TxID SetID LedgerID}
  {pos : Position SetID LedgerID} {set : Finset TxID} {now : ℤ}

/-! ### What dispute tracking leaves alone -/

/-- Only disputes, compared sets and acquired sets have changed. -/
def OnlyDisputes (c c' : LedgerConsensus NodeID TxID SetID LedgerID) : Prop :=
  c' = { c with disputes := c'.disputes, compares := c'.compares, acquired := c'.acquired }

namespace OnlyDisputes

theorem refl (c : LedgerConsensus NodeID TxID SetID LedgerID) : OnlyDisputes c c := rfl

section
variable (h : OnlyDisputes c c')
include h

theorem trans (h' : OnlyDisputes c' c'') : OnlyDisputes c c'' := by
  unfold OnlyDisputes at h h' ⊢
  rw [h'] at *
  rw [h]

theorem ourPosition : c'.ourPosition = c.ourPosition := by rw [h]

theorem ourSet : c'.ourSet = c.ourSet := by rw [h]

theorem peerPositions : c'.peerPositions = c.peerPositions := by rw [h]

theorem proposing : c'.proposing = c.proposing := by rw [h]

end

theorem foldl {α : Type} {f : LedgerConsensus NodeID TxID SetID LedgerID → α → _}
    (hf : ∀ c x, OnlyDisputes c (f c x)) (l : List α)
    (c : LedgerConsensus NodeID TxID SetID LedgerID) : OnlyDisputes c (l.foldl f c) := by
  induction l generalizing c with
  | nil => exact .refl c
  | cons x l ih => exact (hf c x).trans (ih _)

variable [DecidableEq NodeID] [DecidableEq TxID] (c)

theorem addDisputedTransaction (txID : TxID) : OnlyDisputes c (c.addDisputedTransaction txID) := by
  unfold LedgerConsensus.addDisputedTransaction
  split
  · exact .refl c
  · rfl

variable [DecidableEq SetID]

theorem createDisputes (m1 m2 : Finset TxID) : OnlyDisputes c (createDisputes sets c m1 m2) := by
  unfold LedgerConsensus.createDisputes
  split
  · exact .refl c
  · exact foldl (fun c => addDisputedTransaction c) _ c

theorem compareOnce (hash : SetID) (ourSet set : Finset TxID) :
    OnlyDisputes c (compareOnce sets c hash ourSet set) := by
  unfold LedgerConsensus.compareOnce
  split
  · exact .refl c
  · have hco : OnlyDisputes c { c with compares := insert hash c.compares } := rfl
    exact hco.trans (createDisputes _ ourSet set)

theorem compareWithOurs (map : Finset TxID) : OnlyDisputes c (compareWithOurs sets c map) := by
  unfold LedgerConsensus.compareWithOurs
  split
  · split_ifs
    · exact .refl c
    · exact .refl c
    · exact (createDisputes c _ map).trans rfl
  · exact .refl c

theorem mapCompleteInternal (map : Finset TxID) : OnlyDisputes c (mapCompleteInternal sets c map) := by
  unfold LedgerConsensus.mapCompleteInternal
  dsimp only
  split
  · exact .refl c
  · exact (compareWithOurs c map).trans rfl

end OnlyDisputes

/-! ### Position and set -/

/-- Our position names our set; we have both or none. -/
def InStep (sets : TxSets TxID SetID) (c : LedgerConsensus NodeID TxID SetID LedgerID) : Prop :=
  c.ourPosition.map Position.currentHash = c.ourSet.map sets.getID

/-- A position that has bowed out has no disputes left. -/
def Settled (c : LedgerConsensus NodeID TxID SetID LedgerID) : Prop :=
  c.ourPosition.any Position.isBowOut = true → c.disputes.entries = []

instance (c : LedgerConsensus NodeID TxID SetID LedgerID) : Decidable c.Settled :=
  inferInstanceAs (Decidable (_ → _))

namespace InStep

theorem congr (h : InStep sets c) (hp : c'.ourPosition = c.ourPosition)
    (hs : c'.ourSet = c.ourSet) : InStep sets c' := by
  unfold InStep
  rw [hp, hs]
  exact h

theorem onlyDisputes (h : InStep sets c) (h' : OnlyDisputes c c') : InStep sets c' :=
  h.congr h'.ourPosition h'.ourSet

theorem leaveConsensus (h : InStep sets c) (now : ℤ) : InStep sets (c.leaveConsensus now) := by
  have hb : currentHash ∘ (fun p : Position SetID LedgerID => p.bowOut now) = currentHash := by
    funext p
    simp only [Function.comp_apply, bowOut]
    split <;> rfl
  unfold InStep LedgerConsensus.leaveConsensus
  rw [Option.map_map, hb]
  exact h

variable [DecidableEq NodeID] [DecidableEq TxID] [DecidableEq SetID]

theorem takeInitialPosition (c : LedgerConsensus NodeID TxID SetID LedgerID)
    (initialSet : Finset TxID) (openParent : LedgerID) (now : ℤ) :
    InStep sets (takeInitialPosition sets c initialSet openParent now) := by
  refine onlyDisputes ?_ (.mapCompleteInternal _ _)
  refine onlyDisputes ?_ (.foldl (fun c it => ?_) _ _)
  · rfl
  split
  · exact .compareOnce c _ _ _
  · exact .refl c

end InStep

theorem changePosition_eq_none {newPosition : SetID} {closeTime now : ℤ} :
    pos.changePosition newPosition closeTime now = none ↔ pos.isBowOut = true := by
  simp [changePosition, isBowOut]

theorem currentHash_changePosition {newPosition : SetID} {closeTime now : ℤ}
    {pos' : Position SetID LedgerID}
    (h : pos.changePosition newPosition closeTime now = some pos') :
    pos'.currentHash = newPosition := by
  unfold changePosition at h
  split at h
  · cases h
  · cases h
    rfl

variable [DecidableEq NodeID] [DecidableEq TxID] [DecidableEq SetID]

theorem InStep.takePosition {ourSet : Finset TxID} {closeTime : ℤ} (hp : c.ourPosition = some pos)
    (hb : pos.isBowOut = true → sets.getID ourSet = pos.currentHash) :
    InStep sets (takePosition sets c pos ourSet closeTime now) := by
  unfold LedgerConsensus.takePosition
  split
  case h_1 hn => simp [InStep, hp, hb (changePosition_eq_none.1 hn)]
  case h_2 pos' hs =>
    refine onlyDisputes ?_ (.mapCompleteInternal _ _)
    simp [InStep, currentHash_changePosition hs]

omit [DecidableEq TxID] [DecidableEq SetID] in
theorem entries_changedVotes_removeStale (h : c.disputes.entries = []) (cutoff : ℤ) :
    (c.removeStale cutoff).changedVotes.entries = [] := by
  simp [changedVotes, removeStale, AList.filterVal, AList.mapVal, h]

theorem InStep.updateOurPositions (h : InStep sets c) (hse : c.Settled) (now : ℤ) :
    InStep sets (updateOurPositions sets c now) := by
  have hst : InStep sets (c.removeStale (now - proposeFreshness)) := h
  have hen := fun hb =>
    entries_changedVotes_removeStale (hse hb) (now - proposeFreshness)
  have hpo : (c.removeStale (now - proposeFreshness)).ourPosition = c.ourPosition := rfl
  rw [← hpo] at hen
  unfold LedgerConsensus.updateOurPositions
  dsimp only
  split
  case h_2 => exact hst
  case h_1 pos set hp hs =>
    have hha : pos.currentHash = sets.getID set := by
      rw [InStep, hp, hs] at hst
      exact Option.some.inj hst
    split
    case h_1 => exact hst
    case h_2 ourSet hoS =>
      refine .takePosition hp fun hb => ?_
      have hno := hen (by rw [hp]; exact hb)
      unfold proposedSet at hoS
      rw [if_neg (not_not_intro hno)] at hoS
      split at hoS
      · cases hoS
        exact hha.symm
      · cases hoS

/-! ### Agreement -/

/-- The positions of the peers that have not bowed out. -/
def standing (c : LedgerConsensus NodeID TxID SetID LedgerID) : List (Position SetID LedgerID) :=
  (c.peerPositions.entries.map Sigma.snd).filter fun p => !p.isBowOut

/-- Among the peers that have not bowed out, and us if we propose, more than 80 percent name the
set; or there is no such peer. -/
def AgreedOn (c : LedgerConsensus NodeID TxID SetID LedgerID) (hash : SetID) : Prop :=
  c.standing.length = 0 ∨
    minimumConsensusPercentage * (c.standing.length + c.proposing.toNat) <
      100 * (c.standing.countP (·.currentHash = hash) + c.proposing.toNat)

omit [DecidableEq NodeID] [DecidableEq TxID] in
theorem AgreedOn.congr {hash : SetID} (h : c.AgreedOn hash)
    (hpe : c'.peerPositions = c.peerPositions) (hpr : c'.proposing = c.proposing) :
    c'.AgreedOn hash := by
  unfold AgreedOn standing
  rw [hpe, hpr]
  exact h

theorem foldl_countPosition (sets : TxSets TxID SetID) (hash : SetID)
    (positions : List (Position SetID LedgerID)) (agree disagree : ℕ)
    (c : LedgerConsensus NodeID TxID SetID LedgerID) :
    let r := positions.foldl (countPosition sets hash) (agree, disagree, c)
    let peers := positions.filter fun p => !p.isBowOut
    r.1 = agree + peers.countP (·.currentHash = hash) ∧
      r.1 + r.2.1 = agree + disagree + peers.length ∧ OnlyDisputes c r.2.2 := by
  induction positions generalizing agree disagree c with
  | nil => exact ⟨rfl, rfl, .refl c⟩
  | cons p positions ih =>
    rw [List.foldl_cons]
    by_cases hb : p.isBowOut = true
    · have hst : countPosition sets hash (agree, disagree, c) p = (agree, disagree, c) := by
        simp [countPosition, hb]
      rw [hst, List.filter_cons_of_neg (by simp [hb])]
      exact ih agree disagree c
    rw [List.filter_cons_of_pos (by simp [hb])]
    dsimp only
    rw [List.countP_cons, List.length_cons]
    by_cases hag : p.currentHash = hash
    · have hst : countPosition sets hash (agree, disagree, c) p = (agree + 1, disagree, c) := by
        simp [countPosition, hb, hag]
      rw [hst]
      obtain ⟨h1, h2, h3⟩ := ih (agree + 1) disagree c
      simp only [hag, decide_true, if_true]
      exact ⟨by omega, by omega, h3⟩
    obtain ⟨c', hst, hon⟩ : ∃ c', countPosition sets hash (agree, disagree, c) p =
        (agree, disagree + 1, c') ∧ OnlyDisputes c c' := by
      refine ⟨_, by simp [countPosition, hb, hag]; rfl, ?_⟩
      split
      · exact .compareOnce c _ _ _
      · exact .refl c
    rw [hst]
    obtain ⟨h1, h2, h3⟩ := ih agree (disagree + 1) c'
    simp only [hag, decide_false, Bool.false_eq_true, if_false]
    exact ⟨by omega, by omega, hon.trans h3⟩

theorem haveConsensus_spec (sets : TxSets TxID SetID) (hp : c.ourPosition = some pos)
    (validations : ℕ) :
    let r := haveConsensus sets c validations
    r.2.ourPosition = c.ourPosition ∧ r.2.ourSet = c.ourSet ∧
      (r.1 = true → r.2.consensusFail = false → r.2.AgreedOn pos.currentHash) := by
  obtain ⟨hag, hto, hon⟩ := foldl_countPosition sets pos.currentHash
    (c.peerPositions.entries.map Sigma.snd) 0 0 c
  simp only [zero_add] at hag hto
  unfold haveConsensus countPositions
  rw [hp]
  dsimp only
  generalize List.foldl (countPosition sets pos.currentHash) (0, 0, c)
    (c.peerPositions.entries.map Sigma.snd) = r at hag hto hon ⊢
  obtain ⟨agree, disagree, c'⟩ := r
  dsimp only at hag hto hon ⊢
  split
  case h_1 => exact ⟨hon.ourPosition.trans hp, hon.ourSet, nofun⟩
  case h_2 => exact ⟨hon.ourPosition.trans hp, hon.ourSet, nofun⟩
  case h_3 hy =>
    refine ⟨hon.ourPosition.trans hp, hon.ourSet, fun _ _ => ?_⟩
    have hsh : checkConsensusReached agree (agree + disagree) c'.proposing = true := by
      unfold checkConsensus at hy
      split_ifs at hy
      assumption
    have hc := share_of_checkConsensusReached hsh
    rw [hto, hag, hon.proposing] at hc
    refine AgreedOn.congr hc ?_ ?_
    · exact hon.peerPositions
    · exact hon.proposing

/-- The accepted set, if any and the network has not moved on, is the one agreed on. -/
def AcceptsAgreed (sets : TxSets TxID SetID)
    (r : LedgerConsensus NodeID TxID SetID LedgerID × Option (Finset TxID)) : Prop :=
  ∀ set, r.2 = some set → r.1.consensusFail = false →
    ∃ pos, r.1.ourPosition = some pos ∧ sets.getID set = pos.currentHash ∧
      r.1.AgreedOn pos.currentHash

theorem stateEstablish_spec (h : InStep sets c) (hse : c.Settled)
    (input : TimerInput TxID LedgerID) :
    let r := stateEstablish sets c input
    InStep sets r.1 ∧ AcceptsAgreed sets r := by
  have hup := h.updateOurPositions hse input.closeTime
  unfold stateEstablish
  split
  · exact ⟨h, nofun⟩
  dsimp only
  generalize updateOurPositions sets c input.closeTime = c at hup
  cases hp : c.ourPosition with
  | none =>
    have hha : haveConsensus sets c input.nodesAfter = (false, c) := by simp [haveConsensus, hp]
    rw [hha]
    exact ⟨hup, nofun⟩
  | some pos =>
    obtain ⟨hp', hs', hag⟩ := haveConsensus_spec sets hp input.nodesAfter
    generalize haveConsensus sets c input.nodesAfter = r at hp' hs' hag ⊢
    obtain ⟨_, c'⟩ := r
    have hst : InStep sets c' := hup.congr hp' hs'
    split_ifs with hre htime
    · exact ⟨hst, nofun⟩
    · exact ⟨hst, nofun⟩
    refine ⟨hst, fun set hs hfa => ⟨pos, hp'.trans hp, ?_, ?_⟩⟩
    · have hs : c'.ourSet = some set := hs
      rw [InStep, hp', hp, hs] at hst
      exact (Option.some.inj hst).symm
    · exact hag (by simpa using hre) hfa

omit [DecidableEq NodeID] [DecidableEq TxID] [DecidableEq SetID] in
theorem settled_of_seqJoin (hp : c.ourPosition = some pos)
    (hs : pos.proposeSeq = seqJoin) : c.Settled := by
  intro hb
  rw [hp, Option.any_some, isBowOut, hs] at hb
  exact absurd hb (by decide)

section
variable (sets : TxSets TxID SetID) (c : LedgerConsensus NodeID TxID SetID LedgerID)

theorem ourPosition_takeInitialPosition
    (initialSet : Finset TxID) (openParent : LedgerID) (now : ℤ) :
    ∃ pos, (takeInitialPosition sets c initialSet openParent now).ourPosition = some pos ∧
      pos.proposeSeq = seqJoin := by
  refine ⟨⟨openParent, sets.getID initialSet, c.closeTime, seqJoin, now⟩, ?_, rfl⟩
  unfold takeInitialPosition
  rw [(OnlyDisputes.mapCompleteInternal _ _).ourPosition]
  refine OnlyDisputes.ourPosition (.foldl (fun c it => ?_) _ _)
  split
  · exact .compareOnce c _ _ _
  · exact .refl c

theorem statePreClose_cases (input : TimerInput TxID LedgerID) :
    statePreClose sets c input = closeLedger sets c input ∨ statePreClose sets c input = c := by
  unfold statePreClose
  split
  · exact .inl rfl
  · exact .inr rfl

end

theorem timerEntry_spec (h : InStep sets c) (hse : c.Settled) (input : TimerInput TxID LedgerID) :
    InStep sets (timerEntry sets c input).1 ∧ AcceptsAgreed sets (timerEntry sets c input) := by
  have hti : InStep sets (c.tick input.roundTime) := h
  have hse' : (c.tick input.roundTime).Settled := hse
  have hno {c' : LedgerConsensus NodeID TxID SetID LedgerID} : AcceptsAgreed sets (c', none) :=
    fun set hs => by cases hs
  unfold timerEntry
  dsimp only
  generalize c.tick input.roundTime = c at hti hse'
  split
  case h_1 =>
    -- A ledger that is closed now has a fresh position.
    have hc : InStep sets (statePreClose sets c input) ∧
        (statePreClose sets c input).Settled := by
      obtain hcl | hopen := statePreClose_cases sets c input
      · rw [hcl]
        obtain ⟨_, hp, hseq⟩ := ourPosition_takeInitialPosition sets
          { c with state := .establish, closeTime := input.closeTime } input.initialSet
          input.openParent input.closeTime
        exact ⟨.takeInitialPosition _ _ _ _, settled_of_seqJoin hp hseq⟩
      · rw [hopen]
        exact ⟨hti, hse'⟩
    split
    · exact stateEstablish_spec hc.1 hc.2 input
    · exact ⟨hc.1, hno⟩
  case h_2 => exact stateEstablish_spec hti hse' input
  case h_3 => exact ⟨hti, hno⟩
  case h_4 => exact ⟨hti, hno⟩

variable [DecidableEq LedgerID]

theorem peerPosition_frame (c : LedgerConsensus NodeID TxID SetID LedgerID) (peerID : NodeID)
    (newPosition : Position SetID LedgerID) (getSet : Option (Finset TxID)) :
    (c.peerPosition peerID newPosition getSet).ourPosition = c.ourPosition ∧
      (c.peerPosition peerID newPosition getSet).ourSet = c.ourSet := by
  unfold peerPosition
  dsimp only
  split
  · exact ⟨rfl, rfl⟩
  split
  · exact ⟨rfl, rfl⟩
  split
  · exact ⟨rfl, rfl⟩
  split
  · exact ⟨rfl, rfl⟩
  · split <;> split <;> exact ⟨rfl, rfl⟩

/-- The timer finds no dispute with a position that has bowed out. -/
def TimerSettled (c : LedgerConsensus NodeID TxID SetID LedgerID) :
    RoundEvent NodeID TxID SetID LedgerID → Prop
  | .timerEntry _ => c.Settled
  | _ => True

instance (c : LedgerConsensus NodeID TxID SetID LedgerID) :
    (e : RoundEvent NodeID TxID SetID LedgerID) → Decidable (c.TimerSettled e)
  | .timerEntry _ => inferInstanceAs (Decidable c.Settled)
  | .peerPosition .. | .gotMap _ | .switchLCL .. | .acquireLCL | .startRound .. | .stopProposing
  | .leaveConsensus _ | .acceptDone _ => .isTrue trivial

theorem step_spec (h : InStep sets c) {e : RoundEvent NodeID TxID SetID LedgerID}
    (hse : c.TimerSettled e) :
    InStep sets (c.step sets e).1 ∧ AcceptsAgreed sets (c.step sets e) := by
  cases e with
  | peerPosition peerID newPosition getSet =>
    obtain ⟨hp, hs⟩ := peerPosition_frame c peerID newPosition getSet
    exact ⟨h.congr hp hs, nofun⟩
  | gotMap map => exact ⟨h.onlyDisputes (.mapCompleteInternal c map), nofun⟩
  | timerEntry input => exact timerEntry_spec h hse input
  | switchLCL _ now =>
    refine ⟨?_, nofun⟩
    unfold step switchLCL
    dsimp only
    split_ifs
    · exact h
    · exact h.leaveConsensus now
    · exact h
  | acquireLCL =>
    refine ⟨?_, nofun⟩
    unfold step acquireLCL
    split_ifs
    · exact h
    · exact h
  | startRound _ _ _ _ _ _ _ =>
    refine ⟨?_, nofun⟩
    unfold step startRound
    split_ifs
    · exact h
    · rfl
  | stopProposing => exact ⟨h, nofun⟩
  | leaveConsensus now => exact ⟨h.leaveConsensus now, nofun⟩
  | acceptDone _ => exact ⟨h, nofun⟩

/-- In the run the timer never finds a dispute with a position that has bowed out. -/
abbrev SettledRun (sets : TxSets TxID SetID) (c : LedgerConsensus NodeID TxID SetID LedgerID)
    (events : List (RoundEvent NodeID TxID SetID LedgerID)) : Prop :=
  EachStep (fun c e => (c.step sets e).1) TimerSettled c events

theorem InStep.run {events : List (RoundEvent NodeID TxID SetID LedgerID)} (h : InStep sets c)
    (hse : SettledRun sets c events) : InStep sets (c.run sets events) :=
  hse.invariant (fun _ _ h hse => (step_spec h hse).1) h

/-- In every run from a new object in which the timer never finds a dispute with a position that has
bowed out, a set that `stateEstablish` hands on without a failure has the ID in our position, and
more than 80 percent of the peers name it. -/
theorem accepted_set_agreed (sets : TxSets TxID SetID) (prevLedgerHash : LedgerID)
    (previousLedger : ClosedLedger LedgerID) {events : List (RoundEvent NodeID TxID SetID LedgerID)}
    {e : RoundEvent NodeID TxID SetID LedgerID}
    (hsettled : SettledRun sets { prevLedgerHash, previousLedger } (events ++ [e])) :
    AcceptsAgreed sets ((run sets { prevLedgerHash, previousLedger } events).step sets e) := by
  obtain ⟨hev, hl, -⟩ := EachStep.append.1 hsettled
  have hn : InStep sets ({ prevLedgerHash, previousLedger } :
      LedgerConsensus NodeID TxID SetID LedgerID) := rfl
  exact (step_spec (hn.run hev) hl).2

namespace Rounds

/-- Sets of small numbers, with their binary codes as IDs. -/
def codes : TxSets ℕ ℕ where
  getID set := (((List.range 4).filter (· ∈ set)).map (2 ^ ·)).sum
  getDifferences m₁ m₂ := (List.range 4).filter fun x => decide (x ∈ m₁) != decide (x ∈ m₂)

def ledger : ClosedLedger ℕ := ⟨1, 5, 100, 90, 30, true⟩

/-- A timer that closes the ledger with the set `{0}`, if it is open. -/
def timer (roundTime : ℕ) : RoundEvent ℕ ℕ ℕ ℕ :=
  .timerEntry ⟨roundTime, 120, 100, true, if roundTime < 2000 then 1 else 0, {0}, 1⟩

def peer (prevLedger hash : ℕ) (seq : UInt32) (getSet : Option (Finset ℕ)) : RoundEvent ℕ ℕ ℕ ℕ :=
  .peerPosition 7 ⟨prevLedger, hash, 120, seq, 119⟩ getSet

/-- A proposing node closes its ledger. -/
def closed : List (RoundEvent ℕ ℕ ℕ ℕ) := [.startRound 1 ledger 110 0 0 true true, timer 1000]

/-- The network is on ledger 2, which the node does not have. It bows out, follows peer 7 to the set
`{0, 1}`, and loses the peer. -/
def bowedOut : List (RoundEvent ℕ ℕ ℕ ℕ) :=
  closed ++ [.switchLCL 2 120, .acquireLCL, peer 2 3 0 (some {0, 1}), timer 3000, timer 4000,
    peer 2 3 0xffffffff none]

def newObject : LedgerConsensus ℕ ℕ ℕ ℕ := { prevLedgerHash := 0, previousLedger := ledger }

end Rounds

open Rounds in
/-- Peer 7 agrees with the node's first position. -/
theorem accepted_set_agreed_sample :
    let r := (run codes newObject (closed ++ [peer 1 1 0 none])).step codes (timer 3000)
    r.2 = some {0} ∧ r.1.consensusFail = false ∧ AcceptsAgreed codes r :=
  ⟨by decide, by decide, accepted_set_agreed codes 0 ledger (by decide)⟩

open Rounds in
/-- The position still names `{0}` when the node accepts `{0, 1}`. -/
theorem bowed_out_set_differs : let r := (run codes newObject bowedOut).step codes (timer 5000)
    r.2 = some {0, 1} ∧ r.1.consensusFail = false ∧
      r.1.ourPosition.map Position.currentHash = some (codes.getID {0}) ∧
      codes.getID {0, 1} ≠ codes.getID {0} := by
  decide

/-! ### Two nodes -/

/-- What the peers that have not bowed out vote for. -/
def heard (c : LedgerConsensus NodeID TxID SetID LedgerID) : KeyMap NodeID SetID :=
  (c.peerPositions.filterVal fun _ p => !p.isBowOut).mapVal fun _ p => p.currentHash

/-- The votes that the node `m` counts, with its own if it proposes. -/
def votes (c : LedgerConsensus NodeID TxID SetID LedgerID) (m : NodeID) : KeyMap NodeID SetID :=
  match c.proposing, c.ourPosition with
  | true, some pos => c.heard.insert m pos.currentHash
  | _, _ => c.heard

/-- Those whose votes the node `m` counts. -/
def voters (c : LedgerConsensus NodeID TxID SetID LedgerID) (m : NodeID) : Finset NodeID :=
  (c.votes m).keys.toFinset

/-- The node `m`, which hears others, has accepted a set in a run. -/
structure Accepts (sets : TxSets TxID SetID) (m : NodeID)
    (c : LedgerConsensus NodeID TxID SetID LedgerID) (set : Finset TxID) : Prop where
  reached : ∃ prevLedgerHash previousLedger events e,
    SettledRun sets { prevLedgerHash, previousLedger } (events ++ [e]) ∧
      step sets (run sets { prevLedgerHash, previousLedger } events) e = (c, some set)
  agreed : c.consensusFail = false
  hears : c.standing ≠ []
  others : c.heard.lookup m = none

variable {m m' : NodeID} {set' : Finset TxID}

omit [DecidableEq TxID] [DecidableEq LedgerID] in
theorem votes_spec (hp : c.ourPosition = some pos) (hm : c.heard.lookup m = none) :
    (c.voters m).card = c.standing.length + c.proposing.toNat ∧
      (c.votes m).countVal pos.currentHash =
        c.standing.countP (·.currentHash = pos.currentHash) + c.proposing.toNat := by
  have hlen : c.heard.keys.length = c.standing.length := by
    simp [heard, standing, AList.keys, List.keys, AList.mapVal, AList.filterVal, List.filter_map,
      Function.comp_def]
  have hco : c.heard.countVal pos.currentHash =
      c.standing.countP (·.currentHash = pos.currentHash) := by
    simp [heard, standing, AList.countVal, AList.mapVal, AList.filterVal, List.filter_map,
      List.countP_map, Function.comp_def]
  rw [voters, List.toFinset_card_of_nodup (AList.keys_nodup _), ← hlen, ← hco, votes, hp]
  cases c.proposing with
  | false => exact ⟨rfl, rfl⟩
  | true =>
    have her := AList.countVal_erase pos.currentHash c.heard m
    simp only [hm, reduceCtorEq, if_false] at her
    constructor
    · rw [AList.keys_insert, List.erase_of_not_mem (AList.lookup_eq_none.1 hm)]
      rfl
    · rw [AList.countVal_insert, if_pos rfl, her]
      rfl

theorem Accepts.share (h : Accepts sets m c set) :
    4 * (c.voters m).card < 5 * (c.votes m).countVal (sets.getID set) := by
  obtain ⟨prevLedgerHash, previousLedger, events, e, hse, hst⟩ := h.reached
  obtain ⟨hev, hl, -⟩ := EachStep.append.1 hse
  have hn : InStep sets ({ prevLedgerHash, previousLedger } :
      LedgerConsensus NodeID TxID SetID LedgerID) := rfl
  have hac := (step_spec (hn.run hev) hl).2
  rw [hst] at hac
  obtain ⟨pos, hp, hid, hag⟩ := hac set rfl h.agreed
  obtain ⟨hvo, hco⟩ := votes_spec hp h.others
  rw [hid, hvo, hco]
  obtain h0 | hlt := hag
  · exact absurd (List.length_eq_zero_iff.1 h0) h.hears
  · unfold minimumConsensusPercentage at hlt
    omega

/-- Two nodes accept no different sets, whatever their runs, if those whom both count are two fifths
of all and told both the same. -/
theorem overlapping_votes_agree (h : Accepts sets m c set) (h' : Accepts sets m' c' set')
    (hov : (c.voters m).card + (c'.voters m').card ≤ 5 * (c.voters m ∩ c'.voters m').card)
    (hsa : ∀ n ∈ (c.votes m).keys, n ∈ (c'.votes m').keys →
      (c.votes m).lookup n = (c'.votes m').lookup n) : sets.getID set = sets.getID set' :=
  AList.eq_of_overlap h.share h'.share hov hsa

open Rounds in
/-- Nodes 5 and 6 have both heard peer 7, and node 6 has also heard peer 8. -/
theorem overlapping_votes_agree_sample :
    let events := closed ++ [peer 1 1 0 none]
    let events' := events ++ [.peerPosition 8 ⟨1, 1, 120, 0, 119⟩ none]
    let c := (step codes (run codes newObject events) (timer 3000)).1
    let c' := (step codes (run codes newObject events') (timer 4000)).1
    Accepts codes 5 c {0} ∧ Accepts codes 6 c' {0} ∧
      ∀ set', Accepts codes 6 c' set' → codes.getID {0} = codes.getID set' := by
  intro events events' c c'
  have h5 : Accepts codes 5 c {0} :=
    ⟨⟨0, ledger, events, timer 3000, by decide, Prod.ext rfl (by decide)⟩, by decide, by decide,
      by decide⟩
  have h6 : Accepts codes 6 c' {0} :=
    ⟨⟨0, ledger, events', timer 4000, by decide, Prod.ext rfl (by decide)⟩, by decide, by decide,
      by decide⟩
  exact ⟨h5, h6, fun set' h => overlapping_votes_agree h5 h (by decide) (by decide)⟩

end FinPal.LedgerConsensus
