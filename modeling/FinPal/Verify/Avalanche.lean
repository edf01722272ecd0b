import FinPal.Verify.DisputeVotes

/-!
# Percentages of a round

Nodes that see the same votes come to the same vote. A close time with consensus has a majority,
unless there are two participants: one of two counts as three quarters of them.
-/

namespace FinPal
open LedgerTiming Finset
namespace DisputedTx
variable {NodeID : Type} [DecidableEq NodeID]

/-- Each of some nodes has recorded the votes of the others, and no others. -/
structure AmongOthers (nodes : Finset NodeID) (state : NodeID → DisputedTx NodeID) : Prop where
  counted : ∀ n ∈ nodes, (state n).Counted
  votes : ∀ n ∈ nodes, ∀ p, (state n).votes.lookup p =
    if p ∈ nodes.erase n then some (state p).ourVote else none

/-- The nodes that vote for the transaction. -/
def yesVotes (nodes : Finset NodeID) (state : NodeID → DisputedTx NodeID) : Finset NodeID :=
  nodes.filter fun n => (state n).ourVote = true

variable {nodes : Finset NodeID} {state : NodeID → DisputedTx NodeID}

theorem AmongOthers.counts (h : AmongOthers nodes state) {n : NodeID} (hn : n ∈ nodes) :
    (state n).yays + (if (state n).ourVote then 1 else 0) = (yesVotes nodes state).card ∧
      (state n).nays + (state n).yays + 1 = nodes.card := by
  have hco (v) : (state n).votes.countVal v =
      ((nodes.erase n).filter fun p => (state p).ourVote = v).card := by
    refine AList.countVal_eq_card fun p => ?_
    rw [h.votes n hn p]
    split <;> simp_all
  obtain ⟨hya, hna⟩ := h.counted n hn
  have hsp := (nodes.erase n).card_filter_add_card_filter_not fun p => (state p).ourVote = true
  have hcard := card_erase_add_one hn
  have hy : ((nodes.erase n).filter fun p => (state p).ourVote = true).card +
      (if (state n).ourVote then 1 else 0) = (yesVotes nodes state).card := by
    unfold yesVotes
    rw [filter_erase]
    split
    case isTrue hours => exact card_erase_add_one (mem_filter.2 ⟨hn, hours⟩)
    case isFalse hours => rw [erase_eq_of_notMem (by simp [hours])]; rfl
  simp only [Bool.not_eq_true] at hsp
  rw [hya, hna, hco, hco]
  constructor
  · rw [← hy]
    push_cast
    rfl
  · omega

theorem neededWeight_lt (percentTime : ℕ) : neededWeight percentTime < 100 := by
  unfold neededWeight
  split_ifs <;> decide

theorem AmongOthers.newVote (h : AmongOthers nodes state) {n : NodeID} (hn : n ∈ nodes)
    (percentTime : ℕ) : (state n).newVote percentTime true =
      decide (neededWeight percentTime < 100 * (yesVotes nodes state).card / nodes.card) := by
  obtain ⟨hy, _⟩ := h.counts hn
  have hne := neededWeight_lt percentTime
  have hp : 0 < nodes.card := card_pos.2 ⟨n, hn⟩
  unfold DisputedTx.newVote
  generalize (state n).ourVote = v at hy
  generalize (yesVotes nodes state).card = Y at hy
  have hwe : ((state n).yays * 100 + if v then 100 else 0) / ((state n).nays + (state n).yays + 1)
      = (100 * Y / nodes.card : ℕ) := by
    rw [Int.natCast_ediv]
    congr 1
    push_cast
    rw [← hy]
    split <;> omega
  rw [hwe]
  split
  case isTrue hun =>
    -- nobody else votes no
    rw [Bool.and_eq_true, beq_iff_eq] at hun
    obtain ⟨rfl, _⟩ := hun
    obtain rfl : Y = nodes.card := by simp only [if_true] at hy; omega
    rw [Nat.mul_div_cancel _ hp]
    exact (decide_eq_true hne).symm
  split
  case isTrue hun =>
    rw [Bool.and_eq_true, beq_iff_eq, Bool.not_eq_true'] at hun
    obtain ⟨rfl, _⟩ := hun
    obtain rfl : Y = 0 := by simp only [Bool.false_eq_true, if_false] at hy; omega
    simp
  · rw [if_pos rfl]
    exact decide_eq_decide.2 Int.ofNat_lt

/-- Nodes that have recorded each other's votes on a transaction and update their own agree, on yes
exactly if the percentage of yes votes is above the one needed. A unanimous vote stays. -/
theorem avalanche_agreement (h : AmongOthers nodes state) (percentTime : ℕ) :
    let next n := (state n).setOurVote ((state n).newVote percentTime true)
    (∀ n ∈ nodes, ((next n).ourVote = true ↔
      neededWeight percentTime < 100 * (yesVotes nodes state).card / nodes.card)) ∧
    ∀ vote, (∀ n ∈ nodes, (state n).ourVote = vote) → ∀ n ∈ nodes, (next n).ourVote = vote := by
  refine ⟨fun n hn => ?_, fun vote hv n hn => ?_⟩
  · show (state n).newVote percentTime true = true ↔ _
    rw [h.newVote hn, decide_eq_true_iff]
  show (state n).newVote percentTime true = vote
  have hp : 0 < nodes.card := card_pos.2 ⟨n, hn⟩
  rw [h.newVote hn]
  cases vote with
  | true =>
    have hy : yesVotes nodes state = nodes := filter_true_of_mem hv
    rw [hy, Nat.mul_div_cancel _ hp]
    exact decide_eq_true (neededWeight_lt percentTime)
  | false =>
    have hy : yesVotes nodes state = ∅ := filter_false_of_mem fun n hn => by simp [hv n hn]
    simp [hy]

/-- Three nodes, of which the first two vote yes. -/
def threeNodes (n : Fin 3) : DisputedTx (Fin 3) :=
  ((List.finRange 3).filter (· ≠ n)).foldl (fun d p => d.setVote p (p ≠ 2)) { ourVote := n ≠ 2 }

theorem avalanche_agreement_sample :
    let next n := (threeNodes n).setOurVote ((threeNodes n).newVote 60 true)
    ∀ n ∈ (Finset.univ : Finset (Fin 3)), ((next n).ourVote = true ↔
      neededWeight 60 < 100 * (yesVotes .univ threeNodes).card / (Finset.univ : Finset (Fin 3)).card) :=
  (avalanche_agreement ⟨by unfold Counted; decide, by decide⟩ 60).1

end DisputedTx

/-! ### Close times -/

namespace LedgerConsensus

/-- Going through close times with their votes selects the last with most votes, if they are enough,
with consensus if enough for it. -/
theorem foldl_closeTimes (votes : ℤ → ℕ) (threshConsensus : ℕ) (l : List ℤ) (t : ℤ) (m : ℕ)
    (b : Bool) :
    let r := l.foldl (fun (s : ℤ × ℕ × Bool) t =>
      if votes t ≥ s.2.1 then (t, votes t, s.2.2 || votes t ≥ threshConsensus) else s) (t, m, b)
    m ≤ r.2.1 ∧ (∀ x ∈ l, votes x ≤ r.2.1) ∧ (r = (t, m, b) ∧ (∀ x ∈ l, votes x < m) ∨
        r.1 ∈ l ∧ r.2.1 = votes r.1 ∧ r.2.2 = (b || decide (threshConsensus ≤ votes r.1)) ∧
          (l.Pairwise (· ≤ ·) → ∀ x ∈ l, votes x = votes r.1 → x ≤ r.1)) := by
  induction l generalizing t m b with
  | nil => exact ⟨le_rfl, by simp, .inl ⟨rfl, by simp⟩⟩
  | cons x l ih =>
    rw [List.foldl_cons]
    split
    case isTrue hx =>
      obtain ⟨hle, ha, hr⟩ := ih x (votes x) (b || votes x ≥ threshConsensus)
      generalize l.foldl _ _ = r at hle ha hr ⊢
      refine ⟨hx.le.trans hle, List.forall_mem_cons.2 ⟨hle, ha⟩, .inr ?_⟩
      rcases hr with ⟨rfl, hlt⟩ | ⟨hmem, hm, hb, hla⟩
      · refine ⟨List.mem_cons_self, rfl, rfl, fun _ y hy hyx => ?_⟩
        rcases List.mem_cons.1 hy with rfl | hy
        · exact le_rfl
        · exact absurd hyx (hlt y hy).ne
      refine ⟨List.mem_cons_of_mem _ hmem, hm, ?_, fun hso y hy hyx => ?_⟩
      · -- the votes of `x` are no more than those of the time that was selected
        rw [hb, Bool.or_assoc]
        congr 1
        rw [hm] at hle
        simp only [ge_iff_le, Bool.or_eq_right_iff_imp, decide_eq_true_eq]
        exact fun h => h.trans hle
      obtain ⟨hxl, hso⟩ := List.pairwise_cons.1 hso
      rcases List.mem_cons.1 hy with rfl | hy
      · exact hxl _ hmem
      · exact hla hso y hy hyx
    case isFalse hx =>
      obtain ⟨hle, ha, hr⟩ := ih t m b
      generalize l.foldl _ _ = r at hle ha hr ⊢
      have hlt : votes x < m := not_le.1 hx
      refine ⟨hle, List.forall_mem_cons.2 ⟨hlt.le.trans hle, ha⟩, ?_⟩
      rcases hr with ⟨hr, hre⟩ | ⟨hmem, hm, hb, hla⟩
      · exact .inl ⟨hr, List.forall_mem_cons.2 ⟨hlt, hre⟩⟩
      refine .inr ⟨List.mem_cons_of_mem _ hmem, hm, hb, fun hso y hy hyx => ?_⟩
      rcases List.mem_cons.1 hy with rfl | hy
      · omega
      · exact hla (List.pairwise_cons.1 hso).2 y hy hyx

/-- A time has most votes, and no later one has as many. -/
structure Leads (times : List ℤ) (t : ℤ) : Prop where
  mem : t ∈ times
  most : ∀ x ∈ times, times.count x ≤ times.count t
  last : ∀ x ∈ times, times.count x = times.count t → x ≤ t

theorem Leads.unique {times times' : List ℤ} {t t' : ℤ} (h : Leads times t) (h' : Leads times' t')
    (hp : times.Perm times') : t = t' := by
  have hm : t ∈ times' := hp.mem_iff.1 h.mem
  have hm' : t' ∈ times := hp.mem_iff.2 h'.mem
  have hle := h.most t' hm'
  have hle' := h'.most t hm
  rw [← hp.count_eq, ← hp.count_eq] at hle'
  have heq := le_antisymm hle hle'
  refine le_antisymm (h'.last t hm ?_) (h.last t' hm' heq)
  rw [← hp.count_eq, ← hp.count_eq, heq]

theorem countCloseTimes_spec (times : List ℤ) (threshVote threshConsensus : ℕ) :
    let r := countCloseTimes times threshVote threshConsensus
    (r.2 = true ∧ Leads times r.1 ∧ threshVote ≤ times.count r.1 ∧
        threshConsensus ≤ times.count r.1) ∨
      r.2 = false ∧ ∀ x ∈ times, times.count x < max threshVote threshConsensus := by
  have hm (x) : x ∈ times.dedup.insertionSort (· ≤ ·) ↔ x ∈ times := by
    rw [List.mem_insertionSort, List.mem_dedup]
  have hso := List.pairwise_insertionSort (· ≤ ·) times.dedup
  obtain ⟨hle, ha, hr⟩ := foldl_closeTimes (times.count ·) threshConsensus
    (times.dedup.insertionSort (· ≤ ·)) 0 threshVote false
  unfold countCloseTimes
  generalize (times.dedup.insertionSort (· ≤ ·)).foldl _ _ = r at hle ha hr ⊢
  obtain ⟨t, m, b⟩ := r
  dsimp only at *
  rcases hr with ⟨hr, hlt⟩ | ⟨ht, rfl, hb, hla⟩
  · cases hr
    exact .inr ⟨rfl, fun x hx => lt_max_of_lt_left (hlt x ((hm x).2 hx))⟩
  rw [hb]
  by_cases hco : threshConsensus ≤ times.count t
  · refine .inl ⟨decide_eq_true hco, ⟨(hm t).1 ht, ?_, ?_⟩, hle, hco⟩
    · exact fun x hx => ha x ((hm x).2 hx)
    · exact fun x hx => hla hso x ((hm x).2 hx)
  · refine .inr ⟨decide_eq_false hco, fun x hx => lt_max_of_lt_right ?_⟩
    exact (ha x ((hm x).2 hx)).trans_lt (not_le.1 hco)

theorem count_add_count_le (times : List ℤ) {t t' : ℤ} (h : t' ≠ t) :
    times.count t' + times.count t ≤ times.length := by
  rw [List.length_eq_countP_add_countP (· == t), Nat.add_comm]
  refine Nat.add_le_add_left (List.countP_mono_left fun x _ hx => ?_) _
  rw [beq_iff_eq] at hx
  simp [hx, h]

variable {NodeID TxID SetID LedgerID : Type}

/-- The effective close times of the participants: the peers, and we if we propose. -/
def closeTimes (c : LedgerConsensus NodeID TxID SetID LedgerID) (ourPosition : Position SetID LedgerID) :
    List ℤ :=
  let times := c.peerPositions.entries.map fun it => c.effectiveCloseTime it.2.closeTime
  if c.proposing then c.effectiveCloseTime ourPosition.closeTime :: times else times

/-- A majority of the participants has a close time, and no other has as many. -/
structure HasMajority (times : List ℤ) (t : ℤ) : Prop where
  majority : times.length < 2 * times.count t
  others : ∀ t' ≠ t, times.count t' < times.count t

/-- Two participants have different close times, and nobody is stuck yet. -/
def Tied (c : LedgerConsensus NodeID TxID SetID LedgerID) (ourPosition : Position SetID LedgerID) :
    Prop :=
  c.closePercent < avStuckConsensusTime ∧ ∃ t t', t ≠ t' ∧ c.closeTimes ourPosition = [t, t']

variable {c : LedgerConsensus NodeID TxID SetID LedgerID} {pos : Position SetID LedgerID}

theorem agreedCloseTime_eq (h : c.peerPositions.entries ≠ []) :
    c.agreedCloseTime pos = countCloseTimes (c.closeTimes pos)
      (participantsNeeded (c.closeTimes pos).length (neededWeight c.closePercent))
      (participantsNeeded (c.closeTimes pos).length avCtConsensusPct) :=
  if_neg h

theorem lt_participantsNeeded {n : ℕ} (h : n ≠ 2) :
    n < 2 * participantsNeeded n avCtConsensusPct := by
  unfold participantsNeeded avCtConsensusPct
  dsimp only
  split <;> omega

theorem participantsNeeded_two {percentTime : ℕ} (h : percentTime < avStuckConsensusTime) :
    participantsNeeded 2 (neededWeight percentTime) = 1 := by
  unfold neededWeight
  split_ifs <;> rfl

/-- Consensus on a close time is that of a majority exactly when the participants are not two with
different times. -/
theorem agreedCloseTime_majority (h : c.peerPositions.entries ≠ []) :
    ((c.agreedCloseTime pos).2 = true → HasMajority (c.closeTimes pos) (c.agreedCloseTime pos).1) ↔
      ¬c.Tied pos := by
  rw [agreedCloseTime_eq h]
  have hsp := countCloseTimes_spec (c.closeTimes pos)
    (participantsNeeded (c.closeTimes pos).length (neededWeight c.closePercent))
    (participantsNeeded (c.closeTimes pos).length avCtConsensusPct)
  generalize countCloseTimes _ _ _ = r at hsp ⊢
  unfold Tied
  generalize c.closeTimes pos = times at *
  have hma {t} (hlt) : HasMajority times t :=
    ⟨hlt, fun t' ht' => by have := count_add_count_le times ht'; omega⟩
  constructor
  · rintro hr ⟨hst, t, t', htt', rfl⟩
    -- one vote of two is enough
    have hco : [t, t'].count t = 1 := by simp [htt'.symm]
    rcases hsp with ⟨hc, hle, -, -⟩ | ⟨-, hf⟩
    · have hlt := (hr hc).majority
      have hone : [t, t'].count r.1 ≤ 1 := by
        rcases List.mem_pair.1 hle.mem with h | h <;> rw [h] <;> simp [htt', htt'.symm]
      simp only [List.length_cons, List.length_nil] at hlt
      omega
    have hlt := hf t List.mem_cons_self
    rw [hco, show [t, t'].length = 2 from rfl, participantsNeeded_two hst] at hlt
    exact absurd hlt (by decide)
  intro hti hc
  rcases hsp with ⟨-, hle, hvo, hne⟩ | ⟨hno, -⟩
  · refine hma ?_
    by_cases ht : times.length = 2
    · obtain ⟨t, t', rfl⟩ := List.length_eq_two.1 ht
      by_cases htt' : t = t'
      · subst htt'
        rw [show r.1 = t by simpa using hle.mem]
        simp
      -- they are stuck, and both are needed
      have hst := not_lt.1 fun hlt => hti ⟨hlt, t, t', htt', rfl⟩
      have hwe : neededWeight c.closePercent = avStuckConsensusPct := by
        unfold neededWeight avMidConsensusTime avLateConsensusTime avStuckConsensusTime at *
        rw [if_neg (by omega), if_neg (by omega), if_neg (by omega)]
      rw [hwe, ht] at hvo
      have : participantsNeeded 2 avStuckConsensusPct = 2 := rfl
      omega
    · exact (lt_participantsNeeded ht).trans_le (Nat.mul_le_mul_left 2 hne)
  · rw [hno] at hc
    cases hc

variable [DecidableEq NodeID] [DecidableEq TxID] [DecidableEq SetID] [DecidableEq LedgerID]

omit [DecidableEq LedgerID] in
theorem haveCloseTimeConsensus_mapCompleteInternal (sets : TxSets TxID SetID) (map : Finset TxID) :
    (mapCompleteInternal sets c map).haveCloseTimeConsensus = c.haveCloseTimeConsensus := by
  have h : OnlyDisputes c (mapCompleteInternal sets c map) := .mapCompleteInternal c map
  rw [h]

omit [DecidableEq LedgerID] in
theorem haveCloseTimeConsensus_updateOurPositions (sets : TxSets TxID SetID) {now : ℤ}
    {set : Finset TxID} (hp : c.ourPosition = some pos) (hs : c.ourSet = some set) :
    (updateOurPositions sets c now).haveCloseTimeConsensus =
      ((c.removeStale (now - proposeFreshness)).agreedCloseTime pos).2 := by
  have hp' : (c.removeStale (now - proposeFreshness)).ourPosition = some pos := hp
  have hs' : (c.removeStale (now - proposeFreshness)).ourSet = some set := hs
  unfold updateOurPositions
  dsimp only
  rw [hp', hs']
  dsimp only
  split
  · rfl
  unfold takePosition
  dsimp only
  split
  · rfl
  · rw [haveCloseTimeConsensus_mapCompleteInternal]

omit [DecidableEq LedgerID] in
/-- Whenever `updateOurPositions` finds consensus among us and fresh peers, it selects the close
time of a majority, which no other equals, exactly if they are not two with different close times.
Nodes with the same participants that find consensus select the same. -/
theorem close_time_majority (sets : TxSets TxID SetID) {now : ℤ} {set : Finset TxID}
    (hpos : c.ourPosition = some pos) (hset : c.ourSet = some set)
    (hpeers : (c.removeStale (now - proposeFreshness)).peerPositions.entries ≠ []) :
    let fresh := c.removeStale (now - proposeFreshness)
    (((updateOurPositions sets c now).haveCloseTimeConsensus = true →
        HasMajority (fresh.closeTimes pos) (fresh.agreedCloseTime pos).1) ↔ ¬fresh.Tied pos) ∧
      ∀ (other : LedgerConsensus NodeID TxID SetID LedgerID) (pos' : Position SetID LedgerID),
        other.peerPositions.entries ≠ [] → (fresh.closeTimes pos).Perm (other.closeTimes pos') →
        (fresh.agreedCloseTime pos).2 = true → (other.agreedCloseTime pos').2 = true →
          (fresh.agreedCloseTime pos).1 = (other.agreedCloseTime pos').1 := by
  rw [haveCloseTimeConsensus_updateOurPositions sets hpos hset]
  refine ⟨agreedCloseTime_majority hpeers, fun other pos' hpe' hpe hco hco' => ?_⟩
  have hle {c : LedgerConsensus NodeID TxID SetID LedgerID} {pos : Position SetID LedgerID}
      (h : c.peerPositions.entries ≠ []) (hco : (c.agreedCloseTime pos).2 = true) :
      Leads (c.closeTimes pos) (c.agreedCloseTime pos).1 := by
    rw [agreedCloseTime_eq h] at hco ⊢
    rcases countCloseTimes_spec (c.closeTimes pos) _ _ with ⟨-, hl, -⟩ | ⟨hno, -⟩
    · exact hl
    · rw [hno] at hco
      cases hco
  exact (hle hpeers hco).unique (hle hpe' hco') hpe

namespace Rounds

/-- A node that proposes to close at 150 and has a fresh peer with another time. -/
def withPeer (closeTime : ℤ) : LedgerConsensus ℕ ℕ ℕ ℕ :=
  { newObject with
    ourPosition := some ⟨1, 1, 150, 0, 150⟩
    ourSet := some {0}
    proposing := true
    peerPositions := AList.singleton 7 ⟨1, 1, closeTime, 0, 150⟩ }

end Rounds

theorem Rounds.not_tied :
    ¬((withPeer 150).removeStale (160 - proposeFreshness)).Tied ⟨1, 1, 150, 0, 150⟩ := by
  rintro ⟨-, t, _, hne, h⟩
  cases h
  exact hne rfl

open Rounds in
/-- A peer agrees on the close time. -/
theorem close_time_majority_sample :
    (updateOurPositions codes (withPeer 150) 160).haveCloseTimeConsensus = true ∧
      ((withPeer 150).removeStale (160 - proposeFreshness)).closeTimes ⟨1, 1, 150, 0, 150⟩ =
        [150, 150] ∧
      ((updateOurPositions codes (withPeer 150) 160).haveCloseTimeConsensus = true →
        HasMajority [150, 150] 150) :=
  ⟨by decide +kernel, by decide +kernel,
    (close_time_majority codes (c := withPeer 150) rfl rfl
      (show ((withPeer 150).removeStale (160 - proposeFreshness)).peerPositions.entries ≠ [] by
        decide)).1.2 not_tied⟩

open Rounds in
/-- Both of two participants have their own close time, and there is consensus on the later one. -/
theorem tied_close_times_agreed : let fresh := (withPeer 240).removeStale (160 - proposeFreshness)
    (updateOurPositions codes (withPeer 240) 160).haveCloseTimeConsensus = true ∧
      fresh.closeTimes ⟨1, 1, 150, 0, 150⟩ = [150, 240] ∧
      (fresh.agreedCloseTime ⟨1, 1, 150, 0, 150⟩).1 = 240 ∧ ¬HasMajority [150, 240] 240 :=
  ⟨by decide +kernel, by decide +kernel, by decide +kernel, fun h => absurd h.majority (by decide)⟩

end LedgerConsensus
end FinPal
