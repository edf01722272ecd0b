import FinPal.Verify.AgreedSet

/-!
# Votes on disputed transactions
-/

namespace FinPal
open AList DisputedTx
namespace DisputedTx
variable {NodeID : Type} [DecidableEq NodeID] {d : DisputedTx NodeID}

/-- The counters are the numbers of recorded votes. -/
def Counted (d : DisputedTx NodeID) : Prop :=
  d.yays = d.votes.countVal true ∧ d.nays = d.votes.countVal false

theorem lookup_setVote (d : DisputedTx NodeID) (peer : NodeID) (votesYes : Bool) (p : NodeID) :
    (d.setVote peer votesYes).votes.lookup p =
      if p = peer then some votesYes else d.votes.lookup p := by
  unfold setVote
  split
  case h_1 => exact lookup_insert_eq ..
  case h_2 before hbe =>
    -- A vote that is recorded already is not written again.
    cases votesYes <;> cases before
    · exact lookup_eq_ite hbe p
    · exact lookup_insert_eq ..
    · exact lookup_insert_eq ..
    · exact lookup_eq_ite hbe p

@[simp] theorem ourVote_setVote (d : DisputedTx NodeID) (peer : NodeID) (votesYes : Bool) :
    (d.setVote peer votesYes).ourVote = d.ourVote := by
  unfold setVote
  split
  · rfl
  · split_ifs <;> rfl

theorem Counted.setVote (h : d.Counted) (peer : NodeID) (votesYes : Bool) :
    (d.setVote peer votesYes).Counted := by
  obtain ⟨_, _⟩ := h
  have hy := countVal_erase true d.votes peer
  have hno := countVal_erase false d.votes peer
  unfold DisputedTx.setVote
  split
  case h_1 hn =>
    rw [hn] at hy hno
    cases votesYes <;> simp [Counted, countVal_insert] at hy hno ⊢ <;> omega
  case h_2 before hs =>
    rw [hs] at hy hno
    cases votesYes <;> cases before <;>
      simp [Counted, countVal_insert] at hy hno ⊢ <;> omega

theorem lookup_unVote (d : DisputedTx NodeID) (peer p : NodeID) :
    (d.unVote peer).votes.lookup p = if p = peer then none else d.votes.lookup p := by
  unfold unVote
  split
  case h_1 hn => exact lookup_eq_ite hn p
  case h_2 => exact lookup_erase_eq ..
  case h_3 => exact lookup_erase_eq ..

@[simp] theorem ourVote_unVote (d : DisputedTx NodeID) (peer : NodeID) :
    (d.unVote peer).ourVote = d.ourVote := by
  unfold unVote
  split <;> rfl

theorem Counted.unVote (h : d.Counted) (peer : NodeID) : (d.unVote peer).Counted := by
  obtain ⟨hya, hn⟩ := h
  have hy := countVal_erase true d.votes peer
  have hno := countVal_erase false d.votes peer
  unfold DisputedTx.unVote
  split
  case h_1 => exact ⟨hya, hn⟩
  case h_2 hs | h_3 hs =>
    rw [hs] at hy hno
    simp only [Counted, if_false, if_true, Option.some.injEq, Bool.false_eq_true,
      Bool.true_eq_false] at hy hno ⊢
    constructor <;> omega

/-! ### Many votes -/

theorem foldl_setVote (peers : List NodeID) (v : Bool) (d : DisputedTx NodeID) :
    let r := peers.foldl (fun d p => d.setVote p v) d
    (d.Counted → r.Counted) ∧ r.ourVote = d.ourVote ∧
      ∀ p, r.votes.lookup p = if p ∈ peers then some v else d.votes.lookup p := by
  induction peers generalizing d with
  | nil => exact ⟨id, rfl, fun _ => rfl⟩
  | cons peer peers ih =>
    obtain ⟨hco, hours, hvo⟩ := ih (d.setVote peer v)
    refine ⟨fun h => hco (h.setVote peer v), hours.trans (ourVote_setVote ..), fun p => ?_⟩
    rw [List.foldl_cons, hvo p, lookup_setVote]
    by_cases hp : p = peer <;> simp [hp]

theorem foldl_unVote (peers : List NodeID) (d : DisputedTx NodeID) : let r := peers.foldl unVote d
    (d.Counted → r.Counted) ∧ r.ourVote = d.ourVote ∧
      ∀ p ∉ peers, r.votes.lookup p = d.votes.lookup p := by
  induction peers generalizing d with
  | nil => exact ⟨id, rfl, fun _ _ => rfl⟩
  | cons peer peers ih =>
    obtain ⟨hco, hours, hvo⟩ := ih (d.unVote peer)
    refine ⟨fun h => hco (h.unVote peer), hours.trans (ourVote_unVote ..), fun p hp => ?_⟩
    rw [List.mem_cons, not_or] at hp
    rw [List.foldl_cons, hvo p hp.2, lookup_unVote, if_neg hp.1]

end DisputedTx

namespace LedgerConsensus
open LedgerTiming
variable {NodeID TxID SetID LedgerID : Type}
  [DecidableEq NodeID] [DecidableEq TxID]
  {sets : TxSets TxID SetID} {c c' : LedgerConsensus NodeID TxID SetID LedgerID}
  {txID : TxID} {d : DisputedTx NodeID} {set : Finset TxID}

/-! ### What votes have to be -/

/-- The votes on a transaction follow our set and the positions with acquired sets. -/
structure Tracks (c : LedgerConsensus NodeID TxID SetID LedgerID) (txID : TxID)
    (d : DisputedTx NodeID) : Prop where
  counted : d.Counted
  votes : ∀ peer pos set, c.peerPositions.lookup peer = some pos →
    c.acquired pos.currentHash = some set → d.votes.lookup peer = some (decide (txID ∈ set))
  ourVote : d.ourVote = c.ourSet.any fun set => decide (txID ∈ set)

/-- The votes on every disputed transaction are those of the peers. -/
def VotesTrack (c : LedgerConsensus NodeID TxID SetID LedgerID) : Prop :=
  ∀ txID d, c.disputes.lookup txID = some d → c.Tracks txID d

theorem Tracks.congr (h : c.Tracks txID d) (hpe : c'.peerPositions = c.peerPositions)
    (hac : c'.acquired = c.acquired) (hs : c'.ourSet = c.ourSet) : c'.Tracks txID d where
  counted := h.counted
  votes := by
    rw [hpe, hac]
    exact h.votes
  ourVote := by
    rw [hs]
    exact h.ourVote

variable [DecidableEq SetID]

omit [DecidableEq TxID] in
theorem mem_peersAt {hash : SetID} {peer : NodeID} : peer ∈ c.peersAt hash ↔
      ∃ pos, c.peerPositions.lookup peer = some pos ∧ pos.currentHash = hash := by
  simp only [peersAt, List.mem_map, List.mem_filter, decide_eq_true_eq, lookup_eq_some]
  constructor
  · rintro ⟨⟨_, pos⟩, ⟨hm, hh⟩, rfl⟩
    exact ⟨pos, hm, hh⟩
  · rintro ⟨pos, hm, hh⟩
    exact ⟨⟨peer, pos⟩, ⟨hm, hh⟩, rfl⟩

omit [DecidableEq SetID] in
theorem foldl_peerVote (c : LedgerConsensus NodeID TxID SetID LedgerID) (txID : TxID)
    (l : List (Σ _ : NodeID, Position SetID LedgerID)) (hl : l.NodupKeys) (d : DisputedTx NodeID) :
    let r := l.foldl (c.peerVote txID) d
    (d.Counted → r.Counted) ∧ r.ourVote = d.ourVote ∧
      (∀ p ∉ l.keys, r.votes.lookup p = d.votes.lookup p) ∧
      ∀ it ∈ l, ∀ set, c.acquired it.2.currentHash = some set →
        r.votes.lookup it.1 = some (decide (txID ∈ set)) := by
  induction l generalizing d with
  | nil => exact ⟨id, rfl, fun _ _ => rfl, nofun⟩
  | cons it l ih =>
    obtain ⟨hfr, hl⟩ := List.nodupKeys_cons.1 hl
    obtain ⟨hco, hours, hot, hvo⟩ := ih hl (c.peerVote txID d it)
    rw [List.foldl_cons]
    refine ⟨fun h => hco ?_, hours.trans ?_, fun p hp => ?_, fun it' hit set hs => ?_⟩
    · unfold peerVote
      split
      · exact h.setVote _ _
      · exact h
    · unfold peerVote
      split
      · exact ourVote_setVote ..
      · rfl
    · rw [List.keys_cons, List.mem_cons, not_or] at hp
      rw [hot p hp.2]
      unfold peerVote
      split
      · rw [lookup_setVote, if_neg hp.1]
      · rfl
    obtain rfl | hit := List.mem_cons.1 hit
    · -- No later peer has this key.
      rw [hot _ hfr]
      unfold peerVote
      rw [hs]
      rw [lookup_setVote, if_pos rfl]
    · exact hvo it' hit set hs

namespace VotesTrack

omit [DecidableEq SetID] in
theorem of_empty (h : c.disputes.entries = []) : VotesTrack c := by
  intro _ d hd
  rw [lookup_eq_some, h] at hd
  cases hd

omit [DecidableEq SetID] in
theorem mapVal (h : VotesTrack c) (f : TxID → DisputedTx NodeID → DisputedTx NodeID)
    (hdi : c'.disputes = c.disputes.mapVal f)
    (hf : ∀ txID d, c.disputes.lookup txID = some d → c.Tracks txID d →
      c'.Tracks txID (f txID d)) : VotesTrack c' := by
  intro txID _ hd'
  rw [hdi, lookup_mapVal, Option.map_eq_some_iff] at hd'
  obtain ⟨d, hd, rfl⟩ := hd'
  exact hf txID d hd (h txID d hd)

omit [DecidableEq SetID] in
theorem congr (h : VotesTrack c) (hdi : c'.disputes = c.disputes)
    (hpe : c'.peerPositions = c.peerPositions) (hac : c'.acquired = c.acquired)
    (hs : c'.ourSet = c.ourSet) : VotesTrack c' := by
  intro txID d hd
  rw [hdi] at hd
  exact (h txID d hd).congr hpe hac hs

/-! ### New disputes -/

omit [DecidableEq SetID] in
theorem addDisputedTransaction (h : VotesTrack c) (txID : TxID) :
    VotesTrack (c.addDisputedTransaction txID) := by
  unfold LedgerConsensus.addDisputedTransaction
  split
  · exact h
  intro t d hd
  rw [lookup_insert_eq] at hd
  split at hd
  case isFalse => exact (h t d hd).congr rfl rfl rfl
  case isTrue ht =>
    subst ht
    cases hd
    have hf (d) := foldl_peerVote c t c.peerPositions.entries c.peerPositions.nodupKeys d
    refine ⟨(hf _).1 ⟨rfl, rfl⟩, fun peer pos set hp hs => ?_, (hf _).2.1.trans ?_⟩
    · exact (hf _).2.2.2 ⟨peer, pos⟩ (lookup_eq_some.1 hp) set hs
    · dsimp only
      cases c.ourSet <;> rfl

omit [DecidableEq SetID] in
theorem foldl {α : Type} {f : LedgerConsensus NodeID TxID SetID LedgerID → α → _}
    (hf : ∀ c x, VotesTrack c → VotesTrack (f c x)) (l : List α) (h : VotesTrack c) :
    VotesTrack (l.foldl f c) := by
  induction l generalizing c with
  | nil => exact h
  | cons x l ih => exact ih (hf c x h)

theorem createDisputes (h : VotesTrack c) (m1 m2 : Finset TxID) :
    VotesTrack (createDisputes sets c m1 m2) := by
  unfold LedgerConsensus.createDisputes
  split
  · exact h
  · exact foldl (fun c txID h => h.addDisputedTransaction txID) _ h

theorem compareOnce (h : VotesTrack c) (hash : SetID) (ourSet set : Finset TxID) :
    VotesTrack (compareOnce sets c hash ourSet set) := by
  unfold LedgerConsensus.compareOnce
  split
  · exact h
  have hco : VotesTrack { c with compares := insert hash c.compares } :=
    h.congr rfl rfl rfl rfl
  exact hco.createDisputes ourSet set

theorem compareWithOurs (h : VotesTrack c) (map : Finset TxID) :
    VotesTrack (compareWithOurs sets c map) := by
  unfold LedgerConsensus.compareWithOurs
  split
  · split_ifs
    · exact h
    · exact h
    · exact (h.createDisputes _ map).congr rfl rfl rfl rfl
  · exact h

/-! ### Acquired sets -/

theorem mapCompleteInternal (h : VotesTrack c) (map : Finset TxID) :
    VotesTrack (mapCompleteInternal sets c map) := by
  have hco : VotesTrack (LedgerConsensus.compareWithOurs sets c map) := h.compareWithOurs map
  unfold LedgerConsensus.mapCompleteInternal
  dsimp only
  split
  · exact h
  generalize LedgerConsensus.compareWithOurs sets c map = c at hco
  refine hco.mapVal (fun txID d => (c.peersAt (sets.getID map)).foldl
    (fun d p => d.setVote p (txID ∈ map)) d) rfl fun txID d _ hd => ?_
  obtain ⟨hc, hours, hvo⟩ := foldl_setVote (c.peersAt (sets.getID map))
    (decide (txID ∈ map)) d
  refine ⟨hc hd.counted, fun peer pos set hpe hs => ?_, hours.trans hd.ourVote⟩
  have hat : peer ∈ c.peersAt (sets.getID map) ↔ pos.currentHash = sets.getID map := by
    rw [mem_peersAt]
    constructor
    · rintro ⟨_, hpe', hha⟩
      cases hpe.symm.trans hpe'
      exact hha
    · exact fun hha => ⟨pos, hpe, hha⟩
  rw [hvo peer]
  dsimp only at hs
  by_cases hha : pos.currentHash = sets.getID map
  · rw [if_pos (hat.2 hha)]
    rw [hha, Function.update_self] at hs
    cases hs
    rfl
  rw [if_neg (mt hat.1 hha)]
  rw [Function.update_of_ne hha] at hs
  exact hd.votes peer pos set hpe hs

end VotesTrack

/-- If `peerPosition` acquires the set of a position by itself, then no other peer names that set,
or nothing is disputed. -/
def FetchedAlone (c : LedgerConsensus NodeID TxID SetID LedgerID) (peerID : NodeID)
    (newPosition : Position SetID LedgerID) (getSet : Option (Finset TxID)) : Prop :=
  c.acquired newPosition.currentHash = none → getSet.isSome = true →
    c.disputes.entries = [] ∨ ∀ peer ∈ c.peersAt newPosition.currentHash, peer = peerID

namespace VotesTrack

omit [DecidableEq SetID] in
theorem withdraw (h : VotesTrack c) (peerID : NodeID) (deadNodes : Finset NodeID) :
    VotesTrack { c with
      disputes := c.disputes.mapVal fun _ d => d.unVote peerID
      peerPositions := c.peerPositions.erase peerID
      deadNodes := deadNodes } := by
  refine h.mapVal (fun _ d => d.unVote peerID) rfl fun txID d _ hd => ?_
  refine ⟨hd.counted.unVote peerID, fun peer pos set hp hs => ?_, ?_⟩
  · dsimp only at hp
    rw [lookup_erase_eq] at hp
    split at hp
    case isTrue => cases hp
    case isFalse hne =>
      rw [lookup_unVote, if_neg hne]
      exact hd.votes peer pos set hp hs
  · rw [ourVote_unVote]
    exact hd.ourVote

variable {peerID : NodeID} {newPosition : Position SetID LedgerID}

omit [DecidableEq SetID] in
/-- A new position of a peer, in a state in which what is acquired of other peers' sets has not
changed. -/
theorem takeVote (h : VotesTrack c) {acquired : SetID → Option (Finset TxID)} {set : Finset TxID}
    (hs : acquired newPosition.currentHash = some set)
    (hot : ∀ peer pos, peer ≠ peerID → c.peerPositions.lookup peer = some pos → acquired
      pos.currentHash = c.acquired pos.currentHash) : VotesTrack { c with
      peerPositions := c.peerPositions.insert peerID newPosition
      acquired := acquired
      disputes := c.disputes.mapVal fun txID d => d.setVote peerID (txID ∈ set) } := by
  refine h.mapVal (fun txID d => d.setVote peerID (txID ∈ set)) rfl fun txID d _ hd => ?_
  refine ⟨hd.counted.setVote peerID _, fun peer pos set' hpe hs' => ?_, ?_⟩
  · dsimp only at hpe hs'
    rw [lookup_insert_eq] at hpe
    rw [lookup_setVote]
    split at hpe
    case isTrue heq =>
      cases hpe
      cases hs.symm.trans hs'
      rw [if_pos heq]
    case isFalse hne =>
      rw [if_neg hne]
      rw [hot peer pos hne hpe] at hs'
      exact hd.votes peer pos set' hpe hs'
  · rw [ourVote_setVote]
    exact hd.ourVote

omit [DecidableEq SetID] in
theorem insertPosition (h : VotesTrack c) {acquired : SetID → Option (Finset TxID)}
    (hac : acquired = c.acquired) (hn : acquired newPosition.currentHash = none) :
    VotesTrack { c with
      peerPositions := c.peerPositions.insert peerID newPosition
      acquired := acquired } := by
  subst hac
  intro txID d hd
  have htr := h txID d hd
  refine ⟨htr.counted, fun peer pos set hp hs => ?_, htr.ourVote⟩
  dsimp only at hp hs
  rw [lookup_insert_eq] at hp
  split at hp
  case isTrue =>
    cases hp
    rw [hn] at hs
    cases hs
  case isFalse => exact htr.votes peer pos set hp hs

variable [DecidableEq LedgerID] in
theorem peerPosition (h : VotesTrack c) {getSet : Option (Finset TxID)}
    (hal : c.FetchedAlone peerID newPosition getSet) :
    VotesTrack (c.peerPosition peerID newPosition getSet) := by
  unfold LedgerConsensus.peerPosition
  dsimp only
  split
  · exact h
  split
  · exact h
  split
  · exact h
  split
  · exact h.withdraw peerID _
  by_cases hac : (c.acquired newPosition.currentHash).isSome
  · -- The set was acquired before.
    rw [if_pos hac]
    split
    case h_1 set hs => exact h.takeVote hs fun _ _ _ _ => rfl
    case h_2 hno =>
      rw [hno] at hac
      cases hac
  have hno : c.acquired newPosition.currentHash = none := by simpa using hac
  rw [if_neg hac]
  split
  case h_1 set hs =>
    have hg : getSet = some set := by simpa using hs
    obtain hem | hpe := hal hno (by rw [hg]; rfl)
    · exact of_empty (by simp [AList.mapVal, hem])
    refine h.takeVote hs fun peer pos hne hp => ?_
    refine Function.update_of_ne (fun hha => hne ?_) _ _
    exact hpe peer (mem_peersAt.2 ⟨pos, hp, hha⟩)
  case h_2 hg =>
    refine h.insertPosition ?_ hg
    dsimp only at hg
    rw [Function.update_self] at hg
    rw [hg, ← hno]
    exact Function.update_eq_self _ _

/-! ### Our own vote -/

theorem takeInitialPosition (h : VotesTrack c) (initialSet : Finset TxID) (openParent : LedgerID)
    (now : ℤ) : VotesTrack (takeInitialPosition sets c initialSet openParent now) := by
  refine mapCompleteInternal ?_ initialSet
  refine foldl (fun c it hc => ?_) _ ?_
  · split
    · exact hc.compareOnce _ _ _
    · exact hc
  · refine h.mapVal (fun txID d => d.setOurVote (txID ∈ initialSet)) rfl fun txID d _ hd => ?_
    exact ⟨hd.counted, hd.votes, rfl⟩

omit [DecidableEq SetID] in
theorem removeStale (h : VotesTrack c) (peerCutoff : ℤ) :
    VotesTrack (c.removeStale peerCutoff) := by
  unfold LedgerConsensus.removeStale
  generalize hst : List.map Sigma.fst
    (c.peerPositions.entries.filter fun it => it.2.isStale peerCutoff) = stale
  refine h.mapVal (fun _ d => stale.foldl unVote d) rfl fun txID d _ hd => ?_
  obtain ⟨hco, hours, hvo⟩ := foldl_unVote stale d
  refine ⟨hco hd.counted, fun peer pos set hp hs => ?_, hours.trans hd.ourVote⟩
  rw [lookup_filterVal, Option.filter_eq_some_iff] at hp
  obtain ⟨hp, hfr⟩ := hp
  refine (hvo peer ?_).trans (hd.votes peer pos set hp hs)
  -- A peer has only one position, and this one is fresh.
  rw [← hst, List.mem_map]
  rintro ⟨⟨_, _⟩, hm, rfl⟩
  obtain ⟨hm, hst'⟩ := List.mem_filter.1 hm
  cases (lookup_eq_some.2 hm).symm.trans hp
  simp [hst'] at hfr

end VotesTrack

omit [DecidableEq NodeID] in
theorem mem_foldl_toggle (l : List (Σ _ : TxID, DisputedTx NodeID)) (hl : l.NodupKeys)
    (set : Finset TxID) (x : TxID) :
    x ∈ l.foldl (fun set it => if it.2.ourVote then set.erase it.1 else insert it.1 set) set ↔
      match l.dlookup x with
      | some d => d.ourVote = false
      | none => x ∈ set := by
  induction l generalizing set with
  | nil => rfl
  | cons it l ih =>
    obtain ⟨hfr, hl⟩ := List.nodupKeys_cons.1 hl
    rw [List.foldl_cons, ih hl]
    by_cases hx : x = it.1
    · subst hx
      have hno : l.dlookup it.1 = none := List.dlookup_eq_none.2 hfr
      rw [hno, List.dlookup_cons_eq]
      dsimp only
      cases it.2.ourVote <;> simp
    rw [List.dlookup_cons_ne _ _ hx]
    split
    · rfl
    · split_ifs <;> simp [hx]

omit [DecidableEq NodeID] in
omit [DecidableEq SetID] in
theorem mem_changedSet (set : Finset TxID) (hd : c.disputes.lookup txID = some d) :
    txID ∈ c.changedSet set ↔ if d.newVote c.closePercent c.proposing = d.ourVote then txID ∈ set
      else d.ourVote = false := by
  have hlo : c.changedVotes.lookup txID =
      if d.newVote c.closePercent c.proposing = d.ourVote then none else some d := by
    rw [changedVotes, lookup_filterVal, hd]
    split_ifs with heq <;> simp [Option.filter, heq]
  refine (mem_foldl_toggle c.changedVotes.entries c.changedVotes.nodupKeys set txID).trans ?_
  change (match c.changedVotes.lookup txID with
    | some d => d.ourVote = false
    | none => txID ∈ set) ↔ _
  rw [hlo]
  split_ifs <;> rfl

omit [DecidableEq NodeID] [DecidableEq SetID] in
/-- The proposed set, or ours if there is none, is ours with the changes of our votes. -/
theorem getD_proposedSet (c : LedgerConsensus NodeID TxID SetID LedgerID)
    (pos : Position SetID LedgerID) (set : Finset TxID) (closeTime now : ℤ) :
    (c.proposedSet pos set closeTime now).getD set = c.changedSet set := by
  have hn (h : c.changedVotes.entries = []) : set = c.changedSet set := by
    rw [changedSet, h]
    rfl
  unfold proposedSet
  split_ifs with hch
  · rfl
  · exact hn (not_not.1 hch)
  · exact hn (not_not.1 hch)

namespace VotesTrack

omit [DecidableEq SetID] in
theorem updateVotes (h : VotesTrack c) {set : Finset TxID} (hs : c.ourSet = some set) :
    VotesTrack { c.updateVotes with ourSet := some (c.changedSet set) } := by
  refine h.mapVal (fun _ d => d.setOurVote (d.newVote c.closePercent c.proposing)) rfl
    fun txID d hlo hd => ⟨hd.counted, hd.votes, ?_⟩
  have hours : d.ourVote = decide (txID ∈ set) := by
    rw [hd.ourVote, hs]
    rfl
  have hm := mem_changedSet set hlo
  change d.newVote c.closePercent c.proposing = decide (txID ∈ c.changedSet set)
  split_ifs at hm with heq
  · rw [heq, hours]
    exact decide_eq_decide.2 hm.symm
  · revert heq hm
    cases d.ourVote <;> cases d.newVote c.closePercent c.proposing <;> simp

theorem takePosition (h : VotesTrack { c with ourSet := some set }) (pos : Position SetID LedgerID)
    (closeTime now : ℤ) : VotesTrack (takePosition sets c pos set closeTime now) := by
  unfold LedgerConsensus.takePosition
  split
  · exact h
  · refine mapCompleteInternal ?_ set
    exact h.congr rfl rfl rfl rfl

theorem updateOurPositions (h : VotesTrack c) (now : ℤ) :
    VotesTrack (updateOurPositions sets c now) := by
  have hfr := h.removeStale (now - proposeFreshness)
  unfold LedgerConsensus.updateOurPositions
  dsimp only
  generalize c.removeStale (now - proposeFreshness) = c at hfr
  split
  case h_2 => exact hfr
  case h_1 pos set hpos hs =>
    have hup := hfr.updateVotes hs
    rw [← getD_proposedSet c pos set (c.agreedCloseTime pos).1 now] at hup
    split
    case h_1 hn =>
      rw [hn] at hup
      exact hup.congr rfl rfl rfl hs
    case h_2 ourSet hso =>
      rw [hso] at hup
      refine takePosition ?_ pos _ now
      exact hup.congr rfl rfl rfl rfl

/-! ### The timer -/

theorem countPosition {counts : ℕ × ℕ × LedgerConsensus NodeID TxID SetID LedgerID}
    (h : VotesTrack counts.2.2) (hash : SetID) (position : Position SetID LedgerID) :
    VotesTrack (countPosition sets hash counts position).2.2 := by
  unfold LedgerConsensus.countPosition
  split_ifs
  · exact h
  · exact h
  dsimp only
  split
  · exact h.compareOnce _ _ _
  · exact h

theorem countPositions (h : VotesTrack c) (hash : SetID) :
    VotesTrack (countPositions sets c hash).2.2 := by
  unfold LedgerConsensus.countPositions
  generalize c.peerPositions.entries.map Sigma.snd = positions
  generalize hco : (0, 0, c) = counts
  have hst : VotesTrack counts.2.2 := by
    rw [← hco]
    exact h
  clear hco
  induction positions generalizing counts with
  | nil => exact hst
  | cons position positions ih => exact ih _ (hst.countPosition hash position)

theorem haveConsensus (h : VotesTrack c) (validations : ℕ) :
    VotesTrack (haveConsensus sets c validations).2 := by
  unfold LedgerConsensus.haveConsensus
  split
  · exact h
  case h_2 pos _ =>
    have hco : VotesTrack (LedgerConsensus.countPositions sets c pos.currentHash).2.2 :=
      h.countPositions pos.currentHash
    dsimp only
    split
    · exact hco
    · exact hco.congr rfl rfl rfl rfl
    · exact hco.congr rfl rfl rfl rfl

section
variable (h : VotesTrack c) (input : TimerInput TxID LedgerID)
include h

theorem stateEstablish : VotesTrack (stateEstablish sets c input).1 := by
  have hco : VotesTrack (LedgerConsensus.haveConsensus sets
      (LedgerConsensus.updateOurPositions sets c input.closeTime) input.nodesAfter).2 :=
    (h.updateOurPositions input.closeTime).haveConsensus input.nodesAfter
  unfold LedgerConsensus.stateEstablish
  dsimp only
  split_ifs
  · exact h
  · exact hco
  · exact hco
  · exact hco.congr rfl rfl rfl rfl

theorem statePreClose : VotesTrack (statePreClose sets c input) := by
  unfold LedgerConsensus.statePreClose
  split
  · refine takeInitialPosition ?_ _ _ _
    exact h.congr rfl rfl rfl rfl
  · exact h

theorem timerEntry : VotesTrack (timerEntry sets c input).1 := by
  have ht : VotesTrack (c.tick input.roundTime) := h.congr rfl rfl rfl rfl
  unfold LedgerConsensus.timerEntry
  dsimp only
  split
  case h_1 =>
    have hcl : VotesTrack (LedgerConsensus.statePreClose sets (c.tick input.roundTime) input) :=
      ht.statePreClose input
    split
    · exact hcl.stateEstablish input
    · exact hcl
  case h_2 => exact ht.stateEstablish input
  case h_3 => exact ht
  case h_4 => exact ht

end
end VotesTrack

/-! ### Runs -/

instance (c : LedgerConsensus NodeID TxID SetID LedgerID) (peerID : NodeID)
    (newPosition : Position SetID LedgerID) (getSet : Option (Finset TxID)) :
    Decidable (c.FetchedAlone peerID newPosition getSet) :=
  inferInstanceAs (Decidable (_ → _ → _))

def PositionAlone (c : LedgerConsensus NodeID TxID SetID LedgerID) :
    RoundEvent NodeID TxID SetID LedgerID → Prop
  | .peerPosition peerID newPosition getSet => c.FetchedAlone peerID newPosition getSet
  | _ => True

instance (c : LedgerConsensus NodeID TxID SetID LedgerID) :
    (e : RoundEvent NodeID TxID SetID LedgerID) → Decidable (c.PositionAlone e)
  | .peerPosition peerID newPosition getSet =>
    inferInstanceAs (Decidable (c.FetchedAlone peerID newPosition getSet))
  | .gotMap _ | .timerEntry _ | .switchLCL .. | .acquireLCL | .startRound .. | .stopProposing
  | .leaveConsensus _ | .acceptDone _ => .isTrue trivial

variable [DecidableEq LedgerID]

theorem VotesTrack.step (h : VotesTrack c) {e : RoundEvent NodeID TxID SetID LedgerID}
    (hal : c.PositionAlone e) : VotesTrack (c.step sets e).1 := by
  cases e with
  | peerPosition _ _ _ => exact h.peerPosition hal
  | gotMap map => exact h.mapCompleteInternal map
  | timerEntry input => exact h.timerEntry input
  | switchLCL _ now =>
    unfold LedgerConsensus.step switchLCL
    dsimp only
    split
    · exact h
    · exact of_empty rfl
  | acquireLCL =>
    unfold LedgerConsensus.step acquireLCL
    dsimp only
    split
    · exact h
    · exact h.congr rfl rfl rfl rfl
  | startRound _ _ _ _ _ _ _ =>
    unfold LedgerConsensus.step startRound
    dsimp only
    split
    · exact h
    · exact of_empty rfl
  | stopProposing => exact h.congr rfl rfl rfl rfl
  | leaveConsensus now => exact h.congr rfl rfl rfl rfl
  | acceptDone _ => exact h.congr rfl rfl rfl rfl

/-- Over the whole run, `peerPosition` acquires no set that another peer names. -/
abbrev AloneRun (sets : TxSets TxID SetID) (c : LedgerConsensus NodeID TxID SetID LedgerID)
    (events : List (RoundEvent NodeID TxID SetID LedgerID)) : Prop :=
  EachStep (fun c e => (c.step sets e).1) PositionAlone c events

/-- In every run from a new object in which `peerPosition` acquires no set that another peer names
already while there are disputes, the votes on every dispute are those that the acquired sets of the
peers and our set give, and the counters count them. -/
theorem dispute_votes_track (sets : TxSets TxID SetID) (prevLedgerHash : LedgerID)
    (previousLedger : ClosedLedger LedgerID) {events : List (RoundEvent NodeID TxID SetID LedgerID)}
    (halone : AloneRun sets { prevLedgerHash, previousLedger } events) :
    VotesTrack (run sets { prevLedgerHash, previousLedger } events) :=
  halone.invariant (fun _ _ h => h.step) (.of_empty rfl)

namespace Rounds

/-- A peer takes the position that has the code 5. -/
def atFive (peerID : ℕ) (getSet : Option (Finset ℕ)) : RoundEvent ℕ ℕ ℕ ℕ :=
  .peerPosition peerID ⟨1, 5, 120, 0, 119⟩ getSet

/-- The set `{0, 1}` makes 1 disputed. -/
def disputed : List (RoundEvent ℕ ℕ ℕ ℕ) := closed ++ [.gotMap {0, 1}]

end Rounds

open Rounds in
/-- Two peers take a position whose set is acquired after them. -/
theorem dispute_votes_track_sample :
    let c := run codes newObject (disputed ++ [atFive 7 none, atFive 8 none, .gotMap {0, 2}])
    (c.disputes.lookup 1).map (fun d => (d.votes.lookup 7, d.votes.lookup 8)) =
        some (some false, some false) ∧ VotesTrack c :=
  ⟨by decide, dispute_votes_track codes 0 ledger (by decide)⟩

open Rounds in
/-- The second of two peers with one position finds its set; the first one's vote is missing, and
completing the set does not add it. -/
theorem fetched_set_misses_vote :
    let c := run codes newObject
      (disputed ++ [atFive 7 none, atFive 8 (some {0, 2}), .gotMap {0, 2}])
    (c.peerPositions.lookup 7).map Position.currentHash = some 5 ∧ c.acquired 5 = some {0, 2} ∧
      (c.disputes.lookup 1).map (fun d => (d.votes.lookup 7, d.votes.lookup 8)) =
        some (none, some false) := by
  decide

end LedgerConsensus
end FinPal
