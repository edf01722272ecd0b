import FinPal.Verify.ListingCounts

/-!
# Quorums intersect

Nodes with the same lists rank the keys in their own random orders, leave out those not seen, and
may add their own. Every quorum still holds more than half of the listed keys
(`majority_of_quorum`).
-/

namespace FinPal
open Finset
namespace ValidatorList
variable {v : ValidatorList} {manifests : ManifestCache} {seenValidators : List PublicKey}
  {shuffle : List PublicKey → List PublicKey} {now : ℕ} {L : Finset PublicKey}

/-- The listed keys are those of `L`, and this node's own, which counts once if on no list. -/
structure Lists (v : ValidatorList) (L : Finset PublicKey) : Prop where
  listed : ∀ k ∈ L, k ∈ v.keyListings
  own : v.localPubKey ≠ [] → v.localPubKey ∉ L → v.keyListings.lookup v.localPubKey = some 1
  only : ∀ k ∈ v.keyListings, k ∈ L ∨ (k = v.localPubKey ∧ v.localPubKey ≠ [])

/-- A node whose own key is on none of the lists. -/
def Outside (v : ValidatorList) (L : Finset PublicKey) : Prop :=
  v.localPubKey ≠ [] ∧ v.localPubKey ∉ L

theorem Lists.keys_eq (h : v.Lists L) :
    v.keyListings.keys.toFinset = if v.localPubKey ≠ [] then insert v.localPubKey L else L := by
  ext k
  rw [List.mem_toFinset]
  split
  · next hl =>
    rw [mem_insert]
    constructor
    · intro hk
      exact (h.only k hk).symm.imp And.left id
    rintro (rfl | hk)
    · by_cases hL : v.localPubKey ∈ L
      · exact h.listed _ hL
      · exact AList.lookup_isSome.1 (by rw [h.own hl hL]; rfl)
    · exact h.listed k hk
  · next hl => exact ⟨fun hk => (h.only k hk).resolve_right fun h' => hl h'.2, h.listed k⟩

theorem length_keys (v : ValidatorList) :
    v.keyListings.keys.length = v.keyListings.keys.toFinset.card :=
  (List.toFinset_card_of_nodup v.keyListings.keys_nodup).symm

theorem Lists.length_outside (h : v.Lists L) (ho : v.Outside L) :
    v.keyListings.keys.length = L.card + 1 := by
  rw [length_keys, h.keys_eq, if_pos ho.1, card_insert_of_notMem ho.2]

theorem Lists.length_inside (h : v.Lists L) (hin : ¬ v.Outside L) :
    v.keyListings.keys.length = L.card := by
  rw [length_keys, h.keys_eq]
  split
  · next hl => rw [insert_eq_of_mem (not_not.1 fun hL => hin ⟨hl, hL⟩)]
  · rfl

/-! ### The ranked keys -/

theorem insertRanked_perm (e : ℕ × PublicKey) (ranked : List (ℕ × PublicKey)) :
    (insertRanked e ranked).Perm (e :: ranked) := by
  induction ranked with
  | nil => exact .refl _
  | cons a ranked ih =>
    unfold insertRanked
    split
    · exact .refl _
    · exact (ih.cons a).trans (.swap e a ranked)

def enterRanked (v : ValidatorList) (manifests : ManifestCache) (seenValidators : List PublicKey)
    (ranked : List (ℕ × PublicKey)) (k : PublicKey) : List (ℕ × PublicKey) :=
  match v.rank manifests seenValidators k with
  | some r => insertRanked (r, k) ranked
  | none => ranked

theorem rankedKeys_perm (hsh : ∀ l, (shuffle l).Perm l) :
    ((v.rankedKeys manifests seenValidators shuffle).map (·.2)).Perm
      (v.keyListings.keys.filter fun k => (v.rank manifests seenValidators k).isSome) := by
  have hfo (ks : List PublicKey) (ranked : List (ℕ × PublicKey)) : ((ks.foldl
        (v.enterRanked manifests seenValidators) ranked).map (·.2)).Perm
      (ks.filter (fun k => (v.rank manifests seenValidators k).isSome) ++ ranked.map (·.2)) := by
    induction ks generalizing ranked with
    | nil => exact .refl _
    | cons k ks ih =>
      rw [List.foldl_cons]
      refine (ih _).trans ?_
      unfold enterRanked
      cases hr : v.rank manifests seenValidators k with
      | none => rw [List.filter_cons_of_neg (by simp [hr])]
      | some r =>
        rw [List.filter_cons_of_pos (by simp [hr])]
        exact ((insertRanked_perm (r, k) ranked).map _).append_left _ |>.trans List.perm_middle
  unfold rankedKeys
  refine (hfo _ []).trans ?_
  rw [List.map_nil, List.append_nil]
  exact (hsh _).filter _

theorem trustedKeys_subset (hsh : ∀ l, (shuffle l).Perm l) :
    (v.onConsensusStart manifests seenValidators shuffle now).trustedKeys.toFinset ⊆
      (v.removeExpired now).keyListings.keys.toFinset := by
  intro k hk
  rw [List.mem_toFinset] at hk ⊢
  change k ∈ (List.take _ (rankedKeys _ manifests seenValidators shuffle).reverse).map (·.2) at hk
  rw [List.map_take, List.map_reverse] at hk
  have hra := List.mem_reverse.1 (List.mem_of_mem_take hk)
  exact (List.mem_filter.1 ((rankedKeys_perm hsh).mem_iff.1 hra)).1

theorem card_trustedKeys_le :
    (v.onConsensusStart manifests seenValidators shuffle now).trustedKeys.toFinset.card ≤
      ((v.removeExpired now).rankedKeys manifests seenValidators shuffle).length := by
  refine (List.toFinset_card_le _).trans ?_
  change ((List.take _ (List.reverse _)).map _).length ≤ _
  rw [List.length_map]
  exact (List.length_take_le' _ _).trans_eq (List.length_reverse ..)

/-! ### The quorum -/

/-- The quorum is never below half of the listed keys, and one more for a key that is on no list and
makes the number odd. -/
theorem le_quorumAndSize (v : ValidatorList) (ranked : ℕ) (localKeyListed : Bool) :
    v.keyListings.keys.length / 2 + 1 ≤ (v.quorumAndSize ranked localKeyListed).1 ∧
      (v.localPubKey ≠ [] → localKeyListed = false → 1 < ranked →
        v.keyListings.keys.length % 2 ≠ 0 →
        v.keyListings.keys.length / 2 + 2 ≤ (v.quorumAndSize ranked localKeyListed).1) := by
  have hle (q) : q ≤ (if ranked < 10 ∨ v.publisherLists.keys.length = 1 then
      (max q (calculateQuorum ranked), ranked) else (q, q * 5 / 4)).1 := by
    split
    · exact le_max_left _ _
    · exact le_rfl
  unfold quorumAndSize
  refine ⟨le_trans ?_ (hle _), fun hl hli hra ho => ?_⟩
  · split <;> omega
  · refine le_trans ?_ (hle _)
    rw [if_pos ⟨hl, by simp [hli], hra, ho⟩]

theorem majority_of_quorum (hlis : (v.removeExpired now).Lists L) (hL : L.Nonempty)
    (hsi : (v.removeExpired now).keyListings.keys.length < 2 ^ 64)
    (hm : v.minimumQuorum = none) (hsh : ∀ l, (shuffle l).Perm l) {S : Finset PublicKey}
    (hS : S ⊆ (v.onConsensusStart manifests seenValidators shuffle now).trustedKeys.toFinset)
    (hca : S.card = (v.onConsensusStart manifests seenValidators shuffle now).quorum) :
    L.card < 2 * (S ∩ L).card := by
  have hs := hS.trans (trustedKeys_subset hsh)
  have hra := (card_le_card hS).trans card_trustedKeys_le
  generalize hw : v.removeExpired now = w at *
  generalize hr : (w.rankedKeys manifests seenValidators shuffle).length = ranked at *
  obtain ⟨listed, hli⟩ : ∃ b,
      b = (!manifests.revoked w.localPubKey ∧ 1 < (w.keyListings.lookup w.localPubKey).getD 0 : Bool)
      := ⟨_, rfl⟩
  have hqu : S.card = (w.quorumAndSize ranked listed).1 ∨ S.card = 2 ^ 64 - 1 := by
    have hm' : w.minimumQuorum = none := by
      rw [← hw, removeExpired_eq]
      exact hm
    rw [hca, onConsensusStart]
    rw [hw, hr, ← hli, hm']
    dsimp only
    split
    · exact .inr rfl
    · exact .inl rfl
  have hpos := hL.card_pos
  obtain ⟨hle, hle'⟩ := w.le_quorumAndSize ranked listed
  by_cases ho : w.Outside L
  · -- the key of this node may be in the quorum
    have hin : S.card ≤ (S ∩ L).card + 1 := by
      have hs' : S ⊆ insert w.localPubKey (S ∩ L) := by
        intro k hk
        have hk' := hs hk
        rw [hlis.keys_eq, if_pos ho.1] at hk'
        rcases mem_insert.1 hk' with rfl | hkL
        · exact mem_insert_self _ _
        · exact mem_insert_of_mem (mem_inter.2 ⟨hk, hkL⟩)
      exact (card_le_card hs').trans (card_insert_le _ _)
    have hn : listed = false := by
      rw [hli, hlis.own ho.1 ho.2]
      simp
    rw [hlis.length_outside ho] at hle hle' hsi
    have hodd := hle' ho.1 hn
    omega
  have hin : S ∩ L = S := by
    refine inter_eq_left.2 fun k hk => ?_
    have hk' := hs hk
    rw [hlis.keys_eq] at hk'
    split at hk'
    · next hl =>
      have hlL : w.localPubKey ∈ L := not_not.1 fun h => ho ⟨hl, h⟩
      rwa [insert_eq_of_mem hlL] at hk'
    · exact hk'
  rw [hin]
  rw [hlis.length_inside ho] at hle hsi
  omega

/-! ### The minimum quorum -/

theorem load_minimumQuorum (manifests : ManifestCache) (localSigningKey : PublicKey)
    (configKeys publisherKeys : List (Option PublicKey)) (v : ValidatorList) :
    (load manifests localSigningKey configKeys publisherKeys v).2.minimumQuorum =
      v.minimumQuorum := by
  have hpub (ids) (v : ValidatorList) :
      (v.loadPublishers manifests ids).2.minimumQuorum = v.minimumQuorum := by
    fun_induction loadPublishers manifests ids v <;> simp_all
  have hkeys (ids) (v : ValidatorList) :
      (v.loadKeys localSigningKey ids).2.minimumQuorum = v.minimumQuorum := by
    fun_induction loadKeys localSigningKey ids v <;> simp_all [listConfigured]
  have hp := hpub publisherKeys v
  unfold load
  split
  · next heq => rwa [heq] at hp
  · next heq =>
    rw [heq] at hp
    rw [hkeys]
    exact hp

end ValidatorList

open ValidatorList
namespace ListHistory

theorem step_minimumQuorum (check : Manifest → Bool) (h : ListHistory) (e : ListEvent) :
    (h.step check e).lists.minimumQuorum = h.lists.minimumQuorum := by
  cases e with
  | applyList r now =>
    change (h.lists.applyList check r now).2.minimumQuorum = _
    have ha := @applied_applyList check h.lists r now
    generalize h.lists.applyList check r now = d at ha
    cases d
    cases ha with
    | refused => rfl
    | revoked =>
      dsimp only
      rw [removePublisherList_eq]
    | published => rfl
  | onConsensusStart =>
    change (h.lists.onConsensusStart ..).minimumQuorum = _
    rw [ValidatorList.onConsensusStart, removeExpired_eq]

theorem run_minimumQuorum (check : Manifest → Bool) (h : ListHistory) (events : List ListEvent) :
    (h.run check events).lists.minimumQuorum = h.lists.minimumQuorum := by
  induction events generalizing h with
  | nil => rfl
  | cons e events ih => exact (ih _).trans (h.step_minimumQuorum check e)

/-- The keys of `L` are those of the configured list and of the publishers' current lists. The
node's own key, which is listed anyway, may be one of them. -/
def Uses (h : ListHistory) (config : List PublicKey) (L : Finset PublicKey) : Prop :=
  ∀ k, (h.listedTimes config k ≠ 0 → k ∈ L) ∧
    (k ∈ L → h.listedTimes config k ≠ 0 ∨ (h.lists.localPubKey ≠ [] ∧ k = h.lists.localPubKey))

/-- In a history that counts right, the listed keys are those of the configuration and the current
lists. -/
theorem Counted.lists {h : ListHistory} {l : PublicKey} {config : List PublicKey}
    (hc : h.Counted l config) {L : Finset PublicKey} (hL : h.Uses config L) : h.lists.Lists L := by
  have hti (k) :
      h.occurrences k = (if l ≠ [] ∧ k = l then 1 else 0) + h.listedTimes config k := by
    rw [← hc.listedTimes k, ListHistory.listedTimes, ListHistory.listedTimes, List.count_append,
      add_assoc]
    by_cases hl : l = [] <;> by_cases hk : k = l <;> simp_all [eq_comm]
  have hm (k) : k ∈ h.lists.keyListings ↔ h.occurrences k ≠ 0 := by
    rw [← AList.lookup_isSome, ← not_iff_not, Option.not_isSome_iff_eq_none, not_not]
    exact hc.tallies.lookup_eq_none
  refine ⟨fun k hk => ?_, fun hl hk => ?_, fun k hk => ?_⟩
  · have hk' := (hL k).2 hk
    rw [hc.localPubKey] at hk'
    rw [hm, hti]
    rcases hk' with hk' | hk'
    · omega
    · rw [if_pos hk']
      omega
  · rw [hc.localPubKey] at hl hk ⊢
    have hze : h.listedTimes config l = 0 := not_not.1 fun h => hk ((hL l).1 h)
    have hone : h.occurrences l = 1 := by rw [hti, if_pos ⟨hl, rfl⟩, hze]
    rw [hc.tallies l, hone]
    rfl
  rw [hm, hti] at hk
  by_cases ho : l ≠ [] ∧ k = l
  · rw [hc.localPubKey]
    exact .inr ⟨ho.2, ho.1⟩
  · rw [if_neg ho, zero_add] at hk
    exact .inl ((hL k).1 hk)

end ListHistory

open ListHistory

/-- A node at the start of a round: its configuration, without a minimum quorum, and its history of
published lists and rounds up to this one, in which no event comes back to an expired list. -/
structure RoundStart where
  manifests : ManifestCache
  publisherManifests : ManifestCache
  localSigningKey : PublicKey
  configKeys : List (Option PublicKey)
  publisherKeys : List (Option PublicKey)
  loaded : ValidatorList
  load_eq : load manifests localSigningKey configKeys publisherKeys (.new publisherManifests none) =
    (true, loaded)
  check : Manifest → Bool
  events : List ListEvent
  validatorManifests : ManifestCache
  seenValidators : List PublicKey
  shuffle : List PublicKey → List PublicKey
  now : ℕ
  clean : CleanRun check ⟨loaded, []⟩
    (events ++ [.onConsensusStart validatorManifests seenValidators shuffle now])
  shuffle_perm : ∀ l, (shuffle l).Perm l

namespace RoundStart
variable (n : RoundStart)

/-- The configured keys as listed. -/
def config : List PublicKey :=
  configured (n.manifests.getMasterKey n.localSigningKey) n.localSigningKey n.configKeys.reduceOption

def before : ListHistory := run n.check ⟨n.loaded, []⟩ n.events

/-- The history with the round. -/
def history : ListHistory :=
  run n.check ⟨n.loaded, []⟩
    (n.events ++ [.onConsensusStart n.validatorManifests n.seenValidators n.shuffle n.now])

theorem history_lists : n.history.lists =
    n.before.lists.onConsensusStart n.validatorManifests n.seenValidators n.shuffle n.now := by
  rw [history, before, run, run, List.foldl_append]
  rfl

/-- A quorum is more than half of the keys on the lists. -/
theorem majority {L S : Finset PublicKey} (hL : L.Nonempty) (hu : n.history.Uses n.config L)
    (hsize : n.history.lists.keyListings.keys.length < 2 ^ 64)
    (hS : S ⊆ n.history.lists.trustedKeys.toFinset) (hcard : S.card = n.history.lists.quorum) :
    L.card < 2 * (S ∩ L).card := by
  have hlis := ((counted_load n.load_eq).run n.clean).lists hu
  change n.history.lists.Lists L at hlis
  rw [n.history_lists] at hlis hsize hS hcard
  have hmin : n.before.lists.minimumQuorum = none := by
    rw [before, run_minimumQuorum]
    have := load_minimumQuorum n.manifests n.localSigningKey n.configKeys n.publisherKeys
      (.new n.publisherManifests none)
    rwa [n.load_eq] at this
  exact majority_of_quorum ⟨hlis.listed, hlis.own, hlis.only⟩ hL hsize hmin n.shuffle_perm hS hcard

end RoundStart

/-- Two nodes with clean histories use lists of the same keys. Whatever validators each has seen,
whatever keys are revoked and however they are ranked, their quorums have a listed key in common.
(The number of listed keys is a `std::size_t`.) -/
theorem quorum_intersection {L : Finset PublicKey} (hL : L.Nonempty) (n₁ n₂ : RoundStart)
    (huses₁ : n₁.history.Uses n₁.config L) (huses₂ : n₂.history.Uses n₂.config L)
    (hsize₁ : n₁.history.lists.keyListings.keys.length < 2 ^ 64)
    (hsize₂ : n₂.history.lists.keyListings.keys.length < 2 ^ 64) {S₁ S₂ : Finset PublicKey}
    (hS₁ : S₁ ⊆ n₁.history.lists.trustedKeys.toFinset)
    (hcard₁ : S₁.card = n₁.history.lists.quorum)
    (hS₂ : S₂ ⊆ n₂.history.lists.trustedKeys.toFinset)
    (hcard₂ : S₂.card = n₂.history.lists.quorum) :
    ∃ k ∈ L, k ∈ S₁ ∧ k ∈ S₂ := by
  have h1 := n₁.majority hL huses₁ hsize₁ hS₁ hcard₁
  have h2 := n₂.majority hL huses₂ hsize₂ hS₂ hcard₂
  obtain ⟨k, hk⟩ : ((S₁ ∩ L) ∩ (S₂ ∩ L)).Nonempty :=
    inter_nonempty_of_card_lt_card_add_card inter_subset_right
      inter_subset_right (by omega)
  obtain ⟨hk1, hk2⟩ := mem_inter.1 hk
  exact ⟨k, mem_of_mem_inter_right hk1, mem_of_mem_inter_left hk1,
    mem_of_mem_inter_left hk2⟩

namespace Sample

/-- A node with a key of its own and the publishers 7 and 8. -/
def subscribed (own : PublicKey) : ValidatorList :=
  (load {} own [] [some [7], some [8]] (.new {} none)).2

/-- Both publishers list the keys 2 and 3; the first one's list expires at the time 10. -/
def sharedLists : List ListEvent :=
  [publishedBy 7 10 [[2], [3]], publishedBy 8 100 [[2], [3]]]

def shared : Finset PublicKey := {[2], [3]}

/-- The first round after the list of publisher 7 has expired. -/
def firstRound (own : PublicKey)
    (clean : CleanRun (fun _ => true) ⟨subscribed own, []⟩ (sharedLists ++ [startedAt 20]))
    (load_eq : load {} own [] [some [7], some [8]] (.new {} none) = (true, subscribed own)) :
    RoundStart where
  manifests := {}
  publisherManifests := {}
  localSigningKey := own
  configKeys := []
  publisherKeys := [some [7], some [8]]
  loaded := subscribed own
  load_eq := load_eq
  check _ := true
  events := sharedLists
  validatorManifests := {}
  seenValidators := []
  shuffle := id
  now := 20
  clean := clean
  shuffle_perm _ := .refl _

theorem uses_shared {n : RoundStart} (hconfig : n.config = []) (hfound : n.history.found = [[7]])
    (hlists : n.history.lists.publisherLists.entries.map (fun e => (e.1, e.2.list)) =
      [([8], [[2], [3]]), ([7], [[2], [3]])]) : n.history.Uses n.config shared := by
  intro k
  have hk : n.history.listedTimes n.config k = ([[2], [3]] : List PublicKey).count k := by
    have hsum := congrArg (fun l => (l.map fun e : PublicKey × List PublicKey =>
      if e.1 = localList ∨ e.1 ∈ n.history.found then 0 else e.2.count k).sum) hlists
    rw [List.map_map] at hsum
    rw [listedTimes, hconfig]
    refine (zero_add _).trans (hsum.trans ?_)
    simp [hfound, localList]
  rw [hk, ne_eq, List.count_eq_zero, not_not]
  have hm : k ∈ ([[2], [3]] : List PublicKey) ↔ k ∈ shared := by simp [shared]
  exact ⟨hm.1, fun h => .inl (hm.2 h)⟩

def nodeOne : RoundStart := firstRound [1] (by decide) rfl

def nodeFour : RoundStart := firstRound [4] (by decide) rfl

end Sample

open Sample in
/-- In the first round a quorum of each node is all of its three keys. -/
theorem quorum_intersection_sample :
    nodeOne.history.lists.quorum = 3 ∧ nodeFour.history.lists.quorum = 3 ∧
      ∃ k ∈ shared, k ∈ ({[1], [2], [3]} : Finset PublicKey) ∧
        k ∈ ({[4], [2], [3]} : Finset PublicKey) := by
  have hq1 : nodeOne.history.lists.quorum = 3 := by decide
  have hq2 : nodeFour.history.lists.quorum = 3 := by decide
  have hS1 : {[1], [2], [3]} ⊆ nodeOne.history.lists.trustedKeys.toFinset := by decide
  have hS2 : {[4], [2], [3]} ⊆ nodeFour.history.lists.trustedKeys.toFinset := by decide
  refine ⟨hq1, hq2, ?_⟩
  exact quorum_intersection (by decide) nodeOne nodeFour (uses_shared rfl (by decide) rfl)
    (uses_shared rfl (by decide) rfl) (by decide) (by decide) hS1 (hq1 ▸ by decide) hS2 (hq2 ▸ by decide)

open Sample in
/-- In the second round after the expiry the keys 2 and 3 are listed no more, though publisher 8
lists them still. Each node is left with its own key, which is a quorum. -/
theorem quorums_disjoint :
    let h₁ := run (fun _ => true) ⟨subscribed [1], []⟩ (sharedLists ++ [startedAt 20, startedAt 30])
    let h₂ := run (fun _ => true) ⟨subscribed [4], []⟩ (sharedLists ++ [startedAt 20, startedAt 30])
    (h₁.lists.publisher [8]).list = [[2], [3]] ∧ (h₂.lists.publisher [8]).list = [[2], [3]] ∧
      (h₁.lists.publisher [8]).expiration = 100 ∧ (h₂.lists.publisher [8]).expiration = 100 ∧
      h₁.lists.trustedKeys = [[1]] ∧ h₁.lists.quorum = 1 ∧
      h₂.lists.trustedKeys = [[4]] ∧ h₂.lists.quorum = 1 := by
  decide

end FinPal
