import FinPal.Lib.Tally
import FinPal.Misc.ValidatorList

/-!
# The listings of validators
-/

namespace FinPal
open ValidatorList ValidatorList KeyListings PublisherList

/-! ## One counter -/

namespace KeyListings
variable {l : KeyListings} {n : PublicKey → ℕ} {old : List PublicKey}

section
variable (h : Tallies l n)

include h

theorem tallies_increment (k : PublicKey) :
    Tallies (l.increment k) (Function.update n k (n k + 1)) := by
  unfold increment
  rw [h.lookup_getD]
  exact h.insert (Nat.succ_ne_zero _)

theorem tallies_decrement {k : PublicKey} (hk : n k ≠ 0) :
    Tallies (l.decrement k) (Function.update n k (n k - 1)) := by
  unfold decrement
  rw [h.lookup_getD]
  match hn : n k with
  | 0 => exact absurd hn hk
  | 1 => exact h.erase
  | m + 2 => exact h.insert (Nat.succ_ne_zero m)

theorem tallies_unlist (k : PublicKey) : Tallies (l.unlist k) (Function.update n k (n k - 1)) := by
  unfold unlist
  rw [h k]
  by_cases h0 : n k = 0
  · simpa [h0] using h.congr fun k' => by simp [Function.update_apply]; rintro rfl; exact h0.symm
  rw [if_neg h0]
  dsimp only
  split
  next h1 =>
    obtain hk : n k - 1 = 0 := by omega
    exact hk ▸ h.erase
  next h1 => exact h.insert (by omega)

theorem tallies_foldl_unlist (ks : List PublicKey) :
    Tallies (ks.foldl unlist l) fun k => n k - ks.count k := by
  induction ks generalizing l n with
  | nil => simpa using h
  | cons a ks ih => exact (ih (tallies_unlist h a)).congr fun k => (update_sub_count n a ks k).symm

end

/-! ## The merge of two lists -/

theorem ne_zero_of_count {o : PublicKey} (h : (o :: old).count o ≤ n o) : n o ≠ 0 := by
  rw [List.count_cons_self] at h
  omega

theorem tallies_foldl_decrement (h : Tallies l n) (hold : ∀ k, old.count k ≤ n k) :
    Tallies (old.foldl decrement l) fun k => n k - old.count k := by
  induction old generalizing l n with
  | nil => simpa using h
  | cons o old ih =>
    have ho := tallies_decrement h (ne_zero_of_count (hold o))
    refine (ih ho fun k => count_le_update (hold k)).congr fun k => ?_
    rw [update_sub_count]

/-- What the merge of `new` and `old` makes of the listings. -/
def Merges (new : List PublicKey) (f : List PublicKey → KeyListings → KeyListings) : Prop :=
  ∀ old l n, Tallies l n → (∀ k, old.count k ≤ n k) →
    Tallies (f old l) fun k => n k - old.count k + new.count k

section
variable {new : List PublicKey} {f : List PublicKey → KeyListings → KeyListings} (hf : Merges new f)
  (a : PublicKey)

include hf

theorem Merges.increment (h : Tallies l n) (hold : ∀ k, old.count k ≤ n k) :
    Tallies (f old (l.increment a)) fun k => n k - old.count k + (a :: new).count k := by
  have hle (k) : n k ≤ Function.update n a (n a + 1) k := by
    rw [Function.update_apply]
    split
    next e => exact e ▸ Nat.le_succ _
    next => exact le_rfl
  refine (hf old _ _ (tallies_increment h a) fun k => (hold k).trans (hle k)).congr fun k => ?_
  have hco := update_add_count n a new k
  have := hold k
  have := hle k
  omega

theorem Merges.cons : Merges (a :: new) (mergeKey a f) := by
  intro old
  induction old with
  | nil => exact fun l n h hold => hf.increment a h hold
  | cons o old ih =>
    intro l n h hold
    unfold mergeKey
    split_ifs with h1 h2
    · exact hf.increment a h hold
    · have ho := tallies_decrement h (ne_zero_of_count (hold o))
      refine (ih _ _ ho fun k => count_le_update (hold k)).congr fun k => ?_
      rw [update_sub_count]
    -- a key of both lists is left alone
    obtain rfl : a = o := List.le_antisymm (List.not_lt.1 h2) (List.not_lt.1 h1)
    have hco (k) := hold k
    simp only [List.count_cons] at hco
    refine (hf old l n h fun k => (Nat.le_add_right _ _).trans (hco k)).congr fun k => ?_
    have := hco k
    simp only [List.count_cons]
    omega

end

theorem merges_merge (new : List PublicKey) : Merges new (merge new) := by
  induction new with
  | nil =>
    intro _ l n h hold
    simpa [merge] using tallies_foldl_decrement h hold
  | cons a new ih => exact ih.cons a

end KeyListings

/-! ## What the operations change -/

namespace ValidatorList
variable {v : ValidatorList} {check : Manifest → Bool}

theorem removePublisherList_eq (v : ValidatorList) (p : PublicKey) : (v.removePublisherList p).2 =
      { v with keyListings := (v.publisher p).list.foldl unlist v.keyListings } := by
  unfold removePublisherList publisher
  cases v.publisherLists.lookup p with
  | none => rfl
  | some _ => rfl

theorem removeExpired_eq (v : ValidatorList) (now : ℕ) : v.removeExpired now = { v with
        keyListings := v.publisherLists.entries.foldl
          (fun l p => if p.2.expired now then p.2.list.foldl unlist l else l)
          v.keyListings } := by
  suffices h : ∀ (es : List ((_ : PublicKey) × PublisherList)) (l : KeyListings),
      (∀ e ∈ es, v.publisherLists.lookup e.1 = some e.2) →
      es.foldl (fun v p => if p.2.expired now then (v.removePublisherList p.1).2 else v)
        { v with keyListings := l } =
      { v with
        keyListings := es.foldl
          (fun l p => if p.2.expired now then p.2.list.foldl unlist l else l) l } from
    h _ v.keyListings fun e he => AList.mem_lookup_iff.2 he
  intro es
  induction es with
  | nil => exact fun l _ => rfl
  | cons e es ih =>
    intro l hes
    rw [List.foldl_cons, List.foldl_cons, ← ih _ fun e' he' => hes e' (.tail _ he')]
    congr 1
    split
    · rw [removePublisherList_eq]
      simp [publisher, hes e (.head _)]
    · rfl

/-- A request is accepted, ends the trust in its publisher, or changes no list. -/
inductive Applied (v : ValidatorList) (r : ListRequest) :
    ListDisposition → ValidatorList → Prop where
  | refused {d : ListDisposition} (manifests : ManifestCache) (hd : d ≠ .accepted) :
    Applied v r d { v with publisherManifests := manifests }
  | revoked {d : ListDisposition} (manifests : ManifestCache) (hd : d ≠ .accepted) {m : Manifest}
    (hm : r.manifest = some m) :
    Applied v r d ({ v with publisherManifests := manifests }.revokePublisher m.masterKey)
  | published (manifests : ManifestCache) {m : Manifest} (hm : r.manifest = some m)
    (list : PublishedList) :
    Applied v r .accepted ({ v with publisherManifests := manifests }.publish m.masterKey list)

theorem verifyList_ne_accepted {r : ListRequest} {p : PublicKey} {now : ℕ} {d : ListDisposition}
    (h : v.verifyList r p now = .error d) : d ≠ .accepted := by
  unfold verifyList at h
  split_ifs at h
  · cases h
    nofun
  split at h
  · cases h
    nofun
  split_ifs at h
  cases h
  nofun

theorem verifyList_ok {r : ListRequest} {p q : PublicKey} {now : ℕ} {list : PublishedList}
    (h : v.verifyList r p now = .ok (q, list)) : q = p := by
  unfold verifyList at h
  split_ifs at h
  split at h
  · cases h
  split_ifs at h
  cases h
  rfl

theorem applied_applyList (v : ValidatorList) (r : ListRequest) (now : ℕ) :
    Applied v r (v.applyList check r now).1 (v.applyList check r now).2 := by
  unfold applyList verify
  split
  · exact .refused v.publisherManifests nofun
  cases hm : r.manifest with
  | none => exact .refused v.publisherManifests nofun
  | some m =>
    dsimp only
    split_ifs
    · exact .refused v.publisherManifests nofun
    · exact .revoked (d := .untrusted) _ nofun hm
    · exact .refused _ nofun
    · exact .refused _ nofun
    cases hli : verifyList { v with
        publisherManifests := (v.publisherManifests.applyManifest check m).2 } r m.masterKey
        now with
    | error d => exact .refused _ (verifyList_ne_accepted hli)
    | ok q =>
      obtain ⟨q, list⟩ := q
      obtain rfl := verifyList_ok hli
      exact .published _ hm list

end ValidatorList

/-! ## Histories -/

/-- The calls that change the listings. -/
inductive ListEvent where
  | applyList (r : ListRequest) (now : ℕ)
  | onConsensusStart (manifests : ManifestCache) (seenValidators : List PublicKey)
    (shuffle : List PublicKey → List PublicKey) (now : ℕ)

/-- The lists, and the publishers whose current lists were found expired. -/
structure ListHistory where
  lists : ValidatorList
  found : List PublicKey := []

namespace ListHistory
variable {h : ListHistory} {check : Manifest → Bool}

def step (check : Manifest → Bool) (h : ListHistory) : ListEvent → ListHistory
  | .applyList r now =>
    { lists := (h.lists.applyList check r now).2
      found :=
        if (h.lists.applyList check r now).1 = .accepted then
          h.found.filter fun p => some p ≠ r.manifest.map (·.masterKey)
        else h.found }
  | .onConsensusStart manifests seen shuffle now =>
    { lists := h.lists.onConsensusStart manifests seen shuffle now
      found := h.found ++ (h.lists.publisherLists.entries.filter (·.2.expired now)).map (·.1) }

/-- The occurrences of a key: the local key, the configured list and the lists of publishers that
were not found expired. -/
def occurrences (h : ListHistory) (k : PublicKey) : ℕ :=
  (if h.lists.localPubKey ≠ [] ∧ k = h.lists.localPubKey then 1 else 0) +
    entrySum (fun p pl => if p ∈ h.found then 0 else pl.list.count k) h.lists.publisherLists

theorem occurrences_congr {h' : ListHistory} (hlo : h'.lists.localPubKey = h.lists.localPubKey)
    (hli : h'.lists.publisherLists = h.lists.publisherLists) (hfo : h'.found = h.found)
    {k : PublicKey} : h'.occurrences k = h.occurrences k := by
  unfold occurrences
  rw [hlo, hli, hfo]

/-- The listings hold the numbers of occurrences. The configured list is `config`, and it does not
expire. -/
structure Counted (localPubKey : PublicKey) (config : List PublicKey) (h : ListHistory) : Prop where
  tallies : Tallies h.lists.keyListings h.occurrences
  localPubKey : h.lists.localPubKey = localPubKey
  configList : (h.lists.publisher localList).list = config
  lasting : (h.lists.publisher localList).expiration = 0
  kept : localList ∉ h.found

/-- The event does not come back to a list found expired, unless none of its keys is listed any
more, or it was empty and may be replaced. -/
def Clean (h : ListHistory) : ListEvent → Prop
  | .applyList r _ =>
    ∀ m ∈ r.manifest, m.masterKey ∈ h.found → (h.lists.publisher m.masterKey).list = []
  | .onConsensusStart _ _ _ _ =>
    ∀ p ∈ h.found, ∀ k ∈ (h.lists.publisher p).list, h.lists.keyListings.lookup k = none

instance (h : ListHistory) : (e : ListEvent) → Decidable (h.Clean e)
  | .applyList r _ => inferInstanceAs (Decidable (∀ m ∈ r.manifest, m.masterKey ∈ h.found →
      (h.lists.publisher m.masterKey).list = []))
  | .onConsensusStart _ _ _ _ => inferInstanceAs (Decidable (∀ p ∈ h.found,
      ∀ k ∈ (h.lists.publisher p).list, h.lists.keyListings.lookup k = none))

variable {l : PublicKey} {config : List PublicKey}

/-! ### The start of a round -/

/-- The occurrences of a key on lists that have expired. -/
def expiredOccurrences (v : ValidatorList) (now : ℕ) (k : PublicKey) : ℕ :=
  entrySum (fun _ pl => if pl.expired now then pl.list.count k else 0) v.publisherLists

variable {v : ValidatorList} {p localSigningKey : PublicKey} {now : ℕ} {manifests : ManifestCache}

theorem tallies_removeExpired {n : PublicKey → ℕ} (h : Tallies v.keyListings n) (now : ℕ) :
    Tallies (v.removeExpired now).keyListings fun k => n k - expiredOccurrences v now k := by
  rw [removeExpired_eq]
  dsimp only [expiredOccurrences, entrySum]
  generalize v.publisherLists.entries = es
  generalize v.keyListings = ls at h ⊢
  induction es generalizing ls n with
  | nil => simpa using h
  | cons e es ih =>
    simp only [List.foldl_cons, List.map_cons, List.sum_cons, ← Nat.sub_sub]
    split
    · exact ih _ (tallies_foldl_unlist h _)
    · simpa using ih _ h

theorem mem_found_step {pl : PublisherList} (hp : h.lists.publisherLists.lookup p = some pl) :
    p ∈ h.found ++ (h.lists.publisherLists.entries.filter (·.2.expired now)).map (·.1) ↔
      p ∈ h.found ∨ pl.expired now = true := by
  simp only [List.mem_append, List.mem_map, List.mem_filter]
  refine or_congr Iff.rfl ⟨?_, fun he => ⟨⟨p, pl⟩, ⟨AList.mem_lookup_iff.1 hp, he⟩, rfl⟩⟩
  rintro ⟨⟨q, ql⟩, ⟨hq, he⟩, rfl⟩
  obtain rfl : ql = pl := Option.some.inj ((AList.mem_lookup_iff.2 hq).symm.trans hp)
  exact he

/-- What a key keeps when the expired lists go: its occurrences on lists not found expired. -/
theorem occurrences_sub_expired (k : PublicKey) (now : ℕ) {found' : List PublicKey}
    (hfo : ∀ p pl, h.lists.publisherLists.lookup p = some pl →
      (p ∈ found' ↔ p ∈ h.found ∨ pl.expired now = true))
    (hcl : h.occurrences k ≠ 0 → ∀ p ∈ h.found, k ∉ (h.lists.publisher p).list) :
    h.occurrences k - expiredOccurrences h.lists now k =
      occurrences { h with found := found' } k := by
  -- expired lists are those found now and those found before
  let fresh := entrySum (fun p pl => if p ∉ h.found ∧ pl.expired now = true then pl.list.count k
    else 0) h.lists.publisherLists
  let again := entrySum (fun p pl => if p ∈ h.found ∧ pl.expired now = true then pl.list.count k
    else 0) h.lists.publisherLists
  have hex : expiredOccurrences h.lists now k = fresh + again := by
    rw [← entrySum_add]
    refine entrySum_congr _ fun p pl _ => ?_
    by_cases hp : p ∈ h.found <;> simp [hp]
  have hocc : h.occurrences k = occurrences { h with found := found' } k + fresh := by
    unfold occurrences
    rw [Nat.add_assoc, ← entrySum_add]
    congr 1
    refine entrySum_congr _ fun p pl hpl => ?_
    by_cases hp : p ∈ h.found
    · simp [hp, (hfo p pl hpl).2 (.inl hp)]
    cases he : pl.expired now with
    | true => simp [(hfo p pl hpl).2 (.inr he)]
    | false =>
      have hp' : p ∉ found' := fun hm => by simpa [hp, he] using (hfo p pl hpl).1 hm
      simp [hp, hp']
  have hag : h.occurrences k ≠ 0 → again = 0 := fun hne => by
    refine entrySum_eq_zero _ fun p pl hpl => ?_
    split
    next hp =>
      have := hcl hne p hp.1
      rw [publisher, hpl] at this
      exact List.count_eq_zero.2 this
    next => rfl
  by_cases hne : h.occurrences k = 0
  · omega
  · have := hag hne
    omega

theorem Counted.onConsensusStart (hc : h.Counted l config) {seen : List PublicKey}
    {shuffle : List PublicKey → List PublicKey}
    (hcl : h.Clean (.onConsensusStart manifests seen shuffle now)) :
    (h.step check (.onConsensusStart manifests seen shuffle now)).Counted l config := by
  have hli : (h.lists.onConsensusStart manifests seen shuffle now).publisherLists =
      h.lists.publisherLists := by
    simp [ValidatorList.onConsensusStart, removeExpired_eq]
  have hlo : (h.lists.onConsensusStart manifests seen shuffle now).localPubKey =
      h.lists.localPubKey := by
    simp [ValidatorList.onConsensusStart, removeExpired_eq]
  have hpu (p) :
      (h.lists.onConsensusStart manifests seen shuffle now).publisher p = h.lists.publisher p := by
    rw [publisher, hli, publisher]
  refine ⟨?_, hlo.trans hc.localPubKey, ?_, ?_, ?_⟩
  · refine (tallies_removeExpired hc.tallies now).congr fun k => ?_
    rw [occurrences_sub_expired k now (fun p pl hpl => mem_found_step hpl)
      fun hne p hp hk => hne (hc.tallies.lookup_eq_none.1 (hcl p hp k hk))]
    apply occurrences_congr
    · exact hlo
    · exact hli
    · rfl
  · rw [← hc.configList]
    exact congrArg list (hpu localList)
  · rw [← hc.lasting]
    exact congrArg expiration (hpu localList)
  intro hm
  obtain hm | hm := List.mem_append.1 hm
  · exact hc.kept hm
  obtain ⟨⟨p, pl⟩, he, hp⟩ := List.mem_map.1 hm
  obtain ⟨hen, hexp⟩ := List.mem_filter.1 he
  have hla := hc.lasting
  rw [publisher, ← hp, AList.mem_lookup_iff.2 hen] at hla
  have hla : pl.expiration = 0 := hla
  simp [expired, hla] at hexp

/-! ### A published list -/

/-- The occurrences of a key beside the list of one publisher. -/
def elsewhere (h : ListHistory) (p k : PublicKey) : ℕ :=
  (if h.lists.localPubKey ≠ [] ∧ k = h.lists.localPubKey then 1 else 0) +
    entrySum (fun p pl => if p ∈ h.found then 0 else pl.list.count k) (h.lists.publisherLists.erase p)

theorem occurrences_eq (hcl : p ∈ h.found → (h.lists.publisher p).list = []) (k : PublicKey) :
    h.occurrences k = h.elsewhere p k + (h.lists.publisher p).list.count k := by
  have hown : (h.lists.publisherLists.lookup p).elim 0
      (fun pl => if p ∈ h.found then 0 else pl.list.count k) =
      (h.lists.publisher p).list.count k := by
    unfold publisher at hcl ⊢
    cases hpl : h.lists.publisherLists.lookup p with
    | none => rfl
    | some pl =>
      rw [hpl] at hcl
      simp only [Option.elim_some, Option.getD_some] at hcl ⊢
      split
      next hp => rw [hcl hp, List.count_nil]
      next => rfl
  unfold occurrences elsewhere
  rw [entrySum_erase _ _ p]
  omega

theorem occurrences_erase (hlo : v.localPubKey = h.lists.localPubKey)
    (hli : v.publisherLists = h.lists.publisherLists.erase p) (k : PublicKey) :
    occurrences ⟨v, h.found⟩ k = h.elsewhere p k := by
  unfold occurrences elsewhere
  rw [hlo, hli]

theorem occurrences_insert {pl : PublisherList} (hlo : v.localPubKey = h.lists.localPubKey)
    (hli : v.publisherLists = h.lists.publisherLists.insert p pl) (k : PublicKey) :
    occurrences ⟨v, h.found.filter (· ≠ p)⟩ k = h.elsewhere p k + pl.list.count k := by
  have hsum : entrySum (fun q ql => if q ∈ h.found.filter (· ≠ p) then 0 else ql.list.count k)
      (h.lists.publisherLists.erase p) =
      entrySum (fun q ql => if q ∈ h.found then 0 else ql.list.count k)
        (h.lists.publisherLists.erase p) := by
    refine entrySum_congr _ fun q ql hq => ?_
    have hne : q ≠ p := by
      rintro rfl
      simp at hq
    simp [hne]
  have hp : p ∉ h.found.filter (· ≠ p) := by simp
  unfold occurrences elsewhere
  rw [hlo, hli, entrySum_insert]
  simp only [hp, if_false]
  omega

theorem publisher_of_ne {w : ValidatorList} {q : PublicKey} (hne : q ≠ p)
    (h : v.publisherLists = w.publisherLists.erase p ∨ ∃ pl, v.publisherLists =
      w.publisherLists.insert p pl) : v.publisher q = w.publisher q := by
  unfold publisher
  obtain h | ⟨pl, h⟩ := h
  · rw [h, AList.lookup_erase_ne hne]
  · rw [h, AList.lookup_insert_ne hne]

section
variable (hc : h.Counted l config)

include hc

theorem Counted.replaced {found : List PublicKey} (hne : localList ≠ p)
    (hli : v.publisherLists = h.lists.publisherLists.erase p ∨ ∃ pl, v.publisherLists =
      h.lists.publisherLists.insert p pl) (hlo : v.localPubKey = h.lists.localPubKey)
    (hta : Tallies v.keyListings (occurrences ⟨v, found⟩)) (hk : localList ∉ found) :
    Counted l config ⟨v, found⟩ where
  tallies := hta
  localPubKey := hlo.trans hc.localPubKey
  configList := (congrArg list (publisher_of_ne hne hli)).trans hc.configList
  lasting := (congrArg expiration (publisher_of_ne hne hli)).trans hc.lasting
  kept := hk

theorem Counted.revoked (hne : localList ≠ p) (hcl : p ∈ h.found → (h.lists.publisher p).list = [])
    (hli : v.publisherLists = h.lists.publisherLists.erase p)
    (hlo : v.localPubKey = h.lists.localPubKey)
    (hk : v.keyListings = (h.lists.publisher p).list.foldl unlist
      h.lists.keyListings) : Counted l config ⟨v, h.found⟩ := by
  refine hc.replaced hne (.inl hli) hlo ?_ hc.kept
  rw [hk]
  refine (tallies_foldl_unlist hc.tallies _).congr fun k => ?_
  rw [occurrences_erase hlo hli, occurrences_eq hcl k, Nat.add_sub_cancel]

theorem Counted.published (hne : localList ≠ p) {new : PublisherList}
    (hcl : p ∈ h.found → (h.lists.publisher p).list = [])
    (hli : v.publisherLists = h.lists.publisherLists.insert p new)
    (hlo : v.localPubKey = h.lists.localPubKey)
    (hk : v.keyListings = .merge new.list (h.lists.publisher p).list h.lists.keyListings) :
    Counted l config ⟨v, h.found.filter (· ≠ p)⟩ := by
  refine hc.replaced hne (.inr ⟨_, hli⟩) hlo ?_ fun hm => hc.kept (List.mem_filter.1 hm).1
  rw [hk]
  have hle (k) : (h.lists.publisher p).list.count k ≤ h.occurrences k := by
    rw [occurrences_eq hcl k]
    exact Nat.le_add_left _ _
  refine (merges_merge _ _ _ _ hc.tallies hle).congr fun k => ?_
  rw [occurrences_insert hlo hli, occurrences_eq hcl k, Nat.add_sub_cancel]

theorem Counted.applyList {r : ListRequest}
    (hcl : h.Clean (.applyList r now)) : (h.step check (.applyList r now)).Counted l config := by
  have ha : Applied h.lists r (h.lists.applyList check r now).1
      (h.lists.applyList check r now).2 := applied_applyList h.lists r now
  unfold step
  dsimp only
  revert ha
  generalize (h.lists.applyList check r now).1 = d
  generalize (h.lists.applyList check r now).2 = v
  intro ha
  cases ha with
  | refused manifests hd =>
    rw [if_neg hd]
    exact ⟨hc.tallies, hc.localPubKey, hc.configList, hc.lasting, hc.kept⟩
  | revoked manifests hd hm =>
    rw [if_neg hd]
    refine hc.revoked (r.masterKey_ne _ hm).symm (hcl _ hm) ?_ ?_ ?_
    all_goals rw [revokePublisher, removePublisherList_eq]
    rfl
  | @published manifests m hm _ =>
    have hfi : (h.found.filter fun p => some p ≠ r.manifest.map (·.masterKey)) =
        h.found.filter (· ≠ m.masterKey) := by simp [hm]
    rw [hfi]
    exact hc.published (r.masterKey_ne _ hm).symm (hcl _ hm) rfl rfl rfl

end

/-! ### The configuration -/

/-- The configured keys as listed: each once, the local key not again. -/
def configured (localPubKey localSigningKey : PublicKey) (ids : List PublicKey) : List PublicKey :=
  ids.foldl (fun listed id =>
    if id = localPubKey ∨ id = localSigningKey ∨ id ∈ listed then listed else listed ++ [id]) []

/-- No key is listed, and no publisher has a list. -/
structure Unlisted (v : ValidatorList) : Prop where
  keys : v.keyListings = ∅
  lists : ∀ p, (v.publisher p).list = [] ∧ (v.publisher p).expiration = 0

theorem Unlisted.loadPublishers {ids : List (Option PublicKey)} {v' : ValidatorList}
    (hv : Unlisted v) (hl : v.loadPublishers manifests ids = (true, v')) : Unlisted v' := by
  induction ids generalizing v with
  | nil =>
    cases hl
    exact hv
  | cons id ids ih =>
    cases id with
    | none => cases hl
    | some id =>
      rw [loadPublishers] at hl
      split_ifs at hl
      · exact ih hv hl
      · exact ih hv hl
      refine ih (v := { v with publisherLists := v.publisherLists.insert id {} })
        ⟨hv.keys, fun p => ?_⟩ hl
      by_cases hp : p = id
      · subst hp
        simp [publisher]
      · simpa [publisher, hp] using hv.lists p

/-- The configured keys up to here are listed, and nothing else. -/
structure Loading (l : PublicKey) (config : List PublicKey) (v : ValidatorList) : Prop extends
    Counted l config ⟨v, []⟩ where
  only : ∀ k, occurrences ⟨v, []⟩ k = (if l ≠ [] ∧ k = l then 1 else 0) + config.count k

theorem Unlisted.listLocal (hv : Unlisted v) (l : PublicKey) : Loading l [] (v.listLocal l) := by
  have hs (k) : entrySum (fun _ pl => pl.list.count k) v.publisherLists = 0 := by
    refine entrySum_eq_zero _ fun p pl hpl => ?_
    have hli := (hv.lists p).1
    rw [publisher, hpl, Option.getD_some] at hli
    rw [hli, List.count_nil]
  have ho (k) : occurrences ⟨v.listLocal l, []⟩ k = if l ≠ [] ∧ k = l then 1 else 0 := by
    simpa [occurrences, ValidatorList.listLocal] using hs k
  refine ⟨⟨?_, rfl, (hv.lists localList).1, (hv.lists localList).2, List.not_mem_nil⟩, ho⟩
  unfold ValidatorList.listLocal
  rw [hv.keys]
  split_ifs with hl
  · refine (Tallies.empty.insert one_ne_zero).congr fun k => (ho k).trans ?_
    by_cases hk : k = l
    · subst hk
      simp [hl.1]
    · simp [hk]
  · have hn : l = [] := by simpa using hl
    exact Tallies.empty.congr fun k => (ho k).trans (by simp [hn])

theorem occurrences_listConfigured (v : ValidatorList) (id k : PublicKey) :
    occurrences ⟨v.listConfigured id, []⟩ k = occurrences ⟨v, []⟩ k + [id].count k := by
  have hn := occurrences_insert (h := ⟨v, []⟩) (v := v.listConfigured id) rfl rfl k
  have hold := occurrences_eq (h := ⟨v, []⟩) (p := localList) nofun k
  simp only [List.filter_nil, List.count_append] at hn
  rw [hn, hold, Nat.add_assoc]

theorem Loading.listConfigured (hc : Loading l config v) {id : PublicKey}
    (hid : v.keyListings.lookup id = none) : Loading l (config ++ [id]) (v.listConfigured id) where
  tallies := by
    refine (hc.tallies.insert one_ne_zero).congr fun k => ?_
    rw [occurrences_listConfigured]
    by_cases hk : k = id
    · subst hk
      simp [hc.tallies.lookup_eq_none.1 hid]
    · simp [hk, Ne.symm hk]
  localPubKey := hc.localPubKey
  configList := by simp [ValidatorList.listConfigured, publisher, ← hc.configList]
  lasting := by simpa [ValidatorList.listConfigured, publisher] using hc.lasting
  kept := List.not_mem_nil
  only k := by rw [occurrences_listConfigured, hc.only, List.count_append, Nat.add_assoc]

theorem Loading.listed_iff (hc : Loading l config v) {id : PublicKey} (hid : id ≠ l) :
    (v.keyListings.lookup id).isSome ↔ id ∈ config := by
  have hlo := hc.tallies.lookup_eq_none (k := id)
  rw [hc.only, if_neg (fun h => hid h.2), Nat.zero_add, List.count_eq_zero] at hlo
  rw [← not_iff_not, ← hlo]
  simp

theorem Loading.loadKeys {ids : List (Option PublicKey)} {v' : ValidatorList}
    (hc : Loading l config v) (hl : v.loadKeys localSigningKey ids = (true, v')) :
    Counted l (ids.reduceOption.foldl (fun listed id =>
      if id = l ∨ id = localSigningKey ∨ id ∈ listed then listed else listed ++ [id]) config)
      ⟨v', []⟩ := by
  induction ids generalizing v config with
  | nil =>
    cases hl
    exact hc.toCounted
  | cons id ids ih =>
    cases id with
    | none => cases hl
    | some id =>
      have hlo : v.localPubKey = l := hc.localPubKey
      rw [loadKeys, hlo] at hl
      rw [List.reduceOption_cons_of_some, List.foldl_cons]
      split_ifs at hl with ho hli
      · rw [if_pos (by tauto)]
        exact ih hc hl
      · rw [if_pos (.inr (.inr ((hc.listed_iff (not_or.1 ho).1).1 hli)))]
        exact ih hc hl
      have hid := mt (hc.listed_iff (not_or.1 ho).1).2 hli
      rw [if_neg (by tauto)]
      exact ih (hc.listConfigured (by simpa using hli)) hl

theorem counted_load {configKeys publisherKeys : List (Option PublicKey)}
    {publisherManifests : ManifestCache} {minimumQuorum : Option ℕ}
    (hl : load manifests localSigningKey configKeys publisherKeys (.new publisherManifests
      minimumQuorum) = (true, v)) : Counted (manifests.getMasterKey localSigningKey)
      (configured (manifests.getMasterKey localSigningKey) localSigningKey
        configKeys.reduceOption) ⟨v, []⟩ := by
  unfold load at hl
  split at hl
  · cases hl
  next _ hpu =>
  have hn : Unlisted (.new publisherManifests minimumQuorum) := ⟨rfl, fun p => ⟨rfl, rfl⟩⟩
  exact ((hn.loadPublishers hpu).listLocal _).loadKeys hl

/-! ### Whole histories -/

def run (check : Manifest → Bool) (h : ListHistory) (events : List ListEvent) : ListHistory :=
  events.foldl (step check) h

/-- Every event of the history is clean where it happens. -/
def CleanRun (check : Manifest → Bool) : ListHistory → List ListEvent → Prop
  | _, [] => True
  | h, e :: events => h.Clean e ∧ CleanRun check (h.step check e) events

instance decidableCleanRun (check : Manifest → Bool) :
    (h : ListHistory) → (events : List ListEvent) → Decidable (CleanRun check h events)
  | _, [] => .isTrue trivial
  | h, e :: events =>
    have := decidableCleanRun check (h.step check e) events
    inferInstanceAs (Decidable (h.Clean e ∧ CleanRun check (h.step check e) events))

theorem Counted.run {events : List ListEvent} (hc : h.Counted l config)
    (hcl : CleanRun check h events) : (h.run check events).Counted l config := by
  induction events generalizing h with
  | nil => exact hc
  | cons e events ih =>
    refine ih ?_ hcl.2
    cases e with
    | applyList r now => exact hc.applyList hcl.1
    | onConsensusStart _ _ _ now => exact hc.onConsensusStart hcl.1

/-- A key's occurrences in the configuration and in the publishers' current lists, but for those
found expired. -/
def listedTimes (config : List PublicKey) (h : ListHistory) (k : PublicKey) : ℕ :=
  config.count k +
    entrySum (fun p pl => if p = localList ∨ p ∈ h.found then 0 else pl.list.count k)
      h.lists.publisherLists

theorem Counted.listedTimes (hc : h.Counted l config) (k : PublicKey) :
    h.listedTimes ((if l ≠ [] then [l] else []) ++ config) k = h.occurrences k := by
  have hlo : (if l ≠ [] then [l] else []).count k = if l ≠ [] ∧ k = l then 1 else 0 := by
    by_cases hl : l = [] <;> by_cases hk : k = l <;> simp_all [eq_comm]
  have hot : entrySum (fun p pl => if p = localList ∨ p ∈ h.found then 0 else pl.list.count k)
      (h.lists.publisherLists.erase localList) =
      entrySum (fun p pl => if p ∈ h.found then 0 else pl.list.count k)
        (h.lists.publisherLists.erase localList) := by
    refine entrySum_congr _ fun p pl hp => ?_
    have hne : p ≠ localList := by
      rintro rfl
      simp at hp
    simp [hne]
  have ho : (h.lists.publisherLists.lookup localList).elim 0 (fun pl =>
      if localList = localList ∨ localList ∈ h.found then 0 else pl.list.count k) = 0 := by
    cases h.lists.publisherLists.lookup localList <;> simp
  rw [occurrences_eq fun hp => absurd hp hc.kept, hc.configList, elsewhere,
    hc.localPubKey, ← hlo, ListHistory.listedTimes, entrySum_erase _ _ localList, ho, hot,
    List.count_append]
  omega

end ListHistory

open ListHistory

/-- After `load`, over every clean history of published lists and rounds, `keyListings` has each key
that occurs, with the number of its occurrences. -/
theorem validator_listing_counts {manifests publisherManifests : ManifestCache}
    {minimumQuorum : Option ℕ} {localSigningKey : PublicKey}
    {configKeys publisherKeys : List (Option PublicKey)} {v : ValidatorList}
    (hload : load manifests localSigningKey configKeys publisherKeys
      (.new publisherManifests minimumQuorum) = (true, v))
    {check : Manifest → Bool} {events : List ListEvent}
    (hclean : CleanRun check { lists := v } events) :
    let localPubKey := manifests.getMasterKey localSigningKey
    let config := (if localPubKey ≠ [] then [localPubKey] else []) ++
      configured localPubKey localSigningKey configKeys.reduceOption
    let h := run check { lists := v } events
    Tallies h.lists.keyListings (h.listedTimes config) := by
  intro localPubKey config h
  have hco := (counted_load hload).run hclean
  exact hco.tallies.congr hco.listedTimes

/-! ### Two publishers of one key -/

namespace Sample

/-- The local key is 1, the configuration lists 2, and 7 and 8 are publishers. -/
def loaded : ValidatorList := (load {} [1] [some [2]] [some [7], some [8]] (.new {} none)).2

def publishedBy (publisher : UInt8) (expiration : ℕ) (keys : List PublicKey) : ListEvent :=
  .applyList
    { manifest := some ⟨[], [publisher], [9], 1⟩
      signed := fun _ => true
      list := some ⟨1, expiration, keys.map some⟩
      masterKey_ne := by
        rintro m ⟨⟩
        nofun } 0

def startedAt (now : ℕ) : ListEvent := .onConsensusStart {} [] id now

/-- Both publishers list the key 3; the first one's list expires at the time 10. -/
def listed : List ListEvent := [publishedBy 7 10 [[3]], publishedBy 8 100 [[3]]]

end Sample

open Sample in
/-- At the time 5 the key 3 is on two lists, and at the time 20 on one. -/
theorem validator_listing_counts_sample :
    (run (fun _ => true) ⟨loaded, []⟩ (listed ++ [startedAt 5])).lists.keyListings.lookup [3] =
      some 2 ∧
    (run (fun _ => true) ⟨loaded, []⟩
      (listed ++ [startedAt 5, startedAt 20])).lists.keyListings.lookup [3] = some 1 := by
  have hl : load {} [1] [some [2]] [some [7], some [8]] (.new {} none) = (true, loaded) := rfl
  have hcl1 : CleanRun (fun _ => true) ⟨loaded, []⟩ (listed ++ [startedAt 5]) := by decide
  have hcl2 : CleanRun (fun _ => true) ⟨loaded, []⟩
      (listed ++ [startedAt 5, startedAt 20]) := by decide
  have h1 := validator_listing_counts hl hcl1 [3]
  have h2 := validator_listing_counts hl hcl2 [3]
  exact ⟨h1, h2⟩

open Sample in
/-- The second round after the list of publisher 7 has expired takes its key off again. It is on the
list of publisher 8, which has not expired, and is listed no more. -/
theorem expired_list_removed_twice :
    let h := run (fun _ => true) ⟨loaded, []⟩ (listed ++ [startedAt 20, startedAt 30])
    (h.lists.publisher [8]).list = [[3]] ∧ (h.lists.publisher [8]).expiration = 100 ∧
      h.listedTimes [[1], [2]] [3] = 1 ∧ h.lists.keyListings.lookup [3] = none := by
  decide

end FinPal
