import FinPal.Misc.Manifest
import Mathlib.Data.List.AList
import Mathlib.Data.List.ReduceOption
import Mathlib.Data.List.Sort

/-!
# Validator lists

The validators that the configuration and the lists of trusted publishers name, with the number of
lists that name each (`app/misc/impl/ValidatorList.cpp`). The configured keys are a list under the
empty key. Entries are given decoded, with `none` for one that does not decode.
-/

namespace FinPal

inductive ListDisposition where
  | accepted
  | unsupported_version
  | untrusted
  | stale
  | invalid
  deriving DecidableEq

structure PublisherList where
  available : Bool := false
  list : List PublicKey := []
  sequence : ℕ := 0
  expiration : ℕ := 0
  deriving DecidableEq

/-- The list has an expiration time, and it has come. -/
def PublisherList.expired (p : PublisherList) (now : ℕ) : Bool :=
  p.expiration ≠ 0 ∧ p.expiration ≤ now

abbrev KeyListings := AList fun _ : PublicKey => ℕ

namespace KeyListings

/-- `++keyListings_[k]`. -/
def increment (l : KeyListings) (k : PublicKey) : KeyListings :=
  l.insert k ((l.lookup k).getD 0 + 1)

/-- The decrement in `applyList`. A key that is not there is entered with zero first, and the
unsigned counter wraps. -/
def decrement (l : KeyListings) (k : PublicKey) : KeyListings :=
  match (l.lookup k).getD 0 with
  | 0 => l.insert k (2 ^ 64 - 1)
  | 1 => l.erase k
  | n + 2 => l.insert k (n + 1)

/-- The decrement in `removePublisherList`. -/
def unlist (l : KeyListings) (k : PublicKey) : KeyListings :=
  match l.lookup k with
  | none => l
  | some n => if n ≤ 1 then l.erase k else l.insert k (n - 1)

/-- The part of the merge that deals with the first new key; `rest` does the others. -/
def mergeKey (k : PublicKey) (rest : List PublicKey → KeyListings → KeyListings) :
    List PublicKey → KeyListings → KeyListings
  | [], l => rest [] (l.increment k)
  | o :: old, l =>
    if k < o then rest (o :: old) (l.increment k)
    else if o < k then mergeKey k rest old (l.decrement o)
    else rest old l

/-- The loop of `applyList` over the new list and the old one. -/
def merge : List PublicKey → List PublicKey → KeyListings → KeyListings
  | [], old, l => old.foldl decrement l
  | k :: new, old, l => mergeKey k (merge new) old l

end KeyListings

structure ValidatorList where
  publisherManifests : ManifestCache
  publisherLists : AList (fun _ : PublicKey => PublisherList) := ∅
  keyListings : KeyListings := ∅
  trustedKeys : List PublicKey := []
  quorum : ℕ
  minimumQuorum : Option ℕ
  localPubKey : PublicKey := []

/-- The members of a published list that are looked at. -/
structure PublishedList where
  sequence : ℕ
  expiration : ℕ
  validators : List (Option PublicKey)

/-- The arguments of `applyList`. `signed` tells whose signature of the blob it is. -/
structure ListRequest where
  manifest : Option Manifest
  signed : PublicKey → Bool
  list : Option PublishedList
  version : UInt32 := 1
  /-- A key that is read from a manifest is never empty. -/
  masterKey_ne : ∀ m ∈ manifest, m.masterKey ≠ []

namespace ValidatorList

/-- The key under which the configured validators are listed. -/
def localList : PublicKey := []

/-- The constructor. The quorum is that of the genesis ledger. -/
def new (publisherManifests : ManifestCache) (minimumQuorum : Option ℕ) : ValidatorList where
  publisherManifests
  quorum := minimumQuorum.getD 1
  minimumQuorum

variable (v : ValidatorList)

/-- `publisherLists_[k]`. -/
def publisher (k : PublicKey) : PublisherList := (v.publisherLists.lookup k).getD {}

/-! ## Loading the configuration -/

def loadPublishers (manifests : ManifestCache) :
    List (Option PublicKey) → ValidatorList → Bool × ValidatorList
  | [], v => (true, v)
  | none :: _, v => (false, v)
  | some id :: rest, v =>
    if manifests.revoked id then loadPublishers manifests rest v
    else if (v.publisherLists.lookup id).isSome then loadPublishers manifests rest v
    else loadPublishers manifests rest { v with publisherLists := v.publisherLists.insert id {} }

def listConfigured (id : PublicKey) : ValidatorList :=
  { v with
    keyListings := v.keyListings.insert id 1
    publisherLists := v.publisherLists.insert localList
      { v.publisher localList with
        list := (v.publisher localList).list ++ [id]
        available := true } }

/-- The local key is listed already, and a key is listed once. -/
def loadKeys (localSigningKey : PublicKey) :
    List (Option PublicKey) → ValidatorList → Bool × ValidatorList
  | [], v => (true, v)
  | none :: _, v => (false, v)
  | some id :: rest, v =>
    if id = v.localPubKey ∨ id = localSigningKey then loadKeys localSigningKey rest v
    else if (v.keyListings.lookup id).isSome then loadKeys localSigningKey rest v
    else loadKeys localSigningKey rest (v.listConfigured id)

def listLocal (localPubKey : PublicKey) : ValidatorList :=
  { v with
    localPubKey
    keyListings :=
      if localPubKey ≠ [] ∧ (v.keyListings.lookup localPubKey).isNone then
        v.keyListings.insert localPubKey 1
      else v.keyListings }

def load (manifests : ManifestCache) (localSigningKey : PublicKey)
    (configKeys publisherKeys : List (Option PublicKey)) (v : ValidatorList) :
    Bool × ValidatorList :=
  match loadPublishers manifests publisherKeys v with
  | (false, v) => (false, v)
  | (true, v) =>
    loadKeys localSigningKey configKeys (v.listLocal (manifests.getMasterKey localSigningKey))

/-! ## Published lists -/

def removePublisherList (publisherKey : PublicKey) : Bool × ValidatorList :=
  match v.publisherLists.lookup publisherKey with
  | none => (false, v)
  | some p => (true, { v with keyListings := p.list.foldl KeyListings.unlist v.keyListings })

def revokePublisher (pubKey : PublicKey) : ValidatorList :=
  let v := (v.removePublisherList pubKey).2
  { v with publisherLists := v.publisherLists.erase pubKey }

/-- The part of `verify` after the manifest. -/
def verifyList (r : ListRequest) (pubKey : PublicKey) (now : ℕ) :
    Except ListDisposition (PublicKey × PublishedList) :=
  if !r.signed (v.publisherManifests.getSigningKey pubKey) then .error .invalid
  else
    match r.list with
    | none => .error .invalid
    | some list =>
      if list.sequence ≤ (v.publisher pubKey).sequence ∨ list.expiration ≤ now then .error .stale
      else .ok (pubKey, list)

/-- The manifest is applied first, and one that revokes the publisher's key ends the trust in it. -/
def verify (check : Manifest → Bool) (v : ValidatorList) (r : ListRequest) (now : ℕ) :
    Except ListDisposition (PublicKey × PublishedList) × ValidatorList :=
  match r.manifest with
  | none => (.error .untrusted, v)
  | some m =>
    if (v.publisherLists.lookup m.masterKey).isNone then (.error .untrusted, v)
    else
      let (result, publisherManifests) := v.publisherManifests.applyManifest check m
      let v := { v with publisherManifests }
      if m.revoked then
        (.error .untrusted, if result = .accepted then v.revokePublisher m.masterKey else v)
      else if result = .invalid then (.error .untrusted, v)
      else (v.verifyList r m.masterKey now, v)

/-- Puts a list in place of the publisher's last one. -/
def publish (pubKey : PublicKey) (list : PublishedList) : ValidatorList :=
  let new := list.validators.reduceOption.insertionSort (fun a b => ¬b < a)
  { v with
    publisherLists := v.publisherLists.insert pubKey
      { available := true
        list := new
        sequence := list.sequence
        expiration := list.expiration }
    keyListings := .merge new (v.publisher pubKey).list v.keyListings }

def applyList (check : Manifest → Bool) (v : ValidatorList) (r : ListRequest) (now : ℕ) :
    ListDisposition × ValidatorList :=
  if r.version ≠ 1 then (.unsupported_version, v)
  else
    match v.verify check r now with
    | (.error d, v) => (d, v)
    | (.ok (pubKey, list), v) => (.accepted, v.publish pubKey list)

/-! ## The trusted keys of a consensus round -/

/-- The loop over the publishers takes the keys of expired lists off the listings. -/
def removeExpired (now : ℕ) : ValidatorList :=
  v.publisherLists.entries.foldl
    (fun v p => if p.2.expired now then (v.removePublisherList p.1).2 else v) v

def allListsAvailable (now : ℕ) : Bool :=
  v.publisherLists.entries.all fun p => p.2.expired now || p.2.available

/-- Inserts into a `std::multimap`, behind what has the same rank. -/
def insertRanked (e : ℕ × PublicKey) : List (ℕ × PublicKey) → List (ℕ × PublicKey)
  | [] => [e]
  | a :: rest => if e.1 < a.1 then e :: a :: rest else a :: insertRanked e rest

/-- The rank of a listed key; the local key is above all others. -/
def rank (manifests : ManifestCache) (seenValidators : List PublicKey) (k : PublicKey) : Option ℕ :=
  if manifests.revoked k then none
  else if k = v.localPubKey then some (2 ^ 64 - 1)
  else if seenValidators = [] ∨ k ∈ seenValidators then v.keyListings.lookup k
  else none

/-- The keys that may be trusted, by rank. `shuffle` orders the listed keys at random. -/
def rankedKeys (manifests : ManifestCache) (seenValidators : List PublicKey)
    (shuffle : List PublicKey → List PublicKey) : List (ℕ × PublicKey) :=
  (shuffle v.keyListings.keys).foldl (fun ranked k =>
    match v.rank manifests seenValidators k with
    | some r => insertRanked (r, k) ranked
    | none => ranked) []

/-- Four fifths of the keys, with special cases for small numbers. -/
def calculateQuorum (nTrustedKeys : ℕ) : ℕ :=
  ([0, 1, 2, 2, 3, 3, 4, 5, 6, 7][nTrustedKeys]?).getD (nTrustedKeys - nTrustedKeys / 5)

/-- The quorum that overlaps with other nodes', and the number of keys to trust. -/
def quorumAndSize (ranked : ℕ) (localKeyListed : Bool) : ℕ × ℕ :=
  let listed := v.keyListings.keys.length
  let quorum := listed / 2 + 1
  let quorum :=
    if v.localPubKey ≠ [] ∧ !localKeyListed ∧ 1 < ranked ∧ listed % 2 ≠ 0 then quorum + 1
    else quorum
  if ranked < 10 ∨ v.publisherLists.keys.length = 1 then (max quorum (calculateQuorum ranked), ranked)
  else (quorum, quorum * 5 / 4)

def onConsensusStart (manifests : ManifestCache) (seenValidators : List PublicKey)
    (shuffle : List PublicKey → List PublicKey) (now : ℕ) (v : ValidatorList) : ValidatorList :=
  let allListsAvailable := v.allListsAvailable now
  let v := v.removeExpired now
  let ranked := v.rankedKeys manifests seenValidators shuffle
  let localKeyListed : Bool :=
    !manifests.revoked v.localPubKey ∧ 1 < (v.keyListings.lookup v.localPubKey).getD 0
  let (quorum, size) := v.quorumAndSize ranked.length localKeyListed
  { v with
    quorum :=
      match v.minimumQuorum with
      | some minimum =>
        if seenValidators = [] ∨ ranked.length < quorum then minimum
        else if !allListsAvailable then 2 ^ 64 - 1
        else quorum
      | none => if !allListsAvailable then 2 ^ 64 - 1 else quorum
    trustedKeys := (ranked.reverse.take size).map (·.2) }

end ValidatorList
end FinPal
