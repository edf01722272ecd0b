import FinPal.Misc.Manifest
import Mathlib.Data.List.MinMax

/-!
# The manifest cache over a history of manifests
-/

namespace FinPal
open ManifestCache

/-! ## Histories -/

/-- The cache, and the manifests it has accepted, the newest first. -/
structure ManifestHistory where
  cache : ManifestCache := {}
  accepted : List Manifest := []

namespace ManifestHistory

def step (verify : Manifest → Bool) (h : ManifestHistory) (m : Manifest) : ManifestHistory where
  cache := (h.cache.applyManifest verify m).2
  accepted :=
    if (h.cache.applyManifest verify m).1 = .accepted then m :: h.accepted else h.accepted

/-- The history of an empty cache to which manifests are applied. -/
def run (verify : Manifest → Bool) (ms : List Manifest) : ManifestHistory :=
  ms.foldl (step verify) {}

variable {verify : Manifest → Bool} {h : ManifestHistory} {m : Manifest}

theorem step_cases (verify : Manifest → Bool) (h : ManifestHistory) (m : Manifest) :
    (h.cache.isStale m = false ∧ verify m = true ∧
      h.step verify m = ⟨h.cache.accept m, m :: h.accepted⟩) ∨
    ((h.cache.isStale m = true ∨ verify m = false) ∧ h.step verify m = h) := by
  unfold step applyManifest
  cases hst : h.cache.isStale m with
  | true => exact .inr ⟨.inl rfl, by simp⟩
  | false =>
    cases hve : verify m with
    | true => exact .inl ⟨rfl, rfl, by simp⟩
    | false => exact .inr ⟨.inr rfl, by simp⟩

theorem run_append (verify : Manifest → Bool) (ms : List Manifest) (m : Manifest) :
    run verify (ms ++ [m]) = (run verify ms).step verify m := by
  simp [run]

theorem run_induct {P : ManifestHistory → Prop} (hn : P {})
    (hs : ∀ h m, P h → P (h.step verify m)) (ms : List Manifest) : P (run verify ms) := by
  induction ms using List.reverseRecOn with
  | nil => exact hn
  | append_singleton ms m ih =>
    rw [run_append]
    exact hs _ _ ih

/-! ## The newest manifest -/

/-- The cache stores the accepted manifest of highest sequence for a master key. -/
structure Newest (h : ManifestHistory) (k : PublicKey) : Prop where
  stored : ∀ man, h.cache.map k = some man → man ∈ h.accepted ∧ man.masterKey = k ∧
    ∀ m ∈ h.accepted, m.masterKey = k → m = man ∨ m.sequence < man.sequence
  absent : h.cache.map k = none → ∀ m ∈ h.accepted, m.masterKey ≠ k

theorem Newest.lt (hn : h.Newest m.masterKey) (hst : h.cache.isStale m = false) {m' : Manifest}
    (hm' : m' ∈ h.accepted) (hk : m'.masterKey = m.masterKey) : m'.sequence < m.sequence := by
  cases hold : h.cache.map m.masterKey with
  | none => exact absurd hk (hn.absent hold m' hm')
  | some old =>
    have hlt : old.sequence < m.sequence := by
      simpa [isStale, hold] using hst
    obtain rfl | hold' := (hn.stored old hold).2.2 m' hm' hk
    · exact hlt
    · exact UInt32.lt_trans hold' hlt

theorem Newest.step (hn : ∀ k, h.Newest k) (k : PublicKey) : (h.step verify m).Newest k := by
  obtain ⟨hst, -, hs⟩ | ⟨-, hs⟩ := step_cases verify h m
  · rw [hs]
    by_cases hk : k = m.masterKey
    · subst hk
      refine ⟨fun man hm => ?_, fun ha => ?_⟩
      · obtain rfl : m = man := by simpa [accept] using hm
        refine ⟨.head _, rfl, fun m' hm' hkey => ?_⟩
        obtain rfl | hm' := List.mem_cons.1 hm'
        · exact .inl rfl
        · exact .inr ((hn _).lt hst hm' hkey)
      · simp [accept] at ha
    have hmap : (h.cache.accept m).map k = h.cache.map k := by simp [accept, hk]
    refine ⟨fun man hm => ?_, fun ha m' hm' => ?_⟩
    · obtain ⟨hmem, hkey, hne⟩ := (hn k).stored man (hmap.symm.trans hm)
      refine ⟨.tail _ hmem, hkey, fun m' hm' hk' => ?_⟩
      obtain rfl | hm' := List.mem_cons.1 hm'
      · exact absurd hk'.symm hk
      · exact hne m' hm' hk'
    obtain rfl | hm' := List.mem_cons.1 hm'
    · exact Ne.symm hk
    · exact (hn k).absent (hmap.symm.trans ha) m' hm'
  · rw [hs]
    exact hn k

theorem newest_run (ms : List Manifest) (k : PublicKey) : (run verify ms).Newest k := by
  refine run_induct (P := fun h => ∀ k, h.Newest k) (fun k => ⟨?_, ?_⟩)
    (fun h m hn => Newest.step hn) ms k
  · rintro - ⟨⟩
  · rintro - m ⟨⟩

/-! ## Revocations -/

theorem revoked_step {k : PublicKey} (hk : h.cache.revoked k = true) :
    (h.step verify m).cache.revoked k = true := by
  obtain ⟨hst, -, hs⟩ | ⟨-, hs⟩ := step_cases verify h m
  · rw [hs]
    have hne : k ≠ m.masterKey := by
      rintro rfl
      cases hold : h.cache.map m.masterKey with
      | none => simp [revoked, hold] at hk
      | some _ =>
        have hle := Manifest.le_of_revoked (by simpa [revoked, hold] using hk) m
        simp [isStale, hold, hle] at hst
    simpa [revoked, accept, hne] using hk
  · rwa [hs]

theorem revoked_run {ms : List Manifest} {k : PublicKey}
    (hk : (run verify ms).cache.revoked k = true) (ms' : List Manifest) :
    (run verify (ms ++ ms')).cache.revoked k = true := by
  induction ms' using List.reverseRecOn with
  | nil => rwa [List.append_nil]
  | append_singleton ms' m ih =>
    rw [← List.append_assoc, run_append]
    exact revoked_step ih

end ManifestHistory

/-! ## Signing keys -/

namespace ManifestCache
variable {verify : Manifest → Bool} {c : ManifestCache} {m : Manifest} {k : PublicKey}
  {s : PublicKey}

/-- The stored manifest of `k` is no revocation and names the signing key `s`. -/
def Names (c : ManifestCache) (k s : PublicKey) : Prop :=
  ∃ man, c.map k = some man ∧ man.revoked = false ∧ man.signingKey = s

/-- The two maps of the cache are inverse to each other. -/
structure Coherent (c : ManifestCache) : Prop where
  signing : ∀ s k, c.signingToMasterKeys s = some k ↔ c.Names k s
  inverse : ∀ k s, c.Names k s → c.getMasterKey (c.getSigningKey k) = k

/-- If the manifest is about to be accepted, no other master key uses its signing key. -/
def Unclaimed (verify : Manifest → Bool) (c : ManifestCache) (m : Manifest) : Prop :=
  c.isStale m = false → verify m = true → m.revoked = false →
    ∀ k, c.Names k m.signingKey → k = m.masterKey

theorem Names.getSigningKey (h : c.Names k s) : c.getSigningKey k = s := by
  obtain ⟨_, hm, hr, rfl⟩ := h
  simp [getSigningKey, hm, hr]

theorem Coherent.of_signing (h : ∀ s k, c.signingToMasterKeys s = some k ↔ c.Names k s) :
    c.Coherent := by
  refine ⟨h, fun k s hk => ?_⟩
  rw [hk.getSigningKey, getMasterKey, (h s k).2 hk, Option.getD_some]

theorem coherent_empty : Coherent {} := by
  refine .of_signing fun s k => ⟨nofun, ?_⟩
  rintro ⟨-, ⟨⟩, -⟩

theorem names_accept : (c.accept m).Names k s ↔
    k = m.masterKey ∧ m.revoked = false ∧ m.signingKey = s ∨ k ≠ m.masterKey ∧ c.Names k s := by
  by_cases hk : k = m.masterKey
  · subst hk
    simp [Names, accept]
  · simp [Names, accept, hk]

theorem not_revoked_of_newer {old : Manifest} (hold : c.map m.masterKey = some old)
    (hst : c.isStale m = false) : old.revoked = false := by
  rw [← Bool.not_eq_true]
  intro hr
  simp [isStale, hold, Manifest.le_of_revoked hr m] at hst

theorem Coherent.release (hc : c.Coherent) (hst : c.isStale m = false) :
    c.release m.masterKey s = some k ↔ k ≠ m.masterKey ∧ c.Names k s := by
  unfold ManifestCache.release
  cases hold : c.map m.masterKey with
  | none =>
    refine (hc.signing s k).trans ⟨fun hn => ⟨?_, hn⟩, And.right⟩
    rintro rfl
    obtain ⟨_, hm, -⟩ := hn
    rw [hold] at hm
    cases hm
  | some old =>
    have hna : c.Names m.masterKey old.signingKey :=
      ⟨old, hold, not_revoked_of_newer hold hst, rfl⟩
    by_cases hs : s = old.signingKey
    · subst hs
      simp only [Function.update_self, reduceCtorEq, false_iff, not_and]
      intro hne hn
      -- the released key had one master key only
      have hk := ((hc.signing _ _).2 hn).symm.trans ((hc.signing _ _).2 hna)
      exact hne (Option.some.inj hk)
    simp only [Function.update_of_ne hs]
    refine (hc.signing s k).trans ⟨fun hn => ⟨?_, hn⟩, And.right⟩
    rintro rfl
    exact hs (hn.getSigningKey.symm.trans hna.getSigningKey)

theorem Coherent.accept (hc : c.Coherent) (hst : c.isStale m = false)
    (hf : m.revoked = false → ∀ k, c.Names k m.signingKey → k = m.masterKey) :
    (c.accept m).Coherent := by
  refine .of_signing fun s k => ?_
  rw [names_accept]
  cases hr : m.revoked with
  | true => simpa [ManifestCache.accept, hr] using hc.release hst
  | false =>
    by_cases hs : s = m.signingKey
    · subst hs
      have hot : ¬(k ≠ m.masterKey ∧ c.Names k m.signingKey) := fun h => h.1 (hf hr k h.2)
      simp [ManifestCache.accept, hr, hot, eq_comm]
    · simpa [ManifestCache.accept, hr, hs, Ne.symm hs] using hc.release hst

theorem Coherent.names_unique (hc : c.Coherent) {k' : PublicKey} (h : c.Names k s)
    (h' : c.Names k' s) : k = k' :=
  Option.some.inj (((hc.signing s k).2 h).symm.trans ((hc.signing s k').2 h'))

end ManifestCache

open ManifestHistory

theorem coherent_step {verify : Manifest → Bool} {h : ManifestHistory} {m : Manifest}
    (hc : h.cache.Coherent) (hf : h.cache.Unclaimed verify m) :
    (h.step verify m).cache.Coherent := by
  obtain ⟨hst, hve, hs⟩ | ⟨-, hs⟩ := step_cases verify h m
  · rw [hs]
    exact hc.accept hst (hf hst hve)
  · rwa [hs]

theorem unclaimed_of_step {verify : Manifest → Bool} {h : ManifestHistory} {m : Manifest}
    (hc : (h.step verify m).cache.Coherent) : h.cache.Unclaimed verify m := by
  intro hst hve hr k hk
  obtain ⟨-, -, hs⟩ | ⟨hno, -⟩ := step_cases verify h m
  · rw [hs] at hc
    by_contra hne
    have hot := names_accept.2 (.inr ⟨hne, hk⟩)
    have hse : (h.cache.accept m).Names m.masterKey m.signingKey :=
      names_accept.2 (.inl ⟨rfl, hr, rfl⟩)
    exact hne (hc.names_unique hot hse)
  · simp [hst, hve] at hno

/-- Over every sequence of manifests the cache stores the newest accepted one of each master key and
keeps revocations. Its two maps are inverse to each other throughout exactly if none is accepted
whose signing key another master key uses. -/
theorem manifest_cache_coherence (verify : Manifest → Bool) (ms : List Manifest) :
    (∀ k, (run verify ms).Newest k) ∧
    (∀ k ms', (run verify ms).cache.revoked k = true →
      (run verify (ms ++ ms')).cache.revoked k = true) ∧
    ((∀ pre, pre <+: ms → (run verify pre).cache.Coherent) ↔
      ∀ pre m, pre ++ [m] <+: ms → (run verify pre).cache.Unclaimed verify m) := by
  refine ⟨newest_run ms, fun k ms' hk => revoked_run hk ms', fun ha pre m hp => ?_,
    fun ha pre => ?_⟩
  · have hc := ha (pre ++ [m]) hp
    rw [run_append] at hc
    exact unclaimed_of_step hc
  induction pre using List.reverseRecOn with
  | nil => exact fun _ => coherent_empty
  | append_singleton pre m ih =>
    intro hp
    rw [run_append]
    exact coherent_step (ih ((List.prefix_append _ _).trans hp)) (ha pre m hp)

/-- Two master keys name one signing key. The first is no longer found from it, and when the second
goes on to another key, nothing is. -/
theorem shared_signing_key :
    let first : Manifest := ⟨[], [1], [9], 1⟩
    let second : Manifest := ⟨[], [2], [9], 1⟩
    let rotated : Manifest := ⟨[], [2], [8], 2⟩
    let c := (run (fun _ => true) [first, second]).cache
    let c' := (run (fun _ => true) [first, second, rotated]).cache
    c.map [1] = some first ∧ c.getMasterKey (c.getSigningKey [1]) = [2] ∧
      c'.map [1] = some first ∧ c'.signingToMasterKeys [9] = none := by
  decide

theorem map_argmax_congr {α : Type*} (f : α → ℕ) {l l' : List α} (h : ∀ a, a ∈ l' ↔ a ∈ l) :
    (l'.argmax f).map f = (l.argmax f).map f := by
  cases ha : l.argmax f with
  | none =>
    rw [List.argmax_eq_none.1 ha] at h
    have hl : l' = [] := List.eq_nil_iff_forall_not_mem.2 fun a => by simp [h a]
    rw [hl, List.argmax_nil]
  | some a =>
    cases hb : l'.argmax f with
    | none =>
      rw [List.argmax_eq_none.1 hb] at h
      exact absurd ((h a).2 (List.argmax_mem ha)) List.not_mem_nil
    | some b =>
      exact congrArg some (le_antisymm (List.le_of_mem_argmax ((h b).1 (List.argmax_mem hb)) ha)
        (List.le_of_mem_argmax ((h a).2 (List.argmax_mem ha)) hb))

theorem map_run (verify : Manifest → Bool) (ms : List Manifest) (k : PublicKey) :
    (run verify ms).cache.map k =
      (ms.filter fun m => verify m ∧ m.masterKey = k).argmax (·.sequence.toNat) := by
  induction ms using List.reverseRecOn with
  | nil => rfl
  | append_singleton ms m ih =>
    rw [run_append, List.filter_append, List.filter_singleton]
    by_cases hm : verify m ∧ m.masterKey = k
    · obtain ⟨hve, rfl⟩ := hm
      rw [decide_eq_true ⟨hve, rfl⟩, cond_true, List.argmax_concat, ← ih]
      simp only [step, applyManifest, isStale, hve]
      cases hma : (run verify ms).cache.map m.masterKey with
      | none => simp [accept]
      | some old =>
        simp only [decide_eq_true_eq, UInt32.le_iff_toNat_le]
        split <;> simp [accept, hma] <;> omega
    · rw [decide_eq_false hm, cond_false, List.append_nil, ← ih]
      obtain ⟨-, hve, hs⟩ | ⟨-, hs⟩ := step_cases verify (run verify ms) m <;> rw [hs]
      exact Function.update_of_ne (fun hk => hm ⟨hve, hk.symm⟩) ..

/-- Of the received manifests of a master key that verify, the first of the highest sequence is
stored. So nodes that receive the same manifests, in any order and number, store the same
sequence. -/
theorem stored_manifest_argmax (verify : Manifest → Bool) (ms : List Manifest) (k : PublicKey) :
    (run verify ms).cache.map k =
      (ms.filter fun m => verify m ∧ m.masterKey = k).argmax (·.sequence.toNat) ∧
    ∀ ms', (∀ m, m ∈ ms' ↔ m ∈ ms) →
      ((run verify ms').cache.map k).map (·.sequence.toNat) =
        ((run verify ms).cache.map k).map (·.sequence.toNat) := by
  refine ⟨map_run verify ms k, fun ms' hsame => ?_⟩
  rw [map_run, map_run]
  exact map_argmax_congr _ (by simp [hsame])

end FinPal
