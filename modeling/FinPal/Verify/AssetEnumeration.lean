import FinPal.Verify.TokenEnumeration

/-!
# The assets of every account are enumerated
-/

namespace FinPal
open Store ViewM
open Function (update update_of_ne update_self comp_update)
variable {σ σ' : State} {r r' : Registry} {tx : STTx} {a : Digest} {o : AccountID} {u : Unit}

theorem Reg.unique (h : Reg σ r) (h' : Reg σ r') : r = r' := h.eq.symm.trans h'.eq

/-- The index under which an account lists the asset `a`. -/
def Registry.assetPos (r : Registry) (o : AccountID) (a : Digest) : Option Nat :=
  (r.account (a, o)).bind NFTAccount.assetIndex

/-- Every account has a dense list of assets, in which its own places are noted. -/
structure AssetLists (r : Registry) : Prop where
  lists : ∀ o, DenseIndex (fun i => r.assetIndex (o, i)) (r.assetPos o) ((r.assetNumber o).getD 0)
  listed : ∀ p acc, r.account p = some acc → acc.assetIndex.isSome

theorem getD_update (f : AccountID → Option Nat) (o o' : AccountID) (n : Nat) :
    (update f o (some n) o').getD 0 = update (fun o => (f o).getD 0) o n o' :=
  congrFun (comp_update (Option.getD · 0) f o (some n)) o'

namespace AssetLists

theorem congr (h : AssetLists r) (ha : r'.account = r.account) (hidx : r'.assetIndex = r.assetIndex)
    (hn : r'.assetNumber = r.assetNumber) : AssetLists r' where
  lists o := by
    have hp : r'.assetPos o = r.assetPos o := by unfold Registry.assetPos; rw [ha]
    rw [hidx, hn, hp]
    exact h.lists o
  listed := by rw [ha]; exact h.listed

theorem setTokens (h : AssetLists r) (a : Digest) (o : AccountID) (m : Nat) :
    AssetLists (r.setTokens a o m) where
  lists o' := by
    have hp : (r.setTokens a o m).assetPos o' = r.assetPos o' := by
      funext a'
      by_cases e : (a', o') = (a, o)
      · obtain ⟨rfl, rfl⟩ := Prod.mk.inj e
        simp [Registry.assetPos, Registry.setTokens, Option.bind_map]
      · simp only [Registry.assetPos, Registry.setTokens]
        rw [update_of_ne e]
    rw [hp]
    exact h.lists o'
  listed p acc ha := by
    by_cases e : p = (a, o)
    · subst e
      simp only [Registry.setTokens, update_self, Option.map_eq_some_iff] at ha
      obtain ⟨acc0, ha0, rfl⟩ := ha
      exact h.listed _ acc0 ha0
    · simp only [Registry.setTokens, update_of_ne e] at ha
      exact h.listed p acc ha

theorem addOwner {k : Nat} (h : AssetLists r) (hk : r.assetNumber o = some k)
    (hno : r.account (a, o) = none) : AssetLists (r.addOwner a o k) where
  lists o' := by
    have hp : (r.addOwner a o k).assetPos =
        update r.assetPos o (update (r.assetPos o) a (some k)) := by
      funext o' a'
      by_cases ho : o' = o <;> by_cases ha : a' = a <;>
        simp [Registry.assetPos, Registry.addOwner, ho, ha]
    have hpu := DenseFamily.push prodMk_injective2 h.lists (n := k) (by rw [hk]; rfl)
      (show r.assetPos o a = none by simp [Registry.assetPos, hno])
    rw [← hp] at hpu
    change DenseIndex _ _ ((update r.assetNumber o (some (k + 1)) o').getD 0)
    rw [getD_update]
    exact hpu o'
  listed p acc hacc := by
    by_cases e : p = (a, o)
    · subst e
      simp only [Registry.addOwner, update_self, Option.some.injEq] at hacc
      rw [← hacc]
      rfl
    · simp only [Registry.addOwner, update_of_ne e] at hacc
      exact h.listed p acc hacc

theorem removeOwner {acc : NFTAccount} {k i : Nat} {b : Digest} (h : AssetLists r)
    (hn : r.assetNumber o = some (k + 1)) (hacc : r.account (a, o) = some acc)
    (hi : acc.assetIndex = some i) (hk : r.assetIndex (o, k) = some b) :
    AssetLists (r.removeOwner a o k i b) where
  lists o' := by
    have hd := h.lists o
    -- the last asset is on the list, so it has an owner entry
    obtain ⟨_, _, -⟩ := Option.bind_eq_some_iff.1 ((hd.inv k b).1 hk)
    have hp : (r.removeOwner a o k i b).assetPos =
        update r.assetPos o (update (update (r.assetPos o) b (some i)) a none) := by
      funext o' a'
      by_cases ho : o' = o <;> by_cases ha : a' = a <;> by_cases hb : a' = b <;>
        simp_all [Registry.assetPos, Registry.removeOwner]
    have hrem := DenseFamily.swapRemove prodMk_injective2 h.lists (by rw [hn]; rfl)
      (show r.assetPos o a = some i by simp [Registry.assetPos, hacc, hi]) hk
    rw [← hp] at hrem
    change DenseIndex _ _ ((update r.assetNumber o (some k) o').getD 0)
    rw [getD_update]
    exact hrem o'
  listed p acc' ha' := by
    by_cases e : p = (a, o)
    · subst e; simp [Registry.removeOwner] at ha'
    simp only [Registry.removeOwner, update_of_ne e] at ha'
    by_cases eb : p = (b, o)
    · subst eb
      simp only [update_self, Option.map_eq_some_iff] at ha'
      obtain ⟨-, -, rfl⟩ := ha'
      rfl
    · rw [update_of_ne eb] at ha'
      exact h.listed p acc' ha'

theorem remove {acc : NFTAccount} (h : AssetLists r) (hr : Reg σ r)
    (ha : r.account (a, o) = some acc) (hex : exec (removeAssetOwner o a acc) σ = .ok (u, σ')) :
    ∃ r', Reg σ' r' ∧ AssetLists r' ∧ TakesOwner a o r r' := by
  obtain ⟨i, hi⟩ := Option.isSome_iff_exists.1 (h.listed _ acc ha)
  have hd := h.lists o
  have hp : r.assetPos o a = some i := by simp [Registry.assetPos, ha, hi]
  have hlt := hd.lt hp
  obtain ⟨k, hnum⟩ : ∃ k, r.assetNumber o = some (k + 1) := by
    cases hn : r.assetNumber o with
    | none => simp [hn] at hlt
    | some n =>
      simp only [hn, Option.getD_some] at hlt
      exact ⟨n - 1, by congr 1; omega⟩
  rw [hnum] at hd
  obtain ⟨b, hb, hbp⟩ := hd.exists_of_lt (i := k) (by simp)
  have hne : i ≠ k → b ≠ a := by
    rintro hik rfl
    exact hik (Option.mem_unique hp hbp)
  have hr' := removeAssetOwner_listed hr hnum hi ((hd.inv i a).2 hp) hb hne hex
  obtain ⟨_, hr1, hta⟩ := removeAssetOwner_takes hr hex
  obtain rfl := hr'.unique hr1
  exact ⟨_, hr', h.removeOwner hnum ha hi hb, hta⟩

end AssetLists

/-- Every account enumerates the assets it has tokens of or has issued. -/
structure AssetInv (r : Registry) : Prop extends AssetLists r where
  owner : ∀ a o, (r.account (a, o)).isSome ↔
    0 < r.ownerNumber (a, o) ∨ (r.asset a).map NFAsset.issuer = some o

namespace AssetInv

theorem congr (h : AssetInv r) (hass : ∀ a, (r'.asset a).map NFAsset.issuer =
    (r.asset a).map NFAsset.issuer) (ha : r'.account = r.account)
    (hidx : r'.assetIndex = r.assetIndex) (hn : r'.assetNumber = r.assetNumber) : AssetInv r' where
  toAssetLists := h.toAssetLists.congr ha hidx hn
  owner a o := by
    rw [hass, Registry.ownerNumber, ha]
    exact h.owner a o

/-- An owner that is there has its number of tokens set; it stays only if it has some or is the
issuer. -/
theorem setTokens {m : Nat} (h : AssetInv r)
    (hm : 0 < m ∨ (r.asset a).map NFAsset.issuer = some o) : AssetInv (r.setTokens a o m) where
  toAssetLists := h.toAssetLists.setTokens a o m
  owner a' o' := by
    by_cases e : (a', o') = (a, o)
    · obtain ⟨rfl, rfl⟩ := Prod.mk.inj e
      have := h.owner a' o'
      cases ha : r.account (a', o') with
      | none =>
        simp only [ha, Option.isSome_none, Bool.false_eq_true, false_iff, not_or] at this
        simp [Registry.setTokens, Registry.ownerNumber, ha, this.2]
      | some _ => simpa [Registry.setTokens, Registry.ownerNumber, ha] using hm
    simp only [Registry.setTokens, Registry.ownerNumber]
    rw [update_of_ne e]
    exact h.owner a' o'

theorem addOwnerToken {m : Nat} (h : AssetInv r) (hr : Reg σ r)
    (hex : exec (addOwnerToken a o) σ = .ok (m, σ')) :
    ∃ r', Reg σ' r' ∧ AssetInv r' ∧ r'.asset = r.asset := by
  rcases addOwnerToken_reg hr hex with ⟨hn, -, k, hk, hr'⟩ | ⟨-, -, -, hr'⟩
  · refine ⟨_, hr', ⟨(h.toAssetLists.addOwner hk hn).setTokens a o 1, fun a' o' => ?_⟩, rfl⟩
    by_cases e : (a', o') = (a, o)
    · obtain ⟨rfl, rfl⟩ := Prod.mk.inj e
      simp [Registry.setTokens, Registry.addOwner, Registry.ownerNumber]
    simp only [Registry.setTokens, Registry.addOwner, Registry.ownerNumber]
    rw [update_of_ne e, update_of_ne e]
    exact h.owner a' o'
  · exact ⟨_, hr', h.setTokens (.inl (Nat.succ_pos m)), rfl⟩

theorem dropOwnerToken {asset : NFAsset} {acc : NFTAccount} {m : Nat} (h : AssetInv r)
    (hr : Reg σ r) (ha : (r.asset a).map NFAsset.issuer = some asset.issuer)
    (hacc : r.account (a, o) = some acc)
    (hex : exec (dropOwnerToken a asset o acc m) σ = .ok (u, σ')) :
    ∃ r', Reg σ' r' ∧ AssetInv r' ∧ r'.asset = r.asset := by
  unfold FinPal.dropOwnerToken at hex
  split at hex
  · next hm =>
    obtain ⟨-, -, hr'⟩ := setTokens_reg hr (fun _ => rfl) hex
    refine ⟨_, hr', h.setTokens (hm.imp Nat.pos_of_ne_zero ?_), rfl⟩
    rintro rfl
    exact ha
  · next hm =>
    obtain ⟨hm, hiss⟩ := not_or.1 hm
    obtain ⟨r', hr', hl, hta⟩ := h.toAssetLists.remove hr hacc hex
    refine ⟨r', hr', ⟨hl, fun a' o' => ?_⟩, hta.asset⟩
    by_cases e : (a', o') = (a, o)
    · obtain ⟨rfl, rfl⟩ := Prod.mk.inj e
      simp [hta.gone, hta.asset, ha, Registry.ownerNumber, Ne.symm hiss]
    have hot := hta.other _ e
    have hso : (r'.account (a', o')).isSome = (r.account (a', o')).isSome := by
      rw [← Option.isSome_map, hot, Option.isSome_map]
    rw [hso, Registry.ownerNumber, hot, hta.asset]
    exact h.owner a' o'

end AssetInv

/-! ## Each transactor keeps the lists -/

theorem createAsset_assetInv {f : CreateAsset} (hr : Reg σ r) (hi : AssetInv r)
    (h : Succeeds (f.doApply tx) σ σ') : ∃ r', Reg σ' r' ∧ AssetInv r' := by
  obtain ⟨asset, k, hn, hiss, -, hk, hacc, hr'⟩ := createAsset_run hr h
  refine ⟨_, hr', (hi.toAssetLists.addOwner hk hacc).congr rfl rfl rfl, fun a o => ?_⟩
  by_cases e : (a, o) = (.nfAsset tx.account f.ident, tx.account)
  · obtain ⟨rfl, rfl⟩ := Prod.mk.inj e
    simp [Registry.addOwner, hiss]
  have := hi.owner a o
  simp only [Registry.addOwner, Registry.ownerNumber] at *
  rw [update_of_ne e]
  by_cases ha : a = .nfAsset tx.account f.ident
  · -- another account is no issuer of the new asset
    subst ha
    have ho : asset.issuer ≠ o := fun ho => e (by rw [← ho, hiss])
    simpa [hn, ho] using this
  · rw [update_of_ne ha]
    exact this

theorem destroyAsset_assetInv {f : DestroyAsset} (hr : Reg σ r) (hi : AssetInv r)
    (hiss : ∃ asset, r.asset f.assetID = some asset ∧ asset.issuer = tx.account)
    (h : Succeeds (f.doApply tx) σ σ') : ∃ r', Reg σ' r' ∧ AssetInv r' := by
  obtain ⟨asset, hass, hiss⟩ := hiss
  obtain ⟨_, _, -, -, howne, hr'⟩ := destroyAsset_run hr h
  rcases howne with ⟨hno, -⟩ | ⟨_, hacc, hrem⟩
  · -- the issuer is always an owner
    have := (hi.owner f.assetID tx.account).2 (.inr (by rw [hass, ← hiss]; rfl))
    simp [hno] at this
  obtain ⟨r1, hr1, hl, hta⟩ := hi.toAssetLists.remove hr hacc hrem
  refine ⟨_, hr' r1 hr1 hta.asset, hl.congr rfl rfl rfl, fun a o => ?_⟩
  have hown := hi.owner a o
  simp only [Registry.ownerNumber] at hown ⊢
  by_cases e : (a, o) = (f.assetID, tx.account)
  · obtain ⟨rfl, rfl⟩ := Prod.mk.inj e
    simp [hta.gone]
  have hot := hta.other _ e
  have hso : (r1.account (a, o)).isSome = (r.account (a, o)).isSome := by
    rw [← Option.isSome_map, hot, Option.isSome_map]
  rw [hso, hot, hown]
  by_cases ha : a = f.assetID
  · subst ha
    have ho : asset.issuer ≠ o := fun ho => e (by rw [← ho, hiss])
    simp [hass, ho]
  · rw [update_of_ne ha]

theorem AssetInv.countAsset {asset : NFAsset} (hi : AssetInv r) (ha : r.asset a = some asset)
    (n : Nat) : AssetInv (r.countAsset a asset n) := by
  refine hi.congr (fun a' => ?_) rfl rfl rfl
  by_cases e : a' = a
  · subst e; simp [Registry.countAsset, ha]
  · simp [Registry.countAsset, e]

theorem createToken_assetInv {f : CreateToken} (hr : Reg σ r) (hi : AssetInv r)
    (h : Succeeds (f.doApply tx) σ σ') : ∃ r', Reg σ' r' ∧ AssetInv r' := by
  obtain ⟨_, _, _, m, _, ha, -, hr1, hadd, -, -, -, -, hr'⟩ := createToken_run hr h
  obtain ⟨r2, hr2, hi2, -⟩ := (hi.countAsset ha _).addOwnerToken hr1 hadd
  exact ⟨_, hr' r2 hr2, hi2.congr (fun _ => rfl) rfl rfl rfl⟩

section
variable (hr : Reg σ r) (ht : TokenInv r) (hi : AssetInv r)
include hr ht hi

theorem destroyToken_assetInv {q : TokenRef} {permission : NFToken → NFAsset → Bool}
    (h : Succeeds (destroyToken q permission) σ σ') : ∃ r', Reg σ' r' ∧ AssetInv r' := by
  obtain ⟨tok, asset, _, n, m, y, z, _, _, -, ha, -, hacc, -, -, -, hr1, hd, hr'⟩ :=
    destroyToken_run hr ht h
  have hi1 : AssetInv { r.countAsset tok.assetID asset n with
      token := Function.update r.token q.tokenKey.key none } :=
    (hi.countAsset ha n).congr (fun _ => rfl) rfl rfl rfl
  obtain ⟨r2, hr2, hi2, -⟩ := hi1.dropOwnerToken hr1 (by simp [Registry.countAsset]) hacc hd
  obtain ⟨_, hr3, hs⟩ := dropOwnerToken_number hr1 hd
  obtain rfl := hr2.unique hr3
  exact ⟨_, hr' r2 hr2 (by simp [hs.token]), hi2.congr (fun _ => rfl) rfl rfl rfl⟩

theorem transferToken_assetInv {f : TransferToken} (h : Succeeds (f.doApply tx) σ σ') :
    ∃ r', Reg σ' r' ∧ AssetInv r' := by
  obtain ⟨tok, _, _, m, z, _, _, _, _, htok, -, hass, hacc, -, -, hd, hr2, ha,
    hr'⟩ := transferToken_run hr ht h
  obtain ⟨r1, hr1, hi1, -⟩ := hi.dropOwnerToken hr (by rw [hass]; rfl) hacc hd
  obtain ⟨_, hr1', hs⟩ := dropOwnerToken_number hr hd
  obtain rfl := hr1.unique hr1'
  have hr2 := hr2 r1 hr1 hs.token
  have hi2 : AssetInv (r1.unlistOwner tok m z) := hi1.congr (fun _ => rfl) rfl rfl rfl
  obtain ⟨r3, hr3, hi3, -⟩ := hi2.addOwnerToken hr2 ha
  obtain ⟨-, _, hr3', hs'⟩ := addOwnerToken_number hr2 ha
  obtain rfl := hr3.unique hr3'
  refine ⟨_, hr' r3 hr3 ?_, hi3.congr (fun _ => rfl) rfl rfl rfl⟩
  rw [hs'.token]
  simp only [Registry.unlistOwner, hs.token, relocate_apply, htok]
  split <;> rfl

theorem nft_assetInv {x : NFTx}
    (hiss : ∀ f, x = .destroyAsset f → ∃ asset, r.asset f.assetID = some asset ∧
      asset.issuer = tx.account)
    (h : Succeeds (NFTx.doApply tx x) σ σ') : ∃ r', Reg σ' r' ∧ AssetInv r' := by
  cases x with
  | createAsset f => exact createAsset_assetInv hr hi h
  | destroyAsset f => exact destroyAsset_assetInv hr hi (hiss f rfl) h
  | createToken f => exact createToken_assetInv hr hi h
  | destroyToken q => exact destroyToken_assetInv hr ht hi h
  | revokeToken q => exact destroyToken_assetInv hr ht hi h
  | transferToken f => exact transferToken_assetInv hr ht hi h

end

/-! ## The ledger -/

/-- What a reader of the ledger finds in the lists of assets. -/
structure AssetsEnumerated (σ : State) : Prop where
  index : ∀ {o root}, σ.get (keylet.account o) = some root →
    ∀ i, (σ.get (keylet.nfAssetIndex o i)).isSome ↔ i < root.assetNumber
  asset : ∀ o i a, (σ.get (keylet.nfAssetIndex o i)).map NFAssetIndex.assetID = some a ↔
    ∃ acc, σ.get (keylet.nftAccount a o) = some acc ∧ acc.assetIndex = some i
  listed : ∀ {a o acc}, σ.get (keylet.nftAccount a o) = some acc → acc.assetIndex.isSome
  owner : ∀ a o, (σ.get (keylet.nftAccount a o)).isSome ↔
    (∃ t tok, σ.get (keylet.nfTokenAt t) = some tok ∧ tok.assetID = a ∧ tok.owner = o) ∨
      ∃ asset, σ.get (keylet.nfAssetAt a) = some asset ∧ asset.issuer = o

theorem TokenInv.ownerNumber_pos (ht : TokenInv r) :
    0 < r.ownerNumber (a, o) ↔ ∃ t tok, r.token t = some tok ∧ tok.assetID = a ∧ tok.owner = o := by
  constructor
  · intro hpos
    obtain ⟨t, -, hp⟩ := (ht.owners (a, o)).exists_of_lt hpos
    obtain ⟨tok, htok, hao, -⟩ := Registry.ownerPos_eq_some.1 hp
    exact ⟨t, tok, htok, Prod.mk.inj hao⟩
  rintro ⟨t, tok, htok, rfl, rfl⟩
  have hlt := (ht.owners (tok.assetID, tok.owner)).lt
    (Registry.ownerPos_eq_some.2 ⟨tok, htok, rfl, rfl⟩)
  omega

theorem AssetInv.enumerated (hr : Reg σ r) (ht : TokenInv r) (hi : AssetInv r) :
    AssetsEnumerated σ where
  index {o root} h i := by
    have hd := (hi.lists o).dom i
    rw [← hr.assetIndex_eq, ← hr.assetNumber_eq, h] at hd
    simpa using hd
  asset o i a := by
    have hd := (hi.lists o).inv i a
    rw [← hr.assetIndex_eq, Registry.assetPos, ← hr.account_eq, Option.bind_eq_some_iff] at hd
    exact hd
  listed {a o acc} h := hi.listed (a, o) acc ((hr.account_eq a o).symm.trans h)
  owner a o := by
    rw [hr.account_eq, hi.owner, ht.ownerNumber_pos, hr.asset_eq, Option.map_eq_some_iff]
    simp only [hr.token_eq]

theorem assetInv_of_run {v v' : OpenView} (h : v.state.NoNFT)
    (hn : ∀ o root, v.state.get (keylet.account o) = some root → root.assetNumber = 0)
    (hrun : Relation.ReflTransGen (Applies (Set.range NFTx.transactor)) v v') :
    ∃ r, Reg v'.state r ∧ TokenInv r ∧ AssetInv r := by
  induction hrun with
  | refl =>
    refine ⟨_, h.reg, ⟨fun _ => DenseIndex.empty, fun _ => DenseIndex.empty⟩,
      ⟨fun o => ?_, fun _ _ ha => by cases ha⟩, fun a o => by simp [Registry.ownerNumber]⟩
    have hze : (v.state.registry.assetNumber o).getD 0 = 0 := by
      simp only [State.registry]
      cases hro : v.state.get (keylet.account o) with
      | none => rfl
      | some root => exact hn o root hro
    rw [hze]
    exact DenseIndex.empty
  | tail _ hst ih =>
    obtain ⟨r, hr, ht, hi⟩ := ih
    rcases nft_step hst hr with hr' | ⟨x, _, _, hr1, hx, hiss⟩
    · exact ⟨r, hr', ht, hi⟩
    obtain ⟨r', hr', ht'⟩ := nft_tokenInv hr1 ht hx
    obtain ⟨_, hr'', hi'⟩ := nft_assetInv hr1 ht hi hiss hx
    obtain rfl := hr'.unique hr''
    exact ⟨r', hr', ht', hi'⟩

/-- After any transactions on a ledger without assets, the index of every owner enumerates its
assets. -/
theorem asset_enumeration {v v' : OpenView} (h : v.state.NoNFT)
    (hnum : ∀ o root, v.state.get (keylet.account o) = some root → root.assetNumber = 0)
    (hrun : Relation.ReflTransGen (Applies (Set.range NFTx.transactor)) v v') :
    AssetsEnumerated v'.state := by
  obtain ⟨r, hr, ht, hi⟩ := assetInv_of_run h hnum hrun
  exact hi.enumerated hr ht

/-- The same run. -/
theorem asset_enumeration_sample :
    Relation.ReflTransGen (Applies (Set.range NFTx.transactor)) Sample.nft₀ Sample.nft₃ ∧
      AssetsEnumerated Sample.nft₃.state := by
  refine ⟨Sample.nft_run, asset_enumeration (Sample.ledger_noNFT _ _) (fun o root h => ?_)
    Sample.nft_run⟩
  simp only [State.get, OpenView.state, Sample.ledger, keylet.account] at h
  obtain ⟨e, he, h⟩ := Option.bind_eq_some_iff.1 h
  simp only [Option.map_map, Option.map_eq_some_iff] at he
  obtain ⟨acc, hf, rfl⟩ := he
  obtain rfl : acc = root := Option.some.inj h
  have := List.mem_of_find?_eq_some hf
  simp only [List.mem_cons, List.not_mem_nil, or_false] at this
  rcases this with rfl | rfl | rfl <;> rfl

end FinPal
