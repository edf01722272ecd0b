import FinPal.Verify.NFTokens

/-!
# The token transactors step by step

One inversion lemma for each `doApply`: what it found, and the registry it left. The change of an
owner's number of tokens is kept as the run of a helper.
-/

namespace FinPal
open Store ViewM Registry Function
variable {σ σ' : State} {r : Registry} {a t y z : Digest} {o : AccountID} {i n m : Nat} {u : Unit}
  {tx : STTx}

theorem relocate_eq_self {f : NFToken → NFToken} {tokens : Digest → Option NFToken}
    (h : ∀ k, tokens z = some k → f k = k) : relocate f z tokens = tokens := by
  unfold relocate
  rw [update_eq_iff]
  refine ⟨?_, fun _ _ => rfl⟩
  cases hz : tokens z with
  | none => rfl
  | some k => simp [h k hz]

theorem update_free {κ β : Type} [DecidableEq κ] {f : κ → Option β} {x k : κ} {b : Option β}
    (h : f x = none) (hne : x ≠ k) : update (update f k b) x none = update f k b := by
  rw [update_eq_iff]
  exact ⟨by rw [update_of_ne hne, h], fun _ _ => rfl⟩

theorem moveLastToken_reg (hr : Reg σ r) (hn : r.index (a, n) = none)
    (hy : i = n → r.token y = none) (h : exec (moveLastToken a i n y) σ = .ok (u, σ')) :
    Reg σ' { r with
      index := update (update r.index (a, i) (some y)) (a, n) none
      token := relocate (fun x => { x with tokenIndex := i }) y r.token } := by
  unfold moveLastToken at h
  split at h
  · next hin =>
    obtain ⟨x, -, h⟩ := exec_update_ok h
    obtain ⟨k, hk, rfl⟩ := exec_update.1 h
    have hr1 := hr.setIndex a i { x with tokenID := y }
    obtain ⟨hkey, -⟩ := hr1.filed.tokenKey hk
    have hky : r.token y = some k := (hr1.token_eq y).symm.trans hk
    unfold relocate
    rw [update_free hn fun e => hin (Prod.mk.inj e).2.symm, hky]
    exact hr1.setToken hkey _
  · next hin =>
    obtain ⟨-, rfl⟩ := exec_pure.1 h
    obtain rfl : i = n := not_not.1 hin
    rw [update_idem, ← hn, update_eq_self, relocate_eq_self fun k hk => by rw [hy rfl] at hk; cases hk]
    exact hr

theorem moveLastOwnerToken_reg (hr : Reg σ r) (hm : r.ownerIndex (a, o, m) = none)
    (hz : i = m → ∀ k, r.token z = some k → k.ownerTokenIndex = i)
    (h : exec (moveLastOwnerToken a o i m z) σ = .ok (u, σ')) :
    Reg σ' { r with
      ownerIndex := update (update r.ownerIndex (a, o, i) (some z)) (a, o, m) none
      token := relocate (fun x => { x with ownerTokenIndex := i }) z r.token } := by
  unfold moveLastOwnerToken at h
  split at h
  · next him =>
    obtain ⟨x, -, h⟩ := exec_update_ok h
    obtain ⟨k, hk, rfl⟩ := exec_update.1 h
    have hr1 := hr.setOwnerIndex a o i { x with tokenID := z }
    obtain ⟨hkey, -⟩ := hr1.filed.tokenKey hk
    have hkz : r.token z = some k := (hr1.token_eq z).symm.trans hk
    unfold relocate
    rw [update_free hm fun e => him (Prod.mk.inj (Prod.mk.inj e).2).2.symm, hkz]
    exact hr1.setToken hkey _
  · next him =>
    obtain ⟨-, rfl⟩ := exec_pure.1 h
    obtain rfl : i = m := not_not.1 him
    rw [update_idem, ← hm, update_eq_self, relocate_eq_self fun k hk => by rw [← hz rfl k hk]]
    exact hr

/-! ## CreateToken -/

def Registry.countAsset (r : Registry) (a : Digest) (asset : NFAsset) (n : Nat) : Registry :=
  { r with asset := Function.update r.asset a (some { asset with tokenNumber := n }) }

/-- The registry a successful `CreateToken` leaves, after its owner was counted. -/
def Registry.listToken (r : Registry) (t : Digest) (tok : NFToken) : Registry :=
  { r with
    token := Function.update r.token t (some tok)
    index := Function.update r.index (tok.assetID, tok.tokenIndex) (some t)
    ownerIndex := Function.update r.ownerIndex (tok.assetID, tok.owner, tok.ownerTokenIndex)
      (some t) }

theorem createToken_run {f : CreateToken} (hr : Reg σ r) (h : Succeeds (f.doApply tx) σ σ') :
    ∃ asset σ1 σ2 m tok, r.asset f.assetID = some asset ∧
      r.token (.nfToken f.assetID f.ident) = none ∧
      Reg σ1 (r.countAsset f.assetID asset (asset.tokenNumber + 1)) ∧
      exec (addOwnerToken f.assetID f.owner) σ1 = .ok (m, σ2) ∧
      tok.assetID = f.assetID ∧ tok.owner = f.owner ∧ tok.tokenIndex = asset.tokenNumber ∧
      tok.ownerTokenIndex = m ∧
      ∀ r2, Reg σ2 r2 → Reg σ' (r2.listToken (.nfToken f.assetID f.ident) tok) := by
  obtain ⟨asset, ha, h⟩ := exec_require h
  obtain ⟨hold, h⟩ := exec_absent h
  dsimp only at h
  obtain ⟨-, h⟩ := exec_guard h
  obtain ⟨asset', has', h⟩ := exec_update_ok h
  obtain rfl : asset = asset' := Option.mem_unique ha has'
  obtain ⟨m, σ2, h4, h⟩ := exec_bind.1 h
  obtain ⟨_, h⟩ := exec_insert_ok h
  obtain ⟨_, _, h6, h⟩ := exec_bind.1 h
  obtain rfl := exec_upsert h6 fun _ => rfl
  obtain ⟨_, _, h7, h⟩ := exec_bind.1 h
  obtain rfl := exec_upsert h7 fun _ => rfl
  obtain ⟨-, rfl⟩ := exec_pure.1 h
  refine ⟨asset, _, σ2, m,
    { assetID := f.assetID, ident := f.ident, tokenID := .nfToken f.assetID f.ident
      owner := f.owner, tokenIndex := asset.tokenNumber, ownerTokenIndex := m
      transactionHash := tx.transactionID, memos := tx.memos, imprint := f.imprint },
    (hr.asset_eq _).symm.trans ha,
    (hr.token_eq (.nfToken f.assetID f.ident)).symm.trans hold, hr.setAsset ha, h4,
    rfl, rfl, rfl, rfl, fun r2 hr2 => ?_⟩
  exact ((hr2.setToken (d := .nfToken f.assetID f.ident) trivial _).setIndex _ _ _).setOwnerIndex
    _ _ _ _

/-! ## Reading what must be there -/

theorem pred64_lt {n k : Nat} (h : k < n) : pred64 n < n := by
  rw [pred64, if_neg (by omega)]
  omega

theorem DenseIndex.pred64_succ {X : Type} {idx : Nat → Option X} {pos : X → Option Nat} {n : Nat}
    {x : X} (h : DenseIndex idx pos n) (hx : idx (pred64 n) = some x) : n = pred64 n + 1 := by
  have hlt : pred64 n < n := (h.dom _).1 (by rw [hx]; rfl)
  by_cases hn : n = 0
  · omega
  · simp only [pred64, hn, if_false]
    omega

/-! ## DestroyToken and RevokeToken -/

/-- The token `tok` leaves both of its lists, whose last tokens are `y` and `z`. -/
def Registry.unlistToken (r : Registry) (tok : NFToken) (n m : Nat) (y z : Digest) : Registry :=
  { r with
    index := Function.update (Function.update r.index (tok.assetID, tok.tokenIndex) (some y))
      (tok.assetID, n) none
    ownerIndex := Function.update
      (Function.update r.ownerIndex (tok.assetID, tok.owner, tok.ownerTokenIndex) (some z))
      (tok.assetID, tok.owner, m) none
    token := relocate (fun x => { x with ownerTokenIndex := tok.ownerTokenIndex }) z
      (relocate (fun x => { x with tokenIndex := tok.tokenIndex }) y r.token) }

theorem update_update_comm {α β : Type} [DecidableEq α] (f : α → β) (i j : α) (x y : β) :
    update (update (update f j y) i x) j y = update (update f i x) j y := by
  by_cases h : i = j
  · subst h; simp
  · rw [update_comm (Ne.symm h), update_idem]

/-- Both lists move their last token into the gap that `tok`, under `t`, leaves. -/
theorem unlistToken_reg {tok : NFToken} (hr : Reg σ r) (ht : r.token t = none)
    (hy : tok.tokenIndex = n → y = t) (hz : tok.ownerTokenIndex = m → z = t)
    (h : Succeeds (do
      erase (keylet.nftIndex tok.assetID n)
      erase (keylet.nftOwnerIndex tok.assetID tok.owner m)
      moveLastToken tok.assetID tok.tokenIndex n y
      moveLastOwnerToken tok.assetID tok.owner tok.ownerTokenIndex m z
      return TER.tesSUCCESS) σ σ') :
    Reg σ' (r.unlistToken tok n m y z) := by
  obtain ⟨_, -, h⟩ := exec_erase_ok h
  obtain ⟨_, -, h⟩ := exec_erase_ok h
  obtain ⟨_, _, h3, h⟩ := exec_bind.1 h
  obtain ⟨_, h4⟩ := exec_last h
  have hr2 := (hr.delIndex tok.assetID n).delOwnerIndex tok.assetID tok.owner m
  have hr3 := moveLastToken_reg hr2 (by simp) (fun e => by rw [hy e]; exact ht) h3
  have hr4 := moveLastOwnerToken_reg hr3 (by simp) (fun e k hk => ?_) h4
  · dsimp only at hr4
    rw [update_update_comm, update_update_comm] at hr4
    exact hr4
  · rw [hz e] at hk
    simp [relocate_apply, ht] at hk

theorem destroyToken_run {q : TokenRef} {permission : NFToken → NFAsset → Bool} (hr : Reg σ r)
    (hi : TokenInv r) (h : Succeeds (destroyToken q permission) σ σ') :
    ∃ tok asset acc n m y z σ1 σ2, r.token q.tokenKey.key = some tok ∧
      r.asset tok.assetID = some asset ∧ asset.tokenNumber = n + 1 ∧
      r.account (tok.assetID, tok.owner) = some acc ∧ acc.tokenNumber = m + 1 ∧
      r.index (tok.assetID, n) = some y ∧ r.ownerIndex (tok.assetID, tok.owner, m) = some z ∧
      Reg σ1 { r.countAsset tok.assetID asset n with
        token := update r.token q.tokenKey.key none } ∧
      exec (dropOwnerToken tok.assetID asset tok.owner acc m) σ1 = .ok ((), σ2) ∧
      ∀ r2, Reg σ2 r2 → r2.token q.tokenKey.key = none → Reg σ' (r2.unlistToken tok n m y z) := by
  dsimp only [destroyToken] at h
  obtain ⟨tok, ht, h⟩ := exec_require h
  obtain ⟨asset, ha, h⟩ := exec_require h
  obtain ⟨-, h⟩ := exec_guard h
  obtain ⟨acc, hacc, h⟩ := exec_require h
  obtain ⟨_, -, h⟩ := exec_require h
  obtain ⟨_, -, h⟩ := exec_require h
  obtain ⟨last, hla, h⟩ := exec_require h
  obtain ⟨_, -, h⟩ := exec_require h
  obtain ⟨lastOwner, hlO, h⟩ := exec_require h
  obtain ⟨_, -, h⟩ := exec_require h
  have ht' := (hr.token_eq _).symm.trans ht
  have has' := (hr.asset_eq _).symm.trans ha
  have ha' := (hr.account_eq _ _).symm.trans hacc
  have hy : r.index (tok.assetID, pred64 asset.tokenNumber) = some last.tokenID := by
    rw [← hr.index_eq, hla]; rfl
  have hz : r.ownerIndex (tok.assetID, tok.owner, pred64 acc.tokenNumber) =
      some lastOwner.tokenID := by
    rw [← hr.ownerIndex_eq, hlO]; rfl
  have hdt := hi.tokens tok.assetID
  have hdo := hi.owners (tok.assetID, tok.owner)
  simp only [tokenNumber, has', Option.map_some, Option.getD_some] at hdt
  simp only [ownerNumber, ha', Option.map_some, Option.getD_some] at hdo
  have hn := hdt.pred64_succ hy
  have hm := hdo.pred64_succ hz
  generalize pred64 asset.tokenNumber = n at *
  generalize pred64 acc.tokenNumber = m at *
  obtain ⟨asset', has1, h⟩ := exec_update_ok h
  obtain rfl : asset = asset' := Option.mem_unique ha has1
  obtain ⟨_, -, h⟩ := exec_erase_ok h
  obtain ⟨_, σ2, h3, h⟩ := exec_bind.1 h
  have hr1 : Reg _ (r.countAsset tok.assetID asset n) := hr.setAsset ha
  refine ⟨tok, asset, acc, n, m, last.tokenID, lastOwner.tokenID, _, σ2, ht', has', hn, ha',
    hm, hy, hz, hr1.delToken ((hr1.token_eq _).trans ht'), h3, fun r2 hr2 hno => ?_⟩
  refine unlistToken_reg hr2 hno (fun e => ?_) (fun e => ?_) h
  · exact hdt.inj ((hdt.inv _ _).1 hy) (tokenPos_eq_some.2 ⟨tok, ht', rfl, e⟩)
  · exact hdo.inj ((hdo.inv _ _).1 hz) (ownerPos_eq_some.2 ⟨tok, ht', rfl, e⟩)

/-! ## TransferToken -/

/-- The token `tok` leaves its owner's list, whose last token is `z`. -/
def Registry.unlistOwner (r : Registry) (tok : NFToken) (m : Nat) (z : Digest) : Registry :=
  { r with
    ownerIndex := Function.update
      (Function.update r.ownerIndex (tok.assetID, tok.owner, tok.ownerTokenIndex) (some z))
      (tok.assetID, tok.owner, m) none
    token := relocate (fun x => { x with ownerTokenIndex := tok.ownerTokenIndex }) z r.token }

/-- The token under `t` goes to the end of the list of `d`. -/
def Registry.giveToken (r : Registry) (t : Digest) (tok : NFToken) (d : AccountID) (m : Nat) :
    Registry :=
  { r with
    ownerIndex := Function.update r.ownerIndex (tok.assetID, d, m) (some t)
    token := Function.update r.token t
      (some { tok with owner := d, ownerTokenIndex := m, approved := none }) }

theorem unlistOwner_reg {tok : NFToken} {σ1 : State} (hr : Reg σ r)
    (hz : tok.ownerTokenIndex = m → r.token z = some tok)
    (h1 : exec (erase (keylet.nftOwnerIndex tok.assetID tok.owner m)) σ = .ok (u, σ1))
    (h2 : exec (moveLastOwnerToken tok.assetID tok.owner tok.ownerTokenIndex m z) σ1 = .ok (u, σ')) :
    Reg σ' (r.unlistOwner tok m z) := by
  obtain ⟨_, -, rfl⟩ := exec_erase.1 h1
  have hr2 := moveLastOwnerToken_reg (hr.delOwnerIndex _ _ m) (by simp) (fun e k hk => ?_) h2
  · dsimp only at hr2
    rw [update_update_comm] at hr2
    exact hr2
  · rw [Option.some.inj (hk.symm.trans (hz e))]

theorem transferToken_run {f : TransferToken} (hr : Reg σ r) (hi : TokenInv r)
    (h : Succeeds (f.doApply tx) σ σ') :
    ∃ tok asset acc m z σ1 σ2 m' σ3, r.token f.token.tokenKey.key = some tok ∧
      f.destination ≠ tok.owner ∧ r.asset tok.assetID = some asset ∧
      r.account (tok.assetID, tok.owner) = some acc ∧ acc.tokenNumber = m + 1 ∧
      r.ownerIndex (tok.assetID, tok.owner, m) = some z ∧
      exec (dropOwnerToken tok.assetID asset tok.owner acc m) σ = .ok ((), σ1) ∧
      (∀ r1, Reg σ1 r1 → r1.token = r.token → Reg σ2 (r1.unlistOwner tok m z)) ∧
      exec (addOwnerToken tok.assetID f.destination) σ2 = .ok (m', σ3) ∧
      ∀ r3, Reg σ3 r3 → r3.token f.token.tokenKey.key = some tok →
        Reg σ' (r3.giveToken f.token.tokenKey.key tok f.destination m') := by
  dsimp only [TransferToken.doApply] at h
  obtain ⟨tok, ht, h⟩ := exec_require h
  obtain ⟨asset, ha, h⟩ := exec_require h
  obtain ⟨_, _, h0, h⟩ := exec_bind.1 h
  obtain ⟨_, -, h0⟩ := exec_peek_ok h0
  obtain ⟨-, rfl⟩ := exec_pure.1 h0
  obtain ⟨-, h⟩ := exec_guard h
  obtain ⟨hne, h⟩ := exec_guard h
  obtain ⟨acc, hacc, h⟩ := exec_require h
  obtain ⟨_, -, h⟩ := exec_require h
  obtain ⟨lastOwner, hlO, h⟩ := exec_require h
  obtain ⟨_, -, h⟩ := exec_require h
  have ht' := (hr.token_eq _).symm.trans ht
  have ha' := (hr.account_eq _ _).symm.trans hacc
  have hz : r.ownerIndex (tok.assetID, tok.owner, pred64 acc.tokenNumber) =
      some lastOwner.tokenID := by
    rw [← hr.ownerIndex_eq, hlO]; rfl
  have hdo := hi.owners (tok.assetID, tok.owner)
  simp only [ownerNumber, ha', Option.map_some, Option.getD_some] at hdo
  have hm := hdo.pred64_succ hz
  generalize pred64 acc.tokenNumber = m at *
  obtain ⟨_, σ1, h1, h⟩ := exec_bind.1 h
  obtain ⟨_, _, h2, h⟩ := exec_bind.1 h
  obtain ⟨_, σ2, h3, h⟩ := exec_bind.1 h
  obtain ⟨m', σ3, h4, h⟩ := exec_bind.1 h
  obtain ⟨_, _, h5, h⟩ := exec_bind.1 h
  obtain rfl := exec_upsert h5 fun _ => rfl
  obtain ⟨_, h6⟩ := exec_last h
  obtain ⟨tok', ht3, rfl⟩ := exec_update.1 h6
  refine ⟨tok, asset, acc, m, lastOwner.tokenID, σ1, σ2, m', σ3, ht', hne,
    (hr.asset_eq _).symm.trans ha, ha', hm, hz, h1, fun r1 hr1 heq => ?_, h4,
    fun r3 hr3 heq => ?_⟩
  · refine unlistOwner_reg hr1 (fun e => ?_) h2 h3
    -- the token is itself the last of the list
    have hse := ownerPos_eq_some.2 ⟨tok, ht', rfl, e⟩
    rw [heq, hdo.inj ((hdo.inv _ _).1 hz) hse, ht']
  have hr4 := hr3.setOwnerIndex tok.assetID f.destination m' { tokenID := f.token.tokenKey.key }
  obtain ⟨hk, -⟩ := hr4.filed.tokenKey ht3
  obtain rfl : tok' = tok := by
    have := (hr4.token_eq _).symm.trans ht3
    exact Option.mem_unique this heq
  exact hr4.setToken hk _

/-! ## CreateAsset and DestroyAsset -/

theorem createAsset_run {f : CreateAsset} (hr : Reg σ r) (h : Succeeds (f.doApply tx) σ σ') :
    ∃ asset k, r.asset (.nfAsset tx.account f.ident) = none ∧ asset.issuer = tx.account ∧
      asset.tokenNumber = 0 ∧ r.assetNumber tx.account = some k ∧
      r.account (.nfAsset tx.account f.ident, tx.account) = none ∧
      Reg σ' { r.addOwner (.nfAsset tx.account f.ident) tx.account k with
        asset := update r.asset (.nfAsset tx.account f.ident) (some asset) } := by
  obtain ⟨hold, h⟩ := exec_absent h
  obtain ⟨-, h⟩ := exec_insert_ok h
  obtain ⟨_, h3⟩ := exec_last h
  obtain ⟨k, hk, ha, hr3⟩ := addAssetOwner_reg
    (hr.newAsset (d := .nfAsset tx.account f.ident) trivial _) h3
  exact ⟨_, k, (hr.asset_eq _).symm.trans hold, rfl, rfl, hk, ha, hr3⟩

/-- An asset without tokens is destroyed; its issuer leaves the list of owners. -/
theorem destroyAsset_run {f : DestroyAsset} (hr : Reg σ r) (h : Succeeds (f.doApply tx) σ σ') :
    ∃ asset σ1, r.asset f.assetID = some asset ∧ asset.tokenNumber = 0 ∧
      ((r.account (f.assetID, tx.account) = none ∧ σ1 = σ) ∨
        ∃ acc, r.account (f.assetID, tx.account) = some acc ∧
          exec (removeAssetOwner tx.account f.assetID acc) σ = .ok ((), σ1)) ∧
      ∀ r1, Reg σ1 r1 → r1.asset = r.asset →
        Reg σ' { r1 with asset := update r.asset f.assetID none } := by
  obtain ⟨asset, ha, h⟩ := exec_peek!_ok h
  have has' := (hr.asset_eq _).symm.trans ha
  obtain ⟨_, h⟩ := exec_guard h
  obtain ⟨acc, hacc, h⟩ := exec_peek_ok h
  have ha' := (hr.account_eq _ _).symm.trans hacc
  cases acc with
  | none =>
    obtain rfl := exec_erase_last h
    refine ⟨asset, _, has', by omega, .inl ⟨ha', rfl⟩, fun r1 hr1 heq => ?_⟩
    rw [← heq]
    exact hr1.delAsset ha
  | some acc =>
    obtain ⟨_, σ1, h3, h⟩ := exec_bind.1 h
    obtain ⟨_, hx, h⟩ := exec_erase_ok h
    obtain ⟨-, rfl⟩ := exec_pure.1 h
    refine ⟨asset, σ1, has', by omega, .inr ⟨acc, ha', h3⟩, fun r1 hr1 heq => ?_⟩
    rw [← heq]
    exact hr1.delAsset hx

end FinPal
