import FinPal.Verify.NFTRuns

/-!
# The tokens of every asset are enumerated
-/

namespace FinPal
open Store ViewM Registry
variable {σ σ' : State} {r r' : Registry} {tx : STTx}

theorem TokenInv.congr (hi : TokenInv r) (ht : r'.token = r.token) (hidx : r'.index = r.index)
    (ho : r'.ownerIndex = r.ownerIndex) (hn : r'.tokenNumber = r.tokenNumber)
    (hon : r'.ownerNumber = r.ownerNumber) : TokenInv r' where
  tokens a := by
    have hp : r'.tokenPos a = r.tokenPos a := by unfold tokenPos; rw [ht]
    rw [hp, hn, hidx]
    exact hi.tokens a
  owners p := by
    have hp : r'.ownerPos p = r.ownerPos p := by unfold ownerPos; rw [ht]
    rw [hp, hon, ho]
    exact hi.owners p

theorem TokenInv.ownerNumber_eq_zero (hi : TokenInv r) {a : Digest} (h : r.tokenNumber a = 0)
    (o : AccountID) : r.ownerNumber (a, o) = 0 := by
  by_contra hne
  obtain ⟨t, -, ht⟩ := (hi.owners (a, o)).exists_of_lt (Nat.pos_of_ne_zero hne)
  obtain ⟨tok, htok, hp, -⟩ := ownerPos_eq_some.1 ht
  have hlt := (hi.tokens a).lt (tokenPos_eq_some.2 ⟨tok, htok, (Prod.mk.inj hp).1, rfl⟩)
  omega

/-! ## Each transactor keeps the enumerations -/

section
variable (hr : Reg σ r) (hi : TokenInv r)
include hr hi

theorem createAsset_tokenInv {f : CreateAsset}
    (h : Succeeds (f.doApply tx) σ σ') : ∃ r', Reg σ' r' ∧ TokenInv r' := by
  obtain ⟨_, k, hn, -, hz, -, hacc, hr'⟩ := createAsset_run hr h
  refine ⟨_, hr', hi.congr rfl rfl rfl (funext fun a => ?_) (funext fun p => ?_)⟩
  · by_cases ha : a = .nfAsset tx.account f.ident
    · subst ha; simp [tokenNumber, hn, hz]
    · simp [tokenNumber, ha]
  by_cases hp : p = (.nfAsset tx.account f.ident, tx.account)
  · subst hp; simp [ownerNumber, Registry.addOwner, hacc]
  · simp [ownerNumber, Registry.addOwner, hp]

theorem destroyAsset_tokenInv {f : DestroyAsset}
    (h : Succeeds (f.doApply tx) σ σ') : ∃ r', Reg σ' r' ∧ TokenInv r' := by
  obtain ⟨_, _, hass, hz, ho, hr'⟩ := destroyAsset_run hr h
  have hn : r.tokenNumber f.assetID = 0 := by simp [tokenNumber, hass, hz]
  have hnum : (fun a => ((Function.update r.asset f.assetID none a).map
      NFAsset.tokenNumber).getD 0) = r.tokenNumber := by
    funext a
    by_cases ha : a = f.assetID
    · subst ha; simp [hn]
    · simp [tokenNumber, ha]
  rcases ho with ⟨-, rfl⟩ | ⟨_, -, hrem⟩
  · exact ⟨_, hr' r hr rfl, hi.congr rfl rfl rfl hnum rfl⟩
  obtain ⟨r1, hr1, hta⟩ := removeAssetOwner_takes hr hrem
  have hs := hta.setsOwnerNumber
  refine ⟨_, hr' r1 hr1 hta.asset, hi.congr hs.token hs.index hs.ownerIndex hnum ?_⟩
  refine hs.number.trans ?_
  rw [← hi.ownerNumber_eq_zero hn tx.account, Function.update_eq_self]

theorem createToken_tokenInv {f : CreateToken}
    (h : Succeeds (f.doApply tx) σ σ') : ∃ r', Reg σ' r' ∧ TokenInv r' := by
  obtain ⟨_, _, _, m, tok, hass, hno, hr1, hadd, ha, ho, hidx, hoi, hr'⟩ :=
    createToken_run hr h
  obtain ⟨hm, r2, hr2, hs⟩ := addOwnerToken_number hr1 hadd
  rw [← ha, ← ho] at hs hm
  rw [← ha] at hass
  have hmi : Minted (.nfToken f.assetID f.ident) tok r
      (r2.listToken (.nfToken f.assetID f.ident) tok) :=
    { fresh := hno
      number := by simp [tokenNumber, hass, hidx]
      ownerNumber := by rw [hoi, hm]; rfl
      token := by simp [listToken, hs.token, countAsset]
      tokenNumber := by
        funext a
        by_cases e : a = tok.assetID
        · subst e
          simp [tokenNumber, listToken, hs.asset, countAsset, hidx]
        · simp [tokenNumber, listToken, hs.asset, countAsset, e]
      index := by simp [listToken, hs.index, countAsset]
      ownerNumber' := by rw [hoi]; exact hs.number
      ownerIndex := by simp [listToken, hs.ownerIndex, countAsset] }
  exact ⟨_, hr' r2 hr2, hmi.inv hi⟩

theorem destroyToken_tokenInv {q : TokenRef} {permission : NFToken → NFAsset → Bool}
    (h : Succeeds (destroyToken q permission) σ σ') : ∃ r', Reg σ' r' ∧ TokenInv r' := by
  obtain ⟨tok, _, _, n, m, y, z, _, _, ht, ha, hn, hacc, hm, hy, hz, hr1, hdr, hr'⟩ :=
    destroyToken_run hr hi h
  obtain ⟨r2, hr2, hs⟩ := dropOwnerToken_number hr1 hdr
  have hbu : Burned q.tokenKey.key tok n m y z r (r2.unlistToken tok n m y z) :=
    { was := ht
      number := by simp [tokenNumber, ha, hn]
      ownerNumber := by simp [ownerNumber, hacc, hm]
      last := hy
      lastOwner := hz
      token := by simp [unlistToken, hs.token]
      tokenNumber := by
        funext a
        by_cases e : a = tok.assetID
        · subst e
          simp [tokenNumber, unlistToken, hs.asset, countAsset]
        · simp [tokenNumber, unlistToken, hs.asset, countAsset, e]
      index := by simp [unlistToken, hs.index, countAsset]
      ownerNumber' := hs.number
      ownerIndex := by simp [unlistToken, hs.ownerIndex, countAsset] }
  exact ⟨_, hr' r2 hr2 (by simp [hs.token]), hbu.inv hi⟩

theorem transferToken_tokenInv {f : TransferToken}
    (h : Succeeds (f.doApply tx) σ σ') : ∃ r', Reg σ' r' ∧ TokenInv r' := by
  obtain ⟨tok, _, _, m, z, _, _, m', _, ht, hne, -, ha, hm, hz, hdr, hr2, hadd,
    hr'⟩ := transferToken_run hr hi h
  obtain ⟨r1, hr1, hs⟩ := dropOwnerToken_number hr hdr
  obtain ⟨hm', r3, hr3, hs'⟩ := addOwnerToken_number (hr2 r1 hr1 hs.token) hadd
  have hn : r.ownerNumber (tok.assetID, f.destination) = m' := by
    rw [hm']
    change _ = r1.ownerNumber _
    rw [hs.number, Function.update_of_ne (by simp [hne])]
  have ht3 : r3.token f.token.tokenKey.key = some tok := by
    rw [hs'.token]
    simp only [unlistOwner, hs.token, relocate_apply, ht]
    split <;> rfl
  have hmo : Moved f.token.tokenKey.key tok f.destination m m' z r
      (r3.giveToken f.token.tokenKey.key tok f.destination m') :=
    { was := ht
      ne := hne
      ownerNumber := by simp [ownerNumber, ha, hm]
      destNumber := hn
      lastOwner := hz
      token := by simp [giveToken, unlistOwner, hs'.token, hs.token]
      tokenNumber := by
        funext a
        simp [tokenNumber, giveToken, unlistOwner, hs'.asset, hs.asset]
      index := by simp [giveToken, unlistOwner, hs'.index, hs.index]
      ownerNumber' := by
        change r3.ownerNumber = _
        rw [hs'.number, ← hs.number]
        rfl
      ownerIndex := by
        simp [giveToken, unlistOwner, hs'.ownerIndex, hs.ownerIndex] }
  exact ⟨_, hr' r3 hr3 ht3, hmo.inv hi⟩

theorem nft_tokenInv {x : NFTx}
    (h : Succeeds (NFTx.doApply tx x) σ σ') : ∃ r', Reg σ' r' ∧ TokenInv r' := by
  cases x with
  | createAsset f => exact createAsset_tokenInv hr hi h
  | destroyAsset f => exact destroyAsset_tokenInv hr hi h
  | createToken f => exact createToken_tokenInv hr hi h
  | destroyToken q => exact destroyToken_tokenInv hr hi h
  | revokeToken q => exact destroyToken_tokenInv hr hi h
  | transferToken f => exact transferToken_tokenInv hr hi h

end

/-! ## No entry is missing -/

theorem TokenInv.listed (hi : TokenInv r) {t : Digest} {tok : NFToken} (htok : r.token t = some tok) :
    ∃ asset acc y z ky kz, r.asset tok.assetID = some asset ∧
      r.account (tok.assetID, tok.owner) = some acc ∧
      r.index (tok.assetID, tok.tokenIndex) = some t ∧
      r.ownerIndex (tok.assetID, tok.owner, tok.ownerTokenIndex) = some t ∧
      r.index (tok.assetID, pred64 asset.tokenNumber) = some y ∧ r.token y = some ky ∧
      r.ownerIndex (tok.assetID, tok.owner, pred64 acc.tokenNumber) = some z ∧
      r.token z = some kz := by
  have hdt := hi.tokens tok.assetID
  have hdo := hi.owners (tok.assetID, tok.owner)
  have ht := tokenPos_eq_some.2 ⟨tok, htok, rfl, rfl⟩
  have ho := ownerPos_eq_some.2 ⟨tok, htok, rfl, rfl⟩
  have hn := hdt.lt ht
  have hm := hdo.lt ho
  cases ha : r.asset tok.assetID with
  | none => simp [tokenNumber, ha] at hn
  | some asset =>
  cases hacc : r.account (tok.assetID, tok.owner) with
  | none => simp [ownerNumber, hacc] at hm
  | some acc =>
  simp only [tokenNumber, ha, Option.map_some, Option.getD_some] at hdt hn
  simp only [ownerNumber, hacc, Option.map_some, Option.getD_some] at hdo hm
  obtain ⟨y, hy, hyp⟩ := hdt.exists_of_lt (pred64_lt hn)
  obtain ⟨z, hz, hzp⟩ := hdo.exists_of_lt (pred64_lt hm)
  obtain ⟨ky, hky, -⟩ := tokenPos_eq_some.1 hyp
  obtain ⟨kz, hkz, -⟩ := ownerPos_eq_some.1 hzp
  exact ⟨asset, acc, y, z, ky, kz, rfl, rfl, (hdt.inv _ _).2 ht, (hdo.inv _ _).2 ho, hy, hky, hz,
    hkz⟩

theorem Reg.getIndex (hr : Reg σ r) {a t : Digest} {i : Nat} (h : r.index (a, i) = some t) :
    σ.get (keylet.nftIndex a i) = some ⟨t⟩ := by
  rw [← hr.index_eq, Option.map_eq_some_iff] at h
  obtain ⟨⟨_⟩, hx, rfl⟩ := h
  exact hx

theorem Reg.getOwnerIndex (hr : Reg σ r) {a t : Digest} {o : AccountID} {i : Nat}
    (h : r.ownerIndex (a, o, i) = some t) : σ.get (keylet.nftOwnerIndex a o i) = some ⟨t⟩ := by
  rw [← hr.ownerIndex_eq, Option.map_eq_some_iff] at h
  obtain ⟨⟨_⟩, hx, rfl⟩ := h
  exact hx

theorem destroyToken_ne_tefINTERNAL {q : TokenRef} {permission : NFToken → NFAsset → Bool}
    (hr : Reg σ r) (hi : TokenInv r) :
    exec (destroyToken q permission) σ ≠ .ok (.tefINTERNAL, σ') := by
  intro h
  dsimp only [destroyToken] at h
  rw [exec_peek_bind] at h
  cases htok : σ.get q.tokenKey with
  | none =>
    rw [htok] at h
    cases (exec_pure.1 h).1
  | some _ =>
  obtain ⟨_, _, y, z, _, _, ha, hacc, ht, ho, hy, hky, hz, hkz⟩ :=
    hi.listed ((hr.token_eq _).symm.trans htok)
  rw [htok, exec_peek_bind, (hr.asset_eq _).trans ha] at h
  obtain ⟨-, h⟩ := exec_guard h
  rw [exec_peek_bind, (hr.account_eq _ _).trans hacc, exec_peek_bind, hr.getIndex ht, exec_peek_bind,
    hr.getOwnerIndex ho, exec_peek_bind, hr.getIndex hy, exec_peek_bind,
    (hr.token_eq _).trans hky, exec_peek_bind, hr.getOwnerIndex hz, exec_peek_bind,
    (hr.token_eq _).trans hkz] at h
  iterate 7 obtain ⟨_, _, -, h⟩ := exec_bind.1 h
  cases (exec_pure.1 h).1

theorem transferToken_ne_tefINTERNAL {f : TransferToken} (hr : Reg σ r) (hi : TokenInv r) :
    exec (f.doApply tx) σ ≠ .ok (.tefINTERNAL, σ') := by
  intro h
  dsimp only [TransferToken.doApply] at h
  rw [exec_peek_bind] at h
  cases ht : σ.get f.token.tokenKey with
  | none =>
    rw [ht] at h
    cases (exec_pure.1 h).1
  | some _ =>
  obtain ⟨_, _, y, z, -, _, ha, hacc, -, ho, -, -, hz, hkz⟩ :=
    hi.listed ((hr.token_eq _).symm.trans ht)
  rw [ht, exec_peek_bind, (hr.asset_eq _).trans ha] at h
  obtain ⟨_, _, h0, h⟩ := exec_bind.1 h
  obtain ⟨-, rfl⟩ := exec_pure.1 h0
  obtain ⟨-, h⟩ := exec_guard h
  obtain ⟨-, h⟩ := exec_guard h
  rw [exec_peek_bind, (hr.account_eq _ _).trans hacc, exec_peek_bind, hr.getOwnerIndex ho,
    exec_peek_bind, hr.getOwnerIndex hz, exec_peek_bind, (hr.token_eq _).trans hkz] at h
  iterate 6 obtain ⟨_, _, -, h⟩ := exec_bind.1 h
  cases (exec_pure.1 h).1

/-! ## The ledger -/

/-- The entries of assets, tokens and their lists. -/
def Entry.isNFT : Entry → Bool
  | .nfAsset _ | .nfToken _ | .nftAccount _ | .nftIndex _ | .nftOwnerIndex _ | .nfAssetIndex _ => true
  | _ => false

/-- A ledger without assets and tokens. -/
def State.NoNFT (σ : State) : Prop := ∀ d e, σ d = some e → e.isNFT = false

theorem State.NoNFT.get_eq_none {α : Type} [IsEntry α] (h : σ.NoNFT)
    (hα : ∀ x : α, (toEntry x).isNFT = true) (k : Keylet α) : σ.get k = none := by
  rw [Option.eq_none_iff_forall_ne_some]
  intro x hx
  have := h _ _ (State.get_eq_some.1 hx)
  rw [hα] at this
  cases this

theorem State.NoNFT.reg (h : σ.NoNFT) :
    Reg σ { asset := fun _ => none, token := fun _ => none, account := fun _ => none
            index := fun _ => none, ownerIndex := fun _ => none, assetIndex := fun _ => none
            assetNumber := σ.registry.assetNumber } := by
  have heq : σ.registry = { asset := fun _ => none, token := fun _ => none
                            account := fun _ => none, index := fun _ => none
                            ownerIndex := fun _ => none, assetIndex := fun _ => none
                            assetNumber := σ.registry.assetNumber } := by
    ext1 <;> funext p
    · simp [State.registry, h.get_eq_none fun _ : NFAsset => rfl]
    · simp [State.registry, h.get_eq_none fun _ : NFToken => rfl]
    · exact h.get_eq_none (fun _ => rfl) _
    · simp [State.registry, h.get_eq_none fun _ : NFTIndex => rfl]
    · simp [State.registry, h.get_eq_none fun _ : NFTOwnerIndex => rfl]
    · simp [State.registry, h.get_eq_none fun _ : NFAssetIndex => rfl]
    · rfl
  refine ⟨⟨fun d => ?_, fun d => ?_⟩, heq⟩
  · rw [heq]; exact h.get_eq_none (fun _ => rfl) _
  · rw [heq]; exact h.get_eq_none (fun _ => rfl) _

/-- The two lists of tokens: an asset's and an owner's. -/
structure TokensEnumerated (σ : State) : Prop where
  index : ∀ {a asset}, σ.get (keylet.nfAssetAt a) = some asset →
    ∀ i, (σ.get (keylet.nftIndex a i)).isSome ↔ i < asset.tokenNumber
  token : ∀ a i t, (σ.get (keylet.nftIndex a i)).map NFTIndex.tokenID = some t ↔
    ∃ tok, σ.get (keylet.nfTokenAt t) = some tok ∧ tok.assetID = a ∧ tok.tokenIndex = i
  ownerIndex : ∀ {a o acc}, σ.get (keylet.nftAccount a o) = some acc →
    ∀ i, (σ.get (keylet.nftOwnerIndex a o i)).isSome ↔ i < acc.tokenNumber
  ownerToken : ∀ a o i t, (σ.get (keylet.nftOwnerIndex a o i)).map NFTOwnerIndex.tokenID = some t ↔
    ∃ tok, σ.get (keylet.nfTokenAt t) = some tok ∧ tok.assetID = a ∧ tok.owner = o ∧
      tok.ownerTokenIndex = i
  sum : ∀ {a asset}, σ.get (keylet.nfAssetAt a) = some asset → asset.tokenNumber =
    ∑ o : AccountID, ((σ.get (keylet.nftAccount a o)).map NFTAccount.tokenNumber).getD 0

theorem TokenInv.sum (hi : TokenInv r) (a : Digest) :
    r.tokenNumber a = ∑ o : AccountID, r.ownerNumber (a, o) := by
  refine (hi.tokens a).sum_eq (fun t => ((r.token t).map NFToken.owner).getD 0)
    (fun o => hi.owners (a, o)) fun o t => ?_
  cases ht : r.token t with
  | none => simp [tokenPos, ownerPos, ht]
  | some tok =>
    by_cases ha : tok.assetID = a
    · by_cases ho : tok.owner = o <;> simp [tokenPos, ownerPos, ht, ha, ho]
    · simp [tokenPos, ownerPos, ht]

theorem TokenInv.enumerated (hr : Reg σ r) (hi : TokenInv r) : TokensEnumerated σ where
  index {a asset} h i := by
    have hd := (hi.tokens a).dom i
    rw [← hr.index_eq, tokenNumber, ← hr.asset_eq, h] at hd
    simpa using hd
  token a i t := by
    have hd := (hi.tokens a).inv i t
    rw [tokenPos_eq_some, ← hr.index_eq, ← hr.token_eq] at hd
    exact hd
  ownerIndex {a o acc} h i := by
    have hd := (hi.owners (a, o)).dom i
    rw [← hr.ownerIndex_eq, ownerNumber, ← hr.account_eq, h] at hd
    simpa using hd
  ownerToken a o i t := by
    have hd := (hi.owners (a, o)).inv i t
    rw [ownerPos_eq_some, ← hr.ownerIndex_eq, ← hr.token_eq] at hd
    simpa [and_assoc] using hd
  sum {a asset} h := by
    have hs := hi.sum a
    rw [tokenNumber, ← hr.asset_eq, h] at hs
    simpa [ownerNumber, ← hr.account_eq] using hs

theorem tokenInv_of_run {v v' : OpenView} (h : v.state.NoNFT)
    (hrun : Relation.ReflTransGen (Applies (Set.range NFTx.transactor)) v v') :
    ∃ r, Reg v'.state r ∧ TokenInv r := by
  induction hrun with
  | refl => exact ⟨_, h.reg, fun _ => DenseIndex.empty, fun _ => DenseIndex.empty⟩
  | tail _ hs ih =>
    obtain ⟨r, hr, hi⟩ := ih
    rcases nft_step hs hr with hr' | ⟨x, _, _, hr1, hx, -⟩
    · exact ⟨r, hr', hi⟩
    · exact nft_tokenInv hr1 hi hx

/-- A transactor's work on a view of `σ` runs its program on a state with the same registry. -/
theorem apply_exec {T : Transactor} {p : STTx → ViewM TER} {ctx : ApplyContext} {ter : TER}
    {t : LedgerTable} (hT : ∀ c, T.doApply c = (p c.tx).onTable) (hr : Reg ctx.view.state r)
    (h : T.apply ctx ctx.view ∅ = .ok (ter, t)) :
    ∃ σ1 σ', Reg σ1 r ∧ exec (p ctx.tx) σ1 = .ok (ter, σ') := by
  obtain ⟨⟨b, _⟩, h1, h2⟩ := bind_ok.1 h
  obtain ⟨hbe, hs⟩ := onTable_exec (Table.synced_empty _) h1
  dsimp only at h2
  rw [hT] at h2
  obtain ⟨hdo, -⟩ := onTable_exec hs h2
  exact ⟨_, _, KeepsReg.beginApply hbe r hr, hdo⟩

/-- After any transactions on a ledger without assets, the indexes enumerate the tokens, and no
transactor fails at a gap in them. -/
theorem token_enumeration {v v' : OpenView} (h : v.state.NoNFT)
    (hrun : Relation.ReflTransGen (Applies (Set.range NFTx.transactor)) v v') :
    TokensEnumerated v'.state ∧
      ∀ ctx : ApplyContext, ctx.view.state = v'.state → ∀ t,
        (∀ q, (DestroyToken.transactor q).apply ctx ctx.view ∅ ≠ .ok (.tefINTERNAL, t)) ∧
        (∀ q, (RevokeToken.transactor q).apply ctx ctx.view ∅ ≠ .ok (.tefINTERNAL, t)) ∧
        ∀ f : TransferToken, f.transactor.apply ctx ctx.view ∅ ≠ .ok (.tefINTERNAL, t) := by
  obtain ⟨r, hr, hi⟩ := tokenInv_of_run h hrun
  refine ⟨hi.enumerated hr, fun ctx hc t => ?_⟩
  rw [← hc] at hr
  have hne (x : NFTx) (hx : ∀ {σ σ'}, Reg σ r →
      exec (x.doApply ctx.tx) σ ≠ .ok (.tefINTERNAL, σ')) :
      x.transactor.apply ctx ctx.view ∅ ≠ .ok (.tefINTERNAL, t) := by
    intro ha
    obtain ⟨_, σ', hr1, hex⟩ :=
      apply_exec (p := fun tx => x.doApply tx) x.transactor_doApply hr ha
    exact hx hr1 hex
  exact ⟨fun q => hne (.destroyToken q) fun hr => destroyToken_ne_tefINTERNAL hr hi,
    fun q => hne (.revokeToken q) fun hr => destroyToken_ne_tefINTERNAL hr hi,
    fun f => hne (.transferToken f) fun hr => transferToken_ne_tefINTERNAL hr hi⟩

theorem Sample.ledger_noNFT (accounts : List AccountRoot) (closed : Bool) :
    (ledger accounts closed).state.NoNFT := by
  intro d e h
  obtain ⟨a, -, -, rfl⟩ := ledger_entry h
  rfl

/-- An asset is created, and a token of it is created and transferred. -/
theorem token_enumeration_sample :
    Sample.nft₀.state.NoNFT ∧
      Relation.ReflTransGen (Applies (Set.range NFTx.transactor)) Sample.nft₀ Sample.nft₃ ∧
      TokensEnumerated Sample.nft₃.state :=
  ⟨Sample.ledger_noNFT _ _, Sample.nft_run,
    (token_enumeration (Sample.ledger_noNFT _ _) Sample.nft_run).1⟩

end FinPal
