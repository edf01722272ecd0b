import FinPal.Tx.NFApproval
import FinPal.Verify.TokenEnumeration

/-!
# Who may act for an owner
-/

namespace FinPal
open Store ViewM State

/-! ## What leaves approvals alone -/

/-- No approval is given and no asset goes; a token that stays keeps owner and approval. -/
structure KeepsGrants (σ σ' : State) : Prop where
  auth : Keeps NFTAuth σ σ'
  token : ∀ t tok', σ'.get (keylet.nfTokenAt t) = some tok' →
    ∃ tok, σ.get (keylet.nfTokenAt t) = some tok ∧ tok'.owner = tok.owner ∧
      tok'.approved = tok.approved
  asset : ∀ a, (σ.get (keylet.nfAssetAt a)).isSome = true →
    (σ'.get (keylet.nfAssetAt a)).isSome = true

namespace KeepsGrants
variable {σ σ' : State}

theorem of_keeps (ha : Keeps NFTAuth σ σ') (hto : Keeps NFToken σ σ')
    (hass : Keeps NFAsset σ σ') : KeepsGrants σ σ' where
  auth := ha
  token t tok' h := ⟨tok', by rw [← hto, h], rfl, rfl⟩
  asset a h := by rw [hass, h]

theorem isRun : IsRun KeepsGrants where
  refl _ := of_keeps (fun _ => rfl) (fun _ => rfl) fun _ => rfl
  trans _ _ _ h1 h2 :=
    { auth := fun k => (h2.auth k).trans (h1.auth k)
      token := fun t tok' h => by
        obtain ⟨tok2, hg2, ho2, ha2⟩ := h2.token t tok' h
        obtain ⟨tok1, hg1, ho1, ha1⟩ := h1.token t tok2 hg2
        exact ⟨tok1, hg1, ho2.trans ho1, ha2.trans ha1⟩
      asset := fun a h => h2.asset a (h1.asset a h) }

theorem permits {α : Type} [IsEntry α] (ha : ∀ x : α, (ofEntry (toEntry x) : Option NFTAuth) = none)
    (hto : ∀ x : α, (ofEntry (toEntry x) : Option NFToken) = none)
    (hass : ∀ x : α, (ofEntry (toEntry x) : Option NFAsset) = none) : Permits KeepsGrants α where
  set y hx := of_keeps ((Keeps.permits ha).set y hx) ((Keeps.permits hto).set y hx)
    ((Keeps.permits hass).set y hx)
  insert y hk := of_keeps ((Keeps.permits ha).insert y hk) ((Keeps.permits hto).insert y hk)
    ((Keeps.permits hass).insert y hk)
  del hx := of_keeps ((Keeps.permits ha).del hx) ((Keeps.permits hto).del hx)
    ((Keeps.permits hass).del hx)

theorem accountRoot : Permits KeepsGrants AccountRoot :=
  permits (fun _ => rfl) (fun _ => rfl) fun _ => rfl

theorem nftAccount : Permits KeepsGrants NFTAccount :=
  permits (fun _ => rfl) (fun _ => rfl) fun _ => rfl

theorem nftIndex : Permits KeepsGrants NFTIndex :=
  permits (fun _ => rfl) (fun _ => rfl) fun _ => rfl

theorem nftOwnerIndex : Permits KeepsGrants NFTOwnerIndex :=
  permits (fun _ => rfl) (fun _ => rfl) fun _ => rfl

theorem nfAssetIndex : Permits KeepsGrants NFAssetIndex :=
  permits (fun _ => rfl) (fun _ => rfl) fun _ => rfl

variable {k : Keylet NFAsset} {owner : AccountID} {assetid : Digest}

theorem set_asset (x : NFAsset) (ha : Keeps NFTAuth σ (σ.set k x))
    (hto : Keeps NFToken σ (σ.set k x)) : KeepsGrants σ (σ.set k x) where
  auth := ha
  token t tok' h := ⟨tok', by rw [← hto, h], rfl, rfl⟩
  asset a h := by
    rw [get_set]
    split
    · rfl
    · exact h

theorem updateAsset {f : NFAsset → NFAsset} : Ensures KeepsGrants (update k f) := fun _ _ _ h => by
  obtain ⟨a, ha, rfl⟩ := exec_update.1 h
  exact set_asset _ ((Keeps.permits fun _ => rfl).set _ ha) ((Keeps.permits fun _ => rfl).set _ ha)

theorem insertAsset {x : NFAsset} : Ensures KeepsGrants (insert k x) := fun _ _ _ h => by
  obtain ⟨ha, rfl⟩ := exec_insert.1 h
  exact set_asset _ ((Keeps.permits fun _ => rfl).insert _ ha)
    ((Keeps.permits fun _ => rfl).insert _ ha)

theorem updateToken {k : Keylet NFToken} {f : NFToken → NFToken}
    (hf : ∀ t, (f t).owner = t.owner ∧ (f t).approved = t.approved) :
    Ensures KeepsGrants (update k f) := fun σ _ _ h => by
  obtain ⟨tok, htok, rfl⟩ := exec_update.1 h
  refine ⟨(Keeps.permits fun _ => rfl).set _ htok, fun t tok' ht => ?_, fun a ha => ?_⟩
  · rw [get_set] at ht
    split at ht
    · next hk =>
      cases ht
      have hk' : keylet.nfTokenAt t = k := by cases k; cases hk; rfl
      exact ⟨tok, by rw [hk', htok], (hf tok).1, (hf tok).2⟩
    · exact ⟨tok', ht, rfl, rfl⟩
  · have hke : Keeps NFAsset σ (set σ k (f tok)) := (Keeps.permits fun _ => rfl).set _ htok
    rw [hke, ha]

theorem eraseToken {k : Keylet NFToken} : Ensures KeepsGrants (erase k) := fun σ _ _ h => by
  obtain ⟨tok, htok, rfl⟩ := exec_erase.1 h
  refine ⟨(Keeps.permits fun _ => rfl).del htok, fun t tok' ht => ?_, fun a ha => ?_⟩
  · rw [get_del] at ht
    split at ht
    · cases ht
    · exact ⟨tok', ht, rfl, rfl⟩
  · have hk : Keeps NFAsset σ (del σ k) := (Keeps.permits fun _ => rfl).del htok
    rw [hk, ha]

theorem upsert {α : Type} [IsEntry α] (hα : Permits KeepsGrants α) {k : Keylet α} {new : α}
    {f : α → α} : Ensures KeepsGrants (upsert k new f) := by
  refine isRun.bind isRun.peek fun o => ?_
  cases o with
  | none => exact hα.inserted
  | some _ => exact hα.update

theorem addAssetOwner : Ensures KeepsGrants (addAssetOwner owner assetid) := by
  refine isRun.bind isRun.peek! fun sleOwner => ?_
  refine isRun.bind accountRoot.update fun _ => isRun.bind (upsert nfAssetIndex) fun _ => ?_
  exact nftAccount.inserted

theorem decrementAssetNumber : Ensures KeepsGrants (decrementAssetNumber owner) := by
  refine isRun.bind isRun.peek! fun sleOwner => ?_
  split
  · exact isRun.bind accountRoot.update fun _ => isRun.pure _
  · exact isRun.pure _

theorem moveLastAsset {assetNum assetIndex : Nat} :
    Ensures KeepsGrants (moveLastAsset owner assetNum assetIndex) := by
  refine isRun.bind isRun.peek fun o => ?_
  cases o with
  | none => exact isRun.pure _
  | some _ =>
    refine isRun.bind nfAssetIndex.update fun _ => isRun.bind nfAssetIndex.erase fun _ => ?_
    refine isRun.bind isRun.peek fun o => ?_
    cases o with
    | none => exact isRun.pure _
    | some _ => exact nftAccount.update

theorem removeAssetOwner {sleAssetOwner : NFTAccount} :
    Ensures KeepsGrants (removeAssetOwner owner assetid sleAssetOwner) := by
  refine isRun.bind nftAccount.erase fun _ => isRun.bind decrementAssetNumber fun assetNum => ?_
  split
  · exact isRun.pure _
  refine isRun.bind isRun.peek fun o => ?_
  cases o with
  | none => exact isRun.pure _
  | some _ =>
    dsimp only
    split
    · exact moveLastAsset
    · exact nfAssetIndex.erase

theorem addOwnerToken : Ensures KeepsGrants (addOwnerToken assetid owner) := by
  refine isRun.bind isRun.peek fun o => ?_
  cases o with
  | none =>
    refine isRun.bind addAssetOwner fun _ => ?_
    exact isRun.bind nftAccount.update fun _ => isRun.pure _
  | some _ => exact isRun.bind nftAccount.update fun _ => isRun.pure _

theorem dropOwnerToken {asset : NFAsset} {sleAssetOwner : NFTAccount} {ownerTokenNum : Nat} :
    Ensures KeepsGrants (dropOwnerToken assetid asset owner sleAssetOwner ownerTokenNum) := by
  unfold FinPal.dropOwnerToken
  split
  · exact nftAccount.update
  · exact removeAssetOwner

theorem moveLastToken {lastTokenID : Digest} {tokenIndex tokenNum : Nat} :
    Ensures KeepsGrants (moveLastToken assetid tokenIndex tokenNum lastTokenID) := by
  unfold FinPal.moveLastToken
  split
  · exact isRun.bind nftIndex.update fun _ => updateToken fun _ => ⟨rfl, rfl⟩
  · exact isRun.pure _

theorem moveLastOwnerToken {lastOwnerTokenID : Digest} {ownerTokenIndex ownerTokenNum : Nat} :
    Ensures KeepsGrants (moveLastOwnerToken assetid owner ownerTokenIndex ownerTokenNum
      lastOwnerTokenID) := by
  unfold FinPal.moveLastOwnerToken
  split
  · exact isRun.bind nftOwnerIndex.update fun _ => updateToken fun _ => ⟨rfl, rfl⟩
  · exact isRun.pure _

theorem beginApply {app : Application} {tx : STTx} : Ensures KeepsGrants (beginApply app tx) :=
  ensures_beginApply isRun accountRoot.toPermitsChange

theorem claimFee {app : Application} {tx : STTx} {fee : Int} {offers : List Digest} :
    Ensures KeepsGrants (claimFee app tx fee offers) :=
  ensures_claimFee isRun accountRoot.toPermitsChange
    (permits (fun _ => rfl) (fun _ => rfl) fun _ => rfl).toPermitsChange
    (permits (fun _ => rfl) (fun _ => rfl) fun _ => rfl).toPermitsChange

end KeepsGrants

/-! ## Approvals in force -/

/-- The transactors of assets and tokens, those that leave owners alone included. -/
inductive NFTAction where
  | registry (x : NFTx)
  | approveAsset (f : ApproveAsset)
  | cancelApproveAsset (f : ApproveAsset)
  | setAsset (f : SetAsset)
  | approveToken (f : ApproveToken)
  | cancelApproveToken (r : TokenRef)
  | setToken (f : SetToken)

namespace NFTAction

def transactor : NFTAction → Transactor
  | registry x => x.transactor
  | approveAsset f => f.transactor
  | cancelApproveAsset f => CancelApproveAsset.transactor f
  | setAsset f => f.transactor
  | approveToken f => f.transactor
  | cancelApproveToken r => CancelApproveToken.transactor r
  | setToken f => f.transactor

/-- `doApply` as a program of view operations. -/
def doApply (tx : STTx) : NFTAction → ViewM TER
  | registry x => x.doApply tx
  | approveAsset f => f.doApply tx
  | cancelApproveAsset f => CancelApproveAsset.doApply f tx
  | setAsset f => f.doApply
  | approveToken f => f.doApply tx
  | cancelApproveToken r => CancelApproveToken.doApply r tx
  | setToken f => f.doApply tx

theorem transactor_doApply (x : NFTAction) (c : ApplyContext) :
    x.transactor.doApply c = (x.doApply c.tx).onTable := by
  cases x with
  | registry x => exact x.transactor_doApply c
  | _ => rfl

end NFTAction

/-- The approvals in force: for a token, who gave it and to whom; for an asset, the owner and the
account. -/
structure Grants where
  token : Digest → Option (AccountID × AccountID)
  asset : Digest → AccountID → AccountID → Bool

namespace Grants

def none : Grants := ⟨fun _ => .none, fun _ _ _ => false⟩

/-- The grants without those for a token. -/
def endToken (g : Grants) (t : Digest) : Grants := { g with token := Function.update g.token t .none }

/-- The grants without those for an asset. -/
def endAsset (g : Grants) (a : Digest) : Grants :=
  { g with asset := Function.update g.asset a fun _ _ => false }

/-- The approval of `oper` by `owner` for the asset is in force or not. -/
def setAsset (g : Grants) (a : Digest) (owner oper : AccountID) (b : Bool) : Grants :=
  { g with asset := fun a' owner' oper' =>
      if a' = a ∧ owner' = owner ∧ oper' = oper then b else g.asset a' owner' oper' }

/-- What an accepted transaction of `sender` does to the approvals: those for a token end with its
transfer or destruction, those for an asset with the asset, and none is left for what gets the same
identifier. -/
def after (g : Grants) (sender : AccountID) : NFTAction → Grants
  | .registry (.createAsset f) => g.endAsset (keylet.nfAsset sender f.ident).key
  | .registry (.destroyAsset f) => g.endAsset f.assetID
  | .registry (.createToken f) => g.endToken (keylet.nfToken f.assetID f.ident).key
  | .registry (.destroyToken q) => g.endToken q.tokenKey.key
  | .registry (.revokeToken q) => g.endToken q.tokenKey.key
  | .registry (.transferToken f) => g.endToken f.token.tokenKey.key
  | .approveAsset f => g.setAsset f.assetID sender f.destination true
  | .cancelApproveAsset f => g.setAsset f.assetID sender f.destination false
  | .setAsset _ => g
  | .approveToken f =>
    { g with token := Function.update g.token f.token.tokenKey.key (some (sender, f.destination)) }
  | .cancelApproveToken r => g.endToken r.tokenKey.key
  | .setToken _ => g

end Grants

/-- The ledger has no approval beyond those in force, and none for an absent asset. -/
structure Granted (σ : State) (g : Grants) : Prop where
  token : ∀ t tok oper, σ.get (keylet.nfTokenAt t) = some tok → tok.approved = some oper →
    g.token t = some (tok.owner, oper)
  asset : ∀ a owner oper, (σ.get (keylet.nftAuth a owner oper)).isSome = true →
    g.asset a owner oper = true
  present : ∀ a owner oper, (σ.get (keylet.nftAuth a owner oper)).isSome = true →
    (σ.get (keylet.nfAssetAt a)).isSome = true

def State.NoApprovals (σ : State) : Prop :=
  (∀ k : Keylet NFToken, σ.get k = none) ∧ ∀ k : Keylet NFTAuth, σ.get k = none

def State.NoAuth (σ : State) (a : Digest) : Prop :=
  ∀ owner oper, σ.get (keylet.nftAuth a owner oper) = none

namespace Granted
variable {σ σ' : State} {g : Grants}

section
variable (h : Granted σ g)
include h

theorem keeps (hk : KeepsGrants σ σ') : Granted σ' g where
  token t tok' oper ht ha := by
    obtain ⟨tok, htok, ho, happ⟩ := hk.token t tok' ht
    rw [ho]
    exact h.token t tok oper htok (happ ▸ ha)
  asset a owner oper ha := h.asset a owner oper (by rw [← hk.auth]; exact ha)
  present a owner oper ha := hk.asset a (h.present a owner oper (by rw [← hk.auth]; exact ha))

theorem endToken {t : Digest}
    (ht : ∀ tok, σ.get (keylet.nfTokenAt t) = some tok → tok.approved = none) :
    Granted σ (g.endToken t) where
  token t' tok oper ht' ha := by
    have hne : t' ≠ t := fun heq => by
      rw [ht tok (heq ▸ ht')] at ha
      cases ha
    exact (Function.update_of_ne hne _ _).trans (h.token t' tok oper ht' ha)
  asset := h.asset
  present := h.present

theorem endAsset {a : Digest} (ha : σ.NoAuth a) : Granted σ (g.endAsset a) where
  token := h.token
  asset a' owner oper h' := by
    have hne : a' ≠ a := fun heq => by
      rw [heq, ha] at h'
      cases h'
    have hs : (g.endAsset a).asset a' = g.asset a' := Function.update_of_ne hne _ _
    rw [hs]
    exact h.asset a' owner oper h'
  present := h.present

theorem of_tokens {g' : Grants} (hau : Keeps NFTAuth σ σ')
    (hass : Keeps NFAsset σ σ') (hg : g'.asset = g.asset)
    (hto : ∀ t tok oper, σ'.get (keylet.nfTokenAt t) = some tok → tok.approved = some oper →
      g'.token t = some (tok.owner, oper)) : Granted σ' g' where
  token := hto
  asset a owner oper ha := by
    rw [hau] at ha
    rw [hg]
    exact h.asset a owner oper ha
  present a owner oper ha := by
    rw [hau] at ha
    rw [hass]
    exact h.present a owner oper ha

theorem setToken {k : Keylet NFToken} {tok : NFToken}
    (hk : σ k.key = none ∨ ∃ old, σ.get k = some old) (htok : tok.approved = none) :
    Granted (σ.set k tok) g := by
  have hke {α : Type} [IsEntry α] (hα : ∀ x : NFToken, (ofEntry (toEntry x) : Option α) = none) :
      Keeps α σ (σ.set k tok) := by
    rcases hk with hk | ⟨old, hk⟩
    · exact (Keeps.permits hα).insert _ hk
    · exact (Keeps.permits hα).set _ hk
  refine h.of_tokens (hke fun _ => rfl) (hke fun _ => rfl) rfl fun t tok' oper ht ha => ?_
  rw [get_set] at ht
  split at ht
  · cases ht
    rw [htok] at ha
    cases ha
  · exact h.token t tok' oper ht ha

theorem noAuth {a : Digest} (ha : σ.get (keylet.nfAssetAt a) = none) :
    σ.NoAuth a := fun owner oper => by
  have := h.present a owner oper
  rw [ha] at this
  simpa using this

end

theorem start (h : σ.NoApprovals) : Granted σ .none where
  token t tok oper ht := by
    rw [h.1] at ht
    cases ht
  asset a owner oper ha := by
    rw [h.2] at ha
    cases ha
  present a owner oper ha := by
    rw [h.2] at ha
    cases ha

end Granted

/-! ## One transaction -/

section Step
variable {σ σ' : State} {g : Grants} {tx : STTx}

theorem createAsset_granted {f : CreateAsset} (h : Granted σ g)
    (he : Succeeds (f.doApply tx) σ σ') :
    Granted σ' (g.endAsset (keylet.nfAsset tx.account f.ident).key) := by
  obtain ⟨hold, he⟩ := exec_absent he
  obtain ⟨_, _, h2, he⟩ := exec_bind.1 he
  obtain ⟨_, h3⟩ := exec_last he
  have hk := KeepsGrants.isRun.trans (KeepsGrants.insertAsset h2) (KeepsGrants.addAssetOwner h3)
  refine (h.keeps hk).endAsset fun owner oper => ?_
  rw [hk.auth]
  exact h.noAuth hold owner oper

theorem destroyAsset_granted {f : DestroyAsset} (h : Granted σ g) (hau : σ.NoAuth f.assetID)
    (he : Succeeds (f.doApply tx) σ σ') : Granted σ' (g.endAsset f.assetID) := by
  obtain ⟨_, -, he⟩ := exec_peek!_ok he
  obtain ⟨-, he⟩ := exec_guard he
  -- whoever is taken off the list of owners first, the asset goes last
  obtain ⟨σ1, hk, he⟩ : ∃ σ1, KeepsGrants σ σ1 ∧
      exec (erase (keylet.nfAssetAt f.assetID)) σ1 = .ok ((), σ') := by
    obtain ⟨acc, -, he⟩ := exec_peek_ok he
    cases acc with
    | none =>
      obtain ⟨_, h3⟩ := exec_last he
      exact ⟨σ, KeepsGrants.isRun.refl σ, h3⟩
    | some acc =>
      obtain ⟨_, σ1, h3, he⟩ := exec_bind.1 he
      obtain ⟨_, h4⟩ := exec_last he
      exact ⟨σ1, KeepsGrants.removeAssetOwner h3, h4⟩
  obtain ⟨x, hx, rfl⟩ := exec_erase.1 he
  have hau1 : Keeps NFTAuth σ1 (σ1.del (keylet.nfAssetAt f.assetID)) :=
    (Keeps.permits fun _ => rfl).del hx
  have hto1 : Keeps NFToken σ1 (σ1.del (keylet.nfAssetAt f.assetID)) :=
    (Keeps.permits fun _ => rfl).del hx
  have h1 := (h.keeps hk).endAsset fun owner oper => by rw [hk.auth, hau]
  refine ⟨fun t tok oper ht => h1.token t tok oper (by rw [← hto1, ht]),
    fun a owner oper ha => h1.asset a owner oper (by rw [← hau1]; exact ha),
    fun a owner oper ha => ?_⟩
  rw [hau1] at ha
  rw [get_del]
  split
  · next hkey =>
    have heq : a = f.assetID := hkey
    rw [hk.auth, heq, hau] at ha
    cases ha
  · exact h1.present a owner oper ha

theorem createToken_granted {f : CreateToken} (h : Granted σ g)
    (he : Succeeds (f.doApply tx) σ σ') :
    Granted σ' (g.endToken (keylet.nfToken f.assetID f.ident).key) := by
  obtain ⟨_, -, he⟩ := exec_require he
  obtain ⟨-, he⟩ := exec_absent he
  obtain ⟨-, he⟩ := exec_guard he
  obtain ⟨_, _, h1, he⟩ := exec_bind.1 he
  obtain ⟨_, _, h2, he⟩ := exec_bind.1 he
  obtain ⟨_, _, h3, he⟩ := exec_bind.1 he
  obtain ⟨_, _, h4, he⟩ := exec_bind.1 he
  obtain ⟨_, h5⟩ := exec_last he
  have hbe := h.keeps
    (KeepsGrants.isRun.trans (KeepsGrants.updateAsset h1) (KeepsGrants.addOwnerToken h2))
  have haf := KeepsGrants.isRun.trans (KeepsGrants.upsert KeepsGrants.nftIndex h4)
    (KeepsGrants.upsert KeepsGrants.nftOwnerIndex h5)
  obtain ⟨hno, rfl⟩ := exec_insert.1 h3
  -- the new token has no approval
  refine Granted.keeps (.endToken ?_ fun tok ht => ?_) haf
  · exact hbe.setToken (.inl hno) rfl
  rw [show keylet.nfTokenAt (keylet.nfToken f.assetID f.ident).key =
    keylet.nfToken f.assetID f.ident from rfl, get_set_self] at ht
  cases ht
  rfl

theorem destroyToken_granted {q : TokenRef} {permission : NFToken → NFAsset → Bool}
    (h : Granted σ g) (he : Succeeds (destroyToken q permission) σ σ') :
    Granted σ' (g.endToken q.tokenKey.key) := by
  obtain ⟨tok, -, he⟩ := exec_require he
  obtain ⟨_, -, he⟩ := exec_require he
  obtain ⟨-, he⟩ := exec_guard he
  iterate 7 obtain ⟨_, -, he⟩ := exec_require he
  obtain ⟨_, _, h1, he⟩ := exec_bind.1 he
  obtain ⟨_, _, h2, he⟩ := exec_bind.1 he
  obtain ⟨_, _, h3, he⟩ := exec_bind.1 he
  obtain ⟨_, _, h4, he⟩ := exec_bind.1 he
  obtain ⟨_, _, h5, he⟩ := exec_bind.1 he
  obtain ⟨_, _, h6, he⟩ := exec_bind.1 he
  obtain ⟨_, h7⟩ := exec_last he
  have hbe := KeepsGrants.isRun.trans (KeepsGrants.updateAsset h1) (KeepsGrants.eraseToken h2)
  have haf := KeepsGrants.isRun.trans (KeepsGrants.dropOwnerToken h3) <|
    KeepsGrants.isRun.trans (KeepsGrants.nftIndex.erase h4) <|
    KeepsGrants.isRun.trans (KeepsGrants.nftOwnerIndex.erase h5) <|
    KeepsGrants.isRun.trans (KeepsGrants.moveLastToken h6) (KeepsGrants.moveLastOwnerToken h7)
  refine Granted.keeps (.endToken (h.keeps hbe) fun tok ht => ?_) haf
  obtain ⟨_, -, rfl⟩ := exec_erase.1 h2
  rw [show keylet.nfTokenAt q.tokenKey.key = q.tokenKey from rfl, get_del_self] at ht
  cases ht

theorem transferToken_ok {f : TransferToken} (he : Succeeds (f.doApply tx) σ σ') :
    (∃ tok, σ.get f.token.tokenKey = some tok ∧ (tok.owner = tx.account ∨
      tok.approved = some tx.account ∨
      (σ.get (keylet.nftAuth tok.assetID tok.owner tx.account)).isSome = true)) ∧
    ∃ σ1 tok1 n, KeepsGrants σ σ1 ∧ σ1.get f.token.tokenKey = some tok1 ∧
      σ' = σ1.set f.token.tokenKey
        { tok1 with owner := f.destination, ownerTokenIndex := n, approved := none } := by
  dsimp only [TransferToken.doApply] at he
  obtain ⟨tok, ht, he⟩ := exec_require he
  obtain ⟨_, -, he⟩ := exec_require he
  obtain ⟨_, _, h0, he⟩ := exec_bind.1 he
  obtain ⟨_, hau, h0⟩ := exec_peek_ok h0
  obtain ⟨hp, rfl⟩ := exec_pure.1 h0
  obtain ⟨hpe, he⟩ := exec_guard he
  obtain ⟨-, he⟩ := exec_guard he
  iterate 4 obtain ⟨_, -, he⟩ := exec_require he
  obtain ⟨_, σ1, h1, he⟩ := exec_bind.1 he
  obtain ⟨_, _, h2, he⟩ := exec_bind.1 he
  obtain ⟨_, _, h3, he⟩ := exec_bind.1 he
  obtain ⟨destTokenNum, _, h4, he⟩ := exec_bind.1 he
  obtain ⟨_, σ5, h5, he⟩ := exec_bind.1 he
  obtain ⟨_, h6⟩ := exec_last he
  obtain ⟨tok1, ht1, rfl⟩ := exec_update.1 h6
  refine ⟨⟨tok, ht, ?_⟩, σ5, tok1, destTokenNum, ?_, ht1, rfl⟩
  · rw [hau]
    rw [← hp] at hpe
    simp only [Bool.not_eq_true', Bool.not_eq_false, Bool.and_eq_true, decide_eq_true_eq] at hpe
    exact hpe.1
  exact KeepsGrants.isRun.trans (KeepsGrants.dropOwnerToken h1) <|
    KeepsGrants.isRun.trans (KeepsGrants.nftOwnerIndex.erase h2) <|
    KeepsGrants.isRun.trans (KeepsGrants.moveLastOwnerToken h3) <|
    KeepsGrants.isRun.trans (KeepsGrants.addOwnerToken h4)
      (KeepsGrants.upsert KeepsGrants.nftOwnerIndex h5)

theorem transferToken_granted {f : TransferToken} (h : Granted σ g)
    (he : Succeeds (f.doApply tx) σ σ') : Granted σ' (g.endToken f.token.tokenKey.key) := by
  obtain ⟨-, _, tok1, n, hk, ht1, rfl⟩ := transferToken_ok he
  refine ((h.keeps hk).setToken (.inr ⟨tok1, ht1⟩) rfl).endToken fun tok ht => ?_
  rw [show keylet.nfTokenAt f.token.tokenKey.key = f.token.tokenKey from rfl, get_set_self] at ht
  cases ht
  rfl

theorem setToken_ok {f : SetToken} (he : Succeeds (f.doApply tx) σ σ') :
    ∃ tok, σ.get f.token.tokenKey = some tok ∧ (tok.owner = tx.account ∨
      tok.approved = some tx.account ∨
      (σ.get (keylet.nftAuth tok.assetID tok.owner tx.account)).isSome = true) ∧
    ∃ r imprint, SetToken.newMemos tx tok = .ok r ∧ σ' = σ.set f.token.tokenKey { tok with
      memos := if r.1 then if r.2.isEmpty then none else some r.2 else tok.memos
      imprint } := by
  dsimp only [SetToken.doApply] at he
  obtain ⟨tok, ht, he⟩ := exec_require he
  obtain ⟨_, _, h0, he⟩ := exec_bind.1 he
  obtain ⟨_, hau, h0⟩ := exec_peek_ok h0
  obtain ⟨hp, rfl⟩ := exec_pure.1 h0
  obtain ⟨hpe, he⟩ := exec_guard he
  simp only [← hp, Bool.not_eq_true', Bool.not_eq_false, decide_eq_true_eq] at hpe
  rw [← hau] at hpe
  obtain ⟨r, hr, he⟩ := exec_ofExcept_ok he
  obtain ⟨-, he⟩ := exec_guard he
  have hwr {g : NFToken → NFToken}
      (h : exec (update f.token.tokenKey g) σ = .ok ((), σ')) : σ' = σ.set f.token.tokenKey (g tok) := by
    obtain ⟨_, ht', rfl⟩ := exec_update.1 h
    cases ht.symm.trans ht'
    rfl
  split at he
  · obtain ⟨-, he⟩ := exec_guard he
    obtain ⟨_, h1⟩ := exec_last he
    exact ⟨tok, ht, hpe, r, _, hr, hwr h1⟩
  refine ⟨tok, ht, hpe, r, tok.imprint, hr, ?_⟩
  split at he
  · next hc =>
    obtain ⟨_, h1⟩ := exec_last he
    rw [if_pos hc]
    exact hwr h1
  · next hc =>
    obtain ⟨-, rfl⟩ := exec_pure.1 he
    rw [if_neg hc]
    exact (set_self ht).symm

theorem setAsset_keeps {f : SetAsset} (he : Succeeds f.doApply σ σ') : KeepsGrants σ σ' := by
  obtain ⟨_, -, he⟩ := exec_peek!_ok he
  split at he
  · cases (exec_pure.1 he).1
  split at he
  · obtain ⟨_, h2⟩ := exec_last he
    exact KeepsGrants.updateAsset h2
  · obtain ⟨-, rfl⟩ := exec_pure.1 he
    exact KeepsGrants.isRun.refl _

theorem approveToken_granted {f : ApproveToken} (h : Granted σ g)
    (he : Succeeds (f.doApply tx) σ σ') : Granted σ' (g.after tx.account (.approveToken f)) := by
  obtain ⟨tok, htok, he⟩ := exec_require he
  obtain ⟨hown, he⟩ := exec_guard he
  obtain ⟨-, he⟩ := exec_guard he
  -- either way the token is approved for the destination
  obtain ⟨tok', rfl, ho, ha⟩ : ∃ tok', σ' = σ.set f.token.tokenKey tok' ∧
      tok'.owner = tx.account ∧ tok'.approved = some f.destination := by
    split at he
    · obtain ⟨_, h1⟩ := exec_last he
      obtain ⟨tok', ht', rfl⟩ := exec_update.1 h1
      cases htok.symm.trans ht'
      exact ⟨_, rfl, not_not.1 hown, rfl⟩
    · next happ =>
      obtain ⟨-, rfl⟩ := exec_pure.1 he
      exact ⟨tok, (set_self htok).symm, not_not.1 hown, not_not.1 happ⟩
  refine h.of_tokens ((Keeps.permits fun _ => rfl).set _ htok) ((Keeps.permits fun _ => rfl).set _ htok)
    rfl fun t tok1 oper ht hoper => ?_
  rw [get_set] at ht
  split at ht
  · next hk =>
    cases ht
    obtain rfl : t = f.token.tokenKey.key := hk
    rw [ho, ← Option.mem_unique ha hoper]
    exact Function.update_self _ _ _
  · next hk => exact (Function.update_of_ne hk _ _).trans (h.token t tok1 oper ht hoper)

theorem cancelApproveToken_granted {r : TokenRef} (h : Granted σ g)
    (he : Succeeds (CancelApproveToken.doApply r tx) σ σ') :
    Granted σ' (g.endToken r.tokenKey.key) := by
  obtain ⟨_, htok, he⟩ := exec_require he
  obtain ⟨-, he⟩ := exec_guard he
  split at he
  · obtain ⟨_, h1⟩ := exec_last he
    obtain ⟨tok', ht', rfl⟩ := exec_update.1 h1
    refine (h.setToken (.inr ⟨tok', ht'⟩) rfl).endToken fun tok1 ht => ?_
    rw [show keylet.nfTokenAt r.tokenKey.key = r.tokenKey from rfl, get_set_self] at ht
    cases ht
    rfl
  · next ha =>
    obtain ⟨-, rfl⟩ := exec_pure.1 he
    refine h.endToken fun tok1 ht => ?_
    cases htok.symm.trans ht
    simpa using ha

theorem nftAuth_key_inj {a a' : Digest} {owner owner' oper oper' : AccountID} :
    (keylet.nftAuth a owner oper).key = (keylet.nftAuth a' owner' oper').key ↔
      a = a' ∧ owner = owner' ∧ oper = oper' := by
  simp [keylet.nftAuth]

theorem approveAsset_granted {f : ApproveAsset} (h : Granted σ g)
    (hasse : (σ.get (keylet.nfAssetAt f.assetID)).isSome = true)
    (he : Succeeds (f.doApply tx) σ σ') : Granted σ' (g.after tx.account (.approveAsset f)) := by
  -- either way the approval is there, and nothing else changes
  obtain ⟨x, rfl, hto, hass⟩ : ∃ x, σ' = σ.set (f.assetAuthKey tx) x ∧ Keeps NFToken σ σ' ∧
      Keeps NFAsset σ σ' := by
    obtain ⟨auth, hau, he⟩ := exec_peek_ok he
    cases auth with
    | some auth =>
      obtain ⟨-, rfl⟩ := exec_pure.1 he
      exact ⟨auth, (set_self hau).symm, fun _ => rfl, fun _ => rfl⟩
    | none =>
      obtain ⟨_, h2⟩ := exec_last he
      obtain ⟨hk, rfl⟩ := exec_insert.1 h2
      exact ⟨_, rfl, (Keeps.permits fun _ => rfl).insert _ hk, (Keeps.permits fun _ => rfl).insert _ hk⟩
  have hold {a : Digest} {owner oper : AccountID} (ha : ((σ.set (f.assetAuthKey tx) x).get
      (keylet.nftAuth a owner oper)).isSome = true) :
      (a = f.assetID ∧ owner = tx.account ∧ oper = f.destination) ∨
        (σ.get (keylet.nftAuth a owner oper)).isSome = true := by
    rw [get_set] at ha
    split at ha
    · next hk => exact .inl (nftAuth_key_inj.1 hk)
    · exact .inr ha
  refine ⟨fun t tok oper ht => h.token t tok oper (by rw [← hto, ht]),
    fun a owner oper ha => ?_, fun a owner oper ha => ?_⟩
  · rcases hold ha with hn | ha
    · exact if_pos hn
    · change (if _ then true else g.asset a owner oper) = true
      rw [h.asset a owner oper ha, ite_self]
  rw [hass]
  rcases hold ha with ⟨rfl, -, -⟩ | ha
  · exact hasse
  · exact h.present a owner oper ha

theorem cancelApproveAsset_granted {f : ApproveAsset} (h : Granted σ g)
    (he : Succeeds (CancelApproveAsset.doApply f tx) σ σ') :
    Granted σ' (g.after tx.account (.cancelApproveAsset f)) := by
  -- either way the approval is not there, and nothing else changes
  obtain ⟨hto, hass, hau⟩ : Keeps NFToken σ σ' ∧ Keeps NFAsset σ σ' ∧
      ∀ a owner oper, σ'.get (keylet.nftAuth a owner oper) =
        if a = f.assetID ∧ owner = tx.account ∧ oper = f.destination then none
        else σ.get (keylet.nftAuth a owner oper) := by
    obtain ⟨auth, hau, he⟩ := exec_peek_ok he
    cases auth with
    | some auth =>
      obtain ⟨_, h2⟩ := exec_last he
      obtain ⟨x, hx, rfl⟩ := exec_erase.1 h2
      refine ⟨(Keeps.permits fun _ => rfl).del hx, (Keeps.permits fun _ => rfl).del hx,
        fun a owner oper => ?_⟩
      rw [get_del]
      simp [ApproveAsset.assetAuthKey, nftAuth_key_inj]
    | none =>
      obtain ⟨-, rfl⟩ := exec_pure.1 he
      refine ⟨fun _ => rfl, fun _ => rfl, fun a owner oper => ?_⟩
      split
      · next hk =>
        obtain ⟨rfl, rfl, rfl⟩ := hk
        exact hau
      · rfl
  refine ⟨fun t tok oper ht => h.token t tok oper (by rw [← hto, ht]),
    fun a owner oper ha => ?_, fun a owner oper ha => ?_⟩
  · rw [hau] at ha
    split at ha
    · cases ha
    · next hk => exact (if_neg hk).trans (h.asset a owner oper ha)
  rw [hau] at ha
  rw [hass]
  split at ha
  · cases ha
  · exact h.present a owner oper ha

/-- An accepted transaction does to the approvals what it says, unless it destroys an asset with
some. -/
theorem action_granted {x : NFTAction} (h : Granted σ g)
    (hap : ∀ f, x = .approveAsset f → (σ.get (keylet.nfAssetAt f.assetID)).isSome = true)
    (hde : ∀ f, x = .registry (.destroyAsset f) → σ.NoAuth f.assetID)
    (he : Succeeds (x.doApply tx) σ σ') : Granted σ' (g.after tx.account x) := by
  cases x with
  | registry x =>
    cases x with
    | createAsset f => exact createAsset_granted h he
    | destroyAsset f => exact destroyAsset_granted h (hde f rfl) he
    | createToken f => exact createToken_granted h he
    | destroyToken q => exact destroyToken_granted h he
    | revokeToken q => exact destroyToken_granted h he
    | transferToken f => exact transferToken_granted h he
  | approveAsset f => exact approveAsset_granted h (hap f rfl) he
  | cancelApproveAsset f => exact cancelApproveAsset_granted h he
  | setAsset f => exact h.keeps (setAsset_keeps he)
  | approveToken f => exact approveToken_granted h he
  | cancelApproveToken r => exact cancelApproveToken_granted h he
  | setToken f =>
    obtain ⟨tok, ht, -, _, imprint, -, rfl⟩ := setToken_ok he
    exact h.keeps (KeepsGrants.updateToken (f := fun t => { t with memos := _, imprint }) (a := ())
      (fun _ => ⟨rfl, rfl⟩) (exec_update.2 ⟨tok, ht, rfl⟩))

end Step

/-! ## Runs -/

/-- An asset is destroyed only while nobody has an approval for it. -/
def DestroysClean (σ : State) (x : NFTAction) : Prop :=
  ∀ f, x = .registry (.destroyAsset f) → σ.NoAuth f.assetID

/-- The ledgers reached by accepted transactions on assets and tokens, each as `P` says, with the
approvals in force. -/
inductive ApprovalRun (P : State → NFTAction → Prop) : OpenView → Grants → Prop
  | start {v : OpenView} : v.state.NoApprovals → ApprovalRun P v .none
  | step {v v₁ : OpenView} {g : Grants} {app : Application} {x : NFTAction} {tx : STTx}
      {flags : ApplyFlags} {o : Outcome} :
      ApprovalRun P v g → v₁.state = v.state → P v.state x →
      x.transactor.applyTx app v₁ tx flags = .ok o → o.applied = true →
      ApprovalRun P o.view (if o.ter = .tesSUCCESS then g.after tx.account x else g)

theorem approveAsset_present {f : ApproveAsset} {ctx : ApplyContext} (h : Passed f.transactor ctx) :
    (ctx.view.state.get (keylet.nfAssetAt f.assetID)).isSome = true := by
  have hpf : preflightWith (fun _ => .ok .tesSUCCESS) _ = .ok .tesSUCCESS := h.preflight
  have ha := preflight1_account (preflightWith_ok hpf).1
  obtain ⟨-, -, -, hp⟩ := invokePreclaim_ok h.preclaim ha
  change ApproveAsset.preclaim f _ = _ at hp
  unfold ApproveAsset.preclaim at hp
  split at hp
  · cases hp
  · next hs => exact Option.isSome_iff_ne_none.2 fun hn => hs (by rw [hn]; rfl)

theorem ApprovalRun.granted {v : OpenView} {g : Grants} (h : ApprovalRun DestroysClean v g) :
    Granted v.state g := by
  induction h with
  | start h0 => exact .start h0
  | @step v _ g _ x _ _ o _ hv hcl ha hap ih =>
    rw [← hv] at ih hcl
    obtain ⟨_, _, -, ⟨hter, hp, b, _, hbe, hdo⟩ | ⟨ht, _, _, hc⟩⟩ :=
      applyTx_exec x.transactor_doApply ha hap
    · have hk := KeepsGrants.beginApply hbe
      rw [if_pos hter]
      refine action_granted (ih.keeps hk) ?_ ?_ hdo
      · rintro f rfl
        exact hk.asset _ (approveAsset_present hp)
      · intro f hf _ _
        rw [hk.auth, hcl f hf]
    have hne : o.ter ≠ .tesSUCCESS := fun h => by rw [h] at ht; cases ht
    rw [if_neg hne]
    exact ih.keeps (KeepsGrants.claimFee hc)

/-- The transaction transfers the token or sets its memos or imprint. -/
def NFTAction.ActsOn (x : NFTAction) (r : TokenRef) : Prop :=
  (∃ f, x = .registry (.transferToken f) ∧ f.token = r) ∨ ∃ f, x = .setToken f ∧ f.token = r

/-- Where assets are destroyed only without approvals, whoever acts on a token is its owner or has
an approval of the owner in force. -/
theorem delegated_authority {v : OpenView} {g : Grants} (hrun : ApprovalRun DestroysClean v g)
    {v₁ : OpenView} (hv : v₁.state = v.state) {app : Application} {x : NFTAction} {r : TokenRef}
    (hx : x.ActsOn r) {tx : STTx} {flags : ApplyFlags} {o : Outcome}
    (happ : x.transactor.applyTx app v₁ tx flags = .ok o) (happlied : o.applied = true)
    (hter : o.ter = .tesSUCCESS) :
    ∃ tok, v.state.get r.tokenKey = some tok ∧ (tok.owner ≠ tx.account →
      g.token r.tokenKey.key = some (tok.owner, tx.account) ∨
        g.asset tok.assetID tok.owner tx.account = true) := by
  have hg := hrun.granted
  rw [← hv] at hg ⊢
  obtain ⟨_, -, -, ⟨-, -, b, σ1, hbe, hdo⟩ | ⟨htec, -⟩⟩ :=
    applyTx_exec x.transactor_doApply happ happlied
  · have hto : Keeps NFToken v₁.state σ1 :=
      ensures_beginApply Keeps.isRun (Keeps.permits fun _ => rfl).toPermitsChange hbe
    have hau : Keeps NFTAuth v₁.state σ1 := (KeepsGrants.beginApply hbe).auth
    obtain ⟨tok, ht, hpe⟩ : ∃ tok, get σ1 r.tokenKey = some tok ∧
        (tok.owner = tx.account ∨ tok.approved = some tx.account ∨
        (get σ1 (keylet.nftAuth tok.assetID tok.owner tx.account)).isSome = true) := by
      rcases hx with ⟨f, rfl, rfl⟩ | ⟨f, rfl, rfl⟩
      · exact (transferToken_ok hdo).1
      · obtain ⟨tok, ht, hpe, -⟩ := setToken_ok hdo
        exact ⟨tok, ht, hpe⟩
    rw [hto] at ht
    rw [hau] at hpe
    refine ⟨tok, ht, fun hne => ?_⟩
    rcases hpe with ho | hap | hop
    · exact absurd ho hne
    · exact .inl (hg.token _ tok _ ht hap)
    · exact .inr (hg.asset _ _ _ hop)
  · rw [hter] at htec
    cases htec

/-! ## An approval that outlives its asset

Account 2 issues an asset, and account 3 approves account 4 for it. The asset is destroyed and
issued again, and only then does account 3 get a token. -/

namespace Sample

def approve : NFTAction := .approveAsset { assetID := .nfAsset 2 [65], destination := 4 }

def destroyAsset : NFTAction := .registry (.destroyAsset ⟨.nfAsset 2 [65]⟩)

def four : OpenView :=
  ledger [{ account := 1, sequence := 1, balance := 1000 },
    { account := 2, sequence := 1, balance := 500 }, { account := 3, sequence := 1, balance := 500 },
    { account := 4, sequence := 1, balance := 500 }]

def act (v : OpenView) (x : NFTAction) (tx : STTx) : OpenView :=
  v.after (x.transactor.applyTx app v tx {})

def issued : OpenView := act four (.registry createAsset) (tx 1 2 1 10 tfTransferToken)

def approved : OpenView := act issued approve (tx 2 3 1)

def owned : OpenView := act approved (.registry createToken) (tx 3 2 2)

def destroyed : OpenView := act approved destroyAsset (tx 3 2 2)

def reissued : OpenView := act destroyed (.registry createAsset) (tx 4 2 3 10 tfTransferToken)

def ownedAgain : OpenView := act reissued (.registry createToken) (tx 5 2 4)

theorem act_run {P : State → NFTAction → Prop} {v : OpenView} {g : Grants} {x : NFTAction} {tx : STTx}
    (h : ApprovalRun P v g) (hP : P v.state x)
    (he : ending (x.transactor.applyTx app v tx {}) = .ok (.tesSUCCESS, true)) :
    ApprovalRun P (act v x tx) (g.after tx.account x) :=
  ApprovalRun.step h rfl hP (ending_eq_ok he v) rfl

theorem four_noApprovals : four.state.NoApprovals :=
  ⟨ledger_get (fun _ => rfl) _ _, ledger_get (fun _ => rfl) _ _⟩

end Sample

open Sample in
/-- Account 4 transfers a token of account 3 under an approval. -/
theorem delegated_authority_sample :
    ∃ g tok, ApprovalRun DestroysClean owned g ∧
      owned.state.get (keylet.nfTokenAt (.nfToken (.nfAsset 2 [65]) [1])) = some tok ∧
      (tok.owner ≠ 4 → g.token (.nfToken (.nfAsset 2 [65]) [1]) = some (tok.owner, 4) ∨
        g.asset tok.assetID tok.owner 4 = true) := by
  have hr : ApprovalRun DestroysClean owned _ :=
    act_run (act_run (act_run (.start four_noApprovals) (by rintro f ⟨⟩) (by decide +kernel))
      (by rintro f ⟨⟩) (by decide +kernel)) (by rintro f ⟨⟩) (by decide +kernel)
  have htr : ending ((NFTAction.registry transferToken).transactor.applyTx app owned
      (tx 4 4 1) {}) = .ok (.tesSUCCESS, true) := by decide +kernel
  obtain ⟨tok, ht, h⟩ := delegated_authority hr rfl (.inl ⟨_, rfl, rfl⟩)
    (ending_eq_ok htr owned) rfl rfl
  exact ⟨_, tok, hr, ht, h⟩

open Sample in
/-- Without any approval of the asset that exists, account 4 transfers the token: the approval for
the destroyed asset is accepted. -/
theorem approval_outlives_asset :
    ∃ g tok, ApprovalRun (fun _ _ => True) ownedAgain g ∧
      ownedAgain.state.get (keylet.nfTokenAt (.nfToken (.nfAsset 2 [65]) [1])) = some tok ∧
      tok.owner = 3 ∧ tok.assetID = .nfAsset 2 [65] ∧
      ending ((NFTAction.registry transferToken).transactor.applyTx app ownedAgain (tx 6 4 1) {}) =
        .ok (.tesSUCCESS, true) ∧
      g.token (.nfToken (.nfAsset 2 [65]) [1]) = none ∧ g.asset (.nfAsset 2 [65]) 3 4 = false := by
  have hr : ApprovalRun (fun _ _ => True) ownedAgain _ :=
    act_run (act_run (act_run (act_run (act_run (.start four_noApprovals) trivial (by decide +kernel))
      trivial (by decide +kernel)) trivial (by decide +kernel)) trivial (by decide +kernel)) trivial
      (by decide +kernel)
  have ht : (ownedAgain.state.get
      (keylet.nfTokenAt (.nfToken (.nfAsset 2 [65]) [1]))).map (fun t => (t.owner, t.assetID)) =
      some (3, .nfAsset 2 [65]) := by decide +kernel
  obtain ⟨tok, hg, hfi⟩ := Option.map_eq_some_iff.1 ht
  obtain ⟨ho, ha⟩ := Prod.mk.inj hfi
  exact ⟨_, tok, hr, hg, ho, ha, by decide +kernel, by decide, by decide⟩

end FinPal
