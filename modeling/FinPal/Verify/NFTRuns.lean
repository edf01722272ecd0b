import FinPal.Verify.NFTransactors

/-!
# Runs of the asset and token transactors
-/

namespace FinPal
open Store ViewM

/-- One of the transactors is applied to the entries of `v`. -/
def Applies (S : Set Transactor) (v v' : OpenView) : Prop :=
  ∃ T ∈ S, ∃ v₁ app tx flags o, v₁.state = v.state ∧ T.applyTx app v₁ tx flags = .ok o ∧
    o.applied = true ∧ o.view = v'

/-- The transactors that change who owns what. -/
inductive NFTx where
  | createAsset (f : CreateAsset)
  | destroyAsset (f : DestroyAsset)
  | createToken (f : CreateToken)
  | destroyToken (q : TokenRef)
  | revokeToken (q : TokenRef)
  | transferToken (f : TransferToken)

namespace NFTx

def transactor : NFTx → Transactor
  | createAsset f => f.transactor
  | destroyAsset f => f.transactor
  | createToken f => f.transactor
  | destroyToken q => DestroyToken.transactor q
  | revokeToken q => RevokeToken.transactor q
  | transferToken f => f.transactor

/-- `doApply` as a program of view operations. -/
def doApply (tx : STTx) : NFTx → ViewM TER
  | createAsset f => f.doApply tx
  | destroyAsset f => f.doApply tx
  | createToken f => f.doApply tx
  | destroyToken q => FinPal.destroyToken q (destroyPermission tx.account)
  | revokeToken q => FinPal.destroyToken q (revokePermission tx.account)
  | transferToken f => f.doApply tx

theorem transactor_doApply (x : NFTx) (c : ApplyContext) :
    x.transactor.doApply c = (x.doApply c.tx).onTable := by
  cases x <;> rfl

end NFTx

/-! ## What the registry does not see -/

def Entry.inRegistry : Entry → Bool
  | .accountRoot _ | .nfAsset _ | .nfToken _ | .nftAccount _ | .nftIndex _ | .nftOwnerIndex _
  | .nfAssetIndex _ => true
  | _ => false

/-- The registry has no such entry. -/
def Unseen (o : Option Entry) : Prop := ∀ e, o = some e → e.inRegistry = false

theorem Unseen.of_get {α : Type} [IsEntry α] {σ : State} {k : Keylet α} {x : α}
    (hα : ∀ x : α, (toEntry x).inRegistry = false) (h : σ.get k = some x) : Unseen (σ k.key) := by
  rintro e he
  rw [State.get_eq_some.1 h] at he
  cases he
  exact hα x

theorem Unseen.ofEntry {α : Type} [IsEntry α] {o : Option Entry} (h : Unseen o)
    (hα : ∀ x : α, (toEntry x).inRegistry = true) : (o.bind ofEntry : Option α) = none := by
  cases o with
  | none => rfl
  | some e =>
    rw [Option.bind_some, Option.eq_none_iff_forall_ne_some]
    intro x hx
    rw [ofEntry_eq_some] at hx
    have := h e rfl
    rw [hx, hα] at this
    cases this

theorem Reg.unseen {σ : State} {r : Registry} {d : Digest} {o : Option Entry} (h : Reg σ r)
    (h0 : Unseen (σ d)) (h1 : Unseen o) : Reg (Function.update σ d o) r := by
  have hg {α : Type} [IsEntry α] (hα : ∀ x, (toEntry x).inRegistry = true) (k : Keylet α) :
      State.get (Function.update σ d o) k = σ.get k :=
    State.get_update_of_none k (h0.ofEntry hα) (h1.ofEntry hα)
  refine h.update (fun _ => h1.ofEntry fun _ => rfl) (fun _ => h1.ofEntry fun _ => rfl) ?_
  rw [← h.eq]
  ext1 <;> funext p
  · simp [State.registry, hg fun _ : NFAsset => rfl]
  · simp [State.registry, hg fun _ : NFToken => rfl]
  · exact hg (fun _ => rfl) _
  · simp [State.registry, hg fun _ : NFTIndex => rfl]
  · simp [State.registry, hg fun _ : NFTOwnerIndex => rfl]
  · simp [State.registry, hg fun _ : NFAssetIndex => rfl]
  · simp [State.registry, hg fun _ : AccountRoot => rfl]

def KeepsReg (σ σ' : State) : Prop := ∀ r, Reg σ r → Reg σ' r

theorem KeepsReg.isRun : IsRun KeepsReg where
  refl _ _ h := h
  trans _ _ _ h1 h2 r h := h2 r (h1 r h)

theorem KeepsReg.permits {α : Type} [IsEntry α] (hα : ∀ x : α, (toEntry x).inRegistry = false) :
    Permits KeepsReg α where
  set y hx r hr := by
    refine hr.unseen (.of_get hα hx) ?_
    rintro e ⟨⟩
    exact hα y
  insert y hk r hr := by
    refine hr.unseen (by rw [hk]; rintro e ⟨⟩) ?_
    rintro e ⟨⟩
    exact hα y
  del hx r hr := hr.unseen (.of_get hα hx) (by rintro e ⟨⟩)

theorem KeepsReg.setRoot {σ : State} {o : AccountID} {a : AccountRoot} (a' : AccountRoot)
    (ha : σ.get (keylet.account o) = some a) (hn : a'.assetNumber = a.assetNumber) :
    KeepsReg σ (σ.set (keylet.account o) a') :=
  fun _ hr => hr.setRoot ha hn

theorem KeepsReg.claimFee {app : Application} {tx : STTx} {fee : Int} {offers : List Digest} :
    Ensures KeepsReg (claimFee app tx fee offers) := by
  intro σ _ _ h
  obtain ⟨a, m, σ1, ha, -, ho, hm, rfl⟩ := exec_claimFee h
  have hrm : KeepsReg _ σ1 := ensures_removeUnfundedOffers isRun
    (permits fun _ => rfl).toPermitsChange (permits fun _ => rfl).toPermitsChange (fun n hx => setRoot _ hx rfl) _ _ ho
  exact isRun.trans (isRun.trans (setRoot _ ha (by rfl)) hrm) (setRoot _ hm rfl)

theorem KeepsReg.beginApply {app : Application} {tx : STTx} :
    Ensures KeepsReg (beginApply app tx) := by
  intro σ b _ h
  rcases exec_beginApply h with ⟨-, -, rfl⟩ | ⟨a, ha, ⟨-, -, rfl⟩ | ⟨hg, -, m, -, _, -, rfl⟩⟩
  · exact isRun.refl _
  · exact setRoot _ ha rfl
  · refine isRun.trans (setRoot _ ha (by rfl)) (setRoot (a := m) _ ?_ (by rfl))
    rwa [State.get_set_ne (by simpa [keylet.account] using hg)]

/-! ## One step -/

theorem nft_step {v v' : OpenView} (h : Applies (Set.range NFTx.transactor) v v') {r : Registry}
    (hr : Reg v.state r) :
    Reg v'.state r ∨ ∃ x tx σ1, Reg σ1 r ∧ Succeeds (NFTx.doApply tx x) σ1 v'.state ∧
      ∀ f, x = .destroyAsset f → ∃ asset, r.asset f.assetID = some asset ∧
        asset.issuer = tx.account := by
  obtain ⟨_, ⟨x, rfl⟩, _, _, tx, _, o, hv, ha, hap, rfl⟩ := h
  rw [← hv] at hr
  obtain ⟨_, ⟨hpa, b, _, t, fee, hs⟩ | ⟨_, t, _, fee, hc⟩⟩ :=
    applyTx_cases ha hap
  · obtain ⟨σ1, hbe, hdo, -⟩ := hs.exec x.transactor_doApply
    refine .inr ⟨x, tx, σ1, KeepsReg.beginApply hbe r hr, hdo, ?_⟩
    rintro f rfl
    have hpf : preflightWith (fun _ => .ok .tesSUCCESS) _ = .ok .tesSUCCESS := hpa.preflight
    have hacc := preflight1_account (preflightWith_ok hpf).1
    obtain ⟨-, -, -, hp⟩ := invokePreclaim_ok hpa.preclaim hacc
    change DestroyAsset.preclaim f _ = _ at hp
    unfold DestroyAsset.preclaim at hp
    split at hp
    · cases hp
    · next asset hass =>
      refine ⟨asset, (hr.asset_eq _).symm.trans hass, ?_⟩
      split at hp
      · cases hp
      · next hi => exact not_not.1 hi
  · exact .inl (KeepsReg.claimFee hc.exec.1 r hr)

/-! ## A run

Account 2 issues an asset and creates a token of it for account 3, which transfers it to account
2. -/

namespace Sample

def createAsset : NFTx := .createAsset { ident := [65] }

def createToken : NFTx := .createToken { assetID := .nfAsset 2 [65], ident := [1], owner := 3 }

def transferToken : NFTx :=
  .transferToken { token := { tokenID := some (.nfToken (.nfAsset 2 [65]) [1]) }, destination := 2 }

def nft₀ : OpenView :=
  ledger [{ account := 1, sequence := 1, balance := 1000 },
    { account := 2, sequence := 1, balance := 500 }, { account := 3, sequence := 1, balance := 500 }]

def nft₁ : OpenView :=
  nft₀.after (createAsset.transactor.applyTx app nft₀ (tx 1 2 1 10 tfTransferToken) {})

def nft₂ : OpenView := nft₁.after (createToken.transactor.applyTx app nft₁ (tx 2 2 2) {})

def nft₃ : OpenView := nft₂.after (transferToken.transactor.applyTx app nft₂ (tx 3 3 1) {})

theorem applies {x : NFTx} {v : OpenView} {tx : STTx} (ter : TER)
    (h : ending (x.transactor.applyTx app v tx {}) = .ok (ter, true)) :
    Applies (Set.range NFTx.transactor) v (v.after (x.transactor.applyTx app v tx {})) :=
  ⟨_, ⟨x, rfl⟩, v, app, tx, {}, _, rfl, ending_eq_ok h v, rfl, rfl⟩

theorem nft_run : Relation.ReflTransGen (Applies (Set.range NFTx.transactor)) nft₀ nft₃ := by
  have h1 : Applies _ nft₀ nft₁ := applies .tesSUCCESS (by decide +kernel)
  have h2 : Applies _ nft₁ nft₂ := applies .tesSUCCESS (by decide +kernel)
  have h3 : Applies _ nft₂ nft₃ := applies .tesSUCCESS (by decide +kernel)
  exact .tail (.tail (.tail .refl h1) h2) h3

end Sample
end FinPal
