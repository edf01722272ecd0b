import FinPal.Lib.Total
import FinPal.Tx.Payment
import FinPal.Verify.ChannelSolvency
import FinPal.Verify.EscrowLifecycle

/-!
# Conservation of the native currency
-/

namespace FinPal
open Store ViewM State

/-- The drops that an entry holds. -/
def Entry.held : Entry → Int
  | .accountRoot a => a.balance
  | .escrow e => e.amount.nativeDrops
  | .payChan c => c.held
  | _ => 0

noncomputable def State.nativeTotal (σ : State) : Int := total Entry.held σ

/-- The drops in the ledger grow by `d`. -/
def Gains (d : Int) (σ σ' : State) : Prop :=
  FiniteKeys σ → FiniteKeys σ' ∧ σ'.nativeTotal = σ.nativeTotal + d

section Gains
variable {α : Type} [IsEntry α] {σ σ₁ σ2 σ' : State} {k : Keylet α} {x : α} {d d1 d2 : Int}

theorem Gains.refl (σ : State) : Gains 0 σ σ := fun h => ⟨h, (add_zero _).symm⟩

theorem Gains.trans (h1 : Gains d1 σ σ₁) (h2 : Gains d2 σ₁ σ2) : Gains (d1 + d2) σ σ2 := by
  intro h
  obtain ⟨hf1, _⟩ := h1 h
  obtain ⟨hf2, _⟩ := h2 hf1
  exact ⟨hf2, by omega⟩

theorem Gains.isRun : IsRun (Gains 0) where
  refl := .refl
  trans _ _ _ h1 h2 := by simpa using h1.trans h2

theorem Gains.update (σ : State) (k : Digest) (o : Option Entry) :
    Gains (valueOf Entry.held o - valueOf Entry.held (σ k)) σ (Function.update σ k o) := by
  intro h
  refine ⟨h.update k o, ?_⟩
  rw [nativeTotal, total_update h, nativeTotal]
  omega

theorem Gains.set (y : α) (hx : σ.get k = some x) (hd : (toEntry y).held - (toEntry x).held = d) :
    Gains d σ (σ.set k y) := by
  have h := Gains.update σ k.key (some (toEntry y))
  rwa [get_eq_some.1 hx, valueOf_some, valueOf_some, hd] at h

theorem Gains.insert (y : α) (hk : σ k.key = none) (hd : (toEntry y).held = d) :
    Gains d σ (σ.set k y) := by
  have h := Gains.update σ k.key (some (toEntry y))
  rwa [hk, valueOf_some, valueOf_none, sub_zero, hd] at h

theorem Gains.del (hx : σ.get k = some x) (hd : (toEntry x).held = d) : Gains (-d) σ (σ.del k) := by
  have h := Gains.update σ k.key none
  rwa [get_eq_some.1 hx, valueOf_some, valueOf_none, zero_sub, hd] at h

theorem Gains.permits (hα : ∀ x : α, (toEntry x).held = 0) : Permits (Gains 0) α where
  set y hx := .set y hx (by rw [hα, hα, sub_zero])
  insert y hk := .insert y hk (hα y)
  del {_ _ x} hx := by simpa using Gains.del hx (hα x)

theorem Gains.dirAdd {dir : Keylet DirNode} {entry : Digest} {describe : DirNode → DirNode} :
    Ensures (Gains 0) (dirAdd dir entry describe) :=
  ensures_dirAdd isRun (permits fun _ => rfl)

theorem Gains.dirDelete {keepRoot stable soft : Bool} {page : Nat} {root entry : Digest} :
    Ensures (Gains 0) (dirDelete keepRoot page root entry stable soft) :=
  ensures_dirDelete isRun (permits fun _ => rfl).toPermitsChange

theorem Gains.eq (h : Gains d1 σ σ') (hd : d1 = d2) : Gains d2 σ σ' := hd ▸ h

end Gains

/-! ## Fees -/

variable {b : Int × Int}

section Fees
variable {app : Application} {tx : STTx} {σ σ' : State}

theorem Gains.removeUnfundedOffers (offers : List Digest) (n : Nat) :
    Ensures (Gains 0) (removeUnfundedOffers offers n) :=
  ensures_removeUnfundedOffers isRun (permits fun _ => rfl).toPermitsChange
    (permits fun _ => rfl).toPermitsChange (fun _ ha => .set _ ha (sub_self _)) offers n

theorem Gains.beginApply (h : exec (beginApply app tx) σ = .ok (b, σ')) : Gains 0 σ σ' := by
  rcases exec_beginApply h with ⟨-, -, rfl⟩ | ⟨a, ha, ⟨-, -, rfl⟩ | ⟨hg, fee, m, -, hm, -, rfl⟩⟩
  · exact .refl _
  · exact .set _ ha (sub_self _)
  have h1 : Gains (-fee) σ (σ.set (keylet.account tx.account)
      { a.sent tx with balance := a.balance - fee }) :=
    .set _ ha (by change a.balance - fee - a.balance = -fee; omega)
  have hm' : (σ.set (keylet.account tx.account) { a.sent tx with balance := a.balance - fee }).get
      (keylet.account app.genesisAccount) = some m := by
    rw [get_set_account, if_neg hg, hm]
  exact (h1.trans (.set _ hm' (by change m.balance + fee - m.balance = fee; omega))).eq (by omega)

theorem Gains.claimFee {fee fee' : Int} {offers : List Digest}
    (h : exec (claimFee app tx fee offers) σ = .ok (fee', σ')) : Gains 0 σ σ' := by
  obtain ⟨a, m, σ₁, ha, -, ho, hm, rfl⟩ := exec_claimFee h
  have h1 : Gains (-fee') σ (σ.set (keylet.account tx.account)
      { a with balance := a.balance - fee', sequence := tx.sequence + 1 }) :=
    .set _ ha (by change a.balance - fee' - a.balance = -fee'; omega)
  have h2 : Gains 0 _ σ₁ := Gains.removeUnfundedOffers _ _ ho
  exact ((h1.trans h2).trans (.set _ hm
    (by change m.balance + fee' - m.balance = fee'; omega))).eq (by omega)

end Fees

/-! ## Escrows -/

section Escrows
variable {ctx : ApplyContext} {σ σ' : State}

variable {e : Escrow}

theorem Entry.held_escrow {drops : Int} (h : e.amount = .native drops) :
    (toEntry e).held = drops := by
  change e.amount.nativeDrops = drops
  rw [h]
  rfl

theorem Files.gains {α : Type} [IsEntry α] {account : AccountID} {k : UInt32 → Keylet α} {x : α}
    {atPage : ℕ → α} {paid : Int → Prop} (h : Files account k x atPage paid σ σ')
    (hα : ∀ d : DirNode, (ofEntry (toEntry d) : Option α) = none)
    (hk : ∀ n, (k n).key ≠ (keylet.account account).key)
    (hh : ∀ drops, paid drops → (toEntry x).held = drops)
    (hp : ∀ page, (toEntry (atPage page)).held = (toEntry x).held) : Gains 0 σ σ' := by
  obtain ⟨a, drops, page, _, ha, hpa, hn, hadd, rfl⟩ := h
  obtain ⟨hfo, hr⟩ := dirAdd_found hα (hk _) ha hadd
  have h1 := (Gains.insert x hn (hh drops hpa)).trans (Gains.dirAdd hadd)
  have h2 := h1.trans (.set (atPage page) hfo (sub_eq_zero.2 (hp page)))
  exact (h2.trans (.set _ (hr _)
    (by change a.balance - drops - a.balance = -drops; omega))).eq (by omega)

theorem EscrowCreate.gains {f : EscrowCreate} (h : Succeeds (f.doApply ctx) σ σ') : Gains 0 σ σ' :=
  (doApply_ok h).gains (fun _ => rfl) (fun _ => by simp [keylet.account, keylet.escrow])
    (fun _ hdr => Entry.held_escrow (STAmount.drops_eq_ok.1 hdr)) fun _ => rfl

theorem EscrowFinish.gains {k : Keylet Escrow} (he : σ.get k = some e)
    (h : Succeeds (release k e) σ σ') : Gains 0 σ σ' := by
  obtain ⟨drops, σ₁, dst, a, hdr, hd, hdst, ha, rfl⟩ := release_ok h
  have hk : Keeps Escrow σ σ₁ :=
    ensures_dirDelete Keeps.isRun (Keeps.permits fun _ => rfl).toPermitsChange hd
  have h1 := (Gains.dirDelete hd).trans (.set { dst with balance := dst.balance + drops } hdst
    (by change dst.balance + drops - dst.balance = drops; omega))
  have h2 := h1.trans (.set { a with ownerCount := a.ownerCount - 1 } ha (sub_self _))
  refine (h2.trans (.del ?_ (Entry.held_escrow (STAmount.drops_eq_ok.1 hdr)))).eq (by omega)
  rw [(Keeps.permits fun _ => rfl).set _ ha, (Keeps.permits fun _ => rfl).set _ hdst, hk, he]

theorem EscrowCancel.gains {k : Keylet Escrow} (he : σ.get k = some e)
    (h : Succeeds (release k e) σ σ') : Gains 0 σ σ' := by
  obtain ⟨drops, σ₁, a, hdr, hd, ha, rfl⟩ := release_ok h
  have hk : Keeps Escrow σ σ₁ :=
    ensures_dirDelete Keeps.isRun (Keeps.permits fun _ => rfl).toPermitsChange hd
  have h1 := (Gains.dirDelete hd).trans (.set
    { a with balance := a.balance + drops, ownerCount := a.ownerCount - 1 } ha
    (by change a.balance + drops - a.balance = drops; omega))
  refine (h1.trans (.del ?_ (Entry.held_escrow (STAmount.drops_eq_ok.1 hdr)))).eq (by omega)
  rw [(Keeps.permits fun _ => rfl).set _ ha, hk, he]

theorem EscrowTx.gains {cc : CryptoConditions} {x : EscrowTx}
    (h : Succeeds (x.doApply cc ctx) σ σ') : Gains 0 σ σ' := by
  cases x with
  | create f => exact EscrowCreate.gains h
  | finish f =>
    obtain ⟨e, he, -, -, h⟩ := EscrowFinish.doApply_ok h
    exact EscrowFinish.gains he h
  | cancel f =>
    obtain ⟨e, t, he, -, -, h⟩ := EscrowCancel.doApply_ok h
    exact EscrowCancel.gains he h

end Escrows

/-! ## Channels -/

section Channels
variable {ctx : ApplyContext} {σ σ' : State} {k : Keylet PayChan}

theorem Entry.held_payChan {c : PayChan} {amount balance : Int} (ha : c.amount = .native amount)
    (hb : c.balance = .native balance) : (toEntry c).held = amount - balance := by
  change c.amount.nativeDrops - c.balance.nativeDrops = _
  rw [ha, hb]
  rfl

theorem Gains.retimed (h : Retimed k σ σ') : Gains 0 σ σ' := by
  rcases h with rfl | ⟨c, e, hc, rfl⟩
  · exact .refl _
  · exact .set _ hc (sub_self _)

theorem Gains.closeChannel (h : Succeeds (closeChannel k) σ σ') : Gains 0 σ σ' := by
  obtain ⟨c, amount, balance, hc, ham, hba, σ₁, a, hd, ha, rfl⟩ := closeChannel_ok h
  have hk : Keeps PayChan σ σ₁ :=
    ensures_dirDelete Keeps.isRun (Keeps.permits fun _ => rfl).toPermitsChange hd
  have h1 := (Gains.dirDelete hd).trans (.set
    { a with balance := a.balance + amount - balance, ownerCount := a.ownerCount - 1 } ha
    (by change a.balance + amount - balance - a.balance = amount - balance; omega))
  refine (h1.trans (.del ?_ (Entry.held_payChan ham hba))).eq (by omega)
  rw [(Keeps.permits fun _ => rfl).set _ ha, hk, hc]

theorem PayChanCreate.gains {f : PayChanCreate}
    (h : Succeeds (f.doApply ctx) σ σ') : Gains 0 σ σ' :=
  (doApply_ok h).gains (fun _ => rfl) (fun _ => by simp [keylet.account, keylet.payChan])
    (fun _ hdr => (Entry.held_payChan hdr (by simp [entry, hdr, STAmount.zeroed])).trans
      (sub_zero _)) fun _ => rfl

theorem PayChanFund.gains {f : PayChanFund} (h : Succeeds (f.doApply ctx) σ σ') : Gains 0 σ σ' := by
  obtain ⟨c, -, ⟨-, hcl⟩ | ⟨-, _, ht, hd⟩⟩ := doApply_ok h
  · exact .closeChannel hcl
  obtain ⟨a, c1, drops, amount, ha, hc1, -, ham, rfl⟩ := deposit_ok hd
  have hh : (toEntry { c1 with amount := .native (amount + drops) }).held - (toEntry c1).held =
      drops := by
    change amount + drops - c1.balance.nativeDrops -
      (c1.amount.nativeDrops - c1.balance.nativeDrops) = drops
    rw [ham, STAmount.nativeDrops]
    omega
  refine (((Gains.retimed ht).trans (.set _ hc1 hh)).trans (.set _ ?_
    (by change a.balance - drops - a.balance = -drops; omega))).eq (by omega)
  rw [get_set_ne (key_ne ha hc1 rfl), ha]

theorem PayChanClaim.gains {f : PayChanClaim}
    (h : Succeeds (f.doApply ctx) σ σ') : Gains 0 σ σ' := by
  obtain ⟨c, hc, hcl | ⟨σ₁, _, hpay, ht, he⟩⟩ := doApply_ok h
  · exact .closeChannel hcl
  have hp : Gains 0 σ σ₁ := by
    rcases payOut_ok hc hpay with rfl | ⟨dst, _, balance, req, ham, hb, -, -, hd, rfl⟩
    · exact .refl _
    have h1 : Gains (req - balance) σ _ := .set
      { dst with balance := dst.balance + (req - balance) } hd
      (by change dst.balance + (req - balance) - dst.balance = req - balance; omega)
    refine (h1.trans (.set (d := balance - req) { c with balance := .native req } (x := c) ?_
      ?_)).eq (by omega)
    · rw [get_set_ne (key_ne hc hd rfl), hc]
    rw [Entry.held_payChan (c := { c with balance := .native req }) ham rfl,
      Entry.held_payChan ham hb]
    omega
  have h2 := Gains.isRun.trans hp (.retimed ht)
  rcases he with ht' | hcl
  · exact Gains.isRun.trans h2 (.retimed ht')
  · exact Gains.isRun.trans h2 (.closeChannel hcl)

theorem PayChanTx.gains {x : PayChanTx} (h : Succeeds (x.doApply ctx) σ σ') : Gains 0 σ σ' := by
  cases x with
  | create f => exact PayChanCreate.gains h
  | fund f => exact PayChanFund.gains h
  | claim f => exact PayChanClaim.gains h

end Channels

/-! ## Payments -/

/-- The payment neither gives nor takes an issued currency. -/
structure Payment.NativeOnly (f : Payment) : Prop where
  sendMax : f.sendMax = none
  paths : f.paths = none
  native : ∀ p ∈ f.getAccountList, p.2.isNative = true

variable {σ₁ : State}

namespace Payment
section
variable {mc : MtchainCalc} {f : Payment} {ctx : ApplyContext} {σ σ' : State} {dst : AccountID}
  {drops : Int}

theorem forEachPayee_ok {check : AccountID → STAmount → Except Fault TER}
    {l : List (AccountID × STAmount)} {ter : TER} (h : forEachPayee check l ter = .ok .tesSUCCESS) :
    ∀ p ∈ l, check p.1 p.2 = .ok .tesSUCCESS := by
  induction l generalizing ter with
  | nil => simp
  | cons p _ ih =>
    obtain ⟨_, hp, h⟩ := bind_ok.1 h
    split at h
    · next hne => exact absurd (Except.ok.inj h) hne
    · next hs =>
      rw [not_not.1 hs] at hp
      exact List.forall_mem_cons.2 ⟨hp, ih h⟩

theorem checkPayee_ne {c : PreflightContext} (hf : f.NativeOnly)
    (h : f.checkPayee dst (.native drops) c = .ok .tesSUCCESS) : dst ≠ c.tx.account := by
  rintro rfl
  have hm : f.maxSourceAmount c.tx.account (.native drops) = .native drops := by
    simp [maxSourceAmount, hf.sendMax]
  simp only [checkPayee, hm, hf.paths] at h
  repeat' split at h
  all_goals first | cases h | next hr _ => exact hr ⟨trivial, trivial, rfl⟩

/-- The sender's account has the balance that the transactor keeps for it. -/
def SourceAt (ctx : ApplyContext) (σ : State) : Prop :=
  ∃ a, σ.get (keylet.account ctx.tx.account) = some a ∧ a.balance = ctx.mSourceBalance

theorem touchDestination_gains {u : Unit} (hne : dst ≠ ctx.tx.account) (hs : SourceAt ctx σ)
    (h : exec (touchDestination dst) σ = .ok (u, σ')) : Gains 0 σ σ' ∧ SourceAt ctx σ' := by
  obtain ⟨a, ha, hbal⟩ := hs
  have hso (b) : SourceAt ctx (σ.set (keylet.account dst) b) :=
    ⟨a, by rw [get_set_account, if_neg (Ne.symm hne), ha], hbal⟩
  obtain ⟨o, rfl, h⟩ := exec_peek_ok h
  split at h
  · obtain ⟨hn, rfl⟩ := exec_insert.1 h
    exact ⟨.insert _ hn rfl, hso _⟩
  · obtain ⟨b, hb, rfl⟩ := exec_update.1 h
    exact ⟨.set _ hb (sub_self _), hso _⟩

theorem payDirect_gains (hne : dst ≠ ctx.tx.account) (hs : SourceAt ctx σ)
    (h : Succeeds (payDirect ctx dst drops) σ σ') :
    Gains 0 σ σ' ∧ SourceAt (afterPaying ctx (.native drops)) σ' := by
  obtain ⟨a, ha, _⟩ := hs
  obtain ⟨_, -, h⟩ := exec_peek!_ok h
  obtain ⟨_, -, h⟩ := exec_ofExcept_ok h
  obtain ⟨-, h⟩ := exec_guard h
  obtain ⟨a', ha', h⟩ := exec_update_ok h
  obtain rfl : a = a' := Option.mem_unique ha ha'
  obtain ⟨b, hb, h⟩ := exec_update_ok h
  obtain ⟨-, rfl⟩ := exec_pure.1 h
  have h1 : Gains (-drops) σ (σ.set (keylet.account ctx.tx.account)
      { a with balance := ctx.mSourceBalance - drops }) :=
    .set _ ha (by change ctx.mSourceBalance - drops - a.balance = -drops; omega)
  refine ⟨(h1.trans (.set (d := drops) _ hb ?_)).eq (by omega), ?_⟩
  · change b.balance + drops - b.balance = drops
    omega
  refine ⟨{ a with balance := ctx.mSourceBalance - drops }, ?_, rfl⟩
  change get _ (keylet.account ctx.tx.account) = _
  rw [get_set_account, if_neg (Ne.symm hne)]
  exact get_set_self ..

theorem payOne_gains (hf : f.NativeOnly) (hne : dst ≠ ctx.tx.account) (hs : SourceAt ctx σ)
    (h : Succeeds (f.payOne mc ctx dst (.native drops)) σ σ') :
    Gains 0 σ σ' ∧ SourceAt (afterPaying ctx (.native drops)) σ' := by
  obtain ⟨_, -, h⟩ := exec_peek_ok h
  dsimp only at h
  split at h
  · next ht => exact absurd (exec_pure.1 h).1 ht
  obtain ⟨_, _, h1, h⟩ := exec_bind.1 h
  obtain ⟨hg1, hs1⟩ := touchDestination_gains hne hs h1
  rw [if_neg (by simp [hf.paths, hf.sendMax])] at h
  obtain ⟨hg2, hs2⟩ := payDirect_gains hne hs1 h
  exact ⟨Gains.isRun.trans hg1 hg2, hs2⟩

/-- The loop over the payees: the balance kept for the sender is its account's. -/
theorem payAll_gains (hf : f.NativeOnly) {l : List (AccountID × STAmount)} {ter : TER}
    (hs : SourceAt ctx σ) (hl : ∀ p ∈ l, p.1 ≠ ctx.tx.account ∧ p.2.isNative = true)
    (h : Succeeds (f.payAll mc l ctx ter) σ σ') : Gains 0 σ σ' := by
  induction l generalizing ctx ter σ with
  | nil =>
    obtain ⟨-, rfl⟩ := exec_pure.1 h
    exact .refl _
  | cons p _ ih =>
    obtain ⟨⟨hne, hna⟩, hr⟩ := List.forall_mem_cons.1 hl
    obtain ⟨_, amount⟩ := p
    cases amount with
    | issued i q => cases hna
    | native _ =>
      obtain ⟨_, _, h1, h⟩ := exec_bind.1 h
      split at h
      · next ht => exact absurd (exec_pure.1 h).1 ht
      · next ht =>
        rw [not_not.1 ht] at h1
        obtain ⟨hg, hs1⟩ := payOne_gains hf hne hs h1
        exact Gains.isRun.trans hg (ih hs1 hr h)

theorem preflight_ok {c : PreflightContext} (hf : f.NativeOnly)
    (h : f.preflight c = .ok .tesSUCCESS) :
    preflight1 c = .tesSUCCESS ∧
      ∀ p ∈ f.getAccountList, p.1 ≠ c.tx.account ∧ p.2.isNative = true := by
  have ha := forEachPayee_ok h
  constructor
  · cases hl : f.getAccountList with
    | nil => rw [preflight, hl] at h; cases h
    | cons p _ => exact (preflightWith_ok (ha p (by simp [hl]))).1
  rintro ⟨_, amount⟩ hp
  have hn := hf.native _ hp
  cases amount with
  | issued i q => cases hn
  | native _ => exact ⟨checkPayee_ne hf (preflightWith_ok (ha _ hp)).2.1, rfl⟩

theorem sourceAt_beginApply
    (hs : (ctx.view.state.get (keylet.account ctx.tx.account)).isSome = true)
    (h : exec (beginApply ctx.app ctx.tx) ctx.view.state = .ok (b, σ₁)) :
    SourceAt (ctx.withBalances b) σ₁ := by
  rcases exec_beginApply h with ⟨hn, -, -⟩ | ⟨a, -, ⟨-, rfl, rfl⟩ | ⟨hg, fee, m, -, -, rfl, rfl⟩⟩
  · rw [hn] at hs
    cases hs
  · exact ⟨_, get_set_self .., rfl⟩
  refine ⟨{ a.sent ctx.tx with balance := a.balance - fee }, ?_, rfl⟩
  change get _ (keylet.account ctx.tx.account) = _
  rw [get_set_account, if_neg (Ne.symm hg), get_set_self]

theorem gains (hf : f.NativeOnly) (hp : Passed (f.transactor mc) ctx)
    (hb : exec (beginApply ctx.app ctx.tx) ctx.view.state = .ok (b, σ₁))
    (h : Succeeds (f.doApply mc (ctx.withBalances b)) σ₁ σ') : Gains 0 σ₁ σ' := by
  obtain ⟨hpre, hpa⟩ := preflight_ok hf hp.preflight
  exact payAll_gains hf (sourceAt_beginApply (hp.sender_isSome hpre) hb) hpa h

end
end Payment

/-! ## Every transaction -/

/-- The transactions that deal in the native currency alone. -/
inductive NativeTx where
  | payment (f : Payment)
  | escrow (x : EscrowTx)
  | channel (x : PayChanTx)

namespace NativeTx

def NativeOnly : NativeTx → Prop
  | payment f => f.NativeOnly
  | _ => True

variable (mc : MtchainCalc) (cc : CryptoConditions)

def transactor : NativeTx → Transactor
  | payment f => f.transactor mc
  | escrow x => x.transactor cc
  | channel x => x.transactor

def doApply : NativeTx → ApplyContext → ViewM TER
  | payment f => f.doApply mc
  | escrow x => x.doApply cc
  | channel x => x.doApply

variable {mc cc}

theorem transactor_doApply (x : NativeTx) (c : ApplyContext) :
    (x.transactor mc cc).doApply c = (x.doApply mc cc c).onTable := by
  cases x with
  | payment f => rfl
  | escrow x => exact x.transactor_doApply c
  | channel x => exact x.transactor_doApply c

theorem preflight1_of_passed {x : NativeTx} {ctx : ApplyContext} (hx : x.NativeOnly)
    (h : Passed (x.transactor mc cc) ctx) :
    preflight1 ⟨ctx.app, ctx.tx, ctx.view.enabled, ctx.flags⟩ = .tesSUCCESS := by
  have hpf := h.preflight
  cases x with
  | payment f => exact (Payment.preflight_ok hx hpf).1
  | escrow x => cases x <;> exact (preflight_enabled_ok hpf).1
  | channel x => cases x <;> exact (preflight_enabled_ok hpf).1

theorem gains {x : NativeTx} {ctx : ApplyContext} {σ' : State}
    (hx : x.NativeOnly) (hp : Passed (x.transactor mc cc) ctx)
    (hb : exec (beginApply ctx.app ctx.tx) ctx.view.state = .ok (b, σ₁))
    (h : Succeeds (x.doApply mc cc (ctx.withBalances b)) σ₁ σ') : Gains 0 σ₁ σ' := by
  cases x with
  | payment f => exact Payment.gains hx hp hb h
  | escrow x => exact EscrowTx.gains h
  | channel x => exact PayChanTx.gains h

end NativeTx

/-- Nothing but `fee` drops has moved from the sender to the genesis account. -/
def FeeMoves (app : Application) (tx : STTx) (fee : Int) (σ σ' : State) : Prop :=
  ∀ a, σ'.balance a = σ.balance a - (if a = tx.account then fee else 0) +
    if a = app.genesisAccount then fee else 0

section
variable {app : Application} {tx : STTx} {σ σ' : State} {fee : Int}

theorem KeepsUncounted.balance (h : KeepsUncounted σ σ') (o : AccountID) :
    σ'.balance o = σ.balance o := by
  have hm := congrArg (Option.map AccountRoot.balance) (h o)
  rw [Option.map_map, Option.map_map] at hm
  exact congrArg (Option.getD · 0) hm

theorem beginApply_feeMoves (hf : tx.fee.drops = .ok fee)
    (hs : (σ.get (keylet.account tx.account)).isSome = true)
    (h : exec (beginApply app tx) σ = .ok (b, σ')) : FeeMoves app tx fee σ σ' := by
  intro o
  rcases exec_beginApply h with ⟨hn, -, -⟩ | ⟨a, ha, ⟨hg, -, rfl⟩ | ⟨hg, fee', m, hf', hm, -, rfl⟩⟩
  · rw [hn] at hs
    cases hs
  · have hse : (a.sent tx).balance = a.balance + 0 := (add_zero _).symm
    rw [balance_add ha hse, hg]
    split <;> omega
  obtain rfl : fee = fee' := Except.ok.inj (hf.symm.trans hf')
  have hm' : (σ.set (keylet.account tx.account) { a.sent tx with balance := a.balance - fee }).get
      (keylet.account app.genesisAccount) = some m := by
    rw [get_set_account, if_neg hg, hm]
  rw [balance_add hm' rfl, balance_add ha rfl]
  split <;> omega

theorem claimFee_feeMoves {fee' : Int} {offers : List Digest}
    (h : exec (claimFee app tx fee offers) σ = .ok (fee', σ')) :
    fee' = min fee (σ.balance tx.account) ∧ FeeMoves app tx fee' σ σ' := by
  obtain ⟨a, m, σ₁, ha, hmin, ho, hm, rfl⟩ := exec_claimFee h
  refine ⟨by rw [balance_eq ha, hmin], fun o => ?_⟩
  obtain ⟨D, -, -, hr⟩ := removeUnfundedOffers_removed (by omega) ho
  have hk : KeepsUncounted _ σ₁ := hr.roots
  rw [balance_add hm rfl, hk.balance, balance_add ha rfl]
  split <;> omega

end

/-- An applied transaction neither mints nor burns drops in accounts, escrows and channels. The fee
goes to the genesis account, before the work of a success, or capped to the sender's balance if only
it is applied. -/
theorem native_conservation {mc : MtchainCalc} {cc : CryptoConditions} {x : NativeTx}
    {app : Application} {v : OpenView} {tx : STTx} {flags : ApplyFlags} {o : Outcome}
    (hfin : FiniteKeys v.state) (hx : x.NativeOnly)
    (h : (x.transactor mc cc).applyTx app v tx flags = .ok o) (ha : o.applied = true) :
    o.view.state.nativeTotal = v.state.nativeTotal ∧
    ∃ fee, tx.fee.drops = .ok fee ∧
      ((o.ter = .tesSUCCESS ∧ ∃ baseFee b σ₁, exec (beginApply app tx) v.state = .ok (b, σ₁) ∧
          FeeMoves app tx fee v.state σ₁ ∧
          exec (x.doApply mc cc { app, view := v, tx, flags, baseFee,
                                  mPriorBalance := b.1, mSourceBalance := b.2 }) σ₁ =
            .ok (.tesSUCCESS, o.view.state)) ∨
        (o.ter.isTecClaim = true ∧
          FeeMoves app tx (min fee (v.state.balance tx.account)) v.state o.view.state)) := by
  obtain ⟨baseFee, fee, hf, ⟨ht, hpa, b, σ₁, hb, hdo⟩ | ⟨htec, _, _, hcl⟩⟩ :=
    applyTx_exec x.transactor_doApply h ha
  · have hg := Gains.isRun.trans (.beginApply hb) (NativeTx.gains hx hpa hb hdo)
    have hso := hpa.sender_isSome (NativeTx.preflight1_of_passed hx hpa)
    exact ⟨by rw [(hg hfin).2, add_zero], fee, hf,
      .inl ⟨ht, baseFee, b, σ₁, hb, beginApply_feeMoves hf hso hb, hdo⟩⟩
  · obtain ⟨rfl, hmo⟩ := claimFee_feeMoves hcl
    exact ⟨by rw [(Gains.claimFee hcl hfin).2, add_zero], fee, hf, .inr ⟨htec, hmo⟩⟩

namespace Sample

theorem ledger_finite (accounts : List AccountRoot) (closed : Bool) :
    FiniteKeys (ledger accounts closed).state := by
  refine (List.finite_toSet (accounts.map fun a => Digest.account a.account)).subset fun k hk => ?_
  obtain ⟨e, he⟩ := Option.ne_none_iff_exists'.1 hk
  obtain ⟨a, ha, rfl, -⟩ := ledger_entry he
  exact List.mem_map.2 ⟨a, ha, rfl⟩

def noPaths : MtchainCalc where
  mtchainCalculate _ _ _ _ _ _ := return { result := .tecPATH_DRY, actualAmountOut := .native 0 }

/-- Pays the genesis account twice, and once an account that does not exist. -/
def threePayees (drops : Int) : Payment where
  payees := some [⟨1, some (.native drops)⟩, ⟨1, some (.native drops)⟩, ⟨3, some (.native 30)⟩]

theorem threePayees_nativeOnly (drops : Int) : (threePayees drops).NativeOnly := by
  refine ⟨rfl, rfl, fun p hp => ?_⟩
  simp only [threePayees, Payment.getAccountList, List.map_cons, List.map_nil, List.mem_cons,
    List.not_mem_nil, or_false] at hp
  rcases hp with rfl | rfl | rfl <;> rfl

def paid (drops : Int) : OpenView :=
  two.after (((threePayees drops).transactor noPaths).applyTx app two (tx 1 2 1) {})

end Sample

open Sample

/-- Account 2 pays its payees, or cannot and pays the fee. -/
theorem native_conservation_sample :
    (paid 100).state.nativeTotal = two.state.nativeTotal ∧
    (paid 100).state.balance 1 = 1210 ∧ (paid 100).state.balance 2 = 260 ∧
    (paid 300).state.nativeTotal = two.state.nativeTotal ∧
    (paid 300).state.balance 1 = 1010 ∧ (paid 300).state.balance 2 = 490 := by
  have h1 : ending (((threePayees 100).transactor noPaths).applyTx app
      two (tx 1 2 1) {}) = .ok (.tesSUCCESS, true) := by decide +kernel
  have h2 : ending (((threePayees 300).transactor noPaths).applyTx app
      two (tx 1 2 1) {}) = .ok (.tecUNFUNDED_PAYMENT, true) := by decide +kernel
  have hf : FiniteKeys two.state := ledger_finite _ _
  have hc1 := @native_conservation noPaths conditions
    (.payment (threePayees 100)) _ _ _ _ _ hf (threePayees_nativeOnly 100)
    (ending_eq_ok h1 two) rfl
  have hc2 := @native_conservation noPaths conditions
    (.payment (threePayees 300)) _ _ _ _ _ hf (threePayees_nativeOnly 300)
    (ending_eq_ok h2 two) rfl
  exact ⟨hc1.1, by decide +kernel, by decide +kernel, hc2.1, by decide +kernel, by decide +kernel⟩

end FinPal
