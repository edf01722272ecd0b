import FinPal.Lib.Purse
import FinPal.Verify.PayChanSteps

/-!
# Solvency of payment channels

A channel is a purse of its owner for its destination, and every success of the three transactors is
one step of it (`ChannelMove`). That a creation is not negative is not checked by the source.
-/

namespace FinPal
open Store ViewM State Keeps

/-- The channel's parties, and the purse that its two amounts make. -/
structure ShowsPurse (src dst : AccountID) (c : PayChan) (p : Purse Int) : Prop where
  account : c.account = src
  destination : c.destination = dst
  amount : c.amount = .native p.amount
  balance : c.balance = .native p.balance

/-- Every channel is a purse, and its parties are two accounts. -/
def ChannelInv (σ : State) : Prop :=
  ∀ (k : Keylet PayChan) (c : PayChan), σ.get k = some c →
    c.account ≠ c.destination ∧ ∃ p, ShowsPurse c.account c.destination c p

/-- One step of the purse under `k`, seen by the accounts and other channels. -/
structure ChannelMove (k : Keylet PayChan) (src dst : AccountID) (p q : Option (Purse Int))
    (f : Flow Int) (σ σ' : State) : Prop where
  before : Option.Rel (ShowsPurse src dst) (σ.get k) p
  after : Option.Rel (ShowsPurse src dst) (σ'.get k) q
  others : ∀ k' : Keylet PayChan, k'.key ≠ k.key → σ'.get k' = σ.get k'
  balances : ∀ o, σ'.balance o = σ.balance o +
    (if o = src then f.refunded - f.deposited else 0) + (if o = dst then f.paid else 0)

section Moves
variable {k : Keylet PayChan} {src dst : AccountID} {p : Option (Purse Int)} {q : Purse Int}
  {f : Flow Int} {σ σ₁ σ' : State} {c : PayChan}

theorem ChannelMove.refl (hc : σ.get k = some c) (hs : ShowsPurse src dst c q) :
    ChannelMove k src dst (some q) (some q) 0 σ σ where
  before := by rw [hc]; exact .some hs
  after := by rw [hc]; exact .some hs
  others _ _ := rfl
  balances o := by simp

theorem ChannelMove.found (h : ChannelMove k src dst p (some q) f σ σ₁) :
    ∃ c, σ₁.get k = some c ∧ ShowsPurse src dst c q := by
  have hr := h.after
  cases hc : σ₁.get k with
  | none => rw [hc] at hr; cases hr
  | some c =>
    rw [hc] at hr
    cases hr with
    | some hs => exact ⟨c, rfl, hs⟩

theorem ChannelMove.retimed (h : ChannelMove k src dst p (some q) f σ σ₁) (ht : Retimed k σ₁ σ') :
    ChannelMove k src dst p (some q) f σ σ' := by
  rcases ht with rfl | ⟨c, e, hc, rfl⟩
  · exact h
  obtain ⟨c', hc', hs⟩ := h.found
  obtain rfl : c = c' := Option.mem_unique hc hc'
  refine ⟨h.before, ?_, fun k' hk => ?_, fun o => ?_⟩
  · rw [get_set_self]
    exact .some ⟨hs.account, hs.destination, hs.amount, hs.balance⟩
  · rw [get_set_ne hk, h.others k' hk]
  have hro : Keeps AccountRoot σ₁ (σ₁.set k { c with expiration := e }) :=
    (permits fun _ => rfl).set _ hc
  rw [hro.balance, h.balances]

theorem ChannelMove.close {paid : Int} (h : ChannelMove k src dst p (some q) ⟨0, paid, 0⟩ σ σ₁)
    (hcl : Succeeds (closeChannel k) σ₁ σ') :
    ChannelMove k src dst p none ⟨0, paid, q.held⟩ σ σ' := by
  obtain ⟨c, amount, balance, hc, ham, hba, σ2, a, hd, ha, rfl⟩ := closeChannel_ok hcl
  obtain ⟨c', hc', hs⟩ := h.found
  obtain rfl : c = c' := Option.mem_unique hc hc'
  obtain rfl : amount = q.amount := by simpa [ham] using hs.amount
  obtain rfl : balance = q.balance := by simpa [hba] using hs.balance
  have hke {β : Type} [IsEntry β] (hβ : ∀ x, (ofEntry (toEntry x) : Option β) = none) :
      Keeps β σ₁ σ2 := ensures_dirDelete isRun (permits hβ).toPermitsChange hd
  generalize ha' : ({ a with
    balance := a.balance + q.amount - q.balance
    ownerCount := a.ownerCount - 1 } : AccountRoot) = a'
  have hset : Keeps PayChan σ2 (σ2.set (keylet.account c.account) a') :=
    (permits fun _ => rfl).set _ ha
  have hro : Keeps AccountRoot (σ2.set (keylet.account c.account) a')
      ((σ2.set (keylet.account c.account) a').del k) :=
    (permits fun _ => rfl).del (by rw [hset, hke fun _ => rfl, hc])
  refine ⟨h.before, by rw [get_del_self]; exact .none, fun k' hk => ?_, fun o => ?_⟩
  · rw [get_del_ne hk, hset, hke fun _ => rfl, h.others k' hk]
  have hb : a'.balance = a.balance + q.held := by
    rw [← ha', Purse.held]
    dsimp only
    omega
  rw [hro.balance, balance_add ha hb, (hke fun _ => rfl).balance, h.balances, hs.account]
  dsimp only
  split <;> omega

end Moves

/-! ## The three transactors -/

/-- The transactions on payment channels. -/
inductive PayChanTx where
  | create (f : PayChanCreate)
  | fund (f : PayChanFund)
  | claim (f : PayChanClaim)

namespace PayChanTx

def transactor : PayChanTx → Transactor
  | create f => f.transactor
  | fund f => f.transactor
  | claim f => f.transactor

/-- `doApply` as a program of view operations. -/
def doApply (ctx : ApplyContext) : PayChanTx → ViewM TER
  | create f => f.doApply ctx
  | fund f => f.doApply ctx
  | claim f => f.doApply ctx

theorem transactor_doApply (x : PayChanTx) (c : ApplyContext) :
    x.transactor.doApply c = (x.doApply c).onTable := by
  cases x <;> rfl

/-- The channel that a transaction is about. -/
def channel (tx : STTx) : PayChanTx → Keylet PayChan
  | create f => keylet.payChan tx.account f.destination tx.sequence
  | fund f => ⟨f.payChannel⟩
  | claim f => ⟨f.payChannel⟩

/-- A channel is not created for a negative amount, which the source does not check. -/
def NonNegative : PayChanTx → Prop
  | create f => ∀ drops, f.amount = .native drops → 0 ≤ drops
  | _ => True

/-- What preflight has checked of the parties and the amounts. -/
def Checked (tx : STTx) : PayChanTx → Prop
  | create f => tx.account ≠ f.destination
  | fund f => ∀ drops, f.amount = .native drops → 0 < drops
  | claim _ => True

theorem checked_of_passed {x : PayChanTx} {ctx : ApplyContext} (h : Passed x.transactor ctx) :
    x.Checked ctx.tx ∧ ∃ fee, ctx.tx.fee = .native fee ∧ 0 ≤ fee := by
  have hpf := h.preflight
  cases x with
  | create f =>
    obtain ⟨h1, hch⟩ := preflight_enabled_ok hpf
    refine ⟨?_, preflight1_fee h1⟩
    unfold PayChanCreate.check at hch
    split at hch
    · cases hch
    · assumption
  | fund f =>
    obtain ⟨h1, hch⟩ := preflight_enabled_ok hpf
    refine ⟨fun drops hdr => ?_, preflight1_fee h1⟩
    unfold PayChanFund.check at hch
    split at hch
    · cases hch
    · next hp => simpa [hdr, isPositiveM] using hp
  | claim f => exact ⟨trivial, preflight1_fee (preflight_enabled_ok hpf).1⟩

end PayChanTx

section Transactors
variable {ctx : ApplyContext} {σ σ' : State}

theorem PayChanCreate.move {f : PayChanCreate} (hnn : ∀ drops, f.amount = .native drops → 0 ≤ drops)
    (hs : ∀ a, σ.get (keylet.account ctx.tx.account) = some a → a.sequence = ctx.tx.sequence + 1)
    (h : Succeeds (f.doApply ctx) σ σ') :
    ∃ p, p.balance = 0 ∧
      ChannelMove (keylet.payChan ctx.tx.account f.destination ctx.tx.sequence) ctx.tx.account
        f.destination none (some p) ⟨p.amount, 0, 0⟩ σ σ' := by
  obtain ⟨a, drops, _, σ₁, ha, hdr, hno, hadd, hσ'⟩ := doApply_ok h
  rw [hs a ha, UInt32.add_sub_cancel] at hno hadd hσ'
  generalize hk : keylet.payChan ctx.tx.account f.destination ctx.tx.sequence = k at hno hadd hσ' ⊢
  have hkey : k.key ≠ (keylet.account ctx.tx.account).key := by
    simp [← hk, keylet.payChan, keylet.account]
  have hke {β : Type} [IsEntry β] (hβ : ∀ x, (ofEntry (toEntry x) : Option β) = none) :
      Keeps β (σ.set k (f.entry ctx.tx)) σ₁ := ensures_dirAdd isRun (permits hβ) hadd
  let p : Purse Int := ⟨drops, 0, le_rfl, hnn drops hdr⟩
  obtain ⟨c, a', hσ', hb, hsh⟩ : ∃ c a',
      σ' = (σ₁.set k c).set (keylet.account ctx.tx.account) a' ∧ a'.balance = a.balance - drops ∧
        ShowsPurse ctx.tx.account f.destination c p :=
    ⟨_, _, hσ', rfl, rfl, rfl, hdr, by simp [entry, hdr, STAmount.zeroed, p]⟩
  obtain ⟨hc1, hr⟩ := dirAdd_found (fun _ => rfl) hkey ha hadd
  have ha1 := hr c
  refine ⟨p, rfl, ?_, ?_, fun k' hk' => ?_, fun o => ?_⟩
  · rw [get_of_none hno]
    exact .none
  · rw [hσ', get_set_ne hkey, get_set_self]
    exact .some hsh
  · have hset : Keeps PayChan (σ₁.set k c) σ' := by
      rw [hσ']
      exact (permits fun _ => rfl).set _ ha1
    rw [hset, get_set_ne hk', hke fun _ => rfl, get_set_ne hk']
  have hro : Keeps AccountRoot σ (σ.set k (f.entry ctx.tx)) :=
    (permits fun _ => rfl).insert _ hno
  have hro1 : Keeps AccountRoot σ₁ (σ₁.set k c) := (permits fun _ => rfl).set _ hc1
  rw [hσ', balance_add ha1 (d := -drops) (by rw [hb]; omega), hro1.balance,
    (hke fun _ => rfl).balance, hro.balance]
  simp [p]

theorem PayChanFund.move {f : PayChanFund} (hi : ChannelInv σ)
    (hp : ∀ drops, f.amount = .native drops → 0 < drops) (h : Succeeds (f.doApply ctx) σ σ') :
    ∃ src dst p q fl, src ≠ dst ∧ Purse.Step (some p) q fl ∧ (q.isSome → src = ctx.tx.account) ∧
      ChannelMove ⟨f.payChannel⟩ src dst (some p) q fl σ σ' := by
  obtain ⟨c, hc, hca⟩ := doApply_ok h
  obtain ⟨hne, p, hs⟩ := hi _ c hc
  have hre := ChannelMove.refl hc hs
  rcases hca with ⟨-, hcl⟩ | ⟨hacc, σ₁, ht, hd⟩
  · refine ⟨_, _, p, none, _, hne, .closed p p rfl le_rfl, by simp, ?_⟩
    rw [sub_self]
    exact hre.close hcl
  have hm := hre.retimed ht
  obtain ⟨c1, hc1, hs1⟩ := hm.found
  obtain ⟨a, c1', drops, amount, ha, hc1', hdr, ham, hσ'⟩ := deposit_ok hd
  obtain rfl : c1 = c1' := Option.mem_unique hc1 hc1'
  have hdpos := hp drops hdr
  obtain rfl : amount = p.amount := by simpa [ham] using hs1.amount
  let q : Purse Int := ⟨p.amount + drops, p.balance, p.nonneg, p.le.trans (by omega)⟩
  obtain ⟨c2, hc2, hs2⟩ : ∃ c2, ({ c1 with amount := .native (p.amount + drops) } : PayChan) = c2 ∧
      ShowsPurse c.account c.destination c2 q :=
    ⟨_, rfl, hs1.account, hs1.destination, rfl, hs1.balance⟩
  rw [hc2] at hσ'
  have hk := key_ne hc1 ha rfl
  have ha1 : (σ₁.set ⟨f.payChannel⟩ c2).get (keylet.account ctx.tx.account) = some a := by
    rw [get_set_ne (Ne.symm hk), ha]
  have hset : Keeps PayChan (σ₁.set ⟨f.payChannel⟩ c2) σ' := by
    rw [hσ']
    exact (permits fun _ => rfl).set _ ha1
  refine ⟨_, _, p, some q, _, hne, .filled p q rfl (by dsimp only [q]; omega), fun _ => hacc,
    hm.before, ?_, fun k' hk' => ?_, fun o => ?_⟩
  · rw [hset, get_set_self]
    exact .some hs2
  · rw [hset, get_set_ne hk', hm.others k' hk']
  have hro : Keeps AccountRoot σ₁ (σ₁.set ⟨f.payChannel⟩ c2) :=
    (permits fun _ => rfl).set _ hc1
  rw [hσ', balance_add ha1 (d := -drops) (by dsimp only; omega), hro.balance,
    hm.balances, hacc]
  simp [q]

theorem PayChanClaim.move {f : PayChanClaim} (hi : ChannelInv σ)
    (h : Succeeds (f.doApply ctx) σ σ') :
    ∃ src dst p q fl, src ≠ dst ∧ Purse.Step (some p) q fl ∧
      ChannelMove ⟨f.payChannel⟩ src dst (some p) q fl σ σ' := by
  obtain ⟨c, hc, hca⟩ := doApply_ok h
  obtain ⟨hne, p, hs⟩ := hi _ c hc
  have hre := ChannelMove.refl hc hs
  rcases hca with hcl | ⟨σ₁, _, hp, ht, he⟩
  · refine ⟨_, _, p, none, _, hne, .closed p p rfl le_rfl, ?_⟩
    rw [sub_self]
    exact hre.close hcl
  -- the purse after the payment, which may be the same
  obtain ⟨q, hqa, hqb, hm⟩ : ∃ q, q.amount = p.amount ∧ p.balance ≤ q.balance ∧
      ChannelMove ⟨f.payChannel⟩ c.account c.destination (some p) (some q)
        ⟨0, q.balance - p.balance, 0⟩ σ σ₁ := by
    rcases payOut_ok hc hp with rfl | ⟨dst, amount, balance, req, ham, hb, hlt, hle, hd, hσ1⟩
    · exact ⟨p, rfl, le_rfl, by rw [sub_self]; exact hre⟩
    obtain rfl : amount = p.amount := by simpa [ham] using hs.amount
    obtain rfl : balance = p.balance := by simpa [hb] using hs.balance
    obtain ⟨c1, hc1, hs1⟩ : ∃ c1, ({ c with balance := .native req } : PayChan) = c1 ∧
        ShowsPurse c.account c.destination c1 ⟨p.amount, req, p.nonneg.trans hlt.le, hle⟩ :=
      ⟨_, rfl, hs.account, hs.destination, hs.amount, rfl⟩
    rw [hc1] at hσ1
    have hset {β : Type} [IsEntry β] (hβ : ∀ x, (ofEntry (toEntry x) : Option β) = none) :
        Keeps β σ (σ.set (keylet.account c.destination)
          { dst with balance := dst.balance + (req - p.balance) }) :=
      (permits hβ).set _ hd
    refine ⟨⟨p.amount, req, p.nonneg.trans hlt.le, hle⟩, rfl, hlt.le, hre.before, ?_,
      fun k' hk' => ?_, fun o => ?_⟩
    · rw [hσ1, get_set_self]
      exact .some hs1
    · rw [hσ1, get_set_ne hk', hset fun _ => rfl]
    have hro : Keeps AccountRoot (σ.set (keylet.account c.destination)
        { dst with balance := dst.balance + (req - p.balance) }) σ₁ := by
      rw [hσ1]
      exact (permits fun _ => rfl).set _ (by rw [hset fun _ => rfl, hc])
    rw [hro.balance, balance_add hd rfl]
    simp
  have hm2 := hm.retimed ht
  rcases he with ht' | hcl
  · exact ⟨_, _, p, some q, _, hne, .paid p q hqa hqb, hm2.retimed ht'⟩
  · exact ⟨_, _, p, none, _, hne, .closed p q hqa hqb, hm2.close hcl⟩

end Transactors

/-! ## One transaction -/

variable {σ σ' : State} {k : Keylet PayChan} {src dst : AccountID} {p : Option (Purse Int)}

theorem PayChanTx.move {x : PayChanTx} {ctx : ApplyContext} (hi : ChannelInv σ)
    (hnn : x.NonNegative) (hc : x.Checked ctx.tx)
    (hseq : ∀ a, σ.get (keylet.account ctx.tx.account) = some a → a.sequence = ctx.tx.sequence + 1)
    (h : Succeeds (x.doApply ctx) σ σ') :
    ∃ src dst p q fl, src ≠ dst ∧ Purse.Step p q fl ∧
      ChannelMove (x.channel ctx.tx) src dst p q fl σ σ' := by
  cases x with
  | create f =>
    obtain ⟨p, hp, hm⟩ := f.move hnn hseq h
    exact ⟨_, _, _, _, _, hc, .opened p hp, hm⟩
  | fund f =>
    obtain ⟨src, dst, p, q, fl, hne, hs, -, hm⟩ := f.move hi hc h
    exact ⟨src, dst, _, q, fl, hne, hs, hm⟩
  | claim f =>
    obtain ⟨src, dst, p, q, fl, hne, hs, hm⟩ := f.move hi h
    exact ⟨src, dst, _, q, fl, hne, hs, hm⟩

theorem ChannelInv.of_move {q : Option (Purse Int)} {fl : Flow Int} (hi : ChannelInv σ)
    (hne : src ≠ dst) (hm : ChannelMove k src dst p q fl σ σ') : ChannelInv σ' := by
  intro k' c hc
  by_cases hk : k'.key = k.key
  · have hr := hm.after
    rw [show σ'.get k = some c by rw [← hc]; cases k; cases k'; cases hk; rfl] at hr
    cases hr with
    | some hs =>
      obtain ⟨rfl, rfl, ha, hb⟩ := hs
      exact ⟨hne, _, rfl, rfl, ha, hb⟩
  · rw [hm.others k' hk] at hc
    exact hi k' c hc

theorem ChannelInv.of_keeps (hi : ChannelInv σ) (h : Keeps PayChan σ σ') :
    ChannelInv σ' := fun k c hc => hi k c (by rwa [h] at hc)

/-- A success runs `doApply` after the fee; all else that is applied leaves the channels. -/
theorem channel_step {x : PayChanTx} {app : Application} {v : OpenView} {tx : STTx}
    {flags : ApplyFlags} {o : Outcome} (h : x.transactor.applyTx app v tx flags = .ok o)
    (ha : o.applied = true) :
    (o.ter = .tesSUCCESS ∧ x.Checked tx ∧ ∃ ctx b σ₁ fee, ctx.tx = tx ∧ tx.fee = .native fee ∧
        0 ≤ fee ∧ exec (beginApply app tx) v.state = .ok (b, σ₁) ∧ Keeps PayChan v.state σ₁ ∧
        Succeeds (x.doApply ctx) σ₁ o.view.state) ∨
      (o.ter ≠ .tesSUCCESS ∧ Keeps PayChan v.state o.view.state) := by
  obtain ⟨_, fee, -, ⟨ht, hp, b, σ₁, hbe, hdo⟩ | ⟨htec, _, _, hcl⟩⟩ :=
    applyTx_exec x.transactor_doApply h ha
  · obtain ⟨hc, fee, hf, hnn⟩ := PayChanTx.checked_of_passed hp
    refine .inl ⟨ht, hc, _, b, σ₁, fee, rfl, hf, hnn, hbe, ?_, hdo⟩
    exact ensures_beginApply isRun (permits fun _ => rfl).toPermitsChange hbe
  refine .inr ⟨fun ht => ?_, ?_⟩
  · rw [ht] at htec
    cases htec
  exact ensures_claimFee isRun (permits fun _ => rfl).toPermitsChange
    (permits fun _ => rfl).toPermitsChange (permits fun _ => rfl).toPermitsChange
    hcl

/-! ## Runs -/

/-- The drops in a channel. -/
def State.channelHeld (σ : State) (d : Digest) : Int :=
  ((σ.get (⟨d⟩ : Keylet PayChan)).map PayChan.held).getD 0

/-- A run of applied transactions that satisfy `P`, with what the two parties of every channel
gained and lost, the fees apart. -/
inductive ChannelRun (P : PayChanTx → Prop) (v₀ : OpenView) :
    OpenView → (Digest → Flow Int) → Prop where
  | nil : ChannelRun P v₀ v₀ fun _ => 0
  | success {v w : OpenView} {flows : Digest → Flow Int} {x : PayChanTx} {app : Application}
      {tx : STTx} {o : Outcome} {b : Int × Int} {σ₁ : State} {c : PayChan}
      (run : ChannelRun P v₀ v flows) (carried : w.state = v.state) (hP : P x)
      (succeeds : x.transactor.Succeeds app w tx o)
      (begun : exec (beginApply app tx) w.state = .ok (b, σ₁))
      (channel : σ₁.get (x.channel tx) = some c ∨ o.view.state.get (x.channel tx) = some c) :
      ChannelRun P v₀ o.view (Function.update flows (x.channel tx).key
        (flows (x.channel tx).key + .ofChange
          (o.view.state.balance c.account - σ₁.balance c.account)
          (o.view.state.balance c.destination - σ₁.balance c.destination)))
  | claimed {v w : OpenView} {flows : Digest → Flow Int} {x : PayChanTx} {app : Application}
      {tx : STTx} {flags : ApplyFlags} {o : Outcome} (run : ChannelRun P v₀ v flows)
      (carried : w.state = v.state) (hP : P x)
      (apply : x.transactor.applyTx app w tx flags = .ok o) (applied : o.applied = true)
      (failed : o.ter ≠ .tesSUCCESS) : ChannelRun P v₀ o.view flows

theorem heldIn_of_rel (h : Option.Rel (ShowsPurse src dst) (σ.get k) p) :
    σ.channelHeld k.key = Purse.heldIn p := by
  unfold channelHeld
  cases h' : σ.get k with
  | none =>
    rw [h'] at h
    cases h
    rfl
  | some c =>
    rw [h'] at h
    cases h with
    | some hs => simp [PayChan.held, STAmount.nativeDrops, hs.amount, hs.balance, Purse.heldIn, Purse.held]

theorem ChannelMove.ofChange {q : Option (Purse Int)} {fl : Flow Int} {c : PayChan}
    (hm : ChannelMove k src dst p q fl σ σ') (hne : src ≠ dst) (hst : Purse.Step p q fl)
    (hc : σ.get k = some c ∨ σ'.get k = some c) :
    Flow.ofChange (σ'.balance c.account - σ.balance c.account)
      (σ'.balance c.destination - σ.balance c.destination) = fl := by
  obtain ⟨rfl, rfl⟩ : c.account = src ∧ c.destination = dst := by
    have hsh {o : Option PayChan} {r : Option (Purse Int)}
        (h : Option.Rel (ShowsPurse src dst) o r) (ho : o = some c) :
        c.account = src ∧ c.destination = dst := by
      cases h with
      | none => cases ho
      | some hs =>
        cases ho
        exact ⟨hs.account, hs.destination⟩
    exact hc.elim (hsh hm.before) (hsh hm.after)
  have hown : σ'.balance c.account - σ.balance c.account = fl.refunded - fl.deposited := by
    rw [hm.balances, if_pos rfl, if_neg hne]
    omega
  have hde : σ'.balance c.destination - σ.balance c.destination = fl.paid := by
    rw [hm.balances, if_neg (Ne.symm hne), if_pos rfl]
    omega
  rw [hown, hde, hst.ofChange]

theorem channel_accounts {v0 v : OpenView} {flows : Digest → Flow Int} (h0 : ChannelInv v0.state)
    (hr : ChannelRun PayChanTx.NonNegative v0 v flows) :
    ChannelInv v.state ∧ ∀ d, (flows d).deposited + v0.state.channelHeld d =
      (flows d).paid + (flows d).refunded + v.state.channelHeld d := by
  induction hr with
  | nil => exact ⟨h0, fun d => by simp⟩
  | success run carried hP succeeds begun hch ih =>
    next v w flows x _ _ o b _ c =>
    obtain ⟨hi, ih⟩ := ih
    rw [← carried] at hi ih
    obtain ⟨⟨_, ha⟩, hap, ht⟩ := succeeds
    rcases channel_step ha hap with ⟨-, hc, ctx, _, _, -, rfl, -, -, hb, hk, hdo⟩ |
      ⟨hne, -⟩
    swap
    · exact absurd ht hne
    obtain ⟨rfl, rfl⟩ := Prod.mk.inj (Except.ok.inj (begun.symm.trans hb))
    have hi1 := hi.of_keeps hk
    obtain ⟨_, _, p, q, _, hne, hst, hm⟩ := PayChanTx.move hi1 hP hc
      (fun a => beginApply_sequence hb) hdo
    refine ⟨hi1.of_move hne hm, fun d => ?_⟩
    have hd := ih d
    rw [hm.ofChange hne hst hch]
    by_cases hdk : d = (x.channel ctx.tx).key
    · subst hdk
      have hbe : w.state.channelHeld (x.channel ctx.tx).key = Purse.heldIn p := by
        rw [← heldIn_of_rel hm.before]
        unfold channelHeld
        rw [hk]
      rw [hbe] at hd
      have hadd := hst.held_add
      rw [Function.update_self, heldIn_of_rel hm.after]
      simp only [Flow.deposited_add, Flow.paid_add, Flow.refunded_add]
      omega
    have hsa : o.view.state.channelHeld d = w.state.channelHeld d := by
      unfold channelHeld
      rw [hm.others ⟨d⟩ hdk, hk]
    rw [Function.update_of_ne hdk, hsa]
    exact hd
  | claimed run carried hP apply applied failed ih =>
    obtain ⟨hi, ih⟩ := ih
    rw [← carried] at hi ih
    rcases channel_step apply applied with ⟨ht, -⟩ | ⟨-, hk⟩
    · exact absurd ht failed
    refine ⟨hi.of_keeps hk, fun d => ?_⟩
    rw [ih d]
    unfold channelHeld
    rw [hk]

/-! ## The next transaction -/

section Next
variable {app : Application} {w : OpenView} {tx : STTx} {flags : ApplyFlags} {o : Outcome}

theorem channel_balance_le {x : PayChanTx} (hi : ChannelInv w.state) (hnn : x.NonNegative)
    (h : x.transactor.applyTx app w tx flags = .ok o) (ha : o.applied = true)
    {k : Keylet PayChan} {c c' : PayChan} (hc : w.state.get k = some c)
    (hc' : o.view.state.get k = some c') :
    ∃ b b', c.balance = .native b ∧ c'.balance = .native b' ∧ b ≤ b' := by
  have hsa (he : c' = c) : ∃ b b', c.balance = .native b ∧ c'.balance = .native b' ∧ b ≤ b' := by
    obtain ⟨-, p, hs⟩ := hi k c hc
    exact ⟨_, _, hs.balance, he ▸ hs.balance, le_rfl⟩
  rcases channel_step h ha with ⟨-, hchk, ctx, b, _, -, rfl, -, -, hbe, hk, hdo⟩ | ⟨-, hk⟩
  · obtain ⟨_, _, p, q, _, -, hst, hm⟩ := PayChanTx.move (hi.of_keeps hk) hnn hchk
      (fun a => beginApply_sequence hbe) hdo
    by_cases hkey : k.key = (x.channel ctx.tx).key
    · obtain rfl : k = x.channel ctx.tx := by cases k; cases hkey; rfl
      have hb := hm.before
      have ha := hm.after
      rw [hk, hc] at hb
      rw [hc'] at ha
      cases hb with
      | some hb =>
        cases ha with
        | some ha => exact ⟨_, _, hb.balance, ha.balance, hst.balance_mono⟩
    · refine hsa (Option.some.inj ?_)
      rw [← hc', hm.others k hkey, hk, hc]
  · refine hsa (Option.some.inj ?_)
    rw [← hc', hk, hc]

theorem beginApply_balance_le {b : Int × Int} {σ σ₁ : State} {fee : Int} (hf : tx.fee = .native fee)
    (hnn : 0 ≤ fee) (h : exec (beginApply app tx) σ = .ok (b, σ₁)) :
    σ₁.balance tx.account ≤ σ.balance tx.account := by
  have hb := beginApply_balance (STAmount.drops_eq_ok.2 hf) h
  split at hb <;> omega

theorem create_owner_balance_le {f : PayChanCreate}
    (hnn : ∀ drops, f.amount = .native drops → 0 ≤ drops) (h : f.transactor.Succeeds app w tx o) :
    o.view.state.balance tx.account ≤ w.state.balance tx.account := by
  obtain ⟨⟨_, happ⟩, ha, ht⟩ := h
  rcases channel_step (x := .create f) happ ha with
    ⟨-, hc, ctx, b, σ₁, fee, rfl, hf, hfnn, hbe, -, hdo⟩ | ⟨hne, -⟩
  · obtain ⟨p, -, hm⟩ := f.move hnn (fun a => beginApply_sequence hbe) hdo
    have hle := beginApply_balance_le hf hfnn hbe
    have hp := p.nonneg.trans p.le
    rw [hm.balances, if_neg hc]
    dsimp only
    omega
  · exact absurd ht hne

theorem fund_owner_balance_le {f : PayChanFund} (hi : ChannelInv w.state)
    (h : f.transactor.Succeeds app w tx o) {c c' : PayChan}
    (hc : w.state.get (⟨f.payChannel⟩ : Keylet PayChan) = some c)
    (hc' : o.view.state.get (⟨f.payChannel⟩ : Keylet PayChan) = some c') :
    o.view.state.balance c.account ≤ w.state.balance c.account := by
  obtain ⟨⟨_, happ⟩, ha, ht⟩ := h
  rcases channel_step (x := .fund f) happ ha with
    ⟨-, hchk, ctx, b, σ₁, fee, rfl, hf, hfnn, hbe, hk, hdo⟩ | ⟨hne, -⟩
  · obtain ⟨_, _, p, q, _, hne, hst, hs, hm⟩ := f.move (hi.of_keeps hk) hchk hdo
    have hb := hm.before
    have ha := hm.after
    rw [hk, hc] at hb
    rw [hc'] at ha
    cases hb with
    | some hb =>
      cases ha with
      | some ha =>
        have hle := beginApply_balance_le hf hfnn hbe
        have hd := hst.deposited_nonneg
        rw [← hs rfl] at hle
        rw [hb.account, hm.balances, if_neg hne, hst.refunded_eq_zero]
        omega
  · exact absurd ht hne

end Next

/-- Over any run without negative amounts no channel has paid more than it was given. -/
theorem channel_solvency {v₀ v : OpenView} {flows : Digest → Flow Int} (h₀ : ChannelInv v₀.state)
    (hrun : ChannelRun PayChanTx.NonNegative v₀ v flows) :
    -- every channel is solvent
    (∀ (k : Keylet PayChan) (c : PayChan), v.state.get k = some c → ∃ amount balance,
      c.amount = .native amount ∧ c.balance = .native balance ∧ 0 ≤ balance ∧ balance ≤ amount) ∧
    -- what has been paid never decreases
    (∀ (x : PayChanTx) app (w : OpenView) tx flags (o : Outcome), w.state = v.state → x.NonNegative →
      x.transactor.applyTx app w tx flags = .ok o → o.applied = true →
      ∀ (k : Keylet PayChan) (c c' : PayChan), v.state.get k = some c →
        o.view.state.get k = some c' →
        ∃ b b', c.balance = .native b ∧ c'.balance = .native b' ∧ b ≤ b') ∧
    -- creating takes nothing out of a channel, and neither does funding one that stays open
    (∀ f app (w : OpenView) tx o, w.state = v.state → (PayChanTx.create f).NonNegative →
      (PayChanCreate.transactor f).Succeeds app w tx o →
      o.view.state.balance tx.account ≤ v.state.balance tx.account) ∧
    (∀ f app (w : OpenView) tx o c c', w.state = v.state → (PayChanFund.transactor f).Succeeds app w tx o →
      v.state.get (⟨f.payChannel⟩ : Keylet PayChan) = some c →
      o.view.state.get (⟨f.payChannel⟩ : Keylet PayChan) = some c' →
      o.view.state.balance c.account ≤ v.state.balance c.account) ∧
    -- what was put in has been paid or refunded, or is still held
    (∀ d, (flows d).deposited + v₀.state.channelHeld d =
      (flows d).paid + (flows d).refunded + v.state.channelHeld d) := by
  obtain ⟨hi, hsum⟩ := channel_accounts h₀ hrun
  refine ⟨fun k c hc => ?_, ?_, ?_, ?_, hsum⟩
  · obtain ⟨-, p, hs⟩ := hi k c hc
    exact ⟨p.amount, p.balance, hs.amount, hs.balance, p.nonneg, p.le⟩
  · intro x app w tx flags o hw hnn h ha k c c' hc
    rw [← hw] at hi hc
    exact channel_balance_le hi hnn h ha hc
  · intro f app w tx o hw hnn h
    rw [← hw]
    exact create_owner_balance_le hnn h
  intro f app w tx o c c' hw h hc
  rw [← hw] at hi hc ⊢
  exact fund_owner_balance_le hi h hc

namespace Sample

def openChannel (drops : Int) : PayChanTx :=
  .create { destination := 1, amount := .native drops, settleDelay := 60, publicKey := [0, 0],
            cancelAfter := some 200 }

def channelKey : Digest := .payChan 2 1 1

/-- The destination takes forty drops and closes the channel. -/
def takeAndClose : PayChanTx :=
  .claim { payChannel := channelKey, balance := some (.native 40), signature := some [],
           publicKey := some [0, 0] }

def chan₁ (drops : Int) : OpenView :=
  two.after ((openChannel drops).transactor.applyTx app two (tx 1 2 1) {})

def chan₂ : OpenView :=
  (chan₁ 100).after (takeAndClose.transactor.applyTx app (chan₁ 100) (tx 2 1 1 10 tfClose) {})

def chanAt (time : UInt32) : OpenView := { chan₁ 100 with parentCloseTime := time }

def fundExpired : PayChanFund := { payChannel := channelKey, amount := .native 5 }

def chanExpired : OpenView :=
  (chanAt 250).after (fundExpired.transactor.applyTx app (chanAt 250) (tx 2 2 2) {})

theorem succeeds {T : Transactor} {v : OpenView} {tx : STTx}
    (h : ending (T.applyTx app v tx {}) = .ok (.tesSUCCESS, true)) :
    T.Succeeds app v tx ⟨.tesSUCCESS, true, v.after (T.applyTx app v tx {})⟩ :=
  ⟨⟨{}, ending_eq_ok h v⟩, rfl, rfl⟩

theorem two_channelInv : ChannelInv two.state := by
  intro k c hc
  rw [two, ledger_get fun _ => rfl] at hc
  cases hc

theorem exists_begun {x : PayChanTx} {v : OpenView} {tx : STTx} {o : Outcome}
    (h : x.transactor.Succeeds app v tx o) :
    ∃ b σ₁, exec (beginApply app tx) v.state = .ok (b, σ₁) ∧ Keeps PayChan v.state σ₁ := by
  obtain ⟨⟨_, happ⟩, ha, ht⟩ := h
  rcases channel_step happ ha with ⟨-, -, _, b, σ₁, _, -, -, -, hbe, hk, -⟩ | ⟨hne, -⟩
  · exact ⟨b, σ₁, hbe, hk⟩
  · exact absurd ht hne

theorem opened {P : PayChanTx → Prop} (drops : Int) (hP : P (openChannel drops))
    (h : ending ((openChannel drops).transactor.applyTx app two (tx 1 2 1) {}) =
      .ok (.tesSUCCESS, true))
    (hg : ((chan₁ drops).state.get (⟨channelKey⟩ : Keylet PayChan)).isSome) :
    ∃ flows c, ChannelRun P two (chan₁ drops) flows ∧
      (chan₁ drops).state.get (⟨channelKey⟩ : Keylet PayChan) = some c := by
  have hs := succeeds h
  obtain ⟨b, _, hb, -⟩ := exists_begun hs
  obtain ⟨c, hc⟩ := Option.isSome_iff_exists.1 hg
  exact ⟨_, c, .success .nil rfl hP hs hb (.inr hc), hc⟩

theorem opened_hundred : ∃ flows c, ChannelRun PayChanTx.NonNegative two (chan₁ 100) flows ∧
    (chan₁ 100).state.get (⟨channelKey⟩ : Keylet PayChan) = some c := by
  have hnn : (openChannel 100).NonNegative := by
    rintro - ⟨⟩
    decide
  exact opened 100 hnn (by decide +kernel) (by decide +kernel)

end Sample

open Sample

/-- A channel is made and closed. -/
theorem channel_solvency_sample :
    ChannelInv two.state ∧ ∃ flows,
      ChannelRun PayChanTx.NonNegative two chan₂ flows ∧
      (flows channelKey).deposited =
        (flows channelKey).paid + (flows channelKey).refunded := by
  obtain ⟨_, c, hr1, hc⟩ := opened_hundred
  have h2 : takeAndClose.transactor.Succeeds app (chan₁ 100)
      (tx 2 1 1 10 tfClose) ⟨.tesSUCCESS, true, chan₂⟩ :=
    succeeds (by decide +kernel)
  obtain ⟨_, _, hb2, hk2⟩ := exists_begun h2
  have hr2 := ChannelRun.success (x := takeAndClose) hr1 rfl trivial h2 hb2
    (.inl ((hk2 _).trans hc))
  refine ⟨two_channelInv, _, hr2, ?_⟩
  obtain ⟨-, -, -, -, hs⟩ := channel_solvency two_channelInv hr2
  have he : chan₂.state.channelHeld channelKey = 0 := by decide +kernel
  have hst : two.state.channelHeld channelKey = 0 := by decide +kernel
  have := hs channelKey
  rw [he, hst] at this
  simpa using this

/-- A channel is created for minus a hundred drops, which its owner gets; and the owner of an expired
channel gets its funds back by adding to it. -/
theorem channel_owner_gains :
    (∃ flows c, ChannelRun (fun _ => True) two (chan₁ (-100)) flows ∧
      (chan₁ (-100)).state.get (⟨channelKey⟩ : Keylet PayChan) = some c ∧
      c.amount = .native (-100) ∧ c.balance = .native 0 ∧
      two.state.balance 2 < (chan₁ (-100)).state.balance 2) ∧
    (∃ flows o, ChannelRun PayChanTx.NonNegative two (chan₁ 100) flows ∧
      fundExpired.transactor.Succeeds app (chanAt 250) (tx 2 2 2) o ∧
      (chan₁ 100).state.balance 2 < o.view.state.balance 2) := by
  constructor
  · obtain ⟨flows, c, hr, hc⟩ := opened (P := fun _ => True) (-100) trivial
      (by decide +kernel) (by decide +kernel)
    have ham : ((chan₁ (-100)).state.get (⟨channelKey⟩ : Keylet PayChan)).map
        (fun c => (c.amount, c.balance)) = some (.native (-100), .native 0) := by decide +kernel
    rw [hc] at ham
    obtain ⟨ha, hb⟩ := Prod.mk.inj (Option.some.inj ham)
    exact ⟨flows, c, hr, hc, ha, hb, by decide +kernel⟩
  obtain ⟨flows, -, hr, -⟩ := opened_hundred
  have hf : fundExpired.transactor.Succeeds app (chanAt 250)
      (tx 2 2 2) ⟨.tesSUCCESS, true, chanExpired⟩ :=
    succeeds (by decide +kernel)
  exact ⟨flows, _, hr, hf, by decide +kernel⟩

end FinPal
