import FinPal.Tx.Transactor

/-!
# What `operator()` can do

`operator_cases` lists the ways `operator()` ends: it applies the changes of a successful `doApply`,
a claimed fee, or nothing. The lemmas after it say the same of what the views show.
-/

namespace FinPal
open Store State
variable {T : Transactor} {ctx : ApplyContext} {pre : TER} {o : Outcome}

/-- The context of `doApply`, with the balances `beginApply` found. -/
def ApplyContext.withBalances (ctx : ApplyContext) (b : Int × Int) : ApplyContext :=
  { ctx with mPriorBalance := b.1, mSourceBalance := b.2 }

structure Succeeded (T : Transactor) (ctx : ApplyContext) (b : Int × Int) (t₁ t : LedgerTable)
    (fee : Int) (o : Outcome) : Prop where
  ter : o.ter = .tesSUCCESS
  paid : ctx.tx.fee.drops = .ok fee
  begun : (beginApply ctx.app ctx.tx).onTable ctx.view ∅ = .ok (b, t₁)
  done : T.doApply (ctx.withBalances b) ctx.view t₁ = .ok (.tesSUCCESS, t)
  finished : finish ctx o.ter fee t = .ok o

/-- Only a fee is claimed. `t0` is the table of the discarded work. -/
structure Claimed (ctx : ApplyContext) (t₀ t : LedgerTable) (fee₀ fee : Int) (o : Outcome) :
    Prop where
  ter : o.ter.isTecClaim
  paid : ctx.tx.fee.drops = .ok fee₀
  claimed : (claimFee ctx.app ctx.tx fee₀
    (if o.ter = .tecOVERSIZE then removedOffers ctx.view t₀ else [])).onTable ctx.view ∅ =
      .ok (fee, t)
  finished : finish ctx o.ter fee t = .ok o

variable {ter : TER} {fee : Int} {t : LedgerTable} {σ σ1 : State} {b : Int × Int} {v : OpenView}
  {c : PreflightContext} {Q : State → State → Prop}

theorem finish_ok (h : finish ctx ter fee t = .ok o) :
    o.ter = ter ∧ o.applied = true ∧ (ctx.view.isOpen = false → 0 ≤ fee) ∧
      ApplyStateTable.applyTable ctx.view t (if ctx.view.isOpen then 0 else fee)
        ctx.tx.transactionID = .ok o.view := by
  unfold finish at h
  split at h
  · cases h
  · next hf =>
    obtain ⟨_, hv, h⟩ := bind_ok.1 h
    cases h
    refine ⟨rfl, rfl, fun hc => ?_, hv⟩
    simpa [hc] using hf

theorem operator_cases (h : T.operator ctx pre = .ok o) :
    (pre = .tesSUCCESS ∧ ∃ b t1 t fee, Succeeded T ctx b t1 t fee o) ∨
    (∃ result t0 t fee0 fee, T.attempt ctx pre = .ok (result, t0) ∧ Claimed ctx t0 t fee0 fee o) ∨
    (o.applied = false ∧ o.view = ctx.view ∧ o.ter ≠ .tesSUCCESS) := by
  obtain ⟨⟨result, t0⟩, h0, h'⟩ := bind_ok.1 h
  obtain ⟨fee0, hfee, h⟩ := bind_ok.1 h'
  dsimp only at h
  generalize ht : (if 5200 < ApplyStateTable.size t0 then TER.tecOVERSIZE else result) = ter at h
  split at h
  · -- the fee is claimed
    next hc =>
    obtain ⟨⟨fee, t⟩, hcl, h⟩ := bind_ok.1 h
    have hf := (finish_ok h).1
    have htec : o.ter.isTecClaim := by
      rw [hf]
      rcases hc with rfl | hc
      · rfl
      · exact hc.1
    exact .inr (.inl ⟨result, t0, t, fee0, fee, h0, htec, hfee, by rw [hf]; exact hcl,
      by rw [hf]; exact h⟩)
  split at h
  · -- `doApply` succeeded
    next hs =>
    subst hs
    have hr : result = .tesSUCCESS := by
      split at ht
      · cases ht
      · exact ht
    subst hr
    have hf := (finish_ok h).1
    unfold Transactor.attempt at h0
    split at h0
    · next hp =>
      obtain ⟨⟨b, t1⟩, h1, h2⟩ := bind_ok.1 h0
      exact .inl ⟨hp, b, t1, t0, fee0, hf, hfee, h1, h2, by rw [hf]; exact h⟩
    · next hp => exact absurd (Prod.mk.inj (Except.ok.inj h0)).1 hp
  · next hs =>
    cases h
    exact .inr (.inr ⟨rfl, rfl, hs⟩)

theorem operator_success_iff (h : T.operator ctx pre = .ok o) : o.ter = .tesSUCCESS ↔
    ∃ t, T.attempt ctx pre = .ok (.tesSUCCESS, t) ∧ ApplyStateTable.size t ≤ 5200 := by
  obtain ⟨⟨result, t0⟩, h0, h'⟩ := bind_ok.1 h
  obtain ⟨_, -, h⟩ := bind_ok.1 h'
  have ht : o.ter = if 5200 < ApplyStateTable.size t0 then TER.tecOVERSIZE else result := by
    dsimp only at h
    generalize (if 5200 < ApplyStateTable.size t0 then TER.tecOVERSIZE else result) = ter at h ⊢
    split at h
    · obtain ⟨_, -, h⟩ := bind_ok.1 h
      exact (finish_ok h).1
    split at h
    · exact (finish_ok h).1
    · cases h
      rfl
  simp only [ht, h0, Except.ok.injEq, Prod.mk.injEq, and_assoc]
  split
  · next hlt => simpa using fun _ => hlt
  · next hle => simpa using fun _ => not_lt.1 hle

/-! ## The steps of `operator()` on states -/

open State in
/-- What comes before `doApply`: nothing for an absent account, the sequence for the genesis
account, and for others the fee as well. -/
theorem exec_beginApply {app : Application} {tx : STTx}
    (h : exec (beginApply app tx) σ = .ok (b, σ1)) :
    (σ.get (keylet.account tx.account) = none ∧ b = (0, 0) ∧ σ1 = σ) ∨
    ∃ a, σ.get (keylet.account tx.account) = some a ∧
      ((app.genesisAccount = tx.account ∧ b = (a.balance, a.balance) ∧
          σ1 = σ.set (keylet.account tx.account) (a.sent tx)) ∨
        (app.genesisAccount ≠ tx.account ∧ ∃ fee m, tx.fee.drops = .ok fee ∧
          σ.get (keylet.account app.genesisAccount) = some m ∧
          b = (a.balance, a.balance - fee) ∧
          σ1 = (σ.set (keylet.account tx.account) { a.sent tx with balance := a.balance - fee }).set
            (keylet.account app.genesisAccount) { m with balance := m.balance + fee })) := by
  simp only [beginApply, setSeq, exec_bind, ViewM.exec_peek] at h
  obtain ⟨o, _, ⟨ho, rfl⟩, h⟩ := h
  cases o with
  | none =>
    obtain ⟨rfl, rfl⟩ := exec_pure.1 h
    exact .inl ⟨ho, rfl, rfl⟩
  | some a =>
    simp only [exec_bind, ViewM.exec_update, ho, Option.some.injEq] at h
    obtain ⟨_, _, ⟨_, rfl, rfl⟩, src, σ2, hp, h⟩ := h
    obtain ⟨rfl, rfl⟩ := exec_pure.1 h
    refine .inr ⟨a, ho, ?_⟩
    unfold payFee at hp
    split at hp
    · next hg =>
      obtain ⟨rfl, rfl⟩ := exec_pure.1 hp
      exact .inl ⟨hg, rfl, rfl⟩
    · next hg =>
      have hk : (keylet.account app.genesisAccount).key ≠ (keylet.account tx.account).key := by
        simpa [keylet.account] using hg
      simp only [exec_bind, ViewM.exec_ofExcept, ViewM.exec_update] at hp
      obtain ⟨fee, _, ⟨hf, rfl⟩, _, _, ⟨a', ha', rfl⟩, _, _, ⟨m, hm, rfl⟩, hp⟩ := hp
      obtain ⟨rfl, rfl⟩ := exec_pure.1 hp
      obtain rfl : a.sent tx = a' := by simpa using ha'
      rw [get_set_ne hk, get_set_ne hk] at hm
      refine .inr ⟨hg, fee, m, hf, hm, rfl, ?_⟩
      simp only [State.set, Function.update_idem]

/-! ## On what the views show -/

theorem onTable_exec {α : Type} {p : ViewM α} {t' : LedgerTable} {a : α} (ht : t.Synced v.entries)
    (h : p.onTable v t = .ok (a, t')) :
    exec p (LedgerTable.state v t) = .ok (a, LedgerTable.state v t') ∧ t'.Synced v.entries :=
  Table.exec_of_run ht h

/-- All of a view but its entries, its transactions and its fee pool. -/
structure SameHeader (v v' : OpenView) : Prop where
  seq : v'.seq = v.seq
  parentCloseTime : v'.parentCloseTime = v.parentCloseTime
  isOpen : v'.isOpen = v.isOpen
  fees : v'.fees = v.fees
  enabled : v'.enabled = v.enabled

structure Finished (ctx : ApplyContext) (fee : Int) (σ : State) (v' : OpenView) : Prop where
  state : v'.state = σ
  fresh : ctx.tx.transactionID ∉ ctx.view.txs
  txs : v'.txs = ctx.tx.transactionID :: ctx.view.txs
  feePool : v'.feePool = ctx.view.feePool + if ctx.view.isOpen then 0 else fee
  header : SameHeader ctx.view v'

theorem finished_of_finish (ht : t.Synced ctx.view.entries) (h : finish ctx ter fee t = .ok o) :
    Finished ctx fee (LedgerTable.state ctx.view t) o.view := by
  obtain ⟨-, -, -, hv⟩ := finish_ok h
  obtain ⟨hs, hn, he⟩ := ApplyStateTable.applyTable_shown ht hv
  exact ⟨hs, hn, by rw [he], by rw [he], by constructor <;> rw [he]⟩

theorem Claimed.exec {t0 : LedgerTable} {fee0 : Int} (h : Claimed ctx t0 t fee0 fee o) :
    exec (claimFee ctx.app ctx.tx fee0
        (if o.ter = .tecOVERSIZE then removedOffers ctx.view t0 else [])) ctx.view.state =
      .ok (fee, o.view.state) ∧ Finished ctx fee o.view.state o.view := by
  obtain ⟨h1, ht⟩ := onTable_exec (Table.synced_empty _) h.claimed
  have hf := finished_of_finish ht h.finished
  rw [← hf.state] at h1
  exact ⟨h1, hf.state ▸ hf⟩

theorem Succeeded.exec {t1 : LedgerTable} {p : ApplyContext → ViewM TER}
    (hT : ∀ c, T.doApply c = (p c).onTable) (h : Succeeded T ctx b t1 t fee o) :
    ∃ σ1, exec (beginApply ctx.app ctx.tx) ctx.view.state = .ok (b, σ1) ∧
      Succeeds (p (ctx.withBalances b)) σ1 o.view.state ∧
      Finished ctx fee o.view.state o.view := by
  obtain ⟨h1, ht1⟩ := onTable_exec (Table.synced_empty _) h.begun
  have hd := h.done
  rw [hT] at hd
  obtain ⟨h2, ht⟩ := onTable_exec ht1 hd
  have hf := finished_of_finish ht h.finished
  rw [← hf.state] at h2
  exact ⟨_, h1, h2, hf.state ▸ hf⟩

/-! ## From preflight to the view -/

def Transactor.Succeeds (T : Transactor) (app : Application) (v : OpenView) (tx : STTx)
    (o : Outcome) : Prop :=
  (∃ flags, T.applyTx app v tx flags = .ok o) ∧ o.applied = true ∧ o.ter = .tesSUCCESS

theorem catchException_ok {α : Type} {a b : α} {x : Except Fault α}
    (h : catchException a x = .ok b) (hne : a ≠ b) : x = .ok b := by
  unfold catchException at h
  split at h
  · exact absurd (Except.ok.inj h) hne
  · exact h

/-- The checks a transaction has passed when its work is applied. -/
structure Passed (T : Transactor) (ctx : ApplyContext) : Prop where
  preflight : T.preflight ⟨ctx.app, ctx.tx, ctx.view.enabled, ctx.flags⟩ = .ok .tesSUCCESS
  preclaim : invokePreclaim T ⟨ctx.app, ctx.view, ctx.tx, ctx.flags⟩ = .ok .tesSUCCESS

theorem applyTx_cases {app : Application} {tx : STTx} {flags : ApplyFlags}
    (h : T.applyTx app v tx flags = .ok o) (ha : o.applied = true) : ∃ baseFee,
      (Passed T { app, view := v, tx, flags, baseFee } ∧
        ∃ b t1 t fee, Succeeded T { app, view := v, tx, flags, baseFee } b t1 t fee o) ∨
      ∃ t0 t fee0 fee, Claimed { app, view := v, tx, flags, baseFee } t0 t fee0 fee o := by
  obtain ⟨pf, hpf, h⟩ := bind_ok.1 h
  obtain ⟨pc, hpc, h⟩ := bind_ok.1 h
  split at h
  · -- an exception inside `operator()` applies nothing
    have hne : (⟨.tefEXCEPTION, false, v⟩ : Outcome) ≠ o := by
      rintro rfl
      cases ha
    refine ⟨if pf = .tesSUCCESS then T.calculateBaseFee v.fees tx else 0, ?_⟩
    rcases operator_cases (catchException_ok h hne) with
      ⟨hp, hs⟩ | ⟨_, t0, t, fee0, fee, -, hc⟩ | ⟨hna, -⟩
    · obtain rfl : pc = .tesSUCCESS := hp
      have hpf' : pf = .tesSUCCESS := by
        unfold Transactor.preclaimed at hpc
        split at hpc
        · exact Except.ok.inj hpc
        · next hpf' => exact not_not.1 hpf'
      rw [hpf'] at hpf hpc
      exact .inl ⟨⟨catchException_ok hpf (by decide), catchException_ok hpc (by decide)⟩, hs⟩
    · exact .inr ⟨t0, t, fee0, fee, hc⟩
    · rw [hna] at ha
      cases ha
  · cases h
    cases ha

theorem preflightWith_ok {checks : PreflightContext → Except Fault TER}
    (h : preflightWith checks c = .ok .tesSUCCESS) :
    preflight1 c = .tesSUCCESS ∧ checks c = .ok .tesSUCCESS ∧ preflight2 c = .tesSUCCESS := by
  unfold preflightWith at h
  dsimp only at h
  split at h
  · next hne => exact absurd (Except.ok.inj h) hne
  · next h1 =>
    split at h
    · next hc => exact ⟨not_not.1 h1, hc, Except.ok.inj h⟩
    · next hc => exact absurd h hc

theorem preflight1_account (h : preflight1 c = .tesSUCCESS) : c.tx.account ≠ 0 := by
  unfold preflight1 at h
  dsimp only at h
  split at h
  · next hne => exact absurd h hne
  split at h
  · cases h
  · assumption

theorem preflight1_fee (h : preflight1 c = .tesSUCCESS) :
    ∃ fee, c.tx.fee = .native fee ∧ 0 ≤ fee := by
  unfold preflight1 at h
  dsimp only at h
  split at h
  · next hne => exact absurd h hne
  split at h
  · cases h
  split at h
  · cases h
  · next fee hf =>
    split at h
    · cases h
    · next _ => exact ⟨fee, hf, by omega⟩

theorem preflight_enabled_ok {enabled : Bool} {checks : PreflightContext → Except Fault TER}
    (h : (if !enabled then .ok .temDISABLED else preflightWith checks c) = .ok TER.tesSUCCESS) :
    preflight1 c = .tesSUCCESS ∧ checks c = .ok .tesSUCCESS := by
  split at h
  · cases h
  · exact ⟨(preflightWith_ok h).1, (preflightWith_ok h).2.1⟩

theorem invokePreclaim_ok {c : PreclaimContext} (h : invokePreclaim T c = .ok .tesSUCCESS)
    (ha : c.tx.account ≠ 0) :
    checkSeq c = .tesSUCCESS ∧ checkFee c (T.calculateBaseFee c.view.fees c.tx) = .ok .tesSUCCESS ∧
      checkSign c = .ok .tesSUCCESS ∧ T.preclaim c = .ok .tesSUCCESS := by
  unfold invokePreclaim at h
  rw [if_neg ha] at h
  dsimp only at h
  split at h
  · next hne => exact absurd (Except.ok.inj h) hne
  · next hseq =>
    obtain ⟨_, hfee, h⟩ := bind_ok.1 h
    split at h
    · next hne => exact absurd (Except.ok.inj h) hne
    · next hf =>
      obtain ⟨_, hsi, h⟩ := bind_ok.1 h
      split at h
      · next hne => exact absurd (Except.ok.inj h) hne
      · next hs =>
        rw [not_not.1 hf] at hfee
        rw [not_not.1 hs] at hsi
        exact ⟨not_not.1 hseq, hfee, hsi, h⟩

theorem Passed.sender_isSome (h : Passed T ctx)
    (h1 : preflight1 ⟨ctx.app, ctx.tx, ctx.view.enabled, ctx.flags⟩ = .tesSUCCESS) :
    (ctx.view.state.get (keylet.account ctx.tx.account)).isSome = true := by
  have hs := (invokePreclaim_ok h.preclaim (preflight1_account h1)).1
  unfold checkSeq at hs
  split at hs
  · cases hs
  · next ha => exact Option.isSome_iff_exists.2 ⟨_, ha⟩

/-- An applied transaction on states, for a transactor whose `doApply` is a program of view
operations. -/
theorem applyTx_exec {app : Application} {tx : STTx} {flags : ApplyFlags}
    {p : ApplyContext → ViewM TER} (hT : ∀ c, T.doApply c = (p c).onTable)
    (h : T.applyTx app v tx flags = .ok o) (ha : o.applied = true) :
    ∃ baseFee fee, tx.fee.drops = .ok fee ∧
      ((o.ter = .tesSUCCESS ∧ Passed T { app, view := v, tx, flags, baseFee } ∧ ∃ b σ1,
          exec (beginApply app tx) v.state = .ok (b, σ1) ∧
          Succeeds (p { app, view := v, tx, flags, baseFee, mPriorBalance := b.1, mSourceBalance := b.2 })
            σ1 o.view.state) ∨
        (o.ter.isTecClaim = true ∧ ∃ fee' offers,
          exec (claimFee app tx fee offers) v.state = .ok (fee', o.view.state))) := by
  obtain ⟨baseFee, ⟨hp, b, _, t, fee, hs⟩ | ⟨_, t, fee, fee', hc⟩⟩ := applyTx_cases h ha
  · obtain ⟨σ1, hbe, hdo, -⟩ := hs.exec hT
    exact ⟨baseFee, fee, hs.paid, .inl ⟨hs.ter, hp, b, σ1, hbe, hdo⟩⟩
  · exact ⟨baseFee, fee, hc.paid, .inr ⟨hc.ter, fee', _, hc.exec.1⟩⟩

/-! ## The claimed fee -/

open ViewM

theorem ensures_removeUnfundedOffers (hQ : IsRun Q) (hN : PermitsChange Q DirNode)
    (hO : PermitsChange Q Offer) (hC : PermitsOwnerCount Q) (offers : List Digest) (removed : Nat) :
    Ensures Q (removeUnfundedOffers offers removed) := by
  induction offers generalizing removed with
  | nil => exact hQ.pure _
  | cons _ _ ih =>
    refine hQ.bind hQ.peek fun o => ?_
    cases o with
    | none => exact ih removed
    | some _ =>
      refine hQ.bind (ensures_offerDelete hQ hN hO hC) fun _ => ?_
      split
      · exact hQ.pure _
      · exact ih _

section
variable {app : Application} {tx : STTx}

/-- The fee goes from the sender to the genesis account, around the removal of offers. -/
theorem exec_claimFee {fee0 : Int} {offers : List Digest}
    {σ' : State} (h : exec (claimFee app tx fee0 offers) σ = .ok (fee, σ')) :
    ∃ (a m : AccountRoot) (σ1 : State), σ.get (keylet.account tx.account) = some a ∧
      fee = min fee0 a.balance ∧
      exec (removeUnfundedOffers offers 0) (σ.set (keylet.account tx.account)
        { a with balance := a.balance - fee, sequence := tx.sequence + 1 }) = .ok ((), σ1) ∧
      σ1.get (keylet.account app.genesisAccount) = some m ∧
      σ' = σ1.set (keylet.account app.genesisAccount) { m with balance := m.balance + fee } := by
  obtain ⟨a, ha, h⟩ := exec_peek!_ok h
  obtain ⟨a', ha', h⟩ := exec_update_ok h
  obtain rfl : a = a' := Option.mem_unique ha ha'
  obtain ⟨_, σ1, h3, h⟩ := exec_bind.1 h
  obtain ⟨m, hm, h⟩ := exec_update_ok h
  obtain ⟨rfl, rfl⟩ := exec_pure.1 h
  refine ⟨a, m, σ1, ha, ?_, h3, hm, rfl⟩
  split <;> omega

theorem beginApply_balance (hf : tx.fee.drops = .ok fee)
    (h : exec (beginApply app tx) σ = .ok (b, σ1)) :
    if app.genesisAccount ≠ tx.account ∧ (σ.get (keylet.account tx.account)).isSome then
      σ.balance tx.account - σ1.balance tx.account = fee ∧
        σ1.balance app.genesisAccount - σ.balance app.genesisAccount = fee
    else
      σ.balance tx.account - σ1.balance tx.account = 0 ∧
        σ1.balance app.genesisAccount - σ.balance app.genesisAccount = 0 := by
  rcases exec_beginApply h with ⟨hn, -, rfl⟩ | ⟨a, ha, ⟨hg, -, rfl⟩ | ⟨hg, fee', m, hf', hm, -, rfl⟩⟩
  · simp [hn]
  · rw [hg, balance_eq ha, balance_set_self]
    simp [AccountRoot.sent]
  obtain rfl : fee = fee' := Except.ok.inj (hf.symm.trans hf')
  rw [if_pos ⟨hg, by rw [ha]; rfl⟩, balance_eq ha, balance_eq hm,
    balance_set, if_neg (Ne.symm hg), balance_set_self, balance_set_self]
  dsimp only
  omega

theorem beginApply_sequence {a : AccountRoot} (h : exec (beginApply app tx) σ = .ok (b, σ1))
    (ha : σ1.get (keylet.account tx.account) = some a) : a.sequence = tx.sequence + 1 := by
  rcases exec_beginApply h with ⟨hn, -, rfl⟩ | ⟨_, -, ⟨-, -, rfl⟩ | ⟨hg, _, m, -, -, -, rfl⟩⟩
  · rw [hn] at ha
    cases ha
  · rw [get_set_self] at ha
    cases ha
    rfl
  rw [get_set_account, if_neg (Ne.symm hg), get_set_self] at ha
  cases ha
  rfl

theorem ensures_beginApply (hQ : IsRun Q)
    (hA : PermitsChange Q AccountRoot) : Ensures Q (beginApply app tx) := by
  intro σ b _ h
  rcases exec_beginApply h with ⟨-, -, rfl⟩ | ⟨a, ha, ⟨-, -, rfl⟩ | ⟨hg, -, m, -, _, -, rfl⟩⟩
  · exact hQ.refl _
  · exact hA.set _ ha
  · refine hQ.trans (hA.set _ ha) (hA.set (x := m) _ ?_)
    rwa [get_set_ne (by simpa [keylet.account] using hg)]

theorem ensures_claimFee {offers : List Digest} (hQ : IsRun Q)
    (hA : PermitsChange Q AccountRoot) (hN : PermitsChange Q DirNode) (hO : PermitsChange Q Offer) :
    Ensures Q (claimFee app tx fee offers) := by
  intro σ _ _ h
  obtain ⟨a, m, σ1, ha, -, ho, hm, rfl⟩ := exec_claimFee h
  have hrm : Q _ σ1 := ensures_removeUnfundedOffers hQ hN hO (fun _ hx => hA.set _ hx) _ _ ho
  exact hQ.trans (hQ.trans (hA.set _ ha) hrm) (hA.set _ hm)

end

/-! ## A small ledger

An application and a ledger of a few accounts, on which runs are evaluated. -/

/-- How a transaction ends: its code, and whether it is applied. -/
def ending (r : Except Fault Outcome) : Except Fault (TER × Bool) :=
  r.map fun o => (o.ter, o.applied)

/-- The view after a transaction, given the one before. -/
def OpenView.after (v : OpenView) : Except Fault Outcome → OpenView
  | .ok o => o.view
  | .error _ => v

theorem ending_eq_ok {r : Except Fault Outcome} {applied : Bool} (h : ending r = .ok (ter, applied))
    (v : OpenView) : r = .ok ⟨ter, applied, v.after r⟩ := by
  cases r with
  | error e => cases h
  | ok o =>
    obtain ⟨rfl, rfl⟩ := Prod.mk.inj (Except.ok.inj h)
    rfl

namespace Sample

/-- The key of account `n` is `n` bytes long, and every signature is good. -/
def crypto : Crypto where
  publicKeyType k := !k.isEmpty
  calcAccountID k := Fin.ofNat _ k.length
  verify _ _ _ _ _ := true
  verifyAuthorization _ _ _ _ := true
  toBase58 _ := ""

def app : Application where
  crypto := crypto
  genesisAccount := 1
  scaleFeeLoad _ _ _ := 10

def ledger (accounts : List AccountRoot) (closed : Bool := true) : OpenView where
  entries
    | .account o => (accounts.find? (·.account = o)).map fun a => { entry := .accountRoot a }
    | _ => none
  seq := 5
  parentCloseTime := 100
  isOpen := !closed
  fees := { base := 10, units := 10, reserve := 20, increment := 5 }
  enabled _ := true

theorem ledger_entry {accounts : List AccountRoot} {closed : Bool} {d : Digest} {e : Entry}
    (h : (ledger accounts closed).state d = some e) :
    ∃ a ∈ accounts, d = .account a.account ∧ e = .accountRoot a := by
  cases d with
  | account o =>
    simp only [OpenView.state, ledger, Option.map_map, Option.map_eq_some_iff] at h
    obtain ⟨a, ha, rfl⟩ := h
    obtain rfl : a.account = o := by simpa using List.find?_some ha
    exact ⟨a, List.mem_of_find?_eq_some ha, rfl, rfl⟩
  | _ => cases h

theorem ledger_get {α : Type} [IsEntry α] (hα : ∀ a, (ofEntry (.accountRoot a) : Option α) = none)
    (accounts : List AccountRoot) (closed : Bool) (k : Keylet α) :
    (ledger accounts closed).state.get k = none := by
  rw [Option.eq_none_iff_forall_ne_some]
  intro x hx
  obtain ⟨a, -, -, he⟩ := ledger_entry (get_eq_some.1 hx)
  have := hα a
  rw [← he, ofEntry_toEntry] at this
  cases this
def tx (n : Nat) (account : AccountID) (sequence : UInt32) (fee : Int := 10) (flags : UInt32 := 0) :
    STTx where
  transactionID := .raw n
  signingHash := .raw n
  account := account
  sequence := sequence
  fee := .native fee
  flags := flags
  signingPubKey := List.replicate account.val 0

def context (v : OpenView) (tx : STTx) : ApplyContext where
  app := app
  view := v
  tx := tx
  flags := {}
  baseFee := 10

/-- The genesis account and one other. -/
def two : OpenView :=
  ledger [{ account := 1, sequence := 1, balance := 1000 },
    { account := 2, sequence := 1, balance := 500 }]

/-- A transactor that fails after it has written to the sender's account. -/
def failing : Transactor where
  preflight := preflightWith fun _ => .ok .tesSUCCESS
  doApply ctx := ViewM.onTable do
    ViewM.update (keylet.account ctx.tx.account) fun a => { a with ownerCount := 7 }
    return .tecFAILED_PROCESSING

end Sample
end FinPal
