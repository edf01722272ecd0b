import FinPal.Tx.NFAsset
import FinPal.Tx.Operator

/-!
# The fee pool and the fees that moved

`payFee` moves the fee before `doApply`, the fee-claiming branch on a fresh table, and `destroyM`
adds to the pool at a third place. The genesis account pays nothing while the pool still grows.
-/

namespace FinPal
open Store ViewM

/-! ## The two halves of a claimed fee -/

/-- The fee-claiming branch up to the write of the sender's account. -/
def debitFee (tx : STTx) (fee : Int) : ViewM Int := do
  let txnAcct ← peek! (keylet.account tx.account)
  let fee := if txnAcct.balance < fee then txnAcct.balance else fee
  update (keylet.account tx.account) fun a =>
    { a with balance := txnAcct.balance - fee, sequence := tx.sequence + 1 }
  return fee

/-- What the branch gives to the genesis account. -/
def creditFee (app : Application) (fee : Int) : ViewM Unit :=
  update (keylet.account app.genesisAccount) fun m => { m with balance := m.balance + fee }

theorem claimFee_eq (app : Application) (tx : STTx) (fee : Int) (offers : List Digest) :
    claimFee app tx fee offers = (do
      let fee ← debitFee tx fee
      removeUnfundedOffers offers 0
      creditFee app fee
      return fee) := by
  simp [claimFee, debitFee, creditFee]

theorem debitFee_balance {tx : STTx} {fee0 fee : Int} {σ σ' : State}
    (h : exec (debitFee tx fee0) σ = .ok (fee, σ')) :
    σ.balance tx.account - σ'.balance tx.account = fee := by
  obtain ⟨a, ha, h⟩ := exec_peek!_ok h
  obtain ⟨_, -, h⟩ := exec_update_ok h
  obtain ⟨rfl, rfl⟩ := exec_pure.1 h
  rw [State.balance_eq ha, State.balance_set_self]
  dsimp only
  omega

theorem creditFee_balance {app : Application} {fee : Int} {σ σ' : State} {u : Unit}
    (h : exec (creditFee app fee) σ = .ok (u, σ')) :
    σ'.balance app.genesisAccount - σ.balance app.genesisAccount = fee := by
  obtain ⟨m, hm, rfl⟩ := exec_update.1 h
  rw [State.balance_eq hm, State.balance_set_self]
  dsimp only
  omega

/-! ## The fee that moved -/

/-- What a transaction took from the sender for its fee and gave to the genesis account: around
`payFee` when it succeeded, and around the writes of the fee-claiming branch. -/
inductive FeeMoved (T : Transactor) (ctx : ApplyContext) (o : Outcome) :
    (debited credited : Int) → Prop where
  | paid {b : Int × Int} {t₁ t : LedgerTable} {fee : Int} {σ₁ : State}
    (succeeded : Succeeded T ctx b t₁ t fee o)
    (begun : exec (beginApply ctx.app ctx.tx) ctx.view.state = .ok (b, σ₁)) :
    FeeMoved T ctx o (ctx.view.state.balance ctx.tx.account - σ₁.balance ctx.tx.account)
      (σ₁.balance ctx.app.genesisAccount - ctx.view.state.balance ctx.app.genesisAccount)
  | claimed {t₀ t : LedgerTable} {fee₀ fee : Int} {offers : List Digest} {σ₁ σ₂ σ₃ : State}
    (claimed : Claimed ctx t₀ t fee₀ fee o)
    (debit : exec (debitFee ctx.tx fee₀) ctx.view.state = .ok (fee, σ₁))
    (remove : exec (removeUnfundedOffers offers 0) σ₁ = .ok ((), σ₂))
    (credit : exec (creditFee ctx.app fee) σ₂ = .ok ((), σ₃)) :
    FeeMoved T ctx o (ctx.view.state.balance ctx.tx.account - σ₁.balance ctx.tx.account)
      (σ₃.balance ctx.app.genesisAccount - σ₂.balance ctx.app.genesisAccount)

variable {T : Transactor} {ctx : ApplyContext} {pre : TER} {o : Outcome} {debited credited : Int}

theorem exists_feeMoved (h : T.operator ctx pre = .ok o) (ha : o.applied = true) :
    ∃ debited credited, FeeMoved T ctx o debited credited := by
  rcases operator_cases h with ⟨-, b, _, t, fee, hs⟩ | ⟨_, _, t, _, fee, -, hc⟩ | ⟨hna, -⟩
  · exact ⟨_, _, .paid hs (onTable_exec (Table.synced_empty _) hs.begun).1⟩
  · have hex := hc.exec.1
    rw [claimFee_eq] at hex
    obtain ⟨_, _, h1, hex⟩ := exec_bind.1 hex
    obtain ⟨_, _, h2, hex⟩ := exec_bind.1 hex
    obtain ⟨_, _, h3, hex⟩ := exec_bind.1 hex
    obtain ⟨rfl, -⟩ := exec_pure.1 hex
    exact ⟨_, _, .claimed hc h1 h2 h3⟩
  · rw [hna] at ha
    cases ha

/-- On a closed ledger the pool grows by the fee left after the branches. -/
theorem finish_feePool {ter : TER} {fee : Int} {t : LedgerTable} (hopen : ctx.view.isOpen = false)
    (h : finish ctx ter fee t = .ok o) : o.view.feePool = ctx.view.feePool + fee := by
  obtain ⟨-, -, -, h⟩ := finish_ok h
  iterate 3 obtain ⟨_, -, h⟩ := bind_ok.1 h
  rw [← Except.ok.inj h]
  simp [hopen]

/-! ## The pool -/

/-- The fee is zero, the work does not succeed or is too large, or the sender is an account other
than the genesis account. -/
def PaysItsFee (T : Transactor) (ctx : ApplyContext) (pre : TER) : Prop :=
  ctx.tx.fee.drops = .ok 0 ∨
    (¬ ∃ t, T.attempt ctx pre = .ok (.tesSUCCESS, t) ∧ ApplyStateTable.size t ≤ 5200) ∨
    (ctx.app.genesisAccount ≠ ctx.tx.account ∧
      (ctx.view.state.get (keylet.account ctx.tx.account)).isSome = true)

theorem feePool_iff (h : T.operator ctx pre = .ok o) (hopen : ctx.view.isOpen = false)
    (hm : FeeMoved T ctx o debited credited) :
    (o.view.feePool = ctx.view.feePool + debited ∧ o.view.feePool = ctx.view.feePool + credited) ↔
      PaysItsFee T ctx pre := by
  cases hm with
  | paid hs hbe =>
    next _ _ =>
    have hpo := finish_feePool hopen hs.finished
    have hb := beginApply_balance hs.paid hbe
    have ht := (operator_success_iff h).1 hs.ter
    simp only [PaysItsFee, ht, not_true_eq_false, false_or, hs.paid, Except.ok.injEq]
    split at hb
    · next hc => exact iff_of_true ⟨by omega, by omega⟩ (.inr hc)
    · next hc =>
      simp only [hc, or_false]
      omega
  | claimed hc hde _ hcre =>
    have hpo := finish_feePool hopen hc.finished
    have hd := debitFee_balance hde
    have hcr := creditFee_balance hcre
    refine iff_of_true ⟨by omega, by omega⟩ (.inr (.inl fun ht => ?_))
    have hte := hc.ter
    rw [(operator_success_iff h).2 ht] at hte
    cases hte

/-- A run of applied transactions on closed views of one application, each satisfying `P`, with what
they took from their senders and gave to the genesis account. -/
inductive FeeRun (app : Application) (P : Transactor → ApplyContext → TER → Prop) (v : OpenView) :
    OpenView → (debited credited : Int) → Prop where
  | nil : FeeRun app P v v 0 0
  | step {T : Transactor} {ctx : ApplyContext} {pre : TER} {o : Outcome}
      {debited credited d c : Int} (run : FeeRun app P v ctx.view debited credited)
      (hP : P T ctx pre) (happ : ctx.app = app) (closed : ctx.view.isOpen = false)
      (op : T.operator ctx pre = .ok o) (applied : o.applied = true)
      (moved : FeeMoved T ctx o d c) : FeeRun app P v o.view (debited + d) (credited + c)

/-- The pool grows by what the senders paid and by what the genesis account got, if each transaction
pays its fee. -/
theorem fee_pool_agreement {app : Application} {v v' : OpenView}
    (hrun : FeeRun app PaysItsFee v v' debited credited) :
    v'.feePool - v.feePool = debited ∧ v'.feePool - v.feePool = credited := by
  induction hrun with
  | nil => simp
  | step _ hP _ closed op _ moved _ =>
    obtain ⟨_, _⟩ := (feePool_iff op closed moved).2 hP
    omega

namespace Sample

def issue : Transactor := CreateAsset.transactor { ident := [65] }

/-- Account 2 issues an asset, and then fails. -/
def two₁ : OpenView := two.after (issue.operator (context two (tx 1 2 1)) .tesSUCCESS)

def two₂ : OpenView := two₁.after (failing.operator (context two₁ (tx 2 2 2)) .tesSUCCESS)

theorem ending_two₁ : ending (issue.operator (context two (tx 1 2 1)) .tesSUCCESS) =
    .ok (.tesSUCCESS, true) := by decide +kernel

theorem ending_two₂ : ending (failing.operator (context two₁ (tx 2 2 2)) .tesSUCCESS) =
    .ok (.tecFAILED_PROCESSING, true) := by decide +kernel

end Sample

open Sample

/-- One transaction succeeds and one fails. -/
theorem fee_pool_agreement_sample :
    ∃ debited credited, FeeRun app PaysItsFee two two₂ debited credited ∧
      two₂.feePool - two.feePool = debited ∧
      two₂.feePool - two.feePool = credited ∧ two₂.feePool = 20 := by
  have h1 := ending_eq_ok ending_two₁ two
  have h2 := ending_eq_ok ending_two₂ two₁
  obtain ⟨d1, c1, hm1⟩ := exists_feeMoved h1 rfl
  obtain ⟨d2, c2, hm2⟩ := exists_feeMoved h2 rfl
  have hr1 : FeeRun app PaysItsFee two two₁ (0 + d1) (0 + c1) :=
    .step .nil (.inr (.inr ⟨by decide, by decide +kernel⟩)) rfl rfl h1 rfl hm1
  have hr2 : FeeRun app PaysItsFee two two₂ (0 + d1 + d2) (0 + c1 + c2) :=
    .step hr1 (.inr (.inl (mt (operator_success_iff h2).2 (by decide)))) rfl (by decide +kernel) h2
      rfl hm2
  obtain ⟨hd, hc⟩ := fee_pool_agreement hr2
  exact ⟨_, _, hr2, hd, hc, by decide +kernel⟩

/-- The genesis account pays no fee, and the pool grows by ten drops. -/
theorem fee_pool_grows_unpaid :
    ∃ T ctx pre o, Transactor.operator T ctx pre = .ok o ∧ o.applied = true ∧
      ctx.app.genesisAccount = ctx.tx.account ∧ ctx.view.isOpen = false ∧ FeeMoved T ctx o 0 0 ∧
      o.view.feePool = ctx.view.feePool + 10 := by
  have he : ending (issue.operator (context two (tx 1 1 1))
      .tesSUCCESS) = .ok (.tesSUCCESS, true) := by decide +kernel
  have h := ending_eq_ok he two
  refine ⟨_, _, _, _, h, rfl, rfl, rfl, ?_, by decide +kernel⟩
  obtain ⟨d, c, hm⟩ := exists_feeMoved h rfl
  cases hm with
  | paid hs hbe =>
    have hb := beginApply_balance hs.paid hbe
    rw [if_neg fun hc => hc.1 rfl] at hb
    have hp := FeeMoved.paid hs hbe
    rwa [hb.1, hb.2] at hp
  | claimed hc => cases hc.ter

end FinPal
