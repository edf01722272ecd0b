import FinPal.Tx.NFAsset
import FinPal.Verify.FeeClaim

/-!
# Chained transactions

`setSeq` advances `sfAccountTxnID` before `doApply`; the fee-claiming branch advances the sequence
alone, and so breaks the chain.
-/

namespace FinPal
open Store ViewM

/-- The transaction an account is chained to. `none` without an account or without the field. -/
def State.chainedTo (σ : State) (o : AccountID) : Option TxID :=
  (σ.get (keylet.account o)).bind AccountRoot.accountTxnID

theorem State.chainedTo_set {σ : State} (o o' : AccountID) {a a' : AccountRoot}
    (h : σ.get (keylet.account o) = some a) (ha : a'.accountTxnID = a.accountTxnID) :
    (σ.set (keylet.account o) a').chainedTo o' = σ.chainedTo o' := by
  unfold State.chainedTo
  rw [State.get_set]
  split
  · next e =>
    obtain rfl : o' = o := by simpa [keylet.account] using e
    rw [h, Option.bind_some, Option.bind_some, ha]
  · rfl

variable {T : Transactor} {ctx : ApplyContext} {pre : TER} {o : Outcome}

/-! ## One transaction -/

theorem beginApply_chainedTo {app : Application} {tx : STTx} {σ σ1 : State} {b : Int × Int}
    (h : exec (beginApply app tx) σ = .ok (b, σ1)) :
    σ1.chainedTo tx.account = (σ.chainedTo tx.account).map fun _ => tx.transactionID := by
  rcases exec_beginApply h with ⟨hn, -, rfl⟩ | ⟨a, ha, ⟨-, -, rfl⟩ | ⟨hg, -, m, -, -, -, rfl⟩⟩
  · simp [State.chainedTo, hn]
  · simp [State.chainedTo, ha, AccountRoot.sent]
  have hne : (keylet.account tx.account).key ≠ (keylet.account app.genesisAccount).key := by
    simpa [keylet.account] using Ne.symm hg
  simp [State.chainedTo, State.get_set_ne hne, ha, AccountRoot.sent]

/-- The transaction has passed preclaim. From the state that `beginApply` leaves, its `doApply`, a
program of view operations, succeeds with a table that is not too large, and leaves the sender's
`sfAccountTxnID` as it is there. -/
def KeepsChain (T : Transactor) (ctx : ApplyContext) (pre : TER) : Prop :=
  pre = .tesSUCCESS ∧ ∃ b t₁ p t, (beginApply ctx.app ctx.tx).onTable ctx.view ∅ = .ok (b, t₁) ∧
    T.doApply (ctx.withBalances b) = ViewM.onTable p ∧
    T.doApply (ctx.withBalances b) ctx.view t₁ = .ok (.tesSUCCESS, t) ∧
    ApplyStateTable.size t ≤ 5200 ∧
    (LedgerTable.state ctx.view t).chainedTo ctx.tx.account =
      (LedgerTable.state ctx.view t₁).chainedTo ctx.tx.account

/-- A `doApply` that succeeds makes `operator()` succeed. -/
theorem KeepsChain.succeeded (hk : KeepsChain T ctx pre) (h : T.operator ctx pre = .ok o) :
    o.ter = .tesSUCCESS := by
  obtain ⟨rfl, b, t₁, p, t, hb, -, hd, hsize, -⟩ := hk
  have hat : T.attempt ctx .tesSUCCESS = .ok (.tesSUCCESS, t) := by
    rw [Transactor.attempt, if_pos rfl]
    exact bind_ok.2 ⟨(b, t₁), hb, hd⟩
  obtain ⟨_, h0, h⟩ := bind_ok.1 h
  cases hat.symm.trans h0
  obtain ⟨fee, -, h⟩ := bind_ok.1 h
  dsimp only at h
  rw [if_neg (not_lt.2 hsize), if_neg (by rintro (h | ⟨h, -⟩) <;> cases h)] at h
  exact (finish_ok h).1

/-- A transaction that keeps the chain is the one the sender is chained to after it. -/
theorem KeepsChain.chainedTo (hk : KeepsChain T ctx pre) (h : T.operator ctx pre = .ok o) :
    o.view.state.chainedTo ctx.tx.account =
      (ctx.view.state.chainedTo ctx.tx.account).map fun _ => ctx.tx.transactionID := by
  have hs := hk.succeeded h
  obtain ⟨-, b, t₁, p, t, hb, hp, hd, -, hch⟩ := hk
  rcases operator_cases h with ⟨-, _, _, t', fee, hsu⟩ | ⟨_, _, t, _, fee, -, hc⟩ | ⟨-, -, hne⟩
  · cases hb.symm.trans hsu.begun
    obtain rfl : t = t' := (Prod.mk.inj (Except.ok.inj (hd.symm.trans hsu.done))).2
    obtain ⟨h1, ht1⟩ := onTable_exec (Table.synced_empty _) hb
    rw [hp] at hd
    rw [(finished_of_finish (onTable_exec ht1 hd).2 hsu.finished).state, hch]
    exact beginApply_chainedTo h1
  · have := hc.ter
    rw [hs] at this
    cases this
  · exact absurd hs hne

/-! ## Runs -/

/-- The views of a run in which each transaction of the account `acct` is applied and satisfies `P`,
with the last of them. Others may change anything but the account's chain. -/
inductive ChainRun (acct : AccountID) (P : Transactor → ApplyContext → TER → Prop) (v : OpenView) :
    OpenView → Option TxID → Prop where
  | nil : ChainRun acct P v v none
  | other {v₁ v₂ : OpenView} {last : Option TxID} (run : ChainRun acct P v v₁ last)
      (h : v₂.state.chainedTo acct = v₁.state.chainedTo acct) : ChainRun acct P v v₂ last
  | own {T : Transactor} {ctx : ApplyContext} {pre : TER} {o : Outcome} {last : Option TxID}
      (run : ChainRun acct P v ctx.view last) (hP : P T ctx pre) (sender : ctx.tx.account = acct)
      (op : T.operator ctx pre = .ok o) (applied : o.applied = true) :
      ChainRun acct P v o.view (some ctx.tx.transactionID)

theorem chainedTo_of_run {acct : AccountID} {v v' : OpenView} {last : Option TxID}
    (h : (v.state.chainedTo acct).isSome = true) (hr : ChainRun acct KeepsChain v v' last) :
    (v'.state.chainedTo acct).isSome = true ∧ ∀ id, last = some id →
      v'.state.chainedTo acct = some id := by
  induction hr with
  | nil => exact ⟨h, fun _ hid => by cases hid⟩
  | other _ heq ih => rwa [heq]
  | own _ hP sender op _ ih =>
    have hch := hP.chainedTo op
    obtain ⟨id, hid⟩ := Option.isSome_iff_exists.1 ih.1
    rw [sender, hid] at hch
    exact ⟨by rw [hch]; rfl, fun id' hid' => by rw [hch, ← hid']; rfl⟩

theorem checkSeq_chained {c : PreclaimContext} {a : AccountRoot} {h last : TxID}
    (ha : c.view.state.get (keylet.account c.tx.account) = some a)
    (hl : c.view.state.chainedTo c.tx.account = some last)
    (hpr : c.tx.accountTxnID = some h) (hseq : c.tx.sequence = a.sequence)
    (hle : c.tx.lastLedgerSequence.any (· < c.view.seq) = false) :
    checkSeq c = if h = last then .tesSUCCESS else .tefWRONG_PRIOR := by
  rw [State.chainedTo, ha] at hl
  unfold checkSeq
  split <;> simp_all

/-- After transactions that keep the chain the account holds the last one it sent, and accepts of
those that name a predecessor exactly the ones that name it. -/
theorem transaction_chaining {acct : AccountID} {v v' : OpenView} {last : TxID}
    (h : (v.state.chainedTo acct).isSome = true)
    (hrun : ChainRun acct KeepsChain v v' (some last)) :
    v'.state.chainedTo acct = some last ∧
      ∀ (c : PreclaimContext) (a : AccountRoot) (id : TxID), c.view = v' → c.tx.account = acct →
        v'.state.get (keylet.account acct) = some a → c.tx.sequence = a.sequence →
        c.tx.lastLedgerSequence.any (· < c.view.seq) = false → c.tx.accountTxnID = some id →
        (checkSeq c = .tesSUCCESS ↔ id = last) := by
  have hch := (chainedTo_of_run h hrun).2 last rfl
  refine ⟨hch, ?_⟩
  rintro c a id rfl rfl ha hs hle hid
  rw [checkSeq_chained ha hch hid hs hle]
  split
  · next e => exact iff_of_true rfl e
  · next e => exact iff_of_false (by decide) e

theorem createAsset_chainedTo {f : CreateAsset} {tx : STTx} {σ σ' : State} {ter : TER}
    (h : exec (f.doApply tx) σ = .ok (ter, σ')) (o : AccountID) : σ'.chainedTo o = σ.chainedTo o := by
  have hot {σ σ' : State} (h : Keeps AccountRoot σ σ') (o : AccountID) :
      σ'.chainedTo o = σ.chainedTo o := by unfold State.chainedTo; rw [h]
  have hi {α : Type} [IsEntry α] (hα : ∀ x, (ofEntry (toEntry x) : Option AccountRoot) = none)
      {k : Keylet α} {y : α} {σ : State} (hk : σ k.key = none) (o : AccountID) :
      (σ.set k y).chainedTo o = σ.chainedTo o := hot ((Keeps.permits hα).insert y hk) o
  obtain ⟨old, -, h⟩ := exec_peek_ok h
  cases old with
  | some old =>
    obtain ⟨-, rfl⟩ := exec_pure.1 h
    rfl
  | none =>
    obtain ⟨hno, h⟩ := exec_insert_ok h
    obtain ⟨_, h3⟩ := exec_last h
    obtain ⟨_, -, h3⟩ := exec_peek!_ok h3
    obtain ⟨_, hro', h3⟩ := exec_update_ok h3
    obtain ⟨_, _, h6, h3⟩ := exec_bind.1 h3
    obtain ⟨ha, rfl⟩ := exec_insert.1 h3
    obtain ⟨i, -, h6⟩ := exec_peek_ok h6
    rw [hi (fun _ => rfl) ha]
    have hidx := hot <| show Keeps AccountRoot _ _ by
      cases i with
      | none => exact (Keeps.permits fun _ => rfl).inserted h6
      | some i => exact (Keeps.permits fun _ => rfl).update h6
    rw [hidx, State.chainedTo_set _ _ hro' (by rfl), hi (fun _ => rfl) hno]

namespace Sample

/-- Account 2 chains its transactions. -/
def chained : OpenView :=
  ledger [{ account := 1, sequence := 1, balance := 1000 },
    { account := 2, sequence := 1, balance := 500, accountTxnID := some (.raw 7) }]

def chainedIssue : Transactor := CreateAsset.transactor { ident := [65] }

def chained₁ : OpenView :=
  chained.after (chainedIssue.operator (context chained (tx 8 2 1)) .tesSUCCESS)

end Sample

/-- An asset is created, and its transaction is the one that the account is chained to. -/
theorem transaction_chaining_sample :
    ChainRun 2 KeepsChain Sample.chained Sample.chained₁ (some (.raw 8)) ∧
      Sample.chained₁.state.chainedTo 2 = some (.raw 8) := by
  have he : ending (Sample.chainedIssue.operator (Sample.context Sample.chained (Sample.tx 8 2 1))
      .tesSUCCESS) = .ok (.tesSUCCESS, true) := by decide +kernel
  have hsize : ((Sample.chainedIssue.attempt (Sample.context Sample.chained (Sample.tx 8 2 1))
      .tesSUCCESS).toOption.all fun r => decide (ApplyStateTable.size r.2 ≤ 5200)) = true := by
    decide +kernel
  have h := ending_eq_ok he Sample.chained
  have hk : KeepsChain Sample.chainedIssue (Sample.context Sample.chained (Sample.tx 8 2 1))
      .tesSUCCESS := by
    rcases operator_cases h with ⟨-, b, t₁, t, fee, hsu⟩ | ⟨_, _, _, _, _, -, hc⟩ | ⟨-, -, hne⟩
    · refine ⟨rfl, b, t₁, _, t, hsu.begun, rfl, hsu.done, ?_, ?_⟩
      · have ha : Sample.chainedIssue.attempt (Sample.context Sample.chained (Sample.tx 8 2 1))
            .tesSUCCESS = .ok (.tesSUCCESS, t) := bind_ok.2 ⟨(b, t₁), hsu.begun, hsu.done⟩
        rw [ha] at hsize
        exact of_decide_eq_true hsize
      · obtain ⟨-, ht₁⟩ := onTable_exec (Table.synced_empty _) hsu.begun
        exact createAsset_chainedTo (onTable_exec ht₁ hsu.done).1 _
    · exact absurd hc.ter (by decide)
    · exact absurd rfl hne
  have hr : ChainRun 2 KeepsChain Sample.chained Sample.chained₁ (some (.raw 8)) :=
    @ChainRun.own _ _ _ _ (Sample.context Sample.chained (Sample.tx 8 2 1)) _ _ _ .nil hk rfl h rfl
  exact ⟨hr, (transaction_chaining (by decide) hr).1⟩

/-- After a claimed fee the account is still chained to the transaction before: the next one is
refused if it names its predecessor. -/
theorem chain_broken_by_claim :
    ∃ T ctx pre o, Transactor.operator T ctx pre = .ok o ∧ o.applied = true ∧
      o.ter.isTecClaim = true ∧ ctx.view.state.chainedTo ctx.tx.account = some (.raw 7) ∧
      ctx.tx.transactionID = .raw 9 ∧ o.view.state.chainedTo ctx.tx.account = some (.raw 7) ∧
      checkSeq ⟨ctx.app, o.view, { Sample.tx 10 2 2 with accountTxnID := some (.raw 9) }, {}⟩ =
        .tefWRONG_PRIOR ∧
      checkSeq ⟨ctx.app, o.view, { Sample.tx 10 2 2 with accountTxnID := some (.raw 7) }, {}⟩ =
        .tesSUCCESS := by
  have he : ending (Sample.failing.operator (Sample.context Sample.chained (Sample.tx 9 2 1))
      .tesSUCCESS) = .ok (.tecFAILED_PROCESSING, true) := by decide +kernel
  exact ⟨_, _, _, _, ending_eq_ok he Sample.chained, rfl, rfl, by decide, rfl, by decide +kernel,
    by decide +kernel, by decide +kernel⟩

end FinPal
