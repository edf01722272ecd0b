import FinPal.Misc.TxQEngine
import FinPal.Tx.Operator
import FinPal.Verify.TxQStructure

/-!
# No gaps in the queue

A transaction is held only if its sequence is the account's, which `preclaim` finds, or if the queue
has one for every sequence between them, which the queue itself finds.
-/

namespace FinPal
open Store
open Std (TreeMap)

/-! ### Steps of transactors -/

section codes

/-- `terQUEUED` is no code of a transactor's own. -/
structure Transactor.NeverQueues (T : Transactor) : Prop where
  preflight : ∀ ctx, T.preflight ctx ≠ .ok .terQUEUED
  preclaim : ∀ ctx, T.preclaim ctx ≠ .ok .terQUEUED
  doApply : ∀ ctx v t r, T.doApply ctx v t = .ok r → r.1 ≠ .terQUEUED

variable {T : Transactor}

section
variable (ctx : PreclaimContext)

theorem checkSeq_ne : checkSeq ctx ≠ .terQUEUED := by
  unfold checkSeq
  split
  · nofun
  · split_ifs <;> nofun

theorem checkFee_ne (baseFee : Nat) : checkFee ctx baseFee ≠ .ok .terQUEUED := by
  intro h
  obtain ⟨_, -, h⟩ := bind_ok.1 h
  split_ifs at h
  · cases h
  · cases h
  · cases h
  split at h
  · cases h
  · split_ifs at h <;> cases h

theorem checkSingleSign_ne : checkSingleSign ctx ≠ .ok .terQUEUED := by
  unfold checkSingleSign
  split
  · nofun
  · dsimp only
    split_ifs <;> nofun

end

theorem checkSignerKey_ne (c : Crypto) (σ : State) (signer : Signer) :
    checkSignerKey c σ signer ≠ .terQUEUED := by
  unfold checkSignerKey
  split
  · nofun
  dsimp only
  split
  · split <;> nofun
  · split_ifs <;> nofun

theorem walkSigners_ne (c : Crypto) (σ : State) {signers : List Signer} {iter : List SignerEntry}
    {weightSum : Nat} {r : TER × Nat} (h : walkSigners c σ signers iter weightSum = .ok r) :
    r.1 ≠ .terQUEUED := by
  induction signers generalizing iter weightSum with
  | nil =>
    cases h
    nofun
  | cons _ signers ih =>
    obtain ⟨_, -, h⟩ := bind_ok.1 h
    split at h
    · cases h
      nofun
    · cases h
      nofun
    split at h
    · cases h
      nofun
    split at h
    · exact ih h
    · cases h
      exact checkSignerKey_ne _ _ _

theorem checkMultiSign_ne (ctx : PreclaimContext) : checkMultiSign ctx ≠ .ok .terQUEUED := by
  unfold checkMultiSign
  split
  · nofun
  intro h
  obtain ⟨r, hr, h⟩ := bind_ok.1 h
  dsimp only at h
  split_ifs at h
  · exact walkSigners_ne _ _ hr (Except.ok.inj h)
  · cases h
  · cases h

theorem checkSign_ne (ctx : PreclaimContext) : checkSign ctx ≠ .ok .terQUEUED := by
  unfold checkSign
  split
  · exact checkMultiSign_ne ctx
  · exact checkSingleSign_ne ctx

theorem Transactor.NeverQueues.invokePreclaim (hT : T.NeverQueues) (ctx : PreclaimContext) :
    invokePreclaim T ctx ≠ .ok .terQUEUED := by
  unfold FinPal.invokePreclaim
  split
  · nofun
  dsimp only
  split
  · exact fun h => checkSeq_ne ctx (Except.ok.inj h)
  intro h
  obtain ⟨_, hf, h⟩ := bind_ok.1 h
  split at h
  · cases h
    exact checkFee_ne _ _ hf
  obtain ⟨_, hs, h⟩ := bind_ok.1 h
  split at h
  · cases h
    exact checkSign_ne _ hs
  · exact hT.preclaim ctx h

theorem Transactor.NeverQueues.attempt (hT : T.NeverQueues) {ctx : ApplyContext} {pre : TER}
    (hp : pre ≠ .terQUEUED) {r : TER × LedgerTable} (h : T.attempt ctx pre = .ok r) :
    r.1 ≠ .terQUEUED := by
  unfold Transactor.attempt at h
  split at h
  · obtain ⟨⟨b, t⟩, -, h⟩ := bind_ok.1 h
    exact hT.doApply _ _ _ r h
  · cases h
    exact hp

theorem Transactor.NeverQueues.operator (hT : T.NeverQueues) {ctx : ApplyContext} {pre : TER}
    (hp : pre ≠ .terQUEUED) {o : Outcome} (h : T.operator ctx pre = .ok o) :
    o.ter ≠ .terQUEUED := by
  obtain ⟨⟨result, t0⟩, ha, h⟩ := bind_ok.1 h
  have hre : result ≠ .terQUEUED := hT.attempt hp ha
  obtain ⟨_, -, h⟩ := bind_ok.1 h
  dsimp only at h
  have ht : (if 5200 < ApplyStateTable.size t0 then TER.tecOVERSIZE else result) ≠
      .terQUEUED := by
    split
    · nofun
    · exact hre
  generalize (if 5200 < ApplyStateTable.size t0 then TER.tecOVERSIZE else result) = ter at h ht
  split at h
  · obtain ⟨⟨_, t⟩, -, h⟩ := bind_ok.1 h
    rw [(finish_ok h).1]
    exact ht
  split at h
  · rw [(finish_ok h).1]
    exact ht
  · cases h
    exact ht

theorem sequence_of_checkSeq {ctx : PreclaimContext} (h : checkSeq ctx = .tesSUCCESS) :
    ∃ root, ctx.view.state.get (keylet.account ctx.tx.account) = some root ∧
      ctx.tx.sequence = root.sequence := by
  unfold checkSeq at h
  split at h
  · cases h
  case h_2 root hr =>
    split at h
    · split_ifs at h
    case isFalse hs => exact ⟨root, hr, not_not.1 hs⟩

theorem not_likely_checkSeq {ctx : PreclaimContext} (h : checkSeq ctx ≠ .tesSUCCESS) :
    Engine.likelyToClaimFee (checkSeq ctx) = false := by
  revert h
  unfold checkSeq
  split
  · exact fun _ => rfl
  · split_ifs <;> first | exact fun _ => rfl | exact fun h => absurd rfl h

end codes

namespace Engine
variable {View Tx Rules : Type} {E : Engine View Tx Rules}

/-- `terQUEUED` is the queue's own code. -/
structure NeverQueues (E : Engine View Tx Rules) : Prop where
  preflight : ∀ rules tx flags, E.preflight rules tx flags ≠ .terQUEUED
  invokePreclaim : ∀ view tx flags, E.invokePreclaim view tx flags ≠ .terQUEUED
  invokeApply : ∀ view tx flags ter, ter ≠ .terQUEUED →
    (E.invokeApply view tx flags ter).1 ≠ .terQUEUED

/-- A transaction that likely claims a fee has the sequence of its account. -/
def Sequenced (E : Engine View Tx Rules) (tx : Tx) : Prop :=
  ∀ view flags, E.preflight (E.rules view) tx flags = .tesSUCCESS →
    likelyToClaimFee (E.invokePreclaim view tx flags) = true →
      ∃ balance, E.accountRoot view (E.account tx) = some (E.sequence tx, balance)

theorem NeverQueues.preclaim [DecidableEq Rules] (h : E.NeverQueues) {pf : PreflightResult Rules}
    (hpf : pf.ter ≠ .terQUEUED) (tx : Tx) (flags : ApplyFlags) (view : View) :
    E.preclaim pf tx flags view ≠ .terQUEUED := by
  unfold Engine.preclaim
  dsimp only
  split_ifs
  · exact h.preflight _ _ _
  · exact h.invokePreclaim _ _ _
  · exact hpf
  · exact h.invokePreclaim _ _ _

theorem NeverQueues.doApply (h : E.NeverQueues) {ter : TER} (ht : ter ≠ .terQUEUED) (tx : Tx)
    (flags : ApplyFlags) (view : View) : (E.doApply ter tx flags view).1 ≠ .terQUEUED := by
  unfold Engine.doApply
  split
  · exact h.invokeApply _ _ _ _ ht
  · exact ht

theorem preclaim_preflightResult [DecidableEq Rules] {tx : Tx} {flags : ApplyFlags} {view : View}
    (h : (E.preflightResult tx flags view).ter = .tesSUCCESS) :
    E.preclaim (E.preflightResult tx flags view) tx flags view = E.invokePreclaim view tx flags := by
  have hru : (E.preflightResult tx flags view).rules = E.rules view := rfl
  simp [preclaim, hru, h]

end Engine

namespace TxQ
variable {View Tx Rules : Type} {E : Engine View Tx Rules}
  {q q' q'' : TxQ Tx Rules} {c : Candidate Tx Rules} {view : View} {rep : Replacement}

/-! ### Holding a transaction -/

/-- The transaction is queued, and the others of its account are as they were. -/
def Held (E : Engine View Tx Rules) (q : TxQ Tx Rules) (c : Candidate Tx Rules)
    (q' : TxQ Tx Rules) : Prop :=
  ∀ s, (q'.getTx (c.account E, s)).isSome =
    (decide (s = c.tSeq E) || (q.getTx (c.account E, s)).isSome)

theorem Held.after (h : Held E q' c q'')
    (hs : ∀ s, (q'.getTx (c.account E, s)).isSome = (q.getTx (c.account E, s)).isSome) :
    Held E q c q'' := by
  intro s
  rw [h s, hs s]

theorem held_hold (hrep : Replaces E q c rep.deleteRef) : Held E q c (q.hold E c rep) := by
  intro s
  have hbe : ∃ q1 : TxQ Tx Rules, q.hold E c rep = q1.add E c rep.consequences ∧
      q1.getTx (c.ref E) = none ∧ ∀ r, r ≠ c.ref E → q1.getTx r = q.getTx r := by
    unfold Replaces at hrep
    unfold hold
    cases hso : (q.getTx (c.ref E)).isSome with
    | false =>
      rw [hso] at hrep
      rw [hrep]
      exact ⟨q, rfl, by simpa using hso, fun _ _ => rfl⟩
    | true =>
      rw [hso] at hrep
      rw [hrep]
      refine ⟨q.erase (c.ref E), rfl, getTx_erase_self q _, fun r hr => ?_⟩
      rw [getTx_erase, if_neg hr]
  obtain ⟨q1, hho, hno, hot⟩ := hbe
  rw [hho, getTx_add hno]
  by_cases hs : s = c.tSeq E
  · subst hs
    simp [Candidate.ref]
  have hne : (c.account E, s) ≠ c.ref E := fun h => hs (congrArg Prod.snd h)
  rw [if_neg hne, hot _ hne]
  simp [hs]

theorem makeRoom_ne (q : TxQ Tx Rules) (c : Candidate Tx Rules) :
    (q.makeRoom E c).2 ≠ .ok (some .terQUEUED) := by
  unfold makeRoom
  split
  · nofun
  split
  · nofun
  split
  · nofun
  split
  · split <;> nofun
  · nofun

theorem applyHeld_held (hr : Replaces E q c rep.deleteRef) {b : Bool}
    (h : (q.applyHeld E c rep).2 = .ok (.terQUEUED, b)) : Held E q c (q.applyHeld E c rep).1 := by
  unfold applyHeld at h ⊢
  split at h
  case isFalse hfu =>
    rw [if_neg hfu]
    exact held_hold hr
  case isTrue hfu =>
    rw [if_pos hfu]
    obtain ⟨r, hne, -, heq⟩ | ⟨-, hre⟩ := makeRoom_spec q c
    · rw [heq]
      have hsa (s) : (q.erase r).getTx (c.account E, s) = q.getTx (c.account E, s) := by
        rw [getTx_erase, if_neg (fun h => hne (congrArg Prod.fst h).symm)]
      refine (held_hold ?_).after fun s => by rw [hsa s]
      unfold Replaces
      rw [Candidate.ref, hsa]
      exact hr
    have hco := makeRoom_ne (E := E) q c
    generalize q.makeRoom E c = r at h hre hco
    obtain ⟨_, _ | _ | _⟩ := r
    · cases h
    · exact absurd rfl hre
    · cases h
      exact absurd rfl hco

/-! ### Sequences before the transaction -/

/-- A loop that ends with totals has seen every sequence up to the transaction's. -/
theorem mem_of_multiTxnLoop (entries : List (ℕ × MaybeTx Tx Rules)) (workingSeq : ℕ)
    (multi : MultiTxn) (q : TxQ Tx Rules) {multi' : MultiTxn}
    (h : (multiTxnLoop E c entries workingSeq multi q).2 = .ok (some multi')) {s : ℕ}
    (hs : workingSeq ≤ s) (hlt : s < c.tSeq E) : ∃ m, (s, m) ∈ entries := by
  induction entries generalizing workingSeq multi q with
  | nil =>
    unfold multiTxnLoop at h
    rw [if_pos (hs.trans_lt hlt)] at h
    cases h
  | cons entry rest ih =>
    obtain ⟨seq, m⟩ := entry
    unfold multiTxnLoop at h
    dsimp only at h
    split at h
    · cases h
    case isFalse hg =>
    -- The first entry has the sequence that is due.
    have hseq : seq = workingSeq := not_not.1 fun hne => hg ⟨hs.trans_lt hlt, hne⟩
    obtain rfl | hs := hs.eq_or_lt
    · exact ⟨m, by rw [hseq]; exact List.mem_cons_self⟩
    suffices hre : ∃ m, (s, m) ∈ rest by
      obtain ⟨m, hm⟩ := hre
      exact ⟨m, List.mem_cons_of_mem _ hm⟩
    split at h
    · cases h
    split at h
    · exact ih _ _ _ h hs
    split at h
    · cases h
    · exact ih _ _ _ h hs

theorem getElem?_of_mem_entriesFrom {a : TxQAccount Tx Rules} {aSeq s : ℕ} {m : MaybeTx Tx Rules}
    (h : (s, m) ∈ entriesFrom a aSeq) : a.transactions[s]? = some m := by
  unfold entriesFrom at h
  split at h
  · cases h
  case h_2 m0 hm0 =>
    obtain heq | hm := List.mem_cons.1 h
    · cases heq
      exact hm0
    · exact (mem_upperBound.1 hm).1

/-- The account's sequence, and what is queued from there up to the transaction. -/
def NoGaps (E : Engine View Tx Rules) (q : TxQ Tx Rules) (c : Candidate Tx Rules) (view : View) :
    Prop :=
  ∃ a balance, E.accountRoot view (c.account E) = some (a, balance) ∧ a ≤ c.tSeq E ∧
    ∀ s, a ≤ s → s < c.tSeq E → (q.getTx (c.account E, s)).isSome = true

theorem NoGaps.same (h : NoGaps E q c view) (hsa : SameLinks q q') : NoGaps E q' c view := by
  obtain ⟨a, balance, hr, hle, ha⟩ := h
  refine ⟨a, balance, hr, hle, fun s hs hlt => ?_⟩
  rw [hsa.isSome_getTx]
  exact ha s hs hlt

theorem noGaps_of_findMultiTxn (q : TxQ Tx Rules) (c : Candidate Tx Rules) (view : View)
    (deleteRef : Option Ref) {multi : MultiTxn × View}
    (h : (q.findMultiTxn E c view deleteRef).2 = .ok (some multi)) : NoGaps E q c view := by
  unfold findMultiTxn at h
  split at h
  case h_2 => cases h
  case h_1 txQAcct aSeq balance ha hr =>
    split at h
    case isFalse => cases h
    case isTrue hlt =>
      refine ⟨aSeq, balance, hr, hlt.1.le, fun s hs hst => ?_⟩
      split at h
      · cases h
      · cases h
      case h_3 q1 multi' heq =>
        obtain ⟨m, hm⟩ := mem_of_multiTxnLoop _ _ _ q (congrArg Prod.snd heq) hs hst
        rw [getTx, ha, Option.bind_some, getElem?_of_mem_entriesFrom hm]
        rfl

/-! ### Codes -/

theorem findReplacement_ne (q : TxQ Tx Rules) (c : Candidate Tx Rules) :
    (q.findReplacement E c).2 ≠ .error .terQUEUED := by
  unfold findReplacement
  split
  · nofun
  split
  · nofun
  dsimp only
  split
  · nofun
  split
  · nofun
  split
  · nofun
  split
  · split <;> nofun
  · nofun

/-! ### The result of `apply` -/

/-- The candidate is held, and no sequence before it is missing. -/
def Queued (E : Engine View Tx Rules) (q : TxQ Tx Rules) (c : Candidate Tx Rules) (view : View)
    (q' : TxQ Tx Rules) : Prop :=
  Held E q c q' ∧ NoGaps E q c view

theorem Queued.after (hs : SameLinks q q') (h : Queued E q' c view q'') : Queued E q c view q'' :=
  ⟨h.1.after fun _ => hs.isSome_getTx _, h.2.same hs.symm⟩

variable (hE : E.NeverQueues)

include hE

theorem applyOrHold_held (hr : Replaces E q c rep.deleteRef)
    {multi applied : Bool} {preclaimResult : TER} (hp : preclaimResult ≠ .terQUEUED)
    (h : (q.applyOrHold E c rep multi preclaimResult view).result = .ok (.terQUEUED, applied)) :
    Held E q c (q.applyOrHold E c rep multi preclaimResult view).queue := by
  unfold applyOrHold at h ⊢
  split at h
  · -- The code comes from the transaction.
    have ht := congrArg Prod.fst (Except.ok.inj h)
    exact absurd ht (hE.doApply hp _ _ _)
  case isFalse hdi =>
    rw [if_neg hdi]
    split at h
    · have ht := congrArg Prod.fst (Except.ok.inj h)
      split at ht <;> cases ht
    case isFalse hh =>
      rw [if_neg hh]
      exact applyHeld_held hr h

variable [DecidableEq Rules]

theorem tryClearAccountQueue_ne (q : TxQ Tx Rules) (c : Candidate Tx Rules)
    (hpf : c.pfresult.ter ≠ .terQUEUED) (sandbox : View) (aSeq txExtraCount : ℕ) (view : View) :
    (q.tryClearAccountQueue E c sandbox aSeq txExtraCount).2 ≠ some (.terQUEUED, view) := by
  unfold tryClearAccountQueue
  split
  · simp
  dsimp only
  split
  · simp
  split
  · simp
  case h_2 before _ =>
    have ht := hE.doApply (hE.preclaim hpf c.tx c.flags before) c.tx c.flags before
    split
    · intro h
      exact ht (congrArg Prod.fst (Option.some.inj h))
    · simp

theorem applyChecked_queued (hseq : E.Sequenced c.tx)
    (hr : Replaces E q c rep.deleteRef) {multi : Option (MultiTxn × View)} {applied : Bool}
    (hga : multi.isSome = true → NoGaps E q c view)
    (hpf : c.pfresult = E.preflightResult c.tx c.flags view) (ht : c.pfresult.ter = .tesSUCCESS)
    (h : (q.applyChecked E c rep multi view).result = .ok (.terQUEUED, applied)) :
    Queued E q c view (q.applyChecked E c rep multi view).queue := by
  have hp (v) : E.preclaim c.pfresult c.tx c.flags v ≠ .terQUEUED :=
    hE.preclaim (by rw [ht]; nofun) _ _ _
  unfold applyChecked at h ⊢
  dsimp only at h ⊢
  split at h
  · exact absurd (congrArg Prod.fst (Except.ok.inj h)) (hp _)
  case isFalse hli =>
  rw [if_neg hli]
  obtain _ | ⟨m, _⟩ := multi
  · refine ⟨applyOrHold_held hE hr (hp _) h, ?_⟩
    -- `preclaim` has seen the view, and so the account's sequence.
    have hli : Engine.likelyToClaimFee (E.preclaim c.pfresult c.tx c.flags view) = true := by
      simpa using hli
    rw [hpf] at ht
    rw [hpf, Engine.preclaim_preflightResult ht] at hli
    obtain ⟨balance, hro⟩ := hseq view c.flags ht hli
    exact ⟨_, balance, hro, le_rfl, fun s hs hlt => absurd hs (not_le.2 hlt)⟩
  dsimp only at h ⊢
  have hga := hga rfl
  split at h
  case isFalse hcl =>
    rw [if_neg hcl]
    exact ⟨applyOrHold_held hE hr (hp _) h, hga⟩
  case isTrue hcl =>
    rw [if_pos hcl]
    have hsa := (tryClearAccountQueue_spec (E := E) q c (E.sandbox view) m.nextSeq
      (E.txCount view)).2
    have hco := tryClearAccountQueue_ne hE q c (by rw [ht]; nofun) (E.sandbox view) m.nextSeq
      (E.txCount view)
    generalize q.tryClearAccountQueue E c (E.sandbox view) m.nextSeq (E.txCount view) = r
      at h hsa hco
    obtain ⟨q1, _ | ⟨_, sandbox⟩⟩ := r
    · have hsa : SameLinks q q1 := hsa rfl
      have hhe := applyOrHold_held hE (hr.same hsa) (hp _) h
      exact ⟨hhe.after fun s => hsa.isSome_getTx _, hga⟩
    · cases h
      exact absurd rfl (hco sandbox)

theorem apply_queued (q : TxQ Tx Rules) (tx : Tx) (hs : E.Sequenced tx)
    (flags : ApplyFlags) {applied : Bool}
    (h : (q.apply E view tx flags).result = .ok (.terQUEUED, applied)) :
    ∃ c, c.tx = tx ∧ Queued E q c view (q.apply E view tx flags).queue := by
  unfold apply at h ⊢
  dsimp only at h ⊢
  split at h
  · have ht := congrArg Prod.fst (Except.ok.inj h)
    refine absurd ht (hE.doApply (hE.preclaim (hE.preflight _ _ _) _ _ _) _ _ _)
  case isFalse hfe =>
  rw [if_neg hfe]
  split at h
  · exact absurd (congrArg Prod.fst (Except.ok.inj h)) (hE.preflight _ _ _)
  case isFalse hpf =>
  rw [if_neg hpf]
  cases hre : q.feeMetrics.scaleFeeLevel (E.txCount view) with
  | error _ =>
    rw [hre] at h
    cases h
  | ok requiredFeeLevel =>
    rw [hre] at h
    dsimp only at h ⊢
    have hca : ∃ c : Candidate Tx Rules, c = ⟨tx, flags, E.preflightResult tx flags view,
      E.feeLevelPaid q.setup view tx, requiredFeeLevel⟩ := ⟨_, rfl⟩
    obtain ⟨c, hc⟩ := hca
    rw [← hc] at h ⊢
    refine ⟨c, by rw [hc], ?_⟩
    obtain ⟨hsa, hr⟩ := findReplacement_spec q c
    have hco := findReplacement_ne (E := E) q c
    generalize q.findReplacement E c = r at h hsa hr hco
    obtain ⟨q1, ter | rep⟩ := r
    · have ht : ter = .terQUEUED := congrArg Prod.fst (Except.ok.inj h)
      exact absurd (congrArg Except.error ht) hco
    dsimp only at h ⊢
    have hr1 : Replaces E q1 c rep.deleteRef := (hr rep rfl).same hsa
    obtain ⟨hsa2, -, hco2, -⟩ := findMultiTxn_spec q1 c view rep.deleteRef
    have hga (m) (hm : (q1.findMultiTxn E c view rep.deleteRef).2 = .ok (some m)) :
        NoGaps E q1 c view := noGaps_of_findMultiTxn q1 c view rep.deleteRef hm
    generalize q1.findMultiTxn E c view rep.deleteRef = r at h hsa2 hco2 hga
    obtain ⟨_, ter | _⟩ := r
    · have ht : ter = .terQUEUED := congrArg Prod.fst (Except.ok.inj h)
      exact absurd (congrArg Except.error ht) hco2
    have hs : E.Sequenced c.tx := by
      rw [hc]
      exact hs
    refine .after (hsa.trans hsa2) (applyChecked_queued hE hs (hr1.same hsa2) ?_ ?_ ?_ h)
    · intro hso
      obtain ⟨m, rfl⟩ := Option.isSome_iff_exists.1 hso
      exact (hga m rfl).same hsa2
    · rw [hc]
    · rw [hc]
      exact not_not.1 hpf

end TxQ

/-! ### Queues over transactors -/

theorem ok_of_codeOf {r : Except Fault TER} {ter : TER} (h : codeOf r = ter)
    (ht : ter ≠ .tefEXCEPTION) : r = .ok ter := by
  cases r with
  | error e => exact absurd h.symm ht
  | ok _ => exact congrArg _ h

/-- The zero account only sends the transactions that a ledger makes itself. -/
def Transactor.Sends (T : Transactor) (tx : STTx) : Prop :=
  tx.account = 0 → ∀ ctx : PreflightContext, ctx.tx = tx → T.preflight ctx ≠ .ok .tesSUCCESS

section preflight
variable {checks : PreflightContext → Except Fault TER}

theorem preflightWith_sends {T : Transactor} (hT : T.preflight = preflightWith checks) (tx : STTx) :
    T.Sends tx := by
  rintro hz _ rfl h
  rw [hT] at h
  exact preflight1_account (preflightWith_ok h).1 hz

theorem preflight1_ne (ctx : PreflightContext) : preflight1 ctx ≠ .terQUEUED := by
  have hr : preflight0 ctx ≠ .terQUEUED := by
    unfold preflight0
    split <;> nofun
  unfold preflight1
  dsimp only
  split
  · exact hr
  split
  · nofun
  split
  · nofun
  · split_ifs <;> nofun

theorem preflight2_ne (ctx : PreflightContext) : preflight2 ctx ≠ .terQUEUED := by
  unfold preflight2
  split
  · nofun
  · split <;> nofun

theorem preflightWith_ne (hch : ∀ ctx, checks ctx ≠ .ok .terQUEUED) (ctx : PreflightContext) :
    preflightWith checks ctx ≠ .ok .terQUEUED := by
  unfold preflightWith
  dsimp only
  split
  · exact fun h => preflight1_ne ctx (Except.ok.inj h)
  split
  · exact fun h => preflight2_ne ctx (Except.ok.inj h)
  · exact hch ctx

end preflight

namespace Engine
variable {app : Application} {T : QueueTx → Transactor} {consequences : QueueTx → TxConsequences}

theorem neverQueues_ofTransactors (hT : ∀ tx, (T tx).NeverQueues) :
    (ofTransactors app T consequences).NeverQueues where
  preflight rules tx flags h := (hT tx).preflight _ (ok_of_codeOf h nofun)
  invokePreclaim view tx flags h := (hT tx).invokePreclaim _ (ok_of_codeOf h nofun)
  invokeApply view tx flags ter ht := by
    change (invokeTransactor app T view tx flags ter).1 ≠ _
    unfold invokeTransactor
    dsimp only
    split
    case h_1 o ho => exact (hT tx).operator ht ho
    · nofun

theorem sequenced_ofTransactors {tx : QueueTx} (htx : (T tx).Sends tx.toSTTx) :
    (ofTransactors app T consequences).Sequenced tx := by
  intro view _ hp hli
  have hp := ok_of_codeOf hp nofun
  have hz : tx.account ≠ 0 := fun hz => htx hz _ rfl hp
  change likelyToClaimFee (codeOf (FinPal.invokePreclaim (T tx) _)) = true at hli
  unfold FinPal.invokePreclaim at hli
  rw [if_neg hz] at hli
  dsimp only at hli
  split at hli
  case isTrue hs =>
    rw [codeOf, not_likely_checkSeq hs] at hli
    cases hli
  case isFalse hs =>
    obtain ⟨root, hr, heq⟩ := sequence_of_checkSeq (not_not.1 hs)
    refine ⟨root.balance, ?_⟩
    change (view.view.state.get (keylet.account tx.account)).map _ = some (tx.sequence.toNat, _)
    rw [hr, heq]
    rfl

end Engine

namespace TxQ

/-- The sequence of a queued transaction is not before the account's, and the queue has the
account's transactions for all sequences between the two. What the queue had of the account it still
has, whether the transaction is new or takes the place of another. -/
theorem queued_without_gaps (app : Application) (T : QueueTx → Transactor)
    (hT : ∀ tx, (T tx).NeverQueues) (consequences : QueueTx → TxConsequences) (setup : Setup)
    (calls : List (Call QueueView QueueTx)) (view : QueueView) (tx : QueueTx) (flags : ApplyFlags)
    (htx : (T tx).Sends tx.toSTTx) {root : AccountRoot} {applied : Bool}
    (hroot : view.view.state.get (keylet.account tx.account) = some root) :
    let E := Engine.ofTransactors app T consequences
    let q := run E (new setup) calls
    let after := q.apply E view tx flags
    after.result = .ok (.terQUEUED, applied) → root.sequence ≤ tx.sequence ∧
      (∀ s, root.sequence.toNat ≤ s → s < tx.sequence.toNat →
        ∃ m, after.queue.getTx (tx.account, s) = some m ∧
          m.txn.account = tx.account ∧ m.txn.sequence.toNat = s) ∧
      ∀ s, (after.queue.getTx (tx.account, s)).isSome =
        (decide (s = tx.sequence.toNat) || (q.getTx (tx.account, s)).isSome) := by
  intro E q after h
  have hli : Linked E after.queue :=
    (apply_applied q view tx flags).linked (run_spec (linked_new E setup) calls).1
  obtain ⟨c, rfl, hhe, a, _, hro', hle, hall⟩ := apply_queued
    (Engine.neverQueues_ofTransactors hT) q tx (Engine.sequenced_ofTransactors htx) flags h
  have ha : a = root.sequence.toNat := by
    change (view.view.state.get (keylet.account c.tx.account)).map _ = _ at hro'
    rw [hroot] at hro'
    exact (congrArg Prod.fst (Option.some.inj hro')).symm
  subst ha
  refine ⟨hle, fun s hs hlt => ?_, hhe⟩
  have hso : (after.queue.getTx (c.tx.account, s)).isSome = true := by
    refine (hhe s).trans ?_
    rw [hall s hs hlt, Bool.or_true]
  obtain ⟨m, hm⟩ := Option.isSome_iff_exists.1 hso
  exact ⟨m, hm, hli.keyed _ m hm⟩

namespace Crowded

def idle (_ : QueueTx) : Transactor where
  preflight := preflightWith fun _ => .ok .tesSUCCESS
  doApply _ _ t := .ok (.tesSUCCESS, t)

theorem idle_preflight (tx : QueueTx) :
    (idle tx).preflight = preflightWith fun _ => .ok .tesSUCCESS := rfl

theorem idle_neverQueues (tx : QueueTx) : (idle tx).NeverQueues where
  preflight := by
    rw [idle_preflight]
    exact preflightWith_ne fun _ => nofun
  preclaim _ := nofun
  doApply ctx v t r h := by
    cases h
    nofun

/-- An open ledger with three transactions; the next ones have to pay more. -/
def view : QueueView where
  view := FinPal.Sample.ledger [{ account := 2, sequence := 1, balance := 5000 }] false
  feeEscalation := true
  txs := List.replicate 3 { FinPal.Sample.tx 9 3 1 with }

def send (n : ℕ) (sequence : UInt32) : QueueTx := { FinPal.Sample.tx n 2 sequence with }

def limits : Setup := { minimumTxnInLedger := 2 }

def engine : Engine QueueView QueueTx QueueRules :=
  .ofTransactors FinPal.Sample.app idle fun _ => ⟨false, 10, 0⟩

end Crowded

open Crowded in
/-- Account 2 has a transaction in the queue, and the next one is held after it. -/
theorem queued_without_gaps_sample : let q := run engine (new limits) [.apply view (send 1 1) {}]
    let after := q.apply engine view (send 2 2) {}
    after.result = .ok (.terQUEUED, false) ∧
      ∃ m, after.queue.getTx (2, 1) = some m ∧ m.txn.account = 2 ∧ m.txn.sequence.toNat = 1 := by
  intro q after
  have hqu : after.result = .ok (.terQUEUED, false) := by decide +kernel
  have hg := queued_without_gaps FinPal.Sample.app idle idle_neverQueues
    (fun _ => ⟨false, 10, 0⟩) limits [.apply view (send 1 1) {}] view (send 2 2) {}
    (preflightWith_sends (idle_preflight _) _) rfl hqu
  exact ⟨hqu, hg.2.1 1 (by decide) (by decide)⟩

end TxQ
end FinPal
