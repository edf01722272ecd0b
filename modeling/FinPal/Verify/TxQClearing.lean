import FinPal.Verify.FeeEscalation
import FinPal.Verify.TxQStructure
import Mathlib.Order.Interval.Finset.Nat

/-!
# Clearing an account's queue

A new transaction may pay for those of its account that wait before it. They are applied to a
sandbox in turn and the new one after them; if all went well they leave the queue and the sandbox
goes into the view, else only retries are used.
-/

namespace FinPal.TxQ
open Std (TreeMap)
variable {View Tx Rules : Type} {E : Engine View Tx Rules}
  {q : TxQ Tx Rules} {c : Candidate Tx Rules}

variable [DecidableEq Rules]

/-- Transactions are applied to a view, one after the other. -/
inductive AppliesInTurn (E : Engine View Tx Rules) :
    List (ℕ × MaybeTx Tx Rules) → View → View → Prop
  | nil {view : View} : AppliesInTurn E [] view view
  | cons {s : ℕ} {m : MaybeTx Tx Rules} {rest : List (ℕ × MaybeTx Tx Rules)} {v v₁ v₂ : View}
    {ter : TER} (applied : m.apply E v = (ter, true, v₁)) (next : AppliesInTurn E rest v₁ v₂) :
    AppliesInTurn E ((s, m) :: rest) v v₂

/-- The transactions of an account from sequence `a` to before `t`, in order. -/
structure IsRange (q : TxQ Tx Rules) (account : AccountID) (a t : ℕ)
    (entries : List (ℕ × MaybeTx Tx Rules)) : Prop where
  mem_iff : ∀ s m, (s, m) ∈ entries ↔ a ≤ s ∧ s < t ∧ q.getTx (account, s) = some m
  ascending : Ascending entries

theorem Ascending.mem_takeWhile_lt {K V : Type} [LinearOrder K] {l : List (K × V)} {t : K}
    (h : Ascending l) {e : K × V} : e ∈ l.takeWhile (fun e => decide (e.1 < t)) ↔ e ∈ l ∧ e.1 < t := by
  induction l with
  | nil => simp
  | cons e' l ih =>
    obtain ⟨hlt, hl⟩ := List.pairwise_cons.1 h
    by_cases he' : e'.1 < t
    · rw [List.takeWhile_cons_of_pos (by simpa using he'), List.mem_cons, List.mem_cons, ih hl,
        or_and_right]
      exact or_congr_left (iff_self_and.2 fun heq => heq ▸ he')
    rw [List.takeWhile_cons_of_neg (by simpa using he')]
    refine ⟨nofun, fun ⟨hm, hlt'⟩ => ?_⟩
    rcases List.mem_cons.1 hm with rfl | hm
    · exact absurd hlt' he'
    · exact absurd ((hlt e hm).trans hlt') he'

omit [DecidableEq Rules] in
theorem isRange_entriesFrom {account : TxQAccount Tx Rules} {a t : ℕ}
    (hacc : q.getAccount (c.account E) = some account)
    (ha : (q.getTx (c.account E, a)).isSome = true) (hlt : a < t) :
    IsRange q (c.account E) a t ((entriesFrom account a).takeWhile fun e => decide (e.1 < t)) := by
  have hg (s) : q.getTx (c.account E, s) = account.transactions[s]? := by
    rw [getTx, hacc]
    rfl
  rw [hg] at ha
  obtain ⟨m0, hm0⟩ := Option.isSome_iff_exists.1 ha
  have hen : entriesFrom account a = (a, m0) :: upperBound account.transactions a := by
    unfold entriesFrom
    rw [hm0]
  have hasc : Ascending (entriesFrom account a) := by
    rw [hen]
    exact List.pairwise_cons.2
      ⟨fun e he => (mem_upperBound.1 he).2, ascending_upperBound account.transactions a⟩
  refine ⟨fun s m => ?_, hasc.sublist (List.takeWhile_sublist _)⟩
  rw [Ascending.mem_takeWhile_lt hasc, hg, hen, List.mem_cons, mem_upperBound, Prod.mk.injEq]
  constructor
  · rintro ⟨⟨rfl, rfl⟩ | ⟨hm, hs⟩, ht⟩
    · exact ⟨le_rfl, hlt, hm0⟩
    · exact ⟨hs.le, ht, hm⟩
  rintro ⟨hs, ht, hm⟩
  refine ⟨?_, ht⟩
  rcases hs.eq_or_lt with rfl | hs
  · exact .inl ⟨rfl, Option.mem_unique hm hm0⟩
  · exact .inr ⟨hm, hs⟩

omit [DecidableEq Rules] in
theorem IsRange.length_le {account : AccountID} {a t : ℕ} {entries : List (ℕ × MaybeTx Tx Rules)}
    (h : IsRange q account a t entries) : entries.length ≤ t - a := by
  have hno := List.pairwise_map.2 (h.ascending.imp fun hlt => hlt.ne)
  have hsub : (entries.map Prod.fst).toFinset ⊆ Finset.Ico a t := by
    intro s hs
    rw [List.mem_toFinset, List.mem_map] at hs
    obtain ⟨⟨s, m⟩, hm, rfl⟩ := hs
    obtain ⟨ha, ht, -⟩ := (h.mem_iff s m).1 hm
    exact Finset.mem_Ico.2 ⟨ha, ht⟩
  have hc := Finset.card_le_card hsub
  rwa [List.toFinset_card_of_nodup hno, List.length_map, Nat.card_Ico] at hc

theorem applyAll_spec (account : AccountID) (entries : List (ℕ × MaybeTx Tx Rules))
    (q : TxQ Tx Rules) (view : View) :
    (∀ r, ¬(r.1 = account ∧ r.2 ∈ entries.map Prod.fst) →
      (applyAll E account entries q view).1.getTx r = q.getTx r) ∧
    ∀ view', (applyAll E account entries q view).2 = .ok view' → AppliesInTurn E entries view view' := by
  induction entries generalizing q view with
  | nil =>
    refine ⟨fun _ _ => rfl, fun view' h => ?_⟩
    cases h
    exact .nil
  | cons entry rest ih =>
    obtain ⟨seq, m⟩ := entry
    unfold applyAll
    rcases ha : m.apply E view with ⟨_, didApply, view1⟩
    dsimp only
    generalize hq1 : q.modifyTx (account, seq) _ = q1
    have hot {r : Ref} (hr : ¬(r.1 = account ∧ r.2 ∈ seq :: rest.map Prod.fst)) :
        q1.getTx r = q.getTx r := by
      rw [← hq1, getTx_modifyTx, if_neg]
      rintro rfl
      exact hr ⟨rfl, List.mem_cons_self⟩
    cases didApply with
    | true =>
      obtain ⟨hg, hap⟩ := ih q1 view1
      refine ⟨fun r hr => ?_, fun view' h => .cons ha (hap view' h)⟩
      rw [if_pos rfl, hg r fun h => hr ⟨h.1, List.mem_cons_of_mem _ h.2⟩, hot hr]
    | false => exact ⟨fun r hr => hot hr, by simp⟩

omit [DecidableEq Rules] in
theorem getTx_eraseRange (q : TxQ Tx Rules) (account : AccountID) (seqs : List ℕ) (r : Ref) :
    (q.eraseRange account seqs).getTx r =
      if r.1 = account ∧ r.2 ∈ seqs then none else q.getTx r := by
  unfold eraseRange
  induction seqs generalizing q with
  | nil => simp
  | cons s seqs ih =>
    rw [List.foldl_cons, ih, getTx_erase]
    by_cases hs : r = (account, s)
    · simp [hs]
    · have hs' : r.1 = account → r.2 ≠ s := fun h h' => hs (Prod.ext h h')
      by_cases ha : r.1 = account <;> simp [hs, ha, hs']

/-- The places from `a` to `t` of an account are empty, others as before. -/
def Emptied (q : TxQ Tx Rules) (account : AccountID) (a t : ℕ) (q' : TxQ Tx Rules) : Prop :=
  ∀ r : Ref, q'.getTx r = if r.1 = account ∧ a ≤ r.2 ∧ r.2 ≤ t then none else q.getTx r

omit [DecidableEq Rules] in
theorem IsRange.emptied {a : ℕ} {entries : List (ℕ × MaybeTx Tx Rules)} {q1 : TxQ Tx Rules}
    (h : IsRange q (c.account E) a (c.tSeq E) entries) (hlt : a < c.tSeq E)
    (hg : ∀ r, ¬(r.1 = c.account E ∧ r.2 ∈ entries.map Prod.fst) → q1.getTx r = q.getTx r) :
    let q2 := q1.eraseRange (c.account E) (entries.map Prod.fst)
    Emptied q (c.account E) a (c.tSeq E)
      (if (q.getTx (c.ref E)).isSome = true then q2.erase (c.ref E) else q2) := by
  rintro q2 ⟨x, s⟩
  have hra : q2.getTx (x, s) =
      if x = c.account E ∧ s ∈ entries.map Prod.fst then none else q.getTx (x, s) := by
    rw [getTx_eraseRange]
    split
    · rfl
    case isFalse ho => exact hg (x, s) ho
  by_cases hx : x = c.account E
  · subst hx
    cases hs : q.getTx (c.account E, s) with
    | none => split <;> simp [getTx_erase, hra, hs]
    | some m =>
      have hm : s ∈ entries.map Prod.fst ↔ a ≤ s ∧ s < c.tSeq E := by
        rw [List.mem_map]
        refine ⟨?_, fun ⟨h1, h2⟩ => ⟨(s, m), (h.mem_iff s m).2 ⟨h1, h2, hs⟩, rfl⟩⟩
        rintro ⟨⟨s, m'⟩, he, rfl⟩
        obtain ⟨h1, h2, -⟩ := (h.mem_iff s m').1 he
        exact ⟨h1, h2⟩
      by_cases hst : s = c.tSeq E
      · subst hst
        rw [if_pos (show (q.getTx (c.ref E)).isSome = true by rw [Candidate.ref, hs]; rfl)]
        simp [getTx_erase, Candidate.ref, hlt.le]
      · have hle : s ≤ c.tSeq E ↔ s < c.tSeq E := by omega
        split <;> simp [getTx_erase, hra, hs, hm, hle, hst, Candidate.ref]
  · split <;> simp [getTx_erase, hra, hx, Candidate.ref]

/-! ### Levels -/

omit [DecidableEq Rules] in
theorem foldl_feeLevel_le (entries : List (ℕ × MaybeTx Tx Rules)) (paid : ℕ) :
    entries.foldl (fun total e => (total + e.2.feeLevel) % 2 ^ 64) paid ≤
      paid + (entries.map fun e => e.2.feeLevel).sum := by
  induction entries generalizing paid with
  | nil => simp
  | cons e entries ih =>
    rw [List.foldl_cons, List.map_cons, List.sum_cons]
    have hle := ih ((paid + e.2.feeLevel) % 2 ^ 64)
    have hmod := Nat.mod_le (paid + e.2.feeLevel) (2 ^ 64)
    omega

theorem FeeMetrics.seriesLevel_mono (m : FeeMetrics) {current current' n n' : ℕ}
    (hcur : current ≤ current') (hn : n ≤ n') :
    m.seriesLevel current n ≤ m.seriesLevel current' n' := by
  refine Nat.div_le_div_right (Nat.mul_le_mul_left _ ?_)
  calc ∑ i ∈ Finset.range n, (current + i) ^ 2
      ≤ ∑ i ∈ Finset.range n, (current' + i) ^ 2 :=
        Finset.sum_le_sum fun i _ => Nat.pow_le_pow_left (by omega) 2
    _ ≤ ∑ i ∈ Finset.range n', (current' + i) ^ 2 :=
        Finset.sum_le_sum_of_subset (Finset.range_subset_range.2 hn)

theorem FeeMetrics.escalated {m : FeeMetrics} {txCount level : ℕ}
    (h : m.scaleFeeLevel txCount = .ok level) (hle : baseLevel < level) :
    1 ≤ m.txnsExpected ∧ m.txnsExpected < txCount := by
  unfold scaleFeeLevel at h
  dsimp only at h
  split at h
  case isTrue hlt =>
    split at h
    · cases h
    case isFalse hta =>
      refine ⟨Nat.one_le_iff_ne_zero.2 fun hz => hta ?_, hlt⟩
      rw [hz]
      rfl
  case isFalse =>
    cases h
    exact absurd hle (lt_irrefl _)

/-- The levels paid, without wrapping, are at least those demanded in turn. -/
def PaysInTurn (m : FeeMetrics) (txCount n paid : ℕ) : Prop :=
  ∃ level : ℕ → ℕ, (∀ i < n, m.scaleFeeLevel (txCount + i) = .ok (level i)) ∧
    ∑ i ∈ Finset.range n, level i ≤ paid

theorem FeeMetrics.paysInTurn {m : FeeMetrics} {txCount current n n' paid level : ℕ}
    (hl : m.scaleFeeLevel txCount = .ok level) (hb : baseLevel < level)
    (hc : txCount ≤ current) (hn : n ≤ n') (hn' : 1 ≤ n') (hs : current + n' ≤ 2 ^ 64)
    (hok : (m.escalatedSeriesFeeLevel current n').1 = true)
    (hp : (m.escalatedSeriesFeeLevel current n').2 ≤ paid) : PaysInTurn m txCount n paid := by
  obtain ⟨he, hlt⟩ := FeeMetrics.escalated hl hb
  rw [escalatedSeriesFeeLevel_eq (hlt.trans_le hc) hn' hs] at hok hp
  split at hok
  case isTrue hf =>
    rw [if_pos hf] at hp
    obtain ⟨levels, hle, hsum⟩ := sum_scaleFeeLevel_le (n := n) he hlt (by omega)
    exact ⟨levels, hle, hsum.trans ((seriesLevel_mono m hc hn).trans hp)⟩
  case isFalse => cases hok

/-! ### The attempt -/

/-- The transactions before the new one were applied in turn, and it after them; they and one that
it replaces left the queue, others stay, and the levels paid are enough. -/
structure Clears (E : Engine View Tx Rules) (q : TxQ Tx Rules) (c : Candidate Tx Rules) (view : View)
    (a : ℕ) (q' : TxQ Tx Rules) (ter : TER) (sandbox : View)
    (entries : List (ℕ × MaybeTx Tx Rules)) : Prop where
  range : IsRange q (c.account E) a (c.tSeq E) entries
  applied : ∃ v, AppliesInTurn E entries (E.sandbox view) v ∧
    E.doApply (E.preclaim c.pfresult c.tx c.flags v) c.tx c.flags v = (ter, true, sandbox)
  queue : Emptied q (c.account E) a (c.tSeq E) q'
  paid : PaysInTurn q.feeMetrics (E.txCount view) (entries.length + 1)
    (c.feeLevelPaid + (entries.map fun e => e.2.feeLevel).sum)

theorem tryClearAccountQueue_clears {view : View} {a : ℕ} {q' : TxQ Tx Rules} {ter : TER}
    {sandbox : View} (ha : (q.getTx (c.account E, a)).isSome = true) (hlt : a < c.tSeq E)
    (hle : q.feeMetrics.scaleFeeLevel (E.txCount view) = .ok c.requiredFeeLevel)
    (hba : baseLevel < c.requiredFeeLevel)
    (hsi : E.txCount (E.sandbox view) + E.txCount view + (c.tSeq E - a + 1) ≤ 2 ^ 64)
    (h : q.tryClearAccountQueue E c (E.sandbox view) a (E.txCount view) = (q', some (ter, sandbox))) :
    ∃ entries, Clears E q c view a q' ter sandbox entries := by
  unfold tryClearAccountQueue at h
  split at h
  · cases h
  case h_2 account hacc =>
    have hra := isRange_entriesFrom hacc ha hlt
    dsimp only at h
    generalize (entriesFrom account a).takeWhile (fun e => decide (e.1 < c.tSeq E)) = entries
      at hra h
    split at h
    · cases h
    case isFalse hpa =>
      rw [not_or, Bool.not_eq_true', Bool.not_eq_false, not_lt] at hpa
      obtain ⟨hg, hap⟩ := applyAll_spec (c.account E) entries q (E.sandbox view)
      generalize applyAll E (c.account E) entries q (E.sandbox view) = r at hg hap h
      obtain ⟨_, _ | v⟩ := r
      · cases h
      dsimp only at hg hap h
      rcases hdo : E.doApply (E.preclaim c.pfresult c.tx c.flags v) c.tx c.flags v with
        ⟨ter', didApply, sandbox'⟩
      rw [hdo] at h
      cases didApply with
      | false => cases h
      | true =>
        cases h
        refine ⟨entries, hra, ⟨v, hap v rfl, hdo⟩, ?_, ?_⟩
        · have hpl : (account.transactions[c.tSeq E]?).isSome = (q.getTx (c.ref E)).isSome := by
            rw [getTx, show (c.ref E).1 = c.account E from rfl, hacc]
            rfl
          rw [hpl]
          exact hra.emptied hlt hg
        refine FeeMetrics.paysInTurn hle hba (Nat.le_add_left _ _) ?_ (Nat.le_add_left 1 _)
          hsi hpa.1 (hpa.2.trans (foldl_feeLevel_le entries _))
        have := hra.length_le
        omega

/-! ### The call -/

omit [DecidableEq Rules] in
theorem findReplacement_feeMetrics (q : TxQ Tx Rules) (c : Candidate Tx Rules) :
    (q.findReplacement E c).1.feeMetrics = q.feeMetrics := by
  unfold findReplacement
  dsimp only
  repeat' split
  all_goals rfl

/-- What `apply` finds before it tries to clear the account's queue. -/
structure TriesToClear (E : Engine View Tx Rules) (q : TxQ Tx Rules) (c : Candidate Tx Rules)
    (view : View) (q' : TxQ Tx Rules) (rep : Replacement) (multi : MultiTxn) (testView : View) :
    Prop where
  enabled : E.feeEscalation (E.rules view) = true
  preflight : c.pfresult = E.preflightResult c.tx c.flags view ∧ c.pfresult.ter = .tesSUCCESS
  feeLevelPaid : c.feeLevelPaid = E.feeLevelPaid q.setup view c.tx
  requiredFeeLevel : q.feeMetrics.scaleFeeLevel (E.txCount view) = .ok c.requiredFeeLevel
  replacement : (q.findReplacement E c).2 = .ok rep
  multiTxn : (q.findReplacement E c).1.findMultiTxn E c view rep.deleteRef =
    (q', .ok (some (multi, testView)))
  preclaim : Engine.likelyToClaimFee (E.preclaim c.pfresult c.tx c.flags testView) = true
  worth : q'.worthClearing E c multi.nextSeq view = true

theorem TriesToClear.apply_eq {view testView : View} {q' : TxQ Tx Rules} {rep : Replacement}
    {multi : MultiTxn} (h : TriesToClear E q c view q' rep multi testView) :
    q.apply E view c.tx c.flags = q'.applyChecked E c rep (some (multi, testView)) view := by
  obtain ⟨_, _, _, _, _⟩ := c
  obtain ⟨hen, ⟨hpf, ht⟩, hp, hle, hr, hmu, -, -⟩ := h
  dsimp only at hpf ht hp hle
  subst hpf hp
  unfold apply
  rw [hen, if_neg (by simp), if_neg (by simpa using ht), hle]
  dsimp only
  rcases hf : q.findReplacement E _ with ⟨_, _⟩
  rw [hf] at hr hmu
  cases hr
  dsimp only at hmu ⊢
  rw [hmu]

/-- `apply` tries to clear the account's queue from sequence `multi.nextSeq` for a new transaction.
Either the view gets what the sandbox has, or the queue holds the same transactions and `apply` goes
on to hold the new one with the view as it was. (The numbers of transactions fit in 64 bits.) -/
theorem queue_clearing {view testView : View} {q' : TxQ Tx Rules} {rep : Replacement}
    {multi : MultiTxn} (h : TriesToClear E q c view q' rep multi testView)
    (hsize : E.txCount (E.sandbox view) + E.txCount view + (c.tSeq E - multi.nextSeq + 1) ≤ 2 ^ 64) :
    let ended := q.apply E view c.tx c.flags
    SameLinks q q' ∧
    ((∃ ter sandbox entries, Clears E q' c view multi.nextSeq ended.queue ter sandbox entries ∧
        ended.view = E.applySandbox sandbox view ∧ ended.result = .ok (ter, true)) ∨
      ∃ q'', SameLinks q q'' ∧ ended.view = view ∧
        ended = q''.applyOrHold E c rep true
          (E.preclaim c.pfresult c.tx c.flags testView) view) := by
  obtain ⟨hsa, hme, -, hne⟩ :=
    findMultiTxn_spec (q.findReplacement E c).1 c view rep.deleteRef
  rw [h.multiTxn] at hsa hme hne
  rw [findReplacement_feeMetrics] at hme
  have hli : SameLinks q q' := (findReplacement_spec q c).1.trans hsa
  have hwo := h.worth
  unfold worthClearing at hwo
  simp only [Bool.and_eq_true, decide_eq_true_eq] at hwo
  obtain ⟨⟨⟨hfi, -⟩, hba⟩, -⟩ := hwo
  have ha := ((Option.any_eq_true_iff_get _ _).1 hfi).fst
  have hle := h.requiredFeeLevel
  rw [← hme] at hle
  have hsp := (tryClearAccountQueue_spec (E := E) q' c (E.sandbox view) multi.nextSeq
    (E.txCount view)).2
  refine ⟨hli, ?_⟩
  rw [h.apply_eq]
  unfold applyChecked
  dsimp only
  rw [Option.map_some, Option.getD_some, h.preclaim, if_pos h.worth]
  rcases hc : q'.tryClearAccountQueue E c (E.sandbox view) multi.nextSeq (E.txCount view) with
    ⟨q2, _ | ⟨ter, sandbox⟩⟩
  · rw [hc] at hsp
    exact .inr ⟨q2, hli.trans (hsp rfl), rfl, rfl⟩
  have hlt : multi.nextSeq < c.tSeq E := (hne _ rfl).2
  obtain ⟨entries, hcl⟩ := tryClearAccountQueue_clears ha hlt hle hba hsize hc
  exact .inl ⟨ter, sandbox, entries, hcl, rfl, rfl⟩

namespace Queues

/-- Account 5 has a transaction in the queue. -/
def queued : TxQ (AccountID × ℕ × ℕ) Unit := run engine (new {}) [.apply () (5, 1, 300) {}]

/-- The next one of account 5, which pays for both. -/
def clearing : Candidate (AccountID × ℕ × ℕ) Unit :=
  ⟨(5, 2, 5000000), {}, engine.preflightResult (5, 2, 5000000) {} (),
    engine.feeLevelPaid queued.setup () (5, 2, 5000000),
    (queued.feeMetrics.scaleFeeLevel 600).toOption.getD 0⟩

end Queues

open Queues in
theorem queue_clearing_sample :
    let ended := queued.apply engine () clearing.tx clearing.flags
    let q' := ((queued.findReplacement engine clearing).1.findMultiTxn engine clearing () none).1
    queued.byFee = [(5, 1)] ∧ ended.queue.byFee = [] ∧
    SameLinks queued q' ∧
    ((∃ ter sandbox entries, Clears engine q' clearing () 1 ended.queue ter sandbox entries ∧
        ended.view = engine.applySandbox sandbox () ∧ ended.result = .ok (ter, true)) ∨
      ∃ q'', SameLinks queued q'' ∧ ended.view = () ∧
        ended = q''.applyOrHold engine clearing {} true
          (engine.preclaim clearing.pfresult clearing.tx clearing.flags ()) ()) :=
  ⟨by decide, by decide,
    queue_clearing
      (show TriesToClear engine queued clearing () _ {} { nextSeq := 1, fee := 300 } () from
        ⟨rfl, ⟨rfl, rfl⟩, rfl, by decide, rfl, Prod.ext rfl rfl, by decide, by decide⟩)
      (by decide)⟩

end FinPal.TxQ
