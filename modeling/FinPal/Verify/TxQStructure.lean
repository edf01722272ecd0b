import FinPal.Verify.TxQLinks

/-!
# The structure of the transaction queue

`apply`, `accept` and `processClosedLedger` keep the links between the two sides of the queue, and
`apply` keeps its limits: at its end one transaction is added, and nothing else adds any.
-/

namespace FinPal.TxQ
open Std (TreeMap)
variable {View Tx Rules : Type} {E : Engine View Tx Rules}
  {q q' q'' : TxQ Tx Rules} {r : Ref} {c : Candidate Tx Rules} {n : ℕ} {rep : Replacement}

/-! ### The parts of `apply` -/

theorem findReplacement_spec (q : TxQ Tx Rules) (c : Candidate Tx Rules) :
    SameLinks q (q.findReplacement E c).1 ∧
      ∀ rep, (q.findReplacement E c).2 = .ok rep → Replaces E q c rep.deleteRef := by
  unfold findReplacement
  cases ha : q.getAccount (c.account E) with
  | none =>
    refine ⟨.refl q, fun rep hr => ?_⟩
    cases hr
    refine replaces_none ?_
    rw [getTx, Candidate.ref, ha]
    rfl
  | some txQAcct =>
    have hg : q.getTx (c.ref E) = txQAcct.transactions[c.tSeq E]? := by
      rw [getTx, Candidate.ref, ha]
      rfl
    dsimp only
    rw [← hg]
    cases hex : q.getTx (c.ref E) with
    | none =>
      refine ⟨.refl q, fun rep hr => ?_⟩
      cases hr
      exact replaces_none hex
    | some _ =>
      have hre := replaces_ref hex
      have hca := SameLinks.cacheConsequences E q (c.ref E)
      dsimp only
      split
      · exact ⟨.refl q, by simp⟩
      split
      · refine ⟨.refl q, fun rep hr => ?_⟩
        cases hr
        exact hre
      split
      · refine ⟨hca, fun rep hr => ?_⟩
        cases hr
        exact hre
      split
      · exact ⟨hca, by simp⟩
      refine ⟨hca, fun rep hr => ?_⟩
      cases hr
      exact hre

theorem multiTxnLoop_spec (c : Candidate Tx Rules) (entries : List (ℕ × MaybeTx Tx Rules))
    (workingSeq : ℕ) (multi : MultiTxn) (q : TxQ Tx Rules) :
    SameLinks q (multiTxnLoop E c entries workingSeq multi q).1 ∧
      (multiTxnLoop E c entries workingSeq multi q).1.feeMetrics = q.feeMetrics ∧
      (multiTxnLoop E c entries workingSeq multi q).2 ≠ .error .terQUEUED ∧
      ∀ multi', (multiTxnLoop E c entries workingSeq multi q).2 = .ok (some multi') →
        multi'.nextSeq = multi.nextSeq := by
  induction entries generalizing workingSeq multi q with
  | nil =>
    refine ⟨.refl q, rfl, nofun, fun multi' h => ?_⟩
    unfold multiTxnLoop at h
    split at h
    · cases h
    · cases h
      rfl
  | cons _ _ ih =>
    unfold multiTxnLoop
    dsimp only
    split_ifs
    · exact ⟨.refl q, rfl, nofun, nofun⟩
    · exact ⟨.refl q, rfl, nofun, nofun⟩
    · exact ih ..
    · exact ⟨.cacheConsequences E q _, rfl, nofun, nofun⟩
    · obtain ⟨hsa, hre⟩ := ih (workingSeq + 1) _ _
      exact ⟨(SameLinks.cacheConsequences E q _).trans hsa, hre⟩

theorem findMultiTxn_spec (q : TxQ Tx Rules) (c : Candidate Tx Rules) (view : View)
    (deleteRef : Option Ref) :
    SameLinks q (q.findMultiTxn E c view deleteRef).1 ∧
      (q.findMultiTxn E c view deleteRef).1.feeMetrics = q.feeMetrics ∧
      (q.findMultiTxn E c view deleteRef).2 ≠ .error .terQUEUED ∧
      ∀ multi, (q.findMultiTxn E c view deleteRef).2 = .ok (some multi) →
        Room E q c deleteRef ∧ multi.1.nextSeq < c.tSeq E := by
  unfold findMultiTxn
  split
  case h_2 => exact ⟨.refl q, rfl, nofun, nofun⟩
  case h_1 txQAcct aSeq balance ha hroot =>
    split
    case isFalse => exact ⟨.refl q, rfl, nofun, nofun⟩
    case isTrue hhe =>
      rw [← ha] at hhe
      have hro := room_of_canBeHeld view hhe.2
      obtain ⟨hsa, hme, hne, hn⟩ := multiTxnLoop_spec c
        (entriesFrom txQAcct aSeq) aSeq { nextSeq := aSeq } q
      generalize multiTxnLoop E c (entriesFrom txQAcct aSeq) aSeq { nextSeq := aSeq } q = r
        at hsa hme hne hn
      obtain ⟨_, _ | _ | multi⟩ := r
      · exact ⟨hsa, hme, fun h => hne (congrArg Except.error (Except.error.inj h)), nofun⟩
      · exact ⟨hsa, hme, nofun, nofun⟩
      dsimp only at hsa ⊢
      generalize multi.fee + (if multi.includeCurrentFee = true then E.fee c.tx else 0) = totalFee
      split
      · exact ⟨hsa, hme, nofun, nofun⟩
      refine ⟨hsa, hme, nofun, fun multi' h => ⟨hro, ?_⟩⟩
      cases h
      rw [hn multi rfl]
      exact hhe.1

variable [DecidableEq Rules]

theorem refresh_links (m : MaybeTx Tx Rules) (view : View) :
    (m.refresh E view).txn = m.txn ∧ (m.refresh E view).feeLevel = m.feeLevel := by
  unfold MaybeTx.refresh
  split <;> exact ⟨rfl, rfl⟩

theorem SameLinks.applyAll (account : AccountID) (entries : List (ℕ × MaybeTx Tx Rules))
    (q : TxQ Tx Rules) (view : View) : SameLinks q (applyAll E account entries q view).1 := by
  induction entries generalizing q view with
  | nil => exact .refl q
  | cons entry _ ih =>
    obtain ⟨seq, m⟩ := entry
    unfold TxQ.applyAll
    dsimp only
    have hmo : SameLinks q (q.modifyTx (account, seq) fun m =>
        { m.refresh E view with retriesRemaining := m.retriesRemaining - 1 }) :=
      modifyTx q _ fun m => refresh_links m view
    split
    · exact hmo.trans (ih _ _)
    · exact hmo

theorem tryClearAccountQueue_spec (q : TxQ Tx Rules) (c : Candidate Tx Rules) (sandbox : View)
    (aSeq txExtraCount : ℕ) :
    Reduced E q (q.tryClearAccountQueue E c sandbox aSeq txExtraCount).1 ∧
      ((q.tryClearAccountQueue E c sandbox aSeq txExtraCount).2 = none →
        SameLinks q (q.tryClearAccountQueue E c sandbox aSeq txExtraCount).1) := by
  unfold tryClearAccountQueue
  split
  case h_1 => exact ⟨.refl q, fun _ => .refl q⟩
  case h_2 txQAcct hacc =>
    dsimp only
    generalize (entriesFrom txQAcct aSeq).takeWhile (fun e => decide (e.1 < c.tSeq E)) = entries
    split
    case isTrue => exact ⟨.refl q, fun _ => .refl q⟩
    case isFalse =>
      have hsa := SameLinks.applyAll (E := E) (c.account E) entries q sandbox
      generalize applyAll E (c.account E) entries q sandbox = r at hsa
      obtain ⟨q', _ | _⟩ := r
      · exact ⟨hsa.reduced, fun _ => hsa⟩
      dsimp only at hsa ⊢
      split
      case isFalse => exact ⟨hsa.reduced, fun _ => hsa⟩
      case isTrue =>
        have hra : Reduced E q' (q'.eraseRange (c.account E) (entries.map Prod.fst)) :=
          .eraseRange q' _ _
        refine ⟨hsa.reduced.trans (hra.trans ?_), nofun⟩
        dsimp only
        split
        · exact .erase _ _
        · exact .refl _

omit [DecidableEq Rules] in
theorem makeRoom_spec (q : TxQ Tx Rules) (c : Candidate Tx Rules) :
    (∃ r, r.1 ≠ c.account E ∧ (q.getTx r).isSome = true ∧ q.makeRoom E c = (q.erase r, .ok none)) ∨
      (q.makeRoom E c).1 = q ∧ (q.makeRoom E c).2 ≠ .ok none := by
  unfold makeRoom
  split
  · exact .inr ⟨rfl, by simp⟩
  split
  · exact .inr ⟨rfl, by simp⟩
  case isFalse last _ hne =>
  split
  · exact .inr ⟨rfl, by simp⟩
  case h_2 endAccount ha =>
  split
  · split
    · exact .inr ⟨rfl, by simp⟩
    case h_2 dropSeq hdr =>
      refine .inl ⟨(last.1, dropSeq), hne, ?_, rfl⟩
      have hm := (TreeMap.maxKey?_eq_some_iff_mem_and_forall.1 hdr).1
      rw [getTx, ha]
      exact TreeMap.mem_iff_isSome_getElem?.1 hm
  · exact .inr ⟨rfl, by simp⟩

omit [DecidableEq Rules] in
/-- A transaction of another account goes: room and replacement stay. -/
theorem getAccount_erase_of_ne {a : AccountID} (h : a ≠ r.1) :
    (q.erase r).getAccount a = q.getAccount a := by
  change (q.modifyAccount r.1 _).getAccount a = _
  rw [getAccount_modifyAccount, if_neg h]

omit [DecidableEq Rules] in
theorem applyHeld_applied (hr : Replaces E q c rep.deleteRef)
    (hro : Room E q c rep.deleteRef) : Applied E q (q.applyHeld E c rep).1 := by
  unfold applyHeld
  split
  case isFalse hfu =>
    refine ⟨?_, fun hq => (hold_spec hq hr (n := 0)).1, fun hq hm hc => ?_,
      fun hq hiF => ?_⟩
    · unfold hold
      split <;> rfl
    · exact (hold_spec hq hr).2.2 hm hc rfl hro
    have hso : rep.deleteRef.isSome = true := by
      rw [Option.isSome_iff_ne_none]
      intro hno
      exact hfu ⟨by rw [hno]; rfl, hiF⟩
    have hl := (hold_spec hq hr (n := 0)).2.1
    rw [if_pos hso] at hl
    exact hl.le
  case isTrue hno =>
    obtain ⟨r, hne, hso, heq⟩ | ⟨hsa, hre⟩ := makeRoom_spec q c
    · -- One of another account's transactions goes, and this one comes.
      rw [heq]
      dsimp only
      have ha : (q.erase r).getAccount (c.account E) = q.getAccount (c.account E) :=
        getAccount_erase_of_ne (Ne.symm hne)
      have hr' : Replaces E (q.erase r) c rep.deleteRef := by
        unfold Replaces getTx Candidate.ref
        rw [ha]
        exact hr
      have hro' : Room E (q.erase r) c rep.deleteRef := by
        unfold Room
        rw [ha]
        exact hro
      have her : Reduced E q (q.erase r) := .erase q r
      refine ⟨?_, fun hq => (hold_spec (her.linked hq) hr' (n := 0)).1, fun hq hm hc => ?_,
        fun hq _ => ?_⟩
      · unfold hold
        split <;> rfl
      · exact (hold_spec (her.linked hq) hr').2.2 hm (her.capped _ hc) rfl hro'
      have hl := (hold_spec (her.linked hq) hr' (n := 0)).2.1
      have hone := length_erase_add_one hq hso
      split at hl <;> omega
    generalize q.makeRoom E c = r at hsa hre
    obtain ⟨_, _ | _ | _⟩ := r
    · rw [← hsa]
      exact (Reduced.refl _).applied
    · exact absurd rfl hre
    · rw [← hsa]
      exact (Reduced.refl _).applied

omit [DecidableEq Rules] in
theorem applyOrHold_applied (hrep : Replaces E q c rep.deleteRef) {multi : Bool}
    (hr : multi = true → Room E q c rep.deleteRef) (preclaimResult : TER) (view : View) :
    Applied E q (q.applyOrHold E c rep multi preclaimResult view).queue := by
  unfold applyOrHold
  split
  · dsimp only
    split
    · split
      · exact (Reduced.erase q _).applied
      · exact (Reduced.refl q).applied
    · exact (Reduced.refl q).applied
  split
  · exact (Reduced.refl q).applied
  case isFalse hh =>
    refine applyHeld_applied hrep ?_
    cases multi with
    | true => exact hr rfl
    | false => exact room_of_canBeHeld view (by simpa using hh)

theorem applyChecked_applied (hr : Replaces E q c rep.deleteRef)
    {multi : Option (MultiTxn × View)} (hro : multi.isSome = true → Room E q c rep.deleteRef)
    (view : View) : Applied E q (q.applyChecked E c rep multi view).queue := by
  unfold applyChecked
  dsimp only
  split
  · exact (Reduced.refl q).applied
  obtain _ | ⟨m, _⟩ := multi
  · exact applyOrHold_applied hr (fun h => by cases h) _ view
  dsimp only
  split
  · obtain ⟨hre, hsa⟩ := tryClearAccountQueue_spec q c (E.sandbox view) m.nextSeq
      (E.txCount view)
    generalize q.tryClearAccountQueue E c (E.sandbox view) m.nextSeq (E.txCount view) = r
      at hre hsa
    obtain ⟨q', _ | ⟨_, _⟩⟩ := r
    · have hsa : SameLinks q q' := hsa rfl
      exact .after hsa (applyOrHold_applied (hr.same hsa)
        (fun _ => (hro rfl).same hsa) _ view)
    · exact hre.applied
  · exact applyOrHold_applied hr (fun _ => hro rfl) _ view

theorem apply_applied (q : TxQ Tx Rules) (view : View) (tx : Tx) (flags : ApplyFlags) :
    Applied E q (q.apply E view tx flags).queue := by
  unfold apply
  dsimp only
  split
  · exact (Reduced.refl q).applied
  split
  · exact (Reduced.refl q).applied
  split
  · exact (Reduced.refl q).applied
  case h_2 requiredFeeLevel _ =>
    generalize (⟨tx, flags, E.preflightResult tx flags view, E.feeLevelPaid q.setup view tx,
      requiredFeeLevel⟩ : Candidate Tx Rules) = c
    obtain ⟨hsa, hr⟩ := findReplacement_spec q c
    generalize q.findReplacement E c = r at hsa hr
    obtain ⟨q1, ter | rep⟩ := r
    · exact hsa.reduced.applied
    have hr1 := (hr rep rfl).same hsa
    obtain ⟨hsa2, -, -, hro⟩ := findMultiTxn_spec q1 c view rep.deleteRef
    dsimp only
    generalize q1.findMultiTxn E c view rep.deleteRef = r at hsa2 hro
    obtain ⟨_, ter | _⟩ := r
    · exact (hsa.trans hsa2).reduced.applied
    refine .after (hsa.trans hsa2) (applyChecked_applied (hr1.same hsa2) ?_ view)
    intro hso
    obtain ⟨m, rfl⟩ := Option.isSome_iff_exists.1 hso
    exact (hro m rfl).1.same hsa2

/-! ### Closed ledgers -/

omit [DecidableEq Rules] in
theorem Reduced.expire (ledgerSeq : UInt32) (q : TxQ Tx Rules) (r : Ref) :
    Reduced E q (expire ledgerSeq q r) := by
  unfold TxQ.expire
  split
  · have hd : SameLinks q (q.modifyAccount r.1 fun a => { a with dropPenalty := true }) :=
      .modifyAccount q r.1 fun _ => rfl
    exact hd.reduced.trans (.erase _ r)
  · exact .refl q

omit [DecidableEq Rules] in
theorem Reduced.dropEmpty (q : TxQ Tx Rules) : Reduced E q q.dropEmpty := by
  have hacc (a) :
      q.dropEmpty.getAccount a = (q.getAccount a).filter fun a => !a.transactions.isEmpty := by
    unfold TxQ.dropEmpty getAccount
    rw [TreeMap.getElem?_filter]
    exact Option.pfilter_eq_filter
  have hg (r) : q.dropEmpty.getTx r = q.getTx r := by
    unfold getTx
    rw [hacc]
    cases q.getAccount r.1 with
    | none => rfl
    | some account =>
      cases hem : account.transactions.isEmpty with
      | true =>
        have hno : account.transactions[r.2]? = none := TreeMap.getElem?_of_isEmpty hem
        simp [hem, hno]
      | false => simp [Option.filter, hem]
  refine ⟨rfl, fun hq => ⟨?_, ?_⟩, le_rfl, fun n hq a account ha => ?_⟩
  · exact hq.index.congr fun r => by rw [hg]
  · intro r m hm
    rw [hg] at hm
    exact hq.keyed r m hm
  · rw [hacc] at ha
    exact hq a account (Option.filter_eq_some_iff.1 ha).1

omit [DecidableEq Rules] in
theorem processClosedLedger_reduced (q : TxQ Tx Rules) (view : View) (timeLeap : Bool) :
    Reduced E q (q.processClosedLedger E view timeLeap) := by
  unfold processClosedLedger
  split
  · exact .refl q
  dsimp only
  generalize q.feeMetrics.update ((E.txs view).map (E.feeLevelPaid q.setup view)) timeLeap = metrics
  generalize (if timeLeap = true then q.maxSize
    else some (metrics.txnsExpected * q.setup.ledgersInQueue % 2 ^ 64)) = maxSize
  have hli : Reduced E q { q with feeMetrics := metrics, maxSize := maxSize } :=
    ⟨rfl, fun hq => ⟨hq.index, hq.keyed⟩, le_rfl, fun _ hq => hq⟩
  exact hli.trans ((Reduced.foldl (Reduced.expire _) _ _).trans (.dropEmpty _))

/-! ### Filling the open ledger -/

omit [DecidableEq Rules] in
/-- The transaction tried again is only changed; the account's last one may go. -/
theorem keepForRetry_cases (q : TxQ Tx Rules) (r : Ref) (account : TxQAccount Tx Rules) :
    let q1 := q.modifyTx r fun m => m.useRetry account.retryPenalty
    q.keepForRetry r account = q1 ∨
      ∃ s, account.transactions.maxKey? = some s ∧ 1 < account.transactions.size ∧
        q.keepForRetry r account = q1.erase (r.1, s) := by
  dsimp only
  unfold keepForRetry
  dsimp only
  split
  case isTrue hd =>
    split
    case h_1 s hs => exact .inr ⟨s, hs, hd.2.1, rfl⟩
    case h_2 => exact .inl rfl
  case isFalse => exact .inl rfl

/-- A turn that goes on has taken something away, or moves on. -/
def Advances (E : Engine View Tx Rules) (q : TxQ Tx Rules) (r : Ref) (q' : TxQ Tx Rules)
    (next : Option Ref) : Prop :=
  Reduced E q q' ∧ (Linked E q → q'.byFee.length < q.byFee.length ∨
    q'.byFee = q.byFee ∧ next = nextKey q.byFee r)

omit [DecidableEq Rules] in
theorem advances_erase (hs : SameLinks q q') (hr : (q.getTx r).isSome = true) (r' : Ref)
    (next : Option Ref) : Advances E q r' (q'.erase r) next := by
  refine ⟨hs.reduced.trans (.erase q' r), fun hq => .inl ?_⟩
  rw [← hs.isSome_getTx] at hr
  have hl := length_erase_add_one (hs.linked hq) hr
  rw [hs.byFee] at hl
  omega

/-- What one turn of `accept` does to the queue. -/
def Turn (E : Engine View Tx Rules) (q : TxQ Tx Rules) (r : Ref) : AcceptStep View Tx Rules → Prop
  | .stop q' _ _ => q' = q
  | .goOn q' _ _ next _ => (q.getTx r).isSome = true ∧ Advances E q r q' next

theorem acceptOne_spec (q : TxQ Tx Rules) (view : View) (ledgerChanged : Bool) (r : Ref) :
    Turn E q r (q.acceptOne E view ledgerChanged r) := by
  unfold acceptOne
  split
  case h_2 => rfl
  case h_1 account m ha hm =>
  have hr : (q.getTx r).isSome = true := by rw [hm]; rfl
  split
  · exact ⟨hr, .refl q, fun _ => .inr ⟨rfl, rfl⟩⟩
  split
  · rfl
  split
  case isFalse => rfl
  case isTrue =>
  have hre : SameLinks q (q.modifyTx r fun m => m.refresh E view) :=
    .modifyTx q r fun m => refresh_links m view
  dsimp only
  generalize q.modifyTx r (fun m => m.refresh E view) = q1 at hre
  split
  · exact ⟨hr, advances_erase hre hr r _⟩
  split
  · have hgi : SameLinks q1 (q1.giveUp r m.retriesRemaining) :=
      .modifyAccount q1 r.1 fun a => by split <;> rfl
    exact ⟨hr, advances_erase (hre.trans hgi) hr r _⟩
  have hret : SameLinks q1 (q1.modifyTx r fun m => m.useRetry account.retryPenalty) :=
    .modifyTx q1 r fun _ => ⟨rfl, rfl⟩
  refine ⟨hr, ?_⟩
  obtain hke | ⟨s, hs, -, hke⟩ := keepForRetry_cases q1 r account
  · rw [hke]
    have hsa := hre.trans hret
    refine ⟨hsa.reduced, fun _ => .inr ⟨hsa.byFee, ?_⟩⟩
    rw [hsa.byFee]
  rw [hke]
  refine advances_erase (hre.trans hret) ?_ r _
  have hmem := (TreeMap.maxKey?_eq_some_iff_mem_and_forall.1 hs).1
  rw [getTx, ha]
  exact TreeMap.mem_iff_isSome_getElem?.1 hmem

/-- How much `accept` has before it at a place. -/
def turnsLeft (q : TxQ Tx Rules) (place : Option Ref) : ℕ :=
  q.byFee.length * (q.byFee.length + 1) + remaining q.byFee place

omit [DecidableEq Rules] in
theorem Advances.turnsLeft_lt {next : Option Ref} (hq : Linked E q) (hr : (q.getTx r).isSome = true)
    (h : Advances E q r q' next) : turnsLeft q' next < turnsLeft q (some r) := by
  unfold turnsLeft
  obtain hlt | ⟨hbF, hn⟩ := h.2 hq
  · have hrem := remaining_le q'.byFee next
    have hmul : (q'.byFee.length + 1) * (q'.byFee.length + 2) ≤
        q.byFee.length * (q.byFee.length + 1) := Nat.mul_le_mul hlt (by omega)
    have hex : (q'.byFee.length + 1) * (q'.byFee.length + 2) =
        q'.byFee.length * (q'.byFee.length + 1) + 2 * (q'.byFee.length + 1) := by ring
    omega
  rw [hbF, hn]
  have hlt := remaining_nextKey_lt hq.index.nodup (hq.mem_byFee.2 hr)
  omega

/-- With enough turns the loop ends, and has only removed transactions. -/
theorem acceptLoop_spec (hq : Linked E q) (view : View) (ledgerChanged : Bool)
    (place : Option Ref) {turns : ℕ} (htu : turnsLeft q place < turns) :
    ∃ ended, acceptLoop E turns q view ledgerChanged place = some ended ∧
      Reduced E q ended.queue := by
  induction turns generalizing q view ledgerChanged place with
  | zero => omega
  | succ turns ih =>
    cases place with
    | none => exact ⟨_, rfl, .refl q⟩
    | some r =>
      have hsp := acceptOne_spec (E := E) q view ledgerChanged r
      unfold acceptLoop
      generalize q.acceptOne E view ledgerChanged r = step at hsp
      cases step with
      | stop q' view' _ =>
        have hsa : q' = q := hsp
        rw [hsa]
        exact ⟨_, rfl, .refl q⟩
      | goOn q' view' ledgerChanged' next _ =>
        obtain ⟨hr, had⟩ : (q.getTx r).isSome = _ ∧ Advances E q r q' next := hsp
        have hlt := had.turnsLeft_lt hq hr
        obtain ⟨ended, hen, hre⟩ := ih (had.1.linked hq) view' ledgerChanged' next
          (by omega)
        exact ⟨ended, hen, had.1.trans hre⟩

theorem accept_spec (hq : Linked E q) (view : View) :
    ∃ ended, q.accept E view = some ended ∧ Reduced E q ended.queue := by
  unfold accept
  split
  · exact ⟨_, rfl, .refl q⟩
  refine acceptLoop_spec hq view false _ ?_
  have hrem := remaining_le q.byFee q.byFee.head?
  unfold turnsLeft acceptTurns
  omega

/-! ### Histories -/

theorem step_applied (hq : Linked E q) (call : Call View Tx) : Applied E q (q.step E call) := by
  cases call with
  | apply view tx flags => exact apply_applied q view tx flags
  | accept view =>
    obtain ⟨_, hen, hre⟩ := accept_spec hq view
    unfold step
    dsimp only
    rw [hen]
    exact hre.applied
  | processClosedLedger view timeLeap => exact (processClosedLedger_reduced q view timeLeap).applied

omit [DecidableEq Rules] in
theorem linked_new (E : Engine View Tx Rules) (setup : Setup) : Linked E (new setup) := by
  have hg (r) : (new setup : TxQ Tx Rules).getTx r = none := by simp [getTx, getAccount, new]
  refine ⟨.nil hg, fun r m hm => ?_⟩
  cases hm

omit [DecidableEq Rules] in
theorem capped_new (setup : Setup) : Capped n (new setup : TxQ Tx Rules) := by
  intro a _ ha
  simp [getAccount, new] at ha

theorem run_spec (hq : Linked E q) (calls : List (Call View Tx)) : Linked E (q.run E calls) ∧
      (1 ≤ q.setup.maximumTxnPerAccount → Capped q.setup.maximumTxnPerAccount q →
        Capped q.setup.maximumTxnPerAccount (q.run E calls)) := by
  induction calls generalizing q with
  | nil => exact ⟨hq, fun _ hc => hc⟩
  | cons call calls ih =>
    have hs := step_applied hq call
    obtain ⟨hli, hca⟩ := ih (hs.linked hq)
    refine ⟨hli, fun hm hc => ?_⟩
    rw [hs.setup] at hca
    exact hca hm (hs.capped hq hm hc)

omit [DecidableEq Rules] in
theorem Linked.nodup_sequences (hq : Linked E q) {a : AccountID} {account : TxQAccount Tx Rules}
    (ha : q.getAccount a = some account) :
    (account.transactions.toList.map fun e => E.sequence e.2.txn).Nodup := by
  have hk : account.transactions.toList.map (fun e => E.sequence e.2.txn) =
      account.transactions.toList.map Prod.fst := by
    refine List.map_congr_left fun e he => ?_
    have hg : q.getTx (a, e.1) = some e.2 := by
      rw [getTx, ha]
      exact TreeMap.mem_toList_iff_getElem?_eq_some.1 he
    exact (hq.keyed (a, e.1) e.2 hg).2
  rw [hk]
  exact List.pairwise_map.2 ((ascending_toList account.transactions).imp fun h => h.ne)

/-- After any calls to a new queue that lets every account hold a transaction, `byFee` links the
transactions of the accounts, each once and by falling fee level; those of an account have different
sequences and keep to the limit; and `apply` makes no full queue longer. -/
theorem queue_structure (E : Engine View Tx Rules) (setup : Setup)
    (hmax : 1 ≤ setup.maximumTxnPerAccount) (calls : List (Call View Tx)) :
    let q := run E (new setup) calls
    Linked E q ∧
      (∀ a account, q.getAccount a = some account →
        (account.transactions.toList.map fun e => E.sequence e.2.txn).Nodup ∧
          account.transactions.size ≤ setup.maximumTxnPerAccount) ∧
      ∀ view tx flags, q.isFull 100 = true →
        (q.apply E view tx flags).queue.byFee.length ≤ q.byFee.length := by
  obtain ⟨hli, hca⟩ := run_spec (linked_new E setup) calls
  refine ⟨hli, fun a account ha => ⟨hli.nodup_sequences ha, ?_⟩, ?_⟩
  · exact hca hmax (capped_new setup) a account ha
  · intro view tx flags hf
    exact (apply_applied (run E (new setup) calls) view tx flags).full hli hf

namespace Queues

/-- Transactions are an account, a sequence and a fee level; all are good, and the view has more
transactions than expected. -/
def engine : Engine Unit (AccountID × ℕ × ℕ) Unit where
  account tx := tx.1
  sequence tx := tx.2.1
  fee tx := tx.2.2
  lastLedgerSequence _ := none
  hasPreviousTxnID _ := false
  hasAccountTxnID _ := false
  consequences tx := ⟨false, tx.2.2, 0⟩
  rules _ := ()
  feeEscalation _ := true
  seq _ := 7
  txCount _ := 600
  txs _ := []
  accountRoot _ _ := some (1, 1000000)
  accountReserve _ := 1000
  calculateBaseFee _ _ := 256
  preflight _ _ _ := .tesSUCCESS
  invokePreclaim _ _ _ := .tesSUCCESS
  invokeApply _ _ _ _ := (.tesSUCCESS, true, ())
  testView _ _ _ _ := ()
  sandbox _ := ()
  applySandbox _ _ := ()

/-- Account 5 sends two transactions, and account 6 one that pays more. -/
def calls : List (Call Unit (AccountID × ℕ × ℕ)) :=
  [.apply () (5, 1, 300) {}, .apply () (5, 2, 300) {}, .apply () (6, 1, 400) {}]

end Queues

open Queues in
theorem queue_structure_sample :
    let q := run engine (new {}) calls
    q.byFee = [(6, 1), (5, 1), (5, 2)] ∧ Linked engine q :=
  ⟨by decide, (queue_structure engine {} (by decide) calls).1⟩

open Queues in
/-- A limit of no transactions is not kept: the first of an account is held all the same. -/
theorem zero_limit_holds_one :
    let q := run engine (new { maximumTxnPerAccount := 0 }) [.apply () (5, 1, 300) {}]
    (q.getAccount 5).map (·.transactions.size) = some 1 := by
  decide

end FinPal.TxQ
