import FinPal.Verify.TrustLineSteps
import Mathlib.Algebra.BigOperators.Group.Finset.Sigma
import Mathlib.Algebra.BigOperators.Ring.Finset

/-!
# The total of an issue

The tracker of an issue is meant to hold what its issuer owes on all its lines. A credit changes it
by `hookAmount`, and the debts by what it moves; `CreditOp.Counted` says when the two are the same.
-/

namespace FinPal
open Store ViewM STAmount Finset

/-! ## Credits -/

section Credits
variable {σ σ' : State} {A B : AccountID} {c : Currency}

variable {i : Issue} {q : ℚ} {bDelete : Bool} {s : MTChainState}

theorem STAmount.sub_issued {v after : STAmount} (h : v.sub (.issued i q) = .ok after) :
    v.getCurrency = i.currency ∧ after = .issued v.issue (v.value - q) := by
  obtain ⟨hc, rfl⟩ := add_issued (show v.add (.issued i (-q)) = .ok after from h)
  exact ⟨hc, by rw [sub_eq_add_neg]⟩

theorem STAmount.value_of_signum {v : STAmount} (h : v.signum = 0) : v.value = 0 := by
  cases v with
  | native d => rfl
  | issued i q =>
    simp only [signum] at h
    split at h
    · cases h
    split at h
    · assumption
    · cases h

/-- The sender's reserve may be cleared; a line is deleted only without a balance. -/
theorem CreditStep.updateTrustLine {bSenderHigh : Bool} {sender : AccountID}
    {before after : STAmount} (hA : A ≠ mAccount) (hB : B ≠ mAccount) (hne : A ≠ B)
    (h : exec (updateTrustLine (keylet.line A B c) bSenderHigh sender before after) σ = .ok
      (bDelete, σ')) : CreditStep 0 0 σ σ' ∧ (bDelete = true → after.value = 0) := by
  obtain ⟨s, -, h⟩ := exec_peek!_ok h
  dsimp only at h
  split at h
  · obtain ⟨_, -, h⟩ := exec_peek!_ok h
    split at h
    · obtain ⟨_, _, h3, h⟩ := exec_bind.1 h
      obtain ⟨s', hs', h⟩ := exec_update_ok h
      obtain ⟨hd, rfl⟩ := exec_pure.1 h
      have hst := (CreditStep.adjustOwnerCount h3).trans (.setLine hA hB hne
        { s' with flags := s.flags &&& ~~~(s.side bSenderHigh).reserve } hs' id rfl
        (add_zero _).symm)
      rw [debtBy_zero, add_zero, add_zero] at hst
      refine ⟨hst, fun hb => value_of_signum ?_⟩
      rw [hb] at hd
      simp only [Bool.and_eq_true, decide_eq_true_eq] at hd
      exact hd.1
    · obtain ⟨rfl, rfl⟩ := exec_pure.1 h
      exact ⟨.refl _, fun hb => by cases hb⟩
  · obtain ⟨rfl, rfl⟩ := exec_pure.1 h
    exact ⟨.refl _, fun hb => by cases hb⟩

theorem CreditStep.writeBalance {balance : STAmount} (hA : A ≠ mAccount) (hB : B ≠ mAccount)
    (hne : A ≠ B) (hc : balance.getCurrency = c) (hd : bDelete = true → balance.value = 0)
    (h : exec (writeBalance (keylet.line A B c) (B < A) A B balance bDelete) σ = .ok (.tesSUCCESS,
      σ')) : CreditStep (debtBy A B c (-balance.value - σ.debt A B c)) 0 σ σ' := by
  obtain ⟨s, hs, h⟩ := exec_update_ok h
  obtain ⟨s', hs', hbal, hst⟩ : ∃ s',
      { s with balance := if decide (B < A) then -balance else balance } = s' ∧
      (s'.balanceOf (B < A)).value = balance.value ∧
      CreditStep (debtBy A B c (-balance.value - σ.debt A B c)) 0 σ
        (σ.set (keylet.line A B c) s') := by
    have hbal : (({ s with balance := if decide (B < A) then -balance else balance } :
        MTChainState).balanceOf (B < A)).value = balance.value := by
      by_cases hlt : B < A <;> simp [MTChainState.balanceOf, hlt, value_neg]
    refine ⟨_, rfl, hbal, .setLine hA hB hne _ hs (fun _ => ?_) rfl ?_⟩
    · by_cases hlt : B < A <;> simp [hlt, getCurrency_neg, hc]
    · rw [hbal, State.debt_eq hs]
      ring
  rw [hs'] at h
  split at h
  · next hb =>
    have hze : (σ.set (keylet.line A B c) s').debt A B c = 0 := by
      rw [State.debt_eq (State.get_set_self ..), hbal, hd hb, neg_zero]
    rcases lt_or_gt_of_ne hne with hlt | hlt
    · simp only [hlt.asymm, decide_false, Bool.false_eq_true, if_false] at h
      simpa using hst.trans (.trustDelete hA hB hne hze h)
    simp only [hlt, decide_true, if_true] at h
    rw [line_key_comm] at h hze hst
    rw [← neg_eq_zero, ← State.debt_comm _ hne] at hze
    simpa using hst.trans (.trustDelete hB hA hne.symm hze h)
  · obtain ⟨-, rfl⟩ := exec_pure.1 h
    exact hst

/-- The line, if there is one, is of its own currency. -/
def State.LineIn (σ : State) (A B : AccountID) (c : Currency) : Prop :=
  ∀ s, σ.get (keylet.line A B c) = some s → s.balance.getCurrency = c

theorem State.LineIn.of_none (h : σ.get (keylet.line A B c) = none) : σ.LineIn A B c := by
  intro s hs
  rw [h] at hs
  cases hs

theorem State.LineIn.of_some {after : STAmount} {high : Bool}
    (hs : σ.get (keylet.line A B i.currency) = some s)
    (haf : (s.balanceOf high).sub (.issued i q) = .ok after) : σ.LineIn A B i.currency := by
  intro s' hs'
  obtain rfl : s = s' := Option.mem_unique hs hs'
  rw [← (sub_issued haf).1]
  cases high with
  | false => rfl
  | true => exact (getCurrency_neg _).symm

theorem CreditStep.settle {τ : Issue → ℚ} {σ1 : State} {after : STAmount} (hA : A ≠ mAccount)
    (hB : B ≠ mAccount) (hne : A ≠ B) (hs : σ.get (keylet.line A B i.currency) = some s)
    (h1 : CreditStep 0 τ σ σ1) (haf : (s.balanceOf (B < A)).sub (.issued i q) = .ok after)
    (hdel : bDelete = true → after.value = 0)
    (h : Succeeds (FinPal.writeBalance (keylet.line A B i.currency) (B < A) A B after bDelete) σ1 σ') :
    CreditStep (debtBy A B i.currency q) τ σ σ' := by
  obtain ⟨hc, hv⟩ := sub_issued haf
  have hcur : after.getCurrency = i.currency := by rw [hv]; exact hc
  have hd : -after.value - σ1.debt A B i.currency = q := by
    rw [h1.debt _ hA hB hne, State.debt_eq hs, Pi.zero_apply, Pi.zero_apply, Pi.zero_apply, hv,
      value]
    ring
  have hst := h1.trans (CreditStep.writeBalance hA hB hne hcur hdel h)
  rw [hd, zero_add, add_zero] at hst
  exact hst

/-- A receiver's new line is created with the amount, which names no issuer. -/
theorem CreditStep.createLineFor (hA : A ≠ mAccount) (hB : B ≠ mAccount) (hne : A ≠ B)
    (hc : i.currency ≠ mCurrency) (h : Succeeds (createLineFor A B i.currency (.issued i q)) σ σ') :
    CreditStep (debtBy A B i.currency q)
      (trackBy (hookAmount A (.issued ⟨i.currency, noAccount⟩ q) (.issued ⟨i.currency, noAccount⟩ 0)))
      σ σ' := by
  obtain ⟨a, -, h⟩ := exec_peek!_ok h
  have hli : (ofIssue ⟨i.currency, B⟩).getIssuer = B := getIssuer_ofIssue hc
  have hs := CreditStep.trustCreate (show A ≠ mAccount from hA) hB hne
    (show ((issued i q).setIssuer noAccount).getCurrency ≠ mCurrency from hc)
    (.inr hli) h
  rw [if_pos hli] at hs
  exact hs

/-- What a credit of `q` adds to the tracker of its issue. -/
def State.hooked (σ : State) (sender receiver : AccountID) (i : Issue) (q : ℚ) : STAmount :=
  match σ.get (keylet.line sender receiver i.currency) with
  | none => hookAmount sender (.issued ⟨i.currency, noAccount⟩ q) (.issued ⟨i.currency, noAccount⟩ 0)
  | some s => hookAmount sender (.issued i q) (s.balanceOf (receiver < sender))

theorem CreditStep.mtchainCredit (hA : A ≠ mAccount) (hB : B ≠ mAccount) (hne : A ≠ B)
    (hc : i.currency ≠ mCurrency) (h : Succeeds (mtchainCredit A B (.issued i q)) σ σ') :
    σ.LineIn A B i.currency ∧
      CreditStep (debtBy A B i.currency q) (trackBy (σ.hooked A B i q)) σ σ' := by
  rw [mtchainCredit_eq] at h
  obtain ⟨o, ho, h⟩ := exec_peek_ok h
  change σ.get (keylet.line A B i.currency) = o at ho
  rw [State.hooked, ho]
  cases o with
  | none => exact ⟨.of_none ho, .createLineFor hA hB hne hc h⟩
  | some s =>
    obtain ⟨_, _, h2, h⟩ := exec_bind.1 h
    obtain ⟨_, haf, h⟩ := exec_ofExcept_ok h
    obtain ⟨_, _, h4, h⟩ := exec_bind.1 h
    obtain ⟨hl, hd⟩ := CreditStep.updateTrustLine hA hB hne h4
    have hbe := (CreditStep.hook h2).trans hl
    rw [add_zero, add_zero] at hbe
    exact ⟨.of_some ho haf, .settle hA hB hne ho hbe haf hd h⟩

/-- `issueIOU` and `redeemIOU` call the hook after the reserve. -/
theorem CreditStep.moveIOU (hA : A ≠ mAccount) (hB : B ≠ mAccount) (hne : A ≠ B)
    (hs : σ.get (keylet.line A B i.currency) = some s)
    (h : Succeeds (moveIOU A B (.issued i q) i s) σ σ') :
    σ.LineIn A B i.currency ∧ CreditStep (debtBy A B i.currency q)
      (trackBy (hookAmount A (.issued i q) (s.balanceOf (B < A)))) σ σ' := by
  obtain ⟨after, haf, h⟩ := exec_ofExcept_ok h
  obtain ⟨mustDelete, _, h2, h⟩ := exec_bind.1 h
  obtain ⟨hl, hd⟩ := CreditStep.updateTrustLine hA hB hne h2
  obtain ⟨_, _, h3, h⟩ := exec_bind.1 h
  have hbe := hl.trans (CreditStep.hook h3)
  rw [add_zero, zero_add] at hbe
  exact ⟨.of_some hs haf, .settle hA hB hne hs hbe haf hd h⟩

theorem CreditStep.issueIOU (hA : i.account ≠ mAccount) (hB : B ≠ mAccount) (hne : i.account ≠ B)
    (hc : i.currency ≠ mCurrency) (h : Succeeds (issueIOU B (.issued i q) i) σ σ') :
    σ.LineIn i.account B i.currency ∧
      CreditStep (debtBy i.account B i.currency q) (trackBy (σ.hooked i.account B i q)) σ σ' := by
  rw [issueIOU_eq] at h
  obtain ⟨o, ho, h⟩ := exec_peek_ok h
  rw [State.hooked, ho]
  cases o with
  | none => exact ⟨.of_none ho, .createLineFor hA hB hne hc h⟩
  | some s => exact CreditStep.moveIOU hA hB hne ho h

theorem CreditStep.redeemIOU (hA : A ≠ mAccount) (hB : i.account ≠ mAccount) (hne : A ≠ i.account)
    (h : Succeeds (redeemIOU A (.issued i q) i) σ σ') :
    σ.LineIn A i.account i.currency ∧
      CreditStep (debtBy A i.account i.currency q) (trackBy (σ.hooked A i.account i q)) σ σ' := by
  rw [redeemIOU_eq] at h
  obtain ⟨o, ho, h⟩ := exec_peek_ok h
  rw [State.hooked, ho]
  cases o with
  | none => cases (exec_pure.1 h).1
  | some s => exact CreditStep.moveIOU hA hB hne ho h

end Credits

/-! ## What an issuer owes -/

/-- The sum of the positive debts of the issuer on its lines. -/
def State.owed (σ : State) (I : Issue) : ℚ :=
  ∑ Y ∈ ({mAccount, I.account} : Finset AccountID)ᶜ, max 0 (σ.debt I.account Y I.currency)

section Owed
variable {σ σ' : State} {I : Issue} {A B P : AccountID} {c : Currency} {q Δ : ℚ}

theorem mem_holders {Y : AccountID} :
    Y ∈ ({mAccount, I.account} : Finset AccountID)ᶜ ↔ Y ≠ mAccount ∧ Y ≠ I.account := by
  simp

theorem State.owed_of_holder (hP : P ≠ mAccount) (hPI : P ≠ I.account)
    (h : ∀ Y, Y ≠ mAccount → Y ≠ I.account → max 0 (σ'.debt I.account Y I.currency) =
      max 0 (σ.debt I.account Y I.currency) + if Y = P then Δ else 0) :
    σ'.owed I = σ.owed I + Δ := by
  unfold State.owed
  rw [sum_congr rfl fun Y hY => h Y (mem_holders.1 hY).1 (mem_holders.1 hY).2,
    sum_add_distrib, sum_ite_eq', if_pos (mem_holders.2 ⟨hP, hPI⟩)]

/-- What a debt of `q` more from `A` to `B` adds to the debts of an issuer. -/
def owedBy (σ : State) (A B : AccountID) (c : Currency) (q : ℚ) (I : Issue) : ℚ :=
  if I.currency = c then
    if I.account = A then max 0 (σ.debt A B c + q) - max 0 (σ.debt A B c)
    else if I.account = B then max 0 (-σ.debt A B c - q) - max 0 (-σ.debt A B c)
    else 0
  else 0

theorem CreditStep.owed {τ : Issue → ℚ} (h : CreditStep (debtBy A B c q) τ σ σ')
    (hA : A ≠ mAccount) (hB : B ≠ mAccount) (hne : A ≠ B) (hI : I.account ≠ mAccount) :
    σ'.owed I = σ.owed I + owedBy σ A B c q I := by
  have hde (Y : AccountID) (hY : Y ≠ mAccount) (hYI : Y ≠ I.account) :=
    h.debt I.currency hI hY hYI.symm
  unfold owedBy
  split
  · next hc =>
    subst hc
    split
    · next hIA =>
      refine State.owed_of_holder hB (hIA ▸ hne.symm) fun Y hY hYI => ?_
      rw [hde Y hY hYI, debtBy, hIA]
      by_cases hYB : Y = B
      · simp [hYB]
      · simp [hYB, hne]
    · next hIA =>
      split
      · next hIB =>
        refine State.owed_of_holder hA (Ne.symm hIA) fun Y hY hYI => ?_
        rw [hde Y hY hYI, debtBy, hIB]
        by_cases hYA : Y = A
        · simp [hYA, hne.symm, σ.debt_comm hne, sub_eq_add_neg]
        · simp [hYA, hne.symm]
      · next hIB =>
        refine State.owed_of_holder hA (Ne.symm hIA) fun Y hY hYI => ?_
        rw [hde Y hY hYI, debtBy]
        simp [hIA, hIB]
  · next hc =>
    rw [add_zero]
    refine sum_congr rfl fun Y hY => ?_
    rw [hde Y (mem_holders.1 hY).1 (mem_holders.1 hY).2, debtBy, if_neg hc, add_zero]

end Owed

/-! ## The walk -/

/-- What the issuer owes on a line, as `addOwed` counts it. -/
def owedOn (I : Issue) (line : MTChainState) : ℚ :=
  if line.balance.getCurrency = I.currency then
    max 0 (if line.lowLimit.getIssuer = I.account then -line.balance else line.balance).value
  else 0

section Walk
variable {σ : State} {I : Issue}

theorem addOwed_issued (hcur : I.currency ≠ mCurrency) (t : ℚ) (line : MTChainState) :
    addOwed I (.issued I t) line = .ok (.issued I (t + owedOn I line)) := by
  unfold addOwed owedOn
  split
  · next hc =>
    obtain ⟨j, q, hbal, hj⟩ : ∃ j q, (if line.lowLimit.getIssuer = I.account then -line.balance
        else line.balance) = issued j q ∧ j.currency = I.currency := by
      cases hb : line.balance with
      | native d =>
        rw [hb] at hc
        exact absurd hc.symm hcur
      | issued j q =>
        rw [hb] at hc
        split
        · exact ⟨j, -q, rfl, hc⟩
        · exact ⟨j, q, rfl, hc⟩
    simp only [hbal, value]
    by_cases hq : 0 < q
    · have hs : 0 < (issued j q).signum := by
        simp [signum, hq.not_gt, hq.ne']
      rw [if_pos hs, add, if_pos hj.symm, max_eq_right hq.le]
    have hs : ¬ 0 < (issued j q).signum := by
      simp only [signum]
      split
      · decide
      · next hlt => simp [le_antisymm (not_lt.1 hq) (not_lt.1 hlt)]
    rw [if_neg hs, max_eq_left (not_lt.1 hq), add_zero]
  · rw [add_zero]

theorem foldlM_addOwed (hc : I.currency ≠ mCurrency) (lines : List MTChainState) (t : ℚ) :
    lines.foldlM (addOwed I) (.issued I t) = .ok (.issued I (t + (lines.map (owedOn I)).sum)) := by
  induction lines generalizing t with
  | nil => simp [pure, Except.pure]
  | cons _ _ ih =>
    rw [List.foldlM_cons, addOwed_issued hc]
    simp only [List.map_cons, List.sum_cons, ← add_assoc]
    exact ih _

/-- What the issuer owes on one line. -/
def State.owedAt (σ : State) (I : Issue) (d : Digest) : ℚ :=
  (σ.get (⟨d⟩ : Keylet MTChainState)).elim 0 (owedOn I)

theorem ListsLines.owedAt_line (h : ListsLines I.account σ) {Y : AccountID} (hY : Y ≠ mAccount)
    (hYI : Y ≠ I.account) : σ.owedAt I (keylet.line I.account Y I.currency).key =
      max 0 (σ.debt I.account Y I.currency) := by
  change (σ.get (keylet.line I.account Y I.currency)).elim 0 (owedOn I) = _
  unfold State.debt
  cases hs : σ.get (keylet.line I.account Y I.currency) with
  | none => simp
  | some s =>
    obtain ⟨hc, hl, -⟩ := h.line hY hYI hs
    rw [Option.elim_some, owedOn, if_pos hc, hl]
    rcases lt_or_gt_of_ne hYI with hlt | hlt
    · simp [MTChainState.balanceOf, hlt, min_eq_right hlt.le, hYI, value_neg]
    · simp [MTChainState.balanceOf, hlt.asymm, min_eq_left hlt.le, value_neg]

theorem ListsLines.of_owedAt (h : ListsLines I.account σ) {p : Nat} {d : Digest}
    (hp : 0 < σ.listing I.account p d) (hd : σ.owedAt I d ≠ 0) :
    ∃ Y, (Y ≠ mAccount ∧ Y ≠ I.account) ∧ d = (keylet.line I.account Y I.currency).key := by
  unfold State.owedAt at hd
  cases hs : σ.get (⟨d⟩ : Keylet MTChainState) with
  | none =>
    rw [hs] at hd
    exact absurd rfl hd
  | some s =>
    obtain ⟨a, b, c, rfl⟩ := h.keyed hs
    obtain ⟨Y, hY, hYI, hk⟩ := h.own hp
    rw [hk] at hs
    obtain ⟨hc, -⟩ := h.line hY hYI hs
    rw [hk] at hd
    rw [hs, Option.elim_some, owedOn, hc] at hd
    obtain rfl : c = I.currency := by
      by_contra hne
      exact hd (if_neg hne)
    exact ⟨Y, ⟨hY, hYI⟩, hk⟩

theorem sum_map_eq_sum_count {ι : Type*} {T : Finset ι} {f : ι → Digest} (hf : Set.InjOn f T)
    {w : Digest → ℚ} (l : List Digest) (h : ∀ d ∈ l, w d ≠ 0 → ∃ i ∈ T, d = f i) :
    (l.map w).sum = ∑ i ∈ T, l.count (f i) * w (f i) := by
  induction l with
  | nil => simp
  | cons d l ih =>
    have hd : ∑ i ∈ T, (if d = f i then w (f i) else 0) = w d := by
      by_cases hw : w d = 0
      · rw [hw]
        refine sum_eq_zero fun i _ => ?_
        split
        · next hi => rw [← hi, hw]
        · rfl
      obtain ⟨i, hi, rfl⟩ := h _ List.mem_cons_self hw
      rw [sum_eq_single_of_mem i hi fun j hj hji => if_neg fun he => hji (hf hj hi he.symm),
        if_pos rfl]
    rw [List.map_cons, List.sum_cons, ih fun d' hd' => h d' (List.mem_cons_of_mem _ hd'), ← hd,
      ← sum_add_distrib]
    refine sum_congr rfl fun i _ => ?_
    by_cases hi : d = f i
    · rw [if_pos hi, hi, List.count_cons_self]
      push_cast
      ring
    · rw [if_neg hi, List.count_cons_of_ne hi, zero_add]

theorem ListsLines.sum_page (h : ListsLines I.account σ) (p : Nat) :
    ((σ.pageLines (.ownerDir I.account) p).map (owedOn I)).sum =
      ∑ Y ∈ ({mAccount, I.account} : Finset AccountID)ᶜ,
        σ.listing I.account p (keylet.line I.account Y I.currency).key *
          max 0 (σ.debt I.account Y I.currency) := by
  have hpa : ((σ.pageLines (.ownerDir I.account) p).map (owedOn I)).sum =
      (((σ.get (keylet.page (.ownerDir I.account) p)).elim [] DirNode.indexes).map
        (σ.owedAt I)).sum := by
    unfold State.pageLines
    induction (σ.get (keylet.page (.ownerDir I.account) p)).elim [] DirNode.indexes with
    | nil => rfl
    | cons d l ih =>
      rw [List.map_cons, List.sum_cons, ← ih, State.owedAt]
      cases hd : σ.get (⟨d⟩ : Keylet MTChainState) with
      | none => simp [hd]
      | some s => simp [hd]
  have hco (d) : ((σ.get (keylet.page (.ownerDir I.account) p)).elim []
      DirNode.indexes).count d = σ.listing I.account p d := by
    unfold State.listing State.refs
    change _ = (σ.get (keylet.page (.ownerDir I.account) p)).elim 0 _
    cases σ.get (keylet.page (.ownerDir I.account) p) <;> rfl
  rw [hpa, sum_map_eq_sum_count ?_ _ fun d hd hw => ?_]
  · refine sum_congr rfl fun Y hY => ?_
    rw [hco, h.owedAt_line (mem_holders.1 hY).1 (mem_holders.1 hY).2]
  · intro Y hY Z hZ he
    obtain ⟨-, ⟨-, hYZ⟩ | ⟨hIZ, -⟩⟩ := line_key_inj.1 he
    · exact hYZ
    · exact absurd hIZ.symm (mem_holders.1 hZ).2
  · obtain ⟨Y, hY, hk⟩ := h.of_owedAt (hco d ▸ List.count_pos_iff.2 hd) hw
    exact ⟨Y, mem_holders.2 hY, hk⟩

theorem ListsLines.exec_addOwner (h : ListsLines I.account σ) (hc : I.currency ≠ mCurrency) :
    exec (addOwner I (.ofIssue I)) σ = .ok (.issued I (σ.owed I), σ) := by
  obtain ⟨S, hS⟩ := h.ring
  obtain ⟨items, hit, hsum⟩ := exec_forEachItem_root hS
  refine exec_bind.2 ⟨items, σ, hit, exec_ofExcept.2 ⟨?_, rfl⟩⟩
  have hto : (items.map (owedOn I)).sum = σ.owed I := by
    calc (items.map (owedOn I)).sum
        = ∑ p ∈ S, ((σ.pageLines (.ownerDir I.account) p).map (owedOn I)).sum := by
          have := congrArg (Multiset.sumAddMonoidHom.comp (Multiset.mapAddMonoidHom (owedOn I))) hsum
          simpa using this
      _ = ∑ Y ∈ ({mAccount, I.account} : Finset AccountID)ᶜ,
            (∑ p ∈ S, (σ.listing I.account p (keylet.line I.account Y I.currency).key : ℚ)) *
              max 0 (σ.debt I.account Y I.currency) := by
          simp only [h.sum_page, sum_mul]
          exact sum_comm
      _ = σ.owed I := by
          refine sum_congr rfl fun Y hY => ?_
          obtain ⟨hYm, hYI⟩ := mem_holders.1 hY
          cases hs : σ.get (keylet.line I.account Y I.currency) with
          | none => simp [State.debt, hs]
          | some s =>
            -- the line is on exactly one page, and that page is on the ring
            obtain ⟨-, -, n, hn⟩ := h.line hYm hYI hs
            have hnS : n ∈ S := by
              rw [hS.mem]
              by_contra hnone
              have := hn n
              simp_all [State.listing, State.refs, State.links]
            simp [hn, hnS]
  rw [ofIssue, if_neg hc, foldlM_addOwed hc, hto, zero_add]

end Walk

/-! ## Operations -/

/-- The operations that credit an issued amount. `trustCreate` is for the line of the two accounts
in the currency of the balance, as its callers have it. -/
inductive CreditOp where
  | mtchainCredit (sender receiver : AccountID) (i : Issue) (q : ℚ)
  | issueIOU (account : AccountID) (i : Issue) (q : ℚ)
  | redeemIOU (account : AccountID) (i : Issue) (q : ℚ)
  | trustCreate (src dst account : AccountID) (bAuth bNoMTChain bFreeze : Bool) (i : Issue) (q : ℚ)
      (saLimit : STAmount) (uQualityIn uQualityOut : UInt32)

open CreditOp
namespace CreditOp

def run : CreditOp → ViewM TER
  | .mtchainCredit sender receiver i q => FinPal.mtchainCredit sender receiver (.issued i q)
  | .issueIOU account i q => FinPal.issueIOU account (.issued i q) i
  | .redeemIOU account i q => FinPal.redeemIOU account (.issued i q) i
  | .trustCreate src dst account bAuth bNoMTChain bFreeze i q saLimit uQualityIn uQualityOut =>
    FinPal.trustCreate (dst < src) src dst (keylet.line src dst i.currency).key account bAuth
      bNoMTChain bFreeze (.issued i q) saLimit uQualityIn uQualityOut

/-- Who owes more after a credit. -/
def debtor : CreditOp → AccountID
  | .mtchainCredit sender _ _ _ => sender
  | .issueIOU _ i _ => i.account
  | .redeemIOU account _ _ => account
  | .trustCreate src dst _ _ _ _ _ _ saLimit _ _ => if saLimit.getIssuer = dst then src else dst

/-- Who is owed more after it. -/
def holder : CreditOp → AccountID
  | .mtchainCredit _ receiver _ _ => receiver
  | .issueIOU account _ _ => account
  | .redeemIOU _ i _ => i.account
  | .trustCreate src dst _ _ _ _ _ _ saLimit _ _ => if saLimit.getIssuer = dst then dst else src

def issue : CreditOp → Issue
  | .mtchainCredit _ _ i _ | .issueIOU _ i _ | .redeemIOU _ i _ => i
  | .trustCreate _ _ _ _ _ _ i _ _ _ _ => i

def amount : CreditOp → ℚ
  | .mtchainCredit _ _ _ q | .issueIOU _ _ q | .redeemIOU _ _ q => q
  | .trustCreate _ _ _ _ _ _ _ q _ _ _ => q

/-- What the source asserts: two accounts that are not `mAccount`, an issued amount that is positive
and, for a new line, a limit that one of the two has set. -/
structure Valid (op : CreditOp) : Prop where
  debtor_ne : op.debtor ≠ mAccount
  holder_ne : op.holder ≠ mAccount
  ne : op.debtor ≠ op.holder
  currency : op.issue.currency ≠ mCurrency
  pos : 0 < op.amount
  limit : ∀ {src dst account bAuth bNoMTChain bFreeze i q saLimit uQualityIn uQualityOut},
    op = .trustCreate src dst account bAuth bNoMTChain bFreeze i q saLimit uQualityIn uQualityOut →
    saLimit.getIssuer = account ∧ (account = src ∨ account = dst)

/-- The amount that the hook adds to the tracker of its issue. -/
def hooked (σ : State) : CreditOp → STAmount
  | .mtchainCredit sender receiver i q => σ.hooked sender receiver i q
  | .issueIOU account i q => σ.hooked i.account account i q
  | .redeemIOU account i q => σ.hooked account i.account i q
  | .trustCreate src _ _ _ _ _ i q _ _ _ => hookAmount src (.issued i q) (.issued i 0)

variable {σ σ' : State} {op : CreditOp} {I : Issue}

theorem creditStep (hv : op.Valid) (h : Succeeds op.run σ σ') :
    CreditStep (debtBy op.debtor op.holder op.issue.currency op.amount) (trackBy (op.hooked σ))
      σ σ' := by
  obtain ⟨hA, hB, hne, hc, -, hli⟩ := hv
  cases op with
  | mtchainCredit _ _ i q => exact (CreditStep.mtchainCredit hA hB hne hc h).2
  | issueIOU account i q => exact (CreditStep.issueIOU hA hB hne hc h).2
  | redeemIOU account i q => exact (CreditStep.redeemIOU hA hB hne h).2
  | trustCreate _ dst account _ _ _ i q saLimit _ _ =>
    obtain ⟨ha, hen⟩ := hli rfl
    rw [← ha] at hen
    by_cases hd : saLimit.getIssuer = dst
    · simp only [debtor, holder, if_pos hd] at hA hB hne ⊢
      have hst := CreditStep.trustCreate hA hB hne
        (show (issued i q).getCurrency ≠ mCurrency from hc) hen h
      rw [if_pos hd] at hst
      exact hst
    simp only [debtor, holder, if_neg hd] at hA hB hne ⊢
    have hst := CreditStep.trustCreate hB hA hne.symm
      (show (issued i q).getCurrency ≠ mCurrency from hc) hen h
    rw [if_neg hd, ← debtBy_comm hne.symm] at hst
    exact hst

/-- What decides whether a credit is counted in the total of `I`: the line exists, its issuer is the
side that owes, and the credit does not change the sign there. -/
def CountedCredit (I : Issue) (σ : State) (sender receiver : AccountID) (i : Issue) (q : ℚ) : Prop :=
  if (σ.get (keylet.line sender receiver i.currency)).isNone then
    I.account = sender → sender = noAccount
  else if I.account = sender then
    (0 ≤ σ.debt sender receiver i.currency ∧ i.account = sender) ∨
      (q ≤ -σ.debt sender receiver i.currency ∧ i.account ≠ sender)
  else if I.account = receiver then
    (0 < σ.debt sender receiver i.currency ∧ i.account ≠ receiver) ∨
      σ.debt sender receiver i.currency = 0 ∨
      (q ≤ -σ.debt sender receiver i.currency ∧ i.account = receiver)
  else
    σ.debt sender receiver i.currency = 0 ∨ i.account ≠ I.account

/-- A new line is counted if the source of the call owes on it and is its issuer. -/
def Counted (I : Issue) (σ : State) (op : CreditOp) : Prop :=
  I.currency = op.issue.currency →
    match op with
    | .mtchainCredit sender receiver i q => CountedCredit I σ sender receiver i q
    | .issueIOU account i q => CountedCredit I σ i.account account i q
    | .redeemIOU account i q => CountedCredit I σ account i.account i q
    | .trustCreate src _ _ _ _ _ i _ _ _ _ =>
      I.account = op.debtor ↔ I.account = src ∧ i.account = src

theorem trackBy_hookAmount {A : AccountID} {i j : Issue} {q b : ℚ} :
    trackBy (hookAmount A (.issued i q) (.issued j b)) I =
      if i = I then if b < 0 then q else if 0 < b then -q else if A = i.account then q else 0
      else 0 := by
  rcases lt_trichotomy b 0 with hb | rfl | hb
  · simp [hookAmount, signum, hb, trackBy, STAmount.issue, value]
  · by_cases hA : A = i.account
    · simp [hookAmount, signum, hA, trackBy, STAmount.issue, value, getIssuer]
    · simp [hookAmount, signum, hA, trackBy, STAmount.issue, value, getIssuer, setIssuer, zeroed]
  · simp [hookAmount, signum, hb, hb.not_gt, hb.ne', trackBy, STAmount.issue, value]

/-- Tracker and debts change alike exactly for a credit that is counted. -/
theorem countedCredit_iff {A B : AccountID} {i : Issue} {q : ℚ} (hne : A ≠ B) (hq : 0 < q)
    (hcur : i.currency ≠ mCurrency) (hc : I.currency = i.currency) (hli : σ.LineIn A B i.currency) :
    trackBy (σ.hooked A B i q) I = owedBy σ A B i.currency q I ↔ CountedCredit I σ A B i q := by
  obtain ⟨cI, X⟩ := I
  obtain ⟨c, a⟩ := i
  obtain rfl : cI = c := hc
  unfold CountedCredit owedBy
  cases hs : σ.get (keylet.line A B cI) with
  | none =>
    have hde : σ.debt A B cI = 0 := by rw [State.debt, hs, Option.elim_none]
    simp only [State.hooked, hs, trackBy_hookAmount, hde, Issue.mk.injEq, true_and, lt_irrefl,
      if_false, zero_add, max_self, sub_zero, neg_zero, zero_sub, max_eq_right hq.le,
      max_eq_left (neg_nonpos.2 hq.le), Option.isNone_none, if_true]
    grind
  | some s =>
    obtain ⟨j, b, hb⟩ : ∃ j b, s.balanceOf (B < A) = .issued j b := by
      have hcs := hli s hs
      cases hbal : s.balance with
      | native d => exact absurd (by rw [← hcs, hbal]; rfl) hcur
      | issued j b => unfold MTChainState.balanceOf; split <;> simp [hbal]
    have hde : σ.debt A B cI = -b := by rw [State.debt_eq hs, hb, value]
    simp only [State.hooked, hs, hb, trackBy_hookAmount, hde, Issue.mk.injEq, true_and,
      Option.isNone_some, Bool.false_eq_true, if_false]
    grind

theorem hooked_currency (σ : State) (op : CreditOp) :
    (op.hooked σ).issue.currency = op.issue.currency := by
  have hh (A) (i) (q) (pre) : (hookAmount A (.issued i q) pre).issue.currency = i.currency := by
    unfold hookAmount
    repeat' split
    all_goals rfl
  have hst (A B) (i) (q) : (σ.hooked A B i q).issue.currency = i.currency := by
    unfold State.hooked
    split <;> exact hh ..
  cases op with
  | mtchainCredit | issueIOU | redeemIOU => exact hst ..
  | trustCreate => exact hh ..

theorem counted_iff (hv : op.Valid) (h : Succeeds op.run σ σ') :
    trackBy (op.hooked σ) I = owedBy σ op.debtor op.holder op.issue.currency op.amount I ↔
      op.Counted I σ := by
  by_cases hc : I.currency = op.issue.currency
  · obtain ⟨hA, hB, hne, hcur, hp, -⟩ := hv
    simp only [Counted, hc, true_imp_iff]
    cases op with
    | mtchainCredit _ _ i q =>
      exact countedCredit_iff hne hp hcur hc (CreditStep.mtchainCredit hA hB hne hcur h).1
    | issueIOU account i q =>
      exact countedCredit_iff hne hp hcur hc (CreditStep.issueIOU hA hB hne hcur h).1
    | redeemIOU account i q =>
      exact countedCredit_iff hne hp hcur hc (CreditStep.redeemIOU hA hB hne h).1
    | trustCreate src dst account _ _ _ i q saLimit _ _ =>
      obtain ⟨-, -, -, -, -, -, -, -, hno, -⟩ := trustCreate_ok h
      have hde : ∀ A B, (A = src ∧ B = dst) ∨ (A = dst ∧ B = src) → σ.debt A B i.currency = 0 := by
        rintro A B (⟨rfl, rfl⟩ | ⟨rfl, rfl⟩)
        · rw [State.debt, State.get_of_none hno, Option.elim_none]
        · rw [State.debt, line_key_comm, State.get_of_none hno, Option.elim_none]
      obtain ⟨cI, X⟩ := I
      obtain ⟨c, a⟩ := i
      obtain rfl : cI = c := hc
      by_cases hd : saLimit.getIssuer = dst
      · simp only [hooked, trackBy_hookAmount, owedBy, issue, amount, debtor, holder, if_pos hd,
          hde src dst (.inl ⟨rfl, rfl⟩), Issue.mk.injEq] at hp hne ⊢
        grind
      simp only [hooked, trackBy_hookAmount, owedBy, issue, amount, debtor, holder, if_neg hd,
        hde dst src (.inr ⟨rfl, rfl⟩), Issue.mk.injEq] at hp hne ⊢
      grind
  have ho : (op.hooked σ).issue ≠ I := fun he => hc (he ▸ hooked_currency σ op)
  rw [trackBy, if_neg ho, owedBy, if_neg hc]
  exact iff_of_true rfl fun hcI => absurd hcI hc

end CreditOp

/-! ## Runs -/

/-- A credit that is performed and counted in the total of `I`. -/
def CountedStep (I : Issue) (σ σ' : State) : Prop :=
  ∃ op : CreditOp, op.Valid ∧ op.Counted I σ ∧ exec op.run σ = .ok (.tesSUCCESS, σ')

section Runs
variable {σ σ' : State} {I : Issue}

theorem CountedStep.tracked (hI : I.account ≠ mAccount) (h : CountedStep I σ σ')
    (ht : σ.tracked I = some (σ.owed I)) : σ'.tracked I = some (σ'.owed I) := by
  obtain ⟨_, hv, hco, hr⟩ := h
  have hs := creditStep hv hr
  rw [hs.tracked ht, hs.owed hv.debtor_ne hv.holder_ne hv.ne hI,
    (counted_iff hv hr).2 hco]

theorem CountedStep.lists {X : AccountID} (hX : X ≠ mAccount) (h : CountedStep I σ σ')
    (hl : ListsLines X σ) : ListsLines X σ' := by
  obtain ⟨_, hv, -, hr⟩ := h
  exact (creditStep hv hr).lists hX hl

theorem exec_getIssueTotalAmount {q : ℚ} (h : σ.tracked I = some q) :
    ∃ total, exec (getIssueTotalAmount I) σ = .ok (total, σ) ∧ total.value = q := by
  obtain ⟨t, ht, hq⟩ := Option.bind_eq_some_iff.1 h
  refine ⟨t.balance, ?_, ?_⟩
  · rw [getIssueTotalAmount, exec_peek_bind, ht]
    cases hb : t.balance with
    | native d => simp [hb] at hq
    | issued i p => simp only [hb, isNative, Bool.false_eq_true, if_false]; rfl
  cases hb : t.balance with
  | native d => simp [hb] at hq
  | issued i p =>
    simp only [hb] at hq
    split at hq
    · exact Option.some.inj hq
    · cases hq

end Runs

/-- A tracker that starts with what the issuer owes keeps it over any steps that count, and this is
the total that is reported. -/
theorem issue_total_tracking {I : Issue} {σ σ' : State} (hI : I.account ≠ mAccount)
    (hcur : I.currency ≠ mCurrency) (ht : σ.tracked I = some (σ.owed I))
    (hrun : Relation.ReflTransGen (CountedStep I) σ σ') :
    σ'.tracked I = some (σ'.owed I) ∧
    (∃ total, exec (getIssueTotalAmount I) σ' = .ok (total, σ') ∧ total.value = σ'.owed I) ∧
    (ListsLines I.account σ →
      exec (addOwner I (.ofIssue I)) σ' = .ok (.issued I (σ'.owed I), σ')) := by
  have htr : σ'.tracked I = some (σ'.owed I) := by
    induction hrun with
    | refl => exact ht
    | tail _ hs ih => exact hs.tracked hI ih
  refine ⟨htr, exec_getIssueTotalAmount htr, fun hli => ?_⟩
  have hl : ListsLines I.account σ' := by
    clear htr
    induction hrun with
    | refl => exact hli
    | tail _ hs ih => exact hs.lists hI ih
  exact hl.exec_addOwner hcur

namespace Sample

/-- Two accounts without a line, and the tracker of an issue of the first. -/
def ious : State :=
  State.set (State.set (State.set (fun _ => none) (keylet.account 2)
    { account := 2, sequence := 1, balance := 500 }) (keylet.account 3)
    { account := 3, sequence := 1, balance := 500 }) (keylet.tracker ⟨5, 2⟩)
    { balance := .issued ⟨5, 2⟩ 0 }

def credited (σ : State) (op : CreditOp) : State :=
  match exec op.run σ with
  | .ok (_, σ') => σ'
  | .error _ => σ

theorem exec_credited {σ : State} {op : CreditOp}
    (h : (exec op.run σ).map Prod.fst = .ok .tesSUCCESS) :
    exec op.run σ = .ok (.tesSUCCESS, credited σ op) := by
  unfold credited
  cases hr : exec op.run σ with
  | error e => rw [hr] at h; cases h
  | ok r =>
    obtain ⟨ter, _⟩ := r
    rw [hr] at h
    obtain rfl : ter = .tesSUCCESS := Except.ok.inj h
    rfl

theorem ious_eq_none {d : Digest} (ha : ∀ a, d ≠ .account a)
    (ht : d ≠ (keylet.tracker ⟨5, 2⟩).key) : ious d = none := by
  simp [ious, State.set, ht, keylet.account, ha]

theorem ious_line {A B : AccountID} {c : Currency} (hA : A ≠ mAccount) (hB : B ≠ mAccount) :
    ious.get (keylet.line A B c) = none := by
  refine State.get_of_none (ious_eq_none (fun a h => ?_) (line_key_ne_tracker hA hB))
  obtain ⟨x, y, hxy⟩ := exists_line_key A B c
  rw [hxy] at h
  cases h

theorem ious_page (X : AccountID) (p : Nat) : ious.get (keylet.page (.ownerDir X) p) = none := by
  obtain ⟨x, y, hxy⟩ := exists_line_key mAccount 2 5
  refine State.get_of_none (ious_eq_none (fun a h => ?_) fun h => ?_)
  all_goals
    simp only [keylet.page, keylet.tracker, hxy] at h
    unfold getDirNodeIndex at h
    split at h <;> cases h

theorem ious_owed : ious.owed ⟨5, 2⟩ = 0 := by
  refine sum_eq_zero fun Y hY => ?_
  rw [State.debt, ious_line (by decide) (mem_holders.1 hY).1, Option.elim_none, max_self]

theorem ious_lists {X : AccountID} (hX : X ≠ mAccount) : ListsLines X ious where
  ring := ⟨∅, .empty fun p => by rw [State.links, ious_page, Option.map_none]⟩
  line hY _ hs := by
    rw [ious_line hX hY] at hs
    cases hs
  absent _ _ _ p := by
    change (ious.get (keylet.page (.ownerDir X) p)).elim 0 _ = 0
    rw [ious_page, Option.elim_none]
  own {p _ _ _} hp := by
    change 0 < (ious.get (keylet.page (.ownerDir X) p)).elim 0 _ at hp
    rw [ious_page] at hp
    cases hp
  keyed {d s} hs := by
    by_cases ht : d = (keylet.tracker ⟨5, 2⟩).key
    · obtain ⟨x, y, hxy⟩ := exists_line_key mAccount 2 5
      exact ⟨x, y, 5, ht.trans hxy⟩
    have hno : ious.get (⟨d⟩ : Keylet MTChainState) = none := by
      rw [ious, State.get_set_ne ht]
      by_cases h2 : d = .account 2
      · subst h2; rfl
      by_cases h3 : d = .account 3
      · subst h3; rfl
      · exact State.get_of_none (by simp [State.set, keylet.account, h2, h3])
    rw [hno] at hs
    cases hs

def file : CreditOp := .trustCreate 2 3 3 false false false ⟨5, 2⟩ 100 (.issued ⟨5, 3⟩ 1000) 0 0
def more : CreditOp := .issueIOU 3 ⟨5, 2⟩ 40
def back : CreditOp := .redeemIOU 3 ⟨5, 2⟩ 30
def ious₁ : State := credited ious file
def ious₂ : State := credited ious₁ more
def ious₃ : State := credited ious₂ back

/-- The credit of an account that has no line yet. -/
def first : CreditOp := .mtchainCredit 2 3 ⟨5, 2⟩ 100

theorem first_valid : first.Valid :=
  ⟨by decide, by decide, by decide, by decide, by decide +kernel, by rintro _ _ _ _ _ _ _ _ _ _ _ ⟨⟩⟩

end Sample

open Sample

/-- A line is created with a hundred and credited with forty more, and thirty are redeemed. -/
theorem issue_total_tracking_sample : ious.tracked ⟨5, 2⟩ = some (ious.owed ⟨5, 2⟩) ∧
    Relation.ReflTransGen (CountedStep ⟨5, 2⟩) ious ious₃ ∧
    ious₃.owed ⟨5, 2⟩ = 110 := by
  have ht : ious.tracked ⟨5, 2⟩ = some (ious.owed ⟨5, 2⟩) := by
    rw [ious_owed]
    decide +kernel
  have hfi : CountedStep ⟨5, 2⟩ ious ious₁ :=
    ⟨file, ⟨by decide, by decide, by decide, by decide, by decide +kernel,
      by rintro _ _ _ _ _ _ _ _ _ _ _ ⟨⟩; decide⟩, fun _ => iff_of_true (by decide) (by decide),
      exec_credited (by decide +kernel)⟩
  have hmo : CountedStep ⟨5, 2⟩ ious₁ ious₂ :=
    ⟨more, ⟨by decide, by decide, by decide, by decide, by decide +kernel,
      by rintro _ _ _ _ _ _ _ _ _ _ _ ⟨⟩⟩, fun _ => by
        change CountedCredit _ _ _ _ _ _
        unfold CountedCredit; decide +kernel,
      exec_credited (by decide +kernel)⟩
  have hba : CountedStep ⟨5, 2⟩ ious₂ ious₃ :=
    ⟨back, ⟨by decide, by decide, by decide, by decide, by decide +kernel,
      by rintro _ _ _ _ _ _ _ _ _ _ _ ⟨⟩⟩, fun _ => by
        change CountedCredit _ _ _ _ _ _
        unfold CountedCredit; decide +kernel,
      exec_credited (by decide +kernel)⟩
  have hr := Relation.ReflTransGen.refl.tail hfi |>.tail hmo |>.tail hba
  obtain ⟨htr, -, -⟩ := issue_total_tracking (by decide) (by decide) ht hr
  refine ⟨ht, hr, ?_⟩
  have he : ious₃.tracked ⟨5, 2⟩ = some 110 := by decide +kernel
  exact Option.mem_unique htr he

/-- The line is created by the credit, and the tracker stays at zero. -/
theorem first_credit_uncounted : first.Valid ∧ ListsLines 2 ious ∧
    ious.tracked ⟨5, 2⟩ = some (ious.owed ⟨5, 2⟩) ∧
    exec first.run ious =
      .ok (.tesSUCCESS, credited ious first) ∧
    (credited ious first).tracked ⟨5, 2⟩ = some 0 ∧
    (credited ious first).owed ⟨5, 2⟩ = 100 := by
  have hr : exec first.run ious = .ok (.tesSUCCESS, credited ious first) :=
    exec_credited (by decide +kernel)
  refine ⟨first_valid, ious_lists (by decide), ?_, hr, by decide +kernel, ?_⟩
  · rw [ious_owed]
    decide +kernel
  have hv := first_valid
  rw [(creditStep hv hr).owed hv.debtor_ne hv.holder_ne hv.ne (by decide), ious_owed]
  decide +kernel

end FinPal
