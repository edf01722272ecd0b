import FinPal.Ledger.Refs
import FinPal.Tx.Operator

/-!
# The frame of a claimed fee
-/

namespace FinPal
open Store ViewM Sample

/-- An account but for its owner count. -/
def AccountRoot.uncounted (a : AccountRoot) : AccountRoot := { a with ownerCount := 0 }

/-- The offers `D` are deleted. Only their owners' counts change and pages of their owners'
directories and books, which list nothing but these offers less often. -/
structure OffersRemoved (D : List Digest) (σ σ' : State) : Prop where
  gone : ∀ d ∈ D, (σ.get (keylet.offer d)).isSome ∧ σ' d = none
  absent : ∀ k, σ k = none → σ' k = none
  refs : ∀ k d, d ∉ D → σ'.refs k d = σ.refs k d
  refs_le : ∀ k d, σ'.refs k d ≤ σ.refs k d
  roots : ∀ o, (σ'.get (keylet.account o)).map AccountRoot.uncounted =
    (σ.get (keylet.account o)).map AccountRoot.uncounted
  frame : ∀ k, k ∉ D →
    (∀ d ∈ D, ∀ offer, σ.get (keylet.offer d) = some offer → k ≠ .account offer.account ∧
      ¬IsPage (.ownerDir offer.account) k ∧ ¬IsPage offer.bookDirectory k) → σ' k = σ k

theorem OffersRemoved.nil (σ : State) : OffersRemoved [] σ σ where
  gone _ hd := by cases hd
  absent _ h := h
  refs _ _ _ := rfl
  refs_le _ _ := le_rfl
  roots _ := rfl
  frame _ _ _ := rfl

variable {σ σ' : State} {d : Digest} {ter : TER}

theorem OffersRemoved.eq_of_nil (h : OffersRemoved [] σ σ') : σ' = σ :=
  funext fun k => h.frame k (by simp) fun d hd => by cases hd

/-! ## Deleting one offer -/

/-- Nothing is created. -/
def KeepsAbsent (σ σ' : State) : Prop := ∀ k, σ k = none → σ' k = none

theorem KeepsAbsent.isRun : IsRun KeepsAbsent where
  refl _ _ h := h
  trans _ _ _ h1 h2 k h := h2 k (h1 k h)

theorem KeepsAbsent.set {α : Type} [IsEntry α] {k : Keylet α} {x : α} (y : α)
    (hx : σ.get k = some x) : KeepsAbsent σ (σ.set k y) := by
  intro k' hk'
  have hne : k' ≠ k.key := by
    rintro rfl
    rw [State.get_eq_some.1 hx] at hk'
    cases hk'
  simp [State.set, hne, hk']

theorem KeepsAbsent.permitsChange (α : Type) [IsEntry α] : PermitsChange KeepsAbsent α where
  set y hx := .set y hx
  del {σ k x} hx k' hk' := by
    by_cases hne : k' = k.key
    · simp [State.del, hne]
    · simp [State.del, hne, hk']

/-- Accounts keep everything but their owner counts. -/
def KeepsUncounted (σ σ' : State) : Prop :=
  ∀ o, (σ'.get (keylet.account o)).map AccountRoot.uncounted =
    (σ.get (keylet.account o)).map AccountRoot.uncounted

theorem KeepsUncounted.isRun : IsRun KeepsUncounted where
  refl _ _ := rfl
  trans _ _ _ h1 h2 o := (h2 o).trans (h1 o)

theorem KeepsUncounted.of_keeps (h : Keeps AccountRoot σ σ') : KeepsUncounted σ σ' :=
  fun o => by rw [h]

theorem KeepsUncounted.ownerCount : PermitsOwnerCount KeepsUncounted := by
  intro σ o a n ha o'
  rw [State.get_set]
  split
  · next e =>
    obtain rfl : o' = o := by simpa [keylet.account] using e
    rw [ha]
    rfl
  · rfl

theorem KeepsUncounted.of_permits {α : Type} [IsEntry α] (h : Permits (Keeps AccountRoot) α) :
    Permits KeepsUncounted α where
  set y hx := .of_keeps (h.set y hx)
  del hx := .of_keeps (h.del hx)
  insert y hk := .of_keeps (h.insert y hk)

/-- Pages list `d` less often, and everything else as often as before. -/
def RefsLess (d : Digest) (σ σ' : State) : Prop :=
  ∀ k e, σ'.refs k e ≤ σ.refs k e ∧ (e ≠ d → σ'.refs k e = σ.refs k e)

theorem RefsLess.trans {σ1 σ2 σ3 : State} (h1 : RefsLess d σ1 σ2) (h2 : RefsLess d σ2 σ3) :
    RefsLess d σ1 σ3 := fun k e =>
  ⟨(h2 k e).1.trans (h1 k e).1, fun hne => ((h2 k e).2 hne).trans ((h1 k e).2 hne)⟩

theorem RefsLess.of_keeps (h : Keeps DirNode σ σ') : RefsLess d σ σ' :=
  fun k e => ⟨(KeepsRefs.of_keeps h k e).le, fun _ => KeepsRefs.of_keeps h k e⟩

theorem RefsLess.dirDelete {keepRoot stable soft : Bool} {page : Nat} {root : Digest}
    (h : exec (dirDelete keepRoot page root d stable soft) σ = .ok (ter, σ')) :
    RefsLess d σ σ' := by
  intro k e
  rcases dirDelete_refs h with ⟨-, rfl⟩ | ⟨p, -, -, hby⟩
  · exact ⟨le_rfl, fun _ => rfl⟩
  rw [hby k e]
  split
  · next hke => exact ⟨Nat.sub_le _ _, fun hne => absurd hke.2 hne⟩
  · exact ⟨le_rfl, fun _ => rfl⟩

/-- What `offerDelete` does before it erases the offer, to pages and an owner count. -/
structure OfferUnlisted (d : Digest) (σ σ' : State) : Prop where
  ensures : ∀ {Q : State → State → Prop}, IsRun Q → PermitsChange Q DirNode → PermitsOwnerCount Q →
    Q σ σ'
  refs : RefsLess d σ σ'

theorem offerDelete_ok {offer : Offer}
    (h : exec (offerDelete (keylet.offer d) offer) σ = .ok (ter, σ')) :
    ∃ σ1 x, OfferUnlisted d σ σ1 ∧ σ1.get (keylet.offer d) = some x ∧
      σ1.del (keylet.offer d) = σ' := by
  obtain ⟨_, σ1, h1, h⟩ := exec_bind.1 h
  obtain ⟨_, σ2, h2, h⟩ := exec_bind.1 h
  have hre : RefsLess d σ σ2 := (RefsLess.dirDelete h1).trans (RefsLess.dirDelete h2)
  have hr {Q : State → State → Prop} (hQ : IsRun Q) (hN : PermitsChange Q DirNode) : Q σ σ2 :=
    hQ.trans (ensures_dirDelete hQ hN h1) (ensures_dirDelete hQ hN h2)
  split at h
  · -- the owner's page listed the offer, and the count is adjusted
    obtain ⟨_, σ3, h3, h⟩ := exec_bind.1 h
    obtain ⟨_, h4⟩ := exec_last h
    obtain ⟨x, hx, hd⟩ := exec_erase.1 h4
    have hpa : Keeps DirNode σ2 σ3 :=
      PermitsOwnerCount.adjust (fun n ha => (Keeps.permits fun _ => rfl).set _ ha) h3
    exact ⟨σ3, x, ⟨fun hQ hN hC => hQ.trans (hr hQ hN) (hC.adjust h3),
      hre.trans (.of_keeps hpa)⟩, hx, hd⟩
  obtain ⟨_, h4⟩ := exec_last h
  obtain ⟨x, hx, hd⟩ := exec_erase.1 h4
  exact ⟨σ2, x, ⟨fun hQ hN _ => hr hQ hN, hre⟩, hx, hd⟩

theorem offerDelete_removed {offer : Offer} (ho : σ.get (keylet.offer d) = some offer)
    (h : exec (offerDelete (keylet.offer d) offer) σ = .ok (ter, σ')) :
    OffersRemoved [d] σ σ' ∧ ∀ d', d' ≠ d → σ'.get (keylet.offer d') = σ.get (keylet.offer d') := by
  obtain ⟨σ1, x, hun, hx, rfl⟩ := offerDelete_ok h
  have hof : Keeps Offer σ σ1 :=
    hun.ensures Keeps.isRun (Keeps.permits fun _ => rfl).toPermitsChange
      fun n ha => (Keeps.permits fun _ => rfl).set _ ha
  have hre := hun.refs.trans (.of_keeps ((Keeps.permits fun _ => rfl).del hx))
  refine ⟨⟨fun e he => ?_, ?_, fun k e he => ?_, fun k e => (hre k e).1, ?_, fun k hk hfr => ?_⟩,
    fun d' hd' => ?_⟩
  · obtain rfl : e = d := by simpa using he
    exact ⟨by rw [ho]; rfl, by simp [State.del, keylet.offer]⟩
  · exact KeepsAbsent.isRun.trans
      (hun.ensures KeepsAbsent.isRun (KeepsAbsent.permitsChange _) fun n ha => .set _ ha)
      ((KeepsAbsent.permitsChange _).del hx)
  · exact (hre k e).2 (by simpa using he)
  · have hpa := KeepsUncounted.of_permits (α := DirNode) (Keeps.permits fun _ => rfl)
    exact KeepsUncounted.isRun.trans
      (hun.ensures KeepsUncounted.isRun hpa.toPermitsChange KeepsUncounted.ownerCount)
      (.of_keeps ((Keeps.permits fun _ => rfl).del hx))
  · obtain ⟨hacc, hown, hbo⟩ := hfr d (by simp) offer ho
    refine (within_offerDelete (P := (· ≠ k)) ?_ ?_ ?_ ?_).frame h (by simp)
    · exact fun e => hk (by simp [← e, keylet.offer])
    · rintro key hkey rfl
      exact hown hkey
    · rintro key hkey rfl
      exact hbo hkey
    · exact Ne.symm hacc
  · rw [State.get_del_ne (by simpa [keylet.offer] using hd'), hof]

/-! ## Deleting many offers -/

theorem OffersRemoved.cons {D : List Digest} {σ1 σ2 : State} (h1 : OffersRemoved [d] σ σ1)
    (hoff : ∀ d', d' ≠ d → σ1.get (keylet.offer d') = σ.get (keylet.offer d'))
    (h2 : OffersRemoved D σ1 σ2) : OffersRemoved (d :: D) σ σ2 := by
  obtain ⟨hso, hno⟩ := h1.gone d (by simp)
  have hne {d' : Digest} (hd' : d' ∈ D) : d' ≠ d := by
    rintro rfl
    have := (h2.gone d' hd').1
    rw [State.get_of_none (k := keylet.offer d') hno] at this
    cases this
  refine ⟨fun d' hd' => ?_, fun k h => h2.absent k (h1.absent k h), fun k d' hd' => ?_,
    fun k d' => (h2.refs_le k d').trans (h1.refs_le k d'),
    fun o => (h2.roots o).trans (h1.roots o), fun k hk hfr => ?_⟩
  · rcases List.mem_cons.1 hd' with rfl | hd'
    · exact ⟨hso, h2.absent _ hno⟩
    · obtain ⟨hs, hn⟩ := h2.gone d' hd'
      exact ⟨by rwa [hoff d' (hne hd')] at hs, hn⟩
  · obtain ⟨hnd, hnD⟩ := not_or.1 fun hm => hd' (List.mem_cons.2 hm)
    exact (h2.refs k d' hnD).trans (h1.refs k d' (by simpa using hnd))
  obtain ⟨hnd, hnD⟩ := not_or.1 fun hm => hk (List.mem_cons.2 hm)
  have hk2 : σ2 k = σ1 k := h2.frame k hnD fun d' hd' offer ho =>
    hfr d' (List.mem_cons_of_mem _ hd') offer (by rwa [hoff d' (hne hd')] at ho)
  have hk1 : σ1 k = σ k := h1.frame k (by simpa using hnd) fun d' hd' offer ho => by
    obtain rfl : d' = d := by simpa using hd'
    exact hfr d' List.mem_cons_self offer ho
  exact hk2.trans hk1

theorem removeUnfundedOffers_removed {offers : List Digest} {n : Nat} {u : Unit} (hn : n < 1000)
    (h : exec (removeUnfundedOffers offers n) σ = .ok (u, σ')) :
    ∃ D, D.Sublist offers ∧ n + D.length ≤ 1000 ∧ OffersRemoved D σ σ' := by
  induction offers generalizing n σ with
  | nil =>
    obtain ⟨-, rfl⟩ := exec_pure.1 h
    exact ⟨[], .slnil, hn.le, .nil _⟩
  | cons d _ ih =>
    obtain ⟨o, ho, h⟩ := exec_peek_ok h
    cases o with
    | none =>
      obtain ⟨D, hs, hl, hr⟩ := ih hn h
      exact ⟨D, hs.cons _, hl, hr⟩
    | some _ =>
      obtain ⟨_, _, h2, h⟩ := exec_bind.1 h
      obtain ⟨hr1, hoff⟩ := offerDelete_removed ho h2
      split at h
      · next hlim =>
        obtain ⟨-, rfl⟩ := exec_pure.1 h
        exact ⟨[d], (List.nil_sublist _).cons_cons _, by simp [hlim], hr1⟩
      obtain ⟨D, hs, hl, hr⟩ := ih (by omega) h
      refine ⟨d :: D, hs.cons_cons _, ?_, hr1.cons hoff hr⟩
      rw [List.length_cons]
      omega

/-! ## The claimed fee -/

theorem claimFee_listedAt {app : Application} {tx : STTx} {fee fee' : Int} {offers : List Digest}
    {place : Option (Digest × Nat)} (h : exec (claimFee app tx fee offers) σ = .ok (fee', σ'))
    (hd : place ≠ none → σ.get (keylet.offer d) = none) (hl : ListedAt σ d place) :
    ListedAt σ' d place := by
  obtain ⟨a, m, _, ha, -, ho, hm, rfl⟩ := exec_claimFee h
  obtain ⟨D, -, -, hr⟩ := removeUnfundedOffers_removed (by omega) ho
  have hset {σ : State} {o : AccountID} {a : AccountRoot} (a' : AccountRoot)
      (ha : σ.get (keylet.account o) = some a) (hl : ListedAt σ d place) :
      ListedAt (σ.set (keylet.account o) a') d place :=
    hl.of_refs fun p => KeepsRefs.of_keeps ((Keeps.permits fun _ => rfl).set a' ha) p d
  refine hset _ hm ?_
  have hl1 := hset { a with balance := a.balance - fee', sequence := tx.sequence + 1 } ha hl
  cases place with
  | none => exact fun p => Nat.le_zero.1 ((hr.refs_le p d).trans_eq (hl1 p))
  | some place =>
    refine hl1.of_refs fun p => hr.refs p d fun hD => ?_
    have hs := (hr.gone d hD).1
    rw [(Keeps.permits fun _ => rfl).set _ ha, hd (by simp)] at hs
    cases hs

/-- The work that left the table `t` deleted an offer without changing its `sfTakerPays`. -/
def DeletesOffer (v : OpenView) (t : LedgerTable) (d : Digest) : Prop :=
  ∃ s₀ s before after, v.entries d = some s₀ ∧ s₀.entry = .offer before ∧
    t.lookup d = some ⟨.erase, s⟩ ∧ s.entry = .offer after ∧
    before.takerPays.eq after.takerPays = true

theorem deletesOffer_of_mem {v : OpenView} {t : LedgerTable} (h : d ∈ removedOffers v t) :
    DeletesOffer v t d := by
  obtain ⟨⟨k, _, s⟩, hi, hd⟩ := List.mem_filterMap.1 h
  have hl := AList.mem_lookup_iff.2 hi
  dsimp only at hd
  split at hd
  · next before after hbe haf =>
    split at hd
    · next heq =>
      obtain rfl := Option.some.inj hd
      obtain ⟨s0, hs0, he0⟩ := Option.map_eq_some_iff.1 hbe
      exact ⟨s0, s, before, after, hs0, he0, hl, haf, heq⟩
    · cases hd
  · cases hd

/-- A transaction that only claims its fee moves the fee, advances the sequence, and may remove
offers that its work had removed; nothing else changes, whatever `doApply` did. -/
theorem fee_claim_frame {T : Transactor} {ctx : ApplyContext} {pre : TER} {o : Outcome}
    (h : T.operator ctx pre = .ok o) (ha : o.applied = true) (htec : o.ter.isTecClaim = true) :
    ∃ (result : TER) (t₀ : LedgerTable) (fee₀ fee : Int) (a m : AccountRoot) (D : List Digest)
      (σ₁ : State),
      T.attempt ctx pre = .ok (result, t₀) ∧ ctx.tx.fee.drops = .ok fee₀ ∧
      ctx.view.state.get (keylet.account ctx.tx.account) = some a ∧ fee = min fee₀ a.balance ∧
      OffersRemoved D (ctx.view.state.set (keylet.account ctx.tx.account)
        { a with balance := a.balance - fee, sequence := ctx.tx.sequence + 1 }) σ₁ ∧
      (o.ter ≠ .tecOVERSIZE → D = []) ∧ D.length ≤ 1000 ∧ (∀ d ∈ D, DeletesOffer ctx.view t₀ d) ∧
      σ₁.get (keylet.account ctx.app.genesisAccount) = some m ∧
      o.view.state = σ₁.set (keylet.account ctx.app.genesisAccount)
        { m with balance := m.balance + fee } := by
  rcases operator_cases h with ⟨-, _, _, _, _, hs⟩ | ⟨result, t₀, t, fee₀, fee, hatt, hc⟩ | ⟨hna, -⟩
  · rw [hs.ter] at htec
    cases htec
  · obtain ⟨a, m, σ₁, hacc, hf, ho, hm, hσ⟩ := exec_claimFee hc.exec.1
    obtain ⟨D, hsub, _, hr⟩ := removeUnfundedOffers_removed (by omega) ho
    refine ⟨result, t₀, fee₀, fee, a, m, D, σ₁, hatt, hc.paid, hacc, hf, hr, fun hne => ?_,
      by omega, fun d hd => ?_, hm, hσ⟩
    · rw [if_neg hne] at hsub
      exact List.sublist_nil.1 hsub
    have hmem := hsub.subset hd
    split at hmem
    · exact deletesOffer_of_mem hmem
    · cases hmem
  · rw [hna] at ha
    cases ha

/-- Account 2 fails, and pays its fee of ten. -/
theorem fee_claim_frame_sample :
    ∃ o D σ₁, failing.operator (context two (tx 9 2 1)) .tesSUCCESS =
        .ok o ∧ o.ter = .tecFAILED_PROCESSING ∧
      OffersRemoved D (two.state.set (keylet.account 2)
        { account := 2, sequence := 2, balance := 490 }) σ₁ ∧ D = [] ∧
      o.view.state = σ₁.set (keylet.account 1) { account := 1, sequence := 1, balance := 1010 } := by
  have he : ending (failing.operator (context two (tx 9 2 1))
      .tesSUCCESS) = .ok (.tecFAILED_PROCESSING, true) := by decide +kernel
  obtain ⟨-, -, fee0, fee, a, m, D, σ₁, -, hf0, ha, hf, hr, hD, -, -, hm, hσ⟩ :=
    fee_claim_frame (ending_eq_ok he two) rfl rfl
  obtain rfl : 10 = fee0 := Except.ok.inj hf0
  obtain rfl : ({ account := 2, sequence := 1, balance := 500 } : AccountRoot) = a :=
    Option.some.inj ha
  obtain rfl : fee = 10 := hf
  obtain rfl : D = [] := hD (by decide)
  obtain rfl := hr.eq_of_nil
  obtain rfl : ({ account := 1, sequence := 1, balance := 1000 } : AccountRoot) = m :=
    Option.some.inj hm
  exact ⟨_, [], _, ending_eq_ok he two, rfl, hr, rfl, hσ⟩

/-- Applying the table of a claimed fee threads the transaction to the sender's account. -/
theorem fee_claim_threads_sender :
    ∃ T ctx pre o a a', Transactor.operator T ctx pre = .ok o ∧ o.applied = true ∧
      o.ter.isTecClaim = true ∧ o.ter ≠ .tecOVERSIZE ∧
      ctx.view.entries (.account ctx.tx.account) = some a ∧
      o.view.entries (.account ctx.tx.account) = some a' ∧ a'.previousTxnID ≠ a.previousTxnID := by
  have he : ending (failing.operator (context two (tx 9 2 1))
      .tesSUCCESS) = .ok (.tecFAILED_PROCESSING, true) := by decide +kernel
  refine ⟨failing, _, _, _, _, _, ending_eq_ok he two, rfl, rfl, by decide, rfl, rfl, ?_⟩
  decide +kernel

end FinPal
