import FinPal.Ledger.Pages

/-!
# What credits do to trust lines and trackers
-/

namespace FinPal
open Store ViewM State Keeps STAmount MTChainState

/-! ## Keys -/

theorem line_key_comm (A B : AccountID) (c : Currency) : keylet.line A B c = keylet.line B A c := by
  unfold keylet.line
  rw [getMtchainStateIndex_comm]

variable {A B X Y : AccountID} {c : Currency} {σ σ1 σ2 σ' : State} {v : STAmount} {ter : TER}

theorem line_key_inj {c' : Currency} : (keylet.line A B c).key = (keylet.line X Y c').key ↔
      c = c' ∧ ((A = X ∧ B = Y) ∨ (A = Y ∧ B = X)) := by
  change getMtchainStateIndex A B c = getMtchainStateIndex X Y c' ↔ _
  unfold getMtchainStateIndex
  rcases lt_trichotomy A B with h | rfl | h <;> rcases lt_trichotomy X Y with h' | rfl | h' <;>
    grind

theorem exists_line_key (A B : AccountID) (c : Currency) :
    ∃ a b, (keylet.line A B c).key = Digest.line a b c := by
  change ∃ a b, getMtchainStateIndex A B c = Digest.line a b c
  unfold getMtchainStateIndex
  split <;> exact ⟨_, _, rfl⟩

theorem ownerDir_page_inj {p q : Nat} :
    (keylet.page (.ownerDir A) p).key = (keylet.page (.ownerDir X) q).key ↔ A = X ∧ p = q := by
  constructor
  · intro h
    have hA : A = X := by
      change getDirNodeIndex (.ownerDir A) p = getDirNodeIndex (.ownerDir X) q at h
      unfold getDirNodeIndex at h
      split at h <;> split at h <;> simp_all
    subst hA
    exact ⟨rfl, page_key_inj.1 h⟩
  · rintro ⟨rfl, rfl⟩
    rfl

theorem line_key_ne_tracker {I : Issue} (hA : A ≠ mAccount) (hB : B ≠ mAccount) :
    (keylet.line A B c).key ≠ (keylet.tracker I).key := by
  rw [keylet.tracker, Ne, line_key_inj]
  rintro ⟨-, ⟨h, -⟩ | ⟨-, h⟩⟩
  · exact hA h
  · exact hB h

theorem tracker_key_inj {I J : Issue} : (keylet.tracker I).key = (keylet.tracker J).key ↔ I = J := by
  obtain ⟨c, a⟩ := I
  obtain ⟨-, -⟩ := J
  rw [keylet.tracker, keylet.tracker, line_key_inj]
  constructor
  · rintro ⟨rfl, ⟨-, rfl⟩ | ⟨rfl, rfl⟩⟩ <;> rfl
  · rintro ⟨⟩
    exact ⟨rfl, .inl ⟨rfl, rfl⟩⟩

/-! ## Debts and trackers -/

def STAmount.value : STAmount → ℚ
  | native _ => 0
  | issued _ q => q

theorem STAmount.value_neg (v : STAmount) : (-v).value = -v.value := by
  cases v <;> simp [value]

theorem STAmount.getCurrency_neg (v : STAmount) : (-v).getCurrency = v.getCurrency := by
  cases v <;> rfl

/-- What `debtor` owes on its line with `holder`, negative when it is owed. -/
def State.debt (σ : State) (debtor holder : AccountID) (c : Currency) : ℚ :=
  (σ.get (keylet.line debtor holder c)).elim 0 fun s => -(s.balanceOf (holder < debtor)).value

variable {s : MTChainState}

theorem State.debt_eq (h : σ.get (keylet.line A B c) = some s) :
    σ.debt A B c = -(s.balanceOf (B < A)).value := by
  rw [debt, h, Option.elim_some]

theorem State.debt_comm (σ : State) (h : A ≠ B) (c : Currency) : σ.debt B A c = -σ.debt A B c := by
  unfold debt
  rw [line_key_comm B A]
  cases σ.get (keylet.line A B c) with
  | none => simp
  | some s =>
    rcases lt_or_gt_of_ne h with h | h <;>
      simp [balanceOf, h, h.asymm, value_neg]

/-- The value of the tracker of an issue, if there is one and it counts. -/
def State.tracked (σ : State) (I : Issue) : Option ℚ :=
  (σ.get (keylet.tracker I)).bind fun t =>
    match t.balance with
    | .issued i q => if i.currency = I.currency then some q else none
    | .native _ => none

/-- How often page `p` of an account's directory lists an entry. -/
def State.listing (σ : State) (X : AccountID) (p : Nat) (d : Digest) : Nat :=
  σ.refs (keylet.page (.ownerDir X) p).key d

/-- The directory of `X` is a ring of pages, which lists the trust lines of `X` once each and no other
lines. -/
structure ListsLines (X : AccountID) (σ : State) : Prop where
  ring : ∃ S, DirRing σ (.ownerDir X) S
  line : ∀ {Y c s}, Y ≠ mAccount → Y ≠ X → σ.get (keylet.line X Y c) = some s →
    s.balance.getCurrency = c ∧ s.lowLimit.getIssuer = min X Y ∧
      ∃ n, ∀ p, σ.listing X p (keylet.line X Y c).key = if p = n then 1 else 0
  absent : ∀ {Y c}, Y ≠ mAccount → Y ≠ X → σ.get (keylet.line X Y c) = none →
    ∀ p, σ.listing X p (keylet.line X Y c).key = 0
  own : ∀ {p a b c}, 0 < σ.listing X p (.line a b c) →
    ∃ Y, Y ≠ mAccount ∧ Y ≠ X ∧ Digest.line a b c = (keylet.line X Y c).key
  keyed : ∀ {d s}, σ.get (⟨d⟩ : Keylet MTChainState) = some s → ∃ a b c, d = .line a b c

/-- The debts between accounts change by `δ` and the trackers by `τ`. -/
structure CreditStep (δ : AccountID → AccountID → Currency → ℚ) (τ : Issue → ℚ) (σ σ' : State) :
    Prop where
  debt : ∀ {X Y} c, X ≠ mAccount → Y ≠ mAccount → X ≠ Y → σ'.debt X Y c = σ.debt X Y c + δ X Y c
  tracked : ∀ {I q}, σ.tracked I = some q → σ'.tracked I = some (q + τ I)
  lists : ∀ {X}, X ≠ mAccount → ListsLines X σ → ListsLines X σ'

theorem CreditStep.refl (σ : State) : CreditStep 0 0 σ σ where
  debt _ _ _ _ := (add_zero _).symm
  tracked h := h.trans (by rw [Pi.zero_apply, add_zero])
  lists _ h := h

theorem CreditStep.trans {δ1 δ2 : AccountID → AccountID → Currency → ℚ} {τ1 τ2 : Issue → ℚ}
    {σ3 : State} (h1 : CreditStep δ1 τ1 σ1 σ2) (h2 : CreditStep δ2 τ2 σ2 σ3) :
    CreditStep (δ1 + δ2) (τ1 + τ2) σ1 σ3 where
  debt c hX hY hne := by
    rw [h2.debt c hX hY hne, h1.debt c hX hY hne]
    simp [add_assoc]
  tracked h := by
    rw [h2.tracked (h1.tracked h)]
    simp [add_assoc]
  lists hX h := h2.lists hX (h1.lists hX h)

/-- A debt of `A` to `B` that grows by `d`. -/
def debtBy (A B : AccountID) (c : Currency) (d : ℚ) (X Y : AccountID) (c' : Currency) : ℚ :=
  if c' = c then if X = A ∧ Y = B then d else if X = B ∧ Y = A then -d else 0 else 0

/-- The change of the tracker of an issue. -/
def trackBy (v : STAmount) (I : Issue) : ℚ := if v.issue = I then v.value else 0

/-! ## Writing what no line depends on -/

/-- What `ListsLines` says of a line. -/
def MTChainState.shape (s : MTChainState) : Currency × AccountID :=
  (s.balance.getCurrency, s.lowLimit.getIssuer)

theorem KeepsRefs.listing (h : KeepsRefs σ σ') (X : AccountID) (p : Nat) (d : Digest) :
    σ'.listing X p d = σ.listing X p d := h _ d

theorem ListsLines.of_shape (h : ListsLines X σ) (hN : Keeps DirNode σ σ')
    (hsh : ∀ {Y} c, Y ≠ mAccount → Y ≠ X → (σ'.get (keylet.line X Y c)).map shape =
      (σ.get (keylet.line X Y c)).map shape)
    (hke : ∀ {d s}, σ'.get (⟨d⟩ : Keylet MTChainState) = some s → ∃ a b c, d = .line a b c) :
    ListsLines X σ' := by
  have hli (p) (d) := (KeepsRefs.of_keeps hN).listing X p d
  refine ⟨?_, fun {Y c s'} hY hne hs' => ?_, fun {Y c} hY hne hno p => ?_, fun {p a b c} hp => ?_,
    hke⟩
  · obtain ⟨S, hS⟩ := h.ring
    refine ⟨S, hS.of_links (funext fun p => ?_)⟩
    unfold links
    rw [hN]
  · have hm := hsh c hY hne
    rw [hs'] at hm
    obtain ⟨s, hs, hsh⟩ := Option.map_eq_some_iff.1 hm.symm
    obtain ⟨hc, hl⟩ := Prod.mk.inj hsh
    obtain ⟨hc', hl', hn⟩ := h.line hY hne hs
    refine ⟨hc ▸ hc', hl ▸ hl', ?_⟩
    simpa [hli] using hn
  · have hm := hsh c hY hne
    rw [hno, Option.map_none, eq_comm, Option.map_eq_none_iff] at hm
    rw [hli]
    exact h.absent hY hne hm p
  · rw [hli] at hp
    exact h.own hp

theorem CreditStep.of_lines {τ : Issue → ℚ} (hN : Keeps DirNode σ σ')
    (hli : ∀ {A B} c, A ≠ mAccount → B ≠ mAccount → σ'.get (keylet.line A B c) = σ.get
      (keylet.line A B c))
    (hke : ∀ {d s}, σ'.get (⟨d⟩ : Keylet MTChainState) = some s → (σ.get (⟨d⟩ : Keylet
      MTChainState)).isSome = true)
    (htr : ∀ {I q}, σ.tracked I = some q → σ'.tracked I = some (q + τ I)) :
    CreditStep 0 τ σ σ' where
  debt c hX hY _ := by
    unfold State.debt
    rw [hli c hX hY]
    exact (add_zero _).symm
  tracked := htr
  lists hX h := h.of_shape hN (fun c hY _ => by rw [hli c hX hY]) fun hs => by
    obtain ⟨s, hs⟩ := Option.isSome_iff_exists.1 (hke hs)
    exact h.keyed hs

theorem CreditStep.of_keeps (hN : Keeps DirNode σ σ') (hL : Keeps MTChainState σ σ') :
    CreditStep 0 0 σ σ' :=
  .of_lines hN (fun _ _ _ => hL _) (fun hs => by rw [← hL, hs]; rfl) fun h => by
    unfold State.tracked at h ⊢
    rw [hL, h, Pi.zero_apply, add_zero]

theorem CreditStep.adjustOwnerCount {id : AccountID} {n : Int} {u : Unit}
    (h : exec (adjustOwnerCount id n) σ = .ok (u, σ')) : CreditStep 0 0 σ σ' := by
  obtain ⟨a, ha, rfl⟩ := exec_update.1 h
  exact .of_keeps ((permits fun _ => rfl).set _ ha) ((permits fun _ => rfl).set _ ha)

/-! ## The hook -/

/-- The amount by which `creditHook` changes a tracker. -/
def hookAmount (src : AccountID) (amount pre : STAmount) : STAmount :=
  if pre.signum < 0 then amount
  else if 0 < pre.signum then -amount
  else if src ≠ amount.getIssuer then (amount.setIssuer src).zeroed
  else amount

theorem creditHook_eq (src dst : AccountID) (amount pre : STAmount) :
    creditHook src dst amount pre = updateIssueTotalAmount (hookAmount src amount pre) := by
  unfold creditHook hookAmount
  repeat' split
  all_goals rfl

/-- The part of a line that `addOwed` reads. -/
def MTChainState.owing (s : MTChainState) : MTChainState where
  balance := s.balance
  lowLimit := s.lowLimit

/-- A total is computed alike in the two states. -/
structure SameTotals (σ σ1 : State) : Prop where
  nodes : Keeps DirNode σ σ1
  lines : ∀ k : Keylet MTChainState, (σ1.get k).map owing = (σ.get k).map owing

theorem SameTotals.refl (σ : State) : SameTotals σ σ := ⟨fun _ => rfl, fun _ => rfl⟩

theorem SameTotals.symm (h : SameTotals σ σ1) : SameTotals σ1 σ :=
  ⟨fun k => (h.nodes k).symm, fun k => (h.lines k).symm⟩

theorem SameTotals.forEachItem {root : Digest} {fuel page : Nat} {items : List MTChainState}
    (h : SameTotals σ σ1) (he : exec (forEachItem root fuel page) σ = .ok (items, σ')) :
    σ' = σ ∧ ∃ items1, exec (forEachItem root fuel page) σ1 = .ok (items1, σ1) ∧
      items1.map owing = items.map owing := by
  induction fuel generalizing page items σ' with
  | zero => exact (exec_throw.1 he).elim
  | succ fuel ih =>
    rw [FinPal.forEachItem, exec_peek_bind] at he ⊢
    rw [h.nodes]
    cases hn : σ.get (keylet.page root page) with
    | none =>
      rw [hn] at he
      obtain ⟨rfl, rfl⟩ := exec_pure.1 he
      exact ⟨rfl, [], rfl, rfl⟩
    | some node =>
      have hre : (node.indexes.filterMap fun d => σ1.get ⟨d⟩).map owing =
          (node.indexes.filterMap fun d => σ.get ⟨d⟩).map owing := by
        simp only [List.map_filterMap, h.lines]
      rw [hn] at he
      dsimp only at he ⊢
      rw [exec_bind_of_ok (exec_readItems _ _)] at he ⊢
      split at he
      · next hla =>
        obtain ⟨rfl, rfl⟩ := exec_pure.1 he
        rw [if_pos hla]
        exact ⟨rfl, _, exec_pure.2 ⟨rfl, rfl⟩, hre⟩
      · next hla =>
        obtain ⟨_, _, hr, he⟩ := exec_bind.1 he
        obtain ⟨rfl, rfl⟩ := exec_pure.1 he
        obtain ⟨hσ', rest1, hre1, hm⟩ := ih hr
        rw [if_neg hla]
        refine ⟨hσ', _, exec_bind.2 ⟨rest1, σ1, hre1, exec_pure.2 ⟨rfl, rfl⟩⟩, ?_⟩
        rw [List.map_append, List.map_append, hre, hm]

theorem foldlM_owing (I : Issue) (v : STAmount) (l : List MTChainState) :
    (l.map owing).foldlM (addOwed I) v = l.foldlM (addOwed I) v :=
  List.foldlM_map ..

theorem SameTotals.newTotal {t total : STAmount} (h : SameTotals σ σ1)
    (he : exec (newTotal v t) σ = .ok (total, σ')) :
    σ' = σ ∧ exec (newTotal v t) σ1 = .ok (total, σ1) := by
  unfold FinPal.newTotal at he ⊢
  split at he
  · next hna =>
    rw [if_pos hna]
    obtain ⟨_, _, hit, he⟩ := exec_bind.1 he
    obtain ⟨hto, rfl⟩ := exec_ofExcept.1 he
    obtain ⟨hσ', items1, hit1, hm⟩ := h.forEachItem hit
    refine ⟨hσ', exec_bind.2 ⟨items1, σ1, hit1, exec_ofExcept.2 ⟨?_, rfl⟩⟩⟩
    rw [← foldlM_owing, hm, foldlM_owing, hto]
  · next hna =>
    rw [if_neg hna]
    obtain ⟨hto, rfl⟩ := exec_ofExcept.1 he
    exact ⟨rfl, exec_ofExcept.2 ⟨hto, rfl⟩⟩

theorem exec_updateIssueTotalAmount : exec (updateIssueTotalAmount v) σ = .ok (ter, σ') ↔
    (σ.get (keylet.tracker v.issue) = none ∧ ter = .tecNO_ENTRY ∧ σ' = σ) ∨
    ∃ t total, σ.get (keylet.tracker v.issue) = some t ∧
      exec (newTotal v t.balance) σ = .ok (total, σ) ∧ ter = .tesSUCCESS ∧
      σ' = σ.set (keylet.tracker v.issue) { t with balance := total } := by
  rw [updateIssueTotalAmount, exec_peek_bind]
  cases ho : σ.get (keylet.tracker v.issue) with
  | none => simp [exec_pure, eq_comm]
  | some t =>
    constructor
    · intro h
      obtain ⟨total, _, hto, h⟩ := exec_bind.1 h
      have hσ1 := (SameTotals.newTotal (.refl σ) hto).1
      rw [hσ1] at hto
      rw [hσ1, exec_update_bind ho] at h
      obtain ⟨rfl, rfl⟩ := exec_pure.1 h
      exact .inr ⟨t, total, rfl, hto, rfl, rfl⟩
    rintro (⟨hno, -⟩ | ⟨_, total, ⟨⟩, hto, rfl, rfl⟩)
    · cases hno
    refine exec_bind.2 ⟨total, σ, hto, ?_⟩
    rw [exec_update_bind ho]
    rfl

theorem STAmount.add_issued {i : Issue} {q : ℚ} {total : STAmount}
    (h : v.add (.issued i q) = .ok total) :
    v.getCurrency = i.currency ∧ total = .issued v.issue (v.value + q) := by
  cases v with
  | native d => cases h
  | issued j p =>
    rw [add] at h
    split at h
    · next hc => exact ⟨hc, (Except.ok.inj h).symm⟩
    · cases h

theorem CreditStep.update (h : exec (updateIssueTotalAmount v) σ = .ok (ter, σ')) :
    CreditStep 0 (trackBy v) σ σ' := by
  rcases exec_updateIssueTotalAmount.1 h with ⟨hno, -, rfl⟩ | ⟨t, _, ht, hto, -, rfl⟩
  · refine .of_lines (fun _ => rfl) (fun _ _ _ => rfl) (fun hs => by rw [hs]; rfl) fun {I q} hq => ?_
    rw [trackBy, if_neg, hq, add_zero]
    rintro rfl
    rw [State.tracked, hno] at hq
    cases hq
  refine .of_lines ((permits fun _ => rfl).set _ ht) (fun c hA hB => ?_) (fun {d s} hs => ?_)
    fun {I q} hq => ?_
  · exact get_set_ne (line_key_ne_tracker hA hB) _
  · rw [get_set] at hs
    split at hs
    · next hd =>
      have hk : (⟨d⟩ : Keylet MTChainState) = keylet.tracker v.issue := by
        cases hd
        rfl
      rw [hk, ht]
      rfl
    · rw [hs]
      rfl
  unfold State.tracked at hq ⊢
  simp only [get_set, tracker_key_inj]
  by_cases hI : I = v.issue
  · subst hI
    rw [ht, Option.bind_some] at hq
    rw [if_pos rfl, Option.bind_some, trackBy, if_pos rfl]
    cases hb : t.balance with
    | native d => rw [hb] at hq; cases hq
    | issued i p =>
      rw [hb] at hq hto
      obtain ⟨hc, rfl⟩ := add_issued (exec_ofExcept.1 hto).1
      change v.issue.currency = i.currency at hc
      dsimp only at hq ⊢
      rw [if_pos hc.symm] at hq
      rw [if_pos rfl, ← Option.some.inj hq, add_comm]
  · rw [if_neg hI, hq, trackBy, if_neg (Ne.symm hI), add_zero]

variable {src dst : AccountID}

theorem CreditStep.hook {amount pre : STAmount}
    (h : exec (creditHook src dst amount pre) σ = .ok (ter, σ')) :
    CreditStep 0 (trackBy (hookAmount src amount pre)) σ σ' := by
  rw [creditHook_eq] at h
  exact .update h

/-! ## Writing a line -/

section Lines
variable {σ σ' : State} {A B X : AccountID} {c : Currency} {d : ℚ}

theorem debtBy_zero (A B : AccountID) (c : Currency) : debtBy A B c 0 = 0 := by
  funext X Y c'
  simp [debtBy]

theorem debt_of_line (hne : A ≠ B) (hd : σ'.debt A B c = σ.debt A B c + d)
    (hfr : ∀ k : Keylet MTChainState, k.key ≠ (keylet.line A B c).key → σ'.get k = σ.get k)
    {X : AccountID} (c' : Currency) : σ'.debt X Y c' = σ.debt X Y c' + debtBy A B c d X Y c' := by
  by_cases hk : (keylet.line X Y c').key = (keylet.line A B c).key
  · obtain ⟨rfl, ⟨rfl, rfl⟩ | ⟨rfl, rfl⟩⟩ := line_key_inj.1 hk
    · simp [debtBy, hd]
    rw [σ'.debt_comm hne, σ.debt_comm hne, hd]
    simp [debtBy, hne, hne.symm]
    ring
  have hz : debtBy A B c d X Y c' = 0 := by
    rw [line_key_inj] at hk
    unfold debtBy
    split
    · next hc =>
      rw [if_neg fun h => hk ⟨hc, .inl h⟩, if_neg fun h => hk ⟨hc, .inr h⟩]
    · rfl
  unfold debt
  rw [hfr _ hk, hz, add_zero]

theorem tracked_of_frame (hA : A ≠ mAccount) (hB : B ≠ mAccount)
    (hfr : ∀ k : Keylet MTChainState, k.key ≠ (keylet.line A B c).key → σ'.get k = σ.get k)
    (I : Issue) : σ'.tracked I = σ.tracked I := by
  unfold tracked
  rw [hfr _ (line_key_ne_tracker hA hB).symm]

theorem CreditStep.setLine (hA : A ≠ mAccount) (hB : B ≠ mAccount) (hne : A ≠ B)
    (s' : MTChainState) (hs : σ.get (keylet.line A B c) = some s)
    (hc : s.balance.getCurrency = c → s'.balance.getCurrency = c) (hl : s'.lowLimit = s.lowLimit)
    (hd : -(s'.balanceOf (B < A)).value = -(s.balanceOf (B < A)).value + d) :
    CreditStep (debtBy A B c d) 0 σ (σ.set (keylet.line A B c) s') := by
  have hfr (k : Keylet MTChainState) (hk : k.key ≠ (keylet.line A B c).key) :
      (σ.set (keylet.line A B c) s').get k = σ.get k := get_set_ne hk _
  refine ⟨fun c' _ _ _ => debt_of_line hne ?_ hfr c', fun {I q} hq => ?_, fun {X} hX h => ?_⟩
  · rw [debt_eq (get_set_self ..), debt_eq hs, hd]
  · rw [tracked_of_frame hA hB hfr, hq, Pi.zero_apply, add_zero]
  refine h.of_shape ((permits fun _ => rfl).set _ hs) (fun {Y} c' hY hYX => ?_) fun {k t} ht => ?_
  · by_cases hkey : (keylet.line X Y c').key = (keylet.line A B c).key
    · have hk : keylet.line X Y c' = keylet.line A B c := by
        unfold keylet.line
        rw [show getMtchainStateIndex X Y c' = getMtchainStateIndex A B c from hkey]
      obtain ⟨rfl, -⟩ := line_key_inj.1 hkey
      obtain ⟨hcur, -⟩ := h.line hY hYX (hk ▸ hs)
      rw [hk, get_set_self, hs, Option.map_some, Option.map_some, shape, shape, hl, hcur, hc hcur]
    · rw [hfr _ hkey]
  rw [get_set] at ht
  split at ht
  · next hk => exact h.keyed (by cases hk; exact hs)
  · exact h.keyed ht

end Lines

/-! ## Filing a line -/

section Filing
variable {σ σ' : State} {A B X : AccountID} {c : Currency} {d : Digest}

/-- The directories of all accounts are rings still. -/
def KeepsRings (σ σ' : State) : Prop :=
  ∀ {X : AccountID}, (∃ S, DirRing σ (.ownerDir X) S) → ∃ S, DirRing σ' (.ownerDir X) S

/-- A ring is kept by a program on one directory's pages that keeps the ring there. -/
theorem keepsRings_of_within {β : Type} {p : ViewM β} {b : β}
    (hw : Within (IsPage (.ownerDir A)) p) (h : exec p σ = .ok (b, σ'))
    (hA : ∀ {S}, DirRing σ (.ownerDir A) S → ∃ S', DirRing σ' (.ownerDir A) S') :
    KeepsRings σ σ' := by
  rintro X ⟨S, hS⟩
  by_cases hXA : X = A
  · subst hXA
    exact hA hS
  refine ⟨S, hS.of_frame fun k hk => hw.frame h ?_⟩
  rintro ⟨q, rfl⟩
  obtain ⟨p, hp⟩ := hk
  exact hXA (ownerDir_page_inj.1 hp.symm).1

variable {a : AccountID}

theorem ownerDir_add {n : Nat}
    (h : exec (dirAdd (keylet.ownerDir A) d (describeOwnerDir a)) σ = .ok ((.tesSUCCESS, n), σ')) :
    KeepsRings σ σ' ∧ ∀ X p d', σ'.listing X p d' =
      if X = A ∧ p = n ∧ d' = d then σ.listing X p d' + 1 else σ.listing X p d' := by
  refine ⟨keepsRings_of_within (within_dirAdd fun _ => id) h fun hS =>
    dirAdd_ring (keepsLinks_describeOwnerDir a) hS h, fun X p d' => ?_⟩
  have hby := dirAdd_refs (describes_describeOwnerDir a) h
  simp only [listing, hby _ d', keylet.ownerDir, ownerDir_page_inj, and_assoc]

theorem ownerDir_delete {keepRoot stable soft : Bool} {page : Nat}
    (h : Succeeds (dirDelete keepRoot page (.ownerDir A) d stable soft) σ σ') :
    KeepsRings σ σ' ∧ ∃ n, 0 < σ.listing A n d ∧ ∀ X p d', σ'.listing X p d' =
      if X = A ∧ p = n ∧ d' = d then σ.listing X p d' - 1 else σ.listing X p d' := by
  refine ⟨keepsRings_of_within (within_dirDelete fun _ => id) h fun hS => dirDelete_ring hS h, ?_⟩
  rcases dirDelete_refs h with ⟨ht, -⟩ | ⟨n, -, hp, hby⟩
  · cases ht
  · refine ⟨n, hp, fun X p d' => ?_⟩
    simp only [listing, hby _ d', ownerDir_page_inj, and_assoc]

theorem ListsLines.not_own (h : ListsLines X σ) (hXA : X ≠ A) (hXB : X ≠ B) (p : Nat) :
    σ.listing X p (keylet.line A B c).key = 0 := by
  by_contra hp
  obtain ⟨a, b, hab⟩ := exists_line_key A B c
  rw [hab] at hp
  obtain ⟨Y, -, -, hY⟩ := h.own (Nat.pos_of_ne_zero hp)
  rw [← hab, line_key_inj] at hY
  obtain ⟨-, ⟨rfl, -⟩ | ⟨-, rfl⟩⟩ := hY
  · exact hXA rfl
  · exact hXB rfl

theorem ListsLines.listing_eq {n : Nat} (h : ListsLines X σ)
    (hY : Y ≠ mAccount) (hYX : Y ≠ X) (hs : σ.get (keylet.line X Y c) = some s)
    (hp : 0 < σ.listing X n (keylet.line X Y c).key) (p : Nat) :
    σ.listing X p (keylet.line X Y c).key = if p = n then 1 else 0 := by
  obtain ⟨-, -, m, hm⟩ := h.line hY hYX hs
  rw [hm] at hp ⊢
  split at hp
  · next hnm => rw [hnm]
  · cases hp

theorem ListsLines.remove (h : ListsLines X σ) (hri : KeepsRings σ σ')
    (hg : ∀ k : Keylet MTChainState, σ'.get k = if k.key = d then none else σ.get k)
    (hot : ∀ p d', d' ≠ d → σ'.listing X p d' = σ.listing X p d')
    (hgo : ∀ p, σ'.listing X p d = 0) : ListsLines X σ' := by
  refine ⟨hri h.ring, fun {Y c s} hY hYX hs => ?_, fun {Y c} hY hYX hno p => ?_,
    fun {p a b c} hp => ?_, fun {k s} hs => ?_⟩
  · rw [hg] at hs
    split at hs
    · cases hs
    · next hk =>
      obtain ⟨hc, hl, n, hn⟩ := h.line hY hYX hs
      exact ⟨hc, hl, n, fun p => by rw [hot p _ hk, hn]⟩
  · by_cases hk : (keylet.line X Y c).key = d
    · rw [hk, hgo]
    · rw [hg, if_neg hk] at hno
      rw [hot p _ hk, h.absent hY hYX hno]
  · by_cases hk : Digest.line a b c = d
    · rw [hk, hgo] at hp
      cases hp
    · rw [hot p _ hk] at hp
      exact h.own hp
  rw [hg] at hs
  split at hs
  · cases hs
  · exact h.keyed hs

theorem ListsLines.add (h : ListsLines X σ) (hA : A ≠ mAccount) (hB : B ≠ mAccount) (hne : A ≠ B)
    (hri : KeepsRings σ σ')
    (hg : ∀ k, σ'.get k = if k.key = (keylet.line A B c).key then some s else σ.get k)
    (hc : s.balance.getCurrency = c) (hl : s.lowLimit.getIssuer = min A B)
    (hot : ∀ p d', d' ≠ (keylet.line A B c).key → σ'.listing X p d' = σ.listing X p d')
    (hnew : if X = A ∨ X = B then
        ∃ n, ∀ p, σ'.listing X p (keylet.line A B c).key = if p = n then 1 else 0
      else ∀ p, σ'.listing X p (keylet.line A B c).key = 0) : ListsLines X σ' := by
  refine ⟨hri h.ring, fun {Y c' s'} hY hYX hs' => ?_, fun {Y c'} hY hYX hno p => ?_,
    fun {p a b c'} hp => ?_, fun {k s'} hs' => ?_⟩
  · rw [hg] at hs'
    split at hs'
    · next hk =>
      cases hs'
      rw [hk]
      obtain ⟨rfl, ⟨rfl, rfl⟩ | ⟨rfl, rfl⟩⟩ := line_key_inj.1 hk
      · rw [if_pos (.inl rfl)] at hnew
        exact ⟨hc, hl, hnew⟩
      · rw [if_pos (.inr rfl)] at hnew
        exact ⟨hc, hl.trans (min_comm _ _), hnew⟩
    · next hk =>
      obtain ⟨hc', hl', n, hn⟩ := h.line hY hYX hs'
      exact ⟨hc', hl', n, fun p => by rw [hot p _ hk, hn]⟩
  · rw [hg] at hno
    split at hno
    · cases hno
    · next hk => rw [hot p _ hk, h.absent hY hYX hno]
  · by_cases hk : Digest.line a b c' = (keylet.line A B c).key
    · obtain ⟨_, _, hab⟩ := exists_line_key A B c
      obtain rfl : c' = c := (Digest.line.inj (hk.trans hab)).2.2
      rw [hk] at hp ⊢
      by_cases hX : X = A ∨ X = B
      · rcases hX with rfl | rfl
        · exact ⟨B, hB, hne.symm, rfl⟩
        · exact ⟨A, hA, hne, by rw [line_key_comm]⟩
      rw [if_neg hX] at hnew
      rw [hnew] at hp
      cases hp
    · rw [hot p _ hk] at hp
      exact h.own hp
  rw [hg] at hs'
  split at hs'
  · next hk =>
    obtain ⟨a, b, hab⟩ := exists_line_key A B c
    exact ⟨a, b, c, hk.trans hab⟩
  · exact h.keyed hs'

theorem trustDelete_ok {k : Keylet MTChainState} {low high : AccountID}
    (h : Succeeds (trustDelete k low high) σ σ') :
    ∃ (s : MTChainState) (σ1 σ2 : State), σ.get k = some s ∧
      Succeeds (dirDelete false (s.lowNode.getD 0) (.ownerDir low) k.key false s.lowNode.isNone) σ σ1 ∧
      Succeeds (dirDelete false (s.highNode.getD 0) (.ownerDir high) k.key false s.highNode.isNone)
        σ1 σ2 ∧ σ' = σ2.del k := by
  obtain ⟨s, hs, h⟩ := exec_peek!_ok h
  obtain ⟨_, σ1, h2, h⟩ := exec_bind.1 h
  split at h
  · next hne =>
    obtain ⟨_, _, -, h⟩ := exec_bind.1 h
    exact absurd (exec_pure.1 h).1 hne
  · next hl =>
    rw [not_not.1 hl] at h2
    obtain ⟨_, σ2, h3, h⟩ := exec_bind.1 h
    obtain ⟨_, -, h⟩ := exec_erase_ok h
    obtain ⟨rfl, rfl⟩ := exec_pure.1 h
    exact ⟨s, σ1, σ2, hs, h2, h3, rfl⟩

theorem CreditStep.trustDelete (hA : A ≠ mAccount) (hB : B ≠ mAccount) (hne : A ≠ B)
    (hze : σ.debt A B c = 0) (h : Succeeds (trustDelete (keylet.line A B c) A B) σ σ') :
    CreditStep 0 0 σ σ' := by
  obtain ⟨s, σ1, σ2, hs, hl, hhi, rfl⟩ := trustDelete_ok h
  obtain ⟨hr1, _, hp1, hl1⟩ := ownerDir_delete hl
  obtain ⟨hr2, _, hp2, hl2⟩ := ownerDir_delete hhi
  have hk1 : Keeps MTChainState σ σ1 :=
    ensures_dirDelete isRun (permits fun _ => rfl).toPermitsChange hl
  have hk2 : Keeps MTChainState σ1 σ2 :=
    ensures_dirDelete isRun (permits fun _ => rfl).toPermitsChange hhi
  have hg (k : Keylet MTChainState) : (σ2.del (keylet.line A B c)).get k =
      if k.key = (keylet.line A B c).key then none else σ.get k := by
    rw [get_del, hk2, hk1]
  have hfr (k : Keylet MTChainState) (hk : k.key ≠ (keylet.line A B c).key) :
      (σ2.del (keylet.line A B c)).get k = σ.get k := by rw [hg, if_neg hk]
  have hN : Keeps DirNode σ2 (σ2.del (keylet.line A B c)) :=
    (permits fun _ => rfl).del (by rw [hk2, hk1, hs])
  have hli (X) (p) (d) : (σ2.del (keylet.line A B c)).listing X p d = σ2.listing X p d :=
    (KeepsRefs.of_keeps hN).listing X p d
  refine ⟨fun c' _ _ _ => ?_, fun {I q} hq => ?_, fun {X} hX hX' => ?_⟩
  · have hde : (σ2.del (keylet.line A B c)).debt A B c = σ.debt A B c + 0 := by
      rw [hze, State.debt, hg, if_pos rfl, Option.elim_none, add_zero]
    rw [debt_of_line hne hde hfr, debtBy_zero]
  · rw [tracked_of_frame hA hB hfr, hq, Pi.zero_apply, add_zero]
  refine hX'.remove (fun hS => ?_) hg (fun p d' hd' => ?_) fun p => ?_
  · obtain ⟨S, hS⟩ := hr2 (hr1 hS)
    exact ⟨S, hS.of_links (funext fun p => by unfold links; rw [hN])⟩
  · rw [hli, hl2, hl1, if_neg fun hc => hd' hc.2.2, if_neg fun hc => hd' hc.2.2]
  rw [hli]
  by_cases hXA : X = A
  · subst hXA
    have ho := hX'.listing_eq hB hne.symm hs hp1
    rw [hl2, hl1, ho]
    split <;> simp_all
  by_cases hXB : X = B
  · subst hXB
    have hl1' (p) (d) : σ1.listing X p d = σ.listing X p d := by
      rw [hl1, if_neg fun hc => hXA hc.1]
    rw [hl1', line_key_comm] at hp2
    have ho := hX'.listing_eq hA hne (by rw [line_key_comm]; exact hs) hp2
    rw [hl2, hl1', line_key_comm A]
    split <;> simp_all
  · rw [hl2, if_neg fun hc => hXB hc.1, hl1, if_neg fun hc => hXA hc.1, hX'.not_own hXA hXB]

theorem trustCreate_ok {bSrcHigh : Bool} {account : AccountID} {k : Keylet MTChainState}
    {bAuth bNoMTChain bFreeze : Bool} {saBalance saLimit : STAmount} {uQualityIn uQualityOut : UInt32}
    (h : Succeeds (trustCreate bSrcHigh src dst k.key account bAuth bNoMTChain bFreeze saBalance saLimit
      uQualityIn uQualityOut) σ σ') :
    ∃ (nl nh : Nat) (flags : UInt32) (σ1 σ2 σ3 σ4 : State) (ter : TER), σ k.key = none ∧
      exec (dirAdd (keylet.ownerDir (if bSrcHigh then dst else src)) k.key
        (describeOwnerDir (if bSrcHigh then dst else src))) (σ.set k {}) = .ok ((.tesSUCCESS, nl), σ1) ∧
      exec (dirAdd (keylet.ownerDir (if bSrcHigh then src else dst)) k.key
        (describeOwnerDir (if bSrcHigh then src else dst))) σ1 = .ok ((.tesSUCCESS, nh), σ2) ∧
      σ3 = σ2.set k (newLine (bSrcHigh ^^ decide (saLimit.getIssuer = dst)) flags nl nh saBalance
        saLimit (.ofIssue ⟨saBalance.getCurrency,
          if decide (saLimit.getIssuer = dst) then src else dst⟩) uQualityIn uQualityOut) ∧
      exec (adjustOwnerCount account 1) σ3 = .ok ((), σ4) ∧
      exec (creditHook src dst saBalance saBalance.zeroed) σ4 = .ok (ter, σ') := by
  obtain ⟨hno, h⟩ := exec_insert_ok h
  obtain ⟨⟨_, nl⟩, σ1, h2, h⟩ := exec_bind.1 h
  obtain ⟨rfl, h⟩ := exec_success_ok h
  obtain ⟨⟨_, nh⟩, σ2, h3, h⟩ := exec_bind.1 h
  obtain ⟨rfl, h⟩ := exec_success_ok h
  obtain ⟨_, -, h⟩ := exec_peek!_ok h
  obtain ⟨_, -, h⟩ := exec_update_ok h
  obtain ⟨_, σ4, h6, h⟩ := exec_bind.1 h
  obtain ⟨ter, _, h7, h⟩ := exec_bind.1 h
  obtain ⟨-, rfl⟩ := exec_pure.1 h
  exact ⟨nl, nh, _, σ1, σ2, _, σ4, ter, hno, h2, h3, rfl, h6, h7⟩

theorem CreditStep.fileLine (hA : A ≠ mAccount) (hB : B ≠ mAccount) (hne : A ≠ B)
    {b : AccountID} {nl nh : Nat} (hno : σ (keylet.line A B c).key = none)
    (h1 : exec (dirAdd (keylet.ownerDir A) (keylet.line A B c).key (describeOwnerDir a))
      (σ.set (keylet.line A B c) {}) = .ok ((.tesSUCCESS, nl), σ1))
    (h2 : exec (dirAdd (keylet.ownerDir B) (keylet.line A B c).key (describeOwnerDir b)) σ1 =
      .ok ((.tesSUCCESS, nh), σ2))
    (s : MTChainState) (hc : s.balance.getCurrency = c) (hl : s.lowLimit.getIssuer = min A B) :
    CreditStep (debtBy A B c (-(s.balanceOf (B < A)).value)) 0 σ
      (σ2.set (keylet.line A B c) s) := by
  obtain ⟨hr1, hl1⟩ := ownerDir_add h1
  obtain ⟨hr2, hl2⟩ := ownerDir_add h2
  have hk1 : Keeps MTChainState (σ.set (keylet.line A B c) {}) σ1 :=
    ensures_dirAdd isRun (permits fun _ => rfl) h1
  have hk2 : Keeps MTChainState σ1 σ2 := ensures_dirAdd isRun (permits fun _ => rfl) h2
  have hg (k) : (σ2.set (keylet.line A B c) s).get k =
      if k.key = (keylet.line A B c).key then some s else σ.get k := by
    rw [get_set, hk2, hk1, get_set]
    split <;> rfl
  have hfr (k : Keylet MTChainState) (hk : k.key ≠ (keylet.line A B c).key) :
      (σ2.set (keylet.line A B c) s).get k = σ.get k := by rw [hg, if_neg hk]
  have hN0 : Keeps DirNode σ (σ.set (keylet.line A B c) {}) := (permits fun _ => rfl).insert _ hno
  have hN : Keeps DirNode σ2 (σ2.set (keylet.line A B c) s) :=
    (permits fun _ => rfl).set _ (by rw [hk2, hk1, get_set_self])
  have hli (X) (p) (d) : (σ2.set (keylet.line A B c) s).listing X p d =
        if X = B ∧ p = nh ∧ d = (keylet.line A B c).key then
          (if X = A ∧ p = nl ∧ d = (keylet.line A B c).key then σ.listing X p d + 1
            else σ.listing X p d) + 1
        else if X = A ∧ p = nl ∧ d = (keylet.line A B c).key then σ.listing X p d + 1
        else σ.listing X p d := by
    rw [(KeepsRefs.of_keeps hN).listing, hl2, hl1, (KeepsRefs.of_keeps hN0).listing]
  have hno' := get_of_none hno
  refine ⟨fun c' _ _ _ => ?_, fun {I q} hq => ?_, fun {X} hX hX' => ?_⟩
  · refine debt_of_line hne ?_ hfr c'
    rw [debt_eq (get_set_self ..), State.debt, hno', Option.elim_none, zero_add]
  · rw [tracked_of_frame hA hB hfr, hq, Pi.zero_apply, add_zero]
  refine hX'.add hA hB hne (fun hS => ?_) hg hc hl (fun p d' hd' => ?_) ?_
  · obtain ⟨S, hS⟩ := hS
    have hS0 := hS.of_links (funext fun p => by unfold links; rw [hN0])
    obtain ⟨S', hS'⟩ := hr2 (hr1 ⟨S, hS0⟩)
    exact ⟨S', hS'.of_links (funext fun p => by unfold links; rw [hN])⟩
  · rw [hli, if_neg fun hc => hd' hc.2.2, if_neg fun hc => hd' hc.2.2]
  split
  · next hXAB =>
    rcases hXAB with rfl | rfl
    · refine ⟨nl, fun p => ?_⟩
      rw [hli, if_neg fun hc => hne hc.1, hX'.absent hB hne.symm hno']
      simp
    refine ⟨nh, fun p => ?_⟩
    have h0 := hX'.absent hA hne (by rw [line_key_comm]; exact hno') p
    rw [line_key_comm] at h0
    rw [hli, h0]
    simp [hne.symm]
  · next hXAB =>
    obtain ⟨hXA, hXB⟩ := not_or.1 hXAB
    intro p
    rw [hli, if_neg fun hc => hXB hc.1, if_neg fun hc => hXA hc.1, hX'.not_own hXA hXB]

theorem debtBy_comm {d : ℚ} (hne : A ≠ B) : debtBy B A c d = debtBy A B c (-d) := by
  funext X Y c'
  unfold debtBy
  split
  · by_cases h : X = B ∧ Y = A
    · obtain ⟨rfl, rfl⟩ := h
      simp [hne.symm]
    · simp [h]
  · rfl

theorem STAmount.getIssuer_ofIssue {i : Issue} (h : i.currency ≠ mCurrency) :
    (ofIssue i).getIssuer = i.account := by
  rw [ofIssue, if_neg h]
  rfl

theorem MTChainState.value_balanceOf_comm (s : MTChainState) (hne : A ≠ B) :
    (s.balanceOf (A < B)).value = -(s.balanceOf (B < A)).value := by
  rcases lt_or_gt_of_ne hne with h | h <;> simp [balanceOf, h, h.asymm, value_neg]

theorem CreditStep.fileLine_of_src {b : AccountID} (hs : src ≠ mAccount)
    (hd : dst ≠ mAccount) (hne : src ≠ dst) {nl nh : Nat}
    (hn : σ (keylet.line src dst c).key = none)
    (h1 : exec (dirAdd (keylet.ownerDir (if decide (dst < src) then dst else src))
      (keylet.line src dst c).key (describeOwnerDir a)) (σ.set (keylet.line src dst c) {}) =
        .ok ((.tesSUCCESS, nl), σ1))
    (h2 : exec (dirAdd (keylet.ownerDir (if decide (dst < src) then src else dst))
      (keylet.line src dst c).key (describeOwnerDir b)) σ1 = .ok ((.tesSUCCESS, nh), σ2))
    (s : MTChainState) (hc : s.balance.getCurrency = c) (hl : s.lowLimit.getIssuer = min src dst) :
    CreditStep (debtBy src dst c (-(s.balanceOf (dst < src)).value)) 0 σ
      (σ2.set (keylet.line src dst c) s) := by
  rcases lt_or_gt_of_ne hne with hlt | hlt
  · simp only [hlt.asymm, decide_false, Bool.false_eq_true, if_false] at h1 h2
    exact .fileLine hs hd hne hn h1 h2 s hc hl
  simp only [hlt, decide_true, if_true] at h1 h2
  rw [line_key_comm] at hn h1 h2 ⊢
  have hst := CreditStep.fileLine hd hs hne.symm hn h1 h2 s hc (hl.trans (min_comm _ _))
  rwa [debtBy_comm hne, s.value_balanceOf_comm hne, neg_neg] at hst

section NewLine
variable {src dst : AccountID} {flags : UInt32} {nl nh : Nat} {saBalance saLimit : STAmount}
  {uQualityIn uQualityOut : UInt32}

theorem newLine_debt {peerLimit : STAmount} :
    -((newLine (decide (dst < src) ^^ decide (saLimit.getIssuer = dst)) flags nl nh saBalance saLimit
        peerLimit uQualityIn uQualityOut).balanceOf (dst < src)).value =
      if saLimit.getIssuer = dst then saBalance.value else -saBalance.value := by
  by_cases h : dst < src <;> by_cases h' : saLimit.getIssuer = dst <;>
    simp [newLine, balanceOf, h, h', value_neg]

theorem newLine_getCurrency {bSetHigh : Bool} {peerLimit : STAmount} :
    (newLine bSetHigh flags nl nh saBalance saLimit peerLimit uQualityIn
      uQualityOut).balance.getCurrency = saBalance.getCurrency := by
  cases bSetHigh <;> simp [newLine, getCurrency_neg]

theorem newLine_lowIssuer (hne : src ≠ dst) (hc : saBalance.getCurrency ≠ mCurrency)
    (hli : saLimit.getIssuer = src ∨ saLimit.getIssuer = dst) :
    (newLine (decide (dst < src) ^^ decide (saLimit.getIssuer = dst)) flags nl nh saBalance saLimit
      (.ofIssue ⟨saBalance.getCurrency, if decide (saLimit.getIssuer = dst) then src else dst⟩)
      uQualityIn uQualityOut).lowLimit.getIssuer = min src dst := by
  rcases lt_or_gt_of_ne hne with h | h <;> rcases hli with h' | h' <;>
    simp [newLine, h, h.asymm, h', hne, h.le, getIssuer_ofIssue, hc]

end NewLine

theorem CreditStep.trustCreate {account : AccountID} {bAuth bNoMTChain bFreeze : Bool}
    {saBalance saLimit : STAmount} {uQualityIn uQualityOut : UInt32} (hsrc : src ≠ mAccount)
    (hd : dst ≠ mAccount) (hne : src ≠ dst) (hc : saBalance.getCurrency ≠ mCurrency)
    (hli : saLimit.getIssuer = src ∨ saLimit.getIssuer = dst)
    (h : Succeeds (trustCreate (dst < src) src dst (keylet.line src dst saBalance.getCurrency).key account
      bAuth bNoMTChain bFreeze saBalance saLimit uQualityIn uQualityOut) σ σ') :
    CreditStep (debtBy src dst saBalance.getCurrency
        (if saLimit.getIssuer = dst then saBalance.value else -saBalance.value))
      (trackBy (hookAmount src saBalance saBalance.zeroed)) σ σ' := by
  obtain ⟨_, _, _, _, _, -, _, _, hn, h1, h2, rfl, ha, hh⟩ := trustCreate_ok h
  have hs := (CreditStep.fileLine_of_src hsrc hd hne hn h1 h2 _ newLine_getCurrency
    (newLine_lowIssuer hne hc hli)).trans ((CreditStep.adjustOwnerCount ha).trans (.hook hh))
  simpa [newLine_debt] using hs

end Filing
end FinPal
