import FinPal.Verify.TxQStructure

/-!
# What `accept` attempts

The loop in `accept` goes along the transactions by falling fee level. When one has gone it may go
back to the account's next one, which it has skipped, and then comes again by transactions it has
attempted.
-/

namespace FinPal.TxQ
open List
open Std (TreeMap)
variable {View Tx Rules : Type} {E : Engine View Tx Rules}
  {q q' q'' : TxQ Tx Rules} {r : Ref} {refs refs' : List Ref} {account : TxQAccount Tx Rules}

/-! ### Retries -/

theorem foldl_useRetry_congr {m m' : MaybeTx Tx Rules}
    (h : m.retriesRemaining = m'.retriesRemaining) (penalties : List Bool) :
    (penalties.foldl MaybeTx.useRetry m).retriesRemaining =
      (penalties.foldl MaybeTx.useRetry m').retriesRemaining := by
  induction penalties generalizing m m' with
  | nil => exact h
  | cons _ penalties ih =>
    refine ih ?_
    unfold MaybeTx.useRetry
    rw [h]

theorem foldl_useRetry_le (m : MaybeTx Tx Rules) (penalties : List Bool) :
    (penalties.foldl MaybeTx.useRetry m).retriesRemaining ≤ m.retriesRemaining := by
  induction penalties generalizing m with
  | nil => exact le_rfl
  | cons penalty penalties ih =>
    refine (ih _).trans ?_
    unfold MaybeTx.useRetry
    dsimp only
    split <;> omega

/-- What is queued was queued before, with no more retries used than it is among `refs`. -/
def Budget (refs : List Ref) (q q' : TxQ Tx Rules) : Prop :=
  ∀ r m', q'.getTx r = some m' → ∃ m, q.getTx r = some m ∧ ∃ penalties : List Bool,
    penalties.length ≤ refs.count r ∧
      m'.retriesRemaining = (penalties.foldl MaybeTx.useRetry m).retriesRemaining

namespace Budget

theorem of_same (h : ∀ r m', q'.getTx r = some m' →
    ∃ m, q.getTx r = some m ∧ m'.retriesRemaining = m.retriesRemaining) : Budget refs q q' := by
  intro r m' hm'
  obtain ⟨m, hm, heq⟩ := h r m' hm'
  exact ⟨m, hm, [], Nat.zero_le _, heq⟩

theorem trans (h : Budget refs q q') (h' : Budget refs' q' q'') : Budget (refs' ++ refs) q q'' := by
  intro r m'' hm''
  obtain ⟨m', hm', penalties', _, heq'⟩ := h' r m'' hm''
  obtain ⟨m, hm, penalties, _, heq⟩ := h r m' hm'
  refine ⟨m, hm, penalties ++ penalties', ?_, ?_⟩
  · rw [length_append, count_append]
    omega
  · rw [heq', foldl_append]
    exact foldl_useRetry_congr heq penalties'

section
variable (q : TxQ Tx Rules) (r : Ref)

theorem modifyTx {f : MaybeTx Tx Rules → MaybeTx Tx Rules}
    (hf : ∀ m, (f m).retriesRemaining = m.retriesRemaining) : Budget [] q (q.modifyTx r f) := by
  refine of_same fun r' m' hm' => ?_
  rw [getTx_modifyTx] at hm'
  split at hm'
  · obtain ⟨m, hm, rfl⟩ := Option.map_eq_some_iff.1 hm'
    exact ⟨m, hm, hf m⟩
  · exact ⟨m', hm', rfl⟩

theorem useRetry (penalty : Bool) : Budget [r] q (q.modifyTx r fun m => m.useRetry penalty) := by
  intro _ m' hm'
  rw [getTx_modifyTx] at hm'
  split at hm'
  case isTrue heq =>
    obtain ⟨m, hm, rfl⟩ := Option.map_eq_some_iff.1 hm'
    exact ⟨m, hm, [penalty], by simp [heq], rfl⟩
  case isFalse => exact ⟨m', hm', [], Nat.zero_le _, rfl⟩

theorem giveUp (retriesRemaining : Int) : Budget [] q (q.giveUp r retriesRemaining) := by
  refine of_same fun r' m' hm' => ⟨m', ?_, rfl⟩
  unfold TxQ.giveUp at hm'
  rw [getTx_modifyAccount] at hm'
  split at hm'
  · rw [← hm']
    split <;> rfl
  · exact hm'

theorem erase : Budget refs q (q.erase r) := by
  refine of_same fun r' m' hm' => ⟨m', ?_, rfl⟩
  rw [getTx_erase] at hm'
  split at hm'
  · cases hm'
  · exact hm'

end

theorem isSome (h : Budget refs q q') (hr : (q'.getTx r).isSome = true) :
    (q.getTx r).isSome = true := by
  obtain ⟨m', hm'⟩ := Option.isSome_iff_exists.1 hr
  obtain ⟨m, hm, -⟩ := h r m' hm'
  rw [hm]
  rfl

theorem eq_none (h : Budget refs q q') (hr : q.getTx r = none) : q'.getTx r = none := by
  rw [← Option.not_isSome_iff_eq_none] at hr ⊢
  exact fun hs => hr (h.isSome hs)

end Budget

/-! ### The first of an account -/

/-- No transaction of the account waits before it. -/
def IsFirst (q : TxQ Tx Rules) (r : Ref) : Prop := ∀ s < r.2, q.getTx (r.1, s) = none

theorem isFirst_iff (ha : q.getAccount r.1 = some account) :
    IsFirst q r ↔ account.transactions.minKey?.any (· < r.2) = false := by
  have hg (s) : q.getTx (r.1, s) = account.transactions[s]? := by
    rw [getTx, ha, Option.bind_some]
  unfold IsFirst
  simp only [hg]
  cases hm : account.transactions.minKey? with
  | none =>
    have hem := TreeMap.minKey?_eq_none_iff.1 hm
    exact iff_of_true (fun s _ => TreeMap.getElem?_of_isEmpty hem) rfl
  | some k =>
    obtain ⟨hmem, hle⟩ := TreeMap.minKey?_eq_some_iff_mem_and_forall.1 hm
    rw [Option.any_some, decide_eq_false_iff_not, not_lt]
    refine ⟨fun h => le_of_not_gt fun hlt => ?_, fun h s hs => ?_⟩
    · rw [TreeMap.mem_iff_isSome_getElem?, h k hlt] at hmem
      cases hmem
    rw [← Option.not_isSome_iff_eq_none, ← TreeMap.mem_iff_isSome_getElem?]
    intro hs'
    have := hle s hs'
    rw [Std.LawfulOrderOrd.isLE_compare] at this
    omega

theorem IsFirst.ne_maxKey {s : ℕ} (h : IsFirst q r) (ha : q.getAccount r.1 = some account)
    (hs : account.transactions.maxKey? = some s) (hsize : 1 < account.transactions.size) :
    s ≠ r.2 := by
  rintro rfl
  have hke : ∀ k ∈ account.transactions.keys, k = r.2 := by
    intro k hk
    rw [TreeMap.mem_keys] at hk
    have hle := (TreeMap.maxKey?_eq_some_iff_mem_and_forall.1 hs).2 k hk
    rw [Std.LawfulOrderOrd.isLE_compare] at hle
    refine hle.antisymm (le_of_not_gt fun hlt => ?_)
    have hn := h k hlt
    rw [getTx, ha, Option.bind_some] at hn
    rw [TreeMap.mem_iff_isSome_getElem?, hn] at hk
    cases hk
  have hno := TreeMap.nodup_keys (t := account.transactions)
  rw [eq_replicate_of_mem hke, nodup_replicate, TreeMap.length_keys] at hno
  omega

theorem IsFirst.of_erase {e : Ref} (h : IsFirst (q.erase e) r) :
    IsFirst q r ∨ e.1 = r.1 ∧ e.2 < r.2 := by
  by_cases he : e.1 = r.1 ∧ e.2 < r.2
  · exact .inr he
  refine .inl fun s hs => ?_
  have hn := h s hs
  rw [getTx_erase] at hn
  split at hn
  · next heq => exact absurd ⟨by rw [← heq], by rw [← heq]; exact hs⟩ he
  · exact hn

theorem SameLinks.isFirst (hs : SameLinks q q') (h : IsFirst q' r) : IsFirst q r := by
  intro s hlt
  rw [← Option.not_isSome_iff_eq_none, ← hs.isSome_getTx, h s hlt]
  simp

theorem SameLinks.feeLevelOf (hs : SameLinks q q') : q'.feeLevelOf = q.feeLevelOf := by
  funext r
  have hg := congrArg (Option.map Prod.snd) (hs.getTx r)
  rw [Option.map_map, Option.map_map] at hg
  exact congrArg (·.getD 0) hg

theorem Budget.isFirst (h : Budget refs q q') (hr : IsFirst q r) : IsFirst q' r :=
  fun s hs => h.eq_none (hr s hs)

theorem eraseAndAdvance_goesOn (hq : Linked E q) (hr : (q.getTx r).isSome = true) :
    GoesOn q.byFee r (r.1, r.2 + 1) (q.eraseAndAdvance r).1.byFee (q.eraseAndAdvance r).2 := by
  have hno := hq.index.nodup
  have hmem := hq.mem_byFee.2 hr
  unfold eraseAndAdvance
  dsimp only
  split
  case isFalse => exact .erase_self hno hmem _
  case isTrue hu =>
    obtain ⟨hso, hm⟩ := (Option.any_eq_true_iff_get _ _).1 hu
    obtain ⟨⟨s, m⟩, hne⟩ := Option.isSome_iff_exists.1 hso
    simp only [hne, Option.get_some, Bool.and_eq_true, decide_eq_true_eq] at hm
    obtain ⟨rfl, hm⟩ := hm
    obtain ⟨_, ha, hhe⟩ := Option.bind_eq_some_iff.1 hne
    have hs := mem_upperBound.1 (mem_of_mem_head? hhe)
    have hg : q.getTx (r.1, r.2 + 1) = some m := by rw [getTx, ha, Option.bind_some, hs.1]
    rw [hne]
    refine .jump hno hmem (fun heq => ?_) ?_
    · exact absurd (congrArg Prod.snd heq) (Nat.succ_ne_self _)
    -- It pays more than the next one in the queue, so it comes before that.
    cases hf : nextKey q.byFee r with
    | none => exact hq.mem_byFee.2 (by rw [hg]; rfl)
    | some r' =>
      rw [hf, Option.all_some, decide_eq_true_eq] at hm
      have hr' := hq.mem_byFee.1 ((nextKey_spec hno hmem).2 r' hf).1
      obtain ⟨_, hm'⟩ := Option.isSome_iff_exists.1 hr'
      refine hq.index.mem_passed hm' hg ?_
      rw [feeLevelOf, hm'] at hm
      exact hm

theorem head?_upperBound {m : MaybeTx Tx Rules} (hm : account.transactions[r.2 + 1]? = some m) :
    (upperBound account.transactions r.2).head? = some (r.2 + 1, m) := by
  have hin : (r.2 + 1, m) ∈ upperBound account.transactions r.2 :=
    mem_upperBound.2 ⟨hm, Nat.lt_succ_self _⟩
  have hlt (e) (he : e ∈ upperBound account.transactions r.2) : r.2 < e.1 := (mem_upperBound.1 he).2
  have hasc := ascending_upperBound account.transactions r.2
  generalize upperBound account.transactions r.2 = l at hin hlt hasc
  cases l with
  | nil => cases hin
  | cons e l =>
    obtain heq | hin := mem_cons.1 hin
    · rw [head?_cons, heq]
    · have hel := (pairwise_cons.1 hasc).1 _ hin
      have hre := hlt e mem_cons_self
      dsimp only at hel
      omega

/-- The turn goes back to the account's next transaction, if it is one the loop has passed and pays
more than what comes next in the fee order. -/
theorem eraseAndAdvance_back (hq : Linked E q) (hr : (q.getTx r).isSome = true)
    (hx : (r.1, r.2 + 1) ∈ passed q.byFee (some r))
    (hne : (nextKey q.byFee r).map q.feeLevelOf ≠ some (q.feeLevelOf (r.1, r.2 + 1))) :
    (q.eraseAndAdvance r).2 = some (r.1, r.2 + 1) := by
  have hmem := hq.mem_byFee.2 hr
  obtain ⟨m, hm⟩ := Option.isSome_iff_exists.1
    (hq.mem_byFee.1 ((passed_sublist _ _).subset hx))
  obtain ⟨account, ha, hacc⟩ := Option.bind_eq_some_iff.1 hm
  unfold eraseAndAdvance
  dsimp only at ha hacc ⊢
  rw [ha, Option.bind_some, head?_upperBound hacc, if_pos]
  · rfl
  simp only [Option.any_some, decide_true, Bool.true_and, Option.all_eq_true]
  intro r' hr'
  obtain ⟨m', hm'⟩ := Option.isSome_iff_exists.1
    (hq.mem_byFee.1 ((nextKey_spec hq.index.nodup hmem).2 r' hr').1)
  have hle := hq.index.rank_nextKey_le hmem hx hr' hm hm'
  rw [hr', Option.map_some, feeLevelOf, feeLevelOf, hm, hm', Option.map_some, Option.map_some,
    Option.getD_some, Option.getD_some, Ne, Option.some.injEq] at hne
  rw [feeLevelOf, hm', decide_eq_true_eq]
  exact hle.lt_of_ne hne

/-! ### One turn -/

/-- What the loop of `accept` has before it at one turn. -/
structure TurnAt (View Tx Rules : Type) where
  queue : TxQ Tx Rules
  view : View
  ledgerChanged : Bool
  place : Ref

variable [DecidableEq Rules]

namespace TurnAt
variable (E : Engine View Tx Rules) (t : TurnAt View Tx Rules)

def step : AcceptStep View Tx Rules := t.queue.acceptOne E t.view t.ledgerChanged t.place

/-- What the call of `apply` in the turn has returned, if there was one. -/
def tried : Option (TER × Bool) :=
  match t.step E with
  | .stop .. => none
  | .goOn _ _ _ _ tried => tried

def attempts : Bool := (t.tried E).isSome

/-- The transaction of the turn goes into the view. -/
def applies : Bool := (t.tried E).any (·.2)

def attempt : List Ref := if t.attempts E then [t.place] else []

/-- The transaction is a later one of the account at the place, and the turn does not go back to it
when the place is erased: its sequence is not the next one, or it pays just as much as what comes
next in the fee order. -/
def LeavesBehind (t : TurnAt View Tx Rules) (r : Ref) : Prop :=
  t.place.1 = r.1 ∧ t.place.2 < r.2 ∧ (r.2 ≠ t.place.2 + 1 ∨
    (nextKey t.queue.byFee t.place).map t.queue.feeLevelOf = some (t.queue.feeLevelOf r))

end TurnAt

variable {t : TurnAt View Tx Rules} {taken : List (TurnAt View Tx Rules)}

/-- `apply` is called for the first transaction of an account, if it pays the level demanded. -/
theorem TurnAt.tried_spec {tried : TER × Bool} (h : t.tried E = some tried) :
    IsFirst t.queue t.place ∧ ∃ requiredFeeLevel m,
      t.queue.feeMetrics.scaleFeeLevel (E.txCount t.view) = .ok requiredFeeLevel ∧
        t.queue.getTx t.place = some m ∧ requiredFeeLevel ≤ m.feeLevel ∧
        tried = ((m.apply E t.view).1, (m.apply E t.view).2.1) := by
  unfold TurnAt.tried TurnAt.step acceptOne at h
  split at h
  · cases h
  next hst =>
  split at hst
  case h_2 => cases hst
  case h_1 account m hacc hm =>
  split at hst
  · cases hst
    cases h
  case isFalse hfi =>
  split at hst
  · cases hst
  case h_2 requiredFeeLevel hle =>
  split at hst
  case isFalse => cases hst
  case isTrue hpa =>
  refine ⟨(isFirst_iff hacc).2 (Bool.eq_false_of_not_eq_true hfi), requiredFeeLevel, m, hle, hm,
    hpa, ?_⟩
  dsimp only at hst
  split at hst
  · cases hst
    cases h
    rfl
  split at hst
  all_goals
    cases hst
    cases h
    rfl

theorem TurnAt.attempts_spec (h : t.attempts E = true) :
    IsFirst t.queue t.place ∧ ∃ requiredFeeLevel m,
      t.queue.feeMetrics.scaleFeeLevel (E.txCount t.view) = .ok requiredFeeLevel ∧
        t.queue.getTx t.place = some m ∧ requiredFeeLevel ≤ m.feeLevel := by
  obtain ⟨_, htr⟩ := Option.isSome_iff_exists.1 h
  obtain ⟨hfi, requiredFeeLevel, m, hle, hm, hpa, -⟩ := tried_spec htr
  exact ⟨hfi, requiredFeeLevel, m, hle, hm, hpa⟩

theorem TurnAt.attempts_of_applies (h : t.applies E = true) : t.attempts E = true := by
  obtain ⟨hs, -⟩ := (Option.any_eq_true_iff_get _ _).1 h
  exact hs

/-- What a turn does that the loop goes on from. -/
structure Moves (E : Engine View Tx Rules) (t : TurnAt View Tx Rules) (q' : TxQ Tx Rules)
    (next : Option Ref) : Prop where
  queued : (t.queue.getTx t.place).isSome = true
  goesOn : GoesOn t.queue.byFee t.place (t.place.1, t.place.2 + 1) q'.byFee next
  sublist : q'.byFee <+ t.queue.byFee
  budget : Budget (t.attempt E) t.queue q'
  skipped : t.attempts E = false →
    ¬ IsFirst t.queue t.place ∧ q' = t.queue ∧ next = nextKey t.queue.byFee t.place
  applied : t.applies E = true → q'.getTx t.place = none
  kept : t.attempts E = true → (q'.getTx t.place).isSome = true →
    ∃ m, t.queue.getTx t.place = some m ∧ 0 < m.retriesRemaining
  -- What becomes the first of its account has been left behind.
  exposes : ∀ r ∈ passed t.queue.byFee (some t.place), r ∈ passed q'.byFee next → IsFirst q' r →
    IsFirst t.queue r ∨ t.attempts E = true ∧ t.LeavesBehind r

theorem Moves.removed {q1 : TxQ Tx Rules} (hq : Linked E t.queue)
    (hr : (t.queue.getTx t.place).isSome = true) (ha : t.attempts E = true)
    (hs : SameLinks t.queue q1) (hbu : Budget [] t.queue q1) :
    Moves E t (q1.eraseAndAdvance t.place).1 (q1.eraseAndAdvance t.place).2 where
  queued := hr
  goesOn := by
    rw [← hs.byFee]
    exact eraseAndAdvance_goesOn (hs.linked hq) (by rwa [hs.isSome_getTx])
  sublist := by
    rw [← hs.byFee]
    exact erase_sublist
  budget := by
    rw [← append_nil (t.attempt E)]
    exact hbu.trans (.erase q1 _)
  skipped h := by rw [ha] at h; cases h
  applied _ := getTx_erase_self q1 _
  kept _ h := by
    change ((q1.erase t.place).getTx t.place).isSome = true at h
    rw [getTx_erase_self] at h
    cases h
  exposes r hp hp' hfi := by
    obtain hfi | ⟨h1, h2⟩ := IsFirst.of_erase hfi
    · exact .inl (hs.isFirst hfi)
    refine .inr ⟨ha, h1, h2, not_or_of_imp fun hnx => ?_⟩
    obtain rfl : r = (t.place.1, t.place.2 + 1) := Prod.ext h1.symm hnx
    by_contra hne
    rw [← hs.byFee] at hp hne
    rw [← hs.feeLevelOf] at hne
    rw [eraseAndAdvance_back (hs.linked hq) (by rwa [hs.isSome_getTx]) hp hne] at hp'
    exact notMem_passed _ _ hp'

theorem acceptOne_moves (hq : Linked E t.queue) {view : View} {ledgerChanged : Bool}
    {next : Option Ref} {tried : Option (TER × Bool)}
    (h : t.step E = .goOn q' view ledgerChanged next tried) : Moves E t q' next := by
  have htr : t.tried E = tried := by rw [TurnAt.tried, h]
  obtain ⟨queue, view0, changed, r⟩ := t
  unfold TurnAt.step acceptOne at h
  dsimp only at hq h
  split at h
  case h_2 => cases h
  case h_1 account m hacc hm =>
  have hr : (queue.getTx r).isSome = true := by rw [hm]; rfl
  have hmem := hq.mem_byFee.2 hr
  have hno := hq.index.nodup
  split at h
  case isTrue hsk =>
    cases h
    have hn : ¬IsFirst q' r := fun hfi => by
      rw [(isFirst_iff hacc).1 hfi] at hsk
      cases hsk
    have ha : TurnAt.attempts E ⟨q', view, ledgerChanged, r⟩ = false := by
      rw [TurnAt.attempts, htr]
      rfl
    refine ⟨hr, .next hno hmem _, .refl _, .of_same fun _ m' hm' => ⟨m', hm', rfl⟩,
      fun _ => ⟨hn, rfl, rfl⟩, fun hap => ?_, fun hat => ?_, fun _ _ _ hfi => .inl hfi⟩
    · rw [TurnAt.attempts_of_applies hap] at ha
      cases ha
    · rw [hat] at ha
      cases ha
  case isFalse hfi =>
  split at h
  · cases h
  case h_2 requiredFeeLevel hle =>
  split at h
  case isFalse => cases h
  case isTrue hpa =>
  have hre : SameLinks queue (queue.modifyTx r fun m => m.refresh E view0) :=
    .modifyTx queue r fun m => refresh_links m view0
  have hret : Budget [] queue (queue.modifyTx r fun m => m.refresh E view0) := by
    refine .modifyTx queue r fun m => ?_
    unfold MaybeTx.refresh
    split <;> rfl
  have hat {tr : TER × Bool} (h : TurnAt.tried E ⟨queue, view0, changed, r⟩ = some tr) :
      TurnAt.attempts E ⟨queue, view0, changed, r⟩ = true := by
    rw [TurnAt.attempts, h]
    rfl
  generalize queue.modifyTx r (fun m => m.refresh E view0) = q1 at hre hret h
  split at h
  · cases h
    exact .removed hq hr (hat htr) hre hret
  case isFalse hd =>
  split at h
  · cases h
    have hgi : SameLinks q1 (q1.giveUp r m.retriesRemaining) :=
      .modifyAccount q1 r.1 fun a => by split <;> rfl
    exact .removed hq hr (hat htr) (hre.trans hgi)
      (hret.trans (.giveUp q1 r m.retriesRemaining))
  case isFalse hgo =>
  cases h
  have ha := hat htr
  have hatt : TurnAt.attempt E ⟨queue, view0, ledgerChanged, r⟩ = [r] := if_pos ha
  have hap : TurnAt.applies E ⟨queue, view0, ledgerChanged, r⟩ ≠ true := by
    simp [TurnAt.applies, htr, hd]
  have hpos : 0 < m.retriesRemaining := by
    simp only [not_or, not_le] at hgo
    exact hgo.2.2
  have hskip : TurnAt.attempts E ⟨queue, view0, ledgerChanged, r⟩ ≠ false := by simp [ha]
  have hretr : SameLinks q1 (q1.modifyTx r fun m => m.useRetry account.retryPenalty) :=
    .modifyTx q1 r fun _ => ⟨rfl, rfl⟩
  have hbu := hret.trans (.useRetry q1 r account.retryPenalty)
  have hsa := hre.trans hretr
  obtain hke | ⟨s, hs, hsi, hke⟩ := keepForRetry_cases q1 r account
  · rw [hke]
    refine ⟨hr, ?_, ?_, ?_, fun h => absurd h hskip, fun h => absurd h hap,
      fun _ _ => ⟨m, hm, hpos⟩, fun _ _ _ hfi => .inl (hsa.isFirst hfi)⟩
    · rw [hsa.byFee]
      exact .next hno hmem _
    · rw [hsa.byFee]
    · rw [hatt]
      exact hbu
  rw [hke]
  have hsub : ((q1.modifyTx r fun m => m.useRetry account.retryPenalty).erase (r.1, s)).byFee <+
      queue.byFee := by
    rw [← hsa.byFee]
    exact erase_sublist
  refine ⟨hr, ?_, hsub, ?_, fun h => absurd h hskip, fun h => absurd h hap,
    fun _ _ => ⟨m, hm, hpos⟩, fun x _ hx hxf => ?_⟩
  · change GoesOn queue.byFee r _ (List.erase _ _) (nextKey (List.erase _ _) r)
    rw [hsa.byFee]
    have hfi := (isFirst_iff hacc).2 (Bool.eq_false_of_not_eq_true hfi)
    exact .erase_other hno hmem (fun heq => hfi.ne_maxKey hacc hs hsi (congrArg Prod.snd heq)) _
  · rw [hatt, ← nil_append [r]]
    exact hbu.trans (.erase _ _)
  -- the last transaction of the account comes before none of it
  obtain hxf | ⟨h1, h2⟩ := hxf.of_erase
  · exact .inl (hsa.isFirst hxf)
  have hxq := hq.mem_byFee.1 (hsub.subset ((passed_sublist _ _).subset hx))
  rw [getTx, ← h1, hacc, Option.bind_some, ← TreeMap.mem_iff_isSome_getElem?] at hxq
  have hle := (TreeMap.maxKey?_eq_some_iff_mem_and_forall.1 hs).2 _ hxq
  rw [Std.LawfulOrderOrd.isLE_compare] at hle
  exact absurd h2 (not_lt.2 hle)

/-! ### The loop -/

/-- The loop between two turns, with the turns it has taken, the last one first. -/
structure Accepting (View Tx Rules : Type) where
  queue : TxQ Tx Rules
  view : View
  ledgerChanged : Bool
  place : Option Ref
  taken : List (TurnAt View Tx Rules)

variable {s : Accepting View Tx Rules}

/-- The next turn, unless the loop has come to its end. -/
def Accepting.turn (E : Engine View Tx Rules) (s : Accepting View Tx Rules) :
    Accepting View Tx Rules :=
  match s.place with
  | none => s
  | some r =>
    let t : TurnAt View Tx Rules := ⟨s.queue, s.view, s.ledgerChanged, r⟩
    match t.step E with
    | .stop .. => s
    | .goOn q view ledgerChanged next _ => ⟨q, view, ledgerChanged, next, t :: s.taken⟩

/-- The loop after `n` turns. -/
def accepting (E : Engine View Tx Rules) (q : TxQ Tx Rules) (view : View) (n : ℕ) :
    Accepting View Tx Rules :=
  (Accepting.turn E)^[n] ⟨q, view, false, q.byFee.head?, []⟩

/-- The transactions that were tried, in their order. -/
def attempted (E : Engine View Tx Rules) (taken : List (TurnAt View Tx Rules)) : List Ref :=
  taken.flatMap (TurnAt.attempt E)

theorem Accepting.turn_cases (hq : Linked E s.queue) :
    s.turn E = s ∨ ∃ t, s.place = some t.place ∧ s.queue = t.queue ∧
      (s.turn E).taken = t :: s.taken ∧ Linked E (s.turn E).queue ∧
      Moves E t (s.turn E).queue (s.turn E).place := by
  obtain ⟨queue, view, ledgerChanged, _ | r, taken⟩ := s
  · exact .inl rfl
  have hsp := acceptOne_spec (E := E) queue view ledgerChanged r
  cases hs : TurnAt.step E ⟨queue, view, ledgerChanged, r⟩ with
  | stop q' view' _ => exact .inl (by simp [turn, hs])
  | goOn q' view' ledgerChanged' next tried =>
    refine .inr ⟨⟨queue, view, ledgerChanged, r⟩, rfl, rfl, ?_⟩
    have ht : turn E ⟨queue, view, ledgerChanged, some r, taken⟩ =
        ⟨q', view', ledgerChanged', next, ⟨queue, view, ledgerChanged, r⟩ :: taken⟩ := by
      simp [turn, hs]
    have hmo := acceptOne_moves (t := ⟨queue, view, ledgerChanged, r⟩) hq hs
    unfold TurnAt.step at hs
    rw [hs] at hsp
    rw [ht]
    exact ⟨rfl, hsp.2.1.linked hq, hmo⟩

/-! ### What holds after every turn -/

/-- What every turn keeps of the queue. -/
structure Accepting.Inv (E : Engine View Tx Rules) (q : TxQ Tx Rules)
    (s : Accepting View Tx Rules) : Prop where
  linked : Linked E s.queue
  sublist : s.queue.byFee <+ q.byFee
  budget : Budget (attempted E s.taken) q s.queue
  firsts : ∀ r ∈ passed s.queue.byFee s.place, IsFirst s.queue r → r ∈ attempted E s.taken ∨
    ∃ t ∈ s.taken, t.attempts E = true ∧ t.LeavesBehind r
  applied : ∀ t ∈ s.taken, t.applies E = true → ∀ n ≤ t.place.2, s.queue.getTx (t.place.1, n) = none
  ordered : s.taken.Pairwise fun t t' => t'.applies E = true → t.place.1 = t'.place.1 →
    t'.place.2 < t.place.2
  before : ∀ later t earlier, s.taken = later ++ t :: earlier → Budget (attempted E earlier) q t.queue
  -- What was attempted and stays is the first of its account and had a retry left.
  stayed : ∀ r ∈ attempted E s.taken, r ∈ s.queue.byFee → IsFirst s.queue r ∧
    ∃ m, q.getTx r = some m ∧ 0 < m.retriesRemaining

theorem Accepting.Inv.start (hq : Linked E q) (view : View) :
    Inv E q ⟨q, view, false, q.byFee.head?, []⟩ where
  linked := hq
  sublist := .refl _
  budget := .of_same fun _ m' hm' => ⟨m', hm', rfl⟩
  firsts r hr := by
    cases hf : q.byFee with
    | nil => simp [hf, passed] at hr
    | cons _ _ => simp [hf, passed_cons] at hr
  applied := by simp
  ordered := .nil
  before later t earlier h := by simp at h
  stayed _ h := absurd h not_mem_nil

theorem mem_attempted_cons :
    r ∈ attempted E (t :: taken) ↔ t.attempts E = true ∧ r = t.place ∨ r ∈ attempted E taken := by
  unfold attempted
  rw [flatMap_cons, TurnAt.attempt]
  split <;> simp [*]

theorem Accepting.Inv.turn (h : Inv E q s) : Inv E q (s.turn E) := by
  obtain heq | ⟨t, hpl, hq, hta, hli, hmo⟩ := turn_cases h.linked
  · rw [heq]
    exact h
  have hbu := h.budget
  rw [hq] at hbu
  refine { linked := hli, sublist := ?sublist, budget := ?budget, firsts := ?firsts,
           applied := ?applied, ordered := ?ordered, before := ?before, stayed := ?stayed }
  case sublist =>
    have hsu := h.sublist
    rw [hq] at hsu
    exact hmo.sublist.trans hsu
  case budget =>
    rw [hta]
    exact hbu.trans hmo.budget
  case firsts =>
    intro r hr hfi
    rw [hta, mem_attempted_cons]
    obtain hp | rfl := hmo.goesOn.passes r hr
    · obtain hfi | hex := hmo.exposes r hp hr hfi
      · rw [← hq] at hp hfi
        rw [← hpl] at hp
        refine (h.firsts r hp hfi).imp .inr ?_
        rintro ⟨t', ht', hle⟩
        exact ⟨t', .tail _ ht', hle⟩
      · exact .inr ⟨t, mem_cons_self, hex⟩
    refine .inl (.inl ⟨Bool.eq_true_of_not_eq_false fun hat => ?_, rfl⟩)
    obtain ⟨hn, he, -⟩ := hmo.skipped hat
    rw [he] at hfi
    exact hn hfi
  case applied =>
    intro t' ht' hap n hn
    rw [hta] at ht'
    obtain rfl | ht' := mem_cons.1 ht'
    · obtain rfl | hlt := hn.eq_or_lt
      · exact hmo.applied hap
      · have hfi := (TurnAt.attempts_spec (TurnAt.attempts_of_applies hap)).1
        exact hmo.budget.eq_none (hfi n hlt)
    refine hmo.budget.eq_none ?_
    rw [← hq]
    exact h.applied t' ht' hap n hn
  case ordered =>
    rw [hta]
    refine .cons (fun t' ht' hap hac => lt_of_not_ge fun hle => ?_) h.ordered
    have hnone := h.applied t' ht' hap t.place.2 hle
    rw [hq, ← hac] at hnone
    have hqu := hmo.queued
    rw [hnone] at hqu
    cases hqu
  case before =>
    intro later t' earlier hs
    rw [hta] at hs
    cases later with
    | nil =>
      cases hs
      exact hbu
    | cons _ later =>
      rw [cons_append, cons.injEq] at hs
      exact h.before later t' earlier hs.2
  case stayed =>
    intro r hr hr'
    rw [hta, mem_attempted_cons] at hr
    obtain ⟨hat, rfl⟩ | hr := hr
    · refine ⟨hmo.budget.isFirst (TurnAt.attempts_spec hat).1, ?_⟩
      obtain ⟨m', hm', hpos⟩ := hmo.kept hat (hli.mem_byFee.1 hr')
      obtain ⟨m, hm, penalties, -, hre⟩ := hbu _ m' hm'
      have hle := foldl_useRetry_le m penalties
      exact ⟨m, hm, by omega⟩
    · have hin := hmo.sublist.subset hr'
      rw [← hq] at hin
      obtain ⟨hfi, hm⟩ := h.stayed r hr hin
      rw [hq] at hfi
      exact ⟨hmo.budget.isFirst hfi, hm⟩

/-- Where an account's next transaction comes before one of its transactions in the fee order, those
between the two are of the same account or have no retry left. -/
def Unentangled (q : TxQ Tx Rules) : Prop :=
  ∀ (account : AccountID) (sequence : ℕ) (r : Ref),
    [(account, sequence + 1), r, (account, sequence)] <+ q.byFee →
    r.1 = account ∨ ∀ m, q.getTx r = some m → m.retriesRemaining ≤ 0

/-- What was tried is behind the loop, and was tried once. -/
structure Accepting.Once (E : Engine View Tx Rules) (s : Accepting View Tx Rules) : Prop where
  behind : ∀ r ∈ attempted E s.taken, r ∈ s.queue.byFee → r ∈ passed s.queue.byFee s.place
  nodup : (attempted E s.taken).Nodup

/-- A turn does not go back over what was attempted. -/
theorem Moves.behind {next : Option Ref} (hmo : Moves E t q' next) (hq : Linked E t.queue)
    (hsu : t.queue.byFee <+ q.byFee) (hun : Unentangled q) (hr : r ∈ q'.byFee)
    (hp : r ∈ passed t.queue.byFee (some t.place)) (hfi : IsFirst t.queue r)
    (hm : ∃ m, q.getTx r = some m ∧ 0 < m.retriesRemaining) : r ∈ passed q'.byFee next := by
  have hmem := hq.mem_byFee.2 hmo.queued
  cases hat : t.attempts E with
  | false =>
    obtain ⟨-, he, hn⟩ := hmo.skipped hat
    rw [he, hn, (nextKey_spec hq.index.nodup hmem).1]
    exact mem_append_left _ hp
  | true =>
    refine (hmo.goesOn.stays r hr (.inl hp)).resolve_right fun hback => ?_
    have hac : r.1 = t.place.1 := by
      obtain rfl | hback := hback
      · rfl
      refine (hun _ _ r (hback.trans hsu)).resolve_right fun hno => ?_
      obtain ⟨m, hm, hpos⟩ := hm
      exact absurd (hno m hm) (not_le.2 hpos)
    -- both are the first of one account
    have hin := hq.mem_byFee.1 ((passed_sublist _ _).subset hp)
    have hlt : ¬ r.2 < t.place.2 := fun hlt => by
      have hno := (TurnAt.attempts_spec hat).1 r.2 hlt
      rw [← hac] at hno
      rw [hno] at hin
      cases hin
    have hgt : ¬ t.place.2 < r.2 := fun hgt => by
      have hno := hfi t.place.2 hgt
      have hqu := hmo.queued
      rw [hac] at hno
      rw [hno] at hqu
      cases hqu
    obtain rfl : r = t.place := Prod.ext hac (by omega)
    exact notMem_passed _ _ hp

theorem Accepting.Once.turn (hun : Unentangled q) (hi : Inv E q s) (h : Once E s) :
    Once E (s.turn E) := by
  obtain heq | ⟨t, hpl, hq, hta, hli, hmo⟩ := turn_cases hi.linked
  · rw [heq]
    exact h
  have hlq := hi.linked
  have hsu := hi.sublist
  rw [hq] at hlq hsu
  have hmem := hlq.mem_byFee.2 hmo.queued
  refine ⟨fun r hr hr' => ?_, ?_⟩
  · rw [hta, mem_attempted_cons] at hr
    obtain ⟨-, rfl⟩ | hr := hr
    · refine (hmo.goesOn.stays _ hr' (.inr rfl)).resolve_right fun hback => ?_
      obtain heq | hback := hback
      · exact absurd (congrArg Prod.snd heq) (Nat.lt_succ_self _).ne
      · have hno := hlq.index.nodup.sublist hback
        simp at hno
    · have hin := hmo.sublist.subset hr'
      rw [← hq] at hin
      have hp := h.behind r hr hin
      obtain ⟨hfi, hm⟩ := hi.stayed r hr hin
      rw [hq] at hp hfi
      rw [hpl] at hp
      exact hmo.behind hlq hsu hun hr' hp hfi hm
  · rw [hta, attempted, flatMap_cons, TurnAt.attempt]
    split
    case isFalse => exact h.nodup
    case isTrue =>
      refine nodup_cons.2 ⟨fun hag => ?_, h.nodup⟩
      rw [← hq] at hmem
      have hp := h.behind t.place hag hmem
      rw [hpl] at hp
      exact notMem_passed _ _ hp

namespace Queues

/-- Account 5's first transaction is replaced by one that pays as much as its second. -/
def replaced : TxQ (AccountID × ℕ × ℕ) Unit :=
  run engine (new {}) [.apply () (5, 1, 300) {}, .apply () (5, 2, 400) {}, .apply () (5, 1, 400) {},
    .apply () (6, 1, 400) {}, .apply () (7, 1, 200) {}]

/-- Account 5's second transaction pays most. -/
def skipped : TxQ (AccountID × ℕ × ℕ) Unit :=
  run engine (new {}) [.apply () (5, 1, 300) {}, .apply () (8, 1, 400) {}, .apply () (5, 2, 500) {}]

end Queues

end FinPal.TxQ
