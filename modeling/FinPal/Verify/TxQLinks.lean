import FinPal.Misc.TxQ

/-!
# Links in the transaction queue

`byFee` links exactly the transactions that the accounts hold, by falling fee level. A queue changes
without its links (`SameLinks`), by removals (`Reduced`), or by an addition (`hold`).
-/

namespace FinPal.TxQ
open Std (TreeMap)
variable {View Tx Rules : Type} {E : Engine View Tx Rules}
  {q q' q'' : TxQ Tx Rules} {r : Ref} {c : Candidate Tx Rules} {n : ℕ} {deleteRef : Option Ref}

/-! ### Places -/

section
variable (q : TxQ Tx Rules) (account : AccountID) (f : TxQAccount Tx Rules → TxQAccount Tx Rules)

theorem getAccount_modifyAccount (a : AccountID) :
    (q.modifyAccount account f).getAccount a =
      if a = account then (q.getAccount a).map f else q.getAccount a := by
  unfold modifyAccount getAccount
  rw [TreeMap.getElem?_modify]
  by_cases ha : account = a
  · subst ha
    simp
  · rw [if_neg (fun h => ha (compare_eq_iff_eq.1 h)), if_neg (Ne.symm ha)]

theorem getTx_modifyAccount (r : Ref) :
    (q.modifyAccount account f).getTx r =
      if r.1 = account then (q.getAccount r.1).bind fun a => (f a).transactions[r.2]?
      else q.getTx r := by
  unfold getTx
  rw [getAccount_modifyAccount]
  split
  · exact Option.bind_map ..
  · rfl

end

theorem getTx_modifyTx (q : TxQ Tx Rules) (r : Ref) (f : MaybeTx Tx Rules → MaybeTx Tx Rules)
    (r' : Ref) : (q.modifyTx r f).getTx r' = if r' = r then (q.getTx r').map f else q.getTx r' := by
  unfold modifyTx
  rw [getTx_modifyAccount]
  obtain ⟨a, s⟩ := r
  obtain ⟨a', s'⟩ := r'
  simp only [getTx, TreeMap.getElem?_modify, Prod.mk.injEq]
  by_cases ha : a' = a
  · cases q.getAccount a' with
    | none => simp
    | some _ =>
      by_cases hs : s' = s
      · simp [hs]
      · simp [hs, Ne.symm hs]
  · simp [ha]

theorem getTx_erase (q : TxQ Tx Rules) (r r' : Ref) :
    (q.erase r).getTx r' = if r' = r then none else q.getTx r' := by
  change (q.modifyAccount r.1 _).getTx r' = _
  rw [getTx_modifyAccount]
  obtain ⟨a, s⟩ := r
  obtain ⟨a', s'⟩ := r'
  simp only [getTx, TreeMap.getElem?_erase, Prod.mk.injEq]
  by_cases ha : a' = a
  · cases q.getAccount a' with
    | none => simp
    | some _ =>
      by_cases hs : s' = s
      · simp [hs]
      · simp [hs, Ne.symm hs]
  · simp [ha]

/-! ### The invariant -/

/-- `byFee` links the transactions of the accounts, each once and by falling fee level; each is kept
under its own account and sequence. -/
structure Linked (E : Engine View Tx Rules) (q : TxQ Tx Rules) : Prop where
  index : IsRankIndex MaybeTx.feeLevel q.getTx q.byFee
  keyed : ∀ r m, q.getTx r = some m → E.account m.txn = r.1 ∧ E.sequence m.txn = r.2

/-- No account has more than `n` transactions. -/
def Capped (n : ℕ) (q : TxQ Tx Rules) : Prop :=
  ∀ a account, q.getAccount a = some account → account.transactions.size ≤ n

/-- Nothing that concerns links, places or limits has changed. -/
structure SameLinks (q q' : TxQ Tx Rules) : Prop where
  setup : q'.setup = q.setup
  maxSize : q'.maxSize = q.maxSize
  byFee : q'.byFee = q.byFee
  getTx : ∀ r, (q'.getTx r).map (fun m => (m.txn, m.feeLevel)) =
    (q.getTx r).map fun m => (m.txn, m.feeLevel)
  sizes : ∀ a, (q'.getAccount a).map (·.transactions.size) =
    (q.getAccount a).map (·.transactions.size)

namespace SameLinks

theorem refl (q : TxQ Tx Rules) : SameLinks q q := ⟨rfl, rfl, rfl, fun _ => rfl, fun _ => rfl⟩

theorem trans (h : SameLinks q q') (h' : SameLinks q' q'') : SameLinks q q'' where
  setup := h'.setup.trans h.setup
  maxSize := h'.maxSize.trans h.maxSize
  byFee := h'.byFee.trans h.byFee
  getTx r := (h'.getTx r).trans (h.getTx r)
  sizes a := (h'.sizes a).trans (h.sizes a)

theorem symm (h : SameLinks q q') : SameLinks q' q where
  setup := h.setup.symm
  maxSize := h.maxSize.symm
  byFee := h.byFee.symm
  getTx r := (h.getTx r).symm
  sizes a := (h.sizes a).symm

theorem modifyTx (q : TxQ Tx Rules) (r : Ref) {f : MaybeTx Tx Rules → MaybeTx Tx Rules}
    (hf : ∀ m, (f m).txn = m.txn ∧ (f m).feeLevel = m.feeLevel) :
    SameLinks q (q.modifyTx r f) where
  setup := rfl
  maxSize := rfl
  byFee := rfl
  getTx r' := by
    rw [getTx_modifyTx]
    split
    · rw [Option.map_map]
      congr 1
      funext m
      simp [hf m]
    · rfl
  sizes a := by
    unfold TxQ.modifyTx
    rw [getAccount_modifyAccount]
    split
    · rw [Option.map_map]
      congr 1
      funext account
      exact TreeMap.size_modify
    · rfl

theorem modifyAccount (q : TxQ Tx Rules) (a : AccountID)
    {f : TxQAccount Tx Rules → TxQAccount Tx Rules}
    (hf : ∀ account, (f account).transactions = account.transactions) :
    SameLinks q (q.modifyAccount a f) where
  setup := rfl
  maxSize := rfl
  byFee := rfl
  getTx r := by
    have hg : (q.modifyAccount a f).getTx r = q.getTx r := by
      rw [getTx_modifyAccount]
      split
      · unfold TxQ.getTx
        congr 1
        funext account
        rw [hf account]
      · rfl
    rw [hg]
  sizes a' := by
    rw [getAccount_modifyAccount]
    split
    · rw [Option.map_map]
      congr 1
      funext account
      simp [hf account]
    · rfl

theorem cacheConsequences (E : Engine View Tx Rules) (q : TxQ Tx Rules) (r : Ref) :
    SameLinks q (q.cacheConsequences E r) :=
  modifyTx q r fun _ => ⟨rfl, rfl⟩

variable (h : SameLinks q q')

include h

theorem isSome_getTx (r : Ref) : (q'.getTx r).isSome = (q.getTx r).isSome := by
  have := congrArg Option.isSome (h.getTx r)
  simpa using this

theorem isFull (fillPercentage : ℕ) : q'.isFull fillPercentage = q.isFull fillPercentage := by
  unfold TxQ.isFull
  rw [h.maxSize, h.byFee]

theorem linked (hq : Linked E q) : Linked E q' where
  index := by
    rw [h.byFee]
    refine hq.index.congr fun r => ?_
    have := congrArg (Option.map Prod.snd) (h.getTx r)
    simpa [Function.comp_def] using this
  keyed r m hm := by
    have hr := h.getTx r
    rw [hm] at hr
    obtain ⟨m0, hm0, heq⟩ := Option.map_eq_some_iff.1 hr.symm
    have ht : m0.txn = m.txn := congrArg Prod.fst heq
    rw [← ht]
    exact hq.keyed r m0 hm0

theorem capped (hq : Capped n q) : Capped n q' := by
  intro a _ ha
  have hs := h.sizes a
  rw [ha] at hs
  obtain ⟨account0, ha0, heq⟩ := Option.map_eq_some_iff.1 hs.symm
  exact heq.symm.le.trans (hq a account0 ha0)

end SameLinks

/-! ### Removals -/

/-- Transactions have only gone. -/
structure Reduced (E : Engine View Tx Rules) (q q' : TxQ Tx Rules) : Prop where
  setup : q'.setup = q.setup
  linked : Linked E q → Linked E q'
  length_le : q'.byFee.length ≤ q.byFee.length
  capped : ∀ n, Capped n q → Capped n q'

theorem SameLinks.reduced (h : SameLinks q q') : Reduced E q q' where
  setup := h.setup
  linked := h.linked
  length_le := by rw [h.byFee]
  capped _ := h.capped

namespace Reduced

theorem refl (q : TxQ Tx Rules) : Reduced E q q := (SameLinks.refl q).reduced

theorem trans (h : Reduced E q q') (h' : Reduced E q' q'') : Reduced E q q'' where
  setup := h'.setup.trans h.setup
  linked hq := h'.linked (h.linked hq)
  length_le := h'.length_le.trans h.length_le
  capped n hq := h'.capped n (h.capped n hq)

theorem erase (q : TxQ Tx Rules) (r : Ref) : Reduced E q (q.erase r) where
  setup := rfl
  linked hq := by
    have hg (r') := getTx_erase q r r'
    refine ⟨hq.index.erase ?_ fun r' hr' => ?_, fun r' m hm => ?_⟩
    · rw [hg, if_pos rfl]
    · rw [hg, if_neg hr']
    rw [hg] at hm
    split at hm
    · cases hm
    · exact hq.keyed r' m hm
  length_le := List.erase_sublist.length_le
  capped n hq := by
    intro a account ha
    change (q.modifyAccount r.1 _).getAccount a = _ at ha
    rw [getAccount_modifyAccount] at ha
    split at ha
    · obtain ⟨account0, ha0, rfl⟩ := Option.map_eq_some_iff.1 ha
      exact TreeMap.size_erase_le.trans (hq a account0 ha0)
    · exact hq a account ha

theorem foldl {α : Type} {f : TxQ Tx Rules → α → TxQ Tx Rules}
    (hf : ∀ q x, Reduced E q (f q x)) (l : List α) (q : TxQ Tx Rules) :
    Reduced E q (l.foldl f q) := by
  induction l generalizing q with
  | nil => exact .refl q
  | cons x l ih => exact (hf q x).trans (ih _)

theorem eraseRange (q : TxQ Tx Rules) (account : AccountID) (sequences : List ℕ) :
    Reduced E q (q.eraseRange account sequences) :=
  foldl (fun q s => erase q (account, s)) sequences q

end Reduced

/-! ### Additions -/

theorem getAccount_add (q : TxQ Tx Rules) (c : Candidate Tx Rules)
    (consequences : Option TxConsequences) (a : AccountID) :
    (q.add E c consequences).getAccount a = if a = c.account E then
        some { (q.getAccount (c.account E)).getD {} with
          transactions := ((q.getAccount (c.account E)).getD {}).transactions.insertIfNew (c.tSeq E)
            (c.maybeTx E consequences) }
      else q.getAccount a := by
  unfold add getAccount
  rw [TreeMap.getElem?_insert]
  by_cases ha : a = c.account E
  · simp [ha]
  · rw [if_neg (fun h => ha (compare_eq_iff_eq.1 h).symm), if_neg ha]

theorem getTx_eq_getD (q : TxQ Tx Rules) (r : Ref) :
    q.getTx r = ((q.getAccount r.1).getD {}).transactions[r.2]? := by
  unfold getTx
  cases q.getAccount r.1 with
  | none => simp
  | some _ => rfl

theorem getTx_add (hn : q.getTx (c.ref E) = none) (consequences : Option TxConsequences) (r : Ref) :
    (q.add E c consequences).getTx r =
      if r = c.ref E then some (c.maybeTx E consequences) else q.getTx r := by
  rw [getTx_eq_getD] at hn
  rw [getTx_eq_getD, getTx_eq_getD, getAccount_add]
  obtain ⟨a, s⟩ := r
  by_cases ha : a = c.account E
  · subst ha
    have hm : c.tSeq E ∉ ((q.getAccount (c.account E)).getD {}).transactions := fun h => by
      have hso := TreeMap.mem_iff_isSome_getElem?.1 h
      exact absurd (congrArg Option.isSome hn) (by simpa [Candidate.ref] using hso)
    rw [if_pos rfl, Option.getD_some]
    rw [TreeMap.getElem?_insertIfNew]
    by_cases hs : s = c.tSeq E
    · simp [hs, hm, Candidate.ref]
    · rw [if_neg (fun h => hs (compare_eq_iff_eq.1 h.1).symm),
        if_neg (fun h => hs (congrArg Prod.snd h))]
  · rw [if_neg ha, if_neg (fun h => ha (congrArg Prod.fst h))]

theorem Linked.add (hq : Linked E q) (hn : q.getTx (c.ref E) = none)
    (consequences : Option TxConsequences) : Linked E (q.add E c consequences) := by
  have hg := getTx_add hn consequences
  refine ⟨hq.index.insert (v := c.maybeTx E consequences) (fun r m hm => ?_) hn ?_
    fun r hr => ?_, fun r m hm => ?_⟩
  · rw [feeLevelOf, hm]
    rfl
  · rw [hg, if_pos rfl]
  · rw [hg, if_neg hr]
  rw [hg] at hm
  split at hm
  case isTrue hr =>
    cases hm
    rw [hr]
    exact ⟨rfl, rfl⟩
  case isFalse => exact hq.keyed r m hm

theorem Capped.add (hq : Capped n q) (hn : 1 ≤ n)
    (hr : ∀ account, q.getAccount (c.account E) = some account → account.transactions.size < n)
    (consequences : Option TxConsequences) : Capped n (q.add E c consequences) := by
  intro a account ha
  rw [getAccount_add] at ha
  split at ha
  case isFalse => exact hq a account ha
  case isTrue =>
    cases ha
    have hsize : ((q.getAccount (c.account E)).getD {}).transactions.size < n := by
      cases hacc : q.getAccount (c.account E) with
      | none => exact hn
      | some account => exact hr account hacc
    rw [TreeMap.size_insertIfNew]
    split <;> omega

/-- There is room for one more transaction of the account, or one goes for it. -/
def Room (E : Engine View Tx Rules) (q : TxQ Tx Rules) (c : Candidate Tx Rules)
    (deleteRef : Option Ref) : Prop :=
  deleteRef.isSome = true ∨ ∀ account, q.getAccount (c.account E) = some account →
    account.transactions.size < q.setup.maximumTxnPerAccount

theorem room_of_canBeHeld (view : View)
    (h : q.canBeHeld E c.tx view (q.getAccount (c.account E)) deleteRef = true) :
    Room E q c deleteRef := by
  unfold canBeHeld at h
  rw [Bool.and_eq_true, Bool.or_eq_true] at h
  refine h.2.imp id fun ha account hacc => ?_
  rw [hacc] at ha
  simpa using ha

theorem Room.same (h : Room E q c deleteRef) (hs : SameLinks q q') : Room E q' c deleteRef := by
  refine h.imp id fun hr account ha => ?_
  have hsi := hs.sizes (c.account E)
  rw [ha] at hsi
  obtain ⟨account0, ha0, heq⟩ := Option.map_eq_some_iff.1 hsi.symm
  rw [hs.setup]
  exact heq.symm.le.trans_lt (hr account0 ha0)

/-- What is replaced has the same account and sequence. -/
def Replaces (E : Engine View Tx Rules) (q : TxQ Tx Rules) (c : Candidate Tx Rules)
    (deleteRef : Option Ref) : Prop :=
  deleteRef = if (q.getTx (c.ref E)).isSome then some (c.ref E) else none

theorem replaces_none (h : q.getTx (c.ref E) = none) : Replaces E q c none := by
  rw [Replaces, h]
  rfl

theorem replaces_ref {m : MaybeTx Tx Rules} (h : q.getTx (c.ref E) = some m) :
    Replaces E q c (some (c.ref E)) := by
  rw [Replaces, h]
  rfl

theorem Replaces.same (h : Replaces E q c deleteRef)
    (hs : SameLinks q q') : Replaces E q' c deleteRef := by
  unfold Replaces
  rw [hs.isSome_getTx]
  exact h

/-! ### Ways to end -/

/-- What `apply` may have done to the queue. -/
structure Applied (E : Engine View Tx Rules) (q q' : TxQ Tx Rules) : Prop where
  setup : q'.setup = q.setup
  linked : Linked E q → Linked E q'
  capped : Linked E q → 1 ≤ q.setup.maximumTxnPerAccount →
    Capped q.setup.maximumTxnPerAccount q → Capped q.setup.maximumTxnPerAccount q'
  full : Linked E q → q.isFull 100 = true → q'.byFee.length ≤ q.byFee.length

theorem Reduced.applied (h : Reduced E q q') : Applied E q q' where
  setup := h.setup
  linked := h.linked
  capped _ _ := h.capped _
  full _ _ := h.length_le

theorem Applied.after (h : SameLinks q q') (h' : Applied E q' q'') : Applied E q q'' where
  setup := h'.setup.trans h.setup
  linked hq := h'.linked (h.linked hq)
  capped hq hm hc := by
    rw [← h.setup] at hm hc ⊢
    exact h'.capped (h.linked hq) hm (h.capped hc)
  full hq hf := by
    rw [← h.isFull] at hf
    rw [← h.byFee]
    exact h'.full (h.linked hq) hf

theorem getTx_erase_self (q : TxQ Tx Rules) (r : Ref) : (q.erase r).getTx r = none := by
  rw [getTx_erase, if_pos rfl]

theorem Linked.mem_byFee (hq : Linked E q) : r ∈ q.byFee ↔ (q.getTx r).isSome = true :=
  hq.index.mem_iff r

theorem length_erase_add_one (hq : Linked E q) (hr : (q.getTx r).isSome = true) :
    (q.erase r).byFee.length + 1 = q.byFee.length := by
  have hm := hq.mem_byFee.2 hr
  change (q.byFee.erase r).length + 1 = _
  rw [List.length_erase_of_mem hm]
  exact Nat.sub_add_cancel (List.length_pos_of_mem hm)

theorem size_lt_of_erase (hc : Capped n q) (hr : (q.getTx r).isSome = true)
    {account : TxQAccount Tx Rules} (ha : (q.erase r).getAccount r.1 = some account) :
    account.transactions.size < n := by
  change (q.modifyAccount r.1 _).getAccount r.1 = _ at ha
  rw [getAccount_modifyAccount, if_pos rfl] at ha
  obtain ⟨account0, ha0, rfl⟩ := Option.map_eq_some_iff.1 ha
  have hm : r.2 ∈ account0.transactions := by
    rw [getTx, ha0] at hr
    exact TreeMap.mem_iff_isSome_getElem?.2 hr
  have hpos : account0.transactions.size ≠ 0 := by
    have hem := TreeMap.isEmpty_eq_false_iff_exists_mem.2 ⟨r.2, hm⟩
    rw [TreeMap.isEmpty_eq_size_eq_zero] at hem
    simpa using hem
  have hsize := hc r.1 account0 ha0
  rw [TreeMap.size_erase, if_pos (TreeMap.contains_iff_mem.2 hm)]
  omega

theorem hold_spec (hq : Linked E q) {rep : Replacement} (hr : Replaces E q c rep.deleteRef) :
    Linked E (q.hold E c rep) ∧
      (q.hold E c rep).byFee.length = q.byFee.length + (if rep.deleteRef.isSome then 0 else 1) ∧
      (1 ≤ n → Capped n q → n = q.setup.maximumTxnPerAccount → Room E q c rep.deleteRef →
        Capped n (q.hold E c rep)) := by
  unfold Replaces at hr
  unfold hold
  cases hold : (q.getTx (c.ref E)).isSome with
  | false =>
    have hno : q.getTx (c.ref E) = none := by simpa using hold
    rw [hold] at hr
    rw [hr]
    refine ⟨hq.add hno _, length_insertByRank, fun hn hc hm hro => hc.add hn ?_ _⟩
    intro account ha
    rw [hm]
    exact (hro.resolve_left (by simp)) account ha
  | true =>
    rw [hold] at hr
    rw [hr]
    have hl := length_erase_add_one hq hold
    have her : Reduced E q (q.erase (c.ref E)) := .erase q _
    refine ⟨(her.linked hq).add (getTx_erase_self q _) _, ?_, fun hn hc hm _ => ?_⟩
    · exact length_insertByRank.trans hl
    · exact (her.capped n hc).add hn (fun account ha => size_lt_of_erase hc hold ha) _

end FinPal.TxQ
