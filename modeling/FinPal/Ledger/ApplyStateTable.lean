import FinPal.Ledger.View

/-!
# The open view and the table of one transaction's changes

A transaction works on a table over an `OpenView`. When it is applied on a closed ledger, it is
first threaded to the entries it affected and their owners (`ledger/impl/ApplyStateTable.cpp`). The
view and the ledger under it are one map here.
-/

namespace FinPal
open Store

structure Fees where
  base : Int
  units : Nat
  reserve : Int
  increment : Int
  deriving DecidableEq

def Fees.accountReserve (f : Fees) (ownerCount : Nat) : Int := f.reserve + ownerCount * f.increment

inductive Feature where
  | multiSign
  | escrow
  | payChan
  | cryptoConditionsSuite
  deriving DecidableEq

structure OpenView where
  entries : Digest → Option SLE
  seq : UInt32
  parentCloseTime : UInt32
  isOpen : Bool
  fees : Fees
  enabled : Feature → Bool
  txs : List TxID := []
  feePool : Int := 0

/-- Transactors see and write the entry of an `SLE`, never its threading fields. -/
def carrier : Carrier SLE Entry where
  proj := SLE.entry
  put e s := { s with entry := e }
  fresh e := { entry := e }
  proj_put _ _ := rfl
  proj_fresh _ := rfl

@[simp] theorem carrier_proj : carrier.proj = SLE.entry := rfl

abbrev LedgerTable := Table Digest SLE

/-- What a view shows to a transactor. -/
def OpenView.state (v : OpenView) : State := fun k => (v.entries k).map SLE.entry

def LedgerTable.state (v : OpenView) (t : LedgerTable) : State := Table.shown carrier v.entries t

namespace ApplyStateTable

def size (t : LedgerTable) : Nat := (t.entries.filter (·.2.action ≠ .cache)).length

/-! ## Threading -/

/-- The table and the entries changed by threading alone. -/
structure Threading where
  items : LedgerTable
  mods : AList fun _ : Digest => SLE

section Thread
variable (base : Digest → Option SLE) (txID : TxID) (seq : UInt32)

def threadItem (k : Digest) (s : Threading) : Threading :=
  match s.items.lookup k with
  | some i => { s with items := s.items.insert k { i with val := i.val.thread txID seq } }
  | none => s

/-- Threads the transaction to an account: in the modified entries, in the table unless it is only
cached there, or else in the base. -/
def threadTx (s : Threading) (owner : AccountID) : Threading :=
  let key := Digest.account owner
  match s.mods.lookup key with
  | some sle => { s with mods := s.mods.insert key (sle.thread txID seq) }
  | none =>
    match s.items.lookup key with
    | some ⟨.erase, _⟩ => s
    | some ⟨.insert, _⟩ | some ⟨.modify, _⟩ => threadItem txID seq key s
    | _ =>
      match base key with
      | some sle => { s with mods := s.mods.insert key (sle.thread txID seq) }
      | none => s

def threadOwners (e : Entry) (s : Threading) : Threading :=
  e.owners.foldl (threadTx base txID seq) s

/-- Threads the transaction to what one item of the table affects. -/
def threadNode (s : Threading) (k : Digest) : Except Fault Threading :=
  match s.items.lookup k with
  | some ⟨.erase, _⟩ =>
    match base k with
    | some orig => .ok (threadOwners base txID seq orig.entry s)
    | none => .error .nullPointer
  | some ⟨.modify, cur⟩ =>
    match base k with
    | some orig =>
      .ok (if cur ≠ orig ∧ cur.entry.isThreadedType then threadItem txID seq k s else s)
    | none => .error .nullPointer
  | some ⟨.insert, cur⟩ =>
    let s := threadOwners base txID seq cur.entry s
    .ok (if cur.entry.isThreadedType then threadItem txID seq k s else s)
  | _ => .ok s

/-- All of the threading: the table, and the base with the entries that threading alone changes. -/
def thread (t : LedgerTable) : Except Fault (LedgerTable × (Digest → Option SLE)) := do
  let s ← t.keys.foldlM (threadNode base txID seq) { items := t, mods := ∅ }
  let base ← s.mods.entries.foldlM (fun b m => Table.rawReplace b m.1 m.2) base
  pure (s.items, base)

end Thread

def rawTxInsert (txs : List TxID) (txID : TxID) : Except Fault (List TxID) :=
  if txID ∈ txs then .error .logicError else .ok (txID :: txs)

/-- `ApplyStateTable::apply`: on a closed ledger thread the transaction, then record it and write
the changes. -/
def applyTable (v : OpenView) (t : LedgerTable) (dropsDestroyed : Int) (txID : TxID) :
    Except Fault OpenView := do
  let r ← bif v.isOpen then .ok (t, v.entries) else thread v.entries txID v.seq t
  let txs ← rawTxInsert v.txs txID
  let entries ← r.1.applyTo r.2
  pure { v with entries, txs, feePool := v.feePool + dropsDestroyed }

/-! ## Threading changes no entry -/

def SameItems (t t' : LedgerTable) : Prop :=
  ∀ k, (t'.lookup k).map (fun i => (i.action, i.val.entry)) =
    (t.lookup k).map fun i => (i.action, i.val.entry)

/-- Threading has changed no entry, and those changed by it alone are the base's. -/
structure Threading.Inert (base : Digest → Option SLE) (t : LedgerTable) (s : Threading) : Prop where
  items : SameItems t s.items
  mods : ∀ k sle, s.mods.lookup k = some sle → (base k).map SLE.entry = some sle.entry

section Inert
variable {base : Digest → Option SLE} {txID : TxID} {seq : UInt32} {t : LedgerTable}
  {s : Threading}

section
variable (h : s.Inert base t)
include h

theorem Threading.Inert.threadItem (k : Digest) : (threadItem txID seq k s).Inert base t := by
  unfold ApplyStateTable.threadItem
  split
  · next i hi =>
    refine ⟨fun k' => ?_, h.mods⟩
    rw [← h.items k', Table.lookup_insert_eq]
    split
    · next e => subst e; simp [hi]
    · rfl
  · exact h

theorem Threading.Inert.mod {k : Digest} {sle : SLE}
    (hs : (base k).map SLE.entry = some sle.entry) :
    Threading.Inert base t { s with mods := s.mods.insert k sle } := by
  refine ⟨h.items, fun k' sle' hl => ?_⟩
  by_cases e : k' = k
  · subst e
    obtain rfl : sle = sle' := by simpa using hl
    exact hs
  · exact h.mods k' sle' (by simpa [e] using hl)

theorem Threading.Inert.threadTx (owner : AccountID) :
    (threadTx base txID seq s owner).Inert base t := by
  simp only [ApplyStateTable.threadTx]
  split
  · next sle hl => exact h.mod (by simpa using h.mods _ _ hl)
  split
  · exact h
  · exact h.threadItem _
  · exact h.threadItem _
  split
  · next sle hb => exact h.mod (by simp [hb])
  · exact h

theorem Threading.Inert.threadOwners (e : Entry) :
    (threadOwners base txID seq e s).Inert base t := by
  unfold ApplyStateTable.threadOwners
  induction e.owners generalizing s with
  | nil => exact h
  | cons owner _ ih => exact ih (h.threadTx owner)

theorem Threading.Inert.threadNode {s' : Threading} {k : Digest}
    (hr : threadNode base txID seq s k = .ok s') : s'.Inert base t := by
  unfold ApplyStateTable.threadNode at hr
  split at hr
  · split at hr
    · obtain rfl := Except.ok.inj hr
      exact h.threadOwners _
    · cases hr
  · split at hr
    · obtain rfl := Except.ok.inj hr
      split
      · exact h.threadItem k
      · exact h
    · cases hr
  · obtain rfl := Except.ok.inj hr
    split
    · exact (h.threadOwners _).threadItem k
    · exact h.threadOwners _
  · obtain rfl := Except.ok.inj hr
    exact h

private theorem inert_foldlM {l : List Digest} {s' : Threading}
    (hr : l.foldlM (threadNode base txID seq) s = .ok s') : s'.Inert base t := by
  induction l generalizing s with
  | nil =>
    obtain rfl := Except.ok.inj hr
    exact h
  | cons k _ ih =>
    obtain ⟨_, h1, h2⟩ := bind_ok.1 hr
    exact ih (h.threadNode h1) h2

end

private theorem foldlM_rawReplace {l : List (Sigma fun _ : Digest => SLE)}
    {b b' : Digest → Option SLE} (hl : ∀ m ∈ l, (base m.1).map SLE.entry = some m.2.entry)
    (hb : ∀ k, (b k).map SLE.entry = (base k).map SLE.entry)
    (hr : l.foldlM (fun b m => Table.rawReplace b m.1 m.2) b = (.ok b' : Except Fault _)) (k : Digest) :
    (b' k).map SLE.entry = (base k).map SLE.entry := by
  induction l generalizing b with
  | nil =>
    obtain rfl := Except.ok.inj hr
    exact hb k
  | cons m _ ih =>
    rw [List.foldlM_cons] at hr
    obtain ⟨_, h1, h2⟩ := bind_ok.1 hr
    refine ih (fun m' hm' => hl m' (List.mem_cons_of_mem _ hm')) (fun k' => ?_) h2
    unfold Table.rawReplace at h1
    split at h1
    · obtain rfl := Except.ok.inj h1
      by_cases e : k' = m.1
      · subst e
        simpa using (hl m List.mem_cons_self).symm
      · simpa [e] using hb k'
    · cases h1

theorem thread_ok {t' : LedgerTable} {b' : Digest → Option SLE}
    (h : thread base txID seq t = .ok (t', b')) :
    SameItems t t' ∧ ∀ k, (b' k).map SLE.entry = (base k).map SLE.entry := by
  obtain ⟨s, h1, h⟩ := bind_ok.1 h
  obtain ⟨_, h2, h⟩ := bind_ok.1 h
  cases h
  have hs : s.Inert base t := inert_foldlM ⟨fun _ => rfl, fun _ _ h => by simp at h⟩ h1
  refine ⟨hs.items, foldlM_rawReplace (fun m hm => hs.mods m.1 m.2 ?_) (fun _ => rfl) h2⟩
  exact AList.mem_lookup_iff.2 hm

end Inert

/-- Applying a table gives a view that shows what the table showed. -/
theorem applyTable_shown {v v' : OpenView} {t : LedgerTable} {d : Int} {txID : TxID}
    (ht : t.Synced v.entries) (h : applyTable v t d txID = .ok v') :
    v'.state = LedgerTable.state v t ∧ txID ∉ v.txs ∧
      v' = { v with entries := v'.entries, txs := txID :: v.txs, feePool := v.feePool + d } := by
  obtain ⟨⟨items, base⟩, h1, h⟩ := bind_ok.1 h
  obtain ⟨txs, h2, h⟩ := bind_ok.1 h
  obtain ⟨entries, h3, h⟩ := bind_ok.1 h
  cases h
  have hs : SameItems t items ∧ ∀ k, (base k).map SLE.entry = (v.entries k).map SLE.entry := by
    cases hv : v.isOpen with
    | true =>
      rw [hv] at h1
      obtain ⟨rfl, rfl⟩ := Prod.mk.inj (Except.ok.inj h1)
      exact ⟨fun _ => rfl, fun _ => rfl⟩
    | false =>
      rw [hv] at h1
      exact thread_ok h1
  unfold rawTxInsert at h2
  split at h2
  · cases h2
  · next hn =>
    cases h2
    refine ⟨?_, hn, rfl⟩
    funext k
    have hk := hs.1 k
    have hb := hs.2 k
    simp only [OpenView.state, LedgerTable.state, Table.shown, Table.cur, Table.applyTo_ok h3 k]
    cases hl : t.lookup k with
    | none =>
      simp only [hl, Option.map_none, Option.map_eq_none_iff] at hk
      simpa [hk] using hb
    | some i =>
      -- threading kept the item's action and entry
      have hf := ht k i hl
      simp only [hl, Option.map_some, Option.map_eq_some_iff, Prod.mk.injEq] at hk
      obtain ⟨i', hi', ha, he⟩ := hk
      rcases i with ⟨a, s⟩
      rcases i' with ⟨a', _⟩
      obtain rfl : a' = a := ha
      rw [hi']
      cases a'
      · simpa [Table.Item.result, show v.entries k = some s from hf] using hb
      · rfl
      · simpa [Table.Item.result] using he
      · simpa [Table.Item.result] using he

end ApplyStateTable
end FinPal
