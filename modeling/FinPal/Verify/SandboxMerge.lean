import FinPal.Verify.DeferredCredits
import Mathlib.Data.List.Induction

/-!
# Merging a sandbox into its parent

A sandbox is merged into its parent as if its operations had been recorded there
(`merge_recordAll`). The hooks do not see the merge, but for the least original balance of fix1368.
-/

namespace FinPal
open List DeferredCredits SandboxLayer
open Function (update_of_ne update_self update_apply update_eq_self update_idem)
open DeferredCredits (makeKey)
namespace STAmount
variable {c : Currency} {u v w : STAmount}

def plus : STAmount → STAmount → STAmount
  | native a, native b => native (a + b)
  | issued i a, issued _ b => issued i (a + b)
  | v, _ => v

theorem Of.add_eq (hv : v.Of c) (hw : w.Of c) : v.add w = .ok (v.plus w) := by
  cases v with
  | native a =>
    cases w with
    | native b => rfl
    | issued j b => exact absurd hv hw.2
  | issued i a =>
    cases w with
    | native b => exact absurd hw hv.2
    | issued j b => exact if_pos (hv.1.trans hw.1.symm)

theorem Of.plus (hv : v.Of c) (hw : w.Of c) : (v.plus w).Of c := by
  cases v <;> cases w <;> exact hv

theorem Of.num_plus (hv : v.Of c) (hw : w.Of c) : (v.plus w).num = v.num + w.num := by
  obtain ⟨u, hu, -, hn⟩ := hv.add hw
  rw [hv.add_eq hw] at hu
  cases hu
  exact hn

theorem Of.plus_assoc (hu : u.Of c) (hv : v.Of c) (hw : w.Of c) :
    (u.plus v).plus w = u.plus (v.plus w) := by
  cases u <;> cases v <;> cases w <;> simp_all [STAmount.plus, Of, add_assoc]

theorem Of.plus_right_comm (hu : u.Of c) (hv : v.Of c) (hw : w.Of c) :
    (u.plus v).plus w = u.plus (w.plus v) := by
  cases u <;> cases v <;> cases w <;> simp_all [STAmount.plus, Of, add_comm, add_left_comm]

theorem Of.plus_zeroed (hv : v.Of c) (hw : w.Of c) : v.plus w.zeroed = v := by
  cases v <;> cases w <;> simp_all [STAmount.plus, STAmount.zeroed]

theorem neg_plus (v w : STAmount) : -(v.plus w) = (-v).plus (-w) := by
  cases v <;> cases w <;> simp [plus, add_comm]

end STAmount

namespace UInt32

theorem toNat_max (a b : UInt32) : (max a b).toNat = max a.toNat b.toNat := by
  change (if a ≤ b then b else a).toNat = _
  split
  · next h => exact (max_eq_right (UInt32.le_iff_toNat_le.1 h)).symm
  · next h => exact (max_eq_left (le_of_not_ge fun h' => h (UInt32.le_iff_toNat_le.2 h'))).symm

theorem max_comm (a b : UInt32) : max a b = max b a :=
  UInt32.toNat_inj.1 (by rw [toNat_max, toNat_max, Nat.max_comm])

theorem max_assoc (a b c : UInt32) : max (max a b) c = max a (max b c) :=
  UInt32.toNat_inj.1 (by simp only [toNat_max, Nat.max_assoc])

theorem max_left_comm (a b c : UInt32) : max a (max b c) = max b (max a c) := by
  rw [← max_assoc, max_comm a b, max_assoc]

end UInt32

/-! ### Tables as maps -/

/-- Two accounts, the low one first, and a currency. -/
abbrev CreditKey := AccountID × AccountID × Currency

/-- A table of deferred credits as maps. -/
@[ext] structure TableMap where
  credits : CreditKey → Option DeferredCredit
  ownerCounts : AccountID → Option UInt32

/-- What happens in a sandbox. A credit is recorded with a balance of the sender. -/
inductive SandboxOp
  | credit (sender receiver : AccountID) (amount pre : STAmount)
  /-- The balance between two accounts changes, and nothing is recorded. -/
  | change (a b : AccountID) (c : Currency) (q : ℚ)
  | ownerCount (id : AccountID) (cur next : UInt32)

open SandboxOp

/-- A record in which all amounts are of a currency. -/
structure DeferredCredit.Of (c : Currency) (v : DeferredCredit) : Prop where
  low : v.lowAcctCredits.Of c
  high : v.highAcctCredits.Of c
  orig : v.lowAcctOrigBalance.Of c

/-- The sum of two records, with the balance of the first. -/
def DeferredCredit.sum (v w : DeferredCredit) : DeferredCredit where
  lowAcctCredits := v.lowAcctCredits.plus w.lowAcctCredits
  highAcctCredits := v.highAcctCredits.plus w.highAcctCredits
  lowAcctOrigBalance := v.lowAcctOrigBalance

namespace DeferredCredit
variable {c : Currency} {v w : DeferredCredit}

theorem Of.plus_eq (hv : v.Of c) (hw : w.Of c) : v.plus w = .ok (v.sum w) := by
  unfold plus
  rw [hv.low.add_eq hw.low, hv.high.add_eq hw.high]
  rfl

theorem Of.sum (hv : v.Of c) (hw : w.Of c) : (v.sum w).Of c where
  low := hv.low.plus hw.low
  high := hv.high.plus hw.high
  orig := hv.orig

end DeferredCredit

namespace SandboxOp

/-- What the code asserts of a credit, with amounts of one currency. -/
def Legal : SandboxOp → Prop
  | credit sender receiver amount pre =>
    sender ≠ receiver ∧ 0 ≤ amount.num ∧ amount.Of amount.getCurrency ∧ pre.Of amount.getCurrency
  | change _ _ _ _ => True
  | ownerCount _ _ _ => True

/-- The record of a first credit. -/
def opened (sender receiver : AccountID) (amount pre : STAmount) : DeferredCredit :=
  if sender < receiver then
    { highAcctCredits := amount, lowAcctCredits := amount.zeroed, lowAcctOrigBalance := pre }
  else { highAcctCredits := amount.zeroed, lowAcctCredits := amount, lowAcctOrigBalance := -pre }

/-- A credit recorded over what is there. -/
def credited (sender receiver : AccountID) (amount pre : STAmount) :
    Option DeferredCredit → DeferredCredit
  | none => opened sender receiver amount pre
  | some v => v.sum (opened sender receiver amount pre)

end SandboxOp

variable {s r : AccountID} {amount : STAmount}

namespace TableMap
open SandboxOp
variable {m m' p : TableMap} {op : SandboxOp} {ops : List SandboxOp}

/-- Every record is of two accounts and of the currency of its key. -/
def Legal (m : TableMap) : Prop := ∀ k v, m.credits k = some v → k.1 < k.2.1 ∧ v.Of k.2.2

def empty : TableMap := ⟨fun _ => none, fun _ => none⟩

def record (m : TableMap) : SandboxOp → TableMap
  | .credit s r amount pre =>
    let k := DeferredCredits.makeKey s r amount.getCurrency
    { m with credits := Function.update m.credits k (some (credited s r amount pre (m.credits k))) }
  | .change _ _ _ _ => m
  | .ownerCount id cur next =>
    let v := max cur next
    { m with
      ownerCounts := Function.update m.ownerCounts id
        (some (((m.ownerCounts id).map (max v)).getD v)) }

def recordAll (m : TableMap) (ops : List SandboxOp) : TableMap := ops.foldl record m

/-- The records of a child with those of its parent. -/
def mergeRecord : Option DeferredCredit → Option DeferredCredit → Option DeferredCredit
  | none, o => o
  | some v, none => some v
  | some v, some w => some (v.sum w)

def mergeCount : Option UInt32 → Option UInt32 → Option UInt32
  | none, o => o
  | some v, none => some v
  | some v, some w => some (max v w)

/-- The records of a child over those of its parent. -/
def merge (child parent : TableMap) : TableMap where
  credits k := mergeRecord (parent.credits k) (child.credits k)
  ownerCounts id := mergeCount (parent.ownerCounts id) (child.ownerCounts id)

theorem of_opened {pre : STAmount} {c : Currency} (ha : amount.Of c)
    (hp : pre.Of c) : (opened s r amount pre).Of c := by
  unfold opened
  split
  · exact ⟨ha.zeroed, ha, hp⟩
  · exact ⟨ha, ha.zeroed, hp.neg⟩

theorem makeKey_lt (hne : s ≠ r) (c : Currency) : (makeKey s r c).1 < (makeKey s r c).2.1 := by
  unfold makeKey
  split
  · next h => exact h
  · next h => exact lt_of_le_of_ne (not_lt.1 h) hne.symm

theorem makeKey_currency (s r : AccountID) (c : Currency) : (makeKey s r c).2.2 = c := by
  unfold makeKey
  split <;> rfl

theorem legal_empty : empty.Legal := nofun

theorem Legal.record (h : m.Legal) (hop : op.Legal) : (m.record op).Legal := by
  cases op with
  | change a b c q => exact h
  | ownerCount _ _ _ => exact h
  | credit s r amount _ =>
    obtain ⟨hne, -, ha, hp⟩ := hop
    intro k v hv
    change Function.update m.credits _ _ k = some v at hv
    by_cases hk : k = makeKey s r amount.getCurrency
    · subst hk
      rw [update_self] at hv
      cases hv
      refine ⟨makeKey_lt hne _, ?_⟩
      rw [makeKey_currency]
      cases ho : m.credits (makeKey s r amount.getCurrency) with
      | none => exact of_opened ha hp
      | some w =>
        have hw := (h _ w ho).2
        rw [makeKey_currency] at hw
        exact hw.sum (of_opened ha hp)
    · rw [update_of_ne hk] at hv
      exact h k v hv

theorem Legal.recordAll (h : m.Legal) (hops : ∀ op ∈ ops, op.Legal) : (m.recordAll ops).Legal := by
  induction ops generalizing m with
  | nil => exact h
  | cons op ops ih =>
    rw [forall_mem_cons] at hops
    exact ih (h.record hops.1) hops.2

theorem merge_record (h : m.Legal) (hp : p.Legal) (hop : op.Legal) :
    (m.record op).merge p = (m.merge p).record op := by
  cases op with
  | change a b c q => rfl
  | ownerCount id cur next =>
    refine TableMap.ext rfl (funext fun id' => ?_)
    change mergeCount _ (Function.update m.ownerCounts _ _ id') =
      Function.update (m.merge p).ownerCounts _ _ id'
    by_cases hid : id' = id
    · subst hid
      rw [update_self, update_self]
      change _ = some (((mergeCount (p.ownerCounts id') (m.ownerCounts id')).map
        (max (max cur next))).getD (max cur next))
      cases p.ownerCounts id' with
      | none => rfl
      | some v =>
        cases m.ownerCounts id' with
        | none => exact congrArg some (UInt32.max_comm v _)
        | some w => exact congrArg some (UInt32.max_left_comm v _ w)
    · rw [update_of_ne hid, update_of_ne hid]
      rfl
  | credit s r amount pre =>
    obtain ⟨-, -, ha, hpre⟩ := hop
    refine TableMap.ext (funext fun k => ?_) rfl
    change mergeRecord _ (Function.update m.credits _ _ k) =
      Function.update (m.merge p).credits _ _ k
    by_cases hk : k = makeKey s r amount.getCurrency
    · subst hk
      rw [update_self, update_self]
      change _ = some (credited s r amount pre (mergeRecord _ _))
      cases ho : p.credits (makeKey s r amount.getCurrency) with
      | none => rfl
      | some v =>
        cases ho' : m.credits (makeKey s r amount.getCurrency) with
        | none => rfl
        | some w =>
          have hv := (hp _ v ho).2
          have hw := (h _ w ho').2
          rw [makeKey_currency] at hv hw
          have hopen : (opened s r amount pre).Of amount.getCurrency := of_opened ha hpre
          refine congrArg some ?_
          change v.sum (w.sum _) = (v.sum w).sum _
          unfold DeferredCredit.sum
          rw [hv.low.plus_assoc hw.low hopen.low, hv.high.plus_assoc hw.high hopen.high]
    · rw [update_of_ne hk, update_of_ne hk]
      rfl

theorem empty_merge (p : TableMap) : empty.merge p = p := by
  refine TableMap.ext (funext fun k => ?_) (funext fun id => ?_)
  · change mergeRecord (p.credits k) none = _
    cases p.credits k <;> rfl
  · change mergeCount (p.ownerCounts id) none = _
    cases p.ownerCounts id <;> rfl

theorem recordAll_concat (m : TableMap) (ops : List SandboxOp) (op : SandboxOp) :
    m.recordAll (ops ++ [op]) = (m.recordAll ops).record op :=
  foldl_concat ..

theorem merge_recordAll (hp : p.Legal) (hops : ∀ op ∈ ops, op.Legal) :
    (empty.recordAll ops).merge p = p.recordAll ops := by
  induction ops using reverseRecOn with
  | nil => exact empty_merge p
  | append_singleton ops op ih =>
    have hle : ∀ o ∈ ops, o.Legal := fun o ho => hops o (mem_append_left _ ho)
    have hop : op.Legal := hops op (mem_append_right _ (mem_singleton_self op))
    rw [recordAll_concat, merge_record (legal_empty.recordAll hle) hp hop, ih hle,
      recordAll_concat]

end TableMap

/-! ### The tables of the code -/

namespace SandboxOp

/-- `PaymentSandbox::creditHook` and `adjustOwnerCountHook`. -/
def recordIn (t : DeferredCredits) : SandboxOp → Except Fault DeferredCredits
  | credit sender receiver amount pre => t.credit sender receiver amount pre
  | change _ _ _ _ => pure t
  | ownerCount id cur next => pure (t.recordOwnerCount id cur next)

def recordAll (t : DeferredCredits) (ops : List SandboxOp) : Except Fault DeferredCredits :=
  ops.foldlM recordIn t

end SandboxOp

variable {logs : List (List SandboxOp)}

namespace DeferredCredits
open SandboxOp
variable {t parent : DeferredCredits} {op : SandboxOp} {ops : List SandboxOp}

def table (t : DeferredCredits) : TableMap := ⟨t.credits.lookup, t.ownerCounts.lookup⟩

/-- The children of a chain are applied one by one, from the innermost. -/
def applyChain (t : DeferredCredits) (chain : List DeferredCredits) :
    Except Fault DeferredCredits :=
  chain.foldlM apply t

theorem lookup_insert_update {α : Type} {β : Type} [DecidableEq α] (s : AList fun _ : α => β)
    (k : α) (v : β) (k' : α) :
    (s.insert k v).lookup k' = Function.update s.lookup k (some v) k' := by
  by_cases h : k' = k
  · subst h
    rw [AList.lookup_insert, update_self]
  · rw [AList.lookup_insert_ne h, update_of_ne h]

theorem credit_table (h : t.table.Legal) {pre : STAmount}
    (hop : (SandboxOp.credit s r amount pre).Legal) : ∃ t', t.credit s r amount pre = .ok t' ∧
      t'.table = t.table.record (.credit s r amount pre) := by
  obtain ⟨-, -, ha, -⟩ := hop
  have hle := h (makeKey s r amount.getCurrency)
  have hre : t.table.record (.credit s r amount pre) =
      ⟨Function.update t.credits.lookup (makeKey s r amount.getCurrency) (some (credited s r amount
        pre (t.credits.lookup (makeKey s r amount.getCurrency)))), t.ownerCounts.lookup⟩ := rfl
  rw [hre, credit]
  dsimp only
  cases ho : t.credits.lookup (makeKey s r amount.getCurrency) with
  | none =>
    refine ⟨_, rfl, ?_⟩
    exact TableMap.ext (funext (lookup_insert_update _ _ _)) rfl
  | some v =>
    have hv := (hle v ho).2
    rw [TableMap.makeKey_currency] at hv
    have hs : credited s r amount pre (some v) = if s < r then
        { v with highAcctCredits := v.highAcctCredits.plus amount }
        else { v with lowAcctCredits := v.lowAcctCredits.plus amount } := by
      change v.sum (opened s r amount pre) = _
      unfold DeferredCredit.sum opened
      by_cases hlt : s < r
      · simp only [if_pos hlt, hv.low.plus_zeroed ha]
      · simp only [if_neg hlt, hv.high.plus_zeroed ha]
    rw [hs]
    dsimp only
    split
    · rw [hv.high.add_eq ha]
      exact ⟨_, rfl, TableMap.ext (funext (lookup_insert_update _ _ _)) rfl⟩
    · rw [hv.low.add_eq ha]
      exact ⟨_, rfl, TableMap.ext (funext (lookup_insert_update _ _ _)) rfl⟩

theorem recordIn_table (h : t.table.Legal) (hop : op.Legal) :
    ∃ t', op.recordIn t = .ok t' ∧ t'.table = t.table.record op := by
  cases op with
  | credit s r _ _ => exact credit_table h hop
  | change a b c q => exact ⟨t, rfl, rfl⟩
  | ownerCount _ _ _ => exact ⟨_, rfl, TableMap.ext rfl (funext (lookup_insert_update _ _ _))⟩

theorem recordAll_table (h : t.table.Legal) (hops : ∀ op ∈ ops, op.Legal) :
    ∃ t', recordAll t ops = .ok t' ∧ t'.table = t.table.recordAll ops := by
  induction ops generalizing t with
  | nil => exact ⟨t, rfl, rfl⟩
  | cons op ops ih =>
    rw [forall_mem_cons] at hops
    obtain ⟨t1, ht1, htab1⟩ := recordIn_table h hops.1
    obtain ⟨t', ht', htab'⟩ := ih (htab1 ▸ h.record hops.1) hops.2
    refine ⟨t', ?_, by rw [htab', htab1]; rfl⟩
    change (op.recordIn t >>= fun t1 => recordAll t1 ops) = _
    rw [ht1]
    exact ht'

theorem foldl_mergeOwnerCount {l : List (Sigma fun _ : AccountID => UInt32)} (hl : l.NodupKeys)
    (p : AList fun _ : AccountID => UInt32) (id : AccountID) :
    (l.foldl mergeOwnerCount p).lookup id = TableMap.mergeCount (p.lookup id) (l.dlookup id) := by
  induction l generalizing p with
  | nil => cases h : p.lookup id <;> simp [h, TableMap.mergeCount]
  | cons i l ih =>
    obtain ⟨id0, n⟩ := i
    obtain ⟨hn, hl'⟩ := nodupKeys_cons.1 hl
    rw [foldl_cons, ih hl', mergeOwnerCount, lookup_insert_update]
    by_cases h : id = id0
    · subst h
      rw [update_self, dlookup_cons_eq, dlookup_eq_none.2 hn]
      cases p.lookup id <;> rfl
    · rw [update_of_ne h, dlookup_cons_ne _ _ h]

theorem apply_table (h : t.table.Legal) (hp : parent.table.Legal) :
    ∃ u, t.apply parent = .ok u ∧ u.table = t.table.merge parent.table := by
  have hok : ∀ k v w, parent.credits.lookup k = some v → t.credits.entries.dlookup k = some w →
      v.plus w = .ok (v.sum w) :=
    fun k v w hv hw => (hp k v hv).2.plus_eq (h k w hw).2
  obtain ⟨p, hp', hk⟩ := foldlM_mergeCredit t.credits.nodupKeys
    fun k v w hv hw => ⟨_, hok k v w hv hw⟩
  refine ⟨_, by rw [apply, hp']; rfl, TableMap.ext (funext fun k => ?_) (funext fun id => ?_)⟩
  · change p.lookup k = TableMap.mergeRecord (parent.credits.lookup k) (t.credits.lookup k)
    rw [hk]
    cases ho : parent.credits.lookup k with
    | none => rfl
    | some v =>
      cases ho' : t.credits.entries.dlookup k with
      | none =>
        rw [show t.credits.lookup k = none from ho']
        rfl
      | some w =>
        rw [show t.credits.lookup k = some w from ho', combine, hok k v w ho ho']
        rfl
  · exact foldl_mergeOwnerCount t.ownerCounts.nodupKeys _ id

theorem table_empty : table {} = TableMap.empty := rfl

theorem mapM_recordAll_legal (hlo : ∀ log ∈ logs, ∀ op ∈ log, op.Legal) :
    ∃ ts, logs.mapM (recordAll {}) = .ok ts ∧ ∀ t ∈ ts, t.table.Legal := by
  induction logs with
  | nil => exact ⟨[], rfl, by simp⟩
  | cons log logs ih =>
    rw [forall_mem_cons] at hlo
    obtain ⟨t, ht, htt⟩ := recordAll_table (t := {}) TableMap.legal_empty hlo.1
    obtain ⟨ts, hts, hl⟩ := ih hlo.2
    refine ⟨t :: ts, by rw [mapM_cons, ht, hts]; rfl, forall_mem_cons.2 ⟨?_, hl⟩⟩
    exact htt ▸ TableMap.legal_empty.recordAll hlo.1

/-- A chain applied to its outermost parent records what was recorded in each sandbox, first what
was recorded in the outermost. -/
theorem applyChain_table (hops : ∀ op ∈ ops, op.Legal)
    (hlo : ∀ log ∈ logs, ∀ op ∈ log, op.Legal) (ht : t.table = TableMap.empty.recordAll ops) :
    ∃ ts u, logs.mapM (recordAll {}) = .ok ts ∧ t.applyChain ts = .ok u ∧
      u.table = TableMap.empty.recordAll (logs.reverse.flatten ++ ops) := by
  induction logs generalizing t ops with
  | nil => exact ⟨[], t, rfl, rfl, ht⟩
  | cons log logs ih =>
    rw [forall_mem_cons] at hlo
    obtain ⟨p, hp, hpt⟩ := recordAll_table (t := {}) TableMap.legal_empty hlo.1
    rw [table_empty] at hpt
    have hpl : p.table.Legal := hpt ▸ TableMap.legal_empty.recordAll hlo.1
    obtain ⟨u, hu, hut⟩ := apply_table (ht ▸ TableMap.legal_empty.recordAll hops) hpl
    have hbo : ∀ op ∈ log ++ ops, op.Legal := fun op hop =>
      (mem_append.1 hop).elim (hlo.1 op) (hops op)
    obtain ⟨ts, u', hts, hu', htab⟩ := ih hbo hlo.2 (by
      rw [hut, ht, TableMap.merge_recordAll hpl hops, hpt, TableMap.recordAll,
        TableMap.recordAll, TableMap.recordAll, foldl_append])
    refine ⟨p :: ts, u', ?_, ?_, ?_⟩
    · rw [mapM_cons, hp, hts]
      rfl
    · change (t.apply p >>= fun u => u.applyChain ts) = _
      rw [hu]
      exact hu'
    · rw [htab, reverse_cons, flatten_append, flatten_singleton, append_assoc]

end DeferredCredits

/-! ### The hooks -/

namespace SandboxOp

/-- The balances after an operation. -/
def after (bal : Balances) : SandboxOp → Balances
  | credit s r amount _ => fun a b c =>
    bal a b c - Balances.send 0 s r amount.getCurrency amount.num a b c
      + Balances.send 0 s r amount.getCurrency amount.num b a c
  | change x y cur q => fun a b c =>
    bal a b c + Balances.send 0 x y cur q a b c - Balances.send 0 x y cur q b a c
  | ownerCount _ _ _ => bal

/-- A credit is recorded with the balance that the sender has. -/
def Honest (bal : Balances) : SandboxOp → Prop
  | credit s r amount pre => pre.num = bal s r amount.getCurrency
  | _ => True

/-- The balance is changed by a credit only. -/
def Recorded : SandboxOp → Prop
  | change _ _ _ _ => False
  | _ => True

def logged (log : List SentCredit) : SandboxOp → List SentCredit
  | credit s r amount _ => ⟨s, r, amount⟩ :: log
  | _ => log

end SandboxOp

/-- Operations on balances, one after the other. -/
def HonestLog (bal : Balances) : List SandboxOp → Prop
  | [] => True
  | op :: ops => (op.Legal ∧ op.Honest bal) ∧ HonestLog (op.after bal) ops

/-- The balances that the sandboxes of a chain leave, the innermost listed first. -/
def balancesAfter (base : Balances) (logs : List (List SandboxOp)) : Balances :=
  logs.foldr (fun ops bal => ops.foldl SandboxOp.after bal) base

/-- Each sandbox of a chain works on the balances that its parents left. -/
def HonestChain (base : Balances) : List (List SandboxOp) → Prop
  | [] => True
  | ops :: logs => HonestLog (balancesAfter base logs) ops ∧ HonestChain base logs

section Records
variable {base start : Balances} {ops : List SandboxOp} {t : DeferredCredits}
  {log : List SentCredit}

theorem Records.recordOwnerCount {sent : Balances} (h : Records start sent t) (id : AccountID)
    (cur next : UInt32) : Records start sent (t.recordOwnerCount id cur next) :=
  ⟨h.sorted, h.record⟩

theorem Records.recordAll (h : Records start (sentOf log) t) (hl : ∀ x ∈ log, 0 ≤ x.amount.num)
    (han : ∀ a b c, start b a c = -start a b c) {bal : Balances}
    (hb : bal = fun a b c => start a b c - sentOf log a b c + sentOf log b a c)
    (hops : HonestLog bal ops) (hr : ∀ op ∈ ops, op.Recorded) :
    ∃ t', recordAll t ops = .ok t' ∧ Records start (sentOf (ops.foldl logged log)) t' ∧
      (∀ x ∈ ops.foldl logged log, 0 ≤ x.amount.num) ∧
      ops.foldl after bal = fun a b c =>
        start a b c - sentOf (ops.foldl logged log) a b c
          + sentOf (ops.foldl logged log) b a c := by
  induction ops generalizing t log bal with
  | nil => exact ⟨t, rfl, h, hl, hb⟩
  | cons op ops ih =>
    rw [forall_mem_cons] at hr
    obtain ⟨⟨hle, hho⟩, hops'⟩ := hops
    cases op with
    | change a b c q => exact hr.1.elim
    | ownerCount id cur next => exact ih (h.recordOwnerCount id cur next) hl hb hops' hr.2
    | credit s r amount pre =>
      obtain ⟨hne, hp, ham, hpre⟩ := hle
      change pre.num = bal s r amount.getCurrency at hho
      rw [hb] at hho
      obtain ⟨t1, ht1, h1⟩ := h.credit hne ham hpre hho (han _ _ _)
      have hse : sentOf (⟨s, r, amount⟩ :: log) =
          (sentOf log).send s r amount.getCurrency amount.num := sentOf_cons _ log
      rw [← hse] at h1
      have hl1 : ∀ x ∈ ⟨s, r, amount⟩ :: log, 0 ≤ x.amount.num := forall_mem_cons.2 ⟨hp, hl⟩
      have hs (a b) (c) : sentOf (⟨s, r, amount⟩ :: log) a b c =
          sentOf log a b c + Balances.send 0 s r amount.getCurrency amount.num a b c := by
        rw [hse]
        unfold Balances.send
        split <;> simp
      have hb1 : (SandboxOp.credit s r amount pre).after bal = fun a b c =>
          start a b c - sentOf (⟨s, r, amount⟩ :: log) a b c
            + sentOf (⟨s, r, amount⟩ :: log) b a c := by
        funext a b c
        rw [hb, hs, hs]
        change start a b c - sentOf log a b c + sentOf log b a c - _ + _ = _
        ring
      obtain ⟨t', ht', hen⟩ := ih h1 hl1 hb1 hops' hr.2
      refine ⟨t', ?_, hen⟩
      change (t.credit s r amount pre >>= fun t1 => recordAll t1 ops) = _
      rw [ht1]
      exact ht'

theorem HonestChain.records (hba : ∀ a b c, base b a c = -base a b c) (h : HonestChain base logs)
    (hr : ∀ log ∈ logs, ∀ op ∈ log, op.Recorded) :
    ∃ chain, logs.mapM (recordAll {}) = .ok (chain.map tab) ∧
      ChainRecords base chain ∧ balancesAfter base logs = balanceIn base chain := by
  induction logs with
  | nil => exact ⟨[], rfl, trivial, by funext a b c; simp [balancesAfter, balanceIn, sentIn]⟩
  | cons ops logs ih =>
    rw [forall_mem_cons] at hr
    obtain ⟨chain, hch, hre, hb⟩ := ih h.2 hr.2
    have hops := h.1
    rw [hb] at hops
    have hem : Records (balanceIn base chain) (sentOf []) {} := records_empty _
    obtain ⟨t, ht, htr, hp, haf⟩ := hem.recordAll (fun x hx => by cases hx)
      (balanceIn_anti hba) (by funext a b c; simp [sentOf]) hops hr.1
    refine ⟨⟨t, ops.foldl logged []⟩ :: chain, ?_, ⟨htr, hp, hre⟩, ?_⟩
    · rw [mapM_cons, ht, hch]
      rfl
    · change ops.foldl after (balancesAfter base logs) = _
      rw [hb, haf, balanceIn_cons]

theorem HonestLog.legal {bal : Balances} (h : HonestLog bal ops) : ∀ op ∈ ops, op.Legal := by
  induction ops generalizing bal with
  | nil => exact fun _ hop => by cases hop
  | cons op ops ih => exact forall_mem_cons.2 ⟨h.1.1, ih h.2⟩

theorem HonestChain.legal (h : HonestChain base logs) : ∀ log ∈ logs, ∀ op ∈ log, op.Legal := by
  induction logs with
  | nil => exact fun _ hl => by cases hl
  | cons _ logs ih => exact forall_mem_cons.2 ⟨h.1.legal, ih h.2⟩

end Records

structure Adjustment.Of (c : Currency) (adj : Adjustment) : Prop where
  debits : adj.debits.Of c
  credits : adj.credits.Of c
  origBalance : adj.origBalance.Of c

/-- The adjustments of a parent and of a child together. -/
def Adjustment.sum (adj adj' : Adjustment) : Adjustment :=
  ⟨adj.debits.plus adj'.debits, adj.credits.plus adj'.credits, adj.origBalance⟩

section Hooks
variable {t p u : DeferredCredits} {a b : AccountID} {c : Currency} {adj adj' : Adjustment}
  {chain : List DeferredCredits} {rules : PaymentRules} {amount : STAmount}

theorem adjustments_of (h : t.table.Legal) (ha : t.adjustments a b c = some adj) :
    a ≠ b ∧ adj.Of c := by
  obtain ⟨v, hv, rfl⟩ := Option.map_eq_some_iff.1 ha
  obtain ⟨hlt, hof⟩ := h _ v hv
  rw [TableMap.makeKey_currency] at hof
  refine ⟨?_, ?_⟩
  · rintro rfl
    unfold makeKey at hlt
    simp at hlt
  split
  · exact ⟨hof.high, hof.low, hof.orig⟩
  · exact ⟨hof.low, hof.high, hof.orig.neg⟩

theorem adjustments_merge (hu : u.table = t.table.merge p.table) (a b : AccountID) (c : Currency) :
    u.adjustments a b c = match p.adjustments a b c, t.adjustments a b c with
      | none, o => o
      | some adj, none => some adj
      | some adj, some adj' => some (adj.sum adj') := by
  have hlo : u.credits.lookup (makeKey a b c) =
      TableMap.mergeRecord (p.credits.lookup (makeKey a b c)) (t.credits.lookup (makeKey a b c)) :=
    congrFun (congrArg TableMap.credits hu) _
  unfold adjustments
  rw [hlo]
  cases p.credits.lookup (makeKey a b c) with
  | none => rfl
  | some v =>
    cases t.credits.lookup (makeKey a b c) with
    | none => rfl
    | some w =>
      simp only [TableMap.mergeRecord, Option.map_some]
      split <;> rfl

variable {delta least : STAmount}

theorem hookStep_some (last : STAmount) (hde : delta.Of c)
    (hle : least.Of c) (h : t.adjustments a b c = some adj) (ha : adj.Of c) :
    ∃ m, hookStep a b c (delta, last, least) t = .ok (delta.plus adj.debits, adj.origBalance, m) ∧
      m.Of c ∧ m.num = min least.num adj.origBalance.num := by
  obtain ⟨m, hm, hmc, hmn⟩ := hle.min ha.origBalance
  refine ⟨m, ?_, hmc, hmn⟩
  rw [STAmount.min] at hm
  simp only [hookStep, h, hde.add_eq ha.debits, ha.origBalance.lt hle, bind, Except.bind,
    pure, Except.pure] at hm ⊢
  rw [Except.ok.inj hm]

theorem foldlM_hookStep_least {last least' : STAmount} {r r' : STAmount × STAmount × STAmount}
    (h : chain.foldlM (hookStep a b c) (delta, last, least) = .ok r)
    (h' : chain.foldlM (hookStep a b c) (delta, last, least') = .ok r') :
    r.1 = r'.1 ∧ r.2.1 = r'.2.1 := by
  induction chain generalizing delta last least least' with
  | nil =>
    cases h
    cases h'
    exact ⟨rfl, rfl⟩
  | cons t chain ih =>
    rw [foldlM_cons] at h h'
    cases ho : t.adjustments a b c with
    | none =>
      rw [hookStep, ho] at h h'
      exact ih h h'
    | some adj =>
      have hst {least : STAmount} {s : STAmount × STAmount × STAmount}
          (hs : hookStep a b c (delta, last, least) t = .ok s) :
          delta.add adj.debits = .ok s.1 ∧ s.2.1 = adj.origBalance := by
        unfold hookStep at hs
        rw [ho] at hs
        obtain ⟨d, hd, hs⟩ := Store.bind_ok.1 hs
        obtain ⟨m, -, hs⟩ := Store.bind_ok.1 hs
        cases hs
        exact ⟨hd, rfl⟩
      obtain ⟨⟨d, l, m⟩, hs, h⟩ := Store.bind_ok.1 h
      obtain ⟨⟨d', _, _⟩, hs', h'⟩ := Store.bind_ok.1 h'
      obtain ⟨hd, rfl⟩ := hst hs
      obtain ⟨hd', rfl⟩ := hst hs'
      obtain rfl : d = d' := Except.ok.inj (hd.symm.trans hd')
      exact ih h h'

theorem balanceHook_of_least {last diff x : STAmount} (hsw : rules.amendmentRIPD1141 = true)
    (ham : amount.Of c) (hf : chain.foldlM (hookStep a b c) (amount.zeroed, amount, amount) =
      .ok (delta, last, least))
    (hd : last.sub delta = .ok diff) (hx : amount.min diff = .ok x) (hxc : x.Of c)
    (hl : least.Of c) (hle : x.num ≤ least.num) :
    balanceHook rules chain a b amount =
      let z := if rules.amendmentRIPD1274 then x.setIssuer amount.getIssuer else x
      .ok (if b = mAccount ∧ z.signum < 0 then z.zeroed else z) := by
  have hm : x.min least = .ok x := by
    rw [STAmount.min, hl.lt hxc, decide_eq_false (not_lt.2 hle)]
    rfl
  simp only [balanceHook, hsw, ham.getCurrency, hf, hd, hx, bind, Except.bind, if_true,
    pure, Except.pure]
  split
  · rw [hm]
  · rfl

theorem Records.adjustments_num {start sent : Balances} {t : DeferredCredits}
    (h : Records start sent t) (hab : a ≠ b) (ha : start b a c = -start a b c)
    (ht : t.adjustments a b c = some adj) :
    adj.debits.num = sent a b c ∧ adj.origBalance.num = start a b c := by
  rcases h.adjustments hab ha with ⟨hn, -⟩ | ⟨x, hx, ⟨-, hd⟩, -, ho⟩
  · rw [ht] at hn
    cases hn
  rw [ht] at hx
  cases hx
  exact ⟨hd, ho⟩

theorem balanceHook_merge_both {base : Balances}
    {child parent : SandboxLayer} {rest : List SandboxLayer} (hba : ∀ a b c, base b a c = -base a b c)
    (hr : ChainRecords base (child :: parent :: rest)) (hab : a ≠ b)
    (hsw : rules.amendmentRIPD1141 = true) (ham : amount.Of c)
    (hp : parent.tab.adjustments a b c = some adj) (ha : adj.Of c)
    (ht : child.tab.adjustments a b c = some adj') (ha' : adj'.Of c)
    (hu : u.adjustments a b c = some (adj.sum adj')) :
    balanceHook rules (child.tab :: parent.tab :: rest.map tab) a b amount =
      balanceHook rules (u :: rest.map tab) a b amount := by
  obtain ⟨hch, hpos, hpa, hp', hre⟩ := hr
  have hsent := sentOf_nonneg hpos a b c
  have hse' := sentOf_nonneg hp' a b c
  have hback := sentOf_nonneg hp' b a c
  have hba' := hre.sentIn_nonneg b a c
  -- what the tables record is what was sent
  have hde := hpa.adjustments_num hab (balanceIn_anti hba a b c) hp
  have hde' := hch.adjustments_num hab (balanceIn_anti hba a b c) ht
  have hme : (adj.sum adj').Of c :=
    ⟨ha.debits.plus ha'.debits, ha.credits.plus ha'.credits, ha.origBalance⟩
  obtain ⟨_, hs1, hmc1, hmn1⟩ := hookStep_some amount ham.zeroed ham ht ha'
  obtain ⟨m2, hs2, hmc2, hmn2⟩ :=
    hookStep_some adj'.origBalance (ham.zeroed.plus ha'.debits) hmc1 hp ha
  obtain ⟨m, hs, hmc, hmn⟩ := hookStep_some amount ham.zeroed ham hu hme
  have hdel := ham.zeroed.plus_right_comm ha'.debits ha.debits
  rw [hdel] at hs2
  -- the least of the amount and of what was there before and has not been spent
  obtain ⟨bound, hbo⟩ : ∃ q, q = min amount.num (base a b c -
      (sentOf child.log a b c + sentOf parent.log a b c + sentIn rest a b c)) := ⟨_, rfl⟩
  have hdc := ham.zeroed.plus (ha.debits.plus ha'.debits)
  have hdn : (amount.zeroed.plus (adj.debits.plus adj'.debits)).num =
      sentOf parent.log a b c + sentOf child.log a b c := by
    rw [ham.zeroed.num_plus (ha.debits.plus ha'.debits), ha.debits.num_plus ha'.debits,
      hde.1, hde'.1, STAmount.num_zeroed, zero_add]
  have hle : bound ≤ amount.num := hbo.trans_le (min_le_left _ _)
  have hle' := hbo.trans_le (min_le_right _ _)
  have hor : bound ≤ adj.origBalance.num := by
    rw [hde.2, balanceIn]
    linarith
  have hor' : bound ≤ adj'.origBalance.num := by
    rw [hde'.2, balanceIn, sentIn_cons, Pi.add_apply, Pi.add_apply, Pi.add_apply, Pi.add_apply,
      Pi.add_apply, Pi.add_apply]
    linarith
  have hm2 : bound ≤ m2.num := by
    rw [hmn2, hmn1]
    exact le_min (le_min hle hor') hor
  have hm : bound ≤ m.num := by
    rw [hmn]
    exact le_min hle hor
  have hlow : bound ≤ base a b c - sentIn rest a b c := by linarith
  obtain ⟨d1, l1, n1, hf1, ⟨hd1, hdn1⟩, ⟨hl1, hln1⟩, hn1, hnn1⟩ :=
    hre.foldlM_hookStep hab hba hdc ha.origBalance hmc2 hde.2 hlow hm2
  obtain ⟨_, _, n2, hf2, -, -, hn2, hnn2⟩ :=
    hre.foldlM_hookStep hab hba hdc ha.origBalance hmc hde.2 hlow hm
  obtain ⟨hd, hl⟩ := foldlM_hookStep_least hf1 hf2
  dsimp only at hd hl
  obtain ⟨_, hdiff, hdi, hdif⟩ := hl1.sub hd1
  obtain ⟨x, hx, hxc, hxn⟩ := ham.min hdi
  have hxb : x.num = bound := by
    rw [hxn, hdif, hln1, hdn1, hdn, hbo, add_comm (sentOf child.log a b c)]
  have hc : (child.tab :: parent.tab :: rest.map tab).foldlM (hookStep a b c)
      (amount.zeroed, amount, amount) = .ok (d1, l1, n1) := by
    rw [foldlM_cons, hs1]
    change foldlM _ _ _ = _
    rw [foldlM_cons, hs2]
    exact hf1
  have ho : (u :: rest.map tab).foldlM (hookStep a b c)
      (amount.zeroed, amount, amount) = .ok (d1, l1, n2) := by
    rw [foldlM_cons, hs, hd, hl]
    exact hf2
  rw [balanceHook_of_least hsw ham hc hdiff hx hxc hn1 (hxb.trans_le hnn1),
    balanceHook_of_least hsw ham ho hdiff hx hxc hn2 (hxb.trans_le hnn2)]

/-- What the hook computed before the switch: the credits are subtracted. -/
theorem sub_merge (ham : amount.Of c) (ha : adj.Of c) (ha' : adj'.Of c) :
    (amount.sub adj'.credits >>= fun v => v.sub adj.credits) =
      amount.sub (adj.sum adj').credits := by
  unfold STAmount.sub
  rw [ham.add_eq ha'.credits.neg]
  change (amount.plus (-adj'.credits)).add (-adj.credits) =
    amount.add (-(adj.credits.plus adj'.credits))
  rw [(ham.plus ha'.credits.neg).add_eq ha.credits.neg,
    ham.add_eq (ha.credits.plus ha'.credits).neg,
    ham.plus_right_comm ha'.credits.neg ha.credits.neg, ← STAmount.neg_plus]

/-- On tables that hold amounts of their currencies the fold does not fail. -/
theorem foldlM_hookStep_ok (hc : ∀ t ∈ chain, t.table.Legal) {last : STAmount} (hde : delta.Of c)
    (hla : last.Of c) (hle : least.Of c) :
    ∃ d l m, chain.foldlM (hookStep a b c) (delta, last, least) = .ok (d, l, m) ∧ d.Of c ∧
      l.Of c := by
  induction chain generalizing delta last least with
  | nil => exact ⟨delta, last, least, rfl, hde, hla⟩
  | cons t chain ih =>
    obtain ⟨ht, hc⟩ := forall_mem_cons.1 hc
    rw [foldlM_cons]
    cases ho : t.adjustments a b c with
    | none =>
      rw [hookStep, ho]
      exact ih hc hde hla hle
    | some adj =>
      obtain ⟨-, ha⟩ := adjustments_of ht ho
      obtain ⟨m, hs, hm, -⟩ := hookStep_some last hde hle ho ha
      rw [hs]
      exact ih hc (hde.plus ha.debits) ha.origBalance hm

/-- Without fix1368 the original balance of the child is forgotten before the merge already. -/
theorem balanceHook_merge_last (hsw : rules.amendmentRIPD1141 = true) (hfix : rules.fix1368 = false)
    (ham : amount.Of c) (hc : ∀ t ∈ chain, t.table.Legal)
    (hp : p.adjustments a b c = some adj) (ha : adj.Of c)
    (ht : t.adjustments a b c = some adj') (ha' : adj'.Of c)
    (hu : u.adjustments a b c = some (adj.sum adj')) :
    balanceHook rules (t :: p :: chain) a b amount = balanceHook rules (u :: chain) a b amount := by
  have hme : (adj.sum adj').Of c :=
    ⟨ha.debits.plus ha'.debits, ha.credits.plus ha'.credits, ha.origBalance⟩
  obtain ⟨_, hs1, hmc1, -⟩ := hookStep_some amount ham.zeroed ham ht ha'
  obtain ⟨m2, hs2, hmc2, -⟩ :=
    hookStep_some adj'.origBalance (ham.zeroed.plus ha'.debits) hmc1 hp ha
  obtain ⟨m, hs, hmc, -⟩ := hookStep_some amount ham.zeroed ham hu hme
  rw [ham.zeroed.plus_right_comm ha'.debits ha.debits] at hs2
  have hdc := ham.zeroed.plus (ha.debits.plus ha'.debits)
  obtain ⟨d1, l1, n1, hf1, hd1, hl1⟩ := foldlM_hookStep_ok hc hdc ha.origBalance hmc2
  obtain ⟨d2, l2, n2, hf2, -, -⟩ := foldlM_hookStep_ok hc hdc ha.origBalance hmc
  obtain ⟨hd, hl⟩ := foldlM_hookStep_least hf1 hf2
  dsimp only at hd hl
  subst hd hl
  have hc1 : (t :: p :: chain).foldlM (hookStep a b c) (amount.zeroed, amount, amount) =
      .ok (d1, l1, n1) := by
    rw [foldlM_cons, hs1]
    change foldlM _ _ _ = _
    rw [foldlM_cons, hs2]
    exact hf1
  have hc2 : (u :: chain).foldlM (hookStep a b c) (amount.zeroed, amount, amount) =
      .ok (d1, l1, n2) := by
    rw [foldlM_cons, hs]
    exact hf2
  simp only [balanceHook, hsw, hfix, ham.getCurrency, hc1, hc2, bind, Except.bind, if_true,
    Bool.false_eq_true, if_false]

/-- A merge is not seen by `balanceHook`, with fix1368 if the chain records what balances did. -/
theorem balanceHook_merge (ht : t.table.Legal) (hp : p.table.Legal)
    (hc : ∀ t ∈ chain, t.table.Legal) (hu : u.table = t.table.merge p.table) (ham : amount.Of c)
    (a b : AccountID) (hrec : rules.amendmentRIPD1141 = true → rules.fix1368 = true →
      ∃ base child parent rest, (∀ a b c, base b a c = -base a b c) ∧
        ChainRecords base (child :: parent :: rest) ∧ child.tab = t ∧ parent.tab = p ∧
        rest.map tab = chain) :
    balanceHook rules (t :: p :: chain) a b amount = balanceHook rules (u :: chain) a b amount := by
  have hme := adjustments_merge hu a b c
  cases hop : p.adjustments a b c with
  | none =>
    rw [hop] at hme
    unfold balanceHook
    simp [ham.getCurrency, hookStep, hop, hme]
  | some _ =>
    cases hot : t.adjustments a b c with
    | none =>
      rw [hot] at hme
      unfold balanceHook
      simp only [ham.getCurrency, foldlM_cons, hookStep, hop, hot, hme, pure_bind]
    | some _ =>
      rw [hop, hot] at hme
      obtain ⟨hab, ha⟩ := adjustments_of hp hop
      obtain ⟨-, ha'⟩ := adjustments_of ht hot
      cases hsw : rules.amendmentRIPD1141 with
      | true =>
        cases hfix : rules.fix1368 with
        | true =>
          obtain ⟨base, child, parent, rest, hba, hr, rfl, rfl, rfl⟩ := hrec hsw hfix
          exact balanceHook_merge_both hba hr hab hsw ham hop ha hot ha' hme
        | false => exact balanceHook_merge_last hsw hfix ham hc hop ha hot ha' hme
      | false =>
        have hs := sub_merge ham ha ha'
        unfold balanceHook
        simp [hsw, ham.getCurrency, hop, hot, hme, ← hs]

theorem ownerCountHook_merge
    (hu : u.table = t.table.merge p.table) (account : AccountID) (count : UInt32) :
    ownerCountHook (t :: p :: chain) account count = ownerCountHook (u :: chain) account count := by
  have hlo : u.ownerCount account =
      TableMap.mergeCount (p.ownerCount account) (t.ownerCount account) :=
    congrFun (congrArg TableMap.ownerCounts hu) _
  unfold ownerCountHook
  simp only [foldl_cons, hlo]
  congr 1
  cases p.ownerCount account with
  | none => rfl
  | some v =>
    cases t.ownerCount account with
    | none => rfl
    | some w =>
      change max (max count w) v = max count (max v w)
      rw [UInt32.max_assoc, UInt32.max_comm w]

end Hooks

/-- A child is merged into its parent. `ownerCountHook` does not see it, whatever was recorded, nor
does `balanceHook` without fix1368; with fix1368 it does not if balances change by recorded credits
only. A chain of children is merged as if all had been recorded in the outermost. -/
theorem sandbox_merge :
    (∀ (child parent : List SandboxOp) (rest : List (List SandboxOp)),
      (∀ log ∈ child :: parent :: rest, ∀ op ∈ log, op.Legal) →
      ∃ t p ts u, SandboxOp.recordAll {} child = .ok t ∧ SandboxOp.recordAll {} parent = .ok p ∧
        rest.mapM (SandboxOp.recordAll {}) = .ok ts ∧ t.apply p = .ok u ∧
        (∀ account count,
          ownerCountHook (t :: p :: ts) account count = ownerCountHook (u :: ts) account count) ∧
        ∀ rules : PaymentRules, (rules.amendmentRIPD1141 = true → rules.fix1368 = true →
            ∃ base, (∀ a b c, base b a c = -base a b c) ∧
              HonestChain base (child :: parent :: rest) ∧
              ∀ log ∈ child :: parent :: rest, ∀ op ∈ log, op.Recorded) →
          ∀ account issuer amount, amount.Of amount.getCurrency →
            balanceHook rules (t :: p :: ts) account issuer amount =
              balanceHook rules (u :: ts) account issuer amount) ∧
    ∀ (innermost : List SandboxOp) (logs : List (List SandboxOp)), (∀ op ∈ innermost, op.Legal) →
      (∀ log ∈ logs, ∀ op ∈ log, op.Legal) →
      ∃ t ts u direct, SandboxOp.recordAll {} innermost = .ok t ∧
        logs.mapM (SandboxOp.recordAll {}) = .ok ts ∧ t.applyChain ts = .ok u ∧
        SandboxOp.recordAll {} (logs.reverse.flatten ++ innermost) = .ok direct ∧
        (∀ k, u.credits.lookup k = direct.credits.lookup k) ∧
        ∀ id, u.ownerCount id = direct.ownerCount id := by
  refine ⟨?_, ?_⟩
  · intro child parent rest hle
    simp only [forall_mem_cons] at hle
    obtain ⟨t, ht, htab⟩ := recordAll_table (t := {}) TableMap.legal_empty hle.1
    obtain ⟨p, hp, hpt⟩ := recordAll_table (t := {}) TableMap.legal_empty hle.2.1
    obtain ⟨ts, hts, htsl⟩ := mapM_recordAll_legal hle.2.2
    have htl : t.table.Legal := htab ▸ TableMap.legal_empty.recordAll hle.1
    have hpl : p.table.Legal := hpt ▸ TableMap.legal_empty.recordAll hle.2.1
    obtain ⟨u, hu, hut⟩ := apply_table htl hpl
    refine ⟨t, p, ts, u, ht, hp, hts, hu, ownerCountHook_merge hut, ?_⟩
    intro rules hhonest account issuer amount ham
    refine balanceHook_merge htl hpl htsl hut ham account issuer fun hsw hfix => ?_
    obtain ⟨base, hba, hho, hre⟩ := hhonest hsw hfix
    obtain ⟨chain, hch, hr, -⟩ := hho.records hba hre
    -- the tables of the chain are those recorded
    have hm : chain.map tab = t :: p :: ts := by
      rw [mapM_cons, mapM_cons, ht, hp, hts] at hch
      exact (Except.ok.inj hch).symm
    obtain ⟨l, chain, rfl, hl, hm⟩ := map_eq_cons_iff.1 hm
    obtain ⟨l', _, rfl, hl', hm⟩ := map_eq_cons_iff.1 hm
    exact ⟨base, l, l', _, hba, hr, hl, hl', hm⟩
  intro innermost logs hops hlo
  obtain ⟨t, ht, htab⟩ := recordAll_table (t := {}) TableMap.legal_empty hops
  obtain ⟨ts, u, hts, hu, hut⟩ := applyChain_table hops hlo htab
  have ha : ∀ op ∈ logs.reverse.flatten ++ innermost, op.Legal := by
    intro op hop
    rcases mem_append.1 hop with hop | hop
    · obtain ⟨log, hlog, hop⟩ := mem_flatten.1 hop
      exact hlo log (mem_reverse.1 hlog) op hop
    · exact hops op hop
  obtain ⟨direct, hdi, hdt⟩ := recordAll_table (t := {}) TableMap.legal_empty ha
  have heq : u.table = direct.table := hut.trans hdt.symm
  exact ⟨t, ts, u, direct, ht, hts, hu, hdi, congrFun (congrArg TableMap.credits heq),
    congrFun (congrArg TableMap.ownerCounts heq)⟩

namespace Sample

/-- Thirty are sent in the parent. -/
def sendThirty : List SandboxOp := [.credit 2 1 (.issued ⟨5, 1⟩ 30) (.issued ⟨5, 1⟩ 100)]

/-- In the child the balance falls to five, one is sent, and the balance rises to fifty. -/
def dip : List SandboxOp :=
  [.change 2 1 5 (-65), .credit 2 1 (.issued ⟨5, 1⟩ 1) (.issued ⟨5, 1⟩ 5), .change 2 1 5 46]

/-- In the child eighty are received, and an object is owned. -/
def receive : List SandboxOp :=
  [.credit 1 2 (.issued ⟨5, 1⟩ 80) (.issued ⟨5, 1⟩ (-70)), .ownerCount 2 3 4]

theorem sendThirty_honest : HonestLog hundred sendThirty :=
  ⟨⟨⟨by decide, by decide +kernel, of_five 1 30, of_five 1 100⟩,
    show STAmount.num _ = _ by decide +kernel⟩, trivial⟩

end Sample

open Sample

/-- The balance before the one credit of the child counts while the child is there: of fifty, five
can be spent before the merge and all fifty after it. -/
theorem unrecorded_dip_lost : HonestChain hundred [dip, sendThirty] ∧
    balancesAfter hundred [dip, sendThirty] 2 1 5 = 50 ∧
    ∃ t p u, SandboxOp.recordAll {} dip = .ok t ∧
      SandboxOp.recordAll {} sendThirty = .ok p ∧ t.apply p = .ok u ∧
      balanceHook ⟨true, true, true⟩ [t, p] 2 1 (.issued ⟨5, 1⟩ 50) = .ok (.issued ⟨5, 1⟩ 5) ∧
      balanceHook ⟨true, true, true⟩ [u] 2 1 (.issued ⟨5, 1⟩ 50) = .ok (.issued ⟨5, 1⟩ 50) := by
  refine ⟨⟨⟨⟨trivial, trivial⟩, ⟨⟨by decide, by decide +kernel, of_five 1 1,
    of_five 1 5⟩, show STAmount.num _ = _ by decide +kernel⟩, ⟨trivial, trivial⟩, trivial⟩,
    sendThirty_honest, trivial⟩, by decide +kernel, ?_⟩
  refine ⟨_, _, _, rfl, rfl, rfl, ?_, ?_⟩
  · decide +kernel
  · decide +kernel

/-- A receipt is merged over a payment of thirty. -/
theorem sandbox_merge_sample :
    ∃ t p u, SandboxOp.recordAll {} receive = .ok t ∧
      SandboxOp.recordAll {} sendThirty = .ok p ∧ t.apply p = .ok u ∧
      balanceHook ⟨true, true, true⟩ [t, p] 2 1 (.issued ⟨5, 1⟩ 150) =
        balanceHook ⟨true, true, true⟩ [u] 2 1 (.issued ⟨5, 1⟩ 150) := by
  have hho : HonestChain hundred [receive, sendThirty] :=
    ⟨⟨⟨⟨by decide, by decide +kernel, of_five 1 80, of_five 1 (-70)⟩,
      show STAmount.num _ = _ by decide +kernel⟩, ⟨trivial, trivial⟩, trivial⟩,
      sendThirty_honest, trivial⟩
  have hre : ∀ log ∈ [receive, sendThirty], ∀ op ∈ log, op.Recorded := by
    simp [receive, sendThirty, Recorded]
  obtain ⟨t, p, _, u, ht, hp, hts, hu, -, hh⟩ := sandbox_merge.1 receive sendThirty [] hho.legal
  cases hts
  exact ⟨t, p, u, ht, hp, hu,
    hh _ (fun _ _ => ⟨hundred, hundred_anti, hho, hre⟩) 2 1 _ (of_five 1 150)⟩

end FinPal
