import FinPal.Ledger.PaymentSandbox
import FinPal.Lib.Store
import Mathlib.Algebra.Order.BigOperators.Group.List
import Mathlib.Tactic.Linarith

/-!
# What is spendable inside a sandbox
-/

namespace FinPal
open Store DeferredCredits STAmount

/-! ## Amounts of one currency -/

namespace STAmount

/-- The number of an amount: drops, or the value of an issued amount. -/
def num : STAmount → ℚ
  | native d => d
  | issued _ q => q

/-- An amount of a currency, native or issued. -/
def Of (c : Currency) : STAmount → Prop
  | native _ => c = mCurrency
  | issued i _ => i.currency = c ∧ c ≠ mCurrency

section Of
variable {c : Currency} {v w : STAmount}

theorem Of.getCurrency (h : v.Of c) : v.getCurrency = c := by
  cases v with
  | native d => exact Eq.symm h
  | issued i q => exact h.1

theorem Of.neg (h : v.Of c) : (-v).Of c := by
  cases v <;> exact h

theorem num_neg (v : STAmount) : (-v).num = -v.num := by
  cases v <;> simp [num]

theorem Of.zeroed (h : v.Of c) : v.zeroed.Of c := by
  cases v <;> exact h

@[simp] theorem num_zeroed (v : STAmount) : v.zeroed.num = 0 := by
  cases v <;> simp [num, zeroed]

@[simp] theorem num_setIssuer (v : STAmount) (a : AccountID) : (v.setIssuer a).num = v.num := by
  cases v <;> rfl

section
variable (hv : v.Of c) (hw : w.Of c)

include hv hw

theorem Of.add : ∃ u, v.add w = .ok u ∧ u.Of c ∧ u.num = v.num + w.num := by
  cases v with
  | native a =>
    cases w with
    | native b => exact ⟨_, rfl, hv, by simp [num]⟩
    | issued j b => exact absurd hv hw.2
  | issued i a =>
    cases w with
    | native b => exact absurd hw hv.2
    | issued j b => exact ⟨.issued i (a + b), if_pos (hv.1.trans hw.1.symm), hv, rfl⟩

theorem Of.sub : ∃ u, v.sub w = .ok u ∧ u.Of c ∧ u.num = v.num - w.num := by
  obtain ⟨u, hu, hc, hn⟩ := hv.add hw.neg
  exact ⟨u, hu, hc, by rw [hn, num_neg, sub_eq_add_neg]⟩

theorem Of.lt : v.lt w = .ok (decide (v.num < w.num)) := by
  cases v with
  | native a =>
    cases w with
    | native b => simp [num]
    | issued j b => exact absurd hv hw.2
  | issued i a =>
    cases w with
    | native b => exact absurd hw hv.2
    | issued j b => exact if_pos (hv.1.trans hw.1.symm)

theorem Of.min : ∃ u, v.min w = .ok u ∧ u.Of c ∧ u.num = Min.min v.num w.num := by
  refine ⟨if w.num < v.num then w else v, ?_, ?_, ?_⟩
  · rw [STAmount.min, hw.lt hv]
    simp
  · split
    · exact hw
    · exact hv
  split
  · next h => exact (min_eq_right h.le).symm
  · next h => exact (min_eq_left (not_lt.1 h)).symm

end

theorem signum_neg_iff : v.signum < 0 ↔ v.num < 0 := by
  cases v with
  | native d => simp [signum, num]
  | issued i q =>
    simp only [signum, num]
    split
    · next h => simp [h]
    · next h => split <;> simp [h]

end Of
end STAmount

/-! ## The records of one sandbox -/

/-- What one record says about two accounts: what the low one had, and what each has sent to the
other. -/
def RecordAt (c : Currency) (start low high : ℚ) : Option DeferredCredit → Prop
  | none => low = 0 ∧ high = 0
  | some v => (v.highAcctCredits.Of c ∧ v.highAcctCredits.num = low) ∧
    (v.lowAcctCredits.Of c ∧ v.lowAcctCredits.num = high) ∧
    v.lowAcctOrigBalance.Of c ∧ v.lowAcctOrigBalance.num = start

/-- The records of two sandboxes for one pair of accounts. -/
def combine : Option DeferredCredit → Option DeferredCredit → Option DeferredCredit
  | none, o => o
  | some v, none => some v
  | some v, some w => (v.plus w).toOption

section RecordAt
variable {c : Currency} {start low high low' high' : ℚ}

theorem RecordAt.plus {v w : DeferredCredit} {start' : ℚ} (hv : RecordAt c start low high (some v))
    (hw : RecordAt c start' low' high' (some w)) :
    ∃ u, v.plus w = .ok u ∧ RecordAt c start (low + low') (high + high') (some u) := by
  obtain ⟨⟨hvh, hvhn⟩, ⟨hvl, hvln⟩, ho⟩ := hv
  obtain ⟨⟨hwh, hwhn⟩, ⟨hwl, hwln⟩, -⟩ := hw
  obtain ⟨l, hl, hlc, hln⟩ := hvl.add hwl
  obtain ⟨h, hh, hhc, hhn⟩ := hvh.add hwh
  refine ⟨{ v with lowAcctCredits := l, highAcctCredits := h }, ?_, ⟨hhc, ?_⟩, ⟨hlc, ?_⟩, ho⟩
  · rw [DeferredCredit.plus, hl, hh]
    rfl
  · rw [hhn, hvhn, hwhn]
  · rw [hln, hvln, hwln]

theorem RecordAt.combine {o o' : Option DeferredCredit} (h : RecordAt c start low high o)
    (h' : RecordAt c (start - low + high) low' high' o') :
    RecordAt c start (low + low') (high + high') (combine o o') := by
  cases o with
  | none =>
    obtain ⟨rfl, rfl⟩ := h
    simpa [combine] using h'
  | some v =>
    cases o' with
    | none =>
      obtain ⟨rfl, rfl⟩ := h'
      simpa [combine] using h
    | some w =>
      obtain ⟨u, hu, hr⟩ := h.plus h'
      rw [FinPal.combine, hu]
      exact hr

end RecordAt

/-- What each account has, or has sent to each other, in a currency. -/
abbrev Balances := AccountID → AccountID → Currency → ℚ

/-- The table records what was sent, over the balances it was opened on. -/
structure Records (start sent : Balances) (t : DeferredCredits) : Prop where
  sorted : ∀ {k v}, t.credits.lookup k = some v → k.1 < k.2.1
  record : ∀ {l h} c, l < h →
    RecordAt c (start l h c) (sent l h c) (sent h l c) (t.credits.lookup (l, h, c))

theorem records_empty (start : Balances) : Records start 0 {} :=
  ⟨fun h => by simp at h, fun _ _ => ⟨rfl, rfl⟩⟩

def Balances.send (sent : Balances) (s r : AccountID) (c : Currency) (q : ℚ) : Balances :=
  fun a b c' => if a = s ∧ b = r ∧ c' = c then sent a b c' + q else sent a b c'

section Records
variable {start sent sent' : Balances} {t : DeferredCredits} {s r : AccountID} {c : Currency}
  {amount pre : STAmount}

theorem lookup_credits_insert {t : DeferredCredits} {k k' : AccountID × AccountID × Currency}
    {v : DeferredCredit} :
    (t.credits.insert k v).lookup k' = if k' = k then some v else t.credits.lookup k' := by
  by_cases h : k' = k
  · subst h; simp
  · simp [h]

theorem Records.insert (h : Records start sent t) {l0 h0 : AccountID} (v : DeferredCredit)
    (hlt : l0 < h0) (hr : RecordAt c (start l0 h0 c) (sent' l0 h0 c) (sent' h0 l0 c) (some v))
    (hot : ∀ a b c', ¬ (c' = c ∧ ((a = l0 ∧ b = h0) ∨ (a = h0 ∧ b = l0))) →
      sent' a b c' = sent a b c') :
    Records start sent' { t with credits := t.credits.insert (l0, h0, c) v } := by
  refine ⟨fun {k w} hk => ?_, fun {a b} c' hab => ?_⟩
  · change (t.credits.insert (l0, h0, c) v).lookup k = some w at hk
    rw [lookup_credits_insert] at hk
    split at hk
    · next hk' => rw [hk']; exact hlt
    · exact h.sorted hk
  rw [lookup_credits_insert]
  split
  · next hk =>
    obtain ⟨rfl, rfl, rfl⟩ : a = l0 ∧ b = h0 ∧ c' = c := by simpa using hk
    exact hr
  · next hk =>
    have hne : ¬ (c' = c ∧ ((a = l0 ∧ b = h0) ∨ (a = h0 ∧ b = l0))) := by
      rintro ⟨rfl, ⟨rfl, rfl⟩ | ⟨rfl, rfl⟩⟩
      · exact hk rfl
      · exact hab.asymm hlt
    rw [hot a b c' hne, hot b a c' fun h' => hne ⟨h'.1, h'.2.symm.imp And.symm And.symm⟩]
    exact h.record c' hab

theorem Balances.send_other (sent : Balances) {q : ℚ} {a b : AccountID} {c' : Currency}
    (h : ¬ (c' = c ∧ ((a = s ∧ b = r) ∨ (a = r ∧ b = s)))) : sent.send s r c q a b c' = sent a b c' :=
  if_neg fun h' => h ⟨h'.2.2, .inl ⟨h'.1, h'.2.1⟩⟩

theorem Balances.send_pair (sent : Balances) (hne : s ≠ r) (x : ℚ) :
    sent.send s r c x s r c = sent s r c + x ∧ sent.send s r c x r s c = sent r s c := by
  simp [Balances.send, hne.symm]

section
variable (h : Records start sent t)

include h

theorem Records.credit_high (hsr : s < r) (ham : amount.Of c)
    (hp : pre.Of c) (hb : pre.num = start s r c - sent s r c + sent r s c) :
    ∃ t', t.credit s r amount pre = .ok t' ∧ Records start (sent.send s r c amount.num) t' := by
  have hr := h.record c hsr
  obtain ⟨hse, hba⟩ := sent.send_pair hsr.ne amount.num
  rw [credit, ham.getCurrency, makeKey, if_pos hsr]
  cases ho : t.credits.lookup (s, r, c) with
  | none =>
    rw [ho] at hr
    rw [hr.1, hr.2, sub_zero, add_zero] at hb
    refine ⟨_, rfl, h.insert _ hsr ?_ fun _ _ _ => Balances.send_other _⟩
    rw [if_pos hsr, hse, hba, hr.1, hr.2, zero_add]
    exact ⟨⟨ham, rfl⟩, ⟨ham.zeroed, num_zeroed _⟩, hp, hb⟩
  | some v =>
    rw [ho] at hr
    obtain ⟨⟨hh, hhn⟩, hl, hor⟩ := hr
    obtain ⟨_, hs, hc, hn⟩ := hh.add ham
    simp only [if_pos hsr, hs]
    refine ⟨_, rfl, h.insert _ hsr ?_ fun _ _ _ => Balances.send_other _⟩
    rw [hse, hba]
    exact ⟨⟨hc, by rw [hn, hhn]⟩, hl, hor⟩

theorem Records.credit_low (hsr : r < s) (ham : amount.Of c)
    (hp : pre.Of c) (hb : pre.num = start s r c - sent s r c + sent r s c)
    (han : start r s c = -start s r c) :
    ∃ t', t.credit s r amount pre = .ok t' ∧ Records start (sent.send s r c amount.num) t' := by
  have hr := h.record c hsr
  obtain ⟨hse, hba⟩ := sent.send_pair hsr.ne' amount.num
  have hot (a b c') (hne : ¬ (c' = c ∧ ((a = r ∧ b = s) ∨ (a = s ∧ b = r)))) :
      sent.send s r c amount.num a b c' = sent a b c' :=
    Balances.send_other _ fun h' => hne ⟨h'.1, h'.2.symm⟩
  rw [credit, ham.getCurrency, makeKey, if_neg hsr.asymm]
  cases ho : t.credits.lookup (r, s, c) with
  | none =>
    rw [ho] at hr
    rw [hr.1, hr.2, sub_zero, add_zero] at hb
    refine ⟨_, rfl, h.insert _ hsr ?_ hot⟩
    rw [if_neg hsr.asymm, hse, hba, hr.1, hr.2, zero_add]
    exact ⟨⟨ham.zeroed, num_zeroed _⟩, ⟨ham, rfl⟩, hp.neg, by rw [num_neg, hb, han]⟩
  | some v =>
    rw [ho] at hr
    obtain ⟨hhi, ⟨hl, hln⟩, hor⟩ := hr
    obtain ⟨_, hs, hc, hn⟩ := hl.add ham
    simp only [if_neg hsr.asymm, hs]
    refine ⟨_, rfl, h.insert _ hsr ?_ hot⟩
    rw [hse, hba]
    exact ⟨hhi, ⟨hc, by rw [hn, hln]⟩, hor⟩

theorem Records.credit (hsr : s ≠ r) (ham : amount.Of c)
    (hp : pre.Of c) (hb : pre.num = start s r c - sent s r c + sent r s c)
    (ha : start r s c = -start s r c) :
    ∃ t', t.credit s r amount pre = .ok t' ∧ Records start (sent.send s r c amount.num) t' := by
  rcases lt_or_gt_of_ne hsr with hlt | hlt
  · exact h.credit_high hlt ham hp hb
  · exact h.credit_low hlt ham hp hb ha

end

theorem foldlM_mergeCredit
    {l : List (Sigma fun _ : AccountID × AccountID × Currency => DeferredCredit)} (hl : l.NodupKeys)
    {p : AList fun _ : AccountID × AccountID × Currency => DeferredCredit}
    (hok : ∀ k v w, p.lookup k = some v → l.dlookup k = some w → ∃ u, v.plus w = .ok u) :
    ∃ p', l.foldlM mergeCredit p = .ok p' ∧
      ∀ k, p'.lookup k = combine (p.lookup k) (l.dlookup k) := by
  -- the keys are distinct, so only one record of the child meets a record of the parent
  induction l generalizing p with
  | nil => exact ⟨p, rfl, fun k => by cases p.lookup k <;> rfl⟩
  | cons i l ih =>
    obtain ⟨k0, w⟩ := i
    obtain ⟨hn, hl'⟩ := List.nodupKeys_cons.1 hl
    have hno : l.dlookup k0 = none := List.dlookup_eq_none.2 hn
    obtain ⟨u, hu, hco⟩ : ∃ u, mergeCredit p ⟨k0, w⟩ = .ok (p.insert k0 u) ∧
        combine (p.lookup k0) (some w) = some u := by
      unfold mergeCredit
      cases ho : p.lookup k0 with
      | none => exact ⟨w, rfl, rfl⟩
      | some v =>
        obtain ⟨u, hu⟩ := hok k0 v w ho (List.dlookup_cons_eq ..)
        refine ⟨u, ?_, by rw [combine, hu]; rfl⟩
        simp only [hu]
        rfl
    have hlo (k) : (p.insert k0 u).lookup k = if k = k0 then some u else p.lookup k := by
      by_cases h : k = k0
      · subst h; simp
      · simp [h]
    obtain ⟨p', hp', hk'⟩ := ih hl' fun k v w' hv hw' => by
      have hne : k ≠ k0 := by
        rintro rfl
        rw [hno] at hw'
        cases hw'
      rw [hlo, if_neg hne] at hv
      exact hok k v w' hv (by rw [List.dlookup_cons_ne _ _ hne]; exact hw')
    refine ⟨p', by rw [List.foldlM_cons, hu]; exact hp', fun k => ?_⟩
    rw [hk', hlo]
    by_cases h : k = k0
    · subst h
      rw [if_pos rfl, hno, List.dlookup_cons_eq, hco]
      rfl
    · rw [if_neg h, List.dlookup_cons_ne _ _ h]

theorem Records.apply {t' : DeferredCredits} (h : Records start sent t)
    (h' : Records (fun a b c => start a b c - sent a b c + sent b a c) sent' t') :
    ∃ u, t'.apply t = .ok u ∧ Records start (sent + sent') u := by
  have hok : ∀ k v w, t.credits.lookup k = some v → t'.credits.entries.dlookup k = some w →
      ∃ u, v.plus w = .ok u := by
    rintro ⟨a, b, c⟩ v w hv hw
    have hab : a < b := h.sorted hv
    have hr := h.record c hab
    have hr' := h'.record c hab
    rw [hv] at hr
    rw [show t'.credits.lookup (a, b, c) = some w from hw] at hr'
    obtain ⟨u, hu, -⟩ := hr.plus hr'
    exact ⟨u, hu⟩
  obtain ⟨p, hp, hk⟩ := foldlM_mergeCredit t'.credits.nodupKeys hok
  refine ⟨_, by rw [DeferredCredits.apply, hp]; rfl, fun {k v} hv => ?_, fun {a b} c hab => ?_⟩
  · change p.lookup k = some v at hv
    rw [hk] at hv
    cases ho : t.credits.lookup k with
    | some w => exact h.sorted ho
    | none =>
      rw [ho] at hv
      exact h'.sorted hv
  change RecordAt _ _ _ _ (p.lookup (a, b, c))
  rw [hk]
  exact (h.record c hab).combine (h'.record c hab)

theorem Records.adjustments (h : Records start sent t) {a b : AccountID} (hab : a ≠ b)
    (han : start b a c = -start a b c) :
    (t.adjustments a b c = none ∧ sent a b c = 0 ∧ sent b a c = 0) ∨
    ∃ adj, t.adjustments a b c = some adj ∧ (adj.debits.Of c ∧ adj.debits.num = sent a b c) ∧
      adj.origBalance.Of c ∧ adj.origBalance.num = start a b c := by
  unfold DeferredCredits.adjustments makeKey
  rcases lt_or_gt_of_ne hab with hlt | hlt
  · have hr := h.record c hlt
    rw [if_pos hlt]
    simp only [if_pos hlt]
    cases ho : t.credits.lookup (a, b, c) with
    | none =>
      rw [ho] at hr
      exact .inl ⟨rfl, hr⟩
    | some v =>
      rw [ho] at hr
      obtain ⟨hde, -, hor⟩ := hr
      exact .inr ⟨_, rfl, hde, hor⟩
  have hr := h.record c hlt
  rw [if_neg hlt.asymm]
  simp only [if_neg hlt.asymm]
  cases ho : t.credits.lookup (b, a, c) with
  | none =>
    rw [ho] at hr
    exact .inl ⟨rfl, hr.symm⟩
  | some v =>
    rw [ho] at hr
    obtain ⟨-, hde, hor, hn⟩ := hr
    exact .inr ⟨_, rfl, hde, hor.neg, by rw [num_neg, hn, han, neg_neg]⟩

end Records

/-! ## Chains of sandboxes -/

/-- A credit that a sandbox has recorded. -/
structure SentCredit where
  sender : AccountID
  receiver : AccountID
  amount : STAmount

/-- A sandbox, with the credits made in it and in those merged into it. -/
structure SandboxLayer where
  tab : DeferredCredits
  log : List SentCredit

/-- What the credits of a log have moved. -/
def sentOf (log : List SentCredit) : Balances := fun a b c =>
  (log.map fun x =>
    if x.sender = a ∧ x.receiver = b ∧ x.amount.getCurrency = c then x.amount.num else 0).sum

/-- What has been sent inside a chain of sandboxes. -/
def sentIn (chain : List SandboxLayer) : Balances := fun a b c =>
  (chain.map fun l => sentOf l.log a b c).sum

/-- The balances through a chain of sandboxes over a base. -/
def balanceIn (base : Balances) (chain : List SandboxLayer) : Balances := fun a b c =>
  base a b c - sentIn chain a b c + sentIn chain b a c

/-- The chains of sandboxes over a base. A credit is made in the innermost one and recorded with the
sender's balance before it. -/
inductive SandboxRun (base : Balances) : List SandboxLayer → Prop where
  | root : SandboxRun base [⟨{}, []⟩]
  | credit {tab : DeferredCredits} {log : List SentCredit} {rest : List SandboxLayer}
      {sender receiver : AccountID} {c : Currency} {amount pre : STAmount} {tab' : DeferredCredits} :
      SandboxRun base (⟨tab, log⟩ :: rest) → sender ≠ receiver → amount.Of c → 0 ≤ amount.num →
      pre.Of c → pre.num = balanceIn base (⟨tab, log⟩ :: rest) sender receiver c →
      tab.credit sender receiver amount pre = .ok tab' →
      SandboxRun base (⟨tab', ⟨sender, receiver, amount⟩ :: log⟩ :: rest)
  | nest {chain : List SandboxLayer} : SandboxRun base chain → SandboxRun base (⟨{}, []⟩ :: chain)
  | merge {child parent : SandboxLayer} {rest : List SandboxLayer} {tab' : DeferredCredits} :
      SandboxRun base (child :: parent :: rest) → child.tab.apply parent.tab = .ok tab' →
      SandboxRun base (⟨tab', child.log ++ parent.log⟩ :: rest)
  | drop {child parent : SandboxLayer} {rest : List SandboxLayer} :
      SandboxRun base (child :: parent :: rest) → SandboxRun base (parent :: rest)

/-- Each sandbox records what was sent inside it over what those below it left, and nothing sent is
negative. -/
def ChainRecords (base : Balances) : List SandboxLayer → Prop
  | [] => True
  | l :: rest => Records (balanceIn base rest) (sentOf l.log) l.tab ∧
    (∀ x ∈ l.log, 0 ≤ x.amount.num) ∧ ChainRecords base rest

section Chains
variable {base : Balances} {chain rest : List SandboxLayer} {a b : AccountID} {c : Currency}

theorem sentOf_nonneg {log : List SentCredit} (h : ∀ x ∈ log, 0 ≤ x.amount.num) (a b : AccountID)
    (c : Currency) : 0 ≤ sentOf log a b c := by
  refine List.sum_nonneg fun q hq => ?_
  obtain ⟨x, hx, rfl⟩ := List.mem_map.1 hq
  split
  · exact h x hx
  · exact le_rfl

theorem ChainRecords.sentIn_nonneg (h : ChainRecords base chain) (a b : AccountID) (c : Currency) :
    0 ≤ sentIn chain a b c := by
  induction chain with
  | nil => exact le_rfl
  | cons l _ ih => exact add_nonneg (sentOf_nonneg h.2.1 a b c) (ih h.2.2)

theorem sentIn_cons (l : SandboxLayer) (rest : List SandboxLayer) :
    sentIn (l :: rest) = sentOf l.log + sentIn rest := rfl

theorem balanceIn_cons (l : SandboxLayer) (rest : List SandboxLayer) : balanceIn base (l :: rest) =
      fun a b c => balanceIn base rest a b c - sentOf l.log a b c + sentOf l.log b a c := by
  funext a b c
  simp only [balanceIn, sentIn_cons, Pi.add_apply]
  ring

theorem balanceIn_anti (hb : ∀ a b c, base b a c = -base a b c) (a b : AccountID)
    (c : Currency) : balanceIn base rest b a c = -balanceIn base rest a b c := by
  simp only [balanceIn, hb a b c]
  ring

theorem sentOf_cons (x : SentCredit) (log : List SentCredit) : sentOf (x :: log) =
      (sentOf log).send x.sender x.receiver x.amount.getCurrency x.amount.num := by
  funext a b c
  simp only [sentOf, List.map_cons, List.sum_cons, Balances.send]
  by_cases h : x.sender = a ∧ x.receiver = b ∧ x.amount.getCurrency = c
  · rw [if_pos h, if_pos ⟨h.1.symm, h.2.1.symm, h.2.2.symm⟩, add_comm]
  · rw [if_neg h, if_neg fun h' => h ⟨h'.1.symm, h'.2.1.symm, h'.2.2.symm⟩, zero_add]

theorem sentOf_append (log log' : List SentCredit) :
    sentOf (log ++ log') = sentOf log + sentOf log' := by
  funext a b c
  simp [sentOf]

theorem SandboxRun.records (hba : ∀ a b c, base b a c = -base a b c)
    (h : SandboxRun base chain) : ChainRecords base chain := by
  induction h with
  | root => exact ⟨records_empty _, by simp, trivial⟩
  | nest _ ih => exact ⟨records_empty _, by simp, ih⟩
  | drop _ ih => exact ih.2.2
  | credit _ hne ham hp hpre hb hcr ih =>
    obtain ⟨hr, hno, hre⟩ := ih
    rw [balanceIn_cons] at hb
    obtain ⟨_, ht', hr'⟩ := hr.credit hne ham hpre hb (balanceIn_anti hba _ _ _)
    rw [hcr] at ht'
    obtain rfl := Except.ok.inj ht'
    refine ⟨?_, fun x hx => ?_, hre⟩
    · rw [sentOf_cons, ham.getCurrency]
      exact hr'
    rcases List.mem_cons.1 hx with rfl | hx
    · exact hp
    · exact hno x hx
  | @merge _ _ _ _ _ hap ih =>
    obtain ⟨hch, hno, hpa, hno', hre⟩ := ih
    rw [balanceIn_cons] at hch
    obtain ⟨u, hu, hr⟩ := hpa.apply hch
    rw [hap] at hu
    obtain rfl := Except.ok.inj hu
    refine ⟨?_, fun x hx => ?_, hre⟩
    · rw [sentOf_append, add_comm]
      exact hr
    rcases List.mem_append.1 hx with hx | hx
    · exact hno x hx
    · exact hno' x hx

/-- The loop of `balanceHook` adds up what was sent from a sandbox on and ends at the base's
balance; no balance on the way is less than that without what was sent. -/
theorem ChainRecords.foldlM_hookStep (h : ChainRecords base chain) (hab : a ≠ b)
    (hba : ∀ a b c, base b a c = -base a b c) {delta last least : STAmount} {bound : ℚ}
    (hde : delta.Of c) (hla : last.Of c) (hl : least.Of c)
    (hb : last.num = balanceIn base chain a b c)
    (hbo : bound ≤ base a b c - sentIn chain a b c) (hle : bound ≤ least.num) :
    ∃ delta' last' least', (chain.map SandboxLayer.tab).foldlM (hookStep a b c)
        (delta, last, least) = .ok (delta', last', least') ∧
      (delta'.Of c ∧ delta'.num = delta.num + sentIn chain a b c) ∧
      (last'.Of c ∧ last'.num = base a b c) ∧
      (least'.Of c ∧ bound ≤ least'.num) := by
  induction chain generalizing delta last least with
  | nil =>
    refine ⟨delta, last, least, rfl, ⟨hde, ?_⟩, ⟨hla, ?_⟩, hl, hle⟩
    · simp [sentIn]
    · simpa [balanceIn, sentIn] using hb
  | cons l _ ih =>
    obtain ⟨hr, hno, hre⟩ := h
    have hsent := sentOf_nonneg hno a b c
    have hback := hre.sentIn_nonneg b a c
    rw [sentIn_cons, Pi.add_apply, Pi.add_apply, Pi.add_apply] at hbo ⊢
    rw [balanceIn_cons] at hb
    dsimp only at hb
    rw [List.map_cons, List.foldlM_cons]
    rcases hr.adjustments hab (balanceIn_anti hba a b c) with
      ⟨hnone, h1, h2⟩ | ⟨adj, ha, ⟨hdc, hdn⟩, hoc, hon⟩
    · rw [h1, h2, sub_zero, add_zero] at hb
      rw [h1, zero_add] at hbo ⊢
      have hst : hookStep a b c (delta, last, least) l.tab = .ok (delta, last, least) := by
        rw [hookStep, hnone]
        rfl
      rw [hst]
      exact ih hre hde hla hl hb hbo hle
    obtain ⟨d, hd, hdc', hdn'⟩ := hde.add hdc
    obtain ⟨m, hm, hmc, hmn⟩ : ∃ m, hookStep a b c (delta, last, least) l.tab =
        .ok (d, adj.origBalance, m) ∧ m.Of c ∧ m.num = min least.num adj.origBalance.num := by
      obtain ⟨m, hm, hmc, hmn⟩ := hl.min hoc
      refine ⟨m, ?_, hmc, hmn⟩
      rw [STAmount.min] at hm
      simp only [hookStep, ha, hd, hoc.lt hl, bind, Except.bind, pure, Except.pure] at hm ⊢
      rw [Except.ok.inj hm]
    rw [hm]
    have hm' : bound ≤ m.num := by
      rw [hmn, hon, balanceIn]
      exact le_min hle (by linarith)
    obtain ⟨delta', last', least', hfo, ⟨hc, hn⟩, hen⟩ :=
      ih hre hdc' hoc hmc hon (by linarith) hm'
    exact ⟨delta', last', least', hfo, ⟨hc, by rw [hn, hdn', hdn, add_assoc]⟩, hen⟩

end Chains

/-- Inside a chain of sandboxes `balanceHook` shows the lesser of the balance and of what was there
before and has not been sent since. -/
theorem deferred_credits {base : Balances} {chain : List SandboxLayer} {rules : PaymentRules}
    {account issuer : AccountID} {c : Currency} {amount : STAmount}
    (hbase : ∀ a b c, base b a c = -base a b c) (hrun : SandboxRun base chain)
    (hne : account ≠ issuer) (hswitch : rules.amendmentRIPD1141 = true) (ham : amount.Of c)
    (hcur : amount.num = balanceIn base chain account issuer c) :
    ∃ v, balanceHook rules (chain.map SandboxLayer.tab) account issuer amount = .ok v ∧
      (v.num = if issuer = mAccount ∧
          min amount.num (base account issuer c - sentIn chain account issuer c) < 0 then 0
        else min amount.num (base account issuer c - sentIn chain account issuer c)) ∧
      v.num ≤ max 0 (base account issuer c - sentIn chain account issuer c) := by
  have hre := hrun.records hbase
  have hback := hre.sentIn_nonneg issuer account c
  obtain ⟨_, _, least, hfo, ⟨hdc, hdn⟩, ⟨hlc, hln⟩, hmc, hmn⟩ :=
    hre.foldlM_hookStep hne hbase ham.zeroed ham ham hcur le_rfl
      (by rw [hcur, balanceIn]; linarith)
  obtain ⟨_, hdiff, hdi, hd⟩ := hlc.sub hdc
  obtain ⟨x, hx, hxc, hxn⟩ := ham.min hdi
  -- the least balance is never below the result, so the later rule changes nothing
  obtain ⟨y, hy, hyc, hyn⟩ : ∃ y, (if rules.fix1368 then x.min least else pure x) = .ok y ∧
      y.Of c ∧ y.num = x.num := by
    split
    · obtain ⟨y, hy, hyc, hyn⟩ := hxc.min hmc
      refine ⟨y, hy, hyc, hyn.trans (min_eq_left ?_)⟩
      rw [hxn, hd, hln, hdn, num_zeroed, zero_add]
      exact (min_le_right _ _).trans hmn
    · exact ⟨x, rfl, hxc, rfl⟩
  have hva : y.num = min amount.num (base account issuer c - sentIn chain account issuer c) := by
    rw [hyn, hxn, hd, hln, hdn, num_zeroed, zero_add]
  obtain ⟨z, hz, hzn⟩ : ∃ z, (if rules.amendmentRIPD1274 then y.setIssuer amount.getIssuer else y) =
      z ∧ z.num = y.num := by
    refine ⟨_, rfl, ?_⟩
    split
    · exact num_setIssuer _ _
    · rfl
  have hho : balanceHook rules (chain.map SandboxLayer.tab) account issuer amount =
      .ok (if issuer = mAccount ∧ z.signum < 0 then z.zeroed else z) := by
    simp only [balanceHook, hswitch, ham.getCurrency, hfo, hdiff, hx, bind, Except.bind, if_true,
      pure, Except.pure]
    split at hy
    · next hf => simp only [if_pos hf, hy, hz]
    · next hf =>
      obtain rfl : x = y := Except.ok.inj hy
      simp only [if_neg hf, hz]
  refine ⟨_, hho, ?_, ?_⟩
  · simp only [signum_neg_iff, hzn, hva]
    split
    · exact num_zeroed _
    · rw [hzn, hva]
  split
  · rw [num_zeroed]
    exact le_max_left _ _
  · rw [hzn, hva]
    exact (min_le_right _ _).trans (le_max_right _ _)

namespace Sample

/-- Account 2 has 100 of account 1. -/
def hundred : Balances := fun a b c =>
  if a = 2 ∧ b = 1 ∧ c = 5 then 100 else if a = 1 ∧ b = 2 ∧ c = 5 then -100 else 0

theorem hundred_anti (a b : AccountID) (c : Currency) : hundred b a c = -hundred a b c := by
  unfold hundred
  by_cases h : a = 2 ∧ b = 1 ∧ c = 5
  · obtain ⟨rfl, rfl, rfl⟩ := h
    decide +kernel
  by_cases h' : a = 1 ∧ b = 2 ∧ c = 5
  · obtain ⟨rfl, rfl, rfl⟩ := h'
    decide +kernel
  · rw [if_neg h, if_neg h', if_neg fun h'' => h' ⟨h''.2.1, h''.1, h''.2.2⟩,
      if_neg fun h'' => h ⟨h''.2.1, h''.1, h''.2.2⟩, neg_zero]

theorem of_five (a : AccountID) (q : ℚ) : (issued ⟨5, a⟩ q).Of 5 := ⟨rfl, by decide⟩

/-- The table of the outer sandbox, in which thirty are sent. -/
def outer : DeferredCredits where
  credits := AList.insert (1, 2, 5)
    { highAcctCredits := .issued ⟨5, 1⟩ 0
      lowAcctCredits := .issued ⟨5, 1⟩ 30
      lowAcctOrigBalance := .issued ⟨5, 1⟩ (-100) } ∅

/-- The table of a nested one, in which eighty are received. -/
def inner : DeferredCredits where
  credits := AList.insert (1, 2, 5)
    { highAcctCredits := .issued ⟨5, 1⟩ 80
      lowAcctCredits := .issued ⟨5, 1⟩ 0
      lowAcctOrigBalance := .issued ⟨5, 1⟩ (-70) } ∅

def nested : List SandboxLayer :=
  [⟨inner, [⟨1, 2, .issued ⟨5, 1⟩ 80⟩]⟩, ⟨outer, [⟨2, 1, .issued ⟨5, 1⟩ 30⟩]⟩]

theorem nested_run : SandboxRun hundred nested := by
  have h1 : SandboxRun hundred [⟨outer, [⟨2, 1, .issued ⟨5, 1⟩ 30⟩]⟩] :=
    .credit .root (by decide) (of_five 1 30) (by decide +kernel) (of_five 1 100) (by decide +kernel)
      rfl
  exact .credit h1.nest (by decide) (of_five 1 80) (by decide +kernel) (of_five 1 (-70))
    (by decide +kernel) (by rw [credit]; rfl)

end Sample

/-- Of the hundred and fifty in the end, seventy can be spent. -/
theorem deferred_credits_sample :
    SandboxRun Sample.hundred Sample.nested ∧ balanceIn Sample.hundred Sample.nested 2 1 5 = 150 ∧
      ∃ v, balanceHook ⟨true, true, true⟩ (Sample.nested.map SandboxLayer.tab) 2 1
        (.issued ⟨5, 1⟩ 150) = .ok v ∧ v.num = 70 := by
  have hc : balanceIn Sample.hundred Sample.nested 2 1 5 = 150 := by decide +kernel
  obtain ⟨v, hv, hn, -⟩ := deferred_credits Sample.hundred_anti Sample.nested_run (by decide)
    (show PaymentRules.amendmentRIPD1141 ⟨true, true, true⟩ = true from rfl)
    (Sample.of_five 1 150) hc.symm
  refine ⟨Sample.nested_run, hc, v, hv, hn.trans ?_⟩
  decide +kernel

end FinPal
