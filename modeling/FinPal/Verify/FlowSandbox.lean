import FinPal.Verify.FeeClaim
import FinPal.Verify.PaymentFrame
import FinPal.Verify.StrandInvariant

/-!
# The sandbox of a payment that fails

A delivery that fails leaves the sandbox of the caller alone. The issuer's fee is charged by a
second flow, after the delivery has been merged, and when that flow fails the merge stays.
-/

namespace FinPal
open Store ViewM STPathElement KeepsUncounted

theorem KeepsUncounted.permitsPayment : PermitsPayment KeepsUncounted where
  run := isRun
  pages := of_permits (Keeps.permits fun _ => rfl)
  lines := of_permits (Keeps.permits fun _ => rfl)
  offers := (of_permits (Keeps.permits fun _ => rfl)).toPermitsChange
  counts := ownerCount

theorem KeepsUncounted.transferFee {σ σ' : State} (h : KeepsUncounted σ σ') (o : AccountID) :
    (σ'.get (keylet.account o)).map (·.transferFee) =
      (σ.get (keylet.account o)).map (·.transferFee) := by
  have ho := congrArg (Option.map fun a : AccountRoot => a.transferFee) (h o)
  rwa [Option.map_map, Option.map_map] at ho

section Strands
variable {B : Type} [OtherStep B]

/-- An account other than that of the native currency, with no change of currency. -/
structure STPathElement.Plain (e : STPathElement) (c : Currency) : Prop where
  account : ∃ a, e.account = some a ∧ a ≠ mAccount
  currency : ∀ c' ∈ e.currency, c' = c

/-- A strand in the making, from account to account in one currency. -/
structure StrandBuild.Plain (b : StrandBuild B) (c : Currency) : Prop where
  direct : AllDirect b.strand
  currency : b.curIssue.currency = c

omit [OtherStep B] in
theorem AllDirect.push {b b' : StrandBuild B} {made : Except StrandError (PayStep B × Seen)}
    (hb : AllDirect b.strand) (hm : ∀ s seen, made = .ok (s, seen) → ∃ d, s = .direct d)
    (h : b.push made = .ok b') : AllDirect b'.strand ∧ b'.curIssue = b.curIssue := by
  obtain ⟨⟨s, seen⟩, hs, h⟩ := bind_ok.1 h
  cases h
  refine ⟨fun s' hs' => ?_, rfl⟩
  obtain hs' | hs' := List.mem_append.1 hs'
  · exact hb s' hs'
  · obtain rfl := List.mem_singleton.1 hs'
    exact hm s' seen hs

theorem makeDirectStepI_ok {ctx : StrandContext B} {src dst : AccountID} {c : Currency}
    {s : PayStep B} {seen : Seen} (h : makeDirectStepI ctx src dst c = .ok (s, seen)) :
    ∃ d, s = .direct d := by
  obtain ⟨_, _, h⟩ := bind_ok.1 h
  cases h
  exact ⟨_, rfl⟩

namespace STPathElement.Plain
variable {cur next : STPathElement} {c : Currency}

theorem isAccount (h : cur.Plain c) : cur.isAccount = true := by
  obtain ⟨a, ha, -⟩ := h.account
  simp [STPathElement.isAccount, ha]

theorem not_isMAccount (h : cur.Plain c) : cur.isMAccount = false := by
  obtain ⟨a, ha, hne⟩ := h.account
  simp [isMAccount, ha, hne]

theorem toStep {ctx : StrandContext B} {curIssue : Issue} {s : PayStep B} {seen : Seen}
    (hcur : cur.Plain c) (hn : next.Plain c) (hc : c ≠ mCurrency)
    (h : toStep ctx cur next curIssue = .ok (s, seen)) : ∃ d, s = .direct d := by
  have hm : cur.currency ≠ some mCurrency := fun e => hc (hcur.currency _ e).symm
  simp only [FinPal.toStep, hm, hcur.not_isMAccount, hcur.isAccount, hn.isAccount, and_self,
    and_false, false_and, Bool.false_eq_true, if_false, if_true] at h
  exact makeDirectStepI_ok h

end STPathElement.Plain

namespace StrandBuild.Plain
variable {b b' : StrandBuild B} {c : Currency} {p : StrandParams} {cur next : STPathElement}

theorem implied_eq (hn : next.isAccount = true) (h : b.curIssue.account = cur.getAccountID) :
    b.implied p cur next = .ok (b, cur) := by
  simp [StrandBuild.implied, hn, h]
  rfl

theorem exchange_eq (h : ∀ c' ∈ next.currency, c' = b.curIssue.currency) :
    b.exchange p cur next = .ok (b, cur) := by
  unfold StrandBuild.exchange
  cases hc : next.currency with
  | none => rfl
  | some c' =>
    simp [h c' hc]
    rfl

theorem link (hb : b.Plain c) (hcur : cur.Plain c) (hne : next.Plain c) (hc : c ≠ mCurrency)
    {isLast : Bool} (h : b.link p cur next isLast = .ok b') : b'.Plain c := by
  obtain ⟨a, ha, -⟩ := hcur.account
  have hcu : (cur.issueFrom b.curIssue).currency = c := by
    cases hcc : cur.currency with
    | none => simpa [issueFrom, hcc] using hb.currency
    | some c' => simpa [issueFrom, hcc] using hcur.currency c' hcc
  have hac : (cur.issueFrom b.curIssue).account = cur.getAccountID := by
    simp [issueFrom, getAccountID, ha]
  have hof : cur.isOffer = false := by simp [isOffer, ha]
  unfold StrandBuild.link at h
  split at h
  · cases h
  simp only [hof, Bool.false_eq_true, false_and, if_false] at h
  obtain ⟨⟨_, _⟩, h1, h⟩ := bind_ok.1 h
  rw [implied_eq hne.isAccount hac] at h1
  cases h1
  obtain ⟨⟨_, _⟩, h2, h⟩ := bind_ok.1 h
  rw [exchange_eq fun c' hc' => (hne.currency c' hc').trans hcu.symm] at h2
  cases h2
  obtain ⟨hdi, hi⟩ :=
    AllDirect.push (b := { b with curIssue := cur.issueFrom b.curIssue }) hb.direct
      (fun _ _ => hcur.toStep hne hc) h
  exact ⟨hdi, hi ▸ hcu⟩

theorem linkAll {es : List STPathElement} (hb : b.Plain c) (hes : ∀ e ∈ es, e.Plain c)
    (hc : c ≠ mCurrency) (h : linkAll p b es = .ok b') : b'.Plain c := by
  induction es generalizing b with
  | nil =>
    cases h
    exact hb
  | cons cur es ih =>
    cases es with
    | nil =>
      cases h
      exact hb
    | cons next _ =>
      obtain ⟨_, h1, h⟩ := bind_ok.1 h
      have hb1 := hb.link (hes cur (.head _)) (hes next (.tail _ (.head _))) hc h1
      exact ih hb1 (fun e he => hes e (.tail _ he)) h

end StrandBuild.Plain

theorem STPathElement.Plain.ofAccount {a : AccountID} (ha : a ≠ mAccount) (c : Currency) :
    Plain { account := some a } c :=
  ⟨⟨a, rfl, ha⟩, by simp⟩

private theorem plain_ite_append {P : Prop} [Decidable P] {es : List STPathElement}
    {e : STPathElement} {c : Currency} (hes : ∀ e ∈ es, e.Plain c) (he : e.Plain c) :
    ∀ e' ∈ (if P then es else es ++ [e]), e'.Plain c := by
  split_ifs
  · exact hes
  · simpa [or_imp, forall_and, he] using hes

private theorem plain_first {first e' : STPathElement} {c : Currency} (hfi : first.Plain c)
    (hc : first.currency = some c) {l : List STPathElement}
    (hl : ∀ e ∈ l, ∃ a, a ≠ mAccount ∧ e = { account := some a }) :
    ∀ e ∈ (if (((first :: (l ++ [])).reverse.find?
        (·.currency.isSome)).map (·.getCurrency)).getD 0 ≠ c then first :: (l ++ []) ++ [e']
      else first :: (l ++ [])), e.Plain c := by
  have hn : l.reverse.find? (·.currency.isSome) = none := by
    refine List.find?_eq_none.2 fun e he => ?_
    obtain ⟨a, -, rfl⟩ := hl e (List.mem_reverse.1 he)
    simp
  rw [if_neg (by simp [hn, getCurrency, hc])]
  intro e he
  obtain rfl | he := List.mem_cons.1 he
  · exact hfi
  · obtain ⟨a, ha, rfl⟩ := hl e (List.append_nil l ▸ he)
    exact .ofAccount ha _

/-- The path of a payment in one currency, without paths of its own, is of accounts. -/
theorem pathElements_plain {src dst : AccountID} {deliver curIssue : Issue}
    {sendMaxIssue : Option Issue} (hs : src ≠ mAccount) (hd : dst ≠ mAccount)
    (hde : deliver.account ≠ mAccount) (hsend : ∀ i ∈ sendMaxIssue, i.account ≠ mAccount)
    (hcur : curIssue.currency = deliver.currency) :
    ∀ e ∈ pathElements src dst deliver sendMaxIssue curIssue [], e.Plain deliver.currency := by
  refine plain_ite_append (plain_ite_append ?_ (.ofAccount hde _)) (.ofAccount hd _)
  refine plain_first ⟨⟨src, rfl, hs⟩, by simp [hcur]⟩ (by simp [hcur]) ?_
  -- at most the issuer of `sendMax` comes after the source
  cases sendMaxIssue with
  | none => simp
  | some i =>
    dsimp only
    split_ifs
    · simpa using hsend i rfl
    · simp

variable {view : PaymentSandbox} {src dst : AccountID} {deliver : Issue} {sendMax : Option Issue}
  {ownerPays : Bool}

section
variable (hc : deliver.currency ≠ mCurrency) (hsend : ∀ i ∈ sendMax, i.currency = deliver.currency)
include hc hsend

theorem toStrand_direct {strand : List (PayStep B)}
    (h : toStrand view src dst deliver sendMax [] ownerPays = .ok strand) : AllDirect strand := by
  unfold toStrand at h
  split at h
  · cases h
  next hok =>
  simp only [not_or, Bool.not_eq_true', Bool.not_eq_false] at hok
  obtain ⟨hsrc, hd, hde, hm⟩ := hok
  have hcu : (sendMax.map (·.currency)).getD deliver.currency = deliver.currency := by
    cases sendMax with
    | none => rfl
    | some i => exact hsend i rfl
  simp only [hcu, hc, if_false] at h
  obtain ⟨b, hb, h⟩ := bind_ok.1 h
  cases h
  have hpl : StrandBuild.Plain (B := B) { curIssue := ⟨deliver.currency, src⟩ }
      deliver.currency :=
    ⟨fun s hs => absurd hs List.not_mem_nil, rfl⟩
  refine (hpl.linkAll ?_ hc hb).direct
  refine pathElements_plain hsrc hd ?_ ?_ rfl
  · simpa [isConsistent, hc] using hde
  intro i hi
  obtain rfl : sendMax = some i := hi
  simpa [isConsistent, hsend i rfl, hc] using hm

theorem addPath_direct {s s' : List (List (PayStep B)) × TER}
    (hs : ∀ strand ∈ s.1, AllDirect strand)
    (h : addPath view src dst deliver sendMax ownerPays s [] = .ok s') :
    ∀ strand ∈ s'.1, AllDirect strand := by
  unfold addPath at h
  split at h
  · cases h
  · split_ifs at h
    cases h
    exact hs
  next strand hst =>
  split_ifs at h
  · cases h
    exact hs
  · cases h
    simpa [or_imp, forall_and, toStrand_direct hc hsend hst] using hs

theorem toStrands_direct {defaultPaths : Bool} {strands : List (List (PayStep B))}
    (h : toStrands view src dst deliver sendMax [] defaultPaths ownerPays = .ok strands) :
    ∀ strand ∈ strands, AllDirect strand := by
  unfold toStrands at h
  simp only [List.foldlM_nil, pure_bind] at h
  split at h
  · obtain ⟨⟨s, t⟩, ha, h⟩ := bind_ok.1 h
    have hs := addPath_direct hc hsend (by simp) ha
    split_ifs at h
    · cases h
    · cases h
      exact hs
  · cases h

end
end Strands

section Flow
variable {B : Type} [OtherStep B] {Q : State → State → Prop} {sb sb' : PaymentSandbox}

theorem PermitsPayment.preserves (hQ : PermitsPayment Q) {TIn TOut : Type} [EngineAmount TIn]
    [EngineAmount TOut] (mToM : Bool) (σ : State) :
    (payEngine B TIn TOut mToM).Preserves (fun sb => Q σ sb.view) AllDirect where
  child _ h := h
  flow sb strand maxIn out f in_ out' sb' h hs hf hok := by
    have hf : FinPal.flowStrand (fun s => mToM && s.length = 2) sb strand maxIn out = .ok f := hf
    exact hQ.run.trans h (hQ.flowStrand hs hf hok)
  apply sb parent parent' h _ hap := by
    obtain ⟨_, -, hap⟩ := bind_ok.1 hap
    cases hap
    exact h
  removeOffer sb key sb' h hrm := hQ.run.trans h (hQ.removeOffer hrm)

theorem finishFlow_ok {TIn TOut : Type} [PayAmount TIn] [PayAmount TOut] {srcIssue dstIssue : Issue}
    {f : FlowResult PaymentSandbox Digest TIn TOut} {rc : FlowOutput}
    (h : finishFlow sb srcIssue dstIssue f = .ok (rc, sb')) :
    rc.result = f.ter ∧ (f.ter ≠ .tesSUCCESS → sb' = sb) ∧
      (f.ter = .tesSUCCESS → ∃ inner, f.sandbox = some inner ∧ inner.apply sb = .ok sb') := by
  unfold finishFlow at h
  split_ifs at h with ht
  · cases hin : f.sandbox with
    | none =>
      simp only [hin] at h
      cases h
    | some inner =>
      simp only [hin] at h
      obtain ⟨_, hm, h⟩ := bind_ok.1 h
      cases h
      exact ⟨rfl, fun hne => absurd ht hne, fun _ => ⟨inner, rfl, hm⟩⟩
  · cases h
    exact ⟨rfl, fun _ => rfl, fun e => absurd e ht⟩

variable {r : PaymentRequest} {strands : List (List (PayStep B))} {rc : FlowOutput}

theorem deliverFlow_failed (h : deliverFlow r sb strands = .ok (rc, sb'))
    (hne : rc.result ≠ .tesSUCCESS) : sb' = sb := by
  unfold deliverFlow at h
  dsimp only at h
  split at h
  all_goals
    obtain ⟨f, -, h⟩ := bind_ok.1 h
    obtain ⟨ht, hfa, -⟩ := finishFlow_ok h
    exact hfa (ht ▸ hne)

theorem PermitsPayment.deliverFlow (hQ : PermitsPayment Q) (hs : ∀ s ∈ strands, AllDirect s)
    (h : deliverFlow r sb strands = .ok (rc, sb')) : Q sb.view sb'.view := by
  by_cases hne : rc.result = .tesSUCCESS
  · unfold FinPal.deliverFlow at h
    dsimp only at h
    split at h
    all_goals
      obtain ⟨f, hf, h⟩ := bind_ok.1 h
      obtain ⟨ht, -, hok⟩ := finishFlow_ok h
      obtain ⟨inner, hin, hap⟩ := hok (ht.symm.trans hne)
      obtain ⟨_, -, hap⟩ := bind_ok.1 hap
      cases hap
      obtain ⟨_, -, hf⟩ := bind_ok.1 hf
      obtain ⟨_, -, hf⟩ := bind_ok.1 hf
      exact (hQ.preserves _ sb.view).flowStrands (hQ.run.refl _) hs hf (ht.symm.trans hne)
        inner hin
  · rw [deliverFlow_failed h hne]
    exact hQ.run.refl _

/-- The issuer's fee does not enter: the payment is not between two customers in its own issue, or
it has set no fee. -/
def PaymentRequest.FreeOfIssuerFee (r : PaymentRequest) (σ : State) : Prop :=
  r.srcIssue.currency = mCurrency ∨ r.dstIssue.currency = mCurrency ∨ r.betweenCustomers = false ∨
    ∀ issuer, σ.get (keylet.account r.dstIssue.account) = some issuer → issuer.transferFee = none

/-- The strands of a payment. -/
def PaymentRequest.HasStrands (r : PaymentRequest) (sb : PaymentSandbox)
    (strands : List (List (PayStep B))) : Prop :=
  toStrands sb r.src r.dst r.dstIssue (r.sendMax.map (·.issue)) r.paths r.defaultPaths
    r.ownerPaysTransferFee = .ok strands

theorem PaymentRequest.HasStrands.direct (h : r.HasStrands sb strands)
    (hd : r.dstIssue.currency ≠ mCurrency) (hb : r.betweenCustomers = true) :
    ∀ s ∈ strands, AllDirect s := by
  simp only [PaymentRequest.betweenCustomers, Bool.and_eq_true, decide_eq_true_eq] at hb
  obtain ⟨⟨⟨hpa, -⟩, -⟩, hcu⟩ := hb
  rw [HasStrands, hpa] at h
  refine toStrands_direct hd ?_ h
  intro i hi
  obtain ⟨m, hm, rfl⟩ := Option.mem_map.1 hi
  rw [hcu, PaymentRequest.srcIssue, hm]

/-- The payment is between two customers of an issuer that has set a fee. -/
structure PaymentRequest.Charges (r : PaymentRequest) (σ : State) (tf : STAmount) : Prop where
  srcIssue : r.srcIssue.currency ≠ mCurrency
  dstIssue : r.dstIssue.currency ≠ mCurrency
  customers : r.betweenCustomers = true
  fee : (σ.get (keylet.account r.dstIssue.account)).map (·.transferFee) = some (some tf)

variable {tf : STAmount}

theorem PaymentRequest.FreeOfIssuerFee.not_charges {σ : State} (hf : r.FreeOfIssuerFee σ) :
    ¬ r.Charges σ tf := by
  intro hch
  obtain ⟨issuer, hi, htf⟩ := Option.map_eq_some_iff.1 hch.fee
  obtain hm | hm | hb | hn := hf
  · exact hch.srcIssue hm
  · exact hch.dstIssue hm
  · exact absurd hb (by simp [hch.customers])
  · cases (hn issuer hi).symm.trans htf

/-- A delivery between customers leaves the fee of the issuer as it is. -/
theorem deliverFlow_charges (hst : r.HasStrands sb strands)
    (hd : deliverFlow r sb strands = .ok (rc, sb')) :
    r.Charges sb'.view tf ↔ r.Charges sb.view tf := by
  have hk (hdst : r.dstIssue.currency ≠ mCurrency) (hb : r.betweenCustomers = true) :=
    (permitsPayment.deliverFlow (hst.direct hdst hb) hd).transferFee r.dstIssue.account
  refine ⟨fun h => ⟨h.1, h.2, h.3, ?_⟩, fun h => ⟨h.1, h.2, h.3, ?_⟩⟩
  · exact (hk h.2 h.3).symm.trans h.4
  · exact (hk h.2 h.3).trans h.4

variable {out : FlowOutput}

/-- What a flow does: it has no strands, it delivers and that is all, or it then asks for the fee. -/
theorem flow_cases (h : flow B sb r = .ok (out, sb')) :
    (sb' = sb ∧ ∀ strands : List (List (PayStep B)), ¬ r.HasStrands sb strands) ∨
    ∃ (strands : List (List (PayStep B))) (rc : FlowOutput) (sb₁ : PaymentSandbox),
      r.HasStrands sb strands ∧ deliverFlow r sb strands = .ok (rc, sb₁) ∧
      ((out = rc ∧ sb' = sb₁ ∧ (rc.result = .tesSUCCESS → ∀ tf, ¬ r.Charges sb.view tf)) ∨
        rc.result = .tesSUCCESS ∧ ∃ tf, r.Charges sb.view tf ∧
          payIssuerFee B r rc sb₁ tf = .ok (out, sb')) := by
  unfold flow at h
  split at h
  · cases h
  · next hst =>
    cases h
    exact .inl ⟨rfl, fun strands hst' => by cases hst'.symm.trans hst⟩
  next strands hst =>
  obtain ⟨⟨rc, sb₁⟩, hd, h⟩ := bind_ok.1 h
  refine .inr ⟨strands, rc, sb₁, hst, hd, ?_⟩
  simp only [← deliverFlow_charges hst hd]
  dsimp only at h
  split at h
  · next hm =>
    cases h
    exact .inl ⟨rfl, rfl, fun _ tf hch => hm.elim hch.srcIssue hch.dstIssue⟩
  next hm =>
  unfold chargeIssuerFee at h
  split at h
  · next hif =>
    split at h
    · cases h
    next issuer hi =>
    cases htf : issuer.transferFee with
    | none =>
      simp only [htf] at h
      cases h
      refine .inl ⟨rfl, rfl, fun _ tf hch => ?_⟩
      have hfe := hch.fee
      simp [hi, htf] at hfe
    | some tf =>
      simp only [htf] at h
      refine .inr ⟨hif.1, tf, ⟨fun e => hm (.inl e), fun e => hm (.inr e), hif.2, ?_⟩, h⟩
      simp [hi, htf]
  · next hif =>
    cases h
    exact .inl ⟨rfl, rfl, fun hok tf hch => hif ⟨hok, hch.customers⟩⟩

variable (B) in
/-- The payment of an issue, without what the issuer's fee adds: it has strands, their flow is a
success, and it leaves `sb'`. -/
def PaymentRequest.Pays (r : PaymentRequest) (sb sb' : PaymentSandbox) : Prop :=
  ∃ (strands : List (List (PayStep B))) (f : FlowResult PaymentSandbox Digest IOUAmount IOUAmount),
    r.HasStrands sb strands ∧
    flowAs IOUAmount IOUAmount false sb strands r.deliver r.partialPayment r.limitQuality
      r.sendMax = .ok f ∧
    f.ter = .tesSUCCESS ∧ ∃ inner, f.sandbox = some inner ∧ inner.apply sb = .ok sb'

/-- The payment of a fee to the issuer. -/
def PaymentRequest.feePayment (r : PaymentRequest) (tf : STAmount) : PaymentRequest where
  deliver := tf
  src := r.src
  dst := r.dstIssue.account

variable (B) in
/-- The issuer of a payment between two customers has set a fee, and after the payment, which has
changed the sandbox, the source cannot pay it. -/
def PaymentRequest.LeavesNoFee (r : PaymentRequest) (sb : PaymentSandbox) : Prop :=
  ∃ tf sb₁, r.Charges sb.view tf ∧ r.Pays B sb sb₁ ∧ sb₁ ≠ sb ∧
    ∀ sb₂, ¬ (r.feePayment tf).Pays B sb₁ sb₂

theorem deliverFlow_iou (hs : r.srcIssue.currency ≠ mCurrency)
    (hd : r.dstIssue.currency ≠ mCurrency) :
    deliverFlow r sb strands = (do
      let f ← flowAs IOUAmount IOUAmount false sb strands r.deliver r.partialPayment r.limitQuality
        r.sendMax
      finishFlow sb r.srcIssue r.dstIssue f) := by
  simp [deliverFlow, hs, hd]

/-- A delivery that succeeds is the payment without the fee. -/
theorem deliverFlow_pays (hs : r.srcIssue.currency ≠ mCurrency)
    (hd : r.dstIssue.currency ≠ mCurrency)
    (hst : r.HasStrands sb strands) (h : deliverFlow r sb strands = .ok (rc, sb'))
    {sb₁ : PaymentSandbox} :
    r.Pays B sb sb₁ ↔ rc.result = .tesSUCCESS ∧ sb₁ = sb' := by
  rw [deliverFlow_iou hs hd] at h
  obtain ⟨f, hf, h⟩ := bind_ok.1 h
  obtain ⟨ht, -, hin⟩ := finishFlow_ok h
  constructor
  · rintro ⟨strands₁, f₁, hst₁, hf₁, ht₁, inner₁, hi₁, hap₁⟩
    cases hst₁.symm.trans hst
    cases hf₁.symm.trans hf
    obtain ⟨inner, hi, hap⟩ := hin ht₁
    cases hi₁.symm.trans hi
    cases hap₁.symm.trans hap
    exact ⟨ht.trans ht₁, rfl⟩
  · rintro ⟨hok, rfl⟩
    exact ⟨strands, f, hst, hf, ht.symm.trans hok, hin (ht.symm.trans hok)⟩

/-- The fee is paid, or the sandbox stays and the code of the payment becomes one of the fee. -/
theorem payIssuerFee_ok (h : payIssuerFee B r rc sb tf = .ok (out, sb')) :
    ((r.feePayment tf).Pays B sb sb' ∧ out.result = rc.result) ∨
    ((∀ sb₂, ¬ (r.feePayment tf).Pays B sb sb₂) ∧ sb' = sb ∧
      (out.result = .tecNO_LINE_IOU_FEE ∨ out.result = .tecFAILED_IOU_FEE ∨
        out.result = .tecUNFUNDED_PAYMENT_IOU_FEE)) := by
  unfold payIssuerFee at h
  split at h
  · cases h
  · next t hst =>
    cases h
    refine .inr ⟨?_, rfl, ?_⟩
    · rintro _ ⟨_, _, hst₁, -⟩
      cases hst₁.symm.trans hst
    · dsimp only
      split_ifs <;> simp
  next strands hst =>
  obtain ⟨f, hf, h⟩ := bind_ok.1 h
  by_cases ht : f.ter = .tesSUCCESS
  · rw [if_neg (not_not.2 ht)] at h
    obtain ⟨⟨_, _⟩, hfi, h⟩ := bind_ok.1 h
    cases h
    obtain ⟨-, -, hin⟩ := finishFlow_ok hfi
    exact .inl ⟨⟨strands, f, hst, hf, ht, hin ht⟩, rfl⟩
  · rw [if_pos ht] at h
    cases h
    refine .inr ⟨?_, rfl, ?_⟩
    · rintro _ ⟨_, _, hst₁, hf₁, ht₁, -⟩
      cases hst₁.symm.trans hst
      cases hf₁.symm.trans hf
      exact ht ht₁
    · dsimp only
      split_ifs <;> simp

/-- Where the source cannot pay the fee, the delivery stays and the payment ends with a code of the
fee. -/
theorem PaymentRequest.LeavesNoFee.flow (hl : r.LeavesNoFee B sb) (h : flow B sb r = .ok (out, sb')) :
    sb' ≠ sb ∧ (out.result = .tecNO_LINE_IOU_FEE ∨ out.result = .tecFAILED_IOU_FEE ∨
      out.result = .tecUNFUNDED_PAYMENT_IOU_FEE) := by
  obtain ⟨tf, sb₁, hch, hp, hne, hun⟩ := hl
  obtain ⟨-, hno⟩ | ⟨strands, rc, sb₂, hst, hd, hca⟩ := flow_cases h
  · obtain ⟨strands, -, hst, -⟩ := hp
    exact absurd hst (hno strands)
  obtain ⟨hok, rfl⟩ := (deliverFlow_pays hch.srcIssue hch.dstIssue hst hd).1 hp
  obtain ⟨-, -, hfr⟩ | ⟨-, tf', hch', hfee⟩ := hca
  · exact absurd hch (hfr hok tf)
  cases hch.fee.symm.trans hch'.fee
  obtain ⟨hpa, -⟩ | ⟨-, rfl, ht⟩ := payIssuerFee_ok hfee
  · exact absurd hpa (hun _)
  · exact ⟨hne, ht⟩

/-- A payment between customers of an issuer leaves every account as it is, but for owner counts. -/
theorem customer_payment_frame (hc : r.dstIssue.currency ≠ mCurrency)
    (hb : r.betweenCustomers = true) (hf : r.FreeOfIssuerFee sb.view)
    (h : flow B sb r = .ok (rc, sb')) : KeepsUncounted sb.view sb'.view := by
  obtain ⟨rfl, -⟩ | ⟨strands, _, _, hst, hd, hca⟩ := flow_cases h
  · exact isRun.refl _
  obtain ⟨-, rfl, -⟩ | ⟨-, tf, hch, -⟩ := hca
  · exact permitsPayment.deliverFlow (hst.direct hc hb) hd
  · exact absurd hch hf.not_charges

end Flow

/-! ### Two customers of an issuer -/

/-- Strands between customers of an issuer have no steps of another kind. -/
instance : OtherStep Empty where
  rev _ b := nomatch b
  fwd _ b := nomatch b
  cachedIn b := nomatch b
  cachedOut b := nomatch b
  redeems b := nomatch b
  bookStepBook b := nomatch b
  equal b := nomatch b
  makeMEndpointStep _ _ := .error .temBAD_PATH
  makeBookStep _ _ _ := .error .temBAD_PATH

def customerLine (customer : AccountID) (balance : ℚ) : MTChainState where
  balance := .issued ⟨5, 1⟩ balance
  lowLimit := .issued ⟨5, customer⟩ 100
  highLimit := .issued ⟨5, 4⟩ 0

/-- Customers 2 and 3 of the issuer 4, the first with a balance of ten. -/
def customers (fee : Option STAmount) : State
  | .account 2 => some (.accountRoot { account := 2, sequence := 1, balance := 500 })
  | .account 3 => some (.accountRoot { account := 3, sequence := 1, balance := 500 })
  | .account 4 =>
    some (.accountRoot { account := 4, sequence := 1, balance := 500, transferFee := fee })
  | .line 2 4 5 => some (.mtchainState (customerLine 2 10))
  | .line 3 4 5 => some (.mtchainState (customerLine 3 0))
  | _ => none

def customersSandbox (fee : Option STAmount) : PaymentSandbox where
  view := customers fee
  rules := ⟨true, true, true⟩

def customerPayment (amount : ℚ) : PaymentRequest where
  deliver := .issued ⟨5, 4⟩ amount
  src := 2
  dst := 3

def PaymentSandbox.customerBalances (sb : PaymentSandbox) : Option STAmount × Option STAmount :=
  ((sb.view.get (keylet.line 2 4 5)).map (·.balance),
    (sb.view.get (keylet.line 3 4 5)).map (·.balance))

private theorem exists_flow {x : Except Fault (FlowOutput × PaymentSandbox)} {t : TER}
    {b : Option STAmount × Option STAmount}
    (h : x.toOption.map (fun y => (y.1.result, y.2.customerBalances)) = some (t, b)) :
    ∃ out sb', x = .ok (out, sb') ∧ out.result = t ∧ sb'.customerBalances = b := by
  cases x with
  | error e => cases h
  | ok y =>
    obtain ⟨out, sb'⟩ := y
    simp only [Except.toOption, Option.map_some, Option.some.injEq, Prod.mk.injEq] at h
    exact ⟨out, sb', rfl, h⟩

/-- Ten are paid from one customer to another. -/
theorem customer_payment_frame_ten : ∃ out sb',
    flow Empty (customersSandbox none) (customerPayment 10) = .ok (out, sb') ∧
      KeepsUncounted (customers none) sb'.view := by
  obtain ⟨out, sb', h, -⟩ := exists_flow (x := flow Empty (customersSandbox none)
    (customerPayment 10)) (t := .tesSUCCESS)
    (b := (some (.issued ⟨5, 1⟩ 0), some (.issued ⟨5, 1⟩ 10))) (by decide +kernel)
  refine ⟨out, sb', h, customer_payment_frame (by decide) (by decide) (.inr (.inr (.inr ?_))) h⟩
  rintro - ⟨⟩
  rfl

end FinPal
