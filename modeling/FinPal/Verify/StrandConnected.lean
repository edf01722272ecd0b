import FinPal.Verify.StrandPairs

/-!
# Strands are connected

Steps are made from a current issue that every element of the path may edit. Each is entered with
the issue that the one before it gives if the elements name the currency the steps carry
(`PathCarries`).
-/

namespace FinPal
open Store STPathElement List STPathElement Issue
variable {X : Type} [OtherExec X] {p : StrandParams} {b b' : StrandBuild (MadeStep X)}
  {cur next : STPathElement} {isLast : Bool}

/-! ### The currency that the steps carry -/

/-- The pair of a native source: its step is the endpoint, whatever follows. -/
def nativeStart (first : Bool) (cur : STPathElement) : Bool :=
  first && cur.isAccount && cur.currency = some mCurrency

/-- The pair `cur`, `next` at the issue `i` is in order when the steps so far carry `carried`: a
step is entered in the currency of `i`, the destination's endpoint in the native one. -/
abbrev PairCarries (first isLast : Bool) (carried : Currency) (i : Issue) (cur next : STPathElement) :
    Prop :=
  if cur.isOffer ∧ next.isAccount then
    (i.account ≠ next.getAccountID ∧ next.getAccountID ≠ mAccount) ∨ isLast → carried = i.currency
  else if nativeStart first cur then True
  else
    carried = i.currency ∧ (isLast ∧ cur.isMAccount ∧ next.isAccount → i.currency = mCurrency)

/-- The currency after the pair: an offer exchanges it, but in a native source's pair. -/
def carriedOn (first : Bool) (carried : Currency) (i : Issue) (cur next : STPathElement) :
    Currency :=
  if next.isOffer ∧ !nativeStart first cur then next.currency.getD i.currency else carried

/-- Along a path every step is for the currency that the steps before it carry. -/
def Carries : Bool → Currency → Issue → List STPathElement → Prop
  | first, carried, i, cur :: next :: rest =>
    PairCarries first rest.isEmpty carried (cur.issueFrom i) cur next ∧
      Carries false (carriedOn first carried (cur.issueFrom i) cur next) (cur.issueFrom i)
        (next :: rest)
  | _, _, _, _ => True

instance Carries.decidable : ∀ (first : Bool) (carried : Currency) (i : Issue)
    (es : List STPathElement), Decidable (Carries first carried i es)
  | first, carried, i, cur :: next :: rest =>
    have := Carries.decidable false (carriedOn first carried (cur.issueFrom i) cur next)
      (cur.issueFrom i) (next :: rest)
    inferInstanceAs (Decidable (_ ∧ _))
  | _, _, _, [] => .isTrue trivial
  | _, _, _, [_] => .isTrue trivial

/-- The currency that the elements of a path have named last. -/
def namedCurrency (c : Currency) (es : List STPathElement) : Currency :=
  es.foldl (fun c e => e.currency.getD c) c

/-- Where the walk is before the pairs that begin with `cur`. -/
structure Placed (b : StrandBuild (MadeStep X)) (cur : STPathElement) (w : Issue) : Prop where
  start : b.strand = [] → cur.isAccount ∧ cur.currency = some w.currency
  native : w.currency = mCurrency → b.strand ≠ [] → w = mIssue
  issued : w.currency ≠ mCurrency → w.currency = (cur.issueFrom b.curIssue).currency →
    w = cur.issueFrom b.curIssue ∨ cur.account = some mAccount
  offer : cur.isOffer → w.currency ≠ mCurrency → w.currency = (cur.issueFrom b.curIssue).currency

section Pairs
variable {i w : Issue} {carried : Currency}

omit [OtherExec X] in
theorem nativeStart_iff : nativeStart b.strand.isEmpty cur = true ↔ NativeStart b cur := by
  simp [nativeStart, NativeStart, and_assoc]

theorem pairCarries_skip (hc : cur.isOffer) (hn : next.isAccount)
    (hacc : i.account = next.getAccountID ∨ next.getAccountID = mAccount) {first : Bool} :
    PairCarries first isLast carried i cur next ↔ (isLast → carried = i.currency) := by
  rw [PairCarries, if_pos ⟨hc, hn⟩]
  have : ¬(i.account ≠ next.getAccountID ∧ next.getAccountID ≠ mAccount) := by tauto
  simp [this]

omit [OtherExec X] in
theorem pairCarries_direct (hst : ¬NativeStart b cur) (he : ¬NativeEnd isLast cur next)
    (hof : cur.isOffer → i.account ≠ next.getAccountID ∧ next.getAccountID ≠ mAccount) :
    PairCarries b.strand.isEmpty isLast carried i cur next ↔ carried = i.currency := by
  unfold PairCarries
  split
  next hpa => simp [hof hpa.1]
  · rw [if_neg (mt nativeStart_iff.1 hst)]
    exact and_iff_left fun h => absurd h he

omit [OtherExec X] in
theorem pairCarries_first (hst : NativeStart b cur) :
    PairCarries b.strand.isEmpty isLast carried i cur next := by
  unfold PairCarries
  rw [if_neg fun hpa => isOffer_iff.1 hpa.1 hst.2.1, if_pos (nativeStart_iff.2 hst)]
  trivial

omit [OtherExec X] in
theorem pairCarries_last (hst : ¬NativeStart b cur) (he : NativeEnd isLast cur next) :
    PairCarries b.strand.isEmpty isLast carried i cur next ↔
      carried = i.currency ∧ i.currency = mCurrency := by
  have hc : ¬cur.isOffer := by
    have := he.2.1
    simp only [isMAccount, Bool.and_eq_true, decide_eq_true_eq] at this
    simp [isOffer, this.1]
  unfold PairCarries
  rw [if_neg fun hpa => hc hpa.1, if_neg (mt nativeStart_iff.1 hst)]
  exact and_congr_right fun _ => ⟨fun h => h he, fun h _ => h⟩

omit [OtherExec X] in
theorem pairCarries_book (hn : next.isOffer) (hst : ¬NativeStart b cur) :
    PairCarries b.strand.isEmpty isLast carried i cur next ↔ carried = i.currency := by
  have hne' := isOffer_iff.1 hn
  unfold PairCarries
  rw [if_neg fun hpa => hne' hpa.2, if_neg (mt nativeStart_iff.1 hst)]
  exact and_iff_left fun h => absurd h.2.2 hne'

theorem Issue.currency_bookSide (i : Issue) : i.bookSide.currency = i.currency := by
  unfold bookSide
  split
  next h => exact h.symm
  · rfl

variable (hi : i = cur.issueFrom b.curIssue) (hp : Placed b cur w)

include hi hp

omit [OtherExec X] in
theorem Placed.enter_direct (hc : i.currency ≠ mCurrency) (hs : i.account ≠ mAccount) :
    w = i ↔ w.currency = i.currency := by
  refine ⟨fun h => h ▸ rfl, fun h => ?_⟩
  subst hi
  rcases hp.issued (h ▸ hc) h with h | ha
  · exact h
  · exact absurd (by simp [issueFrom, ha]) hs

omit [OtherExec X] in
theorem Placed.enter_book (hst : ¬NativeStart b cur) (hco : isConsistent i.bookSide) :
    w = i.bookSide ↔ w.currency = i.currency := by
  refine ⟨fun h => h ▸ i.currency_bookSide, fun h => ?_⟩
  by_cases hc : i.currency = mCurrency
  · rw [bookSide, if_pos hc]
    refine hp.native (h.trans hc) fun hem => hst ⟨hem, ?_⟩
    rw [← hc, ← h]
    exact hp.start hem
  rw [bookSide, if_neg hc] at hco ⊢
  refine (Placed.enter_direct hi hp hc ?_).2 h
  simpa [isConsistent, hc] using hco

end Pairs

section Steps
variable {i w o : Issue}

/-- No line of the ledger is in the native currency. -/
def NoNativeLines (view : PaymentSandbox) : Prop :=
  ∀ a a', view.view.get (keylet.line a a' mCurrency) = none

omit [OtherExec X] in
theorem Placed.skip (hp : Placed b cur w) (hi : i = cur.issueFrom b.curIssue) (hcur : cur.isOffer)
    (hne : next.isAccount) (hacc : i.account = next.getAccountID ∨ next.getAccountID = mAccount) :
    Placed { b with curIssue := i } next w where
  start h := absurd (hp.start h).1 (isOffer_iff.1 hcur)
  native := hp.native
  issued hc hsync := by
    rcases hacc with hacc | hacc
    · left
      -- at an offer the walk is at its issue
      have hwi : w = i := by
        rw [hi]
        refine (hp.issued hc (hp.offer hcur hc)).resolve_right fun h => ?_
        simp [isOffer, h] at hcur
      obtain ⟨wc, wa⟩ := w
      have hwa : wa = next.getAccountID := by rw [← hacc, ← hwi]
      rw [← account_issueFrom hne i] at hwa
      exact congrArg₂ Issue.mk hsync hwa
    right
    obtain ⟨a, ha⟩ := Option.isSome_iff_exists.1 hne
    rw [getAccountID, ha] at hacc
    rw [ha]
    exact congrArg some hacc
  offer h := absurd hne (isOffer_iff.1 h)

variable {strand : List (PayStep (MadeStep X))}

variable {seen : Seen}

omit [OtherExec X] in
theorem Placed.of_direct (hne : strand ≠ []) (hc : i.currency ≠ mCurrency)
    (hn : next.isAccount) : Placed ⟨strand, i, seen⟩ next ⟨i.currency, next.getAccountID⟩ where
  start h := absurd h hne
  native h := absurd h hc
  issued _ hs := .inl (congrArg₂ Issue.mk hs (account_issueFrom hn i).symm)
  offer h := absurd hn (isOffer_iff.1 h)

omit [OtherExec X] in
theorem Placed.of_book (hne : strand ≠ []) :
    Placed ⟨strand, i, seen⟩ next (next.issueFrom i).bookSide where
  start h := absurd h hne
  native hc _ := by
    rw [currency_bookSide] at hc
    exact if_pos hc
  issued hc _ := by
    rw [currency_bookSide] at hc
    exact .inl (if_neg hc)
  offer _ _ := currency_bookSide _

omit [OtherExec X] in
theorem Placed.of_first (hne : strand ≠ []) :
    Placed ⟨strand, i, seen⟩ next mIssue where
  start h := absurd h hne
  native _ _ := rfl
  issued h := absurd rfl h
  offer _ h := absurd rfl h

omit [OtherExec X] in
theorem Placed.initial {start : Issue} {c : Currency} {src : AccountID} (hc : start.currency = c) :
    Placed (⟨[], start, {}⟩ : StrandBuild (MadeStep X))
      ⟨some src, some start.currency, some start.account⟩ ⟨c, src⟩ where
  start _ := ⟨rfl, congrArg some hc⟩
  native _ h := absurd rfl h
  issued _ _ := .inl (congrArg₂ Issue.mk hc.symm rfl)
  offer h := absurd h (by simp [isOffer])

theorem DirectMade.issued {d : DirectStepI} (hli : NoNativeLines p.view)
    (made : DirectMade p seen d) : d.currency ≠ mCurrency := by
  intro hc
  refine made.line ?_
  rw [hc]
  exact hli _ _

/-- One pair, before the last: the walk goes on at the next element, or has ended. -/
theorem PairLinked.carries (hli : NoNativeLines p.view)
    (h : PairLinked p b cur next false i b') (hi : i = cur.issueFrom b.curIssue)
    (hw : walkStrand o b.strand = some w) (hp : Placed b cur w) :
    (PairCarries b.strand.isEmpty false w.currency i cur next →
      ∃ w', walkStrand o b'.strand = some w' ∧ Placed b' next w' ∧
        w'.currency = carriedOn b.strand.isEmpty w.currency i cur next) ∧
    (¬PairCarries b.strand.isEmpty false w.currency i cur next →
      walkStrand o b'.strand = none) := by
  cases h with
  | skip hcur hne ha =>
    rw [pairCarries_skip hcur hne ha]
    refine ⟨fun _ => ⟨w, hw, hp.skip hi hcur hne ha, ?_⟩, fun h => absurd h (by simp)⟩
    rw [carriedOn, if_neg fun h => isOffer_iff.1 h.1 hne]
  | direct d hne hst he hof hd made =>
    rw [pairCarries_direct hst he hof]
    obtain ⟨hs, hdst, hcur⟩ := hd
    have hc : i.currency ≠ mCurrency := hcur ▸ made.issued hli
    have hen := Placed.enter_direct hi hp hc (hs ▸ made.src)
    have hwa : walkStrand o (b.strand ++ [.direct d]) =
        if w = i then some ⟨i.currency, next.getAccountID⟩ else none := by
      rw [walkStrand_snoc hw, PayStep.walk, hs, hcur, hdst]
    rw [hwa]
    refine ⟨fun h => ⟨_, if_pos (hen.2 h), .of_direct (by simp) hc hne, ?_⟩,
      fun h => if_neg (mt hen.1 h)⟩
    rw [carriedOn, if_neg fun h => isOffer_iff.1 h.1 hne]
    exact h.symm
  | first hst =>
    have hwc : w.currency = mCurrency := by
      have := (hp.start hst.1).2
      rw [hst.2.2] at this
      exact (Option.some.inj this).symm
    refine ⟨fun _ => ⟨mIssue, ?_, .of_first (by simp), ?_⟩,
      fun h => absurd (pairCarries_first hst) h⟩
    · rw [walkStrand_snoc hw]
      simp [PayStep.walk, hwc, mIssue]
    rw [carriedOn, if_neg, hwc]
    · rfl
    · simp [nativeStart_iff.2 hst]
  | last _ he => exact absurd he.1 (by simp)
  | book hne hst made =>
    rw [pairCarries_book hne hst]
    have hen := Placed.enter_book hi hp hst made.consistent
    have hwa : walkStrand o (b.strand ++
          [.other ⟨.book i.bookSide (next.issueFrom i).bookSide, OtherExec.fresh⟩]) =
        if w = i.bookSide then some (next.issueFrom i).bookSide else none := by
      rw [walkStrand_snoc hw, PayStep.walk]
    rw [hwa]
    refine ⟨fun h => ⟨_, if_pos (hen.2 h), .of_book (by simp), ?_⟩,
      fun h => if_neg (mt hen.1 h)⟩
    rw [carriedOn, if_pos, currency_bookSide]
    · rfl
    · exact ⟨hne, by simpa using mt nativeStart_iff.1 hst⟩

/-- The last pair: the walk ends at the account of the last element, in the currency that the
elements before it name. -/
theorem PairLinked.carries_last (hli : NoNativeLines p.view) (h : PairLinked p b cur next true i b')
    (hi : i = cur.issueFrom b.curIssue) (hw : walkStrand o b.strand = some w)
    (hp : Placed b cur w) (hne : next.isAccount) (hdst : next.getAccountID ≠ mAccount)
    (hst : ¬NativeStart b cur) (hna : i.currency = mCurrency → cur.isAccount) :
    walkStrand o b'.strand = some ⟨i.currency, next.getAccountID⟩ ↔
      PairCarries b.strand.isEmpty true w.currency i cur next := by
  cases h with
  | skip hcur hne ha =>
    rw [pairCarries_skip hcur hne ha]
    have ha := ha.resolve_right hdst
    have hc : i.currency ≠ mCurrency := fun h => isOffer_iff.1 hcur (hna h)
    rw [hw, ← ha]
    simp only [Option.some.injEq, true_implies]
    refine Placed.enter_direct hi hp hc ?_
    rwa [ha]
  | direct d hne hst he hof hd made =>
    rw [pairCarries_direct hst he hof]
    obtain ⟨hs, hdst, hcur⟩ := hd
    have hc : i.currency ≠ mCurrency := hcur ▸ made.issued hli
    rw [walkStrand_snoc hw, PayStep.walk, hs, hcur, hdst,
      ← Placed.enter_direct hi hp hc (hs ▸ made.src)]
    simp
  | first h => exact absurd h hst
  | last _ he =>
    rw [pairCarries_last hst he]
    rw [walkStrand_snoc hw, PayStep.walk]
    simp only [if_true]
    constructor
    · intro h
      split at h
      next hwc =>
        have : mCurrency = i.currency := congrArg Issue.currency (Option.some.inj h)
        exact ⟨hwc.trans this, this.symm⟩
      · cases h
    · rintro ⟨hwc, hc⟩
      rw [if_pos (hwc.trans hc), hc]
  | book hof => exact absurd hne (isOffer_iff.1 hof)

/-- The elements end at `dst`, after those that lead to the issue `deliver`. -/
structure Arrives (deliver : Currency) (dst : AccountID) (c : Currency) (es : List STPathElement) :
    Prop where
  last : ∀ e ∈ es.getLast?, e.account = some dst
  currency : namedCurrency c es.dropLast = deliver
  native : deliver = mCurrency → ∀ e ∈ es.dropLast.getLast?, e.isAccount

theorem Arrives.tail {deliver : Currency} {dst : AccountID} {c : Currency} {es : List STPathElement}
    (h : Arrives deliver dst c (cur :: next :: es)) (hes : es ≠ []) :
    Arrives deliver dst (cur.currency.getD c) (next :: es) := by
  obtain ⟨hl, hc, hna⟩ := h
  obtain ⟨e, es, rfl⟩ := exists_cons_of_ne_nil hes
  refine ⟨by simpa using hl, by simpa [namedCurrency] using hc, ?_⟩
  intro hd x hx
  refine hna hd x ?_
  simpa using hx

/-- A strand leads to the destination exactly if along its path each step is for the currency that
those before it carry. -/
theorem linkAll_walk (hli : NoNativeLines p.view) {deliver : Currency} {dst : AccountID}
    (hd : dst ≠ mAccount) {cur next : STPathElement} {rest : List STPathElement}
    (hes : Arrives deliver dst b.curIssue.currency (cur :: next :: rest))
    (hlo : NativeStart b cur → rest ≠ []) (h : linkAll p b (cur :: next :: rest) = .ok b')
    (hw : walkStrand o b.strand = some w) (hp : Placed b cur w) :
    walkStrand o b'.strand = some ⟨deliver, dst⟩ ↔
      Carries b.strand.isEmpty w.currency b.curIssue (cur :: next :: rest) := by
  induction rest generalizing b cur next w with
  | nil =>
    obtain ⟨b1, h1, h⟩ := bind_ok.1 h
    cases h
    have hl := StrandBuild.link_ok h1
    have ha : next.account = some dst := hes.last next (by simp)
    have hcur : (cur.issueFrom b.curIssue).currency = deliver := hes.currency
    have := hl.carries_last hli rfl hw hp (by simp [isAccount, ha])
      (by simpa [getAccountID, ha] using hd) (fun h => hlo h rfl)
      (fun hc => hes.native (hcur ▸ hc) cur (by simp))
    rw [hcur, getAccountID, ha] at this
    simpa [Carries] using this
  | cons e rest ih =>
    obtain ⟨b1, h1, h⟩ := bind_ok.1 h
    have hl := StrandBuild.link_ok h1
    obtain ⟨hgo, hb⟩ := hl.carries hli rfl hw hp
    by_cases hc : PairCarries b.strand.isEmpty false w.currency (cur.issueFrom b.curIssue) cur next
    · obtain ⟨_, hw', hp', hwc⟩ := hgo hc
      have hne := hl.strand_ne fun h => (hp.start h).1
      have hta : Arrives deliver dst b1.curIssue.currency (next :: e :: rest) := by
        rw [hl.curIssue]
        exact hes.tail (by simp)
      rw [ih hta (fun h => absurd h.1 hne) h hw' hp', hwc, hl.curIssue,
        isEmpty_eq_false_iff.2 hne]
      exact (and_iff_right hc).symm
    have hno : walkStrand o b'.strand = none := by
      obtain ⟨_, hmo⟩ := linkAll_grows h
      rw [← hmo, walkStrand_append, hb hc]
      rfl
    rw [hno]
    simp [Carries, hc]

end Steps

/-! ### The elements of a path -/

section PathElements
variable {src dst : AccountID} {deliver cur : Issue} {sendMax : Option Issue} {path : STPath}
  {c : Currency}

theorem namedCurrency_snoc (c : Currency) (es : List STPathElement) (e : STPathElement) :
    namedCurrency c (es ++ [e]) = e.currency.getD (namedCurrency c es) := by
  simp [namedCurrency]

theorem find?_currency (c : Currency) (es : List STPathElement) :
    ((es.reverse.find? (·.currency.isSome)).map (·.getCurrency)).getD c = namedCurrency c es := by
  induction es using reverseRecOn with
  | nil => rfl
  | append_singleton es e ih =>
    rw [namedCurrency_snoc, reverse_append, reverse_singleton, singleton_append, find?_cons]
    cases h : e.currency with
    | none => simpa using ih
    | some _ => simp [h, getCurrency]

theorem STPathElement.eq_lastNode {e : STPathElement} (h : e.eq { account := some dst }) :
    e.account = some dst ∧ e.getCurrency = 0 := by
  simp only [eq, Bool.and_eq_true, decide_eq_true_eq] at h
  obtain ⟨⟨⟨hacc, hid⟩, hc⟩, -⟩ := h
  obtain ⟨a, ha⟩ := Option.isSome_iff_exists.1 hacc
  refine ⟨?_, hc⟩
  simpa [getAccountID, ha] using hid

theorem arrives_lastNode {pes : List STPathElement} (hdst : dst ≠ mAccount)
    (hn : namedCurrency c pes = deliver.currency)
    (hna : deliver.currency = mCurrency →
      ∃ e, pes.getLast? = some e ∧ e.account = some mAccount) :
    let pes' :=
      if pes.getLast?.any (·.eq { account := some dst }) then pes
      else pes ++ [{ account := some dst }]
    pes <+: pes' ∧ Arrives deliver.currency dst c pes' := by
  split
  next hla =>
    obtain ⟨e, he, heq⟩ := (Option.any_eq_true _ _).1 hla
    obtain ⟨ha, hze⟩ := eq_lastNode heq
    obtain ⟨_, rfl⟩ := getLast?_eq_some_iff.1 he
    -- the issue to deliver is not native, or the last account would not be `dst`
    have hiss : deliver.currency ≠ mCurrency := by
      intro hd
      obtain ⟨e', he', ha'⟩ := hna hd
      rw [he] at he'
      cases he'
      rw [ha] at ha'
      exact hdst (Option.some.inj ha')
    refine ⟨prefix_rfl, ?_, ?_, fun h => absurd h hiss⟩
    · intro e' he'
      rw [he] at he'
      cases he'
      exact ha
    rw [namedCurrency_snoc] at hn
    cases hc : e.currency with
    | none => simpa [hc] using hn
    | some _ =>
      simp only [getCurrency, hc, Option.getD_some] at hze hn
      exact absurd (hn.symm.trans hze) hiss
  next =>
    refine ⟨prefix_append _ _, by simp, by simpa using hn, fun hd e he => ?_⟩
    obtain ⟨e', he', ha⟩ := hna hd
    rw [dropLast_concat, he'] at he
    cases he
    simp [isAccount, ha]

theorem named_deliverAccount {pes : List STPathElement} (hdst : dst ≠ mAccount)
    (hde : isConsistent deliver) (hna : namedCurrency c pes = deliver.currency) :
    let pes' :=
      if pes.getLast?.any (·.account = some deliver.account) ∨ dst = deliver.account then pes
      else pes ++ [{ account := some deliver.account }]
    pes <+: pes' ∧ namedCurrency c pes' = deliver.currency ∧
      (deliver.currency = mCurrency →
        ∃ e, pes'.getLast? = some e ∧ e.account = some mAccount) := by
  have ha : deliver.currency = mCurrency → deliver.account = mAccount := by
    intro h
    simpa [isConsistent, h] using hde
  split
  next h =>
    refine ⟨prefix_rfl, hna, fun hd => ?_⟩
    rw [ha hd] at h
    obtain ⟨e, he, ha'⟩ := (Option.any_eq_true _ _).1 (h.resolve_right hdst)
    exact ⟨e, he, of_decide_eq_true ha'⟩
  next =>
    refine ⟨prefix_append _ _, ?_, fun hd => ⟨_, getLast?_concat, ?_⟩⟩
    · rw [namedCurrency_snoc]
      exact hna
    · rw [ha hd]

/-- The offer into the issue to deliver is added when its currency is not in force. -/
theorem named_deliverOffer (c : Currency) (deliver : Issue) (pes : List STPathElement) :
    let pes' :=
      if namedCurrency c pes ≠ deliver.currency then
        pes ++ [{ currency := some deliver.currency, issuer := some deliver.account }]
      else pes
    pes <+: pes' ∧ namedCurrency c pes' = deliver.currency := by
  split
  next =>
    refine ⟨prefix_append _ _, ?_⟩
    rw [namedCurrency_snoc]
    rfl
  next h => exact ⟨prefix_rfl, not_not.1 h⟩

/-- What `pathElements` begins with. -/
def pathStart (src : AccountID) (sendMax : Option Issue) (cur : Issue) (path : STPath) :
    List STPathElement :=
  ⟨some src, some cur.currency, some cur.account⟩ ::
    ((match sendMax with
      | none => []
      | some i =>
        if i.account ≠ src ∧ !path.head?.any (fun e => e.account = some i.account) then
          [{ account := some i.account }]
        else []) ++ path)

theorem pathElements_arrives (hdst : dst ≠ mAccount) (hde : isConsistent deliver)
    (c : Currency) (src : AccountID) (sendMax : Option Issue) (cur : Issue) (path : STPath) :
    pathStart src sendMax cur path <+: pathElements src dst deliver sendMax cur path ∧
      Arrives deliver.currency dst c (pathElements src dst deliver sendMax cur path) ∧
      (deliver.currency = mCurrency →
        ∃ e ∈ pathElements src dst deliver sendMax cur path, e.account = some mAccount) := by
  have hst : ∀ c', namedCurrency c' (pathStart src sendMax cur path) =
      namedCurrency c (pathStart src sendMax cur path) := fun _ => rfl
  obtain ⟨hp1, hna1⟩ := named_deliverOffer c deliver (pathStart src sendMax cur path)
  obtain ⟨hp2, hna2, hna⟩ := named_deliverAccount hdst hde hna1
  obtain ⟨hp3, har⟩ := arrives_lastNode hdst hna2 hna
  rw [← hst 0, ← find?_currency] at hp1 hp2 hp3 hna har
  refine ⟨hp1.trans (hp2.trans hp3), har, fun hd => ?_⟩
  obtain ⟨e, he, ha⟩ := hna hd
  exact ⟨e, hp3.subset (mem_of_getLast? he), ha⟩

theorem pathStart_native {i : Issue} (hs : src ≠ mAccount) (hi : i.account = mAccount)
    (cur : Issue) (path : STPath) :
    ∃ e ∈ pathStart src (some i) cur path, e.account = some mAccount := by
  unfold pathStart
  dsimp only
  rw [hi]
  split
  · exact ⟨{ account := some mAccount }, by simp, rfl⟩
  next h =>
    simp only [ne_eq, hs.symm, not_false_eq_true, true_and, Bool.not_eq_true',
      Bool.not_eq_false] at h
    obtain ⟨e, he, ha⟩ := (Option.any_eq_true _ _).1 h
    exact ⟨e, by simp [mem_of_head? he], of_decide_eq_true ha⟩

/-- There are two elements at least, and three when the source is native. -/
theorem pathElements_shape (hs : src ≠ mAccount) (hd : dst ≠ mAccount)
    (hdel : isConsistent deliver) (hse : ∀ i ∈ sendMax, isConsistent i)
    (hcur : cur.currency = (sendMax.map (·.currency)).getD deliver.currency) (path : STPath) :
    ∃ next rest, pathElements src dst deliver sendMax cur path =
        ⟨some src, some cur.currency, some cur.account⟩ :: next :: rest ∧
      (cur.currency = mCurrency → rest ≠ []) := by
  obtain ⟨hpre, har, hde⟩ := pathElements_arrives hd hdel 0 src sendMax cur
    path
  have hna : cur.currency = mCurrency →
      ∃ e ∈ pathElements src dst deliver sendMax cur path, e.account = some mAccount := by
    intro hc
    rw [hcur] at hc
    cases sendMax with
    | none => exact hde hc
    | some i =>
      have hi : i.account = mAccount := by
        have hc : i.currency = mCurrency := hc
        simpa [isConsistent, hc] using hse i rfl
      obtain ⟨e, he, ha⟩ := pathStart_native hs hi cur path
      exact ⟨e, hpre.subset he, ha⟩
  obtain ⟨more, hmo⟩ := hpre
  rw [← hmo] at har hde hna ⊢
  unfold pathStart at *
  rw [cons_append] at *
  generalize _ ++ more = tail at *
  cases tail with
  | nil =>
    -- then the currency to deliver is native, and `mAccount` is on the path
    obtain ⟨e, he, ha⟩ := hde har.currency.symm
    cases mem_singleton.1 he
    exact absurd (Option.some.inj ha) hs
  | cons next rest =>
    refine ⟨next, rest, rfl, fun hc hre => ?_⟩
    subst hre
    obtain ⟨e, he, ha⟩ := hna hc
    rcases mem_cons.1 he with rfl | he
    · exact hs (Option.some.inj ha)
    cases mem_singleton.1 he
    rw [har.last next (by simp)] at ha
    exact hd (Option.some.inj ha)

end PathElements

/-! ### The strands of a payment -/

variable {view : PaymentSandbox} {src dst : AccountID} {deliver : Issue} {sendMax : Option Issue}
  {path : STPath} {ownerPays : Bool} {strand : List (PayStep (MadeStep X))}

/-- The currency that a payment starts with. -/
def sourceCurrency (deliver : Issue) (sendMax : Option Issue) : Currency :=
  (sendMax.map (·.currency)).getD deliver.currency

/-- The current issue with which `toStrand` begins. -/
def strandStart (src : AccountID) (deliver : Issue) (sendMax : Option Issue) : Issue :=
  if sourceCurrency deliver sendMax = mCurrency then mIssue
  else ⟨sourceCurrency deliver sendMax, src⟩

/-- The path keeps to the currency that its steps carry. -/
abbrev PathCarries (src dst : AccountID) (deliver : Issue) (sendMax : Option Issue) (path : STPath) :
    Prop :=
  Carries true (sourceCurrency deliver sendMax) (strandStart src deliver sendMax)
    (pathElements src dst deliver sendMax (strandStart src deliver sendMax) path)

theorem linkAll_start {start : Issue} {es : List STPathElement} {b : StrandBuild (MadeStep X)}
    (hc : cur.isAccount) (h : linkAll p { curIssue := start } (cur :: next :: es) = .ok b) :
    b.strand ≠ [] ∧
      (∀ k s, b.strand[k]? = some s → s.isEndpoint → k = 0 ∨ k + 1 = b.strand.length) ∧
      b.Distinct := by
  refine ⟨?_, linkAll_endpoints ?_ h, linkAll_distinct ?_ h⟩
  · obtain ⟨_, h1, h⟩ := bind_ok.1 h
    exact (linkAll_grows h).ne_nil ((StrandBuild.link_ok h1).strand_ne fun _ => hc)
  · exact fun k s hk => absurd hk (by simp)
  · constructor <;> simp

/-- The strand that `toStrand` makes is connected and free of loops exactly if the path keeps to the
currency that its steps carry. -/
theorem strand_connected_iff (hlines : NoNativeLines view)
    (h : toStrand view src dst deliver sendMax path ownerPays = .ok strand) :
    Connected ⟨sourceCurrency deliver sendMax, src⟩ ⟨deliver.currency, dst⟩ strand ↔
      PathCarries src dst deliver sendMax path := by
  unfold toStrand at h
  split at h
  · cases h
  next hok =>
  simp only [not_or, Bool.not_eq_true', Bool.not_eq_false] at hok
  obtain ⟨hs, hd, hde, hm⟩ := hok
  obtain ⟨b, hb, h⟩ := bind_ok.1 h
  cases h
  change linkAll _ { curIssue := strandStart src deliver sendMax }
    (pathElements src dst deliver sendMax (strandStart src deliver sendMax) path) = .ok b at hb
  have hcur : (strandStart src deliver sendMax).currency = sourceCurrency deliver sendMax := by
    unfold strandStart
    split
    next hc => exact hc.symm
    · rfl
  have hse : ∀ i ∈ sendMax, isConsistent i := by
    intro i hi
    obtain rfl : sendMax = some i := hi
    simpa using hm
  obtain ⟨next, _, hes, hlo⟩ := pathElements_shape hs hd hde hse hcur path
  have har := (pathElements_arrives hd hde (strandStart src deliver sendMax).currency
    src sendMax (strandStart src deliver sendMax) path).2.1
  unfold PathCarries
  rw [hes] at hb har ⊢
  obtain ⟨hne, hen, hdi⟩ := linkAll_start rfl hb
  have hwa := linkAll_walk hlines hd har
    (fun hst => hlo (Option.some.inj hst.2.2)) hb rfl (.initial hcur)
  constructor
  · exact fun h => hwa.1 h.walk
  intro h
  refine ⟨hne, hwa.2 h, hen, ?_, ?_, ?_⟩
  · rw [hdi.srcs]
    exact nodup_reverse.2 hdi.nodupSrcs
  · rw [hdi.dsts]
    exact nodup_reverse.2 hdi.nodupDsts
  · rw [hdi.books]
    exact nodup_reverse.2 hdi.nodupBooks

/-! ### A gateway with two currencies -/

namespace Gateway

/-- Steps that are made and not executed. -/
instance : OtherExec Unit where
  fresh := ()
  rev _ _ _ _ := .error (.fault .logicError)
  fwd _ _ _ _ := .error (.fault .logicError)
  cachedIn _ := none
  cachedOut _ := none
  redeems _ _ _ := .ok false
  amendmentRIPD1443 _ := true

def line (c : Currency) : MTChainState where
  balance := .issued ⟨c, 1⟩ 0
  lowLimit := .issued ⟨c, 4⟩ 0
  highLimit := .issued ⟨c, 8⟩ 100

/-- The customer 8 trusts the gateway 4 for the currencies 5 and 6. -/
def ledger : State
  | .account 2 => some (.accountRoot { account := 2, sequence := 1, balance := 500 })
  | .account 4 => some (.accountRoot { account := 4, sequence := 1, balance := 500 })
  | .account 8 => some (.accountRoot { account := 8, sequence := 1, balance := 500 })
  | .line 4 8 5 => some (.mtchainState (line 5))
  | .line 4 8 6 => some (.mtchainState (line 6))
  | _ => none

def sandbox : PaymentSandbox where
  view := ledger
  rules := ⟨true, true, true⟩

theorem ledger_native (low high : AccountID) : ledger (.line low high mCurrency) = none := by
  unfold ledger
  split <;> simp_all [mCurrency]

theorem noNativeLines : NoNativeLines sandbox := by
  intro a a'
  have : ledger (getMtchainStateIndex a a' mCurrency) = none := by
    unfold getMtchainStateIndex
    split <;> exact ledger_native _ _
  simp [State.get, sandbox, keylet.line, this]

/-- The strand to `deliver` that begins in the native currency. -/
def strandTo (deliver : Issue) (path : STPath) :
    Except StrandError (List (PayStep (MadeStep Unit))) :=
  toStrand sandbox 2 8 deliver (some mIssue) path true

end Gateway

/-- A native payment through the book of a currency. -/
theorem strand_connected_iff_sample : ∃ strand, Gateway.strandTo ⟨5, 4⟩ [] = .ok strand ∧
    Connected ⟨mCurrency, 2⟩ ⟨5, 8⟩ strand := by
  have h : (Gateway.strandTo ⟨5, 4⟩ []).toOption.isSome = true := by decide +kernel
  cases hs : Gateway.strandTo ⟨5, 4⟩ [] with
  | error e => rw [hs] at h; cases h
  | ok strand =>
    have hca : PathCarries 2 8 ⟨5, 4⟩ (some mIssue) [] := by decide +kernel
    exact ⟨strand, rfl, (strand_connected_iff Gateway.noNativeLines hs).2 hca⟩

/-- The path buys the gateway's currency 5 and then names the gateway with the currency 6. The
strand sells 5 as if it were 6. -/
theorem strand_changes_currency : NoNativeLines Gateway.sandbox ∧
    ∃ strand, Gateway.strandTo ⟨6, 4⟩ [{ currency := some 5, issuer := some 4 },
        { account := some 4, currency := some 6 }] = .ok strand ∧
      strand.filterMap PayStep.bookOut = [⟨5, 4⟩] ∧
      strand.filterMap PayStep.directSrc = [⟨6, 4⟩] ∧
      ¬Connected ⟨mCurrency, 2⟩ ⟨6, 8⟩ strand := by
  have h : (Gateway.strandTo ⟨6, 4⟩ [{ currency := some 5, issuer := some 4 },
      { account := some 4, currency := some 6 }]).toOption.map (fun strand =>
        (strand.filterMap PayStep.bookOut, strand.filterMap PayStep.directSrc,
          walkStrand ⟨mCurrency, 2⟩ strand)) = some ([⟨5, 4⟩], [⟨6, 4⟩], none) := by
    decide +kernel
  refine ⟨Gateway.noNativeLines, ?_⟩
  cases hs : Gateway.strandTo ⟨6, 4⟩ [{ currency := some 5, issuer := some 4 },
      { account := some 4, currency := some 6 }] with
  | error e => rw [hs] at h; cases h
  | ok strand =>
    rw [hs] at h
    simp only [Except.toOption, Option.map_some, Option.some.injEq, Prod.mk.injEq] at h
    obtain ⟨hbo, hsr, hwa⟩ := h
    refine ⟨strand, rfl, hbo, hsr, fun hc => ?_⟩
    have := hc.walk
    rw [hwa] at this
    cases this

end FinPal
