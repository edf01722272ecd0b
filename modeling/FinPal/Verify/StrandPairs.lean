import FinPal.Paths.StepMakers

/-!
# What a strand is made of

`link` makes at most one step for a pair of elements, and `PairLinked` says which. Whatever the
path, a strand comes to no issue twice, and endpoints are only at its ends.
-/

namespace FinPal
open Store STPathElement StrandBuild PayStep
variable {X : Type} [OtherExec X]

/-! ### What one pair of elements adds -/

/-- A native side of a book is `mIssue`. -/
def Issue.bookSide (i : Issue) : Issue := if i.currency = mCurrency then mIssue else i

/-- The direct step from `a` to `b` passes its check after the issues in `seen`. -/
structure DirectMade (p : StrandParams) (seen : Seen) (d : DirectStepI) : Prop where
  src : d.src ≠ mAccount
  dst : d.dst ≠ mAccount
  line : p.view.view.get (keylet.line d.src d.dst d.currency) ≠ none
  newSrc : (⟨d.currency, d.src⟩ : Issue) ∉ seen.directSrc
  newDst : (⟨d.currency, d.dst⟩ : Issue) ∉ seen.directDst

/-- The book step from `in_` to `out` passes its check. -/
structure BookMade (seen : Seen) (in_ out : Issue) : Prop where
  consistent : isConsistent in_
  newOut : out ∉ seen.bookOuts

omit [OtherExec X] in
theorem DirectStepI.checkLine_ok {ctx : StrandContext (MadeStep X)} {d : DirectStepI}
    {sleLine : MTChainState} (h : d.checkLine ctx = .ok sleLine) :
    d.src ≠ 0 ∧ d.dst ≠ 0 ∧ ctx.view.view.get (keylet.line d.src d.dst d.currency) ≠ none := by
  unfold DirectStepI.checkLine at h
  split at h
  · cases h
  next he =>
  obtain ⟨hs, hd, -⟩ := not_or.1 he |>.imp id not_or.1
  refine ⟨hs, hd, ?_⟩
  split at h
  · cases h
  · cases h
  next hl => rw [hl]; exact Option.some_ne_none _

theorem DirectStepI.checkLoop_ok {ctx : StrandContext (MadeStep X)} {d : DirectStepI}
    {seen : Seen} (h : d.checkLoop ctx = .ok seen) :
    (⟨d.currency, d.src⟩ : Issue) ∉ ctx.seen.directSrc ∧
      (⟨d.currency, d.dst⟩ : Issue) ∉ ctx.seen.directDst ∧
      seen = { ctx.seen with
        directSrc := ⟨d.currency, d.src⟩ :: ctx.seen.directSrc
        directDst := ⟨d.currency, d.dst⟩ :: ctx.seen.directDst } := by
  unfold DirectStepI.checkLoop at h
  dsimp only at h
  split at h
  · cases h
  split at h
  · cases h
  next hn =>
  cases h
  exact ⟨(not_or.1 hn).1, (not_or.1 hn).2, rfl⟩

variable {r : PayStep (MadeStep X) × Seen} {i : Issue} {strand : List (PayStep (MadeStep X))}
  {es : List STPathElement} {b : StrandBuild (MadeStep X)} {p : StrandParams}

theorem makeDirectStepI_made {isLast : Bool}
    {a a' : AccountID} {c : Currency} (h : makeDirectStepI (b.ctx p isLast) a a' c = .ok r) :
    ∃ d, (d.src = a ∧ d.dst = a' ∧ d.currency = c) ∧ DirectMade p b.seen d ∧
      r = (.direct d, { b.seen with
        directSrc := ⟨d.currency, d.src⟩ :: b.seen.directSrc
        directDst := ⟨d.currency, d.dst⟩ :: b.seen.directDst }) := by
  obtain ⟨_, hch, h⟩ := bind_ok.1 h
  cases h
  obtain ⟨_, hl, hch⟩ := bind_ok.1 hch
  dsimp only at hch
  split at hch
  · cases hch
  obtain ⟨_, hlo, hch⟩ := bind_ok.1 hch
  obtain ⟨_, -, hch⟩ := bind_ok.1 hch
  split at hch
  · cases hch
  cases hch
  obtain ⟨hs, hd, hl⟩ := DirectStepI.checkLine_ok hl
  obtain ⟨hnS, hnD, rfl⟩ := DirectStepI.checkLoop_ok hlo
  exact ⟨_, ⟨rfl, rfl, rfl⟩, ⟨hs, hd, hl, hnS, hnD⟩, rfl⟩

theorem makeBookStep_ok {isLast : Bool}
    {in_ out : Issue} (h : makeBookStep (b.ctx p isLast) in_ out = .ok r) :
    BookMade b.seen in_.bookSide out.bookSide ∧
      r = (.other ⟨.book in_.bookSide out.bookSide, OtherExec.fresh⟩,
        { b.seen with bookOuts := out.bookSide :: b.seen.bookOuts }) := by
  change liftMake (BookStep.make (b.ctx p isLast) in_.bookSide out.bookSide) = .ok r at h
  unfold BookStep.make BookStep.check at h
  dsimp only at h
  split at h
  · cases h
  split at h
  · cases h
  next hco =>
  split at h
  · cases h
  next hn =>
  split at h
  · cases h
  cases h
  refine ⟨⟨?_, (not_or.1 hn).1⟩, rfl⟩
  simpa using (not_or.1 hco).1

theorem makeMEndpointStep_ok {isLast : Bool}
    {acc : AccountID} (h : liftMake (OtherStep.makeMEndpointStep (b.ctx p isLast) acc) = .ok r) :
    r = (.other ⟨.endpoint acc isLast, OtherExec.fresh⟩, b.seen) := by
  change liftMake (MEndpointStep.make (b.ctx p isLast) acc) = .ok r at h
  unfold MEndpointStep.make at h
  dsimp only at h
  split at h
  · cases h
  · cases h
    rfl

/-- The first pair begins with a native source. -/
def NativeStart (b : StrandBuild (MadeStep X)) (cur : STPathElement) : Prop :=
  b.strand = [] ∧ cur.isAccount ∧ cur.currency = some mCurrency

/-- The endpoint at `dst` is made for the last pair. -/
def NativeEnd (isLast : Bool) (cur next : STPathElement) : Prop :=
  isLast ∧ cur.isMAccount ∧ next.isAccount

/-- What `link` adds for a pair, with `i` the issue at its first element. -/
inductive PairLinked (p : StrandParams) (b : StrandBuild (MadeStep X)) (cur next : STPathElement)
    (isLast : Bool) (i : Issue) : StrandBuild (MadeStep X) → Prop
  | skip (hcur : cur.isOffer) (hnext : next.isAccount)
      (hacc : i.account = next.getAccountID ∨ next.getAccountID = mAccount) :
      PairLinked p b cur next isLast i { b with curIssue := i }
  | direct (d : DirectStepI) (hnext : next.isAccount) (hstart : ¬NativeStart b cur)
      (hend : ¬NativeEnd isLast cur next)
      (hoffer : cur.isOffer → i.account ≠ next.getAccountID ∧ next.getAccountID ≠ mAccount)
      (hd : d.src = i.account ∧ d.dst = next.getAccountID ∧ d.currency = i.currency)
      (made : DirectMade p b.seen d) :
      PairLinked p b cur next isLast i
        { strand := b.strand ++ [.direct d], curIssue := i
          seen := { b.seen with
            directSrc := ⟨d.currency, d.src⟩ :: b.seen.directSrc
            directDst := ⟨d.currency, d.dst⟩ :: b.seen.directDst } }
  | first (hstart : NativeStart b cur) :
      PairLinked p b cur next isLast i
        { b with
          strand := b.strand ++ [.other ⟨.endpoint cur.getAccountID isLast, OtherExec.fresh⟩]
          curIssue := i }
  | last (hstart : ¬NativeStart b cur) (hend : NativeEnd isLast cur next) :
      PairLinked p b cur next isLast i
        { b with
          strand := b.strand ++ [.other ⟨.endpoint next.getAccountID isLast, OtherExec.fresh⟩]
          curIssue := i }
  | book (hnext : next.isOffer) (hstart : ¬NativeStart b cur)
      (made : BookMade b.seen i.bookSide (next.issueFrom i).bookSide) :
      PairLinked p b cur next isLast i
        { strand := b.strand ++
            [.other ⟨.book i.bookSide (next.issueFrom i).bookSide, OtherExec.fresh⟩]
          curIssue := i
          seen := { b.seen with bookOuts := (next.issueFrom i).bookSide :: b.seen.bookOuts } }

variable {p : StrandParams} {b b' : StrandBuild (MadeStep X)} {cur next : STPathElement}
  {isLast : Bool}

omit [OtherExec X] in
theorem StrandBuild.push_ok {made : Except StrandError (PayStep (MadeStep X) × Seen)}
    (h : b.push made = .ok b') :
    ∃ r, made = .ok r ∧ b' = { b with strand := b.strand ++ [r.1], seen := r.2 } := by
  obtain ⟨r, hr, h⟩ := bind_ok.1 h
  cases h
  exact ⟨r, hr, rfl⟩

theorem STPathElement.isOffer_iff {e : STPathElement} : e.isOffer ↔ ¬e.isAccount := by
  simp [isOffer, isAccount]

theorem STPathElement.account_issueFrom {e : STPathElement} (h : e.isAccount) (i : Issue) :
    (e.issueFrom i).account = e.getAccountID := by
  obtain ⟨a, ha⟩ := Option.isSome_iff_exists.1 h
  simp [issueFrom, getAccountID, ha]

theorem StrandBuild.implied_eq (h : cur.isAccount → b.curIssue.account = cur.getAccountID) :
    b.implied p cur next = .ok (b, cur) := by
  unfold implied
  rw [if_neg]
  · rfl
  rintro ⟨hc, hmi⟩
  split at hmi <;> simp [h hc] at hmi

theorem exchange_toStep (hb : b.curIssue = i) (h : (do
      let (b, cur) ← b.exchange p cur next
      b.push (toStep (b.ctx p isLast) cur next b.curIssue)) = .ok b') :
    b.push (toStep (b.ctx p isLast) cur next i) = .ok b' := by
  obtain ⟨⟨_, _⟩, h1, h⟩ := bind_ok.1 h
  unfold exchange at h1
  split at h1
  · cases h1
    rwa [← hb]
  split at h1
  next hch =>
    obtain ⟨_, -, h1⟩ := bind_ok.1 h1
    cases h1
    obtain ⟨r, hr, -⟩ := push_ok h
    -- the implied offer and the account after it are no pair of a step
    simp [toStep, isAccount, isOffer, isMAccount] at hr
    obtain ⟨a, ha⟩ := Option.isSome_iff_exists.1 hch.1
    simp [ha] at hr
  · cases h1
    rwa [← hb]

theorem toStep_linked (hb : b.curIssue = i) (hpa : ¬(cur.isOffer ∧ next.isAccount))
    (ha : cur.isAccount → i.account = cur.getAccountID)
    (h : b.push (toStep (b.ctx p isLast) cur next i) = .ok b') :
    PairLinked p b cur next isLast i b' := by
  obtain ⟨strand, curIssue, seen⟩ := b
  obtain rfl : curIssue = i := hb
  obtain ⟨r, hr, rfl⟩ := push_ok h
  unfold toStep at hr
  split at hr
  next hfi =>
    obtain rfl := makeMEndpointStep_ok hr
    exact .first ⟨by simpa [ctx] using hfi.1, hfi.2⟩
  next hfi =>
  have hst : ¬NativeStart ⟨strand, curIssue, seen⟩ cur := by
    rintro ⟨hem, hre⟩
    exact hfi ⟨by simpa [ctx] using hem, hre⟩
  split at hr
  next hla =>
    obtain rfl := makeMEndpointStep_ok hr
    exact .last hst hla
  next hla =>
  split at hr
  next hac =>
    obtain ⟨d, hd, made, rfl⟩ := makeDirectStepI_made hr
    refine .direct d hac.2 hst hla ?_ ?_ made
    · exact fun hof => absurd hac.1 (isOffer_iff.1 hof)
    · rw [ha hac.1]
      exact hd
  next hac =>
  dsimp only at hr
  split at hr
  · cases hr
  have hne : next.isOffer := by
    rw [isOffer_iff]
    intro hne
    rw [isOffer_iff] at hpa
    exact hpa ⟨fun hc => hac ⟨hc, hne⟩, hne⟩
  have ho : (⟨next.currency.getD curIssue.currency, next.issuer.getD curIssue.account⟩ : _) =
      next.issueFrom curIssue := by
    have : next.account = _ := Option.isNone_iff_eq_none.1 hne
    simp [issueFrom, this]
  rw [ho] at hr
  obtain ⟨made, rfl⟩ := makeBookStep_ok hr
  exact .book hne hst made

theorem StrandBuild.link_ok (h : b.link p cur next isLast = .ok b') :
    PairLinked p b cur next isLast (cur.issueFrom b.curIssue) b' := by
  unfold link at h
  split at h
  · cases h
  dsimp only at h
  split at h
  next hpa =>
    have hof := isOffer_iff.1 hpa.1
    split at h
    next ha =>
      obtain ⟨r, hr, rfl⟩ := push_ok h
      obtain ⟨d, hd, made, rfl⟩ := makeDirectStepI_made hr
      refine .direct d hpa.2 ?_ ?_ (fun _ => ha) hd made
      · rintro ⟨-, hc, -⟩
        exact hof hc
      rintro ⟨-, hc, -⟩
      simp only [isMAccount, Bool.and_eq_true, decide_eq_true_eq] at hc
      simp [isAccount, hc.1] at hof
    next ha =>
      cases h
      refine .skip hpa.1 hpa.2 ?_
      by_contra hno
      exact ha (not_or.1 hno)
  next hpa =>
    rw [implied_eq (fun hc => account_issueFrom hc _)] at h
    have h := toStep_linked rfl hpa (fun hc => account_issueFrom hc _) (exchange_toStep rfl h)
    cases h with
    | skip hc hne ha => exact .skip hc hne ha
    | direct d hne hst he hof hd made => exact .direct d hne hst he hof hd made
    | first hst => exact .first hst
    | last hst he => exact .last hst he
    | book hne hst made => exact .book hne hst made

/-! ### Walking a strand -/

namespace PayStep

/-- Where a step leads when the strand has come to `i`, if it can be entered there. -/
def walk (i : Issue) : PayStep (MadeStep X) → Option Issue
  | direct d => if i = ⟨d.currency, d.src⟩ then some ⟨d.currency, d.dst⟩ else none
  | other s =>
    match s.connects with
    | .book in_ out => if i = in_ then some out else none
    | .endpoint acc isLast =>
      if i.currency = mCurrency then some ⟨mCurrency, if isLast then acc else mAccount⟩ else none

def isEndpoint : PayStep (MadeStep X) → Bool
  | direct _ => false
  | other s => match s.connects with | .book _ _ => false | .endpoint _ _ => true

/-- The issue at which a step between accounts starts. -/
def directSrc : PayStep (MadeStep X) → Option Issue
  | direct d => some ⟨d.currency, d.src⟩
  | other _ => none

def directDst : PayStep (MadeStep X) → Option Issue
  | direct d => some ⟨d.currency, d.dst⟩
  | other _ => none

/-- The issue that a book step gives. -/
def bookOut : PayStep (MadeStep X) → Option Issue
  | direct _ => none
  | other s => match s.connects with | .book _ out => some out | .endpoint _ _ => none

end PayStep

/-- The issue that a strand comes to from `i`, if each step can be entered. -/
def walkStrand (i : Issue) (strand : List (PayStep (MadeStep X))) : Option Issue :=
  strand.foldlM PayStep.walk i

omit [OtherExec X] in
theorem walkStrand_append (i : Issue) (strand : List (PayStep (MadeStep X)))
    (more : List (PayStep (MadeStep X))) :
    walkStrand i (strand ++ more) = (walkStrand i strand).bind (walkStrand · more) :=
  List.foldlM_append

omit [OtherExec X] in
theorem walkStrand_snoc {j : Issue} (h : walkStrand i strand = some j) (s : PayStep (MadeStep X)) :
    walkStrand i (strand ++ [s]) = s.walk j := by
  rw [walkStrand_append, h]
  simp [walkStrand]

/-- A strand that leads from `i` to `j`, with endpoints only at its ends, and does not come back to
an issue. -/
structure Connected (i j : Issue) (strand : List (PayStep (MadeStep X))) : Prop where
  nonempty : strand ≠ []
  walk : walkStrand i strand = some j
  endpoints : ∀ k s, strand[k]? = some s → s.isEndpoint → k = 0 ∨ k + 1 = strand.length
  srcs : (strand.filterMap PayStep.directSrc).Nodup
  dsts : (strand.filterMap PayStep.directDst).Nodup
  books : (strand.filterMap PayStep.bookOut).Nodup

/-! ### No loops -/

/-- The issues of the steps so far are the ones seen, each once. -/
structure StrandBuild.Distinct (b : StrandBuild (MadeStep X)) : Prop where
  srcs : b.strand.filterMap PayStep.directSrc = b.seen.directSrc.reverse
  dsts : b.strand.filterMap PayStep.directDst = b.seen.directDst.reverse
  books : b.strand.filterMap PayStep.bookOut = b.seen.bookOuts.reverse
  nodupSrcs : b.seen.directSrc.Nodup
  nodupDsts : b.seen.directDst.Nodup
  nodupBooks : b.seen.bookOuts.Nodup

namespace PairLinked
variable {i : Issue}

section
variable (h : PairLinked p b cur next isLast i b')
include h

theorem distinct (hb : b.Distinct) : b'.Distinct := by
  obtain ⟨hs, hd, hbo, hns, hnd, hnb⟩ := hb
  cases h with
  | skip => exact ⟨hs, hd, hbo, hns, hnd, hnb⟩
  | direct d _ _ _ _ _ made =>
    refine ⟨?_, ?_, ?_, List.nodup_cons.2 ⟨made.newSrc, hns⟩, List.nodup_cons.2 ⟨made.newDst, hnd⟩,
      hnb⟩
    · simp [directSrc, hs]
    · simp [directDst, hd]
    · simp [bookOut, hbo]
  | first | last =>
    refine ⟨?_, ?_, ?_, hns, hnd, hnb⟩
    · simp [directSrc, hs]
    · simp [directDst, hd]
    · simp [bookOut, hbo]
  | book _ _ made =>
    refine ⟨?_, ?_, ?_, hns, hnd, List.nodup_cons.2 ⟨made.newOut, hnb⟩⟩
    · simp [directSrc, hs]
    · simp [directDst, hd]
    · simp [bookOut, hbo]

theorem grows : b.strand <+: b'.strand := by
  cases h with
  | skip => exact List.prefix_rfl
  | direct | first | last | book => exact List.prefix_append _ _

theorem curIssue : b'.curIssue = i := by
  cases h <;> rfl

theorem strand_ne (hb : b.strand = [] → cur.isAccount) : b'.strand ≠ [] := by
  cases h with
  | skip hc => exact fun h => isOffer_iff.1 hc (hb h)
  | direct | first | last | book => simp

end
end PairLinked

theorem linkAll_distinct (hb : b.Distinct) (h : linkAll p b es = .ok b') : b'.Distinct := by
  induction es generalizing b with
  | nil => cases h; exact hb
  | cons _ es ih =>
    cases es with
    | nil => cases h; exact hb
    | cons _ _ =>
      obtain ⟨_, h1, h⟩ := bind_ok.1 h
      exact ih (link_ok h1 |>.distinct hb) h

theorem linkAll_grows (h : linkAll p b es = .ok b') : b.strand <+: b'.strand := by
  induction es generalizing b with
  | nil => cases h; exact List.prefix_rfl
  | cons _ es ih =>
    cases es with
    | nil => cases h; exact List.prefix_rfl
    | cons _ _ =>
      obtain ⟨_, h1, h⟩ := bind_ok.1 h
      exact (link_ok h1).grows.trans (ih h)

/-! ### Endpoints -/

omit [OtherExec X] in
theorem getElem?_snoc {s s' : PayStep (MadeStep X)} {k : ℕ} (h : (strand ++ [s])[k]? = some s') :
    strand[k]? = some s' ∨ k = strand.length ∧ s' = s := by
  rcases lt_or_ge k strand.length with hk | hk
  · left
    rwa [List.getElem?_append_left hk] at h
  right
  rw [List.getElem?_append_right hk, List.getElem?_singleton] at h
  split at h
  · cases h
    exact ⟨by omega, rfl⟩
  · cases h

/-- So far an endpoint is only at the start. -/
def EndpointFirst (strand : List (PayStep (MadeStep X))) : Prop :=
  ∀ k s, strand[k]? = some s → s.isEndpoint → k = 0

omit [OtherExec X] in
theorem EndpointFirst.snoc {s : PayStep (MadeStep X)} (h : EndpointFirst strand)
    (hs : s.isEndpoint → strand = []) : EndpointFirst (strand ++ [s]) := by
  intro k s' hk he
  rcases getElem?_snoc hk with hk | ⟨rfl, rfl⟩
  · exact h k s' hk he
  · simp [hs he]

omit [OtherExec X] in
theorem EndpointFirst.ends (h : EndpointFirst strand) (s : PayStep (MadeStep X)) (k : ℕ)
    (s' : PayStep (MadeStep X)) (hk : (strand ++ [s])[k]? = some s') (he : s'.isEndpoint) :
    k = 0 ∨ k + 1 = (strand ++ [s]).length := by
  rcases getElem?_snoc hk with hk | ⟨rfl, rfl⟩
  · exact .inl (h k s' hk he)
  · right
    simp

theorem PairLinked.endpointFirst (h : PairLinked p b cur next false i b')
    (hb : EndpointFirst b.strand) : EndpointFirst b'.strand := by
  cases h with
  | skip => exact hb
  | direct => exact hb.snoc (by simp [isEndpoint])
  | first hst => exact hb.snoc fun _ => hst.1
  | last _ he => exact absurd he.1 (by simp)
  | book => exact hb.snoc (by simp [isEndpoint])

theorem PairLinked.endpoints (h : PairLinked p b cur next isLast i b')
    (hb : EndpointFirst b.strand) :
    ∀ k s, b'.strand[k]? = some s → s.isEndpoint → k = 0 ∨ k + 1 = b'.strand.length := by
  cases h with
  | skip => exact fun k s hk he => .inl (hb k s hk he)
  | direct | first | last | book => exact hb.ends _

theorem linkAll_endpoints (hb : EndpointFirst b.strand) (h : linkAll p b es = .ok b') :
    ∀ k s, b'.strand[k]? = some s → s.isEndpoint → k = 0 ∨ k + 1 = b'.strand.length := by
  induction es generalizing b with
  | nil => cases h; exact fun k s hk he => .inl (hb k s hk he)
  | cons _ es ih =>
    cases es with
    | nil => cases h; exact fun k s hk he => .inl (hb k s hk he)
    | cons _ rest =>
      obtain ⟨_, h1, h⟩ := bind_ok.1 h
      have hli := link_ok h1
      cases rest with
      | nil => cases h; exact hli.endpoints hb
      | cons e rest => exact ih (hli.endpointFirst hb) h

end FinPal
