import FinPal.Lib.Store
import FinPal.Paths.StrandFlow

/-!
# Totals of a payment

Each strand is asked for no more than what remains. The amounts are summed again after every pass,
in an order that changes and with an addition that loses digits (`LawfulFlowAmount.fits_insert`).
-/

namespace FinPal
open FlowAmount Store LawfulFlowAmount
variable {Sb Strand Key TIn TOut : Type} [FlowAmount TIn] [FlowAmount TOut] [DecidableEq TOut]
  [DecidableEq Key]

/-- An amount is not negative and not above another. -/
structure Upto {α : Type} [FlowAmount α] (a limit : α) : Prop where
  nonneg : lt a zero = false
  le : lt limit a = false

namespace StrandEngine

/-- A strand that flows gives no more than it is asked for, takes no more than may be spent, and
neither amount is negative. -/
def Bounded (E : StrandEngine Sb Strand Key TIn TOut) : Prop :=
  ∀ ⦃sb strand remainingIn remainingOut f in_ out sb'⦄, lt zero remainingOut = true →
    (∀ m ∈ remainingIn, lt zero m = true) →
    E.flow sb strand remainingIn remainingOut = .ok f → f.outcome = .ok (in_, out, sb') →
    Upto out remainingOut ∧ lt in_ zero = false ∧ ∀ m ∈ remainingIn, lt m in_ = false

/-- No strand, merge of a sandbox or removal of an offer leaves without a result. -/
structure Returns (E : StrandEngine Sb Strand Key TIn TOut) : Prop where
  flow : ∀ sb strand remainingIn remainingOut, ∃ f,
    E.flow sb strand remainingIn remainingOut = .ok f
  apply : ∀ sb parent, ∃ parent', E.apply sb parent = .ok parent'
  removeOffer : ∀ sb key, ∃ sb', E.removeOffer sb key = .ok sb'

/-- The states that the passes of a flow go through. -/
inductive Reaches (E : StrandEngine Sb Strand Key TIn TOut) (r : FlowRequest TIn TOut)
    (baseView : Sb) (strands : List Strand) : FlowState Sb Strand Key TIn TOut → Prop
  | start : Reaches E r baseView strands (E.start r baseView strands)
  | pass {s s' shouldBreak} : Reaches E r baseView strands s → s.running = true →
    E.pass r s = .ok (s', shouldBreak) → Reaches E r baseView strands s'

end StrandEngine

/-- The totals so far fit, and what remains is what they leave. -/
structure FlowState.Consistent (r : FlowRequest TIn TOut) (s : FlowState Sb Strand Key TIn TOut) :
    Prop where
  outs : ∃ total, Fits r.outReq s.savedOuts total s.remainingOut
  ins : ∀ m ∈ r.sendMax, ∃ total rest, s.remainingIn = some rest ∧ Fits m s.savedIns total rest
  uncapped : r.sendMax = none → s.remainingIn = none
  ins_nonneg : ∀ a ∈ s.savedIns, lt a zero = false

/-- What a best strand gives and takes fits into what remains. -/
structure BestStrand.Within (b : BestStrand Sb TIn TOut) (s : FlowState Sb Strand Key TIn TOut) :
    Prop where
  out : Upto b.out s.remainingOut
  in_nonneg : lt b.in_ zero = false
  in_le : ∀ m ∈ s.remainingIn, lt m b.in_ = false

variable {E : StrandEngine Sb Strand Key TIn TOut} {r : FlowRequest TIn TOut}
  {s s' : FlowState Sb Strand Key TIn TOut}

omit [DecidableEq TOut] [DecidableEq Key] in
theorem FlowState.running_iff : s.running = true ↔
    lt zero s.remainingOut = true ∧ ∀ m ∈ s.remainingIn, lt zero m = true := by
  cases h : s.remainingIn <;> simp [FlowState.running, h]

namespace StrandEngine

theorem Bounded.tryStrand {p p' : Pass Sb Strand Key TIn TOut} {strand : Strand} (hE : E.Bounded)
    (hr : s.running = true) (hp : ∀ b ∈ p.best, b.Within s)
    (h : E.tryStrand r s p strand = .ok p') : ∀ b ∈ p'.best, b.Within s := by
  obtain ⟨ho, hin⟩ := FlowState.running_iff.1 hr
  obtain ⟨f, hf, h⟩ := bind_ok.1 h
  cases hok : f.outcome with
  | error e =>
    simp only [hok] at h
    cases h
    exact hp
  | ok _ =>
    simp only [hok] at h
    cases h
    have hb := hE ho hin hf hok
    intro b hbe
    -- the strand is dropped, kept, or the new best one
    simp only [consider] at hbe
    split_ifs at hbe
    · exact hp b hbe
    · exact hp b hbe
    · obtain rfl := Option.some.inj hbe
      exact ⟨hb.1, hb.2.1, hb.2.2⟩
    · exact hp b hbe

theorem Bounded.foldlM {strands : List Strand} {p p' : Pass Sb Strand Key TIn TOut}
    (hE : E.Bounded) (hr : s.running = true) (hp : ∀ b ∈ p.best, b.Within s)
    (h : strands.foldlM (E.tryStrand r s) p = .ok p') : ∀ b ∈ p'.best, b.Within s := by
  refine foldlM_induct (I := fun p => ∀ b ∈ p.best, b.Within s) ?_ hp h
  intro _ _ p p' hp h
  exact hE.tryStrand hr hp h

end StrandEngine

section Consistent
variable [LawfulFlowAmount TIn] [LawfulFlowAmount TOut]

omit [LawfulFlowAmount TOut] [DecidableEq TOut] [DecidableEq Key] in
theorem FlowState.remaining_ok {f : TIn} (hs : s.Consistent r) (hf : lt f zero = false)
    (hle : ∀ m ∈ s.remainingIn, lt m f = false) :
    ∃ rest, s.remaining r (s.savedIns.orderedInsert (fun x y => lt x y) f) = .ok rest ∧
      (∀ m ∈ r.sendMax, ∃ total left, rest = some left ∧
        Fits m (s.savedIns.orderedInsert (fun x y => lt x y) f) total left) ∧
      (r.sendMax = none → rest = none) := by
  rw [FlowState.remaining]
  cases hm : r.sendMax with
  | none => exact ⟨_, rfl, by simp, fun _ => hs.uncapped hm⟩
  | some m =>
    obtain ⟨_, left, hl, hin⟩ := hs.ins m hm
    obtain ⟨total, left', hin⟩ := hin.orderedInsert hf (hle left hl)
    refine ⟨some left', ?_, ?_, by simp⟩
    · exact bind_ok.2 ⟨total, hin.sum, bind_ok.2 ⟨left', hin.sub, rfl⟩⟩
    · rintro _ ⟨⟩
      exact ⟨total, left', rfl, hin⟩

omit [DecidableEq TOut] [DecidableEq Key] in
theorem FlowState.save_ok {b : BestStrand Sb TIn TOut} (hs : s.Consistent r) (hb : b.Within s) :
    ∃ s', s.save r b = .ok s' ∧ s'.Consistent r := by
  obtain ⟨_, ho⟩ := hs.outs
  obtain ⟨total, rest, ho⟩ := ho.orderedInsert hb.out.nonneg hb.out.le
  obtain ⟨left, hl, hc, hn⟩ := FlowState.remaining_ok hs hb.in_nonneg hb.in_le
  refine ⟨_, bind_ok.2 ⟨total, ho.sum, bind_ok.2 ⟨rest, ho.sub,
    bind_ok.2 ⟨left, hl, rfl⟩⟩⟩, ⟨⟨total, ho⟩, hc, hn, fun a ha => ?_⟩⟩
  rcases (List.mem_orderedInsert _).1 ha with rfl | ha
  · exact hb.in_nonneg
  · exact hs.ins_nonneg a ha

omit [DecidableEq TOut] [DecidableEq Key] in
theorem StrandEngine.start_consistent (hr : lt r.outReq zero = false) (baseView : Sb)
    (strands : List Strand) : (E.start r baseView strands).Consistent r := by
  refine ⟨⟨_, fits_nil hr⟩, fun m hm => ?_, id, by simp [StrandEngine.start]⟩
  have hno : lt m zero = false := by
    have := (Option.filter_eq_some_iff.1 hm).2
    simpa using this
  exact ⟨_, m, hm, fits_nil hno⟩

namespace StrandEngine

omit [DecidableEq TOut] [DecidableEq Key] in
theorem useBest_consistent {best : Option (BestStrand Sb TIn TOut)} (hs : s.Consistent r)
    (hb : ∀ b ∈ best, b.Within s) (h : E.useBest r s best = .ok s') : s'.Consistent r := by
  cases best with
  | none =>
    cases h
    exact hs
  | some b =>
    obtain ⟨s1, h1, h⟩ := bind_ok.1 h
    obtain ⟨sb, -, h⟩ := bind_ok.1 h
    obtain ⟨s2, h2, hs2⟩ := FlowState.save_ok hs (hb b rfl)
    obtain rfl : s2 = s1 := Except.ok.inj (h2.symm.trans h1)
    cases h
    exact ⟨hs2.outs, hs2.ins, hs2.uncapped, hs2.ins_nonneg⟩

theorem Bounded.pass {shouldBreak : Bool} (hE : E.Bounded) (hs : s.Consistent r)
    (hr : s.running = true) (h : E.pass r s = .ok (s', shouldBreak)) : s'.Consistent r := by
  obtain ⟨p, hp, h⟩ := bind_ok.1 h
  obtain ⟨s1, h1, h⟩ := bind_ok.1 h
  obtain ⟨_, -, h⟩ := bind_ok.1 h
  have hs1 : s1.Consistent r := by
    refine useBest_consistent ?_ ?_ h1
    · exact ⟨hs.outs, hs.ins, hs.uncapped, hs.ins_nonneg⟩
    intro b hb
    have hw := hE.foldlM hr (by simp) hp b hb
    exact ⟨hw.out, hw.in_nonneg, hw.in_le⟩
  cases h
  exact ⟨hs1.outs, hs1.ins, hs1.uncapped, hs1.ins_nonneg⟩

variable {baseView : Sb} {strands : List Strand}

theorem Bounded.reaches (hE : E.Bounded) (hr : lt r.outReq zero = false)
    (h : Reaches E r baseView strands s) : s.Consistent r := by
  induction h with
  | start => exact start_consistent hr baseView strands
  | pass _ hrun hp ih => exact hE.pass ih hrun hp

omit [FlowAmount TIn] [FlowAmount TOut] [DecidableEq TOut] [DecidableEq Key]
  [LawfulFlowAmount TIn] [LawfulFlowAmount TOut] in
theorem foldlM_returns {σ α : Type} {f : σ → α → Except Fault σ} (hf : ∀ s a, ∃ s', f s a = .ok s')
    (l : List α) (s : σ) : ∃ s', l.foldlM f s = .ok s' := by
  induction l generalizing s with
  | nil => exact ⟨s, rfl⟩
  | cons a l ih =>
    obtain ⟨s1, h1⟩ := hf s a
    obtain ⟨s', h'⟩ := ih s1
    exact ⟨s', bind_ok.2 ⟨s1, h1, h'⟩⟩

omit [LawfulFlowAmount TIn] [LawfulFlowAmount TOut] in
theorem Reaches.flowLoop {n : ℕ} {exhausted : Bool} (hs : Reaches E r baseView strands s)
    (h : E.flowLoop r n s = .ok (s', exhausted)) : Reaches E r baseView strands s' := by
  induction n generalizing s with
  | zero =>
    cases h
    exact hs
  | succ n ih =>
    rw [StrandEngine.flowLoop] at h
    split_ifs at h with hr
    · obtain ⟨⟨s1, shouldBreak⟩, h1, h⟩ := bind_ok.1 h
      have hs1 := hs.pass hr h1
      cases shouldBreak with
      | false => exact ih hs1 h
      | true =>
        cases h
        exact hs1
    · cases h
      exact hs

omit [LawfulFlowAmount TIn] [LawfulFlowAmount TOut] in
/-- What is returned: the tries ran out, or the totals of a state of the loop. -/
theorem flowStrands_ok {res : FlowResult Sb Key TIn TOut}
    (h : E.flowStrands r baseView strands = .ok res) :
    res.ter = .telFAILED_PROCESSING ∨ ∃ s i o, Reaches E r baseView strands s ∧
      sum s.savedOuts = .ok o ∧ sum s.savedIns = .ok i ∧ res = report r s i o := by
  obtain ⟨⟨s, exhausted⟩, hl, h⟩ := bind_ok.1 h
  cases exhausted with
  | true =>
    cases h
    exact .inl rfl
  | false =>
    obtain ⟨o, ho, h⟩ := bind_ok.1 h
    obtain ⟨i, hi, h⟩ := bind_ok.1 h
    cases h
    exact .inr ⟨s, i, o, Reaches.start.flowLoop hl, ho, hi, rfl⟩

section
variable (hR : E.Returns) (hE : E.Bounded)

include hR hE

theorem Returns.pass (hs : s.Consistent r)
    (hr : s.running = true) : ∃ s' shouldBreak, E.pass r s = .ok (s', shouldBreak) := by
  have ht (p) (strand) : ∃ p', E.tryStrand r s p strand = .ok p' := by
    obtain ⟨f, hf⟩ := hR.flow s.sb strand s.remainingIn s.remainingOut
    cases hok : f.outcome with
    | error e => exact ⟨_, bind_ok.2 ⟨f, hf, by simp only [hok]; rfl⟩⟩
    | ok _ => exact ⟨_, bind_ok.2 ⟨f, hf, by simp only [hok]; rfl⟩⟩
  obtain ⟨p, hp⟩ := foldlM_returns ht s.activeStrands
    { result := s.result, activeStrands := [], best := none, ofrsToRm := [] }
  have hu : ∃ s', E.useBest r
      { s with activeStrands := p.activeStrands, result := p.result } p.best = .ok s' := by
    cases hb : p.best with
    | none => exact ⟨_, rfl⟩
    | some b =>
      have hw := hE.foldlM hr (by simp) hp b hb
      obtain ⟨s1, h1, -⟩ := FlowState.save_ok
        (s := { s with activeStrands := p.activeStrands, result := p.result })
        ⟨hs.outs, hs.ins, hs.uncapped, hs.ins_nonneg⟩ ⟨hw.out, hw.in_nonneg, hw.in_le⟩
      obtain ⟨sb, hsb⟩ := hR.apply b.sb s1.sb
      exact ⟨_, bind_ok.2 ⟨s1, h1, bind_ok.2 ⟨sb, hsb, rfl⟩⟩⟩
  obtain ⟨s1, h1⟩ := hu
  obtain ⟨sb, hsb⟩ := foldlM_returns hR.removeOffer p.ofrsToRm s1.sb
  exact ⟨_, _, bind_ok.2 ⟨p, hp, bind_ok.2 ⟨s1, h1, bind_ok.2 ⟨sb, hsb, rfl⟩⟩⟩⟩

theorem Returns.flowLoop (n : ℕ) (hs : s.Consistent r) :
    ∃ s' exhausted, E.flowLoop r n s = .ok (s', exhausted) := by
  induction n generalizing s with
  | zero => exact ⟨_, _, rfl⟩
  | succ n ih =>
    rw [flowLoop]
    split_ifs with hr
    · obtain ⟨s1, shouldBreak, h1⟩ := hR.pass hE hs hr
      cases shouldBreak with
      | false =>
        obtain ⟨s', exhausted, h⟩ := ih (hE.pass hs hr h1)
        exact ⟨s', exhausted, bind_ok.2 ⟨_, h1, h⟩⟩
      | true => exact ⟨s1, false, bind_ok.2 ⟨_, h1, rfl⟩⟩
    · exact ⟨_, _, rfl⟩

/-- A result is returned unless an uncapped input is too large to be summed. -/
theorem Returns.flowStrands (hr : lt r.outReq zero = false) :
    (∃ res, E.flowStrands r baseView strands = .ok res) ∨
      (r.sendMax = none ∧ E.flowStrands r baseView strands = .error .exception) := by
  obtain ⟨s, exhausted, hlo⟩ :=
    hR.flowLoop hE (maxTries - 1) (start_consistent hr baseView strands)
  have hc := hE.reaches hr (Reaches.start.flowLoop hlo)
  cases exhausted with
  | true => exact .inl ⟨_, bind_ok.2 ⟨_, hlo, rfl⟩⟩
  | false =>
    obtain ⟨o, ho⟩ := hc.outs
    cases hs : sum s.savedIns with
    | ok i =>
      exact .inl ⟨_, bind_ok.2 ⟨_, hlo, bind_ok.2 ⟨o, ho.sum,
        bind_ok.2 ⟨i, hs, rfl⟩⟩⟩⟩
    | error e =>
      obtain rfl := fault_of_sum hc.ins_nonneg hs
      refine .inr ⟨?_, ?_⟩
      · cases hm : r.sendMax with
        | none => rfl
        | some cap =>
          obtain ⟨_, _, -, hin⟩ := hc.ins cap hm
          exact absurd (hin.sum.symm.trans hs) (by simp)
      · simp only [StrandEngine.flowStrands, hlo, bind, Except.bind, ho.sum, hs]
        rfl

end

omit [LawfulFlowAmount TIn] [LawfulFlowAmount TOut] [DecidableEq Key] in
theorem report_success {i : TIn} {o : TOut} (h : (report r s i o).ter = .tesSUCCESS) :
    (report r s i o).in_ = i ∧ (report r s i o).out = o ∧ (report r s i o).sandbox = some s.sb ∧
      (o ≠ r.outReq → r.partialPayment = true ∧ o ≠ zero) := by
  unfold report at h ⊢
  split_ifs at h ⊢ with h1 h2 h3 h4
  · cases h
  · exact absurd h h3
  · cases h
  refine ⟨rfl, rfl, rfl, fun hne => ⟨?_, fun hz => h4 ⟨hne, hz⟩⟩⟩
  by_contra hp
  exact h2 ⟨hne, by simpa using hp⟩

end StrandEngine
end Consistent

open StrandEngine

/-- For strands that keep to what they are asked for, the amounts that remain are never negative; a
result is returned, or the input has no cap and its total is beyond the range of its type; and a
success delivers something, at most the request and all of it unless the payment may be partial, for
an input within the cap. -/
theorem strand_totals [LawfulFlowAmount TIn] [LawfulFlowAmount TOut]
    (E : StrandEngine Sb Strand Key TIn TOut) (r : FlowRequest TIn TOut) (baseView : Sb)
    (strands : List Strand) (hE : E.Bounded) (hreq : lt zero r.outReq = true) :
    (∀ s, Reaches E r baseView strands s →
      lt s.remainingOut zero = false ∧ ∀ m ∈ s.remainingIn, lt m zero = false) ∧
    (E.Returns → (∃ res, E.flowStrands r baseView strands = .ok res) ∨
      (r.sendMax = none ∧ E.flowStrands r baseView strands = .error .exception)) ∧
    ∀ res, E.flowStrands r baseView strands = .ok res → res.ter = .tesSUCCESS →
      lt zero res.out = true ∧ lt r.outReq res.out = false ∧
      (r.partialPayment = false → res.out = r.outReq) ∧ ∀ m ∈ r.sendMax, lt m res.in_ = false := by
  have hr0 := nonneg_of_pos hreq
  refine ⟨fun s hs => ?_, fun hR => hR.flowStrands hE hr0, fun res hr ht => ?_⟩
  · have hc := hE.reaches hr0 hs
    obtain ⟨_, hout⟩ := hc.outs
    refine ⟨hout.rest_nonneg, fun m hm => ?_⟩
    cases hmax : r.sendMax with
    | none => simp [hc.uncapped hmax] at hm
    | some cap =>
      obtain ⟨_, rest, hre, hin⟩ := hc.ins cap hmax
      obtain rfl : rest = m := Option.mem_unique hre hm
      exact hin.rest_nonneg
  rcases flowStrands_ok hr with hb | ⟨s, i, o, hs, ho, hi, rfl⟩
  · exact absurd (hb.symm.trans ht) (by decide)
  have hc := hE.reaches hr0 hs
  obtain ⟨o', hout⟩ := hc.outs
  obtain rfl : o' = o := Except.ok.inj (hout.sum.symm.trans ho)
  obtain ⟨hin, ho', -, hsh⟩ := report_success ht
  rw [hin, ho']
  refine ⟨?_, hout.total_le, fun hp => ?_, fun m hm => ?_⟩
  · by_cases heq : o' = r.outReq
    · exact heq ▸ hreq
    · exact pos_of_ne hout.total_nonneg (hsh heq).2
  · by_contra hne
    exact absurd (hsh hne).1 (by simp [hp])
  obtain ⟨i', _, -, hf⟩ := hc.ins m hm
  obtain rfl : i' = i := Except.ok.inj (hf.sum.symm.trans hi)
  exact hf.total_le

/-! ### Strands that follow a list -/

/-- What the source asserts of a strand that flows. Nothing is said about signs. -/
def StrandEngine.Asserted (E : StrandEngine Sb Strand Key TIn TOut) : Prop :=
  ∀ ⦃sb strand remainingIn remainingOut f in_ out sb'⦄,
    E.flow sb strand remainingIn remainingOut = .ok f → f.outcome = .ok (in_, out, sb') →
    lt remainingOut out = false ∧ ∀ m ∈ remainingIn, lt m in_ = false

/-- An engine whose sandboxes count the passes and whose strands list what they take and give in
each, where that fits into what remains and `allow` admits it. -/
def scripted (TIn TOut : Type) [FlowAmount TIn] [FlowAmount TOut] (allow : TIn → TOut → Bool) :
    StrandEngine ℕ (List (TIn × TOut)) ℕ TIn TOut where
  child sb := sb
  flow sb strand remainingIn remainingOut := .ok {
    outcome :=
      match strand[sb]? with
      | none => .error .tecPATH_DRY
      | some (in_, out) =>
        if !lt remainingOut out && remainingIn.all (!lt · in_) && allow in_ out then
          .ok (in_, out, sb + 1)
        else .error .tecPATH_DRY
    ofrsToRm := []
    baseResult := none }
  apply sb _ := .ok sb
  removeOffer sb _ := .ok sb
  quality _ _ := ⟨1⟩

section Scripted
variable {allow : TIn → TOut → Bool}

omit [DecidableEq TOut] in
theorem scripted_flow {sb sb' : ℕ} {strand : List (TIn × TOut)} {remainingIn : Option TIn}
    {remainingOut : TOut} {f} {in_ : TIn} {out : TOut}
    (h : (scripted TIn TOut allow).flow sb strand remainingIn remainingOut = .ok f)
    (hok : f.outcome = .ok (in_, out, sb')) :
    lt remainingOut out = false ∧ (∀ m ∈ remainingIn, lt m in_ = false) ∧ allow in_ out = true := by
  obtain rfl := Except.ok.inj h
  cases hs : strand[sb]? with
  | none => simp [hs] at hok
  | some x =>
    simp only [hs] at hok
    split_ifs at hok with hc
    cases hok
    simp only [Bool.and_eq_true, Bool.not_eq_true'] at hc
    refine ⟨hc.1.1, fun m hm => ?_, hc.2⟩
    obtain rfl := hm
    simpa using hc.1.2

omit [DecidableEq TOut] in
theorem scripted_asserted : (scripted TIn TOut allow).Asserted :=
  fun _ _ _ _ _ _ _ _ h hok => ⟨(scripted_flow h hok).1, (scripted_flow h hok).2.1⟩

omit [DecidableEq TOut] in
theorem scripted_bounded (hal : ∀ i o, allow i o = true → lt i zero = false ∧ lt o zero = false) :
    (scripted TIn TOut allow).Bounded := by
  intro _ _ _ _ _ _ _ _ _ _ h hok
  obtain ⟨ho, hin, ha⟩ := scripted_flow h hok
  exact ⟨⟨(hal _ _ ha).2, ho⟩, (hal _ _ ha).1, hin⟩

end Scripted

namespace Sample

def iou (m : ℤ) (e : ℤ) (h : minMantissa ≤ m.natAbs ∧ m.natAbs ≤ maxMantissa ∧
    minExponent ≤ e ∧ e ≤ maxExponent := by decide) : IOUAmount :=
  ⟨m, e, .inr h⟩

/-- Sixteen nines may be spent. -/
def nines : FlowRequest IOUAmount MAmount where
  outReq := ⟨2⟩
  partialPayment := false
  limitQuality := none
  sendMaxST := some (iou 9999999999999999 0)

end Sample

open Sample in
/-- Two passes take all that may be spent. -/
theorem strand_totals_sample :
    let E := scripted IOUAmount MAmount fun i o => !lt i zero && !lt o zero
    let strands := [[(iou 5000000000000000 0, MAmount.mk 1), (iou 4999999999999999 0, ⟨1⟩)]]
    (E.flowStrands nines 0 strands).map (·.ter) = .ok .tesSUCCESS ∧
      ∀ res, E.flowStrands nines 0 strands = .ok res → res.ter = .tesSUCCESS →
        lt zero res.out = true ∧ res.out = ⟨2⟩ ∧ lt (iou 9999999999999999 0) res.in_ = false := by
  intro E strands
  have hE : E.Bounded := scripted_bounded (by simp)
  refine ⟨by decide +kernel, fun res hr ht => ?_⟩
  have h := (strand_totals E nines 0 strands hE rfl).2.2 res hr ht
  exact ⟨h.1, h.2.2.1 rfl, h.2.2.2 _ rfl⟩

open Sample in
/-- Strands that keep to what the source asserts. One that gives less than nothing makes a partial
payment a success with a negative output; one that takes less than nothing leaves room for an input
above the cap. -/
theorem strand_totals_negative :
    ((scripted MAmount MAmount fun _ _ => true).Asserted ∧
      ((scripted MAmount MAmount fun _ _ => true).flowStrands
          { outReq := ⟨10⟩, partialPayment := true, limitQuality := none, sendMaxST := none } 0
          [[(⟨1⟩, ⟨-1⟩)]]).map (fun res => (res.ter, res.out)) = .ok (.tesSUCCESS, ⟨-1⟩)) ∧
    (scripted IOUAmount MAmount fun _ _ => true).Asserted ∧
      ((scripted IOUAmount MAmount fun _ _ => true).flowStrands nines 0
          [[(iou (-1000000000000000) (-15), ⟨1⟩), (iou 1000000000000000 1, ⟨1⟩)]]).map
        (fun res => (res.ter, lt (iou 9999999999999999 0) res.in_)) = .ok (.tesSUCCESS, true) :=
  ⟨⟨scripted_asserted, by decide +kernel⟩, scripted_asserted, by decide +kernel⟩

end FinPal
