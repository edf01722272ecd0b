import FinPal.Paths.Flow
import FinPal.Verify.TrustLineSteps

/-!
# What a payment leaves alone

A relation that holds of writes of trust lines and directory pages, of deletions of offers and of
changes of an owner count holds between the states before and after a flow over direct steps.
-/

namespace FinPal
open Store ViewM
variable {sender : AccountID}

section Ensures
variable {Q : State → State → Prop} {α : Type}

/-- A relation that allows what credits and deletions of offers write. -/
structure PermitsPayment (Q : State → State → Prop) : Prop where
  run : IsRun Q
  pages : Permits Q DirNode
  lines : Permits Q MTChainState
  offers : PermitsChange Q Offer
  counts : PermitsOwnerCount Q

namespace PermitsPayment
section
variable (hQ : PermitsPayment Q)
include hQ

theorem adjust {id : AccountID} {amount : Int} : Ensures Q (adjustOwnerCount id amount) :=
  PermitsOwnerCount.adjust hQ.counts

theorem updateIssueTotalAmount (amount : STAmount) : Ensures Q (updateIssueTotalAmount amount) := by
  intro σ _ _ h
  rcases exec_updateIssueTotalAmount.1 h with ⟨-, -, rfl⟩ | ⟨t, -, ht, -, -, rfl⟩
  · exact hQ.run.refl _
  · exact hQ.lines.set _ ht

theorem creditHook (src dst : AccountID) (amount before : STAmount) :
    Ensures Q (creditHook src dst amount before) := by
  unfold FinPal.creditHook
  split_ifs <;> exact hQ.updateIssueTotalAmount _

theorem trustCreate {bSrcHigh : Bool} {src dst : AccountID}
    {uIndex : Digest} {account : AccountID} {bAuth bNoMTChain bFreeze : Bool} {saBalance saLimit : STAmount}
    {uQualityIn uQualityOut : UInt32} :
    Ensures Q (trustCreate bSrcHigh src dst uIndex account bAuth bNoMTChain bFreeze saBalance saLimit
      uQualityIn uQualityOut) := by
  refine hQ.run.bind hQ.lines.inserted fun _ =>
    hQ.run.bind (ensures_dirAdd hQ.run hQ.pages) fun low => ?_
  split
  · exact hQ.run.pure _
  refine hQ.run.bind (ensures_dirAdd hQ.run hQ.pages) fun high => ?_
  split
  · exact hQ.run.pure _
  exact hQ.run.bind hQ.run.peek! fun _ => hQ.run.bind hQ.lines.update fun _ =>
    hQ.run.bind hQ.adjust fun _ => hQ.run.bind (hQ.creditHook ..) fun _ => hQ.run.pure _

end

variable {k : Keylet MTChainState}

variable (hQ : PermitsPayment Q)

include hQ

theorem trustDelete {low high : AccountID} : Ensures Q (trustDelete k low high) := by
  refine hQ.run.bind hQ.run.peek! fun _ =>
    hQ.run.bind (ensures_dirDelete hQ.run hQ.pages.toPermitsChange) fun _ => ?_
  split
  · exact hQ.run.bind hQ.lines.erase fun _ => hQ.run.pure _
  · exact hQ.run.bind (ensures_dirDelete hQ.run hQ.pages.toPermitsChange) fun _ =>
      hQ.run.bind hQ.lines.erase fun _ => hQ.run.pure _

theorem updateTrustLine {bSenderHigh : Bool} {before after : STAmount} :
    Ensures Q (updateTrustLine k bSenderHigh sender before after) := by
  refine hQ.run.bind hQ.run.peek! fun state => ?_
  dsimp only
  split
  · refine hQ.run.bind hQ.run.peek! fun sle => ?_
    split
    · exact hQ.run.bind hQ.adjust fun _ => hQ.run.bind hQ.lines.update fun _ => hQ.run.pure _
    · exact hQ.run.pure _
  · exact hQ.run.pure _

theorem writeBalance {bSenderHigh bDelete : Bool} {receiver : AccountID} {balance : STAmount} :
    Ensures Q (writeBalance k bSenderHigh sender receiver balance bDelete) := by
  refine hQ.run.bind hQ.lines.update fun _ => ?_
  split
  · exact hQ.trustDelete
  · exact hQ.run.pure _

theorem mtchainCredit (sender receiver : AccountID) (amount : STAmount) :
    Ensures Q (mtchainCredit sender receiver amount) := by
  rw [mtchainCredit_eq]
  refine hQ.run.bind hQ.run.peek fun o => ?_
  cases o with
  | none => exact hQ.run.bind hQ.run.peek! fun _ => hQ.trustCreate
  | some _ =>
    refine hQ.run.bind (hQ.creditHook ..) fun _ => hQ.run.bind ?_ fun after =>
      hQ.run.bind hQ.updateTrustLine fun _ => hQ.writeBalance
    intro σ d _ h
    obtain ⟨-, rfl⟩ := exec_ofExcept.1 h
    exact hQ.run.refl _

end PermitsPayment
end Ensures

/-! ### Sandboxes and direct steps -/

section Flow
variable {Q : State → State → Prop} {sb sb' : PaymentSandbox}

section
variable (hQ : PermitsPayment Q)

include hQ

theorem PermitsPayment.credit {receiver : AccountID}
    {amount : STAmount} (h : sb.mtchainCredit sender receiver amount = .ok sb') :
    Q sb.view sb'.view := by
  obtain ⟨⟨_, _⟩, h1, h⟩ := bind_ok.1 h
  obtain ⟨_, -, h⟩ := bind_ok.1 h
  cases h
  exact hQ.mtchainCredit sender receiver amount h1

theorem PermitsPayment.removeOffer {key : Digest}
    (h : sb.removeOffer key = .ok sb') : Q sb.view sb'.view := by
  unfold PaymentSandbox.removeOffer at h
  split at h
  · cases h
    exact hQ.run.refl _
  obtain ⟨⟨_, _⟩, h1, h⟩ := bind_ok.1 h
  cases h
  exact ensures_offerDelete hQ.run hQ.pages.toPermitsChange hQ.offers hQ.counts h1

theorem PermitsPayment.revImp {d d' : DirectStepI} {prev : Option PrevStep}
    {out in_ out' : IOUAmount} (h : d.revImp prev sb out = .ok (d', sb', in_, out')) :
    Q sb.view sb'.view := by
  obtain ⟨⟨_, _⟩, -, h⟩ := bind_ok.1 h
  obtain ⟨⟨_, _⟩, -, h⟩ := bind_ok.1 h
  dsimp only at h
  split at h
  · cases h
    exact hQ.run.refl _
  obtain ⟨_, -, h⟩ := bind_ok.1 h
  split at h
  · obtain ⟨i, -, h⟩ := bind_ok.1 h
    obtain ⟨sb1, h1, h⟩ := bind_ok.1 h
    cases h
    exact hQ.credit h1
  obtain ⟨i, -, h⟩ := bind_ok.1 h
  obtain ⟨o, -, h⟩ := bind_ok.1 h
  obtain ⟨sb1, h1, h⟩ := bind_ok.1 h
  cases h
  show Q sb.view sb1.view
  exact hQ.credit h1

theorem PermitsPayment.fwdImp {d d' : DirectStepI} {prev : Option PrevStep}
    {in_ in' out' : IOUAmount} (h : d.fwdImp prev sb in_ = .ok (d', sb', in', out')) :
    Q sb.view sb'.view := by
  unfold DirectStepI.fwdImp at h
  split at h
  · cases h
  obtain ⟨⟨_, _⟩, -, h⟩ := bind_ok.1 h
  obtain ⟨⟨_, _⟩, -, h⟩ := bind_ok.1 h
  dsimp only at h
  split at h
  · cases h
    exact hQ.run.refl _
  obtain ⟨_, -, h⟩ := bind_ok.1 h
  obtain ⟨_, h1, h⟩ := bind_ok.1 h
  cases h
  exact hQ.credit h1

end

/-! ### Strands of direct steps -/

variable {B : Type} [OtherStep B]

/-- A strand between accounts, without order books. -/
def AllDirect (strand : List (PayStep B)) : Prop := ∀ s ∈ strand, ∃ d, s = .direct d

/-- A run over direct steps has only done what `Q` allows since `base`. -/
structure StrandRun.Since (r : StrandRun (PayStep B)) (Q : State → State → Prop)
    (base : PaymentSandbox) : Prop where
  direct : AllDirect r.strand
  view : Q base.view r.state.sb.view

variable {base : PaymentSandbox} {r r' : StrandRun (PayStep B)} {TIn TOut : Type}
  [EngineAmount TIn] [EngineAmount TOut]

variable {amount : EitherAmount}

omit [OtherStep B] in
theorem runDirect_ok {run : PaymentSandbox → IOUAmount →
      Except Fault (DirectStepI × PaymentSandbox × IOUAmount × IOUAmount)}
    (hr : ∀ {sb i d sb' i' o'}, run sb i = .ok (d, sb', i', o') → Q sb.view sb'.view)
    {state : StepState} {o : StepOutcome (PayStep B)}
    (h : PayStep.runDirect run state amount = .ok o) :
    (∃ d, o.step = .direct d) ∧ Q state.sb.view o.state.sb.view := by
  unfold PayStep.runDirect at h
  split at h
  · cases h
  · next d sb1 i o1 hd =>
    obtain ⟨a, -, ha⟩ := bind_ok.1 hd
    cases h
    exact ⟨⟨d, rfl⟩, hr ha⟩

variable {i : ℕ} {out in_ : EitherAmount}

omit [OtherStep B] in
theorem StrandRun.Since.call (hQ : PermitsPayment Q) (hr : r.Since Q base)
    {f : Option (PayStep B) → PayStep B → StepState → EitherAmount →
      Except StepFault (StepOutcome (PayStep B))}
    (hf : ∀ {prev d state amount o}, f prev (.direct d) state amount = .ok o →
      (∃ d', o.step = .direct d') ∧ Q state.sb.view o.state.sb.view)
    (h : r.call f i amount = .ok (r', in_, out)) : r'.Since Q base := by
  unfold StrandRun.call at h
  split at h
  · cases h
  next step hst =>
  obtain ⟨d, rfl⟩ := hr.direct step (List.mem_of_getElem? hst)
  split at h
  · cases h
  · cases h
  next o ho =>
  cases h
  obtain ⟨⟨d', hd'⟩, hvi⟩ := hf ho
  refine ⟨fun s hs => ?_, hQ.run.trans hr.view hvi⟩
  rcases List.mem_or_eq_of_mem_set hs with hs | rfl
  · exact hr.direct s hs
  · exact ⟨d', hd'⟩

variable {maxIn : Option TIn}

namespace StrandRun.Since

theorem rev (hQ : PermitsPayment Q) (hr : r.Since Q base)
    (h : r.call Step.rev i amount = .ok (r', in_, out)) : r'.Since Q base :=
  hr.call hQ (fun ho => runDirect_ok (fun h => hQ.revImp h) ho) h

theorem fwd (hQ : PermitsPayment Q) (hr : r.Since Q base)
    (h : r.call Step.fwd i amount = .ok (r', in_, out)) : r'.Since Q base :=
  hr.call hQ (fun ho => runDirect_ok (fun h => hQ.fwdImp h) ho) h

omit [OtherStep B] in
theorem noteResult (hr : r.Since Q base) : r.noteResult.Since Q base := by
  unfold StrandRun.noteResult
  split
  · exact hr
  · exact ⟨hr.direct, hr.view⟩

theorem limit (hQ : PermitsPayment Q) (hr : r.Since Q base)
    (h : limit base i r out = .ok r') : r'.Since Q base := by
  obtain ⟨⟨r1, _, _⟩, h1, h⟩ := bind_ok.1 h
  have hr1 : r1.Since Q base := rev hQ (r := r.resetViews base) ⟨hr.direct, hQ.run.refl _⟩ h1
  dsimp only at h
  split at h
  · cases h
  · cases h
    exact ⟨hr1.direct, hr1.view⟩

theorem limitIn (hQ : PermitsPayment Q) (hr : r.Since Q base) {maxIn : EitherAmount}
    (h : limitIn base i r maxIn = .ok r') : r'.Since Q base := by
  obtain ⟨⟨r1, _, _⟩, h1, h⟩ := bind_ok.1 h
  have hr1 : r1.Since Q base := fwd hQ (r := r.resetSb base) ⟨hr.direct, hQ.run.refl _⟩ h1
  dsimp only at h
  split at h
  · cases h
  · cases h
    exact ⟨hr1.direct, hr1.view⟩

omit [EngineAmount TOut] in
theorem revStep (hQ : PermitsPayment Q) (hr : r.Since Q base)
    (h : revStep base maxIn i r = .ok r') : r'.Since Q base := by
  obtain ⟨⟨r1, in_, out⟩, h1, h⟩ := bind_ok.1 h
  have hr1 := (rev hQ hr h1).noteResult
  dsimp only at h
  split at h
  · cases h
  obtain ⟨m, -, h⟩ := bind_ok.1 h
  split at h
  · exact limitIn hQ hr1 h
  split at h
  · exact limit hQ hr1 h
  · cases h
    exact ⟨hr1.direct, hr1.view⟩

variable (hQ : PermitsPayment Q)

include hQ

theorem revLoop {n : ℕ} (hr : r.Since Q base)
    (h : revLoop base maxIn n r = .ok r') : r'.Since Q base := by
  induction n generalizing r with
  | zero =>
    cases h
    exact hr
  | succ n ih =>
    obtain ⟨_, h1, h⟩ := bind_ok.1 h
    exact ih (revStep hQ hr h1) h

theorem fwdLoop {n : ℕ} (hr : r.Since Q base) (h : fwdLoop n i r = .ok r') : r'.Since Q base := by
  induction n generalizing r i with
  | zero =>
    cases h
    exact hr
  | succ n ih =>
    obtain ⟨⟨r1, _, out⟩, h1, h⟩ := bind_ok.1 h
    have hr1 := fwd hQ hr h1
    dsimp only at h
    split at h
    · cases h
    · exact ih (r := { r1 with amount := out }) ⟨hr1.direct, hr1.view⟩ h

theorem fwdPass (hr : r.Since Q base) (h : fwdPass r = .ok r') : r'.Since Q base := by
  unfold FinPal.fwdPass at h
  split at h
  · cases h
    exact hr
  · next i out _ => exact fwdLoop hQ (r := { r with amount := out }) ⟨hr.direct, hr.view⟩ h

end StrandRun.Since

theorem PermitsPayment.flowStrand (hQ : PermitsPayment Q) {strand : List (PayStep B)}
    (hs : AllDirect strand) {mToM : List (PayStep B) → Bool} {out : TOut}
    {f : StrandResult PaymentSandbox Digest TIn TOut} {in_ : TIn} {out' : TOut}
    (h : flowStrand mToM base strand maxIn out = .ok f) (hok : f.outcome = .ok (in_, out', sb)) :
    Q base.view sb.view := by
  unfold FinPal.flowStrand at h
  split at h
  · cases h
    cases hok
  split at h
  · cases h
    cases hok
  dsimp only at h
  split at h
  · cases h
  · cases h
    cases hok
  next r hr =>
  obtain ⟨⟨i, o⟩, -, h⟩ := bind_ok.1 h
  cases h
  cases hok
  obtain ⟨r1, h1, h2⟩ := bind_ok.1 hr
  have hr1 : r1.Since Q base := StrandRun.Since.revLoop hQ ⟨hs, hQ.run.refl _⟩ h1
  exact (hr1.fwdPass hQ h2).view

end Flow
end FinPal
