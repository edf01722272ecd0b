import FinPal.Verify.StrandTotals

/-!
# Invariants of the flow over several strands

A property of sandboxes that the flow of a strand, the merge of a sandbox and the removal of an
offer keep holds in every state of the main loop, and of the sandbox that is returned.
-/

namespace FinPal
open FlowAmount Store
variable {Sb Strand Key TIn TOut : Type} [FlowAmount TIn] [FlowAmount TOut] [DecidableEq TOut]
  [DecidableEq Key]

namespace StrandEngine

/-- Every operation of the engine keeps `I`, over strands with `J`. -/
structure Preserves (E : StrandEngine Sb Strand Key TIn TOut) (I : Sb → Prop) (J : Strand → Prop) :
    Prop where
  child : ∀ ⦃sb⦄, I sb → I (E.child sb)
  flow : ∀ ⦃sb strand remainingIn remainingOut f in_ out sb'⦄, I sb → J strand →
    E.flow sb strand remainingIn remainingOut = .ok f → f.outcome = .ok (in_, out, sb') → I sb'
  apply : ∀ ⦃sb parent parent'⦄, I sb → I parent → E.apply sb parent = .ok parent' → I parent'
  removeOffer : ∀ ⦃sb key sb'⦄, I sb → E.removeOffer sb key = .ok sb' → I sb'

end StrandEngine

/-- Properties of the sandbox and of the strands that are still active. -/
structure FlowState.Holds (s : FlowState Sb Strand Key TIn TOut) (I : Sb → Prop)
    (J : Strand → Prop) : Prop where
  sb : I s.sb
  active : ∀ strand ∈ s.activeStrands, J strand

structure Pass.Holds (p : Pass Sb Strand Key TIn TOut) (I : Sb → Prop) (J : Strand → Prop) :
    Prop where
  active : ∀ strand ∈ p.activeStrands, J strand
  best : ∀ b ∈ p.best, I b.sb

namespace StrandEngine
variable {E : StrandEngine Sb Strand Key TIn TOut} {r : FlowRequest TIn TOut}
  {s s' : FlowState Sb Strand Key TIn TOut} {p p' : Pass Sb Strand Key TIn TOut} {strand : Strand}
  {I : Sb → Prop} {J : Strand → Prop}

omit [FlowAmount TIn] [DecidableEq Key] in
theorem consider_holds (hp : p.Holds I J) (hJ : J strand) {in_ : TIn} {out : TOut} {sb : Sb}
    (hsb : I sb) : (E.consider r p strand in_ out sb).Holds I J := by
  have hac : ∀ s ∈ p.activeStrands ++ [strand], J s := by
    simpa [or_imp, forall_and, hJ] using hp.active
  unfold consider
  dsimp only
  split_ifs
  · exact hp
  · exact hp
  · exact ⟨hac, by simpa using hsb⟩
  · exact ⟨hac, hp.best⟩

namespace Preserves
section
variable (hE : E.Preserves I J)
include hE

omit [FlowAmount TIn] in
theorem tryStrand (hs : I s.sb) (hp : p.Holds I J) (hJ : J strand)
    (h : E.tryStrand r s p strand = .ok p') : p'.Holds I J := by
  obtain ⟨f, hf, h⟩ := bind_ok.1 h
  cases hok : f.outcome with
  | error e =>
    simp only [hok] at h
    cases h
    exact ⟨hp.active, hp.best⟩
  | ok res =>
    obtain ⟨in_, out, sb⟩ := res
    simp only [hok] at h
    cases h
    have hp' : Pass.Holds { p with
        result := f.baseResult.getD p.result
        ofrsToRm := p.ofrsToRm ∪ f.ofrsToRm } I J := ⟨hp.active, hp.best⟩
    exact consider_holds hp' hJ (hE.flow hs hJ hf hok)

omit [DecidableEq TOut] [DecidableEq Key] in
theorem useBest (hs : s.Holds I J) {best : Option (BestStrand Sb TIn TOut)}
    (hb : ∀ b ∈ best, I b.sb) (h : E.useBest r s best = .ok s') : s'.Holds I J := by
  cases best with
  | none =>
    cases h
    exact hs
  | some b =>
    obtain ⟨s1, hsa, h⟩ := bind_ok.1 h
    obtain ⟨total, -, hsa⟩ := bind_ok.1 hsa
    obtain ⟨out, -, hsa⟩ := bind_ok.1 hsa
    obtain ⟨in_, -, hsa⟩ := bind_ok.1 hsa
    cases hsa
    obtain ⟨sb, hap, h⟩ := bind_ok.1 h
    cases h
    exact ⟨hE.apply (hb b rfl) hs.sb hap, hs.active⟩

theorem pass (hs : s.Holds I J) {shouldBreak : Bool}
    (h : E.pass r s = .ok (s', shouldBreak)) : s'.Holds I J := by
  obtain ⟨p, hp, h⟩ := bind_ok.1 h
  have hp : p.Holds I J := by
    refine foldlM_induct (I := fun p => p.Holds I J) ?_ ⟨by simp, by simp⟩ hp
    intro strand hst p _ hp h
    exact hE.tryStrand hs.sb hp (hs.active strand hst) h
  obtain ⟨s1, h1, h⟩ := bind_ok.1 h
  have hs0 : FlowState.Holds { s with activeStrands := p.activeStrands, result := p.result } I J :=
    ⟨hs.sb, hp.active⟩
  have hs1 : s1.Holds I J := hE.useBest hs0 hp.best h1
  obtain ⟨sb, hsb, h⟩ := bind_ok.1 h
  cases h
  refine ⟨?_, hs1.active⟩
  refine foldlM_induct ?_ hs1.sb hsb
  intro _ _ sb _ hsb h
  exact hE.removeOffer hsb h

variable {baseView : Sb} {strands : List Strand} (hb : I baseView)
  (hJ : ∀ strand ∈ strands, J strand)

include hb hJ

theorem reaches (h : Reaches E r baseView strands s) : s.Holds I J := by
  induction h with
  | start => exact ⟨hE.child hb, hJ⟩
  | pass _ _ hp ih => exact hE.pass ih hp

theorem flowStrands {res : FlowResult Sb Key TIn TOut}
    (h : E.flowStrands r baseView strands = .ok res) (hok : res.ter = .tesSUCCESS) :
    ∀ sb ∈ res.sandbox, I sb := by
  obtain ht | ⟨s, i, o, hs, -, -, rfl⟩ := flowStrands_ok h
  · cases ht.symm.trans hok
  · obtain ⟨-, -, hsb, -⟩ := report_success hok
    simpa [hsb] using (hE.reaches hb hJ hs).sb

end
end Preserves
end StrandEngine
end FinPal
