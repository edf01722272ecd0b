import FinPal.Tx.Change
import Mathlib.Data.List.Dedup

/-!
# Activation of amendments
-/

namespace FinPal
open AmendmentTable Change List

/-! ## The votes -/

/-- The trusted validations that name an amendment. -/
def trustedVotes (valSet : List AmendmentBallot) (a : AmendmentID) : ℕ :=
  valSet.countP fun v => v.isTrusted && decide (a ∈ v.amendments.getD [])

/-- The votes that a majority takes. -/
def votesNeeded (majorityFraction : ℕ) (valSet : List AmendmentBallot) : ℕ :=
  max 1 (valSet.countP (·.isTrusted) * majorityFraction / 256)

namespace AmendmentSet

theorem lookup_foldl_increment (l : List AmendmentID) (votes : AList fun _ : AmendmentID => ℕ)
    (a : AmendmentID) :
    ((l.foldl increment votes).lookup a).getD 0 = (votes.lookup a).getD 0 + l.count a := by
  induction l generalizing votes with
  | nil => rfl
  | cons b l ih =>
    rw [foldl_cons, ih, increment]
    by_cases h : a = b
    · subst h
      rw [AList.lookup_insert, count_cons_self]
      simp only [Option.getD_some]
      omega
    · rw [AList.lookup_insert_ne h, count_cons_of_ne (Ne.symm h)]

theorem votes_tally (s : AmendmentSet) (l : List AmendmentID) (a : AmendmentID) :
    (s.tally l).votes a = s.votes a + if a ∈ l then 1 else 0 := by
  have hco : l.dedup.count a = if a ∈ l then 1 else 0 := by
    rw [Nodup.count l.nodup_dedup]
    simp
  rw [← hco]
  exact lookup_foldl_increment _ _ _

theorem ofValidations_eq (valSet : List AmendmentBallot) (a : AmendmentID) :
    (ofValidations valSet).votes a = trustedVotes valSet a ∧
      (ofValidations valSet).trustedValidations = valSet.countP (·.isTrusted) := by
  have hfo (s : AmendmentSet) :
      (valSet.foldl (fun s v => if v.isTrusted then s.tally (v.amendments.getD []) else s) s).votes a
          = s.votes a + trustedVotes valSet a ∧
        (valSet.foldl (fun s v => if v.isTrusted then s.tally (v.amendments.getD []) else s)
          s).trustedValidations = s.trustedValidations + valSet.countP (·.isTrusted) := by
    induction valSet generalizing s with
    | nil => exact ⟨rfl, rfl⟩
    | cons v valSet ih =>
      rw [foldl_cons]
      refine ⟨(ih _).1.trans ?_, (ih _).2.trans ?_⟩
      · unfold trustedVotes
        rw [countP_cons]
        cases hv : v.isTrusted with
        | false => simp
        | true =>
          simp only [if_true, votes_tally, Bool.true_and, decide_eq_true_eq]
          omega
      rw [countP_cons]
      cases hv : v.isTrusted with
      | false => simp
      | true =>
        change s.trustedValidations + 1 + _ = _
        simp only [if_true]
        omega
  have h := hfo {}
  exact ⟨h.1.trans (Nat.zero_add _), h.2.trans (Nat.zero_add _)⟩

theorem threshold_ofValidations (valSet : List AmendmentBallot) (fraction : ℕ) :
    (ofValidations valSet).threshold fraction = votesNeeded fraction valSet := by
  unfold threshold votesNeeded
  rw [(ofValidations_eq valSet 0).2]

end AmendmentSet

/-! ## The ledger object -/

/-- The amendment has an element in `sfMajorities`. -/
def HasEntry (sle : Option AmendmentsSLE) (a : AmendmentID) : Prop :=
  ∃ m ∈ majoritiesOf sle, m.amendment = a

instance (sle : Option AmendmentsSLE) (a : AmendmentID) : Decidable (HasEntry sle a) :=
  inferInstanceAs (Decidable (∃ m ∈ majoritiesOf sle, m.amendment = a))

theorem lookup_getMajorityAmendments {sle : Option AmendmentsSLE}
    (h : ((majoritiesOf sle).map Majority.amendment).Nodup) (a : AmendmentID) (t : NetTime) :
    (getMajorityAmendments sle).lookup a = some t ↔ ⟨a, t⟩ ∈ majoritiesOf sle := by
  have hfo (l : List Majority) (ret : AList fun _ : AmendmentID => NetTime)
      (hl : (l.map Majority.amendment).Nodup) :
      (l.foldl (fun ret m => ret.insert m.amendment m.closeTime) ret).lookup a = some t ↔
        ⟨a, t⟩ ∈ l ∨ ((∀ m ∈ l, m.amendment ≠ a) ∧ ret.lookup a = some t) := by
    induction l generalizing ret with
    | nil => simp
    | cons m l ih =>
      obtain ⟨hm, hl'⟩ := nodup_cons.1 hl
      rw [foldl_cons, ih _ hl', mem_cons, forall_mem_cons]
      by_cases ha : a = m.amendment
      · subst ha
        have hn : ∀ x ∈ l, x.amendment ≠ m.amendment := fun x hx heq =>
          hm (mem_map.2 ⟨x, hx, heq⟩)
        have hn' : (⟨m.amendment, t⟩ : Majority) ∉ l := fun hx => hn _ hx rfl
        rw [AList.lookup_insert]
        constructor
        · rintro (hx | ⟨-, hx⟩)
          · exact absurd hx hn'
          · cases hx
            exact .inl (.inl rfl)
        rintro ((hx | hx) | hx)
        · refine .inr ⟨hn, ?_⟩
          rw [← hx]
        · exact absurd hx hn'
        · exact absurd rfl hx.1.1
      have hne : (⟨a, t⟩ : Majority) ≠ m := by
        rintro rfl
        exact ha rfl
      rw [AList.lookup_insert_ne ha]
      simp only [hne, false_or, ne_eq, Ne.symm ha, not_false_eq_true, true_and]
  unfold getMajorityAmendments
  rw [hfo _ _ h]
  simp

theorem passThrough_lost (a : AmendmentID) (old : List Majority) : passThrough a false old =
      .ok (decide (∃ m ∈ old, m.amendment = a), old.filter fun m => m.amendment ≠ a) := by
  induction old with
  | nil => rfl
  | cons m old ih =>
    unfold passThrough
    rw [ih]
    by_cases h : m.amendment = a <;> simp [h, Except.map]

theorem passThrough_got (a : AmendmentID) (old : List Majority) : passThrough a true old =
      if ∃ m ∈ old, m.amendment = a then .error .tefALREADY else .ok (false, old) := by
  induction old with
  | nil => rfl
  | cons m old ih =>
    unfold passThrough
    rw [ih]
    by_cases h : m.amendment = a
    · simp [h]
    by_cases h' : ∃ m ∈ old, m.amendment = a
    · simp [h', Except.map]
    · simp [h', Except.map]

/-! ## One pseudo-transaction -/

/-- The object in the ledger, and the server's table. -/
structure AmendmentNode where
  sle : Option AmendmentsSLE
  table : AmendmentTable

open AmendmentNode
namespace AmendmentNode

abbrev enabled (s : AmendmentNode) : List AmendmentID := getEnabledAmendments s.sle

abbrev majorities (s : AmendmentNode) : List Majority := majoritiesOf s.sle

abbrev Has (s : AmendmentNode) (a : AmendmentID) : Prop := HasEntry s.sle a

/-- One pseudo-transaction on the entry and the table of a server. -/
def apply (parentCloseTime : NetTime) (s : AmendmentNode) (x : AmendmentID × UInt32) :
    AmendmentNode :=
  let r := applyAmendment parentCloseTime x.1 x.2 s.sle s.table
  ⟨r.2.1, r.2.2⟩

/-- What a pseudo-transaction can do. -/
inductive Applied (time : NetTime) (a : AmendmentID) (flags : UInt32) (s : AmendmentNode) :
    AmendmentNode → Prop where
  | same : a ∈ s.enabled ∨ (flags &&& tfGotMajority ≠ 0 ∧ (flags &&& tfLostMajority ≠ 0 ∨ s.Has a)) ∨
      (flags &&& tfLostMajority ≠ 0 ∧ ¬ s.Has a) → Applied time a flags s s
  | got {s' : AmendmentNode} : a ∉ s.enabled → flags &&& tfGotMajority ≠ 0 → ¬ s.Has a →
      s'.enabled = s.enabled → s'.majorities = s.majorities ++ [⟨a, time⟩] → s'.table = s.table →
      Applied time a flags s s'
  | lost {s' : AmendmentNode} : a ∉ s.enabled → flags &&& tfLostMajority ≠ 0 → s.Has a →
      s'.enabled = s.enabled → s'.majorities = s.majorities.filter (·.amendment ≠ a) →
      s'.table = s.table → Applied time a flags s s'
  | enable {s' : AmendmentNode} : a ∉ s.enabled → flags &&& tfGotMajority = 0 →
      flags &&& tfLostMajority = 0 → s'.enabled = s.enabled ++ [a] →
      s'.majorities = s.majorities.filter (·.amendment ≠ a) → s'.table = (s.table.enable a).2 →
      Applied time a flags s s'

theorem majoritiesOf_some (amendments : List AmendmentID) (l : List Majority) :
    majoritiesOf (some ⟨amendments, if l = [] then none else some l⟩) = l := by
  split
  · next h => exact h.symm
  · rfl

theorem applied_apply (time : NetTime) (s : AmendmentNode) (a : AmendmentID) (flags : UInt32) :
    Applied time a flags s (s.apply time (a, flags)) := by
  unfold apply applyAmendment
  by_cases hen : a ∈ getEnabledAmendments s.sle
  · rw [if_pos hen]
    exact .same (.inl hen)
  rw [if_neg hen]
  by_cases hg : flags &&& tfGotMajority ≠ 0
  · by_cases hlo : flags &&& tfLostMajority ≠ 0
    · rw [if_pos (by simp [hg, hlo])]
      exact .same (.inr (.inl ⟨hg, .inl hlo⟩))
    rw [if_neg (by simp [hlo]), decide_eq_true hg, passThrough_got]
    by_cases hh : ∃ m ∈ majoritiesOf s.sle, m.amendment = a
    · rw [if_pos hh]
      exact .same (.inr (.inl ⟨hg, .inr hh⟩))
    rw [if_neg hh]
    dsimp only
    rw [if_neg (by simp [hlo])]
    exact .got hen hg hh rfl (majoritiesOf_some _ _) rfl
  rw [if_neg (by simp [hg]), decide_eq_false hg, passThrough_lost]
  dsimp only
  by_cases hlo : flags &&& tfLostMajority ≠ 0
  · by_cases hh : ∃ m ∈ majoritiesOf s.sle, m.amendment = a
    · rw [if_neg (by simp [hh])]
      simp only [decide_eq_true hlo, Bool.not_true, Bool.false_eq_true, and_false, if_false]
      exact .lost hen hlo hh rfl (majoritiesOf_some _ _) rfl
    · rw [if_pos (by simp [hh, hlo])]
      exact .same (.inr (.inr ⟨hlo, hh⟩))
  rw [if_neg (by simp [hlo])]
  simp only [decide_eq_false hlo, Bool.not_false, and_self, Bool.false_eq_true, if_false,
    if_true]
  exact .enable hen (not_not.1 hg) (not_not.1 hlo) rfl (majoritiesOf_some _ _) rfl

/-- Nothing has changed for an amendment. -/
structure SameAt (a : AmendmentID) (s s' : AmendmentNode) : Prop where
  enabled : a ∈ s'.enabled ↔ a ∈ s.enabled
  entry : ∀ t, ⟨a, t⟩ ∈ s'.majorities ↔ ⟨a, t⟩ ∈ s.majorities

theorem SameAt.refl (a : AmendmentID) (s : AmendmentNode) : SameAt a s s :=
  ⟨Iff.rfl, fun _ => Iff.rfl⟩

variable {a : AmendmentID} {s s' : AmendmentNode}

theorem SameAt.trans {s'' : AmendmentNode} (h : SameAt a s s') (h' : SameAt a s' s'') :
    SameAt a s s'' :=
  ⟨h'.enabled.trans h.enabled, fun t => (h'.entry t).trans (h.entry t)⟩

theorem has_iff : s.Has a ↔ ∃ t, ⟨a, t⟩ ∈ s.majorities := by
  constructor
  · rintro ⟨⟨b, t⟩, hm, rfl⟩
    exact ⟨t, hm⟩
  · rintro ⟨t, hm⟩
    exact ⟨_, hm, rfl⟩

theorem SameAt.has (h : SameAt a s s') : s'.Has a ↔ s.Has a := by
  rw [has_iff, has_iff]
  exact exists_congr h.entry

section Apply
variable {time : NetTime} {a b : AmendmentID} {flags : UInt32} {s s' : AmendmentNode}

theorem Applied.other (h : Applied time b flags s s') (hne : a ≠ b) : SameAt a s s' := by
  cases h with
  | same _ => exact .refl a s
  | got _ _ _ hen hm _ =>
    refine ⟨by rw [hen], fun t => ?_⟩
    rw [hm]
    simp [hne]
  | lost _ _ _ hen hm _ =>
    refine ⟨by rw [hen], fun t => ?_⟩
    rw [hm]
    simp [hne]
  | enable _ _ _ hen hm _ =>
    refine ⟨?_, fun t => ?_⟩
    · rw [hen]
      simp [hne]
    · rw [hm]
      simp [hne]

/-- No amendment stands twice in the entry. -/
structure Consistent (s : AmendmentNode) : Prop where
  nodup : s.enabled.Nodup
  disjoint : ∀ m ∈ s.majorities, m.amendment ∉ s.enabled
  distinct : (s.majorities.map Majority.amendment).Nodup

theorem Consistent.of_sle {s s' : AmendmentNode} (h : s.Consistent) (hs : s'.sle = s.sle) :
    s'.Consistent := by
  obtain ⟨_, _⟩ := s
  cases hs
  exact ⟨h.nodup, h.disjoint, h.distinct⟩

theorem Applied.consistent (h : Applied time a flags s s') (hs : s.Consistent) : s'.Consistent := by
  cases h with
  | same _ => exact hs
  | got hn _ hh hen hmaj _ =>
    refine ⟨hen ▸ hs.nodup, ?_, ?_⟩
    · rw [hmaj, hen]
      intro m hm
      rcases mem_append.1 hm with hm | hm
      · exact hs.disjoint m hm
      · rw [mem_singleton.1 hm]
        exact hn
    rw [hmaj, map_append]
    refine hs.distinct.append (nodup_singleton a) ?_
    intro b hb hb'
    rw [mem_singleton.1 hb'] at hb
    obtain ⟨m, hm, rfl⟩ := mem_map.1 hb
    exact hh ⟨m, hm, rfl⟩
  | lost _ _ _ hen hmaj _ =>
    refine ⟨hen ▸ hs.nodup, ?_, ?_⟩
    · rw [hmaj, hen]
      exact fun m hm => hs.disjoint m (mem_of_mem_filter hm)
    · rw [hmaj]
      exact hs.distinct.sublist (filter_sublist.map _)
  | enable hn _ _ hen hmaj _ =>
    refine ⟨?_, ?_, ?_⟩
    · rw [hen]
      refine hs.nodup.append (nodup_singleton a) ?_
      intro b hb hb'
      rw [mem_singleton.1 hb'] at hb
      exact hn hb
    · rw [hmaj, hen]
      intro m hm
      obtain ⟨hm, hne⟩ := mem_filter.1 hm
      simp only [mem_append, mem_singleton, not_or]
      exact ⟨hs.disjoint m hm, by simpa using hne⟩
    · rw [hmaj]
      exact hs.distinct.sublist (filter_sublist.map _)

theorem Applied.grows (h : Applied time a flags s s') : s.enabled <+: s'.enabled := by
  cases h with
  | same _ => exact ⟨[], append_nil _⟩
  | got _ _ _ hen _ _ => exact ⟨[], by rw [hen, append_nil]⟩
  | lost _ _ _ hen _ _ => exact ⟨[], by rw [hen, append_nil]⟩
  | enable _ _ _ hen _ _ => exact ⟨[a], hen.symm⟩

end Apply

/-! ## The table -/

/-- The table knows what it knew, with the same parameters. -/
structure Extends (t t' : AmendmentTable) : Prop where
  known : ∀ a, a ∈ t.amendmentMap → a ∈ t'.amendmentMap
  majorityTime : t'.majorityTime = t.majorityTime
  majorityFraction : t'.majorityFraction = t.majorityFraction

theorem Extends.refl (t : AmendmentTable) : Extends t t := ⟨fun _ h => h, rfl, rfl⟩

theorem Extends.trans {t t' t'' : AmendmentTable} (h : Extends t t') (h' : Extends t' t'') :
    Extends t t'' :=
  ⟨fun a ha => h'.known a (h.known a ha), h'.majorityTime.trans h.majorityTime,
    h'.majorityFraction.trans h.majorityFraction⟩

theorem extends_modify (t : AmendmentTable) (a : AmendmentID) (f : AmendmentState → AmendmentState) :
    Extends t (t.modify a f) :=
  ⟨fun _ hb => (AList.mem_insert _).2 (.inr hb), rfl, rfl⟩

theorem Applied.table {time : NetTime} {flags : UInt32} (h : Applied time a flags s s') :
    Extends s.table s'.table := by
  cases h with
  | same _ => exact .refl _
  | got _ _ _ _ _ ht | lost _ _ _ _ _ ht =>
    rw [ht]
    exact .refl _
  | enable _ _ _ _ _ ht =>
    rw [ht]
    exact extends_modify _ _ ({ · with enabled := true })

/-! ## A flag ledger -/

def applyAll (time : NetTime) (s : AmendmentNode) (actions : List (AmendmentID × UInt32)) :
    AmendmentNode :=
  actions.foldl (apply time) s

section ApplyAll
variable {time : NetTime} {a : AmendmentID} {s : AmendmentNode}
  {actions : List (AmendmentID × UInt32)}

theorem applyAll_keeps (hs : s.Consistent) (time : NetTime)
    (actions : List (AmendmentID × UInt32)) : (s.applyAll time actions).Consistent ∧
    s.enabled <+: (s.applyAll time actions).enabled ∧
    Extends s.table (s.applyAll time actions).table := by
  induction actions generalizing s with
  | nil => exact ⟨hs, ⟨[], append_nil _⟩, .refl _⟩
  | cons x actions ih =>
    have h := applied_apply time s x.1 x.2
    obtain ⟨hs', hp, ht⟩ := ih (h.consistent hs)
    exact ⟨hs', h.grows.trans hp, h.table.trans ht⟩

theorem applyAll_other (h : ∀ x ∈ actions, x.1 ≠ a) : SameAt a s (s.applyAll time actions) := by
  induction actions generalizing s with
  | nil => exact .refl a s
  | cons x actions ih =>
    rw [forall_mem_cons] at h
    exact ((applied_apply time s x.1 x.2).other h.1.symm).trans (ih h.2)

theorem applyAll_self (time : NetTime) (s : AmendmentNode) (hno : (actions.map (·.1)).Nodup)
    {flags : UInt32} (h : (a, flags) ∈ actions) :
    ∃ s1 s2, SameAt a s s1 ∧ Applied time a flags s1 s2 ∧ SameAt a s2 (s.applyAll time actions) := by
  obtain ⟨l, l', rfl⟩ := append_of_mem h
  rw [map_append] at hno
  have hd := disjoint_of_nodup_append hno
  have ht := (nodup_cons.1 (Nodup.of_append_right hno)).1
  have hfi : ∀ x ∈ l, x.1 ≠ a := by
    rintro x hx rfl
    exact hd (mem_map.2 ⟨x, hx, rfl⟩) mem_cons_self
  have hl : ∀ x ∈ l', x.1 ≠ a := by
    rintro x hx rfl
    exact ht (mem_map.2 ⟨x, hx, rfl⟩)
  refine ⟨s.applyAll time l, _, applyAll_other hfi, applied_apply time _ a flags, ?_⟩
  unfold applyAll
  rw [foldl_append]
  exact applyAll_other hl

end ApplyAll

/-- A vote finds a majority of the trusted validations. -/
def Passes (t : AmendmentTable) (valSet : List AmendmentBallot) (a : AmendmentID) : Prop :=
  votesNeeded t.majorityFraction valSet ≤ trustedVotes valSet a

instance (t : AmendmentTable) (valSet : List AmendmentBallot) (a : AmendmentID) :
    Decidable (Passes t valSet a) :=
  inferInstanceAs (Decidable (_ ≤ _))

/-- The vote at a flag ledger, and the ledger after it with the pseudo-transactions in some order.
The vote is given `closeTime`; `time` is the close time of the new ledger's parent. -/
def vote (s : AmendmentNode) (closeTime time : NetTime) (valSet : List AmendmentBallot)
    (order : List (AmendmentID × UInt32) → List (AmendmentID × UInt32)) : AmendmentNode :=
  s.applyAll time
    (order (s.table.doVoting closeTime s.enabled (getMajorityAmendments s.sle) valSet))

/-- The time since which the vote finds a majority. -/
def since (s : AmendmentNode) (a : AmendmentID) : NetTime :=
  ((getMajorityAmendments s.sle).lookup a).getD 0

section Vote
variable {s : AmendmentNode} {closeTime time : NetTime} {valSet : List AmendmentBallot}
  {order : List (AmendmentID × UInt32) → List (AmendmentID × UInt32)} {a : AmendmentID}
  {flags : UInt32} {t : NetTime}

theorem since_eq (hs : s.Consistent) (h : ⟨a, t⟩ ∈ s.majorities) : s.since a = t := by
  unfold since
  rw [(lookup_getMajorityAmendments hs.distinct a t).2 h]
  rfl

theorem mem_of_since (hs : s.Consistent) (h : s.since a ≠ 0) : ⟨a, s.since a⟩ ∈ s.majorities := by
  refine (lookup_getMajorityAmendments hs.distinct a _).1 ?_
  unfold since at h ⊢
  cases ho : (getMajorityAmendments s.sle).lookup a with
  | none =>
    rw [ho] at h
    exact absurd rfl h
  | some t => rfl

theorem action_some {state : AmendmentState}
    (h : s.table.action closeTime s.enabled (getMajorityAmendments s.sle)
      (.ofValidations valSet) a state = some flags) :
    a ∉ s.enabled ∧ ((Passes s.table valSet a ∧ s.since a = 0 ∧ flags = tfGotMajority) ∨
        (¬ Passes s.table valSet a ∧ s.since a ≠ 0 ∧ flags = tfLostMajority) ∨
        (Passes s.table valSet a ∧ s.since a ≠ 0 ∧
          (s.since a).toNat + s.table.majorityTime ≤ closeTime.toNat ∧ flags = 0)) := by
  unfold action at h
  rw [AmendmentSet.threshold_ofValidations, (AmendmentSet.ofValidations_eq valSet a).1] at h
  dsimp only at h
  split at h
  · cases h
  next hn =>
  refine ⟨hn, ?_⟩
  split at h
  · next hg =>
    cases h
    exact .inl ⟨of_decide_eq_true hg.1, hg.2.1, rfl⟩
  next hg =>
  split at h
  · next hlo =>
    cases h
    have hle : trustedVotes valSet a < votesNeeded s.table.majorityFraction valSet := by
      simpa using hlo.1
    exact .inr (.inl ⟨hle.not_ge, hlo.2, rfl⟩)
  next hlo =>
  split at h
  · next hhe =>
    cases h
    refine .inr (.inr ⟨?_, hhe.1, hhe.2.1, rfl⟩)
    by_contra hpa
    exact hlo ⟨congrArg not (decide_eq_false hpa), hhe.1⟩
  · cases h

theorem action_lost (hn : a ∉ s.enabled) (hp : ¬ Passes s.table valSet a)
    (hsi : s.since a ≠ 0) (state : AmendmentState) :
    s.table.action closeTime s.enabled (getMajorityAmendments s.sle) (.ofValidations valSet) a state =
      some tfLostMajority := by
  unfold action
  rw [AmendmentSet.threshold_ofValidations, (AmendmentSet.ofValidations_eq valSet a).1]
  rw [if_neg hn, if_neg fun h => hp (of_decide_eq_true h.1),
    if_pos ⟨congrArg not (decide_eq_false hp), hsi⟩]

theorem mem_doVoting {table : AmendmentTable} {enabled : List AmendmentID}
    {majorities : AList fun _ : AmendmentID => NetTime} :
    (a, flags) ∈ table.doVoting closeTime enabled majorities valSet ↔
      ∃ state, table.get a = some state ∧
        table.action closeTime enabled majorities (.ofValidations valSet) a state = some flags := by
  unfold doVoting AmendmentTable.get
  rw [mem_insertionSort, mem_filterMap]
  constructor
  · rintro ⟨⟨b, state⟩, hm, ha⟩
    obtain ⟨f, hf, heq⟩ := Option.map_eq_some_iff.1 ha
    cases heq
    exact ⟨state, AList.mem_lookup_iff.2 hm, hf⟩
  · rintro ⟨state, hg, ha⟩
    exact ⟨⟨a, state⟩, AList.mem_lookup_iff.1 hg, by rw [ha]; rfl⟩

theorem nodup_doVoting (table : AmendmentTable) (enabled : List AmendmentID)
    (majorities : AList fun _ : AmendmentID => NetTime) :
    ((table.doVoting closeTime enabled majorities valSet).map (·.1)).Nodup := by
  have hfi (l : List (Sigma fun _ : AmendmentID => AmendmentState))
      (g : (Sigma fun _ : AmendmentID => AmendmentState) → Option UInt32) :
      ((l.filterMap fun e => (g e).map (e.1, ·)).map (·.1)).Sublist (l.map (·.1)) := by
    induction l with
    | nil => exact .slnil
    | cons e l ih =>
      cases hg : g e with
      | none =>
        rw [filterMap_cons_none (by simp [hg])]
        exact ih.cons _
      | some f =>
        rw [filterMap_cons_some (by simp [hg]; rfl)]
        exact ih.cons_cons _
  refine (((perm_insertionSort _ _).map _).nodup_iff).2 ?_
  exact table.amendmentMap.keys_nodup.sublist (hfi _ _)

theorem vote_cases (closeTime time : NetTime) (valSet : List AmendmentBallot)
    (hor : ∀ l, (order l).Perm l) (a : AmendmentID) :
    ((∀ state, s.table.get a = some state → s.table.action closeTime s.enabled
        (getMajorityAmendments s.sle) (.ofValidations valSet) a state = none) ∧
      SameAt a s (s.vote closeTime time valSet order)) ∨
    ∃ state flags s1 s2, s.table.get a = some state ∧ s.table.action closeTime s.enabled
        (getMajorityAmendments s.sle) (.ofValidations valSet) a state = some flags ∧
      SameAt a s s1 ∧ Applied time a flags s1 s2 ∧
      SameAt a s2 (s.vote closeTime time valSet order) := by
  have hpe := hor (s.table.doVoting closeTime s.enabled (getMajorityAmendments s.sle) valSet)
  by_cases h : ∃ flags,
      (a, flags) ∈ s.table.doVoting closeTime s.enabled (getMajorityAmendments s.sle) valSet
  · obtain ⟨flags, hm⟩ := h
    obtain ⟨state, hg, ha⟩ := mem_doVoting.1 hm
    have hno := ((hpe.map (·.1)).nodup_iff).2 (nodup_doVoting _ _ _)
    obtain ⟨s1, s2, h1, happ, h2⟩ := applyAll_self time s hno (hpe.mem_iff.2 hm)
    exact .inr ⟨state, flags, s1, s2, hg, ha, h1, happ, h2⟩
  refine .inl ⟨fun state hg => ?_, applyAll_other fun x hx hxa => ?_⟩
  · by_contra ha
    obtain ⟨flags, ha⟩ := Option.ne_none_iff_exists'.1 ha
    exact h ⟨flags, mem_doVoting.2 ⟨state, hg, ha⟩⟩
  · subst hxa
    exact h ⟨x.2, hpe.mem_iff.1 hx⟩

theorem got_and_lost : tfGotMajority &&& tfGotMajority ≠ 0 ∧ tfGotMajority &&& tfLostMajority = 0 ∧
    tfLostMajority &&& tfLostMajority ≠ 0 ∧ tfLostMajority &&& tfGotMajority = 0 := by decide

theorem enabled_by_vote (hs : s.Consistent) (hor : ∀ l, (order l).Perm l) (hn : a ∉ s.enabled)
    (h : a ∈ (s.vote closeTime time valSet order).enabled) :
    ∃ t, ⟨a, t⟩ ∈ s.majorities ∧ t ≠ 0 ∧ t.toNat + s.table.majorityTime ≤ closeTime.toNat ∧
      Passes s.table valSet a := by
  rcases vote_cases closeTime time valSet hor a with
    ⟨-, hsa⟩ | ⟨state, flags, s1, s2, -, hact, h1, ha, h2⟩
  · exact absurd (hsa.enabled.1 h) hn
  rw [h2.enabled] at h
  rw [← h1.enabled] at hn
  obtain ⟨-, ⟨-, -, rfl⟩ | ⟨-, -, rfl⟩ | ⟨hpa, hsi, hla, -⟩⟩ := action_some hact
  · cases ha with
    | same _ => exact absurd h hn
    | got _ _ _ hen _ _ => exact absurd (hen ▸ h) hn
    | lost _ hfl _ _ _ _ => exact absurd got_and_lost.2.1 hfl
    | enable _ hfl _ _ _ _ => exact absurd hfl got_and_lost.1
  · cases ha with
    | same _ => exact absurd h hn
    | got _ hfl _ _ _ _ => exact absurd got_and_lost.2.2.2 hfl
    | lost _ _ _ hen _ _ => exact absurd (hen ▸ h) hn
    | enable _ _ hfl _ _ _ => exact absurd hfl got_and_lost.2.2.1
  · exact ⟨s.since a, mem_of_since hs hsi, hsi, hla, hpa⟩

theorem lost_by_vote (hs : s.Consistent) (hor : ∀ l, (order l).Perm l)
    (h : ⟨a, t⟩ ∈ s.majorities) (ht : t ≠ 0) (hkn : a ∈ s.table.amendmentMap)
    (hpa : ¬ Passes s.table valSet a) : ¬ (s.vote closeTime time valSet order).Has a := by
  have hn : a ∉ s.enabled := hs.disjoint _ h
  have hsi : s.since a ≠ 0 := by rwa [since_eq hs h]
  rcases vote_cases closeTime time valSet hor a with
    ⟨hnone, -⟩ | ⟨state, flags, s1, s2, -, ha, h1, happ, h2⟩
  · obtain ⟨state, hg⟩ := Option.isSome_iff_exists.1 (AList.lookup_isSome.2 hkn)
    have ha := hnone state hg
    rw [action_lost hn hpa hsi] at ha
    cases ha
  rw [action_lost hn hpa hsi] at ha
  cases ha
  rw [h2.has]
  rw [← h1.enabled] at hn
  have hh : s1.Has a := h1.has.2 (has_iff.2 ⟨t, h⟩)
  have hfi (hmaj : s2.majorities = s1.majorities.filter (·.amendment ≠ a)) : ¬ s2.Has a := by
    rintro ⟨m, hm, rfl⟩
    change m ∈ s2.majorities at hm
    rw [hmaj] at hm
    simpa using (mem_filter.1 hm).2
  cases happ with
  | same hw =>
    rcases hw with hen | ⟨hfl, -⟩ | ⟨-, hno⟩
    · exact absurd hen hn
    · exact absurd got_and_lost.2.2.2 hfl
    · exact absurd hh hno
  | got _ hfl _ _ _ _ => exact absurd got_and_lost.2.2.2 hfl
  | lost _ _ _ _ hmaj _ => exact hfi hmaj
  | enable _ _ _ _ hmaj _ => exact hfi hmaj

theorem entry_of_vote (hor : ∀ l, (order l).Perm l)
    (h : ⟨a, t⟩ ∈ (s.vote closeTime time valSet order).majorities) :
    ⟨a, t⟩ ∈ s.majorities ∨ (¬ s.Has a ∧ Passes s.table valSet a ∧ a ∈ s.table.amendmentMap) := by
  rcases vote_cases closeTime time valSet hor a with
    ⟨-, hs⟩ | ⟨state, flags, s1, s2, hg, ha, h1, happ, h2⟩
  · exact .inl ((hs.entry t).1 h)
  rw [h2.entry] at h
  cases happ with
  | same _ => exact .inl ((h1.entry t).1 h)
  | lost _ _ _ _ hm _ | enable _ _ _ _ hm _ =>
    rw [hm] at h
    exact .inl ((h1.entry t).1 (mem_of_mem_filter h))
  | got _ hf hno _ hm _ =>
    refine .inr ⟨fun hh => hno (h1.has.2 hh), ?_, AList.lookup_isSome.1 (by
      rw [show s.table.amendmentMap.lookup a = some state from hg]; rfl)⟩
    obtain ⟨-, ⟨hp, -, -⟩ | ⟨-, -, rfl⟩ | ⟨hp, -⟩⟩ := action_some ha
    · exact hp
    · exact absurd got_and_lost.2.2.2 hf
    · exact hp

end Vote
end AmendmentNode

/-! ## Histories -/

/-- What an operator may ask of the table between votes. -/
inductive TableEvent
  | veto (a : AmendmentID)
  | unVeto (a : AmendmentID)
  | enable (a : AmendmentID)
  | disable (a : AmendmentID)
  | getJson (a : AmendmentID)
  | doValidatedLedger (enabled : List AmendmentID)

namespace TableEvent
open AmendmentNode

def step (t : AmendmentTable) : TableEvent → AmendmentTable
  | veto a => (t.veto a).2
  | unVeto a => (t.unVeto a).2
  | enable a => (t.enable a).2
  | disable a => (t.disable a).2
  | getJson a => t.getJson a
  | doValidatedLedger enabled => t.doValidatedLedger enabled

theorem extends_step (t : AmendmentTable) (e : TableEvent) : Extends t (e.step t) := by
  cases e with
  | veto a => exact extends_modify t a ({ · with vetoed := true })
  | enable a => exact extends_modify t a ({ · with enabled := true })
  | getJson a => exact extends_modify t a id
  | unVeto a =>
    change Extends t (t.unVeto a).2
    unfold AmendmentTable.unVeto
    split
    · exact .refl t
    split
    · exact extends_modify t a ({ · with vetoed := false })
    · exact .refl t
  | disable a =>
    change Extends t (t.disable a).2
    unfold AmendmentTable.disable
    split
    · exact .refl t
    split
    · exact extends_modify t a ({ · with enabled := false })
    · exact .refl t
  | doValidatedLedger enabled =>
    refine ⟨fun b hb => ?_, rfl, rfl⟩
    have hfo (l : List AmendmentID) (m : AList fun _ : AmendmentID => AmendmentState) (h : b ∈ m) :
        b ∈ l.foldl (fun m a =>
          m.insert a { (m.lookup a).getD {} with enabled := decide (a ∈ enabled) }) m := by
      induction l generalizing m with
      | nil => exact h
      | cons a l ih => exact ih _ ((AList.mem_insert _).2 (.inr h))
    exact hfo _ _ hb

end TableEvent

/-- A vote, with the server before and after it. -/
structure VoteRecord where
  before : AmendmentNode
  after : AmendmentNode
  valSet : List AmendmentBallot

def VoteRecord.Passes (r : VoteRecord) (a : AmendmentID) : Prop :=
  AmendmentNode.Passes r.before.table r.valSet a

/-- The runs of flag ledgers, with the votes, the last one first. They start without majorities;
between votes anything may happen to the server's table. -/
inductive AmendmentHistory : List VoteRecord → AmendmentNode → Prop where
  | genesis {s : AmendmentNode} : s.enabled.Nodup → s.majorities = [] → AmendmentHistory [] s
  | table {log : List VoteRecord} {s : AmendmentNode} (e : TableEvent) : AmendmentHistory log s →
      AmendmentHistory log { s with table := e.step s.table }
  | vote {log : List VoteRecord} {s : AmendmentNode} (closeTime time : NetTime)
      (valSet : List AmendmentBallot)
      {order : List (AmendmentID × UInt32) → List (AmendmentID × UInt32)} :
      AmendmentHistory log s → (∀ l, (order l).Perm l) →
      AmendmentHistory (⟨s, s.vote closeTime time valSet order, valSet⟩ :: log)
        (s.vote closeTime time valSet order)

/-- A vote made the entry, and it was kept since; in that vote and in every later one the amendment had
the votes. -/
def Held (a : AmendmentID) (t : NetTime) : List VoteRecord → Prop
  | [] => False
  | r :: log => ⟨a, t⟩ ∈ r.after.majorities ∧ r.Passes a ∧
    (¬ r.before.Has a ∨ (⟨a, t⟩ ∈ r.before.majorities ∧ Held a t log))

/-- Every entry of `sfMajorities` goes back to a vote in the log. -/
structure Traced (log : List VoteRecord) (s : AmendmentNode) : Prop extends
    AmendmentNode.Consistent s where
  known : ∀ m ∈ s.majorities, m.amendment ∈ s.table.amendmentMap
  held : ∀ m ∈ s.majorities, m.closeTime ≠ 0 → Held m.amendment m.closeTime log

theorem Traced.vote {log : List VoteRecord} {s : AmendmentNode} (h : Traced log s)
    (closeTime time : NetTime) (valSet : List AmendmentBallot)
    {order : List (AmendmentID × UInt32) → List (AmendmentID × UInt32)}
    (hor : ∀ l, (order l).Perm l) : Traced (⟨s, s.vote closeTime time valSet order, valSet⟩ :: log)
      (s.vote closeTime time valSet order) := by
  obtain ⟨hc, -, htab⟩ := applyAll_keeps h.toConsistent time (order
    (s.table.doVoting closeTime s.enabled (getMajorityAmendments s.sle) valSet))
  refine { hc with known := ?_, held := ?_ }
  · rintro ⟨a, t⟩ hm
    rcases entry_of_vote hor hm with hold | ⟨-, -, hkn⟩
    · exact htab.known a (h.known _ hold)
    · exact htab.known a hkn
  rintro ⟨a, t⟩ hm ht
  rcases entry_of_vote hor hm with hold | ⟨hn, hp, -⟩
  · have hp : Passes s.table valSet a := by
      by_contra hp
      exact lost_by_vote h.toConsistent hor hold ht (h.known _ hold) hp ⟨_, hm, rfl⟩
    exact ⟨hm, hp, .inr ⟨hold, h.held _ hold ht⟩⟩
  · exact ⟨hm, hp, .inl hn⟩

theorem AmendmentHistory.traced {log : List VoteRecord} {s : AmendmentNode}
    (h : AmendmentHistory log s) : Traced log s := by
  induction h with
  | @genesis s hnod hn =>
    have hno {P : Majority → Prop} : ∀ m ∈ s.majorities, P m := by
      rw [hn]
      nofun
    exact ⟨⟨hnod, hno, by rw [hn]; exact nodup_nil⟩, hno, hno⟩
  | @table log s e _ ih =>
    exact ⟨ih.toConsistent.of_sle rfl, fun m hm => (e.extends_step s.table).known _ (ih.known m hm),
      ih.held⟩
  | vote closeTime time valSet _ hor ih => exact ih.vote closeTime time valSet hor

/-- No amendment is ever enabled twice, or enabled and among the majorities, and a vote disables
nothing. What it enables has an entry that is old enough and has had the votes ever since it was
made; what has not the votes loses its entry, unless that carries the time 0. -/
theorem amendment_activation {log : List VoteRecord} {s : AmendmentNode}
    (h : AmendmentHistory log s) :
    (s.enabled.Nodup ∧ ∀ a ∈ s.enabled, ¬ s.Has a) ∧
    ∀ (closeTime time : NetTime) (valSet : List AmendmentBallot)
      (order : List (AmendmentID × UInt32) → List (AmendmentID × UInt32)),
      (∀ l, (order l).Perm l) →
      s.enabled <+: (s.vote closeTime time valSet order).enabled ∧
      (∀ a ∈ (s.vote closeTime time valSet order).enabled, a ∉ s.enabled →
        votesNeeded s.table.majorityFraction valSet ≤ trustedVotes valSet a ∧
        ∃ t, ⟨a, t⟩ ∈ s.majorities ∧ t.toNat + s.table.majorityTime ≤ closeTime.toNat ∧
          Held a t log) ∧
      ∀ m ∈ s.majorities, m.closeTime ≠ 0 →
        trustedVotes valSet m.amendment < votesNeeded s.table.majorityFraction valSet →
        ¬ (s.vote closeTime time valSet order).Has m.amendment := by
  have htr := h.traced
  refine ⟨⟨htr.nodup, ?_⟩, ?_⟩
  · rintro a ha ⟨m, hm, rfl⟩
    exact htr.disjoint m hm ha
  intro closeTime time valSet order hor
  refine ⟨(applyAll_keeps htr.toConsistent _ _).2.1, ?_, ?_⟩
  · intro a ha hn
    obtain ⟨t, hm, ht, hla, hpa⟩ := enabled_by_vote htr.toConsistent hor hn ha
    exact ⟨hpa, t, hm, hla, htr.held _ hm ht⟩
  intro m hm ht hle
  exact lost_by_vote htr.toConsistent hor hm ht (htr.known m hm)
    hle.not_ge

namespace Sample

def voter : AmendmentNode where
  sle := none
  table :=
    { amendmentMap := AList.insert 1 { supported := true } ∅
      majorityTime := 10
      majorityFraction := 204 }

def inFavour : List AmendmentBallot := [⟨true, some [1]⟩]
def against : List AmendmentBallot := [⟨true, none⟩]

/-- The amendment 1 has got its majority at a time. -/
def gotAt (time : NetTime) : AmendmentNode := voter.vote time time inFavour id

theorem gotAt_history (time : NetTime) :
    AmendmentHistory [⟨voter, gotAt time, inFavour⟩] (gotAt time) :=
  .vote time time inFavour (.genesis nodup_nil rfl) fun l => .refl l

end Sample

open Sample in
/-- A majority since the time 0 is no majority for the vote: nothing takes its entry away. -/
theorem zero_time_majority_kept :
    AmendmentHistory [⟨voter, gotAt 0, inFavour⟩] (gotAt 0) ∧ ⟨1, 0⟩ ∈ (gotAt 0).majorities ∧
      trustedVotes against 1 < votesNeeded (gotAt 0).table.majorityFraction against ∧
      ((gotAt 0).vote 20 20 against id).Has 1 :=
  ⟨gotAt_history 0, by decide, by decide, by decide⟩

open Sample in
/-- A majority of ten seconds enables, and a lost one does not. -/
theorem amendment_activation_sample :
    ((gotAt 5).vote 15 15 inFavour id).enabled = [1] ∧
      (∃ t, ⟨1, t⟩ ∈ (gotAt 5).majorities ∧ t.toNat + 10 ≤ 15 ∧
        Held 1 t [⟨voter, gotAt 5, inFavour⟩]) ∧
      ¬ ((gotAt 5).vote 15 15 against id).Has 1 := by
  have hen : ((gotAt 5).vote 15 15 inFavour id).enabled = [1] := by decide
  have hvo := (amendment_activation (gotAt_history 5)).2
  have hf := (hvo 15 15 inFavour id fun l => .refl l).2.1 1 (by rw [hen]; decide)
    (by decide)
  have hag := (hvo 15 15 against id fun l => .refl l).2.2 ⟨1, 5⟩ (by decide) (by decide)
    (by decide)
  exact ⟨hen, hf.2, hag⟩

end FinPal
