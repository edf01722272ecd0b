import FinPal.Verify.Approvals

/-!
# The memos of a token
-/

namespace FinPal
open Store ViewM State

/-! ## Entering memos -/

/-- The memos of a type. -/
def ofType (t : Blob) (memos : List Memo) : List Memo := memos.filter (·.memoType = some t)

variable {l l' : List Memo} {memo i : Memo} {t : Blob} {changed : Bool}

@[simp] theorem ofType_cons (t : Blob) (i : Memo) (l : List Memo) :
    ofType t (i :: l) = if i.memoType = some t then i :: ofType t l else ofType t l := by
  simp [ofType, List.filter_cons]

@[simp] theorem ofType_nil (t : Blob) : ofType t [] = [] := rfl

theorem ofType_append (t : Blob) (l l' : List Memo) :
    ofType t (l ++ l') = ofType t l ++ ofType t l' := List.filter_append ..

/-- What entering a memo does to the memos of its type. -/
inductive Entered (memo : Memo) : List Memo → List Memo → Prop
  | new : Entered memo [] [memo]
  | removed {i : Memo} {rest : List Memo} (hd : memo.memoData = some []) :
      Entered memo (i :: rest) rest
  | kept {i : Memo} {rest : List Memo} (hd : memo.memoData ≠ some [])
      (hi : i.memoData = memo.memoData) : Entered memo (i :: rest) (i :: rest)
  | replaced {i : Memo} {rest : List Memo} (hd : memo.memoData ≠ some []) :
      Entered memo (i :: rest) (memo :: rest)

theorem getFieldVL_ok {o : Option Blob} {b : Blob} (h : getFieldVL o = .ok b) : o = some b := by
  cases o with
  | none => cases h
  | some _ =>
    cases h
    rfl

/-- Only the memos of the type change, and nothing does without a change reported. -/
theorem updateMemosFrom_ok (hm : memo.memoType = some t)
    (h : updateMemosFrom t memo l = .ok (changed, l')) :
    Entered memo (ofType t l) (ofType t l') ∧ (∀ t' ≠ t, ofType t' l' = ofType t' l) ∧
      (changed = false → l' = l) := by
  induction l generalizing l' changed with
  | nil =>
    cases h
    refine ⟨by simpa [hm] using Entered.new, fun t' ht => ?_, by simp⟩
    simp [hm, ht.symm]
  | cons info rest ih =>
    obtain ⟨t₁, ht₁, h₁⟩ := bind_ok.1 h
    replace ht₁ := getFieldVL_ok ht₁
    split at h₁
    · next hne =>
      obtain ⟨⟨c, rest'⟩, hr, h₂⟩ := bind_ok.1 h₁
      cases h₂
      obtain ⟨he, hot, hun⟩ := ih hr
      have hi : info.memoType ≠ some t := by simpa [ht₁] using hne
      refine ⟨by simpa [hi] using he, fun t' ht => ?_, fun hc => by rw [hun hc]⟩
      simp [hot t' ht]
    next heq =>
    obtain rfl : t₁ = t := not_not.1 heq
    have hot (t') (ht : t' ≠ t₁) : ofType t' (memo :: rest) = ofType t' (info :: rest) ∧
        ofType t' rest = ofType t' (info :: rest) := by
      simp [ht₁, hm, ht.symm]
    obtain ⟨data, hd, h₂⟩ := bind_ok.1 h₁
    replace hd := getFieldVL_ok hd
    split at h₂
    · next hpos =>
      have hne : memo.memoData ≠ some [] := by
        rw [hd]
        rintro ⟨⟩
        cases hpos
      obtain ⟨data', hd', h₃⟩ := bind_ok.1 h₂
      replace hd' := getFieldVL_ok hd'
      split at h₃
      · next hda =>
        cases h₃
        refine ⟨?_, fun _ _ => rfl, fun _ => rfl⟩
        simpa [ht₁] using Entered.kept hne (by rw [hd, hd', hda])
      · cases h₃
        refine ⟨?_, fun t' ht => (hot t' ht).1, by simp⟩
        simpa [ht₁, hm] using Entered.replaced hne
    · next hpos =>
      cases h₂
      have hem : memo.memoData = some [] := by
        rw [hd, List.length_eq_zero_iff.1 (Nat.eq_zero_of_not_pos hpos)]
      refine ⟨?_, fun t' ht => (hot t' ht).2, by simp⟩
      simpa [ht₁] using Entered.removed hem

theorem updateMemos_ok (h : updateMemos l memo = .ok (changed, l')) :
    ∃ t, memo.memoType = some t ∧ Entered memo (ofType t l) (ofType t l') ∧
      (∀ t' ≠ t, ofType t' l' = ofType t' l) ∧ (changed = false → l' = l) := by
  obtain ⟨t, ht, h⟩ := bind_ok.1 h
  replace ht := getFieldVL_ok ht
  exact ⟨t, ht, updateMemosFrom_ok ht h⟩

/-! ## The last memo of each type -/

/-- The last memo given with a type, unless its data are empty. -/
def latestMemo (t : Blob) (given : List Memo) : List Memo :=
  (ofType t given).getLast?.toList.filter (·.memoData ≠ some [])

/-- The array holds the last memo of each type and no other. -/
def HoldsLatest (infos given : List Memo) : Prop := ∀ t, ofType t infos = latestMemo t given

/-- What may be given after a memo of the same type: empty data only after other data, and the same
data only with the same memo. -/
def MayFollow (last memo : Memo) : Prop :=
  if memo.memoData = some [] then last.memoData ≠ some [] else
    last.memoData = memo.memoData → last = memo

/-- `CreateToken` was given one memo of a type at most. The first memo given of a type has not empty
data, and each later one may follow the one before it. -/
structure CleanMemos (created set : List Memo) : Prop where
  single : ∀ t, (ofType t created).length ≤ 1
  first : ∀ t, ∀ memo ∈ (ofType t (created ++ set)).head?, memo.memoData ≠ some []
  follow : ∀ t, (ofType t (created ++ set)).IsChain MayFollow

theorem CleanMemos.of_append {created set more : List Memo}
    (h : CleanMemos created (set ++ more)) : CleanMemos created set where
  single := h.single
  first t memo hm := by
    refine h.first t memo ?_
    rw [← List.append_assoc, ofType_append, List.head?_append, Option.mem_def.1 hm]
    rfl
  follow t := by
    have hf := h.follow t
    rw [← List.append_assoc, ofType_append] at hf
    exact (List.isChain_append.1 hf).1

/-- One memo more. -/
theorem HoldsLatest.enter {created set : List Memo} (h : HoldsLatest l (created ++ set))
    (hcl : CleanMemos created (set ++ [memo])) (he : updateMemos l memo = .ok (changed, l')) :
    HoldsLatest l' (created ++ (set ++ [memo])) := by
  obtain ⟨t, ht, hen, hot, -⟩ := updateMemos_ok he
  rw [← List.append_assoc]
  intro t'
  rw [latestMemo, ofType_append]
  by_cases htt : t' = t
  · subst htt
    have hg : ofType t' [memo] = [memo] := by simp [ofType, ht]
    rw [hg, List.getLast?_concat, Option.toList_some]
    have hla := h t'
    have hfi := hcl.first t'
    have hfo := hcl.follow t'
    rw [← List.append_assoc, ofType_append, hg] at hfi hfo
    rw [latestMemo] at hla
    generalize ofType t' l' = stored at hen ⊢
    -- the memo given before it, if there is one
    rcases List.eq_nil_or_concat (ofType t' (created ++ set)) with hno | ⟨pre, last, hla'⟩
    · rw [hno] at hla hfi
      rw [hla] at hen
      cases hen
      simp [hfi memo rfl]
    rw [List.concat_eq_append] at hla'
    have hfl := (List.isChain_append.1 hfo).2.2 last (by simp [hla']) memo rfl
    rw [hla', List.getLast?_concat, Option.toList_some] at hla
    unfold MayFollow at hfl
    by_cases hl : last.memoData = some []
    · rw [List.filter_cons_of_neg (by simpa using hl)] at hla
      rw [hla] at hen
      cases hen
      by_cases hm : memo.memoData = some []
      · exact absurd hl (by simpa [hm] using hfl)
      · simp [hm]
    · rw [List.filter_cons_of_pos (by simpa using hl)] at hla
      rw [hla] at hen
      cases hen with
      | removed hd => simp [hd]
      | kept hd hi =>
        rw [if_neg hd] at hfl
        simp [hfl hi, hd]
      | replaced hd => simp [hd]
  · have hg : ofType t' [memo] = [] := by simp [ofType, ht, Ne.symm htt]
    rw [hot t' htt, hg, List.append_nil]
    exact h t'

theorem HoldsLatest.enterAll {created set given : List Memo} {r r' : Bool × List Memo}
    (h : HoldsLatest r.2 (created ++ set)) (hcl : CleanMemos created (set ++ given))
    (he : given.foldlM (fun r memo => do
      let (changed, infos) ← updateMemos r.2 memo
      return (r.1 || changed, infos)) r = .ok r') :
    HoldsLatest r'.2 (created ++ (set ++ given)) ∧
      (r'.1 = false → r.1 = false ∧ r'.2 = r.2) := by
  induction given generalizing r set with
  | nil =>
    cases he
    exact ⟨by simpa using h, fun hc => ⟨hc, rfl⟩⟩
  | cons memo given ih =>
    rw [List.foldlM_cons] at he
    obtain ⟨r₁, h₁, he⟩ := bind_ok.1 he
    obtain ⟨⟨c, infos⟩, hu, h₁⟩ := bind_ok.1 h₁
    cases h₁
    rw [List.append_cons] at hcl ⊢
    obtain ⟨hh, hun⟩ := ih (h.enter hcl.of_append hu) hcl he
    refine ⟨hh, fun hc => ?_⟩
    obtain ⟨hc₁, hi⟩ := hun hc
    obtain ⟨hr, hc₂⟩ := Bool.or_eq_false_iff.1 hc₁
    obtain ⟨-, -, -, -, hun⟩ := updateMemos_ok hu
    exact ⟨hr, hi.trans (hun hc₂)⟩

/-! ## Runs -/

section Runs
variable {k : Keylet NFToken} {σ σ' : State} {created set : List Memo} {tx : STTx}

/-- The memos that a token stores. -/
def State.memosAt (σ : State) (k : Keylet NFToken) : List Memo :=
  ((σ.get k).bind (·.memos)).getD []

/-- A token with the memos that `CreateToken` was given, and `SetToken` since. What else happens
leaves its memos alone. -/
inductive MemoRun (k : Keylet NFToken) : State → List Memo → List Memo → Prop
  | created {σ σ' : State} {f : CreateToken} {tx : STTx} : keylet.nfToken f.assetID f.ident = k →
      exec (f.doApply tx) σ = .ok (.tesSUCCESS, σ') → MemoRun k σ' (tx.memos.getD []) []
  | set {σ σ' : State} {f : SetToken} {tx : STTx} {created set : List Memo} :
      MemoRun k σ created set → f.token.tokenKey = k →
      exec (f.doApply tx) σ = .ok (.tesSUCCESS, σ') →
      MemoRun k σ' created (set ++ tx.memos.getD [])
  | elsewhere {σ σ' : State} {created set : List Memo} : MemoRun k σ created set →
      (σ'.get k).bind (·.memos) = (σ.get k).bind (·.memos) → MemoRun k σ' created set

theorem createToken_memos {f : CreateToken} (h : Succeeds (f.doApply tx) σ σ') :
    (σ'.get (keylet.nfToken f.assetID f.ident)).bind (·.memos) = tx.memos := by
  obtain ⟨_, -, h⟩ := exec_require h
  obtain ⟨-, h⟩ := exec_absent h
  obtain ⟨-, h⟩ := exec_guard h
  obtain ⟨_, -, h⟩ := exec_update_ok h
  obtain ⟨m, _, -, h⟩ := exec_bind.1 h
  obtain ⟨-, h⟩ := exec_insert_ok h
  obtain ⟨_, _, h4, h⟩ := exec_bind.1 h
  obtain rfl := exec_upsert h4 fun _ => rfl
  obtain ⟨_, h5⟩ := exec_last h
  obtain rfl := exec_upsert h5 fun _ => rfl
  rw [get_set_ne (by rintro ⟨⟩), get_set_ne (by rintro ⟨⟩), get_set_self]
  rfl

/-- Where `SetToken` applies, the memos of the transaction have been entered. -/
theorem setToken_memos {f : SetToken}
    (hla : HoldsLatest (σ.memosAt f.token.tokenKey) (created ++ set))
    (hcl : CleanMemos created (set ++ tx.memos.getD []))
    (h : Succeeds (f.doApply tx) σ σ') :
    HoldsLatest (σ'.memosAt f.token.tokenKey) (created ++ (set ++ tx.memos.getD [])) := by
  obtain ⟨tok, ht, -, r, -, hr, rfl⟩ := setToken_ok h
  rw [State.memosAt, ht] at hla
  obtain ⟨hh, hun⟩ := hla.enterAll (r := (false, tok.memos.getD [])) hcl hr
  rw [State.memosAt, get_set_self, Option.bind_some]
  dsimp only
  split_ifs with hc he
  · rwa [List.isEmpty_iff.1 he] at hh
  · exact hh
  · rwa [(hun (Bool.not_eq_true _ ▸ hc)).2] at hh

theorem CleanMemos.holdsLatest (h : CleanMemos created []) : HoldsLatest created created := by
  intro t
  have hc := h.single t
  have hf := h.first t
  rw [List.append_nil] at hf
  rw [latestMemo]
  match hm : ofType t created, hc with
  | [], _ => rfl
  | [memo], _ =>
    rw [hm] at hf
    simp [hf memo rfl]

/-- A token's memos are a map from types to the memos last given, if what `CreateToken` and
`SetToken` have been given is clean. -/
theorem token_memos_map (h : MemoRun k σ created set) (hclean : CleanMemos created set) :
    HoldsLatest (σ.memosAt k) (created ++ set) := by
  induction h with
  | created hk h =>
    subst hk
    rw [List.append_nil, State.memosAt, createToken_memos h]
    exact hclean.holdsLatest
  | set _ hk h ih =>
    subst hk
    exact setToken_memos (ih hclean.of_append) hclean h
  | elsewhere _ h ih =>
    rw [State.memosAt, h]
    exact ih hclean

end Runs

namespace Sample

/-- The code and the state a program ends with. -/
def result (p : ViewM TER) (σ : State) : TER × State := (exec p σ).toOption.getD (.tefINTERNAL, σ)

theorem exec_result {p : ViewM TER} {σ : State} (h : (result p σ).1 = .tesSUCCESS) :
    exec p σ = .ok (.tesSUCCESS, (result p σ).2) := by
  unfold result at *
  cases he : exec p σ with
  | error e =>
    rw [he] at h
    cases h
  | ok r =>
    rw [he] at h
    exact congrArg (fun t => Except.ok (t, r.2)) h

def created : State := (result (createToken.doApply (tx 2 2 2)) nft₁.state).2

def setMemos (memos : List Memo) : ViewM TER :=
  SetToken.doApply { token := { assetID := some (.nfAsset 2 [65]), ident := some [1] }
                     serialize := fun _ => [] }
    { tx 3 3 1 with memos := some memos }

abbrev token₁ : Keylet NFToken := keylet.nfToken (.nfAsset 2 [65]) [1]

theorem memoRun_created : MemoRun token₁ created [] [] :=
  .created rfl (exec_result (p := createToken.doApply (tx 2 2 2)) (by decide +kernel))

theorem memoRun_set {σ : State} {given : List Memo} (memos : List Memo)
    (hr : MemoRun token₁ σ [] given) (h : (result (setMemos memos) σ).1 = .tesSUCCESS) :
    MemoRun token₁ (result (setMemos memos) σ).2 [] (given ++ memos) :=
  .set hr rfl (exec_result h)

def link (data : Blob) : Memo := { memoType := some [67], memoData := some data }

def note : Memo := { memoType := some [68], memoData := some [2] }

def noted : State := (result (setMemos [link [1], note]) created).2

/-- Two memos are given, and then one of them is removed. -/
theorem token_memos_map_removed :
    HoldsLatest ((result (setMemos [link []]) noted).2.memosAt token₁)
      [link [1], note, link []] := by
  have hr := memoRun_set [link []] (memoRun_set [link [1], note] memoRun_created
    (by decide +kernel)) (by decide +kernel)
  refine token_memos_map hr ⟨fun _ => Nat.zero_le 1, fun t => ?_, fun t => ?_⟩
  all_goals
    by_cases h67 : t = [67]
    · subst h67
      simp [ofType, link, note, MayFollow]
    · by_cases h68 : t = [68]
      · subst h68
        simp [ofType, link, note]
      · simp [ofType, link, note, Ne.symm h67, Ne.symm h68]

/-- A memo with empty data, of a type that the token has no memo of, is stored. -/
theorem empty_memo_stored : ∃ σ, MemoRun token₁ σ [] [link []] ∧
    ¬ HoldsLatest (σ.memosAt token₁) [link []] := by
  refine ⟨_, memoRun_set [link []] memoRun_created (by decide +kernel), fun h => ?_⟩
  have hs : ofType [67] ((result (setMemos [link []]) created).2.memosAt token₁) =
    [link []] := by decide +kernel
  rw [h] at hs
  cases hs

end Sample
end FinPal
