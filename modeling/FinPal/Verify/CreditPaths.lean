import FinPal.Verify.TrustLineSteps

/-!
# Two ways to credit a line

`mtchainCredit` updates the tracker before it clears the reserve, `issueIOU` and `redeemIOU` after
it. The order makes no difference: a total depends on balances and limits alone.
-/

namespace FinPal
open Store ViewM State Keeps
variable {σ σ1 σ' : State} {k : Keylet MTChainState} {sender A B : AccountID} {c : Currency}
  {v before after : STAmount} {ter : TER} {high : Bool}

/-! ## Steps before and after the update of a tracker -/

theorem SameTotals.update (h : SameTotals σ σ1)
    (htr : σ1 (keylet.tracker v.issue).key = σ (keylet.tracker v.issue).key)
    (he : exec (updateIssueTotalAmount v) σ = .ok (ter, σ')) :
    exec (updateIssueTotalAmount v) σ1 = .ok (ter, Function.update σ1 (keylet.tracker v.issue).key
      (σ' (keylet.tracker v.issue).key)) := by
  have hg : σ1.get (keylet.tracker v.issue) = σ.get (keylet.tracker v.issue) := by
    unfold State.get
    rw [htr]
  rw [exec_updateIssueTotalAmount, hg]
  rcases exec_updateIssueTotalAmount.1 he with ⟨hn, rfl, rfl⟩ | ⟨t, total, ht, hto, rfl, rfl⟩
  · exact .inl ⟨hn, rfl, by rw [← htr, Function.update_eq_self]⟩
  · refine .inr ⟨t, total, ht, (h.newTotal hto).2, rfl, ?_⟩
    rw [State.set, State.set, Function.update_self]

/-- Two programs succeed on the same states with the same results. -/
def EndsAlike {β : Type} (σ : State) (p q : ViewM β) : Prop :=
  ∀ b σ', exec p σ = .ok (b, σ') ↔ exec q σ = .ok (b, σ')

section Steps
variable {α β : Type} [IsEntry α] {k : Keylet α} (hk : k.key ≠ (keylet.tracker v.issue).key)
include hk

theorem hook_get (h : exec (updateIssueTotalAmount v) σ = .ok (ter, σ')) : σ'.get k = σ.get k := by
  rcases exec_updateIssueTotalAmount.1 h with ⟨-, -, rfl⟩ | ⟨_, _, -, -, -, rfl⟩
  · rfl
  · exact get_set_ne hk _

theorem hook_peek! {g g' : α → ViewM β}
    (hg : ∀ a, σ.get k = some a → EndsAlike σ (updateIssueTotalAmount v >>= fun _ => g a) (g' a)) :
    EndsAlike σ (updateIssueTotalAmount v >>= fun _ => peek! k >>= g) (peek! k >>= g') := by
  intro b _
  constructor
  · intro h
    obtain ⟨ter, σ1, hp, h⟩ := exec_bind.1 h
    obtain ⟨a, ha, h⟩ := exec_peek!_ok h
    rw [hook_get hk hp] at ha
    rw [exec_peek!_bind ha]
    exact (hg a ha ..).1 (exec_bind.2 ⟨ter, σ1, hp, h⟩)
  intro h
  obtain ⟨a, ha, h⟩ := exec_peek!_ok h
  obtain ⟨ter, σ1, hp, h⟩ := exec_bind.1 ((hg a ha ..).2 h)
  refine exec_bind.2 ⟨ter, σ1, hp, ?_⟩
  rwa [exec_peek!_bind ((hook_get hk hp).trans ha)]

theorem hook_update {f : α → α} {a : α} {g g' : ViewM β} (ha : σ.get k = some a)
    (hf : SameTotals σ (σ.set k (f a)))
    (hg : EndsAlike (σ.set k (f a)) (updateIssueTotalAmount v >>= fun _ => g) g') :
    EndsAlike σ (updateIssueTotalAmount v >>= fun _ => update k f >>= fun _ => g)
      (update k f >>= fun _ => g') := by
  have htr : σ.set k (f a) (keylet.tracker v.issue).key = σ (keylet.tracker v.issue).key :=
    Function.update_of_ne hk.symm ..
  have hse {σ σ1 ter} (h : exec (updateIssueTotalAmount v) σ = .ok (ter, σ1)) :
      σ1 = Function.update σ (keylet.tracker v.issue).key (σ1 (keylet.tracker v.issue).key) :=
    (Prod.mk.inj (Except.ok.inj (h.symm.trans (SameTotals.update (.refl σ) rfl h)))).2
  intro b _
  rw [exec_update_bind ha, ← hg]
  constructor
  · intro h
    obtain ⟨ter, σ1, hp, h⟩ := exec_bind.1 h
    rw [exec_update_bind ((hook_get hk hp).trans ha), hse hp, State.set,
      Function.update_comm hk.symm] at h
    exact exec_bind.2 ⟨ter, _, hf.update htr hp, h⟩
  intro h
  obtain ⟨ter, σ1, hp, h⟩ := exec_bind.1 h
  have hp' := hf.symm.update htr.symm hp
  refine exec_bind.2 ⟨ter, _, hp', ?_⟩
  rw [exec_update_bind ((hook_get hk hp').trans ha), State.set, Function.update_comm hk.symm]
  rwa [hse hp] at h

end Steps

/-! ## Clearing a reserve -/

theorem account_key_ne_tracker (sender : AccountID) (I : Issue) :
    (keylet.account sender).key ≠ (keylet.tracker I).key := by
  obtain ⟨a, b, hab⟩ := exists_line_key mAccount I.account I.currency
  rw [keylet.tracker, hab]
  simp [keylet.account]

theorem SameTotals.set_account {a : AccountRoot} (ha : σ.get (keylet.account sender) = some a)
    (a' : AccountRoot) : SameTotals σ (σ.set (keylet.account sender) a') := by
  have hL : Keeps MTChainState σ (σ.set (keylet.account sender) a') := (permits fun _ => rfl).set _ ha
  exact ⟨(permits fun _ => rfl).set _ ha, fun k => by rw [hL]⟩

theorem SameTotals.set_flags {s : MTChainState} (hs : σ.get k = some s) (flags : UInt32) :
    SameTotals σ (σ.set k { s with flags }) := by
  refine ⟨(permits fun _ => rfl).set _ hs, fun k' => ?_⟩
  rw [get_set]
  split
  · next hk =>
    obtain rfl : k' = k := by cases k'; cases k; cases hk; rfl
    rw [hs]
    rfl
  · rfl

theorem hook_updateTrustLine (hk : k.key ≠ (keylet.tracker v.issue).key) {g : Bool → ViewM TER} :
    EndsAlike σ
      (updateIssueTotalAmount v >>= fun _ => updateTrustLine k high sender before after >>= g)
      (updateTrustLine k high sender before after >>= fun b =>
        updateIssueTotalAmount v >>= fun _ => g b) := by
  have hse := account_key_ne_tracker sender v.issue
  unfold updateTrustLine
  simp only [bind_assoc]
  refine hook_peek! hk fun s hs => ?_
  split
  · simp only [bind_assoc]
    refine hook_peek! hse fun a ha => ?_
    split
    · simp only [bind_assoc, adjustOwnerCount]
      refine hook_update hse ha (.set_account ha _) ?_
      have hs' := (get_set_ne (key_ne hs ha rfl)
        { a with ownerCount := adjustedOwnerCount a.ownerCount (-1) }).trans hs
      exact hook_update hk hs' (.set_flags hs' _) fun _ _ => .rfl
    · exact fun _ _ => .rfl
  · exact fun _ _ => .rfl

theorem credit_comm (hA : A ≠ mAccount) (hB : B ≠ mAccount) {src dst : AccountID}
    {x : Except Fault STAmount} {g : STAmount → Bool → ViewM TER} :
    EndsAlike σ (creditHook src dst v before >>= fun _ => ofExcept x >>= fun after =>
        updateTrustLine (keylet.line A B c) high sender before after >>= g after)
      (ofExcept x >>= fun after =>
        updateTrustLine (keylet.line A B c) high sender before after >>= fun b =>
          creditHook src dst v before >>= fun _ => g after b) := by
  rw [creditHook_eq]
  cases x with
  | ok after => exact hook_updateTrustLine (line_key_ne_tracker hA hB)
  | error e =>
    refine fun ter σ' => ⟨fun h => ?_, nofun⟩
    obtain ⟨_, _, -, h⟩ := exec_bind.1 h
    cases h

/-- On an existing line both ways to move an amount end alike, from the holder to the issuer and back:
with the same code, the same line or none, and the same accounts. -/
theorem credit_paths_agree {holder : AccountID} {amount : STAmount} (hh : holder ≠ mAccount)
    (hi : amount.getIssuer ≠ mAccount)
    (hline : (σ.get (keylet.line holder amount.getIssuer amount.getCurrency)).isSome) :
    EndsAlike σ (mtchainCredit holder amount.getIssuer amount)
      (redeemIOU holder amount amount.issue) ∧
    EndsAlike σ (mtchainCredit amount.getIssuer holder amount)
      (issueIOU holder amount amount.issue) := by
  obtain ⟨s, hs⟩ := Option.isSome_iff_exists.1 hline
  constructor
  · intro ter σ'
    have hs' : σ.get (keylet.line holder amount.issue.account amount.issue.currency) = some s := hs
    rw [mtchainCredit_eq, redeemIOU_eq, exec_peek_bind, exec_peek_bind, hs, hs']
    exact credit_comm hh hi ter σ'
  intro ter σ'
  rw [line_key_comm] at hs
  have hs' : σ.get (keylet.line amount.issue.account holder amount.issue.currency) = some s := hs
  rw [mtchainCredit_eq, issueIOU_eq, exec_peek_bind, exec_peek_bind, hs, hs']
  exact credit_comm hi hh ter σ'

namespace Sample

/-- How a program ends: its code, the owner counts of accounts 2 and 3, and whether they have a
line. -/
def creditEnd (p : ViewM TER) (σ : State) : Option (TER × Option UInt32 × Option UInt32 × Bool) :=
  (exec p σ).toOption.map fun (r : TER × State) =>
    (r.1, (r.2.get (keylet.account 2)).map (·.ownerCount),
      (r.2.get (keylet.account 3)).map (·.ownerCount), (r.2.get (keylet.line 3 2 5)).isSome)

def twoAccounts : State
  | .account 2 => some (.accountRoot { account := 2, sequence := 1, balance := 500 })
  | .account 3 => some (.accountRoot { account := 3, sequence := 1, balance := 500 })
  | _ => none

/-- Account 2 has issued ten to account 3, which has a new line for it. -/
def held : State :=
  ((exec (issueIOU 3 (.issued ⟨5, 2⟩ 10) ⟨5, 2⟩) twoAccounts).toOption.map (·.2)).getD twoAccounts

/-- With the ten account 3 gives back its line, and with it the owner count for its reserve. -/
theorem credit_paths_agree_held :
    creditEnd (pure .tesSUCCESS) held = some (.tesSUCCESS, some 0, some 1, true) ∧
    creditEnd (mtchainCredit 3 2 (.issued ⟨5, 2⟩ 10)) held =
      some (.tesSUCCESS, some 0, some 0, false) ∧
    EndsAlike held (mtchainCredit 3 2 (.issued ⟨5, 2⟩ 10))
      (redeemIOU 3 (.issued ⟨5, 2⟩ 10) ⟨5, 2⟩) ∧
    EndsAlike held (mtchainCredit 2 3 (.issued ⟨5, 2⟩ 10))
      (issueIOU 3 (.issued ⟨5, 2⟩ 10) ⟨5, 2⟩) :=
  ⟨by decide +kernel, by decide +kernel,
    @credit_paths_agree held 3 (.issued ⟨5, 2⟩ 10) (by decide) (by decide) (by decide +kernel)⟩

end Sample
end FinPal
