import FinPal.Tx.Operator
import FinPal.Tx.PayChan

/-!
# What the payment channel transactors do
-/

namespace FinPal
open Store ViewM
variable {σ σ' : State} {ctx : ApplyContext} {k : Keylet PayChan}

/-- The drops of a channel that have not been paid. -/
def PayChan.held (c : PayChan) : Int := c.amount.nativeDrops - c.balance.nativeDrops

/-- Only the expiration of the channel is written. -/
def Retimed (k : Keylet PayChan) (σ σ' : State) : Prop :=
  σ' = σ ∨ ∃ c e, σ.get k = some c ∧ σ' = σ.set k { c with expiration := e }

/-- The channel leaves the directory and the ledger, and its owner gets what it held. -/
structure ChannelClosed (k : Keylet PayChan) (c : PayChan) (amount balance : Int) (σ σ' : State) :
    Prop where
  found : σ.get k = some c
  amount_eq : c.amount = .native amount
  balance_eq : c.balance = .native balance
  written : ∃ (σ₁ : State) (a : AccountRoot),
    exec (dirDelete true c.ownerNode (keylet.ownerDir c.account).key k.key false
      (c.ownerNode = 0)) σ = .ok (.tesSUCCESS, σ₁) ∧
    σ₁.get (keylet.account c.account) = some a ∧
    σ' = (σ₁.set (keylet.account c.account)
      { a with balance := a.balance + amount - balance, ownerCount := a.ownerCount - 1 }).del k

theorem closeChannel_ok (h : Succeeds (closeChannel k) σ σ') :
    ∃ c amount balance, ChannelClosed k c amount balance σ σ' := by
  obtain ⟨c, hc, h⟩ := exec_peek!_ok h
  obtain ⟨_, σ1, hd, h⟩ := exec_bind.1 h
  obtain ⟨rfl, h⟩ := exec_success_ok h
  obtain ⟨amount, ham, h⟩ := exec_ofExcept_ok h
  obtain ⟨balance, hba, h⟩ := exec_ofExcept_ok h
  obtain ⟨a, ha, h⟩ := exec_update_ok h
  obtain rfl := exec_erase_last h
  exact ⟨c, amount, balance, hc, STAmount.drops_eq_ok.1 ham, STAmount.drops_eq_ok.1 hba,
    σ1, a, hd, ha, rfl⟩

theorem PayChanCreate.doApply_ok {f : PayChanCreate} (h : Succeeds (f.doApply ctx) σ σ') :
    Files ctx.tx.account (keylet.payChan ctx.tx.account f.destination) (f.entry ctx.tx)
      (fun page => { f.entry ctx.tx with ownerNode := page }) (f.amount = .native ·) σ σ' := by
  obtain ⟨a, ha, h⟩ := exec_peek!_ok h
  obtain ⟨hn, h⟩ := exec_insert_ok h
  obtain ⟨⟨_, page⟩, σ1, hadd, h⟩ := exec_bind.1 h
  obtain ⟨rfl, h⟩ := exec_success_ok h
  obtain ⟨c, hc, h⟩ := exec_update_ok h
  obtain ⟨drops, hdr, h⟩ := exec_ofExcept_ok h
  obtain ⟨_, ha', h⟩ := exec_update_ok h
  obtain ⟨-, rfl⟩ := exec_pure.1 h
  obtain ⟨hfo, hr⟩ := dirAdd_found (fun _ => rfl) (by simp [keylet.account, keylet.payChan]) ha hadd
  cases hfo.symm.trans hc
  cases (hr _).symm.trans ha'
  exact ⟨a, drops, page, σ1, ha, STAmount.drops_eq_ok.1 hdr, hn, hadd, rfl⟩

namespace PayChanFund
variable {f : PayChanFund}

theorem extend_ok {slep : PayChan} {closeTime : UInt32}
    (h : Succeeds (f.extend k slep closeTime) σ σ') : Retimed k σ σ' := by
  unfold extend at h
  split at h
  · exact .inl (exec_pure.1 h).2.symm
  obtain ⟨-, h⟩ := exec_guard h
  obtain ⟨c, hc, h⟩ := exec_update_ok h
  obtain ⟨-, rfl⟩ := exec_pure.1 h
  exact .inr ⟨c, _, hc, rfl⟩

theorem deposit_ok (h : Succeeds (f.deposit ctx k) σ σ') :
    ∃ a c drops amount, σ.get (keylet.account ctx.tx.account) = some a ∧ σ.get k = some c ∧
      f.amount = .native drops ∧ c.amount = .native amount ∧
      σ' = (σ.set k { c with amount := .native (amount + drops) }).set
        (keylet.account ctx.tx.account) { a with balance := a.balance - drops } := by
  obtain ⟨a, ha, h⟩ := exec_peek!_ok h
  obtain ⟨-, h⟩ := exec_guard h
  obtain ⟨drops, hdr, h⟩ := exec_ofExcept_ok h
  obtain ⟨-, h⟩ := exec_guard h
  obtain ⟨c, hc, h⟩ := exec_peek!_ok h
  obtain ⟨_, hs, h⟩ := exec_ofExcept_ok h
  obtain ⟨c', hc', h⟩ := exec_update_ok h
  obtain rfl : c = c' := Option.mem_unique hc hc'
  obtain ⟨a', ha', h⟩ := exec_update_ok h
  obtain ⟨-, rfl⟩ := exec_pure.1 h
  obtain rfl : a = a' := by
    rw [State.get_set_ne (State.key_ne ha hc rfl), ha] at ha'
    exact Option.some.inj ha'
  rw [STAmount.drops_eq_ok] at hdr
  rw [hdr] at hs
  cases ham : c.amount with
  | issued i q =>
    rw [ham] at hs
    cases hs
  | native amount =>
    rw [ham] at hs
    cases hs
    exact ⟨a, c, drops, amount, ha, hc, hdr, ham, rfl⟩

/-- The channel is closed because it has expired, or its owner adds to it. -/
theorem doApply_ok (h : Succeeds (f.doApply ctx) σ σ') :
    ∃ c, σ.get (⟨f.payChannel⟩ : Keylet PayChan) = some c ∧
      ((c.isExpired ctx.view.parentCloseTime = true ∧ Succeeds (closeChannel ⟨f.payChannel⟩) σ σ') ∨
        (c.account = ctx.tx.account ∧ ∃ σ1, Retimed ⟨f.payChannel⟩ σ σ1 ∧
          Succeeds (f.deposit ctx ⟨f.payChannel⟩) σ1 σ')) := by
  obtain ⟨c, ho, h⟩ := exec_require h
  refine ⟨c, ho, ?_⟩
  dsimp only at h
  split at h
  · next he => exact .inl ⟨he, h⟩
  obtain ⟨ha, h⟩ := exec_guard h
  obtain ⟨_, σ1, hext, h⟩ := exec_bind.1 h
  obtain ⟨rfl, h⟩ := exec_success_ok h
  exact .inr ⟨not_not.1 ha, σ1, extend_ok hext, h⟩

end PayChanFund

namespace PayChanClaim
variable {f : PayChanClaim}

/-- Nothing is asked for, or the destination is paid up to a covered balance. -/
theorem payOut_ok {c : PayChan} (hc : σ.get k = some c) (h : Succeeds (f.payOut ctx k c) σ σ') :
    σ' = σ ∨ ∃ dst amount balance req, c.amount = .native amount ∧
      c.balance = .native balance ∧ balance < req ∧ req ≤ amount ∧
      σ.get (keylet.account c.destination) = some dst ∧
      σ' = (σ.set (keylet.account c.destination)
        { dst with balance := dst.balance + (req - balance) }).set k
          { c with balance := .native req } := by
  unfold payOut at h
  split at h
  · exact .inl (exec_pure.1 h).2.symm
  next _ _ =>
  obtain ⟨balance, hba, h⟩ := exec_ofExcept_ok h
  obtain ⟨amount, ham, h⟩ := exec_ofExcept_ok h
  obtain ⟨req, hr, h⟩ := exec_ofExcept_ok h
  obtain ⟨-, h⟩ := exec_guard h
  obtain ⟨-, h⟩ := exec_guard h
  obtain ⟨_, h⟩ := exec_guard h
  obtain ⟨_, h⟩ := exec_guard h
  obtain ⟨dst, ho, h⟩ := exec_require h
  obtain ⟨-, h⟩ := exec_guard h
  obtain ⟨dst', hd, h⟩ := exec_update_ok h
  obtain rfl : dst = dst' := Option.mem_unique ho hd
  obtain ⟨c', hc', h⟩ := exec_update_ok h
  obtain ⟨-, rfl⟩ := exec_pure.1 h
  obtain rfl : c = c' := by
    rw [State.get_set_ne (State.key_ne hc ho rfl), hc] at hc'
    exact Option.some.inj hc'
  obtain rfl := STAmount.drops_eq_ok.1 hr
  exact .inr ⟨dst, amount, balance, req, STAmount.drops_eq_ok.1 ham,
    STAmount.drops_eq_ok.1 hba, by omega, by omega, ho, rfl⟩

theorem renew_ok {src : AccountID} (h : Succeeds (renew ctx k src) σ σ') : Retimed k σ σ' := by
  unfold renew at h
  split at h
  · obtain ⟨-, h⟩ := exec_guard h
    obtain ⟨c, hc, h⟩ := exec_update_ok h
    obtain ⟨-, rfl⟩ := exec_pure.1 h
    exact .inr ⟨c, _, hc, rfl⟩
  · exact .inl (exec_pure.1 h).2.symm

theorem close_ok {cur : Option UInt32} (h : Succeeds (close ctx k cur) σ σ') :
    Retimed k σ σ' ∨ Succeeds (closeChannel k) σ σ' := by
  unfold close at h
  split at h
  · obtain ⟨c, hc, h⟩ := exec_peek!_ok h
    split at h
    · exact .inr h
    dsimp only at h
    split at h
    · obtain ⟨c, hc, h⟩ := exec_update_ok h
      obtain ⟨-, rfl⟩ := exec_pure.1 h
      exact .inl (.inr ⟨c, _, hc, rfl⟩)
    · exact .inl (.inl (exec_pure.1 h).2.symm)
  · exact .inl (.inl (exec_pure.1 h).2.symm)

/-- The channel is closed because it has expired, or it is paid from, then timed anew, and then
perhaps closed. -/
theorem doApply_ok (h : Succeeds (f.doApply ctx) σ σ') :
    ∃ c, σ.get (⟨f.payChannel⟩ : Keylet PayChan) = some c ∧
      (Succeeds (closeChannel ⟨f.payChannel⟩) σ σ' ∨
        ∃ σ1 σ2, Succeeds (f.payOut ctx ⟨f.payChannel⟩ c) σ σ1 ∧
          Retimed ⟨f.payChannel⟩ σ1 σ2 ∧ (Retimed ⟨f.payChannel⟩ σ2 σ' ∨
            Succeeds (closeChannel ⟨f.payChannel⟩) σ2 σ')) := by
  obtain ⟨c, ho, h⟩ := exec_require h
  refine ⟨c, ho, ?_⟩
  dsimp only at h
  split at h
  · exact .inl h
  obtain ⟨-, h⟩ := exec_guard h
  obtain ⟨ter, σ1, hp, h⟩ := exec_bind.1 h
  obtain ⟨rfl, h⟩ := exec_success_ok h
  obtain ⟨ter, σ2, hre, h⟩ := exec_bind.1 h
  obtain ⟨rfl, h⟩ := exec_success_ok h
  exact .inr ⟨σ1, σ2, hp, renew_ok hre, close_ok h⟩

end PayChanClaim
end FinPal
