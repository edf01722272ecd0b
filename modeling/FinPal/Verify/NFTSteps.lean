import FinPal.Tx.Operator
import FinPal.Verify.NFTRegistry

/-!
# What the token transactors do to the registry

Each helper of `NFAsset.cpp` and `NFToken.cpp` is given by what it does to the registry.
`removeAssetOwner` returns early where an entry of the list is missing; `TakesOwner` is what it does
in every case.
-/

namespace FinPal
open Store ViewM Registry Function
variable {σ σ' : State} {r : Registry} {a : Digest} {o : AccountID} {u : Unit}

theorem exec_upsert {α : Type} [IsEntry α] {k : Keylet α} {x : α} {f : α → α}
    (h : exec (upsert k x f) σ = .ok (u, σ')) (hf : ∀ y, f y = x) : σ' = σ.set k x := by
  obtain ⟨y, -, h⟩ := exec_peek_ok h
  cases y with
  | none => exact (exec_insert.1 h).2.symm
  | some y =>
    obtain ⟨z, -, rfl⟩ := exec_update.1 h
    rw [hf z]

/-! ## Owners of an asset -/

/-- The asset `a` becomes the `k`-th of the owner `o`. -/
def Registry.addOwner (r : Registry) (a : Digest) (o : AccountID) (k : Nat) : Registry :=
  { r with
    assetNumber := Function.update r.assetNumber o (some (k + 1))
    assetIndex := Function.update r.assetIndex (o, k) (some a)
    account := Function.update r.account (a, o) (some { tokenNumber := 0, assetIndex := some k }) }

theorem addAssetOwner_reg (hr : Reg σ r) (h : exec (addAssetOwner o a) σ = .ok (u, σ')) :
    ∃ k, r.assetNumber o = some k ∧ r.account (a, o) = none ∧ Reg σ' (r.addOwner a o k) := by
  obtain ⟨root, hro, h⟩ := exec_peek!_ok h
  obtain ⟨root', -, h⟩ := exec_update_ok h
  obtain ⟨_, _, h3, h⟩ := exec_bind.1 h
  obtain rfl := exec_upsert h3 fun _ => rfl
  obtain ⟨hn, rfl⟩ := exec_insert.1 h
  have hr2 := (hr.setAssetNumber o { root' with assetNumber := root.assetNumber + 1 }).setAssetIndex o
    root.assetNumber { assetID := a }
  refine ⟨root.assetNumber, ?_, ?_, hr2.setAccount a o _⟩
  · rw [← hr.assetNumber_eq, hro]; rfl
  have := hr2.account_eq a o
  rw [State.get_of_none hn] at this
  exact this.symm

/-- What taking the owner `o` off the asset `a` leaves alone: all but the owner's own list, and the
other owners' numbers of tokens. -/
structure TakesOwner (a : Digest) (o : AccountID) (r r' : Registry) : Prop where
  asset : r'.asset = r.asset
  token : r'.token = r.token
  index : r'.index = r.index
  ownerIndex : r'.ownerIndex = r.ownerIndex
  gone : r'.account (a, o) = none
  other : ∀ p, p ≠ (a, o) →
    (r'.account p).map NFTAccount.tokenNumber = (r.account p).map NFTAccount.tokenNumber

variable {k m : Nat} {acc : NFTAccount}

theorem decrementAssetNumber_reg (hr : Reg σ r)
    (h : exec (decrementAssetNumber o) σ = .ok (k, σ')) :
    ∃ n, r.assetNumber o = some n ∧ k = n - 1 ∧
      Reg σ' { r with assetNumber := update r.assetNumber o (some k) } := by
  obtain ⟨root, hro, h⟩ := exec_peek!_ok h
  have hn : r.assetNumber o = some root.assetNumber := by rw [← hr.assetNumber_eq, hro]; rfl
  refine ⟨root.assetNumber, hn, ?_⟩
  split at h
  · obtain ⟨root', -, h⟩ := exec_update_ok h
    obtain ⟨rfl, rfl⟩ := exec_pure.1 h
    exact ⟨rfl, hr.setAssetNumber o { root' with assetNumber := root.assetNumber - 1 }⟩
  · next _ =>
    obtain ⟨rfl, rfl⟩ := exec_pure.1 h
    refine ⟨by omega, ?_⟩
    rw [← hn, update_eq_self]
    exact hr

/-- The last asset `b` of the owner's list takes the index `i`. -/
def Registry.moveAsset (r : Registry) (o : AccountID) (k i : Nat) (b : Digest) : Registry :=
  { r with
    assetIndex := Function.update (Function.update r.assetIndex (o, i) (some b)) (o, k) none
    account := Function.update r.account (b, o)
      ((r.account (b, o)).map fun x => { x with assetIndex := some i }) }

theorem moveLastAsset_reg {i : Nat} (hr : Reg σ r)
    (h : exec (moveLastAsset o k i) σ = .ok (u, σ')) : (r.assetIndex (o, k) = none ∧ σ' = σ) ∨
      ∃ b, r.assetIndex (o, k) = some b ∧ Reg σ' (r.moveAsset o k i b) := by
  obtain ⟨last, hla, h⟩ := exec_peek_ok h
  have hk := hr.assetIndex_eq o k
  rw [hla] at hk
  cases last with
  | none =>
    obtain ⟨-, rfl⟩ := exec_pure.1 h
    exact .inl ⟨hk.symm, rfl⟩
  | some last =>
    obtain ⟨x, -, h⟩ := exec_update_ok h
    obtain ⟨_, -, h⟩ := exec_erase_ok h
    obtain ⟨acc, ha, h⟩ := exec_peek_ok h
    have hr3 := (hr.setAssetIndex o i { x with assetID := last.assetID }).delAssetIndex o k
    have hb := hr3.account_eq last.assetID o
    refine .inr ⟨last.assetID, hk.symm, ?_⟩
    cases acc with
    | none =>
      obtain ⟨-, rfl⟩ := exec_pure.1 h
      have hb := hb.symm.trans ha
      unfold moveAsset
      rw [hb, Option.map_none, ← hb, update_eq_self]
      exact hr3
    | some acc =>
      obtain ⟨acc', ha', rfl⟩ := exec_update.1 h
      have hb := hb.symm.trans ha'
      unfold moveAsset
      rw [hb]
      exact hr3.setAccount last.assetID o _

theorem takesOwner_account (r : Registry) (a : Digest) (o : AccountID)
    (assetNumber : AccountID → Option Nat) (assetIndex : AccountID × Nat → Option Digest) :
    TakesOwner a o r { r with
      account := update r.account (a, o) none
      assetNumber := assetNumber
      assetIndex := assetIndex } :=
  ⟨rfl, rfl, rfl, rfl, by simp, fun p hp => by simp [hp]⟩

theorem TakesOwner.moveAsset {r1 : Registry} (h : TakesOwner a o r r1) (k i : Nat) (b : Digest) :
    TakesOwner a o r (r1.moveAsset o k i b) where
  asset := h.asset
  token := h.token
  index := h.index
  ownerIndex := h.ownerIndex
  gone := by
    by_cases hb : (a, o) = (b, o)
    · simp [Registry.moveAsset, ← hb, h.gone]
    simp only [Registry.moveAsset]
    rw [update_of_ne hb]
    exact h.gone
  other p hp := by
    rw [← h.other p hp]
    by_cases hb : p = (b, o)
    · subst hb
      simp [Registry.moveAsset, comp_def]
    · simp only [Registry.moveAsset]
      rw [update_of_ne hb]

theorem removeAssetOwner_takes (hr : Reg σ r)
    (h : exec (removeAssetOwner o a acc) σ = .ok (u, σ')) :
    ∃ r', Reg σ' r' ∧ TakesOwner a o r r' := by
  obtain ⟨_, -, h⟩ := exec_erase_ok h
  obtain ⟨k, _, h2, h⟩ := exec_bind.1 h
  obtain ⟨n, -, -, hr2⟩ := decrementAssetNumber_reg (hr.delAccount a o) h2
  have ht := takesOwner_account r a o (update r.assetNumber o (some k)) r.assetIndex
  split at h
  · obtain ⟨-, rfl⟩ := exec_pure.1 h
    exact ⟨_, hr2, ht⟩
  · next i _ =>
    obtain ⟨x, -, h⟩ := exec_peek_ok h
    cases x with
    | none =>
      obtain ⟨-, rfl⟩ := exec_pure.1 h
      exact ⟨_, hr2, ht⟩
    | some x =>
      dsimp only at h
      split at h
      · rcases moveLastAsset_reg hr2 h with ⟨-, rfl⟩ | ⟨b, -, hr'⟩
        · exact ⟨_, hr2, ht⟩
        · exact ⟨_, hr', ht.moveAsset k i b⟩
      · obtain ⟨_, -, rfl⟩ := exec_erase.1 h
        exact ⟨_, hr2.delAssetIndex o i, takesOwner_account r a o _ _⟩

/-- The owner `o` is taken off the asset `a`, listed under `i`; its last asset `b`, under `k`, takes
that index. -/
def Registry.removeOwner (r : Registry) (a : Digest) (o : AccountID) (k i : Nat) (b : Digest) :
    Registry :=
  { r with
    assetNumber := Function.update r.assetNumber o (some k)
    assetIndex := Function.update (Function.update r.assetIndex (o, i) (some b)) (o, k) none
    account := Function.update (Function.update r.account (b, o)
      ((r.account (b, o)).map fun x => { x with assetIndex := some i })) (a, o) none }

theorem removeAssetOwner_listed {i : Nat} {b : Digest} (hr : Reg σ r)
    (hnum : r.assetNumber o = some (k + 1)) (ha : acc.assetIndex = some i)
    (hi : r.assetIndex (o, i) = some a) (hk : r.assetIndex (o, k) = some b) (hne : i ≠ k → b ≠ a)
    (h : exec (removeAssetOwner o a acc) σ = .ok (u, σ')) : Reg σ' (r.removeOwner a o k i b) := by
  obtain ⟨_, -, h⟩ := exec_erase_ok h
  obtain ⟨k', _, h2, h⟩ := exec_bind.1 h
  obtain ⟨n, hn, _, hr2⟩ := decrementAssetNumber_reg (hr.delAccount a o) h2
  obtain rfl : k + 1 = n := Option.mem_unique hnum hn
  obtain rfl : k' = k := by omega
  simp only [ha] at h
  obtain ⟨x, hx, h⟩ := exec_peek_ok h
  have hx' := hr2.assetIndex_eq o i
  rw [hx] at hx'
  cases x with
  | none => simp [hi] at hx'
  | some x =>
    dsimp only at h
    split at h
    · next hik =>
      -- the last asset moves, and it is not the one that leaves
      rcases moveLastAsset_reg hr2 h with ⟨hno, -⟩ | ⟨b', hb', hr'⟩
      · simp [hk] at hno
      obtain rfl : b = b' := Option.mem_unique hk hb'
      have hba : (b, o) ≠ (a, o) := fun e => hne (Ne.symm hik) (Prod.mk.inj e).1
      unfold moveAsset at hr'
      dsimp only at hr'
      rw [update_of_ne hba, update_comm hba.symm] at hr'
      exact hr'
    · next hik =>
      obtain rfl : k' = i := not_not.1 hik
      obtain rfl : a = b := Option.mem_unique hi hk
      obtain ⟨_, -, rfl⟩ := exec_erase.1 h
      unfold removeOwner
      rw [update_idem, update_idem]
      exact hr2.delAssetIndex o k'

/-! ## Numbers of tokens -/

def Registry.tokenNumber (r : Registry) (a : Digest) : Nat :=
  ((r.asset a).map NFAsset.tokenNumber).getD 0

/-- The number of tokens of an asset that an account owns. -/
def Registry.ownerNumber (r : Registry) (p : Digest × AccountID) : Nat :=
  ((r.account p).map NFTAccount.tokenNumber).getD 0

/-- The owner `o` has `m` tokens of `a`, where it is an owner. -/
def Registry.setTokens (r : Registry) (a : Digest) (o : AccountID) (m : Nat) : Registry :=
  { r with
    account := Function.update r.account (a, o)
      ((r.account (a, o)).map fun x => { x with tokenNumber := m }) }

/-- Only the lists of assets change, and the number of tokens of one owner. -/
structure SetsOwnerNumber (a : Digest) (o : AccountID) (m : Nat) (r r' : Registry) : Prop where
  asset : r'.asset = r.asset
  token : r'.token = r.token
  index : r'.index = r.index
  ownerIndex : r'.ownerIndex = r.ownerIndex
  number : r'.ownerNumber = Function.update r.ownerNumber (a, o) m

theorem setsOwnerNumber_setTokens (h : r.account (a, o) = some acc) :
    SetsOwnerNumber a o m r (r.setTokens a o m) := by
  refine ⟨rfl, rfl, rfl, rfl, funext fun p => ?_⟩
  by_cases hp : p = (a, o)
  · subst hp; simp [ownerNumber, setTokens, h]
  · simp [ownerNumber, setTokens, hp]

theorem TakesOwner.setsOwnerNumber {r' : Registry} (h : TakesOwner a o r r') :
    SetsOwnerNumber a o 0 r r' := by
  refine ⟨h.asset, h.token, h.index, h.ownerIndex, funext fun p => ?_⟩
  by_cases hp : p = (a, o)
  · subst hp; simp [ownerNumber, h.gone]
  · simp only [ownerNumber, h.other p hp, update_of_ne hp]

theorem setTokens_reg {f : NFTAccount → NFTAccount} (hr : Reg σ r)
    (hf : ∀ x, f x = { x with tokenNumber := m })
    (h : exec (update (keylet.nftAccount a o) f) σ = .ok (u, σ')) :
    ∃ acc, r.account (a, o) = some acc ∧ Reg σ' (r.setTokens a o m) := by
  obtain ⟨acc, ha, rfl⟩ := exec_update.1 h
  have ha' : r.account (a, o) = some acc := (hr.account_eq a o).symm.trans ha
  refine ⟨acc, ha', ?_⟩
  unfold setTokens
  rw [ha', hf]
  exact hr.setAccount a o _

theorem addOwnerToken_reg (hr : Reg σ r) (h : exec (addOwnerToken a o) σ = .ok (m, σ')) :
    (r.account (a, o) = none ∧ m = 0 ∧ ∃ k, r.assetNumber o = some k ∧
      Reg σ' ((r.addOwner a o k).setTokens a o 1)) ∨
    ∃ acc, r.account (a, o) = some acc ∧ m = acc.tokenNumber ∧ Reg σ' (r.setTokens a o (m + 1)) := by
  obtain ⟨acc, ha, h⟩ := exec_peek_ok h
  have ha' := (hr.account_eq a o).symm.trans ha
  cases acc with
  | none =>
    obtain ⟨_, _, h2, h⟩ := exec_bind.1 h
    obtain ⟨k, hk, -, hr2⟩ := addAssetOwner_reg hr h2
    obtain ⟨_, _, h3, h⟩ := exec_bind.1 h
    obtain ⟨acc, -, hr3⟩ := setTokens_reg hr2 (fun _ => rfl) h3
    obtain ⟨rfl, rfl⟩ := exec_pure.1 h
    exact .inl ⟨ha', rfl, k, hk, hr3⟩
  | some acc =>
    obtain ⟨_, _, h2, h⟩ := exec_bind.1 h
    obtain ⟨_, -, hr2⟩ := setTokens_reg hr (fun _ => rfl) h2
    obtain ⟨rfl, rfl⟩ := exec_pure.1 h
    exact .inr ⟨acc, ha', rfl, hr2⟩

theorem addOwnerToken_number (hr : Reg σ r) (h : exec (addOwnerToken a o) σ = .ok (m, σ')) :
    m = r.ownerNumber (a, o) ∧ ∃ r', Reg σ' r' ∧ SetsOwnerNumber a o (m + 1) r r' := by
  rcases addOwnerToken_reg hr h with ⟨ha, rfl, k, -, hr'⟩ | ⟨_, ha, rfl, hr'⟩
  · refine ⟨by simp [ownerNumber, ha], _, hr', rfl, rfl, rfl, rfl, funext fun p => ?_⟩
    by_cases hp : p = (a, o)
    · subst hp; simp [ownerNumber, setTokens, Registry.addOwner]
    · simp [ownerNumber, setTokens, Registry.addOwner, hp]
  · exact ⟨by simp [ownerNumber, ha], _, hr', setsOwnerNumber_setTokens ha⟩

theorem dropOwnerToken_number {asset : NFAsset} (hr : Reg σ r)
    (h : exec (dropOwnerToken a asset o acc m) σ = .ok (u, σ')) :
    ∃ r', Reg σ' r' ∧ SetsOwnerNumber a o m r r' := by
  unfold dropOwnerToken at h
  split at h
  · obtain ⟨acc, ha, hr'⟩ := setTokens_reg hr (fun _ => rfl) h
    exact ⟨_, hr', setsOwnerNumber_setTokens ha⟩
  · next _ =>
    obtain ⟨r', hr', ht⟩ := removeAssetOwner_takes hr h
    obtain rfl : m = 0 := by tauto
    exact ⟨r', hr', ht.setsOwnerNumber⟩

end FinPal
