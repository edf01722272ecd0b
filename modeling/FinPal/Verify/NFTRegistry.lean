import FinPal.Lib.DenseIndex
import FinPal.Tx.NFToken

/-!
# The registry of assets and tokens
-/

namespace FinPal
open Store ViewM Function
open Function (update_of_ne update_self update_apply update_eq_self update_idem)

/-- What the token transactors keep, a map for each kind of entry. Each write changes one of them at
one point. -/
@[ext]
structure Registry where
  asset : Digest → Option NFAsset
  token : Digest → Option NFToken
  account : Digest × AccountID → Option NFTAccount
  index : Digest × Nat → Option Digest
  ownerIndex : Digest × AccountID × Nat → Option Digest
  assetIndex : AccountID × Nat → Option Digest
  assetNumber : AccountID → Option Nat

def IsAssetKey : Digest → Prop
  | .nfAsset _ _ => True
  | _ => False

def IsTokenKey : Digest → Prop
  | .nfToken _ _ => True
  | _ => False

instance : DecidablePred IsAssetKey := fun d => by cases d <;> unfold IsAssetKey <;> infer_instance

instance : DecidablePred IsTokenKey := fun d => by cases d <;> unfold IsTokenKey <;> infer_instance

namespace State

/-- The registry that a state shows. A key that a transaction supplies finds only assets or tokens.
-/
def registry (σ : State) : Registry where
  asset d := if IsAssetKey d then σ.get (keylet.nfAssetAt d) else none
  token d := if IsTokenKey d then σ.get (keylet.nfTokenAt d) else none
  account p := σ.get (keylet.nftAccount p.1 p.2)
  index p := (σ.get (keylet.nftIndex p.1 p.2)).map (·.tokenID)
  ownerIndex p := (σ.get (keylet.nftOwnerIndex p.1 p.2.1 p.2.2)).map (·.tokenID)
  assetIndex p := (σ.get (keylet.nfAssetIndex p.1 p.2)).map (·.assetID)
  assetNumber o := (σ.get (keylet.account o)).map (·.assetNumber)

/-- Assets and tokens are filed under keys of their own spaces. -/
structure Filed (σ : State) : Prop where
  asset : ∀ d, σ.get (keylet.nfAssetAt d) = σ.registry.asset d
  token : ∀ d, σ.get (keylet.nfTokenAt d) = σ.registry.token d

/-! ## Point updates -/

section Update
variable (σ : State) (d : Digest) (o : Option Entry)

@[simp] theorem asset_update (x : Digest) : (registry (update σ d o)).asset x =
      if x = d ∧ IsAssetKey d then o.bind ofEntry else σ.registry.asset x := by
  by_cases e : x = d
  · subst e
    by_cases h : IsAssetKey x <;> simp [registry, get, keylet.nfAssetAt, h]
  · simp [registry, get, keylet.nfAssetAt, e]

@[simp] theorem token_update (x : Digest) : (registry (update σ d o)).token x =
      if x = d ∧ IsTokenKey d then o.bind ofEntry else σ.registry.token x := by
  by_cases e : x = d
  · subst e
    by_cases h : IsTokenKey x <;> simp [registry, get, keylet.nfTokenAt, h]
  · simp [registry, get, keylet.nfTokenAt, e]

@[simp] theorem account_update (p : Digest × AccountID) : (registry (update σ d o)).account p =
      if .nftAccount p.1 p.2 = d then o.bind ofEntry else σ.registry.account p := by
  simp [registry, get, keylet.nftAccount, update_apply]; split <;> rfl

@[simp] theorem index_update (p : Digest × Nat) : (registry (update σ d o)).index p =
      if .nftIndex p.1 p.2 = d then (o.bind ofEntry).map NFTIndex.tokenID
      else σ.registry.index p := by
  simp [registry, get, keylet.nftIndex, update_apply]; split <;> rfl

@[simp] theorem ownerIndex_update (p : Digest × AccountID × Nat) :
    (registry (update σ d o)).ownerIndex p =
      if .nftOwnerIndex p.1 p.2.1 p.2.2 = d then (o.bind ofEntry).map NFTOwnerIndex.tokenID
      else σ.registry.ownerIndex p := by
  simp [registry, get, keylet.nftOwnerIndex, update_apply]; split <;> rfl

@[simp] theorem assetIndex_update (p : AccountID × Nat) : (registry (update σ d o)).assetIndex p =
      if .nfAssetIndex p.1 p.2 = d then (o.bind ofEntry).map NFAssetIndex.assetID
      else σ.registry.assetIndex p := by
  simp [registry, get, keylet.nfAssetIndex, update_apply]; split <;> rfl

@[simp] theorem assetNumber_update (x : AccountID) : (registry (update σ d o)).assetNumber x =
      if .account x = d then (o.bind ofEntry).map AccountRoot.assetNumber
      else σ.registry.assetNumber x := by
  simp [registry, get, keylet.account, update_apply]; split <;> rfl

end Update

section Set
variable (σ : State)

variable {d : Digest}

theorem registry_set_asset (hd : IsAssetKey d) (x : NFAsset) :
    (σ.set (keylet.nfAssetAt d) x).registry =
      { σ.registry with asset := update σ.registry.asset d (some x) } := by
  cases d <;> cases hd
  ext1 <;> funext p <;> simp [set, keylet.nfAssetAt, IsAssetKey, IsTokenKey, update_apply]

theorem registry_del_asset (hd : IsAssetKey d) : (σ.del (keylet.nfAssetAt d)).registry =
      { σ.registry with asset := update σ.registry.asset d none } := by
  cases d <;> cases hd
  ext1 <;> funext p <;> simp [del, keylet.nfAssetAt, IsAssetKey, IsTokenKey, update_apply]

theorem registry_set_token (hd : IsTokenKey d) (x : NFToken) :
    (σ.set (keylet.nfTokenAt d) x).registry =
      { σ.registry with token := update σ.registry.token d (some x) } := by
  cases d <;> cases hd
  ext1 <;> funext p <;> simp [set, keylet.nfTokenAt, IsAssetKey, IsTokenKey, update_apply]

theorem registry_del_token (hd : IsTokenKey d) : (σ.del (keylet.nfTokenAt d)).registry =
      { σ.registry with token := update σ.registry.token d none } := by
  cases d <;> cases hd
  ext1 <;> funext p <;> simp [del, keylet.nfTokenAt, IsAssetKey, IsTokenKey, update_apply]

section
variable (a : Digest)

theorem registry_set_account (o : AccountID) (x : NFTAccount) :
    (σ.set (keylet.nftAccount a o) x).registry =
      { σ.registry with account := update σ.registry.account (a, o) (some x) } := by
  ext1 <;> funext p <;> simp [set, keylet.nftAccount, IsAssetKey, IsTokenKey, update_apply, Prod.ext_iff]

theorem registry_del_account (o : AccountID) :
    (σ.del (keylet.nftAccount a o)).registry =
      { σ.registry with account := update σ.registry.account (a, o) none } := by
  ext1 <;> funext p <;> simp [del, keylet.nftAccount, IsAssetKey, IsTokenKey, update_apply, Prod.ext_iff]

theorem registry_set_index (i : Nat) (x : NFTIndex) :
    (σ.set (keylet.nftIndex a i) x).registry =
      { σ.registry with index := update σ.registry.index (a, i) (some x.tokenID) } := by
  ext1 <;> funext p <;> simp [set, keylet.nftIndex, IsAssetKey, IsTokenKey, update_apply, Prod.ext_iff]

theorem registry_del_index (i : Nat) : (σ.del (keylet.nftIndex a i)).registry =
      { σ.registry with index := update σ.registry.index (a, i) none } := by
  ext1 <;> funext p <;> simp [del, keylet.nftIndex, IsAssetKey, IsTokenKey, update_apply, Prod.ext_iff]

theorem registry_set_ownerIndex (o : AccountID) (i : Nat) (x : NFTOwnerIndex) :
    (σ.set (keylet.nftOwnerIndex a o i) x).registry =
      { σ.registry with ownerIndex := update σ.registry.ownerIndex (a, o, i) (some x.tokenID) } := by
  ext1 <;> funext p <;> simp [set, keylet.nftOwnerIndex, IsAssetKey, IsTokenKey, update_apply, Prod.ext_iff]

theorem registry_del_ownerIndex (o : AccountID) (i : Nat) :
    (σ.del (keylet.nftOwnerIndex a o i)).registry =
      { σ.registry with ownerIndex := update σ.registry.ownerIndex (a, o, i) none } := by
  ext1 <;> funext p <;> simp [del, keylet.nftOwnerIndex, IsAssetKey, IsTokenKey, update_apply, Prod.ext_iff]

end

theorem registry_set_assetIndex (o : AccountID) (i : Nat) (x : NFAssetIndex) :
    (σ.set (keylet.nfAssetIndex o i) x).registry =
      { σ.registry with assetIndex := update σ.registry.assetIndex (o, i) (some x.assetID) } := by
  ext1 <;> funext p <;> simp [set, keylet.nfAssetIndex, IsAssetKey, IsTokenKey, update_apply, Prod.ext_iff]

theorem registry_del_assetIndex (o : AccountID) (i : Nat) :
    (σ.del (keylet.nfAssetIndex o i)).registry =
      { σ.registry with assetIndex := update σ.registry.assetIndex (o, i) none } := by
  ext1 <;> funext p <;> simp [del, keylet.nfAssetIndex, IsAssetKey, IsTokenKey, update_apply, Prod.ext_iff]

theorem registry_set_assetNumber (o : AccountID) (x : AccountRoot) :
    (σ.set (keylet.account o) x).registry = { σ.registry with
        assetNumber := update σ.registry.assetNumber o (some x.assetNumber) } := by
  ext1 <;> funext p <;> simp [set, keylet.account, IsAssetKey, IsTokenKey, update_apply]

theorem registry_set_root {σ : State} {o : AccountID} {x y : AccountRoot}
    (hx : σ.get (keylet.account o) = some x) (h : y.assetNumber = x.assetNumber) :
    (σ.set (keylet.account o) y).registry = σ.registry := by
  rw [registry_set_assetNumber]
  have : update σ.registry.assetNumber o (some y.assetNumber) = σ.registry.assetNumber := by
    simp [h, registry, hx]
  rw [this]

end Set

variable {σ : State}

theorem Filed.update {d : Digest} {e : Option Entry} (h : σ.Filed)
    (ha : ¬IsAssetKey d → (e.bind ofEntry : Option NFAsset) = none)
    (ht : ¬IsTokenKey d → (e.bind ofEntry : Option NFToken) = none) :
    Filed (update σ d e) where
  asset x := by
    rw [asset_update, ← h.asset x]
    by_cases hx : x = d
    · subst hx
      by_cases hd : IsAssetKey x
      · simp [get, keylet.nfAssetAt, hd]
      have : σ.get (keylet.nfAssetAt x) = none := by rw [h.asset x]; simp [registry, hd]
      rw [this]
      simp [get, keylet.nfAssetAt, ha hd]
    · simp [get, keylet.nfAssetAt, hx]
  token x := by
    rw [token_update, ← h.token x]
    by_cases hx : x = d
    · subst hx
      by_cases hd : IsTokenKey x
      · simp [get, keylet.nfTokenAt, hd]
      have : σ.get (keylet.nfTokenAt x) = none := by rw [h.token x]; simp [registry, hd]
      rw [this]
      simp [get, keylet.nfTokenAt, ht hd]
    · simp [get, keylet.nfTokenAt, hx]

theorem Filed.del {α : Type} (h : σ.Filed) (k : Keylet α) : Filed (σ.del k) :=
  h.update (fun _ => rfl) fun _ => rfl

theorem Filed.assetKey (h : σ.Filed) {d : Digest} {x : NFAsset}
    (hx : σ.get (keylet.nfAssetAt d) = some x) : IsAssetKey d ∧ σ.registry.asset d = some x := by
  rw [h.asset] at hx
  refine ⟨?_, hx⟩
  by_contra hd
  simp [registry, hd] at hx

theorem Filed.tokenKey (h : σ.Filed) {d : Digest} {x : NFToken}
    (hx : σ.get (keylet.nfTokenAt d) = some x) : IsTokenKey d ∧ σ.registry.token d = some x := by
  rw [h.token] at hx
  refine ⟨?_, hx⟩
  by_contra hd
  simp [registry, hd] at hx

end State

/-! ## States that show a registry -/

/-- The state is filed and shows the registry `r`. -/
structure Reg (σ : State) (r : Registry) : Prop where
  filed : σ.Filed
  eq : σ.registry = r

namespace Reg
variable {σ : State} {r : Registry}

variable {d : Digest}

section
variable (h : Reg σ r)
include h

theorem update {e : Option Entry} {r' : Registry}
    (ha : ¬IsAssetKey d → (e.bind ofEntry : Option NFAsset) = none)
    (ht : ¬IsTokenKey d → (e.bind ofEntry : Option NFToken) = none)
    (he : State.registry (update σ d e) = r') : Reg (update σ d e) r' :=
  ⟨h.filed.update ha ht, he⟩

theorem asset_eq (d : Digest) : σ.get (keylet.nfAssetAt d) = r.asset d := by
  rw [h.filed.asset, h.eq]

theorem token_eq (d : Digest) : σ.get (keylet.nfTokenAt d) = r.token d := by
  rw [h.filed.token, h.eq]

theorem account_eq (a : Digest) (o : AccountID) :
    σ.get (keylet.nftAccount a o) = r.account (a, o) := by
  rw [← h.eq]; rfl

theorem index_eq (a : Digest) (i : Nat) :
    (σ.get (keylet.nftIndex a i)).map (·.tokenID) = r.index (a, i) := by
  rw [← h.eq]; rfl

theorem ownerIndex_eq (a : Digest) (o : AccountID) (i : Nat) :
    (σ.get (keylet.nftOwnerIndex a o i)).map (·.tokenID) = r.ownerIndex (a, o, i) := by
  rw [← h.eq]; rfl

theorem assetIndex_eq (o : AccountID) (i : Nat) :
    (σ.get (keylet.nfAssetIndex o i)).map (·.assetID) = r.assetIndex (o, i) := by
  rw [← h.eq]; rfl

theorem assetNumber_eq (o : AccountID) :
    (σ.get (keylet.account o)).map (·.assetNumber) = r.assetNumber o := by
  rw [← h.eq]; rfl

theorem newAsset (hd : IsAssetKey d) (y : NFAsset) :
    Reg (σ.set (keylet.nfAssetAt d) y) { r with asset := Function.update r.asset d (some y) } := by
  refine h.update (fun hn => absurd hd hn) (fun _ => rfl) ?_
  rw [← h.eq]
  exact σ.registry_set_asset hd y

theorem setAsset {x y : NFAsset} (hx : σ.get (keylet.nfAssetAt d) = some x) :
    Reg (σ.set (keylet.nfAssetAt d) y) { r with asset := Function.update r.asset d (some y) } :=
  h.newAsset (h.filed.assetKey hx).1 y

theorem setToken (hd : IsTokenKey d) (y : NFToken) :
    Reg (σ.set (keylet.nfTokenAt d) y) { r with token := Function.update r.token d (some y) } := by
  refine h.update (fun _ => rfl) (fun hn => absurd hd hn) ?_
  rw [← h.eq]
  exact σ.registry_set_token hd y

theorem setAccount (a : Digest) (o : AccountID) (y : NFTAccount) :
    Reg (σ.set (keylet.nftAccount a o) y)
      { r with account := Function.update r.account (a, o) (some y) } := by
  refine h.update (fun _ => rfl) (fun _ => rfl) ?_
  rw [← h.eq]
  exact σ.registry_set_account a o y

theorem setIndex (a : Digest) (i : Nat) (y : NFTIndex) : Reg (σ.set (keylet.nftIndex a i) y)
      { r with index := Function.update r.index (a, i) (some y.tokenID) } := by
  refine h.update (fun _ => rfl) (fun _ => rfl) ?_
  rw [← h.eq]
  exact σ.registry_set_index a i y

theorem setOwnerIndex (a : Digest) (o : AccountID) (i : Nat) (y : NFTOwnerIndex) :
    Reg (σ.set (keylet.nftOwnerIndex a o i) y)
      { r with ownerIndex := Function.update r.ownerIndex (a, o, i) (some y.tokenID) } := by
  refine h.update (fun _ => rfl) (fun _ => rfl) ?_
  rw [← h.eq]
  exact σ.registry_set_ownerIndex a o i y

theorem setAssetIndex (o : AccountID) (i : Nat) (y : NFAssetIndex) :
    Reg (σ.set (keylet.nfAssetIndex o i) y)
      { r with assetIndex := Function.update r.assetIndex (o, i) (some y.assetID) } := by
  refine h.update (fun _ => rfl) (fun _ => rfl) ?_
  rw [← h.eq]
  exact σ.registry_set_assetIndex o i y

theorem setAssetNumber (o : AccountID) (y : AccountRoot) : Reg (σ.set (keylet.account o) y)
      { r with assetNumber := Function.update r.assetNumber o (some y.assetNumber) } := by
  refine h.update (fun _ => rfl) (fun _ => rfl) ?_
  rw [← h.eq]
  exact σ.registry_set_assetNumber o y

theorem setRoot {o : AccountID} {x y : AccountRoot}
    (hx : σ.get (keylet.account o) = some x) (hn : y.assetNumber = x.assetNumber) :
    Reg (σ.set (keylet.account o) y) r := by
  refine h.update (fun _ => rfl) (fun _ => rfl) ?_
  rw [← h.eq]
  exact State.registry_set_root hx hn

theorem delAsset {x : NFAsset} (hx : σ.get (keylet.nfAssetAt d) = some x) :
    Reg (σ.del (keylet.nfAssetAt d)) { r with asset := Function.update r.asset d none } := by
  obtain ⟨hd, -⟩ := h.filed.assetKey hx
  exact ⟨h.filed.del _, by rw [← h.eq]; exact σ.registry_del_asset hd⟩

theorem delToken {x : NFToken} (hx : σ.get (keylet.nfTokenAt d) = some x) :
    Reg (σ.del (keylet.nfTokenAt d)) { r with token := Function.update r.token d none } := by
  obtain ⟨hd, -⟩ := h.filed.tokenKey hx
  exact ⟨h.filed.del _, by rw [← h.eq]; exact σ.registry_del_token hd⟩

theorem delAccount (a : Digest) (o : AccountID) : Reg (σ.del (keylet.nftAccount a o))
      { r with account := Function.update r.account (a, o) none } :=
  ⟨h.filed.del _, by rw [← h.eq]; exact σ.registry_del_account a o⟩

theorem delIndex (a : Digest) (i : Nat) :
    Reg (σ.del (keylet.nftIndex a i)) { r with index := Function.update r.index (a, i) none } :=
  ⟨h.filed.del _, by rw [← h.eq]; exact σ.registry_del_index a i⟩

theorem delOwnerIndex (a : Digest) (o : AccountID) (i : Nat) :
    Reg (σ.del (keylet.nftOwnerIndex a o i))
      { r with ownerIndex := Function.update r.ownerIndex (a, o, i) none } :=
  ⟨h.filed.del _, by rw [← h.eq]; exact σ.registry_del_ownerIndex a o i⟩

theorem delAssetIndex (o : AccountID) (i : Nat) : Reg (σ.del (keylet.nfAssetIndex o i))
      { r with assetIndex := Function.update r.assetIndex (o, i) none } :=
  ⟨h.filed.del _, by rw [← h.eq]; exact σ.registry_del_assetIndex o i⟩

end
end Reg
end FinPal
