import FinPal.Verify.NFTSteps

/-!
# The token enumerations
-/

namespace FinPal
open Store ViewM Registry
open Function (update update_of_ne update_self update_eq_self update_idem update_comm comp_update update_eq_self_iff)
namespace Registry
variable (r : Registry)

/-- The index of a token among the tokens of the asset `a`. -/
def tokenPos (a t : Digest) : Option Nat :=
  (r.token t).bind fun tok => if tok.assetID = a then some tok.tokenIndex else none

/-- The index of a token among the tokens of the asset `p.1` that `p.2` owns. -/
def ownerPos (p : Digest × AccountID) (t : Digest) : Option Nat :=
  (r.token t).bind fun tok =>
    if (tok.assetID, tok.owner) = p then some tok.ownerTokenIndex else none

theorem tokenPos_eq_some {r : Registry} {a t : Digest} {i : Nat} :
    r.tokenPos a t = some i ↔ ∃ tok, r.token t = some tok ∧ tok.assetID = a ∧ tok.tokenIndex = i := by
  simp [tokenPos, Option.bind_eq_some_iff]

theorem ownerPos_eq_some {r : Registry} {p : Digest × AccountID} {t : Digest} {i : Nat} :
    r.ownerPos p t = some i ↔
      ∃ tok, r.token t = some tok ∧ (tok.assetID, tok.owner) = p ∧ tok.ownerTokenIndex = i := by
  simp [ownerPos, Option.bind_eq_some_iff]

variable (r : Registry)

/-- The asset of each token, and its index there. -/
def tokenPlace : Digest → Option (Digest × Nat) :=
  Option.map (fun tok => (tok.assetID, tok.tokenIndex)) ∘ r.token

/-- Where a token stands among those of its owner. -/
def ownerPlace : Digest → Option ((Digest × AccountID) × Nat) :=
  Option.map (fun tok => ((tok.assetID, tok.owner), tok.ownerTokenIndex)) ∘ r.token

theorem posAt_tokenPlace : posAt r.tokenPlace = r.tokenPos := by
  funext a t
  simp [posAt, tokenPlace, tokenPos, Option.bind_map]

theorem posAt_ownerPlace : posAt r.ownerPlace = r.ownerPos := by
  funext p t
  simp only [posAt, ownerPlace, ownerPos, Option.bind_map, Function.comp_def]

end Registry

/-- Every asset, and every owner of one, enumerates its tokens densely. -/
structure TokenInv (r : Registry) : Prop where
  tokens : ∀ a, DenseIndex (fun i => r.index (a, i)) (r.tokenPos a) (r.tokenNumber a)
  owners : ∀ p : Digest × AccountID,
    DenseIndex (fun i => r.ownerIndex (p.1, p.2, i)) (r.ownerPos p) (r.ownerNumber p)

def ownerKey (p : Digest × AccountID) (i : Nat) : Digest × AccountID × Nat := (p.1, p.2, i)

theorem ownerKey_injective : Function.Injective2 ownerKey := by
  rintro ⟨_, _⟩ ⟨_, _⟩ _ _ ⟨⟩
  exact ⟨rfl, rfl⟩

theorem tokenInv_iff {r : Registry} : TokenInv r ↔
    DenseFamily Prod.mk r.index (posAt r.tokenPlace) r.tokenNumber ∧
      DenseFamily ownerKey r.ownerIndex (posAt r.ownerPlace) r.ownerNumber := by
  rw [r.posAt_tokenPlace, r.posAt_ownerPlace]
  exact ⟨fun h => ⟨h.tokens, h.owners⟩, fun h => ⟨h.1, h.2⟩⟩

/-! ## Creating a token -/

/-- A token is appended to the list of its asset and to that of its owner. -/
structure Minted (t : Digest) (tok : NFToken) (r r' : Registry) : Prop where
  fresh : r.token t = none
  number : r.tokenNumber tok.assetID = tok.tokenIndex
  ownerNumber : r.ownerNumber (tok.assetID, tok.owner) = tok.ownerTokenIndex
  token : r'.token = Function.update r.token t (some tok)
  tokenNumber : r'.tokenNumber = Function.update r.tokenNumber tok.assetID (tok.tokenIndex + 1)
  index : r'.index = Function.update r.index (tok.assetID, tok.tokenIndex) (some t)
  ownerNumber' : r'.ownerNumber =
    Function.update r.ownerNumber (tok.assetID, tok.owner) (tok.ownerTokenIndex + 1)
  ownerIndex : r'.ownerIndex =
    Function.update r.ownerIndex (tok.assetID, tok.owner, tok.ownerTokenIndex) (some t)

namespace Minted
variable {t : Digest} {tok : NFToken} {r r' : Registry}

theorem inv (h : Minted t tok r r') (hi : TokenInv r) : TokenInv r' := by
  obtain ⟨hto, ho⟩ := tokenInv_iff.1 hi
  refine tokenInv_iff.2 ⟨?_, ?_⟩
  · rw [h.index, h.tokenNumber, tokenPlace, h.token, comp_update]
    exact hto.pushAt prodMk_injective2 h.number (by simp [h.fresh])
  · rw [h.ownerIndex, h.ownerNumber', ownerPlace, h.token, comp_update]
    exact ho.pushAt ownerKey_injective h.ownerNumber (by simp [ownerPlace, h.fresh])

end Minted

/-! ## Removing a token from its enumerations -/

/-- The tokens with `f` applied to the one under `y`. -/
def relocate (f : NFToken → NFToken) (y : Digest) (tokens : Digest → Option NFToken) :
    Digest → Option NFToken :=
  Function.update tokens y ((tokens y).map f)

theorem relocate_apply (f : NFToken → NFToken) (y x : Digest) (tokens : Digest → Option NFToken) :
    relocate f y tokens x = if x = y then (tokens x).map f else tokens x := by
  unfold relocate
  split
  · next h => subst h; simp
  · next h => simp [h]

section
variable {P : Type} {π : NFToken → P × Nat} {f : NFToken → NFToken} {y : Digest}
  {tokens : Digest → Option NFToken}

theorem map_relocate (hf : ∀ k, π (f k) = π k) :
    Option.map π ∘ relocate f y tokens = Option.map π ∘ tokens := by
  rw [relocate, comp_update, Option.map_map, show π ∘ f = π from funext hf]
  exact update_eq_self _ _

theorem map_relocate_index {i : Nat} (hf : ∀ k, π (f k) = ((π k).1, i)) :
    Option.map π ∘ relocate f y tokens = update (Option.map π ∘ tokens) y
      (((Option.map π ∘ tokens) y).map fun q => (q.1, i)) := by
  rw [relocate, comp_update, Option.map_map, Function.comp_apply, Option.map_map]
  congr 2
  exact funext hf

theorem update_gone {place : Digest → Option (P × Nat)} {t : Digest} {p : P} {i n : Nat}
    (hy : place y = some (p, n)) :
    update (update place t none) y ((update place t none y).map fun q => (q.1, i)) =
      update (update place y (some (p, i))) t none := by
  by_cases ht : y = t
  · subst ht; simp
  · rw [update_of_ne ht, update_comm ht, hy, Option.map_some]

end

/-- The token `tok` under `t` is destroyed, the `n`-th last of its asset, where `y` is the last, and
of its owner, where `z` is. -/
structure Burned (t : Digest) (tok : NFToken) (n m : Nat) (y z : Digest) (r r' : Registry) :
    Prop where
  was : r.token t = some tok
  number : r.tokenNumber tok.assetID = n + 1
  ownerNumber : r.ownerNumber (tok.assetID, tok.owner) = m + 1
  last : r.index (tok.assetID, n) = some y
  lastOwner : r.ownerIndex (tok.assetID, tok.owner, m) = some z
  token : r'.token =
    relocate (fun x => { x with ownerTokenIndex := tok.ownerTokenIndex }) z
      (relocate (fun x => { x with tokenIndex := tok.tokenIndex }) y
        (Function.update r.token t none))
  tokenNumber : r'.tokenNumber = Function.update r.tokenNumber tok.assetID n
  index : r'.index = Function.update (Function.update r.index (tok.assetID, tok.tokenIndex) (some y))
    (tok.assetID, n) none
  ownerNumber' : r'.ownerNumber = Function.update r.ownerNumber (tok.assetID, tok.owner) m
  ownerIndex : r'.ownerIndex = Function.update
    (Function.update r.ownerIndex (tok.assetID, tok.owner, tok.ownerTokenIndex) (some z))
    (tok.assetID, tok.owner, m) none

namespace Burned
variable {t y z : Digest} {tok : NFToken} {n m : Nat} {r r' : Registry}

theorem inv (h : Burned t tok n m y z r r') (hi : TokenInv r) : TokenInv r' := by
  obtain ⟨hto, ho⟩ := tokenInv_iff.1 hi
  refine tokenInv_iff.2 ⟨?_, ?_⟩
  · have hy := posAt_eq_some.1 (((hto tok.assetID).inv n y).1 h.last)
    have hpl : r'.tokenPlace =
        update (update r.tokenPlace y (some (tok.assetID, tok.tokenIndex))) t none := by
      rw [tokenPlace, h.token, map_relocate, map_relocate_index, comp_update]
      exacts [update_gone hy, fun _ => rfl, fun _ => rfl]
    rw [h.index, h.tokenNumber, hpl]
    exact hto.swapRemoveAt prodMk_injective2 h.number (by simp [tokenPlace, h.was]) h.last
  have hz := posAt_eq_some.1 (((ho (tok.assetID, tok.owner)).inv m z).1 h.lastOwner)
  have hpl : r'.ownerPlace = update (update r.ownerPlace z
      (some ((tok.assetID, tok.owner), tok.ownerTokenIndex))) t none := by
    rw [ownerPlace, h.token, map_relocate_index, map_relocate, comp_update]
    exacts [update_gone hz, fun _ => rfl, fun _ => rfl]
  rw [h.ownerIndex, h.ownerNumber', hpl]
  exact ho.swapRemoveAt ownerKey_injective h.ownerNumber (by simp [ownerPlace, h.was])
    h.lastOwner

end Burned

/-! ## Moving a token to another owner -/

/-- The token `tok` under `t` goes to `d`, which had `m'` tokens of the asset. Its owner keeps `m`,
of which `z` was the last. -/
structure Moved (t : Digest) (tok : NFToken) (d : AccountID) (m m' : Nat) (z : Digest)
    (r r' : Registry) : Prop where
  was : r.token t = some tok
  ne : d ≠ tok.owner
  ownerNumber : r.ownerNumber (tok.assetID, tok.owner) = m + 1
  destNumber : r.ownerNumber (tok.assetID, d) = m'
  lastOwner : r.ownerIndex (tok.assetID, tok.owner, m) = some z
  token : r'.token = Function.update
    (relocate (fun x => { x with ownerTokenIndex := tok.ownerTokenIndex }) z r.token) t
    (some { tok with owner := d, ownerTokenIndex := m', approved := none })
  tokenNumber : r'.tokenNumber = r.tokenNumber
  index : r'.index = r.index
  ownerNumber' : r'.ownerNumber = Function.update
    (Function.update r.ownerNumber (tok.assetID, tok.owner) m) (tok.assetID, d) (m' + 1)
  ownerIndex : r'.ownerIndex = Function.update (Function.update
    (Function.update r.ownerIndex (tok.assetID, tok.owner, tok.ownerTokenIndex) (some z))
    (tok.assetID, tok.owner, m) none) (tok.assetID, d, m') (some t)

namespace Moved
variable {t z : Digest} {tok : NFToken} {d : AccountID} {m m' : Nat} {r r' : Registry}

theorem inv (h : Moved t tok d m m' z r r') (hi : TokenInv r) : TokenInv r' := by
  obtain ⟨hto, ho⟩ := tokenInv_iff.1 hi
  refine tokenInv_iff.2 ⟨?_, ?_⟩
  · have hpl : r'.tokenPlace = r.tokenPlace := by
      rw [tokenPlace, h.token, comp_update, map_relocate]
      exacts [update_eq_self_iff.2 (by simp [h.was]), fun _ => rfl]
    rw [hpl, h.index, h.tokenNumber]
    exact hto
  -- the token leaves its owner and then joins the other account
  have hz := posAt_eq_some.1 (((ho (tok.assetID, tok.owner)).inv m z).1 h.lastOwner)
  have ht : r.ownerPlace t = some ((tok.assetID, tok.owner), tok.ownerTokenIndex) := by
    simp [ownerPlace, h.was]
  have hr := ho.swapRemoveAt ownerKey_injective h.ownerNumber ht h.lastOwner
  have hne : (tok.assetID, d) ≠ (tok.assetID, tok.owner) := fun e => h.ne (Prod.mk.inj e).2
  have hpu := hr.pushAt ownerKey_injective ((update_of_ne hne _ _).trans h.destNumber)
    (update_self t _ _)
  have hpl : r'.ownerPlace = update (update r.ownerPlace z
      (some ((tok.assetID, tok.owner), tok.ownerTokenIndex))) t (some ((tok.assetID, d), m')) := by
    rw [ownerPlace, h.token, comp_update, map_relocate_index, ← ownerPlace, hz]
    exacts [rfl, fun _ => rfl]
  rw [update_idem, ← hpl] at hpu
  rw [h.ownerIndex, h.ownerNumber']
  exact hpu

end Moved
end FinPal
