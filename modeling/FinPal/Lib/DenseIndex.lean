import Mathlib.Algebra.BigOperators.Fin

/-!
# Dense enumerations

A dense enumeration lists elements under the indices `0 … n - 1` and keeps with each element the
index it is listed under. Elements are appended at index `n`, and removed by moving the last
element into the gap.
-/

namespace FinPal
open Function
variable {X O : Type}

/-- `idx` lists elements under exactly the indices below `n`, and `pos` is its inverse. -/
structure DenseIndex (idx : Nat → Option X) (pos : X → Option Nat) (n : Nat) : Prop where
  dom : ∀ i, (idx i).isSome ↔ i < n
  inv : ∀ i x, idx i = some x ↔ pos x = some i

namespace DenseIndex
variable {idx : Nat → Option X} {pos : X → Option Nat} {n i : Nat} {x y : X}

theorem empty : DenseIndex (fun _ : Nat => (none : Option X)) (fun _ => none) 0 where
  dom i := by simp
  inv i x := by simp

section
variable (h : DenseIndex idx pos n)
include h

theorem lt (hx : pos x = some i) : i < n := (h.dom i).1 (by rw [(h.inv i x).2 hx]; rfl)

theorem exists_of_lt (hi : i < n) : ∃ x, idx i = some x ∧ pos x = some i := by
  obtain ⟨x, hx⟩ := Option.isSome_iff_exists.1 ((h.dom i).2 hi)
  exact ⟨x, hx, (h.inv i x).1 hx⟩

theorem inj (hx : pos x = some i) (hy : pos y = some i) : x = y :=
  Option.some.inj (((h.inv i x).2 hx).symm.trans ((h.inv i y).2 hy))

theorem push [DecidableEq X] (hx : pos x = none) :
    DenseIndex (update idx n (some x)) (update pos x (some n)) (n + 1) where
  dom i := by
    by_cases e : i = n
    · subst e; simp
    · rw [update_of_ne e, h.dom i]
      omega
  inv i z := by
    have hi := h.inv i z
    by_cases e : i = n
    · subst e
      by_cases ez : z = x
      · subst ez; simp
      -- no other element is listed at or after the end
      have : pos z ≠ some i := fun hz => absurd (h.lt hz) (lt_irrefl _)
      simp [ez, Ne.symm ez, this]
    rw [update_of_ne e]
    by_cases ez : z = x
    · subst ez
      simp [hi, hx, Ne.symm e]
    · rw [update_of_ne ez]
      exact hi

end

theorem swapRemove [DecidableEq X] (h : DenseIndex idx pos (n + 1)) (hx : pos x = some i)
    (hy : idx n = some y) : DenseIndex (update (update idx i (some y)) n none)
      (update (update pos y (some i)) x none) n where
  dom j := by
    have hi := h.lt hx
    by_cases en : j = n
    · subst en; simp
    rw [update_of_ne en]
    by_cases ei : j = i
    · subst ei
      simp only [update_self, Option.isSome_some, true_iff]
      omega
    · rw [update_of_ne ei, h.dom j]
      omega
  inv j z := by
    have hz := h.inv j z
    have hyn := (h.inv n y).1 hy
    by_cases en : j = n
    · subst en
      simp only [update_self, reduceCtorEq, false_iff]
      by_cases ezx : z = x
      · subst ezx; simp
      rw [update_of_ne ezx]
      by_cases ezy : z = y
      · -- were the last index to receive `y`, `x` would be `y`
        subst ezy
        simp only [update_self, Option.some.injEq]
        rintro rfl
        exact ezx (h.inj hyn hx)
      · rw [update_of_ne ezy]
        exact fun hp => ezy (h.inj hp hyn)
    rw [update_of_ne en]
    by_cases ei : j = i
    · subst ei
      rw [update_self]
      by_cases ezx : z = x
      · subst ezx
        simp only [update_self, reduceCtorEq, iff_false, Option.some.injEq]
        rintro rfl
        rw [hx] at hyn
        exact en (Option.some.inj hyn)
      rw [update_of_ne ezx]
      by_cases ezy : z = y
      · subst ezy; simp
      rw [update_of_ne ezy]
      simp only [Option.some.injEq, Ne.symm ezy, false_iff]
      exact fun hp => ezx (h.inj hp hx)
    rw [update_of_ne ei, hz]
    by_cases ezx : z = x
    · subst ezx
      simp only [update_self, hx, reduceCtorEq, iff_false, Option.some.injEq]
      exact Ne.symm ei
    rw [update_of_ne ezx]
    by_cases ezy : z = y
    · subst ezy
      simp only [update_self, hyn, Option.some.injEq]
      exact iff_of_false (Ne.symm en) (Ne.symm ei)
    · rw [update_of_ne ezy]

/-- If each owner has a dense enumeration of its own elements, the lengths add up. -/
theorem sum_eq [Fintype O] (owner : X → O) {oidx : O → Nat → Option X} {opos : O → X → Option Nat}
    {m : O → Nat} (h : DenseIndex idx pos n) (ho : ∀ o, DenseIndex (oidx o) (opos o) (m o))
    (hown : ∀ o x, (opos o x).isSome ↔ (pos x).isSome ∧ owner x = o) : n = ∑ o, m o := by
  -- an owner and an index among its elements determine the index among all elements
  have hpos (p : Σ o, Fin (m o)) : ∃ k : Fin n, ∃ x, oidx p.1 p.2 = some x ∧ pos x = some k.1 := by
    obtain ⟨x, hx, hp⟩ := (ho p.1).exists_of_lt p.2.2
    obtain ⟨k, hk⟩ := Option.isSome_iff_exists.1 ((hown p.1 x).1 (by simp [hp])).1
    exact ⟨⟨k, h.lt hk⟩, x, hx, hk⟩
  choose f hf using hpos
  have hi : Injective f := by
    rintro ⟨o, j⟩ ⟨o', j'⟩ hff
    obtain ⟨x, hx, hk⟩ := hf ⟨o, j⟩
    obtain ⟨x', hx', hk'⟩ := hf ⟨o', j'⟩
    rw [hff] at hk
    obtain rfl := h.inj hk hk'
    have hj := ((ho o).inv j x).1 hx
    have hj' := ((ho o').inv j' x).1 hx'
    obtain rfl : o = o' :=
      ((hown o x).1 (by simp [hj])).2.symm.trans ((hown o' x).1 (by simp [hj'])).2
    have : j = j' := Fin.ext (Option.mem_unique hj hj')
    rw [this]
  have hsu : Surjective f := by
    intro k
    obtain ⟨x, -, hk⟩ := h.exists_of_lt k.2
    obtain ⟨j, hj⟩ := Option.isSome_iff_exists.1 ((hown (owner x) x).2 ⟨by simp [hk], rfl⟩)
    refine ⟨⟨owner x, j, (ho _).lt hj⟩, ?_⟩
    obtain ⟨x', hx', hk'⟩ := hf ⟨owner x, j, (ho _).lt hj⟩
    have : x' = x := (ho (owner x)).inj (((ho _).inv j x').1 hx') hj
    subst this
    exact Fin.ext (Option.mem_unique hk' hk)
  have := Fintype.card_congr (Equiv.ofBijective f ⟨hi, hsu⟩)
  simpa using this.symm

end DenseIndex

/-! ## Families -/

section
variable {P Q : Type} {enc : P → Nat → Q} {idx : Q → Option X} {pos : P → X → Option Nat}
  {num : P → Nat} {p q : P} {x y : X} {i n : Nat} {place : X → Option (P × Nat)}

/-- Every group `p` enumerates its elements, the `i`-th under the key `enc p i`. -/
def DenseFamily (enc : P → Nat → Q) (idx : Q → Option X) (pos : P → X → Option Nat)
    (num : P → Nat) : Prop :=
  ∀ p, DenseIndex (fun i => idx (enc p i)) (pos p) (num p)

theorem prodMk_injective2 : Injective2 (Prod.mk : P → Nat → P × Nat) := fun _ _ _ _ => Prod.mk.inj

/-- The index of an element in the group `p`; each has a place in one group. -/
def posAt [DecidableEq P] (place : X → Option (P × Nat)) (p : P) (x : X) : Option Nat :=
  (place x).bind fun q => if q.1 = p then some q.2 else none

theorem posAt_eq_some [DecidableEq P] : posAt place p x = some i ↔ place x = some (p, i) := by
  simp [posAt, Option.bind_eq_some_iff]

variable [DecidableEq P] [DecidableEq X]

theorem posAt_push (hx : place x = none) : posAt (update place x (some (p, n))) =
    update (posAt place) p (update (posAt place p) x (some n)) := by
  funext q z
  by_cases hq : q = p
  · by_cases hz : z = x <;> simp [posAt, hq, hz]
  · by_cases hz : z = x <;> simp [posAt, hq, Ne.symm hq, hz, hx]

theorem posAt_swapRemove (hx : place x = some (p, i)) (hy : place y = some (p, n)) :
    posAt (update (update place y (some (p, i))) x none) =
      update (posAt place) p (update (update (posAt place p) y (some i)) x none) := by
  funext q z
  by_cases hq : q = p
  · by_cases hzx : z = x <;> by_cases hzy : z = y <;> simp_all [posAt]
  · -- neither element is in the group `q`
    by_cases hzx : z = x <;> by_cases hzy : z = y <;> simp_all [posAt, Ne.symm hq]

namespace DenseFamily
variable [DecidableEq Q] (henc : Injective2 enc)
include henc

theorem push (h : DenseFamily enc idx pos num) (hn : num p = n) (hx : pos p x = none) :
    DenseFamily enc (update idx (enc p n) (some x)) (update pos p (update (pos p) x (some n)))
      (update num p (n + 1)) := by
  subst hn
  intro q
  by_cases hq : q = p
  · subst hq
    rw [update_self, update_self]
    convert (h q).push hx using 1
    exact update_comp_eq_of_injective _ (henc.right q) _ _
  rw [update_of_ne hq, update_of_ne hq]
  convert h q using 1
  exact update_comp_eq_of_forall_ne _ _ fun _ e => hq (henc e).1

theorem swapRemove (h : DenseFamily enc idx pos num) (hn : num p = n + 1) (hx : pos p x = some i)
    (hy : idx (enc p n) = some y) :
    DenseFamily enc (update (update idx (enc p i) (some y)) (enc p n) none)
      (update pos p (update (update (pos p) y (some i)) x none)) (update num p n) := by
  intro q
  by_cases hq : q = p
  · subst hq
    have hd := h q
    rw [hn] at hd
    rw [update_self, update_self]
    convert hd.swapRemove hx hy using 1
    refine (update_comp_eq_of_injective _ (henc.right q) _ _).trans ?_
    exact congrArg (update · n none) (update_comp_eq_of_injective _ (henc.right q) _ _)
  have hr : ∀ j, enc q j ≠ enc p i ∧ enc q j ≠ enc p n :=
    fun _ => ⟨fun e => hq (henc e).1, fun e => hq (henc e).1⟩
  rw [update_of_ne hq, update_of_ne hq]
  convert h q using 1
  funext j
  rw [update_of_ne (hr j).2, update_of_ne (hr j).1]

theorem pushAt (h : DenseFamily enc idx (posAt place) num) (hn : num p = n) (hx : place x = none) :
    DenseFamily enc (update idx (enc p n) (some x)) (posAt (update place x (some (p, n))))
      (update num p (n + 1)) := by
  rw [posAt_push hx]
  exact h.push henc hn (by simp [posAt, hx])

theorem swapRemoveAt (h : DenseFamily enc idx (posAt place) num) (hn : num p = n + 1)
    (hx : place x = some (p, i)) (hy : idx (enc p n) = some y) :
    DenseFamily enc (update (update idx (enc p i) (some y)) (enc p n) none)
      (posAt (update (update place y (some (p, i))) x none)) (update num p n) := by
  rw [posAt_swapRemove hx (posAt_eq_some.1 (((h p).inv n y).1 hy))]
  exact h.swapRemove henc hn (posAt_eq_some.2 hx) hy

end DenseFamily
end
end FinPal
