import Mathlib.Data.Set.Basic
import Mathlib.Tactic.Common

/-!
# Trees branching on digits

A tree whose inner nodes branch on one digit of the items below them. An inner node carries a value
that may fix the digit (a tree that skips digits); `level` is the digit a node at a position
branches on. A canonical tree is determined by its items.
-/

universe u

/-- Items with a label at the leaves, and a value at each inner node. -/
inductive DigitTree (D P I L : Type u)
  | null
  | leaf (item : I) (label : L)
  | inner (node : P) (children : D → DigitTree D P I L)

namespace DigitTree
open Function
variable {D P I L : Type u}

def Mem (i : I) : DigitTree D P I L → Prop
  | null => False
  | leaf j _ => i = j
  | inner _ children => ∃ b, Mem i (children b)

instance : Membership I (DigitTree D P I L) := ⟨fun t i => t.Mem i⟩

def Labelled (l : L) : DigitTree D P I L → Prop
  | null => True
  | leaf _ l' => l' = l
  | inner _ children => ∀ b, Labelled l (children b)

variable {i j : I} {l l' : L} {p : P} {b : D} {t child : DigitTree D P I L}
  {children : D → DigitTree D P I L}

@[simp] theorem notMem_null : i ∉ (null : DigitTree D P I L) := id

@[simp] theorem mem_leaf : i ∈ (leaf j l : DigitTree D P I L) ↔ i = j := Iff.rfl

theorem ne_null_of_mem (h : i ∈ t) : t ≠ null := by
  rintro rfl
  exact notMem_null h

section Update
variable [DecidableEq D]

theorem mem_update : i ∈ inner p (update children b child) ↔
    i ∈ child ∨ ∃ c, c ≠ b ∧ i ∈ children c := by
  constructor
  · rintro ⟨c, hc⟩
    by_cases hcb : c = b
    · subst hcb
      rw [update_self] at hc
      exact .inl hc
    · rw [update_of_ne hcb] at hc
      exact .inr ⟨c, hcb, hc⟩
  rintro (h | ⟨c, hcb, hc⟩)
  · exact ⟨b, by rwa [update_self]⟩
  · exact ⟨c, by rwa [update_of_ne hcb]⟩

theorem mem_pair {c : D} (hbc : b ≠ c) {child' : DigitTree D P I L} :
    i ∈ inner p (update (update (fun _ => null) b child) c child') ↔ i ∈ child ∨ i ∈ child' := by
  rw [mem_update]
  constructor
  · rintro (h | ⟨a, -, h⟩)
    · exact .inr h
    by_cases hab : a = b
    · subst hab
      rw [update_self] at h
      exact .inl h
    · rw [update_of_ne hab] at h
      exact absurd h notMem_null
  rintro (h | h)
  · exact .inr ⟨b, hbc, by rwa [update_self]⟩
  · exact .inl h

theorem Labelled.update (h : (inner p children).Labelled l) (hch : child.Labelled l) :
    (inner p (update children b child)).Labelled l := by
  intro c
  by_cases hcb : c = b
  · subst hcb
    rwa [update_self]
  · rw [update_of_ne hcb]
    exact h c

end Update

/-! ### Canonical trees -/

section Canonical
variable (digit : I → ℕ → D) (level : ℕ → P → ℕ) (Fits : ℕ → P → Set I → Prop)

/-- At a position, a tree whose inner nodes have two items each, on the branches of their digits,
and carry a value that fits the position and these. -/
inductive Canonical : ℕ → DigitTree D P I L → Prop
  | null {d : ℕ} : Canonical d null
  | leaf {d : ℕ} (i : I) (l : L) : Canonical d (leaf i l)
  | inner {d : ℕ} {p : P} {children : D → DigitTree D P I L}
    (fits : Fits d p {i | i ∈ inner p children})
    (two : ∃ i ∈ inner p children, ∃ j ∈ inner p children, i ≠ j)
    (branch : ∀ b, ∀ i ∈ children b, digit i (level d p) = b)
    (below : ∀ b, Canonical (level d p + 1) (children b)) : Canonical d (inner p children)

/-- The children of a node at a position: each on its branch, and canonical. -/
structure Branches (d : ℕ) (p : P) (children : D → DigitTree D P I L) : Prop where
  branch : ∀ b, ∀ i ∈ children b, digit i (level d p) = b
  below : ∀ b, Canonical digit level Fits (level d p + 1) (children b)

variable {digit level Fits} {d : ℕ} {t' : DigitTree D P I L} {children' : D → DigitTree D P I L}

theorem canonical_inner : Canonical digit level Fits d (inner p children) ↔
    Fits d p {i | i ∈ inner p children} ∧ (∃ i ∈ inner p children, ∃ j ∈ inner p children, i ≠ j) ∧
      Branches digit level Fits d p children := by
  constructor
  · rintro (_ | _ | ⟨fits, two, branch, below⟩)
    exact ⟨fits, two, branch, below⟩
  · rintro ⟨fits, two, branch, below⟩
    exact .inner fits two branch below

theorem Canonical.exists_mem (h : Canonical digit level Fits d t) (hne : t ≠ DigitTree.null) :
    ∃ i, i ∈ t := by
  cases h with
  | null => exact absurd rfl hne
  | leaf i l => exact ⟨i, rfl⟩
  | inner _ two _ _ =>
    obtain ⟨i, hi, -⟩ := two
    exact ⟨i, hi⟩

namespace Branches

theorem mem_child (h : Branches digit level Fits d p children) :
    i ∈ children b ↔ i ∈ inner p children ∧ digit i (level d p) = b := by
  constructor
  · intro hi
    exact ⟨⟨b, hi⟩, h.branch b i hi⟩
  · rintro ⟨⟨c, hc⟩, rfl⟩
    rwa [h.branch c i hc]

theorem update [DecidableEq D] (h : Branches digit level Fits d p children)
    (hdi : ∀ i ∈ child, digit i (level d p) = b)
    (hch : Canonical digit level Fits (level d p + 1) child) :
    Branches digit level Fits d p (update children b child) where
  branch c := by
    by_cases hcb : c = b
    · subst hcb
      rwa [update_self]
    · rw [update_of_ne hcb]
      exact h.branch c
  below c := by
    by_cases hcb : c = b
    · subst hcb
      rwa [update_self]
    · rw [update_of_ne hcb]
      exact h.below c

theorem null (d : ℕ) (p : P) :
    Branches digit level Fits d p (fun _ => null : D → DigitTree D P I L) where
  branch _ _ hi := absurd hi notMem_null
  below _ := .null

end Branches

theorem Canonical.eq_of_digit (h : Canonical digit level Fits d t) (hi : i ∈ t) (hj : j ∈ t)
    (heq : digit i = digit j) : i = j := by
  induction h with
  | null => exact absurd hi notMem_null
  | leaf k l => exact (mem_leaf.1 hi).trans (mem_leaf.1 hj).symm
  | inner _ _ branch _ ih =>
    obtain ⟨b, hb⟩ := hi
    obtain ⟨c, hc⟩ := hj
    have hbc : b = c := by rw [← branch b i hb, ← branch c j hc, heq]
    subst hbc
    exact ih b hb hc

/-- The value of an inner node is determined by its position and its items. -/
def FitsUnique (Fits : ℕ → P → Set I → Prop) : Prop :=
  ∀ (d : ℕ) (p q : P) (s : Set I), Fits d p s → Fits d q s → p = q

theorem Canonical.ext (hun : FitsUnique Fits) (h : Canonical digit level Fits d t)
    (h' : Canonical digit level Fits d t') (hl : t.Labelled l) (hl' : t'.Labelled l)
    (heq : ∀ i, i ∈ t ↔ i ∈ t') : t = t' := by
  induction h generalizing t' with
  | null =>
    by_contra hne
    obtain ⟨i, hi⟩ := h'.exists_mem (Ne.symm hne)
    exact notMem_null ((heq i).2 hi)
  | leaf i k =>
    have hi := (heq i).1 rfl
    cases h' with
    | null => exact absurd hi notMem_null
    | leaf j _ =>
      obtain rfl : i = j := hi
      exact congrArg _ (hl.trans hl'.symm)
    | inner fits two branch below =>
      obtain ⟨j, hj, j', hj', hne⟩ := two
      exact absurd (((heq j).2 hj).trans ((heq j').2 hj').symm) hne
  | @inner d p children fits two branch below ih =>
    cases h' with
    | null =>
      obtain ⟨j, hj, -⟩ := two
      exact absurd ((heq j).1 hj) notMem_null
    | leaf i k =>
      obtain ⟨j, hj, j', hj', hne⟩ := two
      exact absurd (((heq j).1 hj).trans ((heq j').1 hj').symm) hne
    | @inner _ q children' fits' _ branch' below' =>
      have hs : {i | i ∈ DigitTree.inner p children} = {i | i ∈ DigitTree.inner q children'} :=
        Set.ext heq
      rw [← hs] at fits'
      obtain rfl : p = q := hun _ _ _ _ fits fits'
      congr 1
      funext b
      refine ih b (below' b) (hl b) (hl' b) fun i => ?_
      rw [(Branches.mk branch below).mem_child, (Branches.mk branch' below').mem_child, heq]

theorem Branches.ext (hun : FitsUnique Fits) (h : Branches digit level Fits d p children)
    (h' : Branches digit level Fits d p children') (hl : (inner p children).Labelled l)
    (hl' : (inner p children').Labelled l)
    (heq : ∀ i, i ∈ inner p children ↔ i ∈ inner p children') : children = children' := by
  funext b
  refine (h.below b).ext hun (h'.below b) (hl b) (hl' b) fun i => ?_
  rw [h.mem_child, h'.mem_child, heq]

theorem Branches.eq_of_digit (h : Branches digit level Fits d p children)
    (hi : i ∈ inner p children) (hj : j ∈ inner p children) (heq : digit i = digit j) : i = j := by
  obtain ⟨b, hb⟩ := hi
  have hj' : j ∈ children b := h.mem_child.2 ⟨hj, by rw [← heq, h.branch b i hb]⟩
  exact (h.below b).eq_of_digit hb hj' heq

/-! ### Going down along the digits of a key -/

variable (level) (k : ℕ → D) (pass : P → Prop)

/-- The way down a tree along the digits of a key: the inner nodes passed with the digits they
branch on, the last one first, and the end: a leaf, an empty branch, or an inner node that the key
does not pass. -/
inductive Walk : ℕ → DigitTree D P I L → List (DigitTree D P I L × ℕ) → DigitTree D P I L → ℕ → Prop
  | absent {d : ℕ} : Walk d null [] null d
  | found {d : ℕ} (i : I) (l : L) : Walk d (leaf i l) [] (leaf i l) d
  | blocked {d : ℕ} {p : P} (children : D → DigitTree D P I L) (h : ¬ pass p) :
    Walk d (inner p children) [] (inner p children) d
  | down {d d' : ℕ} {p : P} {children : D → DigitTree D P I L}
    {stack : List (DigitTree D P I L × ℕ)} {e : DigitTree D P I L} (h : pass p)
    (rest : Walk (level d p + 1) (children (k (level d p))) stack e d') :
    Walk d (inner p children) (stack ++ [(inner p children, level d p)]) e d'

variable {level pass}

variable [DecidableEq D]

def setChild : DigitTree D P I L → D → DigitTree D P I L → DigitTree D P I L
  | inner p children, b, child => inner p (Function.update children b child)
  | t, _, _ => t

/-- Go up again with a new end of the way; each node whose child is set passes through `f`. -/
def plug (f : DigitTree D P I L → DigitTree D P I L) :
    List (DigitTree D P I L × ℕ) → DigitTree D P I L → DigitTree D P I L
  | [], child => child
  | (node, n) :: stack, child => plug f stack (f (node.setChild (k n) child))

variable {k} {f : DigitTree D P I L → DigitTree D P I L} {e e' : DigitTree D P I L} {d' : ℕ}
  {stack : List (DigitTree D P I L × ℕ)}

theorem plug_append (stack' : List (DigitTree D P I L × ℕ)) (child : DigitTree D P I L) :
    plug k f (stack ++ stack') child = plug k f stack' (plug k f stack child) := by
  induction stack generalizing child with
  | nil => rfl
  | cons x stack ih => exact ih _

omit [DecidableEq D] in
theorem Walk.mem (h : Walk level k pass d t stack e d') (hi : i ∈ e) : i ∈ t := by
  induction h with
  | absent | found | blocked => exact hi
  | down _ _ ih => exact ⟨_, ih hi⟩

omit [DecidableEq D] in
theorem Walk.mem_end (h : Walk level k pass d t stack e d')
    (hc : Canonical digit level Fits d t) (hdi : digit i = k) (hi : i ∈ t) : i ∈ e := by
  induction h with
  | absent | found | blocked => exact hi
  | down _ _ ih =>
    obtain ⟨-, -, hb⟩ := canonical_inner.1 hc
    exact ih (hb.below _) (hb.mem_child.2 ⟨hi, by rw [hdi]⟩)

omit [DecidableEq D] in
theorem Walk.canonical_end (h : Walk level k pass d t stack e d')
    (hc : Canonical digit level Fits d t) : Canonical digit level Fits d' e := by
  induction h with
  | absent | found | blocked => exact hc
  | down _ _ ih => exact ih ((canonical_inner.1 hc).2.2.below _)

omit [DecidableEq D] in
theorem Walk.not_pass (h : Walk level k pass d t stack (.inner p children) d') : ¬ pass p := by
  generalize he : DigitTree.inner p children = e at h
  induction h with
  | absent | found => cases he
  | blocked _ hp =>
    cases he
    exact hp
  | down _ _ ih => exact ih he

omit [DecidableEq D] in
theorem Walk.passed (h : Walk level k pass d t stack e d') {x : DigitTree D P I L × ℕ}
    (hx : x ∈ stack) : ∃ p children, x.1 = .inner p children ∧ pass p := by
  induction h with
  | absent | found | blocked => cases hx
  | @down d _ p children _ _ hp _ ih =>
    rw [List.mem_append, List.mem_singleton] at hx
    obtain hx | rfl := hx
    · exact ih hx
    · exact ⟨p, children, rfl, hp⟩

omit [DecidableEq D] in
theorem Walk.labelled_end (h : Walk level k pass d t stack e d') (ht : t.Labelled l) :
    e.Labelled l := by
  induction h with
  | absent | found | blocked => exact ht
  | down _ _ ih => exact ih (ht _)

theorem Walk.labelled (h : Walk level k pass d t stack e d') (ht : t.Labelled l)
    (hf : ∀ t', t'.Labelled l → (f t').Labelled l) (he' : e'.Labelled l) :
    (plug k f stack e').Labelled l := by
  induction h with
  | absent | found | blocked => exact he'
  | down _ _ ih =>
    rw [plug_append]
    exact hf _ (Labelled.update ht (ih (ht _)))

variable {x : I}

theorem Branches.mem_update_put (h : Branches digit level Fits d p children)
    (hm : ∀ i, i ∈ child ↔ i = x ∨ i ∈ children (k (level d p)) ∧ digit i ≠ k) :
    i ∈ inner p (Function.update children (k (level d p)) child) ↔
      i = x ∨ i ∈ inner p children ∧ digit i ≠ k := by
  rw [mem_update, hm]
  constructor
  · rintro ((rfl | ⟨hi, hne⟩) | ⟨c, hc, hi⟩)
    · exact .inl rfl
    · exact .inr ⟨⟨_, hi⟩, hne⟩
    · exact .inr ⟨⟨c, hi⟩, fun heq => hc (by rw [← h.branch c i hi, heq])⟩
  rintro (rfl | ⟨⟨c, hi⟩, hne⟩)
  · exact .inl (.inl rfl)
  by_cases hc : c = k (level d p)
  · subst hc
    exact .inl (.inr ⟨hi, hne⟩)
  · exact .inr ⟨c, hc, hi⟩

omit [DecidableEq D] in
/-- Two items remain two when the one with the digits of `x`, if any, gives way to `x`. -/
theorem two_put (hx : digit x = k) (h : Canonical digit level Fits d (inner p children))
    (hm : ∀ i, i ∈ t ↔ i = x ∨ i ∈ inner p children ∧ digit i ≠ k) : ∃ i ∈ t, ∃ j ∈ t, i ≠ j := by
  obtain ⟨-, ⟨i, hi, j, hj, hij⟩, -⟩ := canonical_inner.1 h
  have hot : ∃ j ∈ inner p children, digit j ≠ k := by
    by_cases hik : digit i = k
    · refine ⟨j, hj, fun hjk => hij (h.eq_of_digit hi hj (hik.trans hjk.symm))⟩
    · exact ⟨i, hi, hik⟩
  obtain ⟨j, hj, hjk⟩ := hot
  exact ⟨x, (hm x).2 (.inl rfl), j, (hm j).2 (.inr ⟨hj, hjk⟩), fun heq => hjk (heq ▸ hx)⟩

theorem Walk.put (hx : digit x = k) (hfi : ∀ d p s, Fits d p s → pass p →
      Fits d p {i | i = x ∨ i ∈ s ∧ digit i ≠ k})
    (h : Walk level k pass d t stack e d') (hc : Canonical digit level Fits d t)
    (he : Canonical digit level Fits d' e') (hm : ∀ i, i ∈ e' ↔ i = x ∨ i ∈ e ∧ digit i ≠ k) :
    Canonical digit level Fits d (plug k id stack e') ∧
      ∀ i, i ∈ plug k id stack e' ↔ i = x ∨ i ∈ t ∧ digit i ≠ k := by
  induction h with
  | absent | found | blocked => exact ⟨he, hm⟩
  | @down d _ p children stack _ hpa _ ih =>
    obtain ⟨fits, -, hb⟩ := canonical_inner.1 hc
    obtain ⟨hcan, hch⟩ := ih (hb.below _) he hm
    have hno : ∀ i, i ∈ inner p (update children (k (level d p)) (plug k id stack e')) ↔
        i = x ∨ i ∈ inner p children ∧ digit i ≠ k := fun i => hb.mem_update_put hch
    rw [plug_append]
    refine ⟨canonical_inner.2 ⟨?_, two_put hx hc hno, hb.update ?_ hcan⟩, hno⟩
    · have hs : {i | i ∈ inner p (update children (k (level d p)) (plug k id stack e'))} =
          {i | i = x ∨ i ∈ inner p children ∧ digit i ≠ k} := Set.ext hno
      rw [hs]
      exact hfi _ _ _ fits hpa
    intro i hi
    obtain rfl | ⟨hi, -⟩ := (hch i).1 hi
    · rw [hx]
    · exact hb.branch _ i hi

theorem Branches.mem_update_erase (h : Branches digit level Fits d p children)
    (hx : x ∈ children b) (hm : ∀ i, i ∈ child ↔ i ∈ children b ∧ i ≠ x) :
    i ∈ inner p (Function.update children b child) ↔ i ∈ inner p children ∧ i ≠ x := by
  rw [mem_update, hm]
  constructor
  · rintro (⟨hi, hne⟩ | ⟨c, hc, hi⟩)
    · exact ⟨⟨_, hi⟩, hne⟩
    refine ⟨⟨c, hi⟩, ?_⟩
    rintro rfl
    exact hc ((h.branch c i hi).symm.trans (h.branch b i hx))
  rintro ⟨⟨c, hi⟩, hne⟩
  by_cases hc : c = b
  · subst hc
    exact .inl ⟨hi, hne⟩
  · exact .inr ⟨c, hc, hi⟩

/-- Taking an item away, where going up keeps the nodes that lost one canonical. -/
theorem Walk.erase (hf : ∀ d p children s, Fits d p s →
      (∀ i ∈ inner p children, i ∈ s) → Branches digit level Fits d p children →
      (∃ i, i ∈ inner p children) → Canonical digit level Fits d (f (inner p children)) ∧
        ∀ i, i ∈ f (inner p children) ↔ i ∈ inner p children)
    (h : Walk level k pass d t stack (.leaf x l) d') (hc : Canonical digit level Fits d t) :
    Canonical digit level Fits d (plug k f stack .null) ∧
      ∀ i, i ∈ plug k f stack .null ↔ i ∈ t ∧ i ≠ x := by
  generalize he : leaf x l = e at h
  induction h with
  | absent | blocked => cases he
  | found =>
    cases he
    exact ⟨.null, fun i => by simp [plug]⟩
  | @down d _ p children stack e _ rest ih =>
    obtain ⟨fits, ⟨i, hi, j, hj, hij⟩, hb⟩ := canonical_inner.1 hc
    obtain ⟨hcan, hch⟩ := ih (hb.below _) he
    have hxb : x ∈ children (k (level d p)) := rest.mem (he ▸ rfl)
    have hno : ∀ i, i ∈ inner p (update children (k (level d p)) (plug k f stack .null)) ↔
        i ∈ inner p children ∧ i ≠ x := fun i => hb.mem_update_erase hxb hch
    have hre : ∃ i, i ∈ inner p (update children (k (level d p)) (plug k f stack .null)) := by
      by_cases hix : i = x
      · exact ⟨j, (hno j).2 ⟨hj, fun hjx => hij (hix.trans hjx.symm)⟩⟩
      · exact ⟨i, (hno i).2 ⟨hi, hix⟩⟩
    have hbr := hb.update (fun i hi => hb.branch _ i ((hch i).1 hi).1) hcan
    obtain ⟨hc', hm⟩ := hf d p _ _ fits (fun i hi => ((hno i).1 hi).1) hbr hre
    rw [plug_append]
    exact ⟨hc', fun i => (hm i).trans (hno i)⟩

end Canonical
end DigitTree
