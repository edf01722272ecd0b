import FinPal.Lib.DigitTree
import Mathlib.Order.Lattice.Nat

/-!
# Trees stored in a heap

The nodes of a tree are cells of a heap, and inner cells point to their children. Several pointers
may lead to a cell, from one tree or more. `Stored` says that a tree is at a pointer, and none of
its cells is in a set which somebody may be about to write to.
-/

universe u

variable {D P I L Ptr Cell : Type u}

namespace DigitTree
variable [Fintype D]

/-- The number of inner nodes on the longest way down. -/
def height : DigitTree D P I L → ℕ
  | inner _ children => Finset.univ.sup (fun b => height (children b)) + 1
  | _ => 0

theorem height_child_lt (p : P) (children : D → DigitTree D P I L) (b : D) :
    (children b).height < (inner p children).height :=
  Nat.lt_succ_of_le (Finset.le_sup (f := fun b => height (children b)) (Finset.mem_univ b))

end DigitTree

inductive NodeShape (D P I L Ptr : Type u)
  | leaf (item : I) (label : L)
  | inner (node : P) (children : D → Option Ptr)

/-- How cells stand for nodes: what they say about a node, and what holds of the rest of a cell that
stands for a given tree. -/
structure HeapFormat (D P I L Ptr Cell : Type u) where
  shape : Cell → NodeShape D P I L Ptr
  Good : Cell → DigitTree D P I L → Prop

namespace HeapFormat
open DigitTree
variable (F : HeapFormat D P I L Ptr Cell)

/-- The cell at a pointer is the root of a tree, if the pointers to its children are in relation to
the subtrees. -/
def Unfolds (node : Ptr → Option Cell) (R : DigitTree D P I L → Ptr → Prop) :
    DigitTree D P I L → Ptr → Prop
  | .null, _ => False
  | .leaf i l, p => ∃ c, node p = some c ∧ F.shape c = .leaf i l ∧ F.Good c (.leaf i l)
  | .inner n children, p => ∃ c cs, node p = some c ∧ F.shape c = .inner n cs ∧
      F.Good c (.inner n children) ∧
      ∀ b, (cs b = none → children b = .null) ∧ ∀ q, cs b = some q → R (children b) q

/-- The tree is at a pointer, and none of its cells is in `X`. -/
def Stored (node : Ptr → Option Cell) (X : Set Ptr) : DigitTree D P I L → Ptr → Prop
  | .null, _ => False
  | .leaf i l, p => p ∉ X ∧ ∃ c, node p = some c ∧ F.shape c = .leaf i l ∧ F.Good c (.leaf i l)
  | .inner n children, p => p ∉ X ∧ ∃ c cs, node p = some c ∧ F.shape c = .inner n cs ∧
      F.Good c (.inner n children) ∧
      ∀ b, (cs b = none → children b = .null) ∧ ∀ q, cs b = some q → Stored node X (children b) q

variable {F} {node node' : Ptr → Option Cell} {X Y : Set Ptr} {t t' : DigitTree D P I L} {p q x : Ptr}
  {c : Cell} {n : P} {cs : D → Option Ptr} {children : D → DigitTree D P I L} {b : D} {i : I}
  {R R' : DigitTree D P I L → Ptr → Prop}

theorem kid_some (h : R t q) : (some q = none → t = .null) ∧ ∀ q', some q = some q' → R t q' :=
  ⟨nofun, fun _ heq => Option.some.inj heq ▸ h⟩

theorem kids_update [DecidableEq D] {child : Option Ptr}
    (hch : (child = none → t = .null) ∧ ∀ q, child = some q → R t q)
    (h : ∀ b' ≠ b, (cs b' = none → children b' = .null) ∧ ∀ q, cs b' = some q → R (children b') q)
    (b' : D) : (Function.update cs b child b' = none → Function.update children b t b' = .null) ∧
      ∀ q, Function.update cs b child b' = some q → R (Function.update children b t b') q := by
  by_cases hb : b' = b
  · subst hb
    rw [Function.update_self, Function.update_self]
    exact hch
  · rw [Function.update_of_ne hb, Function.update_of_ne hb]
    exact h b' hb

theorem stored_iff : F.Stored node X t p ↔ p ∉ X ∧ F.Unfolds node (F.Stored node X) t p := by
  cases t with
  | null => exact ⟨False.elim, fun h => h.2.elim⟩
  | leaf i l => exact Iff.rfl
  | inner n _ => exact Iff.rfl

theorem Stored.notMem (h : F.Stored node X t p) : p ∉ X := (stored_iff.1 h).1

theorem Stored.unfolds (h : F.Stored node X t p) : F.Unfolds node (F.Stored node X) t p :=
  (stored_iff.1 h).2

theorem Stored.of_unfolds (h : ∀ t p, R t p → p ∉ X ∧ F.Unfolds node R t p) (hR : R t p) :
    F.Stored node X t p := by
  induction t generalizing p with
  | null => exact ((h _ p hR).2).elim
  | leaf i l => exact h _ p hR
  | inner n _ ih =>
    obtain ⟨hp, c, cs, hget, hsh, hg, hbe⟩ := h _ p hR
    refine ⟨hp, c, cs, hget, hsh, hg, fun b => ⟨(hbe b).1, fun q hq => ?_⟩⟩
    exact ih b ((hbe b).2 q hq)

theorem Unfolds.imp (h : F.Unfolds node R t p) (hn : ∀ c, node p = some c → node' p = some c)
    (hR : ∀ n children c cs b q, t = .inner n children → node p = some c → F.shape c = .inner n cs →
      cs b = some q → R (children b) q → R' (children b) q) : F.Unfolds node' R' t p := by
  cases t with
  | null => exact h
  | leaf i l =>
    obtain ⟨c, hg, h⟩ := h
    exact ⟨c, hn c hg, h⟩
  | inner n children =>
    obtain ⟨c, cs, hg, hsh, hgo, hbe⟩ := h
    refine ⟨c, cs, hn c hg, hsh, hgo, fun b => ⟨(hbe b).1, fun q hq => ?_⟩⟩
    exact hR n children c cs b q rfl hg hsh hq ((hbe b).2 q hq)

section
variable (h : F.Stored node X t p)
include h

theorem Stored.exists_cell : ∃ c, node p = some c := by
  cases t with
  | null => exact h.elim
  | leaf i l =>
    obtain ⟨-, c, hg, -⟩ := h
    exact ⟨c, hg⟩
  | inner n _ =>
    obtain ⟨-, c, -, hg, -⟩ := h
    exact ⟨c, hg⟩

theorem Stored.ne_null : t ≠ .null := by
  rintro rfl
  exact h

theorem Stored.unique (h' : F.Stored node Y t' p) : t = t' := by
  induction t generalizing t' p with
  | null => exact h.elim
  | leaf i l =>
    obtain ⟨-, c, hg, hsh, -⟩ := h
    cases t' with
    | null => exact h'.elim
    | leaf i' l' =>
      obtain ⟨-, c', hg', hsh', -⟩ := h'
      cases hg.symm.trans hg'
      cases hsh.symm.trans hsh'
      rfl
    | inner n' children' =>
      obtain ⟨-, c', cs', hg', hsh', -⟩ := h'
      cases hg.symm.trans hg'
      cases hsh.symm.trans hsh'
  | inner n _ ih =>
    obtain ⟨-, c, cs, hg, hsh, -, hbe⟩ := h
    cases t' with
    | null => exact h'.elim
    | leaf i' l' =>
      obtain ⟨-, c', hg', hsh', -⟩ := h'
      cases hg.symm.trans hg'
      cases hsh.symm.trans hsh'
    | inner n' children' =>
      obtain ⟨-, c', cs', hg', hsh', -, hbe'⟩ := h'
      cases hg.symm.trans hg'
      cases hsh.symm.trans hsh'
      congr 1
      funext b
      cases hb : cs b with
      | none => rw [(hbe b).1 hb, (hbe' b).1 hb]
      | some q => exact ih b ((hbe b).2 q hb) ((hbe' b).2 q hb)

theorem Stored.congr
    (hn : ∀ p ∉ X, ∀ c, node p = some c → node' p = some c) : F.Stored node' X t p := by
  refine .of_unfolds (fun t p h => ⟨h.notMem, ?_⟩) h
  exact h.unfolds.imp (hn p h.notMem) fun _ _ _ _ _ _ _ _ _ _ h => h

/-- A property of trees at pointers that goes down the tree and keeps out of a set. -/
theorem Stored.avoid {A : DigitTree D P I L → Ptr → Prop} (hA : A t p)
    (hch : ∀ n children p c cs b q, A (.inner n children) p → node p = some c →
      F.shape c = .inner n cs → cs b = some q → F.Stored node X (children b) q → A (children b) q)
    (ho : ∀ t p, A t p → F.Stored node X t p → p ∉ Y) : F.Stored node Y t p := by
  refine .of_unfolds (R := fun t p => A t p ∧ F.Stored node X t p) (fun t p h => ?_) ⟨hA, h⟩
  obtain ⟨hA, h⟩ := h
  refine ⟨ho t p hA h, h.unfolds.imp (fun _ => id) ?_⟩
  rintro n children c cs b q rfl hg hsh hb hq
  exact ⟨hch n children p c cs b q hA hg hsh hb hq, hq⟩

theorem Stored.mono (hYX : Y ⊆ X) : F.Stored node Y t p :=
  h.avoid (A := fun _ _ => True) trivial (fun _ _ _ _ _ _ _ _ _ _ _ _ => trivial)
    fun _ _ _ h hp => h.notMem (hYX hp)

theorem Stored.insert_fresh (hx : node x = none) : F.Stored node (insert x X) t p := by
  refine h.avoid (A := fun _ _ => True) trivial (fun _ _ _ _ _ _ _ _ _ _ _ _ => trivial) ?_
  rintro t p - h (rfl | hp)
  · obtain ⟨c, hc⟩ := h.exists_cell
    rw [hx] at hc
    cases hc
  · exact h.notMem hp

end

section Height
variable [Fintype D]

/-- A cell of a tree that is taller than the given one, or has an item it has not. -/
def Apart (F : HeapFormat D P I L Ptr Cell) (node : Ptr → Option Cell) (t : DigitTree D P I L)
    (x : Ptr) : Prop :=
  ∃ u, F.Stored node ∅ u x ∧ ((∃ i ∈ u, i ∉ t) ∨ t.height < u.height)

theorem Apart.child (h : F.Apart node (.inner n children) x) (b : D) :
    F.Apart node (children b) x := by
  obtain ⟨u, hu, ⟨i, hi, hn⟩ | hlt⟩ := h
  · exact ⟨u, hu, .inl ⟨i, hi, fun hb => hn ⟨b, hb⟩⟩⟩
  · exact ⟨u, hu, .inr ((height_child_lt n children b).trans hlt)⟩

theorem Apart.ne (h : F.Apart node t x) (ht : F.Stored node X t p) : p ≠ x := by
  rintro rfl
  obtain ⟨u, hu, hne⟩ := h
  cases hu.unique ht
  obtain ⟨i, hi, hn⟩ | hlt := hne
  · exact hn hi
  · exact lt_irrefl _ hlt

theorem Stored.of_apart (h : F.Stored node X t p) (hY : ∀ x ∈ Y, F.Apart node t x) :
    F.Stored node Y t p := by
  refine h.avoid (A := fun t _ => ∀ x ∈ Y, F.Apart node t x) hY ?_ ?_
  · intro n _ p c _ b q hA _ _ _ _ x hx
    exact (hA x hx).child b
  · intro t p hA h hp
    exact (hA p hp).ne h rfl

theorem Stored.insert_apart (h : F.Stored node X t p) (hx : F.Apart node t x) :
    F.Stored node (insert x X) t p := by
  refine h.avoid (A := fun t _ => F.Apart node t x) hx ?_ ?_
  · intro n _ p c _ b q hA _ _ _ _
    exact hA.child b
  rintro t p hA h (rfl | hp)
  · exact hA.ne h rfl
  · exact h.notMem hp

end Height

/-! ### Ways down -/

/-- An inner cell with its children on all branches but one. -/
def Frame (F : HeapFormat D P I L Ptr Cell) (node : Ptr → Option Cell) (X : Set Ptr) (b : D) (q : Ptr)
    (t : DigitTree D P I L) : Prop :=
  ∃ n children c cs, t = .inner n children ∧ node q = some c ∧ F.shape c = .inner n cs ∧
    F.Good c t ∧
    ∀ b' ≠ b, (cs b' = none → children b' = .null) ∧ ∀ q, cs b' = some q → F.Stored node X (children b') q

/-- The cells above a place, the last one first, and the nodes they stand for, with the digits of
the way down. -/
def Frames (F : HeapFormat D P I L Ptr Cell) (node : Ptr → Option Cell) (X : Set Ptr) (k : ℕ → D) :
    List (Ptr × ℕ) → List (DigitTree D P I L × ℕ) → Prop :=
  List.Forall₂ fun h f => h.2 = f.2 ∧ F.Frame node X (k h.2) h.1 f.1

variable {hs : List (Ptr × ℕ)} {fs : List (DigitTree D P I L × ℕ)} {k : ℕ → D} {digit : I → ℕ → D}

theorem Frame.imp {t : DigitTree D P I L} (h : F.Frame node X b q t)
    (hn : ∀ c, node q = some c → node' q = some c)
    (hst : ∀ t p, F.Stored node X t p → F.Stored node' Y t p) : F.Frame node' Y b q t := by
  obtain ⟨n, children, c, cs, rfl, hget, hsh, hg, hbe⟩ := h
  refine ⟨n, children, c, cs, rfl, hn c hget, hsh, hg, fun b' hb' => ?_⟩
  exact ⟨(hbe b' hb').1, fun q hq => hst _ _ ((hbe b' hb').2 q hq)⟩

theorem Frames.imp (h : F.Frames node X k hs fs)
    (hn : ∀ e ∈ hs, ∀ c, node e.1 = some c → node' e.1 = some c)
    (hst : ∀ t p, F.Stored node X t p → F.Stored node' Y t p) : F.Frames node' Y k hs fs := by
  induction h with
  | nil => exact .nil
  | cons hfr _ ih =>
    refine .cons ⟨hfr.1, hfr.2.imp (hn _ List.mem_cons_self) hst⟩ (ih fun e he => ?_)
    exact hn e (List.mem_cons_of_mem _ he)

/-- A way down to a tree at a pointer, with every item on the branch of its digit. -/
inductive Trail (F : HeapFormat D P I L Ptr Cell) (node : Ptr → Option Cell) (k : ℕ → D)
    (digit : I → ℕ → D) :
    List (Ptr × ℕ) → List (DigitTree D P I L × ℕ) → DigitTree D P I L → Ptr → Prop
  | root {t : DigitTree D P I L} {p : Ptr} (stored : F.Stored node ∅ t p) : Trail F node k digit [] [] t p
  | child {n : P} {children : D → DigitTree D P I L} {c : Cell} {cs : D → Option Ptr} {p q : Ptr}
    {m : ℕ} {hs : List (Ptr × ℕ)} {fs : List (DigitTree D P I L × ℕ)}
    (up : Trail F node k digit hs fs (.inner n children) q) (get : node q = some c)
    (shape : F.shape c = .inner n cs) (child : cs (k m) = some p)
    (branch : ∀ b, ∀ i ∈ children b, digit i m = b) :
    Trail F node k digit ((q, m) :: hs) ((.inner n children, m) :: fs) (children (k m)) p

theorem Trail.stored (h : Trail F node k digit hs fs t p) : F.Stored node ∅ t p := by
  induction h with
  | root stored => exact stored
  | child _ get shape child _ ih =>
    obtain ⟨-, c, _, hg, hsh, -, hbe⟩ := ih
    cases get.symm.trans hg
    cases shape.symm.trans hsh
    exact (hbe _).2 _ child

section Height
variable [Fintype D]

section
variable (h : Trail F node k digit hs fs t p)
include h

theorem Trail.above : ∀ e ∈ hs, ∃ u, F.Stored node ∅ u e.1 ∧ t.height < u.height := by
  induction h with
  | root => nofun
  | @child n children c _ p q m hs _ up _ _ child _ ih =>
    have hlt := height_child_lt n children (k m)
    intro e he
    obtain rfl | he := List.mem_cons.1 he
    · exact ⟨_, up.stored, hlt⟩
    · obtain ⟨u, hu, hlt'⟩ := ih e he
      exact ⟨u, hu, hlt.trans hlt'⟩

theorem Trail.notMem : ∀ e ∈ hs, e.1 ≠ p := by
  intro e he heq
  obtain ⟨u, hu, hlt⟩ := h.above e he
  rw [heq] at hu
  cases hu.unique h.stored
  exact lt_irrefl _ hlt

theorem Trail.nodup : (hs.map Prod.fst).Nodup := by
  induction h with
  | root => exact List.nodup_nil
  | child up _ _ _ _ ih =>
    refine List.nodup_cons.2 ⟨fun hm => ?_, ih⟩
    obtain ⟨e, he, heq⟩ := List.mem_map.1 hm
    exact up.notMem e he heq

theorem Trail.frames (hi : i ∈ t) (hY : ∀ y ∈ Y, ∃ u, F.Stored node ∅ u y ∧ i ∈ u) :
    F.Frames node (Y ∪ {x | x ∈ hs.map Prod.fst}) k hs fs := by
  induction h generalizing Y with
  | root => exact .nil
  | @child n children c cs p q m hs fs up get shape child branch ih =>
    have hset : (insert q Y ∪ {x | x ∈ hs.map Prod.fst}) =
        Y ∪ {x | x ∈ ((q, m) :: hs).map Prod.fst} := by
      ext x
      simp only [Set.mem_union, Set.mem_insert_iff, Set.mem_ofPred_eq, List.map_cons, List.mem_cons]
      tauto
    have hm : i ∈ inner n children := ⟨_, hi⟩
    have hre := ih (Y := insert q Y) hm fun y hy => by
      obtain rfl | hy := hy
      · exact ⟨_, up.stored, hm⟩
      · exact hY y hy
    rw [hset] at hre
    refine .cons ⟨rfl, n, children, c, cs, rfl, get, shape, ?_, fun b' hb' => ?_⟩ hre
    · obtain ⟨-, c', cs', hg, -, hgo, -⟩ := up.stored
      cases get.symm.trans hg
      exact hgo
    obtain ⟨-, c', cs', hg, hsh, -, hbe⟩ := up.stored
    cases get.symm.trans hg
    cases shape.symm.trans hsh
    refine ⟨(hbe b').1, fun q' hq' => ((hbe b').2 q' hq').of_apart fun x hx => ?_⟩
    have hlt := height_child_lt n children b'
    rw [← hset] at hx
    obtain (rfl | hx) | hx := hx
    · exact ⟨_, up.stored, .inr hlt⟩
    · -- The item is on the branch of the way.
      obtain ⟨u, hu, hiu⟩ := hY x hx
      exact ⟨u, hu, .inl ⟨i, hiu, fun hib => hb' ((branch b' i hib).symm.trans (branch _ i hi))⟩⟩
    obtain ⟨e, he, rfl⟩ := List.mem_map.1 hx
    obtain ⟨u, hu, hlt'⟩ := up.above e he
    exact ⟨u, hu, .inr (hlt.trans hlt')⟩

end
end Height

theorem Frame.fill [DecidableEq D] {c' : Cell} {child : Option Ptr}
    (h : F.Frame node X b q (.inner n children)) (hget : node q = some c)
    (hsh : F.shape c = .inner n cs) (hp : p ∉ Y) (hg' : node' p = some c')
    (hsh' : F.shape c' = .inner n (Function.update cs b child))
    (hg : F.Good c' (.inner n (Function.update children b t)))
    (hch : (child = none → t = .null) ∧ ∀ q, child = some q → F.Stored node' Y t q)
    (hst : ∀ t p, F.Stored node X t p → F.Stored node' Y t p) :
    F.Stored node' Y (.inner n (Function.update children b t)) p := by
  obtain ⟨_, _, _, _, heq, hg0, hsh0, -, hbe⟩ := h
  cases heq
  cases hget.symm.trans hg0
  cases hsh.symm.trans hsh0
  refine ⟨hp, c', _, hg', hsh', hg, kids_update hch fun b' hb => ?_⟩
  exact ⟨(hbe b' hb).1, fun q' hq' => hst _ _ ((hbe b' hb).2 q' hq')⟩

end HeapFormat
