import FinPal.Verify.ViewOverlay

/-!
# Ranges of entries through a RawStateTable

The iterator of `RawStateTable` merges the base with the items of the table. Every key that the
table erases is in the base, which keeps `skip` from running past its end.
-/

namespace FinPal.Ordered
open List RawStateTable
open Std (TreeMap)
variable {K T V : Type} [LinearOrder K]

variable {iter0 : List (K × V)} {iter1 : List (K × Item Action V)}

namespace RawStateTable

/-- The entries that merging gives: those of the items that are not erasures and those of the base
that no item is about. -/
def Yields (iter0 : List (K × V)) (iter1 : List (K × Item Action V)) (e : K × V) : Prop :=
  (∃ item, (e.1, item) ∈ iter1 ∧ item.action ≠ .erase ∧ item.sle = e.2) ∨
    (e ∈ iter0 ∧ ∀ item, (e.1, item) ∉ iter1)

/-- Both lists are in order, and what is erased is in the base. -/
structure Merging (iter0 : List (K × V)) (iter1 : List (K × Item Action V)) : Prop where
  asc0 : Ascending iter0
  asc1 : Ascending iter1
  erased : ∀ k item, (k, item) ∈ iter1 → item.action = .erase → ∃ v, (k, v) ∈ iter0

section Yields
variable {iter0 : List (K × V)} {iter1 : List (K × Item Action V)} {k : K} {v : V}
  {item : Item Action V} {e : K × V}

theorem yields_both (h0 : Ascending ((k, v) :: iter0)) (h1 : Ascending ((k, item) :: iter1)) :
    Yields ((k, v) :: iter0) ((k, item) :: iter1) e ↔
      (item.action ≠ .erase ∧ e = (k, item.sle)) ∨ Yields iter0 iter1 e := by
  obtain ⟨x, w⟩ := e
  by_cases hx : x = k
  · subst hx
    have hn0 := h0.notMem_tail
    have hn1 := h1.notMem_tail
    simp only [Yields, mem_cons, Prod.mk.injEq, true_and, hn0, hn1, or_false, false_and,
      exists_false]
    constructor
    · rintro (⟨i, rfl, ha, rfl⟩ | ⟨-, hno⟩)
      · exact ⟨ha, rfl⟩
      · exact absurd rfl (hno item)
    · rintro ⟨ha, rfl⟩
      exact .inl ⟨item, rfl, ha, rfl⟩
  · simp [Yields, hx]

theorem yields_left (h0 : Ascending ((k, v) :: iter0)) (h1 : ∀ i, (k, i) ∉ iter1) :
    Yields ((k, v) :: iter0) iter1 e ↔ e = (k, v) ∨ Yields iter0 iter1 e := by
  obtain ⟨x, w⟩ := e
  by_cases hx : x = k
  · subst hx
    simp [Yields, h1]
  · simp [Yields, hx]

theorem yields_right (h1 : Ascending ((k, item) :: iter1)) (h0 : ∀ w, (k, w) ∉ iter0) :
    Yields iter0 ((k, item) :: iter1) e ↔
      (item.action ≠ .erase ∧ e = (k, item.sle)) ∨ Yields iter0 iter1 e := by
  obtain ⟨x, w⟩ := e
  by_cases hx : x = k
  · subst hx
    have hn1 := h1.notMem_tail
    simp only [Yields, mem_cons, Prod.mk.injEq, true_and, h0, hn1, or_false, false_and,
      exists_false]
    constructor
    · rintro ⟨i, rfl, ha, rfl⟩
      exact ⟨ha, rfl⟩
    · rintro ⟨ha, rfl⟩
      exact ⟨item, rfl, ha, rfl⟩
  · simp [Yields, hx]

theorem Yields.lt (h : Yields iter0 iter1 e) (h0 : ∀ a ∈ iter0, k < a.1)
    (h1 : ∀ a ∈ iter1, k < a.1) : k < e.1 := by
  rcases h with ⟨i, hi, -⟩ | ⟨he, -⟩
  · exact h1 _ hi
  · exact h0 _ he

end Yields

namespace Merging
variable {iter0 : List (K × V)} {iter1 : List (K × Item Action V)} {k : K} {v : V}
  {item : Item Action V}

theorem tail_both (h : Merging ((k, v) :: iter0) ((k, item) :: iter1)) : Merging iter0 iter1 where
  asc0 := h.asc0.of_cons
  asc1 := h.asc1.of_cons
  erased j i hi ha := by
    obtain ⟨w, hw⟩ := h.erased j i (mem_cons_of_mem _ hi) ha
    rcases mem_cons.1 hw with heq | hw
    · cases heq
      exact absurd hi (h.asc1.notMem_tail i)
    · exact ⟨w, hw⟩

theorem tail_left (h : Merging ((k, v) :: iter0) iter1) (hk : ∀ i, (k, i) ∉ iter1) :
    Merging iter0 iter1 where
  asc0 := h.asc0.of_cons
  asc1 := h.asc1
  erased j i hi ha := by
    obtain ⟨w, hw⟩ := h.erased j i hi ha
    rcases mem_cons.1 hw with heq | hw
    · cases heq
      exact absurd hi (hk i)
    · exact ⟨w, hw⟩

theorem tail_right (h : Merging iter0 ((k, item) :: iter1)) : Merging iter0 iter1 where
  asc0 := h.asc0
  asc1 := h.asc1.of_cons
  erased j i hi := h.erased j i (mem_cons_of_mem _ hi)

end Merging

/-- An iterator between two increments: no erased entry heads both lists. -/
structure SlesIter.Ready (it : SlesIter K V) : Prop extends Merging it.iter0 it.iter1 where
  stop : ∀ {k item rest1 v rest0}, it.iter1 = (k, item) :: rest1 → item.action = .erase →
    it.iter0 ≠ (k, v) :: rest0

theorem SlesIter.skip_ok (h : Merging iter0 iter1) : ∃ it, skip iter0 iter1 = .ok it ∧ it.Ready ∧
      (∀ e, Yields it.iter0 it.iter1 e ↔ Yields iter0 iter1 e) ∧
      it.iter0.length + it.iter1.length ≤ iter0.length + iter1.length := by
  induction iter1 generalizing iter0 with
  | nil =>
    refine ⟨⟨iter0, []⟩, by rw [skip], ⟨h, fun hi => ?_⟩, fun _ => Iff.rfl, le_rfl⟩
    cases hi
  | cons a iter1 ih =>
    obtain ⟨k, item⟩ := a
    by_cases ha : item.action = .erase
    · -- the erased key is in the base, so there is a head to compare with
      obtain ⟨w, hw⟩ := h.erased k item mem_cons_self ha
      rcases iter0 with - | ⟨⟨k0, v0⟩, rest0⟩
      · cases hw
      by_cases hk : k0 = k
      · subst hk
        have hyi (e) : Yields rest0 iter1 e ↔
            Yields ((k0, v0) :: rest0) ((k0, item) :: iter1) e := by
          rw [yields_both h.asc0 h.asc1]
          simp [ha]
        rcases rest0 with - | ⟨_, rest0⟩
        · refine ⟨⟨[], iter1⟩, ?_, ⟨h.tail_both, fun _ _ => cons_ne_nil _ _ |>.symm⟩, hyi, ?_⟩
          · simp [skip, ha]
          · simp only [length_cons, length_nil]
            omega
        obtain ⟨it, hsk, hre, hit, hl⟩ := ih h.tail_both
        refine ⟨it, ?_, hre, fun e => (hit e).trans (hyi e), ?_⟩
        · simpa [skip, ha] using hsk
        · simp only [length_cons] at hl ⊢
          omega
      refine ⟨⟨(k0, v0) :: rest0, (k, item) :: iter1⟩, ?_, ⟨h, ?_⟩, fun _ => Iff.rfl, le_rfl⟩
      · simp [skip, hk]
      intro k' item' rest1 v' rest0' hi _ h0
      cases hi
      cases h0
      exact hk rfl
    refine ⟨⟨iter0, (k, item) :: iter1⟩, ?_, ⟨h, ?_⟩, fun _ => Iff.rfl, le_rfl⟩
    · cases iter0 <;> simp [skip, ha]
    intro k' item' rest1 v' rest0' hi ha' _
    cases hi
    exact ha ha'

/-- One round: the iterator is at the least entry and moves on to the rest. -/
structure SlesIter.Round (it : SlesIter K V) (e : K × V) (it' : SlesIter K V) : Prop where
  at_ : it.dereference = some e
  next : it.increment = .ok it'
  ready : it'.Ready
  shorter : it'.iter0.length + it'.iter1.length < it.iter0.length + it.iter1.length
  yields : ∀ e', Yields it.iter0 it.iter1 e' ↔ e' = e ∨ Yields it'.iter0 it'.iter1 e'
  later : ∀ e', Yields it'.iter0 it'.iter1 e' → e.1 < e'.1

private theorem lt_of_mem_cons {W : Type*} {k k0 : K} {w : W} {rest : List (K × W)} (hk : k < k0)
    (hr : ∀ a ∈ rest, k0 < a.1) : ∀ a ∈ (k0, w) :: rest, k < a.1 := by
  intro a ha
  rcases mem_cons.1 ha with rfl | ha
  · exact hk
  · exact hk.trans (hr a ha)

namespace SlesIter
variable {k0 k1 : K} {v0 : V} {item : Item Action V} {rest0 : List (K × V)}
  {rest1 : List (K × Item Action V)}

theorem round_item (h : Merging ((k0, v0) :: rest0) ((k1, item) :: rest1)) (hk : k1 < k0) :
    ∃ it', Round ⟨(k0, v0) :: rest0, (k1, item) :: rest1⟩ (k1, item.sle) it' := by
  have hb := lt_of_mem_cons (w := v0) hk (pairwise_cons.1 h.asc0).1
  have hn (w) : (k1, w) ∉ (k0, v0) :: rest0 := fun hw => lt_irrefl _ (hb _ hw)
  have ha : item.action ≠ .erase := fun ha => by
    obtain ⟨w, hw⟩ := h.erased k1 item mem_cons_self ha
    exact hn w hw
  obtain ⟨it, hs, hre, hit, hl⟩ := skip_ok h.tail_right
  refine ⟨it, ?_, ?_, hre, ?_, fun e => ?_, fun e he => ?_⟩
  · simp [dereference, hk.le]
  · simpa [increment, hk, hk.ne] using hs
  · simp only [length_cons] at hl ⊢
    omega
  · rw [yields_right h.asc1 hn, hit]
    simp [ha]
  · exact ((hit e).1 he).lt hb (pairwise_cons.1 h.asc1).1

theorem round_both (h : Ready ⟨(k1, v0) :: rest0, (k1, item) :: rest1⟩) :
    ∃ it', Round ⟨(k1, v0) :: rest0, (k1, item) :: rest1⟩ (k1, item.sle) it' := by
  have hm := h.toMerging
  have ha : item.action ≠ .erase := fun ha => h.stop rfl ha rfl
  obtain ⟨it, hs, hre, hit, _⟩ := skip_ok hm.tail_both
  refine ⟨it, ?_, ?_, hre, ?_, fun e => ?_, fun e he => ?_⟩
  · simp [dereference]
  · simpa [increment] using hs
  · simp only [length_cons]
    omega
  · rw [yields_both hm.asc0 hm.asc1, hit]
    simp [ha]
  · exact ((hit e).1 he).lt (pairwise_cons.1 hm.asc0).1 (pairwise_cons.1 hm.asc1).1

theorem round_base (h : Merging ((k0, v0) :: rest0) ((k1, item) :: rest1)) (hk : k0 < k1) :
    ∃ it', Round ⟨(k0, v0) :: rest0, (k1, item) :: rest1⟩ (k0, v0) it' := by
  have hite := lt_of_mem_cons (w := item) hk (pairwise_cons.1 h.asc1).1
  have hn (i) : (k0, i) ∉ (k1, item) :: rest1 := fun hi => lt_irrefl _ (hite _ hi)
  obtain ⟨it, hs, hre, hit, hl⟩ := skip_ok (h.tail_left hn)
  refine ⟨it, ?_, ?_, hre, ?_, fun e => ?_, fun e he => ?_⟩
  · simp [dereference, not_le.2 hk]
  · simpa [increment, hk.ne', not_lt.2 hk.le] using hs
  · simp only [length_cons] at hl ⊢
    omega
  · rw [yields_left h.asc0 hn, hit]
  · exact ((hit e).1 he).lt (pairwise_cons.1 h.asc0).1 hite

theorem increment_ok {it : SlesIter K V} (h : it.Ready)
    (hne : it.iter0.length + it.iter1.length ≠ 0) : ∃ e it', it.Round e it' := by
  obtain ⟨iter0, iter1⟩ := it
  have hm : Merging iter0 iter1 := h.toMerging
  rcases iter0 with - | ⟨⟨k0, v0⟩, rest0⟩
  · rcases iter1 with - | ⟨⟨k1, item⟩, rest1⟩
    · exact absurd rfl hne
    -- the base is at its end, so nothing is erased any more
    have ha : item.action ≠ .erase := fun ha => by
      obtain ⟨w, hw⟩ := hm.erased k1 item mem_cons_self ha
      cases hw
    refine ⟨(k1, item.sle), ⟨[], rest1⟩, rfl, rfl, ⟨hm.tail_right, ?_⟩, by simp, fun e => ?_,
      fun e he => ?_⟩
    · rintro - - - - - - - ⟨⟩
    · rw [yields_right hm.asc1 (fun _ => not_mem_nil)]
      simp [ha]
    · exact he.lt (by simp) (pairwise_cons.1 hm.asc1).1
  rcases iter1 with - | ⟨⟨k1, item⟩, rest1⟩
  · refine ⟨(k0, v0), ⟨rest0, []⟩, rfl, rfl, ⟨hm.tail_left fun _ => not_mem_nil, ?_⟩, by simp,
      fun e => yields_left hm.asc0 fun _ => not_mem_nil, fun e he => ?_⟩
    · rintro - - - - - ⟨⟩
    · exact he.lt (pairwise_cons.1 hm.asc0).1 (by simp)
  rcases lt_trichotomy k1 k0 with hk | rfl | hk
  · exact ⟨_, round_item hm hk⟩
  · exact ⟨_, round_both h⟩
  · exact ⟨_, round_base hm hk⟩

end SlesIter

theorem SlesIter.entries_ok {it : SlesIter K V} (h : it.Ready) {rounds : Nat}
    (hro : it.iter0.length + it.iter1.length ≤ rounds) :
    ∃ l, entries rounds it = .ok l ∧ Ascending l ∧ ∀ e, e ∈ l ↔ Yields it.iter0 it.iter1 e := by
  induction rounds generalizing it with
  | zero =>
    obtain ⟨iter0, iter1⟩ := it
    obtain rfl : iter0 = [] := length_eq_zero_iff.1 (by dsimp only at hro; omega)
    obtain rfl : iter1 = [] := length_eq_zero_iff.1 (by dsimp only at hro; omega)
    refine ⟨[], rfl, Pairwise.nil, fun e => ?_⟩
    simp [Yields]
  | succ rounds ih =>
    by_cases hne : it.iter0.length + it.iter1.length = 0
    · obtain ⟨iter0, iter1⟩ := it
      obtain rfl : iter0 = [] := length_eq_zero_iff.1 (by dsimp only at hne; omega)
      obtain rfl : iter1 = [] := length_eq_zero_iff.1 (by dsimp only at hne; omega)
      refine ⟨[], rfl, Pairwise.nil, fun e => ?_⟩
      simp [Yields]
    obtain ⟨e, _, hd, hi, hre, _, hyi, hlt⟩ := increment_ok h hne
    obtain ⟨l, hl, ha, hm⟩ := ih hre (by omega)
    refine ⟨e :: l, ?_, pairwise_cons.2 ⟨fun e' he' => hlt e' ((hm e').1 he'), ha⟩,
      fun e' => ?_⟩
    · obtain ⟨iter0, iter1⟩ := it
      rw [entries]
      · rw [hd]
        exact Store.bind_ok.2 ⟨_, hi, Store.bind_ok.2 ⟨_, hl, rfl⟩⟩
      · rintro ⟨⟩
        exact hne rfl
    · rw [mem_cons, hm, hyi]

theorem SlesIter.range_ok (h : Merging iter0 iter1) :
    ∃ l, range iter0 iter1 = .ok l ∧ Ascending l ∧ ∀ e, e ∈ l ↔ Yields iter0 iter1 e := by
  obtain ⟨it, hmk, hre, hit, hlen⟩ : ∃ it, mk' iter0 iter1 = .ok it ∧ it.Ready ∧
      (∀ e, Yields it.iter0 it.iter1 e ↔ Yields iter0 iter1 e) ∧
      it.iter0.length + it.iter1.length ≤ iter0.length + iter1.length := by
    unfold mk'
    split
    · next hn =>
      refine ⟨⟨iter0, iter1⟩, rfl, ⟨h, fun hi => ?_⟩, fun _ => Iff.rfl, le_rfl⟩
      rw [isEmpty_iff.1 hn] at hi
      cases hi
    · exact skip_ok h
  obtain ⟨l, hl, ha, hm⟩ := entries_ok hre hlen
  refine ⟨l, ?_, ha, fun e => (hm e).trans (hit e)⟩
  rw [range, hmk]
  exact hl

end RawStateTable

/-! ## Views that list their entries -/

/-- The ranges of the view are the entries of the map, in order. -/
def ReadView.Lists (view : ReadView K T V) (m : K → Option V) : Prop :=
  ∃ l, Ascending l ∧ (∀ e, e ∈ l ↔ m e.1 = some e.2) ∧ view.sles = .ok l ∧
    ∀ key, view.slesUpperBound key = .ok (l.filter fun e => decide (key < e.1))

variable {items : Items K V}

section Lists
variable [DecidableEq T] [HasType V T]

theorem Ledger.lists [Zero K] (stateMap : TreeMap K V) :
    (Ledger.readView stateMap : ReadView K T V).Lists fun k => stateMap[k]? :=
  ⟨stateMap.toList, ascending_toList stateMap,
    fun _ => TreeMap.mem_toList_iff_getElem?_eq_some, rfl,
    fun key => congrArg Except.ok (upperBound_eq stateMap key)⟩

/-- The key of every erasure of the table is in the map. -/
def RawStateTable.ErasesPresent (items : Items K V) (m : K → Option V) : Prop :=
  ∀ k sle, items[k]? = some ⟨.erase, sle⟩ → (m k).isSome = true

theorem RawStateTable.yields_overlay {m : K → Option V} {e : K × V}
    (h0 : e ∈ iter0 ↔ m e.1 = some e.2) (h1 : ∀ item, (e.1, item) ∈ iter1 ↔ items[e.1]? = some item) :
    Yields iter0 iter1 e ↔ overlay (decide <| · = .erase) items m e.1 = some e.2 := by
  simp only [Yields, h0, h1, overlay]
  cases items[e.1]? with
  | none => simp
  | some item => by_cases ha : item.action = .erase <;> simp [ha]

theorem RawStateTable.lists {base : ReadView K T V} {m : K → Option V}
    (hba : base.Lists m) (her : ErasesPresent items m) :
    (readView items base).Lists (overlay (decide <| · = .erase) items m) := by
  obtain ⟨l0, ha0, hm0, hsl, hup⟩ := hba
  have hme : Merging l0 items.toList := by
    refine ⟨ha0, ascending_toList items, fun k item hi ha => ?_⟩
    obtain ⟨a, sle⟩ := item
    cases ha
    obtain ⟨v, hv⟩ := Option.isSome_iff_exists.1
      (her k sle (TreeMap.mem_toList_iff_getElem?_eq_some.1 hi))
    exact ⟨v, (hm0 (k, v)).2 hv⟩
  obtain ⟨l, hl, hasc, hm⟩ := SlesIter.range_ok hme
  have hall (e) : e ∈ l ↔ overlay (decide <| · = .erase) items m e.1 = some e.2 :=
    (hm e).trans (yields_overlay (hm0 e) fun _ => TreeMap.mem_toList_iff_getElem?_eq_some)
  refine ⟨l, hasc, hall, ?_, fun key => ?_⟩
  · exact Store.bind_ok.2 ⟨l0, hsl, hl⟩
  -- both sides are cut at the same key
  have hc : Merging (l0.filter fun e => decide (key < e.1)) (upperBound items key) := by
    refine ⟨ha0.filter _, ascending_upperBound items key, fun k item hi ha => ?_⟩
    obtain ⟨hk, hlt⟩ := mem_upperBound.1 hi
    obtain ⟨v, hv⟩ := hme.erased k item (TreeMap.mem_toList_iff_getElem?_eq_some.2 hk) ha
    exact ⟨v, mem_filter.2 ⟨hv, by simpa using hlt⟩⟩
  obtain ⟨l', hl', ha', hm'⟩ := SlesIter.range_ok hc
  have heq : l' = l.filter fun e => decide (key < e.1) := by
    refine ha'.ext (hasc.filter _) fun e => ?_
    rw [hm', mem_filter, hall]
    by_cases hlt : key < e.1
    · have hy : Yields (l0.filter fun e => decide (key < e.1)) (upperBound items key) e ↔
          overlay (decide <| · = .erase) items m e.1 = some e.2 :=
        yields_overlay (by simp [hlt, hm0]) fun item => by simp [mem_upperBound, hlt]
      rw [hy]
      simp [hlt]
    · simp [Yields, mem_upperBound, hlt]
  rw [← heq]
  exact Store.bind_ok.2 ⟨_, hup key, hl'⟩

end Lists

theorem RawStateTable.apply_ledger {stateMap : TreeMap K V} {view' : View K V}
    (h : apply items (.ledger stateMap) = .ok view') :
    ErasesPresent items (View.ledger stateMap).map := by
  suffices hl : ∀ (l : List (K × Item Action V)), Ascending l → ∀ stateMap,
      l.foldlM applyItem (View.ledger stateMap) = .ok view' →
      ∀ k sle, (k, ⟨.erase, sle⟩) ∈ l → stateMap[k]?.isSome = true from
    fun k sle hk => hl _ (ascending_toList items) stateMap h k sle
      (TreeMap.mem_toList_iff_getElem?_eq_some.2 hk)
  intro l
  induction l with
  | nil =>
    rintro - stateMap - k sle hk
    cases hk
  | cons a l ih =>
    obtain ⟨j, b, s⟩ := a
    intro hl stateMap h k sle hk
    obtain ⟨hlt, hl⟩ := pairwise_cons.1 hl
    obtain ⟨view1, hst, h⟩ := Store.bind_ok.1 h
    -- the step stays on a ledger, touches its own key alone, and erases only what is there
    obtain ⟨stateMap1, rfl, hne, her⟩ : ∃ stateMap1, view1 = View.ledger stateMap1 ∧
        (∀ i, i ≠ j → stateMap1[i]? = stateMap[i]?) ∧
        (b = .erase → stateMap[j]?.isSome = true) := by
      cases b with
      | erase =>
        change View.rawErase j s (.ledger stateMap) = _ at hst
        rw [View.rawErase] at hst
        split at hst
        · next hc =>
          refine ⟨_, (Except.ok.inj hst).symm, fun i hi => ?_, fun _ => ?_⟩
          · rw [getElem?_erase_eq, if_neg hi]
          · rw [← TreeMap.contains_eq_isSome_getElem?, hc]
        · cases hst
      | insert =>
        change View.rawInsert j s (.ledger stateMap) = _ at hst
        rw [View.rawInsert] at hst
        split at hst
        · cases hst
        · refine ⟨_, (Except.ok.inj hst).symm, fun i hi => ?_, fun hb => by cases hb⟩
          rw [getElem?_insert_eq, if_neg hi]
      | replace =>
        change View.rawReplace j s (.ledger stateMap) = _ at hst
        rw [View.rawReplace] at hst
        split at hst
        · refine ⟨_, (Except.ok.inj hst).symm, fun i hi => ?_, fun hb => by cases hb⟩
          rw [getElem?_insert_eq, if_neg hi]
        · cases hst
    rcases mem_cons.1 hk with heq | hk
    · cases heq
      exact her rfl
    · rw [← hne k (hlt _ hk).ne']
      exact ih hl stateMap1 h k sle hk

section Agreement
variable [Zero K] [DecidableEq T] [HasType V T] {base base' : View K V}

/-- The table of an `OpenView` answers as its base does once the table is applied. Where the base
lists its entries and has what the table erases, as a ledger to which it can be applied, the ranges
through the table are the entries of the resulting map. -/
theorem raw_state_table_overlay (hfresh : ∀ k, base.FreshAt k) {items : RawStateTable.Items K V}
    (happly : RawStateTable.apply items base = .ok base') :
    (∀ k : Keylet K T, k.key ≠ 0 →
      RawStateTable.read items base.readView k = base'.readView.read k) ∧
    (∀ k : Keylet K T, k.Matches base'.map →
      RawStateTable.existsAt items base.readView k = base'.readView.existsAt k) ∧
    (∀ key last, RawStateTable.succ items (base.readView : ReadView K T V) key last =
      (base'.readView : ReadView K T V).succ key last) ∧
    ((base.readView : ReadView K T V).Lists base.map → RawStateTable.ErasesPresent items base.map →
      ∃ l, Ascending l ∧ (∀ e, e ∈ l ↔ base'.map e.1 = some e.2) ∧
        RawStateTable.sles items (base.readView : ReadView K T V) = .ok l ∧
        ∀ key, RawStateTable.slesUpperBound items (base.readView : ReadView K T V) key =
          .ok (l.filter fun e => decide (key < e.1))) ∧
    ∀ stateMap, base = .ledger stateMap →
      (base.readView : ReadView K T V).Lists base.map ∧ RawStateTable.ErasesPresent items base.map := by
  have hba := base.shows
  have hov : (readView items base.readView : ReadView K T V).Shows _ := shows hba
  have hm := apply_map hfresh happly
  rw [← hm] at hov
  obtain ⟨hre, hex, hsu⟩ := hov.agree base'.shows
  refine ⟨hre, hex, hsu, fun hli her => ?_, ?_⟩
  · rw [hm]
    exact lists hli her
  · rintro stateMap rfl
    exact ⟨Ledger.lists stateMap, apply_ledger happly⟩

end Agreement

open Entries in
/-- An erasure and an insertion over one entry. -/
theorem raw_state_table_overlay_sample :
    ∃ items base', [RawOp.erase 1 (entry 1), .insert 3 (entry 3)].foldlM runRaw ∅ = .ok items ∧
      RawStateTable.apply items one = .ok base' ∧
      RawStateTable.succ items (one.readView : ReadView uint256 LedgerEntryType Entry) 0 none =
        (base'.readView : ReadView uint256 LedgerEntryType Entry).succ 0 none :=
  ⟨_, _, rfl, rfl, (@raw_state_table_overlay _ _ _ _ _ _ _ one _ (fun _ => trivial) _
    rfl).2.2.1 0 none⟩

open Entries in
/-- The ledger looks at no type where the table does and does not read the zero key; over an
`OpenView`, erasing an insertion shows the entry under it again, an erasure of an absent key is
listed, and what an `ApplyView` inserts is not. -/
theorem raw_state_table_differs :
    (∃ items base', [RawOp.insert 3 (entry 3)].foldlM runRaw ∅ = .ok items ∧
      RawStateTable.apply items one = .ok base' ∧
      RawStateTable.existsAt items one.readView (⟨.entry .offer, 3⟩ : Key) = false ∧
      base'.readView.existsAt (⟨.entry .offer, 3⟩ : Key) = true) ∧
    (∃ items base', [RawOp.insert 0 (entry 3)].foldlM runRaw ∅ = .ok items ∧
      RawStateTable.apply items one = .ok base' ∧
      RawStateTable.read items one.readView (⟨.any, 0⟩ : Key) = some (entry 3) ∧
      base'.readView.read (⟨.any, 0⟩ : Key) = none) ∧
    (∃ inserted items base', RawStateTable.insert ∅ 1 (entry 2) = .ok inserted ∧
      [RawOp.erase 1 (entry 2)].foldlM runRaw ∅ = .ok items ∧
      RawStateTable.apply items (View.openView one inserted) = .ok base' ∧
      RawStateTable.read items (View.openView one inserted).readView (⟨.any, 1⟩ : Key) = none ∧
      base'.readView.read (⟨.any, 1⟩ : Key) = some (entry 1)) ∧
    (∃ inserted items base', RawStateTable.insert ∅ 5 (entry 5) = .ok inserted ∧
      [RawOp.erase 3 (entry 3)].foldlM runRaw ∅ = .ok items ∧
      RawStateTable.apply items (View.openView one inserted) = .ok base' ∧
      RawStateTable.sles items
          ((View.openView one inserted).readView : ReadView _ LedgerEntryType _) =
        .ok [(1, entry 1), (3, entry 3), (5, entry 5)] ∧
      base'.readView.read (⟨.any, 3⟩ : Key) = none) ∧
    ∃ inserted, ApplyStateTable.insert ∅ 3 (entry 3) = .ok inserted ∧
      RawStateTable.sles ∅ ((View.applyView one inserted).readView : ReadView _ LedgerEntryType _) =
        .ok [(1, entry 1)] ∧
      (View.applyView one inserted).readView.read (⟨.any, 3⟩ : Key) = some (entry 3) :=
  ⟨⟨_, _, rfl, rfl, rfl, rfl⟩, ⟨_, _, rfl, rfl, rfl, rfl⟩, ⟨_, _, _, rfl, rfl, rfl, rfl, rfl⟩,
    ⟨_, _, _, rfl, rfl, rfl, rfl, rfl⟩, _, rfl, rfl, rfl⟩

end FinPal.Ordered
