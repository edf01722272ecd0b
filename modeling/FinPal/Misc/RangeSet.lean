import Mathlib.Algebra.GroupWithZero.Nat
import Mathlib.Order.Bounds.Basic
import Mathlib.Tactic.Common

/-!
# Sets of ledger sequences

The queries of `RangeSet` (`basics/impl/RangeSet.cpp`) in the arithmetic of 32 bits.
-/

namespace FinPal

/-- The ranges in the order of the map, with gaps between them. -/
structure RangeSet where
  ranges : List (ℕ × ℕ)
  ordered : ranges.Pairwise fun a b => a.2 + 1 < b.1
  proper : ∀ r ∈ ranges, r.1 ≤ r.2 ∧ r.2 < 2 ^ 32

namespace RangeSet

def absent : ℕ := 2 ^ 32 - 1

abbrev contains (r : ℕ × ℕ) (v : ℕ) : Prop := r.1 ≤ v ∧ v ≤ r.2

/-- The loop of `getNext`. -/
def nextIn (v : ℕ) : List (ℕ × ℕ) → ℕ
  | [] => absent
  | r :: rs =>
    if r.1 > v then r.1
    else if contains r ((v + 1) % 2 ^ 32) then (v + 1) % 2 ^ 32
    else nextIn v rs

/-- The loop of `getPrev`, from the last range. -/
def prevIn (v : ℕ) : List (ℕ × ℕ) → ℕ
  | [] => absent
  | r :: rs =>
    if r.2 < v then r.2
    else if contains r ((v + 2 ^ 32 - 1) % 2 ^ 32) then (v + 2 ^ 32 - 1) % 2 ^ 32
    else prevIn v rs

/-- The loop of `prevMissing`, from the last range. -/
def missingIn (result : ℕ) : List (ℕ × ℕ) → ℕ
  | [] => result
  | r :: rs =>
    if contains r result then (r.1 + 2 ^ 32 - 1) % 2 ^ 32
    else if result > r.2 then result
    else missingIn result rs

def getNext (s : RangeSet) (v : ℕ) : ℕ := nextIn v s.ranges

def getPrev (s : RangeSet) (v : ℕ) : ℕ := prevIn v s.ranges.reverse

def prevMissing (s : RangeSet) (v : ℕ) : ℕ :=
  if v ≠ 0 then missingIn (v - 1) s.ranges.reverse else absent

/-! ## What the loops find -/

def Mem (rs : List (ℕ × ℕ)) (v : ℕ) : Prop := ∃ r ∈ rs, contains r v

/-- The best element of the set, or `absent` if it is empty. -/
def Found (best : Set ℕ → ℕ → Prop) (S : Set ℕ) (x : ℕ) : Prop := S = ∅ ∧ x = absent ∨ best S x

variable {v m : ℕ} {r : ℕ × ℕ} {rs : List (ℕ × ℕ)}

theorem mem_cons : Mem (r :: rs) v ↔ contains r v ∨ Mem rs v := by simp [Mem]

theorem mem_cons_of_not (h : ¬ contains r v) : Mem (r :: rs) v ↔ Mem rs v :=
  mem_cons.trans (or_iff_right h)

theorem nextIn_spec (hv : v + 1 < 2 ^ 32) (ho : rs.Pairwise fun a b => a.2 + 1 < b.1)
    (hp : ∀ r ∈ rs, r.1 ≤ r.2) : Found IsLeast {m | v < m ∧ Mem rs m} (nextIn v rs) := by
  induction rs with
  | nil => exact .inl ⟨by simp [Mem], rfl⟩
  | cons r rs ih =>
    obtain ⟨hr, ho⟩ := List.pairwise_cons.1 ho
    obtain ⟨hpr, hp⟩ := List.forall_mem_cons.1 hp
    rw [nextIn, Nat.mod_eq_of_lt hv]
    split_ifs with hlt hc
    · refine .inr ⟨⟨hlt, mem_cons.2 (.inl ⟨le_rfl, hpr⟩)⟩, fun m hm => ?_⟩
      obtain hin | ⟨b, hb, hin⟩ := mem_cons.1 hm.2
      · exact hin.1
      · have := hr b hb
        omega
    · exact .inr ⟨⟨Nat.lt_succ_self v, mem_cons.2 (.inl hc)⟩, fun m hm => hm.1⟩
    rw [show {m | v < m ∧ Mem (r :: rs) m} = {m | v < m ∧ Mem rs m} from
      Set.ext fun m => and_congr_right fun hm => mem_cons_of_not (by omega)]
    exact ih ho hp

theorem prevIn_spec (hv : v < 2 ^ 32) (ho : rs.Pairwise fun a b => b.2 + 1 < a.1)
    (hp : ∀ r ∈ rs, r.1 ≤ r.2) : Found IsGreatest {m | m < v ∧ Mem rs m} (prevIn v rs) := by
  induction rs with
  | nil => exact .inl ⟨by simp [Mem], rfl⟩
  | cons r rs ih =>
    obtain ⟨hr, ho⟩ := List.pairwise_cons.1 ho
    obtain ⟨hpr, hp⟩ := List.forall_mem_cons.1 hp
    rw [prevIn]
    split_ifs with hlt hc
    · refine .inr ⟨⟨hlt, mem_cons.2 (.inl ⟨hpr, le_rfl⟩)⟩, fun m hm => ?_⟩
      obtain hin | ⟨b, hb, hin⟩ := mem_cons.1 hm.2
      · exact hin.2
      · have := hr b hb
        omega
    · -- below 0 the neighbour wraps around, to `absent`
      obtain rfl | hpos := Nat.eq_zero_or_pos v
      · exact .inl ⟨by simp, rfl⟩
      · rw [show (v + 2 ^ 32 - 1) % 2 ^ 32 = v - 1 by omega] at hc ⊢
        exact .inr ⟨⟨by omega, mem_cons.2 (.inl hc)⟩, fun m hm => Nat.le_sub_one_of_lt hm.1⟩
    rw [show {m | m < v ∧ Mem (r :: rs) m} = {m | m < v ∧ Mem rs m} from
      Set.ext fun m => and_congr_right fun hm => mem_cons_of_not (by omega)]
    exact ih ho hp

theorem missingIn_spec (hv : v < 2 ^ 32) (ho : rs.Pairwise fun a b => b.2 + 1 < a.1)
    (hp : ∀ r ∈ rs, r.1 ≤ r.2) : Found IsGreatest {m | m ≤ v ∧ ¬ Mem rs m} (missingIn v rs) := by
  induction rs with
  | nil => exact .inr ⟨⟨le_rfl, by simp [Mem]⟩, fun m hm => hm.1⟩
  | cons r rs ih =>
    obtain ⟨hr, ho⟩ := List.pairwise_cons.1 ho
    obtain ⟨hpr, hp⟩ := List.forall_mem_cons.1 hp
    have hbelow {m : ℕ} (hm : Mem rs m) : m + 1 < r.1 := by
      obtain ⟨b, hb, hin⟩ := hm
      have := hr b hb
      omega
    rw [missingIn]
    split_ifs with hc hlt
    · obtain h0 | hpos := Nat.eq_zero_or_pos r.1
      · refine .inl ⟨Set.eq_empty_of_forall_notMem fun m hm => ?_, by rw [h0]; rfl⟩
        exact hm.2 (mem_cons.2 (.inl ⟨by omega, hm.1.trans hc.2⟩))
      rw [show (r.1 + 2 ^ 32 - 1) % 2 ^ 32 = r.1 - 1 by omega]
      refine .inr ⟨⟨by omega, fun hm => ?_⟩, fun m hm => ?_⟩
      · have := hbelow ((mem_cons_of_not (by omega)).1 hm)
        omega
      have hout : ¬ contains r m := fun hin => hm.2 (mem_cons.2 (.inl hin))
      have := hm.1
      omega
    · refine .inr ⟨⟨le_rfl, fun hm => ?_⟩, fun m hm => hm.1⟩
      have := hbelow ((mem_cons_of_not hc).1 hm)
      omega
    rw [show {m | m ≤ v ∧ ¬ Mem (r :: rs) m} = {m | m ≤ v ∧ ¬ Mem rs m} from
      Set.ext fun m => and_congr_right fun hm => not_congr (mem_cons_of_not (by omega))]
    exact ih ho hp

/-! ## The queries -/

/-- What a query is to return: `absent` exactly if the set is empty, else its best element. -/
def Answers (best : Set ℕ → ℕ → Prop) (S : Set ℕ) (x : ℕ) : Prop :=
  (x = absent ↔ S = ∅) ∧ (S.Nonempty → best S x)

theorem Found.answers {best : Set ℕ → ℕ → Prop} {S : Set ℕ} {x : ℕ} (h : Found best S x)
    (hb : best S x → x ∈ S) (hS : absent ∉ S) : Answers best S x := by
  obtain ⟨rfl, rfl⟩ | h := h
  · exact ⟨iff_of_true rfl rfl, by simp⟩
  · refine ⟨iff_of_false (fun hx => hS (hx ▸ hb h)) fun he => ?_, fun _ => h⟩
    exact Set.notMem_empty x (he ▸ hb h)

/-- From the last value on, `getNext` looks at 0. -/
theorem nextIn_absent (hp : ∀ r ∈ rs, r.1 ≤ r.2 ∧ r.2 < 2 ^ 32) :
    nextIn absent rs = absent ↔ ¬ Mem rs 0 := by
  induction rs with
  | nil => exact iff_of_true rfl (by simp [Mem])
  | cons r rs ih =>
    obtain ⟨hr, hp⟩ := List.forall_mem_cons.1 hp
    have hne : ¬ r.1 > absent := by
      unfold absent
      omega
    rw [nextIn, if_neg hne, mem_cons, show (absent + 1) % 2 ^ 32 = 0 from rfl]
    split_ifs with hc
    · exact iff_of_false (by decide) (not_not.2 (.inl hc))
    · rw [or_iff_right hc]
      exact ih hp

/-- An answer that was found is right unless the best element is the value that says that there is
none. -/
theorem Found.answers_iff {S : Set ℕ} {x : ℕ} (h : Found IsLeast S x) (hS : ∀ m ∈ S, m ≤ absent) :
    Answers IsLeast S x ↔ S ≠ {absent} := by
  obtain ⟨rfl, rfl⟩ | h := h
  · exact iff_of_true ⟨iff_of_true rfl rfl, by simp⟩ (Set.singleton_ne_empty _).symm
  have hx : x = absent ↔ S = {absent} := by
    constructor
    · rintro rfl
      exact Set.eq_singleton_iff_unique_mem.2 ⟨h.1, fun m hm => (hS m hm).antisymm (h.2 hm)⟩
    · rintro rfl
      exact h.1
  rw [ne_eq, ← hx]
  refine ⟨fun ha hx => ?_, fun hne => ⟨iff_of_false hne ?_, fun _ => h⟩⟩
  · exact Set.notMem_empty x (ha.1.1 hx ▸ h.1)
  · exact Set.Nonempty.ne_empty ⟨x, h.1⟩

/-- The queries downwards are right. `getNext` is right unless it wraps around to a member 0, or the
only member above is the value that says that there is none. -/
theorem range_set_queries (s : RangeSet) {v : ℕ} (hv : v < 2 ^ 32) :
    (Answers IsLeast {m | v < m ∧ Mem s.ranges m} (s.getNext v) ↔
      ¬ (v = absent ∧ Mem s.ranges 0) ∧ {m | v < m ∧ Mem s.ranges m} ≠ {absent}) ∧
    Answers IsGreatest {m | m < v ∧ Mem s.ranges m} (s.getPrev v) ∧
    Answers IsGreatest {m | m < v ∧ ¬ Mem s.ranges m} (s.prevMissing v) := by
  have hm : Mem s.ranges = Mem s.ranges.reverse := by simp [Mem, funext_iff]
  have ho := List.pairwise_reverse.2 s.ordered
  have hp (r) (hr : r ∈ s.ranges) : r.1 ≤ r.2 := (s.proper r hr).1
  have hp' (r) (hr : r ∈ s.ranges.reverse) : r.1 ≤ r.2 := hp r (List.mem_reverse.1 hr)
  have hlt : ¬ absent < v := by unfold absent; omega
  have hle : ∀ m ∈ {m | v < m ∧ Mem s.ranges m}, m ≤ absent := by
    rintro m ⟨-, r, hr, hin⟩
    have := (s.proper r hr).2
    unfold absent
    omega
  refine ⟨?_, ?_, ?_⟩
  · by_cases hl : v = absent
    · -- nothing is above the last value
      subst hl
      have he : {m | absent < m ∧ Mem s.ranges m} = ∅ :=
        Set.eq_empty_of_forall_notMem fun m hm => (hle m hm).not_gt hm.1
      rw [he, and_iff_left (Set.singleton_ne_empty _).symm, not_and, forall_prop_of_true rfl,
        ← nextIn_absent s.proper]
      simp [Answers, getNext]
    · have hv' : v + 1 < 2 ^ 32 := by unfold absent at hl; omega
      rw [and_iff_right (fun h => hl h.1)]
      exact (nextIn_spec hv' s.ordered hp).answers_iff hle
  · rw [hm]
    exact (prevIn_spec hv ho hp').answers (·.1) fun h => hlt h.1
  rw [hm, prevMissing]
  split_ifs with h0
  · have hle (m : ℕ) : m < v ↔ m ≤ v - 1 := by omega
    simp only [hle]
    exact (missingIn_spec (by omega) ho hp').answers (·.1) fun h => hlt ((hle _).2 h.1)
  · simp [not_not.1 h0, Answers]

/-- All sequences but four. -/
def most : RangeSet := ⟨[(0, 2), (7, 2 ^ 32 - 1)], by decide, by decide⟩

/-- The next member after 2 is 7, which `getNext` finds over the gap. -/
theorem range_set_queries_most : most.getNext 2 = 7 ∧
    Answers IsLeast {m | 2 < m ∧ Mem most.ranges m} (most.getNext 2) := by
  refine ⟨by decide, (range_set_queries most (by decide)).1.2 ⟨fun h => absurd h.1 (by decide),
    fun h => ?_⟩⟩
  have h7 : 7 ∈ {m | 2 < m ∧ Mem most.ranges m} := ⟨by decide, (7, 2 ^ 32 - 1), by decide, by decide⟩
  rw [h] at h7
  exact absurd (Set.mem_singleton_iff.1 h7) (by decide)

/-- Behind the last sequence `getNext` finds 0, and the last one it does not find. -/
theorem getNext_wraps : most.getNext (2 ^ 32 - 1) = 0 ∧ most.getNext (2 ^ 32 - 2) = absent ∧
    Mem most.ranges (2 ^ 32 - 1) :=
  ⟨by decide, by decide, (7, 2 ^ 32 - 1), by decide, by decide, by decide⟩

end RangeSet
end FinPal
