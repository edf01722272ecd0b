import Mathlib.Algebra.BigOperators.Group.Finset.Basic

/-!
# Rings of increasing keys

A doubly linked list whose keys increase from a base that comes again after the last key. The links
are then determined by the set of keys (`RingNext`), so the invariant `LinkedRing` is about a set,
and operations on links become insertions and deletions in it.
-/

namespace FinPal
open Finset
variable {α : Type} [LinearOrder α]

/-- The key after `p` is the least one above it, or the base when there is none. -/
def RingNext (S : Finset α) (z p q : α) : Prop :=
  q ∈ S ∧ ((p < q ∧ ∀ r ∈ S, p < r → q ≤ r) ∨ (q = z ∧ ∀ r ∈ S, r ≤ p))

namespace RingNext
variable {S : Finset α} {z p q a b n : α}

theorem le (h : RingNext S z p z) (hz : z ≤ p) : ∀ r ∈ S, r ≤ p := by
  obtain ⟨-, ⟨hlt, -⟩ | ⟨-, hle⟩⟩ := h
  · exact absurd hlt (not_lt.2 hz)
  · exact hle

theorem lt (h : RingNext S z p q) (hq : q ≠ z) : p < q ∧ ∀ r ∈ S, p < r → q ≤ r := by
  obtain ⟨-, h | ⟨rfl, -⟩⟩ := h
  · exact h
  · exact absurd rfl hq

theorem unique (h1 : RingNext S z p a) (h2 : RingNext S z p b) : a = b := by
  obtain ⟨ha, ⟨hpa, hmin⟩ | ⟨rfl, hm⟩⟩ := h1
  · obtain ⟨hb, ⟨hpb, hm'⟩ | ⟨rfl, hm⟩⟩ := h2
    · exact le_antisymm (hmin b hb hpb) (hm' a ha hpa)
    · exact absurd hpa (not_lt.2 (hm a ha))
  obtain ⟨hb, ⟨hpb, -⟩ | ⟨rfl, -⟩⟩ := h2
  · exact absurd hpb (not_lt.2 (hm b hb))
  · rfl

theorem injective (hz : ∀ r ∈ S, z ≤ r) (ha : a ∈ S) (hb : b ∈ S) (h1 : RingNext S z a q)
    (h2 : RingNext S z b q) : a = b := by
  by_cases hq : q = z
  · subst hq
    exact le_antisymm (h2.le (hz b hb) a ha) (h1.le (hz a ha) b hb)
  obtain ⟨haq, ha'⟩ := h1.lt hq
  obtain ⟨hbq, hb'⟩ := h2.lt hq
  rcases lt_trichotomy a b with hab | hab | hab
  · exact absurd hbq (not_lt.2 (ha' b hb hab))
  · exact hab
  · exact absurd haq (not_lt.2 (hb' a ha hab))

theorem erase (h : RingNext S z a b) (hb : b ≠ p) : RingNext (S.erase p) z a b := by
  obtain ⟨hm, h⟩ := h
  refine ⟨mem_erase.2 ⟨hb, hm⟩, h.imp ?_ ?_⟩
  · exact fun h => ⟨h.1, fun r hr => h.2 r (mem_of_mem_erase hr)⟩
  · exact fun h => ⟨h.1, fun r hr => h.2 r (mem_of_mem_erase hr)⟩

theorem bridge (h1 : RingNext S z a p) (h2 : RingNext S z p b) (hp : p ≠ z) :
    RingNext (S.erase p) z a b := by
  obtain ⟨hap, hm⟩ := h1.lt hp
  obtain ⟨hb, ⟨hpb, hm'⟩ | ⟨rfl, hmax⟩⟩ := h2
  · refine ⟨mem_erase.2 ⟨hpb.ne', hb⟩, .inl ⟨hap.trans hpb, fun r hr har => ?_⟩⟩
    obtain ⟨hrp, hr⟩ := mem_erase.1 hr
    exact hm' r hr (lt_of_le_of_ne (hm r hr har) (Ne.symm hrp))
  refine ⟨mem_erase.2 ⟨hp.symm, hb⟩, .inr ⟨rfl, fun r hr => ?_⟩⟩
  obtain ⟨hrp, hr⟩ := mem_erase.1 hr
  by_contra har
  exact hrp (le_antisymm (hmax r hr) (hm r hr (not_le.1 har)))

theorem insert_of_lt (h : RingNext S z a b) (hab : a < b) (hn : ∀ r ∈ S, r < n) :
    RingNext (insert n S) z a b := by
  obtain ⟨hb, ⟨-, hm⟩ | ⟨-, hmax⟩⟩ := h
  · refine ⟨mem_insert_of_mem hb, .inl ⟨hab, fun r hr har => ?_⟩⟩
    rcases mem_insert.1 hr with rfl | hr
    · exact (hn b hb).le
    · exact hm r hr har
  · exact absurd hab (not_lt.2 (hmax b hb))

theorem insert_last (ha : a ∈ S) (hm : ∀ r ∈ S, r ≤ a) (hn : ∀ r ∈ S, r < n) :
    RingNext (insert n S) z a n := by
  refine ⟨mem_insert_self n S, .inl ⟨hn a ha, fun r hr har => ?_⟩⟩
  rcases mem_insert.1 hr with rfl | hr
  · exact le_rfl
  · exact absurd har (not_lt.2 (hm r hr))

theorem insert_base (hz : z ∈ S) (hn : ∀ r ∈ S, r < n) : RingNext (insert n S) z n z := by
  refine ⟨mem_insert_of_mem hz, .inr ⟨rfl, fun r hr => ?_⟩⟩
  rcases mem_insert.1 hr with rfl | hr
  · exact le_rfl
  · exact (hn r hr).le

theorem filter_lt (h : RingNext S z p q) (hq : q ≠ z) :
    S.filter (p < ·) = insert q (S.filter (q < ·)) := by
  obtain ⟨hpq, hm⟩ := h.lt hq
  ext r
  simp only [mem_filter, mem_insert]
  constructor
  · rintro ⟨hr, hpr⟩
    exact (hm r hr hpr).eq_or_lt.imp Eq.symm fun hlt => ⟨hr, hlt⟩
  rintro (rfl | ⟨hr, hqr⟩)
  · exact ⟨h.1, hpq⟩
  · exact ⟨hr, hpq.trans hqr⟩

theorem filter_lt_last (h : RingNext S z p z) (hz : z ≤ p) : S.filter (p < ·) = ∅ :=
  filter_eq_empty_iff.2 fun r hr => not_lt.2 (h.le hz r hr)

theorem sum_from {M : Type} [AddCommMonoid M] (f : α → M) (hp : p ∈ S) (h : RingNext S z p q)
    (hq : q ≠ z) : ∑ r ∈ S with p ≤ r, f r = f p + ∑ r ∈ S with q ≤ r, f r := by
  obtain ⟨hpq, hm⟩ := h.lt hq
  have hs : S.filter (p ≤ ·) = insert p (S.filter (q ≤ ·)) := by
    ext r
    simp only [mem_filter, mem_insert]
    constructor
    · rintro ⟨hr, hpr⟩
      rcases hpr.eq_or_lt with rfl | hlt
      · exact .inl rfl
      · exact .inr ⟨hr, hm r hr hlt⟩
    rintro (rfl | ⟨hr, hqr⟩)
    · exact ⟨hp, le_rfl⟩
    · exact ⟨hr, hpq.le.trans hqr⟩
  rw [hs]
  simp [hpq]

theorem sum_last {M : Type} [AddCommMonoid M] (f : α → M) (hp : p ∈ S) (hz : z ≤ p)
    (h : RingNext S z p z) : ∑ r ∈ S with p ≤ r, f r = f p := by
  have hs : S.filter (p ≤ ·) = {p} := by
    ext r
    simp only [mem_filter, mem_singleton]
    constructor
    · rintro ⟨hr, hpr⟩
      exact le_antisymm (h.le hz r hr) hpr
    · rintro rfl
      exact ⟨hp, le_rfl⟩
  rw [hs, sum_singleton]

end RingNext

/-- The links `L` of the keys `S`, next and previous, make a ring with base `z`. -/
structure LinkedRing (L : α → Option (α × α)) (z : α) (S : Finset α) : Prop where
  mem : ∀ p, p ∈ S ↔ (L p).isSome = true
  base : ∀ p ∈ S, z ∈ S ∧ z ≤ p
  next : ∀ {p l}, L p = some l → RingNext S z p l.1
  prev : ∀ {p l}, L p = some l → l.2 ∈ S ∧ RingNext S z l.2 p

namespace LinkedRing
variable {L : α → Option (α × α)} {z : α} {S : Finset α} {p a b n : α} {l l1 l2 : α × α}

theorem mem_of_some (h : LinkedRing L z S) (hp : L p = some l) : p ∈ S :=
  (h.mem p).2 (by rw [hp]; rfl)

theorem empty (h : ∀ p, L p = none) : LinkedRing L z ∅ where
  mem p := by simp [h]
  base p hp := by simp at hp
  next hp := by simp [h] at hp
  prev hp := by simp [h] at hp

theorem eq_empty (h : LinkedRing L z S) (hz : L z = none) : S = ∅ := by
  refine eq_empty_of_forall_notMem fun p hp => ?_
  have := (h.mem z).1 (h.base p hp).1
  rw [hz] at this
  cases this

theorem singleton (h : LinkedRing L z S) (hz : L z = none) :
    LinkedRing (Function.update L z (some (z, z))) z {z} := by
  have hS := h.eq_empty hz
  have hn (p) : L p = none := by simpa [hS] using h.mem p
  have hs : RingNext {z} z z z := ⟨mem_singleton_self z, .inr ⟨rfl, by simp⟩⟩
  refine ⟨fun p => ?_, by simp, fun {p l} hp => ?_, fun {p l} hp => ?_⟩
  · by_cases hpz : p = z <;> simp [hpz, hn]
  all_goals
    by_cases hpz : p = z
    · subst hpz
      obtain rfl : (p, p) = l := by simpa using hp
      first | exact hs | exact ⟨mem_singleton_self p, hs⟩
    · simp [hpz, hn] at hp

theorem le_last (h : LinkedRing L z S) (hz : L z = some l) : ∀ r ∈ S, r ≤ l.2 :=
  (h.prev hz).2.le (h.base _ (h.prev hz).1).2

theorem push {L' : α → Option (α × α)} (h : LinkedRing L z S) (hz : L z = some l)
    (hn : ∀ r ∈ S, r < n)
    (hL : ∀ r, L' r = if r = n then some (z, l.2) else
      (L r).map fun m => (if r = l.2 then n else m.1, if r = z then n else m.2)) :
    LinkedRing L' z (insert n S) := by
  have hzS := h.mem_of_some hz
  have hla := (h.prev hz).1
  have hmax := h.le_last hz
  refine ⟨fun r => ?_, fun r hr => ?_, fun {r m'} hr => ?_, fun {r m'} hr => ?_⟩
  · by_cases hrn : r = n <;> simp [hL, hrn, h.mem]
  · refine ⟨mem_insert_of_mem hzS, ?_⟩
    rcases mem_insert.1 hr with rfl | hr
    · exact (hn z hzS).le
    · exact (h.base r hr).2
  · rw [hL] at hr
    split at hr
    · next hrn =>
      cases hr
      rw [hrn]
      exact .insert_base hzS hn
    obtain ⟨m, hm, rfl⟩ := Option.map_eq_some_iff.1 hr
    split
    · next hrl => exact hrl ▸ .insert_last hla hmax hn
    · next hrl =>
      refine (h.next hm).insert_of_lt ?_ hn
      -- only the last key is followed by the base
      refine ((h.next hm).lt fun hmz => hrl ?_).1
      have hrS := h.mem_of_some hm
      exact le_antisymm (hmax r hrS) ((hmz ▸ h.next hm).le (h.base r hrS).2 _ hla)
  rw [hL] at hr
  split at hr
  · next hrn =>
    cases hr
    rw [hrn]
    exact ⟨mem_insert_of_mem hla, .insert_last hla hmax hn⟩
  obtain ⟨m, hm, rfl⟩ := Option.map_eq_some_iff.1 hr
  dsimp only
  split
  · next hrz =>
    rw [hrz]
    exact ⟨mem_insert_self n S, .insert_base hzS hn⟩
  · next hrz =>
    obtain ⟨hmem, hne⟩ := h.prev hm
    exact ⟨mem_insert_of_mem hmem, hne.insert_of_lt (hne.lt hrz).1 hn⟩

theorem push_links {r : α} (hz : L z = some l) (h1 : L l.2 = some l1)
    (h2 : (if z = l.2 then some (n, l1.2) else L z) = some l2) :
    (if r = n then some (z, l.2) else if r = z then some (l2.1, n) else
      if r = l.2 then some (n, l1.2) else L r) =
    if r = n then some (z, l.2) else
      (L r).map fun m => (if r = l.2 then n else m.1, if r = z then n else m.2) := by
  cases hr : L r <;> grind

theorem unlink {L' : α → Option (α × α)} (h : LinkedRing L z S) (hp : L p = some (b, a))
    (hpz : p ≠ z)
    (hL : ∀ r, L' r = if r = p then none else
      (L r).map fun m => (if r = a then b else m.1, if r = b then a else m.2)) :
    LinkedRing L' z (S.erase p) := by
  obtain ⟨ha, hap⟩ := h.prev hp
  have hpb := h.next hp
  have hba : ∀ r ∈ S, z ≤ r := fun r hr => (h.base r hr).2
  refine ⟨fun r => ?_, fun r hr => ?_, fun {r m'} hr => ?_, fun {r m'} hr => ?_⟩
  · by_cases hrp : r = p <;> simp [hL, hrp, h.mem]
  · obtain ⟨hz, hle⟩ := h.base r (mem_of_mem_erase hr)
    exact ⟨mem_erase.2 ⟨hpz.symm, hz⟩, hle⟩
  · rw [hL] at hr
    split at hr
    · cases hr
    obtain ⟨m, hm, rfl⟩ := Option.map_eq_some_iff.1 hr
    split
    · next hra => exact hra ▸ hap.bridge hpb hpz
    · next hra =>
      refine (h.next hm).erase fun hmp => hra ?_
      exact RingNext.injective hba (h.mem_of_some hm) ha (hmp ▸ h.next hm) hap
  rw [hL] at hr
  split at hr
  · cases hr
  · next hrp =>
    obtain ⟨m, hm, rfl⟩ := Option.map_eq_some_iff.1 hr
    dsimp only
    split
    · next hrb => exact ⟨mem_erase.2 ⟨(hap.lt hpz).1.ne, ha⟩, hrb ▸ hap.bridge hpb hpz⟩
    · next hrb =>
      obtain ⟨hmem, hne⟩ := h.prev hm
      refine ⟨mem_erase.2 ⟨fun hmp => hrb ?_, hmem⟩, hne.erase hrp⟩
      exact (hmp ▸ hne).unique hpb

theorem unlink_links {r : α} (h1 : L a = some l1)
    (h2 : (if b = a then some (b, l1.2) else L b) = some l2) :
    (if r = p then none else if r = b then some (l2.1, a) else
      if r = a then some (b, l1.2) else L r) =
    if r = p then none else
      (L r).map fun m => (if r = a then b else m.1, if r = b then a else m.2) := by
  cases hr : L r <;> grind

variable (h : LinkedRing L z S)

include h

theorem eq_base (hz : L z = some l) (hl : l.2 = z) : ∀ r ∈ S, r = z :=
  fun r hr => le_antisymm (hl ▸ h.le_last hz r hr) (h.base r hr).2

theorem eq_of_base (hz : L z = some (p, p)) (hpz : p ≠ z) : ∀ r ∈ S, r = z ∨ r = p := by
  intro r hr
  rcases (h.base r hr).2.eq_or_lt with rfl | hlt
  · exact .inl rfl
  · exact .inr (le_antisymm (h.le_last hz r hr) (((h.next hz).lt hpz).2 r hr hlt))

theorem eq_of_last (hp : L p = some (z, z)) (hpz : p ≠ z) : ∀ r ∈ S, r = z ∨ r = p := by
  intro r hr
  have hpS := h.mem_of_some hp
  rcases (h.base r hr).2.eq_or_lt with rfl | hlt
  · exact .inl rfl
  · exact .inr (le_antisymm ((h.next hp).le (h.base p hpS).2 r hr)
      (((h.prev hp).2.lt hpz).2 r hr hlt))

end LinkedRing
end FinPal
