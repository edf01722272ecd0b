import FinPal.Lib.Store
import FinPal.SHAMap.Decode
import Mathlib.Data.Fintype.Basic
import Mathlib.Tactic.FinCases

/-!
# What decoded nodes are

The compressed form may name a position twice, and the depth in a stored node is only compared with
the length of the record: from 65 on the prefix is written past `common_`.
-/

namespace FinPal
open HashPrefix
namespace Hashes
variable {n : Hashes} {s : Blob} {pos : Fin 16} {recs : List (Fin 16 × Tag)}

/-- The bits of the mask are those of the hashes that are not zero. -/
def Sound (n : Hashes) : Prop := ∀ pos : Fin 16, n.mIsBranch.testBit pos ↔ n.mHashes pos ≠ .zero

/-- The last hash that records have for a position. -/
def lastHash (recs : List (Fin 16 × Tag)) (pos : Fin 16) (old : Tag) : Tag :=
  recs.foldl (fun h r => if r.1 = pos then r.2 else h) old

/-- No position that has a hash other than zero ends with zero. -/
def Kept (recs : List (Fin 16 × Tag)) : Prop :=
  ∀ r ∈ recs, r.2 ≠ .zero → lastHash recs r.1 .zero ≠ .zero

/-- The records of the compressed form, stored in their order. -/
def storeAll (recs : List (Fin 16 × Tag)) (n : Hashes) : Hashes :=
  recs.foldl (fun n r => n.store r.1 r.2) n

theorem testBit_store (hash : Tag) (i : Fin 16) :
    (n.store pos hash).mIsBranch.testBit i ↔ n.mIsBranch.testBit i ∨ pos = i ∧ hash ≠ .zero := by
  unfold store
  split
  next h => simp [h, Nat.shiftLeft_eq, Nat.testBit_two_pow, Fin.ext_iff]
  next h => simp [h]

theorem storeAll_spec (recs : List (Fin 16 × Tag)) (n : Hashes) (i : Fin 16) :
    ((storeAll recs n).mIsBranch.testBit i ↔
        n.mIsBranch.testBit i ∨ ∃ r ∈ recs, r.1 = i ∧ r.2 ≠ .zero) ∧
      (storeAll recs n).mHashes i = lastHash recs i (n.mHashes i) := by
  induction recs generalizing n with
  | nil => simp [storeAll, lastHash]
  | cons r recs ih =>
    obtain ⟨hb, hh⟩ := ih (n.store r.1 r.2)
    constructor
    · simp only [storeAll, List.foldl_cons] at hb ⊢
      simp only [hb, testBit_store, List.mem_cons, exists_eq_or_imp, or_assoc]
    refine hh.trans ?_
    rw [lastHash, lastHash, List.foldl_cons]
    congr 1
    simp only [store, Function.update_apply, eq_comm]

theorem lastHash_ne {old : Tag} (h : lastHash recs pos old ≠ .zero) :
    old ≠ .zero ∨ ∃ r ∈ recs, r.1 = pos ∧ r.2 ≠ .zero := by
  induction recs generalizing old with
  | nil => exact .inl h
  | cons r recs ih =>
    rcases ih h with hold | ⟨r', hr', hne⟩
    · dsimp only at hold
      split at hold
      next heq => exact .inr ⟨r, List.mem_cons_self, heq, hold⟩
      next => exact .inl hold
    · exact .inr ⟨r', List.mem_cons_of_mem _ hr', hne⟩

theorem sound_storeAll : (storeAll recs {}).Sound ↔ Kept recs := by
  constructor
  · intro h r hr hne
    obtain ⟨hb, hh⟩ := storeAll_spec recs {} r.1
    exact hh ▸ (h r.1).1 (hb.2 (.inr ⟨r, hr, rfl, hne⟩))
  intro h pos
  obtain ⟨hb, hh⟩ := storeAll_spec recs {} pos
  rw [hb, hh]
  constructor
  · rintro (h0 | ⟨r, hr, rfl, hne⟩)
    · simp at h0
    · exact h r hr hne
  · intro hl
    exact .inr ((lastHash_ne hl).resolve_left (not_not.2 rfl))

theorem read_eq {offset : ℕ} (h : offset + 32 ≤ s.length) (n : Hashes) (pos : Fin 16) :
    n.read pos s offset = n.store pos ((get256 s offset).getD .zero) := by
  rw [read, get256, dif_pos h, Option.getD_some, Option.getD_some]

theorem sound_full (hs : 512 ≤ s.length) : (full s).Sound := by
  have hre (i : Fin 16) (n : Hashes) :
      n.read i s (i * 32) = n.store i ((get256 s (i * 32)).getD .zero) := read_eq (by omega) n i
  have hrecs : full s =
      storeAll ((List.finRange 16).map fun i => (i, (get256 s (i * 32)).getD .zero)) {} := by
    simp only [full, storeAll, List.foldl_map, hre]
  have hl (f : Fin 16 → Tag) (pos : Fin 16) :
      lastHash ((List.finRange 16).map fun i => (i, f i)) pos .zero = f pos := by
    fin_cases pos <;> rfl
  rw [hrecs, sound_storeAll]
  intro r hr _
  obtain ⟨i, -, rfl⟩ := List.mem_map.1 hr
  rwa [hl fun i => (get256 s (i * 32)).getD .zero]

/-- A record of a compressed node: a position and its hash. -/
def record (s : Blob) (i : ℕ) : Option (Fin 16 × Tag) := do
  let pos ← s[32 + i * 33]?
  if h : pos.toNat < 16 then return (⟨pos.toNat, h⟩, (get256 s (i * 33)).getD .zero) else none

def records (s : Blob) : List (Fin 16 × Tag) := (List.range (s.length / 33)).filterMap (record s)

theorem readRecord_ok {i : ℕ} {n' : Hashes} (hi : i < s.length / 33)
    (h : readRecord s n i = .ok n') : ∃ r, record s i = some r ∧ n' = n.store r.1 r.2 := by
  unfold readRecord at h
  split at h
  · cases h
  next pos hp =>
    split at h
    next hlt =>
      cases h
      refine ⟨(⟨pos.toNat, hlt⟩, (get256 s (i * 33)).getD .zero), ?_, read_eq (by omega) n _⟩
      simp [record, hp, hlt]
    next => cases h

theorem compressed_eq (h : compressed s = .ok n) : n = storeAll (records s) {} := by
  have hlo (l : List ℕ) (hl : ∀ i ∈ l, i < s.length / 33) (n0 : Hashes)
      (h : l.foldlM (readRecord s) n0 = .ok n) : n = storeAll (l.filterMap (record s)) n0 := by
    induction l generalizing n0 with
    | nil =>
      cases h
      rfl
    | cons i l ih =>
      obtain ⟨_, h1, h⟩ := Store.bind_ok.1 h
      obtain ⟨r, hr, rfl⟩ := readRecord_ok (hl i List.mem_cons_self) h1
      rw [List.filterMap_cons, hr]
      exact ih (fun j hj => hl j (List.mem_cons_of_mem _ hj)) _ h
  exact hlo _ (fun i hi => List.mem_range.1 hi) _ h

end Hashes

variable {sha512Half : Blob → Tag} {rawNode s : Blob} {node node' : InnerNode} {n : Hashes}
  {format : SHANodeFormat} {depth : ℕ} {nodeID : Tag}

theorem fullInner_sound (h : fullInner node' s = .ok (.inner node n)) : n.Sound := by
  unfold fullInner at h
  split at h
  · cases h
  next _ =>
    cases h
    exact Hashes.sound_full (by omega)

theorem compressedInner_sound (h : compressedInner node' s = .ok (.inner node n)) :
    n.Sound ↔ Hashes.Kept (Hashes.records s) := by
  obtain ⟨b, hb, h⟩ := Store.bind_ok.1 h
  cases h
  rw [Hashes.compressed_eq hb, Hashes.sound_storeAll]

theorem keyedLeaf_cases (name : String) (mayBeZero : Bool) (type : TNType) (s : Blob) :
    (∃ item, keyedLeaf name mayBeZero type s = .ok (.leaf item type)) ∨
      ∃ what, keyedLeaf name mayBeZero type s = .error (.runtimeError what) := by
  unfold keyedLeaf
  split
  · exact .inr ⟨_, rfl⟩
  split
  · exact .inr ⟨_, rfl⟩
  · exact .inl ⟨_, rfl⟩

/-- The compressed form is the only one whose mask may be wrong. -/
def MaskKept (rawNode : Blob) : SHANodeFormat → Prop
  | .snfWIRE => rawNode.getLast? = some 3 ∨ rawNode.getLast? = some 6 →
    Hashes.Kept (Hashes.records rawNode.dropLast)
  | _ => True

theorem makeWire_sound (h : makeWire sha512Half rawNode depth nodeID = .ok (some (.inner node n))) :
    n.Sound ↔ MaskKept rawNode .snfWIRE := by
  unfold makeWire at h
  split at h
  · cases h
  next type hty =>
    have hfu {node' : InnerNode} (hne : type ≠ 3 ∧ type ≠ 6)
        (h : fullInner node' rawNode.dropLast = .ok (.inner node n)) :
        n.Sound ↔ MaskKept rawNode .snfWIRE := by
      refine iff_of_true (fullInner_sound h) ?_
      rintro (h | h)
      · exact absurd (Option.mem_unique hty h) hne.1
      · exact absurd (Option.mem_unique hty h) hne.2
    have hle {name : String} {type : TNType}
        (h : keyedLeaf name false type rawNode.dropLast = .ok (.inner node n)) : False := by
      rcases keyedLeaf_cases name false type rawNode.dropLast with ⟨_, heq⟩ | ⟨_, heq⟩
      · cases heq.symm.trans h
      · cases heq.symm.trans h
    split at h
    case h_1 | h_8 => cases h
    all_goals
      obtain ⟨_, hma, h⟩ := Store.bind_ok.1 h
      cases h
    case h_2.refl | h_5.refl => exact (hle hma).elim
    case h_3.refl hty | h_6.refl hty =>
      exact hfu (by constructor <;> rintro rfl <;> cases hty) hma
    case h_4.refl hth =>
      obtain rfl : type = 3 := UInt8.toNat_inj.1 hth
      exact (compressedInner_sound hma).trans ⟨fun h _ => h, fun h => h (.inl hty)⟩
    case h_7.refl hs =>
      obtain rfl : type = 6 := UInt8.toNat_inj.1 hs
      exact (compressedInner_sound hma).trans ⟨fun h _ => h, fun h => h (.inr hty)⟩

/-! ### The stored form -/

/-- The record of a node of version 2 has as many bytes as its depth asks for. -/
def HasDepth (s : Blob) (d : UInt8) : Prop :=
  s[512]? = some d ∧ s.length = 512 + 1 + (d.toNat + 1) / 2

theorem HasDepth.eq {d d' : UInt8} (h : HasDepth s d) (h' : HasDepth s d') : d = d' :=
  Option.some.inj (h.1.symm.trans h'.1)

/-- What becomes of a stored record. -/
inductive Stored (rawNode : Blob) : Except MakeFault MadeNode → Prop
  | leaf (item : SHAMapItem) (type : TNType) : rawNode.take 4 ≠ HashPrefix.innerNodeV2 →
    Stored rawNode (.ok (.leaf item type))
  | v1 : rawNode.take 4 ≠ HashPrefix.innerNodeV2 → 512 ≤ (rawNode.drop 4).length →
    Stored rawNode (.ok (.inner .v1 (.full (rawNode.drop 4))))
  | v2 (d : UInt8) (common : Tag) : rawNode.take 4 = HashPrefix.innerNodeV2 →
    HasDepth (rawNode.drop 4) d → d.toNat ≤ 64 →
    Stored rawNode (.ok (.inner (.v2 d.toNat common) (.full (rawNode.drop 4))))
  | overrun (d : UInt8) : rawNode.take 4 = HashPrefix.innerNodeV2 → HasDepth (rawNode.drop 4) d →
    64 < d.toNat → Stored rawNode (.error .outOfBounds)
  | thrown (what : String) :
    (rawNode.take 4 = HashPrefix.innerNodeV2 → ∀ d, ¬HasDepth (rawNode.drop 4) d) →
    Stored rawNode (.error (.runtimeError what))

theorem foldlM_readByte (s : Blob) (k : ℕ) (hs : 512 + 1 + k ≤ s.length) :
    (k ≤ 32 ∧ ∃ common, (List.range k).foldlM (readByte s) .zero = .ok common) ∨
      32 < k ∧ (List.range k).foldlM (readByte s) .zero = .error .outOfBounds := by
  induction k with
  | zero => exact .inl ⟨by decide, _, rfl⟩
  | succ k ih =>
    obtain ⟨byte, hb⟩ : ∃ byte, s[512 + 1 + k]? = some byte :=
      ⟨_, List.getElem?_eq_getElem (by omega)⟩
    rw [List.range_succ, List.foldlM_append]
    rcases ih (by omega) with ⟨hk, common, heq⟩ | ⟨hk, heq⟩
    · rw [heq]
      change (_ ∧ ∃ _, (readByte s common k >>= pure) = _) ∨ _ ∧ (readByte s common k >>= pure) = _
      rw [bind_pure, readByte, hb]
      rcases Nat.lt_or_ge k 32 with hlt | _
      · exact .inl ⟨hlt, _, dif_pos hlt⟩
      · exact .inr ⟨by omega, dif_neg (by omega)⟩
    · rw [heq]
      exact .inr ⟨by omega, rfl⟩

theorem makeInner_stored :
    Stored rawNode (makeInner (rawNode.take 4 = innerNodeV2) (rawNode.drop 4)) := by
  unfold makeInner
  split
  next hl =>
    refine .thrown _ fun hv2 d hd => ?_
    have := hd.2
    simp only [hv2, decide_true, Bool.not_true, Bool.false_eq_true, false_and, true_and,
      false_or] at hl
    omega
  next hl =>
    split
    next hv1 => exact .v1 (by simpa using hv1) (by omega)
    next hv2 =>
      have hv2 : rawNode.take 4 = innerNodeV2 := by simpa using hv2
      obtain ⟨d, hd⟩ : ∃ d, (rawNode.drop 4)[512]? = some d :=
        ⟨_, List.getElem?_eq_getElem (by simp [hv2] at hl ⊢; omega)⟩
      rw [hd]
      dsimp only
      split
      next hl' =>
        refine .thrown _ fun _ d' hd' => ?_
        obtain rfl := Option.some.inj (hd.symm.trans hd'.1)
        exact hl' hd'.2
      next hl' =>
        rw [not_not] at hl'
        rcases foldlM_readByte (rawNode.drop 4) ((d.toNat + 1) / 2) hl'.ge with
          ⟨hle, common, heq⟩ | ⟨hlt, heq⟩
        · rw [heq]
          exact .v2 d common hv2 ⟨hd, hl'⟩ (by omega)
        · rw [heq]
          exact .overrun d hv2 ⟨hd, hl'⟩ (by omega)

theorem makePrefix_stored (sha512Half : Blob → Tag) (rawNode : Blob) :
    Stored rawNode (makePrefix sha512Half rawNode) := by
  have hke (name : String) (mayBeZero : Bool) (type : TNType) {pre : Blob}
      (h : rawNode.take 4 = pre) (hne : pre ≠ innerNodeV2) :
      Stored rawNode (keyedLeaf name mayBeZero type (rawNode.drop 4)) := by
    rcases keyedLeaf_cases name mayBeZero type (rawNode.drop 4) with ⟨_, heq⟩ | ⟨_, heq⟩
    · rw [heq]
      exact .leaf _ _ (h ▸ hne)
    · rw [heq]
      exact .thrown _ fun h' => absurd (h.symm.trans h') hne
  unfold makePrefix
  dsimp only
  split
  next _ =>
    refine .thrown _ fun h => ?_
    have := congrArg List.length h
    simp [innerNodeV2] at this
    omega
  split
  next h => exact .leaf _ _ (h ▸ by decide)
  split
  next h => exact hke _ _ _ h (by decide)
  split
  next h => exact makeInner_stored
  split
  next h => exact hke _ _ _ h (by decide)
  next h _ => exact .thrown _ fun h' => absurd (.inr h') h

theorem makePrefix_overrun {z t : Blob} {d : UInt8} (hz : z.length = 512)
    (ht : t.length = (d.toNat + 1) / 2) (hlt : 64 < d.toNat) :
    makePrefix sha512Half (innerNodeV2 ++ (z ++ d :: t)) = .error .outOfBounds := by
  have hd : HasDepth (z ++ d :: t) d := ⟨by simp [hz], by simp [hz, ht]; omega⟩
  have hst := makePrefix_stored sha512Half (innerNodeV2 ++ (z ++ d :: t))
  generalize makePrefix sha512Half (innerNodeV2 ++ (z ++ d :: t)) = r at hst ⊢
  cases hst with
  | leaf _ _ hv1 => exact absurd rfl hv1
  | v1 hv1 => exact absurd rfl hv1
  | v2 _ _ _ hd' _ =>
    obtain rfl := hd.eq hd'
    omega
  | overrun => rfl
  | thrown _ hn => exact absurd hd (hn rfl d)

theorem makePrefix_sound (h : makePrefix sha512Half rawNode = .ok (.inner node n)) : n.Sound := by
  have hst := makePrefix_stored sha512Half rawNode
  rw [h] at hst
  cases hst with
  | v1 _ hl => exact Hashes.sound_full hl
  | v2 _ _ _ hd => exact Hashes.sound_full (by have := hd.2; omega)

theorem make_sound (h : MadeNode.make sha512Half rawNode format depth nodeID =
    .ok (some (.inner node n))) : n.Sound ↔ MaskKept rawNode format := by
  cases format with
  | snfWIRE => exact makeWire_sound h
  | snfPREFIX =>
    obtain ⟨_, hm, h⟩ := Store.bind_ok.1 h
    cases h
    exact iff_of_true (makePrefix_sound hm) trivial
  | snfHASH => cases h

/-! ### Results -/

/-- The mask of a decoded node has the branches whose hashes are not zero exactly if no position is
named twice with a zero last; it is then a function of the hashes. -/
theorem made_mask_iff (h : MadeNode.make sha512Half rawNode format depth nodeID =
      .ok (some (.inner node n))) :
    ((∀ pos : Fin 16, n.mIsBranch.testBit pos ↔ n.mHashes pos ≠ .zero) ↔ MaskKept rawNode format) ∧
      (MaskKept rawNode format → ∀ rawNode' format' depth' nodeID' node' n',
        MadeNode.make sha512Half rawNode' format' depth' nodeID' = .ok (some (.inner node' n')) →
          MaskKept rawNode' format' → n'.mHashes = n.mHashes →
            ∀ pos : Fin 16, n'.mIsBranch.testBit pos = n.mIsBranch.testBit pos) := by
  refine ⟨make_sound h, fun hk _ _ _ _ _ n' h' hke' heq pos => ?_⟩
  rw [Bool.eq_iff_iff, (make_sound h').2 hke' pos, (make_sound h).2 hk pos, heq]

/-- A compressed node with one branch. -/
theorem made_mask_iff_sample : ∃ n,
    MadeNode.make (fun _ => .zero) (List.replicate 32 1 ++ [5, 3]) .snfWIRE 0 .zero =
        .ok (some (.inner .v1 n)) ∧
      ∀ pos : Fin 16, n.mIsBranch.testBit pos ↔ n.mHashes pos ≠ .zero :=
  have h : MadeNode.make (fun _ => .zero) (List.replicate 32 1 ++ [5, 3]) .snfWIRE 0 .zero =
    .ok (some (.inner .v1 _)) := rfl
  ⟨_, h, (made_mask_iff h).1.2 fun _ => by unfold Hashes.Kept; decide +kernel⟩

/-- A hash and then zero, both for branch 0. -/
theorem made_mask_wrong : ∃ n,
    MadeNode.make (fun _ => .zero) (List.replicate 32 1 ++ [0] ++ List.replicate 33 0 ++ [3])
        .snfWIRE 0 .zero = .ok (some (.inner .v1 n)) ∧ n.mIsBranch.testBit 0 ∧ n.mHashes 0 = .zero :=
  ⟨_, rfl, by decide +kernel, by decide +kernel⟩

/-- A record of version 2 whose depth is that of no inner node. -/
def Overlong (rawNode : Blob) : Prop :=
  rawNode.take 4 = HashPrefix.innerNodeV2 ∧ ∃ d, HasDepth (rawNode.drop 4) d ∧ 64 ≤ d.toNat

/-- Decoding a stored node stays within its buffers, and gives a depth of the tree with a prefix of
its length, exactly if the stored depth is not overlong. -/
theorem prefix_in_bounds_iff (sha512Half : Blob → Tag) (rawNode : Blob) (depth : ℕ) (nodeID : Tag) :
    (MadeNode.make sha512Half rawNode .snfPREFIX depth nodeID ≠ .error .outOfBounds ∧
      ∀ d common n, MadeNode.make sha512Half rawNode .snfPREFIX depth nodeID =
        .ok (some (.inner (.v2 d common) n)) →
          d ≤ 63 ∧ rawNode.length = 4 + 512 + 1 + (d + 1) / 2) ↔ ¬Overlong rawNode := by
  have hov {d : UInt8} (hv2 : rawNode.take 4 = innerNodeV2)
      (hd : HasDepth (rawNode.drop 4) d) : Overlong rawNode ↔ 64 ≤ d.toNat := by
    refine ⟨?_, fun h => ⟨hv2, d, hd, h⟩⟩
    rintro ⟨-, d', hd', h⟩
    exact hd.eq hd' ▸ h
  have hst := makePrefix_stored sha512Half rawNode
  unfold MadeNode.make
  cases hma : makePrefix sha512Half rawNode with
  | error e =>
    rw [hma] at hst
    cases hst with
    | overrun d hv2 hd _ =>
      rw [hov hv2 hd]
      exact iff_of_false (fun h => h.1 rfl) (by omega)
    | thrown _ hno => exact iff_of_true ⟨nofun, nofun⟩ fun h => hno h.1 _ h.2.choose_spec.1
  | ok _ =>
    rw [hma] at hst
    cases hst with
    | leaf _ _ hv1 => exact iff_of_true ⟨nofun, nofun⟩ fun h => hv1 h.1
    | v1 hv1 _ => exact iff_of_true ⟨nofun, nofun⟩ fun h => hv1 h.1
    | v2 d common hv2 hd _ =>
      rw [hov hv2 hd]
      have hl := hd.2
      rw [List.length_drop] at hl
      constructor
      · intro h
        have := (h.2 _ _ _ rfl).1
        omega
      refine fun h => ⟨nofun, ?_⟩
      rintro d' _ _ ⟨⟩
      omega

/-- 33 bytes are written. -/
theorem prefix_out_of_bounds : MadeNode.make (fun _ => .zero)
    (HashPrefix.innerNodeV2 ++ (List.replicate 512 0 ++ 65 :: List.replicate 33 0)) .snfPREFIX 0
      .zero = .error .outOfBounds :=
  congrArg (fun made => do return some (← made))
    (makePrefix_overrun List.length_replicate List.length_replicate (by decide))

end FinPal
