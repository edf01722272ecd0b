import FinPal.Protocol.Indexes
import Mathlib.Data.Vector.Basic

/-!
# Positions in a SHAMap

The branch that a key takes at each depth of the tree (`shamap/impl/SHAMapNodeID.cpp`), and the
prefixes that inner nodes of version 2 store (`shamap/impl/SHAMapTreeNode.cpp`). A key has 32 bytes
and a branch is one of its 64 half bytes; the prefix functions compare whole bytes.
-/

namespace FinPal

/-- The bytes of a `uint256`, from `begin()`. -/
abbrev Tag := Vector UInt8 32

namespace Tag
variable {s t common key k₁ k₂ : Tag} {d depth i stop : ℕ}

def byte (t : Tag) (i : ℕ) : ℕ := if h : i < 32 then t[i].toNat else 0

theorem byte_lt (t : Tag) (i : ℕ) : t.byte i < 256 := by
  unfold byte
  split
  · exact UInt8.toNat_lt _
  · decide

theorem ext_byte (h : ∀ i < 32, s.byte i = t.byte i) : s = t := by
  refine Vector.ext fun i hi => UInt8.toNat.inj ?_
  simpa [byte, hi] using h i hi

/-- `SHAMapNodeID::selectBranch` at a depth: the half byte there, the high one first. -/
def selectBranch (depth : ℕ) (t : Tag) : Fin 16 :=
  if depth % 2 = 1 then ⟨t.byte (depth / 2) % 16, Nat.mod_lt _ (by decide)⟩
  else ⟨t.byte (depth / 2) / 16, Nat.div_lt_of_lt_mul (t.byte_lt _)⟩

/-- The first byte before `stop` where two keys differ, or `stop`. -/
def firstDifference (x y : Tag) (stop : ℕ) : ℕ :=
  ((List.range stop).find? fun i => x.byte i ≠ y.byte i).getD stop

/-- Whether two bytes have the same high half: `(x & 0xF0) == (y & 0xF0)`. -/
def sameHigh (x y : ℕ) : Bool := x &&& 0xF0 == y &&& 0xF0

/-- `SHAMapInnerNodeV2::has_common_prefix` of a node with this depth and prefix. -/
def hasCommonPrefix (depth : ℕ) (common key : Tag) : Bool :=
  (List.range (depth / 2)).all (fun i => common.byte i == key.byte i) &&
    (depth % 2 == 0 || sameHigh (common.byte (depth / 2)) (key.byte (depth / 2)))

def getCommonPrefix (depth : ℕ) (common key : Tag) : ℕ :=
  let i := firstDifference common key (depth / 2)
  if i < depth / 2 ∨ depth % 2 = 1 then
    if sameHigh (common.byte i) (key.byte i) then 2 * i + 1 else 2 * i
  else 2 * i

/-- `prefix`: the first half bytes of a key, and zeros. -/
def prefixOf (depth : ℕ) (key : Tag) : Tag :=
  .ofFn fun i =>
    if i < depth / 2 then key[i]
    else if i = depth / 2 ∧ depth % 2 = 1 then key[i] &&& 0xF0
    else 0

/-- The depth and prefix that `SHAMapInnerNodeV2::setChildren` gives the node of two keys. -/
def branchPoint (k₁ k₂ : Tag) : ℕ × Tag :=
  let i := firstDifference k₁ k₂ 32
  if sameHigh (k₁.byte i) (k₂.byte i) then
    (2 * i + 1, .ofFn fun j => if j < i then k₁[j] else if j = i then k₁[j] &&& 0xF0 else 0)
  else (2 * i, .ofFn fun j => if j < i then k₁[j] else 0)

/-! ### In half bytes -/

/-- Two keys take the same branches above a depth. -/
def Agree (depth : ℕ) (s t : Tag) : Prop := ∀ d < depth, s.selectBranch d = t.selectBranch d

theorem val_selectBranch_high (t : Tag) (i : ℕ) : (selectBranch (2 * i) t).val = t.byte i / 16 := by
  simp [selectBranch]

theorem val_selectBranch_low (t : Tag) (i : ℕ) :
    (selectBranch (2 * i + 1) t).val = t.byte i % 16 := by
  have hd : (2 * i + 1) / 2 = i := by omega
  simp [selectBranch, hd]

theorem byte_eq_iff : s.byte i = t.byte i ↔ selectBranch (2 * i) s = selectBranch (2 * i) t ∧
      selectBranch (2 * i + 1) s = selectBranch (2 * i + 1) t := by
  simp only [Fin.ext_iff, val_selectBranch_high, val_selectBranch_low]
  omega

theorem and_high (x : ℕ) (h : x < 256) : x &&& 0xF0 = 16 * (x / 16) := by
  have ha : ∀ y : Fin 256, y.val &&& 0xF0 = 16 * (y.val / 16) := by decide +kernel
  exact ha ⟨x, h⟩

theorem sameHigh_iff : sameHigh (s.byte i) (t.byte i) = true ↔
    selectBranch (2 * i) s = selectBranch (2 * i) t := by
  rw [sameHigh, beq_iff_eq, and_high _ (byte_lt _ _), and_high _ (byte_lt _ _), Fin.ext_iff,
    val_selectBranch_high, val_selectBranch_high]
  omega

theorem Agree.symm (h : Agree depth s t) : Agree depth t s := fun d hd => (h d hd).symm

theorem Agree.trans {u : Tag} (h : Agree depth s t) (h' : Agree depth t u) : Agree depth s u :=
  fun d hd => (h d hd).trans (h' d hd)

theorem Agree.mono (h : Agree depth s t) (hd : d ≤ depth) : Agree d s t :=
  fun e he => h e (he.trans_le hd)

theorem agree_two_mul : Agree (2 * i) s t ↔ ∀ j < i, s.byte j = t.byte j := by
  constructor
  · intro h j hj
    exact byte_eq_iff.2 ⟨h _ (by omega), h _ (by omega)⟩
  intro h d hd
  obtain ⟨hh, hl⟩ := byte_eq_iff.1 (h (d / 2) (by omega))
  obtain heq | heq : 2 * (d / 2) = d ∨ 2 * (d / 2) + 1 = d := by omega
  · rwa [heq] at hh
  · rwa [heq] at hl

theorem agree_succ : Agree (d + 1) s t ↔ Agree d s t ∧ selectBranch d s = selectBranch d t := by
  constructor
  · intro h
    exact ⟨h.mono (Nat.le_succ d), h d (Nat.lt_succ_self d)⟩
  rintro ⟨h, heq⟩ e he
  obtain hlt | rfl := Nat.lt_succ_iff_lt_or_eq.1 he
  · exact h e hlt
  · exact heq

theorem Agree.eq (h : Agree 64 s t) : s = t := ext_byte (agree_two_mul.1 h)

theorem hasCommonPrefix_iff : hasCommonPrefix depth common key = true ↔ Agree depth common key := by
  have hby : ((List.range (depth / 2)).all fun i => common.byte i == key.byte i) = true ↔
      Agree (2 * (depth / 2)) common key := by
    simp [agree_two_mul]
  rw [hasCommonPrefix, Bool.and_eq_true, hby]
  obtain he | ho := Nat.mod_two_eq_zero_or_one depth
  · have heq : 2 * (depth / 2) = depth := by omega
    simp [he, heq]
  have heq : 2 * (depth / 2) + 1 = depth := by omega
  simp only [ho, sameHigh_iff, Bool.or_eq_true, beq_iff_eq, Nat.one_ne_zero, false_or]
  rw [← agree_succ, heq]

theorem firstDifference_le (x y : Tag) (stop : ℕ) : firstDifference x y stop ≤ stop := by
  unfold firstDifference
  cases h : (List.range stop).find? fun i => x.byte i ≠ y.byte i with
  | none => exact le_rfl
  | some i => exact (List.mem_range.1 (List.mem_of_find?_eq_some h)).le

theorem byte_ne_firstDifference (h : firstDifference s t stop < stop) :
    s.byte (firstDifference s t stop) ≠ t.byte (firstDifference s t stop) := by
  revert h
  unfold firstDifference
  cases h : (List.range stop).find? fun i => s.byte i ≠ t.byte i with
  | none => exact fun hlt => absurd hlt (lt_irrefl _)
  | some i => exact fun _ => by simpa using List.find?_some h

theorem agree_firstDifference (s t : Tag) (stop : ℕ) :
    Agree (2 * firstDifference s t stop) s t := by
  rw [agree_two_mul]
  unfold firstDifference
  cases h : (List.range stop).find? fun i => s.byte i ≠ t.byte i with
  | none => simpa using h
  | some i =>
    intro j hj
    simpa using (List.find?_range_eq_some.1 h).2.2 j hj

theorem selectBranch_ne_of_byte_ne (h : s.byte i ≠ t.byte i) :
    let d := if sameHigh (s.byte i) (t.byte i) then 2 * i + 1 else 2 * i
    selectBranch d s ≠ selectBranch d t := by
  intro d
  by_cases hh : sameHigh (s.byte i) (t.byte i) = true
  · have hd : d = 2 * i + 1 := if_pos hh
    rw [hd]
    intro hl
    exact h (byte_eq_iff.2 ⟨sameHigh_iff.1 hh, hl⟩)
  have hd : d = 2 * i := if_neg hh
  rw [hd]
  exact fun heq => hh (sameHigh_iff.2 heq)

theorem agree_of_byte (h : Agree (2 * i) s t) :
    Agree (if sameHigh (s.byte i) (t.byte i) then 2 * i + 1 else 2 * i) s t := by
  split
  case isTrue hh => exact agree_succ.2 ⟨h, sameHigh_iff.1 hh⟩
  case isFalse => exact h

theorem getCommonPrefix_agree : Agree (getCommonPrefix depth common key) common key := by
  have hag := agree_firstDifference common key (depth / 2)
  unfold getCommonPrefix
  dsimp only
  split
  · exact agree_of_byte hag
  · exact hag

/-- A key outside the prefix of a node leaves it before the depth of the node. -/
theorem getCommonPrefix_spec (h : hasCommonPrefix depth common key = false) :
    getCommonPrefix depth common key < depth ∧
      selectBranch (getCommonPrefix depth common key) common ≠
        selectBranch (getCommonPrefix depth common key) key := by
  have hn : ¬ Agree depth common key := fun hag => by
    rw [hasCommonPrefix_iff.2 hag] at h
    cases h
  have hag := agree_firstDifference common key (depth / 2)
  have hle := firstDifference_le common key (depth / 2)
  unfold getCommonPrefix
  generalize hi : firstDifference common key (depth / 2) = i at hag hle
  by_cases hlt : i < depth / 2
  · have hne : common.byte i ≠ key.byte i := hi ▸ byte_ne_firstDifference (hi.symm ▸ hlt)
    rw [if_pos (.inl hlt)]
    exact ⟨by split <;> omega, selectBranch_ne_of_byte_ne hne⟩
  have hi' : i = depth / 2 := le_antisymm hle (not_lt.1 hlt)
  -- All whole bytes agree, so the depth is odd and the last half byte differs.
  have ho : depth % 2 = 1 := by
    by_contra heven
    exact hn (by rwa [hi', show 2 * (depth / 2) = depth by omega] at hag)
  have hde : 2 * i + 1 = depth := by omega
  have hhi : ¬ sameHigh (common.byte i) (key.byte i) = true := fun hhi =>
    hn (hde ▸ agree_succ.2 ⟨hag, sameHigh_iff.1 hhi⟩)
  rw [if_pos (.inr ho), if_neg hhi]
  exact ⟨by omega, fun heq => hhi (sameHigh_iff.2 heq)⟩

theorem byte_prefixOf (depth : ℕ) (key : Tag) (hi : i < 32) : (prefixOf depth key).byte i =
    if i < depth / 2 then key.byte i
    else if i = depth / 2 ∧ depth % 2 = 1 then 16 * (key.byte i / 16) else 0 := by
  simp only [byte, dif_pos hi, prefixOf, Vector.getElem_ofFn]
  split_ifs
  · rfl
  · exact and_high _ (UInt8.toNat_lt _)
  · rfl

theorem selectBranch_congr (h : s.byte (d / 2) = t.byte (d / 2)) :
    selectBranch d s = selectBranch d t := by
  unfold selectBranch
  split <;> simp [h]

theorem agree_prefixOf (depth : ℕ) (key : Tag) : Agree depth (prefixOf depth key) key := by
  intro d hd
  by_cases hi : d / 2 < 32
  · have hb := byte_prefixOf depth key hi
    by_cases hlt : d / 2 < depth / 2
    · exact selectBranch_congr (by rw [hb, if_pos hlt])
    -- The last half byte of an odd depth is a high one.
    have heq : d / 2 = depth / 2 ∧ depth % 2 = 1 := by omega
    rw [if_neg hlt, if_pos heq] at hb
    have hh : 2 * (d / 2) = d := by omega
    rw [← hh, Fin.ext_iff, val_selectBranch_high, val_selectBranch_high, hb]
    omega
  · exact selectBranch_congr (by simp [byte, hi])

theorem prefixOf_congr (h : Agree depth s t) : prefixOf depth s = prefixOf depth t := by
  refine ext_byte fun i hi => ?_
  rw [byte_prefixOf depth s hi, byte_prefixOf depth t hi]
  split_ifs with hlt heq
  · exact agree_two_mul.1 (h.mono (Nat.mul_div_le depth 2)) i hlt
  · have hh := h (2 * i) (by omega)
    rw [Fin.ext_iff, val_selectBranch_high, val_selectBranch_high] at hh
    rw [hh]
  · rfl

theorem prefixOf_prefixOf (depth : ℕ) (key : Tag) :
    prefixOf depth (prefixOf depth key) = prefixOf depth key :=
  prefixOf_congr (agree_prefixOf depth key)

theorem branchPoint_spec (h : k₁ ≠ k₂) : Agree (branchPoint k₁ k₂).1 k₁ k₂ ∧
      selectBranch (branchPoint k₁ k₂).1 k₁ ≠ selectBranch (branchPoint k₁ k₂).1 k₂ ∧
      (branchPoint k₁ k₂).2 = prefixOf (branchPoint k₁ k₂).1 k₁ := by
  have hag := agree_firstDifference k₁ k₂ 32
  have hlt : firstDifference k₁ k₂ 32 < 32 := by
    refine lt_of_le_of_ne (firstDifference_le k₁ k₂ 32) fun heq => h ?_
    rw [heq] at hag
    exact hag.eq
  have hne := byte_ne_firstDifference hlt
  unfold branchPoint
  dsimp only
  generalize firstDifference k₁ k₂ 32 = i at hag hlt hne
  have hne' := selectBranch_ne_of_byte_ne hne
  have hag' := agree_of_byte hag
  split_ifs with hhi
  · rw [if_pos hhi] at hne' hag'
    refine ⟨hag', hne', ?_⟩
    have hd : (2 * i + 1) / 2 = i := by omega
    simp [prefixOf, hd]
  · rw [if_neg hhi] at hne' hag'
    exact ⟨hag', hne', by simp [prefixOf]⟩

end Tag
end FinPal
