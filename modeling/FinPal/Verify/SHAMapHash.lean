import FinPal.Verify.SHAMapContents

/-!
# Hashes determine trees
-/

namespace FinPal.SHAMap
open Tag Node DigitTree
variable {txID : Blob → Tag} {v : Version} {d depth : ℕ} {common common' : Tag} {t t' : Node}
  {node : InnerNode} {children children' : Fin 16 → Node} {item item' : SHAMapItem}
  {type type' : TNType}

/-- The key of a transaction without metadata is the hash of its data. -/
def Named (txID : Blob → Tag) : Node → Prop
  | .null => True
  | .leaf item type => type = .transactionNM → item.key = txID item.data
  | .inner _ children => ∀ b, Named txID (children b)

instance Named.decidable (txID : Blob → Tag) : (t : Node) → Decidable (Named txID t)
  | .null => .isTrue trivial
  | .leaf item type =>
    inferInstanceAs (Decidable (type = .transactionNM → item.key = txID item.data))
  | .inner _ children =>
    have : ∀ b, Decidable (Named txID (children b)) := fun b => Named.decidable txID (children b)
    inferInstanceAs (Decidable (∀ b, Named txID (children b)))

/-- A tree that its hash determines: no inner node is empty, and none of version 2 has more of a
prefix than its depth. -/
def Sound (txID : Blob → Tag) : Node → Prop
  | .null => True
  | .leaf item type => type = .transactionNM → item.key = txID item.data
  | .inner node children =>
    (∀ depth common, node = .v2 depth common → prefixOf depth common = common) ∧
      branches children ≠ [] ∧ ∀ b, Sound txID (children b)

theorem sound_of_canonical (h : CanonicalAt v d t) (hna : Named txID t) : Sound txID t := by
  induction h with
  | null => trivial
  | leaf _ _ => exact hna
  | @inner d p _ fits two _ _ ih =>
    refine ⟨?_, ?_, fun b => ih b (hna b)⟩
    · rintro _ _ rfl
      cases v with
      | one => cases fits
      | two =>
        obtain ⟨_, _, heq, hf⟩ := fits
        cases heq
        exact hf.common_eq
    · obtain ⟨i, ⟨b, hi⟩, -⟩ := two
      exact List.ne_nil_of_mem (mem_branches.2 (ne_null_of_mem hi))

theorem WellFormed.sound (h : WellFormed v (.inner node children))
    (hna : Named txID (.inner node children)) (hne : branches children ≠ []) :
    Sound txID (.inner node children) := by
  obtain ⟨_, heq, hb⟩ := h
  cases heq
  refine ⟨?_, hne, fun b => sound_of_canonical (hb.below b) (hna b)⟩
  intro _ _ heq
  cases v with
  | one => cases heq
  | two =>
    cases heq
    decide

theorem leafHash_inj (h : type = .transactionNM → item.key = txID item.data)
    (h' : type' = .transactionNM → item'.key = txID item'.data)
    (heq : LeafHash.of item type = .of item' type') : item = item' ∧ type = type' := by
  cases type <;> cases type' <;> simp only [LeafHash.of, reduceCtorEq] at heq
  case transactionNM.transactionNM => exact ⟨by cases item; cases item'; simp_all, rfl⟩
  all_goals
    cases item
    cases item'
    simp_all

theorem prefix_inj (h : prefixOf depth common = common) (h' : prefixOf depth common' = common')
    (heq : common.toList.take ((depth + 1) / 2) = common'.toList.take ((depth + 1) / 2)) :
    common = common' := by
  have hag : Agree depth common common' := by
    refine (agree_two_mul (i := (depth + 1) / 2)).2 (fun i hi => ?_) |>.mono (by omega)
    have hg := congrArg (fun l : List UInt8 => l[i]?) heq
    simp only [List.getElem?_take_of_lt hi, Vector.getElem?_toList] at hg
    unfold byte
    by_cases h32 : i < 32
    · rw [dif_pos h32, dif_pos h32]
      exact congrArg UInt8.toNat (by simpa [h32] using hg)
    · rw [dif_neg h32, dif_neg h32]
  rw [← h, ← h', prefixOf_congr hag]

theorem hash_inner (hne : branches children ≠ []) :
    Node.hash (.inner node children) = match node with
      | .v1 => .innerNode fun b => hash (children b)
      | .v2 depth common => .innerNodeV2 (fun b => hash (children b)) depth
        (common.toList.take ((depth + 1) / 2)) := by
  rw [hash.eq_def]
  exact if_neg hne

theorem hash_ne_zero (h : Sound txID t) (hne : t ≠ .null) : t.hash ≠ .zero := by
  cases t with
  | null => exact absurd rfl hne
  | leaf _ _ => nofun
  | inner node _ =>
    rw [hash_inner h.2.1]
    cases node with
    | v1 => nofun
    | v2 _ _ => nofun

theorem hash_inj (h : Sound txID t) (h' : Sound txID t') (heq : t.hash = t'.hash) : t = t' := by
  induction t generalizing t' with
  | null =>
    by_contra hne
    exact hash_ne_zero h' (Ne.symm hne) heq.symm
  | leaf _ _ =>
    cases t' with
    | null => cases heq
    | leaf item' type' =>
      obtain ⟨rfl, rfl⟩ := leafHash_inj h h' (NodeHash.leaf.inj heq)
      rfl
    | inner node' children' =>
      rw [hash_inner h'.2.1] at heq
      cases node' with
      | v1 => cases heq
      | v2 depth common => cases heq
  | inner node children ih =>
    cases t' with
    | null => exact absurd heq (hash_ne_zero h nofun)
    | leaf item' type' =>
      rw [hash_inner h.2.1] at heq
      cases node with
      | v1 => cases heq
      | v2 depth common => cases heq
    | inner node' children' =>
      have hch (ha : ∀ b, hash (children b) = hash (children' b)) : children = children' :=
        funext fun b => ih b (h.2.2 b) (h'.2.2 b) (ha b)
      rw [hash_inner h.2.1, hash_inner h'.2.1] at heq
      cases node with
      | v1 =>
        cases node' with
        | v1 => rw [hch (congrFun (NodeHash.innerNode.inj heq))]
        | v2 depth' common' => cases heq
      | v2 depth common =>
        cases node' with
        | v1 => cases heq
        | v2 depth' common' =>
          obtain ⟨hha, rfl, hco⟩ := NodeHash.innerNodeV2.inj heq
          rw [hch (congrFun hha), prefix_inj (h.1 _ _ rfl) (h'.1 _ _ rfl) hco]

/-! ### Root hashes -/

theorem named_of_labelled (hty : type ≠ .transactionNM) (h : t.Labelled type) : Named txID t := by
  induction t with
  | null => trivial
  | leaf _ _ => exact fun hnm => absurd (h.symm.trans hnm) hty
  | inner _ _ ih => exact fun b => ih b (h b)

theorem WellFormed.eq_new (h : WellFormed v t) (hna : Named txID t) (hze : t.hash = .zero) :
    t = new v := by
  obtain ⟨children, rfl, -⟩ := id h
  have hnil : branches children = [] :=
    not_not.1 fun hne => hash_ne_zero (h.sound hna hne) nofun hze
  have hnull : children = fun _ => .null :=
    funext fun b => not_not.1 fun hb => List.not_mem_nil (hnil ▸ mem_branches.2 hb)
  rw [hnull]
  cases v <;> rfl

theorem WellFormed.hash_inj (h : WellFormed v t) (h' : WellFormed v t') (hna : Named txID t)
    (hna' : Named txID t') (heq : t.hash = t'.hash) : t = t' := by
  by_cases hze : t.hash = .zero
  · rw [h.eq_new hna hze, h'.eq_new hna' (heq ▸ hze)]
  have hso {t} (h : WellFormed v t) (hna : Named txID t) (hze : t.hash ≠ .zero) :
      Sound txID t := by
    obtain ⟨_, rfl, -⟩ := id h
    refine h.sound hna fun hnil => hze ?_
    rw [hash.eq_def]
    exact if_pos hnil
  exact SHAMap.hash_inj (hso h hna hze) (hso h' hna' (heq ▸ hze)) heq

/-- The map that operations make of an empty one. -/
def built (v : Version) (ops : List MapOp) : Node := (MapOp.run MapOp.apply (new v) ops).2

/-- Two maps built by operations with one type of leaves have the same root hash exactly if they have
the same items. -/
theorem root_hash_commits (txID : Blob → Tag) (v : Version) {ops ops' : List MapOp}
    (hops : ∀ op ∈ ops, op.HasType type) (hops' : ∀ op ∈ ops', op.HasType type)
    (hnm : type = .transactionNM → Named txID (built v ops) ∧ Named txID (built v ops')) :
    getHash (built v ops) = getHash (built v ops') ↔
      ∀ id, peekItem (built v ops) id = peekItem (built v ops') id := by
  have hro : Uniform v type (built v ops) := (Uniform.new v type).run hops
  have hro' : Uniform v type (built v ops') := (Uniform.new v type).run hops'
  constructor
  · intro heq id
    obtain ⟨hna, hna'⟩ : Named txID (built v ops) ∧ Named txID (built v ops') := by
      by_cases hty : type = .transactionNM
      · exact hnm hty
      · exact ⟨named_of_labelled hty hro.labelled, named_of_labelled hty hro'.labelled⟩
    rw [hro.wellFormed.hash_inj hro'.wellFormed hna hna' heq]
  · intro hit
    rw [hro.ext hro' hit]

open Items in
/-- Two maps of two items with one in common. -/
theorem root_hash_commits_add :
    getHash (built .two [add 1, add 2]) ≠ getHash (built .two [add 1, add 3]) := by
  have hty (b) : ∀ op ∈ [add 1, add b], op.HasType .accountState := by
    simp [add, MapOp.HasType, TNType.of]
  have hiff := root_hash_commits (fun _ => (entry 1).key) .two (hty 2) (hty 3) (by simp)
  exact fun h => absurd (hiff.1 h (entry 2).key) (by decide)

end FinPal.SHAMap
