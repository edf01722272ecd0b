import FinPal.Verify.SHAMapCanonical

/-!
# The contents of a SHAMap
-/

namespace FinPal.SHAMap
open Tag Node DigitTree Function

/-- The operations on the items of a map. -/
inductive MapOp
  | addGiveItem (item : SHAMapItem) (isTransaction hasMeta : Bool)
  | updateGiveItem (item : SHAMapItem) (isTransaction hasMeta : Bool)
  | delItem (id : Tag)

open MapOp
namespace MapOp

def apply (root : Node) : MapOp → Bool × Node
  | addGiveItem item isTransaction hasMeta => SHAMap.addGiveItem root item isTransaction hasMeta
  | updateGiveItem item isTransaction hasMeta =>
    SHAMap.updateGiveItem root item isTransaction hasMeta
  | delItem id => SHAMap.delItem root id

/-- The operation on an ordinary map: adding needs an absent key, others a present one. -/
def onFiniteMap (m : Tag → Option Blob) : MapOp → Bool × (Tag → Option Blob)
  | addGiveItem item _ _ =>
    if (m item.key).isNone then (true, Function.update m item.key item.data) else (false, m)
  | updateGiveItem item _ _ =>
    if (m item.key).isSome then (true, Function.update m item.key item.data) else (false, m)
  | delItem id => if (m id).isSome then (true, Function.update m id none) else (false, m)

/-- Whether the leaves an operation makes have a type. -/
def HasType (type : TNType) : MapOp → Prop
  | addGiveItem _ isTransaction hasMeta => TNType.of isTransaction hasMeta = type
  | updateGiveItem _ isTransaction hasMeta => TNType.of isTransaction hasMeta = type
  | delItem _ => True

/-- The results of operations one after the other, and the state they leave. -/
def run {σ : Type} (step : σ → MapOp → Bool × σ) : σ → List MapOp → List Bool × σ
  | state, [] => ([], state)
  | state, op :: ops =>
    let (result, state) := step state op
    let (results, state) := run step state ops
    (result :: results, state)

end MapOp

/-- A canonical tree with the items of a map. -/
structure Represents (v : Version) (root : Node) (m : Tag → Option Blob) : Prop where
  wellFormed : WellFormed v root
  mem : ∀ i : SHAMapItem, i ∈ root ↔ m i.key = some i.data

variable {v : Version} {root : Node} {m : Tag → Option Blob} {item i : SHAMapItem} {id : Tag}
  {type : TNType} {isTransaction hasMeta : Bool} {ops : List MapOp}

namespace Represents

theorem new (v : Version) : Represents v (new v) fun _ => none where
  wellFormed := by
    cases v with
    | one => exact ⟨_, rfl, .null 0 _⟩
    | two => exact ⟨_, rfl, .null 0 _⟩
  mem i := by
    cases v with
    | one => exact ⟨fun ⟨_, h⟩ => absurd h notMem_null, nofun⟩
    | two => exact ⟨fun ⟨_, h⟩ => absurd h notMem_null, nofun⟩

section
variable (h : Represents v root m)
include h

theorem findKey_eq (id : Tag) : findKey root id = (m id).map fun data => ⟨id, data⟩ := by
  apply Option.ext
  rintro ⟨-, data⟩
  rw [findKey_eq_some h.wellFormed, h.mem, Option.map_eq_some_iff]
  constructor
  · rintro ⟨hm, rfl⟩
    exact ⟨data, hm, rfl⟩
  rintro ⟨data, hm, heq⟩
  cases heq
  exact ⟨hm, rfl⟩

theorem absent (hm : m id = none) : ∀ i ∈ root, i.key ≠ id := by
  rintro i hi rfl
  rw [(h.mem i).1 hi] at hm
  cases hm

theorem put {root' : Node} (hwf : WellFormed v root')
    (hm : ∀ i, i ∈ root' ↔ i = item ∨ i ∈ root ∧ i.key ≠ item.key) :
    Represents v root' (update m item.key item.data) where
  wellFormed := hwf
  mem i := by
    rw [hm, h.mem]
    by_cases hk : i.key = item.key
    · rw [hk]
      obtain ⟨_, _⟩ := i
      obtain ⟨_, _⟩ := item
      simp_all [eq_comm]
    · have hne : i ≠ item := fun heq => hk (by rw [heq])
      simp [hk, hne]

theorem addGiveItem (item : SHAMapItem) (isTransaction hasMeta : Bool) :
    let r := addGiveItem root item isTransaction hasMeta
    let r' := onFiniteMap m (.addGiveItem item isTransaction hasMeta)
    r.1 = r'.1 ∧ Represents v r.2 r'.2 := by
  cases hm : m item.key with
  | none =>
    obtain ⟨root', heq, hwf, hmem, -⟩ := addGiveItem_of_notMem isTransaction hasMeta
      h.wellFormed (h.absent hm)
    have hp := h.put hwf fun i => by rw [hmem, and_iff_left_of_imp (h.absent hm i)]
    simpa [heq, onFiniteMap, hm] using hp
  | some data =>
    have hk : SHAMapItem.key ⟨item.key, data⟩ = item.key := rfl
    have heq := addGiveItem_of_mem isTransaction hasMeta h.wellFormed
      ((h.mem ⟨item.key, data⟩).2 hm) hk
    simpa [heq, onFiniteMap, hm] using h

theorem updateGiveItem (item : SHAMapItem) (isTransaction hasMeta : Bool) :
    let r := updateGiveItem root item isTransaction hasMeta
    let r' := onFiniteMap m (.updateGiveItem item isTransaction hasMeta)
    r.1 = r'.1 ∧ Represents v r.2 r'.2 := by
  cases hm : m item.key with
  | none =>
    have heq := updateGiveItem_of_notMem isTransaction hasMeta h.wellFormed (h.absent hm)
    simpa [heq, onFiniteMap, hm] using h
  | some data =>
    have hk : SHAMapItem.key ⟨item.key, data⟩ = item.key := rfl
    obtain ⟨_, heq, hwf, hmem, -⟩ := updateGiveItem_of_mem isTransaction hasMeta h.wellFormed
      ((h.mem ⟨item.key, data⟩).2 hm) hk
    simpa [heq, onFiniteMap, hm] using h.put hwf hmem

theorem delItem (id : Tag) :
    let r := delItem root id
    let r' := onFiniteMap m (.delItem id)
    r.1 = r'.1 ∧ Represents v r.2 r'.2 := by
  cases hm : m id with
  | none =>
    have heq := delItem_of_notMem h.wellFormed (h.absent hm)
    simpa [heq, onFiniteMap, hm] using h
  | some data =>
    obtain ⟨root', heq, hwf, hmem, -⟩ := delItem_of_mem h.wellFormed ((h.mem ⟨id, data⟩).2 hm)
    have hd : Represents v root' (update m id none) := by
      refine ⟨hwf, fun i => ?_⟩
      rw [hmem, h.mem]
      by_cases hk : i.key = id
      · rw [hk]
        simp
      · rw [update_of_ne hk]
        simp [hk]
    simpa [heq, onFiniteMap, hm] using hd

theorem step (op : MapOp) :
    (op.apply root).1 = (op.onFiniteMap m).1 ∧
      Represents v (op.apply root).2 (op.onFiniteMap m).2 := by
  cases op with
  | addGiveItem item isTransaction hasMeta => exact h.addGiveItem item isTransaction hasMeta
  | updateGiveItem item isTransaction hasMeta => exact h.updateGiveItem item isTransaction hasMeta
  | delItem id => exact h.delItem id

theorem run (ops : List MapOp) :
    (run apply root ops).1 = (run onFiniteMap m ops).1 ∧
      Represents v (run apply root ops).2 (run onFiniteMap m ops).2 := by
  induction ops generalizing root m with
  | nil => exact ⟨rfl, h⟩
  | cons op ops ih =>
    obtain ⟨hr, hs⟩ := h.step op
    obtain ⟨hre, hrun⟩ := ih hs
    exact ⟨congrArg₂ List.cons hr hre, hrun⟩

theorem delItem_addGiveItem (ha : (SHAMap.addGiveItem root item isTransaction hasMeta).1 = true) :
    Represents v
      (SHAMap.delItem (SHAMap.addGiveItem root item isTransaction hasMeta).2 item.key).2 m := by
  obtain ⟨hre, had⟩ := h.addGiveItem item isTransaction hasMeta
  rw [ha] at hre
  obtain ⟨-, hde⟩ := had.delItem item.key
  cases hm : m item.key with
  | none =>
    have heq : update (update m item.key (some item.data)) item.key none = m := by
      rw [update_idem, ← hm, update_eq_self]
    simpa [onFiniteMap, hm, heq] using hde
  | some _ => simp [onFiniteMap, hm] at hre

end
end Represents

theorem WellFormed.represents (h : WellFormed v root) :
    Represents v root fun id => (findKey root id).map (·.data) where
  wellFormed := h
  mem i := by
    rw [mem_iff_findKey h, Option.map_eq_some_iff]
    constructor
    · intro hi
      exact ⟨i, hi, rfl⟩
    rintro ⟨⟨_, _⟩, hj, hd⟩
    obtain ⟨-, hk⟩ := (findKey_eq_some h).1 hj
    cases hd
    cases hk
    exact hj

theorem WellFormed.apply (h : WellFormed v root) (op : MapOp) : WellFormed v (op.apply root).2 :=
  (h.represents.step op).2.wellFormed

/-- From the empty map of either version, every sequence of operations returns what it returns on an
ordinary map, and every key is then found with its data there. -/
theorem shamap_finite_map (v : Version) (ops : List MapOp) :
    let (results, root) := MapOp.run MapOp.apply (new v) ops
    let (results', m) := MapOp.run MapOp.onFiniteMap (fun _ => none) ops
    results = results' ∧ ∀ id, peekItem root id = (m id).map (fun data => ⟨id, data⟩) ∧
      hasItem root id = (m id).isSome := by
  obtain ⟨hre, hr⟩ := (Represents.new v).run ops
  refine ⟨hre, fun id => ?_⟩
  have hf := hr.findKey_eq id
  exact ⟨hf, by rw [hasItem, hf, Option.isSome_map]⟩

/-! ### One tree for every set of items -/

/-- A map with leaves of one type. -/
structure Uniform (v : Version) (type : TNType) (root : Node) : Prop where
  wellFormed : WellFormed v root
  labelled : root.Labelled type

namespace Uniform
variable {root' : Node}

theorem new (v : Version) (type : TNType) : Uniform v type (new v) where
  wellFormed := (Represents.new v).wellFormed
  labelled := by
    cases v with
    | one => exact fun _ => trivial
    | two => exact fun _ => trivial

variable (h : Uniform v type root)

include h

theorem ext (h' : Uniform v type root')
    (heq : ∀ id, findKey root id = findKey root' id) : root = root' := by
  have hm : ∀ i, i ∈ root ↔ i ∈ root' := by
    intro i
    rw [mem_iff_findKey h.wellFormed, mem_iff_findKey h'.wellFormed, heq]
  obtain ⟨_, rfl, hb⟩ := h.wellFormed
  obtain ⟨_, rfl, hb'⟩ := h'.wellFormed
  rw [hb.ext (fitsUnique v) hb' h.labelled h'.labelled hm]

theorem step (op : MapOp) (hop : op.HasType type) : Uniform v type (op.apply root).2 := by
  cases op with
  | addGiveItem item isTransaction hasMeta =>
    obtain rfl : TNType.of isTransaction hasMeta = type := hop
    by_cases hk : ∃ i ∈ root, i.key = item.key
    · obtain ⟨i, hi, hk⟩ := hk
      have heq := addGiveItem_of_mem isTransaction hasMeta h.wellFormed hi hk
      rwa [apply, heq]
    push Not at hk
    obtain ⟨root', heq, hwf, -, hla⟩ := addGiveItem_of_notMem isTransaction hasMeta
      h.wellFormed hk
    rw [apply, heq]
    exact ⟨hwf, hla h.labelled⟩
  | updateGiveItem item isTransaction hasMeta =>
    obtain rfl : TNType.of isTransaction hasMeta = type := hop
    by_cases hk : ∃ i ∈ root, i.key = item.key
    · obtain ⟨i, hi, hk⟩ := hk
      obtain ⟨root', heq, hwf, -, hla⟩ := updateGiveItem_of_mem isTransaction hasMeta
        h.wellFormed hi hk
      rw [apply, heq]
      exact ⟨hwf, hla h.labelled⟩
    push Not at hk
    have heq := updateGiveItem_of_notMem isTransaction hasMeta h.wellFormed hk
    rwa [apply, heq]
  | delItem id =>
    by_cases hk : ∃ i ∈ root, i.key = id
    · obtain ⟨i, hi, rfl⟩ := hk
      obtain ⟨root', heq, hwf, -, hla⟩ := delItem_of_mem h.wellFormed hi
      rw [apply, heq]
      exact ⟨hwf, hla type h.labelled⟩
    push Not at hk
    have heq := delItem_of_notMem h.wellFormed hk
    rwa [apply, heq]

theorem run (hops : ∀ op ∈ ops, op.HasType type) : Uniform v type (run apply root ops).2 := by
  induction ops generalizing root with
  | nil => exact h
  | cons op ops ih =>
    rw [List.forall_mem_cons] at hops
    exact ih (h.step op hops.1) hops.2

end Uniform

/-- Operations that make leaves of one type and end with the same items end with the same tree and
hash. An item added and deleted again leaves no trace. -/
theorem shamap_history_independent (v : Version) {type : TNType} {ops ops' : List MapOp}
    (hops : ∀ op ∈ ops, op.HasType type) (hops' : ∀ op ∈ ops', op.HasType type)
    (hitems : ∀ id, peekItem (MapOp.run MapOp.apply (new v) ops).2 id =
      peekItem (MapOp.run MapOp.apply (new v) ops').2 id) :
    let root := (MapOp.run MapOp.apply (new v) ops).2
    let root' := (MapOp.run MapOp.apply (new v) ops').2
    root = root' ∧ getHash root = getHash root' ∧
      ∀ item isTransaction hasMeta, TNType.of isTransaction hasMeta = type →
        (addGiveItem root item isTransaction hasMeta).1 = true →
        getHash (delItem (addGiveItem root item isTransaction hasMeta).2 item.key).2 =
          getHash root := by
  intro root root'
  have hro : Uniform v type root := (Uniform.new v type).run hops
  have heq : root = root' := hro.ext ((Uniform.new v type).run hops') hitems
  refine ⟨heq, congrArg getHash heq, fun item isTransaction hasMeta hty ha => ?_⟩
  obtain ⟨-, hr⟩ := (Represents.new v).run ops
  have hba := hr.delItem_addGiveItem ha
  have had := hro.step (.addGiveItem item isTransaction hasMeta) hty
  have hde := had.step (.delItem item.key) trivial
  refine congrArg getHash (hde.ext hro fun id => ?_)
  exact (hba.findKey_eq id).trans (hr.findKey_eq id).symm

namespace Items

def entry (b : UInt8) : SHAMapItem := ⟨.replicate 32 b, [b]⟩

def add (b : UInt8) : MapOp := .addGiveItem (entry b) false false

def delete (b : UInt8) : MapOp := .delItem (entry b).key

end Items

open Items in
/-- Two items, added in either order, with a third one between them for a while. -/
theorem shamap_history_independent_sample :
    getHash (MapOp.run MapOp.apply (new .two) [add 0x11, add 0x12]).2 =
      getHash (MapOp.run MapOp.apply (new .two) [add 0x12, add 0x13, add 0x11, delete 0x13]).2 := by
  have h12 : (entry 0x11).key ≠ (entry 0x12).key := by decide
  have h13 : (entry 0x11).key ≠ (entry 0x13).key := by decide
  have h23 : (entry 0x12).key ≠ (entry 0x13).key := by decide
  have hm : (run onFiniteMap (fun _ => none) [add 0x11, add 0x12]).2 =
      (run onFiniteMap (fun _ => none)
        [add 0x12, add 0x13, add 0x11, delete 0x13]).2 := by
    funext id
    simp [run, onFiniteMap, add, delete, Function.update_apply, h12, h13, h12.symm,
      h13.symm, h23.symm]
    grind
  have hops : ∀ op ∈ [add 0x11, add 0x12], op.HasType .accountState := by
    simp [add, HasType, TNType.of]
  have hops' : ∀ op ∈ [add 0x12, add 0x13, add 0x11, delete 0x13], op.HasType .accountState := by
    simp [add, delete, HasType, TNType.of]
  refine (shamap_history_independent .two hops hops' fun id => ?_).2.1
  have h := ((Represents.new .two).run [add 0x11, add 0x12]).2.findKey_eq id
  have h' := ((Represents.new .two).run
    [add 0x12, add 0x13, add 0x11, delete 0x13]).2.findKey_eq id
  rw [← hm] at h'
  exact h.trans h'.symm

end FinPal.SHAMap
