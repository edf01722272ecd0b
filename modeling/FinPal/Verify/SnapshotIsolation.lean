import FinPal.Lib.Run
import FinPal.Verify.SharedFlush

/-!
# Snapshots are isolated
-/

namespace FinPal
open HeapFormat SHAMap Tag DigitTree MapState List MapState

/-! ### Maps with a tree each -/

/-- A map with a tree of its own. -/
structure PlainMap where
  tree : Node
  seq : ℕ := 1
  state : SHAMapState := .modifying

namespace PlainMap

def onMap (ms : List PlainMap) (i : ℕ) (op : PlainMap → PlainMap × MapResult) :
    List PlainMap × MapResult :=
  match ms[i]? with
  | none => (ms, .done)
  | some m => (ms.set i (op m).1, (op m).2)

def apply (m : PlainMap) (op : MapOp) : PlainMap × MapResult :=
  ({ m with tree := (op.apply m.tree).2 }, .bool (op.apply m.tree).1)

/-- A snapshot is a map with a copy of the tree. -/
def step (ms : List PlainMap) : MapCall → List PlainMap × MapResult
  | .new version => (ms ++ [{ tree := SHAMap.new version }], .done)
  | .snapShot i isMutable =>
    match ms[i]? with
    | none => (ms, .done)
    | some m =>
      (ms ++ [{
        tree := m.tree
        seq := m.seq + 1
        state := if isMutable then .modifying else .immutable }], .done)
  | .setImmutable i => onMap ms i fun m => ({ m with state := .immutable }, .done)
  | .addGiveItem i item isTransaction hasMeta =>
    onMap ms i (·.apply (.addGiveItem item isTransaction hasMeta))
  | .updateGiveItem i item isTransaction hasMeta =>
    onMap ms i (·.apply (.updateGiveItem item isTransaction hasMeta))
  | .delItem i id => onMap ms i (·.apply (.delItem id))
  | .getHash i => onMap ms i fun m => (m, .hash (SHAMap.getHash m.tree))
  | .setUnbacked i | .flushDirty i => onMap ms i fun m => (m, .done)
  | .sweep _ => (ms, .done)

/-- Items are changed only in a map that may change, and what is left in it are transactions under
the hashes of their data. -/
def MayApply (txID : Blob → Tag) (ms : List PlainMap) (i : ℕ) (op : MapOp) : Prop :=
  ∀ m ∈ ms[i]?, m.state ≠ .immutable ∧ Named txID (op.apply m.tree).2

/-- What callers promise, and that a snapshot's sequence number fits 32 bits. -/
def Allowed (txID : Blob → Tag) (ms : List PlainMap) : MapCall → Prop
  | .snapShot i _ => ∀ m ∈ ms[i]?, m.seq + 1 < 2 ^ 32
  | .addGiveItem i item isTransaction hasMeta =>
    MayApply txID ms i (.addGiveItem item isTransaction hasMeta)
  | .updateGiveItem i item isTransaction hasMeta =>
    MayApply txID ms i (.updateGiveItem item isTransaction hasMeta)
  | .delItem i id => MayApply txID ms i (.delItem id)
  | _ => True

instance (txID : Blob → Tag) (ms : List PlainMap) (i : ℕ) (op : MapOp) :
    Decidable (MayApply txID ms i op) :=
  inferInstanceAs (Decidable (∀ m ∈ ms[i]?, m.state ≠ .immutable ∧ Named txID (op.apply m.tree).2))

instance (txID : Blob → Tag) (ms : List PlainMap) : (call : MapCall) → Decidable (Allowed txID ms call)
  | .snapShot i _ => inferInstanceAs (Decidable (∀ m ∈ ms[i]?, m.seq + 1 < 2 ^ 32))
  | .addGiveItem i item isTransaction hasMeta =>
    inferInstanceAs (Decidable (MayApply txID ms i (.addGiveItem item isTransaction hasMeta)))
  | .updateGiveItem i item isTransaction hasMeta =>
    inferInstanceAs (Decidable (MayApply txID ms i (.updateGiveItem item isTransaction hasMeta)))
  | .delItem i id => inferInstanceAs (Decidable (MayApply txID ms i (.delItem id)))
  | .new _ | .setImmutable _ | .setUnbacked _ | .getHash _ | .flushDirty _ | .sweep _ => .isTrue trivial

end PlainMap

/-! ### The maps that share nodes -/

variable {txID : Blob → Tag} {T T' : Makers} {f f' : Family} {w : Maps} {ms : List PlainMap}
  {m m' : SharedMap} {a a' : PlainMap} {i j : ℕ} {p : NodePtr} {n : SharedNode} {t : Node}
  {v : Version}

/-- What the makers of nodes are known by. -/
def Maps.makers (maps : List SharedMap) : Makers where
  size := maps.length
  seq i := maps[i]?.elim 0 (·.seq)
  frozen i := ∃ m ∈ maps[i]?, m.state = .immutable

/-- There may be more makers, and more of them that change no more. -/
structure Makers.Le (T T' : Makers) : Prop where
  size : T.size ≤ T'.size
  seq : ∀ i < T.size, T'.seq i = T.seq i
  frozen : ∀ i < T.size, T.frozen i → T'.frozen i

namespace Makers.Le

theorem older (h : T.Le T') (hi : i < T.size) (hp : p.maker < T.size) (hold : Older T i p n) :
    Older T' i p n := by
  unfold Older
  rw [h.seq i hi, h.seq _ hp]
  exact hold

theorem guarded (h : T.Le T') (hp : p.maker < T.size) (hgu : Guarded T i p n) : Guarded T' i p n :=
  hgu.imp_right (Or.imp_right (h.frozen _ hp))

theorem isolated (h : T.Le T') (hi : Isolated T f) : Isolated T' f where
  made p n hp := ⟨(hi.made p n hp).1, (hi.made p n hp).2.trans_le h.size⟩
  seqs p n hp := by
    rw [h.seq _ (hi.made p n hp).2]
    exact hi.seqs p n hp
  below p n b q hp hb := by
    obtain ⟨n', hq, hz, hold⟩ := hi.below p n b q hp hb
    exact ⟨n', hq, hz, h.older (hi.made p n hp).2 (hi.made q n' hq).2 hold⟩
  guarded p n b q n' hp hb hq := h.guarded (hi.made q n' hq).2 (hi.guarded p n b q n' hp hb hq)

theorem seen {s : MapState} (h : T.Le T') (hi : Isolated T s.f) (hs : s.map.id < T.size)
    (hp : Visible T s p) : Visible T' s p := by
  obtain ⟨n, hn, hold, hgu⟩ := hp
  have hm := (hi.made p n hn).2
  exact ⟨n, hn, h.older hs hm hold, h.guarded hm hgu⟩

end Makers.Le

/-- A map stands for a plain one. -/
structure Stands (txID : Blob → Tag) (T : Makers) (f : Family) (i : ℕ) (m : SharedMap)
    (a : PlainMap) : Prop where
  id : m.id = i
  seq : m.seq = a.seq
  pos : m.seq ≠ 0
  state : m.state = a.state
  wellFormed : ∃ v, WellFormed v a.tree
  named : Named txID a.tree
  seen : Visible T ⟨f, m⟩ m.root
  stored : f.Stored ∅ a.tree m.root

/-- Maps that share nodes, and the plain ones they stand for. -/
structure Coherent (txID : Blob → Tag) (w : Maps) (ms : List PlainMap) : Prop where
  isolated : Isolated (Maps.makers w.maps) w.f
  cached : w.f.Cached txID
  length : w.maps.length = ms.length
  stands : ∀ i m a, w.maps[i]? = some m → ms[i]? = some a →
    Stands txID (Maps.makers w.maps) w.f i m a

namespace Coherent

theorem known (h : Coherent txID w ms) (hm : w.maps[i]? = some m) (ha : ms[i]? = some a) :
    Known (Maps.makers w.maps) ⟨w.f, m⟩ := by
  have hs := h.stands i m a hm ha
  have hi := (List.getElem?_eq_some_iff.1 hm).1
  refine ⟨?_, ?_, hs.pos⟩
  · rw [hs.id]
    exact hi
  unfold Maps.makers
  dsimp only
  rw [hs.id, hm]
  rfl

theorem cases (h : Coherent txID w ms) (i : ℕ) :
    w.maps[i]? = none ∧ ms[i]? = none ∨ ∃ m a, w.maps[i]? = some m ∧ ms[i]? = some a := by
  by_cases hi : i < w.maps.length
  · have hi' := hi
    rw [h.length] at hi'
    exact .inr ⟨_, _, getElem?_eq_getElem hi, getElem?_eq_getElem hi'⟩
  have hi' := hi
  rw [h.length] at hi'
  exact .inl ⟨getElem?_eq_none (not_lt.1 hi), getElem?_eq_none (not_lt.1 hi')⟩

end Coherent

theorem getElem?_set {α : Type} {l : List α} {x y : α} (hx : l[i]? = some x) (j : ℕ) :
    (l.set i y)[j]? = if i = j then some y else l[j]? := by
  have hi := (List.getElem?_eq_some_iff.1 hx).1
  rw [List.getElem?_set, if_pos hi]

theorem makers_set {maps : List SharedMap} (hm : maps[i]? = some m) (hs : m'.seq = m.seq)
    (hst : m'.state = m.state) : Maps.makers (maps.set i m') = Maps.makers maps := by
  unfold Maps.makers
  congr 1
  · exact length_set
  · funext j
    rw [getElem?_set hm]
    by_cases hij : i = j
    · subst hij
      rw [if_pos rfl, hm]
      exact hs
    · rw [if_neg hij]
  funext j
  rw [getElem?_set hm]
  by_cases hij : i = j
  · subst hij
    rw [hm]
    simp [hst]
  · rw [if_neg hij]

theorem makers_concat (maps : List SharedMap) (hs : m'.seq = m.seq) (hst : m'.state = m.state) :
    Maps.makers (maps ++ [m']) = Maps.makers (maps ++ [m]) := by
  have hset : (maps ++ [m]).set maps.length m' = maps ++ [m'] := by simp
  rw [← hset]
  exact makers_set getElem?_concat_length hs hst

theorem makers_append (maps : List SharedMap) (m : SharedMap) :
    (Maps.makers maps).Le (Maps.makers (maps ++ [m])) where
  size := by simp [Maps.makers]
  seq i hi := by
    unfold Maps.makers
    dsimp only
    rw [getElem?_append_left hi]
  frozen i hi := by
    unfold Maps.makers
    dsimp only
    rw [getElem?_append_left hi]
    exact id

theorem known_append {s : MapState} (maps : List SharedMap) (hid : s.map.id = maps.length)
    (hp : s.map.seq ≠ 0) : Known (Maps.makers (maps ++ [s.map])) s where
  lt := by simp [Maps.makers, hid]
  seq := by simp [Maps.makers, hid]
  pos := hp

theorem Coherent.replace (h : Coherent txID w ms) (hm : w.maps[i]? = some m) (ha : ms[i]? = some a)
    (hi : Isolated (Maps.makers (w.maps.set i m')) f') (hc : f'.Cached txID)
    (hst : Stands txID (Maps.makers (w.maps.set i m')) f' i m' a')
    (hot : ∀ (j : ℕ) m1 (a1 : PlainMap), j ≠ i → w.maps[j]? = some m1 → ms[j]? = some a1 →
      Visible (Maps.makers (w.maps.set i m')) ⟨f', m1⟩ m1.root ∧ f'.Stored ∅ a1.tree m1.root) :
    Coherent txID ⟨f', w.maps.set i m'⟩ (ms.set i a') where
  isolated := hi
  cached := hc
  length := by
    rw [length_set, length_set]
    exact h.length
  stands j m1 a1 hm1 ha1 := by
    rw [getElem?_set hm] at hm1
    rw [getElem?_set ha] at ha1
    by_cases hij : i = j
    · subst hij
      rw [if_pos rfl] at hm1 ha1
      cases hm1
      cases ha1
      exact hst
    rw [if_neg hij] at hm1 ha1
    obtain ⟨hse, hs⟩ := hot j m1 a1 (Ne.symm hij) hm1 ha1
    exact { h.stands j m1 a1 hm1 ha1 with seen := hse, stored := hs }

theorem Coherent.append (h : Coherent txID w ms)
    (hi : Isolated (Maps.makers (w.maps ++ [m'])) f') (hc : f'.Cached txID)
    (hst : Stands txID (Maps.makers (w.maps ++ [m'])) f' w.maps.length m' a')
    (hot : ∀ (j : ℕ) m1 (a1 : PlainMap), w.maps[j]? = some m1 → ms[j]? = some a1 →
      Visible (Maps.makers (w.maps ++ [m'])) ⟨f', m1⟩ m1.root ∧ f'.Stored ∅ a1.tree m1.root) :
    Coherent txID ⟨f', w.maps ++ [m']⟩ (ms ++ [a']) where
  isolated := hi
  cached := hc
  length := by
    rw [length_append, length_append]
    exact congrArg (· + 1) h.length
  stands j m1 a1 hm1 ha1 := by
    by_cases hj : j < w.maps.length
    · rw [getElem?_append_left hj] at hm1
      rw [h.length] at hj
      rw [getElem?_append_left hj] at ha1
      obtain ⟨hse, hs⟩ := hot j m1 a1 hm1 ha1
      exact { h.stands j m1 a1 hm1 ha1 with seen := hse, stored := hs }
    obtain rfl : j = w.maps.length := by
      have := (List.getElem?_eq_some_iff.1 hm1).1
      rw [length_append, length_singleton] at this
      omega
    have hla : (ms ++ [a'])[w.maps.length]? = some a' := by
      rw [h.length, getElem?_concat_length]
    rw [getElem?_concat_length] at hm1
    cases hm1
    cases hla.symm.trans ha1
    exact hst

/-! ### Calls -/

/-- A call keeps coherence and answers as the plain maps do. -/
def Agree (txID : Blob → Tag) (r : Maps × MapResult) (r' : List PlainMap × MapResult) : Prop :=
  Coherent txID r.1 r'.1 ∧ r.2 = r'.2

namespace Coherent
section
variable (h : Coherent txID w ms)
include h

theorem onMap (i : ℕ) {op : MapState → MapState × MapResult} {op' : PlainMap → PlainMap × MapResult}
    (hop : ∀ m a, w.maps[i]? = some m → ms[i]? = some a →
      Coherent txID ⟨(op ⟨w.f, m⟩).1.f, w.maps.set i (op ⟨w.f, m⟩).1.map⟩ (ms.set i (op' a).1) ∧
        (op ⟨w.f, m⟩).2 = (op' a).2) : Agree txID (w.onMap i op) (PlainMap.onMap ms i op') := by
  unfold Maps.onMap PlainMap.onMap Maps.state
  obtain ⟨hm, ha⟩ | ⟨m, a, hm, ha⟩ := h.cases i
  · rw [hm, ha]
    exact ⟨h, rfl⟩
  · rw [hm, ha]
    exact hop m a hm ha

theorem write {s' : MapState} (hm : w.maps[i]? = some m)
    (ha : ms[i]? = some a) (hmut : a.state ≠ .immutable)
    (hdo : Done (Maps.makers w.maps) ⟨w.f, m⟩ t s') (hwf : ∃ v, WellFormed v t)
    (hna : Named txID t) :
    Coherent txID ⟨s'.f, w.maps.set i s'.map⟩ (ms.set i { a with tree := t }) := by
  have hs := h.stands i m a hm ha
  have hk := h.known hm ha
  have hw := hdo.writes
  have hfr : ¬ (Maps.makers w.maps).frozen m.id := by
    rintro ⟨m1, hm1, hst⟩
    rw [hs.id, hm] at hm1
    cases hm1
    exact hmut (hs.state.symm.trans hst)
  have hT : Maps.makers (w.maps.set i s'.map) = Maps.makers w.maps := by
    refine makers_set hm hw.seq_eq ?_
    rw [hw.map]
  refine h.replace hm ha (hT ▸ hdo.isolated) (fun hash p hp => ?_) ?_ ?_
  · rw [hw.cache] at hp
    obtain ⟨t', ht', hha, hso, n, hn, hz⟩ := h.cached hash p hp
    refine ⟨t', hw.stored_shared h.isolated.toOrderly hk ht' ⟨n, hn, hz⟩, hha, hso, n, ?_, hz⟩
    exact hw.kept p n hn fun ho => hk.pos (ho.2.symm.trans hz)
  · rw [hT]
    exact ⟨hw.id_eq.trans hs.id, hw.seq_eq.trans hs.seq, hw.seq_eq ▸ hs.pos,
      by rw [hw.map]; exact hs.state, hwf, hna, hdo.seen, hdo.stored⟩
  intro j m1 a1 hj hm1 ha1
  have hs1 := h.stands j m1 a1 hm1 ha1
  obtain ⟨n, hn, hold, hgu⟩ := hs1.seen
  have hne : m1.id ≠ m.id := by
    rw [hs1.id, hs.id]
    exact hj
  have hke := hw.kept _ n hn (Writes.not_own hk hfr hne hgu)
  rw [hT]
  exact ⟨⟨n, hke, hold, hgu⟩, hw.stored h.isolated hk hfr hne hs1.stored ⟨n, hn, hgu⟩⟩

theorem mayApply {op : MapOp} (hop : PlainMap.MayApply txID ms i op)
    {run : MapState → MapState × Bool}
    (hr : ∀ m a, w.maps[i]? = some m → ms[i]? = some a →
      Agrees (Maps.makers w.maps) ⟨w.f, m⟩ (run ⟨w.f, m⟩) (op.apply a.tree)) :
    Agree txID (w.onMap i fun s => (run s).map id .bool) (PlainMap.onMap ms i (·.apply op)) := by
  refine h.onMap i fun m a hm ha => ?_
  obtain ⟨hmut, hna⟩ := hop a ha
  obtain ⟨v, hwf⟩ := (h.stands i m a hm ha).wellFormed
  obtain ⟨hd, hres⟩ := hr m a hm ha
  exact ⟨h.write hm ha hmut hd ⟨v, hwf.apply op⟩ hna, congrArg MapResult.bool hres⟩

theorem quiet {s' : MapState} (hm : w.maps[i]? = some m)
    (ha : ms[i]? = some a) (hqu : Quiet txID (Maps.makers w.maps) ⟨w.f, m⟩ a.tree s') :
    Coherent txID ⟨s'.f, w.maps.set i s'.map⟩ (ms.set i a) := by
  have hs := h.stands i m a hm ha
  have hset := hqu.settles
  have hT : Maps.makers (w.maps.set i s'.map) = Maps.makers w.maps := by
    refine makers_set hm hset.seq_eq ?_
    rw [hset.map]
  refine h.replace hm ha (hT ▸ hqu.isolated) hqu.cached ?_ ?_
  · rw [hT]
    exact ⟨hset.id_eq.trans hs.id, hset.seq_eq.trans hs.seq, hset.seq_eq ▸ hs.pos,
      by rw [hset.map]; exact hs.state, hs.wellFormed, hs.named, hqu.seen, hqu.stored⟩
  intro j m1 a1 _ hm1 ha1
  have hs1 := h.stands j m1 a1 hm1 ha1
  rw [hT]
  exact ⟨hset.guarded hs1.seen, hset.stored _ _ hs1.stored⟩

theorem setImmutable (hm : w.maps[i]? = some m) (ha : ms[i]? = some a) :
    Coherent txID ⟨w.f, w.maps.set i { m with state := .immutable }⟩
      (ms.set i { a with state := .immutable }) := by
  have hle : (Maps.makers w.maps).Le (Maps.makers (w.maps.set i { m with state := .immutable })) := by
    refine ⟨(length_set ..).ge, fun j _ => ?_, fun j _ => ?_⟩
    · unfold Maps.makers
      dsimp only
      rw [getElem?_set hm]
      by_cases hij : i = j
      · subst hij
        rw [if_pos rfl, hm]
        rfl
      · rw [if_neg hij]
    rintro ⟨m1, hm1, hst⟩
    unfold Maps.makers
    dsimp only
    rw [getElem?_set hm]
    by_cases hij : i = j
    · exact ⟨_, by rw [if_pos hij]; rfl, rfl⟩
    · exact ⟨m1, by rwa [if_neg hij], hst⟩
  have hse (j m1 a1) (hm1 : w.maps[j]? = some m1) (ha1 : ms[j]? = some a1) :=
    hle.seen h.isolated (h.known hm1 ha1).lt (h.stands j m1 a1 hm1 ha1).seen
  refine h.replace hm ha (hle.isolated h.isolated) h.cached ?_ fun j m1 a1 _ hm1 ha1 => ?_
  · have hs := h.stands i m a hm ha
    exact ⟨hs.id, hs.seq, hs.pos, rfl, hs.wellFormed, hs.named, hse i m a hm ha, hs.stored⟩
  · exact ⟨hse j m1 a1 hm1 ha1, (h.stands j m1 a1 hm1 ha1).stored⟩

theorem setUnbacked (hm : w.maps[i]? = some m) (ha : ms[i]? = some a) :
    Coherent txID ⟨w.f, w.maps.set i { m with backed := false }⟩ (ms.set i a) := by
  have hT : Maps.makers (w.maps.set i { m with backed := false }) = Maps.makers w.maps :=
    makers_set hm rfl rfl
  refine h.replace hm ha (hT ▸ h.isolated) h.cached ?_ fun j m1 a1 _ hm1 ha1 => ?_
  · have hs := h.stands i m a hm ha
    rw [hT]
    exact ⟨hs.id, hs.seq, hs.pos, hs.state, hs.wellFormed, hs.named, hs.seen, hs.stored⟩
  have hs := h.stands j m1 a1 hm1 ha1
  rw [hT]
  exact ⟨hs.seen, hs.stored⟩

theorem sweep (keep : NodeHash → Bool) : Coherent txID (w.sweep keep) ms where
  isolated := ⟨⟨h.isolated.made, h.isolated.seqs, h.isolated.below⟩, h.isolated.guarded⟩
  cached hash p hp := by
    change (if keep hash then w.f.treecache hash else none) = some p at hp
    split at hp
    · exact h.cached hash p hp
    · cases hp
  length := h.length
  stands i m a hm ha := { h.stands i m a hm ha with }

theorem newMap (version : Version) :
    Coherent txID (w.new version) (ms ++ [{ tree := new version }]) := by
  let s : MapState := ⟨w.f, { id := w.maps.length, root := ⟨w.maps.length, w.f.count⟩ }⟩
  let n : SharedNode := .newInner (rootNode (version = .two)) 1
  have hle := makers_append w.maps s.map
  have hk := known_append (s := s) w.maps rfl one_ne_zero
  have hi : Isolated (Maps.makers (w.maps ++ [s.map])) s.f := hle.isolated h.isolated
  have hset := make_settles hi.toOrderly 0 n
  refine h.append (make_isolated hi hk rfl nofun) (hset.cached rfl h.cached) ?_
    fun j m1 a1 hm1 ha1 => ?_
  · refine ⟨rfl, rfl, one_ne_zero, rfl, ⟨version, (Represents.new version).wellFormed⟩, ?_,
      (make_owned s rfl).seen, ?_⟩
    · cases version with
      | one => exact fun _ => trivial
      | two => exact fun _ => trivial
    have hn : new version = Node.empty (rootNode (version = .two)) := by
      cases version with
      | one => rfl
      | two => rfl
    rw [hn]
    exact stored_newInner s _ 1 (Set.notMem_empty _)
  have hs := h.stands j m1 a1 hm1 ha1
  obtain ⟨n1, hn1, hold⟩ := hle.seen h.isolated (h.known hm1 ha1).lt hs.seen
  exact ⟨⟨n1, make_of_some hi.toOrderly n hn1, hold⟩, hset.stored _ _ hs.stored⟩

theorem snapShot (hm : w.maps[i]? = some m) (ha : ms[i]? = some a)
    (hseq : a.seq + 1 < 2 ^ 32) (isMutable : Bool) :
    Coherent txID (w.snapShot i isMutable) (ms ++ [{
      tree := a.tree
      seq := a.seq + 1
      state := if isMutable then .modifying else .immutable }]) := by
  have hs := h.stands i m a hm ha
  obtain ⟨v, hwf⟩ := hs.wellFormed
  obtain ⟨n, hn, hold, hgu⟩ := hs.seen
  have hmlt := (h.known hm ha).lt
  have hms := (h.known hm ha).seq
  have hma := (h.isolated.made _ n hn).2
  let s : MapState := ⟨w.f, {
    id := w.maps.length
    seq := (m.seq + 1) % 2 ^ 32
    state := if isMutable then .modifying else .immutable
    root := m.root
    backed := m.backed }⟩
  have hsn : w.snapShot i isMutable =
      ⟨(if m.state ≠ .immutable ∨ !isMutable then s.unshare else s).f,
        w.maps ++ [(if m.state ≠ .immutable ∨ !isMutable then s.unshare else s).map]⟩ := by
    unfold Maps.snapShot
    rw [hm]
  have hss : s.map.seq = m.seq + 1 := by
    change (m.seq + 1) % 2 ^ 32 = m.seq + 1
    rw [hs.seq]
    exact Nat.mod_eq_of_lt hseq
  have hp : s.map.seq ≠ 0 := by
    rw [hss]
    exact Nat.succ_ne_zero _
  have hle := makers_append w.maps s.map
  have hk := known_append w.maps rfl hp
  have hi := hle.isolated h.isolated
  -- The root is not newer than the map it comes from, which is older than the snapshot.
  have hnew : (Maps.makers (w.maps ++ [s.map])).seq m.id <
      (Maps.makers (w.maps ++ [s.map])).seq s.map.id := by
    rw [hle.seq _ hmlt, hms, hk.seq, hss]
    exact Nat.lt_succ_self _
  have hold' : Older (Maps.makers (w.maps ++ [s.map])) s.map.id m.root n := by
    obtain hz | heq | hlt := hle.older hmlt hma hold
    · exact .inl hz
    · exact .inr (.inr (by rw [heq]; exact hnew))
    · exact .inr (.inr (hlt.trans hnew))
  have hot (j m1 a1) (hm1 : w.maps[j]? = some m1) (ha1 : ms[j]? = some a1) :=
    hle.seen h.isolated (h.known hm1 ha1).lt (h.stands j m1 a1 hm1 ha1).seen
  rw [hsn]
  by_cases hsh : m.state ≠ .immutable ∨ (!isMutable) = true
  · rw [if_pos hsh]
    have hset := walkSubTree_spec hwf hs.named hi.toOrderly h.cached hk hn hold' hs.stored false
    have hqu := hset.quiet hi
    have hT : Maps.makers (w.maps ++ [s.unshare.map]) = Maps.makers (w.maps ++ [s.map]) := by
      refine makers_concat _ hset.settles.seq_eq ?_
      change (s.walkSubTree false).map.state = s.map.state
      rw [hset.settles.map]
    refine h.append (hT ▸ hqu.isolated) hset.cached ?_ fun j m1 a1 hm1 ha1 => ?_
    · rw [hT]
      refine ⟨hset.settles.id_eq, hset.settles.seq_eq.trans (hss.trans (by rw [hs.seq])),
        hset.settles.seq_eq ▸ hp, ?_, hs.wellFormed, hs.named, hqu.seen, hqu.stored⟩
      change (s.walkSubTree false).map.state = _
      rw [hset.settles.map]
    rw [hT]
    exact ⟨hset.settles.guarded (hot j m1 a1 hm1 ha1),
      hset.settles.stored _ _ (h.stands j m1 a1 hm1 ha1).stored⟩
  rw [if_neg hsh]
  obtain ⟨himm, -⟩ := not_or.1 hsh
  -- The nodes that are not shared come from maps that change no more.
  have hgu' : Guarded (Maps.makers (w.maps ++ [s.map])) s.map.id m.root n := by
    obtain hz | heq | hf := hle.guarded hma hgu
    · exact .inl hz
    · refine .inr (.inr (hle.frozen _ hma ⟨m, ?_, not_not.1 himm⟩))
      rw [heq, hs.id, hm]
      rfl
    · exact .inr (.inr hf)
  refine h.append hi h.cached ?_ fun j m1 a1 hm1 ha1 => ?_
  · exact ⟨rfl, hss.trans (by rw [hs.seq]), hp, rfl, hs.wellFormed, hs.named,
      ⟨n, hn, hold', hgu'⟩, hs.stored⟩
  · exact ⟨hot j m1 a1 hm1 ha1, (h.stands j m1 a1 hm1 ha1).stored⟩

theorem step {call : MapCall} (hca : PlainMap.Allowed txID ms call) :
    Agree txID (w.step call) (PlainMap.step ms call) := by
  have hst {i : ℕ} {m : SharedMap} {a : PlainMap} (hm : w.maps[i]? = some m)
      (ha : ms[i]? = some a) := h.stands i m a hm ha
  cases call with
  | new version => exact ⟨h.newMap version, rfl⟩
  | snapShot i isMutable =>
    obtain ⟨hm, ha⟩ | ⟨m, a, hm, ha⟩ := h.cases i
    · unfold Maps.step PlainMap.step Maps.snapShot
      dsimp only
      rw [hm, ha]
      exact ⟨h, rfl⟩
    unfold Maps.step PlainMap.step
    dsimp only
    rw [ha]
    exact ⟨h.snapShot hm ha (hca a ha) isMutable, rfl⟩
  | setImmutable i => exact h.onMap i fun m a hm ha => ⟨h.setImmutable hm ha, rfl⟩
  | setUnbacked i => exact h.onMap i fun m a hm ha => ⟨h.setUnbacked hm ha, rfl⟩
  | addGiveItem i item isTransaction hasMeta =>
    refine h.mayApply hca fun m a hm ha => ?_
    obtain ⟨v, hwf⟩ := (hst hm ha).wellFormed
    exact addGiveItem_spec hwf h.isolated (h.known hm ha) (hst hm ha).seen
      (hst hm ha).stored item isTransaction hasMeta
  | updateGiveItem i item isTransaction hasMeta =>
    refine h.mayApply hca fun m a hm ha => ?_
    obtain ⟨v, hwf⟩ := (hst hm ha).wellFormed
    exact updateGiveItem_spec hwf h.isolated (h.known hm ha) (hst hm ha).seen
      (hst hm ha).stored item isTransaction hasMeta
  | delItem i id =>
    refine h.mayApply hca fun m a hm ha => ?_
    obtain ⟨v, hwf⟩ := (hst hm ha).wellFormed
    exact delItem_spec hwf h.isolated (h.known hm ha) (hst hm ha).seen (hst hm ha).stored id
  | getHash i =>
    refine h.onMap i fun m a hm ha => ?_
    obtain ⟨v, hwf⟩ := (hst hm ha).wellFormed
    obtain ⟨hqu, hha⟩ := getHash_spec hwf (hst hm ha).named h.isolated h.cached
      (h.known hm ha) (hst hm ha).seen (hst hm ha).stored
    exact ⟨h.quiet hm ha hqu, congrArg MapResult.hash hha⟩
  | flushDirty i =>
    refine h.onMap i fun m a hm ha => ?_
    obtain ⟨v, hwf⟩ := (hst hm ha).wellFormed
    have hqu := flushDirty_spec hwf (hst hm ha).named h.isolated h.cached (h.known hm ha)
      (hst hm ha).seen (hst hm ha).stored
    exact ⟨h.quiet hm ha hqu, rfl⟩
  | sweep keep => exact ⟨h.sweep keep, rfl⟩

end

theorem empty (txID : Blob → Tag) : Coherent txID {} [] where
  isolated := ⟨⟨nofun, nofun, nofun⟩, nofun⟩
  cached := nofun
  length := rfl
  stands := nofun

theorem observe (h : Coherent txID w ms) (i : ℕ) :
    (∀ id, w.peekItem i id = ms[i]?.bind fun a => peekItem a.tree id) ∧
      w.getHash i = ms[i]?.map fun a => SHAMap.getHash a.tree := by
  unfold Maps.peekItem Maps.getHash Maps.state
  obtain ⟨hm, ha⟩ | ⟨m, a, hm, ha⟩ := h.cases i
  · rw [hm, ha]
    exact ⟨fun _ => rfl, rfl⟩
  rw [hm, ha]
  have hs := h.stands i m a hm ha
  obtain ⟨v, hwf⟩ := hs.wellFormed
  refine ⟨fun id => peekItem_spec hwf hs.stored id, congrArg some ?_⟩
  exact (getHash_spec hwf hs.named h.isolated h.cached (h.known hm ha) hs.seen hs.stored).2

end Coherent

/-! ### Runs -/

/-- The results of calls one after the other, and the state they leave. -/
def runCalls {σ : Type} (step : σ → MapCall → σ × MapResult) : σ → List MapCall → σ × List MapResult
  | s, [] => (s, [])
  | s, call :: calls =>
    let r := runCalls step (step s call).1 calls
    (r.1, (step s call).2 :: r.2)

theorem Coherent.run {calls : List MapCall} (h : Coherent txID w ms)
    (hca : EachStep (fun ms call => (PlainMap.step ms call).1) (PlainMap.Allowed txID) ms calls) :
    Coherent txID (runCalls Maps.step w calls).1 (runCalls PlainMap.step ms calls).1 ∧
      (runCalls Maps.step w calls).2 = (runCalls PlainMap.step ms calls).2 := by
  induction calls generalizing w ms with
  | nil => exact ⟨h, rfl⟩
  | cons call calls ih =>
    obtain ⟨hc, hr⟩ := hca
    obtain ⟨hs, hres⟩ := h.step hc
    obtain ⟨hrun, hre⟩ := ih hs hr
    exact ⟨hrun, congrArg₂ cons hres hre⟩

/-- Maps that share nodes answer every call, and show items and hashes at every map, as maps with a
tree each do, where a call changes no tree but that of its own map. -/
theorem snapshot_isolation (txID : Blob → Tag) {calls : List MapCall}
    (hcalls : EachStep (fun ms call => (PlainMap.step ms call).1) (PlainMap.Allowed txID) [] calls) :
    let w := runCalls Maps.step {} calls
    let ms := runCalls PlainMap.step [] calls
    w.2 = ms.2 ∧ ∀ i, (∀ id, w.1.peekItem i id = ms.1[i]?.bind fun m => SHAMap.peekItem m.tree id) ∧
      w.1.getHash i = ms.1[i]?.map fun m => SHAMap.getHash m.tree := by
  intro w ms
  obtain ⟨hr, hre⟩ := (Coherent.empty txID).run hcalls
  exact ⟨hre, hr.observe⟩

namespace Chained

def item : SHAMapItem := ⟨.replicate 32 7, [1, 2, 3]⟩

/-- A map with an item, a snapshot that may change and one that may not. -/
def calls : List MapCall :=
  [.new .one, .addGiveItem 0 item false false, .snapShot 0 true, .snapShot 1 false,
    .updateGiveItem 1 { item with data := [4] } false false, .flushDirty 1, .delItem 0 item.key,
    .getHash 2]

/-- Three maps that share nodes. -/
theorem snapshot_isolation_sample :
    let w := runCalls Maps.step {} calls
    let ms := runCalls PlainMap.step [] calls
    w.2 = ms.2 ∧ ∀ i, (∀ id, w.1.peekItem i id = ms.1[i]?.bind fun m => SHAMap.peekItem m.tree id) ∧
      w.1.getHash i = ms.1[i]?.map fun m => SHAMap.getHash m.tree :=
  snapshot_isolation (fun _ => .replicate 32 0) (by decide +kernel)

/-! ### The end of the sequence numbers -/

/-- A map, and a snapshot of the last map over and over. -/
def chain (n : ℕ) : List MapCall := .new .one :: (List.range n).map (.snapShot · true)

/-- The nodes after the first snapshot: a root that is the map's own, and a shared one. -/
def family : Family := ((({} : Family).make 0 (.newInner .v1 1)).1.make 1 (.newInner .v1 0)).1

def map (k : ℕ) : SharedMap where
  id := k
  seq := (k + 1) % 2 ^ 32
  root := if k = 0 then ⟨0, 0⟩ else ⟨1, 1⟩

theorem runCalls_concat {σ : Type} (step : σ → MapCall → σ × MapResult) (s : σ)
    (calls : List MapCall) (call : MapCall) :
    (runCalls step s (calls ++ [call])).1 = (step (runCalls step s calls).1 call).1 := by
  induction calls generalizing s with
  | nil => rfl
  | cons c calls ih => exact ih _

theorem unshare_eq {m : SharedMap} (hr : m.root = ⟨1, 1⟩) : unshare ⟨family, m⟩ = ⟨family, m⟩ := by
  have hn : family.node m.root = some (.newInner .v1 0) := by
    rw [hr]
    rfl
  unfold unshare walkSubTree
  rw [hn]
  rfl

theorem snapShot_eq {maps : List SharedMap} {n : ℕ} (hle : maps.length = n + 2)
    (hg : maps[n + 1]? = some (map (n + 1))) :
    Maps.snapShot ⟨family, maps⟩ (n + 1) true = ⟨family, maps ++ [map (n + 2)]⟩ := by
  have hs : ((map (n + 1)).seq + 1) % 2 ^ 32 = (map (n + 2)).seq := by simp [map]
  unfold Maps.snapShot
  rw [hg]
  dsimp only
  rw [unshare_eq rfl, hle, hs]
  rfl

theorem run_chain (n : ℕ) :
    (runCalls Maps.step {} (chain (n + 1))).1 = ⟨family, (range (n + 2)).map map⟩ := by
  induction n with
  | zero => rfl
  | succ n ih =>
    have hch : chain (n + 2) = chain (n + 1) ++ [.snapShot (n + 1) true] := by
      simp [chain, range_succ]
    rw [hch, runCalls_concat, ih, range_succ (n := n + 2), map_append]
    exact snapShot_eq (by simp) (by simp)

theorem peekItem_chain (n : ℕ) : (runCalls Maps.step {} (chain (n + 2))).1.peekItem 1 item.key =
        peekItem ⟨family, map 1⟩ item.key ∧
      (runCalls Maps.step {} (chain (n + 2) ++ [.addGiveItem (n + 2) item false false])).1.peekItem 1
          item.key =
        peekItem ⟨(addGiveItem ⟨family, map (n + 2)⟩ item false false).1.f, map 1⟩ item.key := by
  have hg (k : ℕ) (hk : k < n + 3) : ((range (n + 3)).map map)[k]? = some (map k) := by
    rw [getElem?_map, getElem?_range hk]
    rfl
  rw [runCalls_concat, run_chain (n + 1)]
  unfold Maps.step Maps.onMap Maps.peekItem Maps.state
  dsimp only
  rw [hg (n + 2) (by omega)]
  dsimp only [Option.map_some]
  rw [getElem?_set_ne (by omega), hg 1 (by omega)]
  exact ⟨rfl, rfl⟩

def last : ℕ := 2 ^ 32 - 3

/-- A snapshot whose sequence number has come back to zero takes shared nodes for its own: an item
added to it is then seen through the first snapshot of the chain. -/
theorem wrapped_snapshot_not_isolated :
    (runCalls Maps.step {} (chain (last + 2))).1.peekItem 1 item.key = none ∧
      (runCalls Maps.step {} (chain (last + 2) ++ [.addGiveItem (last + 2) item false false])).1.peekItem
        1 item.key = some item := by
  obtain ⟨hbe, haf⟩ := peekItem_chain last
  rw [hbe, haf]
  constructor
  · decide +kernel
  · decide +kernel

end Chained
end FinPal
