import FinPal.Ledger.ReadView
import Mathlib.Data.ZMod.Defs

/-!
# Tables over views
-/

namespace FinPal.Ordered
open Ordered.ApplyStateTable
open Std (TreeMap)
variable {K T V A : Type} [LinearOrder K]

/-! ## The map a view shows -/

/-- A map through a table of items. -/
def overlay (isErase : A → Bool) (items : TreeMap K (Item A V)) (m : K → Option V) (k : K) :
    Option V :=
  match items[k]? with
  | none => m k
  | some item => if isErase item.action then none else some item.sle

/-- The map that a stack of views shows. -/
def View.map : View K V → K → Option V
  | .ledger stateMap, k => stateMap[k]?
  | .openView base items, k => overlay (decide <| · = .erase) items base.map k
  | .applyView base items, k => overlay (decide <| · = .erase) items base.map k

/-- The entry under the key, if there is one, has the type of the keylet. -/
def Keylet.Matches [DecidableEq T] [HasType V T] (k : Keylet K T) (m : K → Option V) : Prop :=
  ∀ sle, m k.key = some sle → k.check sle = true

/-- The answers of a view are those of a map. The zero key is not read, and a keylet of another type
is not asked about. -/
structure ReadView.Shows [Zero K] [DecidableEq T] [HasType V T] (view : ReadView K T V)
    (m : K → Option V) : Prop where
  read : ∀ k : Keylet K T, k.key ≠ 0 → view.read k = (m k.key).filter k.check
  read_some : ∀ (k : Keylet K T) (sle : V), view.read k = some sle → m k.key = some sle
  existsAt : ∀ k : Keylet K T, k.Matches m → view.existsAt k = (m k.key).isSome
  succ : ∀ key last, IsSucc (fun x => (m x).isSome = true) key last (view.succ key last)

variable {base : ReadView K T V}

section Succ
variable {isErase : A → Bool} {items : TreeMap K (Item A V)} {m : K → Option V}

theorem isSome_overlay (x : K) : (overlay isErase items m x).isSome = true ↔
    ((m x).isSome = true ∧ items[x]?.any (isErase ·.action) = false) ∨
      ∃ item, items[x]? = some item ∧ isErase item.action = false := by
  unfold overlay
  cases items[x]? with
  | none => simp
  | some item => cases h : isErase item.action <;> simp [h]

theorem isSucc_succOver {last : Option K}
    (hs : ∀ key, IsSucc (fun x => (m x).isSome = true) key last (base.succ key last)) (key : K) :
    IsSucc (fun x => (overlay isErase items m x).isSome = true) key last
      (succOver isErase items base key last) := by
  have hro : (items.keys.toFinset.filter (key < ·)).card < items.size + 1 := by
    have h1 := Finset.card_filter_le items.keys.toFinset (key < ·)
    have h2 := items.keys.toFinset_card_le
    rw [TreeMap.length_keys] at h2
    omega
  have hhi (x : K) (hx : items[x]?.any (isErase ·.action) = true) : x ∈ items.keys.toFinset := by
    rw [List.mem_toFinset, TreeMap.mem_keys, TreeMap.mem_iff_isSome_getElem?]
    cases h : items[x]? with
    | none => rw [h] at hx; cases hx
    | some _ => rfl
  have hb := isSucc_skipHidden hs hhi hro
  have ho := isSucc_find? items (fun e => !isErase e.2.action) key
  refine hb.lower ho fun x => ?_
  simp [isSome_overlay]

end Succ

variable {items : Items K V}

section Shows
variable [Zero K] [DecidableEq T] [HasType V T]

theorem Ledger.shows (stateMap : TreeMap K V) :
    (Ledger.readView stateMap : ReadView K T V).Shows fun k => stateMap[k]? where
  read k hk := if_neg hk
  read_some k sle h := by
    change Ledger.read stateMap k = some sle at h
    rw [Ledger.read] at h
    split at h
    · cases h
    · exact (Option.filter_eq_some_iff.1 h).1
  existsAt k _ := TreeMap.contains_eq_isSome_getElem?
  succ key last := by
    change IsSucc _ key last (Ledger.succ stateMap key last)
    rw [Ledger.succ]
    cases hh : (upperBound stateMap key).head? with
    | none =>
      intro x hx hlt
      obtain ⟨v, hv⟩ := Option.isSome_iff_exists.1 hx
      have hm : (x, v) ∈ upperBound stateMap key := mem_upperBound.2 ⟨hv, hlt⟩
      rw [List.head?_eq_none_iff.1 hh] at hm
      cases hm
    | some item =>
      obtain ⟨_, hre⟩ := List.head?_eq_some_iff.1 hh
      have ha := ascending_upperBound stateMap key
      rw [hre] at ha
      obtain ⟨hv, hlt⟩ := mem_upperBound.1 (hre ▸ List.mem_cons_self : item ∈ _)
      have hmin (x : K) (hx : stateMap[x]?.isSome = true) (hkx : key < x) : item.1 ≤ x := by
        obtain ⟨v, hv⟩ := Option.isSome_iff_exists.1 hx
        have hm : (x, v) ∈ upperBound stateMap key := mem_upperBound.2 ⟨hv, hkx⟩
        rw [hre] at hm
        rcases List.mem_cons.1 hm with heq | hm
        · rw [← heq]
        · exact ((List.pairwise_cons.1 ha).1 _ hm).le
      have hli : stateMap[item.1]?.isSome = true := by rw [hv]; rfl
      dsimp only
      cases last with
      | none => exact ⟨hli, hlt, hmin, fun l hl => by cases hl⟩
      | some l =>
        by_cases hle : l ≤ item.1
        · rw [if_pos (by simpa using hle)]
          exact fun x hx hkx => ⟨l, rfl, hle.trans (hmin x hx hkx)⟩
        rw [if_neg (by simpa using hle)]
        refine ⟨hli, hlt, hmin, fun l' hl' => ?_⟩
        cases hl'
        exact not_le.1 hle

variable {m : K → Option V}

theorem shows_overlay {isErase : A → Bool} {items : TreeMap K (Item A V)} {view : ReadView K T V}
    (h : base.Shows m) (hno : ∀ k, items[k.key]? = none →
      view.read k = base.read k ∧ view.existsAt k = base.existsAt k)
    (hso : ∀ k item, items[k.key]? = some item →
      view.read k = (if isErase item.action then none else some item.sle).filter k.check ∧
        view.existsAt k = (!isErase item.action && k.check item.sle))
    (hsu : view.succ = succOver isErase items base) :
    view.Shows (overlay isErase items m) where
  read k hk := by
    rw [overlay]
    cases hi : items[k.key]? with
    | none => exact (hno k hi).1.trans (h.read k hk)
    | some item => exact (hso k item hi).1
  read_some k sle hr := by
    rw [overlay]
    cases hi : items[k.key]? with
    | none => exact h.read_some k sle ((hno k hi).1.symm.trans hr)
    | some item =>
      rw [(hso k item hi).1] at hr
      exact (Option.filter_eq_some_iff.1 hr).1
  existsAt k hk := by
    rw [Keylet.Matches, overlay] at hk
    rw [overlay]
    cases hi : items[k.key]? with
    | none =>
      rw [hi] at hk
      exact (hno k hi).2.trans (h.existsAt k hk)
    | some item =>
      rw [hi] at hk
      rw [(hso k item hi).2]
      cases ha : isErase item.action with
      | true => simp [ha]
      | false => simpa [ha] using hk
  succ key last := by
    rw [hsu]
    exact isSucc_succOver (fun key => h.succ key last) key

theorem RawStateTable.shows (h : base.Shows m) :
    (readView items base).Shows (overlay (decide <| · = .erase) items m) := by
  refine shows_overlay h (fun k hi => ?_) (fun k item hi => ?_) rfl
  · simp [readView, read, existsAt, hi]
  · rcases item with ⟨_ | _ | _, _⟩ <;> simp [readView, read, existsAt, hi, Option.filter]

theorem ApplyStateTable.shows (h : base.Shows m) :
    (readView items base).Shows (overlay (decide <| · = .erase) items m) := by
  refine shows_overlay h (fun k hi => ?_) (fun k item hi => ?_) rfl
  · simp [readView, read, existsAt, hi]
  · rcases item with ⟨_ | _ | _ | _, _⟩ <;> simp [readView, read, existsAt, hi, Option.filter]

theorem View.shows (view : View K V) : (view.readView : ReadView K T V).Shows view.map := by
  induction view with
  | ledger stateMap => exact Ledger.shows stateMap
  | openView base items ih => exact RawStateTable.shows ih
  | applyView base items ih => exact ApplyStateTable.shows ih

theorem ReadView.Shows.agree {view view' : ReadView K T V} (h : view.Shows m) (h' : view'.Shows m) :
    (∀ k, k.key ≠ 0 → view.read k = view'.read k) ∧
      (∀ k, k.Matches m → view.existsAt k = view'.existsAt k) ∧
      ∀ key last, view.succ key last = view'.succ key last :=
  ⟨fun k hk => (h.read k hk).trans (h'.read k hk).symm,
    fun k hk => (h.existsAt k hk).trans (h'.existsAt k hk).symm,
    fun key last => (h.succ key last).unique (h'.succ key last)⟩

end Shows

/-! ## Writing into a view -/

/-- The table holds `o` under the key, and its other items as before. -/
def Puts (items items' : TreeMap K (Item A V)) (key : K) (o : Option (Item A V)) : Prop :=
  ∀ j, items'[j]? = if j = key then o else items[j]?

theorem puts_insert {items : TreeMap K (Item A V)} {key : K} {item : Item A V} :
    Puts items (items.insert key item) key (some item) := fun j => getElem?_insert_eq items key j item

theorem puts_erase {items : TreeMap K (Item A V)} {key : K} :
    Puts items (items.erase key) key none := fun j => getElem?_erase_eq items key j

namespace RawStateTable
variable {items items' : Items K V} {key : K} {sle : V}

theorem erase_ok (h : erase items key sle = .ok items') :
    Puts items items' key (some ⟨.erase, sle⟩) ∨
      (∃ old, items[key]? = some ⟨.insert, old⟩) ∧ Puts items items' key none := by
  unfold erase at h
  split at h
  · exact .inl (Except.ok.inj h ▸ puts_insert)
  · cases h
  · next hi => exact .inr ⟨⟨_, hi⟩, Except.ok.inj h ▸ puts_erase⟩
  · exact .inl (Except.ok.inj h ▸ puts_insert)

theorem insert_ok (h : insert items key sle = .ok items') :
    ∃ a, a ≠ .erase ∧ (items[key]? = none ∨ a = .replace) ∧
      Puts items items' key (some ⟨a, sle⟩) := by
  unfold insert at h
  split at h
  · next hi => exact ⟨.insert, by decide, .inl hi, Except.ok.inj h ▸ puts_insert⟩
  · exact ⟨.replace, by decide, .inr rfl, Except.ok.inj h ▸ puts_insert⟩
  · cases h
  · cases h

theorem replace_ok (h : replace items key sle = .ok items') :
    ∃ a, a ≠ .erase ∧ Puts items items' key (some ⟨a, sle⟩) := by
  unfold replace at h
  split at h
  · exact ⟨.replace, by decide, Except.ok.inj h ▸ puts_insert⟩
  · cases h
  · exact ⟨.insert, by decide, Except.ok.inj h ▸ puts_insert⟩
  · exact ⟨.replace, by decide, Except.ok.inj h ▸ puts_insert⟩

end RawStateTable

namespace ApplyStateTable
variable {items items' : Items K V} {key : K} {sle : V}

theorem rawErase_ok (h : rawErase items key sle = .ok items') :
    Puts items items' key (some ⟨.erase, sle⟩) ∨
      (∃ old, items[key]? = some ⟨.insert, old⟩) ∧ Puts items items' key none := by
  unfold rawErase at h
  split at h
  · exact .inl (Except.ok.inj h ▸ puts_insert)
  · cases h
  · next hi => exact .inr ⟨⟨_, hi⟩, Except.ok.inj h ▸ puts_erase⟩
  · exact .inl (Except.ok.inj h ▸ puts_insert)

theorem puts_ok {a : Store.Action} {E : Type}
    (h : (.ok (items.insert key ⟨a, sle⟩) : Except E _) = .ok items')
    (ha : a ≠ .erase ∧ a ≠ .cache := by decide) :
    ∃ a, a ≠ .erase ∧ a ≠ .cache ∧ Puts items items' key (some ⟨a, sle⟩) :=
  ⟨a, ha.1, ha.2, Except.ok.inj h ▸ puts_insert⟩

theorem insert_ok (h : insert items key sle = .ok items') :
    ∃ a, a ≠ .erase ∧ a ≠ .cache ∧ Puts items items' key (some ⟨a, sle⟩) := by
  unfold insert at h
  split at h
  · exact puts_ok h
  · exact puts_ok h
  · cases h

theorem replace_ok (h : replace items key sle = .ok items') :
    ∃ a, a ≠ .erase ∧ a ≠ .cache ∧ Puts items items' key (some ⟨a, sle⟩) := by
  unfold replace at h
  split at h
  · exact puts_ok h
  · cases h
  · exact puts_ok h
  · exact puts_ok h

theorem update_ok (h : update items key sle = .ok items') :
    ∃ a, a ≠ .erase ∧ a ≠ .cache ∧ Puts items items' key (some ⟨a, sle⟩) := by
  unfold update at h
  split at h
  · cases h
  · cases h
  · exact puts_ok h
  · exact puts_ok h

theorem erase_ok (h : erase items key = .ok items') :
    (∃ old, Puts items items' key (some ⟨.erase, old⟩)) ∨ Puts items items' key none := by
  unfold erase at h
  split at h
  · cases h
  · cases h
  · exact .inr (Except.ok.inj h ▸ puts_erase)
  · exact .inl ⟨_, Except.ok.inj h ▸ puts_insert⟩

end ApplyStateTable

namespace Puts
variable {items items' : TreeMap K (Item A V)} {key j : K} {o : Option (Item A V)}
  {isErase : A → Bool} {m : K → Option V} {item : Item A V} {sle : V}

section
variable (h : Puts items items' key o)

include h

theorem getElem?_ne (hj : j ≠ key) : items'[j]? = items[j]? := by
  rw [h, if_neg hj]

theorem getElem?_self : items'[key]? = o := by rw [h, if_pos rfl]

theorem overlay_ne (hj : j ≠ key) : overlay isErase items' m j = overlay isErase items m j := by
  rw [overlay, overlay, h.getElem?_ne hj]

end

theorem overlay_some (h : Puts items items' key (some item)) :
    overlay isErase items' m key = if isErase item.action then none else some item.sle := by
  rw [overlay, h.getElem?_self]

theorem overlay_none (h : Puts items items' key none) : overlay isErase items' m key = m key := by
  rw [overlay, h.getElem?_self]

end Puts

namespace View
variable {view view' : View K V} {key j : K} {sle : V}

/-- What the view's own table inserts under the key is not in its base: applying the view would not
pass otherwise. -/
def FreshAt : View K V → K → Prop
  | .ledger _, _ => True
  | .openView base items, key => ∀ sle, items[key]? = some ⟨.insert, sle⟩ → base.map key = none
  | .applyView base items, key => ∀ sle, items[key]? = some ⟨.insert, sle⟩ → base.map key = none

/-- The view shows `o` under the key, and other keys as before. -/
structure Writes (view view' : View K V) (key : K) (o : Option V) : Prop where
  map_self : view'.map key = o
  map_ne : ∀ j, j ≠ key → view'.map j = view.map j
  fresh_ne : ∀ j, j ≠ key → view.FreshAt j → view'.FreshAt j

theorem Writes.frame {o : Option V} (h : Writes view view' key o) :
    view'.map key = o ∧ ∀ j, j ≠ key → view'.map j = view.map j ∧ (view.FreshAt j → view'.FreshAt j) :=
  ⟨h.map_self, fun j hj => ⟨h.map_ne j hj, h.fresh_ne j hj⟩⟩

variable {r : Option V}

theorem writes_openView {base : View K V} {items items' : RawStateTable.Items K V}
    {o : Option (Item RawStateTable.Action V)} (h : Puts items items' key o)
    (hs : overlay (decide <| · = .erase) items' base.map key = r) :
    Writes (.openView base items) (.openView base items') key r where
  map_self := hs
  map_ne _ hj := h.overlay_ne hj
  fresh_ne _ hj hfresh sle hi := hfresh sle (by rw [← h.getElem?_ne hj, hi])

theorem writes_applyView {base : View K V} {items' : Items K V}
    {o : Option (Item Store.Action V)} (h : Puts items items' key o)
    (hs : overlay (decide <| · = .erase) items' base.map key = r) :
    Writes (.applyView base items) (.applyView base items') key r where
  map_self := hs
  map_ne _ hj := h.overlay_ne hj
  fresh_ne _ hj hfresh sle hi := hfresh sle (by rw [← h.getElem?_ne hj, hi])

theorem writes_ledger {stateMap stateMap' : TreeMap K V}
    (h : ∀ j, stateMap'[j]? = if j = key then r else stateMap[j]?) :
    Writes (.ledger stateMap) (.ledger stateMap') key r where
  map_self := by
    change stateMap'[key]? = r
    rw [h, if_pos rfl]
  map_ne j hj := by
    change stateMap'[j]? = stateMap[j]?
    rw [h, if_neg hj]
  fresh_ne _ _ _ := trivial

theorem map_ok {α β : Type} {x : Except Fault α} {f : α → β} {b : β} (h : x.map f = .ok b) :
    ∃ a, x = .ok a ∧ f a = b := by
  cases x with
  | error e => cases h
  | ok a => exact ⟨a, rfl, Except.ok.inj h⟩

theorem rawErase_ok (hfr : view.FreshAt key) (h : view.rawErase key sle = .ok view') :
    Writes view view' key none := by
  cases view with
  | ledger stateMap =>
    rw [rawErase] at h
    split at h
    · obtain rfl := Except.ok.inj h
      exact writes_ledger fun j => getElem?_erase_eq stateMap key j
    · cases h
  | openView base items =>
    obtain ⟨items', hi, rfl⟩ := map_ok h
    rcases RawStateTable.erase_ok hi with hp | ⟨⟨old, hold⟩, hp⟩
    · exact writes_openView hp hp.overlay_some
    · exact writes_openView hp (hp.overlay_none.trans (hfr old hold))
  | applyView base items =>
    obtain ⟨items', hi, rfl⟩ := map_ok h
    rcases rawErase_ok hi with hp | ⟨⟨old, hold⟩, hp⟩
    · exact writes_applyView hp hp.overlay_some
    · exact writes_applyView hp (hp.overlay_none.trans (hfr old hold))

theorem rawInsert_ok (h : view.rawInsert key sle = .ok view') : Writes view view' key (some sle) := by
  cases view with
  | ledger stateMap =>
    rw [rawInsert] at h
    split at h
    · cases h
    · obtain rfl := Except.ok.inj h
      exact writes_ledger fun j => getElem?_insert_eq stateMap key j sle
  | openView base items =>
    obtain ⟨items', hi, rfl⟩ := map_ok h
    obtain ⟨a, ha, -, hp⟩ := RawStateTable.insert_ok hi
    exact writes_openView hp (hp.overlay_some.trans (by simp [ha]))
  | applyView base items =>
    obtain ⟨items', hi, rfl⟩ := map_ok h
    obtain ⟨a, ha, -, hp⟩ := insert_ok hi
    exact writes_applyView hp (hp.overlay_some.trans (by simp [ha]))

theorem rawReplace_ok (h : view.rawReplace key sle = .ok view') :
    Writes view view' key (some sle) := by
  cases view with
  | ledger stateMap =>
    rw [rawReplace] at h
    split at h
    · obtain rfl := Except.ok.inj h
      exact writes_ledger fun j => getElem?_insert_eq stateMap key j sle
    · cases h
  | openView base items =>
    obtain ⟨items', hi, rfl⟩ := map_ok h
    obtain ⟨a, ha, hp⟩ := RawStateTable.replace_ok hi
    exact writes_openView hp (hp.overlay_some.trans (by simp [ha]))
  | applyView base items =>
    obtain ⟨items', hi, rfl⟩ := map_ok h
    obtain ⟨a, ha, -, hp⟩ := replace_ok hi
    exact writes_applyView hp (hp.overlay_some.trans (by simp [ha]))

end View

theorem RawStateTable.apply_map {view view' : View K V}
    (hfr : ∀ k, view.FreshAt k) (h : apply items view = .ok view') :
    view'.map = overlay (decide <| · = .erase) items view.map := by
  funext k
  refine (foldlM_entries View.map View.FreshAt
    (fun item _ => if item.action = .erase then none else some item.sle) ?_ items hfr h
    k).trans ?_
  · rintro s _ j ⟨a, _⟩ hs he
    cases a with
    | erase => exact (View.rawErase_ok hs he).frame
    | insert => exact (View.rawInsert_ok he).frame
    | replace => exact (View.rawReplace_ok he).frame
  rw [overlay]
  cases items[k]? with
  | none => rfl
  | some item => simp

namespace ApplyStateTable

/-- Copies are of what the base shows. -/
def CachesOf (m : K → Option V) (items : Items K V) : Prop :=
  ∀ k sle, items[k]? = some ⟨.cache, sle⟩ → m k = some sle

variable {items items' : Items K V} {m : K → Option V} {key : K}

/-- What an item of an `ApplyStateTable` leaves under its key. -/
def written (item : Item Store.Action V) (o : Option V) : Option V :=
  match item.action with
  | .cache => o
  | .erase => none
  | _ => some item.sle

/-- What applying a table leaves under each key, if its copies are the base's own. -/
theorem apply_map {view view' : View K V} (hfr : ∀ k, view.FreshAt k)
    (hca : CachesOf view.map items) (h : apply items view = .ok view') :
    view'.map = overlay (decide <| · = .erase) items view.map := by
  funext k
  refine (foldlM_entries View.map View.FreshAt written ?_ items hfr h k).trans ?_
  · rintro s _ j ⟨a, sle⟩ hs he
    cases a with
    | cache =>
      obtain rfl := Except.ok.inj he
      exact ⟨rfl, fun i _ => ⟨rfl, id⟩⟩
    | erase => exact (View.rawErase_ok hs he).frame
    | insert => exact (View.rawInsert_ok he).frame
    | modify => exact (View.rawReplace_ok he).frame
  rw [overlay]
  cases hi : items[k]? with
  | none => rfl
  | some item =>
    rcases item with ⟨_ | _ | _ | _, sle⟩
    · exact hca k sle hi
    · rfl
    · rfl
    · rfl

section
variable (h : CachesOf m items)
include h

theorem CachesOf.puts {o : Option (Item Store.Action V)}
    (hp : Puts items items' key o) (ho : ∀ sle, o ≠ some ⟨.cache, sle⟩) : CachesOf m items' := by
  intro k sle hk
  by_cases hkey : k = key
  · subst hkey
    rw [hp.getElem?_self] at hk
    exact absurd hk (ho sle)
  · exact h k sle (by rw [← hp.getElem?_ne hkey, hk])

variable {sle : V}

theorem CachesOf.rawErase (he : rawErase items key sle = .ok items') : CachesOf m items' := by
  rcases rawErase_ok he with hp | ⟨-, hp⟩ <;> exact h.puts hp (by simp)

theorem CachesOf.insert (he : insert items key sle = .ok items') : CachesOf m items' := by
  obtain ⟨a, -, ha, hp⟩ := insert_ok he
  exact h.puts hp (by simp [ha])

theorem CachesOf.replace (he : replace items key sle = .ok items') : CachesOf m items' := by
  obtain ⟨a, -, ha, hp⟩ := replace_ok he
  exact h.puts hp (by simp [ha])

theorem CachesOf.apply {inner : Items K V}
    (he : apply inner items = .ok items') : CachesOf m items' := by
  unfold ApplyStateTable.apply at he
  generalize inner.toList = l at he
  induction l generalizing items with
  | nil =>
    obtain rfl := Except.ok.inj he
    exact h
  | cons e l ih =>
    rw [List.foldlM_cons] at he
    obtain ⟨_, h1, he⟩ := Store.bind_ok.1 he
    refine ih ?_ he
    obtain ⟨k, a, _⟩ := e
    cases a with
    | cache =>
      obtain rfl := Except.ok.inj h1
      exact h
    | erase => exact h.rawErase h1
    | insert => exact h.insert h1
    | modify => exact h.replace h1

end

section Run
variable [Zero K] [DecidableEq T] [HasType V T] {base : ReadView K T V}

theorem CachesOf.peek (hb : base.Shows m) (h : CachesOf m items) (k : Keylet K T) :
    CachesOf m (peek items base k).2 := by
  unfold ApplyStateTable.peek
  cases hi : items[k.key]? with
  | none =>
    cases hr : base.read k with
    | none => exact h
    | some sle =>
      intro j sle' hj
      rw [getElem?_insert_eq] at hj
      split at hj
      · next hjk =>
        cases hj
        rw [hjk]
        exact hb.read_some k sle hr
      · exact h j sle' hj
  | some item => rcases item with ⟨_ | _ | _ | _, sle⟩ <;> exact h

theorem CachesOf.runOp (hba : base.Shows m) (h : CachesOf m items) {op : TableOp K T V}
    (he : runOp base op items = .ok items') : CachesOf m items' := by
  cases op with
  | peek k =>
    rw [Ordered.runOp] at he
    obtain rfl := Except.ok.inj he
    exact h.peek hba k
  | update k f =>
    have hk := h.peek hba k
    rw [Ordered.runOp] at he
    split at he
    · next hp =>
      obtain rfl := Except.ok.inj he
      rwa [hp] at hk
    · next hp =>
      rw [hp] at hk
      obtain ⟨a, -, ha, hpu⟩ := update_ok he
      exact hk.puts hpu (by simp [ha])
  | erase k =>
    have hk := h.peek hba k
    rw [Ordered.runOp] at he
    split at he
    · next hp =>
      obtain rfl := Except.ok.inj he
      rwa [hp] at hk
    · next hp =>
      rw [hp] at hk
      rcases erase_ok he with ⟨_, hpu⟩ | hpu <;> exact hk.puts hpu (by simp)
  | insert key sle =>
    rw [Ordered.runOp] at he
    exact h.insert he
  | rawErase key sle =>
    rw [Ordered.runOp] at he
    exact h.rawErase he
  | rawReplace key sle =>
    rw [Ordered.runOp] at he
    exact h.replace he
  | nested _ =>
    rw [Ordered.runOp] at he
    obtain ⟨_, -, he⟩ := Store.bind_ok.1 he
    exact h.apply he

theorem CachesOf.runOps (hb : base.Shows m) (h : CachesOf m items) {ops : List (TableOp K T V)}
    (he : runOps base ops items = .ok items') : CachesOf m items' := by
  induction ops generalizing items with
  | nil =>
    rw [runOps] at he
    obtain rfl := Except.ok.inj he
    exact h
  | cons _ ops ih =>
    rw [runOps] at he
    obtain ⟨_, h1, he⟩ := Store.bind_ok.1 he
    exact ih (h.runOp hb h1) he

end Run
end ApplyStateTable

section Agreement
variable [Zero K] [DecidableEq T] [HasType V T] {base base' : View K V}

/-- A table of changes answers as its base does once the table is applied: reads of non-zero keys,
existence under keylets of the right type, and successors, the least live keys above. The base's own
pending insertions are of keys that are not below it. -/
theorem apply_state_table_overlay (hfresh : ∀ k, base.FreshAt k) {ops : List (TableOp K T V)}
    {items : ApplyStateTable.Items K V} (hrun : runOps base.readView ops ∅ = .ok items)
    (happly : ApplyStateTable.apply items base = .ok base') :
    (∀ k : Keylet K T, k.key ≠ 0 →
      ApplyStateTable.read items base.readView k = base'.readView.read k) ∧
    (∀ k : Keylet K T, k.Matches base'.map →
      ApplyStateTable.existsAt items base.readView k = base'.readView.existsAt k) ∧
    (∀ key last, ApplyStateTable.succ items (base.readView : ReadView K T V) key last =
      (base'.readView : ReadView K T V).succ key last) ∧
    ∀ key last, IsSucc (fun x => (base'.map x).isSome = true) key last
      (ApplyStateTable.succ items (base.readView : ReadView K T V) key last) := by
  have hb := base.shows
  have hca : CachesOf base.map items := CachesOf.runOps hb (fun k sle h => by simp at h) hrun
  have ho : (readView items base.readView : ReadView K T V).Shows _ := shows hb
  rw [← apply_map hfresh hca happly] at ho
  obtain ⟨hr, hex, hs⟩ := ho.agree base'.shows
  exact ⟨hr, hex, hs, ho.succ⟩

end Agreement

namespace Entries

abbrev Key := Keylet uint256 LedgerEntryType

def entry (n : Nat) : Entry := .nfAssetIndex ⟨.raw n⟩

def one : View uint256 Entry := .ledger ((∅ : TreeMap uint256 Entry).insert 1 (entry 1))

def work : List (TableOp uint256 LedgerEntryType Entry) :=
  [.insert 3 (entry 3), .nested [.update ⟨.any, 3⟩ fun _ => entry 4, .erase ⟨.any, 1⟩]]

end Entries

open Entries in
/-- An insertion, a change and an erasure in a nested table, over one entry. -/
theorem apply_state_table_overlay_sample :
    ∃ items base', runOps one.readView work ∅ = .ok items ∧
      ApplyStateTable.apply items one = .ok base' ∧
      ApplyStateTable.succ items (one.readView : ReadView uint256 LedgerEntryType Entry) 0 none =
        (base'.readView : ReadView uint256 LedgerEntryType Entry).succ 0 none :=
  ⟨_, _, rfl, rfl, (@apply_state_table_overlay _ _ _ _ _ _ _ one _ (fun _ => trivial) work _ rfl
    rfl).2.2.1 0 none⟩

open Entries in
/-- The ledger looks at no type where the table does, does not read the zero key, and an erasure
takes back an insertion over an entry of the base. -/
theorem apply_state_table_differs :
    (∃ items base', runOps (one.readView : ReadView uint256 LedgerEntryType Entry)
        [.insert 3 (entry 3)] ∅ = .ok items ∧
      ApplyStateTable.apply items one = .ok base' ∧
      ApplyStateTable.existsAt items one.readView (⟨.entry .offer, 3⟩ : Key) = false ∧
      base'.readView.existsAt (⟨.entry .offer, 3⟩ : Key) = true) ∧
    (∃ items base', runOps (one.readView : ReadView uint256 LedgerEntryType Entry)
        [.insert 0 (entry 3)] ∅ = .ok items ∧
      ApplyStateTable.apply items one = .ok base' ∧
      ApplyStateTable.read items one.readView (⟨.any, 0⟩ : Key) = some (entry 3) ∧
      base'.readView.read (⟨.any, 0⟩ : Key) = none) ∧
    ∃ inserted items base', RawStateTable.insert ∅ 1 (entry 2) = .ok inserted ∧
      runOps ((View.openView one inserted).readView : ReadView uint256 LedgerEntryType Entry)
        [.erase ⟨.any, 1⟩] ∅ = .ok items ∧
      ApplyStateTable.apply items (View.openView one inserted) = .ok base' ∧
      ApplyStateTable.read items (View.openView one inserted).readView (⟨.any, 1⟩ : Key) = none ∧
      base'.readView.read (⟨.any, 1⟩ : Key) = some (entry 1) :=
  ⟨⟨_, _, rfl, rfl, rfl, rfl⟩, ⟨_, _, rfl, rfl, rfl, rfl⟩, _, _, _, rfl, rfl, rfl, rfl, rfl⟩

end FinPal.Ordered
