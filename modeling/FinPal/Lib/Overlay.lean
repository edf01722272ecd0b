import FinPal.Lib.Store
import Mathlib.Data.List.AList

/-!
# A table of pending changes over a base map

Reads fall through to the base, writes stay in the table until it is applied. A `Carrier` says which
part of a stored value a program sees. Running a program against the table is running it against the
merged map (`run_sim`), as long as the two are in step (`Synced`).
-/

namespace FinPal.Store

/-- The part of a stored value that programs see. -/
structure Carrier (S V : Type) where
  proj : S → V
  put : V → S → S
  fresh : V → S
  proj_put : ∀ v s, proj (put v s) = v
  proj_fresh : ∀ v, proj (fresh v) = v

attribute [simp] Carrier.proj_put Carrier.proj_fresh

inductive Action where
  | cache
  | erase
  | insert
  | modify
  deriving DecidableEq

structure Item (S : Type) where
  action : Action
  val : S

abbrev Table (K S : Type) := AList fun _ : K => Item S

namespace Table
variable {K S V E α β : Type} [DecidableEq K]

/-- The value a key has once the changes are taken into account. -/
def cur (b : K → Option S) (t : Table K S) (k : K) : Option S :=
  match t.lookup k with
  | none => b k
  | some ⟨.erase, _⟩ => none
  | some ⟨_, s⟩ => some s

/-- Reading a key for change leaves a copy of it in the table. -/
def peek (b : K → Option S) (t : Table K S) (k : K) : Table K S :=
  match t.lookup k, b k with
  | none, some s => t.insert k ⟨.cache, s⟩
  | _, _ => t

/-- The table of a key that is present and gets the value `s`. -/
def write (t : Table K S) (k : K) (s : S) : Table K S :=
  match t.lookup k with
  | some ⟨.insert, _⟩ => t.insert k ⟨.insert, s⟩
  | _ => t.insert k ⟨.modify, s⟩

/-- The table of a key that is present with the value `s` and gets erased. What the table inserted
it forgets. -/
def erased (t : Table K S) (k : K) (s : S) : Table K S :=
  match t.lookup k with
  | some ⟨.insert, _⟩ => t.erase k
  | _ => t.insert k ⟨.erase, s⟩

/-- The table of a key that is absent and gets the value `s`. -/
def inserted (t : Table K S) (k : K) (s : S) : Table K S :=
  match t.lookup k with
  | some _ => t.insert k ⟨.modify, s⟩
  | none => t.insert k ⟨.insert, s⟩

/-- What an item needs of the base under its key: nothing for an insertion, the same value for a
copy, something for a change or an erasure. -/
def Fits (o : Option S) (i : Item S) : Prop :=
  match i.action with
  | .insert => o = none
  | .cache => o = some i.val
  | _ => o.isSome

/-- The table is in step with the base. -/
def Synced (b : K → Option S) (t : Table K S) : Prop := ∀ k i, t.lookup k = some i → Fits (b k) i

theorem synced_empty (b : K → Option S) : Synced b (∅ : Table K S) := by
  intro k i h
  simp at h

section Lemmas
variable {b : K → Option S} {t : Table K S} {k : K} {s : S}

theorem lookup_insert_eq (t : Table K S) (k k' : K) (i : Item S) :
    (t.insert k i).lookup k' = if k' = k then some i else t.lookup k' := by
  by_cases h : k' = k
  · subst h; simp
  · simp [h]

theorem lookup_erase_eq (t : Table K S) (k k' : K) :
    (t.erase k).lookup k' = if k' = k then none else t.lookup k' := by
  by_cases h : k' = k
  · subst h; simp
  · simp [h]

theorem cur_insert (i : Item S) : cur b (t.insert k i) =
      Function.update (cur b t) k (if i.action = .erase then none else some i.val) := by
  funext k'
  by_cases h : k' = k
  · subst h
    rcases i with ⟨_ | _ | _ | _, _⟩ <;> simp [cur]
  · simp [cur, h]

theorem Synced.insert {i : Item S} (h : Synced b t) (hi : Fits (b k) i) :
    Synced b (t.insert k i) := by
  intro k' j hj
  rw [lookup_insert_eq] at hj
  split at hj
  · next e =>
    subst e
    obtain rfl := Option.some.inj hj
    exact hi
  · exact h k' j hj

theorem Synced.erase (h : Synced b t) : Synced b (t.erase k) := by
  intro k' j hj
  rw [lookup_erase_eq] at hj
  split at hj
  · cases hj
  · exact h k' j hj

theorem cur_peek : cur b (peek b t k) = cur b t := by
  unfold peek
  split
  · next s hl hb =>
    funext k'
    rw [cur_insert]
    by_cases h : k' = k
    · subst h; simp [cur, hl, hb]
    · simp [h]
  · rfl

theorem synced_peek (h : Synced b t) : Synced b (peek b t k) := by
  unfold peek
  split
  · next hb => exact h.insert hb
  · exact h

theorem Synced.base_of_cur {v : S} (h : Synced b t) (hc : cur b t k = some v)
    (hn : ∀ s, t.lookup k ≠ some ⟨.insert, s⟩) : (b k).isSome := by
  cases hl : t.lookup k with
  | none => simp_all [cur]
  | some i =>
    have hi := h k i hl
    rcases i with ⟨_ | _ | _ | _, s⟩
    · simp [show b k = some s from hi]
    · exact hi
    · exact absurd hl (hn s)
    · exact hi

theorem cur_write : cur b (write t k s) = Function.update (cur b t) k (some s) := by
  unfold write
  split <;> simp [cur_insert]

theorem synced_write {v : S} (h : Synced b t) (hc : cur b t k = some v) :
    Synced b (write t k s) := by
  unfold write
  split
  · next hl =>
    have hi : Fits (b k) _ := h k _ hl
    exact h.insert hi
  · next hn => exact h.insert (h.base_of_cur hc hn)

theorem cur_erased (h : Synced b t) : cur b (erased t k s) = Function.update (cur b t) k none := by
  unfold erased
  split
  · next v hl =>
    have hb : b k = none := h k _ hl
    funext k'
    by_cases e : k' = k
    · subst e; simp [cur, hb]
    · simp [cur, e]
  · simp [cur_insert]

theorem synced_erased {v : S} (h : Synced b t) (hc : cur b t k = some v) :
    Synced b (erased t k s) := by
  unfold erased
  split
  · exact h.erase
  · next hn => exact h.insert (h.base_of_cur hc hn)

theorem cur_inserted : cur b (inserted t k s) = Function.update (cur b t) k (some s) := by
  unfold inserted
  split <;> simp [cur_insert]

theorem synced_inserted (h : Synced b t) (hc : cur b t k = none) : Synced b (inserted t k s) := by
  unfold inserted
  split
  · next i hl =>
    -- the item can only be an erasure, so the base has the key
    rcases i with ⟨_ | _ | _ | _, v⟩ <;> simp [cur, hl] at hc
    have hi : (b k).isSome := h k _ hl
    exact h.insert hi
  · next hl =>
    have hb : b k = none := by simpa [cur, hl] using hc
    exact h.insert hb

end Lemmas

/-! ## Applying a table to its base -/

section Apply
variable [StoreError E]

def rawErase (b : K → Option S) (k : K) : Except E (K → Option S) :=
  if (b k).isSome then .ok (Function.update b k none) else .error StoreError.absent

def rawInsert (b : K → Option S) (k : K) (s : S) : Except E (K → Option S) :=
  if (b k).isSome then .error StoreError.occupied else .ok (Function.update b k (some s))

def rawReplace (b : K → Option S) (k : K) (s : S) : Except E (K → Option S) :=
  if (b k).isSome then .ok (Function.update b k (some s)) else .error StoreError.absent

/-- One change on the base. A mere copy is no change. -/
def rawItem (b : K → Option S) (i : Sigma fun _ : K => Item S) : Except E (K → Option S) :=
  match i.2.action with
  | .cache => .ok b
  | .erase => rawErase b i.1
  | .insert => rawInsert b i.1 i.2.val
  | .modify => rawReplace b i.1 i.2.val

def applyTo (t : Table K S) (b : K → Option S) : Except E (K → Option S) :=
  t.entries.foldlM rawItem b

/-- What an item leaves under its key, given what is there. -/
def Item.result (o : Option S) (i : Item S) : Option S :=
  match i.action with
  | .cache => o
  | .erase => none
  | _ => some i.val

variable {b b' : K → Option S}

theorem rawItem_ok {i : Sigma fun _ : K => Item S} (h : rawItem b i = (.ok b' : Except E _)) :
    b' = Function.update b i.1 (Item.result (b i.1) i.2) := by
  obtain ⟨k, a, s⟩ := i
  cases a
  · obtain rfl := Except.ok.inj h
    simp [Item.result]
  all_goals
    simp only [rawItem, rawErase, rawInsert, rawReplace] at h
    split at h <;> simp_all [Item.result]

private theorem foldlM_rawItem {l : List (Sigma fun _ : K => Item S)} (hl : l.NodupKeys)
    (h : l.foldlM rawItem b = (.ok b' : Except E _)) (k : K) :
    b' k = ((l.dlookup k).map (Item.result (b k))).getD (b k) := by
  -- the keys are distinct, so only one item touches a key
  induction l generalizing b with
  | nil =>
    obtain rfl := Except.ok.inj h
    rfl
  | cons i l ih =>
    rw [List.foldlM_cons] at h
    cases hi : (rawItem b i : Except E _) with
    | error e => rw [hi] at h; cases h
    | ok b1 =>
      rw [hi] at h
      have hb1 := rawItem_ok hi
      obtain ⟨hn, hl'⟩ := List.nodupKeys_cons.1 hl
      have := ih hl' h
      obtain ⟨k', i⟩ := i
      by_cases e : k = k'
      · subst e
        have hd : l.dlookup k = none := List.dlookup_eq_none.2 hn
        rw [this, hd]
        simp [hb1]
      · rw [this]
        simp [hb1, e]

theorem applyTo_ok {t : Table K S} (h : applyTo t b = (.ok b' : Except E _))
    (k : K) : b' k = ((t.lookup k).map (Item.result (b k))).getD (b k) :=
  foldlM_rawItem t.nodupKeys h k

end Apply

/-! ## Running programs against a table -/

section Run
variable [StoreError E] (c : Carrier S V) (b : K → Option S)

/-- Runs a program against the table. What is changed or erased has been read before, so the table
has a copy of it. -/
def run : Prog K V E α → Table K S → Except E (α × Table K S)
  | .ret a, t => .ok (a, t)
  | .fail e, _ => .error e
  | .peek k next, t => run (next ((cur b t k).map c.proj)) (peek b t k)
  | .modify k f next, t =>
    match cur b t k with
    | none => .error StoreError.absent
    | some s => run next (write t k (c.put (f (c.proj s)) s))
  | .insert k v next, t =>
    match cur b t k with
    | none => run next (inserted t k (c.fresh v))
    | some _ => .error StoreError.occupied
  | .erase k next, t =>
    match cur b t k with
    | none => .error StoreError.absent
    | some s => run next (erased t k s)

def shown (t : Table K S) : K → Option V := fun k => (cur b t k).map c.proj

variable {c b}

theorem shown_update {t t' : Table K S} {k : K} {o : Option S}
    (h : cur b t' = Function.update (cur b t) k o) :
    shown c b t' = Function.update (shown c b t) k (o.map c.proj) := by
  funext k'
  by_cases e : k' = k
  · subst e; simp [shown, h]
  · simp [shown, h, e]

theorem shown_apply (t : Table K S) (k : K) : shown c b t k = (cur b t k).map c.proj := rfl

theorem run_sim (p : Prog K V E α) {t : Table K S} (ht : Synced b t) :
    exec p (shown c b t) = (run c b p t).map (fun r => (r.1, shown c b r.2)) ∧
      ∀ r, run c b p t = .ok r → Synced b r.2 := by
  induction p generalizing t with
  | ret a =>
    refine ⟨rfl, ?_⟩
    rintro r ⟨⟩
    exact ht
  | fail e => exact ⟨rfl, by rintro r ⟨⟩⟩
  | peek k next ih =>
    have hs : shown c b (peek b t k) = shown c b t := by unfold shown; rw [cur_peek]
    have := ih ((cur b t k).map c.proj) (synced_peek (k := k) ht)
    rw [hs] at this
    exact this
  | modify k f next ih =>
    cases hc : cur b t k with
    | none =>
      simp [run, exec, shown_apply, hc, Except.map]
    | some s =>
      have := ih (synced_write (s := c.put (f (c.proj s)) s) ht hc)
      rw [shown_update cur_write] at this
      simpa [run, exec, shown_apply, hc] using this
  | insert k v next ih =>
    cases hc : cur b t k with
    | none =>
      have := ih (synced_inserted (s := c.fresh v) ht hc)
      rw [shown_update cur_inserted] at this
      simpa [run, exec, shown_apply, hc] using this
    | some s =>
      simp [run, exec, shown_apply, hc, Except.map]
  | erase k next ih =>
    cases hc : cur b t k with
    | none =>
      simp [run, exec, shown_apply, hc, Except.map]
    | some s =>
      have := ih (synced_erased (s := s) ht hc)
      rw [shown_update (cur_erased ht)] at this
      simpa [run, exec, shown_apply, hc] using this

theorem exec_of_run {p : Prog K V E α} {t t' : Table K S} {a : α} (ht : Synced b t)
    (h : run c b p t = .ok (a, t')) :
    exec p (shown c b t) = .ok (a, shown c b t') ∧ Synced b t' := by
  obtain ⟨h1, h2⟩ := run_sim p ht
  exact ⟨by rw [h1, h]; rfl, h2 _ h⟩

end Run
end Table
end FinPal.Store
