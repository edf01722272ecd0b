import FinPal.Ledger.Pages
import Mathlib.Data.Finset.Sort

/-!
# Iterating over a directory

`cdirFirst` and `cdirNext` of `ledger/impl/View.cpp`. Along the ring of the pages they reach every
entry of every page, in the order of the page numbers, and then stop.
-/

namespace FinPal
open Store ViewM Finset

/-- Where an iteration stands: the page read last and the position of its next entry. -/
structure DirCursor where
  node : DirNode
  entry : Nat := 0

/-- The next entry and the place after it. The fuel counts the pages still to be read. -/
def cdirNext (root : Digest) (fuel : Nat) (cursor : DirCursor) :
    ViewM (Option Digest × DirCursor) :=
  match cursor.node.indexes[cursor.entry]? with
  | some d => return (some d, { cursor with entry := cursor.entry + 1 })
  | none =>
    if cursor.node.indexNext = 0 then
      return (none, cursor)
    else
      match fuel with
      | 0 => throw .logicError
      | fuel + 1 => do
        match ← peek (keylet.page root cursor.node.indexNext) with
        | none => return (none, { cursor with entry := 0 })
        | some node => cdirNext root fuel { node }

/-- The directory is expected to exist. -/
def cdirFirst (root : Digest) : ViewM (Option Digest × DirCursor) := do
  let node ← peek! (keylet.page root 0)
  cdirNext root maxPages { node }

/-- What the loop `do ... while (cdirNext (...))` sees. -/
def cdirRest (root : Digest) : Nat → Option Digest × DirCursor → ViewM (List Digest)
  | 0, _ => throw .logicError
  | _ + 1, (none, _) => return []
  | fuel + 1, (some d, cursor) => do
    let next ← cdirNext root maxPages cursor
    return d :: (← cdirRest root fuel next)

/-- The entries of a whole iteration of at most `fuel` rounds. -/
def cdirEntries (root : Digest) (fuel : Nat) : ViewM (List Digest) := do
  let first ← cdirFirst root
  cdirRest root fuel first

/-! ## The entries ahead of a cursor -/

def State.pageEntries (σ : State) (root : Digest) (p : Nat) : List Digest :=
  (σ.get (keylet.page root p)).elim [] DirNode.indexes

def State.entriesAfter (σ : State) (root : Digest) (S : Finset Nat) (p : Nat) : List Digest :=
  ((S.filter (p < ·)).sort (· ≤ ·)).flatMap (σ.pageEntries root)

/-- The cursor stands on page `p` with the entries `l` ahead of it. -/
structure Ahead (σ : State) (root : Digest) (S : Finset Nat) (p : Nat) (cursor : DirCursor)
    (l : List Digest) : Prop where
  page : σ.get (keylet.page root p) = some cursor.node
  entries : cursor.node.indexes.drop cursor.entry ++ σ.entriesAfter root S p = l

section
variable {σ : State} {root : Digest} {S : Finset Nat} {p : Nat} {n : DirNode}

theorem State.pageEntries_eq (h : σ.get (keylet.page root p) = some n) :
    σ.pageEntries root p = n.indexes := by
  rw [pageEntries, h, Option.elim_some]

theorem DirRing.entriesAfter_last (hS : DirRing σ root S)
    (hn : σ.get (keylet.page root p) = some n) (h0 : n.indexNext = 0) :
    σ.entriesAfter root S p = [] := by
  have hne := hS.next (State.links_eq hn)
  rw [h0] at hne
  rw [State.entriesAfter, hne.filter_lt_last (Nat.zero_le p)]
  simp

theorem DirRing.entriesAfter_next (hS : DirRing σ root S)
    (hn : σ.get (keylet.page root p) = some n) (h0 : n.indexNext ≠ 0) :
    σ.entriesAfter root S p =
      σ.pageEntries root n.indexNext ++ σ.entriesAfter root S n.indexNext := by
  rw [State.entriesAfter, (hS.next (State.links_eq hn)).filter_lt h0, sort_insert]
  · rfl
  · intro r hr
    exact (mem_filter.1 hr).2.le
  · simp

variable {fuel : Nat} {cursor : DirCursor}

theorem exec_cdirNext_here {d : Digest} (hd : cursor.node.indexes[cursor.entry]? = some d) :
    exec (cdirNext root fuel cursor) σ =
      .ok ((some d, { cursor with entry := cursor.entry + 1 }), σ) := by
  rw [cdirNext.eq_def, hd]
  rfl

theorem exec_cdirNext_end (hd : cursor.node.indexes[cursor.entry]? = none)
    (h0 : cursor.node.indexNext = 0) :
    exec (cdirNext root fuel cursor) σ = .ok ((none, cursor), σ) := by
  rw [cdirNext.eq_def, hd]
  simp only [h0, if_true]
  rfl

theorem exec_cdirNext_hop (hd : cursor.node.indexes[cursor.entry]? = none)
    (h0 : cursor.node.indexNext ≠ 0)
    (hn : σ.get (keylet.page root cursor.node.indexNext) = some n) :
    exec (cdirNext root (fuel + 1) cursor) σ = exec (cdirNext root fuel { node := n }) σ := by
  rw [cdirNext.eq_def, hd]
  simp only [h0, if_false]
  rw [exec_peek_bind, hn]

theorem exec_cdirNext (hS : DirRing σ root S) {l : List Digest} (hc : Ahead σ root S p cursor l)
    (hfu : (S.filter (p < ·)).card ≤ fuel) :
    ∃ cursor', exec (cdirNext root fuel cursor) σ = .ok ((l.head?, cursor'), σ) ∧
      (l ≠ [] → ∃ q, Ahead σ root S q cursor' l.tail) := by
  -- over the pages that are left
  induction fuel using Nat.strong_induction_on generalizing p cursor with
  | _ fuel ih =>
    obtain ⟨hpa, hl⟩ := hc
    cases hd : cursor.node.indexes[cursor.entry]? with
    | some d =>
      obtain ⟨hlt, hg⟩ := List.getElem?_eq_some_iff.1 hd
      rw [List.drop_eq_getElem_cons hlt, hg, List.cons_append] at hl
      subst hl
      exact ⟨_, exec_cdirNext_here hd, fun _ => ⟨p, hpa, rfl⟩⟩
    | none =>
      rw [List.drop_eq_nil_of_le (List.getElem?_eq_none_iff.1 hd), List.nil_append] at hl
      by_cases h0 : cursor.node.indexNext = 0
      · rw [hS.entriesAfter_last hpa h0] at hl
        subst hl
        exact ⟨_, exec_cdirNext_end hd h0, fun h => absurd rfl h⟩
      have hri := hS.next (State.links_eq hpa)
      obtain ⟨k, hk⟩ := Option.isSome_iff_exists.1 ((hS.mem _).1 hri.1)
      obtain ⟨n, hn, -, -⟩ := State.get_of_links hk
      rw [hS.entriesAfter_next hpa h0, State.pageEntries_eq hn] at hl
      rw [hri.filter_lt h0, card_insert_of_notMem (by simp)] at hfu
      obtain ⟨fuel, rfl⟩ : ∃ m, fuel = m + 1 := ⟨fuel - 1, by omega⟩
      rw [exec_cdirNext_hop hd h0 hn]
      exact ih fuel (Nat.lt_succ_self _) ⟨hn, hl⟩ (by omega)

theorem DirRing.card_le (hS : DirRing σ root S) (P : Nat → Prop) [DecidablePred P] :
    (S.filter P).card ≤ maxPages := by
  have hs : S.filter P ⊆ range (2 ^ 64) := fun r hr =>
    mem_range.2 (hS.bound r (mem_filter.1 hr).1)
  simpa [maxPages] using card_le_card hs

theorem exec_cdirRest (hS : DirRing σ root S) {l : List Digest}
    (hc : l ≠ [] → Ahead σ root S p cursor l.tail) (hf : l.length < fuel) :
    exec (cdirRest root fuel (l.head?, cursor)) σ = .ok (l, σ) := by
  induction l generalizing p fuel cursor with
  | nil =>
    obtain ⟨fuel, rfl⟩ : ∃ m, fuel = m + 1 := ⟨fuel - 1, by omega⟩
    rfl
  | cons d l ih =>
    obtain ⟨fuel, rfl⟩ : ∃ m, fuel = m + 1 := ⟨fuel - 1, by omega⟩
    obtain ⟨cursor', he, hr⟩ := exec_cdirNext hS (hc (List.cons_ne_nil d l)) (hS.card_le _)
    refine exec_bind.2 ⟨_, _, he, ?_⟩
    have hl : exec (cdirRest root fuel (l.head?, cursor')) σ = .ok (l, σ) := by
      rcases l with - | ⟨e, l⟩
      · exact ih (p := 0) (fun h => absurd rfl h) (Nat.lt_of_succ_lt_succ hf)
      · obtain ⟨q, hq⟩ := hr (List.cons_ne_nil e l)
        exact ih (fun _ => hq) (Nat.lt_of_succ_lt_succ hf)
    exact exec_bind.2 ⟨_, _, hl, rfl⟩

def State.dirEntries (σ : State) (root : Digest) (S : Finset Nat) : List Digest :=
  (S.sort (· ≤ ·)).flatMap (σ.pageEntries root)

theorem State.dirEntries_eq (σ : State) (root : Digest) (h0 : 0 ∈ S) :
    σ.dirEntries root S = σ.pageEntries root 0 ++ σ.entriesAfter root S 0 := by
  have hs : S = insert 0 (S.filter (0 < ·)) := by
    ext r
    simp only [mem_insert, mem_filter]
    constructor
    · intro hr
      exact r.eq_zero_or_pos.imp id fun hp => ⟨hr, hp⟩
    rintro (rfl | ⟨hr, -⟩)
    · exact h0
    · exact hr
  rw [State.dirEntries, hs, sort_insert _ (fun r _ => Nat.zero_le r) (by simp),
    List.flatMap_cons, ← hs]
  rfl

theorem exec_cdirEntries (hS : DirRing σ root S) (h0 : 0 ∈ S)
    (hf : (σ.dirEntries root S).length < fuel) :
    exec (cdirEntries root fuel) σ = .ok (σ.dirEntries root S, σ) := by
  obtain ⟨k, hk⟩ := Option.isSome_iff_exists.1 ((hS.mem 0).1 h0)
  obtain ⟨n, hn, -, -⟩ := State.get_of_links hk
  have hs := σ.dirEntries_eq root h0
  rw [State.pageEntries_eq hn] at hs
  have hah : Ahead σ root S 0 { node := n } (σ.dirEntries root S) := ⟨hn, hs.symm⟩
  obtain ⟨cursor, he, hr⟩ := exec_cdirNext hS hah (hS.card_le _)
  have hfi : exec (cdirFirst root) σ = .ok (((σ.dirEntries root S).head?, cursor), σ) :=
    exec_bind.2 ⟨_, _, exec_peek!.2 ⟨hn, rfl⟩, he⟩
  refine exec_bind.2 ⟨_, _, hfi, ?_⟩
  by_cases hnil : σ.dirEntries root S = []
  · exact exec_cdirRest (p := 0) hS (fun h => absurd hnil h) hf
  · obtain ⟨q, hq⟩ := hr hnil
    exact exec_cdirRest hS (fun _ => hq) hf

end

/-! ## Going on after a marker -/

/-- What `forEachItemAfter` has done: whether the marker is passed, what is left of the limit, and
the keys called back with. -/
structure Visit where
  found : Bool
  limit : Nat
  visited : List Digest := []

section
variable (σ : State) (after : Digest) (f : List (Option Entry) → Bool)

/-- The loop over the entries of a page, and whether it returns. The callback's answer may depend on
all it was called with. -/
def visitKeys : List Digest → Visit → Bool × Visit
  | [], v => (false, v)
  | key :: rest, v =>
    if !v.found then
      visitKeys rest { v with found := key = after }
    else
      let v := { v with visited := v.visited ++ [key] }
      if f (v.visited.map σ) then
        -- `limit-- <= 1`, unsigned
        if v.limit ≤ 1 then (true, v) else visitKeys rest { v with limit := v.limit - 1 }
      else
        visitKeys rest v

/-- The loop over the pages, if they are no more than the fuel. -/
def visitPages (root : Digest) : Nat → Nat → Visit → Option Visit
  | 0, _, _ => none
  | fuel + 1, page, v =>
    match σ.get (keylet.page root page) with
    | none => some v
    | some ownerDir =>
      match visitKeys σ after f ownerDir.indexes v with
      | (true, v) => some v
      | (false, v) =>
        if ownerDir.indexNext = 0 then some v else visitPages root fuel ownerDir.indexNext v

/-- Without a marker, the loop is that after a marker is found. -/
def forEachItemAfter (id : AccountID) (hint limit : Nat) : Option Visit :=
  let root := (keylet.ownerDir id).key
  if after ≠ .raw 0 then
    let start := if after ∈ σ.pageEntries root hint then hint else 0
    visitPages σ after f root maxPages start { found := false, limit }
  else
    visitPages σ after f root maxPages 0 { found := true, limit }

end
end FinPal
