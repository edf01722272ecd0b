import FinPal.Ledger.DirIterator

/-!
# Directories hold sets of keys
-/

namespace FinPal
open Store ViewM Function
variable {keepRoot soft stable : Bool} {q : Nat}

section Pages
variable {σ σ' : State} {root entry : Digest} {S : Finset Nat} {p page : Nat} {n node : DirNode}

theorem DirRing.get_of_mem (hS : DirRing σ root S) (hp : p ∈ S) :
    ∃ n, σ.get (keylet.page root p) = some n := by
  obtain ⟨l, hl⟩ := Option.isSome_iff_exists.1 ((hS.mem p).1 hp)
  obtain ⟨n, hn, -⟩ := State.get_of_links hl
  exact ⟨n, hn⟩

theorem DirRing.mem_of_get (hS : DirRing σ root S) (hn : σ.get (keylet.page root p) = some n) :
    p ∈ S :=
  hS.mem_of_some (State.links_eq hn)

theorem State.refs_page (σ : State) (root : Digest) (p : Nat) (d : Digest) :
    σ.refs (keylet.page root p).key d = (σ.pageEntries root p).count d := by
  unfold refs pageEntries
  cases σ.get (keylet.page root p) <;> rfl

theorem RefsBy.count_page {f : Nat → Nat}
    (h : RefsBy f (keylet.page root q).key entry σ σ') (p : Nat) (d : Digest) :
    (σ'.pageEntries root p).count d = if p = q ∧ d = entry then f ((σ.pageEntries root p).count d)
      else (σ.pageEntries root p).count d := by
  rw [← State.refs_page, ← State.refs_page, h]
  simp [page_key_inj]

theorem State.pageEntries_of_none (h : σ.get (keylet.page root p) = none) :
    σ.pageEntries root p = [] := by
  rw [pageEntries, h, Option.elim_none]

theorem State.get_set_page (x : DirNode) (hn : σ.get (keylet.page root p) = some n) (q : Nat) :
    ∃ n', (σ.set (keylet.page root q) x).get (keylet.page root p) = some n' := by
  rw [get_set]
  split
  · exact ⟨x, rfl⟩
  · exact ⟨n, hn⟩

/-! ## The operations return -/

theorem exec_dirFind_hit {fuel : Nat} (hn : σ.get (keylet.page root page) = some node)
    (hm : entry ∈ node.indexes) :
    exec (dirFind root entry soft fuel page) σ = .ok (some (page, node), σ) := by
  have hh : (some node).filter (entry ∈ ·.indexes) = some node := by simp [hm]
  cases fuel <;> rw [dirFind, exec_peek_bind, hn, hh] <;> rfl

theorem exec_dirDelete_hit
    (hn : σ.get (keylet.page root page) = some node) (hm : entry ∈ node.indexes) :
    exec (dirDelete keepRoot page root entry stable soft) σ =
      exec (if (removeIndex stable node.indexes entry).isEmpty then
          dirUnlink keepRoot root page node else pure .tesSUCCESS) (σ.set (keylet.page root page)
          { node with indexes := removeIndex stable node.indexes entry }) := by
  rw [dirDelete, exec_bind_of_ok (exec_dirFind_hit hn hm)]
  exact exec_update_bind hn

theorem exec_dirUnlink (hS : DirRing σ root S)
    (hn : σ.links root page = some (node.indexNext, node.indexPrevious)) :
    ∃ σ', exec (dirUnlink keepRoot root page node) σ = .ok (.tesSUCCESS, σ') := by
  obtain ⟨_, hne⟩ := hS.get_of_mem (hS.next hn).1
  obtain ⟨prevNode, hpr⟩ := hS.get_of_mem (hS.prev hn).1
  obtain ⟨_, hro⟩ := hS.get_of_mem (hS.base _ (hS.mem_of_some hn)).1
  obtain ⟨_, hpa, -⟩ := State.get_of_links hn
  -- the root and another page go together
  have hbo {q : Nat} {m : DirNode} (hq : q ≠ 0) (hm : σ.get (keylet.page root q) = some m) :
      ∃ σ', exec (do
        erase (keylet.page root 0)
        erase (keylet.page root q)
        return TER.tesSUCCESS) σ = .ok (.tesSUCCESS, σ') := by
    have hm' : (σ.del (keylet.page root 0)).get (keylet.page root q) = some m := by
      rw [State.get_del, if_neg (by rw [page_key_inj]; exact hq), hm]
    rw [exec_erase_bind hro, exec_erase_bind hm']
    exact ⟨_, rfl⟩
  unfold dirUnlink
  split
  · split
    · rw [exec_erase_bind hro]
      exact ⟨_, rfl⟩
    split
    · exact ⟨σ, rfl⟩
    · next hpr0 hli =>
      rw [exec_peek!_bind hne]
      split
      · refine hbo (fun h0 => hpr0 ?_) hne
        exact (not_not.1 (not_or.1 hli).2).trans h0
      · exact ⟨σ, rfl⟩
  · next hp0 =>
    split
    · rw [exec_peek_bind, hpr]
      rw [exec_peek_bind, hne]
      obtain ⟨n1, hn1⟩ := State.get_set_page { prevNode with indexNext := node.indexNext } hne
        node.indexPrevious
      obtain ⟨_, hn2⟩ := State.get_set_page { prevNode with indexNext := node.indexNext } hpa
        node.indexPrevious
      obtain ⟨_, hn3⟩ := State.get_set_page { n1 with indexPrevious := node.indexPrevious } hn2
        node.indexNext
      rw [exec_update_bind hpr, exec_update_bind hn1, exec_erase_bind hn3]
      exact ⟨_, rfl⟩
    split
    · exact ⟨σ, rfl⟩
    rw [exec_peek!_bind hro]
    split
    · exact hbo hp0 hpa
    · exact ⟨σ, rfl⟩

theorem exec_dirDelete (hS : DirRing σ root S) (hm : entry ∈ σ.pageEntries root page) :
    ∃ σ', exec (dirDelete keepRoot page root entry stable soft) σ = .ok (.tesSUCCESS, σ') := by
  cases hn : σ.get (keylet.page root page) with
  | none =>
    rw [State.pageEntries_of_none hn] at hm
    cases hm
  | some node =>
    rw [State.pageEntries_eq hn] at hm
    rw [exec_dirDelete_hit hn hm]
    split
    · have hl := State.links_set_of_eq
        { node with indexes := removeIndex stable node.indexes entry } hn rfl rfl
      refine exec_dirUnlink (hS.of_links hl) ?_
      rw [hl, State.links_eq hn]
    · exact ⟨_, rfl⟩

theorem dirUnlink_vanishes {ter : TER} (hS : DirRing σ root S)
    (hn : σ.links root page = some (node.indexNext, node.indexPrevious))
    (hpa : ∀ r ∈ S, r = 0 ∨ r = q) (hke : keepRoot = true → q = 0)
    (hem : ∀ p, σ.pageEntries root p = [])
    (h : exec (dirUnlink keepRoot root page node) σ = .ok (ter, σ')) :
    σ'.get (keylet.page root 0) = none := by
  have hnext : RingNext S 0 page node.indexNext := hS.next hn
  obtain ⟨hpS, hpr⟩ : node.indexPrevious ∈ S ∧ RingNext S 0 node.indexPrevious page :=
    hS.prev hn
  obtain ⟨_, hnN⟩ := hS.get_of_mem hnext.1
  obtain ⟨_, hro⟩ := hS.get_of_mem (hS.base _ (hS.mem_of_some hn)).1
  have hnil {p : Nat} {n : DirNode} (hn : σ.get (keylet.page root p) = some n) :
      n.indexes.isEmpty = true := by
    rw [List.isEmpty_iff, ← State.pageEntries_eq hn, hem]
  unfold dirUnlink at h
  by_cases h0 : page = 0
  · rw [if_pos h0] at h
    subst h0
    split at h
    · rw [exec_erase_bind hro] at h
      obtain ⟨-, rfl⟩ := exec_pure.1 h
      exact State.get_del_self _ _
    · next hpr0 =>
      -- both neighbours of the root are the other page
      have hli : node.indexPrevious = node.indexNext := by
        have hne0 : node.indexNext ≠ 0 := fun hz =>
          hpr0 (Nat.le_zero.1 ((hz ▸ hnext).le le_rfl _ hpS))
        rw [(hpa _ hpS).resolve_left hpr0, (hpa _ hnext.1).resolve_left hne0]
      have hro0 : ¬ keepRoot = true := fun hk =>
        hpr0 (((hpa _ hpS).resolve_left hpr0).trans (hke hk))
      rw [if_neg (by simp [hli, hro0]), exec_peek!_bind hnN, if_pos (hnil hnN),
        exec_erase_bind hro] at h
      obtain rfl := exec_erase_last h
      rw [State.get_del, State.get_del_self, ite_self]
  rw [if_neg h0] at h
  -- the page is the last one, and the root is before it
  have hp := (hpa _ (hS.mem_of_some hn)).resolve_left h0
  have hne0 : node.indexNext = 0 := by
    by_contra hne
    have := (hnext.lt hne).1
    rw [(hpa _ hnext.1).resolve_left hne, hp] at this
    exact lt_irrefl q this
  have hpr0 : node.indexPrevious = 0 := by
    by_contra hne
    have := (hpr.lt h0).1
    rw [(hpa _ hpS).resolve_left hne, hp] at this
    exact lt_irrefl q this
  have hro0 : ¬ keepRoot = true := fun hk => h0 (hp.trans (hke hk))
  rw [if_neg (by simp [hne0]), if_neg (by simp [hpr0, hro0]), exec_peek!_bind hro,
    if_pos (hnil hro), exec_erase_bind hro] at h
  obtain rfl := exec_erase_last h
  rw [State.get_del, State.get_del_self, ite_self]

end Pages

/-! ## The keys a directory holds -/

/-- The pages of the directory hold the keys of `held`, each on its page. -/
structure HoldsKeys (σ : State) (root : Digest) (held : Digest → Option Nat) : Prop where
  ring : ∃ S, DirRing σ root S
  free : ∀ p, σ.get (keylet.page root p) = none → σ (keylet.page root p).key = none
  small : ∀ p, (σ.pageEntries root p).length ≤ DIR_NODE_MAX
  lists : ∀ p d, (σ.pageEntries root p).count d = if held d = some p then 1 else 0

/-- Only pages of directories are written, and entries erased. -/
def WritesPages (σ σ' : State) : Prop :=
  ∀ k, σ' k = σ k ∨ σ' k = none ∨ ∃ n : DirNode, σ' k = some (toEntry n)

theorem WritesPages.isRun : IsRun WritesPages where
  refl _ _ := .inl rfl
  trans σ1 σ2 σ3 h1 h2 k := by
    rcases h2 k with h | h
    · rw [h]
      exact h1 k
    · exact .inr h

theorem WritesPages.permits : Permits WritesPages DirNode where
  set {σ k x} y _ k' := by
    by_cases hk : k' = k.key
    · exact .inr (.inr ⟨y, by rw [hk, State.set, update_self]⟩)
    · exact .inl (update_of_ne hk _ _)
  insert {σ k} y _ k' := by
    by_cases hk : k' = k.key
    · exact .inr (.inr ⟨y, by rw [hk, State.set, update_self]⟩)
    · exact .inl (update_of_ne hk _ _)
  del {σ k x} _ k' := by
    by_cases hk : k' = k.key
    · exact .inr (.inl (by rw [hk, State.del, update_self]))
    · exact .inl (update_of_ne hk _ _)

namespace HoldsKeys
variable {σ σ' : State} {root key : Digest} {held : Digest → Option Nat} {ter : TER} {page : Nat}

theorem mem_pageEntries (h : HoldsKeys σ root held) {p : Nat} {d : Digest} :
    d ∈ σ.pageEntries root p ↔ held d = some p := by
  rw [← List.count_pos_iff, h.lists]
  split <;> simp [*]

variable {S : Finset Nat} {describe : DirNode → DirNode}

theorem mem_of_held (h : HoldsKeys σ root held) (hS : DirRing σ root S) {p : Nat} {d : Digest}
    (hd : held d = some p) : p ∈ S := by
  have hm := h.mem_pageEntries.2 hd
  cases hn : σ.get (keylet.page root p) with
  | none =>
    rw [State.pageEntries_of_none hn] at hm
    cases hm
  | some n => exact hS.mem_of_get hn

theorem absent (h : ∀ k, IsPage root k → σ k = none) : HoldsKeys σ root fun _ => none := by
  have hn (p) : σ.get (keylet.page root p) = none := State.get_of_none (h _ ⟨p, rfl⟩)
  refine ⟨⟨∅, .empty fun p => ?_⟩, fun p _ => h _ ⟨p, rfl⟩, fun p => ?_, fun p d => ?_⟩
  · rw [State.links, hn, Option.map_none]
  · rw [State.pageEntries_of_none (hn p)]
    exact Nat.zero_le _
  · rw [State.pageEntries_of_none (hn p)]
    simp

theorem of_frame (h : HoldsKeys σ root held) (hf : ∀ k, IsPage root k → σ' k = σ k) :
    HoldsKeys σ' root held := by
  obtain ⟨S, hS⟩ := h.ring
  have hk (p) : σ' (keylet.page root p).key = σ (keylet.page root p).key := hf _ ⟨p, rfl⟩
  have hg (p) : σ'.get (keylet.page root p) = σ.get (keylet.page root p) := by
    rw [State.get, State.get, hk]
  have hen (p) : σ'.pageEntries root p = σ.pageEntries root p := by
    rw [State.pageEntries, State.pageEntries, hg]
  refine ⟨⟨S, hS.of_frame hf⟩, fun p hp => ?_, fun p => ?_, fun p d => ?_⟩
  · rw [hk]
    exact h.free p (by rw [← hg, hp])
  · rw [hen]
    exact h.small p
  · rw [hen]
    exact h.lists p d

theorem free_of_writes (h : HoldsKeys σ root held) (hw : WritesPages σ σ') (p : Nat)
    (hp : σ'.get (keylet.page root p) = none) : σ' (keylet.page root p).key = none := by
  rcases hw (keylet.page root p).key with he | he | ⟨n, he⟩
  · rw [he]
    exact h.free p (by rw [State.get, ← he]; exact hp)
  · exact he
  · rw [State.get_eq_some.2 he] at hp
    cases hp

theorem length_le_of_count {l l' : List Digest} (h : ∀ d, l'.count d ≤ l.count d) :
    l'.length ≤ l.length :=
  (List.subperm_ext_iff.2 fun d _ => h d).length_le

section
variable (h : HoldsKeys σ root held)
include h

theorem room (he : exec (dirAdd ⟨root⟩ key describe) σ = .ok ((.tesSUCCESS, page), σ')) :
    (σ.pageEntries root page).length < DIR_NODE_MAX := by
  have hp : 0 < DIR_NODE_MAX := by decide
  rcases dirAdd_ok he with ⟨-, rfl, hg, -, -⟩ | ⟨rootNode, _, -, hno,
    ⟨-, rfl, hl, -⟩ | ⟨ht, -⟩ | ⟨-, -, -, n, σ1, σ2, rfl, -, rfl, hn, -⟩⟩
  · rw [State.pageEntries_of_none hg]
    exact hp
  · have hsm := h.small rootNode.indexPrevious
    rw [State.pageEntries_eq hno] at hsm ⊢
    exact lt_of_le_of_ne hsm hl
  · cases ht
  rw [State.pageEntries_of_none (State.get_of_none ?_)]
  · exact hp
  -- the key was free before the two writes
  simp only [State.set, update_apply] at hn
  split at hn
  · cases hn
  split at hn
  · cases hn
  · exact hn

theorem add (hk : held key = none) (hd : Describes describe) (hl : KeepsLinks describe)
    (he : exec (dirAdd ⟨root⟩ key describe) σ = .ok ((.tesSUCCESS, page), σ')) :
    HoldsKeys σ' root (update held key (some page)) := by
  obtain ⟨S, hS⟩ := h.ring
  have hco := (show RefsBy (· + 1) (keylet.page root page).key key σ σ' from
    dirAdd_refs hd he).count_page
  refine ⟨dirAdd_ring hl hS he, h.free_of_writes (ensures_dirAdd WritesPages.isRun WritesPages.permits he), fun p => ?_,
    fun p d => ?_⟩
  · by_cases hp : p = page
    · subst hp
      refine le_trans (length_le_of_count (l := key :: σ.pageEntries root p) fun d => ?_) (h.room he)
      rw [hco, List.count_cons]
      by_cases hdk : d = key
      · simp [hdk]
      · simp [hdk]
    · refine le_trans (length_le_of_count fun d => ?_) (h.small p)
      rw [hco, if_neg fun hc => hp hc.1]
  rw [hco, h.lists]
  by_cases hdk : d = key
  · subst hdk
    simp [hk, eq_comm]
  · simp [hdk]

theorem add_or_full (hk : held key = none) (hd : Describes describe)
    (hl : KeepsLinks describe) (he : exec (dirAdd ⟨root⟩ key describe) σ = .ok ((ter, page), σ')) :
    HoldsKeys σ' root (if ter = .tesSUCCESS then update held key (some page) else held) := by
  split
  · next ht =>
    subst ht
    exact h.add hk hd hl he
  · next ht =>
    rcases dirAdd_ok he with ⟨hs, -⟩ | ⟨_, _, -, -, ⟨hs, -⟩ | ⟨-, rfl⟩ | ⟨hs, -⟩⟩
    · exact absurd hs ht
    · exact absurd hs ht
    · exact h
    · exact absurd hs ht

theorem delete (hk : held key = some page)
    (he : exec (dirDelete keepRoot page root key stable soft) σ = .ok (ter, σ')) :
    ter = .tesSUCCESS ∧ HoldsKeys σ' root (update held key none) := by
  obtain ⟨S, hS⟩ := h.ring
  obtain ⟨σ'', hok⟩ : ∃ σ'', exec (dirDelete keepRoot page root key stable soft) σ =
      .ok (.tesSUCCESS, σ'') := exec_dirDelete hS (h.mem_pageEntries.2 hk)
  rw [hok] at he
  cases he
  refine ⟨rfl, ?_⟩
  rcases dirDelete_refs hok with ⟨ht, -⟩ | ⟨q, -, hpos, hby⟩
  · cases ht
  obtain rfl : q = page := by
    rw [State.refs_page, List.count_pos_iff, h.mem_pageEntries, hk] at hpos
    exact (Option.some.inj hpos).symm
  have hco := hby.count_page
  refine ⟨dirDelete_ring hS hok, h.free_of_writes (ensures_dirDelete WritesPages.isRun
      WritesPages.permits.toPermitsChange hok),
    fun p => ?_, fun p d => ?_⟩
  · refine le_trans (length_le_of_count fun d => ?_) (h.small p)
    rw [hco]
    split
    · exact Nat.sub_le _ _
    · exact le_rfl
  rw [hco, h.lists]
  by_cases hdk : d = key
  · subst hdk
    by_cases hp : p = q <;> simp [hk, hp, Ne.symm]
  · simp [hdk]

/-- The directory goes with its last key when there is only the root, or one more page that need not
be kept. -/
theorem vanishes (hS : DirRing σ root S)
    (hk : held key = some page) (hla : ∀ d, d ≠ key → held d = none)
    (hpa : ∀ r ∈ S, r = 0 ∨ r = q) (hke : keepRoot = true → q = 0)
    (he : exec (dirDelete keepRoot page root key stable soft) σ = .ok (ter, σ')) :
    ∀ k, IsPage root k → σ' k = none := by
  obtain ⟨-, h'⟩ := h.delete hk he
  have hm := h.mem_pageEntries.2 hk
  -- it is enough that the root goes
  suffices hro : σ'.get (keylet.page root 0) = none by
    obtain ⟨_, hS'⟩ := h'.ring
    have hli : σ'.links root 0 = none := by rw [State.links, hro, Option.map_none]
    rintro k ⟨p, rfl⟩
    refine h'.free p ?_
    cases hp : σ'.get (keylet.page root p) with
    | none => rfl
    | some n =>
      have := hS'.mem_of_get hp
      rw [hS'.eq_empty hli] at this
      simp at this
  cases hn : σ.get (keylet.page root page) with
  | none =>
    rw [State.pageEntries_of_none hn] at hm
    cases hm
  | some node =>
    rw [State.pageEntries_eq hn] at hm
    generalize hno : { node with indexes := removeIndex stable node.indexes key } = node'
    have hnil (p) : (σ.set (keylet.page root page) node').pageEntries root p = [] := by
      have hby : RefsBy (· - 1) (keylet.page root page).key key σ
          (σ.set (keylet.page root page) node') :=
        RefsBy.set _ hn (by rw [← hno]; exact count_removeIndex hm)
      refine List.eq_nil_iff_forall_not_mem.2 fun d hd => ?_
      rw [← List.count_pos_iff, hby.count_page, h.lists] at hd
      by_cases hdk : d = key
      · subst hdk
        by_cases hp : p = page
        · simp [hp, hk] at hd
        · simp [hp, hk, Ne.symm hp] at hd
      · simp [hdk, hla d hdk] at hd
    have hin : removeIndex stable node.indexes key = [] := by
      have := hnil page
      rw [State.pageEntries_eq (State.get_set_self _ _ _), ← hno] at this
      exact this
    have hl := State.links_set_of_eq node' hn (by rw [← hno]) (by rw [← hno])
    rw [exec_dirDelete_hit hn hm, if_pos (by rw [hin]; rfl), hno] at he
    refine dirUnlink_vanishes (hS.of_links hl) ?_ hpa hke hnil he
    rw [hl, State.links_eq hn]

theorem exec_dirAdd (key : Digest) (describe : DirNode → DirNode) :
    ∃ ter page σ', exec (dirAdd ⟨root⟩ key describe) σ = .ok ((ter, page), σ') := by
  obtain ⟨S, hS⟩ := h.ring
  unfold dirAdd
  rw [exec_peek_bind]
  cases hro : σ.get (⟨root⟩ : Keylet DirNode) with
  | none =>
    have hfr : σ (⟨root⟩ : Keylet DirNode).key = none := h.free 0 hro
    rw [exec_insert_bind hfr]
    exact ⟨_, _, _, rfl⟩
  | some rootNode =>
    have hli := State.links_eq (p := 0) hro
    have hm := hS.le_last hli
    obtain ⟨node, hno⟩ := hS.get_of_mem (hS.prev hli).1
    dsimp only at hm hno ⊢
    rw [exec_peek!_bind hno]
    split
    · rw [exec_update_bind hno]
      exact ⟨_, _, _, rfl⟩
    split
    · exact ⟨_, _, _, rfl⟩
    · next hne =>
      -- the number after the last one is not in use
      have hbo := hS.bound _ (hS.mem_of_get hno)
      generalize hnew : (rootNode.indexPrevious + 1) % 2 ^ 64 = new at hne ⊢
      have hfr : σ (keylet.page root new).key = none := by
        refine h.free new ?_
        cases hg : σ.get (keylet.page root new) with
        | none => rfl
        | some n =>
          have := hm new (hS.mem_of_get hg)
          omega
      obtain ⟨n, hn⟩ := State.get_set_page { node with indexNext := new } (p := 0) hro
        rootNode.indexPrevious
      have hn' : (σ.set (keylet.page root rootNode.indexPrevious)
        { node with indexNext := new }).get (⟨root⟩ : Keylet DirNode) = some n := hn
      rw [exec_update_bind hno, exec_update_bind hn', exec_insert_bind]
      · exact ⟨_, _, _, rfl⟩
      have hla : (keylet.page root new).key ≠ (keylet.page root rootNode.indexPrevious).key := by
        rw [Ne, page_key_inj]
        omega
      have hze : (keylet.page root new).key ≠ (⟨root⟩ : Keylet DirNode).key := by
        change _ ≠ (keylet.page root 0).key
        rw [Ne, page_key_inj]
        exact hne
      rw [State.set, update_of_ne hze, State.set, update_of_ne hla, hfr]

theorem dirEntries (hS : DirRing σ root S) :
    (σ.dirEntries root S).Nodup ∧ ∀ d, d ∈ σ.dirEntries root S ↔ held d ≠ none := by
  constructor
  · refine List.nodup_flatMap.2 ⟨fun p _ => ?_, ?_⟩
    · refine List.nodup_iff_count_le_one.2 fun d => ?_
      rw [h.lists]
      split <;> simp
    refine (Finset.sort_nodup _ _).imp fun {p q} hne d hp hq => hne ?_
    rw [h.mem_pageEntries] at hp hq
    exact Option.mem_unique hp hq
  intro d
  simp only [State.dirEntries, List.mem_flatMap, Finset.mem_sort, h.mem_pageEntries]
  constructor
  · rintro ⟨p, -, hp⟩ hd
    rw [hd] at hp
    cases hp
  intro hd
  obtain ⟨p, hp⟩ := Option.ne_none_iff_exists'.1 hd
  exact ⟨p, h.mem_of_held hS hp, hp⟩

end
end HoldsKeys

/-! ## Runs -/

/-- The states after additions of fresh keys and deletions of held ones that meet a condition, with
the pages of the held keys. The rest of the ledger may change. -/
inductive DirHistory (root : Digest) (σ₀ : State)
    (C : State → (Digest → Option Nat) → Bool → Digest → Prop) : State → (Digest → Option Nat) → Prop
  | start : DirHistory root σ₀ C σ₀ fun _ => none
  | add {σ σ' : State} {held : Digest → Option Nat} {key : Digest} {describe : DirNode → DirNode}
      {ter : TER} {page : Nat} :
      DirHistory root σ₀ C σ held → held key = none → Describes describe → KeepsLinks describe →
      exec (dirAdd ⟨root⟩ key describe) σ = .ok ((ter, page), σ') →
      DirHistory root σ₀ C σ' (if ter = .tesSUCCESS then Function.update held key (some page) else held)
  | delete {σ σ' : State} {held : Digest → Option Nat} {key : Digest} {page : Nat}
      {keepRoot stable soft : Bool} {ter : TER} :
      DirHistory root σ₀ C σ held → held key = some page → C σ held keepRoot key →
      exec (dirDelete keepRoot page root key stable soft) σ = .ok (ter, σ') →
      DirHistory root σ₀ C σ' (Function.update held key none)
  | elsewhere {σ σ' : State} {held : Digest → Option Nat} :
      DirHistory root σ₀ C σ held → (∀ k, IsPage root k → σ' k = σ k) →
      DirHistory root σ₀ C σ' held

theorem DirHistory.holdsKeys {root : Digest} {σ₀ σ : State} {held : Digest → Option Nat}
    {C : State → (Digest → Option Nat) → Bool → Digest → Prop}
    (h0 : ∀ k, IsPage root k → σ₀ k = none) (h : DirHistory root σ₀ C σ held) :
    HoldsKeys σ root held := by
  induction h with
  | start => exact .absent h0
  | add _ hk hd hl he ih => exact ih.add_or_full hk hd hl he
  | delete _ hk _ he ih => exact (ih.delete hk he).2
  | elsewhere _ hf ih => exact ih.of_frame hf

/-- A directory that starts absent holds the keys added and not deleted, each once, on pages of at
most `32` entries that make a doubly linked list with the root. Both operations return, and a
deletion succeeds; the last key takes the directory with it when at most one page is left beside the
root; and an iteration over a directory that exists gives the keys and stops. -/
theorem directory_refinement {root : Digest} {σ₀ σ : State} {held : Digest → Option Nat}
    (h₀ : ∀ k, IsPage root k → σ₀ k = none) (hrun : DirHistory root σ₀ (fun _ _ _ _ => True) σ held) :
    (∀ key describe, ∃ ter page σ', exec (dirAdd ⟨root⟩ key describe) σ = .ok ((ter, page), σ')) ∧
    (∀ key page stable soft, held key = some page →
      ∃ σ', exec (dirDelete false page root key stable soft) σ = .ok (.tesSUCCESS, σ')) ∧
    ∃ S, DirRing σ root S ∧ (∀ p, (σ.pageEntries root p).length ≤ 32) ∧
      (∀ p d, d ∈ σ.pageEntries root p ↔ held d = some p) ∧
      (σ.dirEntries root S).Nodup ∧ (∀ d, d ∈ σ.dirEntries root S ↔ held d ≠ none) ∧
      (∀ key page stable soft σ' q, held key = some page → (∀ d, d ≠ key → held d = none) →
        (∀ r ∈ S, r = 0 ∨ r = q) →
        exec (dirDelete false page root key stable soft) σ = .ok (.tesSUCCESS, σ') →
        ∀ k, IsPage root k → σ' k = none) ∧
      ((∃ n, σ.get (keylet.page root 0) = some n) →
        ∀ fuel, (σ.dirEntries root S).length < fuel →
          exec (cdirEntries root fuel) σ = .ok (σ.dirEntries root S, σ)) := by
  have h := hrun.holdsKeys h₀
  obtain ⟨S, hS⟩ := h.ring
  refine ⟨h.exec_dirAdd, fun key page stable soft hkey => ?_, S, hS, h.small,
    fun p d => h.mem_pageEntries, (h.dirEntries hS).1, (h.dirEntries hS).2, ?_, ?_⟩
  · exact exec_dirDelete hS (h.mem_pageEntries.2 hkey)
  · intro key page stable soft σ' q hkey hla hpa he
    exact h.vanishes hS hkey hla hpa (fun hk => absurd hk Bool.false_ne_true) he
  · rintro ⟨n, hn⟩ fuel hfu
    exact exec_cdirEntries hS (hS.mem_of_get hn) hfu

/-! ### An owner with more than one page -/

namespace OwnerPages
open Function

abbrev Run := State × (Digest → Option Nat)

def add : Run → Digest → Option Run
  | (σ, held), key =>
    match exec (dirAdd ⟨.ownerDir 1⟩ key (describeOwnerDir 1)) σ with
    | .ok ((ter, page), σ') =>
      if held key = none ∧ ter = .tesSUCCESS then
        some (σ', Function.update held key (some page)) else none
    | .error _ => none

/-- Escrows and channels delete a key with the root to be kept, and others without. -/
def delete (keepRoot : Bool) : Run → Digest → Option Run
  | (σ, held), key =>
    match held key with
    | none => none
    | some page =>
      match exec (dirDelete keepRoot page (.ownerDir 1) key false (page == 0)) σ with
      | .ok (_, σ') => some (σ', Function.update held key none)
      | .error _ => none

def keys : List Digest := (List.range 33).map fun i => .account (Fin.ofNat _ i)

abbrev History (r : Run) : Prop :=
  DirHistory (.ownerDir 1) (fun _ => none) (fun _ _ _ _ => True) r.1 r.2

variable {r r' : Run} {l : List Digest} {key : Digest} {keepRoot : Bool}

theorem history_add (h : History r) (ha : add r key = some r') :
    History r' ∧ ∀ d, r'.2 d ≠ none → d = key ∨ r.2 d ≠ none := by
  obtain ⟨σ, _⟩ := r
  unfold add at ha
  dsimp only at ha
  cases he : exec (dirAdd ⟨.ownerDir 1⟩ key (describeOwnerDir 1)) σ with
  | error e =>
    rw [he] at ha
    cases ha
  | ok _ =>
    rw [he] at ha
    dsimp only at ha
    split at ha
    · next hk =>
      cases ha
      have hadd := DirHistory.add h hk.1 (describes_describeOwnerDir 1)
        (keepsLinks_describeOwnerDir 1) he
      rw [if_pos hk.2] at hadd
      refine ⟨hadd, fun d hd => ?_⟩
      by_cases hdk : d = key
      · exact .inl hdk
      dsimp only at hd
      rw [update_of_ne hdk] at hd
      exact .inr hd
    · cases ha

theorem history_delete (h : History r) (hd : delete keepRoot r key = some r') :
    History r' ∧ r'.2 = update r.2 key none := by
  obtain ⟨σ, held⟩ := r
  unfold delete at hd
  dsimp only at hd
  cases hk : held key with
  | none =>
    rw [hk] at hd
    cases hd
  | some page =>
    rw [hk] at hd
    dsimp only at hd
    cases he : exec (dirDelete keepRoot page (.ownerDir 1) key false (page == 0)) σ with
    | error e =>
      rw [he] at hd
      cases hd
    | ok _ =>
      rw [he] at hd
      cases hd
      exact ⟨.delete h hk trivial he, rfl⟩

theorem history_adds (h : History r) (ha : l.foldlM add r = some r') :
    History r' ∧ ∀ d, r'.2 d ≠ none → d ∈ l ∨ r.2 d ≠ none := by
  induction l generalizing r with
  | nil =>
    cases ha
    exact ⟨h, fun d hd => .inr hd⟩
  | cons _ l ih =>
    obtain ⟨_, h1, ha⟩ := Option.bind_eq_some_iff.1 ha
    obtain ⟨hh, hkey⟩ := history_add h h1
    obtain ⟨hhi', hk⟩ := ih hh ha
    refine ⟨hhi', fun d hd => ?_⟩
    obtain hd | hd := hk d hd
    · exact .inl (List.mem_cons_of_mem _ hd)
    refine (hkey d hd).imp_left ?_
    rintro rfl
    exact List.mem_cons_self

/-- 33 keys are added, and the last one, alone on the second page, is deleted. -/
def emptied : Option Run :=
  (keys.foldlM add (fun _ => none, fun _ => none)).bind fun r => delete false r (.account 32)

end OwnerPages

open OwnerPages in
/-- The second page is left without keys. The directory holds the others, and one of them can be
deleted. -/
theorem directory_refinement_sample : ∃ r, emptied = some r ∧
    (r.1.get (keylet.page (.ownerDir 1) 1)).map (·.indexes) = some [] ∧
    (∃ S, DirRing r.1 (.ownerDir 1) S ∧ (r.1.dirEntries (.ownerDir 1) S).Nodup ∧
      .account 3 ∈ r.1.dirEntries (.ownerDir 1) S ∧
      .account 32 ∉ r.1.dirEntries (.ownerDir 1) S) ∧
    ∃ σ', exec (dirDelete false 0 (.ownerDir 1) (.account 3) false true) r.1 =
      .ok (.tesSUCCESS, σ') := by
  have hrun : (emptied.any fun r => (r.1.get (keylet.page (.ownerDir 1) 1)).map (·.indexes) ==
      some [] && (r.2 (.account 3) == some 0 && r.2 (.account 32) == none)) = true := by
    decide +kernel
  cases hr : emptied with
  | none =>
    rw [hr] at hrun
    cases hrun
  | some r =>
    simp only [hr, Option.any_some, Bool.and_eq_true, beq_iff_eq] at hrun
    obtain ⟨hpage, hfirst, hgone⟩ := hrun
    obtain ⟨_, ha, hd⟩ := Option.bind_eq_some_iff.1 hr
    have hh := (history_delete (history_adds .start ha).1 hd).1
    obtain ⟨-, hdel, S, hS, -, -, hno, hm, -⟩ := directory_refinement (fun _ _ => rfl) hh
    refine ⟨r, rfl, hpage, ⟨S, hS, hno, (hm _).2 ?_, fun h => (hm _).1 h hgone⟩, hdel _ _ _ _ hfirst⟩
    rw [hfirst]
    simp

/-- An iteration needs a directory: before the first key there is none, and `cdirFirst` uses the page
it does not find. -/
theorem cdirFirst_absent :
    DirHistory (.ownerDir 1) (fun _ => none) (fun _ _ _ _ => True) (fun _ => none) (fun _ => none) ∧
      exec (cdirFirst (.ownerDir 1)) (fun _ => none) = .error .nullPointer :=
  ⟨.start, rfl⟩

end FinPal
