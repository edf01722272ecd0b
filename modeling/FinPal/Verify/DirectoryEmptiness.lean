import FinPal.Verify.DirectoryRefinement

/-!
# The test for an empty directory

`dirIsEmpty` takes a directory with a second page for one that holds a key. That is right unless the
last key was deleted when there were three pages, or two that had to be kept: then empty pages are
left.
-/

namespace FinPal
open Store ViewM Function
variable {σ σ' σ₀ : State} {root key : Digest} {held : Digest → Option Nat} {S : Finset Nat}
  {page : Nat} {keepRoot stable soft : Bool} {ter : TER}

/-- The test says whether any page of the directory holds a key. -/
def TellsEmpty (σ : State) (root : Digest) : Prop :=
  ∃ b, exec (dirIsEmpty ⟨root⟩) σ = .ok (b, σ) ∧ (b = true ↔ ∀ p, σ.pageEntries root p = [])

theorem exec_dirIsEmpty (σ : State) (k : Keylet DirNode) : exec (dirIsEmpty k) σ =
      .ok ((σ.get k).all fun n => n.indexes.isEmpty && n.indexNext == 0, σ) := by
  unfold dirIsEmpty
  rw [exec_peek_bind]
  cases σ.get k with
  | none => rfl
  | some n =>
    cases hn : n.indexes.isEmpty with
    | true => simp [hn]; rfl
    | false => simp [hn]; rfl

theorem DirRing.notMem_of_absent (hS : DirRing σ root S) (h : ∀ k, IsPage root k → σ k = none)
    (r : Nat) : r ∉ S := by
  intro hr
  obtain ⟨n, hn⟩ := hS.get_of_mem hr
  have hno : σ.get (keylet.page root r) = none := State.get_of_none (h _ ⟨r, rfl⟩)
  rw [hno] at hn
  cases hn

theorem DirRing.isEmpty_iff (hS : DirRing σ root S) :
    ((σ.get (⟨root⟩ : Keylet DirNode)).all fun n => n.indexes.isEmpty && n.indexNext == 0) = true ↔
      σ.pageEntries root 0 = [] ∧ ∀ r ∈ S, r = 0 := by
  cases hro : σ.get (⟨root⟩ : Keylet DirNode) with
  | none =>
    have hli : σ.links root 0 = none := by
      change (σ.get (⟨root⟩ : Keylet DirNode)).map _ = none
      rw [hro, Option.map_none]
    rw [hS.eq_empty hli, State.pageEntries_of_none hro]
    simp
  | some n =>
    have hne := hS.next (State.links_eq (p := 0) hro)
    have hze : n.indexNext = 0 ↔ ∀ r ∈ S, r = 0 := by
      constructor
      · intro h0 r hr
        rw [h0] at hne
        exact Nat.le_zero.1 (hne.le le_rfl r hr)
      · intro ha
        exact ha _ hne.1
    rw [State.pageEntries_eq hro, ← hze, Option.all_some, Bool.and_eq_true,
      List.isEmpty_iff, beq_iff_eq]

namespace HoldsKeys

theorem tellsEmpty_iff (h : HoldsKeys σ root held) (hS : DirRing σ root S) :
    TellsEmpty σ root ↔ (∃ d, held d ≠ none) ∨ ∀ r ∈ S, r = 0 := by
  have hte : TellsEmpty σ root ↔
      ((σ.pageEntries root 0 = [] ∧ ∀ r ∈ S, r = 0) ↔ ∀ p, σ.pageEntries root p = []) := by
    rw [← hS.isEmpty_iff]
    unfold TellsEmpty
    rw [exec_dirIsEmpty]
    constructor
    · rintro ⟨b, heq, hb⟩
      cases heq
      exact hb
    · intro hb
      exact ⟨_, rfl, hb⟩
  rw [hte]
  by_cases hd : ∃ d, held d ≠ none
  · refine iff_of_true ?_ (.inl hd)
    obtain ⟨d, hd⟩ := hd
    obtain ⟨p, hp⟩ := Option.ne_none_iff_exists'.1 hd
    have hm := h.mem_pageEntries.2 hp
    refine iff_of_false ?_ fun hn => ?_
    · rintro ⟨hn, ha⟩
      rw [ha p (h.mem_of_held hS hp), hn] at hm
      cases hm
    · rw [hn p] at hm
      cases hm
  have hn (p) : σ.pageEntries root p = [] := by
    refine List.eq_nil_iff_forall_not_mem.2 fun d hm => hd ⟨d, ?_⟩
    rw [h.mem_pageEntries.1 hm]
    nofun
  rw [or_iff_right hd, iff_true_right hn, and_iff_right (hn 0)]

/-- If only the root is left, there was no other page, or one that could go. -/
theorem pages_of_root (h : HoldsKeys σ root held) (hS : DirRing σ root S)
    (hkey : held key = some page)
    (he : exec (dirDelete keepRoot page root key stable soft) σ = .ok (ter, σ'))
    (hro : ∀ r n, σ'.get (keylet.page root r) = some n → r = 0) :
    ∃ q, (∀ r ∈ S, r = 0 ∨ r = q) ∧ (keepRoot = true → q = 0) := by
  obtain ⟨rfl, -⟩ := h.delete hkey he
  rcases dirDelete_ok he with ⟨hb, -⟩ | ⟨p, n, σ1, -, hn, -, rfl, hend⟩
  · cases hb
  generalize hn' : { n with indexes := removeIndex stable n.indexes key } = n' at hend
  have hl := State.links_set_of_eq n' hn (by rw [← hn']) (by rw [← hn'])
  have hS1 := hS.of_links hl
  have hli : (σ.set (keylet.page root p) n').links root p =
      some (n.indexNext, n.indexPrevious) := by rw [hl, State.links_eq hn]
  -- Where no page goes, there is only the root.
  have hst (hσ : σ' = σ.set (keylet.page root p) n') :
      ∃ q, (∀ r ∈ S, r = 0 ∨ r = q) ∧ (keepRoot = true → q = 0) := by
    refine ⟨0, fun r hr => .inl ?_, fun _ => rfl⟩
    obtain ⟨m, hm⟩ := hS1.get_of_mem hr
    exact hro r m (hσ ▸ hm)
  rcases hend with hσ | ⟨-, hun⟩
  · exact hst hσ
  rcases dirUnlink_ok hun with hσ | ⟨rfl, hpr, -⟩ | ⟨q, hke, hpa, -⟩ |
    ⟨hp, hne, n1, n2, σ1, σ2, hn1, rfl, hn2, rfl, rfl⟩
  · exact hst hσ
  · exact ⟨0, fun r hr => .inl (hS1.eq_base hli hpr r hr), fun _ => rfl⟩
  · exact ⟨q, hpa.pages hS1 hli, fun hk => absurd (hk.symm.trans hke) nofun⟩
  -- A page in the middle leaves the page after it.
  refine absurd (hro n.indexNext { n2 with indexPrevious := n.indexPrevious } ?_) hne
  have hlt := ((hS1.next hli).lt hne).1
  rw [State.get_del, if_neg (by rw [page_key_inj]; exact hlt.ne'), State.get_set_self]

end HoldsKeys

/-! ### Runs -/

/-- The key is not the last one, or the directory goes with it: there is only the root, or one more
page that need not be kept. -/
def GoesWithLast (root : Digest) (σ : State) (held : Digest → Option Nat) (keepRoot : Bool)
    (key : Digest) : Prop :=
  (∃ d, d ≠ key ∧ held d ≠ none) ∨
    ∃ q, (∀ r n, σ.get (keylet.page root r) = some n → r = 0 ∨ r = q) ∧ (keepRoot = true → q = 0)

/-- A deletion leaves a directory that the test is right about iff the directory goes with its last
key. -/
theorem tellsEmpty_delete (h : HoldsKeys σ root held) (hk : held key = some page)
    (he : exec (dirDelete keepRoot page root key stable soft) σ = .ok (ter, σ')) :
    TellsEmpty σ' root ↔ GoesWithLast root σ held keepRoot key := by
  obtain ⟨S, hS⟩ := h.ring
  obtain ⟨-, h'⟩ := h.delete hk he
  obtain ⟨_, hS'⟩ := h'.ring
  rw [h'.tellsEmpty_iff hS']
  by_cases hot : ∃ d, d ≠ key ∧ held d ≠ none
  · obtain ⟨d, hd, hhe⟩ := id hot
    refine iff_of_true (.inl ⟨d, ?_⟩) (.inl hot)
    rwa [update_of_ne hd]
  have hla (d : Digest) (hd : d ≠ key) : held d = none := by
    by_contra hhe
    exact hot ⟨d, hd, hhe⟩
  have hno : ¬ ∃ d, update held key none d ≠ none := by
    rintro ⟨d, hd⟩
    by_cases hdk : d = key
    · rw [hdk, update_self] at hd
      exact hd rfl
    · rw [update_of_ne hdk] at hd
      exact hd (hla d hdk)
  unfold GoesWithLast
  rw [or_iff_right hno, or_iff_right hot]
  constructor
  · intro hro
    obtain ⟨q, hpa, hke⟩ := h.pages_of_root hS hk he fun r n hn => hro r (hS'.mem_of_get hn)
    exact ⟨q, fun r n hn => hpa r (hS.mem_of_get hn), hke⟩
  rintro ⟨q, hpa, hke⟩ r hr
  have hpa' : ∀ r ∈ S, r = 0 ∨ r = q := by
    intro r hr
    obtain ⟨n, hn⟩ := hS.get_of_mem hr
    exact hpa r n hn
  have hgo := h.vanishes hS hk hla hpa' hke he
  exact absurd hr (hS'.notMem_of_absent hgo r)

theorem DirHistory.tellsEmpty (h0 : ∀ k, IsPage root k → σ₀ k = none)
    (h : DirHistory root σ₀ (GoesWithLast root) σ held) : TellsEmpty σ root := by
  induction h with
  | start =>
    have hke : HoldsKeys σ₀ root fun _ => none := .absent h0
    obtain ⟨S, hS⟩ := hke.ring
    exact (hke.tellsEmpty_iff hS).2 (.inr fun r hr => absurd hr (hS.notMem_of_absent h0 r))
  | @add σ _ held key _ ter _ hrun hk hd hl he ih =>
    have hke := (hrun.holdsKeys h0).add_or_full hk hd hl he
    obtain ⟨S, hS⟩ := hke.ring
    by_cases ht : ter = .tesSUCCESS
    · refine (hke.tellsEmpty_iff hS).2 (.inl ⟨key, ?_⟩)
      rw [if_pos ht, update_self]
      nofun
    rcases dirAdd_ok he with ⟨hs, -⟩ | ⟨_, _, -, -, ⟨hs, -⟩ | ⟨-, rfl⟩ | ⟨hs, -⟩⟩
    · exact absurd hs ht
    · exact absurd hs ht
    · exact ih
    · exact absurd hs ht
  | delete hrun hk hgo he _ => exact (tellsEmpty_delete (hrun.holdsKeys h0) hk he).2 hgo
  | elsewhere hrun hf ih =>
    have hke := hrun.holdsKeys h0
    obtain ⟨S, hS⟩ := hke.ring
    rw [hke.tellsEmpty_iff hS] at ih
    exact ((hke.of_frame hf).tellsEmpty_iff (hS.of_frame hf)).2 ih

/-- In every history of a directory, after a deletion `dirIsEmpty` tells whether any page holds a
key iff it was not the last key or the directory went with it; and in a history of such deletions it
is right in every state. -/
theorem empty_directory_test (h₀ : ∀ k, IsPage root k → σ₀ k = none) :
    (∀ σ held, DirHistory root σ₀ (fun _ _ _ _ => True) σ held →
      ∀ key page keepRoot stable soft ter σ', held key = some page →
        exec (dirDelete keepRoot page root key stable soft) σ = .ok (ter, σ') →
        (TellsEmpty σ' root ↔ GoesWithLast root σ held keepRoot key)) ∧
    ∀ σ held, DirHistory root σ₀ (GoesWithLast root) σ held → TellsEmpty σ root := by
  constructor
  · intro σ held hr key page keepRoot stable soft ter σ' hk he
    exact tellsEmpty_delete (hr.holdsKeys h₀) hk he
  · intro σ held hr
    exact hr.tellsEmpty h₀

namespace Sample

/-- A key in the directory of account 1. -/
def oneKey (key : Digest) : State := State.set (fun _ => none) ⟨.ownerDir 1⟩
  (describeOwnerDir 1 { rootIndex := .ownerDir 1, indexes := [key] })

end Sample

open Sample in
/-- The one key of a directory is added and deleted again, and the directory goes with it. -/
theorem empty_directory_test_sample : ∃ σ',
    exec (dirDelete true 0 (.ownerDir 1) (.account 2) false true) (oneKey (.account 2)) =
      .ok (.tesSUCCESS, σ') ∧ TellsEmpty σ' (.ownerDir 1) := by
  have hadd : DirHistory (.ownerDir 1) (fun _ => none) (GoesWithLast (.ownerDir 1))
      (oneKey (.account 2)) _ := .add .start rfl (describes_describeOwnerDir 1)
    (keepsLinks_describeOwnerDir 1) rfl
  have hkeys := hadd.holdsKeys fun _ _ => rfl
  obtain ⟨S, hS⟩ := hkeys.ring
  obtain ⟨σ', he⟩ : ∃ σ', exec (dirDelete true 0 (.ownerDir 1) (.account 2) false true)
    (oneKey (.account 2)) = .ok (.tesSUCCESS, σ') := exec_dirDelete hS (hkeys.mem_pageEntries.2 rfl)
  have hgoes : GoesWithLast (.ownerDir 1) (oneKey (.account 2))
      (update (fun _ => none) (.account 2) (some 0)) true (.account 2) := by
    refine .inr ⟨0, fun r n hn => .inl ?_, fun _ => rfl⟩
    by_contra hr
    unfold oneKey at hn
    rw [State.get_set_ne] at hn
    · cases hn
    · exact fun h => hr (page_key_inj.1 h)
  exact ⟨σ', he, (empty_directory_test fun _ _ => rfl).2 _ _ (.delete hadd rfl hgoes he)⟩

/-! ### Pages that are kept -/

namespace OwnerPages

def run (l : List Digest) : Option Run :=
  (l.foldlM add (fun _ => none, fun _ => none)).bind (l.foldlM (delete true))

variable {r r' : Run} {l : List Digest}

theorem history_deletes (h : History r) (hd : l.foldlM (delete keepRoot) r = some r')
    (hk : ∀ d, r.2 d ≠ none → d ∈ l) : History r' ∧ ∀ d, r'.2 d = none := by
  induction l generalizing r with
  | nil =>
    cases hd
    refine ⟨h, fun d => ?_⟩
    by_contra hne
    exact List.not_mem_nil (hk d hne)
  | cons key l ih =>
    obtain ⟨_, h1, hd⟩ := Option.bind_eq_some_iff.1 hd
    obtain ⟨hh, hhe⟩ := history_delete h h1
    refine ih hh hd fun d hne => ?_
    rw [hhe] at hne
    by_cases hdk : d = key
    · rw [hdk, update_self] at hne
      exact absurd rfl hne
    · rw [update_of_ne hdk] at hne
      exact List.mem_of_ne_of_mem hdk (hk d hne)

theorem history_run (hr : run l = some r) : History r ∧ ∀ d, r.2 d = none := by
  obtain ⟨_, ha, hde⟩ := Option.bind_eq_some_iff.1 hr
  obtain ⟨hh, hk⟩ := history_adds .start ha
  refine history_deletes hh hde fun d hd => ?_
  exact (hk d hd).resolve_right fun h => h rfl

/-- An owner with `33` entries that are all deleted keeps two empty pages, and the directory is not
taken for an empty one. -/
theorem kept_pages_not_empty :
    ∃ σ, DirHistory (.ownerDir 1) (fun _ => none) (fun _ _ _ _ => True) σ (fun _ => none) ∧
      exec (dirIsEmpty ⟨.ownerDir 1⟩) σ = .ok (false, σ) ∧
      ∀ p, σ.pageEntries (.ownerDir 1) p = [] := by
  have hrun : ((run keys).any fun r => !(r.1.get (⟨.ownerDir 1⟩ : Keylet DirNode)).all fun n =>
      n.indexes.isEmpty && n.indexNext == 0) = true := by decide +kernel
  cases hr : run keys with
  | none =>
    rw [hr] at hrun
    cases hrun
  | some r =>
    rw [hr] at hrun
    obtain ⟨hhi, hno⟩ := history_run hr
    have hhe : r.2 = fun _ => none := funext hno
    have hke := hhi.holdsKeys fun _ _ => rfl
    refine ⟨r.1, hhe ▸ hhi, ?_, fun p => ?_⟩
    · rw [exec_dirIsEmpty]
      simpa using hrun
    refine List.eq_nil_iff_forall_not_mem.2 fun d hd => ?_
    rw [hke.mem_pageEntries, hno] at hd
    cases hd

end OwnerPages
end FinPal
