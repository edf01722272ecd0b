import FinPal.Ledger.View
import FinPal.Protocol.TER

/-!
# Directories and owner counts

A directory is a list of pages. Page `0` is the root; each page names the next and the previous one,
and the root the last as its previous. `dirAdd`, `dirDelete`, `adjustOwnerCount` and `offerDelete`
are those of `ledger/impl/View.cpp`.
-/

namespace FinPal
open Store ViewM

abbrev Succeeds (p : ViewM TER) (σ σ' : State) : Prop := exec p σ = .ok (.tesSUCCESS, σ')

def DIR_NODE_MAX : Nat := 32

def describeOwnerDir (account : AccountID) (node : DirNode) : DirNode :=
  { node with owner := some account }

/-- Appends an entry to a directory, and gives its page. -/
def dirAdd (dir : Keylet DirNode) (entry : Digest) (describe : DirNode → DirNode) :
    ViewM (TER × Nat) := do
  match ← peek dir with
  | none =>
    insert dir (describe { rootIndex := dir.key, indexes := [entry] })
    return (.tesSUCCESS, 0)
  | some root =>
    let last := root.indexPrevious
    let lastPage := keylet.page dir.key last
    let node ← peek! lastPage
    if node.indexes.length ≠ DIR_NODE_MAX then
      update lastPage fun n => { n with indexes := node.indexes ++ [entry] }
      return (.tesSUCCESS, last)
    else
      let new := (last + 1) % 2 ^ 64
      if new = 0 then
        return (.tecDIR_FULL, new)
      else
        update lastPage fun n => { n with indexNext := new }
        update dir fun n => { n with indexPrevious := new }
        insert (keylet.page dir.key new) (describe
          { rootIndex := dir.key
            indexes := [entry]
            indexPrevious := if new ≠ 1 then new - 1 else 0 })
        return (.tesSUCCESS, new)

/-- Finds the page that lists the entry. A hard reference names the page; a soft one is followed
over the next pages up to page `20`. -/
def dirFind (root entry : Digest) (soft : Bool) : Nat → Nat → ViewM (Option (Nat × DirNode))
  | fuel, page => do
    let hit ← peek (keylet.page root page)
    match hit.filter (entry ∈ ·.indexes) with
    | some node => return some (page, node)
    | none =>
      match fuel with
      | fuel + 1 => if soft then dirFind root entry soft fuel (page + 1) else return none
      | 0 => return none

/-- The entries of a page without the first occurrence of one. An unstable removal moves the last
entry into its place. -/
def removeIndex (stable : Bool) (indexes : List Digest) (entry : Digest) : List Digest :=
  if stable then indexes.erase entry
  else
    match indexes.getLast? with
    | some last => (indexes.set (indexes.idxOf entry) last).dropLast
    | none => []

/-- Deletes an emptied page where the links allow it. -/
def dirUnlink (keepRoot : Bool) (root : Digest) (page : Nat) (node : DirNode) : ViewM TER := do
  if page = 0 then
    if node.indexPrevious = 0 then
      erase (keylet.page root 0)
      return .tesSUCCESS
    else if keepRoot ∨ node.indexPrevious ≠ node.indexNext then
      return .tesSUCCESS
    else
      let last ← peek! (keylet.page root node.indexNext)
      if last.indexes.isEmpty then
        erase (keylet.page root 0)
        erase (keylet.page root node.indexNext)
        return .tesSUCCESS
      else
        return .tesSUCCESS
  else if node.indexNext ≠ 0 then
    match ← peek (keylet.page root node.indexPrevious) with
    | none => return .tefBAD_LEDGER
    | some _ =>
      match ← peek (keylet.page root node.indexNext) with
      | none => return .tefBAD_LEDGER
      | some _ =>
        update (keylet.page root node.indexPrevious) fun n => { n with indexNext := node.indexNext }
        update (keylet.page root node.indexNext) fun n =>
          { n with indexPrevious := node.indexPrevious }
        erase (keylet.page root page)
        return .tesSUCCESS
  else if keepRoot ∨ node.indexPrevious ≠ 0 then
    return .tesSUCCESS
  else
    let rootNode ← peek! (keylet.page root 0)
    if rootNode.indexes.isEmpty then
      erase (keylet.page root 0)
      erase (keylet.page root page)
      return .tesSUCCESS
    else
      return .tesSUCCESS

def dirDelete (keepRoot : Bool) (page : Nat) (root entry : Digest) (stable soft : Bool) :
    ViewM TER := do
  match ← dirFind root entry soft (20 - page) page with
  | none => return .tefBAD_LEDGER
  | some (page, node) =>
    let indexes := removeIndex stable node.indexes entry
    update (keylet.page root page) fun n => { n with indexes }
    if indexes.isEmpty then
      dirUnlink keepRoot root page node
    else
      return .tesSUCCESS

/-- Whether a directory is empty, by its root: `there's another page, it must be non-empty`. -/
def dirIsEmpty (k : Keylet DirNode) : ViewM Bool := do
  match ← peek k with
  | none => return true
  | some node => if !node.indexes.isEmpty then return false else return node.indexNext == 0

/-- The owner count after a change: it stays inside the range of 32 bits. -/
def adjustedOwnerCount (current : UInt32) (amount : Int) : UInt32 :=
  let adjusted := current + UInt32.ofInt amount
  if 0 < amount then
    if adjusted < current then 0xffffffff else adjusted
  else
    if current < adjusted then 0 else adjusted

def adjustOwnerCount (id : AccountID) (amount : Int) : ViewM Unit :=
  update (keylet.account id) fun a => { a with ownerCount := adjustedOwnerCount a.ownerCount amount }

/-- Deletes an offer with its references in the owner's directory and the book. -/
def offerDelete (k : Keylet Offer) (offer : Offer) : ViewM TER := do
  let terResult ← dirDelete false offer.ownerNode (.ownerDir offer.account) k.key false false
  let terResult2 ← dirDelete false offer.bookNode offer.bookDirectory k.key true false
  if terResult = .tesSUCCESS then
    adjustOwnerCount offer.account (-1)
    erase k
    return terResult2
  else
    erase k
    return terResult

/-! ## Frames -/

def IsPage (root key : Digest) : Prop := ∃ page, key = getDirNodeIndex root page

variable {keepRoot soft : Bool} {dir : Keylet DirNode} {describe : DirNode → DirNode} {page : Nat}
  {node : DirNode}

section Within
variable {P : Digest → Prop} {root entry : Digest}

theorem within_dirAdd
    (hP : ∀ key, IsPage dir.key key → P key) : Within P (dirAdd dir entry describe) := by
  have hp (page) : P (keylet.page dir.key page).key := hP _ ⟨page, rfl⟩
  have hd : P dir.key := hp 0
  refine within_peek.bind fun o => ?_
  cases o with
  | none => exact (within_insert hd).bind fun _ => .pure _
  | some r =>
    refine within_peek!.bind fun node => ?_
    split
    · exact (within_update (hp _)).bind fun _ => .pure _
    dsimp only
    split
    · exact .pure _
    refine (within_update (hp _)).bind fun _ => ?_
    refine (within_update hd).bind fun _ => ?_
    exact (within_insert (hp _)).bind fun _ => .pure _

theorem within_dirFind (fuel page : Nat) : Within P (dirFind root entry soft fuel page) := by
  induction fuel generalizing page with
  | zero =>
    rw [dirFind]
    refine within_peek.bind fun hit => ?_
    split <;> exact .pure _
  | succ fuel ih =>
    rw [dirFind]
    refine within_peek.bind fun hit => ?_
    split
    · exact .pure _
    split
    · exact ih _
    · exact .pure _

theorem within_dirUnlink
    (hP : ∀ key, IsPage root key → P key) : Within P (dirUnlink keepRoot root page node) := by
  have hpa (page) : P (keylet.page root page).key := hP _ ⟨page, rfl⟩
  unfold dirUnlink
  split
  · split
    · exact (within_erase (hpa _)).bind fun _ => .pure _
    split
    · exact .pure _
    refine within_peek!.bind fun last => ?_
    split
    · refine (within_erase (hpa _)).bind fun _ => ?_
      exact (within_erase (hpa _)).bind fun _ => .pure _
    · exact .pure _
  split
  · refine within_peek.bind fun o => ?_
    cases o with
    | none => exact .pure _
    | some _ =>
      refine within_peek.bind fun o => ?_
      cases o with
      | none => exact .pure _
      | some _ =>
        refine (within_update (hpa _)).bind fun _ => ?_
        refine (within_update (hpa _)).bind fun _ => ?_
        exact (within_erase (hpa _)).bind fun _ => .pure _
  split
  · exact .pure _
  refine within_peek!.bind fun rootNode => ?_
  split
  · refine (within_erase (hpa _)).bind fun _ => ?_
    exact (within_erase (hpa _)).bind fun _ => .pure _
  · exact .pure _

theorem within_dirDelete {stable : Bool} (hP : ∀ key, IsPage root key → P key) :
    Within P (dirDelete keepRoot page root entry stable soft) := by
  refine (within_dirFind _ _).bind fun o => ?_
  cases o with
  | none => exact .pure _
  | some r =>
    refine (within_update (hP _ ⟨r.1, rfl⟩)).bind fun _ => ?_
    split
    · exact within_dirUnlink hP
    · exact .pure _

theorem within_offerDelete {k : Keylet Offer} {offer : Offer} (hk : P k.key)
    (ho : ∀ key, IsPage (.ownerDir offer.account) key → P key)
    (hb : ∀ key, IsPage offer.bookDirectory key → P key)
    (ha : P (.account offer.account)) : Within P (offerDelete k offer) := by
  refine (within_dirDelete ho).bind fun _ => (within_dirDelete hb).bind fun _ => ?_
  split
  · refine (within_update ha).bind fun _ => ?_
    exact (within_erase hk).bind fun _ => .pure _
  · exact (within_erase hk).bind fun _ => .pure _

end Within

/-! ## What the operations do -/

section Inversion
variable {σ σ' : State} {root entry : Digest} {ter : TER} {page : Nat}

/-- `dirAdd` makes the root, fills the last page or makes a page after it. -/
theorem dirAdd_ok (h : exec (dirAdd dir entry describe) σ = .ok ((ter, page), σ')) :
    (ter = .tesSUCCESS ∧ page = 0 ∧ σ.get dir = none ∧ σ dir.key = none ∧
      σ' = σ.set dir (describe { rootIndex := dir.key, indexes := [entry] })) ∨
    ∃ rootNode node, σ.get dir = some rootNode ∧
      σ.get (keylet.page dir.key rootNode.indexPrevious) = some node ∧
      ((ter = .tesSUCCESS ∧ page = rootNode.indexPrevious ∧ node.indexes.length ≠ DIR_NODE_MAX ∧
          σ' = σ.set (keylet.page dir.key page) { node with indexes := node.indexes ++ [entry] }) ∨
        (ter = .tecDIR_FULL ∧ σ' = σ) ∨
        (ter = .tesSUCCESS ∧ page = (rootNode.indexPrevious + 1) % 2 ^ 64 ∧ page ≠ 0 ∧
          ∃ n σ1 σ2,
            σ1 = σ.set (keylet.page dir.key rootNode.indexPrevious) { node with indexNext := page } ∧
            σ1.get dir = some n ∧ σ2 = σ1.set dir { n with indexPrevious := page } ∧
            σ2 (keylet.page dir.key page).key = none ∧
            σ' = σ2.set (keylet.page dir.key page) (describe
              { rootIndex := dir.key
                indexes := [entry]
                indexPrevious := if page ≠ 1 then page - 1 else 0 }))) := by
  obtain ⟨r, hr, h⟩ := exec_peek_ok h
  cases r with
  | none =>
    obtain ⟨hno, h⟩ := exec_insert_ok h
    obtain ⟨hp, rfl⟩ := exec_pure.1 h
    cases hp
    exact .inl ⟨rfl, rfl, hr, hno, rfl⟩
  | some rootNode =>
    obtain ⟨node, hnode, h⟩ := exec_peek!_ok h
    refine .inr ⟨rootNode, node, hr, hnode, ?_⟩
    split at h
    · next hl =>
      obtain ⟨node', hno', h⟩ := exec_update_ok h
      obtain rfl : node = node' := Option.mem_unique hnode hno'
      obtain ⟨hp, rfl⟩ := exec_pure.1 h
      cases hp
      exact .inl ⟨rfl, rfl, hl, rfl⟩
    dsimp only at h
    split at h
    · obtain ⟨hp, rfl⟩ := exec_pure.1 h
      cases hp
      exact .inr (.inl ⟨rfl, rfl⟩)
    · next hnew =>
      obtain ⟨node', hno', h⟩ := exec_update_ok h
      obtain rfl : node = node' := Option.mem_unique hnode hno'
      obtain ⟨n, hn, h⟩ := exec_update_ok h
      obtain ⟨hno, h⟩ := exec_insert_ok h
      obtain ⟨hp, rfl⟩ := exec_pure.1 h
      cases hp
      exact .inr (.inr ⟨rfl, rfl, hnew, n, _, _, rfl, hn, rfl, hno, rfl⟩)

/-- The root and the page `p` are the whole directory, by the links of one, and the other is empty.
-/
def EmptyPair (σ : State) (root : Digest) (page : Nat) (node : DirNode) (p : Nat) : Prop :=
  (page = 0 ∧ node.indexPrevious = p ∧ node.indexNext = p ∧ p ≠ 0 ∧
    ∃ n, σ.get (keylet.page root p) = some n ∧ n.indexes = []) ∨
  (page = p ∧ node.indexPrevious = 0 ∧ node.indexNext = 0 ∧ p ≠ 0 ∧
    ∃ n, σ.get (keylet.page root 0) = some n ∧ n.indexes = [])

private theorem eraseBoth_ok {other p : Nat}
    (h : exec (do
      let n ← peek! (keylet.page root other)
      if n.indexes.isEmpty then
        erase (keylet.page root 0)
        erase (keylet.page root p)
        return .tesSUCCESS
      else
        return .tesSUCCESS) σ = .ok (ter, σ')) :
    σ' = σ ∨ (∃ n, σ.get (keylet.page root other) = some n ∧ n.indexes = []) ∧
      σ' = (σ.del (keylet.page root 0)).del (keylet.page root p) := by
  obtain ⟨n, hn, h⟩ := exec_peek!_ok h
  split at h
  · next hem =>
    obtain ⟨_, -, h⟩ := exec_erase_ok h
    obtain rfl := exec_erase_last h
    exact .inr ⟨⟨n, hn, List.isEmpty_iff.1 hem⟩, rfl⟩
  · exact .inl (exec_pure.1 h).2.symm

/-- An emptied page stays, goes with all of its directory, or is taken out of the links. -/
theorem dirUnlink_ok (h : exec (dirUnlink keepRoot root page node) σ = .ok (ter, σ')) : σ' = σ ∨
    (page = 0 ∧ node.indexPrevious = 0 ∧ σ' = σ.del (keylet.page root 0)) ∨
    (∃ p, keepRoot = false ∧ EmptyPair σ root page node p ∧
      σ' = (σ.del (keylet.page root 0)).del (keylet.page root p)) ∨
    (page ≠ 0 ∧ node.indexNext ≠ 0 ∧ ∃ n1 n2 σ1 σ2,
      σ.get (keylet.page root node.indexPrevious) = some n1 ∧
      σ1 = σ.set (keylet.page root node.indexPrevious) { n1 with indexNext := node.indexNext } ∧
      σ1.get (keylet.page root node.indexNext) = some n2 ∧
      σ2 = σ1.set (keylet.page root node.indexNext)
        { n2 with indexPrevious := node.indexPrevious } ∧
      σ' = σ2.del (keylet.page root page)) := by
  unfold dirUnlink at h
  split at h
  · next h0 =>
    split at h
    · next hpr =>
      obtain rfl := exec_erase_last h
      exact .inr (.inl ⟨h0, hpr, rfl⟩)
    · next hpr =>
      split at h
      · exact .inl (exec_pure.1 h).2.symm
      · next hli =>
        obtain ⟨hke, heq⟩ := not_or.1 hli
        rw [not_not] at heq
        rcases eraseBoth_ok h with hst | ⟨hem, hgo⟩
        · exact .inl hst
        · exact .inr (.inr (.inl ⟨node.indexNext, Bool.eq_false_of_not_eq_true hke,
            .inl ⟨h0, heq, rfl, heq ▸ hpr, hem⟩, hgo⟩))
  · next h0 =>
    split at h
    · next hne =>
      obtain ⟨prev, hpr, h⟩ := exec_peek_ok h
      cases prev with
      | none => exact .inl (exec_pure.1 h).2.symm
      | some prev =>
        obtain ⟨next, -, h⟩ := exec_peek_ok h
        cases next with
        | none => exact .inl (exec_pure.1 h).2.symm
        | some next =>
          obtain ⟨n1, hn1, h⟩ := exec_update_ok h
          obtain ⟨n2, hn2, h⟩ := exec_update_ok h
          obtain rfl := exec_erase_last h
          exact .inr (.inr (.inr ⟨h0, hne, n1, n2, _, _, hn1, rfl, hn2, rfl, rfl⟩))
    · next hne =>
      split at h
      · exact .inl (exec_pure.1 h).2.symm
      · next hpr =>
        obtain ⟨hke, hpr⟩ := not_or.1 hpr
        rcases eraseBoth_ok h with hst | ⟨hem, hgo⟩
        · exact .inl hst
        · exact .inr (.inr (.inl ⟨page, Bool.eq_false_of_not_eq_true hke,
            .inr ⟨rfl, not_not.1 hpr, not_not.1 hne, h0, hem⟩, hgo⟩))

end Inversion

/-! ## Relations that directory operations keep -/

section Ensures
variable {Q : State → State → Prop} {root entry : Digest}

theorem ensures_dirAdd (hQ : IsRun Q)
    (hN : Permits Q DirNode) : Ensures Q (dirAdd dir entry describe) := by
  refine hQ.bind hQ.peek fun o => ?_
  cases o with
  | none => exact hQ.bind hN.inserted fun _ => hQ.pure _
  | some r =>
    refine hQ.bind hQ.peek! fun node => ?_
    split
    · exact hQ.bind hN.update fun _ => hQ.pure _
    dsimp only
    split
    · exact hQ.pure _
    · refine hQ.bind hN.update fun _ => hQ.bind hN.update fun _ => ?_
      exact hQ.bind hN.inserted fun _ => hQ.pure _

/-- An account files a new entry in its directory and pays what it holds. -/
def Files {α : Type} [IsEntry α] (account : AccountID) (k : UInt32 → Keylet α) (x : α) (atPage : ℕ → α)
    (paid : Int → Prop) (σ σ' : State) : Prop :=
  ∃ (a : AccountRoot) (drops : Int) (page : ℕ) (σ₁ : State),
    σ.get (keylet.account account) = some a ∧ paid drops ∧ σ (k (a.sequence - 1)).key = none ∧
    exec (dirAdd (keylet.ownerDir account) (k (a.sequence - 1)).key (describeOwnerDir account))
      (σ.set (k (a.sequence - 1)) x) = .ok ((.tesSUCCESS, page), σ₁) ∧
    σ' = (σ₁.set (k (a.sequence - 1)) (atPage page)).set (keylet.account account)
      { a with balance := a.balance - drops, ownerCount := a.ownerCount + 1 }

theorem dirAdd_found {α : Type} [IsEntry α] {k : Keylet α} {x : α} {account : AccountID}
    {a : AccountRoot} {r : TER × ℕ}
    {σ σ1 : State} (hα : ∀ d : DirNode, (ofEntry (toEntry d) : Option α) = none)
    (hk : k.key ≠ (keylet.account account).key) (ha : σ.get (keylet.account account) = some a)
    (hadd : exec (dirAdd dir entry describe) (σ.set k x) = .ok (r, σ1)) :
    σ1.get k = some x ∧ ∀ y, (σ1.set k y).get (keylet.account account) = some a := by
  refine ⟨?_, fun y => ?_⟩
  · rw [ensures_dirAdd Keeps.isRun (Keeps.permits hα) hadd, State.get_set_self]
  · rw [State.get_set_ne hk.symm, ensures_dirAdd Keeps.isRun
      (Keeps.permits fun _ => rfl) hadd, State.get_set_ne hk.symm, ha]

theorem ensures_dirFind (hQ : IsRun Q) (fuel page : Nat) :
    Ensures Q (dirFind root entry soft fuel page) := by
  intro σ _ σ' h
  have : Within (fun _ => False) (dirFind root entry soft fuel page) := within_dirFind fuel page
  obtain rfl : σ' = σ := funext fun k => this.frame h id
  exact hQ.refl _

theorem ensures_dirUnlink (hQ : IsRun Q)
    (hN : PermitsChange Q DirNode) : Ensures Q (dirUnlink keepRoot root page node) := by
  unfold dirUnlink
  split
  · split
    · exact hQ.bind hN.erase fun _ => hQ.pure _
    split
    · exact hQ.pure _
    refine hQ.bind hQ.peek! fun last => ?_
    split
    · exact hQ.bind hN.erase fun _ => hQ.bind hN.erase fun _ => hQ.pure _
    · exact hQ.pure _
  split
  · refine hQ.bind hQ.peek fun o => ?_
    cases o with
    | none => exact hQ.pure _
    | some _ =>
      refine hQ.bind hQ.peek fun o => ?_
      cases o with
      | none => exact hQ.pure _
      | some _ =>
        refine hQ.bind hN.update fun _ => hQ.bind hN.update fun _ => ?_
        exact hQ.bind hN.erase fun _ => hQ.pure _
  split
  · exact hQ.pure _
  refine hQ.bind hQ.peek! fun rootNode => ?_
  split
  · exact hQ.bind hN.erase fun _ => hQ.bind hN.erase fun _ => hQ.pure _
  · exact hQ.pure _

theorem ensures_dirDelete {stable : Bool} (hQ : IsRun Q)
    (hN : PermitsChange Q DirNode) : Ensures Q (dirDelete keepRoot page root entry stable soft) := by
  refine hQ.bind (ensures_dirFind hQ _ _) fun o => ?_
  cases o with
  | none => exact hQ.pure _
  | some r =>
    refine hQ.bind hN.update fun _ => ?_
    split
    · exact ensures_dirUnlink hQ hN
    · exact hQ.pure _

/-- The relation holds of every change of an owner count. -/
def PermitsOwnerCount (Q : State → State → Prop) : Prop :=
  ∀ {σ : State} {o : AccountID} {a : AccountRoot} (n : UInt32), σ.get (keylet.account o) = some a →
    Q σ (σ.set (keylet.account o) { a with ownerCount := n })

theorem PermitsOwnerCount.adjust (h : PermitsOwnerCount Q) {id : AccountID} {amount : Int} :
    Ensures Q (adjustOwnerCount id amount) := fun _ _ _ he => by
  obtain ⟨a, ha, rfl⟩ := exec_update.1 he
  exact h _ ha

theorem ensures_offerDelete {k : Keylet Offer} {offer : Offer} (hQ : IsRun Q)
    (hN : PermitsChange Q DirNode) (hO : PermitsChange Q Offer) (hC : PermitsOwnerCount Q) :
    Ensures Q (offerDelete k offer) := by
  refine hQ.bind (ensures_dirDelete hQ hN) fun _ => hQ.bind (ensures_dirDelete hQ hN) fun _ => ?_
  split
  · exact hQ.bind hC.adjust fun _ => hQ.bind hO.erase fun _ => hQ.pure _
  · exact hQ.bind hO.erase fun _ => hQ.pure _

end Ensures
end FinPal
