import FinPal.Tx.Escrow
import FinPal.Verify.FeeClaim

/-!
# The life of an escrow

Every escrow is listed once, on one page of its creator's directory (`EscrowInv`). A finish and a
cancel take it away with its reference and one unit of the creator's owner count, and pay its amount
to one account (`Resolved`).
-/

namespace FinPal
open Store ViewM Keeps State

/-! ## What the three transactors do -/

section Inversion
variable {σ σ' : State} {ctx : ApplyContext}

theorem EscrowCreate.doApply_ok {f : EscrowCreate} (h : Succeeds (f.doApply ctx) σ σ') :
    Files ctx.tx.account (keylet.escrow ctx.tx.account) (f.entry ctx.tx)
      (fun page => { f.entry ctx.tx with ownerNode := page }) (f.amount.drops = .ok ·) σ σ' := by
  unfold doApply at h
  dsimp only at h
  obtain ⟨-, h⟩ := exec_guard h
  obtain ⟨-, h⟩ := exec_guard h
  obtain ⟨a, ha, h⟩ := exec_peek!_ok h
  obtain ⟨-, h⟩ := exec_guard h
  obtain ⟨drops, hdr, h⟩ := exec_ofExcept_ok h
  obtain ⟨-, h⟩ := exec_guard h
  obtain ⟨_, -, h⟩ := exec_peek_ok h
  split at h
  · next hne => exact absurd (exec_pure.1 h).1 hne
  -- the checks are over
  obtain ⟨hno, h⟩ := exec_insert_ok h
  obtain ⟨⟨_, page⟩, σ1, hadd, h⟩ := exec_bind.1 h
  obtain ⟨rfl, h⟩ := exec_success_ok h
  obtain ⟨e, he, h⟩ := exec_update_ok h
  obtain ⟨_, ha', h⟩ := exec_update_ok h
  obtain ⟨-, rfl⟩ := exec_pure.1 h
  obtain ⟨hfo, hro⟩ := dirAdd_found (fun _ => rfl) (by simp [keylet.account, keylet.escrow]) ha hadd
  cases hfo.symm.trans he
  cases (hro _).symm.trans ha'
  exact ⟨a, drops, page, σ1, ha, hdr, hno, hadd, rfl⟩

/-- A successful finish pays the destination and takes the escrow out of its creator's directory
and count. -/
theorem EscrowFinish.release_ok {k : Keylet Escrow} {e : Escrow} (h : Succeeds (release k e) σ σ') :
    ∃ (drops : Int) (σ1 : State) (dst a : AccountRoot), e.amount.drops = .ok drops ∧
      Succeeds (dirDelete true e.ownerNode (keylet.ownerDir e.account).key k.key false
        (e.ownerNode = 0)) σ σ1 ∧
      σ1.get (keylet.account e.destination) = some dst ∧
      (σ1.set (keylet.account e.destination) { dst with balance := dst.balance + drops }).get
        (keylet.account e.account) = some a ∧
      σ' = ((σ1.set (keylet.account e.destination)
        { dst with balance := dst.balance + drops }).set (keylet.account e.account)
          { a with ownerCount := a.ownerCount - 1 }).del k := by
  obtain ⟨_, σ1, hd, h⟩ := exec_bind.1 h
  obtain ⟨rfl, h⟩ := exec_success_ok h
  obtain ⟨dst, ho, h⟩ := exec_require h
  obtain ⟨drops, hdr, h⟩ := exec_ofExcept_ok h
  obtain ⟨dst', hdst, h⟩ := exec_update_ok h
  obtain rfl : dst = dst' := Option.mem_unique ho hdst
  obtain ⟨a, ha, h⟩ := exec_update_ok h
  obtain rfl := exec_erase_last h
  exact ⟨drops, σ1, dst, a, hdr, hd, ho, ha, rfl⟩

theorem EscrowFinish.doApply_ok {cc : CryptoConditions} {f : EscrowFinish}
    (h : Succeeds (f.doApply cc ctx) σ σ') :
    ∃ e, σ.get (keylet.escrow f.owner f.offerSequence) = some e ∧
      (∀ t, e.finishAfter = some t → t < ctx.view.parentCloseTime) ∧
      (∀ t, e.cancelAfter = some t → ctx.view.parentCloseTime < t) ∧
      Succeeds (release (keylet.escrow f.owner f.offerSequence) e) σ σ' := by
  obtain ⟨e, ho, h⟩ := exec_require h
  dsimp only at h
  obtain ⟨hf, h⟩ := exec_guard h
  obtain ⟨hc, h⟩ := exec_guard h
  split at h
  · next hne => exact absurd (exec_pure.1 h).1 hne
  refine ⟨e, ho, fun t ht => ?_, fun t ht => ?_, h⟩
  · simpa [ht] using hf
  · simpa [ht] using hc

theorem EscrowCancel.release_ok {k : Keylet Escrow} {e : Escrow} (h : Succeeds (release k e) σ σ') :
    ∃ (drops : Int) (σ1 : State) (a : AccountRoot), e.amount.drops = .ok drops ∧
      Succeeds (dirDelete true e.ownerNode (keylet.ownerDir e.account).key k.key false
        (e.ownerNode = 0)) σ σ1 ∧
      σ1.get (keylet.account e.account) = some a ∧
      σ' = (σ1.set (keylet.account e.account)
        { a with balance := a.balance + drops, ownerCount := a.ownerCount - 1 }).del k := by
  obtain ⟨_, σ1, hd, h⟩ := exec_bind.1 h
  obtain ⟨rfl, h⟩ := exec_success_ok h
  obtain ⟨drops, hdr, h⟩ := exec_ofExcept_ok h
  obtain ⟨a, ha, h⟩ := exec_update_ok h
  obtain rfl := exec_erase_last h
  exact ⟨drops, σ1, a, hdr, hd, ha, rfl⟩

theorem EscrowCancel.doApply_ok {f : EscrowCancel} (h : Succeeds (f.doApply ctx) σ σ') :
    ∃ e t, σ.get (keylet.escrow f.owner f.offerSequence) = some e ∧ e.cancelAfter = some t ∧
      t < ctx.view.parentCloseTime ∧
      Succeeds (release (keylet.escrow f.owner f.offerSequence) e) σ σ' := by
  obtain ⟨e, ho, h⟩ := exec_require h
  obtain ⟨hc, h⟩ := exec_guard h
  cases ht : e.cancelAfter with
  | none => simp [ht] at hc
  | some t => exact ⟨e, t, ho, ht, by simpa [ht] using hc, h⟩

end Inversion

/-! ## Where escrows are listed -/

/-- Each escrow is filed under its creator and listed once, in the creator's directory; a key
without an escrow is listed nowhere. -/
def EscrowInv (σ : State) : Prop :=
  ∀ o s, (∀ e, σ.get (keylet.escrow o s) = some e → e.account = o) ∧
    ListedAt σ (.escrow o s)
      ((σ.get (keylet.escrow o s)).map fun e => ((keylet.ownerDir o).key, e.ownerNode))

variable {σ σ' : State} {o : AccountID} {s : UInt32} {e : Escrow} {cc : CryptoConditions}
  {x : EscrowTx} {v : OpenView}

theorem EscrowInv.of_none (he : ∀ o s, σ.get (keylet.escrow o s) = none)
    (hr : ∀ p o s, σ.refs p (.escrow o s) = 0) : EscrowInv σ := by
  intro o s
  rw [he]
  exact ⟨fun _ h => (by cases h), fun p => hr p o s⟩

theorem EscrowInv.of_keeps (h : EscrowInv σ) (hk : Keeps Escrow σ σ')
    (hr : ∀ p o s, σ'.refs p (.escrow o s) = σ.refs p (.escrow o s)) : EscrowInv σ' := by
  intro o s
  obtain ⟨ha, hl⟩ := h o s
  rw [hk]
  exact ⟨ha, hl.of_refs fun p => hr p o s⟩

theorem EscrowInv.listed (h : EscrowInv σ) (he : σ.get (keylet.escrow o s) = some e) :
    e.account = o ∧ ListedAt σ (.escrow o s) (some ((keylet.ownerDir o).key, e.ownerNode)) := by
  obtain ⟨ha, hl⟩ := h o s
  rw [he] at hl
  exact ⟨ha e he, hl⟩

theorem EscrowInv.unlisted (h : EscrowInv σ) (he : σ.get (keylet.escrow o s) = none) :
    ListedAt σ (.escrow o s) none := by
  have hl := (h o s).2
  rwa [he] at hl

/-- The entry is put in at an empty key, or taken out, and nothing else is seen to change. -/
structure Moves (σ σ' : State) (o : AccountID) (s : UInt32) : Prop where
  others : ∀ o' s', (o', s') ≠ (o, s) → σ'.get (keylet.escrow o' s') = σ.get (keylet.escrow o' s')
  refs : ∀ p o' s', (o', s') ≠ (o, s) → σ'.refs p (.escrow o' s') = σ.refs p (.escrow o' s')

theorem EscrowInv.of_moves (h : EscrowInv σ) (hm : Moves σ σ' o s)
    (ha : ∀ e, σ'.get (keylet.escrow o s) = some e → e.account = o)
    (hl : ListedAt σ' (.escrow o s) ((σ'.get (keylet.escrow o s)).map fun e => ((keylet.ownerDir
      o).key, e.ownerNode))) : EscrowInv σ' := by
  intro o' s'
  by_cases he : (o', s') = (o, s)
  · cases he
    exact ⟨ha, hl⟩
  obtain ⟨ha', hl'⟩ := h o' s'
  rw [hm.others o' s' he]
  exact ⟨ha', hl'.of_refs fun p => hm.refs p o' s' he⟩

/-! ## Resolving an escrow -/

/-- The escrow leaves the ledger with its reference and one unit of its creator's count, and its
amount goes to one account. -/
structure Resolved (σ σ' : State) (k : Keylet Escrow) (e : Escrow) (payee : AccountID) : Prop where
  entry : σ.get k = some e
  gone : σ' k.key = none
  others : ∀ o s, (keylet.escrow o s).key ≠ k.key →
    σ'.get (keylet.escrow o s) = σ.get (keylet.escrow o s)
  listed : ListedAt σ k.key (some ((keylet.ownerDir e.account).key, e.ownerNode))
  unlisted : ListedAt σ' k.key none
  paid : ∃ drops, e.amount = .native drops ∧
    ∀ o, σ'.balance o = σ.balance o + if o = payee then drops else 0
  counted : ∀ o, σ'.ownerCount o = σ.ownerCount o - if o = e.account then 1 else 0

section
variable (hinv : EscrowInv σ) (he : σ.get (keylet.escrow o s) = some e)
include hinv he

/-- `σ2` is between the writes to the accounts and the deletion of the entry. -/
theorem resolved_of_delete {σ1 σ2 : State} {payee : AccountID} {drops : Int}
    (hd : Succeeds (dirDelete true e.ownerNode (keylet.ownerDir e.account).key (keylet.escrow o
      s).key false (e.ownerNode = 0)) σ σ1)
    (hdr : e.amount.drops = .ok drops) (hesc : Keeps Escrow σ1 σ2) (hdir : Keeps DirNode σ1 σ2)
    (hb : ∀ o', σ2.balance o' = σ1.balance o' + if o' = payee then drops else 0)
    (hco : ∀ o', σ2.ownerCount o' = σ1.ownerCount o' - if o' = e.account then 1 else 0) :
    Resolved σ (σ2.del (keylet.escrow o s)) (keylet.escrow o s) e payee ∧
      EscrowInv (σ2.del (keylet.escrow o s)) := by
  obtain ⟨rfl, hl⟩ := hinv.listed he
  have hke {β : Type} [IsEntry β] (hβ : ∀ x, (ofEntry (toEntry x) : Option β) = none) :
      Keeps β σ σ1 := ensures_dirDelete isRun (permits hβ).toPermitsChange hd
  have he2 : σ2.get (keylet.escrow e.account s) = some e := by
    rw [hesc, hke fun _ => rfl, he]
  have hro : Keeps AccountRoot σ2 (σ2.del (keylet.escrow e.account s)) :=
    (permits fun _ => rfl).del he2
  have hre : KeepsRefs σ1 (σ2.del (keylet.escrow e.account s)) :=
    .of_keeps (isRun.trans hdir ((permits fun _ => rfl).del he2))
  have hot (o' : AccountID) (s' : UInt32)
      (hne : (keylet.escrow o' s').key ≠ (keylet.escrow e.account s).key) :
      (σ2.del (keylet.escrow e.account s)).get (keylet.escrow o' s') =
        σ.get (keylet.escrow o' s') := by
    rw [get_del_ne hne, hesc, hke fun _ => rfl]
  have hun := (hl.delete hd).of_refs fun p => hre p _
  have hkey {o' : AccountID} {s' : UInt32} (hne : (o', s') ≠ (e.account, s)) :
      (keylet.escrow o' s').key ≠ (keylet.escrow e.account s).key := fun hk =>
    hne (by simpa [keylet.escrow] using hk)
  refine ⟨⟨he, by simp [del], hot, hl, hun, ⟨drops, STAmount.drops_eq_ok.1 hdr,
    fun o' => ?_⟩, fun o' => ?_⟩, hinv.of_moves ⟨fun o' s' hne => hot o' s' (hkey hne),
      fun p o' s' hne => ?_⟩ (fun e' he' => ?_) ?_⟩
  · rw [hro.balance, hb, (hke fun _ => rfl).balance]
  · rw [hro.ownerCount, hco, (hke fun _ => rfl).ownerCount]
  · rw [hre]
    rcases dirDelete_refs hd with ⟨ht, -⟩ | ⟨q, -, -, hby⟩
    · cases ht
    · rw [hby, if_neg fun hc => hkey hne hc.2]
  · rw [get_del_self] at he'
    cases he'
  · rwa [get_del_self]

theorem EscrowFinish.resolved (h : Succeeds (release (keylet.escrow o s) e) σ σ') :
    Resolved σ σ' (keylet.escrow o s) e e.destination ∧ EscrowInv σ' := by
  obtain ⟨_, _, _, a, hdr, hdel, hd, ha, rfl⟩ := release_ok h
  refine resolved_of_delete hinv he hdel hdr ?_ ?_ (fun o' => ?_) (fun o' => ?_)
  · exact isRun.trans ((permits fun _ => rfl).set _ hd) ((permits fun _ => rfl).set _ ha)
  · exact isRun.trans ((permits fun _ => rfl).set _ hd) ((permits fun _ => rfl).set _ ha)
  · rw [balance_add ha (d := 0) (by simp), balance_add hd rfl, ite_self, add_zero]
  · rw [ownerCount_sub ha rfl, ownerCount_sub hd (n := 0) (by simp), ite_self, UInt32.sub_zero]

theorem EscrowCancel.resolved (h : Succeeds (release (keylet.escrow o s) e) σ σ') :
    Resolved σ σ' (keylet.escrow o s) e e.account ∧ EscrowInv σ' := by
  obtain ⟨_, _, a, hdr, hd, ha, rfl⟩ := release_ok h
  refine resolved_of_delete hinv he hd hdr ?_ ?_ (fun o' => ?_) (fun o' => ?_)
  · exact (permits fun _ => rfl).set _ ha
  · exact (permits fun _ => rfl).set _ ha
  · exact balance_add ha rfl o'
  · exact ownerCount_sub ha rfl o'

end

/-! ## Creating an escrow, and taking a fee -/

theorem EscrowCreate.created {f : EscrowCreate} {ctx : ApplyContext} (hinv : EscrowInv σ)
    (hs : ∀ a, σ.get (keylet.account ctx.tx.account) = some a → a.sequence = ctx.tx.sequence + 1)
    (h : Succeeds (f.doApply ctx) σ σ') :
    σ.get (keylet.escrow ctx.tx.account ctx.tx.sequence) = none ∧
      (σ'.get (keylet.escrow ctx.tx.account ctx.tx.sequence)).isSome ∧
      Moves σ σ' ctx.tx.account ctx.tx.sequence ∧ EscrowInv σ' := by
  obtain ⟨a, _, page, σ1, ha, -, hno, hadd, hσ'⟩ := doApply_ok h
  rw [hs a ha, UInt32.add_sub_cancel] at hno hadd hσ'
  generalize hk : keylet.escrow ctx.tx.account ctx.tx.sequence = k at hno hadd hσ' ⊢
  obtain ⟨e, a', hσ', hpa, hacc⟩ : ∃ e a',
      σ' = (σ1.set k e).set (keylet.account ctx.tx.account) a' ∧
        e.ownerNode = page ∧ e.account = ctx.tx.account := ⟨_, _, hσ', rfl, rfl⟩
  have hkey : k.key = .escrow ctx.tx.account ctx.tx.sequence := by rw [← hk]; rfl
  have hke {β : Type} [IsEntry β] (hβ : ∀ x, (ofEntry (toEntry x) : Option β) = none) :
      Keeps β (σ.set k (f.entry ctx.tx)) σ1 := ensures_dirAdd isRun (permits hβ) hadd
  obtain ⟨he1, hro⟩ := dirAdd_found (fun _ => rfl) (by simp [hkey, keylet.account]) ha hadd
  have ha1 := hro e
  -- one reference is added, on the page that `dirAdd` reports
  have hby : RefsBy (· + 1) (keylet.page (keylet.ownerDir ctx.tx.account).key page).key k.key σ σ' := by
    rw [hσ']
    exact ((KeepsRefs.of_keeps ((permits fun _ => rfl).insert _ hno)).trans_by
      (dirAdd_refs (describes_describeOwnerDir _) hadd)).trans_keeps (KeepsRefs.of_keeps
        (isRun.trans ((permits fun _ => rfl).set _ he1) ((permits fun _ => rfl).set _ ha1)))
  have hg : σ'.get k = some e := by
    rw [hσ', get_set_ne (by simp [hkey, keylet.account]), get_set_self]
  have hσ : σ.get k = none := get_of_none hno
  have hne {o' : AccountID} {s' : UInt32} (hne : (o', s') ≠ (ctx.tx.account, ctx.tx.sequence)) :
      (keylet.escrow o' s').key ≠ k.key := fun he => hne (by simpa [hkey, keylet.escrow] using he)
  have hmo : Moves σ σ' ctx.tx.account ctx.tx.sequence := by
    refine ⟨fun o' s' h' => ?_, fun p o' s' h' => ?_⟩
    · rw [hσ', get_set_ne (by simp [keylet.escrow, keylet.account]), get_set_ne (hne h'),
        hke fun _ => rfl, get_set_ne (hne h')]
    · exact (hby p _).trans (if_neg fun hc => hne h' hc.2)
  subst hk
  refine ⟨hσ, by rw [hg]; rfl, hmo, hinv.of_moves hmo (fun e' he' => ?_) ?_⟩
  · rw [hg] at he'
    exact Option.some.inj he' ▸ hacc
  · rw [hg, Option.map_some, hpa]
    exact (hinv.unlisted hσ).add hby

theorem EscrowInv.claimFee {app : Application} {tx : STTx} {fee fee' : Int} {offers : List Digest}
    (h : exec (claimFee app tx fee offers) σ = .ok (fee', σ')) (hinv : EscrowInv σ) :
    EscrowInv σ' ∧ Keeps Escrow σ σ' := by
  have hk : Keeps Escrow σ σ' := ensures_claimFee isRun
    (permits fun _ => rfl).toPermitsChange (permits fun _ => rfl).toPermitsChange
    (permits fun _ => rfl).toPermitsChange h
  refine ⟨fun o s => ?_, hk⟩
  obtain ⟨ha, hl⟩ := hinv o s
  rw [hk]
  refine ⟨ha, claimFee_listedAt h (fun hs => ?_) hl⟩
  cases he : σ.get (keylet.escrow o s) with
  | none => rw [he] at hs; cases hs rfl
  | some e =>
    have he' : σ (.escrow o s) = some (.escrow e) := get_eq_some.1 he
    simp [State.get, keylet.offer, he', ofEntry]

theorem EscrowInv.beginApply {app : Application} {tx : STTx} {σ1 : State} {b : Int × Int}
    (h : exec (beginApply app tx) σ = .ok (b, σ1)) (hinv : EscrowInv σ) :
    EscrowInv σ1 ∧ Keeps Escrow σ σ1 := by
  have hk {β : Type} [IsEntry β] (hβ : ∀ x, (ofEntry (toEntry x) : Option β) = none) :
      Keeps β σ σ1 := ensures_beginApply isRun (permits hβ).toPermitsChange h
  exact ⟨hinv.of_keeps (hk fun _ => rfl) fun p o s => KeepsRefs.of_keeps (hk fun _ => rfl) p _,
    hk fun _ => rfl⟩

/-! ## One transaction -/

/-- The transactions on escrows. -/
inductive EscrowTx where
  | create (f : EscrowCreate)
  | finish (f : EscrowFinish)
  | cancel (f : EscrowCancel)

/-- What has happened to the escrow of an owner and a sequence. -/
inductive EscrowEvent where
  | created (owner : AccountID) (seq : UInt32)
  | finished (owner : AccountID) (seq : UInt32)
  | cancelled (owner : AccountID) (seq : UInt32)
  deriving DecidableEq

namespace EscrowTx

def transactor (cc : CryptoConditions) : EscrowTx → Transactor
  | create f => f.transactor cc
  | finish f => f.transactor cc
  | cancel f => f.transactor

/-- `doApply` as a program of view operations. -/
def doApply (cc : CryptoConditions) (ctx : ApplyContext) : EscrowTx → ViewM TER
  | create f => f.doApply ctx
  | finish f => f.doApply cc ctx
  | cancel f => f.doApply ctx

theorem transactor_doApply {cc : CryptoConditions} (x : EscrowTx) (c : ApplyContext) :
    (x.transactor cc).doApply c = (x.doApply cc c).onTable := by
  cases x <;> rfl

/-- What a success does. A new escrow is filed under its transaction's sequence. -/
def event (tx : STTx) : EscrowTx → EscrowEvent
  | create _ => .created tx.account tx.sequence
  | finish f => .finished f.owner f.offerSequence
  | cancel f => .cancelled f.owner f.offerSequence

end EscrowTx

/-- What an event means for the states after the fee and after the transaction. -/
def EscrowEvent.Holds (closeTime : UInt32) (σ σ' : State) : EscrowEvent → Prop
  | created o s =>
    σ.get (keylet.escrow o s) = none ∧ (σ'.get (keylet.escrow o s)).isSome ∧ Moves σ σ' o s
  | finished o s => ∃ e, (∀ t, e.finishAfter = some t → t < closeTime) ∧
      (∀ t, e.cancelAfter = some t → closeTime < t) ∧
      Resolved σ σ' (keylet.escrow o s) e e.destination
  | cancelled o s => ∃ e t, e.cancelAfter = some t ∧ t < closeTime ∧
      Resolved σ σ' (keylet.escrow o s) e e.account

theorem EscrowTx.holds_of_doApply {ctx : ApplyContext} (hinv : EscrowInv σ)
    (hseq : ∀ a, σ.get (keylet.account ctx.tx.account) = some a → a.sequence = ctx.tx.sequence + 1)
    (h : Succeeds (x.doApply cc ctx) σ σ') :
    (x.event ctx.tx).Holds ctx.view.parentCloseTime σ σ' ∧ EscrowInv σ' := by
  cases x with
  | create f =>
    obtain ⟨hn, hs, hmo, hi'⟩ := f.created hinv hseq h
    exact ⟨⟨hn, hs, hmo⟩, hi'⟩
  | finish f =>
    obtain ⟨e, he, hf, hc, h⟩ := EscrowFinish.doApply_ok h
    obtain ⟨hr, hi'⟩ := EscrowFinish.resolved hinv he h
    exact ⟨⟨e, hf, hc, hr⟩, hi'⟩
  | cancel f =>
    obtain ⟨e, t, he, ht, hlt, h⟩ := EscrowCancel.doApply_ok h
    obtain ⟨hr, hi'⟩ := EscrowCancel.resolved hinv he h
    exact ⟨⟨e, t, ht, hlt, hr⟩, hi'⟩

/-- A success is one event; all else that is applied takes a fee and no more. -/
theorem escrow_step {app : Application} {tx : STTx} {flags : ApplyFlags} {o : Outcome}
    (hinv : EscrowInv v.state) (h : (x.transactor cc).applyTx app v tx flags = .ok o)
    (ha : o.applied = true) : EscrowInv o.view.state ∧
      ((o.ter = .tesSUCCESS ∧ ∃ b σ1, exec (beginApply app tx) v.state = .ok (b, σ1) ∧
          Keeps Escrow v.state σ1 ∧ (x.event tx).Holds v.parentCloseTime σ1 o.view.state) ∨
        (o.ter ≠ .tesSUCCESS ∧ Keeps Escrow v.state o.view.state)) := by
  obtain ⟨_, _, -, ⟨ht, -, b, σ1, hbe, hdo⟩ | ⟨htec, _, _, hcl⟩⟩ :=
    applyTx_exec x.transactor_doApply h ha
  · obtain ⟨hi1, hk⟩ := hinv.beginApply hbe
    have hs (a : AccountRoot) (ha : get σ1 (keylet.account tx.account) = some a) :=
      beginApply_sequence hbe ha
    obtain ⟨hev, hi'⟩ := EscrowTx.holds_of_doApply hi1 hs hdo
    exact ⟨hi', .inl ⟨ht, b, σ1, hbe, hk, hev⟩⟩
  obtain ⟨hi', hk⟩ := hinv.claimFee hcl
  refine ⟨hi', .inr ⟨fun ht => ?_, hk⟩⟩
  rw [ht] at htec
  cases htec

/-! ## Runs -/

/-- The ledger in which the next transaction is applied: the entries are carried over, and the close
time is no earlier. -/
structure Follows (v w : OpenView) : Prop where
  state : w.state = v.state
  time : v.parentCloseTime ≤ w.parentCloseTime

/-- A run of applied escrow transactions, with the events of the successes, the last one first. -/
inductive EscrowRun (cc : CryptoConditions) (v₀ : OpenView) : OpenView → List EscrowEvent → Prop where
  | nil : EscrowRun cc v₀ v₀ []
  | step {v w : OpenView} {history : List EscrowEvent} {x : EscrowTx} {app : Application} {tx : STTx}
      {flags : ApplyFlags} {o : Outcome} (run : EscrowRun cc v₀ v history) (next : Follows v w)
      (apply : (x.transactor cc).applyTx app w tx flags = .ok o) (applied : o.applied = true) :
      EscrowRun cc v₀ o.view
        (if o.ter = .tesSUCCESS then x.event tx :: history else history)

/-- Whether there is an escrow, as a number. -/
def State.escrows (σ : State) (o : AccountID) (s : UInt32) : Nat :=
  (σ.get (keylet.escrow o s)).elim 0 fun _ => 1

/-- How often the history resolves the escrow under a key. -/
def resolutions (history : List EscrowEvent) (o : AccountID) (s : UInt32) : Nat :=
  history.count (.finished o s) + history.count (.cancelled o s)

theorem ViewM.Keeps.escrows (h : Keeps Escrow σ σ') (o : AccountID) (s : UInt32) :
    σ'.escrows o s = σ.escrows o s := by
  unfold State.escrows
  rw [h]

theorem Resolved.escrows {payee : AccountID} (h : Resolved σ σ' (keylet.escrow o s) e payee)
    (o' : AccountID) (s' : UInt32) :
    σ'.escrows o' s' + (if (o', s') = (o, s) then 1 else 0) = σ.escrows o' s' := by
  unfold State.escrows
  split
  · next heq =>
    cases heq
    rw [get_of_none h.gone, h.entry]
    rfl
  · next hne => rw [h.others o' s' (by simpa [keylet.escrow] using hne), add_zero]

theorem EscrowEvent.Holds.balance {t : UInt32} {ev : EscrowEvent} (h : ev.Holds t σ σ')
    (hi : List EscrowEvent) (o : AccountID) (s : UInt32) {n : Nat}
    (hn : resolutions hi o s + σ.escrows o s = hi.count (.created o s) + n) :
    resolutions (ev :: hi) o s + σ'.escrows o s = (ev :: hi).count (.created o s) + n := by
  cases ev with
  | created o' s' =>
    obtain ⟨hno, hso, hmo⟩ := h
    have he : σ'.escrows o s = σ.escrows o s + if (o, s) = (o', s') then 1 else 0 := by
      unfold State.escrows
      split
      · next heq =>
        cases heq
        rw [hno]
        obtain ⟨e, he⟩ := Option.isSome_iff_exists.1 hso
        rw [he]
        rfl
      · next hne => rw [hmo.others o s hne, add_zero]
    simp only [resolutions, List.count_cons, beq_iff_eq, reduceCtorEq, if_false, add_zero,
      EscrowEvent.created.injEq, Prod.mk.injEq] at hn he ⊢
    simp only [he, eq_comm (a := o), eq_comm (a := s)]
    omega
  | finished o' s' =>
    obtain ⟨e, -, -, hr⟩ := h
    have he := hr.escrows o s
    simp only [resolutions, List.count_cons, beq_iff_eq, reduceCtorEq, if_false, add_zero,
      EscrowEvent.finished.injEq, Prod.mk.injEq] at hn he ⊢
    simp only [eq_comm (a := o), eq_comm (a := s)] at he
    omega
  | cancelled o' s' =>
    obtain ⟨e, _, -, -, hr⟩ := h
    have he := hr.escrows o s
    simp only [resolutions, List.count_cons, beq_iff_eq, reduceCtorEq, if_false, add_zero,
      EscrowEvent.cancelled.injEq, Prod.mk.injEq] at hn he ⊢
    simp only [eq_comm (a := o), eq_comm (a := s)] at he
    omega

/-- Every resolution of a key takes away the escrow that one creation put there. -/
theorem escrow_balance {v₀ : OpenView} {hi : List EscrowEvent} (hinv : EscrowInv v₀.state)
    (hr : EscrowRun cc v₀ v hi) :
    EscrowInv v.state ∧ ∀ o s, resolutions hi o s + v.state.escrows o s =
      hi.count (.created o s) + v₀.state.escrows o s := by
  induction hr with
  | nil => exact ⟨hinv, fun o s => by simp [resolutions]⟩
  | step _ next apply applied ih =>
    obtain ⟨hinv, ih⟩ := ih
    rw [← next.state] at hinv ih
    obtain ⟨hi', ⟨ht, b, _, -, hk, hev⟩ | ⟨ht, hk⟩⟩ := escrow_step hinv apply applied
    · rw [if_pos ht]
      exact ⟨hi', fun o s => hev.balance _ o s (by rw [hk.escrows]; exact ih o s)⟩
    · rw [if_neg ht]
      exact ⟨hi', fun o s => by rw [hk.escrows]; exact ih o s⟩

theorem holds_of_succeeds {v₀ w : OpenView} {hi : List EscrowEvent} {app : Application}
    {tx : STTx} {out : Outcome} (hinv : EscrowInv v₀.state) (hr : EscrowRun cc v₀ v hi)
    (hw : Follows v w) (h : (x.transactor cc).Succeeds app w tx out) :
    ∃ b σ1, exec (beginApply app tx) w.state = .ok (b, σ1) ∧ Keeps Escrow v.state σ1 ∧
      (x.event tx).Holds w.parentCloseTime σ1 out.view.state := by
  obtain ⟨⟨_, happ⟩, ha, ht⟩ := h
  have hi' := (escrow_balance hinv hr).1
  rw [← hw.state] at hi' ⊢
  obtain ⟨-, ⟨-, b, σ1, hbe, hk, hev⟩ | ⟨hne, -⟩⟩ := escrow_step hi' happ ha
  · exact ⟨b, σ1, hbe, hk, hev⟩
  · exact absurd ht hne

section
variable {cc : CryptoConditions} {v₀ v : OpenView} {history : List EscrowEvent}

/-- Over any run an escrow is resolved once: finished for its destination between its two times, or
cancelled for its owner after the second. -/
theorem escrow_life_cycle (hinv : EscrowInv v₀.state) (hrun : EscrowRun cc v₀ v history) :
    -- a key is resolved as often as an escrow was put there, less the one that is there now
    (∀ o s, resolutions history o s + v.state.escrows o s =
      history.count (.created o s) + v₀.state.escrows o s) ∧
    -- finishing
    (∀ f app w tx out, Follows v w → (EscrowFinish.transactor cc f).Succeeds app w tx out →
      ∃ b σ₁ e, exec (beginApply app tx) w.state = .ok (b, σ₁) ∧
        v.state.get (keylet.escrow f.owner f.offerSequence) = some e ∧
        (∀ t, e.finishAfter = some t → t < w.parentCloseTime) ∧
        (∀ t, e.cancelAfter = some t → w.parentCloseTime < t) ∧
        Resolved σ₁ out.view.state (keylet.escrow f.owner f.offerSequence) e e.destination) ∧
    -- cancelling
    (∀ f app w tx out, Follows v w → (EscrowCancel.transactor f).Succeeds app w tx out →
      ∃ b σ₁ e t, exec (beginApply app tx) w.state = .ok (b, σ₁) ∧
        v.state.get (keylet.escrow f.owner f.offerSequence) = some e ∧
        e.cancelAfter = some t ∧ t < w.parentCloseTime ∧
        Resolved σ₁ out.view.state (keylet.escrow f.owner f.offerSequence) e e.account) ∧
    -- never both at one close time
    (∀ f g app app' w w' tx tx' out out', Follows v w → Follows v w' →
      w.parentCloseTime = w'.parentCloseTime → f.owner = g.owner →
      f.offerSequence = g.offerSequence → (EscrowFinish.transactor cc f).Succeeds app w tx out →
      ¬(EscrowCancel.transactor g).Succeeds app' w' tx' out') := by
  refine ⟨(escrow_balance hinv hrun).2, ?_, ?_, ?_⟩
  · intro f app w tx out hw h
    obtain ⟨b, σ1, hbe, hk, e, hfin, hc, hr⟩ :=
      holds_of_succeeds (x := .finish f) hinv hrun hw h
    exact ⟨b, σ1, e, hbe, (hk _).symm.trans hr.entry, hfin, hc, hr⟩
  · intro f app w tx out hw h
    obtain ⟨b, σ1, hbe, hk, e, t, ht, hlt, hr⟩ :=
      holds_of_succeeds (x := .cancel f) hinv hrun hw h
    exact ⟨b, σ1, e, t, hbe, (hk _).symm.trans hr.entry, ht, hlt, hr⟩
  intro f g app app' w w' tx tx' out out' hw hw' hti ho hs hf hg
  obtain ⟨_, _, -, hk, e, -, hc, hr⟩ := holds_of_succeeds (x := .finish f) hinv hrun hw hf
  obtain ⟨_, _, -, hk', _, t, ht, hlt, hr'⟩ :=
    holds_of_succeeds (x := .cancel g) hinv hrun hw' hg
  have he := (hk _).symm.trans hr.entry
  have he' := (hk' _).symm.trans hr'.entry
  rw [← ho, ← hs, he] at he'
  cases he'
  have hgt := hc t ht
  rw [hti] at hgt
  exact UInt32.lt_asymm hlt hgt

end

namespace Sample

def conditions : CryptoConditions where
  deserialize _ := none
  checkCondition _ _ := false

theorem ledger_refs (accounts : List AccountRoot) (closed : Bool) (p d : Digest) :
    (ledger accounts closed).state.refs p d = 0 := by
  rw [refs, ledger_get fun _ => rfl]
  rfl

theorem ledger_escrowInv (accounts : List AccountRoot) (closed : Bool) :
    EscrowInv (ledger accounts closed).state :=
  .of_none (fun _ _ => rfl) fun p _ _ => ledger_refs accounts closed p _

def create : EscrowTx :=
  .create { destination := 1, amount := .native 100, finishAfter := some 150, cancelAfter := some 200 }

/-- Account 2 puts a hundred drops in escrow for account 1. -/
def escrow₁ : OpenView := two.after ((create.transactor conditions).applyTx app two (tx 1 2 1) {})

def finish : EscrowFinish := { owner := 2, offerSequence := 1 }

def cancel : EscrowCancel := { owner := 2, offerSequence := 1 }

def escrowAt (time : UInt32) : OpenView := { escrow₁ with parentCloseTime := time }

def finished : Outcome where
  ter := .tesSUCCESS
  applied := true
  view := (escrowAt 160).after
    ((EscrowFinish.transactor conditions finish).applyTx app (escrowAt 160) (tx 2 2 2) {})

def cancelled : Outcome where
  ter := .tesSUCCESS
  applied := true
  view := (escrowAt 250).after
    ((EscrowCancel.transactor cancel).applyTx app (escrowAt 250) (tx 2 2 2) {})

theorem ending_escrow₁ : ending ((create.transactor conditions).applyTx app two (tx 1 2 1) {}) =
    .ok (.tesSUCCESS, true) := by decide +kernel

theorem finish_succeeds :
    (EscrowFinish.transactor conditions finish).Succeeds app (escrowAt 160) (tx 2 2 2) finished :=
  ⟨⟨{}, ending_eq_ok (by decide +kernel) _⟩, rfl, rfl⟩

theorem cancel_succeeds :
    (EscrowCancel.transactor cancel).Succeeds app (escrowAt 250) (tx 2 2 2) cancelled :=
  ⟨⟨{}, ending_eq_ok (by decide +kernel) _⟩, rfl, rfl⟩

theorem escrow_run : EscrowRun conditions two escrow₁ [.created 2 1] :=
  .step .nil ⟨rfl, UInt32.le_refl _⟩ (ending_eq_ok ending_escrow₁ two) rfl

theorem follows_escrowAt {time : UInt32} (h : 100 ≤ time) : Follows escrow₁ (escrowAt time) :=
  ⟨rfl, h⟩

end Sample

/-- The same escrow can be finished at one time and cancelled at a later one. -/
theorem escrow_life_cycle_sample : EscrowInv Sample.two.state ∧
    EscrowRun Sample.conditions Sample.two Sample.escrow₁ [.created 2 1] ∧
    Sample.escrow₁.state.escrows 2 1 = 1 ∧
    (∃ σ₁ e, Resolved σ₁ Sample.finished.view.state (keylet.escrow 2 1) e e.destination) ∧
    (∃ σ₁ e, Resolved σ₁ Sample.cancelled.view.state (keylet.escrow 2 1) e e.account) := by
  have hinv : EscrowInv Sample.two.state := Sample.ledger_escrowInv _ _
  obtain ⟨hco, hfi, hca, -⟩ := escrow_life_cycle hinv Sample.escrow_run
  obtain ⟨-, σ₁, e, -, -, -, -, hr⟩ := hfi _ _ _ _ _
    (Sample.follows_escrowAt (by decide)) Sample.finish_succeeds
  obtain ⟨-, σ2, e', -, -, -, -, -, hr'⟩ := hca _ _ _ _ _
    (Sample.follows_escrowAt (by decide)) Sample.cancel_succeeds
  exact ⟨hinv, Sample.escrow_run, (Nat.zero_add _).symm.trans (hco 2 1), ⟨σ₁, e, hr⟩, ⟨σ2, e', hr'⟩⟩

end FinPal
