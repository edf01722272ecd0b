import FinPal.Tx.Operator
import FinPal.Tx.SetSignerList
import Mathlib.Algebra.BigOperators.Group.Finset.Basic

/-!
# Multi-signatures

`Transactor::checkMultiSign` walks the signer list beside the signers. It counts each weight once
because the signers ascend, and finds every signer because the stored list ascends.
-/

namespace FinPal
open Store ViewM List SetSignerList Signer

/-! ## The stored list -/

/-- The list ascends without repetition, its weights are positive, the account is not on it, and the
quorum can be reached. -/
structure SignerList.Valid (account : AccountID) (list : SignerList) : Prop where
  sorted : list.signerEntries.Pairwise fun e e' => e.account < e'.account
  size : STTx.minMultiSigners ≤ list.signerEntries.length ∧
    list.signerEntries.length ≤ STTx.maxMultiSigners
  weight : ∀ e ∈ list.signerEntries, 0 < e.weight
  other : ∀ e ∈ list.signerEntries, e.account ≠ account
  quorum : 0 < list.signerQuorum ∧
    list.signerQuorum ≤ (list.signerEntries.map SignerEntry.weight).sum

namespace SetSignerList
variable {l : List SignerEntry}

theorem pairwise_lt_of_adjacentFind
    (hle : l.Pairwise fun e e' => e.account ≤ e'.account) (h : adjacentFind l = false) :
    l.Pairwise fun e e' => e.account < e'.account := by
  induction l with
  | nil => exact .nil
  | cons e rest ih =>
    cases rest with
    | nil => exact pairwise_singleton _ _
    | cons e' rest =>
      simp only [adjacentFind, Bool.or_eq_false_iff, decide_eq_false_iff_not] at h
      obtain ⟨he, hr⟩ := pairwise_cons.1 hle
      have ih := ih hr h.2
      have hlt : e.account < e'.account := lt_of_le_of_ne (he e' (by simp)) h.1
      refine pairwise_cons.2 ⟨fun x hx => ?_, ih⟩
      rcases mem_cons.1 hx with rfl | hx
      · exact hlt
      · exact hlt.trans ((pairwise_cons.1 ih).1 x hx)

variable {account : AccountID}

theorem checkEntries_ok {w w' : Nat} (h : checkEntries account l w = .ok w') :
    (∀ e ∈ l, 0 < e.weight ∧ e.account ≠ account) ∧ w' = w + (l.map SignerEntry.weight).sum := by
  induction l generalizing w with
  | nil =>
    obtain rfl := Except.ok.inj h
    simp
  | cons e _ ih =>
    unfold checkEntries at h
    split at h
    · cases h
    · next _ =>
      split at h
      · cases h
      · next ha =>
        obtain ⟨hall, rfl⟩ := ih h
        refine ⟨fun e' he' => ?_, by simp [Nat.add_assoc]⟩
        rcases mem_cons.1 he' with rfl | he'
        · exact ⟨by omega, ha⟩
        · exact hall e' he'

theorem checkEntries_error {w : Nat} {ter : TER}
    (h : checkEntries account l w = .error ter) : ter ≠ .tesSUCCESS := by
  induction l generalizing w with
  | nil => cases h
  | cons e _ ih =>
    unfold checkEntries at h
    split at h
    · cases h
      decide
    split at h
    · cases h
      decide
    · exact ih h

theorem valid_of_validate {quorum node : Nat} {signers : List SignerEntry}
    (hle : signers.Pairwise fun e e' => e.account ≤ e'.account)
    (h : validateQuorumAndSignerEntries quorum signers account = .tesSUCCESS) :
    SignerList.Valid account ⟨node, quorum, signers⟩ := by
  unfold validateQuorumAndSignerEntries at h
  split at h
  · cases h
  · next _ =>
    split at h
    · cases h
    · next hadj =>
      split at h
      · next ht => exact absurd h (checkEntries_error ht)
      · next w hw =>
        split at h
        · cases h
        · next _ =>
          obtain ⟨ha, rfl⟩ := checkEntries_ok hw
          refine ⟨pairwise_lt_of_adjacentFind hle (by simpa using hadj), ?_,
            fun e he => (ha e he).1, fun e he => (ha e he).2, ?_⟩
          · dsimp only; omega
          · dsimp only; omega

theorem replaceSignerList_stored {f : SetSignerList} {ctx : ApplyContext}
    {signers : List SignerEntry} {σ σ' : State}
    (h : Succeeds (f.replaceSignerList ctx signers) σ σ') :
    ∃ node, σ'.get (keylet.signers ctx.tx.account) = some ⟨node, f.signerQuorum, signers⟩ := by
  obtain ⟨_, _, -, h⟩ := exec_bind.1 h
  obtain ⟨-, h⟩ := exec_success_ok h
  obtain ⟨_, -, h⟩ := exec_peek!_ok h
  obtain ⟨-, h⟩ := exec_guard h
  obtain ⟨-, h⟩ := exec_insert_ok h
  obtain ⟨result, _, h4, h⟩ := exec_bind.1 h
  split at h
  · obtain ⟨l, hl, h⟩ := exec_update_ok h
    obtain ⟨a, -, h⟩ := exec_update_ok h
    obtain ⟨-, rfl⟩ := exec_pure.1 h
    -- the directory and the account are other entries
    have hke := ensures_dirAdd Keeps.isRun (Keeps.permits fun _ => rfl) h4
      (keylet.signers ctx.tx.account)
    rw [hl, State.get_set_self] at hke
    obtain rfl := Option.some.inj hke
    refine ⟨result.2, ?_⟩
    rw [State.get_set_ne (by simp [keylet.signers, keylet.account]), State.get_set_self]
  · next hne => exact absurd (exec_pure.1 h).1 hne

theorem destroySignerList_stored {ctx : ApplyContext} {σ σ' : State}
    (h : Succeeds (destroySignerList ctx) σ σ') :
    σ'.get (keylet.signers ctx.tx.account) = none := by
  obtain ⟨_, -, h⟩ := exec_peek!_ok h
  obtain ⟨-, h⟩ := exec_guard h
  obtain ⟨list, hl, h⟩ := exec_peek_ok h
  cases list with
  | none =>
    obtain ⟨-, rfl⟩ := exec_pure.1 h
    exact hl
  | some list =>
    obtain ⟨_, _, -, h⟩ := exec_bind.1 h
    split at h
    · obtain ⟨_, _, -, h⟩ := exec_bind.1 h
      obtain rfl := exec_erase_last h
      exact State.get_del_self _ _
    · obtain rfl := exec_erase_last h
      exact State.get_del_self _ _

end SetSignerList

/-- The list was stored by a successful `SetSignerList` of the account. -/
def SignerList.Stored (account : AccountID) (list : SignerList) : Prop :=
  ∃ (f : SetSignerList) (app : Application) (v : OpenView) (tx : STTx) (flags : ApplyFlags)
    (o : Outcome), f.transactor.applyTx app v tx flags = .ok o ∧ o.applied = true ∧
      o.ter = .tesSUCCESS ∧ tx.account = account ∧
      o.view.state.get (keylet.signers account) = some list

theorem SignerList.Stored.valid {account : AccountID} {list : SignerList}
    (h : list.Stored account) : list.Valid account := by
  obtain ⟨f, _, v, _, _, o, ha, hap, ht, rfl, hli⟩ := h
  obtain ⟨_, ⟨hpa, b, _, t, fee, hs⟩ | ⟨_, t, _, fee, hc⟩⟩ :=
    applyTx_cases ha hap
  · obtain ⟨_, -, hdo, -⟩ := hs.exec fun _ => rfl
    have hp : preflight f _ = _ := hpa.preflight
    unfold preflight at hp
    split at hp
    · cases hp
    obtain ⟨-, hch, -⟩ := preflightWith_ok hp
    unfold check at hch
    unfold doApply at hdo
    cases hop : f.determineOperation with
    | mk op _ =>
    rw [hop] at hch hdo
    cases op with
    | unknown => cases hch
    | destroy => cases (destroySignerList_stored hdo).symm.trans hli
    | set =>
      obtain ⟨_, hno⟩ := replaceSignerList_stored hdo
      obtain rfl := Option.mem_unique hno hli
      refine valid_of_validate ?_ (Except.ok.inj hch)
      unfold determineOperation at hop
      split at hop
      · next _ _ =>
        split at hop
        · obtain ⟨-, rfl⟩ := Prod.mk.inj hop
          exact pairwise_insertionSort _ _
        · cases (Prod.mk.inj hop).1
      · split at hop <;> cases (Prod.mk.inj hop).1
  have := hc.ter
  rw [ht] at this
  cases this

/-! ## Allowed keys and valid signatures -/

/-- The signer may sign with its key: a phantom with its own, an account with its regular key, or
the master key unless disabled. -/
def KeyAllowed (c : Crypto) (σ : State) (s : Signer) : Prop :=
  c.publicKeyType s.signingPubKey = true ∧
    if c.calcAccountID s.signingPubKey = s.account then
      ∀ root, σ.get (keylet.account s.account) = some root → root.flags &&& lsfDisableMaster = 0
    else
      ∃ root, σ.get (keylet.account s.account) = some root ∧
        root.regularKey = some (c.calcAccountID s.signingPubKey)

variable {c : Crypto} {σ : State} {a : AccountID} {iter : List SignerEntry} {signers : List Signer}

theorem checkSignerKey_eq_tesSUCCESS {s : Signer} :
    checkSignerKey c σ s = .tesSUCCESS ↔ KeyAllowed c σ s := by
  unfold checkSignerKey KeyAllowed
  by_cases hk : c.publicKeyType s.signingPubKey = true
  · by_cases ha : c.calcAccountID s.signingPubKey = s.account
    · cases hro : σ.get (keylet.account s.account) with
      | none => simp [hk]
      | some root => by_cases hd : root.flags &&& lsfDisableMaster = 0 <;> simp [hk, ha, hd]
    cases hro : σ.get (keylet.account s.account) with
    | none => simp [hk]
    | some root =>
      by_cases hr : root.regularKey = some (c.calcAccountID s.signingPubKey) <;>
        simp [ha, hr]
  · simp [hk]

/-- The signature of the transaction for a signer verifies. -/
def SignatureValid (c : Crypto) (tx : STTx) (s : Signer) : Prop :=
  (c.publicKeyType s.signingPubKey && c.verify s.signingPubKey tx.signingHash (some s.account)
    s.txnSignature (tx.hasFlag tfFullyCanonicalSig)) = true

theorem checkSigners_eq_ok {tx : STTx} {last : AccountID} :
    tx.checkSigners c last signers = .ok () ↔ (last :: signers.map account).Pairwise (· < ·) ∧
        ∀ s ∈ signers, s.account ≠ tx.account ∧ SignatureValid c tx s := by
  induction signers generalizing last with
  | nil => simp [STTx.checkSigners]
  | cons s _ ih =>
    unfold STTx.checkSigners
    split
    · next h => simp [h]
    · next ho =>
      split
      · next h => simp [h]
      · next hd =>
        split
        · next h =>
          simp only [reduceCtorEq, map_cons, pairwise_cons, mem_cons, false_iff]
          exact fun hc => absurd (hc.1.1 s.account (.inl rfl)) h.asymm
        · next hso =>
          have hlt : last < s.account := lt_of_le_of_ne (not_lt.1 hso) hd
          split
          · next hs =>
            rw [ih]
            simp only [map_cons, pairwise_cons, mem_cons, forall_eq_or_imp]
            constructor
            · rintro ⟨⟨hre, hpw⟩, hall⟩
              exact ⟨⟨⟨hlt, fun a ha => hlt.trans (hre a ha)⟩, hre, hpw⟩, ⟨ho, hs⟩, hall⟩
            · rintro ⟨⟨-, hre⟩, -, hall⟩
              exact ⟨hre, hall⟩
          · next hs =>
            simp only [reduceCtorEq, mem_cons, forall_eq_or_imp, false_iff]
            exact fun hc => hs hc.2.1.2

/-! ## The walk -/

/-- The weight of an account on a list, zero when it is not listed. -/
def weightOf (entries : List SignerEntry) (a : AccountID) : Nat :=
  (entries.find? (·.account = a)).elim 0 SignerEntry.weight

theorem seekEntry_ok {found : List SignerEntry} (h : seekEntry a iter = .ok (some found)) :
    ∃ skipped e rest, iter = skipped ++ e :: rest ∧ found = e :: rest ∧
      (∀ x ∈ skipped, x.account < a) ∧ ¬e.account < a := by
  induction iter with
  | nil => cases h
  | cons e rest ih =>
    unfold seekEntry at h
    split at h
    · next hlt =>
      cases rest with
      | nil => cases h
      | cons _ rest =>
        obtain ⟨skipped, e1, rest1, heq, hf, ha, hn⟩ := ih h
        refine ⟨e :: skipped, e1, rest1, by rw [heq]; rfl, hf, ?_, hn⟩
        simpa using ⟨hlt, ha⟩
    · next hn =>
      cases h
      exact ⟨[], e, rest, rfl, rfl, by simp, hn⟩

theorem seekEntry_listed {skipped rest : List SignerEntry} {e : SignerEntry}
    (hs : ∀ x ∈ skipped, x.account < a) (he : e.account = a) :
    seekEntry a (skipped ++ e :: rest) = .ok (some (e :: rest)) := by
  induction skipped with
  | nil => simp [seekEntry, he]
  | cons x skipped ih =>
    have ih := ih fun y hy => hs y (mem_cons_of_mem _ hy)
    cases hl : skipped ++ e :: rest with
    | nil => simp at hl
    | cons y l =>
      rw [hl] at ih
      rw [cons_append, hl]
      unfold seekEntry
      rw [if_pos (hs x mem_cons_self)]
      exact ih

theorem weightOf_append {skipped l : List SignerEntry} (h : ∀ x ∈ skipped, x.account < a) :
    weightOf (skipped ++ l) a = weightOf l a := by
  unfold weightOf
  rw [find?_append, find?_eq_none.2 fun x hx => by simpa using (h x hx).ne, Option.none_or]

/-- What the iterator skips for a signer it skips for later ones too. -/
theorem sum_weightOf_append {skipped rest' : List SignerEntry} {e : SignerEntry} {s : Signer}
    {rest : List Signer} (ha : e.account = s.account)
    (hs : ∀ x ∈ skipped, x.account < s.account) (hlt : ∀ a ∈ rest.map account, s.account < a) :
    ((s :: rest).map fun s => weightOf (skipped ++ e :: rest') s.account).sum =
      e.weight + (rest.map fun s => weightOf (e :: rest') s.account).sum := by
  have hse : weightOf (skipped ++ e :: rest') s.account = e.weight := by
    rw [weightOf_append hs]
    simp [weightOf, ha]
  have hw : (rest.map fun s => weightOf (skipped ++ e :: rest') s.account) =
      rest.map fun s => weightOf (e :: rest') s.account :=
    map_congr_left fun s' hs' =>
      weightOf_append fun x hx => (hs x hx).trans (hlt _ (mem_map_of_mem hs'))
  rw [map_cons, sum_cons, hw, hse]

theorem walkSigners_ok {w w' : Nat} (hs : (signers.map account).Pairwise (· < ·))
    (h : walkSigners c σ signers iter w = .ok (.tesSUCCESS, w')) :
    (∀ s ∈ signers, (∃ e ∈ iter, e.account = s.account) ∧ KeyAllowed c σ s) ∧
      w' = w + (signers.map fun s => weightOf iter s.account).sum := by
  induction signers generalizing iter w with
  | nil =>
    obtain ⟨-, rfl⟩ := Prod.mk.inj (Except.ok.inj h)
    simp
  | cons s _ ih =>
    obtain ⟨hlt, hs⟩ := pairwise_cons.1 hs
    obtain ⟨_, hfo, h'⟩ := bind_ok.1 h
    clear h
    rename' h' => h
    split at h
    · cases (Prod.mk.inj (Except.ok.inj h)).1
    · cases (Prod.mk.inj (Except.ok.inj h)).1
    · next e _ =>
      obtain ⟨_, _, _, rfl, heq, hsk, -⟩ := seekEntry_ok hfo
      obtain ⟨rfl, rfl⟩ := cons.inj heq
      split at h
      · cases (Prod.mk.inj (Except.ok.inj h)).1
      · next ha =>
        have ha : e.account = s.account := not_not.1 ha
        cases hkey : checkSignerKey c σ s with
        | tesSUCCESS =>
          rw [hkey] at h
          obtain ⟨hall, rfl⟩ := ih hs h
          refine ⟨fun s' hs' => ?_, ?_⟩
          · rcases mem_cons.1 hs' with rfl | hs'
            · exact ⟨⟨e, by simp, ha⟩, checkSignerKey_eq_tesSUCCESS.1 hkey⟩
            · obtain ⟨⟨e', he', ha'⟩, hk⟩ := hall s' hs'
              exact ⟨⟨e', mem_append_right _ he', ha'⟩, hk⟩
          · rw [sum_weightOf_append ha hsk hlt, Nat.add_assoc]
        | _ =>
          rw [hkey] at h
          cases (Prod.mk.inj (Except.ok.inj h)).1

theorem walkSigners_listed {w : Nat} (hit : iter.Pairwise fun e e' => e.account < e'.account)
    (hs : (signers.map account).Pairwise (· < ·))
    (hall : ∀ s ∈ signers, (∃ e ∈ iter, e.account = s.account) ∧ KeyAllowed c σ s) :
    walkSigners c σ signers iter w =
      .ok (.tesSUCCESS, w + (signers.map fun s => weightOf iter s.account).sum) := by
  induction signers generalizing iter w with
  | nil => simp [walkSigners]
  | cons s rest ih =>
    obtain ⟨hlt, hs⟩ := pairwise_cons.1 hs
    obtain ⟨⟨e, he, ha⟩, hkey⟩ := hall s mem_cons_self
    obtain ⟨skipped, rest', rfl⟩ := append_of_mem he
    obtain ⟨-, hit', hcr⟩ := pairwise_append.1 hit
    have hsk : ∀ x ∈ skipped, x.account < s.account := fun x hx =>
      ha ▸ hcr x hx e mem_cons_self
    have hall' : ∀ s' ∈ rest, (∃ e' ∈ e :: rest', e'.account = s'.account) ∧ KeyAllowed c σ s' := by
      intro s' hs'
      obtain ⟨⟨e', he', ha'⟩, hk⟩ := hall s' (mem_cons_of_mem _ hs')
      refine ⟨⟨e', (mem_append.1 he').resolve_left fun hx => ?_, ha'⟩, hk⟩
      have hlt' := (hsk e' hx).trans (hlt _ (mem_map_of_mem hs'))
      exact absurd hlt' (by rw [ha']; exact lt_irrefl _)
    rw [walkSigners, seekEntry_listed hsk ha]
    simp only [bind, Except.bind, ha, ne_eq, not_true_eq_false, if_false,
      checkSignerKey_eq_tesSUCCESS.2 hkey]
    rw [ih hit' hs hall', sum_weightOf_append ha hsk hlt, Nat.add_assoc]

/-! ## The two checks together -/

theorem checkMultiSign_eq_ok {ctx : PreclaimContext} {list : SignerList}
    (hli : ctx.view.state.get (keylet.signers ctx.tx.account) = some list) :
    checkMultiSign ctx = .ok .tesSUCCESS ↔
      ∃ w, walkSigners ctx.app.crypto ctx.view.state (ctx.tx.signers.getD []) list.signerEntries 0 =
        .ok (.tesSUCCESS, w) ∧ list.signerQuorum ≤ w := by
  unfold checkMultiSign
  rw [hli]
  dsimp only
  rw [bind_ok]
  constructor
  · rintro ⟨⟨ter, w⟩, hw, h⟩
    dsimp only at h
    split at h
    · next hne => exact absurd (Except.ok.inj h) hne
    · next ht =>
      obtain rfl : ter = .tesSUCCESS := not_not.1 ht
      refine ⟨w, hw, not_lt.1 fun hlt => ?_⟩
      rw [if_pos hlt] at h
      cases Except.ok.inj h
  rintro ⟨w, hw, hq⟩
  refine ⟨_, hw, ?_⟩
  dsimp only
  rw [if_neg (not_lt.2 hq)]
  rfl

theorem length_le_of_listed {entries : List SignerEntry}
    (hs : (signers.map account).Pairwise (· < ·))
    (h : ∀ s ∈ signers, ∃ e ∈ entries, e.account = s.account) : signers.length ≤ entries.length := by
  have hno : (signers.map account).Nodup := hs.imp ne_of_lt
  have hsub : signers.map account ⊆ entries.map SignerEntry.account := by
    intro a ha
    obtain ⟨s, hm, rfl⟩ := mem_map.1 ha
    obtain ⟨e, he, hacc⟩ := h s hm
    exact mem_map.2 ⟨e, he, hacc⟩
  simpa using (hno.subperm hsub).length_le

theorem sum_weightOf {entries : List SignerEntry} (hs : (signers.map account).Pairwise (· < ·)) :
    ∑ a ∈ (signers.map account).toFinset, weightOf entries a =
      (signers.map fun s => weightOf entries s.account).sum := by
  rw [sum_toFinset _ (hs.imp ne_of_lt), map_map]
  rfl

/-- What passes both checks is signed by distinct listed signers with valid signatures of allowed
keys, of the required weight together; and signers who are all this, in order, pass. -/
theorem multi_sign_authorisation {ctx : PreclaimContext} {list : SignerList}
    (hstored : list.Stored ctx.tx.account)
    (hlist : ctx.view.state.get (keylet.signers ctx.tx.account) = some list) :
    (ctx.tx.checkMultiSign ctx.app.crypto = .ok () → checkMultiSign ctx = .ok .tesSUCCESS →
      ∃ signers, ctx.tx.signers = some signers ∧ (signers.map Signer.account).Nodup ∧
        (∀ s ∈ signers, (∃ e ∈ list.signerEntries, e.account = s.account) ∧
          s.account ≠ ctx.tx.account ∧ SignatureValid ctx.app.crypto ctx.tx s ∧
          KeyAllowed ctx.app.crypto ctx.view.state s) ∧
        list.signerQuorum ≤
          ∑ a ∈ (signers.map Signer.account).toFinset, weightOf list.signerEntries a) ∧
    ∀ signers, ctx.tx.signers = some signers → ctx.tx.txnSignature = none →
      (signers.map Signer.account).Pairwise (· < ·) →
      (∀ s ∈ signers, s.account ≠ 0 ∧ (∃ e ∈ list.signerEntries, e.account = s.account) ∧
        SignatureValid ctx.app.crypto ctx.tx s ∧ KeyAllowed ctx.app.crypto ctx.view.state s) →
      list.signerQuorum ≤
        ∑ a ∈ (signers.map Signer.account).toFinset, weightOf list.signerEntries a →
      ctx.tx.checkMultiSign ctx.app.crypto = .ok () ∧ checkMultiSign ctx = .ok .tesSUCCESS := by
  have hva := hstored.valid
  constructor
  · intro htx hl
    unfold STTx.checkMultiSign at htx
    split at htx
    · cases htx
    · next signers hsi =>
      split at htx
      · cases htx
      split at htx
      · cases htx
      obtain ⟨hpw, hall⟩ := checkSigners_eq_ok.1 htx
      have hs := (pairwise_cons.1 hpw).2
      obtain ⟨w, hw, hq⟩ := (checkMultiSign_eq_ok hlist).1 hl
      rw [hsi] at hw
      obtain ⟨hwa, rfl⟩ := walkSigners_ok hs hw
      refine ⟨signers, hsi, hs.imp ne_of_lt, fun s hm => ?_, ?_⟩
      · exact ⟨(hwa s hm).1, (hall s hm).1, (hall s hm).2, (hwa s hm).2⟩
      · rw [sum_weightOf hs]
        omega
  intro signers hsi hsig hs hall hq
  have hli : ∀ s ∈ signers, ∃ e ∈ list.signerEntries, e.account = s.account :=
    fun s hm => (hall s hm).2.1
  rw [sum_weightOf hs] at hq
  refine ⟨?_, ?_⟩
  · have hpos : signers.length ≠ 0 := by
      intro h0
      have := hva.quorum.1
      rw [length_eq_zero_iff.1 h0] at hq
      simp at hq
      omega
    have hlen := (length_le_of_listed hs hli).trans hva.size.2
    unfold STTx.checkMultiSign
    rw [hsi]
    dsimp only
    rw [hsig, if_neg (by simp), if_neg (by simp only [STTx.minMultiSigners]; omega)]
    refine checkSigners_eq_ok.2 ⟨pairwise_cons.2 ⟨fun a ha => ?_, hs⟩, fun s hm => ?_⟩
    · obtain ⟨s, hm, rfl⟩ := mem_map.1 ha
      exact Fin.pos_of_ne_zero (hall s hm).1
    · obtain ⟨e, he, hacc⟩ := hli s hm
      exact ⟨hacc ▸ hva.other e he, (hall s hm).2.2.1⟩
  rw [checkMultiSign_eq_ok hlist, hsi, Option.getD_some]
  refine ⟨_, walkSigners_listed hva.sorted hs fun s hm => ?_, by omega⟩
  exact ⟨hli s hm, (hall s hm).2.2.2⟩

/-! ## A multi-signed transaction -/

namespace Sample

/-- Account 2 lists accounts 3 and 4, which are phantoms. -/
def listSigners : SetSignerList where
  signerQuorum := 3
  signerEntries := some [⟨4, 2⟩, ⟨3, 1⟩]

def signerList : SignerList where
  ownerNode := 0
  signerQuorum := 3
  signerEntries := [⟨3, 1⟩, ⟨4, 2⟩]

def signed : OpenView := two.after (listSigners.transactor.applyTx app two (tx 1 2 1) {})

def signer (n : AccountID) : Signer where
  account := n
  signingPubKey := List.replicate n.val 0
  txnSignature := [1]

/-- Both signers sign; `signature` is the transaction's own signature. -/
def multiSigned (signature : Option Blob) : PreclaimContext where
  app := app
  view := signed
  tx := { tx 2 2 2 with
    signingPubKey := [], txnSignature := signature, signers := some [signer 3, signer 4] }
  flags := {}

theorem signerList_stored : signerList.Stored 2 := by
  have he : ending (listSigners.transactor.applyTx app two (tx 1 2 1) {}) =
      .ok (.tesSUCCESS, true) := by decide +kernel
  exact ⟨_, _, _, _, _, _, ending_eq_ok he two, rfl, rfl, rfl, by decide +kernel⟩

theorem get_signerList : signed.state.get (keylet.signers 2) = some signerList := by decide +kernel

theorem signers_allowed (signature : Option Blob) : ∀ s ∈ [signer 3, signer 4], s.account ≠ 0 ∧
    (∃ e ∈ signerList.signerEntries, e.account = s.account) ∧
    SignatureValid crypto (multiSigned signature).tx s ∧ KeyAllowed crypto signed.state s := by
  intro s hs
  simp only [mem_cons, not_mem_nil, or_false] at hs
  rcases hs with rfl | rfl
  · refine ⟨by decide, ⟨⟨3, 1⟩, by simp [signerList], rfl⟩, rfl, rfl, ?_⟩
    rw [if_pos (by decide), show signed.state.get (keylet.account (signer 3).account) = none from
      by decide +kernel]
    simp
  refine ⟨by decide, ⟨⟨4, 2⟩, by simp [signerList], rfl⟩, rfl, rfl, ?_⟩
  rw [if_pos (by decide), show signed.state.get (keylet.account (signer 4).account) = none from
    by decide +kernel]
  simp

end Sample

open Sample

theorem multi_sign_authorisation_sample :
    (multiSigned none).tx.checkMultiSign crypto = .ok () ∧
      checkMultiSign (multiSigned none) = .ok .tesSUCCESS :=
  (@multi_sign_authorisation (multiSigned none) _ signerList_stored
    get_signerList).2 _ rfl rfl (by decide) (signers_allowed none) (by decide)

/-- A transaction that also has a signature of its own is refused. -/
theorem multi_sign_refused_with_signature :
    ∃ (ctx : PreclaimContext) (list : SignerList) (signers : List Signer),
      list.Stored ctx.tx.account ∧
      ctx.view.state.get (keylet.signers ctx.tx.account) = some list ∧
      ctx.tx.signers = some signers ∧ (signers.map Signer.account).Pairwise (· < ·) ∧
      (∀ s ∈ signers, (∃ e ∈ list.signerEntries, e.account = s.account) ∧
        SignatureValid ctx.app.crypto ctx.tx s ∧ KeyAllowed ctx.app.crypto ctx.view.state s) ∧
      list.signerQuorum ≤
        ∑ a ∈ (signers.map Signer.account).toFinset, weightOf list.signerEntries a ∧
      ctx.tx.checkMultiSign ctx.app.crypto = .error "Cannot both single- and multi-sign." :=
  ⟨multiSigned (some []), signerList, _, signerList_stored, get_signerList, rfl, by decide,
    fun s hs => (signers_allowed (some []) s hs).2, by decide, rfl⟩

end FinPal
