import FinPal.Ledger.SkipList

/-!
# Lookup by sequence number
-/

namespace FinPal
namespace ChainLedger
open LedgerHashes
variable {first n : ℕ} {parent : Digest} {hashAt : ℕ → Digest} {l : ChainLedger}

/-- The chain from the sequence number `first` on, where the ledger of `n` has the hash `hashAt n`.
-/
def chain (first : ℕ) (parent : Digest) (hashAt : ℕ → Digest) : ℕ → ChainLedger
  | 0 => { seq := first, hash := hashAt first, parentHash := parent }
  | i + 1 => (chain first parent hashAt i).next (hashAt (first + i + 1))

theorem and_255 (n : ℕ) : n &&& 0xff = n % 256 := Nat.and_two_pow_sub_one_eq_mod n 8

theorem skipBlock_eq (n : ℕ) : skipBlock n = n / 65536 := Nat.shiftRight_eq_div_pow n 16

/-! ## What the entries hold -/

/-- The window before the ledger `n`, seen from its end. -/
structure Recent (first : ℕ) (hashAt : ℕ → Digest) (n : ℕ) (hashes : List Digest) : Prop where
  length : hashes.length = min 256 (n - first)
  entry : ∀ d < hashes.length, hashes.reverse[d]? = some (hashAt (n - 1 - d))

theorem Recent.push {hashes : List Digest} (h : Recent first hashAt n hashes) (hn : first ≤ n) :
    Recent first hashAt (n + 1)
      ((if hashes.length = 256 then hashes.tail else hashes) ++ [hashAt n]) := by
  have hlen := h.length
  have hlen' : (if hashes.length = 256 then hashes.tail else hashes).length =
      min 255 (n - first) := by
    split
    · rw [List.length_tail]
      omega
    · omega
  refine ⟨by rw [List.length_append, List.length_singleton]; omega, fun d hd => ?_⟩
  rw [List.length_append, List.length_singleton] at hd
  rw [List.reverse_append, List.reverse_singleton, List.singleton_append]
  cases d with
  | zero => simp
  | succ d =>
    -- the oldest hash, if it goes, is behind all others
    have hold : (if hashes.length = 256 then hashes.tail else hashes).reverse[d]? =
        hashes.reverse[d]? := by
      split
      · rw [← List.dropLast_reverse, List.getElem?_dropLast, List.length_reverse, if_pos (by omega)]
      · rfl
    rw [List.getElem?_cons_succ, hold, h.entry d (by omega)]
    congr 2
    omega

/-- A ledger whose hash goes into the list of its block. -/
def Marked (first n m : ℕ) : Prop := 256 ∣ m ∧ first ≤ m ∧ m < n

/-- The list of a block: its marked ledgers up to the last, seen from the end. -/
structure Block (first : ℕ) (hashAt : ℕ → Digest) (n b : ℕ) (e : LedgerHashes) : Prop where
  last : Marked first n e.lastLedgerSequence
  block : e.lastLedgerSequence / 65536 = b
  top : ∀ m, Marked first n m → m / 65536 = b → m ≤ e.lastLedgerSequence
  length : ∀ d, d < e.hashes.length ↔ first + 256 * d ≤ e.lastLedgerSequence ∧
    (e.lastLedgerSequence - 256 * d) / 65536 = b
  entry : ∀ d < e.hashes.length, e.hashes.reverse[d]? = some (hashAt (e.lastLedgerSequence - 256 * d))

/-- The lists of the blocks hold the marked ledgers before `n`. -/
structure Blocks (first : ℕ) (hashAt : ℕ → Digest) (n : ℕ) (blocks : ℕ → Option LedgerHashes) :
    Prop where
  present : ∀ b e, blocks b = some e → Block first hashAt n b e
  absent : ∀ b, blocks b = none → ∀ m, Marked first n m → m / 65536 ≠ b

theorem Marked.succ {m : ℕ} : Marked first (n + 1) m ↔
    Marked first n m ∨ m = n ∧ 256 ∣ n ∧ first ≤ n := by
  constructor
  · rintro ⟨h1, h2, h3⟩
    obtain h | rfl := Nat.lt_succ_iff_lt_or_eq.1 h3
    · exact .inl ⟨h1, h2, h⟩
    · exact .inr ⟨rfl, h1, h2⟩
  rintro (⟨h1, h2, h3⟩ | ⟨rfl, h1, h2⟩)
  · exact ⟨h1, h2, by omega⟩
  · exact ⟨h1, h2, by omega⟩

theorem Blocks.skip {blocks : ℕ → Option LedgerHashes} (h : Blocks first hashAt n blocks)
    (hn : ¬256 ∣ n) : Blocks first hashAt (n + 1) blocks := by
  have hma (m) : Marked first (n + 1) m ↔ Marked first n m := by
    rw [Marked.succ]
    tauto
  refine ⟨fun b e he => ?_, fun b hb m hm => h.absent b hb m ((hma m).1 hm)⟩
  obtain ⟨hl, hbl, ht, hle, hen⟩ := h.present b e he
  exact ⟨(hma _).2 hl, hbl, fun m hm => ht m ((hma m).1 hm), hle, hen⟩

theorem Block.opened (hn : 256 ∣ n) (hfi : first ≤ n)
    (hno : ∀ m, Marked first n m → m / 65536 ≠ n / 65536) :
    Block first hashAt (n + 1) (n / 65536) ⟨[hashAt n], n⟩ where
  last := Marked.succ.2 (.inr ⟨rfl, hn, hfi⟩)
  block := rfl
  top m hm hb := by
    obtain hm | ⟨rfl, -⟩ := Marked.succ.1 hm
    · exact absurd hb (hno m hm)
    · exact le_rfl
  length d := by
    cases d with
    | zero => simpa using hfi
    | succ d =>
      refine iff_of_false (by simp) ?_
      rintro ⟨hle, hb⟩
      dsimp only at hle hb
      have hdvd : 256 ∣ n - 256 * (d + 1) := by omega
      exact hno (n - 256 * (d + 1)) ⟨hdvd, by omega, by omega⟩ hb
  entry d hd := by
    obtain rfl : d = 0 := by simpa using hd
    simp

theorem Block.push {e : LedgerHashes} (h : Block first hashAt n (n / 65536) e) (hn : 256 ∣ n)
    (hfi : first ≤ n) : Block first hashAt (n + 1) (n / 65536) ⟨e.hashes ++ [hashAt n], n⟩ := by
  obtain ⟨⟨_, _, _⟩, _, ht, hle, hen⟩ := h
  have hlast : e.lastLedgerSequence + 256 = n := by
    have htop' := ht (n - 256) ⟨by omega, by omega, by omega⟩ (by omega)
    omega
  refine ⟨Marked.succ.2 (.inr ⟨rfl, hn, hfi⟩), rfl, fun m hm hb => ?_, fun d => ?_, fun d hd => ?_⟩
  · obtain hm | ⟨rfl, -⟩ := Marked.succ.1 hm
    · exact hm.2.2.le
    · exact le_rfl
  · rw [List.length_append, List.length_singleton]
    cases d with
    | zero => simpa using hfi
    | succ d =>
      rw [Nat.add_lt_add_iff_right, hle d]
      have hs : n - 256 * (d + 1) = e.lastLedgerSequence - 256 * d := by omega
      simp only [hs]
      refine and_congr_left fun _ => ?_
      omega
  rw [List.reverse_append, List.reverse_singleton, List.singleton_append]
  cases d with
  | zero => simp
  | succ d =>
    rw [List.length_append, List.length_singleton, Nat.add_lt_add_iff_right] at hd
    have hs : n - 256 * (d + 1) = e.lastLedgerSequence - 256 * d := by omega
    rw [List.getElem?_cons_succ, hen d hd, hs]

theorem Blocks.push {blocks : ℕ → Option LedgerHashes} (h : Blocks first hashAt n blocks)
    (hn : 256 ∣ n) (hfi : first ≤ n) :
    Blocks first hashAt (n + 1) (Function.update blocks (n / 65536)
      (some ⟨hashesOf (blocks (n / 65536)) ++ [hashAt n], n⟩)) := by
  have hot {m b : ℕ} (hb : b ≠ n / 65536) (hm : Marked first (n + 1) m) (hmb : m / 65536 = b) :
      Marked first n m := by
    obtain hm | ⟨rfl, -⟩ := Marked.succ.1 hm
    · exact hm
    · exact absurd hmb.symm hb
  refine ⟨fun b e he => ?_, fun b hb m hm hmb => ?_⟩
  · by_cases hb : b = n / 65536
    · subst hb
      rw [Function.update_self] at he
      obtain rfl := Option.some.inj he
      cases hold : blocks (n / 65536) with
      | none => exact .opened hn hfi (h.absent _ hold)
      | some old => exact (h.present _ old hold).push hn hfi
    rw [Function.update_of_ne hb] at he
    obtain ⟨hla, hbl, ht, hle, hen⟩ := h.present b e he
    exact ⟨Marked.succ.2 (.inl hla), hbl, fun m hm hmb => ht m (hot hb hm hmb) hmb,
      hle, hen⟩
  by_cases hb' : b = n / 65536
  · subst hb'
    simp at hb
  · rw [Function.update_of_ne hb'] at hb
    exact h.absent b hb m (hot hb' hm hmb) hmb

/-! ## The chain -/

/-- The ledger of sequence number `n` in the chain. -/
structure InChain (first : ℕ) (hashAt : ℕ → Digest) (n : ℕ) (l : ChainLedger) : Prop where
  seq : l.seq = n
  hash : l.hash = hashAt n
  parentHash : first < n → l.parentHash = hashAt (n - 1)
  recent : Recent first hashAt n (hashesOf l.recent)
  blocks : Blocks first hashAt n l.blocks

theorem InChain.next (h : InChain first hashAt n l) (hfi : first ≤ n) (hn : n + 1 < 2 ^ 32) :
    InChain first hashAt (n + 1) (l.next (hashAt (n + 1))) := by
  have hs : (l.seq + 1) % 2 ^ 32 = n + 1 := by rw [h.seq, Nat.mod_eq_of_lt hn]
  have hre := h.recent.push hfi
  unfold ChainLedger.next updateSkipList
  simp only [hs, Nat.succ_ne_zero, if_false, Nat.add_sub_cancel]
  unfold updateBlock
  simp only [and_255, h.hash, skipBlock_eq]
  split
  next hdvd =>
    refine ⟨rfl, rfl, fun _ => rfl, hre, ?_⟩
    exact h.blocks.push (Nat.dvd_of_mod_eq_zero hdvd) hfi
  next hdvd =>
    refine ⟨rfl, rfl, fun _ => rfl, hre, ?_⟩
    exact h.blocks.skip fun hd => hdvd (Nat.mod_eq_zero_of_dvd hd)

theorem inChain_chain (first : ℕ) (parent : Digest) (hashAt : ℕ → Digest) {i : ℕ}
    (hi : first + i < 2 ^ 32) : InChain first hashAt (first + i) (chain first parent hashAt i) := by
  induction i with
  | zero =>
    refine ⟨rfl, rfl, fun h => absurd h (lt_irrefl _), ⟨by simp [chain, hashesOf], nofun⟩,
      ⟨nofun, ?_⟩⟩
    rintro b - m ⟨-, h1, h2⟩
    exact absurd h2 h1.not_gt
  | succ i ih => exact (ih (by omega)).next (Nat.le_add_right _ _) hi

/-! ## Lookup -/

variable {s : ℕ}

section
variable (h : InChain first hashAt n l)
include h

variable (hn : n < 2 ^ 32)

include hn

theorem InChain.recentHash (hs : first ≤ s)
    (hlt : s < n) (hnear : n - s ≤ 256) : l.recentHash s = some (hashAt s) := by
  have hbm : Int.bmod ((n : ℤ) - s) (2 ^ 32) = (n - s : ℕ) := by
    rw [Int.bmod_def]
    split <;> omega
  have hm : (((n - s : ℕ) : ℤ) % 2 ^ 64).toNat = n - s := by omega
  have hl := h.recent.length
  have hg := h.recent.entry (n - s - 1) (by omega)
  rw [List.getElem?_reverse (by omega)] at hg
  unfold ChainLedger.recentHash
  cases hr : l.recent with
  | none =>
    rw [hr] at hl
    simp [hashesOf] at hl
    omega
  | some e =>
    have he : hashesOf l.recent = e.hashes := by rw [hr]; rfl
    rw [he] at hl hg
    simp only [h.seq, hbm, hm]
    rw [if_pos (by omega), if_pos (by omega)]
    have hi : e.hashes.length - (n - s) = e.hashes.length - 1 - (n - s - 1) := by omega
    have hseq : n - 1 - (n - s - 1) = s := by omega
    rw [hi, hg, hseq]

/-- Beyond the window nothing is found, also where the difference wraps. -/
theorem InChain.recentHash_far (hlt : s < n) (hfar : 256 < n - s) : l.recentHash s = none := by
  have hl := h.recent.length
  unfold ChainLedger.recentHash
  simp only [h.seq]
  split
  next hd =>
    have hb : Int.bmod ((n : ℤ) - s) (2 ^ 32) = (n : ℤ) - s - 2 ^ 32 := by
      rw [Int.bmod_def] at hd ⊢
      split at hd <;> omega
    cases hr : l.recent with
    | none => rfl
    | some e =>
      have he : hashesOf l.recent = e.hashes := by rw [hr]; rfl
      rw [he] at hl
      simp only [hb]
      rw [if_neg (by omega)]
  next => rfl

theorem InChain.blockHash (hs : first ≤ s)
    (hlt : s < n) (hdvd : 256 ∣ s) : l.blockHash s = some (hashAt s) := by
  unfold ChainLedger.blockHash
  rw [skipBlock_eq]
  cases he : l.blocks (s / 65536) with
  | none => exact absurd rfl (h.blocks.absent _ he s ⟨hdvd, hs, hlt⟩)
  | some e =>
    obtain ⟨⟨_, -, _⟩, -, ht, hl, hen⟩ := h.blocks.present _ e he
    have hle := ht s ⟨hdvd, hs, hlt⟩ rfl
    have hdi : ((e.lastLedgerSequence + 2 ^ 32 - s) % 2 ^ 32) >>> 8 =
        (e.lastLedgerSequence - s) / 256 := by
      omega
    have hsub : e.lastLedgerSequence - 256 * ((e.lastLedgerSequence - s) / 256) = s := by omega
    have hd : (e.lastLedgerSequence - s) / 256 < e.hashes.length :=
      (hl _).2 ⟨by omega, by rw [hsub]⟩
    have hg := hen _ hd
    rw [List.getElem?_reverse hd, hsub] at hg
    simp only [hdi, if_pos hd]
    rw [← hg]
    congr 1
    omega

theorem InChain.hashOfSeq (hs : first ≤ s) :
    l.hashOfSeq s = if s ≤ n ∧ (n - s ≤ 256 ∨ 256 ∣ s) then some (hashAt s) else none := by
  unfold ChainLedger.hashOfSeq
  rw [h.seq, and_255]
  by_cases hfu : n < s
  · rw [if_pos hfu, if_neg (by omega)]
  rw [if_neg hfu]
  by_cases hse : s = n
  · subst hse
    simp [h.hash]
  rw [if_neg hse]
  by_cases hpa : s = n - 1
  · rw [if_pos hpa, if_pos (by omega), h.parentHash (by omega), hpa]
  rw [if_neg hpa]
  have hlt : s < n := by omega
  by_cases hne : n - s ≤ 256
  · simp [h.recentHash hn hs hlt hne, hne, hlt.le]
  rw [h.recentHash_far hn hlt (by omega)]
  by_cases hd : 256 ∣ s
  · simp [Nat.mod_eq_zero_of_dvd hd, hd, hlt.le, h.blockHash hn hs hlt hd]
  · have hm : s % 256 ≠ 0 := fun hm => hd (Nat.dvd_of_mod_eq_zero hm)
    simp [hm, hd, hne]

end
end ChainLedger

open ChainLedger

/-- In every ledger of a chain, the hash of a ledger is found if it is among the last 256 or its
sequence number is a multiple of 256. Nothing is found for the future and for other ledgers of the
past, and never the hash of another ledger. -/
theorem skip_list_lookup (first : ℕ) (parent : Digest) (hashAt : ℕ → Digest) {i s : ℕ}
    (hi : first + i < 2 ^ 32) (hs : first ≤ s) :
    let l := chain first parent hashAt i
    l.seq = first + i ∧
    (s ≤ l.seq → l.seq - s ≤ 256 ∨ 256 ∣ s ∧ first < s → l.hashOfSeq s = some (hashAt s)) ∧
    (l.seq < s ∨ 256 < l.seq - s ∧ ¬256 ∣ s → l.hashOfSeq s = none) ∧
    ∀ hash, l.hashOfSeq s = some hash → s ≤ l.seq ∧ hash = hashAt s := by
  intro l
  have h := inChain_chain first parent hashAt hi
  rw [h.hashOfSeq hi hs, h.seq]
  refine ⟨rfl, fun hle hfo => ?_, fun hnone => ?_, fun hash hfo => ?_⟩
  · rw [if_pos ⟨hle, hfo.imp_right And.left⟩]
  · rw [if_neg]
    omega
  · split_ifs at hfo with hc
    exact ⟨hc.1, (Option.some.inj hfo).symm⟩

/-- Ledger 258 of the chain that starts with ledger 1 finds the window's oldest ledger, and not the
one before it. -/
theorem skip_list_lookup_sample :
    (chain 1 (.raw 0) .raw 257).hashOfSeq 2 = some (.raw 2) ∧
      (chain 1 (.raw 0) .raw 257).hashOfSeq 1 = none := by
  have h2 := skip_list_lookup 1 (.raw 0) .raw (i := 257) (s := 2) (by decide) (by decide)
  have h1 := skip_list_lookup 1 (.raw 0) .raw (i := 257) (s := 1) (by decide) (by decide)
  refine ⟨h2.2.1 ?_ (.inl ?_), h1.2.2.1 (.inr ⟨?_, by decide⟩)⟩
  · rw [h2.1]; decide
  · rw [h2.1]
  · rw [h1.1]; decide

end FinPal
