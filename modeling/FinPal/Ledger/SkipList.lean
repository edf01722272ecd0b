import FinPal.Protocol.Indexes

/-!
# The skip list of a ledger

A ledger keeps the hashes of the 256 ledgers before it in one entry, and for each block of 65536
sequence numbers those of every 256th in another (`app/ledger/Ledger.cpp`). `hashOfSeq` of
`ledger/impl/View.cpp` looks up a hash.
-/

namespace FinPal

/-- An `ltLEDGER_HASHES` entry. -/
structure LedgerHashes where
  hashes : List Digest
  lastLedgerSequence : ℕ
  deriving DecidableEq

/-- The parts of a ledger that the skip list is about. -/
structure ChainLedger where
  seq : ℕ
  hash : Digest
  parentHash : Digest
  /-- The entry under `keylet::skip()`. -/
  recent : Option LedgerHashes := none
  /-- The entries under `keylet::skip(seq)`, by block. -/
  blocks : ℕ → Option LedgerHashes := fun _ => none

/-- The block of `getLedgerHashIndex(seq)`. -/
def skipBlock (seq : ℕ) : ℕ := seq >>> 16

namespace LedgerHashes

/-- The hashes of an entry, or none if it has not been created. -/
def hashesOf (e : Option LedgerHashes) : List Digest := (e.map hashes).getD []

end LedgerHashes

namespace ChainLedger
open LedgerHashes

def updateBlock (l : ChainLedger) (prevIndex : ℕ) : ChainLedger :=
  if prevIndex &&& 0xff = 0 then
    let k := skipBlock prevIndex
    { l with
      blocks := Function.update l.blocks k
        (some ⟨hashesOf (l.blocks k) ++ [l.parentHash], prevIndex⟩) }
  else l

def updateRecent (l : ChainLedger) (prevIndex : ℕ) : ChainLedger :=
  let hashes := hashesOf l.recent
  let hashes := if hashes.length = 256 then hashes.tail else hashes
  { l with recent := some ⟨hashes ++ [l.parentHash], prevIndex⟩ }

def updateSkipList (l : ChainLedger) : ChainLedger :=
  if l.seq = 0 then l else (l.updateBlock (l.seq - 1)).updateRecent (l.seq - 1)

/-- The next ledger, with its skip list, closed and with its hash. -/
def next (prevLedger : ChainLedger) (hash : Digest) : ChainLedger :=
  { prevLedger with
    seq := (prevLedger.seq + 1) % 2 ^ 32
    parentHash := prevLedger.hash
    hash }.updateSkipList

/-! ## Lookup -/

/-- The lookup within 256 ledgers. `diff` is an `int`, and it is compared with a size as a 64-bit
word. -/
def recentHash (l : ChainLedger) (seq : ℕ) : Option Digest :=
  let diff := Int.bmod ((l.seq : ℤ) - seq) (2 ^ 32)
  if diff ≤ 256 then
    match l.recent with
    | none => none
    | some hashIndex =>
      let size := hashIndex.hashes.length
      let diff := (diff % 2 ^ 64).toNat
      if diff ≤ size then hashIndex.hashes[size - diff]? else none
  else none

def blockHash (l : ChainLedger) (seq : ℕ) : Option Digest :=
  match l.blocks (skipBlock seq) with
  | none => none
  | some hashIndex =>
    let diff := ((hashIndex.lastLedgerSequence + 2 ^ 32 - seq) % 2 ^ 32) >>> 8
    let size := hashIndex.hashes.length
    if diff < size then hashIndex.hashes[size - diff - 1]? else none

def hashOfSeq (l : ChainLedger) (seq : ℕ) : Option Digest :=
  if l.seq < seq then none
  else if seq = l.seq then some l.hash
  else if seq = l.seq - 1 then some l.parentHash
  else
    match l.recentHash seq with
    | some hash => some hash
    | none => if seq &&& 0xff ≠ 0 then none else l.blockHash seq

end ChainLedger
end FinPal
