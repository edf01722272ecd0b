import FinPal.Lib.BigEndian
import FinPal.SHAMap.Decode

/-!
# Ledger headers as bytes

`addRaw` (`ledger/impl/View.cpp`), `calculateLedgerHash` (`app/ledger/Ledger.cpp`) and
`InboundLedger::deserializeHeader`, with what they use of `Serializer` and `SerialIter`.
-/

namespace FinPal

def HashPrefix.ledgerMaster : Blob := [0x4C, 0x57, 0x52, 0]

namespace Serializer

def add8 (i : UInt8) : Blob := [i]
def add32 (i : UInt32) : Blob := BigEndian.bytes 4 i.toNat
def add64 (i : UInt64) : Blob := BigEndian.bytes 8 i.toNat
def add256 (i : Tag) : Blob := i.toList

end Serializer

/-- The state is what is left of the bytes. -/
abbrev SerialIter := StateT Blob (Except String)

namespace SerialIter

def get (n : ℕ) (what : String) : SerialIter Blob := fun s =>
  if s.length < n then .error ("invalid SerialIter " ++ what) else .ok (s.take n, s.drop n)

def get8 : SerialIter UInt8 := return .ofNat (BigEndian.value (← get 1 "get8"))
def get32 : SerialIter UInt32 := return .ofNat (BigEndian.value (← get 4 "get32"))
def get64 : SerialIter UInt64 := return .ofNat (BigEndian.value (← get 8 "get64"))

def getBitString : SerialIter Tag := fun s =>
  match get256 s 0 with
  | none => .error "invalid SerialIter getBitString"
  | some u => .ok (u, s.drop 32)

end SerialIter

/-- The fields that are serialized. -/
structure LedgerInfo where
  seq : UInt32
  parentCloseTime : UInt32
  txHash : Tag
  accountHash : Tag
  parentHash : Tag
  drops : Int64
  closeFlags : Int32
  closeTimeResolution : UInt32
  closeTime : UInt32
  deriving DecidableEq

namespace LedgerInfo

/-- The resolution as `addRaw` and `calculateLedgerHash` code it, before it is a byte. -/
def closeTimeRes (resolution : UInt32) : Except String UInt32 :=
  if 240 < resolution then
    if resolution % 300 ≠ 0 then .error "closeTimeRes must be 5min factor while > 4min"
    else .ok (240 + resolution / 300)
  else .ok resolution

open Serializer in
/-- What `addRaw` writes and `calculateLedgerHash` hashes: the same fields in the same order. -/
def addRaw (info : LedgerInfo) : Except String Blob := do
  let closeTimeRes ← closeTimeRes info.closeTimeResolution
  return add32 info.seq ++ add64 info.drops.toUInt64 ++ add256 info.parentHash ++
    add256 info.txHash ++ add256 info.accountHash ++ add32 info.parentCloseTime ++
    add32 info.closeTime ++ add8 closeTimeRes.toUInt8 ++ add8 info.closeFlags.toUInt32.toUInt8

def calculateLedgerHash (sha512Half : Blob → Tag) (info : LedgerInfo) : Except String Tag := do
  return sha512Half (HashPrefix.ledgerMaster ++ (← info.addRaw))

def restoredRes (closeTimeRes : UInt8) : UInt32 :=
  let closeTimeRes := closeTimeRes.toUInt32
  if 240 < closeTimeRes then (closeTimeRes - 240) * 300 else closeTimeRes

open SerialIter in
def header : SerialIter LedgerInfo := do
  let seq ← get32
  let drops ← get64
  let parentHash ← getBitString
  let txHash ← getBitString
  let accountHash ← getBitString
  let parentCloseTime ← get32
  let closeTime ← get32
  let closeTimeRes ← get8
  let closeFlags ← get8
  return {
    seq, parentHash, txHash, accountHash, parentCloseTime, closeTime
    drops := drops.toInt64
    closeTimeResolution := restoredRes closeTimeRes
    closeFlags := closeFlags.toUInt32.toInt32 }

def deserializeHeader (data : Blob) (hasPrefix : Bool) : Except String LedgerInfo :=
  StateT.run' (do
    if hasPrefix then discard SerialIter.get32
    header) data

end LedgerInfo
end FinPal
