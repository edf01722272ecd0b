import FinPal.Ledger.LedgerInfo
import FinPal.Lib.Store

/-!
# Headers that are read again
-/

namespace FinPal
namespace SerialIter

/-- `get` reads the bytes `s` as `a`, whatever follows them. -/
def Reads {α : Type} (get : SerialIter α) (s : Blob) (a : α) : Prop :=
  ∀ rest, get.run (s ++ rest) = .ok (a, rest)

theorem Reads.bind {α β : Type} {g : SerialIter α} {f : α → SerialIter β} {s t : Blob} {a : α}
    {b : β} (hg : Reads g s a) (hf : Reads (f a) t b) : Reads (g >>= f) (s ++ t) b := by
  intro rest
  rw [StateT.run_bind, List.append_assoc, hg]
  exact hf rest

theorem reads_integer {α : Type} (w : ℕ) {n : ℕ} (what : String) (f : ℕ → α) (hn : n < 256 ^ w) :
    Reads (return f (BigEndian.value (← get w what))) (BigEndian.bytes w n) (f n) := by
  intro rest
  have hg : (get w what).run (BigEndian.bytes w n ++ rest) = .ok (BigEndian.bytes w n, rest) := by
    simp [get, StateT.run, BigEndian.length_bytes]
  rw [StateT.run_bind, hg]
  exact congrArg (fun v => Except.ok (f v, rest))
    ((BigEndian.value_bytes w n).trans (Nat.mod_eq_of_lt hn))

theorem reads_add8 (i : UInt8) : Reads get8 (Serializer.add8 i) i := by
  have h := reads_integer 1 "get8" UInt8.ofNat i.toNat_lt
  rwa [UInt8.ofNat_toNat, show BigEndian.bytes 1 i.toNat = Serializer.add8 i by
    simp [BigEndian.bytes, Serializer.add8]] at h

theorem reads_add32 (i : UInt32) : Reads get32 (Serializer.add32 i) i := by
  have h := reads_integer 4 "get32" UInt32.ofNat i.toNat_lt
  rwa [UInt32.ofNat_toNat] at h

theorem reads_add64 (i : UInt64) : Reads get64 (Serializer.add64 i) i := by
  have h := reads_integer 8 "get64" UInt64.ofNat i.toNat_lt
  rwa [UInt64.ofNat_toNat] at h

theorem reads_add256 (i : Tag) : Reads getBitString (Serializer.add256 i) i := by
  intro _
  simp [getBitString, get256, Serializer.add256, StateT.run, Vector.toList]

end SerialIter

namespace LedgerInfo
variable {info : LedgerInfo} {r res : UInt32}

/-- What is left of a header that is written, with the resolution `r`, and read. -/
def truncated (info : LedgerInfo) (r : UInt32) : LedgerInfo :=
  { info with
    closeTimeResolution := restoredRes r.toUInt8
    closeFlags := info.closeFlags.toUInt32.toUInt8.toUInt32.toInt32 }

open SerialIter in
theorem deserializeHeader_addRaw {s : Blob} (hr : closeTimeRes info.closeTimeResolution = .ok r)
    (hs : info.addRaw = .ok s) : deserializeHeader s false = .ok (info.truncated r) := by
  have hre : Reads header s (info.truncated r) := by
    rw [addRaw, hr] at hs
    cases hs
    simp only [List.append_assoc]
    refine (reads_add32 _).bind <| (reads_add64 _).bind <| (reads_add256 _).bind <|
      (reads_add256 _).bind <| (reads_add256 _).bind <| (reads_add32 _).bind <|
      (reads_add32 _).bind <| (reads_add8 _).bind fun rest => ?_
    rw [StateT.run_bind, reads_add8]
    rfl
  have h := hre []
  rw [List.append_nil] at h
  rw [deserializeHeader, StateT.run']
  exact congrArg _ h

theorem toNat_restoredRes (b : UInt8) :
    (restoredRes b).toNat = if 240 < b.toNat then (b.toNat - 240) * 300 else b.toNat := by
  have hb := b.toNat_lt
  rw [restoredRes, apply_ite UInt32.toNat]
  simp only [UInt32.lt_iff_toNat_lt, UInt8.toNat_toUInt32, UInt32.reduceToNat]
  split
  · rw [UInt32.toNat_mul, UInt32.toNat_sub_of_le]
    · simp; omega
    · simp [UInt32.le_iff_toNat_le]; omega
  · rfl

theorem closeTimeRes_ok (h : closeTimeRes res = .ok r) : res.toNat ≤ 240 ∧ r.toNat = res.toNat ∨
      240 < res.toNat ∧ r.toNat = 240 + res.toNat / 300 ∧ res.toNat % 300 = 0 := by
  rw [closeTimeRes] at h
  split at h
  case isTrue hlt =>
    split at h
    · cases h
    case isFalse hm =>
      cases h
      have := res.toNat_lt
      simp [UInt32.lt_iff_toNat_lt, ← UInt32.toNat_inj] at hlt hm ⊢
      omega
  case isFalse hle =>
    cases h
    exact .inl ⟨UInt32.le_iff_toNat_le.1 (UInt32.not_lt.1 hle), rfl⟩

theorem restoredRes_eq_iff (h : closeTimeRes res = .ok r) :
    restoredRes r.toUInt8 = res ↔ res ≤ 4500 := by
  have hr := closeTimeRes_ok h
  have := res.toNat_lt
  rw [← UInt32.toNat_inj, toNat_restoredRes, UInt32.le_iff_toNat_le, UInt32.toNat_toUInt8]
  simp only [UInt32.reduceToNat]
  split <;> omega

theorem closeTimeRes_restoredRes (b : UInt8) : closeTimeRes (restoredRes b) = .ok b.toUInt32 := by
  have hb := b.toNat_lt
  have hr := toNat_restoredRes b
  rw [closeTimeRes]
  simp only [UInt32.lt_iff_toNat_lt, ne_eq, ← UInt32.toNat_inj, UInt32.toNat_mod,
    UInt32.reduceToNat]
  split at hr
  · rw [if_pos (by omega), if_neg (by omega), Except.ok.injEq, ← UInt32.toNat_inj]
    simp
    omega
  · rw [if_neg (by omega), Except.ok.injEq, ← UInt32.toNat_inj, hr, UInt8.toNat_toUInt32]

theorem closeFlags_eq_iff (i : Int32) :
    i.toUInt32.toUInt8.toUInt32.toInt32 = i ↔ 0 ≤ i ∧ i < 256 := by
  obtain ⟨u⟩ := i
  have hu := u.toNat_lt
  have hi : (Int32.ofUInt32 u).toInt =
      if 2 * u.toNat < 2 ^ 32 then (u.toNat : ℤ) else u.toNat - 2 ^ 32 :=
    BitVec.toInt_eq_toNat_cond u.toBitVec
  have heq : u.toUInt8.toUInt32.toInt32 = Int32.ofUInt32 u ↔ u.toNat % 256 = u.toNat := by
    rw [← UInt32.toNat_toUInt8, ← UInt8.toNat_toUInt32, UInt32.toNat_inj]
    exact ⟨congrArg Int32.toUInt32, congrArg UInt32.toInt32⟩
  rw [heq, Int32.le_iff_toInt_le, Int32.lt_iff_toInt_lt, hi]
  simp only [Int32.reduceToInt]
  split <;> omega

theorem addRaw_truncated (hr : closeTimeRes info.closeTimeResolution = .ok r) :
    (info.truncated r).addRaw = info.addRaw := by
  rw [addRaw, truncated, closeTimeRes_restoredRes, addRaw, hr]
  simp only [UInt32.toUInt32_toInt32, UInt8.toUInt8_toUInt32, bind, Except.bind]

end LedgerInfo

open LedgerInfo

/-- A header comes back from its bytes exactly if its resolution is at most 4500 seconds and its
flags are a byte; its hash is the same in any case. -/
theorem header_round_trip_iff (sha512Half : Blob → Tag) {info : LedgerInfo} {s : Blob}
    (hs : info.addRaw = .ok s) :
    ∃ info', deserializeHeader s false = .ok info' ∧
      (info' = info ↔
        info.closeTimeResolution ≤ 4500 ∧ 0 ≤ info.closeFlags ∧ info.closeFlags < 256) ∧
      info'.calculateLedgerHash sha512Half = info.calculateLedgerHash sha512Half := by
  obtain ⟨r, hr, -⟩ := Store.bind_ok.1 hs
  refine ⟨_, deserializeHeader_addRaw hr hs, ?_, ?_⟩
  · rw [← restoredRes_eq_iff hr, ← closeFlags_eq_iff]
    cases info
    simp [truncated, and_comm]
  · rw [calculateLedgerHash, addRaw_truncated hr, calculateLedgerHash]

def headerAt (closeTimeResolution : UInt32) : LedgerInfo :=
  ⟨3, 600000000, .zero, .zero, .zero, 100, 0, closeTimeResolution, 600004800⟩

/-- The largest resolution that comes back. -/
theorem header_round_trip_iff_sample : ∃ s, (headerAt 4500).addRaw = .ok s ∧
    deserializeHeader s false = .ok (headerAt 4500) := by
  obtain ⟨i, hi, hiff, -⟩ := header_round_trip_iff (fun _ => .zero)
    (show (headerAt 4500).addRaw = .ok _ from rfl)
  rw [hiff.2 (by decide)] at hi
  exact ⟨_, rfl, hi⟩

/-- A resolution of 4800 seconds comes back as zero. -/
theorem header_resolution_lost :
    (do deserializeHeader (← (headerAt 4800).addRaw) false) = .ok (headerAt 0) := by
  decide +kernel

end FinPal
