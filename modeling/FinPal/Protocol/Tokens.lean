import FinPal.Protocol.Indexes

/-!
# Base58 tokens

`base58EncodeToken` and `encodeBase58` of `protocol/impl/tokens.cpp` with their scratch memory. A
write outside of the memory is a fault (`none`). The checksum and what the memory holds at first are
arbitrary.
-/

namespace FinPal.Tokens

structure Scratch where
  size : ℕ
  bytes : ℕ → UInt8

namespace Scratch

def write (m : Scratch) (offset : ℕ) (b : UInt8) : Option Scratch :=
  if offset < m.size then some { m with bytes := Function.update m.bytes offset b } else none

def writeAll (m : Scratch) (offset : ℕ) : Blob → Option Scratch
  | [] => some m
  | b :: bs => do (← m.write offset b).writeAll (offset + 1) bs

def read (m : Scratch) (offset size : ℕ) : Blob := (List.range size).map fun i => m.bytes (offset + i)

/-- `b58 = b58 * 256 + ch` on the digits at `b58begin`, from the last of them. -/
def mulAdd (b58begin : ℕ) : ℕ → ℕ → Scratch → Option Scratch
  | 0, _, m => some m
  | n + 1, carry, m => do
    let carry := carry + 256 * (m.bytes (b58begin + n)).toNat
    let m ← m.write (b58begin + n) (.ofNat (carry % 58))
    mulAdd b58begin n (carry / 58) m

end Scratch

open Scratch

def mtchainAlphabet : List Char := "Fpshnaf39wBUDNEGHJKLM4PQRST7VWXYZ2bcdeCg65jkm8orqi1tuvAxyz".toList

/-- The message is at the start of the scratch memory, the digits are made behind it. -/
def encodeBase58 (m : Scratch) (size temp : ℕ) : Option (List Char) := do
  let message := m.read 0 size
  let zeroes := (message.takeWhile (· = 0)).length
  let room := size * (138 / 100 + 1) % 2 ^ 64
  let m ← m.writeAll temp (List.replicate room 0)
  let m ← (message.drop zeroes).foldlM (fun m b => m.mulAdd temp room b.toNat) m
  let digits := (m.read temp room).dropWhile (· = 0)
  return List.replicate zeroes 'F' ++ digits.map fun d => mtchainAlphabet.getD d.toNat 'F'

def base58EncodeToken (checksum : Blob → Vector UInt8 4) (garbage : ℕ → UInt8) (type : UInt8)
    (token : Blob) : Option (List Char) := do
  let expanded := (1 + token.length + 4) % 2 ^ 64
  let needed := (expanded + token.length * (138 / 100 + 1)) % 2 ^ 64
  let m ← Scratch.write ⟨if needed > 1024 then needed else 1024, garbage⟩ 0 type
  let m ← m.writeAll 1 token
  let m ← m.writeAll (1 + token.length) (checksum (type :: token)).toList
  (encodeBase58 m expanded expanded).map fun s => if type = 0 then "FPA".toList ++ s.drop 1 else s

/-! ## Where it writes -/

/-- No byte of the range lies outside of the memory. -/
def Scratch.Fits (m : Scratch) (offset n : ℕ) : Prop := n = 0 ∨ offset + n ≤ m.size

variable {m : Scratch} {offset : ℕ}

theorem write_of_lt (h : offset < m.size) (b : UInt8) :
    ∃ m', m.write offset b = some m' ∧ m'.size = m.size := ⟨_, if_pos h, rfl⟩

theorem writeAll_cases (m : Scratch) (offset : ℕ) (bs : Blob) :
    (m.Fits offset bs.length ∧ ∃ m', m.writeAll offset bs = some m' ∧ m'.size = m.size) ∨
      ¬ m.Fits offset bs.length ∧ m.writeAll offset bs = none := by
  unfold Fits
  induction bs generalizing m offset with
  | nil => exact .inl ⟨.inl rfl, m, rfl, rfl⟩
  | cons b bs ih =>
    rw [List.length_cons, writeAll]
    by_cases hlt : offset < m.size
    · obtain ⟨m1, hm1, hs1⟩ := write_of_lt hlt b
      rw [hm1, Option.bind_eq_bind, Option.bind_some]
      obtain ⟨hfit, m2, hm2, hs2⟩ | ⟨hout, hn⟩ := ih m1 (offset + 1)
      · exact .inl ⟨by omega, m2, hm2, hs2.trans hs1⟩
      · exact .inr ⟨by omega, hn⟩
    · rw [write, if_neg hlt]
      exact .inr ⟨by omega, rfl⟩

theorem mulAdd_of_fits {n : ℕ} (carry : ℕ) (h : m.Fits offset n) :
    ∃ m', m.mulAdd offset n carry = some m' ∧ m'.size = m.size := by
  unfold Fits at h
  induction n generalizing m carry with
  | zero => exact ⟨m, rfl, rfl⟩
  | succ n ih =>
    obtain ⟨m1, hm1, hs1⟩ := write_of_lt (show offset + n < m.size by omega)
      (.ofNat ((carry + 256 * (m.bytes (offset + n)).toNat) % 58))
    obtain ⟨m2, hm2, hs2⟩ := ih (m := m1) ((carry + 256 * (m.bytes (offset + n)).toNat) / 58) (by omega)
    exact ⟨m2, by rw [mulAdd, hm1]; exact hm2, hs2.trans hs1⟩

theorem foldlM_mulAdd {n : ℕ} (message : Blob) (h : m.Fits offset n) :
    ∃ m', message.foldlM (fun m b => m.mulAdd offset n b.toNat) m = some m' := by
  induction message generalizing m with
  | nil => exact ⟨m, rfl⟩
  | cons b message ih =>
    obtain ⟨m1, hm1, hs1⟩ := mulAdd_of_fits b.toNat h
    rw [List.foldlM_cons, hm1]
    exact ih (by rwa [Fits, hs1])

theorem encodeBase58_isSome (m : Scratch) (size temp : ℕ) :
    (encodeBase58 m size temp).isSome ↔ m.Fits temp (size * 2 % 2 ^ 64) := by
  obtain ⟨hf, m1, hm1, hs1⟩ | ⟨ho, hn⟩ :=
    writeAll_cases m temp (List.replicate (size * 2 % 2 ^ 64) 0)
  · rw [List.length_replicate] at hf
    obtain ⟨m2, hm2⟩ := foldlM_mulAdd (m := m1)
      ((m.read 0 size).drop ((m.read 0 size).takeWhile (· = 0)).length) (by rwa [Fits, hs1])
    rw [encodeBase58, iff_true_right hf]
    dsimp only
    rw [hm1, Option.bind_eq_bind, Option.bind_some, hm2]
    rfl
  rw [List.length_replicate] at ho
  rw [encodeBase58, iff_false_right ho]
  dsimp only
  rw [hn]
  simp

/-- The writes stay within the scratch memory exactly for tokens of at most 336 bytes. -/
theorem token_within_scratch_iff (checksum : Blob → Vector UInt8 4) (garbage : ℕ → UInt8)
    (type : UInt8) {token : Blob} (h : token.length < 2 ^ 64) :
    (base58EncodeToken checksum garbage type token).isSome ↔ token.length ≤ 336 := by
  rw [base58EncodeToken]
  generalize hexp : (1 + token.length + 4) % 2 ^ 64 = expanded
  generalize hneed : (expanded + token.length * (138 / 100 + 1)) % 2 ^ 64 = needed
  generalize hs : (if needed > 1024 then needed else 1024) = size
  replace hs : size = max needed 1024 := by
    rw [← hs]
    split <;> omega
  obtain ⟨m1, hm1, hs1⟩ := write_of_lt (m := ⟨size, garbage⟩) (show 0 < size by omega) type
  simp only [Option.bind_eq_bind, hm1, Option.bind_some]
  dsimp only at hs1
  have h1 := writeAll_cases m1 1 token
  unfold Fits at h1
  obtain ⟨hfit, m2, hm2, hs2⟩ | ⟨ho, hn⟩ := h1
  · rw [hm2, Option.bind_some]
    have h2 := writeAll_cases m2 (1 + token.length) (checksum (type :: token)).toList
    rw [Vector.length_toList, Fits] at h2
    obtain ⟨hfit', m3, hm3, hs3⟩ | ⟨ho, hn⟩ := h2
    · rw [hm3, Option.bind_some, Option.isSome_map, encodeBase58_isSome, Fits]
      obtain hlt | hge := Nat.lt_or_ge token.length 1020
      · have : expanded * 2 % 2 ^ 64 = expanded * 2 := by omega
        omega
      · omega
    · rw [hn]
      exact iff_of_false (by simp) (by omega)
  · rw [hn]
    exact iff_of_false (by simp) (by omega)

theorem token_within_scratch_iff_account : (base58EncodeToken (fun _ => .replicate 4 0) (fun _ => 0) 0
    (List.replicate 20 1)).isSome :=
  (token_within_scratch_iff _ _ 0 (by decide)).2 (by decide)

/-- The memory for 337 bytes is too small. -/
theorem long_token_overruns : base58EncodeToken (fun _ => .replicate 4 0) (fun _ => 0) 28
    (List.replicate 337 1) = none := by
  decide +kernel

end FinPal.Tokens
