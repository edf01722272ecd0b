import FinPal.Protocol.Indexes

/-!
# Validator manifests

A manifest names the key with which the holder of a master key signs for the time being
(`app/misc/impl/Manifest.cpp`). `ManifestCache` keeps the newest of every master key, and the way
back from signing keys. Which manifests carry their signatures is left to a parameter.
-/

namespace FinPal

abbrev PublicKey := Blob

structure Manifest where
  serialized : Blob
  masterKey : PublicKey
  signingKey : PublicKey
  sequence : UInt32
  deriving DecidableEq

namespace Manifest

/-- The sequence number that revokes a master key. -/
def revokedSequence : UInt32 := 0xFFFFFFFF

def revoked (m : Manifest) : Bool := m.sequence = revokedSequence

theorem le_of_revoked {old : Manifest} (h : old.revoked = true) (m : Manifest) :
    m.sequence ≤ old.sequence := by
  have hm : old.sequence = revokedSequence := by simpa [revoked] using h
  rw [hm, UInt32.le_iff_toNat_le]
  exact Nat.le_of_lt_succ m.sequence.toNat_lt

end Manifest

inductive ManifestDisposition where
  | accepted
  | stale
  | invalid
  deriving DecidableEq

/-- The active manifests by master key, and the master keys by signing key. -/
structure ManifestCache where
  map : PublicKey → Option Manifest := fun _ => none
  signingToMasterKeys : PublicKey → Option PublicKey := fun _ => none

namespace ManifestCache

def getSigningKey (c : ManifestCache) (pk : PublicKey) : PublicKey :=
  match c.map pk with
  | some m => if m.revoked then pk else m.signingKey
  | none => pk

def getMasterKey (c : ManifestCache) (pk : PublicKey) : PublicKey :=
  (c.signingToMasterKeys pk).getD pk

def revoked (c : ManifestCache) (pk : PublicKey) : Bool :=
  match c.map pk with
  | some m => m.revoked
  | none => false

/-- A manifest is stale unless it is newer than the stored one. -/
def isStale (c : ManifestCache) (m : Manifest) : Bool :=
  match c.map m.masterKey with
  | some old => m.sequence ≤ old.sequence
  | none => false

/-- The master keys by signing key, without that of a stored manifest. -/
def release (c : ManifestCache) (masterKey : PublicKey) : PublicKey → Option PublicKey :=
  match c.map masterKey with
  | some old => Function.update c.signingToMasterKeys old.signingKey none
  | none => c.signingToMasterKeys

/-- Stores a manifest in place of the one before it. -/
def accept (c : ManifestCache) (m : Manifest) : ManifestCache where
  map := Function.update c.map m.masterKey (some m)
  signingToMasterKeys :=
    if m.revoked then c.release m.masterKey
    else Function.update (c.release m.masterKey) m.signingKey (some m.masterKey)

/-- The sequence is looked at before the signatures. -/
def applyManifest (verify : Manifest → Bool) (c : ManifestCache) (m : Manifest) :
    ManifestDisposition × ManifestCache :=
  if c.isStale m then (.stale, c)
  else if !verify m then (.invalid, c)
  else (.accepted, c.accept m)

end ManifestCache
end FinPal
