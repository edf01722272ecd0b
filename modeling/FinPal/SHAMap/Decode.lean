import FinPal.SHAMap.Tree

/-!
# Nodes from bytes

`SHAMapAbstractNode::make` makes a node of bytes that a peer has sent or that are stored
(`shamap/impl/SHAMapTreeNode.cpp`). Of the children of an inner node there are only the hashes, and
a mask of the branches that are not empty. The node's own hash and sequence number are left out.
-/

namespace FinPal

inductive SHANodeFormat
  | snfPREFIX | snfWIRE | snfHASH

/-- `make` throws, or it leaves the bounds of an array. -/
inductive MakeFault
  | runtimeError (what : String)
  | outOfBounds

namespace HashPrefix

def transactionID : Blob := [0x54, 0x58, 0x4E, 0]
def txNode : Blob := [0x53, 0x4E, 0x44, 0]
def leafNode : Blob := [0x4D, 0x4C, 0x4E, 0]
def innerNode : Blob := [0x4D, 0x49, 0x4E, 0]
def innerNodeV2 : Blob := [0x49, 0x4E, 0x52, 0]

end HashPrefix

def Tag.zero : Tag := .replicate 32 0

structure Hashes where
  mHashes : Fin 16 → Tag := fun _ => .zero
  mIsBranch : ℕ := 0

inductive MadeNode
  | leaf (item : SHAMapItem) (type : TNType)
  | inner (node : InnerNode) (branches : Hashes)

/-- `Serializer::get256`, or nothing if the bytes are not there. -/
def get256 (s : Blob) (offset : ℕ) : Option Tag :=
  if h : offset + 32 ≤ s.length then some ⟨((s.drop offset).take 32).toArray, by simp; omega⟩
  else none

namespace Hashes

def store (n : Hashes) (pos : Fin 16) (hash : Tag) : Hashes where
  mHashes := Function.update n.mHashes pos hash
  mIsBranch := if hash ≠ .zero then n.mIsBranch ||| 1 <<< pos.val else n.mIsBranch

/-- A hash stays as it is if `get256` does not find the bytes. -/
def read (n : Hashes) (pos : Fin 16) (s : Blob) (offset : ℕ) : Hashes :=
  n.store pos ((get256 s offset).getD (n.mHashes pos))

def full (s : Blob) : Hashes := (List.finRange 16).foldl (fun n i => n.read i s (i * 32)) {}

def readRecord (s : Blob) (n : Hashes) (i : ℕ) : Except MakeFault Hashes :=
  match s[32 + i * 33]? with
  | none => .error (.runtimeError "short CI node")
  | some pos =>
    if h : pos.toNat < 16 then .ok (n.read ⟨pos.toNat, h⟩ s (i * 33))
    else .error (.runtimeError "invalid CI node")

def compressed (s : Blob) : Except MakeFault Hashes :=
  (List.range (s.length / 33)).foldlM (readRecord s) {}

end Hashes

def fullInner (node : InnerNode) (s : Blob) : Except MakeFault MadeNode :=
  if s.length ≠ 512 then .error (.runtimeError "invalid FI node") else .ok (.inner node (.full s))

def compressedInner (node : InnerNode) (s : Blob) : Except MakeFault MadeNode := do
  return .inner node (← Hashes.compressed s)

/-- A leaf that ends with the key of its item. -/
def keyedLeaf (name : String) (mayBeZero : Bool) (type : TNType) (s : Blob) :
    Except MakeFault MadeNode :=
  match get256 s (s.length - 32) with
  | none => .error (.runtimeError ("short " ++ name ++ " node"))
  | some u =>
    if u = .zero ∧ !mayBeZero then .error (.runtimeError ("invalid " ++ name ++ " node"))
    else .ok (.leaf ⟨u, s.take (s.length - 32)⟩ type)

def makeWire (sha512Half : Blob → Tag) (rawNode : Blob) (depth : ℕ) (nodeID : Tag) :
    Except MakeFault (Option MadeNode) :=
  match rawNode.getLast? with
  | none => .ok none
  | some type =>
    let s := rawNode.dropLast
    match type.toNat with
    | 0 => .ok (some (.leaf ⟨sha512Half (HashPrefix.transactionID ++ s), s⟩ .transactionNM))
    | 1 => return some (← keyedLeaf "AS" false .accountState s)
    | 2 => return some (← fullInner .v1 s)
    | 3 => return some (← compressedInner .v1 s)
    | 4 => return some (← keyedLeaf "TM" false .transactionMD s)
    | 5 => return some (← fullInner (.v2 depth nodeID) s)
    | 6 => return some (← compressedInner (.v2 depth nodeID) s)
    | _ => .ok none

/-- A byte of the prefix into `common_`. If it is not there, it is not initialized. -/
def readByte (s : Blob) (common : Tag) (i : ℕ) : Except MakeFault Tag :=
  match s[512 + 1 + i]? with
  | none => .error .outOfBounds
  | some byte => if h : i < 32 then .ok (common.set i byte) else .error .outOfBounds

/-- An inner node in the format with a prefix. -/
def makeInner (isV2 : Bool) (s : Blob) : Except MakeFault MadeNode :=
  if s.length < 512 ∨ !isV2 ∧ s.length ≠ 512 ∨ isV2 ∧ s.length = 512 then
    .error (.runtimeError "invalid PIN node")
  else if !isV2 then .ok (.inner .v1 (.full s))
  else match s[512]? with
    | none => .error .outOfBounds
    | some depth =>
      if s.length ≠ 512 + 1 + (depth.toNat + 1) / 2 then .error (.runtimeError "invalid PIN node")
      else do
        let common ← (List.range ((depth.toNat + 1) / 2)).foldlM (readByte s) .zero
        return .inner (.v2 depth.toNat common) (.full s)

def makePrefix (sha512Half : Blob → Tag) (rawNode : Blob) : Except MakeFault MadeNode :=
  let pre := rawNode.take 4
  let s := rawNode.drop 4
  if rawNode.length < 4 then .error (.runtimeError "invalid P node")
  else if pre = HashPrefix.transactionID then .ok (.leaf ⟨sha512Half rawNode, s⟩ .transactionNM)
  else if pre = HashPrefix.leafNode then keyedLeaf "PLN" false .accountState s
  else if pre = HashPrefix.innerNode ∨ pre = HashPrefix.innerNodeV2 then
    makeInner (pre = HashPrefix.innerNodeV2) s
  else if pre = HashPrefix.txNode then keyedLeaf "TXN" true .transactionMD s
  else .error (.runtimeError "invalid node prefix")

/-- `SHAMapAbstractNode::make`. -/
def MadeNode.make (sha512Half : Blob → Tag) (rawNode : Blob) (format : SHANodeFormat) (depth : ℕ)
    (nodeID : Tag) : Except MakeFault (Option MadeNode) :=
  match format with
  | .snfWIRE => makeWire sha512Half rawNode depth nodeID
  | .snfPREFIX => return some (← makePrefix sha512Half rawNode)
  | .snfHASH => .error (.runtimeError "Unknown format")

end FinPal
