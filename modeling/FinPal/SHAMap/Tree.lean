import FinPal.Lib.DigitTree
import FinPal.SHAMap.NodeID
import Mathlib.Data.List.FinRange

/-!
# The SHAMap

The tree of a ledger's items (`shamap/impl/SHAMap.cpp`), in both versions, with all nodes in memory.
An inner node of version 1 branches at the depth where it stands; one of version 2 stores its depth
and the prefix of the keys below it. A hash is computed from what is below a node.
-/

namespace FinPal

structure SHAMapItem where
  key : Tag
  data : Blob
  deriving DecidableEq

inductive TNType
  | transactionNM | transactionMD | accountState
  deriving DecidableEq

def TNType.of (isTransaction hasMeta : Bool) : TNType :=
  if !isTransaction then accountState else if hasMeta then transactionMD else transactionNM

/-- What an inner node stores besides its children: in version 2 its depth and the prefix of the
keys below it. -/
inductive InnerNode
  | v1
  | v2 (depth : ℕ) (common : Tag)

namespace InnerNode

/-- The depth at which a node branches, on a way that has come to `d`. -/
def depth (d : ℕ) : InnerNode → ℕ
  | v1 => d
  | v2 depth _ => depth

/-- Whether the way of a key goes on below the node. -/
def hasCommonPrefix (key : Tag) : InnerNode → Bool
  | v1 => true
  | v2 depth common => Tag.hasCommonPrefix depth common key

end InnerNode

/-- `SHAMapAbstractNode`. -/
abbrev Node := DigitTree (Fin 16) InnerNode SHAMapItem TNType

/-- The nodes above a place, the last one first, with the depths of their node IDs. -/
abbrev Stack := List (Node × ℕ)

namespace Node

def isNull : Node → Bool
  | .null => true
  | _ => false

/-- `SHAMap::is_v2`, asked of a root. -/
def isV2 : Node → Bool
  | .inner (.v2 _ _) _ => true
  | _ => false

def empty (n : InnerNode) : Node := .inner n fun _ => .null

/-- The branches that are not empty; `getBranchCount` is their number. -/
def branches (children : Fin 16 → Node) : List (Fin 16) :=
  (List.finRange 16).filter fun b => !(children b).isNull

/-- The item below a node, if there is only one. -/
def onlyBelow : Node → Option SHAMapItem
  | .null => none
  | .leaf item _ => some item
  | .inner _ children =>
    match branches children with
    | [b] => onlyBelow (children b)
    | _ => none

end Node

/-! ### Hashes -/

/-- What is hashed for a leaf. The key of a transaction without metadata is the hash of its data and
is left out. -/
inductive LeafHash
  | transactionID (data : Blob)
  | leafNode (data : Blob) (key : Tag)
  | txNode (data : Blob) (key : Tag)
  deriving DecidableEq

/-- `SHAMapTreeNode::updateHash`. -/
def LeafHash.of (item : SHAMapItem) : TNType → LeafHash
  | .transactionNM => transactionID item.data
  | .accountState => leafNode item.data item.key
  | .transactionMD => txNode item.data item.key

/-- A hash is what was hashed, since no two of them are the same. -/
inductive NodeHash
  | zero
  | leaf (hash : LeafHash)
  | innerNode (hashes : Fin 16 → NodeHash)
  | innerNodeV2 (hashes : Fin 16 → NodeHash) (depth : ℕ) (common : List UInt8)

/-- `updateHash` of a node whose children have their hashes. -/
def Node.hash : Node → NodeHash
  | .null => .zero
  | .leaf item type => .leaf (.of item type)
  | .inner n children =>
    if branches children = [] then .zero
    else match n with
      | .v1 => .innerNode fun b => hash (children b)
      | .v2 depth common =>
        .innerNodeV2 (fun b => hash (children b)) depth (common.toList.take ((depth + 1) / 2))

/-! ### Operations -/

namespace SHAMap
open Tag Node

inductive Version
  | one | two
  deriving DecidableEq

def new : Version → Node
  | .one => .empty .v1
  | .two => .empty (.v2 0 (.replicate 32 0))

/-- `SHAMap::walkTowardsKey`, from a node down. It ends at a leaf, or with the inner node on top
whose prefix the key does not have or whose branch is empty. -/
def walkTowardsKey (isv2 : Bool) (id : Tag) : Node → ℕ → Stack → Stack
  | .null, _, stack => stack
  | .leaf item type, d, stack => (.leaf item type, if isv2 then 64 else d) :: stack
  | .inner n children, d, stack =>
    let depth := n.depth d
    let stack := (.inner n children, depth) :: stack
    if n.hasCommonPrefix id then
      walkTowardsKey isv2 id (children (selectBranch depth id)) (depth + 1) stack
    else stack

def findKey (root : Node) (id : Tag) : Option SHAMapItem :=
  match walkTowardsKey root.isV2 id root 0 [] with
  | (.leaf item _, _) :: _ => if item.key = id then some item else none
  | _ => none

def peekItem (root : Node) (id : Tag) : Option SHAMapItem := findKey root id

def hasItem (root : Node) (id : Tag) : Bool := (findKey root id).isSome

/-- `SHAMap::dirtyUp`, with the root it leaves. -/
def dirtyUp (target : Tag) : Stack → Node → Node
  | [], child => child
  | (node, depth) :: stack, child =>
    dirtyUp target stack (node.setChild (selectBranch depth target) child)

/-- The loop of `addGiveItem` that pushes an inner node for every depth where two keys go on the
same branch. Different keys part before depth 64. -/
def pushShared (tag other : Tag) : ℕ → ℕ → Stack → Stack × ℕ
  | 0, depth, stack => (stack, depth)
  | fuel + 1, depth, stack =>
    if selectBranch depth tag = selectBranch depth other then
      pushShared tag other fuel (depth + 1) ((.empty .v1, depth) :: stack)
    else (stack, depth)

/-- An inner node of version 2 over an inner node and a leaf without its prefix. -/
def splitInner (inner : Node) (depth : ℕ) (common : Tag) (item : SHAMapItem) (type : TNType) : Node :=
  let depth := getCommonPrefix depth common item.key
  ((Node.empty (.v2 depth (prefixOf depth item.key))).setChild (selectBranch depth common)
    inner).setChild (selectBranch depth item.key) (.leaf item type)

/-- `SHAMapInnerNodeV2::setChildren` of a new node. -/
def setChildren (item₁ : SHAMapItem) (type₁ : TNType) (item₂ : SHAMapItem) (type₂ : TNType) : Node :=
  let (depth, common) := branchPoint item₁.key item₂.key
  ((Node.empty (.v2 depth common)).setChild (selectBranch depth item₁.key)
    (.leaf item₁ type₁)).setChild (selectBranch depth item₂.key) (.leaf item₂ type₂)

/-- In version 1 the leaf in the way is made anew, with the type of the added item. -/
def addGiveItem (root : Node) (item : SHAMapItem) (isTransaction hasMeta : Bool) : Bool × Node :=
  let tag := item.key
  let type := TNType.of isTransaction hasMeta
  match walkTowardsKey root.isV2 tag root 0 [] with
  | (.leaf other otherType, depth) :: stack =>
    if other.key = tag then (false, root)
    else if root.isV2 then
      (true, dirtyUp tag stack (setChildren other otherType item type))
    else
      let (stack, depth) := pushShared tag other.key 64 depth stack
      let node := ((Node.empty .v1).setChild (selectBranch depth tag) (.leaf item type)).setChild
        (selectBranch depth other.key) (.leaf other type)
      (true, dirtyUp tag stack node)
  | (.inner n children, depth) :: stack =>
    let inner : Node := .inner n children
    if n.hasCommonPrefix tag then
      (true, dirtyUp tag stack (inner.setChild (selectBranch depth tag) (.leaf item type)))
    else
      match n with
      | .v1 => (true, dirtyUp tag stack inner)
      -- The parent's child is set here as well; `dirtyUp` sets it again.
      | .v2 depth common => (true, dirtyUp tag stack (splitInner inner depth common item type))
  | _ => (false, root)

/-- Nothing is changed when the hash of the leaf stays the same. -/
def updateGiveItem (root : Node) (item : SHAMapItem) (isTransaction hasMeta : Bool) : Bool × Node :=
  let tag := item.key
  let type := TNType.of isTransaction hasMeta
  match walkTowardsKey root.isV2 tag root 0 [] with
  | (.leaf old oldType, _) :: stack =>
    if old.key ≠ tag then (false, root)
    else if LeafHash.of item type = .of old oldType then (true, root)
    else (true, dirtyUp tag stack (.leaf item type))
  | _ => (false, root)

/-- What `delItem` hangs into the parent of an inner node that has lost an item: in version 2 an
only child, in version 1 a new leaf with an only item, of the type of the deleted one. -/
def pullUp (isv2 : Bool) (type : TNType) : Node → Node
  | .inner n children =>
    match isv2, branches children with
    | true, [b] => children b
    | false, [] => .null
    | false, [_] =>
      match onlyBelow (.inner n children) with
      | some item => .leaf item type
      | none => .inner n children
    | _, _ => .inner n children
  | node => node

/-- The loop of `delItem` up the stack. The root stays as it is. -/
def unlink (isv2 : Bool) (id : Tag) (type : TNType) : Stack → Node → Node
  | [], prevNode => prevNode
  | (node, depth) :: stack, prevNode =>
    let node := node.setChild (selectBranch depth id) prevNode
    unlink isv2 id type stack (if depth = 0 then node else pullUp isv2 type node)

def delItem (root : Node) (id : Tag) : Bool × Node :=
  match walkTowardsKey root.isV2 id root 0 [] with
  | (.leaf item type, _) :: stack =>
    if item.key ≠ id then (false, root)
    else (true, unlink root.isV2 id type stack .null)
  | _ => (false, root)

def getHash (root : Node) : NodeHash := root.hash

end SHAMap
end FinPal
