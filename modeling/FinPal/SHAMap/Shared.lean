import FinPal.SHAMap.Tree

/-!
# SHAMaps that share nodes

Several maps may point to one node (`shamap/impl/SHAMap.cpp`, `shamap/impl/SHAMapTreeNode.cpp`). A
node carries the sequence number of the map that may change it, or zero when it is shared for good;
a map copies a node with another number before it changes it. As in `SHAMap.Tree` all nodes are in
memory; those that no one points to any more stay.
-/

namespace FinPal

/-- The address of a node. It tells which map made the node; the program never asks. -/
structure NodePtr where
  maker : ℕ
  index : ℕ
  deriving DecidableEq

/-- What leaves and inner nodes have of their own. A branch with a null child is empty. -/
inductive NodeBody
  | leaf (item : SHAMapItem) (type : TNType)
  | inner (node : InnerNode) (children : Fin 16 → Option NodePtr) (hashes : Fin 16 → NodeHash)

/-- `SHAMapAbstractNode`. The hash of a changed inner node is zero until it is computed. -/
structure SharedNode where
  body : NodeBody
  hash : NodeHash
  seq : ℕ

namespace NodeHash

def decEq : (h h' : NodeHash) → Decidable (h = h')
  | zero, zero => isTrue rfl
  | leaf l, leaf l' => decidable_of_iff (l = l') (by rw [leaf.injEq])
  | innerNode hashes, innerNode hashes' =>
    have : ∀ b, Decidable (hashes b = hashes' b) := fun b => decEq (hashes b) (hashes' b)
    decidable_of_iff (∀ b, hashes b = hashes' b) (by rw [innerNode.injEq, funext_iff])
  | innerNodeV2 hashes depth common, innerNodeV2 hashes' depth' common' =>
    have : ∀ b, Decidable (hashes b = hashes' b) := fun b => decEq (hashes b) (hashes' b)
    decidable_of_iff ((∀ b, hashes b = hashes' b) ∧ depth = depth' ∧ common = common')
      (by rw [innerNodeV2.injEq, funext_iff])
  | zero, leaf _ | zero, innerNode _ | zero, innerNodeV2 _ _ _ => isFalse nofun
  | leaf _, zero | leaf _, innerNode _ | leaf _, innerNodeV2 _ _ _ => isFalse nofun
  | innerNode _, zero | innerNode _, leaf _ | innerNode _, innerNodeV2 _ _ _ => isFalse nofun
  | innerNodeV2 _ _ _, zero | innerNodeV2 _ _ _, leaf _ | innerNodeV2 _ _ _, innerNode _ =>
    isFalse nofun

instance : DecidableEq NodeHash := decEq

end NodeHash

namespace SharedNode
open Tag

def newLeaf (item : SHAMapItem) (type : TNType) (seq : ℕ) : SharedNode :=
  ⟨.leaf item type, .leaf (.of item type), seq⟩

def newInner (node : InnerNode) (seq : ℕ) : SharedNode :=
  ⟨.inner node (fun _ => none) fun _ => .zero, .zero, seq⟩

def clone (n : SharedNode) (seq : ℕ) : SharedNode := { n with seq }

def setSeq (n : SharedNode) (seq : ℕ) : SharedNode := { n with seq }

/-- The hashes that depend on the child are void. -/
def setChild (n : SharedNode) (m : Fin 16) (child : Option NodePtr) : SharedNode :=
  match n.body with
  | .inner node children hashes =>
    { n with
      body := .inner node (Function.update children m child) (Function.update hashes m .zero)
      hash := .zero }
  | .leaf _ _ => n

def shareChild (n : SharedNode) (m : Fin 16) (child : NodePtr) : SharedNode :=
  match n.body with
  | .inner node children hashes =>
    { n with body := .inner node (Function.update children m (some child)) hashes }
  | .leaf _ _ => n

def branches (children : Fin 16 → Option NodePtr) : List (Fin 16) :=
  (List.finRange 16).filter fun b => (children b).isSome

/-- `updateHash`, of leaves and of the inner nodes of both versions. -/
def updateHash (n : SharedNode) : SharedNode :=
  match n.body with
  | .leaf item type => { n with hash := .leaf (.of item type) }
  | .inner node children hashes =>
    { n with
      hash := if branches children = [] then .zero else
        match node with
        | .v1 => .innerNode hashes
        | .v2 depth common => .innerNodeV2 hashes depth (common.toList.take ((depth + 1) / 2)) }

def setItem (n : SharedNode) (item : SHAMapItem) (type : TNType) : SharedNode :=
  updateHash { n with body := .leaf item type }

/-- A new node after `SHAMapInnerNodeV2::setChildren`. -/
def ofChildren (key₁ : Tag) (child₁ : NodePtr) (key₂ : Tag) (child₂ : NodePtr) (seq : ℕ) :
    SharedNode :=
  let (depth, common) := branchPoint key₁ key₂
  { newInner (.v2 depth common) seq with
    body := .inner (.v2 depth common)
      (Function.update (Function.update (fun _ => none) (selectBranch depth key₁) (some child₁))
        (selectBranch depth key₂) (some child₂)) fun _ => .zero }

end SharedNode

/-- A way down the tree on a stack: the last node first, with the depth of its ID. -/
abbrev NodeStack := List (NodePtr × ℕ)

/-- What the maps have in common: the nodes in memory, and the cache of shared nodes. -/
structure Family where
  node : NodePtr → Option SharedNode := fun _ => none
  count : ℕ := 0
  treecache : NodeHash → Option NodePtr := fun _ => none

namespace Family
open Tag

def modify (f : Family) (p : NodePtr) (g : SharedNode → SharedNode) : Family :=
  { f with node := Function.update f.node p ((f.node p).map g) }

/-- `std::make_shared`, for a map. -/
def make (f : Family) (maker : ℕ) (n : SharedNode) : Family × NodePtr :=
  ({ f with node := Function.update f.node ⟨maker, f.count⟩ (some n), count := f.count + 1 },
    ⟨maker, f.count⟩)

def body (f : Family) (p : NodePtr) : Option NodeBody := (f.node p).map SharedNode.body

def seq (f : Family) (p : NodePtr) : ℕ := (f.node p).elim 0 (·.seq)

def hash (f : Family) (p : NodePtr) : NodeHash := (f.node p).elim .zero (·.hash)

def children (f : Family) (p : NodePtr) : Fin 16 → Option NodePtr :=
  match f.body p with
  | some (.inner _ children _) => children
  | _ => fun _ => none

def item (f : Family) (p : NodePtr) : Option SHAMapItem :=
  match f.body p with
  | some (.leaf item _) => some item
  | _ => none

def updateHashDeep (f : Family) (p : NodePtr) : Family :=
  f.modify p fun n =>
    match n.body with
    | .inner node children hashes =>
      let hashes b := (children b).elim (hashes b) f.hash
      SharedNode.updateHash { n with body := .inner node children hashes }
    | .leaf _ _ => n

/-- The node cached for a hash, or from now on this one. -/
def canonicalize (f : Family) (hash : NodeHash) (p : NodePtr) : Family × NodePtr :=
  match f.treecache hash with
  | some q => (f, q)
  | none => ({ f with treecache := Function.update f.treecache hash (some p) }, p)

/-- How many nodes a way down the tree can meet. -/
def wayLength : ℕ := 65

/-- `SHAMap::walkTowardsKey`, from a node down. -/
def walkTowardsKey (f : Family) (isv2 : Bool) (id : Tag) : ℕ → NodePtr → ℕ → NodeStack → NodeStack
  | 0, _, _, stack => stack
  | fuel + 1, p, d, stack =>
    match f.body p with
    | none => stack
    | some (.leaf _ _) => (p, if isv2 then 64 else d) :: stack
    | some (.inner n children _) =>
      let depth := n.depth d
      let stack := (p, depth) :: stack
      if n.hasCommonPrefix id then
        match children (selectBranch depth id) with
        | none => stack
        | some child => walkTowardsKey f isv2 id fuel child (depth + 1) stack
      else stack

def onlyBelow (f : Family) : ℕ → NodePtr → Option SHAMapItem
  | 0, _ => none
  | fuel + 1, p =>
    match f.body p with
    | none => none
    | some (.leaf item _) => some item
    | some (.inner _ children _) =>
      match SharedNode.branches children with
      | [b] => (children b).bind (onlyBelow f fuel)
      | _ => none

end Family

inductive SHAMapState
  | modifying | immutable
  deriving DecidableEq

/-- A `SHAMap`; `id` tells which one. -/
structure SharedMap where
  id : ℕ
  seq : ℕ := 1
  state : SHAMapState := .modifying
  root : NodePtr
  backed : Bool := true

structure MapState where
  f : Family
  map : SharedMap

namespace MapState
open Tag
variable (s : MapState)

def make (n : SharedNode) : MapState × NodePtr :=
  ({ s with f := (s.f.make s.map.id n).1 }, (s.f.make s.map.id n).2)

def modify (p : NodePtr) (g : SharedNode → SharedNode) : MapState := { s with f := s.f.modify p g }

def setRoot (p : NodePtr) : MapState := { s with map := { s.map with root := p } }

def isV2 : Bool :=
  match s.f.body s.map.root with
  | some (.inner (.v2 _ _) _ _) => true
  | _ => false

def walkTowardsKey (id : Tag) : NodeStack :=
  s.f.walkTowardsKey s.isV2 id Family.wayLength s.map.root 0 []

def peekItem (id : Tag) : Option SHAMapItem :=
  match s.walkTowardsKey id with
  | (p, _) :: _ => (s.f.item p).filter (·.key = id)
  | [] => none

/-- The node itself if it is the map's own, else a copy. -/
def unshareNode (p : NodePtr) (depth : ℕ) : MapState × NodePtr :=
  match s.f.node p with
  | none => (s, p)
  | some n =>
    if n.seq ≠ s.map.seq then
      let r := s.make (n.clone s.map.seq)
      (if depth = 0 then r.1.setRoot r.2 else r.1, r.2)
    else (s, p)

def dirtyUp (target : Tag) : NodeStack → NodePtr → MapState → MapState
  | [], _, s => s
  | (p, depth) :: stack, child, s =>
    let r := s.unshareNode p depth
    dirtyUp target stack r.2 (r.1.modify r.2 (·.setChild (selectBranch depth target) (some child)))

/-! ### Adding and updating -/

/-- Where the loop of `addGiveItem` over two keys' shared branches has come to. -/
structure Pushed where
  s : MapState
  stack : NodeStack
  node : NodePtr
  depth : ℕ

def pushShared (tag other : Tag) : ℕ → Pushed → Pushed
  | 0, w => w
  | fuel + 1, w =>
    if selectBranch w.depth tag = selectBranch w.depth other then
      let r := w.s.make (.newInner .v1 w.s.map.seq)
      pushShared tag other fuel
        { s := r.1, stack := (w.node, w.depth) :: w.stack, node := r.2, depth := w.depth + 1 }
    else w

/-- In version 1, a leaf that has to be made an inner node with two items. -/
def splitLeaf (stack : NodeStack) (depth : ℕ) (other item : SHAMapItem) (type : TNType) (seq : ℕ) :
    MapState :=
  let r := s.make (.newInner .v1 seq)
  let w := pushShared item.key other.key 64 { s := r.1, stack, node := r.2, depth }
  let new := w.s.make (.newLeaf item type w.s.map.seq)
  let s := new.1.modify w.node (·.setChild (selectBranch w.depth item.key) (some new.2))
  let new := s.make (.newLeaf other type s.map.seq)
  let s := new.1.modify w.node (·.setChild (selectBranch w.depth other.key) (some new.2))
  s.dirtyUp item.key w.stack w.node

/-- In version 2, a new inner node over a leaf and the new one. -/
def splitLeafV2 (stack : NodeStack) (leaf : NodePtr) (other item : SHAMapItem) (type : TNType) :
    MapState :=
  let new := s.make (.newLeaf item type s.map.seq)
  let inner := new.1.make (.ofChildren other.key leaf item.key new.2 s.map.seq)
  match stack with
  | [] => inner.1
  | (q, depth) :: stack =>
    let parent := inner.1.unshareNode q depth
    parent.1.dirtyUp item.key ((parent.2, depth) :: stack) inner.2

/-- In version 2, a new inner node over an inner node whose prefix the key does not have and the new
leaf. The parent's depth is that of its ID. -/
def splitInner (stack : NodeStack) (inner : NodePtr) (depth : ℕ) (common : Tag) (item : SHAMapItem)
    (type : TNType) : MapState :=
  match stack with
  | [] => s
  | (q, parentDepth) :: stack =>
    let parent := s.unshareNode q parentDepth
    let depth := getCommonPrefix depth common item.key
    let new := parent.1.make (.newInner (.v2 depth (prefixOf depth item.key)) s.map.seq)
    let s := new.1.modify new.2 (·.setChild (selectBranch depth common) (some inner))
    let leaf := s.make (.newLeaf item type s.map.seq)
    let s := leaf.1.modify new.2 (·.setChild (selectBranch depth item.key) (some leaf.2))
    let s := s.modify parent.2 (·.setChild (selectBranch parentDepth item.key) (some new.2))
    s.dirtyUp item.key ((parent.2, parentDepth) :: stack) new.2

def addGiveItem (item : SHAMapItem) (isTransaction hasMeta : Bool) : MapState × Bool :=
  let tag := item.key
  let type := TNType.of isTransaction hasMeta
  match s.walkTowardsKey tag with
  | [] => (s, false)
  | (p, depth) :: stack =>
    if (s.f.item p).any (·.key = tag) then (s, false)
    else
      let r := s.unshareNode p depth
      match r.1.f.body r.2 with
      | none => (r.1, false)
      | some (.leaf other _) =>
        if s.isV2 then (r.1.splitLeafV2 stack r.2 other item type, true)
        else (r.1.splitLeaf stack depth other item type (r.1.f.seq r.2), true)
      | some (.inner n _ _) =>
        if n.hasCommonPrefix tag then
          let new := r.1.make (.newLeaf item type r.1.map.seq)
          let s := new.1.modify r.2 (·.setChild (selectBranch depth tag) (some new.2))
          (s.dirtyUp tag stack r.2, true)
        else
          match n with
          | .v1 => (r.1.dirtyUp tag stack r.2, true)
          | .v2 depth common => (r.1.splitInner stack r.2 depth common item type, true)

/-- A leaf that is left as it was is not linked. -/
def updateGiveItem (item : SHAMapItem) (isTransaction hasMeta : Bool) : MapState × Bool :=
  let tag := item.key
  let type := TNType.of isTransaction hasMeta
  match s.walkTowardsKey tag with
  | [] => (s, false)
  | (p, depth) :: stack =>
    if (s.f.item p).any (·.key = tag) then
      let r := s.unshareNode p depth
      let s := r.1.modify r.2 (·.setItem item type)
      if s.f.hash r.2 = r.1.f.hash r.2 then (s, true) else (s.dirtyUp tag stack r.2, true)
    else (s, false)

/-! ### Deleting -/

/-- What `delItem` hangs into the parent of an inner node that has lost an item. -/
def pullUp (isv2 : Bool) (type : TNType) (p : NodePtr) : MapState × Option NodePtr :=
  let children := s.f.children p
  match isv2, SharedNode.branches children with
  | true, [b] => (s, children b)
  | false, [] => (s, none)
  | false, [b] =>
    match s.f.onlyBelow Family.wayLength p with
    | some item =>
      let r := (s.modify p (·.setChild b none)).make (.newLeaf item type (s.f.seq p))
      (r.1, some r.2)
    | none => (s, some p)
  | _, _ => (s, some p)

def unlink (isv2 : Bool) (id : Tag) (type : TNType) : NodeStack → Option NodePtr → MapState → MapState
  | [], _, s => s
  | (p, depth) :: stack, prevNode, s =>
    let r := s.unshareNode p depth
    let s := r.1.modify r.2 (·.setChild (selectBranch depth id) prevNode)
    if depth = 0 then unlink isv2 id type stack prevNode s
    else
      let up := s.pullUp isv2 type r.2
      unlink isv2 id type stack up.2 up.1

def delItem (id : Tag) : MapState × Bool :=
  match s.walkTowardsKey id with
  | [] => (s, false)
  | (p, _) :: stack =>
    match s.f.body p with
    | some (.leaf item type) =>
      if item.key ≠ id then (s, false) else (unlink s.isV2 id type stack none s, true)
    | _ => (s, false)

/-! ### Hashes and sharing -/

def preFlushNode (p : NodePtr) : MapState × NodePtr :=
  match s.f.node p with
  | none => (s, p)
  | some n => if n.seq ≠ s.map.seq then s.make (n.clone s.map.seq) else (s, p)

def writeNode (p : NodePtr) : MapState × NodePtr :=
  let f := s.f.modify p (·.setSeq 0)
  let r := f.canonicalize (f.hash p) p
  ({ s with f := r.1 }, r.2)

/-- A node whose hash is computed becomes a shared one. -/
def share (doWrite : Bool) (s : MapState) (p : NodePtr) : MapState × NodePtr :=
  if doWrite && s.map.backed then s.writeNode p else (s.modify p (·.setSeq 0), p)

/-- One branch of an inner node in `walkSubTree`; `flush` does what is to be done for a child that is
an inner node. -/
def flushBranch (doWrite : Bool) (flush : NodePtr → MapState → MapState × NodePtr) (p : NodePtr)
    (s : MapState) (pos : Fin 16) : MapState :=
  match s.f.children p pos with
  | none => s
  | some child =>
    if s.f.seq child = 0 then s
    else
      let c := s.preFlushNode child
      let r := if (c.1.f.item c.2).isNone then flush c.2 c.1
        else share doWrite (c.1.modify c.2 (·.updateHash)) c.2
      r.1.modify p (·.shareChild pos r.2)

/-- What the loop of `walkSubTree`, which has a stack where this is recursive, does for an inner
node of the map's own. -/
def flushNode (doWrite : Bool) : ℕ → NodePtr → MapState → MapState × NodePtr
  | 0, p, s => (s, p)
  | fuel + 1, p, s =>
    let s := (List.finRange 16).foldl (flushBranch doWrite (flushNode doWrite fuel) p) s
    share doWrite { s with f := s.f.updateHashDeep p } p

def rootNode (isv2 : Bool) : InnerNode := if isv2 then .v2 0 (.replicate 32 0) else .v1

def walkSubTree (doWrite : Bool) (s : MapState) : MapState :=
  match s.f.node s.map.root with
  | none => s
  | some n =>
    if n.seq = 0 then s
    else
      match n.body with
      | .leaf _ _ =>
        let c := s.preFlushNode s.map.root
        let r := share doWrite (c.1.modify c.2 (·.updateHash)) c.2
        r.1.setRoot r.2
      | .inner _ children _ =>
        if SharedNode.branches children = [] then
          let r := s.make (.newInner (rootNode s.isV2) 0)
          r.1.setRoot r.2
        else
          let c := s.preFlushNode s.map.root
          let r := flushNode doWrite Family.wayLength c.2 c.1
          r.1.setRoot r.2

def unshare : MapState := s.walkSubTree false

def flushDirty : MapState := s.walkSubTree true

def getHash : MapState × NodeHash :=
  let hash := s.f.hash s.map.root
  if hash = .zero then (s.unshare, s.unshare.f.hash s.unshare.map.root) else (s, hash)

end MapState

/-! ## Several maps -/

structure Maps where
  f : Family := {}
  maps : List SharedMap := []

inductive MapCall
  | new (version : SHAMap.Version)
  | snapShot (i : ℕ) (isMutable : Bool)
  | setImmutable (i : ℕ)
  | setUnbacked (i : ℕ)
  | addGiveItem (i : ℕ) (item : SHAMapItem) (isTransaction hasMeta : Bool)
  | updateGiveItem (i : ℕ) (item : SHAMapItem) (isTransaction hasMeta : Bool)
  | delItem (i : ℕ) (id : Tag)
  | getHash (i : ℕ)
  | flushDirty (i : ℕ)
  /-- The cache drops nodes. -/
  | sweep (keep : NodeHash → Bool)

inductive MapResult
  | done
  | bool (b : Bool)
  | hash (h : NodeHash)
  deriving DecidableEq

namespace Maps

def state (w : Maps) (i : ℕ) : Option MapState := w.maps[i]?.map (⟨w.f, ·⟩)

def onMap (w : Maps) (i : ℕ) (op : MapState → MapState × MapResult) : Maps × MapResult :=
  match w.state i with
  | none => (w, .done)
  | some s => (⟨(op s).1.f, w.maps.set i (op s).1.map⟩, (op s).2)

def new (w : Maps) (version : SHAMap.Version) : Maps :=
  let r := w.f.make w.maps.length (.newInner (MapState.rootNode (version = .two)) 1)
  ⟨r.1, w.maps ++ [{ id := w.maps.length, root := r.2 }]⟩

/-- The root that the constructor has made is replaced at once. Sequence numbers are 32-bit words.
-/
def snapShot (w : Maps) (i : ℕ) (isMutable : Bool) : Maps :=
  match w.maps[i]? with
  | none => w
  | some m =>
    let s : MapState := ⟨w.f, {
      id := w.maps.length
      seq := (m.seq + 1) % 2 ^ 32
      state := if isMutable then .modifying else .immutable
      root := m.root
      backed := m.backed }⟩
    -- If either map may change, they cannot share nodes.
    let s := if m.state ≠ .immutable ∨ !isMutable then s.unshare else s
    ⟨s.f, w.maps ++ [s.map]⟩

def sweep (w : Maps) (keep : NodeHash → Bool) : Maps :=
  { w with f := { w.f with treecache := fun h => if keep h then w.f.treecache h else none } }

def step (w : Maps) : MapCall → Maps × MapResult
  | .new version => (w.new version, .done)
  | .snapShot i isMutable => (w.snapShot i isMutable, .done)
  | .setImmutable i => w.onMap i fun s => (⟨s.f, { s.map with state := .immutable }⟩, .done)
  | .setUnbacked i => w.onMap i fun s => (⟨s.f, { s.map with backed := false }⟩, .done)
  | .addGiveItem i item isTransaction hasMeta =>
    w.onMap i fun s => (s.addGiveItem item isTransaction hasMeta).map id .bool
  | .updateGiveItem i item isTransaction hasMeta =>
    w.onMap i fun s => (s.updateGiveItem item isTransaction hasMeta).map id .bool
  | .delItem i tag => w.onMap i fun s => (s.delItem tag).map id .bool
  | .getHash i => w.onMap i fun s => s.getHash.map id .hash
  | .flushDirty i => w.onMap i fun s => (s.flushDirty, .done)
  | .sweep keep => (w.sweep keep, .done)

/-- What is seen through a map: the items by their keys, and the root hash. -/
def peekItem (w : Maps) (i : ℕ) (id : Tag) : Option SHAMapItem := (w.state i).bind (·.peekItem id)

def getHash (w : Maps) (i : ℕ) : Option NodeHash := (w.state i).map (·.getHash.2)

end Maps
end FinPal
