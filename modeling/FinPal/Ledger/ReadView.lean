import FinPal.Lib.OrderedMap
import FinPal.Lib.Overlay
import FinPal.Protocol.LedgerFormats

/-!
# Views over ordered keys

A ledger answers reads, existence, successors and ranges from its state map; an `OpenView` and an
`ApplyView` keep a table of changes over another view (`RawStateTable`, `ApplyStateTable` of
`ledger/impl`) and are applied by writing it there.
-/

namespace FinPal.Ordered
open Std (TreeMap)
variable {K T V : Type} [LinearOrder K]

/-! ## Keylets -/

/-- What a keylet asks of an entry: `ltANY`, `ltINVALID`, `ltCHILD` or a type. -/
inductive KeyletType (T : Type) where
  | any
  | invalid
  | child
  | entry (type : T)

structure Keylet (K T : Type) where
  type : KeyletType T
  key : K

class HasType (V : Type) (T : outParam Type) where
  getType : V → T
  /-- `ltDIR_NODE`. -/
  dirNode : T

def Keylet.check [DecidableEq T] [HasType V T] (k : Keylet K T) (sle : V) : Bool :=
  match k.type with
  | .any => true
  | .invalid => false
  | .child => HasType.getType sle ≠ (HasType.dirNode V : T)
  | .entry type => HasType.getType sle = type

inductive LedgerEntryType where
  | accountRoot
  | dirNode
  | offer
  | mtchainState
  | escrow
  | signerList
  | payChan
  | nfAsset
  | nfToken
  | nftAuth
  | nftAccount
  | nftIndex
  | nftOwnerIndex
  | nfAssetIndex
  deriving DecidableEq

def getType : Entry → LedgerEntryType
  | .accountRoot _ => .accountRoot
  | .dirNode _ => .dirNode
  | .offer _ => .offer
  | .mtchainState _ => .mtchainState
  | .escrow _ => .escrow
  | .signerList _ => .signerList
  | .payChan _ => .payChan
  | .nfAsset _ => .nfAsset
  | .nfToken _ => .nfToken
  | .nftAuth _ => .nftAuth
  | .nftAccount _ => .nftAccount
  | .nftIndex _ => .nftIndex
  | .nftOwnerIndex _ => .nftOwnerIndex
  | .nfAssetIndex _ => .nfAssetIndex

instance : HasType Entry LedgerEntryType where
  getType := getType
  dirNode := .dirNode

abbrev uint256 := Fin (2 ^ 256)

/-! ## The interface -/

structure ReadView (K T V : Type) where
  read : Keylet K T → Option V
  existsAt : Keylet K T → Bool
  succ : K → Option K → Option K
  /-- From `sles.begin` to `sles.end`. -/
  sles : Except Fault (List (K × V))
  /-- From `sles.upper_bound` to `sles.end`. -/
  slesUpperBound : K → Except Fault (List (K × V))

/-- What a table can be written into. -/
class RawView (S : Type) (K V : outParam Type) where
  rawErase : S → K → V → Except Fault S
  rawInsert : S → K → V → Except Fault S
  rawReplace : S → K → V → Except Fault S

structure Item (A V : Type) where
  action : A
  sle : V

/-! ## The ledger -/

namespace Ledger
variable [Zero K] [DecidableEq T] [HasType V T] (stateMap : TreeMap K V)

def read (k : Keylet K T) : Option V :=
  if k.key = 0 then none else stateMap[k.key]?.filter k.check

/-- The type is not looked at. -/
def existsAt (k : Keylet K T) : Bool := stateMap.contains k.key

def succ (key : K) (last : Option K) : Option K :=
  match (upperBound stateMap key).head? with
  | none => none
  | some item => if last.any (· ≤ item.1) then none else some item.1

def readView : ReadView K T V where
  read := read stateMap
  existsAt := existsAt stateMap
  succ := succ stateMap
  sles := .ok stateMap.toList
  slesUpperBound key := .ok (upperBound stateMap key)

end Ledger

/-- `RawStateTable::succ` and `ApplyStateTable::succ`, with the action that hides a key: the lower
of the next key of the base that is not erased and the next key of the table. -/
def succOver {A : Type} (isErase : A → Bool) (items : TreeMap K (Item A V)) (base : ReadView K T V)
    (key : K) (last : Option K) : Option K :=
  let next := skipHidden (base.succ · last) (fun k => items[k]?.any (isErase ·.action))
    (items.size + 1) key
  let own := (upperBound items key).find? (!isErase ·.2.action)
  keyBelow last (lowerKey (own.map Prod.fst) next)

/-! ## RawStateTable -/

namespace RawStateTable

inductive Action where
  | erase
  | insert
  | replace
  deriving DecidableEq

abbrev Items (K V : Type) [LinearOrder K] := TreeMap K (Item Action V)

section Read
variable [DecidableEq T] [HasType V T] (items : Items K V) (base : ReadView K T V)

def existsAt (k : Keylet K T) : Bool :=
  match items[k.key]? with
  | none => base.existsAt k
  | some ⟨.erase, _⟩ => false
  | some ⟨_, sle⟩ => k.check sle

def succ (key : K) (last : Option K) : Option K :=
  succOver (decide <| · = .erase) items base key last

def read (k : Keylet K T) : Option V :=
  match items[k.key]? with
  | none => base.read k
  | some ⟨.erase, _⟩ => none
  | some ⟨_, sle⟩ => if k.check sle then some sle else none

end Read

section Write
variable (items : Items K V) (key : K) (sle : V)

def erase : Except Fault (Items K V) :=
  match items[key]? with
  | none => .ok (items.insert key ⟨.erase, sle⟩)
  | some ⟨.erase, _⟩ => .error .logicError
  | some ⟨.insert, _⟩ => .ok (items.erase key)
  | some ⟨.replace, _⟩ => .ok (items.insert key ⟨.erase, sle⟩)

def insert : Except Fault (Items K V) :=
  match items[key]? with
  | none => .ok (items.insert key ⟨.insert, sle⟩)
  | some ⟨.erase, _⟩ => .ok (items.insert key ⟨.replace, sle⟩)
  | some ⟨.insert, _⟩ => .error .logicError
  | some ⟨.replace, _⟩ => .error .logicError

def replace : Except Fault (Items K V) :=
  match items[key]? with
  | none => .ok (items.insert key ⟨.replace, sle⟩)
  | some ⟨.erase, _⟩ => .error .logicError
  | some ⟨.insert, _⟩ => .ok (items.insert key ⟨.insert, sle⟩)
  | some ⟨.replace, _⟩ => .ok (items.insert key ⟨.replace, sle⟩)

end Write

def applyItem {S : Type} [RawView S K V] (view : S) (elem : K × Item Action V) : Except Fault S :=
  match elem.2.action with
  | .erase => RawView.rawErase view elem.1 elem.2.sle
  | .insert => RawView.rawInsert view elem.1 elem.2.sle
  | .replace => RawView.rawReplace view elem.1 elem.2.sle

def apply {S : Type} [RawView S K V] (items : Items K V) (view : S) : Except Fault S :=
  items.toList.foldlM applyItem view

/-! ### The iterator -/

/-- `sles_iter_impl`: what is left of the base's range and of the items. The heads are `sle0_` and
`sle1_`, null at the ends. -/
structure SlesIter (K V : Type) where
  iter0 : List (K × V)
  iter1 : List (K × Item Action V)

namespace SlesIter

/-- Passes entries that the table erases. The base's entry is used without a test. -/
def skip : List (K × V) → List (K × Item Action V) → Except Fault (SlesIter K V)
  | iter0, [] => .ok ⟨iter0, []⟩
  | iter0, item :: iter1 =>
    if item.2.action = .erase then
      match iter0 with
      | [] => .error .nullPointer
      | sle0 :: rest0 =>
        if sle0.1 = item.1 then
          if rest0.isEmpty then .ok ⟨[], iter1⟩ else skip rest0 iter1
        else
          .ok ⟨sle0 :: rest0, item :: iter1⟩
    else
      .ok ⟨iter0, item :: iter1⟩

def mk' (iter0 : List (K × V)) (iter1 : List (K × Item Action V)) : Except Fault (SlesIter K V) :=
  if iter1.isEmpty then .ok ⟨iter0, iter1⟩ else skip iter0 iter1

def increment : SlesIter K V → Except Fault (SlesIter K V)
  | ⟨[], []⟩ => .error .nullPointer
  | ⟨[], _ :: rest1⟩ => .ok ⟨[], rest1⟩
  | ⟨_ :: rest0, []⟩ => .ok ⟨rest0, []⟩
  | ⟨sle0 :: rest0, sle1 :: rest1⟩ =>
    if sle1.1 = sle0.1 then skip rest0 rest1
    else if sle1.1 < sle0.1 then skip (sle0 :: rest0) rest1
    else skip rest0 (sle1 :: rest1)

def dereference : SlesIter K V → Option (K × V)
  | ⟨[], []⟩ => none
  | ⟨sle0 :: _, []⟩ => some sle0
  | ⟨[], sle1 :: _⟩ => some (sle1.1, sle1.2.sle)
  | ⟨sle0 :: _, sle1 :: _⟩ =>
    if sle1.1 ≤ sle0.1 then some (sle1.1, sle1.2.sle) else some sle0

/-- The entries up to the end, where both ranges are. -/
def entries : Nat → SlesIter K V → Except Fault (List (K × V))
  | _, ⟨[], []⟩ => .ok []
  | 0, _ => .error .logicError
  | rounds + 1, it => do
    let some entry := it.dereference | .error .nullPointer
    let next ← it.increment
    return entry :: (← entries rounds next)

/-- The whole range between an iterator made of two ranges and the end. -/
def range (iter0 : List (K × V)) (iter1 : List (K × Item Action V)) :
    Except Fault (List (K × V)) := do
  entries (iter0.length + iter1.length) (← mk' iter0 iter1)

end SlesIter

variable [DecidableEq T] [HasType V T] (items : Items K V) (base : ReadView K T V)

def sles : Except Fault (List (K × V)) := do
  SlesIter.range (← base.sles) items.toList

def slesUpperBound (key : K) : Except Fault (List (K × V)) := do
  SlesIter.range (← base.slesUpperBound key) (upperBound items key)

def readView : ReadView K T V where
  read := read items base
  existsAt := existsAt items base
  succ := succ items base
  sles := sles items base
  slesUpperBound := slesUpperBound items base

end RawStateTable

/-! ## ApplyStateTable -/

namespace ApplyStateTable
open Store (Action)

abbrev Items (K V : Type) [LinearOrder K] := TreeMap K (Item Action V)

section Read
variable [DecidableEq T] [HasType V T] (items : Items K V) (base : ReadView K T V)

def existsAt (k : Keylet K T) : Bool :=
  match items[k.key]? with
  | none => base.existsAt k
  | some ⟨.erase, _⟩ => false
  | some ⟨_, sle⟩ => k.check sle

def succ (key : K) (last : Option K) : Option K :=
  succOver (decide <| · = .erase) items base key last

def read (k : Keylet K T) : Option V :=
  match items[k.key]? with
  | none => base.read k
  | some ⟨.erase, _⟩ => none
  | some ⟨_, sle⟩ => if k.check sle then some sle else none

/-- The entry and the table with a copy of it. -/
def peek (k : Keylet K T) : Option V × Items K V :=
  match items[k.key]? with
  | none =>
    match base.read k with
    | none => (none, items)
    | some sle => (some sle, items.insert k.key ⟨.cache, sle⟩)
  | some ⟨.erase, _⟩ => (none, items)
  | some ⟨_, sle⟩ => (if k.check sle then some sle else none, items)

/-- The view of an `ApplyViewBase`. Ranges of entries are those of the base. -/
def readView : ReadView K T V where
  read := read items base
  existsAt := existsAt items base
  succ := succ items base
  sles := base.sles
  slesUpperBound := base.slesUpperBound

end Read

section Write
variable (items : Items K V) (key : K) (sle : V)

def erase : Except Fault (Items K V) :=
  match items[key]? with
  | none => .error .logicError
  | some ⟨.erase, _⟩ => .error .logicError
  | some ⟨.insert, _⟩ => .ok (items.erase key)
  | some ⟨_, sle⟩ => .ok (items.insert key ⟨.erase, sle⟩)

def rawErase : Except Fault (Items K V) :=
  match items[key]? with
  | none => .ok (items.insert key ⟨.erase, sle⟩)
  | some ⟨.erase, _⟩ => .error .logicError
  | some ⟨.insert, _⟩ => .ok (items.erase key)
  | some ⟨_, _⟩ => .ok (items.insert key ⟨.erase, sle⟩)

def insert : Except Fault (Items K V) :=
  match items[key]? with
  | none => .ok (items.insert key ⟨.insert, sle⟩)
  | some ⟨.erase, _⟩ => .ok (items.insert key ⟨.modify, sle⟩)
  | some ⟨_, _⟩ => .error .logicError

def replace : Except Fault (Items K V) :=
  match items[key]? with
  | none => .ok (items.insert key ⟨.modify, sle⟩)
  | some ⟨.erase, _⟩ => .error .logicError
  | some ⟨.insert, _⟩ => .ok (items.insert key ⟨.insert, sle⟩)
  | some ⟨_, _⟩ => .ok (items.insert key ⟨.modify, sle⟩)

/-- Notes that an entry that was peeked at has the contents `sle` now. -/
def update : Except Fault (Items K V) :=
  match items[key]? with
  | none => .error .logicError
  | some ⟨.erase, _⟩ => .error .logicError
  | some ⟨.insert, _⟩ => .ok (items.insert key ⟨.insert, sle⟩)
  | some ⟨_, _⟩ => .ok (items.insert key ⟨.modify, sle⟩)

end Write

/-- `ApplyViewBase` passes raw changes on to its table. -/
instance : RawView (Items K V) K V where
  rawErase := rawErase
  rawInsert := insert
  rawReplace := replace

def applyItem {S : Type} [RawView S K V] (view : S) (elem : K × Item Action V) : Except Fault S :=
  match elem.2.action with
  | .cache => .ok view
  | .erase => RawView.rawErase view elem.1 elem.2.sle
  | .insert => RawView.rawInsert view elem.1 elem.2.sle
  | .modify => RawView.rawReplace view elem.1 elem.2.sle

def apply {S : Type} [RawView S K V] (items : Items K V) (view : S) : Except Fault S :=
  items.toList.foldlM applyItem view

end ApplyStateTable

/-! ## Stacks of views -/

inductive View (K V : Type) [LinearOrder K] where
  | ledger (stateMap : TreeMap K V)
  | openView (base : View K V) (items : RawStateTable.Items K V)
  | applyView (base : View K V) (items : ApplyStateTable.Items K V)

namespace View

def readView [Zero K] [DecidableEq T] [HasType V T] : View K V → ReadView K T V
  | .ledger stateMap => Ledger.readView stateMap
  | .openView base items => RawStateTable.readView items base.readView
  | .applyView base items => ApplyStateTable.readView items base.readView

def rawErase (key : K) (sle : V) : View K V → Except Fault (View K V)
  | .ledger stateMap =>
    if stateMap.contains key then .ok (.ledger (stateMap.erase key)) else .error .logicError
  | .openView base items => (RawStateTable.erase items key sle).map (.openView base)
  | .applyView base items => (ApplyStateTable.rawErase items key sle).map (.applyView base)

def rawInsert (key : K) (sle : V) : View K V → Except Fault (View K V)
  | .ledger stateMap =>
    if stateMap.contains key then .error .logicError else .ok (.ledger (stateMap.insert key sle))
  | .openView base items => (RawStateTable.insert items key sle).map (.openView base)
  | .applyView base items => (ApplyStateTable.insert items key sle).map (.applyView base)

def rawReplace (key : K) (sle : V) : View K V → Except Fault (View K V)
  | .ledger stateMap =>
    if stateMap.contains key then .ok (.ledger (stateMap.insert key sle)) else .error .logicError
  | .openView base items => (RawStateTable.replace items key sle).map (.openView base)
  | .applyView base items => (ApplyStateTable.replace items key sle).map (.applyView base)

instance : RawView (View K V) K V where
  rawErase view key sle := view.rawErase key sle
  rawInsert view key sle := view.rawInsert key sle
  rawReplace view key sle := view.rawReplace key sle

end View

/-! ## Work on an ApplyStateTable -/

/-- What the owner of a table does. A nested table works over this one and is applied to it. -/
inductive TableOp (K T V : Type) where
  | peek (k : Keylet K T)
  | update (k : Keylet K T) (f : V → V)
  | erase (k : Keylet K T)
  | insert (key : K) (sle : V)
  | rawErase (key : K) (sle : V)
  | rawReplace (key : K) (sle : V)
  | nested (ops : List (TableOp K T V))

section Run
variable [Zero K] [DecidableEq T] [HasType V T]

mutual

/-- One operation. Entries are changed and erased through a peeked pointer. -/
def runOp (base : ReadView K T V) :
    TableOp K T V → ApplyStateTable.Items K V → Except Fault (ApplyStateTable.Items K V)
  | .peek k, items => .ok (ApplyStateTable.peek items base k).2
  | .update k f, items =>
    match ApplyStateTable.peek items base k with
    | (none, items) => .ok items
    | (some sle, items) => ApplyStateTable.update items k.key (f sle)
  | .erase k, items =>
    match ApplyStateTable.peek items base k with
    | (none, items) => .ok items
    | (some _, items) => ApplyStateTable.erase items k.key
  | .insert key sle, items => ApplyStateTable.insert items key sle
  | .rawErase key sle, items => ApplyStateTable.rawErase items key sle
  | .rawReplace key sle, items => ApplyStateTable.replace items key sle
  | .nested ops, items => do
    let inner ← runOps (ApplyStateTable.readView items base) ops ∅
    ApplyStateTable.apply inner items

def runOps (base : ReadView K T V) :
    List (TableOp K T V) → ApplyStateTable.Items K V → Except Fault (ApplyStateTable.Items K V)
  | [], items => .ok items
  | op :: ops, items => do runOps base ops (← runOp base op items)

end
end Run

/-- What the owner of an `OpenView` does to its table. -/
inductive RawOp (K V : Type) where
  | erase (key : K) (sle : V)
  | insert (key : K) (sle : V)
  | replace (key : K) (sle : V)

def runRaw (items : RawStateTable.Items K V) : RawOp K V → Except Fault (RawStateTable.Items K V)
  | .erase key sle => RawStateTable.erase items key sle
  | .insert key sle => RawStateTable.insert items key sle
  | .replace key sle => RawStateTable.replace items key sle

end FinPal.Ordered
