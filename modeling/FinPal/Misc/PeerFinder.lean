import Mathlib.Data.Finset.Erase
import Mathlib.Data.Finset.Insert
import Mathlib.Data.List.AList

/-!
# The slots of the PeerFinder

`Logic` of `peerfinder/impl/Logic.h` as far as it keeps slots, and `Counts` of `Counts.h`. A slot is
named by its remote endpoint: the pointer the overlay holds is the one in the table until it is
closed. What no counter depends on is left out.
-/

namespace FinPal.PeerFinder
variable {A K : Type} [DecidableEq A] [DecidableEq K]

structure Endpoint (A : Type) where
  address : A
  port : ℕ
  deriving DecidableEq

inductive SlotState where
  | accept
  | connect
  | connected
  | active
  | closing
  deriving DecidableEq

structure SlotImp (A K : Type) where
  inbound : Bool
  fixed : Bool
  cluster : Bool := false
  state : SlotState
  remote_endpoint : Endpoint A
  local_endpoint : Option (Endpoint A) := none
  public_key : Option K := none
  deriving DecidableEq

structure Counts where
  /-- Outbound connection attempts. -/
  attempts : ℤ := 0
  active : ℤ := 0
  in_max : ℤ
  in_active : ℤ := 0
  out_max : ℤ
  out_active : ℤ := 0
  fixed : ℤ := 0
  fixed_active : ℤ := 0
  cluster : ℤ := 0
  acceptCount : ℤ := 0
  closingCount : ℤ := 0
  deriving DecidableEq

namespace Counts

/-- The part of `adjust` that looks at the state. -/
def adjustState (c : Counts) (s : SlotImp A K) (n : ℤ) : Counts :=
  match s.state with
  | .accept => { c with acceptCount := c.acceptCount + n }
  | .connect | .connected => { c with attempts := c.attempts + n }
  | .active =>
    { c with
      fixed_active := if s.fixed then c.fixed_active + n else c.fixed_active
      in_active := if !s.fixed ∧ !s.cluster ∧ s.inbound then c.in_active + n else c.in_active
      out_active := if !s.fixed ∧ !s.cluster ∧ !s.inbound then c.out_active + n else c.out_active
      active := c.active + n }
  | .closing => { c with closingCount := c.closingCount + n }

def adjust (c : Counts) (s : SlotImp A K) (n : ℤ) : Counts :=
  let c := if s.fixed then { c with fixed := c.fixed + n } else c
  let c := if s.cluster then { c with cluster := c.cluster + n } else c
  c.adjustState s n

def add (c : Counts) (s : SlotImp A K) : Counts := c.adjust s 1

def remove (c : Counts) (s : SlotImp A K) : Counts := c.adjust s (-1)

def can_activate (c : Counts) (s : SlotImp A K) : Bool :=
  if s.fixed || s.cluster then true
  else if s.inbound then c.in_active < c.in_max
  else c.out_active < c.out_max

end Counts

inductive Result where
  | duplicate
  | full
  | success
  deriving DecidableEq

/-- The limit of connections from one address, the endpoints of fixed peers, and which addresses are
public. -/
structure Config (A : Type) where
  ipLimit : ℕ
  fixed_ : List (Endpoint A)
  is_public : A → Bool

structure Logic (A K : Type) [DecidableEq A] where
  slots_ : AList fun _ : Endpoint A => SlotImp A K
  connectedAddresses_ : Multiset A
  keys_ : Finset K
  counts_ : Counts

namespace Logic

/-- No slots, and room for some numbers of inbound and outbound ones. -/
def initial (in_max out_max : ℕ) : Logic A K where
  slots_ := ∅
  connectedAddresses_ := 0
  keys_ := ∅
  counts_ := { in_max, out_max }

def enter (l : Logic A K) (slot : SlotImp A K) : Logic A K :=
  { l with
    slots_ := l.slots_.insert slot.remote_endpoint slot
    connectedAddresses_ := slot.remote_endpoint.address ::ₘ l.connectedAddresses_
    counts_ := l.counts_.add slot }

def new_inbound_slot (config : Config A) (l : Logic A K)
    (local_endpoint remote_endpoint : Endpoint A) : Option (SlotImp A K) × Logic A K :=
  if config.is_public remote_endpoint.address ∧
      config.ipLimit < l.connectedAddresses_.count remote_endpoint.address then (none, l)
  else
    let slot : SlotImp A K :=
      { inbound := true
        fixed := config.fixed_.any fun e => e.address = remote_endpoint.address
        state := .accept
        remote_endpoint
        local_endpoint := some local_endpoint }
    (some slot, l.enter slot)

def new_outbound_slot (config : Config A) (l : Logic A K) (remote_endpoint : Endpoint A) :
    Option (SlotImp A K) × Logic A K :=
  if (l.slots_.lookup remote_endpoint).isSome then (none, l)
  else
    let slot : SlotImp A K :=
      { inbound := false
        fixed := config.fixed_.any fun e => e = remote_endpoint
        state := .connect
        remote_endpoint }
    (some slot, l.enter slot)

/-- The slot in the table is written, and the counts follow. -/
def recount (l : Logic A K) (slot slot' : SlotImp A K) : Logic A K :=
  { l with
    slots_ := l.slots_.insert slot.remote_endpoint slot'
    counts_ := (l.counts_.remove slot).add slot' }

def onConnected (l : Logic A K) (slot : SlotImp A K) (local_endpoint : Endpoint A) :
    Bool × Logic A K :=
  let slot' := { slot with local_endpoint := some local_endpoint }
  let l := { l with slots_ := l.slots_.insert slot.remote_endpoint slot' }
  if (l.slots_.lookup local_endpoint).isSome then (false, l)
  else (true, l.recount slot' { slot' with state := .connected })

def activate (l : Logic A K) (slot : SlotImp A K) (key : K) (cluster : Bool) : Result × Logic A K :=
  if key ∈ l.keys_ then (.duplicate, l)
  else if !l.counts_.can_activate slot then (.full, l)
  else
    let slot₁ := { slot with public_key := some key, cluster }
    let l := l.recount slot slot₁
    let l := { l with keys_ := insert key l.keys_ }
    (.success, l.recount slot₁ { slot₁ with state := .active })

/-- `remove`, which is all that `on_closed` does to the slots. -/
def on_closed (l : Logic A K) (slot : SlotImp A K) : Logic A K :=
  { slots_ := l.slots_.erase slot.remote_endpoint
    keys_ := slot.public_key.elim l.keys_ l.keys_.erase
    connectedAddresses_ := l.connectedAddresses_.erase slot.remote_endpoint.address
    counts_ := l.counts_.remove slot }

end Logic
end FinPal.PeerFinder
