import FinPal.Lib.Run
import FinPal.Lib.Tally
import FinPal.Misc.PeerFinder

/-!
# The counters of the PeerFinder
-/

namespace FinPal.PeerFinder
open Multiset
variable {A K : Type}

/-! ## The properties that are counted -/

namespace SlotImp

def attempts (s : SlotImp A K) : Bool := s.state = .connect ∨ s.state = .connected
def accepting (s : SlotImp A K) : Bool := s.state = .accept
def isActive (s : SlotImp A K) : Bool := s.state = .active
def isClosing (s : SlotImp A K) : Bool := s.state = .closing
def fixedActive (s : SlotImp A K) : Bool := s.isActive ∧ s.fixed
def inActive (s : SlotImp A K) : Bool := s.isActive ∧ !s.fixed ∧ !s.cluster ∧ s.inbound
def outActive (s : SlotImp A K) : Bool := s.isActive ∧ !s.fixed ∧ !s.cluster ∧ !s.inbound

end SlotImp

open SlotImp

def slotCount (p : SlotImp A K → Bool) (m : Multiset (SlotImp A K)) : ℤ := m.countP (p · = true)

theorem slotCount_cons (p : SlotImp A K → Bool) (s : SlotImp A K) (m : Multiset (SlotImp A K)) :
    slotCount p (s ::ₘ m) = slotCount p m + if p s then 1 else 0 := by
  unfold slotCount
  rw [countP_cons]
  split <;> simp

/-- The counters are those of the slots in the table. -/
structure Counted (c : Counts) (m : Multiset (SlotImp A K)) : Prop where
  attempts : c.attempts = slotCount SlotImp.attempts m
  acceptCount : c.acceptCount = slotCount SlotImp.accepting m
  active : c.active = slotCount SlotImp.isActive m
  in_active : c.in_active = slotCount SlotImp.inActive m
  out_active : c.out_active = slotCount SlotImp.outActive m
  fixed : c.fixed = slotCount SlotImp.fixed m
  fixed_active : c.fixed_active = slotCount SlotImp.fixedActive m
  cluster : c.cluster = slotCount SlotImp.cluster m
  closingCount : c.closingCount = slotCount SlotImp.isClosing m

theorem adjust_eq (c : Counts) (s : SlotImp A K) (n : ℤ) : c.adjust s n = { c with
      attempts := c.attempts + if s.attempts then n else 0
      acceptCount := c.acceptCount + if s.accepting then n else 0
      active := c.active + if s.isActive then n else 0
      in_active := c.in_active + if s.inActive then n else 0
      out_active := c.out_active + if s.outActive then n else 0
      fixed := c.fixed + if s.fixed then n else 0
      fixed_active := c.fixed_active + if s.fixedActive then n else 0
      cluster := c.cluster + if s.cluster then n else 0
      closingCount := c.closingCount + if s.isClosing then n else 0 } := by
  obtain ⟨inbound, fixed, cluster, state, -, -, -⟩ := s
  cases state <;> cases fixed <;> cases cluster <;> cases inbound <;>
    simp [Counts.adjust, Counts.adjustState, attempts, accepting, isActive,
      inActive, outActive, fixedActive, isClosing]

section Counted
variable {c : Counts} {s : SlotImp A K} {m : Multiset (SlotImp A K)}

theorem Counted.add (h : Counted c m) (s : SlotImp A K) : Counted (c.add s) (s ::ₘ m) := by
  unfold Counts.add
  rw [adjust_eq]
  constructor <;> rw [slotCount_cons]
  · rw [h.attempts]
  · rw [h.acceptCount]
  · rw [h.active]
  · rw [h.in_active]
  · rw [h.out_active]
  · rw [h.fixed]
  · rw [h.fixed_active]
  · rw [h.cluster]
  · rw [h.closingCount]

theorem Counted.remove (h : Counted c (s ::ₘ m)) : Counted (c.remove s) m := by
  have hs (x y : ℤ) (p : Bool) (hxy : x = y + if p then 1 else 0) :
      x + (if p then -1 else 0) = y := by
    cases p <;> simp_all
  obtain ⟨h1, h2, h3, h4, h5, h6, h7, h8, h9⟩ := h
  rw [slotCount_cons] at h1 h2 h3 h4 h5 h6 h7 h8 h9
  unfold Counts.remove
  rw [adjust_eq]
  exact ⟨hs _ _ _ h1, hs _ _ _ h2, hs _ _ _ h3, hs _ _ _ h4, hs _ _ _ h5, hs _ _ _ h6,
    hs _ _ _ h7, hs _ _ _ h8, hs _ _ _ h9⟩

end Counted

theorem add_remove (c : Counts) (s : SlotImp A K) : (c.add s).remove s = c := by
  have hb (x : ℤ) (p : Bool) : x + (if p then 1 else 0) + (if p then -1 else 0) = x := by
    split <;> omega
  rw [Counts.remove, adjust_eq, Counts.add, adjust_eq]
  simp [hb]

theorem remove_add (c : Counts) (s : SlotImp A K) : (c.remove s).add s = c := by
  have hb (x : ℤ) (p : Bool) : x + (if p then -1 else 0) + (if p then 1 else 0) = x := by
    split <;> omega
  rw [Counts.add, adjust_eq, Counts.remove, adjust_eq]
  simp [hb]

theorem inActive_of_idle {s : SlotImp A K} (h : s.isActive = false) : s.inActive = false ∧ s.outActive = false := by
  simp [inActive, outActive, h]

theorem filterMap_filter_of_none {α β : Type} {p : α → Bool} {f : α → Option β} {m : Multiset α}
    (h : ∀ x ∈ m, p x = false → f x = none) : (m.filter (p ·)).filterMap f = m.filterMap f := by
  induction m using Multiset.induction_on with
  | empty => rfl
  | cons x m ih =>
    rw [forall_mem_cons] at h
    cases hp : p x with
    | true =>
      rw [filter_cons_of_pos (p := fun x => p x = true) _ hp]
      cases hf : f x with
      | none => rw [filterMap_cons_none _ _ hf, filterMap_cons_none _ _ hf, ih h.2]
      | some y =>
        rw [filterMap_cons_some _ _ _ hf, filterMap_cons_some _ _ _ hf, ih h.2]
    | false =>
      rw [filter_cons_of_neg _ (by simp [hp]), filterMap_cons_none _ _ (h.1 hp), ih h.2]

/-! ## The books -/

variable [DecidableEq A] [DecidableEq K]

/-- Counters, addresses and keys are right for the slots. Only active slots have a key or are marked
as cluster peers. -/
structure Books (m : Multiset (SlotImp A K)) (addresses : Multiset A) (keys : Finset K) (c : Counts)
    (inMax outMax : ℕ) : Prop where
  counted : Counted c m
  addresses : addresses = m.map (·.remote_endpoint.address)
  keys : keys.val = m.filterMap (·.public_key)
  active : ∀ s ∈ m, s.isActive = true → s.public_key.isSome
  idle : ∀ s ∈ m, s.isActive = false → s.public_key = none ∧ s.cluster = false
  in_max : c.in_max = inMax
  out_max : c.out_max = outMax
  in_room : c.in_active ≤ inMax
  out_room : c.out_active ≤ outMax

namespace Books
variable {m : Multiset (SlotImp A K)} {addresses : Multiset A} {keys : Finset K} {c : Counts}
  {inMax outMax : ℕ} {s s' : SlotImp A K}

omit [DecidableEq A] [DecidableEq K] in
theorem add (h : Books m addresses keys c inMax outMax) (hi : s.isActive = false)
    (hk : s.public_key = none) (hcl : s.cluster = false) :
    Books (s ::ₘ m) (s.remote_endpoint.address ::ₘ addresses) keys (c.add s) inMax outMax := by
  have hr := inActive_of_idle hi
  have hco := adjust_eq c s 1
  refine ⟨h.counted.add s, ?_, ?_, ?_, ?_, ?_, ?_, ?_, ?_⟩
  · rw [map_cons, h.addresses]
  · rw [filterMap_cons_none _ _ hk, h.keys]
  · refine forall_mem_cons.2 ⟨fun ha => ?_, h.active⟩
    rw [hi] at ha
    cases ha
  · exact forall_mem_cons.2 ⟨fun _ => ⟨hk, hcl⟩, h.idle⟩
  · rw [Counts.add, hco, h.in_max]
  · rw [Counts.add, hco, h.out_max]
  · rw [Counts.add, hco]
    simpa [hr.1] using h.in_room
  · rw [Counts.add, hco]
    simpa [hr.2] using h.out_room

section
variable (h : Books (s ::ₘ m) addresses keys c inMax outMax)
include h

theorem remove :
    Books m (addresses.erase s.remote_endpoint.address) (s.public_key.elim keys keys.erase)
      (c.remove s) inMax outMax := by
  have hco := adjust_eq c s (-1)
  have hle (x : ℤ) (p : Bool) : x + (if p then -1 else 0) ≤ x := by split <;> omega
  refine ⟨h.counted.remove, ?_, ?_, fun t ht => h.active t (mem_cons_of_mem ht),
    fun t ht => h.idle t (mem_cons_of_mem ht), ?_, ?_, ?_, ?_⟩
  · rw [h.addresses, map_cons, erase_cons_head]
  · have hke := h.keys
    cases hk : s.public_key with
    | none =>
      rw [filterMap_cons_none _ _ hk] at hke
      exact hke
    | some k =>
      rw [filterMap_cons_some _ _ _ hk] at hke
      change (keys.erase k).val = _
      rw [Finset.erase_val, hke, erase_cons_head]
  · rw [Counts.remove, hco, h.in_max]
  · rw [Counts.remove, hco, h.out_max]
  · rw [Counts.remove, hco]
    exact (hle _ _).trans h.in_room
  · rw [Counts.remove, hco]
    exact (hle _ _).trans h.out_room

theorem replace (hi : s.isActive = false)
    (hid' : s'.isActive = false) (ha : s'.remote_endpoint = s.remote_endpoint)
    (hk : s'.public_key = s.public_key) (hcl : s'.cluster = s.cluster) :
    Books (s' ::ₘ m) addresses keys ((c.remove s).add s') inMax outMax := by
  obtain ⟨hn, hno⟩ := h.idle s (mem_cons_self s m) hi
  have hbo := h.remove.add hid' (hk.trans hn) (hcl.trans hno)
  have had : s'.remote_endpoint.address ::ₘ addresses.erase s.remote_endpoint.address =
      addresses := by
    rw [ha, h.addresses, map_cons, erase_cons_head]
  rw [had, hn] at hbo
  exact hbo

theorem activate (hid : s.isActive = false)
    (hac : s'.isActive = true) (had : s'.remote_endpoint = s.remote_endpoint)
    (hfi : s'.fixed = s.fixed) (hin : s'.inbound = s.inbound) {key : K}
    (hk : s'.public_key = some key) (hfr : key ∉ keys) (hc : c.can_activate s = true) :
    Books (s' ::ₘ m) addresses (insert key keys) ((c.remove s).add s') inMax outMax := by
  obtain ⟨hn, hno⟩ := h.idle s (mem_cons_self s m) hid
  obtain ⟨hin0, ho0⟩ := inActive_of_idle hid
  have hre := h.remove
  rw [hn] at hre
  have hin_ : ((c.remove s).add s').in_active =
      c.in_active + if s'.inActive then 1 else 0 := by
    rw [Counts.add, adjust_eq, Counts.remove, adjust_eq]
    simp [hin0]
  have hou : ((c.remove s).add s').out_active =
      c.out_active + if s'.outActive then 1 else 0 := by
    rw [Counts.add, adjust_eq, Counts.remove, adjust_eq]
    simp [ho0]
  refine ⟨hre.counted.add s', ?_, ?_, ?_, ?_, ?_, ?_, ?_, ?_⟩
  · rw [h.addresses, map_cons, map_cons, had]
  · rw [filterMap_cons_some _ _ _ hk, ← hre.keys]
    exact Finset.insert_val_of_notMem hfr
  · exact forall_mem_cons.2 ⟨fun _ => by rw [hk]; rfl, hre.active⟩
  · refine forall_mem_cons.2 ⟨fun hid' => ?_, hre.idle⟩
    rw [hac] at hid'
    cases hid'
  · rw [Counts.add, adjust_eq]
    exact hre.in_max
  · rw [Counts.add, adjust_eq]
    exact hre.out_max
  · -- an inbound slot that counts has found room
    rw [hin_]
    split
    · next hco =>
      obtain ⟨-, hf, -, hi⟩ : s'.isActive = true ∧ s'.fixed = false ∧ s'.cluster = false ∧
          s'.inbound = true := by simpa [inActive] using hco
      rw [hfi] at hf
      rw [hin] at hi
      have hlt : c.in_active < c.in_max := by simpa [Counts.can_activate, hf, hno, hi] using hc
      rw [h.in_max] at hlt
      omega
    · rw [add_zero]
      exact h.in_room
  rw [hou]
  split
  · next hco =>
    obtain ⟨-, hf, -, hi⟩ : s'.isActive = true ∧ s'.fixed = false ∧ s'.cluster = false ∧
        s'.inbound = false := by simpa [outActive] using hco
    rw [hfi] at hf
    rw [hin] at hi
    have hlt : c.out_active < c.out_max := by simpa [Counts.can_activate, hf, hno, hi] using hc
    rw [h.out_max] at hlt
    omega
  · rw [add_zero]
    exact h.out_room

end
end Books

/-! ## The calls -/

/-- The books are right for the slots in the table, each under its endpoint. -/
structure Booked (inMax outMax : ℕ) (l : Logic A K) : Prop where
  named : ∀ e s, l.slots_.lookup e = some s → s.remote_endpoint = e
  books : Books (valuesOf l.slots_) l.connectedAddresses_ l.keys_ l.counts_ inMax outMax

section Calls
variable {inMax outMax : ℕ} {l : Logic A K} {s : SlotImp A K} {e : Endpoint A}

omit [DecidableEq K] in
theorem booked_initial (inMax outMax : ℕ) : Booked inMax outMax (Logic.initial inMax outMax : Logic A K)
    where
  named _ _ h := by cases h
  books := by
    refine ⟨⟨rfl, rfl, rfl, rfl, rfl, rfl, rfl, rfl, rfl⟩, rfl, rfl, fun _ h => ?_, fun _ h => ?_, rfl,
      rfl, Int.natCast_nonneg _, Int.natCast_nonneg _⟩
    · exact absurd h (notMem_zero _)
    · exact absurd h (notMem_zero _)

omit [DecidableEq K] in
theorem named_insert (h : ∀ e s, l.slots_.lookup e = some s → s.remote_endpoint = e)
    (s : SlotImp A K) {e : Endpoint A} {t : SlotImp A K}
    (ht : (l.slots_.insert s.remote_endpoint s).lookup e = some t) : t.remote_endpoint = e := by
  by_cases he : e = s.remote_endpoint
  · subst he
    rw [AList.lookup_insert] at ht
    cases ht
    rfl
  · rw [AList.lookup_insert_ne he] at ht
    exact h e t ht

omit [DecidableEq K] in
theorem Booked.enter (h : Booked inMax outMax l) (hn : l.slots_.lookup s.remote_endpoint = none)
    (hi : s.isActive = false) (hk : s.public_key = none) (hcl : s.cluster = false) :
    Booked inMax outMax (l.enter s) where
  named _ _ ht := named_insert h.named s ht
  books := by
    change Books (valuesOf (l.slots_.insert s.remote_endpoint s)) _ _ _ _ _
    rw [valuesOf_insert, valuesOf_erase_none hn]
    exact h.books.add hi hk hcl

theorem Booked.onConnected (h : Booked inMax outMax l) (hs : l.slots_.lookup s.remote_endpoint = some s)
    (hst : s.state = .connect) (loc : Endpoint A) : Booked inMax outMax (l.onConnected s loc).2 := by
  have hid : s.isActive = false := by simp [isActive, hst]
  have hbo := h.books
  rw [valuesOf_erase hs] at hbo
  have hlo : Books ({ s with local_endpoint := some loc } ::ₘ
      valuesOf (l.slots_.erase s.remote_endpoint)) l.connectedAddresses_ l.keys_ l.counts_ inMax
      outMax := by
    have hco := remove_add l.counts_ s
    rw [← hco]
    exact hbo.replace hid hid rfl rfl rfl
  unfold Logic.onConnected
  dsimp only
  split
  · refine ⟨fun e t ht => named_insert h.named { s with local_endpoint := some loc } ht, ?_⟩
    exact hlo
  refine ⟨fun e t ht => ?_, ?_⟩
  · change ((l.slots_.insert _ _).insert _ _).lookup e = some t at ht
    rw [AList.insert_insert] at ht
    exact named_insert h.named { s with local_endpoint := some loc, state := .connected } ht
  change Books (valuesOf ((l.slots_.insert _ _).insert _ _)) _ _ _ _ _
  rw [AList.insert_insert]
  exact hlo.replace hid rfl rfl rfl rfl

theorem activate_eq {key : K} (hfr : key ∉ l.keys_) (hc : l.counts_.can_activate s = true)
    (cluster : Bool) :
    (l.activate s key cluster).2 = { l with
        slots_ := l.slots_.insert s.remote_endpoint
          { s with public_key := some key, cluster, state := .active }
        keys_ := insert key l.keys_
        counts_ := (l.counts_.remove s).add
          { s with public_key := some key, cluster, state := .active } } := by
  simp only [Logic.activate, if_neg hfr, hc, Bool.not_true, Bool.false_eq_true, if_false,
    Logic.recount, AList.insert_insert, add_remove]

variable (h : Booked inMax outMax l) (hs : l.slots_.lookup s.remote_endpoint = some s)

include h hs

theorem Booked.activate
    (hst : s.state = .accept ∨ s.state = .connected) (key : K) (cluster : Bool) :
    Booked inMax outMax (l.activate s key cluster).2 := by
  have hi : s.isActive = false := by
    rcases hst with hst | hst <;> simp [isActive, hst]
  have hbo := h.books
  rw [valuesOf_erase hs] at hbo
  by_cases hfr : key ∈ l.keys_
  · rw [Logic.activate, if_pos hfr]
    exact h
  by_cases hc : l.counts_.can_activate s = true
  · rw [activate_eq hfr hc]
    refine ⟨fun e t ht => named_insert h.named
      { s with public_key := some key, cluster, state := .active } ht, ?_⟩
    refine hbo.activate hi ?_ ?_ ?_ ?_ ?_ hfr hc <;> rfl
  · rw [Logic.activate, if_neg hfr, if_pos (by simpa using hc)]
    exact h

theorem Booked.on_closed : Booked inMax outMax (l.on_closed s) := by
  have hbo := h.books
  rw [valuesOf_erase hs] at hbo
  refine ⟨fun e t ht => ?_, hbo.remove⟩
  change (l.slots_.erase s.remote_endpoint).lookup e = some t at ht
  by_cases he : e = s.remote_endpoint
  · subst he
    rw [AList.lookup_erase] at ht
    cases ht
  · rw [AList.lookup_erase_ne he] at ht
    exact h.named e t ht

end Calls

/-! ## Runs -/

/-- A call. A slot is named by its remote endpoint. -/
inductive Call (A K : Type)
  | new_inbound_slot (local_endpoint remote_endpoint : Endpoint A)
  | new_outbound_slot (remote_endpoint : Endpoint A)
  | onConnected (slot local_endpoint : Endpoint A)
  | activate (slot : Endpoint A) (key : K) (cluster : Bool)
  | on_closed (slot : Endpoint A)

namespace Call

def step (config : Config A) (l : Logic A K) : Call A K → Logic A K
  | new_inbound_slot loc remote => (l.new_inbound_slot config loc remote).2
  | new_outbound_slot remote => (l.new_outbound_slot config remote).2
  | onConnected e loc => (l.slots_.lookup e).elim l fun s => (l.onConnected s loc).2
  | activate e key cluster => (l.slots_.lookup e).elim l fun s => (l.activate s key cluster).2
  | on_closed e => (l.slots_.lookup e).elim l l.on_closed

/-- The order in which the overlay makes its calls for a slot, with its promises. -/
def Legal (l : Logic A K) : Call A K → Prop
  | new_inbound_slot _ remote => l.slots_.lookup remote = none
  | new_outbound_slot _ => True
  | onConnected e _ => ∃ s ∈ l.slots_.lookup e, s.state = .connect
  | activate e _ _ => ∃ s ∈ l.slots_.lookup e, s.state = .accept ∨ s.state = .connected
  | on_closed e => (l.slots_.lookup e).isSome

end Call

theorem Booked.step {inMax outMax : ℕ} {l : Logic A K} (h : Booked inMax outMax l)
    (config : Config A) {call : Call A K} (hca : call.Legal l) :
    Booked inMax outMax (call.step config l) := by
  cases call with
  | new_inbound_slot loc remote =>
    change Booked inMax outMax (l.new_inbound_slot config loc remote).2
    unfold Logic.new_inbound_slot
    split
    · exact h
    · exact h.enter hca rfl rfl rfl
  | new_outbound_slot remote =>
    change Booked inMax outMax (l.new_outbound_slot config remote).2
    unfold Logic.new_outbound_slot
    split
    · exact h
    · next hn => exact h.enter (Option.not_isSome_iff_eq_none.1 hn) rfl rfl rfl
  | onConnected e loc =>
    obtain ⟨s, hs, hst⟩ := hca
    change Booked inMax outMax ((l.slots_.lookup e).elim l _)
    rw [Option.mem_def.1 hs]
    exact h.onConnected (h.named e s hs ▸ hs) hst loc
  | activate e key cluster =>
    obtain ⟨s, hs, hst⟩ := hca
    change Booked inMax outMax ((l.slots_.lookup e).elim l _)
    rw [Option.mem_def.1 hs]
    exact h.activate (h.named e s hs ▸ hs) hst key cluster
  | on_closed e =>
    obtain ⟨s, hs⟩ := Option.isSome_iff_exists.1 hca
    change Booked inMax outMax ((l.slots_.lookup e).elim l _)
    rw [hs]
    exact h.on_closed (h.named e s hs ▸ hs)

theorem booked_run {config : Config A} {inMax outMax : ℕ} {calls : List (Call A K)}
    (hc : EachStep (Call.step config) Call.Legal (Logic.initial inMax outMax) calls) :
    Booked inMax outMax (calls.foldl (Call.step config) (Logic.initial inMax outMax)) :=
  EachStep.invariant (fun _ _ hl hca => hl.step config hca) hc (booked_initial inMax outMax)

/-- After any calls in the order of the overlay, the counters are the numbers of slots, the
addresses and keys those of the slots, one active slot for each key, and the active slots that are
neither fixed nor of the cluster keep to the limits. -/
theorem peer_bookkeeping (config : Config A) (inMax outMax : ℕ) {calls : List (Call A K)}
    (hcalls : EachStep (Call.step config) Call.Legal (Logic.initial inMax outMax) calls) :
    let l := calls.foldl (Call.step config) (Logic.initial inMax outMax)
    let slots := valuesOf l.slots_
    Counted l.counts_ slots ∧ l.connectedAddresses_ = slots.map (·.remote_endpoint.address) ∧
      l.keys_.val = (slots.filter (·.isActive)).filterMap (·.public_key) ∧
      (∀ s ∈ slots, s.isActive → s.public_key.isSome) ∧
      slotCount SlotImp.inActive slots ≤ l.counts_.in_max ∧
      slotCount SlotImp.outActive slots ≤ l.counts_.out_max := by
  intro l slots
  have h : Booked inMax outMax l := booked_run hcalls
  have hbo := h.books
  refine ⟨hbo.counted, hbo.addresses, ?_, hbo.active, ?_, ?_⟩
  · rw [hbo.keys]
    exact (filterMap_filter_of_none fun s hs hi => (hbo.idle s hs hi).1).symm
  · rw [← hbo.counted.in_active, hbo.in_max]
    exact hbo.in_room
  · rw [← hbo.counted.out_active, hbo.out_max]
    exact hbo.out_room

namespace Peers

def config : Config ℕ := ⟨2, [⟨9, 1⟩], fun _ => true⟩

/-- A peer comes in, a fixed one is called, both become active, and the first goes. -/
def calls : List (Call ℕ ℕ) :=
  [.new_inbound_slot ⟨0, 1⟩ ⟨7, 1⟩, .new_outbound_slot ⟨9, 1⟩, .onConnected ⟨9, 1⟩ ⟨0, 2⟩,
    .activate ⟨7, 1⟩ 70 false, .activate ⟨9, 1⟩ 90 true, .on_closed ⟨7, 1⟩]

end Peers

open Peers in
/-- One of two active peers has gone. -/
theorem peer_bookkeeping_sample : let l := calls.foldl (Call.step config) (Logic.initial 1 1)
    l.keys_ = {90} ∧ Counted l.counts_ (valuesOf l.slots_) ∧ l.counts_.active = 1 := by
  have hca : EachStep (Call.step config) Call.Legal (Logic.initial 1 1) calls := by
    refine ⟨rfl, trivial, ⟨_, rfl, rfl⟩, ⟨_, rfl, .inl rfl⟩, ⟨_, rfl, .inr rfl⟩, rfl, trivial⟩
  exact ⟨by decide, (peer_bookkeeping config 1 1 hca).1, by decide⟩

end FinPal.PeerFinder
