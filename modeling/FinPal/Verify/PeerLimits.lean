import FinPal.Verify.PeerCounts

/-!
# Who is let in

A slot is marked as a cluster peer after it has found room, and the limit of connections from one
address is compared before the new one is counted.
-/

namespace FinPal.PeerFinder
open Multiset SlotImp
variable {A K : Type} [DecidableEq A] {cfg : Config A} {inMax outMax : ℕ}
  {l : Logic A K} {s t : SlotImp A K} {calls : List (Call A K)}

/-! ## Becoming active -/

/-- The slots that take the room of a slot. -/
def SlotImp.rival (s : SlotImp A K) : SlotImp A K → Bool := if s.inbound then inActive else outActive

namespace Logic

/-- No active slot has the key. -/
def KeyFree (l : Logic A K) (key : K) : Prop :=
  ∀ t ∈ valuesOf l.slots_, t.isActive → t.public_key ≠ some key

/-- There are fewer active slots of the kind than allowed. -/
def HasRoom (l : Logic A K) (s : SlotImp A K) : Prop :=
  slotCount s.rival (valuesOf l.slots_) < if s.inbound then l.counts_.in_max else l.counts_.out_max

end Logic

theorem Booked.mem_keys (h : Booked inMax outMax l) (key : K) : key ∈ l.keys_ ↔ ¬ l.KeyFree key := by
  have hm : key ∈ l.keys_ ↔ ∃ t ∈ valuesOf l.slots_, t.public_key = some key := by
    rw [← Finset.mem_val, h.books.keys, mem_filterMap]
  rw [hm]
  simp only [Logic.KeyFree, not_forall, not_not]
  refine ⟨fun ⟨t, ht, hk⟩ => ⟨t, ht, ?_, hk⟩, fun ⟨t, ht, _, hk⟩ => ⟨t, ht, hk⟩⟩
  -- a slot that is not active has no key
  by_contra hi
  rw [(h.books.idle t ht (Bool.eq_false_iff.2 hi)).1] at hk
  cases hk

theorem Booked.can_activate_iff (h : Booked inMax outMax l) (hs : s ∈ valuesOf l.slots_)
    (hid : s.isActive = false) :
    l.counts_.can_activate s = true ↔ s.fixed = true ∨ l.HasRoom s := by
  have hno := (h.books.idle s hs hid).2
  unfold Counts.can_activate Logic.HasRoom rival
  rw [h.books.counted.in_active, h.books.counted.out_active]
  cases hf : s.fixed <;> cases hi : s.inbound <;> simp [hno]

/-- The slots made by `new_inbound_slot` for an address. -/
def inboundFrom (a : A) (m : Multiset (SlotImp A K)) : ℕ :=
  m.countP fun s => s.inbound = true ∧ s.remote_endpoint.address = a

theorem inboundFrom_cons (a : A) (s : SlotImp A K) (m : Multiset (SlotImp A K)) :
    inboundFrom a (s ::ₘ m) =
      inboundFrom a m + if s.inbound = true ∧ s.remote_endpoint.address = a then 1 else 0 :=
  countP_cons _ _ _

theorem inboundFrom_enter (a : A) (hs : l.slots_.lookup s.remote_endpoint = none) :
    inboundFrom a (valuesOf (l.enter s).slots_) = inboundFrom a (valuesOf l.slots_) +
      if s.inbound = true ∧ s.remote_endpoint.address = a then 1 else 0 := by
  change inboundFrom a (valuesOf (l.slots_.insert s.remote_endpoint s)) = _
  rw [valuesOf_insert, valuesOf_erase_none hs, inboundFrom_cons]

theorem inboundFrom_replace (a : A) (hs : l.slots_.lookup s.remote_endpoint = some s)
    (hin : t.inbound = s.inbound) (he : t.remote_endpoint = s.remote_endpoint) :
    inboundFrom a (valuesOf (l.slots_.insert s.remote_endpoint t)) =
      inboundFrom a (valuesOf l.slots_) := by
  rw [valuesOf_insert, valuesOf_erase hs, inboundFrom_cons, inboundFrom_cons, hin, he]

theorem Booked.inboundFrom_le (h : Booked inMax outMax l) (a : A) :
    inboundFrom a (valuesOf l.slots_) ≤ l.connectedAddresses_.count a := by
  rw [h.books.addresses, count, countP_map, inboundFrom, countP_eq_card_filter]
  exact card_le_card (monotone_filter_right _ fun s hs => hs.2.symm)

variable [DecidableEq K]

theorem activate_cases (l : Logic A K) (s : SlotImp A K) (key : K) (cluster : Bool) :
    ((l.activate s key cluster).1 = .success ↔ key ∉ l.keys_ ∧ l.counts_.can_activate s = true) ∧
      ((l.activate s key cluster).1 ≠ .success → (l.activate s key cluster).2 = l) := by
  unfold Logic.activate
  by_cases hk : key ∈ l.keys_
  · simp [hk]
  · cases hcan : l.counts_.can_activate s <;> simp [hk]

/-- After any calls in the order of the overlay, a slot becomes active exactly if no active slot has
the key and the slot is fixed, comes as a cluster peer or finds room, except that a cluster peer
with a free key has to be fixed or find room as well. A call that fails changes nothing. -/
theorem peer_admission_iff (config : Config A) (inMax outMax : ℕ) {calls : List (Call A K)}
    (hcalls : EachStep (Call.step config) Call.Legal (Logic.initial inMax outMax) calls)
    {e : Endpoint A} {s : SlotImp A K} :
    let l := calls.foldl (Call.step config) (Logic.initial inMax outMax)
    l.slots_.lookup e = some s → s.state = .accept ∨ s.state = .connected →
    ∀ (key : K) (cluster : Bool),
      (((l.activate s key cluster).1 = .success ↔
          l.KeyFree key ∧ (s.fixed ∨ cluster ∨ l.HasRoom s)) ↔
        (l.KeyFree key → cluster → s.fixed ∨ l.HasRoom s)) ∧
      ((l.activate s key cluster).1 ≠ .success → (l.activate s key cluster).2 = l) := by
  intro l hs hst key cluster
  have h : Booked inMax outMax l := booked_run hcalls
  have hm : s ∈ valuesOf l.slots_ := by
    rw [valuesOf_erase hs]
    exact mem_cons_self _ _
  have hid : s.isActive = false := by
    rcases hst with hst | hst <;> simp [isActive, hst]
  obtain ⟨hsu, hke⟩ := activate_cases l s key cluster
  refine ⟨?_, hke⟩
  rw [hsu, h.mem_keys, not_not, h.can_activate_iff hm hid]
  refine ⟨fun hru hk hcl => (hru.2 ⟨hk, .inr (.inl hcl)⟩).2, fun hro => ?_⟩
  refine and_congr_right fun hk => ⟨Or.imp_right .inr, ?_⟩
  rintro (hfi | hcl | hfr)
  · exact .inl hfi
  · exact hro hk hcl
  · exact .inr hfr

namespace Peers

def arrived (in_max : ℕ) : Logic ℕ ℕ := (Logic.initial in_max 0).enter
  { inbound := true, fixed := false, state := .accept, remote_endpoint := ⟨7, 1⟩
    local_endpoint := some ⟨0, 1⟩ }

theorem arrived_legal (in_max : ℕ) :
    EachStep (Call.step config) Call.Legal (Logic.initial in_max 0 : Logic ℕ ℕ)
      [.new_inbound_slot ⟨0, 1⟩ ⟨7, 1⟩] := ⟨rfl, trivial⟩

end Peers

open Peers in
/-- A member of the cluster comes in. -/
theorem peer_admission_iff_arrived : ∃ s ∈ (arrived 1).slots_.lookup ⟨7, 1⟩,
    (((arrived 1).activate s 70 true).1 = .success ↔
      (arrived 1).KeyFree 70 ∧ (s.fixed ∨ true ∨ (arrived 1).HasRoom s)) := by
  refine ⟨_, rfl, (peer_admission_iff config 1 0 (arrived_legal 1) (e := ⟨7, 1⟩) rfl (.inl rfl) 70
    true).1.2 fun _ _ => .inr ?_⟩
  change (0 : ℤ) < 1
  decide

open Peers in
/-- Without room a cluster peer is refused. -/
theorem cluster_peer_refused : ∃ s ∈ (arrived 0).slots_.lookup ⟨7, 1⟩,
    EachStep (Call.step config) Call.Legal (Logic.initial 0 0 : Logic ℕ ℕ)
      [.new_inbound_slot ⟨0, 1⟩ ⟨7, 1⟩] ∧
    s.state = .accept ∧ (arrived 0).KeyFree 70 ∧ ((arrived 0).activate s 70 true).1 = .full := by
  refine ⟨_, rfl, arrived_legal 0, rfl, fun t ht => ?_, by decide⟩
  obtain rfl := mem_singleton.1 ht
  exact nofun

/-! ## Connections from one address -/

/-- A call makes a slot for an inbound connection from an address. -/
def Call.Opens (config : Config A) (l : Logic A K) (a : A) : Call A K → Prop
  | new_inbound_slot _ remote =>
    remote.address = a ∧ (config.is_public a → l.connectedAddresses_.count a ≤ config.ipLimit)
  | _ => False

variable {call : Call A K}

omit [DecidableEq K] in
theorem Call.Opens.count_le {a : A} (h : call.Opens cfg l a) (hp : cfg.is_public a) :
    l.connectedAddresses_.count a ≤ cfg.ipLimit := by
  cases call with
  | new_inbound_slot loc remote => exact h.2 hp
  | _ => exact h.elim

theorem inboundFrom_step (h : Booked inMax outMax l) (config : Config A) (hca : call.Legal l)
    (a : A) :
    call.Opens config l a ∧ inboundFrom a (valuesOf (call.step config l).slots_) =
        inboundFrom a (valuesOf l.slots_) + 1 ∨
      ¬ call.Opens config l a ∧ inboundFrom a (valuesOf (call.step config l).slots_) ≤
        inboundFrom a (valuesOf l.slots_) := by
  cases call with
  | new_inbound_slot loc remote =>
    unfold Call.step Call.Opens Logic.new_inbound_slot
    dsimp only
    split
    · next hfu =>
      refine .inr ⟨?_, le_rfl⟩
      rintro ⟨rfl, hle⟩
      exact absurd hfu.2 (not_lt.2 (hle hfu.1))
    · next hro =>
      rw [not_and, not_lt] at hro
      have hn : l.slots_.lookup remote = none := hca
      rw [inboundFrom_enter a hn]
      by_cases ha : remote.address = a
      · subst ha
        exact .inl ⟨⟨rfl, hro⟩, by simp⟩
      · exact .inr ⟨fun hopen => ha hopen.1, by simp [ha]⟩
  | new_outbound_slot remote =>
    refine .inr ⟨id, ?_⟩
    unfold Call.step Logic.new_outbound_slot
    dsimp only
    split
    · exact le_rfl
    · next hn =>
      rw [inboundFrom_enter a (Option.not_isSome_iff_eq_none.1 hn)]
      simp
  | onConnected e loc =>
    obtain ⟨s, hs, -⟩ := hca
    obtain rfl := h.named e s hs
    refine .inr ⟨id, ?_⟩
    change inboundFrom a (valuesOf ((l.slots_.lookup _).elim l _).slots_) ≤ _
    rw [Option.mem_def.1 hs]
    dsimp only [Option.elim, Logic.onConnected]
    split
    · exact (inboundFrom_replace a hs rfl rfl).le
    change inboundFrom a (valuesOf ((l.slots_.insert _ _).insert _ _)) ≤ _
    rw [AList.insert_insert]
    exact (inboundFrom_replace a hs rfl rfl).le
  | activate e key cluster =>
    obtain ⟨s, hs, -⟩ := hca
    obtain rfl := h.named e s hs
    refine .inr ⟨id, ?_⟩
    change inboundFrom a (valuesOf ((l.slots_.lookup _).elim l _).slots_) ≤ _
    rw [Option.mem_def.1 hs]
    dsimp only [Option.elim]
    by_cases hok : (l.activate s key cluster).1 = .success
    · obtain ⟨hfr, hc⟩ := (activate_cases l s key cluster).1.1 hok
      rw [activate_eq hfr hc]
      exact (inboundFrom_replace a hs rfl rfl).le
    · rw [(activate_cases l s key cluster).2 hok]
  | on_closed e =>
    obtain ⟨s, hs⟩ := Option.isSome_iff_exists.1 hca
    obtain rfl := h.named e s hs
    refine .inr ⟨id, ?_⟩
    change inboundFrom a (valuesOf ((l.slots_.lookup _).elim l _).slots_) ≤ _
    rw [hs]
    change inboundFrom a (valuesOf (l.slots_.erase s.remote_endpoint)) ≤ _
    rw [valuesOf_erase hs, inboundFrom_cons]
    exact Nat.le_add_right _ _

/-- No public address has more inbound slots than the limit. -/
def WithinLimit (config : Config A) (n : ℕ) (l : Logic A K) : Prop :=
  ∀ a, config.is_public a → inboundFrom a (valuesOf l.slots_) ≤ n

/-- One more connection comes from a public address that has as many as allowed, all inbound. -/
def Call.Overfills (config : Config A) (l : Logic A K) : Call A K → Prop
  | new_inbound_slot _ remote => config.is_public remote.address ∧
    l.connectedAddresses_.count remote.address = config.ipLimit ∧
    inboundFrom remote.address (valuesOf l.slots_) = config.ipLimit
  | _ => False

theorem withinLimit_step (h : Booked inMax outMax l) (hca : call.Legal l)
    (hl : WithinLimit cfg cfg.ipLimit l) :
    WithinLimit cfg cfg.ipLimit (call.step cfg l) ↔ ¬ call.Overfills cfg l := by
  constructor
  · intro hst hov
    cases call with
    | new_inbound_slot loc remote =>
      obtain ⟨hp, hco, hfull⟩ := hov
      obtain ⟨-, heq⟩ | ⟨hno, -⟩ := inboundFrom_step h cfg hca remote.address
      · have := hst _ hp
        omega
      · exact hno ⟨rfl, fun _ => hco.le⟩
    | _ => exact hov
  intro hov a hp
  have hle := h.inboundFrom_le a
  have hla := hl a hp
  obtain ⟨hopen, heq⟩ | ⟨-, hless⟩ := inboundFrom_step h cfg hca a
  · have := hopen.count_le hp
    by_contra hmore
    cases call with
    | new_inbound_slot loc remote =>
      obtain ⟨rfl, -⟩ := hopen
      exact hov ⟨hp, by omega, by omega⟩
    | _ => exact hopen
  · exact hless.trans hla

theorem withinLimit_succ (h : Booked inMax outMax l) (hc : call.Legal l)
    (hl : WithinLimit cfg (cfg.ipLimit + 1) l) :
    WithinLimit cfg (cfg.ipLimit + 1) (call.step cfg l) := by
  intro a hp
  obtain ⟨hopen, heq⟩ | ⟨-, hle⟩ := inboundFrom_step h cfg hc a
  · have := h.inboundFrom_le a
    have := hopen.count_le hp
    omega
  · exact hle.trans (hl a hp)

omit [DecidableEq K] in
theorem withinLimit_initial (n : ℕ) :
    WithinLimit cfg n (Logic.initial inMax outMax : Logic A K) := fun _ _ => Nat.zero_le _

/-- Over any calls in the order of the overlay, no public address ever has more inbound slots than
the limit exactly if no call overfills one; and never more than one above it. -/
theorem ip_limit_iff (config : Config A) (inMax outMax : ℕ) {calls : List (Call A K)}
    (hcalls : EachStep (Call.step config) Call.Legal (Logic.initial inMax outMax) calls) :
    (EachStep (Call.step config) (fun l call => WithinLimit config config.ipLimit (call.step config l))
        (Logic.initial inMax outMax) calls ↔
      EachStep (Call.step config) (fun l call => ¬ call.Overfills config l)
        (Logic.initial inMax outMax) calls) ∧
    WithinLimit config (config.ipLimit + 1)
      (calls.foldl (Call.step config) (Logic.initial inMax outMax)) := by
  refine ⟨?_, ?_⟩
  · refine EachStep.iff_of_invariant (I := fun l => Booked inMax outMax l ∧
      WithinLimit config config.ipLimit l) (fun l call hl hc => withinLimit_step hl.1 hc hl.2)
      (fun l call hl hc hs => ⟨hl.1.step config hc, hs⟩) hcalls
      ⟨booked_initial inMax outMax, withinLimit_initial _⟩
  have h := EachStep.invariant (I := fun l => Booked inMax outMax l ∧
    WithinLimit config (config.ipLimit + 1) l)
    (fun l call hl hc => ⟨hl.1.step config hc, withinLimit_succ hl.1 hc hl.2⟩) hcalls
    ⟨booked_initial inMax outMax, withinLimit_initial _⟩
  exact h.2

open Peers in
/-- Two peers come in from one address, where the limit is two. -/
theorem ip_limit_iff_arrived :
    let calls : List (Call ℕ ℕ) := [.new_inbound_slot ⟨0, 1⟩ ⟨7, 1⟩, .new_inbound_slot ⟨0, 1⟩ ⟨7, 2⟩]
    let l := calls.foldl (Call.step config) (Logic.initial 5 5)
    inboundFrom 7 (valuesOf l.slots_) = config.ipLimit ∧ WithinLimit config config.ipLimit l := by
  intro calls l
  have hcalls : EachStep (Call.step config) Call.Legal (Logic.initial 5 5) calls := ⟨rfl, rfl, trivial⟩
  have hl := (ip_limit_iff config 5 5 hcalls).1.2
    ⟨fun h => absurd h.2.1 (by decide), fun h => absurd h.2.1 (by decide), trivial⟩
  exact ⟨by decide, hl.2.1⟩

open Peers in
/-- Three peers come in from one address, where the limit is two. -/
theorem address_overfilled :
    let calls : List (Call ℕ ℕ) := [.new_inbound_slot ⟨0, 1⟩ ⟨7, 1⟩, .new_inbound_slot ⟨0, 1⟩ ⟨7, 2⟩,
      .new_inbound_slot ⟨0, 1⟩ ⟨7, 3⟩]
    EachStep (Call.step config) Call.Legal (Logic.initial 5 5) calls ∧ config.ipLimit = 2 ∧
      inboundFrom 7 (valuesOf (calls.foldl (Call.step config) (Logic.initial 5 5)).slots_) = 3 :=
  ⟨⟨rfl, rfl, rfl, trivial⟩, rfl, by decide⟩

end FinPal.PeerFinder
