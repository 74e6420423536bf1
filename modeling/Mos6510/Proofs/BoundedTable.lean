import Mathlib.Data.Set.Card
import Mathlib.Logic.Function.Basic
import Mos6510.Machine
import Mos6510.Proofs.TrapSlots

/-!
Trap tables are bounded maps. A table is asked to register an address, to remove one or to look one up,
and gives an answer each time; the log of requests and answers says which addresses have been registered
and not removed since, and when each of them came. Main statement: after any requests to an empty table it
holds exactly those addresses, once each, in the order in which they came, and never more than its
capacity.
-/

namespace Mos6510.TrapTable

variable {η : Type}

/-- What a table can be asked to do. -/
inductive Request (η : Type) where
  | register (address : Address) (handler : η)
  | remove (address : Address)
  | lookUp (address : Address)

/-- The answer to a request, and the table afterwards. A registration is answered by whether there was
room, the other requests by whether the address was there. -/
def answer (table : TrapTable η) : Request η → Bool × TrapTable η
  | .register address handler =>
    match table.register? address handler with
    | some after => (true, after)
    | none => (false, table)
  | .remove address => (table.contains address, table.remove address)
  | .lookUp address => (table.contains address, table)

/-- The host of a machine is given the answers of its table. -/
theorem answer_eq_registerTrap {β ν : Type} (machine : Machine β ν) (address : Address)
    (handler : Handler β ν) :
    machine.traps.answer (.register address handler) =
      ((machine.registerTrap address handler).1,
        (machine.registerTrap address handler).2.traps) := by
  cases hRegister : machine.traps.register? address handler with
  | none => simp only [answer, Machine.registerTrap, hRegister, Machine.record]
  | some after => simp only [answer, Machine.registerTrap, hRegister]

theorem answer_eq_removeTrap {β ν : Type} (machine : Machine β ν) (address : Address) :
    machine.traps.answer (.remove address) =
      ((machine.removeTrap address).1, (machine.removeTrap address).2.traps) :=
  rfl

/-- A request with the answer that it was given. -/
structure Exchange (η : Type) where
  request : Request η
  answer : Bool

/-- A table with the log of what it has been asked, the earliest exchange first. -/
structure Session (η : Type) where
  log : List (Exchange η)
  table : TrapTable η

namespace Session

def ask (session : Session η) (request : Request η) : Session η :=
  let (answer, after) := session.table.answer request
  ⟨session.log ++ [⟨request, answer⟩], after⟩

/-- The session in which a new table is asked one thing after another. -/
def ofRequests (capacity : Nat) (requests : List (Request η)) : Session η :=
  requests.foldl ask ⟨[], empty capacity⟩

end Session

/-- The exchange is a registration of the address for which there was room. -/
def Exchange.Registers (exchange : Exchange η) (address : Address) : Prop :=
  ∃ handler, exchange = ⟨.register address handler, true⟩

/-- The address has been registered, with success, and has not been removed since. -/
def Kept (log : List (Exchange η)) (address : Address) : Prop :=
  ∃ earlier exchange later, log = earlier ++ exchange :: later ∧ exchange.Registers address ∧
    ∀ other ∈ later, other.request ≠ .remove address

/-- The address was registered at a place of the log when it was not kept, and has not been removed
since. -/
structure CameAt (log : List (Exchange η)) (address : Address) (place : Nat) : Prop where
  registers : ∃ exchange, log[place]? = some exchange ∧ exchange.Registers address
  new : ¬Kept (log.take place) address
  stays : ∀ other ∈ log.drop place, other.request ≠ .remove address

section

variable {log : List (Exchange η)} {exchange : Exchange η} {address : Address} {place : Nat}

/-- A registration takes no address away. -/
theorem Exchange.Registers.request_ne (h : exchange.Registers address) (other : Address) :
    exchange.request ≠ .remove other := by
  obtain ⟨handler, rfl⟩ := h
  exact fun hRequest => by cases hRequest

/-- An address is kept after an exchange if that has registered it, or if it was kept and is not
removed now. -/
theorem kept_concat_iff :
    Kept (log ++ [exchange]) address ↔
      exchange.Registers address ∨ Kept log address ∧ exchange.request ≠ .remove address := by
  constructor
  · rintro ⟨earlier, registration, later, hLog, hRegisters, hLater⟩
    rcases later.eq_nil_or_concat with rfl | ⟨later, last, rfl⟩
    · obtain ⟨_, rfl⟩ := List.append_inj' hLog rfl |>.imp_right List.singleton_inj.mp
      exact .inl hRegisters
    · rw [List.concat_eq_append, ← List.cons_append, ← List.append_assoc] at hLog
      obtain ⟨rfl, hLast⟩ := List.append_inj' hLog rfl
      cases List.singleton_inj.mp hLast
      rw [List.concat_eq_append, List.forall_mem_append, List.forall_mem_singleton] at hLater
      exact .inr ⟨⟨earlier, registration, later, rfl, hRegisters, hLater.1⟩, hLater.2⟩
  · rintro (hRegisters | ⟨⟨earlier, registration, later, rfl, hRegisters, hLater⟩, hExchange⟩)
    · exact ⟨log, exchange, [], rfl, hRegisters, by simp⟩
    · refine ⟨earlier, registration, later ++ [exchange], by simp, hRegisters, ?_⟩
      rw [List.forall_mem_append, List.forall_mem_singleton]
      exact ⟨hLater, hExchange⟩

/-- An address that has come stays where it came until it is removed. -/
theorem CameAt.concat (came : CameAt log address place)
    (h : exchange.request ≠ .remove address) : CameAt (log ++ [exchange]) address place := by
  obtain ⟨⟨registration, hPlace, hRegisters⟩, hNew, hStays⟩ := came
  obtain ⟨hBound, _⟩ := List.getElem?_eq_some_iff.mp hPlace
  refine ⟨⟨registration, by rw [List.getElem?_append_left hBound, hPlace], hRegisters⟩, ?_, ?_⟩
  · rwa [List.take_append_of_le_length (Nat.le_of_lt hBound)]
  · rw [List.drop_append_of_le_length (Nat.le_of_lt hBound), List.forall_mem_append,
      List.forall_mem_singleton]
    exact ⟨hStays, h⟩

/-- An address comes when it is registered and was not kept. -/
theorem cameAt_concat_of_registers (hRegisters : exchange.Registers address)
    (hNew : ¬Kept log address) : CameAt (log ++ [exchange]) address log.length := by
  refine ⟨⟨exchange, by simp, hRegisters⟩, by simpa using hNew, ?_⟩
  simpa using hRegisters.request_ne address

theorem CameAt.place_lt (came : CameAt log address place) : place < log.length := by
  obtain ⟨⟨_, hPlace, _⟩, _, _⟩ := came
  exact (List.getElem?_eq_some_iff.mp hPlace).1

end

/-- A registration replaces the handler of an address that is there, adds an address while there is room,
and is refused otherwise. -/
theorem answer_register_cases (table : TrapTable η) (address : Address) (handler : η) :
    (address ∈ table.addresses ∧
      table.answer (.register address handler) = (true, table.setSlot address (some handler))) ∨
    (address ∉ table.addresses ∧ table.size < table.capacity ∧
      table.answer (.register address handler) = (true, table.extend [(address, handler)])) ∨
    (address ∉ table.addresses ∧ table.capacity ≤ table.size ∧
      table.answer (.register address handler) = (false, table)) := by
  by_cases hMem : address ∈ table.addresses
  · have hReplaced := register?_eq_some_iff.mpr
      (.inl ⟨hMem, rfl⟩ : _ ∨ _ ∧ _ ∧ table.setSlot address (some handler) = _)
    exact .inl ⟨hMem, by simp only [answer, hReplaced]⟩
  · by_cases hRoom : table.size < table.capacity
    · have hAdded := register?_of_new handler hMem hRoom
      exact .inr (.inl ⟨hMem, hRoom, by simp only [answer, hAdded]⟩)
    · have hContains : table.contains address = false := by
        rwa [← Bool.not_eq_true, contains_iff_mem_addresses]
      have hRefused : table.register? address handler = none := by
        simp only [register?, hContains, Nat.not_lt.mp hRoom, if_true, Bool.false_eq_true, if_false]
      exact .inr (.inr ⟨hMem, Nat.not_lt.mp hRoom, by simp only [answer, hRefused]⟩)

theorem addresses_remove (table : TrapTable η) (address : Address) :
    (table.remove address).addresses = table.addresses.filter fun other => other != address := by
  simp only [addresses, remove, List.filter_map, Function.comp_def]

/-- A table holds the addresses that its log says, in the order in which they came. -/
structure Reflects (capacity : Nat) (session : Session η) : Prop where
  capacity_eq : session.table.capacity = capacity
  sound : session.table.Sound
  mem_iff : ∀ address, address ∈ session.table.addresses ↔ Kept session.log address
  ordered : ∃ place : Address → Nat,
    (∀ address ∈ session.table.addresses, CameAt session.log address (place address)) ∧
      session.table.addresses.Pairwise fun first second => place first < place second

namespace Reflects

variable {capacity : Nat} {log : List (Exchange η)} {table : TrapTable η}

theorem start (capacity : Nat) : Reflects capacity (⟨[], empty capacity⟩ : Session η) where
  capacity_eq := rfl
  sound := sound_empty capacity
  mem_iff address := by simp [empty, addresses, Kept]
  ordered := ⟨fun _ => 0, by simp [empty, addresses], List.Pairwise.nil⟩

/-- An exchange that neither adds nor removes an address changes nothing that the log tells. -/
theorem same (reflects : Reflects capacity ⟨log, table⟩) {after : TrapTable η}
    {exchange : Exchange η} (hCapacity : after.capacity = table.capacity) (hSound : after.Sound)
    (hAddresses : after.addresses = table.addresses)
    (hRegisters : ∀ address, exchange.Registers address → address ∈ table.addresses)
    (hRequest : ∀ address, exchange.request ≠ .remove address) :
    Reflects capacity ⟨log ++ [exchange], after⟩ := by
  obtain ⟨place, hCame, hOrder⟩ := reflects.ordered
  refine ⟨hCapacity.trans reflects.capacity_eq, hSound, fun address => ?_, place, ?_, ?_⟩
  · have hIff := reflects.mem_iff address
    rw [kept_concat_iff, hAddresses, ← hIff]
    exact ⟨fun h => .inr ⟨h, hRequest address⟩, fun h => h.elim (hRegisters address) And.left⟩
  · rw [hAddresses]
    exact fun address h => (hCame address h).concat (hRequest address)
  · rwa [hAddresses]

/-- A new address comes last. -/
theorem add (reflects : Reflects capacity ⟨log, table⟩) {address : Address} (handler : η)
    (hNew : address ∉ table.addresses) (hRoom : table.size < table.capacity) :
    Reflects capacity
      ⟨log ++ [⟨.register address handler, true⟩], table.extend [(address, handler)]⟩ := by
  have hRegisters : (⟨.register address handler, true⟩ : Exchange η).Registers address :=
    ⟨handler, rfl⟩
  have hNotKept : ¬Kept log address := fun h => hNew ((reflects.mem_iff address).mpr h)
  have hAddresses : (table.extend [(address, handler)]).addresses = table.addresses ++ [address] :=
    table.addresses_extend _
  have hElsewhere : ∀ other ∈ table.addresses, other ≠ address := fun other hOther hSame =>
    hNew (hSame ▸ hOther)
  obtain ⟨place, hCame, hOrder⟩ := reflects.ordered
  refine ⟨reflects.capacity_eq, reflects.sound.register? (register?_of_new handler hNew hRoom),
    fun other => ?_, Function.update place address log.length, ?_, ?_⟩
  · have hIff := reflects.mem_iff other
    rw [hAddresses, kept_concat_iff, List.mem_append, List.mem_singleton, ← hIff]
    constructor
    · rintro (hOther | rfl)
      · exact .inr ⟨hOther, hRegisters.request_ne other⟩
      · exact .inl hRegisters
    · rintro (⟨_, hOther⟩ | ⟨hOther, _⟩)
      · cases hOther
        exact .inr rfl
      · exact .inl hOther
  · rw [hAddresses, List.forall_mem_append, List.forall_mem_singleton]
    refine ⟨fun other hOther => ?_, ?_⟩
    · rw [Function.update_of_ne (hElsewhere other hOther)]
      exact (hCame other hOther).concat (hRegisters.request_ne other)
    · rw [Function.update_self]
      exact cameAt_concat_of_registers hRegisters hNotKept
  · rw [hAddresses, List.pairwise_append]
    refine ⟨hOrder.imp_of_mem fun {first second} hFirst hSecond h => ?_,
      List.pairwise_singleton _ _, ?_⟩
    · rwa [Function.update_of_ne (hElsewhere first hFirst),
        Function.update_of_ne (hElsewhere second hSecond)]
    · intro first hFirst second hSecond
      rw [List.mem_singleton.mp hSecond, Function.update_of_ne (hElsewhere first hFirst),
        Function.update_self]
      exact (hCame first hFirst).place_lt

/-- A removed address goes, and the others stay in their order. -/
theorem remove (reflects : Reflects capacity ⟨log, table⟩) (address : Address) (answer : Bool) :
    Reflects capacity ⟨log ++ [⟨.remove address, answer⟩], table.remove address⟩ := by
  have hRequest (other : Address) :
      (.remove address : Request η) ≠ .remove other ↔ other ≠ address := by
    rw [ne_eq, Request.remove.injEq, eq_comm]
  have hMem (other : Address) :
      other ∈ (table.remove address).addresses ↔ other ∈ table.addresses ∧ other ≠ address := by
    rw [addresses_remove, List.mem_filter, bne_iff_ne]
  obtain ⟨place, hCame, hOrder⟩ := reflects.ordered
  refine ⟨reflects.capacity_eq, reflects.sound.remove address, fun other => ?_, place, ?_, ?_⟩
  · have hIff := reflects.mem_iff other
    rw [hMem, kept_concat_iff, ← hIff, hRequest]
    refine ⟨.inr, fun h => h.resolve_left ?_⟩
    rintro ⟨_, hRegisters⟩
    cases hRegisters
  · intro other hOther
    obtain ⟨hBefore, hElsewhere⟩ := (hMem other).mp hOther
    exact (hCame other hBefore).concat ((hRequest other).mpr hElsewhere)
  · rw [addresses_remove]
    exact hOrder.filter _

/-- Whatever a table is asked, it keeps to its log. -/
theorem ask {session : Session η} (reflects : Reflects capacity session) (request : Request η) :
    Reflects capacity (session.ask request) := by
  obtain ⟨log, table⟩ := session
  cases request with
  | register address handler =>
      have hRequest (answer : Bool) (other : Address) :
          (⟨.register address handler, answer⟩ : Exchange η).request ≠ .remove other :=
        fun h => by cases h
      rcases table.answer_register_cases address handler with
        ⟨hMem, hAnswer⟩ | ⟨hNew, hRoom, hAnswer⟩ | ⟨hNew, hFull, hAnswer⟩ <;>
        simp only [Session.ask, hAnswer]
      · refine reflects.same rfl (reflects.sound.setSlot _ _) (table.addresses_setSlot _ _) ?_
          (hRequest true)
        rintro other ⟨_, hRegisters⟩
        cases hRegisters
        exact hMem
      · exact reflects.add handler hNew hRoom
      · refine reflects.same rfl reflects.sound rfl ?_ (hRequest false)
        rintro other ⟨_, hRegisters⟩
        cases hRegisters
  | remove address => exact reflects.remove address _
  | lookUp address =>
      refine reflects.same rfl reflects.sound rfl ?_ fun other h => by cases h
      rintro other ⟨_, hRegisters⟩
      cases hRegisters

end Reflects

/-- After any requests a table holds what its log says. -/
theorem reflects_ofRequests (capacity : Nat) (requests : List (Request η)) :
    Reflects capacity (Session.ofRequests capacity requests) := by
  suffices h : ∀ session : Session η, Reflects capacity session →
      Reflects capacity (requests.foldl Session.ask session) from h _ (.start capacity)
  intro session reflects
  induction requests generalizing session with
  | nil => exact reflects
  | cons request requests ih => exact ih _ (reflects.ask request)

theorem requests_log (capacity : Nat) (requests : List (Request η)) :
    (Session.ofRequests capacity requests).log.map Exchange.request = requests := by
  suffices h : ∀ session : Session η, (requests.foldl Session.ask session).log.map Exchange.request =
      session.log.map Exchange.request ++ requests from h _
  intro session
  induction requests generalizing session with
  | nil => exact (List.append_nil _).symm
  | cons request requests ih =>
      rw [List.foldl_cons, ih]
      simp [Session.ask]

section

variable {table : TrapTable η} {address : Address} {handler : η}

theorem contains_eq_false_iff : table.contains address = false ↔ address ∉ table.addresses := by
  rw [← Bool.not_eq_true, contains_iff_mem_addresses]

/-- The size of a table in which no address has two slots is the number of its addresses. -/
theorem Sound.size_eq (sound : table.Sound) :
    table.size = {address | table.contains address = true}.ncard := by
  have hSet : {address | table.contains address = true} = ↑table.addresses.toFinset := by
    ext address
    rw [Set.mem_ofPred_eq, contains_iff_mem_addresses, Finset.mem_coe, List.mem_toFinset]
  rw [hSet, Set.ncard_coe_finset, List.toFinset_card_of_nodup sound.distinct, length_addresses]

theorem isEmpty_iff : table.isEmpty = true ↔ ∀ address, table.contains address = false := by
  have hSlots : table.isEmpty = true ↔ table.addresses = [] := by
    rw [isEmpty, List.isEmpty_iff, addresses, List.map_eq_nil_iff]
  simp only [hSlots, contains_eq_false_iff, List.eq_nil_iff_forall_not_mem]

/-- A removal makes a table smaller exactly if the address was there. -/
theorem size_remove_lt_iff :
    (table.remove address).size < table.size ↔ table.contains address = true := by
  rw [← length_addresses, ← length_addresses, addresses_remove,
    List.length_filter_lt_length_iff_exists, contains_iff_mem_addresses]
  simp

theorem register?_of_answer (h : (table.answer (.register address handler)).1 = true) :
    table.register? address handler = some (table.answer (.register address handler)).2 := by
  cases hRegister : table.register? address handler with
  | none => simp only [answer, hRegister, Bool.false_eq_true] at h
  | some after => simp only [answer, hRegister]

/-- A registration is refused exactly if the address is new and the table is full. -/
theorem Sound.refused_iff (sound : table.Sound) :
    (table.answer (.register address handler)).1 = false ↔
      table.contains address = false ∧ table.size = table.capacity := by
  have hBound := sound.bounded
  rw [contains_eq_false_iff]
  rcases table.answer_register_cases address handler with
    ⟨hMem, hAnswer⟩ | ⟨hNew, hRoom, hAnswer⟩ | ⟨hNew, hFull, hAnswer⟩ <;> rw [hAnswer]
  · exact iff_of_false Bool.noConfusion fun h => h.1 hMem
  · exact iff_of_false Bool.noConfusion fun h => by omega
  · exact iff_of_true rfl ⟨hNew, by omega⟩

/-- A refused registration leaves the table as it is. -/
theorem answer_of_refused (h : (table.answer (.register address handler)).1 = false) :
    (table.answer (.register address handler)).2 = table := by
  rcases table.answer_register_cases address handler with
    ⟨_, hAnswer⟩ | ⟨_, _, hAnswer⟩ | ⟨_, _, hAnswer⟩ <;> rw [hAnswer] at h ⊢
  · cases h
  · cases h

/-- A registration that is granted adds the address at the end, unless it is there already. Then it
keeps its place and only the handler is new. -/
theorem addresses_of_accepted (h : (table.answer (.register address handler)).1 = true) :
    (table.answer (.register address handler)).2.addresses =
      if table.contains address then table.addresses else table.addresses ++ [address] := by
  rcases table.answer_register_cases address handler with
    ⟨hMem, hAnswer⟩ | ⟨hNew, _, hAnswer⟩ | ⟨_, _, hAnswer⟩ <;> rw [hAnswer] at h ⊢
  · rw [if_pos ((contains_iff_mem_addresses _ _).mpr hMem), addresses_setSlot]
  · rw [contains_eq_false_iff.mpr hNew, addresses_extend]
    rfl
  · cases h

end

/-- After any requests to an empty table, the table is a bounded map. No address has two slots, and there
are no more than the capacity allows; it contains the addresses that the log keeps, in the order in which
they came; and its size counts them. A further registration is refused exactly if the address is new and
the table is full, and then nothing changes. Else the handler is there, a new address comes last, and the
other slots stay. A removal tells whether the address was there, which is when the table gets smaller, and
takes out that address alone. -/
theorem session_boundedMap (capacity : Nat) (requests : List (Request η)) :
    let session := Session.ofRequests capacity requests
    let table := session.table
    session.log.map Exchange.request = requests ∧
    table.addresses.Nodup ∧ table.size ≤ capacity ∧
    (∀ address, table.contains address = true ↔ Kept session.log address) ∧
    (∃ place : Address → Nat,
      (∀ address ∈ table.addresses, CameAt session.log address (place address)) ∧
        table.addresses.Pairwise fun first second => place first < place second) ∧
    table.size = {address | table.contains address = true}.ncard ∧
    (table.isEmpty = true ↔ ∀ address, table.contains address = false) ∧
    (∀ address handler,
      let outcome := table.answer (.register address handler)
      (outcome.1 = false ↔ table.contains address = false ∧ table.size = capacity) ∧
      (outcome.1 = false → outcome.2 = table) ∧
      (outcome.1 = true →
        outcome.2.addresses =
          (if table.contains address then table.addresses else table.addresses ++ [address]) ∧
        ∀ other, outcome.2.slot? other =
          if other = address then some (some handler) else table.slot? other)) ∧
    (∀ address,
      let outcome := table.answer (.remove address)
      outcome.1 = table.contains address ∧
      (outcome.1 = true ↔ outcome.2.size < table.size) ∧
      outcome.2.addresses = table.addresses.erase address ∧
      ∀ other, outcome.2.slot? other = if other = address then none else table.slot? other) ∧
    ∀ address, table.answer (.lookUp address) = (table.contains address, table) := by
  intro session table
  have reflects : Reflects capacity session := reflects_ofRequests capacity requests
  have hCapacity : table.capacity = capacity := reflects.capacity_eq
  have sound : table.Sound := reflects.sound
  refine ⟨requests_log capacity requests, sound.distinct, hCapacity ▸ sound.bounded,
    fun address => ?_, reflects.ordered, sound.size_eq, isEmpty_iff, fun address handler => ?_,
    fun address => ⟨rfl, size_remove_lt_iff.symm, ?_, table.slot?_remove address⟩, fun _ => rfl⟩
  · rw [contains_iff_mem_addresses]
    exact reflects.mem_iff address
  · refine ⟨hCapacity ▸ sound.refused_iff, answer_of_refused, fun hAccepted => ?_⟩
    exact ⟨addresses_of_accepted hAccepted, slot?_of_register? (register?_of_answer hAccepted)⟩
  · rw [sound.distinct.erase_eq_filter]
    exact table.addresses_remove address

/-- A full table refuses a third address and takes it once there is room, behind the one that stays. -/
example :
    ((Session.ofRequests 2 [.register 1 'a', .register 2 'b', .register 3 'c', .remove 1,
      .register 2 'd', .register 3 'e']).log.map Exchange.answer,
     (Session.ofRequests 2 [.register 1 'a', .register 2 'b', .register 3 'c', .remove 1,
      .register 2 'd', .register 3 'e']).table.slots) =
      ([true, true, false, true, true, true], [(2, some 'd'), (3, some 'e')]) := by
  decide

end Mos6510.TrapTable
