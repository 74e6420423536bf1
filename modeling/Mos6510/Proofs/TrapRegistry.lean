import Mos6510.Proofs.Execution
import Mos6510.Proofs.TrapSlots
import Mos6510.Ram
import Mathlib.Logic.Function.Basic

/-!
Firing a trap does not change what is registered. The registry is what the host has been told about
its registrations and removals, whoever made them; a handler that runs has been taken out of the
table, and may register and remove handlers, its own address included, and step into others. Main
statement: at all times the table holds the registered handlers, save those whose own handler is
running, and the slots of those are filled again when the handlers end.
-/

namespace Mos6510

variable {β ν : Type}

/-- The handler that is registered at each address. -/
abbrev Registry (β ν : Type) := Address → Option (Handler β ν)

namespace Registry

variable [Bus β]

/-- The registry after the operation of a configuration. A registration counts if the host is told
that there was room. -/
def after (registry : Registry β ν) (configuration : Configuration β ν) : Registry β ν :=
  match configuration.program with
  | .register address handler _ =>
    if (configuration.machine.registerTrap address handler).1 then
      Function.update registry address (some handler)
    else registry
  | .remove address _ => Function.update registry address none
  | _ => registry

/-- The registry after the operations of a history, when nothing was registered before it. -/
def ofHistory : List (Configuration β ν) → Registry β ν
  | [] => fun _ => none
  | latest :: earlier => (ofHistory earlier).after latest

end Registry

/-- A slot holds the registered handler, or it is empty while that handler is the innermost one that
runs for the address. -/
def SlotAgrees {η : Type} (slot : Option (Option η)) (registered innermost : Option η) : Prop :=
  slot = registered.map some ∨ ∃ handler, slot = some none ∧ registered = some handler ∧
    innermost = some handler

/-- A sound table, every slot of which agrees with the registry. -/
structure Tracks (registry : Registry β ν) (machine : Machine β ν) : Prop where
  sound : machine.traps.Sound
  agrees : ∀ address, SlotAgrees (machine.traps.slot? address) (registry address)
    (machine.running.lookup address)

namespace Machine

variable {machine entered : Machine β ν} {program : Program β ν}

/-- Entering a trap empties the slot of the handler that is called. -/
theorem of_enterTrap? (h : machine.enterTrap? = some (program, entered)) :
    ∃ handler, machine.traps.slot? machine.processor.registers.pc = some (some handler) ∧
      program = handler machine.processor.registers.pc ∧
      entered.traps = machine.traps.setSlot machine.processor.registers.pc none ∧
      entered.running = (machine.processor.registers.pc, handler) :: machine.running := by
  obtain ⟨⟨handler, traps⟩, hTake, hEntered⟩ := Option.map_eq_some_iff.mp h
  cases hEntered
  obtain ⟨hSlot, rfl⟩ := TrapTable.take?_eq_some_iff.mp hTake
  exact ⟨handler, hSlot, rfl, rfl, rfl⟩

/-- The handler that ends is the one that was called last. -/
theorem running_leaveTrap (machine : Machine β ν) :
    machine.leaveTrap.running = machine.running.tail := by
  unfold leaveTrap
  split
  · next hRunning => rw [hRunning]; rfl
  · next hRunning => rw [hRunning]; rfl

theorem running_registerTrap (machine : Machine β ν) (address : Address) (handler : Handler β ν) :
    (machine.registerTrap address handler).2.running = machine.running := by
  unfold registerTrap
  split <;> rfl

theorem capacity_leaveTrap (machine : Machine β ν) :
    machine.leaveTrap.traps.capacity = machine.traps.capacity := by
  unfold leaveTrap
  split
  · rfl
  · simp only [record, TrapTable.restore]
    split <;> rfl

theorem capacity_registerTrap (machine : Machine β ν) (address : Address) (handler : Handler β ν) :
    (machine.registerTrap address handler).2.traps.capacity = machine.traps.capacity := by
  unfold registerTrap
  split
  · next traps hRoom =>
    rcases TrapTable.register?_eq_some_iff.mp hRoom with ⟨_, rfl⟩ | ⟨_, _, rfl⟩ <;> rfl
  · rfl

end Machine

namespace Tracks

section

variable {registry : Registry β ν} {machine other : Machine β ν}

/-- Whether a machine tracks a registry depends on its table and on the handlers that run. -/
theorem congr (tracks : Tracks registry machine) (hTraps : other.traps = machine.traps)
    (hRunning : other.running = machine.running) : Tracks registry other := by
  refine ⟨hTraps ▸ tracks.sound, fun address => ?_⟩
  rw [hTraps, hRunning]
  exact tracks.agrees address

/-- A call empties a slot, and its handler is then the innermost one that runs for the address. -/
theorem enter {entered : Machine β ν} {program : Program β ν} (tracks : Tracks registry machine)
    (h : machine.enterTrap? = some (program, entered)) : Tracks registry entered := by
  obtain ⟨handler, hSlot, _, hTraps, hRunning⟩ := Machine.of_enterTrap? h
  refine ⟨hTraps ▸ tracks.sound.setSlot _ none, fun address => ?_⟩
  rw [hTraps, hRunning, TrapTable.slot?_setSlot]
  have hAgrees := tracks.agrees address
  split
  · next hHere =>
    subst hHere
    rw [hSlot] at hAgrees ⊢
    rcases hAgrees with hFull | ⟨_, hEmpty, _⟩
    · obtain ⟨registered, hRegistered, hEq⟩ := Option.map_eq_some_iff.mp hFull.symm
      cases hEq
      exact .inr ⟨handler, rfl, hRegistered, by simp⟩
    · cases hEmpty
  · next hElsewhere =>
    rwa [List.lookup_cons, beq_eq_false_iff_ne.mpr hElsewhere]

/-- When a handler ends, its slot is empty only if nothing has been registered there since, and then
it is the registered handler itself that comes back. -/
theorem leave (tracks : Tracks registry machine) : Tracks registry machine.leaveTrap := by
  unfold Machine.leaveTrap
  split
  · exact tracks
  · next address handler outer hRunning =>
    refine ⟨tracks.sound.restore address handler, fun other => ?_⟩
    have hAgrees := tracks.agrees other
    simp only [Machine.record, TrapTable.slot?_restore]
    rw [hRunning, List.lookup_cons] at hAgrees
    split
    · next hHere =>
      subst hHere
      left
      rcases hAgrees with hFull | ⟨registered, hEmpty, hRegistered, hInnermost⟩
      · rw [hFull]
        cases registry other <;> rfl
      · rw [beq_self_eq_true] at hInnermost
        cases hInnermost
        rw [hEmpty, hRegistered]
        rfl
    · next hElsewhere => rwa [beq_eq_false_iff_ne.mpr hElsewhere] at hAgrees

/-- A registration that is accepted replaces the handler of its address in both, while one that is
refused changes neither. -/
theorem register (tracks : Tracks registry machine) (address : Address) (handler : Handler β ν) :
    Tracks (if (machine.registerTrap address handler).1 then
        Function.update registry address (some handler) else registry)
      (machine.registerTrap address handler).2 := by
  unfold Machine.registerTrap
  split
  · next traps hRoom =>
    refine ⟨tracks.sound.register? hRoom, fun other => ?_⟩
    rw [if_pos rfl, TrapTable.slot?_of_register? hRoom, Function.update_apply]
    split
    · exact .inl rfl
    · exact tracks.agrees other
  · exact tracks.congr rfl rfl

/-- A removal takes the address from both, also while its handler runs. -/
theorem remove (tracks : Tracks registry machine) (address : Address) :
    Tracks (Function.update registry address none) (machine.removeTrap address).2 := by
  refine ⟨tracks.sound.remove address, fun other => ?_⟩
  simp only [Machine.removeTrap, TrapTable.slot?_remove, Function.update_apply]
  split
  · exact .inl rfl
  · exact tracks.agrees other

variable [Bus β]

/-- A step begins by calling a handler or by carrying out an instruction, and neither concerns the
registry. -/
theorem beginStep (tracks : Tracks registry machine) (resume : Nat → Program β ν)
    (waiting : List (Nat → Program β ν)) :
    Tracks registry (Configuration.beginStep machine resume waiting).machine := by
  unfold Configuration.beginStep
  split
  · exact tracks.congr rfl rfl
  · split
    · exact tracks.congr rfl rfl
    · next hEnter => exact tracks.enter hEnter

/-- Every transition keeps the table in step with the registry. -/
theorem next {before after : Configuration β ν} (tracks : Tracks registry before.machine)
    (h : before.next? = some after) : Tracks (registry.after before) after.machine := by
  obtain ⟨machine, program, waiting⟩ := before
  cases program with
  | done =>
      cases waiting with
      | nil => cases h
      | cons resume waiting =>
          cases h
          exact tracks.leave.congr rfl rfl
  | look next => cases h; exact tracks
  | survey next => cases h; exact tracks
  | note entry next => cases h; exact tracks.congr rfl rfl
  | change operation next => cases h; exact tracks.congr rfl rfl
  | setTracing on next => cases h; exact tracks.congr rfl rfl
  | setSink on next => cases h; exact tracks.congr rfl rfl
  | step resume => cases h; exact tracks.beginStep resume waiting
  | stepWhile condition next =>
      rw [Configuration.next?] at h
      split at h <;> cases h <;> exact tracks
  | register address handler next => cases h; exact tracks.register address handler
  | remove address next => cases h; exact tracks.remove address

/-- The table of a new machine is empty, and so is the registry. -/
theorem powerOn (setup : Setup) (bus : β) :
    Tracks (Registry.ofHistory []) (Machine.powerOn setup bus : Machine β ν) :=
  ⟨TrapTable.sound_empty setup.trapCapacity, fun _ => .inl rfl⟩

end

variable {registry : Registry β ν} {machine : Machine β ν} {address : Address}
  {handler : Handler β ν}

/-- While no handler runs the table is the registry. -/
theorem slot?_of_idle (tracks : Tracks registry machine) (hIdle : machine.running = [])
    (address : Address) : machine.traps.slot? address = (registry address).map some := by
  rcases tracks.agrees address with hFull | ⟨_, _, _, hInnermost⟩
  · exact hFull
  · rw [hIdle] at hInnermost
    cases hInnermost

theorem exists_of_mem_of_idle (tracks : Tracks registry machine) (hIdle : machine.running = [])
    {slot : Address × Option (Handler β ν)} (h : slot ∈ machine.traps.slots) :
    ∃ handler, slot.2 = some handler := by
  have hSlot := (tracks.sound.slot?_of_mem h).symm.trans (tracks.slot?_of_idle hIdle slot.1)
  obtain ⟨handler, _, hHandler⟩ := Option.map_eq_some_iff.mp hSlot.symm
  exact ⟨handler, hHandler.symm⟩

/-- An empty slot belongs to a handler that runs and is still registered. -/
theorem running_of_empty (tracks : Tracks registry machine)
    (hEmpty : machine.traps.slot? address = some none) :
    ∃ handler, (address, handler) ∈ machine.running ∧ registry address = some handler := by
  rcases tracks.agrees address with hFull | ⟨handler, _, hRegistered, hInnermost⟩
  · rw [hEmpty] at hFull
    obtain ⟨_, _, hNone⟩ := Option.map_eq_some_iff.mp hFull.symm
    cases hNone
  · obtain ⟨inner, outer, hRunning, _⟩ := List.lookup_eq_some_iff.mp hInnermost
    exact ⟨handler, by simp [hRunning], hRegistered⟩

/-- A handler that waits is the registered one. -/
theorem registered_of_full (tracks : Tracks registry machine)
    (hFull : machine.traps.slot? address = some (some handler)) : registry address = some handler := by
  rcases tracks.agrees address with hAgrees | ⟨_, hEmpty, _⟩
  · rw [hFull] at hAgrees
    obtain ⟨registered, hRegistered, hEq⟩ := Option.map_eq_some_iff.mp hAgrees.symm
    cases hEq
    exact hRegistered
  · rw [hFull] at hEmpty
    cases hEmpty

/-- The table has a slot exactly for the addresses that are registered. -/
theorem contains_eq_isSome (tracks : Tracks registry machine) (address : Address) :
    machine.traps.contains address = (registry address).isSome := by
  rw [TrapTable.contains_eq_isSome_slot?]
  rcases tracks.agrees address with hAgrees | ⟨_, hEmpty, hRegistered, _⟩
  · rw [hAgrees, Option.isSome_map]
  · rw [hEmpty, hRegistered]
    rfl

/-- When a handler ends, the slot of its address has again what is registered, be that a new handler
or nothing. -/
theorem slot?_leaveTrap (tracks : Tracks registry machine) {outer : List (Address × Handler β ν)}
    (hRunning : machine.running = (address, handler) :: outer) :
    machine.leaveTrap.traps.slot? address = (registry address).map some := by
  rcases tracks.leave.agrees address with hAgrees | ⟨_, hEmpty, _⟩
  · exact hAgrees
  · simp only [Machine.leaveTrap, hRunning, Machine.record, TrapTable.slot?_restore, if_true] at hEmpty
    obtain ⟨_, _, hNone⟩ := Option.map_eq_some_iff.mp hEmpty
    cases hNone

end Tracks

/-- The capacity of the table is fixed when the machine is set up. -/
theorem Machine.capacity_of_moves [Bus β] {before after : Machine β ν} (moves : Moves before after) :
    after.traps.capacity = before.traps.capacity := by
  induction moves with
  | refl => rfl
  | tail _ move ih =>
      rw [← ih]
      cases move with
      | enter entered handler hEnter =>
          obtain ⟨_, _, _, hTraps, _⟩ := of_enterTrap? hEnter
          rw [hTraps]
          rfl
      | leave => exact capacity_leaveTrap _
      | register address handler => exact capacity_registerTrap _ address handler
      | _ => rfl

namespace Configuration

variable [Bus β] {before after : Configuration β ν}

/-- As many handlers run as steps wait for one. -/
def Nested (configuration : Configuration β ν) : Prop :=
  configuration.machine.running.length = configuration.waiting.length

theorem Nested.beginStep {machine : Machine β ν} {waiting : List (Nat → Program β ν)}
    (nested : machine.running.length = waiting.length) (resume : Nat → Program β ν) :
    (Configuration.beginStep machine resume waiting).Nested := by
  unfold Configuration.beginStep
  split
  · exact nested
  · split
    · exact nested
    · next hEnter =>
      obtain ⟨_, _, _, _, hRunning⟩ := Machine.of_enterTrap? hEnter
      simp only [Nested, hRunning, List.length_cons, nested]

/-- Each transition that calls a handler makes a step wait, and each that ends one completes the
latest. -/
theorem Nested.next (nested : before.Nested) (h : before.next? = some after) : after.Nested := by
  obtain ⟨machine, program, waiting⟩ := before
  cases program with
  | done =>
      cases waiting with
      | nil => cases h
      | cons resume waiting =>
          cases h
          change machine.leaveTrap.running.length = waiting.length
          rw [machine.running_leaveTrap, List.length_tail, nested]
          rfl
  | step resume => cases h; exact Nested.beginStep nested resume
  | stepWhile condition next =>
      rw [next?] at h
      split at h <;> cases h <;> exact nested
  | register address handler next =>
      cases h
      change (machine.registerTrap address handler).2.running.length = waiting.length
      rw [machine.running_registerTrap]
      exact nested
  | _ => cases h; exact nested

end Configuration

namespace Execution

variable [Bus β] {setup : Setup} {bus : β} {program : Program β ν}
  {history : List (Configuration β ν)} {last : Configuration β ν}

/-- The table keeps in step with the registry wherever an execution is looked at. -/
theorem tracks (run : Execution (.powerOn setup bus program) history last) :
    Tracks (Registry.ofHistory history) last.machine := by
  induction run with
  | refl => exact Tracks.powerOn setup bus
  | next prior hNext ih => exact ih.next hNext

theorem nested (run : Execution (.powerOn setup bus program) history last) : last.Nested := by
  induction run with
  | refl => rfl
  | next prior hNext ih => exact ih.next hNext

/-- Firing traps leaves what is registered alone, whatever the handlers do. Without a running handler
the table is the registry. While handlers run, a slot is empty only if the handler registered there
is among them; a handler in a slot is always the registered one; and the slot of a handler that ends
is left as the registry has it. There are never more slots than the capacity allows. -/
theorem table_eq_registry (run : Execution (.powerOn setup bus program) history last) :
    (last.machine.running = [] →
      (∀ address, last.machine.traps.slot? address =
        (Registry.ofHistory history address).map some) ∧
      ∀ slot ∈ last.machine.traps.slots, ∃ handler, slot.2 = some handler) ∧
    (∀ address, last.machine.traps.slot? address = some none →
      ∃ handler, (address, handler) ∈ last.machine.running ∧
        Registry.ofHistory history address = some handler) ∧
    (∀ address handler, last.machine.traps.slot? address = some (some handler) →
      Registry.ofHistory history address = some handler) ∧
    (∀ address, last.machine.traps.contains address =
      (Registry.ofHistory history address).isSome) ∧
    (∀ address handler outer, last.machine.running = (address, handler) :: outer →
      last.machine.leaveTrap.traps.slot? address =
        (Registry.ofHistory history address).map some) ∧
    last.machine.traps.addresses.Nodup ∧ last.machine.traps.size ≤ setup.trapCapacity ∧
    last.machine.running.length = last.waiting.length := by
  have tracks := run.tracks
  refine ⟨fun hIdle => ⟨tracks.slot?_of_idle hIdle, fun _ h => tracks.exists_of_mem_of_idle hIdle h⟩,
    fun _ hEmpty => tracks.running_of_empty hEmpty,
    fun _ _ hFull => tracks.registered_of_full hFull, tracks.contains_eq_isSome,
    fun _ _ _ hRunning => tracks.slot?_leaveTrap hRunning, tracks.sound.distinct, ?_, run.nested⟩
  have hCapacity : last.machine.traps.capacity = setup.trapCapacity :=
    Machine.capacity_of_moves run.moves
  rw [← hCapacity]
  exact tracks.sound.bounded

def idleHandler : Handler Ram Empty := fun _ => .done

/-- A handler that puts another one in its place and then steps at its own address. -/
def renewingHandler : Handler Ram Empty := fun address =>
  .register address idleHandler fun _ => .step fun _ => .done

/-- The handler that has taken the place of the one below it is run from there, comes back when it
ends, and is still there when the one that it replaced ends too. -/
theorem table_eq_registry_of_renewal :
    ∃ history last,
      Execution (.powerOn { trapCapacity := 1 } Ram.zero
        (.register 0 renewingHandler fun _ => .step fun _ => .done)) history last ∧
      history.length = 6 ∧ last.machine.running = [] ∧
      Registry.ofHistory history 0 = some idleHandler ∧
      last.machine.traps.slot? 0 = some (some idleHandler) := by
  have run : Execution (.powerOn { trapCapacity := 1 } Ram.zero
      (.register 0 renewingHandler fun _ => .step fun _ => .done)) _ _ :=
    .next (.next (.next (.next (.next (.next .refl rfl) rfl) rfl) rfl) rfl) rfl
  refine ⟨_, _, run, rfl, rfl, rfl, ?_⟩
  exact (run.table_eq_registry.1 rfl).1 0

end Execution

end Mos6510
