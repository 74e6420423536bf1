import Mos6510.Proofs.Arbitration
import Mos6510.Proofs.RegisterFrame
import Mos6510.Proofs.Stalling
import Mos6510.Proofs.Tracing

/-!
Halts. One operation stops the instruction stream, and a reset or the entry into an interrupt handler gets
it going again. Main statement: wherever a run is looked at, the processor is halted exactly if such an
instruction has been carried out since the latest reset and the latest service; the warning is logged by
the transitions that halt a running processor and by no other; and a halted processor stays on the
instruction, for two cycles a step, until there is an interrupt to service, which comes back to it.
-/

namespace Mos6510

variable {β ν : Type}

namespace Event

/-- Whether an event tells of an instruction that halts the processor. -/
def halts : Event ν → Bool
  | .executed _ opcode _ => decide ((Opcode.ofByte opcode).mnemonic = .jam)
  | _ => false

/-- Whether an event gets a halted processor going again. -/
def revives : Event ν → Bool
  | .reset _ | .serviced _ _ _ => true
  | _ => false

/-- The warning of a halt that an event is reported as, if it is one. -/
def haltWarning? : Event ν → Option (Severity × String)
  | .jammed opcode address => (jammed opcode address : Event ν).message?
  | _ => none

/-- An event has nothing to do with halts. -/
def IsUnrelated (event : Event ν) : Prop :=
  event.halts = false ∧ event.revives = false ∧ event.haltWarning? = none

theorem IsPassive.isUnrelated {event : Event ν} (h : event.IsPassive) : event.IsUnrelated := by
  cases event <;> first | exact ⟨rfl, rfl, rfl⟩ | exact h.elim

end Event

/-- The warnings of a halt among some events, as they are logged. -/
def haltWarnings (events : List (Event ν)) : List (Severity × String) :=
  events.filterMap Event.haltWarning?

/-- The warning that the instruction at the program counter has halted the processor. -/
def Processor.haltWarning [Bus β] (processor : Processor β) : Severity × String :=
  (.warning, "JAM $" ++ String.ofList (Hexadecimal.byte processor.opcodeByte) ++ " at " ++
    Event.place processor.registers.pc ++ ": CPU halted")

/-- An instruction that halts has been carried out since the latest reset and the latest entry into an
interrupt handler. -/
def HaltedSince (journal : List (Event ν)) : Prop :=
  ∃ later event earlier, journal = later ++ event :: earlier ∧ event.halts = true ∧
    ∀ other ∈ later, other.revives = false

/-- Read from its latest event on, a journal tells of a halt if that event does, or if it does not
end one that was told of before. -/
theorem haltedSince_cons_iff {event : Event ν} {journal : List (Event ν)} :
    HaltedSince (event :: journal) ↔
      event.halts = true ∨ (event.revives = false ∧ HaltedSince journal) := by
  constructor
  · rintro ⟨later, halting, earlier, hJournal, hHalts, hLater⟩
    cases later with
    | nil =>
        cases hJournal
        exact .inl hHalts
    | cons latest later =>
        cases hJournal
        exact .inr ⟨hLater event (by simp), later, halting, earlier, rfl, hHalts,
          fun other h => hLater other (by simp [h])⟩
  · rintro (hHalts | ⟨hEvent, later, halting, earlier, rfl, hHalts, hLater⟩)
    · exact ⟨[], event, journal, rfl, hHalts, by simp⟩
    · refine ⟨event :: later, halting, earlier, rfl, hHalts, fun other h => ?_⟩
      rcases List.mem_cons.mp h with rfl | h
      · exact hEvent
      · exact hLater other h

/-- Events that neither halt nor revive leave the halt as it was. -/
theorem haltedSince_append_iff {events journal : List (Event ν)}
    (h : ∀ event ∈ events, event.halts = false ∧ event.revives = false) :
    HaltedSince (events ++ journal) ↔ HaltedSince journal := by
  induction events with
  | nil => rfl
  | cons event events ih =>
      obtain ⟨hHalts, hRevives⟩ := h event (by simp)
      rw [List.cons_append, haltedSince_cons_iff, ih fun other hOther => h other (by simp [hOther])]
      simp [hHalts, hRevives]

theorem haltWarnings_of_unrelated {events : List (Event ν)}
    (h : ∀ event ∈ events, event.IsUnrelated) : haltWarnings events = [] :=
  List.filterMap_eq_nil_iff.mpr fun event hEvent => (h event hEvent).2.2

namespace Machine

variable {before after : Machine β ν}

/-- What happens between two machines has nothing to do with halts. -/
def KeepsHalt (before after : Machine β ν) : Prop :=
  ∃ events, after.journal = events ++ before.journal ∧ (∀ event ∈ events, event.IsUnrelated) ∧
    after.processor.jammed = before.processor.jammed

/-- What happens between two machines ends with an event that gets the processor going. -/
def Revives (before after : Machine β ν) : Prop :=
  ∃ event events, after.journal = event :: events ++ before.journal ∧ event.revives = true ∧
    event.halts = false ∧ event.haltWarning? = none ∧ (∀ event ∈ events, event.IsUnrelated) ∧
    after.processor.jammed = false

theorem KeepsHalt.of_eq (hJournal : after.journal = before.journal)
    (hJammed : after.processor.jammed = before.processor.jammed) : before.KeepsHalt after :=
  ⟨[], hJournal, by simp, hJammed⟩

theorem KeepsHalt.of_event {event : Event ν} (hJournal : after.journal = event :: before.journal)
    (hEvent : event.IsUnrelated) (hJammed : after.processor.jammed = before.processor.jammed) :
    before.KeepsHalt after :=
  ⟨[event], hJournal, by simpa using hEvent, hJammed⟩

theorem KeepsHalt.leaveTrap (machine : Machine β ν) : machine.KeepsHalt machine.leaveTrap := by
  unfold Machine.leaveTrap
  split
  · exact .of_eq rfl rfl
  · exact .of_event rfl ⟨rfl, rfl, rfl⟩ rfl

theorem KeepsHalt.registerTrap (machine : Machine β ν) (address : Address) (handler : Handler β ν) :
    machine.KeepsHalt (machine.registerTrap address handler).2 := by
  unfold Machine.registerTrap
  split
  · exact .of_eq rfl rfl
  · exact .of_event rfl ⟨rfl, rfl, rfl⟩ rfl

/-- A handler that is called finds the processor as halted or running as it was. -/
theorem KeepsHalt.enterTrap? {machine entered : Machine β ν} {handler : Program β ν}
    (h : machine.enterTrap? = some (handler, entered)) : machine.KeepsHalt entered := by
  obtain ⟨_, _, hEntered⟩ := Option.map_eq_some_iff.mp h
  cases hEntered
  exact .of_event rfl ⟨rfl, rfl, rfl⟩ rfl

variable [Bus β]

/-- Every interrupt that is serviced gets the processor going, and the bytes that it pushes concern
no halt. -/
theorem Revives.service (machine : Machine β ν) (kind : Interrupt) :
    machine.Revives (machine.service kind) := by
  obtain ⟨target, pushed, _, hJournal, hPassive, _⟩ := journal_service machine kind
  exact ⟨_, pushed, hJournal, rfl, rfl, rfl, fun event h => (hPassive event h).isUnrelated, rfl⟩

/-- Of the changes that a host can make only a reset gets the processor going. -/
theorem keepsHalt_or_revives_change (machine : Machine β ν) (operation : Change β) :
    machine.KeepsHalt (machine.change operation) ∨ machine.Revives (machine.change operation) := by
  cases operation with
  | registers update => exact .inl (.of_eq rfl rfl)
  | driveNmi level => exact .inl (.of_event rfl ⟨rfl, rfl, rfl⟩ rfl)
  | driveIrq level => exact .inl (.of_eq rfl rfl)
  | write address value => exact .inl (.of_event rfl ⟨rfl, rfl, rfl⟩ rfl)
  | bus update => exact .inl (.of_eq rfl rfl)
  | reset => exact .inr ⟨_, [], rfl, rfl, rfl, rfl, by simp, rfl⟩

/-- The events of an instruction tell of a halt if it halts, and warn of it if the processor was running. -/
theorem exists_journal_execute (machine : Machine β ν) :
    ∃ events, machine.execute.journal = events ++ machine.journal ∧
      (HaltedSince machine.execute.journal ↔
        machine.processor.opcode.mnemonic = .jam ∨ HaltedSince machine.journal) ∧
      haltWarnings events =
        if machine.processor.opcode.mnemonic = .jam ∧ machine.processor.jammed = false then
          [machine.processor.haltWarning]
        else [] := by
  obtain ⟨passive, hPassive, hJournal⟩ := journal_execute machine
  have hUnrelated : ∀ event ∈ passive, event.IsUnrelated := fun event h =>
    (hPassive event h).isUnrelated
  have hHalts : machine.processor.effect.halts =
      decide (machine.processor.opcode.mnemonic = .jam) := Opcode.halts_effect_eq _ _ _
  rw [hHalts] at hJournal
  refine ⟨_, hJournal, ?_, ?_⟩
  · rw [hJournal, List.cons_append, List.cons_append, haltedSince_cons_iff, List.append_assoc,
      haltedSince_append_iff, haltedSince_append_iff fun event h => (hUnrelated event h).imp_right And.left]
    · simp [Event.halts, Event.revives, Processor.opcode]
    · intro event h
      split at h
      · rw [List.mem_singleton.mp h]
        exact ⟨rfl, rfl⟩
      · cases h
  · have hNone : passive.filterMap Event.haltWarning? = [] := haltWarnings_of_unrelated hUnrelated
    rw [haltWarnings, List.filterMap_append, hNone, List.append_nil]
    by_cases hJam : machine.processor.opcode.mnemonic = .jam <;>
      cases machine.processor.jammed <;> simp [hJam] <;> rfl

end Machine

namespace Configuration

open Machine

variable [Bus β] {before after : Configuration β ν}

/-- A step either carries out an instruction, which alone can halt, or keeps the halt or revives. -/
theorem beginStep_halt_cases (machine : Machine β ν) (resume : Nat → Program β ν)
    (waiting : List (Nat → Program β ν)) :
    (executing? ⟨machine, .step resume, waiting⟩ = some machine.processor ∧
        (beginStep machine resume waiting).machine = machine.execute) ∨
      (executing? ⟨machine, .step resume, waiting⟩ = none ∧
        (machine.KeepsHalt (beginStep machine resume waiting).machine ∨
          machine.Revives (beginStep machine resume waiting).machine)) := by
  cases hPending : machine.processor.pendingInterrupt with
  | some kind =>
      simp only [beginStep_service hPending, executing?, hPending]
      exact .inr ⟨trivial, .inr (.service machine kind)⟩
  | none =>
      cases hEnter : machine.enterTrap? with
      | none =>
          simp only [beginStep_execute hPending hEnter, executing?, hPending, hEnter]
          exact .inl ⟨trivial, trivial⟩
      | some called =>
          simp only [beginStep_enter hPending hEnter, executing?, hPending, hEnter]
          exact .inr ⟨trivial, .inl (.enterTrap? hEnter)⟩

/-- A transition carries out an instruction, before which nothing happens that concerns halts, or it gets
the processor going, or nothing happens that concerns halts. -/
theorem halt_cases_of_next? (h : before.next? = some after) :
    (∃ ready, before.executing? = some ready.processor ∧ before.machine.KeepsHalt ready ∧
        after.machine = ready.execute) ∨
      (before.executing? = none ∧
        (before.machine.KeepsHalt after.machine ∨ before.machine.Revives after.machine)) := by
  obtain ⟨machine, program, waiting⟩ := before
  cases program with
  | done =>
      cases waiting with
      | nil => cases h
      | cons resume waiting =>
          cases h
          exact .inl ⟨machine.leaveTrap, rfl, .leaveTrap machine, rfl⟩
  | note entry next => cases h; exact .inr ⟨rfl, .inl (.of_event rfl ⟨rfl, rfl, rfl⟩ rfl)⟩
  | change operation next => cases h; exact .inr ⟨rfl, machine.keepsHalt_or_revives_change operation⟩
  | step resume =>
      cases h
      rcases beginStep_halt_cases machine resume waiting with ⟨hExecuting, hAfter⟩ | hOther
      · exact .inl ⟨machine, hExecuting, .of_eq rfl rfl, hAfter⟩
      · exact .inr hOther
  | stepWhile condition next =>
      rw [next?] at h
      split at h <;> cases h <;> exact .inr ⟨rfl, .inl (.of_eq rfl rfl)⟩
  | register address handler next =>
      cases h
      exact .inr ⟨rfl, .inl (.registerTrap machine address handler)⟩
  | _ => cases h; exact .inr ⟨rfl, .inl (.of_eq rfl rfl)⟩

end Configuration

namespace Machine

variable {before after : Machine β ν}

/-- A processor is halted exactly if the journal of its machine says so. -/
def HaltAgrees (machine : Machine β ν) : Prop :=
  machine.processor.jammed = true ↔ HaltedSince machine.journal

/-- What keeps the halt does not make processor and journal disagree. -/
theorem KeepsHalt.agrees (keeps : before.KeepsHalt after) (hBefore : before.HaltAgrees) :
    after.HaltAgrees := by
  obtain ⟨events, hJournal, hUnrelated, hJammed⟩ := keeps
  rw [HaltAgrees, hJournal, hJammed,
    haltedSince_append_iff fun event h => (hUnrelated event h).imp_right And.left]
  exact hBefore

/-- Processor and journal agree after whatever revives, even if they did not before. -/
theorem Revives.agrees (revives : before.Revives after) : after.HaltAgrees := by
  obtain ⟨event, events, hJournal, hRevives, hHalts, _, _, hJammed⟩ := revives
  rw [HaltAgrees, hJournal, hJammed, List.cons_append, haltedSince_cons_iff]
  simp [hRevives, hHalts]

/-- An instruction that halts is in the journal, and any other leaves both as they were. -/
theorem HaltAgrees.execute [Bus β] {machine : Machine β ν} (hMachine : machine.HaltAgrees) :
    machine.execute.HaltAgrees := by
  obtain ⟨_, _, hHalted, _⟩ := machine.exists_journal_execute
  have hJammed : machine.execute.processor.jammed = _ := machine.processor.jammed_execute
  have hWas : machine.processor.jammed = true ↔ HaltedSince machine.journal := hMachine
  rw [HaltAgrees, hHalted, ← hWas, hJammed, Bool.or_eq_true, decide_eq_true_iff, or_comm]

end Machine

namespace Configuration

variable [Bus β] {before after : Configuration β ν}

/-- Processor and journal agree about the halt after each transition if they did before it. -/
theorem haltAgrees_of_next? (h : before.next? = some after) (hBefore : before.machine.HaltAgrees) :
    after.machine.HaltAgrees := by
  rcases halt_cases_of_next? h with ⟨ready, _, hKeeps, hAfter⟩ | ⟨_, hKeeps | hRevives⟩
  · rw [hAfter]
    exact (hKeeps.agrees hBefore).execute
  · exact hKeeps.agrees hBefore
  · exact hRevives.agrees

/-- The next transition halts a running processor. -/
def Halts (before after : Configuration β ν) : Prop :=
  before.machine.processor.jammed = false ∧ after.machine.processor.jammed = true

/-- A transition that halts a running processor warns of it once, and no other transition warns. -/
theorem haltWarnings_of_next? (h : before.next? = some after) :
    ∃ events, after.machine.journal = events ++ before.machine.journal ∧
      (before.Halts after → ∃ processor, before.executing? = some processor ∧
        processor.opcode.mnemonic = .jam ∧ haltWarnings events = [processor.haltWarning]) ∧
      (¬before.Halts after → haltWarnings events = []) := by
  rcases halt_cases_of_next? h with
    ⟨ready, hExecuting, ⟨quiet, hQuiet, hUnrelated, hReady⟩, hAfter⟩ |
    ⟨_, ⟨quiet, hQuiet, hUnrelated, hSame⟩ |
      ⟨event, quiet, hQuiet, _, _, hEvent, hUnrelated, hRunning⟩⟩
  -- only an instruction can halt, and what comes before it in the transition leaves the halt as it was
  · obtain ⟨events, hJournal, _, hWarnings⟩ := ready.exists_journal_execute
    have hJammed : ready.execute.processor.jammed = _ := ready.processor.jammed_execute
    have hAll : haltWarnings (events ++ quiet) = haltWarnings events := by
      rw [haltWarnings, List.filterMap_append]
      exact (congrArg _ (haltWarnings_of_unrelated hUnrelated)).trans (List.append_nil _)
    have hHalts : before.Halts after ↔
        ready.processor.opcode.mnemonic = .jam ∧ ready.processor.jammed = false := by
      rw [Halts, hAfter, hJammed, ← hReady, and_comm, and_congr_left_iff]
      intro hWas
      simp [hWas]
    refine ⟨events ++ quiet, by rw [hAfter, hJournal, hQuiet, List.append_assoc], fun hHalt => ?_,
      fun hNone => ?_⟩
    · refine ⟨ready.processor, hExecuting, (hHalts.mp hHalt).1, ?_⟩
      rw [hAll, hWarnings, if_pos (hHalts.mp hHalt)]
    · rw [hAll, hWarnings, if_neg (mt hHalts.mpr hNone)]
  · refine ⟨quiet, hQuiet, fun hHalt => ?_, fun _ => haltWarnings_of_unrelated hUnrelated⟩
    rw [Halts, hSame] at hHalt
    exact absurd hHalt.1 (by simp [hHalt.2])
  · refine ⟨event :: quiet, hQuiet, fun hHalt => ?_, fun _ => ?_⟩
    · rw [Halts, hRunning] at hHalt
      cases hHalt.2
    · rw [haltWarnings, List.filterMap_cons_none hEvent]
      exact haltWarnings_of_unrelated hUnrelated

end Configuration

theorem Opcode.cycles_of_halt : ∀ byte, (ofByte byte).mnemonic = .jam → (ofByte byte).cycles = 2 :=
  @forall_ofByte (fun opcode => opcode.mnemonic = .jam → opcode.cycles = 2) (by decide +kernel)

namespace Processor

variable [Bus β] {processor : Processor β}

/-- An instruction that halts changes no register, not even the program counter, and writes
nothing. -/
theorem effect_of_halt (h : processor.opcode.mnemonic = .jam) :
    processor.effect = { registers := processor.registers, halts := true } := by
  simp only [effect, Opcode.effect, h, Mnemonic.action]

theorem cost_of_halt (h : processor.opcode.mnemonic = .jam) : processor.cost = 2 := by
  have hCycles : processor.opcode.cycles = 2 := Opcode.cycles_of_halt processor.opcodeByte h
  simp only [cost, effect_of_halt h, hCycles]

/-- A halted processor on the instruction that halts counts the cycles and does nothing else. -/
theorem execute_of_halt (h : processor.opcode.mnemonic = .jam) (hJammed : processor.jammed = true) :
    processor.execute = { processor with cycles := processor.cycles + 2 } := by
  rw [execute, effect_of_halt h, cost_of_halt h, apply]
  simp only [hJammed, Bool.or_true, Bus.writeAll_nil]
  rfl

end Processor

namespace Machine

variable [Bus β] {machine later : Machine β ν} {count : Nat}

/-- What becomes of a machine in a number of steps that service nothing, while in between the host and the
devices do as they like, with the interrupt lines for one thing, as long as they keep the registers, the
bytes of memory, the halt and the counter, and register no handler. -/
inductive Waits (machine : Machine β ν) : Nat → Machine β ν → Prop where
  | refl : Waits machine 0 machine
  | step {count : Nat} {later : Machine β ν} (prior : Waits machine count later)
      (hPending : later.processor.pendingInterrupt = none) : Waits machine (count + 1) later.advance
  | meanwhile {count : Nat} {between later : Machine β ν} (prior : Waits machine count between)
      (same : Processor.SamePlace later.processor between.processor)
      (hJammed : later.processor.jammed = between.processor.jammed)
      (hCycles : later.processor.cycles = between.processor.cycles) (trapless : later.Trapless) :
      Waits machine count later

/-- A processor stands on an instruction that has halted it, and nothing is there to be called. -/
structure Stopped (machine : Machine β ν) : Prop where
  jammed : machine.processor.jammed = true
  mnemonic : machine.processor.opcode.mnemonic = .jam
  trapless : machine.Trapless

/-- A halted machine counts the cycles of its steps, which are noted, and does nothing else. -/
theorem Stopped.advance_eq (stopped : machine.Stopped)
    (hPending : machine.processor.pendingInterrupt = none) :
    machine.advance = { machine with
      processor := { machine.processor with cycles := machine.processor.cycles + 2 } }.record
        (machine.traceEvents ++
          [Event.executed machine.processor.registers.pc machine.processor.opcodeByte 2]) := by
  have hEvents : (executionEvents machine.processor : List (Event ν)) =
      [Event.executed machine.processor.registers.pc machine.processor.opcodeByte 2] := by
    rw [executionEvents, Processor.effect_of_halt stopped.mnemonic,
      Processor.cost_of_halt stopped.mnemonic, stopped.jammed]
    rfl
  rw [advance_of_not_pending hPending, execute, hEvents,
    Processor.execute_of_halt stopped.mnemonic stopped.jammed]

/-- A step of a halted machine always has a result, whatever runner it is given, and returns two
cycles. -/
theorem Stopped.step_eq (stopped : machine.Stopped)
    (hPending : machine.processor.pendingInterrupt = none) (run : Runner β ν) :
    machine.step run = some (2, machine.advance) := by
  rw [step_of_untrapped stopped.trapless.untrapped]
  simp only [Processor.stepCost, hPending, Processor.cost_of_halt stopped.mnemonic]

/-- The first interrupt that can be serviced gets the processor going, and the address that it leaves on
the stack is that of the instruction that has halted it. -/
theorem Stopped.exists_step_of_pending (stopped : machine.Stopped) {kind : Interrupt}
    (hPending : machine.processor.pendingInterrupt = some kind) (run : Runner β ν) :
    ∃ after, machine.step run = some (7, after) ∧ after.processor.jammed = false ∧
      after.processor.bus = Bus.writeAll machine.processor.bus
        (pushWrites machine.processor.registers.sp [machine.processor.registers.pc.page,
          machine.processor.registers.pc.low, machine.processor.registers.flags.pushed false]) := by
  have hBus := machine.processor.bus_step
  rw [Processor.footprint_of_pending hPending, Processor.writes_entry, ← processor_advance,
    advance_of_pending hPending] at hBus
  refine ⟨machine.service kind, ?_, rfl, hBus⟩
  rw [step_of_untrapped stopped.trapless.untrapped, advance_of_pending hPending]
  simp only [Processor.stepCost, hPending, Interrupt.cycles]

/-- As long as nothing is serviced, a halted machine stays where it is, and its counter tells how many
steps it has taken. -/
theorem Waits.invariant (waits : machine.Waits count later) (stopped : machine.Stopped) :
    later.Stopped ∧ Processor.SamePlace later.processor machine.processor ∧
      later.processor.cycles = machine.processor.cycles + UInt64.ofNat (2 * count) := by
  induction waits with
  | refl => exact ⟨stopped, ⟨rfl, rfl⟩, (UInt64.add_zero _).symm⟩
  | @step count later prior hPending ih =>
      obtain ⟨hStopped, hSame, hCycles⟩ := ih
      rw [hStopped.advance_eq hPending]
      refine ⟨⟨hStopped.jammed, hStopped.mnemonic, hStopped.trapless⟩, ⟨hSame.registers, hSame.read⟩,
        ?_⟩
      rw [Nat.mul_succ, UInt64.ofNat_add, ← UInt64.add_assoc, ← hCycles]
      rfl
  | meanwhile prior same hJammed hCycles trapless ih =>
      obtain ⟨hStopped, hSame, hCount⟩ := ih
      exact ⟨⟨hJammed.trans hStopped.jammed, same.opcode_eq ▸ hStopped.mnemonic, trapless⟩,
        ⟨same.registers.trans hSame.registers, same.read.trans hSame.read⟩, hCycles.trans hCount⟩

end Machine

namespace Execution

open Machine

variable [Bus β] {first last : Configuration β ν} {history : List (Configuration β ν)}

theorem haltAgrees (run : Execution first history last) (hFirst : first.machine.HaltAgrees) :
    last.machine.HaltAgrees := by
  induction run with
  | refl => exact hFirst
  | next prior hNext ih => exact Configuration.haltAgrees_of_next? hNext ih

/-- Wherever a run from power-on is looked at, within handlers too, the processor is halted exactly if an
instruction that halts has been carried out since the latest reset and the latest service, and the next
transition warns exactly if it halts a running processor, once and with the opcode and the address of
the instruction. A machine halted on such an instruction, with no handlers to call, stays there for any
number of steps that service nothing: each costs two cycles and changes nothing but the counter. The
first interrupt that can be serviced pushes the address of the instruction and ends the halt. -/
theorem halted_iff_history {setup : Setup} {bus : β} {program : Program β ν}
    (run : Execution (.powerOn setup bus program) history last) :
    (last.machine.processor.jammed = true ↔ HaltedSince last.machine.journal) ∧
    (∀ after, last.next? = some after →
      ∃ events, after.machine.journal = events ++ last.machine.journal ∧
        (last.Halts after → ∃ processor, last.executing? = some processor ∧
          processor.opcode.mnemonic = .jam ∧ haltWarnings events = [processor.haltWarning]) ∧
        (¬last.Halts after → haltWarnings events = [])) ∧
    (last.machine.Stopped → ∀ count later, last.machine.Waits count later →
      later.processor.registers = last.machine.processor.registers ∧
      later.processor.read = last.machine.processor.read ∧ later.processor.jammed = true ∧
      later.processor.cycles = last.machine.processor.cycles + UInt64.ofNat (2 * count) ∧
      match later.processor.pendingInterrupt with
      | none => ∀ runner, later.step runner = some (2, { later with
          processor := { later.processor with cycles := later.processor.cycles + 2 } }.record
            (later.traceEvents ++
              [Event.executed later.processor.registers.pc later.processor.opcodeByte 2]))
      | some _ => ∀ runner, ∃ after, later.step runner = some (7, after) ∧
          after.processor.jammed = false ∧
          after.processor.bus = Bus.writeAll later.processor.bus
            (pushWrites last.machine.processor.registers.sp
              [last.machine.processor.registers.pc.page, last.machine.processor.registers.pc.low,
                last.machine.processor.registers.flags.pushed false])) := by
  have hFirst : (Machine.powerOn setup bus : Machine β ν).HaltAgrees := by
    refine iff_of_false Bool.false_ne_true ?_
    rw [Machine.powerOn, haltedSince_cons_iff]
    simp [Event.halts, Event.revives]
  refine ⟨run.haltAgrees hFirst, fun after => Configuration.haltWarnings_of_next?,
    fun stopped count later waits => ?_⟩
  obtain ⟨hStopped, hSame, hCycles⟩ := waits.invariant stopped
  refine ⟨hSame.registers, hSame.read, hStopped.jammed, hCycles, ?_⟩
  cases hPending : later.processor.pendingInterrupt with
  | none =>
      intro runner
      rw [hStopped.step_eq hPending, hStopped.advance_eq hPending]
  | some kind =>
      rw [← hSame.registers]
      exact hStopped.exists_step_of_pending hPending

/-- A halt at the first instruction. -/
def jammingRam : Ram := (Ram.zero.setVector resetVector 0x8000).write 0x8000 0x02

/-- The machine that has halted there, has taken two more steps, and is about to service an interrupt. -/
def interruptedHalt (halted : Machine Ram Empty) : Machine Ram Empty :=
  (Machine.advance^[2] halted).change (.driveNmi true)

theorem waits_interruptedHalt {halted : Machine Ram Empty} (trapless : (interruptedHalt halted).Trapless)
    (hFirst : halted.processor.pendingInterrupt = none)
    (hSecond : halted.advance.processor.pendingInterrupt = none) :
    halted.Waits 2 (interruptedHalt halted) :=
  .meanwhile (.step (.step .refl hFirst) hSecond) ⟨rfl, rfl⟩ rfl rfl trapless

/-- The first step warns, the next two only count, and the interrupt leaves the address of the halt on the
stack. -/
theorem halted_iff_history_of_interrupt :
    ∃ history last,
      Execution (.powerOn {} jammingRam (.step fun _ => .done)) history (.start last .done) ∧
      haltWarnings last.journal = [(.warning, "JAM $02 at $8000: CPU halted")] ∧
      HaltedSince last.journal ∧
      (interruptedHalt last).processor.cycles = last.processor.cycles + 4 ∧
      ∃ after, (interruptedHalt last).step (run? 0) = some (7, after) ∧
        after.processor.jammed = false ∧ after.processor.read 0x01FF = 0x80 ∧
        after.processor.read 0x01FE = 0x00 := by
  let first : Configuration Ram Empty := .powerOn {} jammingRam (.step fun _ => .done)
  let halted : Machine Ram Empty := first.machine.execute
  have run : Execution first [first] (.start halted .done) := .next .refl rfl
  have stopped : halted.Stopped := ⟨by decide +kernel, by decide +kernel, fun _ => rfl⟩
  have waits : halted.Waits 2 (interruptedHalt halted) :=
    waits_interruptedHalt (fun _ => rfl) (by decide +kernel) (by decide +kernel)
  obtain ⟨hHistory, _, hHalted⟩ := run.halted_iff_history
  obtain ⟨_, _, _, hCycles, hService⟩ := hHalted stopped 2 _ waits
  have hPending : (interruptedHalt halted).processor.pendingInterrupt = some .nmi := rfl
  rw [hPending] at hService
  obtain ⟨after, hStep, hRunning, hBus⟩ := hService (run? 0)
  refine ⟨_, halted, run, by decide +kernel, hHistory.mp stopped.jammed, hCycles, after, hStep,
    hRunning, ?_, ?_⟩
  all_goals
    rw [Processor.read, hBus]
    decide +kernel

end Execution

end Mos6510
