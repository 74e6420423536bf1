import Mos6510.Proofs.Observation

/-!
Tracing shows what happens and changes none of it. Hosts that do not use the trace functions cannot
tell whether tracing is on. Main statement: two runs of one program, with tracing on and off, look
alike to everybody whom the trace lines escape; and along every run the journal has one trace line for
each instruction that is carried out, made of the processor as the handler of the trap has left it and
before the instruction, and no other.
-/

namespace Mos6510

variable {β ν : Type}

/-- Whether an event tells of an instruction: its trace line, or that it was carried out. -/
def Event.tellsInstruction : Event ν → Bool
  | .traced _ | .sank _ | .executed _ _ _ => true
  | _ => false

/-- What an instruction leaves in the journal, the latest first: that it was carried out, and before
that, with tracing on, its trace line, which the sink gets too if there is one. -/
def Processor.report [Bus β] (processor : Processor β) (tracing sink : Bool) : List (Event ν) :=
  .executed processor.registers.pc processor.opcodeByte processor.cost ::
    if tracing then
      (if sink then [.sank processor.traceLine] else []) ++ [.traced processor.traceLine]
    else []

/-- The line that the sink gets with an event, if it gets one. -/
def Event.sunk? : Event ν → Option (List Char)
  | .sank line => some line
  | _ => none

/-- The lines in the reports of instructions, with tracing on and a sink, are their trace lines. -/
theorem filterMap_sunk?_flatMap_report [Bus β] (processors : List (Processor β)) :
    (processors.flatMap fun processor => processor.report true true).filterMap
      (Event.sunk? : Event ν → _) = processors.map Processor.traceLine := by
  induction processors with
  | nil => rfl
  | cons processor processors ih =>
      rw [List.flatMap_cons, List.filterMap_append, ih]
      rfl

namespace Machine

/-- The lines that the sink has got, the latest first. -/
def sunk (machine : Machine β ν) : List (List Char) := machine.journal.filterMap Event.sunk?

/-- The events of a machine that tell of instructions, the latest first. -/
def reports (machine : Machine β ν) : List (Event ν) :=
  machine.journal.filter Event.tellsInstruction

/-- What the sink has got can be read off the reports. -/
theorem sunk_eq (machine : Machine β ν) : machine.sunk = machine.reports.filterMap Event.sunk? := by
  rw [reports, List.filterMap_filter, sunk]
  congr 1
  funext event
  cases event <;> rfl

/-- Events that tell of no instruction are not in the reports. -/
theorem reports_record_of_tellsInstruction_eq_false (machine : Machine β ν)
    {events : List (Event ν)} (h : ∀ event ∈ events, event.tellsInstruction = false) :
    (machine.record events).reports = machine.reports := by
  have hNone : events.reverse.filter Event.tellsInstruction = [] :=
    List.filter_eq_nil_iff.mpr fun event hEvent => by
      rw [h event (List.mem_reverse.mp hEvent)]
      exact Bool.false_ne_true
  rw [reports, record, List.filter_append, hNone, List.nil_append, reports]

theorem tellsInstruction_of_mem_writeEvents {effect : Effect} {event : Event ν}
    (h : event ∈ writeEvents effect) : event.tellsInstruction = false := by
  obtain ⟨write, _, rfl⟩ := List.mem_map.mp h
  rfl

/-- A handler that ends is not reported. -/
theorem reports_leaveTrap (machine : Machine β ν) : machine.leaveTrap.reports = machine.reports := by
  unfold leaveTrap
  split
  · rfl
  · exact reports_record_of_tellsInstruction_eq_false _ (by simp [Event.tellsInstruction])

theorem reports_registerTrap (machine : Machine β ν) (address : Address) (handler : Handler β ν) :
    (machine.registerTrap address handler).2.reports = machine.reports := by
  unfold registerTrap
  split
  · rfl
  · exact reports_record_of_tellsInstruction_eq_false _ (by simp [Event.tellsInstruction])

theorem reports_of_enterTrap? {machine entered : Machine β ν} {program : Program β ν}
    (h : machine.enterTrap? = some (program, entered)) : entered.reports = machine.reports := by
  obtain ⟨_, _, hEntered⟩ := Option.map_eq_some_iff.mp h
  cases hEntered
  exact reports_record_of_tellsInstruction_eq_false _ (by simp [Event.tellsInstruction])

/-- A handler that ends leaves the trace switch and the sink as it has set them. -/
theorem switches_leaveTrap (machine : Machine β ν) :
    machine.leaveTrap.tracing = machine.tracing ∧ machine.leaveTrap.sink = machine.sink := by
  unfold leaveTrap
  split <;> exact ⟨rfl, rfl⟩

theorem switches_registerTrap (machine : Machine β ν) (address : Address) (handler : Handler β ν) :
    (machine.registerTrap address handler).2.tracing = machine.tracing ∧
      (machine.registerTrap address handler).2.sink = machine.sink := by
  unfold registerTrap
  split <;> exact ⟨rfl, rfl⟩

theorem switches_of_enterTrap? {machine entered : Machine β ν} {program : Program β ν}
    (h : machine.enterTrap? = some (program, entered)) :
    entered.tracing = machine.tracing ∧ entered.sink = machine.sink := by
  obtain ⟨_, _, hEntered⟩ := Option.map_eq_some_iff.mp h
  cases hEntered
  exact ⟨rfl, rfl⟩

variable [Bus β]

/-- Nothing that the host changes in the processor is reported. -/
theorem reports_change (machine : Machine β ν) (operation : Change β) :
    (machine.change operation).reports = machine.reports := by
  refine reports_record_of_tellsInstruction_eq_false _ ?_
  cases operation <;> simp [changeEvents, Event.tellsInstruction]

theorem reports_service (machine : Machine β ν) (kind : Interrupt) :
    (machine.service kind).reports = machine.reports := by
  refine reports_record_of_tellsInstruction_eq_false _ fun event h => ?_
  rcases List.mem_append.mp h with hWrite | hService
  · exact tellsInstruction_of_mem_writeEvents hWrite
  · rw [List.mem_singleton.mp hService]
    rfl

/-- Of what an instruction does only that it was carried out is in the reports, and not what it
writes. -/
theorem filter_executionEvents (processor : Processor β) :
    (executionEvents processor : List (Event ν)).filter Event.tellsInstruction =
      [.executed processor.registers.pc processor.opcodeByte processor.cost] := by
  have hWrites : (writeEvents processor.effect : List (Event ν)).filter Event.tellsInstruction = [] :=
    List.filter_eq_nil_iff.mpr fun event h => by
      rw [tellsInstruction_of_mem_writeEvents h]
      exact Bool.false_ne_true
  unfold executionEvents
  rw [List.filter_append, List.filter_append, hWrites]
  split <;> rfl

theorem filter_traceEvents (machine : Machine β ν) :
    machine.traceEvents.filter Event.tellsInstruction = machine.traceEvents := by
  unfold traceEvents
  split
  · split <;> rfl
  · rfl

/-- An instruction adds its own report, as the switches are when it is carried out. -/
theorem reports_execute (machine : Machine β ν) :
    machine.execute.reports =
      machine.processor.report machine.tracing machine.sink ++ machine.reports := by
  have hEvents : (machine.traceEvents ++ executionEvents machine.processor).reverse.filter
      Event.tellsInstruction = machine.processor.report machine.tracing machine.sink := by
    rw [List.filter_reverse, List.filter_append, filter_traceEvents, filter_executionEvents]
    unfold traceEvents Processor.report
    cases machine.tracing <;> cases machine.sink <;> rfl
  rw [reports, execute, record, List.filter_append, hEvents, reports]

end Machine

namespace Configuration

variable [Bus β] {before after : Configuration β ν}

/-- The processor that carries out an instruction in the next transition, if one does: at the end of
a handler the one that the handler has left, or the one that steps with no interrupt to service and
no handler to call. -/
def executing? : Configuration β ν → Option (Processor β)
  | ⟨machine, .done, _ :: _⟩ => some machine.leaveTrap.processor
  | ⟨machine, .step _, _⟩ =>
    match machine.processor.pendingInterrupt, machine.enterTrap? with
    | none, none => some machine.processor
    | _, _ => none
  | _ => none

/-- Only the host turns tracing on or off, and only the host installs or removes the sink. -/
theorem Quiet.switches (quiet : before.Quiet) (h : before.next? = some after) :
    after.machine.tracing = before.machine.tracing ∧ after.machine.sink = before.machine.sink := by
  obtain ⟨machine, program, waiting⟩ := before
  cases program with
  | done =>
      cases waiting with
      | nil => cases h
      | cons resume waiting => cases h; exact machine.switches_leaveTrap
  | setTracing on next => exact quiet.program.elim
  | setSink on next => exact quiet.program.elim
  | step resume =>
      cases h
      unfold Configuration.beginStep
      split
      · exact ⟨rfl, rfl⟩
      · split
        · exact ⟨rfl, rfl⟩
        · next hEnter => exact Machine.switches_of_enterTrap? hEnter
  | stepWhile condition next =>
      rw [next?] at h
      split at h <;> cases h <;> exact ⟨rfl, rfl⟩
  | register address handler next => cases h; exact machine.switches_registerTrap address handler
  | _ => cases h; exact ⟨rfl, rfl⟩

/-- A step that begins reports the instruction that it carries out, if it carries out one at
once. -/
theorem reports_beginStep (machine : Machine β ν) (resume : Nat → Program β ν)
    (waiting : List (Nat → Program β ν)) :
    (beginStep machine resume waiting).machine.reports =
      (executing? ⟨machine, .step resume, waiting⟩).elim []
        (fun processor => processor.report machine.tracing machine.sink) ++ machine.reports := by
  cases hPending : machine.processor.pendingInterrupt with
  | some kind =>
      simp only [beginStep_service hPending, executing?, hPending]
      exact machine.reports_service kind
  | none =>
      cases hEnter : machine.enterTrap? with
      | none =>
          simp only [beginStep_execute hPending hEnter, executing?, hPending, hEnter]
          exact machine.reports_execute
      | some called =>
          simp only [beginStep_enter hPending hEnter, executing?, hPending, hEnter]
          exact Machine.reports_of_enterTrap? hEnter

/-- A transition reports the instruction that it carries out, and no other. -/
theorem reports_of_next? (h : before.next? = some after) :
    after.machine.reports =
      before.executing?.elim []
        (fun processor => processor.report before.machine.tracing before.machine.sink) ++
      before.machine.reports := by
  obtain ⟨machine, program, waiting⟩ := before
  cases program with
  | done =>
      cases waiting with
      | nil => cases h
      | cons resume waiting =>
          cases h
          obtain ⟨hTracing, hSink⟩ := machine.switches_leaveTrap
          rw [machine.leaveTrap.reports_execute, machine.reports_leaveTrap, hTracing, hSink]
          rfl
  | change operation next => cases h; exact machine.reports_change operation
  | note entry next =>
      cases h
      exact machine.reports_record_of_tellsInstruction_eq_false (by simp [Event.tellsInstruction])
  | step resume => cases h; exact reports_beginStep machine resume waiting
  | stepWhile condition next =>
      rw [next?] at h
      split at h <;> cases h <;> rfl
  | register address handler next => cases h; exact machine.reports_registerTrap address handler
  | _ => cases h; rfl

end Configuration

namespace Execution

variable [Bus β] {first last : Configuration β ν} {history : List (Configuration β ν)}

/-- Nobody uses the trace functions in a run in which nobody did at first. -/
theorem quiet (run : Execution first history last) (hQuiet : first.Quiet) : last.Quiet := by
  induction run with
  | refl => exact hQuiet
  | next prior hNext ih => exact ih.next hNext

/-- Then the switches stay as they were. -/
theorem switches (run : Execution first history last) (hQuiet : first.Quiet) :
    last.machine.tracing = first.machine.tracing ∧ last.machine.sink = first.machine.sink := by
  induction run with
  | refl => exact ⟨rfl, rfl⟩
  | next prior hNext ih =>
      obtain ⟨hTracing, hSink⟩ := (prior.quiet hQuiet).switches hNext
      exact ⟨hTracing.trans ih.1, hSink.trans ih.2⟩

/-- The instructions that an execution carries out are reported in their order, each of them once. -/
theorem reports_eq (run : Execution first history last) (hQuiet : first.Quiet) :
    last.machine.reports =
      (history.filterMap Configuration.executing?).flatMap
        (fun processor => processor.report first.machine.tracing first.machine.sink) ++
      first.machine.reports := by
  induction run with
  | refl => rfl
  | @next history middle last prior hNext ih =>
      obtain ⟨hTracing, hSink⟩ := prior.switches hQuiet
      rw [Configuration.reports_of_next? hNext, ih, hTracing, hSink, List.filterMap_cons]
      cases middle.executing? with
      | none => rfl
      | some processor => rw [List.flatMap_cons, List.append_assoc]; rfl

end Execution

namespace Machine

variable [Bus β] {machine : Machine β ν} {program : Program β ν}

/-- Tracing is faithful and changes nothing, if neither the host nor a handler uses the trace
functions. After any number of transitions, and if the program ends also at its end, a machine that
traces and one that does not are the same to everybody whom the trace lines escape: the same
processor with its memory and its counter, the same traps, the same events, and the same program to
go on with. Every instruction is reported once, at the time when it is carried out, by the trace line
of the processor that carries it out; so these lines, in order, are what the sink gets, and the entry
into an interrupt handler adds nothing to them. -/
theorem tracing_faithful (hMachine : machine.Quiet) (hProgram : program.Quiet) :
    (∀ count,
      ((Configuration.start { machine with tracing := true } program).after? count).map
          (fun reached => reached.seenBy .untraced) =
        ((Configuration.start { machine with tracing := false } program).after? count).map
          (fun reached => reached.seenBy .untraced)) ∧
    (∀ seen, (∃ result, Ends program { machine with tracing := true } result ∧
        result.seenBy .untraced = seen) ↔
      ∃ result, Ends program { machine with tracing := false } result ∧
        result.seenBy .untraced = seen) ∧
    (∀ tracing history last,
      Execution (.start { machine with tracing } program) history last →
      last.machine.reports = (history.filterMap Configuration.executing?).flatMap
        (fun processor => processor.report tracing machine.sink) ++ machine.reports) ∧
    ∀ history last,
      Execution (.start { machine with tracing := true, sink := true } program) history last →
      last.machine.sunk = (history.filterMap Configuration.executing?).map Processor.traceLine ++
        machine.sunk := by
  have hQuiet (tracing sink : Bool) :
      (Configuration.start { machine with tracing, sink } program).Quiet :=
    ⟨hMachine.congr rfl rfl, hProgram, fun _ h => by cases h⟩
  refine ⟨fun count => ?_, fun seen => ?_, fun tracing history last run => ?_,
    fun history last run => ?_⟩
  · rw [← Configuration.after?_seenBy fun _ => hQuiet true machine.sink,
      ← Configuration.after?_seenBy fun _ => hQuiet false machine.sink]
    rfl
  · have hOn := (hQuiet true machine.sink).machine
    have hOff := (hQuiet false machine.sink).machine
    exact (ends_seenBy_iff fun _ => ⟨hOn, hProgram⟩).symm.trans
      (ends_seenBy_iff fun _ => ⟨hOff, hProgram⟩)
  · exact run.reports_eq (hQuiet tracing machine.sink)
  · have hReports := run.reports_eq (hQuiet true true)
    rw [sunk_eq, hReports, List.filterMap_append]
    exact congrArg₂ (· ++ ·) (filterMap_sunk?_flatMap_report _) (sunk_eq machine).symm

/-- A handler that loads `x`. -/
def loadingHandler : Handler Ram Empty := fun _ =>
  .change (.registers fun registers => { registers with x := 7 }) .done

/-- A trapped instruction that does nothing, followed by an interrupt. -/
def trappedVisit : Program Ram Empty :=
  .register 0x8000 loadingHandler fun _ => .step fun _ =>
    .change (.driveNmi true) (.step fun _ => .done)

/-- A machine whose first instruction does nothing. -/
def idling : Machine Ram Empty :=
  powerOn {} ((Ram.zero.setVector resetVector 0x8000).write 0x8000 0xEA)

/-- The line shows what the handler has loaded, and the interrupt adds none. -/
theorem tracing_faithful_of_trapped_visit :
    idling.Quiet ∧ trappedVisit.Quiet ∧
    ∃ history last,
      Execution (.start { idling with tracing := true, sink := true } trappedVisit) history
        (.start last .done) ∧
      last.processor.cycles = 9 ∧
      last.sunk =
        ["8000  EA        NOP                             A:00 X:07 Y:00 P:24 SP:FF".toList] := by
  have hMachine : idling.Quiet := by
    refine ⟨?_, ?_⟩
    · intro slot hSlot
      cases hSlot
    · intro called hCalled
      cases hCalled
  have hProgram : trappedVisit.Quiet := ⟨fun _ => trivial, fun _ _ _ => trivial⟩
  have run : Execution (.start { idling with tracing := true, sink := true } trappedVisit) _
      (.start _ .done) :=
    .next (.next (.next (.next (.next (.next .refl rfl) rfl) rfl) rfl) rfl) rfl
  obtain ⟨_, _, _, hSunk⟩ := tracing_faithful hMachine hProgram
  exact ⟨hMachine, hProgram, _, _, run, rfl, (hSunk _ _ run).trans (by decide +kernel)⟩

end Machine

end Mos6510
