import Mos6510.Proofs.TrapRegistry

/-!
What an observer sees of a machine. An observer may have seen other events before, and trace lines
may escape them. Nothing that a machine does depends on its journal, and nothing but the trace lines
depends on the trace switch. Main statement: what transitions make of a machine as it is seen is what
they make of the machine, seen afterwards; so machines that look alike go on looking alike, within
handlers too and also if the run never ends.
-/

namespace Mos6510

variable {β ν : Type}

/-- Whether an event is a trace line, in the journal itself or handed to the sink. -/
def Event.isTrace : Event ν → Bool
  | .traced _ | .sank _ => true
  | _ => false

/-- Somebody who looks at a machine. -/
structure Observer (ν : Type) where
  /-- Whether the trace switch and the trace lines escape the observer. -/
  ignoresTrace : Bool
  /-- What the observer has seen before, the latest first. -/
  past : List (Event ν)

namespace Observer

/-- Somebody whom nothing escapes, after the given events. -/
def remembering (past : List (Event ν)) : Observer ν := ⟨false, past⟩

/-- Somebody whom all that has to do with tracing escapes. -/
def untraced : Observer ν := ⟨true, []⟩

/-- Whether an observer takes notice of an event. -/
def notices (observer : Observer ν) (event : Event ν) : Bool :=
  !(observer.ignoresTrace && event.isTrace)

/-- No observer misses an event that is not a trace line. -/
theorem filter_notices_of_isTrace_eq_false (observer : Observer ν) {events : List (Event ν)}
    (h : ∀ event ∈ events, event.isTrace = false) : events.filter observer.notices = events := by
  refine List.filter_eq_self.mpr fun event hEvent => ?_
  rw [notices, h event hEvent, Bool.and_false]
  rfl

end Observer

namespace Machine

/-- The machine as an observer sees it: its events come after what the observer has seen before, and
without those that escape the observer. -/
def seenBy (machine : Machine β ν) (observer : Observer ν) : Machine β ν :=
  { machine with
    tracing := machine.tracing && !observer.ignoresTrace
    journal := machine.journal.filter observer.notices ++ observer.past }

/-- A machine is its own beginning, seen by somebody who remembers its journal. -/
theorem seenBy_remembering_journal (machine : Machine β ν) :
    { machine with journal := [] }.seenBy (.remembering machine.journal) = machine := by
  simp [seenBy, Observer.remembering]

section

variable (observer : Observer ν) (machine : Machine β ν)

/-- What is recorded is seen without the trace lines by those whom they escape. -/
theorem seenBy_record (events : List (Event ν)) :
    (machine.record events).seenBy observer =
      (machine.seenBy observer).record (events.filter observer.notices) := by
  simp [record, seenBy, List.filter_append, List.filter_reverse]

/-- Events that are not trace lines are recorded alike for every observer. -/
theorem seenBy_record_of_isTrace_eq_false {events : List (Event ν)}
    (h : ∀ event ∈ events, event.isTrace = false) :
    (machine.record events).seenBy observer = (machine.seenBy observer).record events := by
  rw [seenBy_record, observer.filter_notices_of_isTrace_eq_false h]

/-- On the panel an observer can miss the trace switch and nothing else. -/
theorem panel_seenBy :
    (machine.seenBy observer).panel =
      { machine.panel with tracing := machine.tracing && !observer.ignoresTrace } := rfl

theorem isTrace_of_mem_writeEvents {effect : Effect} {event : Event ν}
    (h : event ∈ writeEvents effect) : event.isTrace = false := by
  obtain ⟨write, _, rfl⟩ := List.mem_map.mp h
  rfl

/-- The same handler is called on the machine as it is seen. -/
theorem enterTrap?_seenBy :
    (machine.seenBy observer).enterTrap? =
      machine.enterTrap?.map fun called => (called.1, called.2.seenBy observer) := by
  unfold enterTrap?
  rw [Option.map_map]
  apply Option.map_congr
  rintro ⟨handler, traps⟩ _
  rw [Function.comp_apply, seenBy_record_of_isTrace_eq_false _ _ (by simp [Event.isTrace])]
  rfl

theorem seenBy_leaveTrap :
    machine.leaveTrap.seenBy observer = (machine.seenBy observer).leaveTrap := by
  cases hRunning : machine.running with
  | nil => simp only [leaveTrap, seenBy, hRunning]
  | cons called outer =>
      simp only [leaveTrap, hRunning]
      rw [seenBy_record_of_isTrace_eq_false _ _ (by simp [Event.isTrace])]
      simp only [seenBy, hRunning]

/-- A registration is answered alike, and refused with the same event. -/
theorem registerTrap_seenBy (address : Address) (handler : Handler β ν) :
    (machine.seenBy observer).registerTrap address handler =
      ((machine.registerTrap address handler).1,
        (machine.registerTrap address handler).2.seenBy observer) := by
  cases hRoom : machine.traps.register? address handler with
  | some traps => simp only [registerTrap, seenBy, hRoom]
  | none =>
      simp only [registerTrap, hRoom]
      rw [seenBy_record_of_isTrace_eq_false _ _ (by simp [Event.isTrace])]
      simp only [seenBy, hRoom]

theorem removeTrap_seenBy (address : Address) :
    (machine.seenBy observer).removeTrap address =
      ((machine.removeTrap address).1, (machine.removeTrap address).2.seenBy observer) := rfl

variable [Bus β]

/-- A change reaches the processor alike, and is recorded alike. -/
theorem seenBy_change (operation : Change β) :
    (machine.change operation).seenBy observer = (machine.seenBy observer).change operation := by
  unfold change
  rw [seenBy_record_of_isTrace_eq_false]
  · rfl
  · cases operation <;> simp [changeEvents, Event.isTrace]

theorem seenBy_service (kind : Interrupt) :
    (machine.service kind).seenBy observer = (machine.seenBy observer).service kind := by
  unfold service
  rw [seenBy_record_of_isTrace_eq_false]
  · rfl
  · intro event h
    rcases List.mem_append.mp h with hWrite | hService
    · exact isTrace_of_mem_writeEvents hWrite
    · rw [List.mem_singleton.mp hService]
      rfl

/-- The trace lines of a machine whose switch seems off are those that escape the observer: none of
them is seen. -/
theorem traceEvents_seenBy :
    (machine.seenBy observer).traceEvents = machine.traceEvents.filter observer.notices := by
  unfold traceEvents
  cases hTracing : machine.tracing <;> cases hSink : machine.sink <;>
    cases hIgnores : observer.ignoresTrace <;>
    simp [seenBy, hTracing, hSink, hIgnores, Observer.notices, Event.isTrace]

theorem isTrace_of_mem_executionEvents {processor : Processor β} {event : Event ν}
    (h : event ∈ executionEvents processor) : event.isTrace = false := by
  unfold executionEvents at h
  rcases List.mem_append.mp h with hEarlier | hExecuted
  · rcases List.mem_append.mp hEarlier with hWrite | hJammed
    · exact isTrace_of_mem_writeEvents hWrite
    · split at hJammed
      · rw [List.mem_singleton.mp hJammed]
        rfl
      · cases hJammed
  · rw [List.mem_singleton.mp hExecuted]
    rfl

/-- An instruction does the same on the machine as it is seen, and only its trace lines may be
missing there. -/
theorem seenBy_execute :
    machine.execute.seenBy observer = (machine.seenBy observer).execute := by
  unfold execute
  rw [seenBy_record, List.filter_append, ← traceEvents_seenBy,
    observer.filter_notices_of_isTrace_eq_false fun _ => isTrace_of_mem_executionEvents]
  rfl

end

end Machine

/-- A program neither turns tracing on or off nor installs or removes the sink, and does not do one
thing or another depending on whether tracing is on. -/
def Program.Quiet : Program β ν → Prop
  | .done => True
  | .look next => ∀ processor, (next processor).Quiet
  | .survey next =>
    (∀ panel tracing, next { panel with tracing } = next panel) ∧ ∀ panel, (next panel).Quiet
  | .note _ next => next.Quiet
  | .change _ next => next.Quiet
  | .setTracing _ _ => False
  | .setSink _ _ => False
  | .step next => ∀ cost, (next cost).Quiet
  | .stepWhile _ next => next.Quiet
  | .register _ handler next =>
    (∀ address, (handler address).Quiet) ∧ ∀ accepted, (next accepted).Quiet
  | .remove _ next => ∀ present, (next present).Quiet

/-- A handler does not use the trace functions. -/
def Handler.Quiet (handler : Handler β ν) : Prop := ∀ address, (handler address).Quiet

/-- No handler of a machine uses the trace functions, whether it waits or runs. -/
structure Machine.Quiet (machine : Machine β ν) : Prop where
  waiting : machine.traps.Every Handler.Quiet
  running : ∀ called ∈ machine.running, Handler.Quiet called.2

namespace Machine.Quiet

variable {machine other entered : Machine β ν}

theorem congr (quiet : machine.Quiet) (hTraps : other.traps = machine.traps)
    (hRunning : other.running = machine.running) : other.Quiet :=
  ⟨hTraps ▸ quiet.waiting, hRunning ▸ quiet.running⟩

/-- A handler that is called on a quiet machine uses no trace function, and leaves the machine quiet
while it runs. -/
theorem enter (quiet : machine.Quiet) {program : Program β ν}
    (h : machine.enterTrap? = some (program, entered)) : program.Quiet ∧ entered.Quiet := by
  obtain ⟨handler, hSlot, rfl, hTraps, hRunning⟩ := of_enterTrap? h
  have hHandler : Handler.Quiet handler := quiet.waiting.of_slot? hSlot
  refine ⟨hHandler _, ?_, ?_⟩
  · rw [hTraps]
    exact quiet.waiting.setSlot _ fun _ hNone => by cases hNone
  · intro called hCalled
    rw [hRunning] at hCalled
    rcases List.mem_cons.mp hCalled with rfl | hOuter
    · exact hHandler
    · exact quiet.running called hOuter

/-- A handler that comes back to its place is as quiet as it was. -/
theorem leave (quiet : machine.Quiet) : machine.leaveTrap.Quiet := by
  unfold leaveTrap
  split
  · exact quiet
  · next address handler outer hRunning =>
    have hCalled := hRunning ▸ quiet.running
    exact ⟨quiet.waiting.restore address (hCalled _ List.mem_cons_self),
      fun called hOuter => hCalled called (List.mem_cons_of_mem _ hOuter)⟩

/-- Registration keeps a machine quiet if the handler is, also when it is refused. -/
theorem register (quiet : machine.Quiet) (address : Address) {handler : Handler β ν}
    (hHandler : Handler.Quiet handler) : (machine.registerTrap address handler).2.Quiet := by
  unfold registerTrap
  split
  · next traps hRoom => exact ⟨quiet.waiting.register? hHandler hRoom, quiet.running⟩
  · exact quiet.congr rfl rfl

theorem remove (quiet : machine.Quiet) (address : Address) : (machine.removeTrap address).2.Quiet :=
  ⟨quiet.waiting.remove address, quiet.running⟩

end Machine.Quiet

namespace Configuration

/-- A configuration whose machine an observer sees. -/
def seenBy (configuration : Configuration β ν) (observer : Observer ν) : Configuration β ν :=
  { configuration with machine := configuration.machine.seenBy observer }

/-- Nobody uses the trace functions: neither what is being carried out, nor what goes on after the
steps that wait, nor any handler. -/
structure Quiet (configuration : Configuration β ν) : Prop where
  machine : configuration.machine.Quiet
  program : configuration.program.Quiet
  waiting : ∀ resume ∈ configuration.waiting, ∀ cost, (resume cost).Quiet

theorem seenBy_start (machine : Machine β ν) (program : Program β ν) (observer : Observer ν) :
    (start machine program).seenBy observer = start (machine.seenBy observer) program := rfl

variable [Bus β] {before after : Configuration β ν}

/-- The step of a quiet configuration is quiet, whether it waits for a handler or not. -/
theorem Quiet.beginStep {machine : Machine β ν} {resume : Nat → Program β ν}
    {waiting : List (Nat → Program β ν)} (quiet : Quiet ⟨machine, .step resume, waiting⟩) :
    (Configuration.beginStep machine resume waiting).Quiet := by
  unfold Configuration.beginStep
  split
  · exact ⟨quiet.machine.congr rfl rfl, quiet.program _, quiet.waiting⟩
  · split
    · exact ⟨quiet.machine.congr rfl rfl, quiet.program _, quiet.waiting⟩
    · next hEnter =>
      obtain ⟨hHandler, hEntered⟩ := quiet.machine.enter hEnter
      refine ⟨hEntered, hHandler, fun other hOther => ?_⟩
      rcases List.mem_cons.mp hOther with rfl | hOuter
      · exact quiet.program
      · exact quiet.waiting other hOuter

/-- Nobody starts to use the trace functions in the middle of a run. -/
theorem Quiet.next (quiet : before.Quiet) (h : before.next? = some after) : after.Quiet := by
  obtain ⟨machine, program, waiting⟩ := before
  obtain ⟨hMachine, hProgram, hWaiting⟩ := quiet
  cases program with
  | done =>
      cases waiting with
      | nil => cases h
      | cons resume waiting =>
          cases h
          exact ⟨hMachine.leave.congr rfl rfl, hWaiting resume List.mem_cons_self _,
            fun other hOuter => hWaiting other (List.mem_cons_of_mem _ hOuter)⟩
  | look next => cases h; exact ⟨hMachine, hProgram _, hWaiting⟩
  | survey next => cases h; exact ⟨hMachine, hProgram.2 _, hWaiting⟩
  | note entry next => cases h; exact ⟨hMachine.congr rfl rfl, hProgram, hWaiting⟩
  | change operation next => cases h; exact ⟨hMachine.congr rfl rfl, hProgram, hWaiting⟩
  | setTracing on next => exact hProgram.elim
  | setSink on next => exact hProgram.elim
  | step resume => cases h; exact Quiet.beginStep ⟨hMachine, hProgram, hWaiting⟩
  | stepWhile condition next =>
      rw [next?] at h
      split at h <;> cases h
      · exact ⟨hMachine, fun _ => hProgram, hWaiting⟩
      · exact ⟨hMachine, hProgram, hWaiting⟩
  | register address handler next =>
      cases h
      exact ⟨hMachine.register address hProgram.1, hProgram.2 _, hWaiting⟩
  | remove address next => cases h; exact ⟨hMachine.remove address, hProgram _, hWaiting⟩

variable {observer : Observer ν}

/-- A step begins alike, whether with a service, with an instruction or with the call of a
handler. -/
theorem beginStep_seenBy (machine : Machine β ν) (resume : Nat → Program β ν)
    (waiting : List (Nat → Program β ν)) :
    beginStep (machine.seenBy observer) resume waiting =
      (beginStep machine resume waiting).seenBy observer := by
  have hSame : (machine.seenBy observer).processor.pendingInterrupt =
    machine.processor.pendingInterrupt := rfl
  have hCalled := machine.enterTrap?_seenBy observer
  cases hPending : machine.processor.pendingInterrupt with
  | some kind =>
      rw [beginStep_service hPending, beginStep_service (hSame.trans hPending),
        ← Machine.seenBy_service]
      rfl
  | none =>
      cases hEnter : machine.enterTrap? with
      | none =>
          rw [hEnter] at hCalled
          rw [beginStep_execute hPending hEnter, beginStep_execute (hSame.trans hPending) hCalled,
            ← Machine.seenBy_execute]
          rfl
      | some called =>
          rw [hEnter] at hCalled
          rw [beginStep_enter hPending hEnter, beginStep_enter (hSame.trans hPending) hCalled]
          rfl

/-- A transition of what an observer sees is the transition, seen by the observer. If trace lines
escape the observer, nobody may use the trace functions. -/
theorem next?_seenBy {configuration : Configuration β ν}
    (hQuiet : observer.ignoresTrace = true → configuration.Quiet) :
    (configuration.seenBy observer).next? =
      configuration.next?.map fun after => after.seenBy observer := by
  obtain ⟨machine, program, waiting⟩ := configuration
  cases program with
  | done =>
      cases waiting with
      | nil => rfl
      | cons resume waiting =>
          simp only [seenBy, next?, ← Machine.seenBy_leaveTrap, ← Machine.seenBy_execute]
          rfl
  | look next => rfl
  | survey next =>
      have hPanel : next (machine.seenBy observer).panel = next machine.panel := by
        rw [Machine.panel_seenBy]
        cases hIgnores : observer.ignoresTrace with
        | true => exact (hQuiet hIgnores).program.1 machine.panel _
        | false => rw [Bool.not_false, Bool.and_true]; rfl
      simp only [seenBy, next?, hPanel]
      rfl
  | note entry next =>
      simp only [seenBy, next?, Option.map_some]
      rw [Machine.seenBy_record_of_isTrace_eq_false _ _ (by simp [Event.isTrace])]
  | change operation next =>
      simp only [seenBy, next?, Option.map_some, Machine.seenBy_change]
  | setTracing on next =>
      cases hIgnores : observer.ignoresTrace with
      | true => exact (hQuiet hIgnores).program.elim
      | false => simp [seenBy, next?, Machine.seenBy, hIgnores]
  | setSink on next => rfl
  | step resume => exact congrArg some (beginStep_seenBy machine resume waiting)
  | stepWhile condition next =>
      by_cases hGo : condition machine.processor
      · rw [next?, if_pos hGo]
        exact if_pos hGo
      · rw [next?, if_neg hGo]
        exact if_neg hGo
  | register address handler next =>
      simp only [seenBy, next?, Machine.registerTrap_seenBy, Option.map_some]
  | remove address next =>
      simp only [seenBy, next?, Machine.removeTrap_seenBy, Option.map_some]

/-- The configuration that a number of transitions leads to, if there are so many. -/
def after? (configuration : Configuration β ν) : Nat → Option (Configuration β ν)
  | 0 => some configuration
  | count + 1 => (configuration.after? count).bind next?

/-- What is reached is reached in some number of transitions. -/
theorem reaches_iff_after? {first last : Configuration β ν} :
    Reaches first last ↔ ∃ count, first.after? count = some last := by
  constructor
  · rintro ⟨history, run⟩
    induction run with
    | refl => exact ⟨0, rfl⟩
    | next prior hNext ih =>
        obtain ⟨count, hCount⟩ := ih
        exact ⟨count + 1, by rw [after?, hCount]; exact hNext⟩
  · rintro ⟨count, hCount⟩
    induction count generalizing last with
    | zero =>
        cases hCount
        exact .refl first
    | succ count ih =>
        obtain ⟨middle, hMiddle, hNext⟩ := Option.bind_eq_some_iff.mp hCount
        obtain ⟨history, run⟩ := ih hMiddle
        exact ⟨middle :: history, .next run hNext⟩

theorem Quiet.after? {first last : Configuration β ν} (quiet : first.Quiet) {count : Nat}
    (h : first.after? count = some last) : last.Quiet := by
  induction count generalizing last with
  | zero =>
      cases h
      exact quiet
  | succ count ih =>
      obtain ⟨middle, hMiddle, hNext⟩ := Option.bind_eq_some_iff.mp h
      exact (ih hMiddle).next hNext

/-- Any number of transitions of what an observer sees are the transitions, seen by the observer. -/
theorem after?_seenBy {first : Configuration β ν}
    (hQuiet : observer.ignoresTrace = true → first.Quiet) (count : Nat) :
    (first.seenBy observer).after? count =
      (first.after? count).map fun last => last.seenBy observer := by
  induction count with
  | zero => rfl
  | succ count ih =>
      rw [Configuration.after?, ih, Configuration.after?]
      cases hMiddle : first.after? count with
      | none => rfl
      | some middle => exact next?_seenBy fun hIgnores => (hQuiet hIgnores).after? hMiddle

end Configuration

/-- A program has, on what an observer sees, the results that it has, seen by the observer. -/
theorem Machine.ends_seenBy_iff [Bus β] {observer : Observer ν} {program : Program β ν}
    {machine seen : Machine β ν}
    (hQuiet : observer.ignoresTrace = true → machine.Quiet ∧ program.Quiet) :
    Ends program (machine.seenBy observer) seen ↔
      ∃ result, Ends program machine result ∧ result.seenBy observer = seen := by
  have hStart : observer.ignoresTrace = true → (Configuration.start machine program).Quiet :=
    fun hIgnores => ⟨(hQuiet hIgnores).1, (hQuiet hIgnores).2, fun _ h => by cases h⟩
  simp only [ends_iff_reaches, Configuration.reaches_iff_after?]
  constructor
  · rintro ⟨count, hCount⟩
    have hSeen := (Configuration.after?_seenBy hStart count).symm.trans hCount
    obtain ⟨⟨result, rest, waiting⟩, hResult, hEq⟩ := Option.map_eq_some_iff.mp hSeen
    cases hEq
    exact ⟨result, ⟨count, hResult⟩, rfl⟩
  · rintro ⟨result, ⟨count, hCount⟩, rfl⟩
    refine ⟨count, (Configuration.after?_seenBy hStart count).trans ?_⟩
    rw [hCount]
    rfl

end Mos6510
