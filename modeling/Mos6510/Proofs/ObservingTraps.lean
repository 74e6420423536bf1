import Mos6510.Proofs.Lockstep
import Mos6510.Proofs.StepSequence
import Mos6510.Proofs.TrapSlots
import Mos6510.Proofs.WriteFootprint

/-!
Traps whose handlers only observe. Such a handler may look at whatever it likes and take notes, and
leaves everything else as it was. Main statement: apart from these visits, a run with the traps is the run
without them, down to every event of the journal; and there is one visit for each instruction that is
carried out at a trapped address, in the same step, and none for anything else.
-/

namespace Mos6510

variable {β ν : Type}

namespace Event

/-- The address that a handler is called at, if the event is such a call. -/
def calledAt? : Event ν → Option Address
  | .trapEntered address => some address
  | _ => none

/-- The address of the instruction that is carried out, if the event is its end. -/
def executedAt? : Event ν → Option Address
  | .executed address _ _ => some address
  | _ => none

/-- Whether an event begins or ends a visit. -/
def isBoundary : Event ν → Bool
  | .trapEntered _ | .trapLeft _ => true
  | _ => false

theorem calledAt?_of_isBoundary_eq_false {event : Event ν} (h : event.isBoundary = false) :
    event.calledAt? = none := by
  cases event <;> first | rfl | cases h

end Event

/-- What a journal, the latest event first, tells apart from the visits: what lies between the call of a
handler and its end is left out. -/
def outsideVisits : (inside : Bool) → List (Event ν) → List (Event ν)
  | _, [] => []
  | _, .trapLeft _ :: earlier => outsideVisits true earlier
  | _, .trapEntered _ :: earlier => outsideVisits false earlier
  | true, _ :: earlier => outsideVisits true earlier
  | false, event :: earlier => event :: outsideVisits false earlier

/-- The events of a visit at an address, during which some notes are taken. -/
def visitEvents (address : Address) (notes : List ν) : List (Event ν) :=
  .trapEntered address :: (notes.map .noted ++ [.trapLeft address])

section

variable {events earlier : List (Event ν)}

/-- Events of which none begins or ends a visit are all told. -/
theorem outsideVisits_append (h : ∀ event ∈ events, event.isBoundary = false) :
    outsideVisits false (events ++ earlier) = events ++ outsideVisits false earlier := by
  induction events with
  | nil => rfl
  | cons event events ih =>
      have hRest := ih fun other hOther => h other (List.mem_cons_of_mem event hOther)
      have hEvent := h event List.mem_cons_self
      cases event with
      | trapEntered | trapLeft => cases hEvent
      | _ => exact congrArg (List.cons _) hRest

/-- A visit that is complete is left out with all that has been noted in it. -/
theorem outsideVisits_visitEvents (address : Address) (notes : List ν) :
    outsideVisits false ((visitEvents address notes).reverse ++ earlier) =
      outsideVisits false earlier := by
  have hNotes (taken : List ν) :
      outsideVisits true (taken.map .noted ++ .trapEntered address :: earlier) =
        outsideVisits false earlier := by
    induction taken with
    | nil => rfl
    | cons note taken ih => exact ih
  simpa [visitEvents, outsideVisits] using hNotes notes.reverse

theorem calls_visitEvents (address : Address) (notes : List ν) :
    (visitEvents address notes).filterMap Event.calledAt? = [address] := by
  have hNotes : (notes.map Event.noted).filterMap Event.calledAt? = [] :=
    List.filterMap_eq_nil_iff.mpr fun event hEvent => by
      obtain ⟨note, _, rfl⟩ := List.mem_map.mp hEvent
      rfl
  simp [visitEvents, hNotes, Event.calledAt?]

end

/-- What happened with traps at some addresses, and what happened without them, the latest first: apart
from the visits it is the same, and there is a visit for each instruction carried out at such an address
and for nothing else. -/
structure SameButVisits (trapped : Address → Bool) (happened plainly : List (Event ν)) : Prop where
  outside : outsideVisits false happened = plainly
  calls : happened.filterMap Event.calledAt? =
    (plainly.filterMap Event.executedAt?).filter trapped

/-- A step adds its visit, if it makes one, and then the same events on both sides. -/
theorem SameButVisits.append {trapped : Address → Bool} {happened plainly visit events : List (Event ν)}
    (same : SameButVisits trapped happened plainly)
    (hSkip : outsideVisits false (visit ++ happened) = outsideVisits false happened)
    (hInner : ∀ event ∈ events, event.isBoundary = false)
    (hCalls : visit.filterMap Event.calledAt? =
      (events.filterMap Event.executedAt?).filter trapped) :
    SameButVisits trapped (events ++ (visit ++ happened)) (events ++ plainly) where
  outside := by rw [outsideVisits_append hInner, hSkip, same.outside]
  calls := by
    have hNone : events.filterMap Event.calledAt? = [] :=
      List.filterMap_eq_nil_iff.mpr fun event hEvent =>
        Event.calledAt?_of_isBoundary_eq_false (hInner event hEvent)
    rw [List.filterMap_append, List.filterMap_append, hNone, hCalls, same.calls,
      List.filterMap_append, List.filter_append, List.nil_append]

/-- A handler observes if it ends wherever it is called, with nothing done but notes taken. -/
def Handler.Observes [Bus β] (handler : Handler β ν) : Prop :=
  ∀ machine : Machine β ν, ∃ notes : List ν,
    Machine.Ends (handler machine.processor.registers.pc) machine (machine.record (notes.map .noted))

/-- Taking a handler out and putting it back changes no slot. -/
theorem TrapTable.slot?_restore_setSlot {η : Type} {table : TrapTable η} {address : Address}
    {handler : η} (h : table.slot? address = some (some handler)) (other : Address) :
    ((table.setSlot address none).restore address handler).slot? other = table.slot? other := by
  rw [slot?_restore, slot?_setSlot, slot?_setSlot]
  by_cases hOther : other = address
  · simp [hOther, h]
  · simp [hOther]

namespace Machine

section

def withoutTraps (machine : Machine β ν) : Machine β ν :=
  { machine with traps := .empty machine.traps.capacity }

/-- The machine in which a handler that waits at the program counter has been called. -/
def entered (machine : Machine β ν) (handler : Handler β ν) : Machine β ν :=
  { machine with
    traps := machine.traps.setSlot machine.processor.registers.pc none
    running := (machine.processor.registers.pc, handler) :: machine.running }.record
      [.trapEntered machine.processor.registers.pc]

/-- The machine in which that handler has been called, has taken some notes, and has ended. -/
theorem leaveTrap_record_entered (machine : Machine β ν) (handler : Handler β ν) (notes : List ν) :
    ((machine.entered handler).record (notes.map .noted)).leaveTrap =
      ({ machine with
        traps := (machine.traps.setSlot machine.processor.registers.pc none).restore
          machine.processor.registers.pc handler }).record
        (visitEvents machine.processor.registers.pc notes) := by
  simp [entered, leaveTrap, record, visitEvents]

/-- A handler in the slot of the program counter is what is called there. -/
theorem enterTrap?_of_handler? {machine : Machine β ν} {handler : Handler β ν}
    (h : machine.traps.handler? machine.processor.registers.pc = some handler) :
    machine.enterTrap? =
      some (handler machine.processor.registers.pc, machine.entered handler) := by
  simp only [enterTrap?, TrapTable.take?, h, Option.map_some]
  rfl

theorem record_record (machine : Machine β ν) (first second : List (Event ν)) :
    (machine.record first).record second = machine.record (first ++ second) := by
  simp [record]

variable [Bus β]

/-- What a step that calls no handler adds to the journal. -/
def stepEvents (machine : Machine β ν) : List (Event ν) :=
  match machine.processor.pendingInterrupt with
  | some kind =>
    writeEvents (machine.processor.entry kind) ++
      [.serviced kind machine.processor.registers.pc
        (machine.processor.service kind).registers.pc]
  | none => machine.traceEvents ++ executionEvents machine.processor

/-- What the traps add to the journal in the next step. If an interrupt is serviced, or no handler waits
at the program counter, that is nothing. Otherwise the handler is called once, with the program counter
as its argument, and what it notes is told. -/
def Visits (machine : Machine β ν) (visit : List (Event ν)) : Prop :=
  match machine.processor.pendingInterrupt,
      machine.traps.handler? machine.processor.registers.pc with
  | none, some handler =>
    ∃ notes, Ends (handler machine.processor.registers.pc) (machine.entered handler)
        ((machine.entered handler).record (notes.map .noted)) ∧
      visit = visitEvents machine.processor.registers.pc notes
  | _, _ => visit = []

variable {machine : Machine β ν}

/-- A step that calls no handler moves the processor and adds its events to the journal. -/
theorem advance_eq_record (machine : Machine β ν) :
    machine.advance =
      ({ machine with processor := machine.processor.step }).record machine.stepEvents := by
  cases hPending : machine.processor.pendingInterrupt with
  | some kind => simp only [advance, Processor.step, stepEvents, hPending]; rfl
  | none => simp only [advance, Processor.step, stepEvents, hPending]; rfl

/-- Neither the trap table nor what has been recorded makes a difference to what an instruction does. -/
theorem execute_record (hPending : machine.processor.pendingInterrupt = none)
    (traps : TrapTable (Handler β ν)) (visit : List (Event ν)) :
    (({ machine with traps }).record visit).execute =
      ({ machine with processor := machine.processor.step, traps }).record
        (visit ++ machine.stepEvents) := by
  have hAdvance : (({ machine with traps }).record visit).advance =
      (({ machine with traps }).record visit).execute := advance_of_not_pending hPending
  rw [← hAdvance, advance_eq_record, ← record_record]
  rfl

/-- A step whose handler ends carries out the instruction at which the handler leaves the
processor. -/
theorem step_of_enterTrap? {run : Runner β ν} {handler : Program β ν}
    {entered finished : Machine β ν} (hPending : machine.processor.pendingInterrupt = none)
    (hEnter : machine.enterTrap? = some (handler, entered))
    (hRun : run handler entered = some finished) :
    machine.step run = some (finished.leaveTrap.processor.cost, finished.leaveTrap.execute) := by
  simp only [step, hPending, hEnter, hRun, Option.map_some]

theorem visits_nil (hUntrapped : machine.Untrapped) : machine.Visits [] := by
  unfold Visits
  split
  · next handler hPending hHandler =>
    rw [hUntrapped hPending] at hHandler
    cases hHandler
  · rfl

/-- With handlers that observe, a step does to the processor what it does without them. -/
theorem step_of_observes
    (hObserves : ∀ handler, machine.traps.handler? machine.processor.registers.pc = some handler →
      Handler.Observes handler) :
    ∃ bound visit traps, machine.step (run? bound) = some (machine.processor.stepCost,
        ({ machine with processor := machine.processor.step, traps }).record
          (visit ++ machine.stepEvents)) ∧
      machine.Visits visit ∧ ∀ address, traps.slot? address = machine.traps.slot? address := by
  by_cases hUntrapped : machine.Untrapped
  · refine ⟨0, [], machine.traps, ?_, visits_nil hUntrapped, fun _ => rfl⟩
    rw [step_of_untrapped hUntrapped, advance_eq_record, List.nil_append]
  -- No interrupt is due and a handler waits: it is called, and the instruction follows in the same step.
  · obtain ⟨hPending, hSome⟩ := Classical.not_imp.mp hUntrapped
    obtain ⟨handler, hHandler⟩ := Option.ne_none_iff_exists'.mp hSome
    obtain ⟨notes, bound, hRun⟩ := hObserves handler hHandler (machine.entered handler)
    have hCost : machine.processor.stepCost = machine.processor.cost := by
      simp only [Processor.stepCost, hPending]
    have hStep := step_of_enterTrap? hPending (enterTrap?_of_handler? hHandler) hRun
    rw [leaveTrap_record_entered, execute_record hPending] at hStep
    refine ⟨bound, _, _, hStep.trans (by rw [hCost]; rfl), ?_,
      TrapTable.slot?_restore_setSlot (Option.join_eq_some_iff.mp hHandler)⟩
    simp only [Visits, hPending, hHandler]
    exact ⟨notes, ⟨bound, hRun⟩, rfl⟩

theorem isBoundary_of_mem_writeEvents {effect : Effect} {event : Event ν}
    (h : event ∈ writeEvents effect) : event.isBoundary = false := by
  obtain ⟨write, _, rfl⟩ := List.mem_map.mp h
  rfl

theorem isBoundary_of_mem_traceEvents {event : Event ν} (h : event ∈ machine.traceEvents) :
    event.isBoundary = false := by
  unfold traceEvents at h
  split at h
  · rcases List.mem_cons.mp h with rfl | hSink
    · rfl
    · split at hSink
      · rw [List.mem_singleton.mp hSink]
        rfl
      · cases hSink
  · cases h

theorem isBoundary_of_mem_executionEvents {processor : Processor β} {event : Event ν}
    (h : event ∈ executionEvents processor) : event.isBoundary = false := by
  unfold executionEvents at h
  rcases List.mem_append.mp h with hEarlier | hExecuted
  · rcases List.mem_append.mp hEarlier with hWrite | hJammed
    · exact isBoundary_of_mem_writeEvents hWrite
    · split at hJammed
      · rw [List.mem_singleton.mp hJammed]
        rfl
      · cases hJammed
  · rw [List.mem_singleton.mp hExecuted]
    rfl

/-- A step that calls no handler tells of no visit. -/
theorem isBoundary_of_mem_stepEvents {event : Event ν} (h : event ∈ machine.stepEvents) :
    event.isBoundary = false := by
  unfold stepEvents at h
  split at h
  · rcases List.mem_append.mp h with hPushed | hServiced
    · exact isBoundary_of_mem_writeEvents hPushed
    · rw [List.mem_singleton.mp hServiced]
      rfl
  · rcases List.mem_append.mp h with hTraced | hExecution
    · exact isBoundary_of_mem_traceEvents hTraced
    · exact isBoundary_of_mem_executionEvents hExecution

/-- A step carries out the instruction at the program counter unless it services an interrupt. -/
theorem filterMap_executedAt?_stepEvents (machine : Machine β ν) :
    machine.stepEvents.filterMap Event.executedAt? =
      match machine.processor.pendingInterrupt with
      | some _ => []
      | none => [machine.processor.registers.pc] := by
  have hWrites (effect : Effect) :
      (writeEvents effect : List (Event ν)).filterMap Event.executedAt? = [] := by
    simp [writeEvents, List.filterMap_map, Function.comp_def, Event.executedAt?]
  have hTrace : machine.traceEvents.filterMap Event.executedAt? = [] := by
    unfold traceEvents
    split
    · split <;> rfl
    · rfl
  unfold stepEvents
  cases machine.processor.pendingInterrupt with
  | some kind => simp [hWrites, Event.executedAt?]
  | none =>
      simp only [List.filterMap_append, hTrace, executionEvents, hWrites, List.nil_append]
      split <;> rfl

namespace Visits

variable {visit : List (Event ν)}

/-- A step makes no visit, or one at the program counter. -/
theorem eq_nil_or_visitEvents (visits : machine.Visits visit) :
    (visit = [] ∧ (machine.processor.pendingInterrupt = none →
      machine.traps.handler? machine.processor.registers.pc = none)) ∨
    (∃ notes, visit = visitEvents machine.processor.registers.pc notes) ∧
      machine.processor.pendingInterrupt = none ∧
      (machine.traps.handler? machine.processor.registers.pc).isSome := by
  unfold Visits at visits
  split at visits
  · next handler hPending hHandler =>
    obtain ⟨notes, _, hVisit⟩ := visits
    exact .inr ⟨⟨notes, hVisit⟩, hPending, by rw [hHandler]; rfl⟩
  · next hOther =>
    refine .inl ⟨visits, fun hPending => ?_⟩
    exact Option.eq_none_iff_forall_ne_some.mpr fun handler hHandler => hOther handler hPending hHandler

/-- What a step tells of the traps is left out when the visits are. -/
theorem outsideVisits_append (visits : machine.Visits visit) (earlier : List (Event ν)) :
    outsideVisits false (visit.reverse ++ earlier) = outsideVisits false earlier := by
  rcases visits.eq_nil_or_visitEvents with ⟨rfl, _⟩ | ⟨⟨notes, rfl⟩, _⟩
  · rfl
  · exact outsideVisits_visitEvents _ notes

/-- The handler that a step calls is the one at the instruction that the step carries out. -/
theorem calls_eq (visits : machine.Visits visit) :
    visit.reverse.filterMap Event.calledAt? =
      (machine.stepEvents.reverse.filterMap Event.executedAt?).filter
        fun address => (machine.traps.handler? address).isSome := by
  simp only [List.filterMap_reverse, filterMap_executedAt?_stepEvents]
  rcases visits.eq_nil_or_visitEvents with ⟨rfl, hNone⟩ | ⟨⟨notes, rfl⟩, hPending, hSome⟩
  · cases hPending : machine.processor.pendingInterrupt with
    | some kind => rfl
    | none => simp [hNone hPending]
  · rw [calls_visitEvents, hPending]
    simp [hSome]

end Visits

end

/-- A run with the traps of some machine and the same run without them have come equally far: the
processors and the switches are the same, the traps are those of the machine, and since then the journals
differ in the visits only. -/
structure Unnoticed (origin watched plain : Machine β ν) : Prop where
  processor : watched.processor = plain.processor
  tracing : watched.tracing = plain.tracing
  sink : watched.sink = plain.sink
  slots : ∀ address, watched.traps.slot? address = origin.traps.slot? address
  trapless : plain.Trapless
  journals : ∃ happened plainly,
    watched.journal = happened ++ origin.journal ∧ plain.journal = plainly ++ origin.journal ∧
      SameButVisits (fun address => (origin.traps.handler? address).isSome) happened plainly

namespace Unnoticed

variable {origin watched plain : Machine β ν}

/-- A run and the same run without traps begin alike. -/
theorem start (origin : Machine β ν) : Unnoticed origin origin origin.withoutTraps where
  processor := rfl
  tracing := rfl
  sink := rfl
  slots _ := rfl
  trapless := trapless_of_isEmpty rfl
  journals := ⟨[], [], rfl, rfl, rfl, rfl⟩

/-- The handlers that wait are at any time those that waited at first. -/
theorem handler?_eq (unnoticed : Unnoticed origin watched plain) (address : Address) :
    watched.traps.handler? address = origin.traps.handler? address :=
  congrArg Option.join (unnoticed.slots address)

/-- What the host does is recorded on both sides. -/
theorem record (unnoticed : Unnoticed origin watched plain) {events : List (Event ν)}
    (hHost : ∀ event ∈ events, event.isBoundary = false ∧ event.executedAt? = none) :
    Unnoticed origin (watched.record events) (plain.record events) where
  processor := unnoticed.processor
  tracing := unnoticed.tracing
  sink := unnoticed.sink
  slots := unnoticed.slots
  trapless := unnoticed.trapless
  journals := by
    obtain ⟨happened, plainly, hHappened, hPlainly, same⟩ := unnoticed.journals
    have hReversed (event : Event ν) (hEvent : event ∈ events.reverse) :
        event.isBoundary = false ∧ event.executedAt? = none :=
      hHost event (List.mem_reverse.mp hEvent)
    have hNone : events.reverse.filterMap Event.executedAt? = [] :=
      List.filterMap_eq_nil_iff.mpr fun event hEvent => (hReversed event hEvent).2
    have hSame : SameButVisits _ (events.reverse ++ ([] ++ happened)) (events.reverse ++ plainly) :=
      same.append rfl (fun event hEvent => (hReversed event hEvent).1) (by rw [hNone]; rfl)
    refine ⟨_, _, ?_, ?_, hSame⟩
    · rw [Machine.record, hHappened, List.nil_append, List.append_assoc]
    · rw [Machine.record, hPlainly, List.append_assoc]

variable [Bus β]

/-- What the host changes on the one it changes on the other, and the journals get the same
events. -/
theorem change (unnoticed : Unnoticed origin watched plain) (operation : Change β) :
    Unnoticed origin (watched.change operation) (plain.change operation) := by
  have hMoved : Unnoticed origin
      { watched with processor := operation.apply watched.processor }
      { plain with processor := operation.apply plain.processor } :=
    { unnoticed with processor := congrArg operation.apply unnoticed.processor }
  unfold Machine.change
  rw [unnoticed.processor] at hMoved ⊢
  refine hMoved.record fun event hEvent => ?_
  cases operation <;> simp_all [changeEvents, Event.isBoundary, Event.executedAt?]

/-- The events of a step are made from the processor and the switches, which are the same on
both. -/
theorem stepEvents_eq (unnoticed : Unnoticed origin watched plain) :
    plain.stepEvents = watched.stepEvents := by
  unfold stepEvents traceEvents
  rw [unnoticed.processor, unnoticed.tracing, unnoticed.sink]

/-- Both machines have a step, and it takes the same time. -/
theorem step (unnoticed : Unnoticed origin watched plain)
    (observes : origin.traps.Every Handler.Observes) :
    ∃ bound cost after other, watched.step (run? bound) = some (cost, after) ∧
      plain.step (run? bound) = some (cost, other) ∧ Unnoticed origin after other := by
  have hObserves (handler : Handler β ν)
      (hHandler : watched.traps.handler? watched.processor.registers.pc = some handler) :
      Handler.Observes handler := by
    rw [unnoticed.handler?_eq] at hHandler
    exact observes.of_slot? (Option.join_eq_some_iff.mp hHandler)
  obtain ⟨bound, visit, traps, hStep, visits, hSlots⟩ := step_of_observes hObserves
  obtain ⟨happened, plainly, hHappened, hPlainly, same⟩ := unnoticed.journals
  have hSame := same.append (visits.outsideVisits_append happened)
    (fun event hEvent => isBoundary_of_mem_stepEvents (List.mem_reverse.mp hEvent))
    (by simpa only [unnoticed.handler?_eq] using visits.calls_eq)
  refine ⟨bound, _, _, plain.advance, hStep, ?_, ?_⟩
  · rw [step_of_untrapped unnoticed.trapless.untrapped, unnoticed.processor]
  · exact {
      processor := by rw [processor_advance, ← unnoticed.processor]; rfl
      tracing := unnoticed.tracing.trans plain.surroundings_advance.2.1.symm
      sink := unnoticed.sink.trans plain.surroundings_advance.2.2.1.symm
      slots := fun address => (hSlots address).trans (unnoticed.slots address)
      trapless := unnoticed.trapless.advance
      journals := by
        refine ⟨_, _, ?_, ?_, hSame⟩
        · simp [Machine.record, hHappened]
        · simp [advance_eq_record, Machine.record, hPlainly, unnoticed.stepEvents_eq] }

/-- The two runs are in lockstep as long as all handlers observe. -/
theorem lockstep (observes : origin.traps.Every Handler.Observes) :
    Lockstep (Unnoticed origin) where
  processor := processor
  tracing := tracing
  note entry unnoticed := unnoticed.record fun event hEvent => by
    rw [List.mem_singleton.mp hEvent]
    exact ⟨rfl, rfl⟩
  change operation unnoticed := unnoticed.change operation
  setTracing on unnoticed := { unnoticed with tracing := rfl }
  setSink on unnoticed := { unnoticed with sink := rfl }
  step unnoticed := unnoticed.step observes

end Unnoticed

variable [Bus β] {machine : Machine β ν}

/-- With handlers that observe at any addresses, a step does what it does without them, and takes as long;
the journal tells of a visit beforehand, exactly if the step services no interrupt and a handler waits at
the program counter, which it is called with. And every script that leaves the trap table alone, with any
steps and loops, ends with the traps exactly if it ends without them, and then leaves the same processor
and, apart from the visits, the same journal, with one visit at each address for each instruction that was
carried out there. -/
theorem observing_traps_unnoticed (observes : machine.traps.Every Handler.Observes) :
    (∃ bound visit cost after events, machine.step (run? bound) = some (cost, after) ∧
      (∀ run, machine.withoutTraps.step run = some (cost, machine.withoutTraps.advance)) ∧
      after.processor = machine.withoutTraps.advance.processor ∧
      machine.Visits visit ∧ after.history = machine.history ++ (visit ++ events) ∧
      machine.withoutTraps.advance.history = machine.history ++ events) ∧
    ∀ script : Program β ν, script.IgnoresTraps →
      (∀ watched, Ends script machine watched →
        ∃ plain, Ends script machine.withoutTraps plain ∧ Unnoticed machine watched plain) ∧
      ∀ plain, Ends script machine.withoutTraps plain →
        ∃ watched, Ends script machine watched ∧ Unnoticed machine watched plain := by
  constructor
  · obtain ⟨bound, visit, traps, hStep, visits, _⟩ := step_of_observes fun handler hHandler =>
      observes.of_slot? (Option.join_eq_some_iff.mp hHandler)
    have hTrapless : machine.withoutTraps.Trapless := trapless_of_isEmpty rfl
    refine ⟨bound, visit, _, _, machine.stepEvents, hStep, step_of_untrapped hTrapless.untrapped,
      ?_, visits, history_record _ _, ?_⟩
    · rw [processor_advance]
      rfl
    · rw [advance_eq_record]
      exact history_record _ _
  · intro script ignores
    have hStart := Unnoticed.start machine
    have hLockstep := Unnoticed.lockstep observes
    exact ⟨fun _ hEnds => hLockstep.exists_ends ignores hStart hEnds,
      fun _ hEnds => hLockstep.symm.exists_ends ignores hStart hEnds⟩

/-- A loop of two instructions, and an interrupt handler that returns at once. -/
def interruptedRam : Ram :=
  (((((Ram.zero.setVector resetVector 0x8000).setVector Interrupt.nmi.vector 0x9000).write
    0x8000 0xEA).write 0x8001 0x4C).write 0x8003 0x80).write 0x9000 0x40

def noteAddress : Handler Ram Address := fun address => .note address .done

theorem observes_noteAddress : Handler.Observes noteAddress :=
  fun machine => ⟨[machine.processor.registers.pc], 1, rfl⟩

/-- The loop with its first instruction and the interrupt handler under observation. -/
def observed : Machine Ram Address :=
  (((powerOn {} interruptedRam).registerTrap 0x8000 noteAddress).2.registerTrap 0x9000 noteAddress).2

/-- Goes through the loop, interrupts it at its first instruction, and goes on. -/
def interrupting : Program Ram Address :=
  .step fun _ => .step fun _ => .change (.driveNmi true)
    (.step fun _ => .step fun _ => .step fun _ => .done)

/-- The step that services the interrupt calls no handler, although one waits where it starts. -/
theorem observing_traps_unnoticed_of_interrupt :
    observed.traps.Every Handler.Observes ∧ interrupting.IgnoresTraps ∧
      ∃ watched plain, Ends interrupting observed watched ∧
        Ends interrupting observed.withoutTraps plain ∧ watched.processor = plain.processor ∧
        watched.journal.filterMap Event.calledAt? = [0x8000, 0x9000, 0x8000] ∧
        plain.journal.filterMap Event.executedAt? = [0x8000, 0x9000, 0x8001, 0x8000] := by
  have observes : observed.traps.Every Handler.Observes := by
    intro slot hSlot handler hHandler
    obtain rfl | rfl : slot = (0x8000, some noteAddress) ∨ slot = (0x9000, some noteAddress) := by
      simpa using (show slot ∈ [(0x8000, some noteAddress), (0x9000, some noteAddress)] from hSlot)
    all_goals
      cases hHandler
      exact observes_noteAddress
  have ignores : interrupting.IgnoresTraps := fun _ _ _ _ _ => trivial
  obtain ⟨watched, hWatched, hCalls⟩ : ∃ watched, run? 9 interrupting observed = some watched ∧
      watched.journal.filterMap Event.calledAt? = [0x8000, 0x9000, 0x8000] := ⟨_, rfl, rfl⟩
  obtain ⟨expected, hExpected, hExecuted⟩ : ∃ plain,
      run? 9 interrupting observed.withoutTraps = some plain ∧
      plain.journal.filterMap Event.executedAt? = [0x8000, 0x9000, 0x8001, 0x8000] := ⟨_, rfl, rfl⟩
  obtain ⟨plain, ⟨bound, hPlain⟩, unnoticed⟩ :=
    ((observing_traps_unnoticed observes).2 interrupting ignores).1 watched ⟨9, hWatched⟩
  rw [← run?_unique hPlain hExpected] at hExecuted
  exact ⟨observes, ignores, watched, plain, ⟨9, hWatched⟩, ⟨bound, hPlain⟩, unnoticed.processor, hCalls,
    hExecuted⟩

end Machine

end Mos6510
