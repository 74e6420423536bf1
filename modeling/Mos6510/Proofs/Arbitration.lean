import Mos6510.Proofs.Journal
import Mos6510.Ram

/-!
Interrupt arbitration. The non-maskable interrupt counts edges of its line: one is pending exactly
when the line has been asserted anew since the latest reset and the latest service of such an
interrupt. Main statement: wherever a run is looked at, the next step services the non-maskable
interrupt if there is such an edge, else the interrupt request if it is raised and not disabled, and
else carries out one instruction; and no service in the journal is without its reason.
-/

namespace Mos6510

variable {β ν : Type}

/-- The level that a journal leaves the non-maskable line at. It is released at first. -/
def nmiLevelOf : List (Event ν) → Bool
  | [] => false
  | .nmiDriven level :: _ => level
  | _ :: earlier => nmiLevelOf earlier

/-- Whether an event puts an end to a pending non-maskable interrupt. -/
def Event.settlesNmi : Event ν → Bool
  | .reset _ | .serviced .nmi _ _ => true
  | _ => false

/-- The non-maskable line has gone from released to asserted at least once since the latest reset and
the latest service of a non-maskable interrupt. -/
def UnservicedEdge (journal : List (Event ν)) : Prop :=
  ∃ later earlier, journal = later ++ .nmiDriven true :: earlier ∧ nmiLevelOf earlier = false ∧
    ∀ event ∈ later, event.settlesNmi = false

theorem not_unservicedEdge_nil : ¬UnservicedEdge ([] : List (Event ν)) := by
  rintro ⟨later, earlier, hJournal, _⟩
  simp at hJournal

/-- An event either is an edge itself, or leaves the edge that there is, if it does not settle
it. -/
theorem unservicedEdge_cons_iff {event : Event ν} {journal : List (Event ν)} :
    UnservicedEdge (event :: journal) ↔
      (event = .nmiDriven true ∧ nmiLevelOf journal = false) ∨
        (event.settlesNmi = false ∧ UnservicedEdge journal) := by
  constructor
  · rintro ⟨later, earlier, hJournal, hLevel, hLater⟩
    cases later with
    | nil =>
        cases hJournal
        exact .inl ⟨rfl, hLevel⟩
    | cons latest later =>
        cases hJournal
        exact .inr ⟨hLater event (by simp), later, earlier, rfl, hLevel,
          fun other h => hLater other (by simp [h])⟩
  · rintro (⟨rfl, hLevel⟩ | ⟨hEvent, later, earlier, rfl, hLevel, hLater⟩)
    · exact ⟨[], journal, rfl, hLevel, by simp⟩
    · refine ⟨event :: later, earlier, rfl, hLevel, fun other h => ?_⟩
      rcases List.mem_cons.mp h with rfl | h
      · exact hEvent
      · exact hLater other h

/-- An edge stays unserviced under events that do not concern the line. -/
theorem unservicedEdge_append_of_passive {events journal : List (Event ν)}
    (hPassive : ∀ event ∈ events, event.IsPassive) :
    UnservicedEdge (events ++ journal) ↔ UnservicedEdge journal := by
  induction events with
  | nil => rfl
  | cons event events ih =>
      have hEvent := hPassive event (by simp)
      rw [List.cons_append, unservicedEdge_cons_iff, ih fun other h => hPassive other (by simp [h])]
      cases event <;> simp_all [Event.IsPassive, Event.settlesNmi]

/-- Replaying a journal finds the line at its last level, and an interrupt pending for an edge that
has not been serviced. -/
theorem Standing.replay_nmi (journal : List (Event ν)) :
    (replay journal initial).nmiLevel = nmiLevelOf journal ∧
      ((replay journal initial).nmiPending = true ↔ UnservicedEdge journal) := by
  induction journal with
  | nil => exact ⟨rfl, by simp [initial, not_unservicedEdge_nil]⟩
  | cons event journal ih =>
      obtain ⟨hLevel, hPending⟩ := ih
      rw [replay_cons, unservicedEdge_cons_iff, ← hPending, ← hLevel]
      cases event with
      | serviced kind ret target => cases kind <;> simp [absorb, nmiLevelOf, Event.settlesNmi, hLevel]
      | nmiDriven level =>
          cases level <;> simp [absorb, nmiLevelOf, Event.settlesNmi, or_comm]
      | _ => simp [absorb, nmiLevelOf, Event.settlesNmi, hLevel]

namespace Machine

variable [Bus β] {run : Runner β ν} {machine after : Machine β ν} {cost : Nat}

/-- The host or the bus holds the interrupt-request line, and requests are not disabled. -/
def Requested (machine : Machine β ν) : Prop :=
  (machine.processor.lines.irqLevel = true ∨
      Bus.requestsInterrupt machine.processor.bus = true) ∧
    machine.processor.registers.flags.interruptDisable = false

/-- The machine whose instruction a step carries out: if a handler waits at the program counter, it
has run first. -/
def ready? (run : Runner β ν) (machine : Machine β ν) : Option (Machine β ν) :=
  match machine.enterTrap? with
  | none => some machine
  | some (handler, entered) => (run handler entered).map leaveTrap

/-- What a step has done: entered the handler of an interrupt, or carried out one instruction. -/
def Did (run : Runner β ν) (before after : Machine β ν) : Option Interrupt → Prop
  | some kind => after = before.service kind
  | none => ∃ ready, before.ready? run = some ready ∧ after = ready.execute

/-- A step services the interrupt that is pending, and else carries out the instruction that it
comes to once the handler of a trap has ended. -/
theorem step_eq (run : Runner β ν) (machine : Machine β ν) :
    machine.step run =
      match machine.processor.pendingInterrupt with
      | some kind => some (Interrupt.cycles, machine.service kind)
      | none => (machine.ready? run).map fun ready => (ready.processor.cost, ready.execute) := by
  cases hPending : machine.processor.pendingInterrupt with
  | some kind => simp only [step, hPending]
  | none =>
      cases hEnter : machine.enterTrap? with
      | none => simp only [step, ready?, hPending, hEnter, Option.map_some]
      | some called => simp only [step, ready?, hPending, hEnter, Option.map_map, Function.comp_def]

/-- A step does what the lines call for when it begins. No handler is in between. -/
theorem did_of_step (h : machine.step run = some (cost, after)) :
    Did run machine after machine.processor.pendingInterrupt := by
  rw [step_eq] at h
  split at h
  · next kind hPending =>
    rw [hPending]
    cases h
    rfl
  · next hPending =>
    rw [hPending]
    obtain ⟨ready, hReady, hAfter⟩ := Option.map_eq_some_iff.mp h
    cases hAfter
    exact ⟨ready, hReady, rfl⟩

/-- The latest event tells what a step has done, so it has done one thing only. -/
theorem Did.unique {first second : Option Interrupt} (hFirst : Did run machine after first)
    (hSecond : Did run machine after second) : first = second := by
  have hLatest {done : Option Interrupt} (hDid : Did run machine after done) :
      ∃ event earlier, after.journal = event :: earlier ∧
        done = match (event : Event ν) with | .serviced kind _ _ => some kind | _ => none := by
    cases done with
    | some kind =>
        obtain ⟨target, pushed, _, hJournal, _⟩ := journal_service machine kind
        exact ⟨_, _, hDid ▸ hJournal, rfl⟩
    | none =>
        obtain ⟨ready, _, rfl⟩ := hDid
        obtain ⟨passive, _, hJournal⟩ := journal_execute ready
        exact ⟨_, _, hJournal, rfl⟩
  obtain ⟨event, earlier, hJournal, rfl⟩ := hLatest hFirst
  obtain ⟨other, others, hOther, rfl⟩ := hLatest hSecond
  cases hJournal.symm.trans hOther
  rfl

/-- Which of the three a step does can be told from what is pending before it. -/
theorem did_iff (h : machine.step run = some (cost, after)) {done : Option Interrupt} :
    Did run machine after done ↔ machine.processor.pendingInterrupt = done :=
  ⟨fun hDid => (did_of_step h).unique hDid, fun hDone => hDone ▸ did_of_step h⟩

/-- The non-maskable interrupt goes first, and a request counts only if it is not disabled. -/
theorem pendingInterrupt_iff (machine : Machine β ν) :
    (machine.processor.pendingInterrupt = some .nmi ↔
      machine.processor.lines.nmiPending = true) ∧
    (machine.processor.pendingInterrupt = some .irq ↔
      ¬machine.processor.lines.nmiPending = true ∧ machine.Requested) ∧
    (machine.processor.pendingInterrupt = none ↔
      ¬machine.processor.lines.nmiPending = true ∧ ¬machine.Requested) := by
  unfold Processor.pendingInterrupt
  by_cases hNmi : machine.processor.lines.nmiPending = true
  · simp [hNmi]
  · have hRequested : (machine.processor.irqAsserted &&
        !machine.processor.registers.flags.interruptDisable) = true ↔ machine.Requested := by
      simp [Processor.irqAsserted, Requested]
    rw [if_neg hNmi]
    by_cases hIrq : machine.Requested
    · rw [if_pos (hRequested.mpr hIrq)]
      simp [hNmi, hIrq]
    · rw [if_neg fun h => hIrq (hRequested.mp h)]
      simp [hNmi, hIrq]

end Machine

/-- The reason for a service that follows a journal. A request was not disabled, as the flags show
that the service has pushed last. -/
def ServiceJustified : Interrupt → List (Event ν) → Prop
  | .nmi, earlier => UnservicedEdge earlier
  | .irq, earlier => ¬UnservicedEdge earlier ∧ ∃ address pushed rest,
      earlier = .wrote address pushed :: rest ∧ (Flags.ofByte pushed).interruptDisable = false

/-- Every service in a journal has its reason in what came before it. -/
def AllJustified (journal : List (Event ν)) : Prop :=
  ∀ later kind ret target earlier, journal = later ++ .serviced kind ret target :: earlier →
    ServiceJustified kind earlier

theorem AllJustified.append {journal events : List (Event ν)} (h : AllJustified journal)
    (hNone : ∀ kind ret target, .serviced kind ret target ∉ events) :
    AllJustified (events ++ journal) := by
  intro later kind ret target earlier hSplit
  rcases List.append_eq_append_iff.mp hSplit with ⟨between, rfl, hJournal⟩ | ⟨between, rfl, hEvents⟩
  · exact h between kind ret target earlier hJournal
  · cases between with
    | nil => exact h [] kind ret target earlier hEvents.symm
    | cons event between =>
        cases hEvents
        exact (hNone kind ret target (by simp)).elim

/-- A service of the interrupt that a step finds pending is justified by the journal before it. -/
theorem serviceJustified_of_pending [Bus β] {machine : Machine β ν} {kind : Interrupt}
    (hStanding : machine.processor.lines.nmiPending = true ↔ UnservicedEdge machine.journal)
    (hPending : machine.processor.pendingInterrupt = some kind) {address : Address}
    {pushed first : List (Event ν)} (hPassive : ∀ event ∈ pushed, event.IsPassive)
    (hFlags : pushed = .wrote address (machine.processor.registers.flags.pushed false) :: first) :
    ServiceJustified kind (pushed ++ machine.journal) := by
  have hEdge := hStanding.trans (unservicedEdge_append_of_passive hPassive).symm
  obtain ⟨hNmi, hIrq, _⟩ := machine.pendingInterrupt_iff
  cases kind with
  | nmi => exact hEdge.mp (hNmi.mp hPending)
  | irq =>
      obtain ⟨hNone, _, hEnabled⟩ := hIrq.mp hPending
      subst hFlags
      refine ⟨fun h => hNone (hEdge.mpr h), _, _, _, rfl, ?_⟩
      rw [Flags.ofByte_pushed, hEnabled]

namespace Machine

variable [Bus β] {setup : Setup} {bus : β} {machine : Machine β ν}

/-- The latch for edges is set exactly while the journal has an edge that was not serviced. -/
theorem nmiPending_iff (moves : Moves (powerOn setup bus) machine) :
    machine.processor.lines.nmiPending = true ↔ UnservicedEdge machine.journal := by
  rw [← (Standing.replay_nmi machine.journal).2, ← standing_eq_replay moves]
  rfl

theorem nmiLevel_eq (moves : Moves (powerOn setup bus) machine) :
    machine.processor.lines.nmiLevel = nmiLevelOf machine.journal := by
  rw [← (Standing.replay_nmi machine.journal).1, ← standing_eq_replay moves]
  rfl

/-- No interrupt is ever serviced without a reason, wherever the machine is looked at. -/
theorem allJustified (moves : Moves (powerOn setup bus) machine) : AllJustified machine.journal := by
  induction moves with
  | refl =>
      have hNone : AllJustified ([] : List (Event ν)) := by
        intro later kind ret target earlier hSplit
        simp at hSplit
      exact hNone.append (by simp : ∀ kind ret target,
        (.serviced kind ret target : Event ν) ∉ [.reset (Processor.powerOn bus).registers.pc])
  | @tail middle last prior move ih =>
      rcases move.service_or_accounts with ⟨kind, hPending, rfl⟩ | ⟨events, ⟨hJournal, _⟩, hNone⟩
      · obtain ⟨target, pushed, first, hJournal, hPassive, hFlags⟩ := journal_service middle kind
        rw [hJournal]
        intro later other ret target' earlier hSplit
        cases later with
        | nil =>
            cases hSplit
            exact serviceJustified_of_pending (nmiPending_iff prior) hPending hPassive hFlags
        | cons latest later =>
            have hPushes := ih.append fun kind ret target h => hPassive (.serviced kind ret target) h
            exact hPushes later other ret target' earlier (List.cons.inj hSplit).2
      · rw [hJournal]
        exact ih.append hNone

end Machine

namespace Execution

open Machine

variable [Bus β] {setup : Setup} {bus : β} {program : Program β ν}
  {history : List (Configuration β ν)} {last : Configuration β ν}

/-- Wherever an execution is looked at, the interrupt is pending exactly for an edge that has not been
serviced, and each step does one of three things: it services that interrupt, or else a request that
is not disabled, or else it carries out an instruction. Only a step with nothing to service can fail
to end, in its handler. Every service so far had its reason. -/
theorem step_arbitrated (run : Execution (.powerOn setup bus program) history last) :
    (last.machine.processor.lines.nmiPending = true ↔ UnservicedEdge last.machine.journal) ∧
    last.machine.processor.lines.nmiLevel = nmiLevelOf last.machine.journal ∧
    (∀ runner cost after, last.machine.step runner = some (cost, after) →
      (Did runner last.machine after (some .nmi) ↔ UnservicedEdge last.machine.journal) ∧
      (Did runner last.machine after (some .irq) ↔
        ¬UnservicedEdge last.machine.journal ∧ last.machine.Requested) ∧
      (Did runner last.machine after none ↔
        ¬UnservicedEdge last.machine.journal ∧ ¬last.machine.Requested)) ∧
    (∀ runner, last.machine.step runner = none →
      ¬UnservicedEdge last.machine.journal ∧ ¬last.machine.Requested) ∧
    AllJustified last.machine.journal := by
  have hStanding := nmiPending_iff run.moves
  obtain ⟨hNmi, hIrq, hNone⟩ := last.machine.pendingInterrupt_iff
  rw [hStanding] at hNmi hIrq hNone
  refine ⟨hStanding, nmiLevel_eq run.moves, fun runner cost after hStep => ?_,
    fun runner hStep => ?_, allJustified run.moves⟩
  · rw [did_iff hStep, did_iff hStep, did_iff hStep]
    exact ⟨hNmi, hIrq, hNone⟩
  · apply hNone.mp
    rw [step_eq] at hStep
    split at hStep
    · cases hStep
    · assumption

/-- A line that is held while its interrupt is serviced, and asserted once more without a release,
makes no second interrupt: the next step carries out an instruction. -/
theorem step_arbitrated_of_held_line :
    ∃ history last,
      Execution (.powerOn {} Ram.zero (.change (.driveNmi true) (.step fun _ =>
        .change (.driveNmi true) (.step fun _ => .done)))) history last ∧
      history.length = 3 ∧ nmiLevelOf last.machine.journal = true ∧
      ¬UnservicedEdge last.machine.journal ∧
      Did (run? 0) last.machine (last.machine.execute : Machine Ram Empty) none := by
  have run : Execution (.powerOn (ν := Empty) {} Ram.zero (.change (.driveNmi true) (.step fun _ =>
      .change (.driveNmi true) (.step fun _ => .done)))) _ _ :=
    .next (.next (.next .refl rfl) rfl) rfl
  obtain ⟨hPending, hLevel, hSteps, _⟩ := run.step_arbitrated
  have hNone := mt hPending.mpr Bool.false_ne_true
  refine ⟨_, _, run, rfl, hLevel.symm.trans rfl, hNone, ?_⟩
  obtain ⟨_, _, hExecuted⟩ := hSteps (run? 0) _ _ rfl
  exact hExecuted.mpr ⟨hNone, fun hRequested => by cases hRequested.1 <;> contradiction⟩

end Execution

end Mos6510
