import Mos6510.Machine.Bound
import Mathlib.Logic.Relation

/-!
Runs taken apart into transitions. A configuration is a machine in the middle of a run: the program
that is being carried out, and what the steps go on with whose handlers have not ended. Every
transition carries out one operation. Main statement: a run has a result exactly when its
configuration comes to rest, and then the results agree. What every transition preserves therefore
holds wherever a run is looked at, also within a handler, and also if the run never ends.
-/

namespace Mos6510

open Machine

/-- A machine in the middle of a run. -/
structure Configuration (β ν : Type) where
  machine : Machine β ν
  /-- What is being carried out: the program of the host, or the innermost handler. -/
  program : Program β ν
  /-- What the steps go on with whose handlers run, the innermost first. -/
  waiting : List (Nat → Program β ν)

namespace Configuration

variable {β ν : Type} [Bus β]

/-- The start of a run. -/
def start (machine : Machine β ν) (program : Program β ν) : Configuration β ν :=
  ⟨machine, program, []⟩

/-- A host and its program when the machine is first switched on. -/
def powerOn (setup : Setup) (bus : β) (program : Program β ν) : Configuration β ν :=
  start (Machine.powerOn setup bus) program

/-- The beginning of a step, which is the whole of it unless it calls a handler. -/
def beginStep (machine : Machine β ν) (resume : Nat → Program β ν)
    (waiting : List (Nat → Program β ν)) : Configuration β ν :=
  match machine.processor.pendingInterrupt with
  | some kind => ⟨machine.service kind, resume Interrupt.cycles, waiting⟩
  | none =>
    match machine.enterTrap? with
    | none => ⟨machine.execute, resume machine.processor.cost, waiting⟩
    | some (handler, entered) => ⟨entered, handler, resume :: waiting⟩

/-- Carries out one operation. When a handler ends, it is put back and the instruction of the step
that called it is carried out. There is no transition once the program of the host has ended. -/
def next? : Configuration β ν → Option (Configuration β ν)
  | ⟨_, .done, []⟩ => none
  | ⟨machine, .done, resume :: waiting⟩ =>
    some ⟨machine.leaveTrap.execute, resume machine.leaveTrap.processor.cost, waiting⟩
  | ⟨machine, .look next, waiting⟩ => some ⟨machine, next machine.processor, waiting⟩
  | ⟨machine, .survey next, waiting⟩ => some ⟨machine, next machine.panel, waiting⟩
  | ⟨machine, .note entry next, waiting⟩ => some ⟨machine.record [.noted entry], next, waiting⟩
  | ⟨machine, .change operation next, waiting⟩ => some ⟨machine.change operation, next, waiting⟩
  | ⟨machine, .setTracing on next, waiting⟩ => some ⟨{ machine with tracing := on }, next, waiting⟩
  | ⟨machine, .setSink on next, waiting⟩ => some ⟨{ machine with sink := on }, next, waiting⟩
  | ⟨machine, .step resume, waiting⟩ => some (beginStep machine resume waiting)
  | ⟨machine, .stepWhile condition next, waiting⟩ =>
    if condition machine.processor then
      some ⟨machine, .step fun _ => .stepWhile condition next, waiting⟩
    else some ⟨machine, next, waiting⟩
  | ⟨machine, .register address handler next, waiting⟩ =>
    let (accepted, after) := machine.registerTrap address handler
    some ⟨after, next accepted, waiting⟩
  | ⟨machine, .remove address next, waiting⟩ =>
    let (present, after) := machine.removeTrap address
    some ⟨after, next present, waiting⟩

end Configuration

/-- An execution from one configuration to another, with the configurations that it left, the latest
first. -/
inductive Execution {β ν : Type} [Bus β] (first : Configuration β ν) :
    List (Configuration β ν) → Configuration β ν → Prop where
  | refl : Execution first [] first
  | next {history : List (Configuration β ν)} {middle last : Configuration β ν}
      (prior : Execution first history middle) (hNext : middle.next? = some last) :
      Execution first (middle :: history) last

/-- Some execution leads from one configuration to another. -/
def Reaches {β ν : Type} [Bus β] (first last : Configuration β ν) : Prop :=
  ∃ history, Execution first history last

namespace Execution

variable {β ν : Type} [Bus β] {first middle last : Configuration β ν}
  {history later : List (Configuration β ν)}

/-- Executions follow one another. -/
theorem trans (left : Execution first history middle) (right : Execution middle later last) :
    Execution first (later ++ history) last := by
  induction right with
  | refl => exact left
  | next prior hNext ih => exact .next ih hNext

/-- A configuration at rest is left by no execution. -/
theorem eq_of_rest (run : Execution first history last) (hRest : first.next? = none) :
    last = first := by
  induction run with
  | refl => rfl
  | next prior hNext ih =>
      rw [ih, hRest] at hNext
      cases hNext

/-- An execution that comes to rest begins with the transition of its first configuration. -/
theorem head (run : Execution first history last) (hRest : last.next? = none)
    (hNext : first.next? = some middle) :
    ∃ rest, Execution middle rest last ∧ rest.length < history.length := by
  have hSplit : (history = [] ∧ last = first) ∨
      ∃ rest, Execution middle rest last ∧ rest.length < history.length := by
    clear hRest
    induction run with
    | refl => exact .inl ⟨rfl, rfl⟩
    | next prior hLast ih =>
        rcases ih with ⟨rfl, rfl⟩ | ⟨rest, hTail, hLength⟩
        · cases hNext.symm.trans hLast
          exact .inr ⟨[], .refl, by simp⟩
        · exact .inr ⟨_, .next hTail hLast, by simpa using hLength⟩
  rcases hSplit with ⟨_, rfl⟩ | hSplit
  · rw [hNext] at hRest
    cases hRest
  · exact hSplit

end Execution

namespace Reaches

variable {β ν : Type} [Bus β] {first middle last : Configuration β ν}

theorem refl (first : Configuration β ν) : Reaches first first := ⟨[], .refl⟩

theorem trans (left : Reaches first middle) (right : Reaches middle last) : Reaches first last := by
  obtain ⟨_, left⟩ := left
  obtain ⟨_, right⟩ := right
  exact ⟨_, left.trans right⟩

theorem head (hNext : first.next? = some middle) (rest : Reaches middle last) :
    Reaches first last :=
  trans ⟨_, .next .refl hNext⟩ rest

end Reaches

namespace Machine

variable {β ν : Type} [Bus β]

/-- The changes that a machine undergoes, one at a time. -/
inductive Move : Machine β ν → Machine β ν → Prop where
  | note (machine : Machine β ν) (entry : ν) : Move machine (machine.record [.noted entry])
  | change (machine : Machine β ν) (operation : Change β) : Move machine (machine.change operation)
  | setTracing (machine : Machine β ν) (on : Bool) : Move machine { machine with tracing := on }
  | setSink (machine : Machine β ν) (on : Bool) : Move machine { machine with sink := on }
  | service (machine : Machine β ν) (kind : Interrupt)
      (hPending : machine.processor.pendingInterrupt = some kind) :
      Move machine (machine.service kind)
  | execute (machine : Machine β ν) : Move machine machine.execute
  | enter (machine entered : Machine β ν) (handler : Program β ν)
      (hEnter : machine.enterTrap? = some (handler, entered)) : Move machine entered
  | leave (machine : Machine β ν) : Move machine machine.leaveTrap
  | register (machine : Machine β ν) (address : Address) (handler : Handler β ν) :
      Move machine (machine.registerTrap address handler).2
  | remove (machine : Machine β ν) (address : Address) :
      Move machine (machine.removeTrap address).2

/-- Any number of changes, one after another. -/
abbrev Moves : Machine β ν → Machine β ν → Prop := Relation.ReflTransGen Move

end Machine

namespace Configuration

variable {β ν : Type} [Bus β]

section

variable {machine entered : Machine β ν} {resume : Nat → Program β ν} {handler : Program β ν}
  {waiting : List (Nat → Program β ν)} {kind : Interrupt}

/-- A step that services an interrupt is complete in one transition. -/
theorem beginStep_service (hPending : machine.processor.pendingInterrupt = some kind) :
    beginStep machine resume waiting =
      ⟨machine.service kind, resume Interrupt.cycles, waiting⟩ := by
  simp only [beginStep, hPending]

theorem beginStep_execute (hPending : machine.processor.pendingInterrupt = none)
    (hEnter : machine.enterTrap? = none) :
    beginStep machine resume waiting =
      ⟨machine.execute, resume machine.processor.cost, waiting⟩ := by
  simp only [beginStep, hPending, hEnter]

/-- A step that calls a handler waits for it, and the program of the handler comes first. -/
theorem beginStep_enter (hPending : machine.processor.pendingInterrupt = none)
    (hEnter : machine.enterTrap? = some (handler, entered)) :
    beginStep machine resume waiting = ⟨entered, handler, resume :: waiting⟩ := by
  simp only [beginStep, hPending, hEnter]

end

/-- A step begins by servicing an interrupt, by carrying out an instruction, or by calling a
handler. -/
theorem move_beginStep (machine : Machine β ν) (resume : Nat → Program β ν)
    (waiting : List (Nat → Program β ν)) : Move machine (beginStep machine resume waiting).machine := by
  unfold beginStep
  split
  · next kind hPending => exact .service machine kind hPending
  · split
    · exact .execute machine
    · next handler entered hEnter => exact .enter machine entered handler hEnter

/-- A transition changes the machine by moves. Only the end of a handler takes two of them. -/
theorem moves_of_next? {before after : Configuration β ν} (h : before.next? = some after) :
    Moves before.machine after.machine := by
  obtain ⟨machine, program, waiting⟩ := before
  cases program with
  | done =>
      cases waiting with
      | nil => cases h
      | cons resume waiting =>
          cases h
          exact .tail (.single (.leave machine)) (.execute machine.leaveTrap)
  | look next => cases h; exact .refl
  | survey next => cases h; exact .refl
  | note entry next => cases h; exact .single (.note machine entry)
  | change operation next => cases h; exact .single (.change machine operation)
  | setTracing on next => cases h; exact .single (.setTracing machine on)
  | setSink on next => cases h; exact .single (.setSink machine on)
  | step resume => cases h; exact .single (move_beginStep machine resume waiting)
  | stepWhile condition next =>
      rw [next?] at h
      split at h <;> cases h <;> exact .refl
  | register address handler next => cases h; exact .single (.register machine address handler)
  | remove address next => cases h; exact .single (.remove machine address)

end Configuration

namespace Execution

variable {β ν : Type} [Bus β] {first last : Configuration β ν} {history : List (Configuration β ν)}

/-- An execution changes the machine by moves. -/
theorem moves (run : Execution first history last) : Moves first.machine last.machine := by
  induction run with
  | refl => exact .refl
  | next prior hNext ih => exact ih.trans (Configuration.moves_of_next? hNext)

end Execution

namespace Machine

variable {β ν : Type} [Bus β]

/-- A runner is carried out by transitions when every result that it has is reached by them, whatever
waits for it. -/
def Realized (run : Runner β ν) : Prop :=
  ∀ program machine result waiting, run program machine = some result →
    Reaches ⟨machine, program, waiting⟩ ⟨result, .done, waiting⟩

/-- A step is carried out by transitions if the handler that it may call is: one to begin it, those
of the handler, and one to complete it. -/
theorem reaches_of_step {run : Runner β ν} (hRun : Realized run) {machine after : Machine β ν}
    {cost : Nat} (h : machine.step run = some (cost, after)) (resume : Nat → Program β ν)
    (waiting : List (Nat → Program β ν)) :
    Reaches ⟨machine, .step resume, waiting⟩ ⟨after, resume cost, waiting⟩ := by
  have hBegin : Configuration.next? ⟨machine, .step resume, waiting⟩ =
      some (Configuration.beginStep machine resume waiting) := rfl
  apply Reaches.head hBegin
  unfold step at h
  split at h
  · next kind hPending =>
    cases h
    rw [Configuration.beginStep_service hPending]
    exact .refl _
  · next hPending =>
    split at h
    · next hEnter =>
      cases h
      rw [Configuration.beginStep_execute hPending hEnter]
      exact .refl _
    · next handler entered hEnter =>
      obtain ⟨finished, hFinished, hAfter⟩ := Option.map_eq_some_iff.mp h
      cases hAfter
      rw [Configuration.beginStep_enter hPending hEnter]
      have hHandler := hRun handler entered finished (resume :: waiting) hFinished
      exact hHandler.trans (.head rfl (.refl _))

/-- A loop is carried out by transitions, turn by turn. -/
theorem reaches_of_stepWhile {run : Runner β ν} (hRun : Realized run)
    {condition : Processor β → Bool} {turns : Nat} {machine after : Machine β ν}
    (h : machine.stepWhile run condition turns = some after) (next : Program β ν)
    (waiting : List (Nat → Program β ν)) :
    Reaches ⟨machine, .stepWhile condition next, waiting⟩ ⟨after, next, waiting⟩ := by
  induction turns generalizing machine with
  | zero =>
      unfold stepWhile at h
      split at h
      · cases h
      · next hStop =>
        cases h
        exact .head (by rw [Configuration.next?, if_neg hStop]) (.refl _)
  | succ turns ih =>
      unfold stepWhile at h
      split at h
      · next hGo =>
        obtain ⟨⟨cost, stepped⟩, hStep, hRest⟩ := Option.bind_eq_some_iff.mp h
        have hTurn := reaches_of_step hRun hStep (fun _ => .stepWhile condition next) waiting
        exact .head (by rw [Configuration.next?, if_pos hGo]) (hTurn.trans (ih hRest))
      · next hStop =>
        cases h
        exact .head (by rw [Configuration.next?, if_neg hStop]) (.refl _)

/-- Programs are carried out by transitions if their handlers are. -/
theorem Realized.runWith {run : Runner β ν} (hRun : Realized run) (turns : Nat) :
    Realized (Machine.runWith run turns) := by
  intro program machine result waiting h
  induction program generalizing machine with
  | done =>
      cases h
      exact .refl _
  | look next ih => exact .head rfl (ih _ _ h)
  | survey next ih => exact .head rfl (ih _ _ h)
  | note entry next ih => exact .head rfl (ih _ h)
  | change operation next ih => exact .head rfl (ih _ h)
  | setTracing on next ih => exact .head rfl (ih _ h)
  | setSink on next ih => exact .head rfl (ih _ h)
  | step next ih =>
      obtain ⟨⟨cost, after⟩, hStep, hRest⟩ := Option.bind_eq_some_iff.mp h
      exact (reaches_of_step hRun hStep next waiting).trans (ih _ _ hRest)
  | stepWhile condition next ih =>
      obtain ⟨after, hLoop, hRest⟩ := Option.bind_eq_some_iff.mp h
      exact (reaches_of_stepWhile hRun hLoop next waiting).trans (ih _ hRest)
  | register address handler next _ ih => exact .head rfl (ih _ _ h)
  | remove address next ih => exact .head rfl (ih _ _ h)

/-- Every result of a run is reached by transitions. -/
theorem realized_run? (bound : Nat) : Realized (run? bound : Runner β ν) := by
  induction bound with
  | zero =>
      intro program machine result waiting h
      cases h
  | succ bound ih => exact ih.runWith bound

/-- A program has a result, whatever the bound that it takes. -/
def Ends (program : Program β ν) (machine result : Machine β ν) : Prop :=
  ∃ bound, run? bound program machine = some result

/-- A program that steps has the result that its continuation has after the step. The two may take
different bounds, and the larger one does for both. -/
theorem Ends.step {bound cost : Nat} {resume : Nat → Program β ν}
    {machine after result : Machine β ν} (hStep : machine.step (run? bound) = some (cost, after))
    (hRest : Ends (resume cost) after result) : Ends (.step resume) machine result := by
  obtain ⟨other, hRest⟩ := hRest
  have hStep' := step_eq_some_of_extends (run?_extends (Nat.le_max_left bound other)) hStep
  refine ⟨max bound other + 1, ?_⟩
  rw [run?, runWith, hStep', Option.bind_some]
  exact run?_extends (Nat.le_succ_of_le (Nat.le_max_right bound other)) _ _ _ hRest

/-- A loop whose condition holds is a step followed by the loop. -/
theorem Ends.stepWhile {condition : Processor β → Bool} {next : Program β ν}
    {machine result : Machine β ν} (hGo : condition machine.processor = true)
    (hTurn : Ends (.step fun _ => .stepWhile condition next) machine result) :
    Ends (.stepWhile condition next) machine result := by
  obtain ⟨bound, hTurn⟩ := hTurn
  cases bound with
  | zero => cases hTurn
  | succ bound =>
      obtain ⟨⟨cost, stepped⟩, hStep, hRest⟩ := Option.bind_eq_some_iff.mp hTurn
      obtain ⟨after, hLoop, hLast⟩ := Option.bind_eq_some_iff.mp hRest
      have hExtends : Extends (run? bound : Runner β ν) (run? (bound + 1)) :=
        run?_extends (Nat.le_succ bound)
      have hLoop' : machine.stepWhile (run? (bound + 1)) condition (bound + 1) = some after := by
        rw [Machine.stepWhile, if_pos hGo, step_eq_some_of_extends hExtends hStep, Option.bind_some]
        exact stepWhile_eq_some_of_le hExtends (Nat.le_refl bound) hLoop
      refine ⟨bound + 2, ?_⟩
      rw [run?, runWith, hLoop', Option.bind_some]
      exact runWith_extends hExtends (Nat.le_succ bound) _ _ _ hLast

/-- An operation other than a step leads to what comes next. -/
theorem Ends.of_eq {program next : Program β ν} {machine after result : Machine β ν}
    (hEq : ∀ run turns, runWith run turns program machine = runWith run turns next after)
    (hRest : Ends next after result) : Ends program machine result := by
  obtain ⟨bound, hRest⟩ := hRest
  cases bound with
  | zero => cases hRest
  | succ bound => exact ⟨bound + 1, (hEq _ _).trans hRest⟩

/-- What transitions bring to rest has a result. The induction is on the length of the execution,
since a handler is followed by the rest of the program that stepped into it. -/
theorem exists_ends_of_execution {machine : Machine β ν} {program : Program β ν}
    {waiting : List (Nat → Program β ν)} {history : List (Configuration β ν)}
    {last : Configuration β ν} (run : Execution ⟨machine, program, waiting⟩ history last)
    (hRest : last.next? = none) :
    ∃ result rest, Ends program machine result ∧
      Execution ⟨result, .done, waiting⟩ rest last ∧ rest.length ≤ history.length := by
  induction hLength : history.length using Nat.strongRecOn
    generalizing machine program waiting history with
  | ind length ih =>
    subst hLength
    -- One transition leads to a configuration whose program has a result.
    have hAfter {machine' : Machine β ν} {program' : Program β ν}
        {waiting' : List (Nat → Program β ν)}
        (hNext : Configuration.next? ⟨machine, program, waiting⟩ =
          some ⟨machine', program', waiting'⟩) :
        ∃ result rest, Ends program' machine' result ∧
          Execution ⟨result, .done, waiting'⟩ rest last ∧ rest.length < history.length := by
      obtain ⟨tail, hTail, hShorter⟩ := run.head hRest hNext
      obtain ⟨result, rest, hEnds, hDone, hLe⟩ := ih _ hShorter hTail rfl
      exact ⟨result, rest, hEnds, hDone, by omega⟩
    have hSimple {machine' : Machine β ν} {program' : Program β ν}
        (hNext : Configuration.next? ⟨machine, program, waiting⟩ =
          some ⟨machine', program', waiting⟩)
        (hEq : ∀ run turns, runWith run turns program machine =
          runWith run turns program' machine') :
        ∃ result rest, Ends program machine result ∧
          Execution ⟨result, .done, waiting⟩ rest last ∧ rest.length ≤ history.length := by
      obtain ⟨result, rest, hEnds, hDone, hLt⟩ := hAfter hNext
      exact ⟨result, rest, hEnds.of_eq hEq, hDone, Nat.le_of_lt hLt⟩
    cases program with
    | done => exact ⟨machine, history, ⟨1, rfl⟩, run, Nat.le_refl _⟩
    | look next => exact hSimple rfl fun _ _ => rfl
    | survey next => exact hSimple rfl fun _ _ => rfl
    | note entry next => exact hSimple rfl fun _ _ => rfl
    | change operation next => exact hSimple rfl fun _ _ => rfl
    | setTracing on next => exact hSimple rfl fun _ _ => rfl
    | setSink on next => exact hSimple rfl fun _ _ => rfl
    | step resume =>
        cases hPending : machine.processor.pendingInterrupt with
        | some kind =>
            obtain ⟨result, rest, hEnds, hDone, hLt⟩ :=
              hAfter (congrArg some (Configuration.beginStep_service hPending))
            have hStep : machine.step (run? 0) = some (Interrupt.cycles, machine.service kind) := by
              simp only [step, hPending]
            exact ⟨result, rest, hEnds.step hStep, hDone, Nat.le_of_lt hLt⟩
        | none =>
            cases hEnter : machine.enterTrap? with
            | none =>
                obtain ⟨result, rest, hEnds, hDone, hLt⟩ :=
                  hAfter (congrArg some (Configuration.beginStep_execute hPending hEnter))
                have hStep : machine.step (run? 0) =
                    some (machine.processor.cost, machine.execute) := by
                  simp only [step, hPending, hEnter]
                exact ⟨result, rest, hEnds.step hStep, hDone, Nat.le_of_lt hLt⟩
            | some called =>
                obtain ⟨handler, entered⟩ := called
                obtain ⟨finished, middle, ⟨bound, hFinished⟩, hLeft, hLt⟩ :=
                  hAfter (congrArg some (Configuration.beginStep_enter hPending hEnter))
                obtain ⟨tail, hTail, hShorter⟩ := hLeft.head hRest rfl
                obtain ⟨result, rest, hEnds, hDone, hLe⟩ := ih _ (by omega) hTail rfl
                have hStep : machine.step (run? bound) =
                    some (finished.leaveTrap.processor.cost, finished.leaveTrap.execute) := by
                  simp only [step, hPending, hEnter, hFinished, Option.map_some]
                exact ⟨result, rest, hEnds.step hStep, hDone, by omega⟩
    | stepWhile condition next =>
        by_cases hGo : condition machine.processor
        · obtain ⟨result, rest, hEnds, hDone, hLt⟩ := hAfter (by rw [Configuration.next?, if_pos hGo])
          exact ⟨result, rest, hEnds.stepWhile hGo, hDone, Nat.le_of_lt hLt⟩
        · have hStop (run : Runner β ν) (turns : Nat) :
              runWith run turns (.stepWhile condition next) machine =
                runWith run turns next machine := by
            have hLoop : machine.stepWhile run condition turns = some machine := by
              cases turns <;> rw [Machine.stepWhile, if_neg hGo]
            rw [runWith, hLoop, Option.bind_some]
          exact hSimple (by rw [Configuration.next?, if_neg hGo]) hStop
    | register address handler next => exact hSimple rfl fun _ _ => rfl
    | remove address next => exact hSimple rfl fun _ _ => rfl

/-- A program has a result exactly when its configuration comes to rest, and then the result is the
machine at rest. -/
theorem ends_iff_reaches {program : Program β ν} {machine result : Machine β ν} :
    Ends program machine result ↔ Reaches (.start machine program) (.start result .done) := by
  constructor
  · rintro ⟨bound, h⟩
    exact realized_run? bound program machine result [] h
  · rintro ⟨history, run⟩
    obtain ⟨other, rest, hEnds, hDone, _⟩ := exists_ends_of_execution run rfl
    cases hDone.eq_of_rest rfl
    exact hEnds

end Machine
end Mos6510
