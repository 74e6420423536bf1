import Mos6510.Proofs.CycleLedger
import Mos6510.Proofs.TrapRegistry

/-!
Traps cover the instructions at their addresses. A step looks at the trap table once, at the address
that it starts from. Main statement: an instruction at an address where a handler waited is carried
out only after that handler has run, however the program counter came there, with one exception: the
handler of another trap has moved it there within the same step.
-/

namespace Mos6510

namespace Machine

variable {β ν : Type}

/-- Between two points of a run a handler of an address has been called, and has ended. -/
def Hooked (before after : Machine β ν) (address : Address) : Prop :=
  ∃ later during earlier, after.journal =
    later ++ .trapLeft address :: (during ++ .trapEntered address :: (earlier ++ before.journal))

/-- A handler that has been called is in the journal. -/
theorem Hooked.mem_journal {before after : Machine β ν} {address : Address}
    (hooked : Hooked before after address) : .trapEntered address ∈ after.journal := by
  obtain ⟨later, during, earlier, hJournal⟩ := hooked
  rw [hJournal]
  simp

/-- The handler that is called at the start of a step leaves the program counter at another address
than it was called at. -/
def Redirects (run : Runner β ν) (machine : Machine β ν) (address : Address) : Prop :=
  ∃ handler entered finished, machine.enterTrap? = some (handler, entered) ∧
    run handler entered = some finished ∧ finished.processor.registers.pc = address ∧
    machine.processor.registers.pc ≠ address

variable {machine after : Machine β ν} {run : Runner β ν}

/-- A runner is balanced when it leaves no other handlers running than it has found. -/
def Balanced (run : Runner β ν) : Prop :=
  ∀ program machine result, run program machine = some result → result.running = machine.running

namespace Balanced

theorem ready? (balanced : Balanced run) (h : machine.ready? run = some after) :
    after.running = machine.running := by
  unfold Machine.ready? at h
  split at h
  · cases h
    rfl
  · next handler entered hEnter =>
    obtain ⟨finished, hFinished, rfl⟩ := Option.map_eq_some_iff.mp h
    obtain ⟨_, _, _, _, hRunning⟩ := of_enterTrap? hEnter
    rw [running_leaveTrap, balanced _ _ _ hFinished, hRunning, List.tail_cons]

variable [Bus β]

/-- A balanced step has no other handlers running afterwards: the one that it calls is taken off
again. -/
theorem step (balanced : Balanced run) {cost : Nat} (h : machine.step run = some (cost, after)) :
    after.running = machine.running := by
  rw [step_eq] at h
  split at h
  · cases h
    rfl
  · obtain ⟨ready, hReady, hAfter⟩ := Option.map_eq_some_iff.mp h
    cases hAfter
    exact (balanced.ready? hReady : ready.running = machine.running)

theorem stepWhile (balanced : Balanced run) {condition : Processor β → Bool} {turns : Nat}
    (h : machine.stepWhile run condition turns = some after) : after.running = machine.running := by
  induction turns generalizing machine with
  | zero =>
      unfold Machine.stepWhile at h
      split at h <;> cases h
      rfl
  | succ turns ih =>
      unfold Machine.stepWhile at h
      split at h
      · obtain ⟨⟨cost, stepped⟩, hStep, hRest⟩ := Option.bind_eq_some_iff.mp h
        exact (ih hRest).trans (balanced.step hStep)
      · cases h
        rfl

/-- Programs are balanced if the handlers that they step into are. -/
theorem runWith (balanced : Balanced run) (turns : Nat) : Balanced (Machine.runWith run turns) := by
  intro program machine result h
  induction program generalizing machine with
  | done =>
      cases h
      rfl
  | step next ih =>
      obtain ⟨⟨cost, stepped⟩, hStep, hRest⟩ := Option.bind_eq_some_iff.mp h
      exact (ih _ _ hRest).trans (balanced.step hStep)
  | stepWhile condition next ih =>
      obtain ⟨stepped, hLoop, hRest⟩ := Option.bind_eq_some_iff.mp h
      exact (ih _ hRest).trans (balanced.stepWhile hLoop)
  | register address handler next _ ih =>
      exact (ih _ _ h).trans (running_registerTrap machine address handler)
  | look next ih => exact ih _ _ h
  | survey next ih => exact ih _ _ h
  | note entry next ih => exact ih (machine.record [.noted entry]) h
  | change operation next ih => exact ih (machine.change operation) h
  | setTracing on next ih => exact ih { machine with tracing := on } h
  | setSink on next ih => exact ih { machine with sink := on } h
  | remove address next ih => exact ih _ (machine.removeTrap address).2 h

end Balanced

variable [Bus β]

/-- Every run leaves as many handlers running as it has found, namely the same. -/
theorem balanced_run? (bound : Nat) : Balanced (run? bound : Runner β ν) := by
  induction bound with
  | zero =>
      intro program machine result h
      cases h
  | succ bound ih => exact ih.runWith bound

/-- A run adds events to the journal and removes none. -/
theorem exists_journal_eq_of_run? {bound : Nat} {program : Program β ν} {machine result : Machine β ν}
    (h : run? bound program machine = some result) :
    ∃ events, result.journal = events ++ machine.journal := by
  obtain ⟨history, execution⟩ := realized_run? bound program machine result [] h
  obtain ⟨events, hJournal, _⟩ := exists_accounts_of_moves execution.moves
  exact ⟨events, hJournal⟩

/-- Calling the handler that waits at the program counter and running it to its end hooks its
address. -/
theorem hooked_of_enterTrap? {bound : Nat} {program : Program β ν} {entered finished : Machine β ν}
    (hEnter : machine.enterTrap? = some (program, entered))
    (hRun : run? bound program entered = some finished) :
    Hooked machine finished.leaveTrap machine.processor.registers.pc := by
  obtain ⟨handler, _, _, _, hRunning⟩ := of_enterTrap? hEnter
  obtain ⟨during, hDuring⟩ := exists_journal_eq_of_run? hRun
  have hEntered : entered.journal =
      .trapEntered machine.processor.registers.pc :: machine.journal := by
    obtain ⟨_, _, hCalled⟩ := Option.map_eq_some_iff.mp hEnter
    cases hCalled
    rfl
  have hFinished := (balanced_run? bound _ _ _ hRun).trans hRunning
  refine ⟨[], during, [], ?_⟩
  simp only [leaveTrap, hFinished, record, hDuring, hEntered]
  rfl

/-- An instruction where a handler waited is carried out only after that handler, unless the program
counter has been redirected. -/
theorem hooked_or_redirects_of_ready? {bound : Nat} {ready : Machine β ν} {handler : Handler β ν}
    (hReady : machine.ready? (run? bound) = some ready)
    (hWaits : machine.traps.handler? ready.processor.registers.pc = some handler) :
    Hooked machine ready ready.processor.registers.pc ∨
      Hooked machine ready machine.processor.registers.pc ∧
        Redirects (run? bound) machine ready.processor.registers.pc := by
  unfold ready? at hReady
  split at hReady
  · next hEnter =>
    cases hReady
    rw [enterTrap?_eq_none_iff, hWaits] at hEnter
    cases hEnter
  · next program entered hEnter =>
    obtain ⟨finished, hFinished, rfl⟩ := Option.map_eq_some_iff.mp hReady
    have hHooked := hooked_of_enterTrap? hEnter hFinished
    by_cases hHere : machine.processor.registers.pc = finished.leaveTrap.processor.registers.pc
    · exact .inl (hHere ▸ hHooked)
    · refine .inr ⟨hHooked, program, entered, finished, hEnter, hFinished, ?_, hHere⟩
      rw [processor_leaveTrap]

end Machine

namespace Tracks

variable {β ν : Type} {registry : Registry β ν} {machine : Machine β ν} {address : Address}
  {handler : Handler β ν}

/-- A registered handler that does not run waits in the table. -/
theorem handler?_of_registered (tracks : Tracks registry machine)
    (hRegistered : registry address = some handler) (hIdle : (address, handler) ∉ machine.running) :
    machine.traps.handler? address = some handler := by
  rw [TrapTable.handler?, Option.join_eq_some_iff]
  rcases tracks.agrees address with hFull | ⟨other, hEmpty, hOther, _⟩
  · rw [hFull, hRegistered, Option.map_some]
  · obtain ⟨runs, hRuns, hSame⟩ := tracks.running_of_empty hEmpty
    rw [hRegistered] at hSame
    cases hSame
    exact (hIdle hRuns).elim

end Tracks

namespace Execution

open Machine

variable {β ν : Type} [Bus β] {setup : Setup} {bus : β} {program : Program β ν}
  {history : List (Configuration β ν)} {last : Configuration β ν}

/-- Wherever an execution is looked at, whatever the traps and however the program counter came there:
if a step carries out the instruction at an address where a handler waited when the step began, then
before that the step has called a handler of this address, and it has ended; or else the handler of
another trap, at the address where the step began, has been called and has moved the program counter
there. A handler waits if it is registered and does not run. -/
theorem trap_covered (run : Execution (.powerOn setup bus program) history last) :
    (∀ address handler, Registry.ofHistory history address = some handler →
      (address, handler) ∉ last.machine.running →
      last.machine.traps.handler? address = some handler) ∧
    ∀ bound cost after, last.machine.step (run? bound) = some (cost, after) →
      last.machine.processor.pendingInterrupt = none →
      ∃ ready, last.machine.ready? (run? bound) = some ready ∧ after = ready.execute ∧
        ∀ handler,
          last.machine.traps.handler? ready.processor.registers.pc = some handler →
          Hooked last.machine ready ready.processor.registers.pc ∨
            Hooked last.machine ready last.machine.processor.registers.pc ∧
              Redirects (run? bound) last.machine ready.processor.registers.pc := by
  refine ⟨fun _ _ => run.tracks.handler?_of_registered, fun bound cost after hStep hPending => ?_⟩
  rw [step_eq, hPending] at hStep
  obtain ⟨ready, hReady, hAfter⟩ := Option.map_eq_some_iff.mp hStep
  cases hAfter
  exact ⟨ready, hReady, rfl, fun _ => hooked_or_redirects_of_ready? hReady⟩

/-- A jump, and where it goes an instruction that does nothing. -/
def jumpRam : Ram :=
  ((((Ram.zero.setVector resetVector 0x8000).write 0x8000 0x4C).write 0x8001 0x00).write
    0x8002 0x90).write 0x9000 0xEA

def removingHandler : Handler Ram Empty := fun address => .remove address fun _ => .done

/-- A handler runs where a jump leads, also if it removes its trap. -/
theorem trap_covered_of_jump :
    ∃ history last ready,
      Execution (.powerOn {} jumpRam (.register 0x9000 removingHandler fun _ =>
        .step fun _ => .step fun _ => .done)) history last ∧
      history.length = 2 ∧ last.machine.step (run? 1) = some (2, ready.execute) ∧
      ready.processor.registers.pc = 0x9000 ∧ Hooked last.machine ready 0x9000 := by
  have run : Execution (.powerOn {} jumpRam (.register 0x9000 removingHandler fun _ =>
      .step fun _ => .step fun _ => .done)) _ _ := .next (.next .refl rfl) rfl
  obtain ⟨hWaits, hCovered⟩ := run.trap_covered
  obtain ⟨ready, hReady, _, hHooked⟩ := hCovered 1 _ _ rfl rfl
  cases hReady
  refine ⟨_, _, _, run, rfl, rfl, rfl, ?_⟩
  rcases hHooked removingHandler (hWaits _ _ rfl (List.not_mem_nil)) with hHere | ⟨_, hRedirects⟩
  · exact hHere
  · obtain ⟨_, _, _, _, _, _, hElsewhere⟩ := hRedirects
    exact (hElsewhere rfl).elim

/-- Two instructions that do nothing. -/
def idleRam : Ram :=
  ((Ram.zero.setVector resetVector 0x8000).write 0x8000 0xEA).write 0x9000 0xEA

/-- A handler that moves the program counter to another trap. -/
def redirectingHandler : Handler Ram Empty := fun _ =>
  .change (.registers fun registers => { registers with pc := 0x9000 }) .done

/-- The exception occurs. No handler runs when the step begins, and the trap of the instruction that it
carries out is there before and after, but its handler is not called. -/
theorem not_hooked_of_redirect :
    ∃ history last ready,
      Execution (.powerOn {} idleRam (.register 0x8000 redirectingHandler fun _ =>
        .register 0x9000 idleHandler fun _ => .step fun _ => .done)) history last ∧
      last.machine.processor.pendingInterrupt = none ∧
      last.machine.ready? (run? 1) = some ready ∧
      last.machine.step (run? 1) = some (2, ready.execute) ∧
      ready.processor.registers.pc = 0x9000 ∧ last.machine.running = [] ∧
      Registry.ofHistory history 0x9000 = some idleHandler ∧
      last.machine.traps.handler? 0x9000 = some idleHandler ∧
      ready.execute.traps.handler? 0x9000 = some idleHandler ∧
      ¬Hooked last.machine ready 0x9000 := by
  have run : Execution (.powerOn {} idleRam (.register 0x8000 redirectingHandler fun _ =>
      .register 0x9000 idleHandler fun _ => .step fun _ => .done)) _ _ := .next (.next .refl rfl) rfl
  refine ⟨_, _, _, run, rfl, rfl, rfl, rfl, rfl, rfl, rfl, rfl, fun hooked => ?_⟩
  have hMem := hooked.mem_journal
  revert hMem
  decide

end Execution

end Mos6510
