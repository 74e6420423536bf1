import Mos6510.Proofs.Accounting
import Mos6510.Proofs.Arbitration
import Mos6510.Proofs.StepCost

/-!
The cycle counter as a ledger. Steps nest when handlers step, and a handler may reset the processor
in the middle of the step that called it. Main statement: wherever a run is looked at, the counter is
the sum, modulo its range, of the cycles of all steps that were completed since the latest reset, and
a step returns the cycles of the instruction that it carries out after its handler has ended, which
depend on the registers and the memory at that time and on nothing that the handler did before.
-/

namespace Mos6510

namespace Configuration

variable {β ν : Type}

/-- The next transition resets the processor. -/
def resets : Configuration β ν → Bool
  | ⟨_, .change .reset _, _⟩ => true
  | _ => false

/-- What the step goes on with that the next transition completes, if it completes one: either one
that calls no handler, or the one whose handler has come to its end. -/
def completes? [Bus β] : Configuration β ν → Option (Nat → Program β ν)
  | ⟨_, .done, resume :: _⟩ => some resume
  | ⟨machine, .step resume, _⟩ =>
    match machine.processor.pendingInterrupt, machine.enterTrap? with
    | none, some _ => none
    | _, _ => some resume
  | _ => none

/-- The configurations left since the latest reset, the latest first. -/
def sinceReset (history : List (Configuration β ν)) : List (Configuration β ν) :=
  history.takeWhile fun configuration => !configuration.resets

/-- The cycles of the steps completed since the latest reset. -/
def ledger [Bus β] (history : List (Configuration β ν)) : Nat :=
  ((sinceReset history).map charge).sum

/-- A step that is completed adds to the ledger what it costs, and a reset begins a new one. -/
theorem ledger_cons [Bus β] (latest : Configuration β ν) (earlier : List (Configuration β ν)) :
    ledger (latest :: earlier) = if latest.resets then 0 else latest.charge + ledger earlier := by
  cases hResets : latest.resets <;> simp [ledger, sinceReset, hResets]

end Configuration

namespace Machine

variable {β ν : Type}

theorem processor_leaveTrap (machine : Machine β ν) :
    machine.leaveTrap.processor = machine.processor := by
  unfold leaveTrap
  split <;> rfl

theorem processor_registerTrap (machine : Machine β ν) (address : Address) (handler : Handler β ν) :
    (machine.registerTrap address handler).2.processor = machine.processor := by
  unfold registerTrap
  split <;> rfl

theorem processor_of_enterTrap? {machine entered : Machine β ν} {handler : Program β ν}
    (h : machine.enterTrap? = some (handler, entered)) :
    entered.processor = machine.processor := by
  obtain ⟨_, _, hEntered⟩ := Option.map_eq_some_iff.mp h
  cases hEntered
  rfl

end Machine

namespace Configuration

open Machine

variable {β ν : Type} [Bus β] {before after : Configuration β ν}

/-- A step completes at once and counts its cycles, or else it calls a handler and counts nothing
yet. -/
theorem beginStep_cases (machine : Machine β ν) (resume : Nat → Program β ν)
    (waiting : List (Nat → Program β ν)) {before : Configuration β ν}
    (hBefore : before = ⟨machine, .step resume, waiting⟩) :
    (before.completes? = some resume ∧ ∃ after,
      beginStep machine resume waiting = ⟨after, resume before.charge, waiting⟩ ∧
      after.processor.cycles = machine.processor.cycles + UInt64.ofNat before.charge) ∨
    (before.completes? = none ∧ before.charge = 0 ∧ ∃ handler entered,
      beginStep machine resume waiting = ⟨entered, handler, resume :: waiting⟩ ∧
      entered.processor = machine.processor) := by
  subst hBefore
  cases hPending : machine.processor.pendingInterrupt with
  | some kind =>
      have hCharge : charge ⟨machine, .step resume, waiting⟩ = Interrupt.cycles := by
        simp only [charge, hPending]
      refine .inl ⟨by simp only [completes?, hPending], machine.service kind, ?_, ?_⟩
      · rw [beginStep_service hPending, hCharge]
      · rw [hCharge]
        rfl
  | none =>
      cases hEnter : machine.enterTrap? with
      | none =>
          have hCharge : charge ⟨machine, .step resume, waiting⟩ = machine.processor.cost := by
            simp only [charge, hPending, hEnter]
          refine .inl ⟨by simp only [completes?, hPending, hEnter], machine.execute, ?_, ?_⟩
          · rw [beginStep_execute hPending hEnter, hCharge]
          · rw [hCharge]
            rfl
      | some called =>
          obtain ⟨handler, entered⟩ := called
          refine .inr ⟨?_, ?_, handler, entered, beginStep_enter hPending hEnter,
            processor_of_enterTrap? hEnter⟩
          · simp only [completes?, hPending, hEnter]
          · simp only [charge, hPending, hEnter]

/-- A transition adds the cycles of the step that it completes to the counter, unless it is a reset,
which clears the counter. -/
theorem cycles_of_next? (h : before.next? = some after) :
    after.machine.processor.cycles =
      if before.resets then 0
      else before.machine.processor.cycles + UInt64.ofNat before.charge := by
  obtain ⟨machine, program, waiting⟩ := before
  have hIdle : machine.processor.cycles = machine.processor.cycles + UInt64.ofNat 0 :=
    (UInt64.add_zero _).symm
  cases program with
  | done =>
      cases waiting with
      | nil => cases h
      | cons resume waiting =>
          cases h
          rw [← machine.processor_leaveTrap]
          rfl
  | change operation =>
      cases h
      cases operation <;> first | rfl | exact hIdle
  | step resume =>
      cases h
      rcases beginStep_cases machine resume waiting rfl with
        ⟨_, after, hAfter, hCycles⟩ | ⟨_, hCharge, handler, entered, hAfter, hEntered⟩
      · rw [hAfter]
        exact hCycles
      · rw [hAfter, hEntered, hCharge]
        exact hIdle
  | stepWhile condition next =>
      rw [next?] at h
      split at h <;> cases h <;> exact hIdle
  | register address handler next =>
      cases h
      exact (congrArg Processor.cycles (machine.processor_registerTrap address handler)).trans hIdle
  | _ => cases h; exact hIdle

/-- A transition tells the cycles of the step that it completes to whoever took it, and no other
transition is charged for. -/
theorem charge_of_next? (h : before.next? = some after) :
    match before.completes? with
    | some resume => after.program = resume before.charge
    | none => before.charge = 0 := by
  obtain ⟨machine, program, waiting⟩ := before
  cases program with
  | done =>
      cases waiting with
      | nil => rfl
      | cons resume waiting => cases h; rfl
  | step resume =>
      cases h
      rcases beginStep_cases machine resume waiting rfl with
        ⟨hCompletes, after, hAfter, _⟩ | ⟨hCompletes, hCharge, _⟩
      · rw [hCompletes, hAfter]
      · rw [hCompletes]
        exact hCharge
  | _ => rfl

end Configuration

/-- The cycles of an instruction depend on the registers and the memory alone. -/
theorem Processor.cost_congr {β : Type} [Bus β] {first second : Processor β}
    (hRegisters : first.registers = second.registers) (hBus : first.bus = second.bus) :
    first.cost = second.cost := by
  obtain ⟨registers, lines, jammed, cycles, bus⟩ := first
  cases hRegisters
  cases hBus
  rfl

namespace Machine

variable {β ν : Type} [Bus β]

/-- A step returns the cycles that an instruction takes on the registers and the memory that the
handler leaves, on every machine that has them and carries it out at once. -/
theorem cost_of_step {machine after : Machine β ν} {runner : Runner β ν} {cost : Nat}
    (h : machine.step runner = some (cost, after))
    (hPending : machine.processor.pendingInterrupt = none) :
    ∃ ready, machine.ready? runner = some ready ∧ after = ready.execute ∧
      cost = ready.processor.opcode.cycles +
        ready.processor.opcode.surcharge ready.processor.read ready.processor.registers ∧
      ∀ other : Machine β ν, other.processor.registers = ready.processor.registers →
        other.processor.bus = ready.processor.bus → other.processor.pendingInterrupt = none →
        other.Untrapped → ∀ runner, ∃ after, other.step runner = some (cost, after) := by
  rw [step_eq, hPending] at h
  obtain ⟨ready, hReady, hAfter⟩ := Option.map_eq_some_iff.mp h
  cases hAfter
  refine ⟨ready, hReady, rfl, ready.processor.cost_eq, ?_⟩
  intro other hRegisters hBus hOther hUntrapped runner
  have hCost : other.processor.stepCost = ready.processor.cost := by
    simp only [Processor.stepCost, hOther, Processor.cost_congr hRegisters hBus]
  exact ⟨_, hCost ▸ step_of_untrapped hUntrapped runner⟩

end Machine

namespace Execution

variable {β ν : Type} [Bus β] {first last : Configuration β ν}
  {history : List (Configuration β ν)}

/-- From a counter at zero on, the counter is the ledger modulo its range, transition by
transition. -/
theorem cycles_eq (run : Execution first history last) (hFirst : first.machine.processor.cycles = 0) :
    last.machine.processor.cycles = UInt64.ofNat (Configuration.ledger history) := by
  induction run with
  | refl => exact hFirst
  | @next history middle last prior hNext ih =>
      rw [Configuration.cycles_of_next? hNext, Configuration.ledger_cons, ih]
      split
      · rfl
      · rw [UInt64.ofNat_add, UInt64.add_comm]

/-- Wherever a run from power-on is looked at, within handlers too, the cycle counter is the sum of
the cycles of the steps completed since the latest reset, modulo its range. These are the cycles that
the steps return: seven for an interrupt, else those of the instruction that is carried out once the
handler has ended, whatever the handler did. Nor does it matter what the steps before, within that handler
too, have noted down for themselves. -/
theorem cycles_eq_ledger {setup : Setup} {bus : β} {program : Program β ν}
    (run : Execution (.powerOn setup bus program) history last) :
    last.machine.processor.cycles.toNat = Configuration.ledger history % 2 ^ 64 ∧
    (∀ after, last.next? = some after →
      match last.completes? with
      | some resume => after.program = resume last.charge
      | none => last.charge = 0) ∧
    (∀ runner cost after, last.machine.step runner = some (cost, after) →
      match last.machine.processor.pendingInterrupt with
      | some kind => cost = 7 ∧ after = last.machine.service kind
      | none => ∃ ready, last.machine.ready? runner = some ready ∧ after = ready.execute ∧
          cost = ready.processor.opcode.cycles +
            ready.processor.opcode.surcharge ready.processor.read ready.processor.registers ∧
          ∀ other : Machine β ν, other.processor.registers = ready.processor.registers →
            other.processor.bus = ready.processor.bus → other.processor.pendingInterrupt = none →
            other.Untrapped → ∀ runner, ∃ after, other.step runner = some (cost, after)) ∧
    ∀ bound scratch,
      (Noting.step (Noting.run? bound) ⟨last.machine, scratch⟩).map (Prod.map id Noting.machine) =
        last.machine.step (Machine.run? bound) := by
  refine ⟨?_, fun after => Configuration.charge_of_next?, fun runner cost after hStep => ?_,
    fun bound scratch => Noting.step_forgets (Noting.run?_forgets bound) ⟨last.machine, scratch⟩⟩
  · rw [run.cycles_eq rfl, UInt64.toNat_ofNat']
  · cases hPending : last.machine.processor.pendingInterrupt with
    | some kind =>
        rw [Machine.step_eq, hPending] at hStep
        cases hStep
        exact ⟨rfl, rfl⟩
    | none => exact Machine.cost_of_step hStep hPending

/-- An instruction that does nothing, a load whose index carries, and another that does nothing. -/
def loadBetween : Ram :=
  (((((Ram.zero.setVector resetVector 0x8000).write 0x8000 0xEA).write 0x8001 0xBD).write
    0x8002 0xFF).write 0x8003 0x80).write 0x8004 0xEA

/-- A handler that resets the processor, goes back to the load and steps over it. -/
def steppingHandler : Handler Ram Nat := fun address =>
  .change .reset (.change (.registers fun registers => { registers with pc := address, x := 1 })
    (.step fun _ => .done))

/-- The outer step returns the two cycles of the instruction behind the load. The counter has these
and the five of the nested step, but not those of the step before the reset. -/
theorem cycles_eq_ledger_of_nested_reset :
    ∃ history last,
      Execution (.powerOn {} loadBetween (.register 0x8001 steppingHandler fun _ =>
        .step fun _ => .step fun cost => .note cost .done)) history (.start last .done) ∧
      last.journal.head? = some (.noted 2) ∧ (history.map Configuration.charge).sum = 9 ∧
      Configuration.ledger history = 7 ∧ last.processor.cycles.toNat = 7 := by
  have run : Execution (.powerOn {} loadBetween (.register 0x8001 steppingHandler fun _ =>
      .step fun _ => .step fun cost => .note cost .done)) _ (.start _ .done) :=
    .next (.next (.next (.next (.next (.next (.next (.next .refl rfl) rfl) rfl) rfl) rfl) rfl) rfl) rfl
  obtain ⟨hCycles, _⟩ := run.cycles_eq_ledger
  exact ⟨_, _, run, rfl, rfl, rfl, hCycles⟩

end Execution

end Mos6510
