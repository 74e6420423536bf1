import Mos6510.Machine

/-!
Steps that call no handler. Main statement: such a step always ends, does to the processor what a
step of a processor without traps does, and leaves the traps and the switches of the machine alone.
-/

namespace Mos6510

namespace Processor

variable {β : Type} [Bus β] {processor : Processor β}

/-- An instruction without a vector leaves the registers of its effect. -/
theorem registers_execute_of_vector_none (h : processor.effect.vector = none) :
    processor.execute.registers = processor.effect.registers := by
  simp only [execute, apply, h]

/-- The place that the instruction at the program counter names. -/
def target (processor : Processor β) : Address :=
  (processor.opcode.mode.resolve processor.read processor.registers.pc processor.registers.x
    processor.registers.y).address

/-- The byte at the place that the instruction at the program counter names. -/
def operand (processor : Processor β) : UInt8 :=
  processor.read (processor.opcode.mode.resolve processor.read processor.registers.pc
    processor.registers.x processor.registers.y).address

/-- An operation that reads leaves what it makes of its operand, and goes on behind the
instruction. -/
theorem registers_execute_of_read (use : UInt8 → Registers → Registers)
    (h : processor.opcode.mnemonic.action = .read use) :
    processor.execute.registers =
      { use processor.operand processor.registers with
        pc := processor.registers.pc + UInt16.ofNat processor.opcode.size } := by
  have hEffect : processor.effect = _ :=
    processor.opcode.effect_of_read processor.read processor.registers use h
  rw [registers_execute_of_vector_none (by rw [hEffect]), hEffect, operand]

/-- The vector of an interrupt is the only thing that is read after the writes. -/
theorem pc_apply_of_vector {effect : Effect} {vector : Address} (h : effect.vector = some vector)
    (cost : Nat) :
    (processor.apply effect cost).registers.pc =
      readWord (processor.apply effect cost).read vector := by
  simp only [apply, h]
  rfl

end Processor

namespace Machine

variable {β ν : Type} {machine : Machine β ν}

theorem enterTrap?_eq_none_iff :
    machine.enterTrap? = none ↔ machine.traps.handler? machine.processor.registers.pc = none := by
  simp [enterTrap?, TrapTable.take?]

variable [Bus β]

/-- The next step calls no handler: it services an interrupt, or no handler waits at the program
counter. -/
def Untrapped (machine : Machine β ν) : Prop :=
  machine.processor.pendingInterrupt = none →
    machine.traps.handler? machine.processor.registers.pc = none

/-- The machine after a step that calls no handler. -/
def advance (machine : Machine β ν) : Machine β ν :=
  match machine.processor.pendingInterrupt with
  | some kind => machine.service kind
  | none => machine.execute

theorem advance_of_pending {kind : Interrupt}
    (hPending : machine.processor.pendingInterrupt = some kind) :
    machine.advance = machine.service kind := by
  simp only [advance, hPending]

theorem advance_of_not_pending (hPending : machine.processor.pendingInterrupt = none) :
    machine.advance = machine.execute := by
  simp only [advance, hPending]

/-- A step that calls no handler has a result for every runner, since it has nothing to run. -/
theorem step_of_untrapped (hUntrapped : machine.Untrapped) (run : Runner β ν) :
    machine.step run = some (machine.processor.stepCost, machine.advance) := by
  cases hPending : machine.processor.pendingInterrupt with
  | some kind => simp only [step, advance, Processor.stepCost, hPending]
  | none =>
      have hEnter := enterTrap?_eq_none_iff.mpr (hUntrapped hPending)
      simp only [step, advance, Processor.stepCost, hPending, hEnter]

/-- What a step that calls no handler makes of the processor is the step of the processor itself. -/
theorem processor_advance (machine : Machine β ν) :
    machine.advance.processor = machine.processor.step := by
  cases hPending : machine.processor.pendingInterrupt with
  | some kind => simp only [advance, Processor.step, hPending, service, record]
  | none => simp only [advance, Processor.step, hPending, execute, record]

/-- Neither an instruction nor the entry into an interrupt handler touches what surrounds the
processor, the journal apart. -/
theorem surroundings_advance (machine : Machine β ν) :
    machine.advance.traps = machine.traps ∧ machine.advance.tracing = machine.tracing ∧
      machine.advance.sink = machine.sink ∧ machine.advance.running = machine.running := by
  unfold advance
  split <;> exact ⟨rfl, rfl, rfl, rfl⟩

end Machine

end Mos6510
