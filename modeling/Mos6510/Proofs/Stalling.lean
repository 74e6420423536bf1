import Mos6510.Proofs.Accounting
import Mos6510.Proofs.StepSequence
import Mos6510.Proofs.WriteFootprint

/-!
Stalling: a step that leaves the program counter where it was. An instruction without a destination of
its own is one to three bytes long, so in the space of addresses it never leads back to itself. Main
statement: only control flow stalls; a jump, a branch or a halt that has stalled does so for ever, and
nothing but the cycle counter moves; and the loop that waits for a stall takes the steps up to the first
one and no other.
-/

namespace Mos6510

namespace Mnemonic

/-- The operations that change the program counter at most. -/
def steering : List Mnemonic := [.jmp, .jam] ++ branches

/-- The operations that say where execution goes on. -/
def controlFlow : List Mnemonic := [.jsr, .rts, .rti, .brk] ++ steering

/-- The operations whose action steers or calls are those on the list. -/
theorem mem_controlFlow_of_isControlFlow {mnemonic : Mnemonic} (h : mnemonic.isControlFlow = true) :
    mnemonic ∈ controlFlow := by
  cases mnemonic <;> first | decide | cases h

/-- A steering operation is a jump, a halt or a branch. -/
theorem action_of_mem_steering {mnemonic : Mnemonic} (h : mnemonic ∈ steering) :
    mnemonic.action = .jump ∨ mnemonic.action = .halt ∨
      ∃ condition, mnemonic.action = .branch condition := by
  cases mnemonic <;>
    first
    | exact .inl rfl
    | exact .inr (.inl rfl)
    | exact .inr (.inr ⟨_, rfl⟩)
    | exact absurd h (by decide)

end Mnemonic

/-- An operation that steers writes nothing and leaves all registers but the program counter alone. -/
theorem Opcode.effect_of_mem_steering {opcode : Opcode} (read : Address → UInt8) (r : Registers)
    (h : opcode.mnemonic ∈ Mnemonic.steering) :
    ∃ pc, (opcode.effect read r).registers = { r with pc } ∧ (opcode.effect read r).writes = [] ∧
      (opcode.effect read r).vector = none := by
  unfold effect
  rcases Mnemonic.action_of_mem_steering h with hJump | hHalt | ⟨condition, hBranch⟩
  · rw [hJump]
    exact ⟨_, rfl, rfl, rfl⟩
  · rw [hHalt]
    exact ⟨r.pc, rfl, rfl, rfl⟩
  · rw [hBranch]
    dsimp only
    split <;> exact ⟨_, rfl, rfl, rfl⟩

namespace Processor

variable {β : Type} [Bus β] {processor first second : Processor β}

/-- The address behind an instruction is not its own, also at the end of the space. -/
theorem pc_execute_ne_of_sequential (h : processor.opcode.mnemonic.isControlFlow = false) :
    processor.execute.registers.pc ≠ processor.registers.pc := by
  have hPos := processor.opcode.size_pos
  have hShort := processor.opcode.size_le_three
  have hPc := processor.registers.pc.toNat_lt
  rw [pc_execute_of_sequential h, ne_eq, ← UInt16.toNat_inj, UInt16.toNat_add, UInt16.toNat_ofNat']
  omega

/-- An instruction that goes on at itself is one that says where execution goes on. -/
theorem mem_controlFlow_of_pc_execute_eq
    (h : processor.execute.registers.pc = processor.registers.pc) :
    processor.opcode.mnemonic ∈ Mnemonic.controlFlow := by
  cases hFlow : processor.opcode.mnemonic.isControlFlow with
  | true => exact Mnemonic.mem_controlFlow_of_isControlFlow hFlow
  | false => exact absurd h (pc_execute_ne_of_sequential hFlow)

/-- A steering operation that goes on at itself changes nothing at all. -/
theorem execute_of_stalled (hSteering : processor.opcode.mnemonic ∈ Mnemonic.steering)
    (hPc : processor.execute.registers.pc = processor.registers.pc) :
    processor.execute.registers = processor.registers ∧ processor.execute.bus = processor.bus := by
  obtain ⟨pc, hRegisters, hWrites, hVector⟩ :=
    Opcode.effect_of_mem_steering processor.read processor.registers hSteering
  have hExecute : processor.execute.registers = { processor.registers with pc } :=
    (registers_execute_of_vector_none hVector).trans hRegisters
  constructor
  · rw [hExecute] at hPc ⊢
    rw [show pc = processor.registers.pc from hPc]
  · exact congrArg (Bus.writeAll processor.bus) hWrites

/-- Two processors are in the same place: their registers and the bytes that they see agree. -/
structure SamePlace (first second : Processor β) : Prop where
  registers : first.registers = second.registers
  read : first.read = second.read

namespace SamePlace

theorem opcode_eq (same : SamePlace first second) : first.opcode = second.opcode := by
  rw [opcode, opcode, opcodeByte, opcodeByte, same.registers, same.read]

theorem effect_eq (same : SamePlace first second) : first.effect = second.effect := by
  rw [effect, effect, same.opcode_eq, same.registers, same.read]

theorem cost_eq (same : SamePlace first second) : first.cost = second.cost := by
  rw [cost, cost, same.opcode_eq, same.effect_eq]

/-- Who is where a stalled processor is stays there. -/
theorem execute (same : SamePlace first second)
    (hSteering : second.opcode.mnemonic ∈ Mnemonic.steering)
    (hPc : second.execute.registers.pc = second.registers.pc) :
    SamePlace first.execute second ∧ first.execute.bus = first.bus := by
  have hThere : first.execute.registers.pc = first.registers.pc := by
    obtain ⟨_, _, _, hVector⟩ := Opcode.effect_of_mem_steering second.read second.registers hSteering
    have hVectorThere : first.effect.vector = none := by rw [same.effect_eq]; exact hVector
    rw [registers_execute_of_vector_none hVectorThere, same.effect_eq,
      ← registers_execute_of_vector_none hVector, hPc, same.registers]
  obtain ⟨hRegisters, hBus⟩ := execute_of_stalled (same.opcode_eq ▸ hSteering) hThere
  refine ⟨⟨hRegisters.trans same.registers, ?_⟩, hBus⟩
  rw [← same.read]
  exact congrArg Bus.read hBus

end SamePlace

end Processor

namespace Machine

variable {β ν : Type} [Bus β] {machine later : Machine β ν}

/-- What a machine comes to by any number of steps, while in between the host and the devices do as they
like, as long as they keep the registers and the bytes of memory, register no handler and leave no
interrupt to service. -/
inductive Lingers (machine : Machine β ν) : Machine β ν → Prop where
  | refl : Lingers machine machine
  | step {later : Machine β ν} (prior : Lingers machine later) : Lingers machine later.advance
  | meanwhile {between later : Machine β ν} (prior : Lingers machine between)
      (same : Processor.SamePlace later.processor between.processor) (trapless : later.Trapless)
      (hPending : later.processor.pendingInterrupt = none) : Lingers machine later

/-- The invariant of a stall: nothing is pending, and the machine is where it was. -/
theorem Lingers.invariant (lingers : machine.Lingers later) (trapless : machine.Trapless)
    (hPending : machine.processor.pendingInterrupt = none)
    (hSteering : machine.processor.opcode.mnemonic ∈ Mnemonic.steering)
    (hPc : machine.advance.processor.registers.pc = machine.processor.registers.pc) :
    later.Trapless ∧ later.processor.pendingInterrupt = none ∧
      Processor.SamePlace later.processor machine.processor := by
  rw [advance_of_not_pending hPending] at hPc
  induction lingers with
  | refl => exact ⟨trapless, hPending, rfl, rfl⟩
  | @step later prior ih =>
      obtain ⟨hTrapless, hNone, hSame⟩ := ih
      obtain ⟨hStays, hBus⟩ := hSame.execute hSteering hPc
      refine ⟨hTrapless.advance, ?_, ?_⟩ <;> rw [advance_of_not_pending hNone]
      · rw [← hNone]
        have hRegisters := hStays.registers.trans hSame.registers.symm
        unfold Processor.pendingInterrupt Processor.irqAsserted
        rw [show later.execute.processor.registers = later.processor.registers from hRegisters,
          show later.execute.processor.bus = later.processor.bus from hBus]
        rfl
      · exact hStays
  | meanwhile prior same trapless hNone ih =>
      exact ⟨trapless, hNone, same.registers.trans ih.2.2.registers, same.read.trans ih.2.2.read⟩

/-- The step after so many others leaves the program counter where it was. -/
def StallsAt (machine : Machine β ν) (index : Nat) : Prop :=
  (Machine.advance^[index + 1] machine).processor.registers.pc =
    (Machine.advance^[index] machine).processor.registers.pc

instance (machine : Machine β ν) (index : Nat) : Decidable (machine.StallsAt index) :=
  inferInstanceAs (Decidable (_ = _))

/-- The loop that waits for a stall takes the steps up to the first one, or all that it may. -/
theorem run?_stepUntilStalled_of_trapless (trapless : machine.Trapless) (start : UInt64)
    (limit : Nat) :
    (∃ index < limit, machine.StallsAt index ∧ (∀ earlier < index, ¬machine.StallsAt earlier) ∧
      ∀ bound next, run? (bound + 1) (.stepUntilStalled start next limit) machine =
        run? (bound + 1)
          (next (some ((Machine.advance^[index + 1] machine).processor.cycles - start)))
          (Machine.advance^[index + 1] machine)) ∨
    ((∀ index < limit, ¬machine.StallsAt index) ∧
      ∀ bound next, run? (bound + 1) (.stepUntilStalled start next limit) machine =
        run? (bound + 1) (next none) (Machine.advance^[limit] machine)) := by
  induction limit generalizing machine with
  | zero => exact .inr ⟨fun index hIndex => absurd hIndex index.not_lt_zero, fun _ _ => rfl⟩
  | succ limit ih =>
      have hTurn (bound : Nat) (next : Option UInt64 → Program β ν) :
          run? (bound + 1) (.stepUntilStalled start next (limit + 1)) machine =
            run? (bound + 1)
              (if machine.StallsAt 0 then next (some (machine.advance.processor.cycles - start))
                else .stepUntilStalled start next limit) machine.advance := by
        simp only [run?, Program.stepUntilStalled, runWith, step_of_untrapped trapless.untrapped,
          Option.bind_some]
        rfl
      by_cases hStall : machine.StallsAt 0
      · refine .inl ⟨0, limit.succ_pos, hStall, fun _ hEarlier => absurd hEarlier (Nat.not_lt_zero _),
          fun bound next => ?_⟩
        rw [hTurn, if_pos hStall]
        rfl
      -- what happens later is what happens after the first step, one step later
      · rcases ih trapless.advance with ⟨index, hIndex, hThere, hFirst, hRun⟩ | ⟨hNever, hRun⟩
        · refine .inl ⟨index + 1, Nat.succ_lt_succ hIndex, hThere, fun earlier hEarlier => ?_,
            fun bound next => ?_⟩
          · cases earlier with
            | zero => exact hStall
            | succ earlier => exact hFirst earlier (Nat.lt_of_succ_lt_succ hEarlier)
          · rw [hTurn, if_neg hStall, hRun]
            rfl
        · refine .inr ⟨fun index hIndex => ?_, fun bound next => ?_⟩
          · cases index with
            | zero => exact hStall
            | succ index => exact hNever index (Nat.lt_of_succ_lt_succ hIndex)
          · rw [hTurn, if_neg hStall, hRun]
            rfl

/-- Where no handler waits and no interrupt is to be serviced, a step that leaves the program counter
where it was has carried out control flow. If that was a jump, a branch or a halt, then every further
step, however many there were, takes as long and keeps the registers and the memory, as long as nothing
else moves the machine or makes an interrupt due. And where no handler waits, the loop that waits for a
stall carries out the steps up to the first one that stalls and no other, and reports their cycles as far
as the counter can tell them; it reports nothing exactly if none of the steps that it may take stalls,
and then it has taken them all. -/
theorem stall_exact (trapless : machine.Trapless) :
    (machine.processor.pendingInterrupt = none → ∃ cost after,
      (∀ run, machine.step run = some (cost, after)) ∧
      (after.processor.registers.pc = machine.processor.registers.pc →
        machine.processor.opcode.mnemonic ∈ Mnemonic.controlFlow ∧
        (machine.processor.opcode.mnemonic ∈ Mnemonic.steering →
          ∀ later, machine.Lingers later →
            (∀ run, later.step run = some (cost, later.advance)) ∧
            later.advance.processor.registers = machine.processor.registers ∧
            later.advance.processor.bus = later.processor.bus ∧
            later.advance.processor.read = machine.processor.read))) ∧
    (∀ run count, machine.stepTimes run count =
      some (machine.processor.stepsCost count, Machine.advance^[count] machine)) ∧
    ∀ limit,
      (∃ index < limit, machine.StallsAt index ∧ (∀ earlier < index, ¬machine.StallsAt earlier) ∧
        ∃ used : UInt64,
          (machine.processor.cycles.toNat + machine.processor.stepsCost (index + 1) < 2 ^ 64 →
            used.toNat = machine.processor.stepsCost (index + 1)) ∧
          ∀ bound next, run? (bound + 1) (.runUntilStalled limit next) machine =
            run? (bound + 1) (next (some used)) (Machine.advance^[index + 1] machine)) ∨
      ((∀ index < limit, ¬machine.StallsAt index) ∧
        ∀ bound next, run? (bound + 1) (.runUntilStalled limit next) machine =
          run? (bound + 1) (next none) (Machine.advance^[limit] machine)) := by
  refine ⟨fun hPending => ?_, stepTimes_of_trapless trapless, fun limit => ?_⟩
  · refine ⟨_, _, step_of_untrapped trapless.untrapped, fun hPc => ⟨?_, ?_⟩⟩
    · rw [advance_of_not_pending hPending] at hPc
      exact Processor.mem_controlFlow_of_pc_execute_eq hPc
    · intro hSteering later lingers
      obtain ⟨hTrapless, hNone, hSame⟩ := lingers.invariant trapless hPending hSteering hPc
      rw [advance_of_not_pending hPending] at hPc
      obtain ⟨hStays, hBus⟩ := hSame.execute hSteering hPc
      have hCost : later.processor.stepCost = machine.processor.stepCost := by
        simp only [Processor.stepCost, hNone, hPending, hSame.cost_eq]
      refine ⟨fun run => ?_, ?_⟩
      · rw [step_of_untrapped hTrapless.untrapped, hCost]
      · rw [advance_of_not_pending hNone]
        exact ⟨hStays.registers, hBus, hStays.read⟩
  · rcases run?_stepUntilStalled_of_trapless trapless machine.processor.cycles limit with
      ⟨index, hIndex, hStall, hFirst, hRun⟩ | hNever
    · refine .inl ⟨index, hIndex, hStall, hFirst, _, fun hCounter => ?_, hRun⟩
      have hTotal : machine.processor.stepsCost (index + 1) < 2 ^ 64 := by omega
      rw [processor_iterate_advance, Processor.cycles_iterate_step, UInt64.add_comm,
        UInt64.add_sub_cancel, UInt64.toNat_ofNat_of_lt' hTotal]
    · exact .inr hNever

/-- The machine that is about to idle and then to jump to itself. -/
def settling : Machine Ram UInt64 := powerOn {} idlingRam

def spinning : Machine Ram UInt64 :=
  settling.change (.registers fun registers => { registers with pc := 0x8002 })

/-- The jump is the third step, and goes on for ever. -/
theorem stall_exact_of_settling :
    settling.Trapless ∧ spinning.Trapless ∧ spinning.processor.pendingInterrupt = none ∧
      (∀ later, spinning.Lingers later →
        (∀ run, later.step run = some (3, later.advance)) ∧
          later.advance.processor.registers = spinning.processor.registers) ∧
      ∃ used : UInt64, used.toNat = 7 ∧
        ∀ bound next, run? (bound + 1) (.runUntilStalled 10 next) settling =
          run? (bound + 1) (next (some used)) (Machine.advance^[3] settling) := by
  have hSettling : settling.Trapless := fun _ => rfl
  have hSpinning : spinning.Trapless := fun _ => rfl
  refine ⟨hSettling, hSpinning, rfl, ?_, ?_⟩
  · obtain ⟨cost, after, hStep, hStall⟩ := (stall_exact hSpinning).1 rfl
    cases hStep (run? 0)
    intro later lingers
    obtain ⟨hCost, hRegisters, _⟩ := (hStall rfl).2 (by decide) later lingers
    exact ⟨hCost, hRegisters⟩
  · rcases (stall_exact hSettling).2.2 10 with
      ⟨index, _, hStall, hFirst, used, hUsed, hRun⟩ | ⟨hNever, _⟩
    · have hIndex : index = 2 := by
        have hAtMost : ¬2 < index := fun hLater => hFirst 2 hLater rfl
        have hAtLeast : ¬index < 2 := fun hEarlier => by
          obtain rfl | rfl : index = 0 ∨ index = 1 := by omega
          all_goals exact absurd hStall (by decide)
        omega
      subst hIndex
      exact ⟨used, hUsed (by decide), hRun⟩
    · exact absurd rfl (hNever 2 (by decide))

end Machine

end Mos6510
