import Mos6510.Proofs.MemoryRuns
import Mos6510.Proofs.StepSequence
import Mos6510.Proofs.TracePrediction

/-!
Code does not know where it lies. An instruction finds its operand bytes through the program counter
and uses it for nothing else, unless it says itself where execution goes on; and a branch goes as far
from one place as from any other. Main statement: two processors that differ only in where they execute,
each at a copy of the same code, carry it out alike and stay as far apart as they were, as long as
nothing is written to either copy.
-/

namespace Mos6510

theorem Address.add_right_comm (address first second : Address) :
    address + first + second = address + second + first := by
  rw [UInt16.add_assoc, UInt16.add_comm first, ← UInt16.add_assoc]

/-- A run at a distance is the run itself of a memory that is moved back by it. -/
theorem readRun_add_distance (read : Address → UInt8) (start distance : Address) (length : Nat) :
    readRun read (start + distance) length =
      readRun (fun address => read (address + distance)) start length := by
  induction length generalizing start with
  | zero => rfl
  | succ length ih =>
      rw [readRun, readRun, ← ih, Address.add_right_comm]

/-- Runs with equal bytes agree address by address. -/
theorem agreeOn_run_of_readRun_eq {first second : Address → UInt8} {start : Address} {length : Nat}
    (h : readRun first start length = readRun second start length) :
    AgreeOn (Address.run start length) first second := by
  induction length generalizing start with
  | zero => exact fun _ hMem => absurd hMem (by simp [Address.run])
  | succ length ih =>
      obtain ⟨hHead, hRest⟩ := List.cons_eq_cons.mp h
      exact agreeOn_cons.mpr ⟨hHead, ih hRest⟩

/-- With some code its parts are copied. -/
theorem readRun_copy_of_part {read : Address → UInt8} {start part distance : Address}
    {length size : Nat} (hCopy : readRun read start length = readRun read (start + distance) length)
    (hPart : Address.run part size ⊆ Address.run start length) :
    readRun read part size = readRun read (part + distance) size := by
  rw [readRun_add_distance] at hCopy ⊢
  exact readRun_congr fun address hMem => agreeOn_run_of_readRun_eq hCopy address (hPart hMem)

/-- What the operation makes of registers and operand does not depend on the program counter. -/
def Action.IgnoresPc : Action → Prop
  | .inherent change => ∀ r pc, change { r with pc } = { change r with pc }
  | .read use => ∀ operand r pc, use operand { r with pc } = { use operand r with pc }
  | .store prepare value =>
    (∀ r pc, prepare { r with pc } = { prepare r with pc }) ∧
      ∀ r pc base, value { r with pc } base = value r base
  | .modify _ use => ∀ operand r pc, use operand { r with pc } = { use operand r with pc }
  | .push value => ∀ r pc, value { r with pc } = value r
  | .pull use => ∀ operand r pc, use operand { r with pc } = { use operand r with pc }
  | _ => True

/-- No operation computes with the program counter, except to say where execution goes on. -/
theorem Mnemonic.ignoresPc (mnemonic : Mnemonic) : mnemonic.action.IgnoresPc := by
  cases mnemonic with
  | sta | stx | sty | sax | tas | sha | shx | shy => exact ⟨fun _ _ => rfl, fun _ _ _ => rfl⟩
  | bcc | bcs | beq | bne | bmi | bpl | bvc | bvs | jmp | jsr | rts | rti | brk | jam => exact trivial
  | _ => first | exact fun _ _ => rfl | exact fun _ _ _ => rfl

/-- A mode that names a byte of memory names the same one wherever the operand bytes lie. -/
theorem Mode.resolve_of_naming {mode : Mode} {read : Address → UInt8} {pc other : Address} (x y : UInt8)
    (hNaming : mode ∈ naming)
    (hOperand : readRun read (pc + 1) mode.operandBytes = readRun read (other + 1) mode.operandBytes) :
    mode.resolve read other x y = mode.resolve read pc x y := by
  cases mode with
  | implied | accumulator | immediate | indirect | relative => exact absurd hNaming (by decide)
  | _ => simp_all [operandBytes, readRun, resolve, readWord]

namespace Opcode

/-- The mode of an opcode suits its operation: what is stored goes to a byte of memory, what is altered
is such a byte or the accumulator, what is read may lie in the instruction, and only an operation that
does nothing may read nothing. Branches, and no other operations that say where execution goes on, have
a distance for an operand. -/
def suitsMode (opcode : Opcode) : Bool :=
  match opcode.mnemonic.action with
  | .read _ =>
    decide (opcode.mode ∈ .immediate :: Mode.naming) ||
      decide (opcode.mnemonic = .nop ∧ opcode.mode = .implied)
  | .store _ _ => decide (opcode.mode ∈ Mode.naming)
  | .modify _ _ => decide (opcode.mode ∈ .accumulator :: Mode.naming)
  | .branch _ => decide (opcode.mode = .relative)
  | .jump | .call | .returnFromCall | .returnFromInterrupt | .interrupt | .halt =>
    decide (opcode.mode ≠ .relative)
  | _ => true

/-- In all of the table an operation has a mode that its kind can use. -/
theorem suitsMode_ofByte : ∀ byte, (ofByte byte).suitsMode = true :=
  @forall_ofByte (fun opcode => opcode.suitsMode = true) (by decide +kernel)

/-- An instruction that goes on behind itself, or a branch, which goes on at some distance from there. -/
def IsMovable (opcode : Opcode) : Prop :=
  opcode.mnemonic.isControlFlow = false ∨ opcode.mode = .relative

instance (opcode : Opcode) : Decidable opcode.IsMovable := inferInstanceAs (Decidable (_ ∨ _))

end Opcode

/-- Two effects are the same but for where execution goes on, and settle that before their writes. -/
structure Effect.Displaced (distance : Address) (first second : Effect) : Prop where
  registers : second.registers = { first.registers with pc := first.registers.pc + distance }
  writes : second.writes = first.writes
  vector : first.vector = none ∧ second.vector = none

namespace Opcode

variable {opcode : Opcode} {read : Address → UInt8} {r : Registers} {distance : Address}

/-- The bytes of an instruction are its opcode byte and those of its operand. -/
theorem readRun_size_eq_iff {pc other : Address} :
    readRun read pc opcode.size = readRun read other opcode.size ↔
      read pc = read other ∧ readRun read (pc + 1) opcode.mode.operandBytes =
        readRun read (other + 1) opcode.mode.operandBytes := by
  rw [size, Nat.add_comm, readRun, readRun, List.cons_eq_cons]

/-- What a reading operation makes of its operand is the same wherever the instruction lies. -/
theorem use_displaced {use : UInt8 → Registers → Registers}
    (hAction : opcode.mnemonic.action = .read use) (hSuits : opcode.suitsMode = true)
    (hOperand : readRun read (r.pc + 1) opcode.mode.operandBytes =
      readRun read (r.pc + distance + 1) opcode.mode.operandBytes) (registers : Registers) :
    let target := opcode.mode.resolve read r.pc r.x r.y
    let other := opcode.mode.resolve read (r.pc + distance) r.x r.y
    use (read other.address) registers = use (read target.address) registers ∧
      other.crossing = target.crossing := by
  simp only [suitsMode, hAction, Bool.or_eq_true, decide_eq_true_eq, List.mem_cons] at hSuits
  rcases hSuits with (hImmediate | hNaming) | ⟨hNop, hImplied⟩
  · have hByte : read (r.pc + distance + 1) = read (r.pc + 1) := by
      simpa [hImmediate, Mode.operandBytes, readRun] using hOperand.symm
    simp [hImmediate, Mode.resolve, EffectiveAddress.direct, EffectiveAddress.crossing, hByte]
  · simp [Mode.resolve_of_naming r.x r.y hNaming hOperand]
  · rw [hNop] at hAction
    cases hAction
    simp [hImplied, Mode.resolve, EffectiveAddress.direct, EffectiveAddress.crossing]

/-- A branch goes as far from one place as from any other. -/
theorem address_resolve_relative_displaced
    (hOperand : readRun read (r.pc + 1) 1 = readRun read (r.pc + distance + 1) 1) :
    (Mode.relative.resolve read (r.pc + distance) r.x r.y).address =
      (Mode.relative.resolve read r.pc r.x r.y).address + distance := by
  have hByte : read (r.pc + distance + 1) = read (r.pc + 1) := by
    simpa [readRun] using hOperand.symm
  simp only [Mode.resolve, EffectiveAddress.offset, hByte]
  grind

/-- A branch is taken or not alike, since its condition reads the flags, and its distance counts
from where it stands. -/
theorem displaced_effect_of_branch {condition : Flags → Bool}
    (hAction : opcode.mnemonic.action = .branch condition) (hSuits : opcode.suitsMode = true)
    (hOperand : readRun read (r.pc + 1) opcode.mode.operandBytes =
      readRun read (r.pc + distance + 1) opcode.mode.operandBytes) :
    (opcode.effect read r).Displaced distance
      (opcode.effect read { r with pc := r.pc + distance }) := by
  have hMode : opcode.mode = .relative := by simpa [suitsMode, hAction] using hSuits
  rw [hMode] at hOperand
  have hTarget := address_resolve_relative_displaced hOperand
  have hNext := r.pc.add_right_comm distance (UInt16.ofNat opcode.size)
  by_cases hTaken : condition r.flags = true
  · simp only [effect, hAction, if_pos hTaken, hMode, hTarget]
    exact ⟨rfl, rfl, rfl, rfl⟩
  · simp only [effect, hAction, if_neg hTaken, hNext]
    exact ⟨rfl, rfl, rfl, rfl⟩

/-- The effect of an instruction does not depend on where it lies, but for where execution goes on, and
that is as far apart as the instructions are. Nor does its penalty, but for a branch, which may lead to
another page from one place and not from the other. -/
theorem displaced_effect (hMovable : opcode.IsMovable) (hSuits : opcode.suitsMode = true)
    (hOperand : readRun read (r.pc + 1) opcode.mode.operandBytes =
      readRun read (r.pc + distance + 1) opcode.mode.operandBytes) :
    let other := opcode.effect read { r with pc := r.pc + distance }
    (opcode.effect read r).Displaced distance other ∧
      (opcode.mnemonic.isControlFlow = false → other.penalty = (opcode.effect read r).penalty) := by
  have hNext := r.pc.add_right_comm distance (UInt16.ofNat opcode.size)
  have hIgnores := opcode.mnemonic.ignoresPc
  unfold effect
  -- What is left to see for each class is that the operand comes from the same place or byte.
  cases hAction : opcode.mnemonic.action with
  | inherent change =>
      rw [hAction] at hIgnores
      have hChange := hIgnores r (r.pc + distance)
      exact ⟨⟨by simp only [hChange, hNext], rfl, rfl, rfl⟩, fun _ => rfl⟩
  | read use =>
      rw [hAction] at hIgnores
      obtain ⟨hUse, hCrossing⟩ := use_displaced hAction hSuits hOperand { r with pc := r.pc + distance }
      have hChange := hUse.trans (hIgnores _ r (r.pc + distance))
      exact ⟨⟨by simp only [hChange, hNext], rfl, rfl, rfl⟩, fun _ => hCrossing⟩
  | store prepare value =>
      rw [hAction] at hIgnores
      have hNaming : opcode.mode ∈ Mode.naming := by simpa [suitsMode, hAction] using hSuits
      have hTarget := Mode.resolve_of_naming r.x r.y hNaming hOperand
      have hChange := hIgnores.1 r (r.pc + distance)
      have hValue := hIgnores.2 (prepare r) (r.pc + distance)
      exact ⟨⟨by simp only [hChange, hNext], by simp only [hChange, hValue, hTarget], rfl, rfl⟩,
        fun _ => rfl⟩
  | modify alter use =>
      rw [hAction] at hIgnores
      by_cases hMode : opcode.mode = .accumulator
      · let outcome := alter r.a r.flags
        have hChange := hIgnores outcome.value (r.acceptA outcome) (r.pc + distance)
        simp only [if_pos hMode, hNext]
        simp only [Registers.acceptA] at hChange ⊢
        exact ⟨⟨by rw [hChange], rfl, rfl, rfl⟩, fun _ => trivial⟩
      · have hNaming : opcode.mode ∈ Mode.naming := by simpa [suitsMode, hAction, hMode] using hSuits
        have hTarget := Mode.resolve_of_naming r.x r.y hNaming hOperand
        let outcome := alter (read (opcode.mode.resolve read r.pc r.x r.y).address) r.flags
        have hChange := hIgnores outcome.value { r with flags := outcome.flags } (r.pc + distance)
        simp only [if_neg hMode, hTarget, hNext]
        exact ⟨⟨by rw [hChange], rfl, rfl, rfl⟩, fun _ => trivial⟩
  | push value =>
      rw [hAction] at hIgnores
      have hValue := hIgnores r (r.pc + distance)
      exact ⟨⟨by simp only [hNext], by simp only [hValue], rfl, rfl⟩, fun _ => rfl⟩
  | pull use =>
      rw [hAction] at hIgnores
      have hChange :=
        hIgnores (read (Address.stack (r.sp + 1))) { r with sp := r.sp + 1 } (r.pc + distance)
      exact ⟨⟨by simp only [hNext] at hChange ⊢; rw [hChange], rfl, rfl, rfl⟩, fun _ => rfl⟩
  | branch condition =>
      have hBranch := displaced_effect_of_branch hAction hSuits hOperand
      simp only [effect, hAction] at hBranch
      refine ⟨hBranch, fun hSequential => ?_⟩
      simp [Mnemonic.isControlFlow, hAction, Action.isControlFlow] at hSequential
  | jump | call | returnFromCall | returnFromInterrupt | interrupt | halt =>
      have hMode : opcode.mode ≠ .relative := by simpa [suitsMode, hAction] using hSuits
      simp [IsMovable, Mnemonic.isControlFlow, hAction, Action.isControlFlow, hMode] at hMovable

end Opcode

namespace Processor

section

variable {β : Type} [Bus β] {first second : Processor β} {distance : Address}

/-- Two processors differ in nothing that a step depends on but where they execute. -/
structure Displaced (distance : Address) (first second : Processor β) : Prop where
  registers : second.registers = { first.registers with pc := first.registers.pc + distance }
  lines : second.lines = first.lines
  bus : second.bus = first.bus

namespace Displaced

/-- The same interrupt is due for both. -/
theorem pendingInterrupt_eq (displaced : first.Displaced distance second) :
    second.pendingInterrupt = first.pendingInterrupt := by
  unfold pendingInterrupt irqAsserted
  rw [displaced.registers, displaced.lines, displaced.bus]

theorem read_eq (displaced : first.Displaced distance second) : second.read = first.read := by
  funext address
  rw [Processor.read, Processor.read, displaced.bus]

/-- A step from a copy of an instruction does what a step from the instruction does, and afterwards the
two are as far apart as before. -/
theorem step (displaced : first.Displaced distance second) (hPending : first.pendingInterrupt = none)
    (hMovable : first.opcode.IsMovable)
    (hBytes : readRun first.read first.registers.pc first.opcode.size =
      readRun first.read (first.registers.pc + distance) first.opcode.size) :
    first.step.Displaced distance second.step ∧
      (first.opcode.mnemonic.isControlFlow = false → second.stepCost = first.stepCost) := by
  obtain ⟨hByte, hOperand⟩ := Opcode.readRun_size_eq_iff.mp hBytes
  have hOpcode : second.opcode = first.opcode := by
    rw [opcode, opcodeByte, displaced.read_eq, displaced.registers, ← hByte, opcode, opcodeByte]
  obtain ⟨hEffect, hPenalty⟩ :=
    Opcode.displaced_effect hMovable (Opcode.suitsMode_ofByte first.opcodeByte) hOperand
  have hSecond : second.effect = first.opcode.effect first.read
      { first.registers with pc := first.registers.pc + distance } := by
    rw [effect, hOpcode, displaced.read_eq, displaced.registers]
  rw [← hSecond] at hEffect hPenalty
  have hPending' := displaced.pendingInterrupt_eq.trans hPending
  simp only [Processor.step, stepCost, hPending, hPending']
  refine ⟨⟨?_, displaced.lines, ?_⟩, fun hSequential => ?_⟩
  · rw [registers_execute_of_vector_none hEffect.vector.1,
      registers_execute_of_vector_none hEffect.vector.2]
    exact hEffect.registers
  · rw [execute, apply, execute, apply, displaced.bus, hEffect.writes]
    rfl
  · rw [cost, cost, hOpcode, hPenalty hSequential]
    rfl

end Displaced

end

variable {first second processor : Processor Ram} {start distance : Address} {length count : Nat}

/-- The next step carries out an instruction of the code from `start` on that goes on behind itself or at
some distance, and writes neither to the code nor to its copy. -/
structure StaysInCode (start distance : Address) (length : Nat) (processor : Processor Ram) : Prop where
  pending : processor.pendingInterrupt = none
  movable : processor.opcode.IsMovable
  within : Address.run processor.registers.pc processor.opcode.size ⊆ Address.run start length
  spares : ∀ w ∈ processor.footprint,
    w.address ∉ Address.run start length ∧ w.address ∉ Address.run (start + distance) length

instance : Decidable (processor.StaysInCode start distance length) :=
  decidable_of_iff (processor.pendingInterrupt = none ∧ processor.opcode.IsMovable ∧
      Address.run processor.registers.pc processor.opcode.size ⊆ Address.run start length ∧
      ∀ w ∈ processor.footprint,
        w.address ∉ Address.run start length ∧ w.address ∉ Address.run (start + distance) length)
    ⟨fun ⟨pending, movable, within, spares⟩ => ⟨pending, movable, within, spares⟩,
      fun h => ⟨h.pending, h.movable, h.within, h.spares⟩⟩

/-- A step within the code keeps its copy. -/
theorem StaysInCode.copy_step (stays : processor.StaysInCode start distance length)
    (hCopy : readRun processor.read start length = readRun processor.read (start + distance) length) :
    readRun processor.step.read start length =
      readRun processor.step.read (start + distance) length := by
  rw [readRun_step fun w hWrite => (stays.spares w hWrite).1,
    readRun_step fun w hWrite => (stays.spares w hWrite).2, hCopy]

/-- As many steps from a copy as from the code do the same, as long as they stay in it. -/
theorem Displaced.iterate (displaced : first.Displaced distance second)
    (hCopy : readRun first.read start length = readRun first.read (start + distance) length)
    (hCode : ∀ index < count, (Processor.step^[index] first).StaysInCode start distance length) :
    (Processor.step^[count] first).Displaced distance (Processor.step^[count] second) ∧
      readRun (Processor.step^[count] first).read start length =
        readRun (Processor.step^[count] first).read (start + distance) length ∧
      ((∀ index < count,
          (Processor.step^[index] first).opcode.mnemonic.isControlFlow = false) →
        second.stepsCost count = first.stepsCost count) := by
  -- That the code is still in both places is part of the induction, since the next step reads it there.
  induction count with
  | zero => exact ⟨displaced, hCopy, fun _ => rfl⟩
  | succ count ih =>
      obtain ⟨hThere, hCopied, hCost⟩ := ih fun index hIndex => hCode index (Nat.lt_succ_of_lt hIndex)
      have stays := hCode count (Nat.lt_succ_self count)
      obtain ⟨hNext, hLast⟩ :=
        hThere.step stays.pending stays.movable (readRun_copy_of_part hCopied stays.within)
      rw [Function.iterate_succ_apply', Function.iterate_succ_apply', stepsCost_succ, stepsCost_succ]
      refine ⟨hNext, stays.copy_step hCopied, fun hSequential => ?_⟩
      rw [hCost fun index hIndex => hSequential index (Nat.lt_succ_of_lt hIndex),
        hLast (hSequential count (Nat.lt_succ_self count))]

end Processor

namespace Machine

variable {ν : Type} {first second : Machine Ram ν} {distance : Address}

/-- Of two machines without traps that differ in nothing but where they execute, each at the same bytes,
a step takes both equally far and leaves registers, flags and memory alike, if it carries out an
instruction that goes on behind itself or a branch. An instruction that goes on behind itself also costs
both the same. The same holds of any number of such steps, as long as they carry out instructions of code
that lies in both places and write to neither. -/
theorem position_independent (hFirst : first.Trapless) (hSecond : second.Trapless)
    (displaced : first.processor.Displaced distance second.processor) (run : Runner Ram ν) :
    (first.processor.pendingInterrupt = none → first.processor.opcode.IsMovable →
      readRun first.processor.read first.processor.registers.pc first.processor.opcode.size =
        readRun second.processor.read second.processor.registers.pc first.processor.opcode.size →
      ∃ cost after otherCost otherAfter,
        first.step run = some (cost, after) ∧ second.step run = some (otherCost, otherAfter) ∧
        after.processor.Displaced distance otherAfter.processor ∧
        after.processor.registers.pc - first.processor.registers.pc =
          otherAfter.processor.registers.pc - second.processor.registers.pc ∧
        (first.processor.opcode.mnemonic.isControlFlow = false →
          cost = otherCost ∧ after.processor.registers.pc =
            first.processor.registers.pc + UInt16.ofNat first.processor.opcode.size)) ∧
    ∀ start length count,
      readRun first.processor.read start length =
        readRun second.processor.read (start + distance) length →
      (∀ index < count,
        (Machine.advance^[index] first).processor.StaysInCode start distance length) →
      ∃ cost last otherCost otherLast,
        first.stepTimes run count = some (cost, last) ∧
        second.stepTimes run count = some (otherCost, otherLast) ∧
        last.processor.Displaced distance otherLast.processor ∧
        readRun last.processor.read start length =
          readRun otherLast.processor.read (start + distance) length ∧
        ((∀ index < count,
            (Machine.advance^[index] first).processor.opcode.mnemonic.isControlFlow = false) →
          cost = otherCost) := by
  rw [displaced.read_eq]
  constructor
  · intro hPending hMovable hBytes
    have hPc : second.processor.registers.pc = first.processor.registers.pc + distance := by
      rw [displaced.registers]
    rw [hPc] at hBytes
    obtain ⟨hStep, hCost⟩ := displaced.step hPending hMovable hBytes
    refine ⟨_, _, _, _, step_of_untrapped hFirst.untrapped run, step_of_untrapped hSecond.untrapped run,
      ?_, ?_, fun hSequential => ⟨(hCost hSequential).symm, ?_⟩⟩
    · rwa [processor_advance, processor_advance]
    · rw [processor_advance, processor_advance, hStep.registers, hPc]
      grind
    · rw [processor_advance]
      simp only [Processor.step, hPending]
      exact Processor.pc_execute_of_sequential hSequential
  · intro start length count hCopy hCode
    simp only [processor_iterate_advance] at hCode ⊢
    obtain ⟨hLast, hCopied, hCost⟩ := displaced.iterate hCopy hCode
    refine ⟨_, _, _, _, stepTimes_of_trapless hFirst run count, stepTimes_of_trapless hSecond run count,
      ?_, ?_, fun hSequential => (hCost hSequential).symm⟩
    · rwa [processor_iterate_advance, processor_iterate_advance]
    · rwa [processor_iterate_advance, processor_iterate_advance, hLast.read_eq]

/-- A load, a store and a branch back to the load. -/
def loop : List UInt8 := [0xA9, 0x81, 0x8D, 0x00, 0x03, 0x30, 0xF9]

/-- The machine that is about to carry out one of two copies of the loop, one of which goes on behind the
last address. -/
def beforeLoop (pc : Address) : Machine Ram Empty :=
  (powerOn {} ((Ram.zero.writeRun 0xFFFD loop).writeRun 0x2000 loop)).change
    (.registers fun registers => { registers with pc })

/-- The load goes equally far in both places, and with the store it takes both copies six cycles. A turn of
the loop leads back to where each began; the branch goes to another page in one of them only. -/
theorem position_independent_of_loop :
    (beforeLoop 0xFFFD).processor.Displaced 0x2003 (beforeLoop 0x2000).processor ∧
    (∀ index < 3,
      (Machine.advance^[index] (beforeLoop 0xFFFD)).processor.StaysInCode 0xFFFD 0x2003 7) ∧
    (∃ cost after otherAfter, (beforeLoop 0xFFFD).step (run? 0) = some (cost, after) ∧
      (beforeLoop 0x2000).step (run? 0) = some (cost, otherAfter) ∧
      after.processor.Displaced 0x2003 otherAfter.processor) ∧
    (∃ last otherLast, (beforeLoop 0xFFFD).stepTimes (run? 0) 2 = some (6, last) ∧
      (beforeLoop 0x2000).stepTimes (run? 0) 2 = some (6, otherLast) ∧
      last.processor.Displaced 0x2003 otherLast.processor) ∧
    ∃ last otherLast, (beforeLoop 0xFFFD).stepTimes (run? 0) 3 = some (10, last) ∧
      (beforeLoop 0x2000).stepTimes (run? 0) 3 = some (9, otherLast) ∧
      last.processor.registers.pc = 0xFFFD ∧ otherLast.processor.registers.pc = 0x2000 := by
  have hDisplaced : (beforeLoop 0xFFFD).processor.Displaced 0x2003 (beforeLoop 0x2000).processor :=
    ⟨by decide +kernel, rfl, rfl⟩
  have hCode : ∀ index < 3,
      (Machine.advance^[index] (beforeLoop 0xFFFD)).processor.StaysInCode 0xFFFD 0x2003 7 := by
    decide +kernel
  have hCopy : readRun (beforeLoop 0xFFFD).processor.read 0xFFFD 7 =
      readRun (beforeLoop 0x2000).processor.read (0xFFFD + 0x2003) 7 := by decide +kernel
  have trapless (pc : Address) : (beforeLoop pc).Trapless := fun _ => rfl
  have hSteps (pc : Address) := stepTimes_of_trapless (trapless pc) (run? 0)
  obtain ⟨hOne, hMany⟩ := position_independent (trapless _) (trapless _) hDisplaced (run? 0)
  refine ⟨hDisplaced, hCode, ?_, ?_, ?_⟩
  · obtain ⟨cost, after, otherCost, otherAfter, hStep, hOther, hAfter, _, hCost⟩ :=
      hOne (by decide +kernel) (by decide +kernel) (by decide +kernel)
    obtain ⟨rfl, _⟩ := hCost (by decide +kernel)
    exact ⟨cost, after, otherAfter, hStep, hOther, hAfter⟩
  · obtain ⟨cost, last, otherCost, otherLast, hFirst, hOther, hLast, _, hCost⟩ :=
      hMany 0xFFFD 7 2 hCopy fun index hIndex => hCode index (Nat.lt_succ_of_lt hIndex)
    obtain rfl := hCost (by decide +kernel)
    have hSix : (beforeLoop 0xFFFD).processor.stepsCost 2 = 6 := by decide +kernel
    obtain rfl : 6 = cost := by
      rw [hSteps, hSix] at hFirst
      cases hFirst
      rfl
    exact ⟨last, otherLast, hFirst, hOther, hLast⟩
  · obtain ⟨cost, last, otherCost, otherLast, hFirst, hOther, hLast, _⟩ := hMany 0xFFFD 7 3 hCopy hCode
    have hCosts : (beforeLoop 0xFFFD).processor.stepsCost 3 = 10 ∧
        (beforeLoop 0x2000).processor.stepsCost 3 = 9 := by decide +kernel
    rw [hSteps, hCosts.1] at hFirst
    rw [hSteps, hCosts.2] at hOther
    cases hFirst
    cases hOther
    have hBack : (Machine.advance^[3] (beforeLoop 0xFFFD)).processor.registers.pc = 0xFFFD := by
      decide +kernel
    refine ⟨_, _, by rw [hSteps, hCosts.1], by rw [hSteps, hCosts.2], hBack, ?_⟩
    rw [hLast.registers, hBack]
    rfl

end Machine

end Mos6510
