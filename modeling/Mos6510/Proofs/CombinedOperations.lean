import Mathlib.Logic.Function.Basic
import Mos6510.Board
import Mos6510.Proofs.StepCost

/-!
Combined operations. Six undocumented operations alter a byte of memory and use the result at once, and
one masks the accumulator and shifts it. Main statement: whatever the bus does with the byte, each of
them does what two documented instructions do one after the other, and takes no cycle for a page that
its index leads to.
-/

namespace Mos6510

/-- An instruction wherever it stands: the meaning of its opcode, and the byte behind the opcode unless
that is to be read from memory. -/
structure Instruction where
  opcode : Opcode
  operand? : Option UInt8

/-- The memory as it is while an instruction stands at an address. -/
def Instruction.view (instruction : Instruction) (pc : Address) (read : Address → UInt8) :
    Address → UInt8 :=
  match instruction.operand? with
  | none => read
  | some operand => Function.update read (pc + 1) operand

namespace Processor

variable {β : Type} [Bus β]

/-- What an instruction does when it stands at the program counter. -/
def effectOf (processor : Processor β) (instruction : Instruction) : Effect :=
  instruction.opcode.effect (instruction.view processor.registers.pc processor.read)
    processor.registers

/-- Carries out an instruction as if it stood at the program counter. -/
def perform (processor : Processor β) (instruction : Instruction) : Processor β :=
  let effect := processor.effectOf instruction
  processor.apply effect (instruction.opcode.cycles + effect.penalty)

/-- The instruction at the program counter is one like all others. -/
theorem perform_opcode (processor : Processor β) :
    processor.perform ⟨processor.opcode, none⟩ = processor.execute := rfl

/-- The instruction at the program counter with another operation in place of its own. -/
def replacing (processor : Processor β) (operation : Mnemonic) : Instruction :=
  ⟨{ processor.opcode with mnemonic := operation }, none⟩

/-- The instruction at the program counter leaves the registers, and sends the bytes to the bus, that
two others do one after the other. It is as long as the first of them. -/
structure DoesBoth (processor : Processor β) (first second : Instruction) : Prop where
  writes : processor.effect.writes =
    (processor.effectOf first).writes ++ ((processor.perform first).effectOf second).writes
  bus : processor.execute.bus = ((processor.perform first).perform second).bus
  registers : processor.execute.registers =
    { ((processor.perform first).perform second).registers with
      pc := (processor.perform first).registers.pc }

end Processor

/-- The row of a documented operation with an immediate operand. -/
def Opcode.immediate (mnemonic : Mnemonic) : Opcode := ⟨mnemonic, .immediate, 2, true⟩

/-- The row of the shift of the accumulator to the right. -/
def Opcode.shiftAccumulator : Opcode := ⟨.lsr, .accumulator, 2, true⟩

/-- An outcome that says of its value what sign it has and whether it is zero. -/
def Outcome.observed (outcome : Outcome) : Outcome :=
  { outcome with flags := outcome.flags.observe outcome.value }

namespace Arithmetic

/-- A shift up has observed its result. -/
theorem observed_shiftLeft (enters : Bool) (value : UInt8) (flags : Flags) :
    (shiftLeft enters value flags).observed = shiftLeft enters value flags := rfl

/-- A shift down has observed its result. -/
theorem observed_shiftRight (enters : Bool) (value : UInt8) (flags : Flags) :
    (shiftRight enters value flags).observed = shiftRight enters value flags := rfl

/-- To increment is to count up and to observe the result. -/
theorem observed_successor (value : UInt8) (flags : Flags) :
    (successor value flags).observed = increment value flags := rfl

/-- To decrement is to count down and to observe the result. -/
theorem observed_predecessor (value : UInt8) (flags : Flags) :
    (predecessor value flags).observed = decrement value flags := rfl

/-- A sum does not depend on what was observed before, in either number system, and leaves nothing of
it. -/
theorem add_observe (a operand value : UInt8) (flags : Flags) :
    add a operand (flags.observe value) = add a operand flags := rfl

/-- Nor does a difference. -/
theorem subtract_observe (a operand value : UInt8) (flags : Flags) :
    subtract a operand (flags.observe value) = subtract a operand flags := rfl

/-- Nor does a comparison. -/
theorem compare_observe (register operand value : UInt8) (flags : Flags) :
    compare register operand (flags.observe value) = compare register operand flags := rfl

/-- Nor does a shift down. -/
theorem shiftRight_observe (enters : Bool) (value other : UInt8) (flags : Flags) :
    shiftRight enters value (flags.observe other) = shiftRight enters value flags := rfl

end Arithmetic

namespace Registers

/-- What is loaded is all that is observed. -/
theorem loadA_observe (value other : UInt8) (r : Registers) :
    loadA value { r with flags := r.flags.observe other } = loadA value r := rfl

/-- The accumulator that a sum leaves is the same whatever was observed before, and so are the flags. -/
theorem add_observe (operand value : UInt8) (r : Registers) :
    add operand { r with flags := r.flags.observe value } = add operand r := by
  simp only [add, acceptA, Arithmetic.add_observe]

/-- So it is with a difference. -/
theorem subtract_observe (operand value : UInt8) (r : Registers) :
    subtract operand { r with flags := r.flags.observe value } = subtract operand r := by
  simp only [subtract, acceptA, Arithmetic.subtract_observe]

/-- A comparison leaves the flags that it would have left. -/
theorem compare_observe (register operand value : UInt8) (r : Registers) :
    compare register operand { r with flags := r.flags.observe value } =
      compare register operand r := by
  simp only [compare, Arithmetic.compare_observe]

/-- To mask and shift at once is to mask and then to shift, since the shift overwrites what is observed of
the masked byte. -/
theorem maskAndShift_eq (operand : UInt8) (r : Registers) :
    r.maskAndShift operand =
      (r.mask operand).acceptA
        (Arithmetic.shiftRight false (r.mask operand).a (r.mask operand).flags) := by
  rw [maskAndShift, mask, loadA, Arithmetic.shiftRight_observe]
  rfl

end Registers

namespace Mnemonic

/-- The documented operation that alters the operand of a combined one, and the one that uses the
result. -/
def parts? : Mnemonic → Option (Mnemonic × Mnemonic)
  | .slo => some (.asl, .ora)
  | .rla => some (.rol, .and)
  | .sre => some (.lsr, .eor)
  | .rra => some (.ror, .adc)
  | .dcp => some (.dec, .cmp)
  | .isc => some (.inc, .sbc)
  | _ => none

variable {mnemonic alteration use : Mnemonic}

/-- What a combined operation has to do with its two parts. Its own alteration is the documented one,
except that it need not observe the result; what the documented one observes is overwritten by the
use. -/
structure Combines (mnemonic alteration use : Mnemonic) (alter documented : UInt8 → Flags → Outcome)
    (consume : UInt8 → Registers → Registers) : Prop where
  combined : mnemonic.action = .modify alter consume
  alteration : alteration.action = .alterOnly documented
  use : use.action = .read consume
  observes : ∀ value flags, documented value flags = (alter value flags).observed
  overwrites : ∀ operand value r,
    consume operand { r with flags := r.flags.observe value } = consume operand r
  ignoresPc : ∀ operand r pc, consume operand { r with pc } = { consume operand r with pc }

/-- Each combined operation is made of its parts, with an alteration of its own. -/
theorem combines_of_parts? (h : mnemonic.parts? = some (alteration, use)) :
    ∃ alter documented consume, Combines mnemonic alteration use alter documented consume := by
  cases mnemonic <;> simp only [parts?, reduceCtorEq, Option.some.injEq, Prod.mk.injEq] at h
  all_goals obtain ⟨rfl, rfl⟩ := h
  case slo | rla =>
    exact ⟨_, _, _, {
      combined := rfl
      alteration := rfl
      use := rfl
      observes := fun _ _ => (Arithmetic.observed_shiftLeft ..).symm
      overwrites := fun _ _ _ => Registers.loadA_observe ..
      ignoresPc := fun _ _ _ => rfl }⟩
  case sre =>
    exact ⟨_, _, _, {
      combined := rfl
      alteration := rfl
      use := rfl
      observes := fun _ _ => (Arithmetic.observed_shiftRight ..).symm
      overwrites := fun _ _ _ => Registers.loadA_observe ..
      ignoresPc := fun _ _ _ => rfl }⟩
  case rra =>
    exact ⟨_, _, _, {
      combined := rfl
      alteration := rfl
      use := rfl
      observes := fun _ _ => (Arithmetic.observed_shiftRight ..).symm
      overwrites := Registers.add_observe
      ignoresPc := fun _ _ _ => rfl }⟩
  case dcp =>
    exact ⟨_, _, _, {
      combined := rfl
      alteration := rfl
      use := rfl
      observes := fun _ _ => (Arithmetic.observed_predecessor ..).symm
      overwrites := fun operand value r => Registers.compare_observe r.a operand value r
      ignoresPc := fun _ _ _ => rfl }⟩
  case isc =>
    exact ⟨_, _, _, {
      combined := rfl
      alteration := rfl
      use := rfl
      observes := fun _ _ => (Arithmetic.observed_successor ..).symm
      overwrites := Registers.subtract_observe
      ignoresPc := fun _ _ _ => rfl }⟩

/-- Both parts have documented opcodes, the second one with an immediate operand. -/
theorem documented_parts (h : mnemonic.parts? = some (alteration, use)) :
    (∃ byte, (Opcode.ofByte byte).mnemonic = alteration ∧
      (Opcode.ofByte byte).documented = true) ∧
    ∃ byte, Opcode.ofByte byte = Opcode.immediate use := by
  cases mnemonic <;> simp only [parts?, reduceCtorEq, Option.some.injEq, Prod.mk.injEq] at h
  all_goals obtain ⟨rfl, rfl⟩ := h
  case slo => exact ⟨⟨0x06, by decide +kernel⟩, 0x09, by decide +kernel⟩
  case rla => exact ⟨⟨0x26, by decide +kernel⟩, 0x29, by decide +kernel⟩
  case sre => exact ⟨⟨0x46, by decide +kernel⟩, 0x49, by decide +kernel⟩
  case rra => exact ⟨⟨0x66, by decide +kernel⟩, 0x69, by decide +kernel⟩
  case dcp => exact ⟨⟨0xC6, by decide +kernel⟩, 0xC9, by decide +kernel⟩
  case isc => exact ⟨⟨0xE6, by decide +kernel⟩, 0xE9, by decide +kernel⟩

/-- No combined operation works on the accumulator, so that there is always a byte of memory to
alter. -/
theorem mode_of_parts? :
    ∀ byte, (Opcode.ofByte byte).mnemonic.parts?.isSome →
      (Opcode.ofByte byte).mode ≠ .accumulator :=
  @Opcode.forall_ofByte (fun opcode => opcode.mnemonic.parts?.isSome → opcode.mode ≠ .accumulator)
    (by decide +kernel)

theorem mode_of_alr :
    ∀ byte, (Opcode.ofByte byte).mnemonic = .alr → (Opcode.ofByte byte).mode = .immediate :=
  @Opcode.forall_ofByte (fun opcode => opcode.mnemonic = .alr → opcode.mode = .immediate)
    (by decide +kernel)

end Mnemonic

namespace Processor

variable {β : Type} [Bus β] {processor : Processor β}

/-- An effect without a vector says of itself which registers it leaves. -/
theorem registers_perform {instruction : Instruction} {registers : Registers} {writes : List Write}
    (h : processor.effectOf instruction = { registers, writes }) :
    (processor.perform instruction).registers = registers := by
  simp only [perform, apply, h]

/-- What two effects make one after the other, one effect can make at once. -/
theorem DoesBoth.of_effects {first second : Instruction} {middle last : Registers}
    {writes more : List Write}
    (hFirst : processor.effectOf first = { registers := middle, writes })
    (hSecond : (processor.perform first).effectOf second = { registers := last, writes := more })
    (hEffect : processor.effect =
      { registers := { last with pc := middle.pc }, writes := writes ++ more }) :
    processor.DoesBoth first second := by
  have hWrites : processor.effect.writes =
      (processor.effectOf first).writes ++ ((processor.perform first).effectOf second).writes := by
    rw [hEffect, hFirst, hSecond]
  refine ⟨hWrites, ?_, ?_⟩
  · change Bus.writeAll processor.bus processor.effect.writes = _
    rw [hWrites, Bus.writeAll_append]
    rfl
  · rw [registers_execute_of_vector_none (by rw [hEffect]), registers_perform hSecond,
      registers_perform hFirst, hEffect]

/-- An operation that reads uses an immediate operand as it stands there, whatever the memory holds
in its place. -/
theorem effectOf_immediate {use : Mnemonic} {consume : UInt8 → Registers → Registers}
    (h : use.action = .read consume) (processor : Processor β) (operand : UInt8) :
    processor.effectOf ⟨Opcode.immediate use, some operand⟩ =
      { registers := { consume operand processor.registers with pc := processor.registers.pc + 2 } } := by
  have hEffect := (Opcode.immediate use).effect_of_read
    (Function.update processor.read (processor.registers.pc + 1) operand) processor.registers consume
    h
  have hOperand : Function.update processor.read (processor.registers.pc + 1) operand
      ((Opcode.immediate use).mode.resolve
        (Function.update processor.read (processor.registers.pc + 1) operand)
        processor.registers.pc processor.registers.x processor.registers.y).address = operand :=
    Function.update_self ..
  rw [hOperand] at hEffect
  exact hEffect

/-- An operation that alters memory and uses the result at once does what an alteration and a use do. -/
theorem doesBoth_of_combines {alteration use : Mnemonic} {alter documented : UInt8 → Flags → Outcome}
    {consume : UInt8 → Registers → Registers} (hMode : processor.opcode.mode ≠ .accumulator)
    (combines : processor.opcode.mnemonic.Combines alteration use alter documented consume) :
    ∃ written : Write,
      (processor.effectOf (processor.replacing alteration)).writes = [written] ∧
      processor.effect.writes = [written] ∧
      processor.DoesBoth (processor.replacing alteration)
        ⟨Opcode.immediate use, some written.value⟩ := by
  let r := processor.registers
  let target := (processor.opcode.mode.resolve processor.read r.pc r.x r.y).address
  let outcome := alter (processor.read target) r.flags
  let altered : Registers := { r with flags := outcome.flags }
  let observed : Registers := { r with flags := outcome.flags.observe outcome.value }
  let next := r.pc + UInt16.ofNat processor.opcode.size
  let first := processor.replacing alteration
  have hEffect : processor.effect =
      { registers := { consume outcome.value altered with pc := next }
        writes := [⟨target, outcome.value⟩] } :=
    processor.opcode.effect_of_modify processor.read r combines.combined hMode
  let left := documented (processor.read target) r.flags
  have hLeft : left = outcome.observed := combines.observes _ _
  have hFirst : processor.effectOf first =
      { registers := { observed with pc := next }, writes := [⟨target, outcome.value⟩] } := by
    have hAlter : processor.effectOf first =
        { registers := { { r with flags := left.flags } with pc := next }
          writes := [⟨target, left.value⟩] } :=
      first.opcode.effect_of_modify processor.read r combines.alteration hMode
    rw [hLeft] at hAlter
    exact hAlter
  have hBetween : (processor.perform first).registers = { observed with pc := next } :=
    registers_perform hFirst
  -- The use starts behind the alteration and from what that has observed, which it overwrites.
  have hSecond := effectOf_immediate combines.use (processor.perform first) outcome.value
  rw [hBetween, combines.ignoresPc outcome.value observed next,
    combines.overwrites outcome.value outcome.value altered] at hSecond
  exact ⟨⟨target, outcome.value⟩, by rw [hFirst], by rw [hEffect],
    .of_effects hFirst hSecond hEffect⟩

/-- An operation that alters memory has no penalty, and so costs the fixed part of its opcode. -/
theorem cost_of_modify {alter : UInt8 → Flags → Outcome} {consume : UInt8 → Registers → Registers}
    (h : processor.opcode.mnemonic.action = .modify alter consume) :
    processor.cost = processor.opcode.cycles := by
  rw [cost, effect, Opcode.penalty_effect_eq, h]
  rfl

/-- The mask and the shift are two instructions of which the first is as long as both at once. -/
theorem doesBoth_of_alr (h : processor.opcode.mnemonic = .alr) :
    processor.effect.writes = [] ∧
      processor.DoesBoth ⟨Opcode.immediate .and, none⟩ ⟨Opcode.shiftAccumulator, none⟩ ∧
      processor.cost = processor.opcode.cycles := by
  let r := processor.registers
  let first : Instruction := ⟨Opcode.immediate .and, none⟩
  let second : Instruction := ⟨Opcode.shiftAccumulator, none⟩
  let masked := r.mask (processor.read (r.pc + 1))
  have hMode : processor.opcode.mode = .immediate := Mnemonic.mode_of_alr processor.opcodeByte h
  have hEffect : processor.effect =
      { registers :=
          { masked.acceptA (Arithmetic.shiftRight false masked.a masked.flags) with
            pc := r.pc + 2 } } := by
    have hRead := processor.opcode.effect_of_read processor.read r Registers.maskAndShift
      (by rw [h]; rfl)
    rw [hMode, Opcode.size, hMode, Registers.maskAndShift_eq] at hRead
    exact hRead
  have hFirst : processor.effectOf first = { registers := { masked with pc := r.pc + 2 } } :=
    first.opcode.effect_of_read processor.read r Registers.mask rfl
  have hBetween : (processor.perform first).registers = { masked with pc := r.pc + 2 } :=
    registers_perform hFirst
  have hSecond : (processor.perform first).effectOf second =
      { registers :=
          { masked.acceptA (Arithmetic.shiftRight false masked.a masked.flags) with
            pc := r.pc + 2 + 1 } } := by
    rw [effectOf, hBetween]
    rfl
  exact ⟨by rw [hEffect], .of_effects hFirst hSecond hEffect, by rw [cost, hEffect, Nat.add_zero]⟩

/-- An operation that combines an alteration and a use of memory, in whichever mode it has, sends the
altered byte to the bus and leaves what the documented alteration in that mode leaves, followed by the
documented use with that byte as immediate operand. An accumulator masked and shifted at once is as if
masked and then shifted. None of them takes a cycle beyond the fixed part of its opcode. -/
theorem combined_does_both (processor : Processor β) :
    (∀ alteration use, processor.opcode.mnemonic.parts? = some (alteration, use) →
      ((∃ byte, (Opcode.ofByte byte).mnemonic = alteration ∧
          (Opcode.ofByte byte).documented = true) ∧
        ∃ byte, Opcode.ofByte byte = Opcode.immediate use) ∧
      (∃ written : Write,
        (processor.effectOf (processor.replacing alteration)).writes = [written] ∧
        processor.effect.writes = [written] ∧
        processor.DoesBoth (processor.replacing alteration)
          ⟨Opcode.immediate use, some written.value⟩) ∧
      processor.cost = processor.opcode.cycles) ∧
    (processor.opcode.mnemonic = .alr →
      ((∃ byte, Opcode.ofByte byte = Opcode.immediate .and) ∧
        ∃ byte, Opcode.ofByte byte = Opcode.shiftAccumulator) ∧
      processor.effect.writes = [] ∧
      processor.DoesBoth ⟨Opcode.immediate .and, none⟩ ⟨Opcode.shiftAccumulator, none⟩ ∧
      processor.cost = processor.opcode.cycles) := by
  refine ⟨fun alteration use h => ?_, fun h => ?_⟩
  · obtain ⟨alter, documented, consume, combines⟩ := Mnemonic.combines_of_parts? h
    have hMode : processor.opcode.mode ≠ .accumulator :=
      Mnemonic.mode_of_parts? processor.opcodeByte (Option.isSome_of_eq_some h)
    exact ⟨Mnemonic.documented_parts h, doesBoth_of_combines hMode combines,
      cost_of_modify combines.combined⟩
  · exact ⟨⟨⟨0x29, by decide +kernel⟩, 0x4A, by decide +kernel⟩, doesBoth_of_alr h⟩

/-- A rotation of a byte of memory that is added to the accumulator, in decimal, while the board
protects the byte. -/
def protectedRotation : Processor Board where
  registers := { Registers.powerOn 0x8000 with
    a := 0x15, flags := { Flags.powerOn with decimal := true, carry := true } }
  lines := .released
  jammed := false
  cycles := 0
  bus :=
    { ram := (Ram.zero.writeRun 0x8000 [0x67, 0x10]).write 0x10 0x24
      protectedRanges := [(0x10, 0x10)]
      requestRegister := none
      requesting := false }

/-- Although the rotated byte is not kept, it is what is added. -/
theorem combined_does_both_of_protected :
    protectedRotation.opcode.mnemonic.parts? = some (.ror, .adc) ∧
      protectedRotation.execute.registers.a = 0x07 ∧
      protectedRotation.execute.registers.flags.carry = true ∧
      protectedRotation.execute.bus.ram.read 0x10 = 0x24 ∧ protectedRotation.cost = 5 := by
  have hParts : protectedRotation.opcode.mnemonic.parts? = some (.ror, .adc) := by decide +kernel
  obtain ⟨_, ⟨written, hWritten, _, hBoth⟩, hCost⟩ :=
    (combined_does_both protectedRotation).1 .ror .adc hParts
  obtain rfl : ⟨0x10, 0x92⟩ = written := by
    apply List.singleton_inj.mp
    rw [← hWritten]
    decide +kernel
  rw [hBoth.registers, hBoth.bus, hCost]
  exact ⟨hParts, by decide +kernel⟩

end Processor

end Mos6510
