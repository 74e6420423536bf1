import Mos6510.Proofs.SingleStep
import Mos6510.Ram

/-!
What a step sends to the bus. The footprint of a step is read off the memory before it: one byte at
the effective address for an instruction that stores or alters its operand, up to three bytes on the
stack for one that pushes and for the entry into an interrupt handler, and nothing else. Main
statement: a step sends exactly its footprint, in order, on every bus; a write that hits the
instruction itself, its pointer or the code on the stack moves neither the target nor the value nor
where execution goes on.
-/

namespace Mos6510

/-- Bytes pushed one after another. The pointer wraps, so the writes stay in page one. -/
def pushWrites (pointer : UInt8) : List UInt8 → List Write
  | [] => []
  | byte :: later => ⟨Address.stack pointer, byte⟩ :: pushWrites (pointer - 1) later

namespace Mnemonic

/-- The byte that a store sends, given the address that its operand is indexed from. -/
def stored? (mnemonic : Mnemonic) (r : Registers) (base : Address) : Option UInt8 :=
  match mnemonic with
  | .sta => some r.a
  | .stx => some r.x
  | .sty => some r.y
  | .sax => some (r.a &&& r.x)
  | .sha | .tas => some (r.a &&& r.x &&& (base.page + 1))
  | .shx => some (r.x &&& (base.page + 1))
  | .shy => some (r.y &&& (base.page + 1))
  | _ => none

/-- What a read-modify-write operation makes of a byte. -/
def altered? (mnemonic : Mnemonic) (value : UInt8) (carry : Bool) : Option UInt8 :=
  match mnemonic with
  | .asl | .slo => some (value <<< 1)
  | .lsr | .sre => some (value >>> 1)
  | .rol | .rla => some (value <<< 1 ||| carry.toUInt8)
  | .ror | .rra => some (value >>> 1 ||| carry.toUInt8 <<< 7)
  | .inc | .isc => some (value + 1)
  | .dec | .dcp => some (value - 1)
  | _ => none

/-- The bytes that an operation pushes, the first of the list first. -/
def pushed (mnemonic : Mnemonic) (r : Registers) : List UInt8 :=
  match mnemonic with
  | .pha => [r.a]
  | .php => [r.flags.pushed true]
  | .jsr => [(r.pc + 2).page, (r.pc + 2).low]
  | .brk => [(r.pc + 2).page, (r.pc + 2).low, r.flags.pushed true]
  | _ => []

end Mnemonic

/-- The writes of the instruction at the program counter, given the bytes of memory before it. -/
def Opcode.footprint (opcode : Opcode) (read : Address → UInt8) (r : Registers) : List Write :=
  let target := opcode.mode.resolve read r.pc r.x r.y
  match opcode.mnemonic.stored? r target.base,
      opcode.mnemonic.altered? (read target.address) r.flags.carry with
  | some value, _ => [⟨target.address, value⟩]
  | none, some value => if opcode.mode = .accumulator then [] else [⟨target.address, value⟩]
  | none, none => pushWrites r.sp (opcode.mnemonic.pushed r)

/-- The writes of the next step when it calls no handler. -/
def Processor.footprint {β : Type} [Bus β] (processor : Processor β) : List Write :=
  let r := processor.registers
  match processor.pendingInterrupt with
  | some _ => pushWrites r.sp [r.pc.page, r.pc.low, r.flags.pushed false]
  | none => processor.opcode.footprint processor.read r

/-- An interruption pushes the return address, the page first, and then the flags. -/
theorem Effect.writes_interruption (r : Registers) (returnAddress : Address) (software : Bool)
    (vector : Address) :
    (interruption r returnAddress software vector).writes =
      pushWrites r.sp [returnAddress.page, returnAddress.low, r.flags.pushed software] := by
  have hThird : r.sp - 2 = r.sp - 1 - 1 := by grind
  simp only [interruption, pushWrites, hThird]

namespace Arithmetic

theorem value_shiftLeft (enters : Bool) (value : UInt8) (flags : Flags) :
    (shiftLeft enters value flags).value = value <<< 1 ||| enters.toUInt8 := by
  have hAll : ∀ n < 256, ∀ enters : Bool, UInt8.ofNat ((UInt8.ofNat n).toNat * 2 + enters.toNat) =
      UInt8.ofNat n <<< 1 ||| enters.toUInt8 := by decide +kernel
  have hValue := hAll value.toNat value.toNat_lt enters
  rwa [UInt8.ofNat_toNat] at hValue

theorem value_shiftRight (enters : Bool) (value : UInt8) (flags : Flags) :
    (shiftRight enters value flags).value = value >>> 1 ||| enters.toUInt8 <<< 7 := by
  have hAll : ∀ n < 256, ∀ enters : Bool,
      UInt8.ofNat ((UInt8.ofNat n).toNat / 2 + enters.toNat * 128) =
        UInt8.ofNat n >>> 1 ||| enters.toUInt8 <<< 7 := by decide +kernel
  have hValue := hAll value.toNat value.toNat_lt enters
  rwa [UInt8.ofNat_toNat] at hValue

@[simp] theorem value_shiftLeft_false (value : UInt8) (flags : Flags) :
    (shiftLeft false value flags).value = value <<< 1 := by
  simp [value_shiftLeft, Bool.toUInt8]

@[simp] theorem value_shiftRight_false (value : UInt8) (flags : Flags) :
    (shiftRight false value flags).value = value >>> 1 := by
  simp [value_shiftRight, Bool.toUInt8]

@[simp] theorem value_rotateLeft (value : UInt8) (flags : Flags) :
    (rotateLeft value flags).value = value <<< 1 ||| flags.carry.toUInt8 :=
  value_shiftLeft flags.carry value flags

@[simp] theorem value_rotateRight (value : UInt8) (flags : Flags) :
    (rotateRight value flags).value = value >>> 1 ||| flags.carry.toUInt8 <<< 7 :=
  value_shiftRight flags.carry value flags

end Arithmetic

namespace Opcode

variable (opcode : Opcode) (read : Address → UInt8) (r : Registers)

/-- What an instruction writes is settled by its action: one byte, or some pushes, or nothing. -/
theorem writes_effect_eq :
    (opcode.effect read r).writes =
      match opcode.mnemonic.action with
      | .store prepare value =>
        [⟨(opcode.mode.resolve read r.pc r.x r.y).address,
          value (prepare r) (opcode.mode.resolve read r.pc r.x r.y).base⟩]
      | .modify alter _ =>
        if opcode.mode = .accumulator then []
        else
          [⟨(opcode.mode.resolve read r.pc r.x r.y).address,
            (alter (read (opcode.mode.resolve read r.pc r.x r.y).address) r.flags).value⟩]
      | .push value => [⟨Address.stack r.sp, value r⟩]
      | .call => pushWrites r.sp [(r.pc + 2).page, (r.pc + 2).low]
      | .interrupt => pushWrites r.sp [(r.pc + 2).page, (r.pc + 2).low, r.flags.pushed true]
      | _ => [] := by
  unfold effect
  cases opcode.mnemonic.action with
  | modify alter use => dsimp only; split <;> rfl
  | branch condition => dsimp only; split <;> rfl
  | interrupt => exact Effect.writes_interruption r (r.pc + 2) true _
  | _ => rfl

/-- The writes of an instruction are its footprint, whatever its operand overlaps. -/
theorem writes_effect : (opcode.effect read r).writes = opcode.footprint read r := by
  rw [writes_effect_eq]
  cases hMnemonic : opcode.mnemonic with
  | sta | stx | sty | sax | sha | shx | shy | tas =>
      simp [footprint, hMnemonic, Mnemonic.action, Action.storeByte, Action.storeMasked,
        Mnemonic.stored?]
  | asl | lsr | rol | ror | inc | dec | slo | sre | rla | rra | isc | dcp =>
      simp [footprint, hMnemonic, Mnemonic.action, Action.alterOnly, Mnemonic.stored?,
        Mnemonic.altered?, Arithmetic.increment, Arithmetic.decrement, Arithmetic.successor,
        Arithmetic.predecessor]
  | _ =>
      simp [footprint, hMnemonic, Mnemonic.action, Mnemonic.stored?, Mnemonic.altered?,
        Mnemonic.pushed, pushWrites]

/-- Where an instruction without a destination of its own goes on is settled before its writes. -/
theorem pc_effect_of_sequential (h : opcode.mnemonic.isControlFlow = false) :
    (opcode.effect read r).registers.pc = r.pc + UInt16.ofNat opcode.size ∧
      (opcode.effect read r).vector = none := by
  unfold Mnemonic.isControlFlow at h
  unfold effect
  cases hAction : opcode.mnemonic.action with
  | modify alter use => dsimp only; split <;> exact ⟨rfl, rfl⟩
  | branch | jump | call | returnFromCall | returnFromInterrupt | interrupt | halt =>
      simp [hAction, Action.isControlFlow] at h
  | _ => exact ⟨rfl, rfl⟩

/-- A call has its destination behind the opcode, whichever byte that is. -/
theorem mode_ofByte_of_call :
    ∀ byte, (ofByte byte).mnemonic = .jsr → (ofByte byte).mode = .absolute :=
  @forall_ofByte (fun opcode => opcode.mnemonic = .jsr → opcode.mode = .absolute)
    (by decide +kernel)

end Opcode

namespace Processor

variable {β : Type}

theorem writes_entry (processor : Processor β) (kind : Interrupt) :
    (processor.entry kind).writes =
      pushWrites processor.registers.sp [processor.registers.pc.page, processor.registers.pc.low,
        processor.registers.flags.pushed false] :=
  Effect.writes_interruption processor.registers processor.registers.pc false kind.vector

variable [Bus β] {processor : Processor β}

theorem footprint_of_pending {kind : Interrupt} (hPending : processor.pendingInterrupt = some kind) :
    processor.footprint = (processor.entry kind).writes := by
  simp only [footprint, hPending, writes_entry]

theorem footprint_of_not_pending (hPending : processor.pendingInterrupt = none) :
    processor.footprint = processor.effect.writes := by
  simp only [footprint, hPending, effect, Opcode.writes_effect]

/-- A step changes the bus by its footprint and in no other way. -/
theorem bus_step (processor : Processor β) :
    processor.step.bus = Bus.writeAll processor.bus processor.footprint := by
  cases hPending : processor.pendingInterrupt with
  | some kind => simp only [step, hPending, footprint_of_pending hPending, service, apply]
  | none => simp only [step, hPending, footprint_of_not_pending hPending, execute, apply]

/-- An instruction that does not say where execution goes on goes on behind itself. -/
theorem pc_execute_of_sequential (h : processor.opcode.mnemonic.isControlFlow = false) :
    processor.execute.registers.pc =
      processor.registers.pc + UInt16.ofNat processor.opcode.size := by
  obtain ⟨hPc, hVector⟩ :=
    processor.opcode.pc_effect_of_sequential processor.read processor.registers h
  rw [registers_execute_of_vector_none hVector]
  exact hPc

theorem pc_execute_of_call (h : processor.opcode.mnemonic = .jsr) :
    processor.execute.registers.pc =
      readWord processor.read (processor.registers.pc + 1) := by
  have hMode : processor.opcode.mode = .absolute := Opcode.mode_ofByte_of_call _ h
  simp [execute, apply, effect, Opcode.effect, h, hMode, Mnemonic.action, Mode.resolve,
    EffectiveAddress.direct]

/-- The software interrupt goes on at its vector as that stands after the pushes. -/
theorem pc_execute_of_software (h : processor.opcode.mnemonic = .brk) :
    processor.execute.registers.pc = readWord processor.execute.read 0xFFFE := by
  apply pc_apply_of_vector
  simp [effect, Opcode.effect, h, Mnemonic.action, Effect.interruption, Interrupt.vector]

/-- An interrupt that is serviced goes on at its vector, which it reads after the pushes too. -/
theorem pc_service (kind : Interrupt) :
    (processor.service kind).registers.pc = readWord (processor.service kind).read kind.vector := by
  have hVector : (processor.entry kind).vector = some kind.vector := rfl
  exact pc_apply_of_vector hVector Interrupt.cycles

end Processor

/-- The byte that an event sends to the bus, if it sends one. -/
def Event.write? {ν : Type} : Event ν → Option Write
  | .wrote address value => some ⟨address, value⟩
  | _ => none

namespace Machine

variable {β ν : Type}

theorem history_record (machine : Machine β ν) (events : List (Event ν)) :
    (machine.record events).history = machine.history ++ events := by
  simp [history, record]

theorem filterMap_writeEvents (effect : Effect) :
    (writeEvents effect : List (Event ν)).filterMap Event.write? = effect.writes := by
  simp [writeEvents, List.filterMap_map, Function.comp_def, Event.write?]

variable [Bus β] {machine : Machine β ν}

theorem filterMap_traceEvents (machine : Machine β ν) :
    machine.traceEvents.filterMap Event.write? = [] := by
  unfold traceEvents
  split
  · split <;> rfl
  · rfl

theorem filterMap_executionEvents (processor : Processor β) :
    (executionEvents processor : List (Event ν)).filterMap Event.write? =
      processor.effect.writes := by
  unfold executionEvents
  rw [List.filterMap_append, List.filterMap_append, filterMap_writeEvents]
  split <;> simp [Event.write?]

/-- The new events of a step that calls no handler tell of its footprint and of no other write. -/
theorem exists_history_advance (machine : Machine β ν) :
    ∃ events, machine.advance.history = machine.history ++ events ∧
      events.filterMap Event.write? = machine.processor.footprint := by
  cases hPending : machine.processor.pendingInterrupt with
  | some kind =>
      rw [advance_of_pending hPending, Processor.footprint_of_pending hPending]
      refine ⟨_, history_record _ _, ?_⟩
      simp [filterMap_writeEvents, Event.write?]
  | none =>
      rw [advance_of_not_pending hPending, Processor.footprint_of_not_pending hPending]
      refine ⟨_, history_record _ _, ?_⟩
      rw [List.filterMap_append, filterMap_traceEvents, filterMap_executionEvents, List.nil_append]

/-- A step that calls no handler sends its footprint to the bus, byte by byte in order, and nothing
else, and every bus ends up as these writes leave it. After a write or without one, execution goes on
behind the instruction as it stood in memory before the step, and a call goes to the operand that it
had then. Only the vectors of interrupts are read after the pushes. -/
theorem step_sends_footprint (hUntrapped : machine.Untrapped) (run : Runner β ν) :
    ∃ cost after events, machine.step run = some (cost, after) ∧
      after.history = machine.history ++ events ∧
      events.filterMap Event.write? = machine.processor.footprint ∧
      after.processor.bus = Bus.writeAll machine.processor.bus machine.processor.footprint ∧
      match machine.processor.pendingInterrupt with
      | some kind => after.processor.registers.pc = readWord after.processor.read kind.vector
      | none =>
        (machine.processor.opcode.mnemonic.isControlFlow = false →
          after.processor.registers.pc =
            machine.processor.registers.pc + UInt16.ofNat machine.processor.opcode.size) ∧
        (machine.processor.opcode.mnemonic = .jsr →
          after.processor.registers.pc =
            readWord machine.processor.read (machine.processor.registers.pc + 1)) ∧
        (machine.processor.opcode.mnemonic = .brk →
          after.processor.registers.pc = readWord after.processor.read 0xFFFE) := by
  obtain ⟨events, hHistory, hWrites⟩ := machine.exists_history_advance
  refine ⟨_, _, events, step_of_untrapped hUntrapped run, hHistory, hWrites, ?_, ?_⟩
  · rw [processor_advance, Processor.bus_step]
  · cases hPending : machine.processor.pendingInterrupt with
    | some kind =>
        rw [advance_of_pending hPending]
        exact Processor.pc_service kind
    | none =>
        rw [advance_of_not_pending hPending]
        exact ⟨Processor.pc_execute_of_sequential, Processor.pc_execute_of_call,
          Processor.pc_execute_of_software⟩

/-- A call whose three bytes end on the stack, where the way back is going to be pushed. -/
def callOnStack : Ram :=
  (((Ram.zero.setVector resetVector 0x01FE).write 0x01FE 0x20).write 0x01FF 0x00).write 0x0200 0x90

/-- The pushes overwrite the call itself, which goes to its operand all the same. -/
theorem step_sends_footprint_of_overwritten_call :
    ∃ after events, (powerOn {} callOnStack : Machine Ram Empty).step (run? 0) = some (6, after) ∧
      after.history = (powerOn {} callOnStack : Machine Ram Empty).history ++ events ∧
      events.filterMap Event.write? = [⟨0x01FF, 0x02⟩, ⟨0x01FE, 0x00⟩] ∧
      after.processor.bus.read 0x01FF = 0x02 ∧ after.processor.registers.pc = 0x9000 := by
  have hUntrapped : (powerOn {} callOnStack : Machine Ram Empty).Untrapped := fun _ => rfl
  obtain ⟨cost, after, events, hStep, hHistory, hWrites, hBus, _, hCall, _⟩ :=
    step_sends_footprint hUntrapped (run? 0)
  cases hStep
  exact ⟨_, events, rfl, hHistory, hWrites, rfl, hCall rfl⟩

end Machine

end Mos6510
