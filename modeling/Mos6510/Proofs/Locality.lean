import Mos6510.Proofs.WriteFootprint

/-!
What a step reads. The read set of a step is computed from the registers and the bytes of memory before
it: the bytes of the instruction, those of a pointer that it goes through, its operand if it uses one,
what it pulls from the stack, and the vector of an interrupt. Main statement: memories that agree on the
read set of a step are all the same to it, so no byte beyond it matters; the old byte at the target of a
store and the byte behind a software interrupt do not.
-/

namespace Mos6510

/-- A number of consecutive addresses. After the last address comes the first one. -/
def Address.run (address : Address) : (length : Nat) → List Address
  | 0 => []
  | length + 1 => address :: run (address + 1) length

/-- Where the pointer lies that a mode of addressing goes through, if it does. A pointer in page zero
wraps there, and the pointer of an indirect jump wraps in its page. -/
def Mode.pointerCells (mode : Mode) (read : Address → UInt8) (pc : Address) (x : UInt8) :
    List Address :=
  let byte := read (pc + 1)
  match mode with
  | .indexedIndirect => [Address.zeroPage (byte + x), Address.zeroPage (byte + x + 1)]
  | .indirectIndexed => [Address.zeroPage byte, Address.zeroPage (byte + 1)]
  | .indirect =>
    let pointer := readWord read (pc + 1)
    [pointer, Address.ofBytes (pointer.low + 1) pointer.page]
  | _ => []

namespace Mnemonic

/-- Whether an operation reads its operand, be it to alter it. -/
def readsOperand : Mnemonic → Bool
  | .lda | .ldx | .ldy | .adc | .sbc | .and | .ora | .eor | .cmp | .cpx | .cpy | .bit | .nop
  | .anc | .alr | .arr | .sbx | .lax | .las | .xaa | .lxa
  | .asl | .lsr | .rol | .ror | .inc | .dec
  | .slo | .sre | .rla | .rra | .dcp | .isc => true
  | _ => false

/-- How far above the stack pointer the bytes lie that an operation pulls. -/
def pulledFrom : Mnemonic → List UInt8
  | .pla | .plp => [1]
  | .rts => [1, 2]
  | .rti => [1, 2, 3]
  | _ => []

/-- The operations that store a byte without reading one. -/
def stores : List Mnemonic := [.sta, .stx, .sty, .sax, .sha, .shx, .shy, .tas]

end Mnemonic

/-- The addresses that the instruction at the program counter reads, given the bytes of memory. An operand
that is not in memory counts as lying in the instruction. -/
def Opcode.readSet (opcode : Opcode) (read : Address → UInt8) (r : Registers) : List Address :=
  Address.run r.pc opcode.size ++ opcode.mode.pointerCells read r.pc r.x ++
    (if opcode.mnemonic.readsOperand then [(opcode.mode.resolve read r.pc r.x r.y).address] else []) ++
    (opcode.mnemonic.pulledFrom.map fun depth => Address.stack (r.sp + depth)) ++
    (if opcode.mnemonic = .brk then Address.run Interrupt.irq.vector 2 else [])

/-- The addresses that the next step reads when it calls no handler. -/
def Processor.readSet {β : Type} [Bus β] (processor : Processor β) : List Address :=
  match processor.pendingInterrupt with
  | some kind => Address.run kind.vector 2
  | none => processor.opcode.readSet processor.read processor.registers

/-- Two memories hold the same bytes at some addresses. -/
def AgreeOn (addresses : List Address) (first second : Address → UInt8) : Prop :=
  ∀ address ∈ addresses, first address = second address

instance (addresses : List Address) (first second : Address → UInt8) :
    Decidable (AgreeOn addresses first second) :=
  List.decidableBAll (fun address => first address = second address) addresses

/-- Read sets are put together from parts, and memories agree on the whole if they agree on each. -/
theorem agreeOn_append {left right : List Address} {first second : Address → UInt8} :
    AgreeOn (left ++ right) first second ↔
      AgreeOn left first second ∧ AgreeOn right first second :=
  List.forall_mem_append

theorem agreeOn_cons {address : Address} {rest : List Address} {first second : Address → UInt8} :
    AgreeOn (address :: rest) first second ↔
      first address = second address ∧ AgreeOn rest first second :=
  List.forall_mem_cons

section

variable {first second : Address → UInt8}

/-- A word is two bytes, and so are the pointers that are read as words. -/
theorem readWord_congr {address : Address} (h : AgreeOn (Address.run address 2) first second) :
    readWord first address = readWord second address := by
  obtain ⟨hLow, hHigh, _⟩ := agreeOn_cons.mp h |>.imp_right agreeOn_cons.mp
  rw [readWord, readWord, hLow, hHigh]

/-- The operand of an instruction lies where its bytes and its pointer say. -/
theorem Mode.resolve_congr {mode : Mode} {pc : Address} {x : UInt8} (y : UInt8)
    (hInstruction : AgreeOn (Address.run pc (1 + mode.operandBytes)) first second)
    (hPointer : AgreeOn (mode.pointerCells first pc x) first second) :
    mode.resolve first pc x y = mode.resolve second pc x y := by
  cases mode <;>
    simp_all [AgreeOn, Address.run, operandBytes, pointerCells, resolve, readWord, readZeroPageWord,
      readPageWord]

namespace Mnemonic

variable {mnemonic : Mnemonic}

theorem readsOperand_of_read {use : UInt8 → Registers → Registers}
    (h : mnemonic.action = .read use) : mnemonic.readsOperand = true := by
  cases mnemonic <;> first | rfl | cases h

theorem readsOperand_of_modify {alter : UInt8 → Flags → Outcome}
    {use : UInt8 → Registers → Registers} (h : mnemonic.action = .modify alter use) :
    mnemonic.readsOperand = true := by
  cases mnemonic <;> first | rfl | cases h

theorem pulledFrom_of_pull {use : UInt8 → Registers → Registers}
    (h : mnemonic.action = .pull use) : mnemonic.pulledFrom = [1] := by
  cases mnemonic <;> first | rfl | cases h

theorem pulledFrom_of_returnFromCall (h : mnemonic.action = .returnFromCall) :
    mnemonic.pulledFrom = [1, 2] := by
  cases mnemonic <;> first | rfl | cases h

theorem pulledFrom_of_returnFromInterrupt (h : mnemonic.action = .returnFromInterrupt) :
    mnemonic.pulledFrom = [1, 2, 3] := by
  cases mnemonic <;> first | rfl | cases h

theorem eq_brk_of_interrupt (h : mnemonic.action = .interrupt) : mnemonic = .brk := by
  cases mnemonic <;> first | rfl | cases h

end Mnemonic

/-- The effect of an instruction is computed from its read set. -/
theorem Opcode.effect_congr {opcode : Opcode} {r : Registers}
    (h : AgreeOn (opcode.readSet first r) first second) :
    opcode.effect first r = opcode.effect second r := by
  simp only [readSet, agreeOn_append] at h
  obtain ⟨⟨⟨⟨hInstruction, hPointer⟩, hOperand⟩, hPulled⟩, _⟩ := h
  have hResolve : opcode.mode.resolve first r.pc r.x r.y = opcode.mode.resolve second r.pc r.x r.y :=
    Mode.resolve_congr r.y hInstruction hPointer
  have hTarget (hReads : opcode.mnemonic.readsOperand = true) :
      first (opcode.mode.resolve second r.pc r.x r.y).address =
        second (opcode.mode.resolve second r.pc r.x r.y).address := by
    rw [if_pos hReads, hResolve] at hOperand
    exact hOperand _ (List.mem_singleton_self _)
  have hDepth (depth : UInt8) (hFrom : depth ∈ opcode.mnemonic.pulledFrom) :
      first (Address.stack (r.sp + depth)) = second (Address.stack (r.sp + depth)) :=
    hPulled _ (List.mem_map_of_mem hFrom)
  unfold effect
  cases hAction : opcode.mnemonic.action with
  | read use => simp only [hResolve, hTarget (Mnemonic.readsOperand_of_read hAction)]
  | modify alter use => simp only [hResolve, hTarget (Mnemonic.readsOperand_of_modify hAction)]
  | pull use =>
      rw [Mnemonic.pulledFrom_of_pull hAction] at hDepth
      simp only [hDepth 1 (by decide)]
  | returnFromCall =>
      rw [Mnemonic.pulledFrom_of_returnFromCall hAction] at hDepth
      simp only [hDepth 1 (by decide), hDepth 2 (by decide)]
  | returnFromInterrupt =>
      rw [Mnemonic.pulledFrom_of_returnFromInterrupt hAction] at hDepth
      simp only [hDepth 1 (by decide), hDepth 2 (by decide), hDepth 3 (by decide)]
  | _ => simp only [hResolve]

end

theorem Opcode.mode_ofByte_of_software :
    ∀ byte, (ofByte byte).mnemonic = .brk → (ofByte byte).mode = .implied :=
  @forall_ofByte (fun opcode => opcode.mnemonic = .brk → opcode.mode = .implied) (by decide +kernel)

/-- The software interrupt has the effect of an interrupt that returns behind the byte after the
opcode. -/
theorem Opcode.effect_of_software {opcode : Opcode} (h : opcode.mnemonic = .brk)
    (read : Address → UInt8) (r : Registers) :
    opcode.effect read r = Effect.interruption r (r.pc + 2) true Interrupt.irq.vector := by
  simp only [effect, h, Mnemonic.action]

/-- No other instruction goes on at an address that is read after its writes. -/
theorem Opcode.vector_effect_of_ne {opcode : Opcode} (h : opcode.mnemonic ≠ .brk)
    (read : Address → UInt8) (r : Registers) : (opcode.effect read r).vector = none := by
  unfold effect
  cases hAction : opcode.mnemonic.action with
  | modify alter use => dsimp only; split <;> rfl
  | branch condition => dsimp only; split <;> rfl
  | interrupt => exact absurd (Mnemonic.eq_brk_of_interrupt hAction) h
  | _ => rfl

/-- A byte that no write goes to is read as before. -/
theorem Ram.read_writeAll_of_forall_ne {ram : Ram} {writes : List Write} {address : Address}
    (h : ∀ w ∈ writes, address ≠ w.address) :
    Bus.read (Bus.writeAll ram writes) address = Bus.read ram address := by
  induction writes generalizing ram with
  | nil => rfl
  | cons w rest ih =>
      rw [Bus.writeAll_cons, ih fun other hOther => h other (List.mem_cons_of_mem w hOther)]
      exact ram.read_write_of_ne w.value (h w List.mem_cons_self)

/-- Whatever the stack pointer is, pushes stay within the page of the stack. -/
theorem page_of_mem_pushWrites {pointer : UInt8} {bytes : List UInt8} {w : Write}
    (h : w ∈ pushWrites pointer bytes) : w.address.page = 1 := by
  induction bytes generalizing pointer with
  | nil => cases h
  | cons byte later ih =>
      rcases List.mem_cons.mp h with rfl | hLater
      · exact Address.page_ofBytes pointer 1
      · exact ih hLater

/-- The vectors lie beyond the stack, so the pushes do not reach them. -/
theorem Interrupt.read_vector_writeAll_pushWrites (kind : Interrupt) (ram : Ram) (pointer : UInt8)
    (bytes : List UInt8) :
    readWord (Bus.read (Bus.writeAll ram (pushWrites pointer bytes))) kind.vector =
      readWord (Bus.read ram) kind.vector := by
  have hRead {address : Address} (hBeyond : address.page ≠ 1) :
      Bus.read (Bus.writeAll ram (pushWrites pointer bytes)) address = Bus.read ram address := by
    refine Ram.read_writeAll_of_forall_ne fun w hWrite => ?_
    rintro rfl
    exact hBeyond (page_of_mem_pushWrites hWrite)
  have hPages : kind.vector.page ≠ 1 ∧ (kind.vector + 1).page ≠ 1 := by cases kind <;> decide
  rw [readWord, readWord, hRead hPages.1, hRead hPages.2]

namespace Processor

variable {first second : Processor Ram}

/-- Which interrupt is due depends on the lines and the interrupt-disable flag. Plain memory asserts
no request of its own. -/
theorem pendingInterrupt_congr (hRegisters : first.registers = second.registers)
    (hLines : first.lines = second.lines) : first.pendingInterrupt = second.pendingInterrupt := by
  unfold pendingInterrupt irqAsserted
  rw [hRegisters, hLines]
  rfl

/-- Where execution goes on after an effect that interrupts, whatever lies beyond the vector. -/
theorem registers_apply_interruption_congr {returnAddress : Address} {software : Bool}
    {kind : Interrupt} {r : Registers} (cost : Nat)
    (hVector : AgreeOn (Address.run kind.vector 2) first.read second.read) :
    (first.apply (Effect.interruption r returnAddress software kind.vector) cost).registers =
      (second.apply (Effect.interruption r returnAddress software kind.vector) cost).registers := by
  have hWord : readWord (Bus.read first.bus) kind.vector = readWord (Bus.read second.bus) kind.vector :=
    readWord_congr hVector
  have hAfter (ram : Ram) : readWord (Bus.read (Bus.writeAll ram
      (Effect.interruption r returnAddress software kind.vector).writes)) kind.vector =
      readWord (Bus.read ram) kind.vector := by
    rw [Effect.writes_interruption]
    exact kind.read_vector_writeAll_pushWrites ram _ _
  unfold apply
  dsimp only [Effect.interruption] at hAfter ⊢
  rw [hAfter first.bus, hAfter second.bus, hWord]

/-- The opcode stands at the first address of the read set. -/
theorem opcode_congr (hRegisters : first.registers = second.registers)
    (hAgree : AgreeOn (first.opcode.readSet first.read first.registers) first.read second.read) :
    first.opcode = second.opcode := by
  have hByte : first.read first.registers.pc = second.read first.registers.pc := by
    simp only [Opcode.readSet, agreeOn_append, Opcode.size, Nat.add_comm 1, Address.run,
      agreeOn_cons] at hAgree
    exact hAgree.1.1.1.1.1
  rw [opcode, opcode, opcodeByte, opcodeByte, ← hRegisters, hByte]

/-- Processors that agree on what the instruction reads have the same instruction and the same
effect. -/
theorem effect_congr (hRegisters : first.registers = second.registers)
    (hAgree : AgreeOn (first.opcode.readSet first.read first.registers) first.read second.read) :
    first.effect = second.effect := by
  rw [effect, effect, ← opcode_congr hRegisters hAgree, ← hRegisters, Opcode.effect_congr hAgree]

/-- They also leave the same registers, though the software interrupt reads its vector only after it
has pushed. -/
theorem registers_execute_congr (hRegisters : first.registers = second.registers)
    (hAgree : AgreeOn (first.opcode.readSet first.read first.registers) first.read second.read) :
    first.execute.registers = second.execute.registers := by
  have hEffect := effect_congr hRegisters hAgree
  by_cases hSoftware : first.opcode.mnemonic = .brk
  · have hInterruption : first.effect = _ := Opcode.effect_of_software hSoftware _ _
    rw [execute, execute, ← hEffect, hInterruption]
    refine registers_apply_interruption_congr _ ?_
    simp only [Opcode.readSet, agreeOn_append, if_pos hSoftware] at hAgree
    exact hAgree.2
  · have hVector : first.effect.vector = none := Opcode.vector_effect_of_ne hSoftware _ _
    rw [registers_execute_of_vector_none hVector, hEffect,
      registers_execute_of_vector_none (hEffect ▸ hVector)]

/-- A store without a read reads its own bytes and its pointer, but not the byte that it
replaces. -/
theorem readSet_of_store (hPending : first.pendingInterrupt = none)
    (h : first.opcode.mnemonic ∈ Mnemonic.stores) :
    first.readSet = Address.run first.registers.pc first.opcode.size ++
      first.opcode.mode.pointerCells first.read first.registers.pc first.registers.x := by
  have hPlain : first.opcode.mnemonic.readsOperand = false ∧
      first.opcode.mnemonic.pulledFrom = [] ∧ first.opcode.mnemonic ≠ .brk := by
    generalize first.opcode.mnemonic = mnemonic at h
    revert h
    cases mnemonic <;> decide
  simp [readSet, hPending, Opcode.readSet, hPlain]

/-- The software interrupt reads its opcode and the vector. The byte that it skips is not read. -/
theorem readSet_of_software (hPending : first.pendingInterrupt = none)
    (h : first.opcode.mnemonic = .brk) :
    first.readSet = first.registers.pc :: Address.run Interrupt.irq.vector 2 := by
  have hMode : first.opcode.mode = .implied := Opcode.mode_ofByte_of_software _ h
  simp [readSet, hPending, Opcode.readSet, h, hMode, Opcode.size, Mode.operandBytes, Address.run,
    Mode.pointerCells, Mnemonic.readsOperand, Mnemonic.pulledFrom]

/-- A step is computed from the registers, the lines and the read set. -/
theorem step_congr (hRegisters : first.registers = second.registers)
    (hLines : first.lines = second.lines) (hAgree : AgreeOn first.readSet first.read second.read) :
    first.stepCost = second.stepCost ∧ first.step.registers = second.step.registers ∧
      first.footprint = second.footprint := by
  have hSame := pendingInterrupt_congr hRegisters hLines
  cases hPending : first.pendingInterrupt with
  | some kind =>
      rw [hPending] at hSame
      have hEntry : first.entry kind = second.entry kind := by rw [entry, entry, hRegisters]
      have hService : (first.service kind).registers = (second.service kind).registers := by
        simp only [readSet, hPending] at hAgree
        change (first.apply (first.entry kind) Interrupt.cycles).registers =
          (second.apply (second.entry kind) Interrupt.cycles).registers
        rw [← hEntry]
        exact registers_apply_interruption_congr _ hAgree
      rw [footprint_of_pending hPending, footprint_of_pending hSame.symm]
      simp only [stepCost, step, hPending, ← hSame, true_and]
      exact ⟨hService, congrArg Effect.writes hEntry⟩
  | none =>
      rw [hPending] at hSame
      rw [footprint_of_not_pending hPending, footprint_of_not_pending hSame.symm]
      simp only [readSet, hPending] at hAgree
      have hEffect := effect_congr hRegisters hAgree
      have hCost : first.cost = second.cost := by
        rw [cost, cost, hEffect, opcode_congr hRegisters hAgree]
      simp only [stepCost, step, hPending, ← hSame]
      exact ⟨hCost, registers_execute_congr hRegisters hAgree, congrArg Effect.writes hEffect⟩

end Processor

namespace Machine

variable {ν : Type} {first second : Machine Ram ν}

/-- The next steps of two machines end, cost the same, leave the same registers and send the same bytes to
the bus, in the same order. -/
def StepsAlike (first second : Machine Ram ν) : Prop :=
  ∀ run, ∃ cost firstAfter secondAfter firstEvents secondEvents,
    first.step run = some (cost, firstAfter) ∧ second.step run = some (cost, secondAfter) ∧
    firstAfter.processor.registers = secondAfter.processor.registers ∧
    firstAfter.history = first.history ++ firstEvents ∧
    secondAfter.history = second.history ++ secondEvents ∧
    firstEvents.filterMap Event.write? = secondEvents.filterMap Event.write?

/-- Two machines step alike if their processors agree on what the step reads. The handlers that wait
elsewhere may differ. -/
theorem stepsAlike_of_agreeOn (hFirst : first.Untrapped) (hSecond : second.Untrapped)
    (hRegisters : first.processor.registers = second.processor.registers)
    (hLines : first.processor.lines = second.processor.lines)
    (hAgree : AgreeOn first.processor.readSet first.processor.read second.processor.read) :
    StepsAlike first second := by
  intro run
  obtain ⟨hCost, hAfter, hFootprint⟩ := Processor.step_congr hRegisters hLines hAgree
  obtain ⟨firstEvents, hFirstHistory, hFirstWrites⟩ := first.exists_history_advance
  obtain ⟨secondEvents, hSecondHistory, hSecondWrites⟩ := second.exists_history_advance
  refine ⟨_, _, _, firstEvents, secondEvents, step_of_untrapped hFirst run, ?_, ?_, hFirstHistory,
    hSecondHistory, ?_⟩
  · rw [step_of_untrapped hSecond, hCost]
  · rw [processor_advance, processor_advance, hAfter]
  · rw [hFirstWrites, hSecondWrites, hFootprint]

/-- The machine with one byte of its memory replaced. -/
def poke (machine : Machine Ram ν) (address : Address) (value : UInt8) : Machine Ram ν :=
  machine.change (.bus fun ram => ram.write address value)

/-- A byte outside of the read set can be replaced without a difference to the step. -/
theorem stepsAlike_poke (hFirst : first.Untrapped) {address : Address}
    (hBeyond : address ∉ first.processor.readSet) (value : UInt8) :
    StepsAlike first (first.poke address value) := by
  refine stepsAlike_of_agreeOn hFirst hFirst rfl rfl fun other hOther => ?_
  have hNe : other ≠ address := fun hEq => hBeyond (hEq ▸ hOther)
  exact (first.processor.bus.read_write_of_ne value hNe).symm

/-- Memories that agree on the read set of the next step, which is computed from the first of them, are all
the same to the step when registers and lines agree: it costs the same, leaves the same registers and
sends the same bytes to the bus. So a byte beyond the read set may be anything. The target of a store is
in the read set only if the instruction or its pointer lies there, and the byte behind a software
interrupt only if the vector does. -/
theorem step_local (hFirst : first.Untrapped) (hSecond : second.Untrapped)
    (hRegisters : first.processor.registers = second.processor.registers)
    (hLines : first.processor.lines = second.processor.lines)
    (hAgree : AgreeOn first.processor.readSet first.processor.read second.processor.read) :
    StepsAlike first second ∧
    (∀ address ∉ first.processor.readSet, ∀ value, StepsAlike first (first.poke address value)) ∧
    (first.processor.pendingInterrupt = none →
      let opcode := first.processor.opcode
      let read := first.processor.read
      let r := first.processor.registers
      let target := (opcode.mode.resolve read r.pc r.x r.y).address
      (opcode.mnemonic ∈ Mnemonic.stores →
        target ∉ Address.run r.pc opcode.size ++ opcode.mode.pointerCells read r.pc r.x →
        ∀ value, StepsAlike first (first.poke target value)) ∧
      (opcode.mnemonic = .brk → r.pc + 1 ∉ Address.run Interrupt.irq.vector 2 →
        ∀ value, StepsAlike first (first.poke (r.pc + 1) value))) := by
  refine ⟨stepsAlike_of_agreeOn hFirst hSecond hRegisters hLines hAgree,
    fun _ hBeyond => stepsAlike_poke hFirst hBeyond, fun hPending => ⟨?_, ?_⟩⟩
  · intro hStore hTarget
    apply stepsAlike_poke hFirst
    rwa [Processor.readSet_of_store hPending hStore]
  · intro hSoftware hPadding
    apply stepsAlike_poke hFirst
    rw [Processor.readSet_of_software hPending hSoftware, List.mem_cons, not_or]
    exact ⟨by simp, hPadding⟩

/-- A store across the end of the space, through a pointer at the end of page zero whose second byte is
also the operand byte. -/
def wrappingStore : Ram := ((Ram.zero.write 0xFFFF 0x81).write 0x0000 0xF0).write 0x00FF 0x34

def beforeWrappingStore : Machine Ram Empty :=
  (powerOn {} wrappingStore).change
    (.registers fun registers => { registers with x := 0x0F, pc := 0xFFFF })

/-- Neither the byte behind page zero nor the one that is overwritten matters to the store. -/
theorem step_local_of_wrapping :
    beforeWrappingStore.processor.readSet = [0xFFFF, 0x0000, 0x00FF, 0x0000] ∧
      StepsAlike beforeWrappingStore (beforeWrappingStore.poke 0x0100 0x77) ∧
      ∀ value, ∃ after otherwise, beforeWrappingStore.step (run? 0) = some (6, after) ∧
        (beforeWrappingStore.poke 0xF034 value).step (run? 0) = some (6, otherwise) ∧
        after.processor.registers.pc = 0x0001 ∧ otherwise.processor.registers.pc = 0x0001 := by
  have hSet : beforeWrappingStore.processor.readSet = [0xFFFF, 0x0000, 0x00FF, 0x0000] := rfl
  have hFirst : beforeWrappingStore.Untrapped := fun _ => rfl
  have hSecond : (beforeWrappingStore.poke 0x0100 0x77).Untrapped := fun _ => rfl
  have hAgree : AgreeOn beforeWrappingStore.processor.readSet beforeWrappingStore.processor.read
      (beforeWrappingStore.poke 0x0100 0x77).processor.read := by
    rw [hSet]
    decide
  obtain ⟨hAlike, _, hParts⟩ := step_local hFirst hSecond rfl rfl hAgree
  refine ⟨hSet, hAlike, fun value => ?_⟩
  have hTarget : StepsAlike beforeWrappingStore (beforeWrappingStore.poke 0xF034 value) :=
    (hParts rfl).1 (by decide) (by decide) value
  obtain ⟨cost, after, otherwise, _, _, hStep, hOther, hRegisters, _⟩ := hTarget (run? 0)
  cases hStep
  exact ⟨_, otherwise, rfl, hOther, rfl, congrArg Registers.pc hRegisters.symm⟩

end Machine

end Mos6510
