import Mos6510.Proofs.Scratch
import Mos6510.Proofs.SingleStep
import Mos6510.Ram

/-!
What a step costs. An opcode has a fixed part, and beyond it only two things take time: a branch that
is taken, the more so into another page, and an indexed operand of some operations that read, when
the index carries out of the low byte of the address. Main statement: a step that calls no handler
costs exactly that, or seven cycles when it services an interrupt, and never less than two or more
than eight.
-/

namespace Mos6510

namespace Mnemonic

/-- Whether a branch is taken, for the operations that branch. -/
def taken? (mnemonic : Mnemonic) (flags : Flags) : Option Bool :=
  match mnemonic with
  | .bcc => some !flags.carry
  | .bcs => some flags.carry
  | .beq => some flags.zero
  | .bne => some !flags.zero
  | .bmi => some flags.negative
  | .bpl => some !flags.negative
  | .bvc => some !flags.overflow
  | .bvs => some flags.overflow
  | _ => none

def branches : List Mnemonic := [.bcc, .bcs, .beq, .bne, .bmi, .bpl, .bvc, .bvs]

theorem branches_of_taken? {mnemonic : Mnemonic} {flags : Flags} {taken : Bool}
    (h : mnemonic.taken? flags = some taken) : mnemonic ∈ branches := by
  cases mnemonic <;> first | decide | cases h

theorem action_of_taken? {mnemonic : Mnemonic} {flags : Flags} {taken : Bool}
    (h : mnemonic.taken? flags = some taken) :
    ∃ condition, mnemonic.action = .branch condition ∧ condition flags = taken := by
  cases mnemonic <;> first | exact ⟨_, rfl, Option.some.inj h⟩ | cases h

/-- The operations that take one more cycle when the index of their operand carries. -/
def awaitsCarry : Mnemonic → Bool
  | .lda | .ldx | .ldy | .adc | .sbc | .and | .ora | .eor | .cmp | .nop | .lax | .las => true
  | _ => false

end Mnemonic

namespace Opcode

def branchTarget (read : Address → UInt8) (r : Registers) : Address :=
  r.pc + 2 + Address.displacement (read (r.pc + 1))

/-- Whether an index, added to the address that stands in the instruction or in its zero-page pointer,
carries out of the low byte. -/
def indexCarries (mode : Mode) (read : Address → UInt8) (r : Registers) : Bool :=
  match mode with
  | .absoluteX => decide (255 < (readWord read (r.pc + 1)).toNat % 256 + r.x.toNat)
  | .absoluteY => decide (255 < (readWord read (r.pc + 1)).toNat % 256 + r.y.toNat)
  | .indirectIndexed =>
    decide (255 < (readZeroPageWord read (read (r.pc + 1))).toNat % 256 + r.y.toNat)
  | _ => false

/-- The cycles of an instruction beyond the fixed part of its opcode. -/
def surcharge (opcode : Opcode) (read : Address → UInt8) (r : Registers) : Nat :=
  match opcode.mnemonic.taken? r.flags with
  | some true => if (branchTarget read r).page = (r.pc + 2).page then 1 else 2
  | some false => 0
  | none => if opcode.mnemonic.awaitsCarry && indexCarries opcode.mode read r then 1 else 0

/-- The most that an opcode can take beyond its fixed part. -/
def maxSurcharge (opcode : Opcode) : Nat :=
  if opcode.mode = .relative then 2
  else if opcode.mnemonic.awaitsCarry &&
    decide (opcode.mode ∈ [.absoluteX, .absoluteY, .indirectIndexed]) then 1
  else 0

/-- Branches and no other instructions have a distance for an operand. -/
theorem relative_iff_branch :
    ∀ byte, (ofByte byte).mode = .relative ↔
      (ofByte byte).mnemonic ∈ Mnemonic.branches :=
  @forall_ofByte (fun opcode => opcode.mode = .relative ↔ opcode.mnemonic ∈ Mnemonic.branches)
    (by decide +kernel)

/-- The operations that read without waiting for a carry have no indexed address to wait for. -/
theorem unindexed_of_read :
    ∀ byte, (ofByte byte).mnemonic ∈ [.bit, .cpx, .cpy, .anc, .alr, .arr, .sbx, .xaa, .lxa] →
      (ofByte byte).mode ∉ [.absoluteX, .absoluteY, .indirectIndexed] :=
  @forall_ofByte (fun opcode =>
    opcode.mnemonic ∈ [.bit, .cpx, .cpy, .anc, .alr, .arr, .sbx, .xaa, .lxa] →
      opcode.mode ∉ [.absoluteX, .absoluteY, .indirectIndexed]) (by decide +kernel)

/-- No opcode takes less than two cycles, and none takes more than eight with all that can come on
top. -/
theorem cycles_bounds :
    ∀ byte, 2 ≤ (ofByte byte).cycles ∧ (ofByte byte).cycles + (ofByte byte).maxSurcharge ≤ 8 :=
  @forall_ofByte (fun opcode => 2 ≤ opcode.cycles ∧ opcode.cycles + opcode.maxSurcharge ≤ 8)
    (by decide +kernel)

section

variable (read : Address → UInt8) (r : Registers)

/-- Apart from a branch, an address lies in another page than its base exactly if the index
carries. -/
theorem crossing_resolve {mode : Mode} (h : mode ≠ .relative) :
    (mode.resolve read r.pc r.x r.y).crossing = if indexCarries mode read r then 1 else 0 := by
  cases mode with
  | relative => exact (h rfl).elim
  | absoluteX | absoluteY | indirectIndexed =>
      simp [Mode.resolve, EffectiveAddress.crossing, EffectiveAddress.indexed_crossesPage,
        indexCarries, Nat.succ_le_iff]
  | _ => rfl

/-- A branch crosses a page if its target lies in another one than the instruction behind it. -/
theorem crossing_resolve_relative :
    (Mode.relative.resolve read r.pc r.x r.y).crossing =
      if (branchTarget read r).page = (r.pc + 2).page then 0 else 1 := by
  unfold Mode.resolve EffectiveAddress.offset EffectiveAddress.crossing
  by_cases hPage : (branchTarget read r).page = (r.pc + 2).page
  · rw [if_pos hPage, ← hPage]
    simp [branchTarget]
  · rw [if_neg hPage]
    simpa [branchTarget] using Ne.symm hPage

/-- Where no index is added none carries. -/
theorem indexCarries_of_unindexed {mode : Mode}
    (h : mode ∉ [.absoluteX, .absoluteY, .indirectIndexed]) : indexCarries mode read r = false := by
  cases mode <;> simp_all [indexCarries]

/-- What an instruction takes beyond the fixed part of its opcode, it takes for one of the two
reasons. -/
theorem penalty_effect (byte : UInt8) :
    ((ofByte byte).effect read r).penalty = (ofByte byte).surcharge read r := by
  have hRelative := relative_iff_branch byte
  have hUnindexed := unindexed_of_read byte
  rw [penalty_effect_eq, surcharge]
  generalize ofByte byte = opcode at hRelative hUnindexed ⊢
  cases hMnemonic : opcode.mnemonic with
  | bcc | bcs | beq | bne | bmi | bpl | bvc | bvs =>
      have hMode : opcode.mode = .relative := hRelative.mpr (by rw [hMnemonic]; decide)
      simp only [Mnemonic.action, Mnemonic.taken?, hMode, crossing_resolve_relative]
      by_cases hPage : (branchTarget read r).page = (r.pc + 2).page <;> split <;> simp [*]
  | lda | ldx | ldy | adc | sbc | and | ora | eor | cmp | nop | lax | las =>
      have hMode : opcode.mode ≠ .relative := by rw [ne_eq, hRelative, hMnemonic]; decide
      simp [Mnemonic.action, Mnemonic.taken?, Mnemonic.awaitsCarry, crossing_resolve read r hMode]
  | bit | cpx | cpy | anc | alr | arr | sbx | xaa | lxa =>
      have hMode : opcode.mode ≠ .relative := by rw [ne_eq, hRelative, hMnemonic]; decide
      have hNone := indexCarries_of_unindexed read r (hUnindexed (by simp [hMnemonic]))
      simp [Mnemonic.action, Mnemonic.taken?, Mnemonic.awaitsCarry, crossing_resolve read r hMode,
        hNone]
  | _ => rfl

/-- What an instruction takes beyond the fixed part of its opcode is bounded by opcode alone. -/
theorem surcharge_le (byte : UInt8) :
    (ofByte byte).surcharge read r ≤ (ofByte byte).maxSurcharge := by
  have hRelative := relative_iff_branch byte
  generalize ofByte byte = opcode at hRelative ⊢
  unfold surcharge maxSurcharge
  cases hTaken : opcode.mnemonic.taken? r.flags with
  | some taken =>
      have hMode : opcode.mode = .relative := hRelative.mpr (Mnemonic.branches_of_taken? hTaken)
      rw [if_pos hMode]
      cases taken with
      | false => exact Nat.zero_le 2
      | true => dsimp only; split <;> decide
  | none =>
      cases opcode.mnemonic.awaitsCarry with
      | false => simp
      | true =>
          cases opcode.mode <;> simp [indexCarries]
          all_goals split <;> decide

end

/-- A branch goes to its target if it is taken and on to the next instruction if not. -/
theorem pc_effect_of_taken? {opcode : Opcode} {read : Address → UInt8} {r : Registers} {taken : Bool}
    (hMode : opcode.mode = .relative) (h : opcode.mnemonic.taken? r.flags = some taken) :
    (opcode.effect read r).registers.pc = (if taken then branchTarget read r else r.pc + 2) ∧
      (opcode.effect read r).vector = none := by
  obtain ⟨condition, hAction, rfl⟩ := Mnemonic.action_of_taken? h
  unfold effect
  simp only [hAction, hMode]
  split
  · exact ⟨rfl, rfl⟩
  · simp [size, hMode, Mode.operandBytes]

end Opcode

namespace Processor

variable {β : Type} [Bus β] {processor : Processor β}

/-- An instruction costs the fixed part of its opcode and the surcharge. -/
theorem cost_eq (processor : Processor β) :
    processor.cost = processor.opcode.cycles +
      processor.opcode.surcharge processor.read processor.registers := by
  rw [cost, effect, opcode, Opcode.penalty_effect]

/-- No instruction takes less than two cycles or more than eight. -/
theorem cost_bounds (processor : Processor β) : 2 ≤ processor.cost ∧ processor.cost ≤ 8 := by
  have hFixed := Opcode.cycles_bounds processor.opcodeByte
  have hRest := Opcode.surcharge_le processor.read processor.registers processor.opcodeByte
  rw [cost_eq]
  unfold opcode
  omega

theorem pc_execute_of_taken? {taken : Bool}
    (h : processor.opcode.mnemonic.taken? processor.registers.flags = some taken) :
    processor.execute.registers.pc =
      if taken then Opcode.branchTarget processor.read processor.registers
      else processor.registers.pc + 2 := by
  have hMode : processor.opcode.mode = .relative :=
    (Opcode.relative_iff_branch processor.opcodeByte).mpr (Mnemonic.branches_of_taken? h)
  obtain ⟨hPc, hVector⟩ := Opcode.pc_effect_of_taken? hMode h
  rw [registers_execute_of_vector_none hVector]
  exact hPc

end Processor

/-- A step that calls no handler does not depend on what is noted down before it. -/
theorem Noting.step_of_untrapped {β ν : Type} [Bus β] {machine : Machine β ν}
    (hUntrapped : machine.Untrapped) (scratch : Scratch) (run : Noting.Runner β ν) :
    ∃ noted, Noting.step run ⟨machine, scratch⟩ =
      some (machine.processor.stepCost, ⟨machine.advance, noted⟩) := by
  cases hPending : machine.processor.pendingInterrupt with
  | some kind =>
      simp only [Noting.step, Scratch.poll_eq, Processor.stepCost, Machine.advance, hPending]
      exact ⟨_, rfl⟩
  | none =>
      have hEnter := Machine.enterTrap?_eq_none_iff.mpr (hUntrapped hPending)
      simp only [Noting.step, Scratch.poll_eq, Processor.stepCost, Machine.advance, hPending, hEnter,
        Noting.execute_eq]
      exact ⟨_, rfl⟩

namespace Machine

variable {β ν : Type} [Bus β] {machine : Machine β ν}

/-- A step that calls no handler costs seven cycles if it services an interrupt. Else it costs the
fixed part of its opcode, and beyond it nothing but one or two cycles for a branch that goes to its
target, and one for an index that carries where the operation waits for it. Whatever steps before it
have noted down for themselves makes no difference. -/
theorem step_costs_exactly (hUntrapped : machine.Untrapped) (run : Runner β ν) :
    ∃ cost after, machine.step run = some (cost, after) ∧
      (∀ scratch run, ∃ noted, Noting.step run ⟨machine, scratch⟩ = some (cost, ⟨after, noted⟩)) ∧
      2 ≤ cost ∧ cost ≤ 8 ∧
      match machine.processor.pendingInterrupt with
      | some _ => cost = 7
      | none =>
        cost = machine.processor.opcode.cycles +
          machine.processor.opcode.surcharge machine.processor.read machine.processor.registers ∧
        ∀ taken,
          machine.processor.opcode.mnemonic.taken? machine.processor.registers.flags = some taken →
          after.processor.registers.pc =
            if taken then Opcode.branchTarget machine.processor.read machine.processor.registers
            else machine.processor.registers.pc + 2 := by
  cases hPending : machine.processor.pendingInterrupt with
  | some kind =>
      have hCost : machine.processor.stepCost = 7 := by
        simp only [Processor.stepCost, hPending, Interrupt.cycles]
      exact ⟨_, _, step_of_untrapped hUntrapped run, Noting.step_of_untrapped hUntrapped, by omega,
        by omega, hCost⟩
  | none =>
      have hCost : machine.processor.stepCost = machine.processor.cost := by
        simp only [Processor.stepCost, hPending]
      obtain ⟨hLeast, hMost⟩ := machine.processor.cost_bounds
      refine ⟨_, _, step_of_untrapped hUntrapped run, Noting.step_of_untrapped hUntrapped, by omega,
        by omega, ?_, ?_⟩
      · rw [hCost, Processor.cost_eq]
      · rw [advance_of_not_pending hPending]
        exact fun _ => Processor.pc_execute_of_taken?

/-- A load of the accumulator whose index leads past the last address. -/
def wrappingLoad : Ram :=
  (((Ram.zero.setVector resetVector 0x8000).write 0x8000 0xBD).write 0x8001 0xF0).write 0x8002 0xFF

/-- The machine that is about to carry out the load. -/
def beforeWrappingLoad : Machine Ram Empty :=
  (powerOn {} wrappingLoad).change (.registers fun registers => { registers with x := 0x20 })

/-- The index carries, although the sum is a smaller address, and the load takes one cycle more. -/
theorem step_costs_exactly_of_wrapping :
    ∃ cost after, beforeWrappingLoad.step (run? 0) = some (cost, after) ∧ cost = 5 ∧
      beforeWrappingLoad.processor.opcode.cycles = 4 := by
  have hUntrapped : beforeWrappingLoad.Untrapped := fun _ => rfl
  obtain ⟨cost, after, hStep, _, _, _, hCost, _⟩ := step_costs_exactly hUntrapped (run? 0)
  exact ⟨cost, after, hStep, hCost, rfl⟩

end Machine

end Mos6510
