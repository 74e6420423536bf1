import Mos6510.Proofs.Locality
import Mos6510.Proofs.StepCost
import Mos6510.Proofs.TraceColumns

/-!
Trace lines predict. A reader who knows no more of an instruction than its text in a trace line can say
where it goes, where it writes and which byte it works on. Main statement: for the step that the line was
made for, what the notes behind the operand say comes true, at the ends of pages and of the space, and
for instructions that overwrite themselves.
-/

namespace Mos6510

/-- What satisfies a test up to the first element that does not, and the rest from there on. -/
theorem takeWhile_dropWhile_cons {p : Char → Bool} {body : List Char} {stop : Char}
    (hBody : ∀ c ∈ body, p c = true) (hStop : p stop = false) (rest : List Char) :
    (body ++ stop :: rest).takeWhile p = body ∧ (body ++ stop :: rest).dropWhile p = stop :: rest := by
  rw [List.takeWhile_append_of_pos hBody, List.dropWhile_append_of_pos hBody]
  simp [hStop]

/-- What stands before and behind the last occurrence of a character. -/
def splitLast (c : Char) (text : List Char) : List Char × List Char :=
  let isOther (other : Char) : Bool := decide (other ≠ c)
  ((text.reverse.dropWhile isOther).tail.reverse, (text.reverse.takeWhile isOther).reverse)

/-- A text is split at a character behind which it does not occur again. -/
theorem splitLast_append {c : Char} (front : List Char) {back : List Char} (h : c ∉ back) :
    splitLast c (front ++ c :: back) = (front, back) := by
  have hStop : decide (c ≠ c) = false := decide_eq_false (not_not.mpr rfl)
  have hBack : ∀ other ∈ back.reverse, decide (other ≠ c) = true := by
    intro other hOther
    refine decide_eq_true ?_
    rintro rfl
    exact h (List.mem_reverse.mp hOther)
  obtain ⟨hTake, hDrop⟩ := takeWhile_dropWhile_cons hBack hStop front.reverse
  have hReverse : (front ++ c :: back).reverse = back.reverse ++ c :: front.reverse := by simp
  simp only [splitLast]
  rw [hReverse, hTake, hDrop, List.tail_cons, List.reverse_reverse, List.reverse_reverse]

namespace Hexadecimal

/-- The number that digits stand for, the most significant digit first. -/
def number (digits : List Char) : Nat := digits.foldl (fun n c => n * 16 + (value? c).getD 0) 0

/-- The number that the last run of digits in a text stands for. -/
def lastNumber? (text : List Char) : Option Nat :=
  match (text.reverse.dropWhile fun c => (value? c).isNone).takeWhile fun c => (value? c).isSome with
  | [] => none
  | digits => some (number digits.reverse)

/-- Digits and nothing else, and what they stand for. -/
structure Spells (digits : List Char) (n : Nat) : Prop where
  nonempty : digits ≠ []
  isDigit : ∀ c ∈ digits, (value? c).isSome = true
  value : number digits = n

/-- Two digits spell the byte that they are written for. -/
theorem spells_byte (value : UInt8) : Spells (byte value) value.toNat := by
  refine ⟨List.cons_ne_nil _ _, fun c => isSome_value?_of_mem_byte, ?_⟩
  have hBound := value.toNat_lt
  simp only [number, byte, List.foldl_cons, List.foldl_nil,
    value?_digit (show value.toNat / 16 < 16 by omega),
    value?_digit (show value.toNat % 16 < 16 by omega), Option.getD_some]
  omega

theorem spells_zeroPage (offset : UInt8) : Spells (byte offset) (Address.zeroPage offset).toNat := by
  have hValue : (Address.zeroPage offset).toNat = offset.toNat := by simp [Address.zeroPage]
  rw [hValue]
  exact spells_byte offset

/-- Four digits spell an address, the page before the low byte. -/
theorem spells_address (value : Address) : Spells (address value) value.toNat := by
  have hPage := spells_byte value.page
  have hLow := spells_byte value.low
  refine ⟨List.cons_ne_nil _ _, fun c h => ?_, ?_⟩
  · rcases List.mem_append.mp h with h | h
    · exact hPage.isDigit c h
    · exact hLow.isDigit c h
  · have hNumber : number (address value) = number (byte value.page) * 256 + number (byte value.low) := by
      simp only [number, address, byte, List.cons_append, List.nil_append, List.foldl_cons,
        List.foldl_nil]
      omega
    rw [hNumber, hPage.value, hLow.value, Address.toNat_page, Address.toNat_low]
    omega

theorem value?_of_mem_spaces {n : Nat} {c : Char} (h : c ∈ List.replicate n ' ') : value? c = none := by
  rw [List.eq_of_mem_replicate h]
  decide

/-- Neither the text before the last number nor that behind it matters. -/
theorem lastNumber?_append (front : List Char) {stop : Char} {digits rest : List Char} {n : Nat}
    (hStop : value? stop = none) (spells : Spells digits n) (hRest : ∀ c ∈ rest, value? c = none) :
    lastNumber? (front ++ stop :: (digits ++ rest)) = some n := by
  have hReverse : (front ++ stop :: (digits ++ rest)).reverse =
      rest.reverse ++ (digits.reverse ++ stop :: front.reverse) := by simp
  have hDigits : ∀ c ∈ digits.reverse, (value? c).isSome = true := fun c h =>
    spells.isDigit c (List.mem_reverse.mp h)
  obtain ⟨hTake, _⟩ := takeWhile_dropWhile_cons hDigits (by rw [hStop]; rfl) front.reverse
  have hValue := spells.value
  rw [← List.reverse_reverse digits] at hValue
  cases hLast : digits.reverse with
  | nil => exact (spells.nonempty (List.reverse_eq_nil_iff.mp hLast)).elim
  | cons last more =>
      have hLastDigit : (value? last).isNone = false := by
        simpa using hDigits last (by simp [hLast])
      have hBehind : ∀ c ∈ rest.reverse, (value? c).isNone = true := fun c h => by
        rw [hRest c (List.mem_reverse.mp h)]
        rfl
      obtain ⟨_, hDrop⟩ := takeWhile_dropWhile_cons hBehind hLastDigit (more ++ stop :: front.reverse)
      rw [hLast] at hReverse hTake hValue
      rw [List.cons_append] at hReverse hTake
      simp only [lastNumber?]
      rw [hReverse, hDrop, hTake]
      exact congrArg some hValue

end Hexadecimal

/-- The modes that name a byte of memory away from the instruction. -/
def Mode.naming : List Mode :=
  [.zeroPage, .zeroPageX, .zeroPageY, .absolute, .absoluteX, .absoluteY, .indexedIndirect,
   .indirectIndexed]

namespace TraceLine

variable {opcode : Opcode} (read : Address → UInt8) (r : Registers)

/-- The notes of a place to go to end with its address. -/
theorem exists_notes_of_destination (h : opcode.mode = .relative ∨ opcode.mode = .indirect ∨
    opcode.mode = .absolute ∧ isDestination opcode.mnemonic = true) :
    ∃ front stop, Hexadecimal.value? stop = none ∧ notes opcode read r =
      front ++ stop :: Hexadecimal.address (opcode.mode.resolve read r.pc r.x r.y).address := by
  rcases h with hMode | hMode | ⟨hMode, hDestination⟩
  · refine ⟨[], '$', by decide, ?_⟩
    simp [notes, hMode, Assembly.operand, annotation, Assembly.branchTarget, Mode.operandBytes, readRun,
      Mode.resolve, EffectiveAddress.offset]
  · refine ⟨Assembly.operand .indirect (readRun read (r.pc + 1) 2) r.pc ++ [' ', '='], ' ', by decide,
      ?_⟩
    simp [notes, hMode, annotation, holding, Mode.operandBytes]
  · refine ⟨[], '$', by decide, ?_⟩
    simp [notes, hMode, hDestination, Assembly.operand, annotation, Assembly.operandWord,
      Mode.operandBytes, readRun, Mode.resolve, EffectiveAddress.direct, readWord]

/-- The notes of a byte of memory end with the byte, and before it with its address. -/
theorem exists_notes_of_naming (h : opcode.mode ∈ Mode.naming)
    (hOperand : isDestination opcode.mnemonic = false) :
    ∃ front stop digits, Hexadecimal.value? stop = none ∧
      Hexadecimal.Spells digits (opcode.mode.resolve read r.pc r.x r.y).address.toNat ∧
      notes opcode read r = front ++ stop :: (digits ++
        holding (Hexadecimal.byte (read (opcode.mode.resolve read r.pc r.x r.y).address))) := by
  obtain ⟨mnemonic, mode, _, _⟩ := opcode
  have hNaming : mode ∈ Mode.naming := h
  let shown := Assembly.operand mode (readRun read (r.pc + 1) mode.operandBytes) r.pc
  let base := (mode.resolve read r.pc r.x r.y).base
  cases mode with
  -- the operand is the address
  | zeroPage =>
      refine ⟨[], '$', _, by decide, Hexadecimal.spells_zeroPage _, ?_⟩
      simp [notes, Assembly.operand, annotation, Assembly.operandByte, Mode.operandBytes, readRun,
        Mode.resolve, EffectiveAddress.direct]
  | absolute =>
      refine ⟨[], '$', _, by decide, Hexadecimal.spells_address _, ?_⟩
      simp [notes, hOperand, Assembly.operand, annotation, Assembly.operandWord, Mode.operandBytes,
        readRun, Mode.resolve, EffectiveAddress.direct, readWord]
  -- the address is noted
  | zeroPageX | zeroPageY =>
      refine ⟨shown ++ [' ', '@'], ' ', _, by decide, Hexadecimal.spells_zeroPage _, ?_⟩
      simp [notes, annotation, reaching, Mode.resolve, shown]
  | absoluteX | absoluteY =>
      refine ⟨shown ++ [' ', '@'], ' ', _, by decide, Hexadecimal.spells_address _, ?_⟩
      simp [notes, annotation, reaching, shown]
  | indexedIndirect =>
      refine ⟨shown ++ reaching (Hexadecimal.short base) ++ [' ', '='], ' ', _, by decide,
        Hexadecimal.spells_address _, ?_⟩
      simp [notes, annotation, holding, shown, base]
  | indirectIndexed =>
      refine ⟨shown ++ holding (Hexadecimal.address base) ++ [' ', '@'], ' ', _, by decide,
        Hexadecimal.spells_address _, ?_⟩
      simp [notes, annotation, reaching, shown, base]
  | implied | accumulator | immediate | indirect | relative => exact absurd hNaming (by decide)

end TraceLine

/-- The operand of an instruction stands behind its operation and a space. -/
theorem Assembly.join_append_cons (operation front rest : List Char) (stop : Char) :
    join operation (front ++ stop :: rest) = operation ++ ' ' :: (front ++ stop :: rest) := by
  cases front <;> rfl

namespace Mnemonic

variable {mnemonic : Mnemonic}

theorem action_of_store (h : mnemonic ∈ stores) :
    ∃ prepare value, mnemonic.action = .store prepare value := by
  cases mnemonic <;> first | exact ⟨_, _, rfl⟩ | exact absurd h (by decide)

theorem isDestination_of_store (h : mnemonic ∈ stores) : TraceLine.isDestination mnemonic = false := by
  cases mnemonic <;> first | rfl | exact absurd h (by decide)

/-- What reads its operand goes nowhere, so the trace line shows the byte that it reads. -/
theorem isDestination_of_readsOperand (h : mnemonic.readsOperand = true) :
    TraceLine.isDestination mnemonic = false := by
  cases mnemonic <;> first | rfl | cases h

end Mnemonic

namespace Opcode

/-- A jump or a call has its destination in the instruction, or a jump has a pointer to it there. -/
theorem mode_of_destination : ∀ byte, (ofByte byte).mnemonic ∈ [Mnemonic.jmp, Mnemonic.jsr] →
    (ofByte byte).mode = .indirect ∨
      (ofByte byte).mode = .absolute ∧ TraceLine.isDestination (ofByte byte).mnemonic = true :=
  @forall_ofByte (fun opcode => opcode.mnemonic ∈ [Mnemonic.jmp, Mnemonic.jsr] →
    opcode.mode = .indirect ∨
      opcode.mode = .absolute ∧ TraceLine.isDestination opcode.mnemonic = true) (by decide +kernel)

theorem mode_of_store : ∀ byte, (ofByte byte).mnemonic ∈ Mnemonic.stores →
    (ofByte byte).mode ∈ Mode.naming :=
  @forall_ofByte (fun opcode => opcode.mnemonic ∈ Mnemonic.stores → opcode.mode ∈ Mode.naming)
    (by decide +kernel)

/-- An operand that is read lies in the instruction, in the accumulator or in a byte of memory that the
mode names. -/
theorem mode_of_readsOperand : ∀ byte, (ofByte byte).mnemonic.readsOperand = true →
    (ofByte byte).mode ∈ [.implied, .accumulator, .immediate] ∨ (ofByte byte).mode ∈ Mode.naming :=
  @forall_ofByte (fun opcode => opcode.mnemonic.readsOperand = true →
    opcode.mode ∈ [.implied, .accumulator, .immediate] ∨ opcode.mode ∈ Mode.naming)
    (by decide +kernel)

end Opcode

namespace Processor

variable {β : Type} [Bus β] {processor : Processor β}

/-- A jump or a call goes on at the address that its mode resolves to. -/
theorem pc_execute_of_destination (h : processor.opcode.mnemonic ∈ [Mnemonic.jmp, Mnemonic.jsr]) :
    processor.execute.registers.pc = processor.target := by
  rcases List.mem_pair.mp h with hJump | hCall
  · simp [execute, apply, effect, Opcode.effect, hJump, Mnemonic.action, target]
  · simp [execute, apply, effect, Opcode.effect, hCall, Mnemonic.action, target]

theorem execute_of_modify {alter : UInt8 → Flags → Outcome} {use : UInt8 → Registers → Registers}
    (h : processor.opcode.mnemonic.action = .modify alter use)
    (hMode : processor.opcode.mode ≠ .accumulator) :
    let outcome := alter processor.operand processor.registers.flags
    processor.effect.writes = [⟨processor.target, outcome.value⟩] ∧
      processor.execute.registers =
        { use outcome.value { processor.registers with flags := outcome.flags } with
          pc := processor.registers.pc + UInt16.ofNat processor.opcode.size } := by
  have hEffect : processor.effect = _ := Opcode.effect_of_modify _ _ _ h hMode
  rw [registers_execute_of_vector_none (by rw [hEffect]), hEffect]
  exact ⟨rfl, rfl⟩

/-- A store writes one byte, to the address that its mode resolves to. -/
theorem writes_of_store {prepare : Registers → Registers} {value : Registers → Address → UInt8}
    (h : processor.opcode.mnemonic.action = .store prepare value) :
    ∃ byte, processor.effect.writes = [⟨processor.target, byte⟩] := by
  simp only [effect, Opcode.writes_effect_eq, h]
  exact ⟨_, rfl⟩

end Processor

namespace TraceLine

open Hexadecimal

variable {β : Type} [Bus β] {processor : Processor β}

/-- The last number of the text is where a jump, a call or a branch leads. -/
theorem lastNumber?_text (h : processor.opcode.mode = .relative ∨ processor.opcode.mode = .indirect ∨
    processor.opcode.mode = .absolute ∧ isDestination processor.opcode.mnemonic = true) :
    lastNumber? (pad 31 (instruction processor)) = some processor.target.toNat := by
  obtain ⟨front, stop, hStop, hNotes⟩ :=
    exists_notes_of_destination processor.read processor.registers h
  have hText : instruction processor = (letters processor.opcode.mnemonic ++ ' ' :: front) ++
      stop :: address processor.target := by
    rw [instruction_eq, hNotes, Assembly.join_append_cons]
    simp [Processor.target]
  rw [pad, hText, List.append_assoc, List.cons_append]
  exact lastNumber?_append _ hStop (spells_address _) fun _ => value?_of_mem_spaces

/-- Around the last sign of the text are the address of a byte of memory and the byte. -/
theorem lastNumber?_splitLast_text (hMode : processor.opcode.mode ∈ Mode.naming)
    (hOperand : isDestination processor.opcode.mnemonic = false) :
    lastNumber? (splitLast '=' (pad 31 (instruction processor))).1 = some processor.target.toNat ∧
      lastNumber? (splitLast '=' (pad 31 (instruction processor))).2 =
        some processor.operand.toNat := by
  obtain ⟨front, stop, digits, hStop, spells, hNotes⟩ :=
    exists_notes_of_naming processor.read processor.registers hMode hOperand
  let spaces := List.replicate (31 - (instruction processor).length) ' '
  have hText : pad 31 (instruction processor) =
      ((letters processor.opcode.mnemonic ++ ' ' :: front) ++ stop :: (digits ++ [' '])) ++
        '=' :: ([] ++ ' ' :: (byte processor.operand ++ spaces)) := by
    rw [show pad 31 (instruction processor) = instruction processor ++ spaces from rfl, instruction_eq,
      hNotes, Assembly.join_append_cons]
    simp [holding, Processor.operand]
  have hBehind : '=' ∉ [] ++ ' ' :: (byte processor.operand ++ spaces) := by
    intro h
    rw [List.nil_append, List.mem_cons, List.mem_append] at h
    rcases h with h | h | h
    · exact absurd h (by decide)
    · exact absurd (isSome_value?_of_mem_byte h) (by decide)
    · exact absurd (List.eq_of_mem_replicate h) (by decide)
  rw [hText, splitLast_append _ hBehind]
  constructor
  · exact lastNumber?_append _ hStop spells fun _ => @value?_of_mem_spaces 1 _
  · exact lastNumber?_append [] (by decide) (spells_byte _) fun _ => value?_of_mem_spaces

/-- What the text of an instruction says about a step that carries it out, which leaves some registers and
sends some bytes to the bus. -/
structure Predicts (text : List Char) (before : Processor β) (after : Registers) (writes : List Write) :
    Prop where
  /-- The last address is where a jump or a call goes. -/
  jump : before.opcode.mnemonic ∈ [Mnemonic.jmp, Mnemonic.jsr] → lastNumber? text = some after.pc.toNat
  /-- The last address is where a branch goes if it is taken. -/
  branch : before.opcode.mnemonic.taken? before.registers.flags = some true →
    lastNumber? text = some after.pc.toNat
  /-- The last address before the final value is where a store writes, once. -/
  store : before.opcode.mnemonic ∈ Mnemonic.stores → ∃ write, writes = [write] ∧
    lastNumber? (splitLast '=' text).1 = some write.address.toNat
  /-- The last address before the final value is where an operation that alters memory writes, once, and
  the final value is what it alters. -/
  modify : ∀ alter use, before.opcode.mnemonic.action = .modify alter use →
    before.opcode.mode ∉ [.implied, .accumulator, .immediate] →
    ∃ (address : Address) (value : UInt8),
      lastNumber? (splitLast '=' text).1 = some address.toNat ∧
      lastNumber? (splitLast '=' text).2 = some value.toNat ∧ value = before.operand ∧
      let outcome := alter value before.registers.flags
      writes = [⟨address, outcome.value⟩] ∧
      after = { use outcome.value { before.registers with flags := outcome.flags } with
        pc := before.registers.pc + UInt16.ofNat before.opcode.size }
  /-- The final value is the operand of an operation that reads memory. -/
  read : ∀ use, before.opcode.mnemonic.action = .read use →
    before.opcode.mode ∉ [.implied, .accumulator, .immediate] →
    ∃ value : UInt8, lastNumber? (splitLast '=' text).2 = some value.toNat ∧ value = before.operand ∧
      after = { use value before.registers with
        pc := before.registers.pc + UInt16.ofNat before.opcode.size }

/-- Whatever the instruction is, its text in the trace line predicts what it does. -/
theorem predicts_execute (processor : Processor β) :
    Predicts (columns 16 31 processor.traceLine) processor processor.execute.registers
      processor.effect.writes := by
  rw [(layout processor).text]
  constructor
  case jump =>
    intro h
    rw [lastNumber?_text (.inr (Opcode.mode_of_destination _ h)), Processor.pc_execute_of_destination h]
  case branch =>
    intro h
    have hMode : processor.opcode.mode = .relative :=
      (Opcode.relative_iff_branch processor.opcodeByte).mpr (Mnemonic.branches_of_taken? h)
    rw [lastNumber?_text (.inl hMode), Processor.pc_execute_of_taken? h]
    simp [Processor.target, hMode, Mode.resolve, EffectiveAddress.offset, Opcode.branchTarget]
  case store =>
    intro h
    obtain ⟨prepare, value, hAction⟩ := Mnemonic.action_of_store h
    obtain ⟨byte, hWrites⟩ := Processor.writes_of_store hAction
    obtain ⟨hAhead, _⟩ := lastNumber?_splitLast_text (Opcode.mode_of_store _ h)
      (Mnemonic.isDestination_of_store h)
    exact ⟨_, hWrites, hAhead⟩
  case modify =>
    intro alter use hAction hMemory
    have hReads := Mnemonic.readsOperand_of_modify hAction
    have hMode := (Opcode.mode_of_readsOperand _ hReads).resolve_left hMemory
    obtain ⟨hAhead, hBehind⟩ := lastNumber?_splitLast_text hMode
      (Mnemonic.isDestination_of_readsOperand hReads)
    have hElsewhere : processor.opcode.mode ≠ .accumulator := fun h => hMemory (by simp [h])
    exact ⟨_, _, hAhead, hBehind, rfl, Processor.execute_of_modify hAction hElsewhere⟩
  case read =>
    intro use hAction hMemory
    have hReads := Mnemonic.readsOperand_of_read hAction
    have hMode := (Opcode.mode_of_readsOperand _ hReads).resolve_left hMemory
    obtain ⟨_, hBehind⟩ := lastNumber?_splitLast_text hMode
      (Mnemonic.isDestination_of_readsOperand hReads)
    exact ⟨_, hBehind, rfl, Processor.registers_execute_of_read use hAction⟩

end TraceLine

namespace Machine

variable {β ν : Type} [Bus β] {machine : Machine β ν}

/-- A trace line predicts the step that it was made for, if that step services no interrupt and calls no
handler. -/
theorem trace_predicts_step (hPending : machine.processor.pendingInterrupt = none)
    (hTrap : machine.traps.handler? machine.processor.registers.pc = none) (run : Runner β ν) :
    ∃ cost after events, machine.step run = some (cost, after) ∧
      after.history = machine.history ++ events ∧
      TraceLine.Predicts (TraceLine.columns 16 31 machine.processor.traceLine) machine.processor
        after.processor.registers (events.filterMap Event.write?) := by
  obtain ⟨events, hHistory, hWrites⟩ := machine.exists_history_advance
  refine ⟨_, _, events, step_of_untrapped (fun _ => hTrap) run, hHistory, ?_⟩
  rw [hWrites, Processor.footprint_of_not_pending hPending, advance_of_not_pending hPending]
  exact TraceLine.predicts_execute machine.processor

/-- An increment at the end of the space, whose operand byte is the first one. -/
def selfIncrement : Ram := (Ram.zero.write 0xFFFF 0xF6).write 0x0000 0xF0

/-- The machine that is about to increment the operand byte itself. -/
def beforeSelfIncrement : Machine Ram Empty :=
  (powerOn {} selfIncrement).change (.registers fun r => { r with x := 0x10, pc := 0xFFFF })

/-- The address and the byte that the line shows tell what is going to be written where. -/
theorem trace_predicts_step_of_self_increment :
    TraceLine.columns 16 31 beforeSelfIncrement.processor.traceLine =
        "INC $F0,X @ 00 = F0            ".toList ∧
      ∃ cost after events, beforeSelfIncrement.step (run? 0) = some (cost, after) ∧
        after.history = beforeSelfIncrement.history ++ events ∧
        events.filterMap Event.write? = [⟨0x0000, 0xF1⟩] ∧
        after.processor.registers.pc = 0x0001 := by
  have hText : TraceLine.columns 16 31 beforeSelfIncrement.processor.traceLine =
      "INC $F0,X @ 00 = F0            ".toList := by decide +kernel
  have hPending : beforeSelfIncrement.processor.pendingInterrupt = none := rfl
  obtain ⟨cost, after, events, hStep, hHistory, predicts⟩ := trace_predicts_step hPending rfl (run? 0)
  rw [hText] at predicts
  obtain ⟨address, value, hAddress, hValue, _, hWrites, hAfter⟩ :=
    predicts.modify Arithmetic.increment (fun _ r => r) rfl (by decide +kernel)
  have hZero : address = 0x0000 := Address.ext (Option.some.inj (hAddress.symm.trans (by decide)))
  have hByte : value = 0xF0 := Address.byte_ext (Option.some.inj (hValue.symm.trans (by decide)))
  rw [hZero, hByte] at hWrites
  rw [hByte] at hAfter
  exact ⟨hText, cost, after, events, hStep, hHistory, hWrites, by rw [hAfter]; rfl⟩

end Machine

end Mos6510
