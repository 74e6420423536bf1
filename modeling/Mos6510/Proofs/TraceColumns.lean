import Mos6510.Proofs.UnambiguousListing
import Mos6510.TraceLine

/-!
Trace lines in columns. Filling a text up with spaces only sets a least width, so a line has its columns
because none of its texts is too long: the notes behind an operand print an address with two digits in
the modes that stay in page zero. Main statement: every trace line has 73 characters in fixed columns,
and two lines are the same exactly if they show the same registers, the same bytes and the same text of
the instruction.
-/

namespace Mos6510

namespace Hexadecimal

@[simp] theorem length_byte (value : UInt8) : (byte value).length = 2 := by simp [byte]

@[simp] theorem length_address (value : Address) : (address value).length = 4 := by
  simp [address]

/-- An address in page zero takes two digits. -/
@[simp] theorem short_zeroPage (offset : UInt8) : short (Address.zeroPage offset) = byte offset := by
  simp [short, Address.zeroPage]

/-- Two digits determine their byte, so that text that begins with them can be read byte by byte. -/
theorem byte_append_inj {first second : UInt8} {rest rest' : List Char} :
    byte first ++ rest = byte second ++ rest' ↔ first = second ∧ rest = rest' := by
  constructor
  · intro h
    obtain ⟨hByte, hRest⟩ := List.append_inj h rfl
    exact ⟨byte_inj.mp hByte, hRest⟩
  · rintro ⟨rfl, rfl⟩
    rfl

theorem isSome_value?_of_mem_byte {value : UInt8} {c : Char} (h : c ∈ byte value) :
    (value? c).isSome = true := by
  have hBound := value.toNat_lt
  rcases List.mem_pair.mp h with rfl | rfl
  · rw [value?_digit (by omega)]
    rfl
  · rw [value?_digit (by omega)]
    rfl

theorem ne_space_of_mem_byte {value : UInt8} {c : Char} (h : c ∈ byte value) : c ≠ ' ' := by
  rintro rfl
  exact absurd (isSome_value?_of_mem_byte h) (by decide)

/-- Bytes with spaces between them take three columns each, but for the last. -/
theorem length_spaced_le (values : List UInt8) : (spaced values).length ≤ 3 * values.length - 1 := by
  induction values with
  | nil => simp [spaced]
  | cons value rest ih =>
      cases rest with
      | nil => simp [spaced]
      | cons next rest =>
          simp only [spaced, List.length_append, List.length_cons, length_byte] at ih ⊢
          omega

/-- Without the spaces, spaced bytes are the bytes. -/
theorem filter_spaced (values : List UInt8) :
    (spaced values).filter (fun c => decide (c ≠ ' ')) = bytes values := by
  have hByte (value : UInt8) : (byte value).filter (fun c => decide (c ≠ ' ')) = byte value :=
    List.filter_eq_self.mpr fun c h => decide_eq_true (ne_space_of_mem_byte h)
  induction values with
  | nil => rfl
  | cons value rest ih =>
      cases rest with
      | nil => simpa [spaced, bytes] using hByte value
      | cons next rest =>
          rw [spaced, List.filter_append, hByte, List.filter_cons_of_neg (by decide), ih]
          · rfl
          · simp

end Hexadecimal

namespace Assembly

@[simp] theorem length_operandByte (bytes : List UInt8) : (operandByte bytes).length = 2 := by
  cases bytes <;> rfl

@[simp] theorem length_operandWord (bytes : List UInt8) : (operandWord bytes).length = 4 := by
  unfold operandWord
  split <;> rfl

@[simp] theorem length_branchTarget (address : Address) (bytes : List UInt8) :
    (branchTarget address bytes).length = 4 := by
  cases bytes <;> rfl

/-- Between an operation and its operand stands at most one space. -/
theorem length_join_le (operation operand : List Char) :
    (join operation operand).length ≤ operation.length + 1 + operand.length := by
  unfold join
  split
  · omega
  · simp only [List.length_append, List.length_cons]
    omega

end Assembly

namespace TraceLine

/-- The text in some columns of a line. -/
def columns (first width : Nat) (line : List Char) : List Char := (line.drop first).take width

theorem columns_succ_cons (first width : Nat) (c : Char) (rest : List Char) :
    columns (first + 1) width (c :: rest) = columns first width rest := by
  simp [columns]

theorem columns_zero_one_cons (c : Char) (rest : List Char) : columns 0 1 (c :: rest) = [c] := by
  simp [columns]

/-- Columns behind a front are columns of the rest. -/
theorem columns_append {front rest : List Char} {first width : Nat} (h : front.length ≤ first) :
    columns first width (front ++ rest) = columns (first - front.length) width rest := by
  rw [columns, List.drop_append, List.drop_eq_nil_of_le h, List.nil_append, columns]

theorem columns_append_left {text rest : List Char} {width : Nat} (h : text.length = width) :
    columns 0 width (text ++ rest) = text := by
  rw [columns, List.drop_zero, ← h, List.take_left]

theorem columns_self {text : List Char} {width : Nat} (h : text.length = width) :
    columns 0 width text = text := by
  rw [columns, List.drop_zero, ← h, List.take_length]

/-- A text that is not too long is padded to its width. -/
theorem length_pad {width : Nat} {text : List Char} (h : text.length ≤ width) :
    (pad width text).length = width := by
  simp [pad, h]

/-- Padding adds nothing but spaces. -/
theorem filter_pad (width : Nat) (text : List Char) :
    (pad width text).filter (fun c => decide (c ≠ ' ')) =
      text.filter (fun c => decide (c ≠ ' ')) := by
  simp [pad]

theorem length_letters (mnemonic : Mnemonic) : (letters mnemonic).length = 3 := by
  cases mnemonic <;> rfl

/-- The notation of an operand and the notes behind it, given the registers and the bytes of memory. -/
def notes (opcode : Opcode) (read : Address → UInt8) (r : Registers) : List Char :=
  let target := opcode.mode.resolve read r.pc r.x r.y
  Assembly.operand opcode.mode (readRun read (r.pc + 1) opcode.mode.operandBytes) r.pc ++
    annotation opcode.mnemonic opcode.mode target (read target.address)

/-- With its notes, an operand takes at most 26 characters. The modes that note an address with two digits
are those that stay in page zero. -/
theorem length_notes_le (opcode : Opcode) (read : Address → UInt8) (r : Registers) :
    (notes opcode read r).length ≤ 26 := by
  obtain ⟨mnemonic, mode, _, _⟩ := opcode
  cases mode with
  | absolute =>
      by_cases hDestination : isDestination mnemonic <;>
        simp [notes, Assembly.operand, annotation, holding, hDestination]
  | _ => simp [notes, Assembly.operand, annotation, holding, reaching, Mode.resolve]

theorem length_registers (r : Registers) : (registers r).length = 25 := by
  simp [registers, register]

/-- The dump shows all registers but the program counter, which has a field of its own. -/
theorem registers_inj {first second : Registers} (h : registers first = registers second)
    (hPc : first.pc = second.pc) : first = second := by
  simp only [registers, register, List.cons_append, List.nil_append, List.append_assoc,
    List.cons.injEq, true_and, Hexadecimal.byte_append_inj, Hexadecimal.byte_inj] at h
  obtain ⟨hA, hX, hY, hStatus, hSp⟩ := h
  have hFlags := congrArg Flags.ofByte hStatus
  rw [Flags.ofByte_status, Flags.ofByte_status] at hFlags
  cases first
  cases second
  simp_all

variable {β : Type} [Bus β]

theorem instruction_eq (processor : Processor β) :
    instruction processor = Assembly.join (letters processor.opcode.mnemonic)
      (notes processor.opcode processor.read processor.registers) :=
  rfl

/-- The text of an instruction with its notes leaves at least one of its columns empty. -/
theorem length_instruction_le (processor : Processor β) : (instruction processor).length ≤ 30 := by
  have hNotes := length_notes_le processor.opcode processor.read processor.registers
  have hJoin := Assembly.length_join_le (letters processor.opcode.mnemonic)
    (notes processor.opcode processor.read processor.registers)
  rw [length_letters, ← instruction_eq] at hJoin
  omega

/-- Three bytes fit into their field, and no instruction has more. -/
theorem length_bytes_le (processor : Processor β) :
    (Hexadecimal.spaced
      (readRun processor.read processor.registers.pc processor.opcode.size)).length ≤ 8 := by
  have hSpaced := Hexadecimal.length_spaced_le
    (readRun processor.read processor.registers.pc processor.opcode.size)
  have hSize := processor.opcode.size_le_three
  rw [length_readRun] at hSpaced
  omega

/-- The bytes of an instruction tell its opcode. -/
theorem opcode_eq_of_readRun_eq {γ : Type} [Bus γ] {first : Processor β} {second : Processor γ}
    (h : readRun first.read first.registers.pc first.opcode.size =
      readRun second.read second.registers.pc second.opcode.size) : first.opcode = second.opcode := by
  simp only [Opcode.size, Nat.add_comm 1, readRun, List.cons.injEq] at h
  exact congrArg Opcode.ofByte h.1

/-- The columns of the trace line of a processor, the blank ones among them. -/
structure Layout (processor : Processor β) (line : List Char) : Prop where
  length : line.length = 73
  address : columns 0 4 line = Hexadecimal.address processor.registers.pc
  bytes : columns 6 8 line = pad 8 (Hexadecimal.spaced
    (readRun processor.read processor.registers.pc processor.opcode.size))
  mark : columns 15 1 line = [if processor.opcode.documented then ' ' else '*']
  text : columns 16 31 line = pad 31 (instruction processor)
  registers : columns 48 25 line = TraceLine.registers processor.registers
  blank : ∀ column ∈ [4, 5, 14, 47], columns column 1 line = [' ']

/-- Every trace line is laid out in its columns, since no field is longer than its place. -/
theorem layout (processor : Processor β) : Layout processor processor.traceLine := by
  have hBytes := length_pad (length_bytes_le processor)
  have hText := length_pad (Nat.le_succ_of_le (length_instruction_le processor))
  constructor
  case length => simp [Processor.traceLine, hBytes, hText, length_registers]
  all_goals
    simp [Processor.traceLine, columns_append, columns_append_left, columns_self, columns_succ_cons,
      columns_zero_one_cons, hBytes, hText, length_registers]

theorem Layout.registers_head {processor : Processor β} {line : List Char} (h : Layout processor line) :
    columns 48 2 line = ['A', ':'] := by
  have hColumns : columns 48 2 line = (columns 48 25 line).take 2 := by simp [columns, List.take_take]
  rw [hColumns, h.registers]
  rfl

end TraceLine

open TraceLine

namespace Processor

variable {β : Type} [Bus β]

/-- A trace line has 73 characters, whatever the registers and the bytes of memory: the address of the
instruction, its bytes, the mark of an undocumented opcode, the instruction with its notes, and the
registers stand in columns of their own. Lines are the same exactly if they are so in the registers, the
bytes of the instruction and its text. -/
theorem traceLine_columns (processor : Processor β) :
    Layout processor processor.traceLine ∧ (instruction processor).length ≤ 31 ∧
    columns 48 2 processor.traceLine = ['A', ':'] ∧
    ∀ (γ : Type) [Bus γ] (other : Processor γ), processor.traceLine = other.traceLine ↔
      processor.registers = other.registers ∧
      readRun processor.read processor.registers.pc processor.opcode.size =
        readRun other.read other.registers.pc other.opcode.size ∧
      columns 16 31 processor.traceLine = columns 16 31 other.traceLine := by
  have hLayout := layout processor
  refine ⟨hLayout, Nat.le_succ_of_le (length_instruction_le processor), hLayout.registers_head,
    fun γ _ other => ⟨fun h => ?_, ?_⟩⟩
  · have hOther := layout other
    rw [← h] at hOther
    have hPc := Hexadecimal.address_inj.mp (hLayout.address.symm.trans hOther.address)
    have hBytes := congrArg (List.filter fun c => decide (c ≠ ' '))
      (hLayout.bytes.symm.trans hOther.bytes)
    rw [filter_pad, filter_pad, Hexadecimal.filter_spaced, Hexadecimal.filter_spaced] at hBytes
    exact ⟨registers_inj (hLayout.registers.symm.trans hOther.registers) hPc,
      Hexadecimal.bytes_inj.mp hBytes, congrArg _ h⟩
  · rintro ⟨hRegisters, hBytes, hText⟩
    have hOpcode := opcode_eq_of_readRun_eq hBytes
    rw [hLayout.text, (layout other).text] at hText
    simp only [traceLine]
    rw [hBytes, hText, hOpcode, hRegisters]

end Processor

end Mos6510
