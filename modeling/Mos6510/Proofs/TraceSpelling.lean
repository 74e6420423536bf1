import Mos6510.Proofs.MemoryRuns
import Mos6510.Proofs.TraceColumns

/-!
Trace lines and listings spell alike. A listing decodes bytes that it was given, a trace line those that
it finds behind the program counter, round the end of the space if need be; what they print for an
instruction is the same up to the notes that a trace appends. Main statement: the marked instruction of a
trace line begins with the text of the record decoded from the bytes there, but for the one operation
that goes by another name, and is followed by notes or nothing.
-/

namespace Mos6510

namespace Assembly

/-- What stands behind an operation does not depend on it. -/
theorem join_eq_append (operation operand : List Char) :
    join operation operand = operation ++ join [] operand := by
  cases operand <;> simp [join]

/-- Notes behind an operand do not change how it is joined to the operation. -/
theorem join_append_notes {operand notes : List Char} (operation : List Char)
    (h : operand = [] → notes = []) :
    join operation (operand ++ notes) = join operation operand ++ notes := by
  cases operand with
  | nil => simp [h rfl]
  | cons c rest => simp [join]

end Assembly

namespace TraceLine

/-- The text of an instruction with the spelling `ISC` replaced by `ISB`. Only undocumented instructions
are spelled so, and their text begins with a star. -/
def respelled (text : List Char) : List Char :=
  match text with
  | '*' :: 'I' :: 'S' :: 'C' :: rest => '*' :: 'I' :: 'S' :: 'B' :: rest
  | text => text

/-- Both spellings of an undocumented operation have the same star before them. -/
theorem respelled_of_undocumented (mnemonic : Mnemonic) (rest : List Char) :
    respelled ('*' :: (mnemonic.letters ++ rest)) = '*' :: (letters mnemonic ++ rest) := by
  cases mnemonic <;> rfl

/-- The trace spells all operations but one as the listing does. -/
theorem respelled_of_ne (mnemonic : Mnemonic) (h : mnemonic ≠ .isc) (rest : List Char) :
    respelled (mnemonic.letters ++ rest) = letters mnemonic ++ rest := by
  cases mnemonic with
  | isc => exact absurd rfl h
  | _ => rfl

/-- What is noted behind an operand begins with a space and a sign. -/
def IsNote (text : List Char) : Prop :=
  ∃ sign ∈ ['@', '='], ∃ content, text = ' ' :: sign :: ' ' :: content

theorem isNote_reaching (text : List Char) : IsNote (reaching text) := ⟨'@', by simp, text, rfl⟩

theorem isNote_holding (text : List Char) : IsNote (holding text) := ⟨'=', by simp, text, rfl⟩

theorem IsNote.append {text : List Char} (isNote : IsNote text) (rest : List Char) :
    IsNote (text ++ rest) := by
  obtain ⟨sign, hSign, content, rfl⟩ := isNote
  exact ⟨sign, hSign, content ++ rest, rfl⟩

section

variable (mnemonic : Mnemonic) (mode : Mode) (target : EffectiveAddress) (value : UInt8)

/-- There is nothing behind an operand, or there are notes. -/
theorem annotation_eq_nil_or_isNote :
    let notes := annotation mnemonic mode target value
    notes = [] ∨ IsNote notes := by
  cases mode with
  | implied | accumulator | immediate | relative => exact .inl rfl
  | zeroPage | indirect => exact .inr (isNote_holding _)
  | absolute =>
      by_cases hDestination : isDestination mnemonic = true
      · exact .inl (by simp [hDestination, annotation])
      · exact .inr (by simp [hDestination, annotation, isNote_holding])
  | zeroPageX | zeroPageY | absoluteX | absoluteY => exact .inr ((isNote_reaching _).append _)
  | indexedIndirect => exact .inr (((isNote_reaching _).append _).append _)
  | indirectIndexed => exact .inr (((isNote_holding _).append _).append _)

/-- Without an operand there is nothing to note. -/
theorem annotation_eq_nil_of_operand {bytes : List UInt8} {address : Address}
    (h : Assembly.operand mode bytes address = []) : annotation mnemonic mode target value = [] := by
  cases mode <;> simp_all [Assembly.operand, annotation]

end

theorem columns_add (first width more : Nat) (line : List Char) :
    columns first (width + more) line =
      columns first width line ++ columns (first + width) more line := by
  simp [columns, List.take_add]

end TraceLine

/-- The operation that is spelled in two ways is undocumented. -/
theorem Opcode.mnemonic_ne_isc_of_documented :
    ∀ byte, (ofByte byte).documented = true → (ofByte byte).mnemonic ≠ .isc :=
  @forall_ofByte (fun opcode => opcode.documented = true → opcode.mnemonic ≠ .isc) (by decide +kernel)

/-- Enough bytes from an address on decode to the instruction there. -/
theorem Record.exists_decode?_readRun (read : Address → UInt8) (address : Address) (more : Nat) :
    ∃ record, decode? (readRun read address ((Opcode.ofByte (read address)).size + more)) address =
        some record ∧ record.Tabled ∧ record.address = address ∧ record.opcode = read address ∧
      record.operand =
        readRun read (address + 1) (Opcode.ofByte (read address)).mode.operandBytes := by
  rw [Opcode.size, Nat.add_comm 1, Nat.add_right_comm, readRun]
  have hLength := length_readRun read (address + 1) (Opcode.ofByte (read address)).mode.operandBytes
  rcases decode?_cons (read address) (readRun read (address + 1)
    ((Opcode.ofByte (read address)).mode.operandBytes + more)) address with
    ⟨hShort, _⟩ | ⟨record, hRecord, tabled, hAddress, hOpcode, _, hOperand⟩
  · rw [length_readRun] at hShort
    omega
  · refine ⟨record, hRecord, tabled, hAddress, hOpcode, ?_⟩
    rw [hOperand, readRun_add, List.take_left' hLength]

open TraceLine

namespace Processor

variable {β : Type} [Bus β]

/-- The star before an undocumented operation has a column of its own, so that documented ones begin
in the next. -/
theorem columns_marked (processor : Processor β) :
    let first := if processor.opcode.documented then 16 else 15
    columns first (47 - first) processor.traceLine =
      (if processor.opcode.documented then [] else ['*']) ++ pad 31 (instruction processor) := by
  have hLayout := layout processor
  cases hDocumented : processor.opcode.documented with
  | true => simpa using hLayout.text
  | false =>
      have hMark := hLayout.mark
      rw [hDocumented] at hMark
      have hColumns := columns_add 15 1 31 processor.traceLine
      rw [hMark, hLayout.text] at hColumns
      simpa using hColumns

/-- The marked instruction of a trace line is the respelled text of its record, with notes. -/
theorem exists_notes_of_tabled {processor : Processor β} {record : Record} (tabled : record.Tabled)
    (hAddress : record.address = processor.registers.pc) (hOpcode : record.opcode = processor.opcodeByte)
    (hOperand : record.operand =
      readRun processor.read (processor.registers.pc + 1) processor.opcode.mode.operandBytes) :
    ∃ notes, (notes = [] ∨ IsNote notes) ∧
      (if processor.opcode.documented then [] else ['*']) ++ instruction processor =
        respelled record.text ++ notes := by
  have hRow : Opcode.ofByte record.opcode = processor.opcode := congrArg Opcode.ofByte hOpcode
  let operand := Assembly.operand processor.opcode.mode record.operand record.address
  have hText : record.text = (if processor.opcode.documented then [] else ['*']) ++
      (processor.opcode.mnemonic.letters ++ Assembly.join [] operand) := by
    rw [← Assembly.join_eq_append, Record.text, tabled.isData_eq_false, tabled.documented,
      tabled.operation, tabled.mode, hRow]
    rfl
  let target := processor.opcode.mode.resolve processor.read processor.registers.pc
    processor.registers.x processor.registers.y
  let notes := annotation processor.opcode.mnemonic processor.opcode.mode target
    (processor.read target.address)
  have hInstruction : instruction processor =
      letters processor.opcode.mnemonic ++ (Assembly.join [] operand ++ notes) := by
    have hNotes : operand = [] → notes = [] := annotation_eq_nil_of_operand _ _ _ _
    rw [← Assembly.join_append_notes [] hNotes, ← Assembly.join_eq_append]
    simp only [operand, hOperand, hAddress]
    rfl
  refine ⟨notes, annotation_eq_nil_or_isNote _ _ _ _, ?_⟩
  rw [hText, hInstruction]
  cases hDocumented : processor.opcode.documented with
  | true =>
      have hName : processor.opcode.mnemonic ≠ .isc :=
        Opcode.mnemonic_ne_isc_of_documented processor.opcodeByte hDocumented
      simp [respelled_of_ne _ hName]
  | false => simp [respelled_of_undocumented]

/-- Decode the bytes from the program counter on, as many as the instruction has or more, and print the
record. The trace line shows that text, with `ISB` for `ISC`, from the column of the mark on if the opcode
is undocumented and from the next one on if it is documented; up to the end of the field there follow only
notes, the first of which begins with a space, or spaces. -/
theorem traceLine_spells_text (processor : Processor β) (more : Nat) :
    let first := if processor.opcode.documented then 16 else 15
    ∃ record notes blanks,
      Record.decode? (readRun processor.read processor.registers.pc (processor.opcode.size + more))
        processor.registers.pc = some record ∧
      columns first (47 - first) processor.traceLine =
        respelled record.text ++ (notes ++ List.replicate blanks ' ') ∧
      (notes = [] ∨ ∃ sign ∈ ['@', '='], ∃ content, notes = ' ' :: sign :: ' ' :: content) := by
  obtain ⟨record, hRecord, tabled, hAddress, hOpcode, hOperand⟩ :=
    Record.exists_decode?_readRun processor.read processor.registers.pc more
  obtain ⟨notes, hNotes, hText⟩ := exists_notes_of_tabled tabled hAddress hOpcode hOperand
  refine ⟨record, notes, 31 - (instruction processor).length, hRecord, ?_, hNotes⟩
  have hColumns := processor.columns_marked
  simp only [pad, ← List.append_assoc, hText] at hColumns
  simpa only [List.append_assoc] using hColumns

end Processor

end Mos6510
