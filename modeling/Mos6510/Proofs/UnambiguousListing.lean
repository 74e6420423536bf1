import Mathlib.Data.List.Nodup
import Mos6510.Proofs.LosslessListing

/-!
Listings of documented code say which code it is. The first three characters of a line tell data from
instructions and one operation from another; the operand with a zero for every digit tells the mode,
as far as the operation leaves a choice; then the digits tell the operand bytes. Main statement: from
one start, different bytes have different listings.
-/

namespace Mos6510

namespace Hexadecimal

/-- Text of digits tells which bytes it was written for, and how many. -/
theorem bytes_inj {first second : List UInt8} : bytes first = bytes second ↔ first = second := by
  refine ⟨fun h => ?_, congrArg bytes⟩
  have hRead := read?_bytes first
  rw [h, read?_bytes] at hRead
  exact (Option.some.inj hRead).symm

@[simp] theorem byte_inj {first second : UInt8} : byte first = byte second ↔ first = second := by
  simpa [bytes] using @bytes_inj [first] [second]

@[simp] theorem address_inj {first second : Address} :
    address first = address second ↔ first = second := by
  refine ⟨fun h => ?_, congrArg address⟩
  have hBytes : bytes [first.page, first.low] = bytes [second.page, second.low] := by
    simpa [bytes, address] using h
  obtain ⟨hPage, hLow⟩ := List.cons_eq_cons.mp (bytes_inj.mp hBytes)
  rw [← Address.ofBytes_low_page first, ← Address.ofBytes_low_page second, hPage,
    List.singleton_inj.mp hLow]

/-- A text with every digit replaced by a zero. -/
def shape (text : List Char) : List Char :=
  text.map fun c => if (value? c).isSome then '0' else c

@[simp] theorem shape_cons (c : Char) (text : List Char) :
    shape (c :: text) = (if (value? c).isSome then '0' else c) :: shape text :=
  rfl

@[simp] theorem shape_append (first second : List Char) :
    shape (first ++ second) = shape first ++ shape second :=
  List.map_append

@[simp] theorem shape_byte (value : UInt8) : shape (byte value) = ['0', '0'] := by
  have hBound := value.toNat_lt
  simp [byte, value?_digit (show value.toNat / 16 < 16 by omega),
    value?_digit (show value.toNat % 16 < 16 by omega), shape]

@[simp] theorem shape_address (value : Address) : shape (address value) = ['0', '0', '0', '0'] := by
  simp [address]

end Hexadecimal

namespace Address

@[simp] theorem low_displacement (operand : UInt8) : (displacement operand).low = operand := by
  have hBound := operand.toNat_lt
  apply byte_ext
  rw [toNat_low, displacement]
  split
  · rw [UInt8.toNat_toUInt16]
    omega
  · rw [UInt16.toNat_add, UInt8.toNat_toUInt16, show (0xFF00 : UInt16).toNat = 0xFF00 from rfl]
    omega

/-- Distances are read from one byte, and different bytes are different distances. -/
theorem displacement_inj {first second : UInt8} (h : displacement first = displacement second) :
    first = second := by
  rw [← low_displacement first, h, low_displacement]

theorem ofBytes_inj {low high low' high' : UInt8} (h : ofBytes low high = ofBytes low' high') :
    low = low' ∧ high = high' := by
  have hLow := congrArg Address.low h
  have hHigh := congrArg Address.page h
  simp only [low_ofBytes, page_ofBytes] at hLow hHigh
  exact ⟨hLow, hHigh⟩

end Address

/-- What the operands of a mode look like. A branch looks like an absolute address. -/
def Mode.shape (mode : Mode) : List Char :=
  Hexadecimal.shape (Assembly.operand mode (List.replicate mode.operandBytes 0) 0)

namespace Assembly

/-- What an operand looks like depends on its mode alone, as long as no digit is read. -/
theorem shape_operand {mode : Mode} {bytes : List UInt8} (h : bytes.length = mode.operandBytes)
    (address : Address) : Hexadecimal.shape (operand mode bytes address) = mode.shape := by
  cases mode with
  | implied | accumulator => rfl
  | absolute | absoluteX | absoluteY | indirect =>
      obtain ⟨low, high, rfl⟩ := List.length_eq_two.mp h
      simp [operand, operandWord, Mode.shape, Mode.operandBytes, List.replicate]
  | _ =>
      obtain ⟨value, rfl⟩ := List.length_eq_one_iff.mp h
      simp [operand, operandByte, branchTarget, Mode.shape, Mode.operandBytes]

/-- In a given mode and at a given address the operand shows its bytes. -/
theorem operand_inj {mode : Mode} {first second : List UInt8} {address : Address}
    (hFirst : first.length = mode.operandBytes) (hSecond : second.length = mode.operandBytes)
    (h : operand mode first address = operand mode second address) : first = second := by
  cases mode with
  | implied | accumulator =>
      rw [List.eq_nil_of_length_eq_zero hFirst, List.eq_nil_of_length_eq_zero hSecond]
  | absolute | absoluteX | absoluteY | indirect =>
      obtain ⟨low, high, rfl⟩ := List.length_eq_two.mp hFirst
      obtain ⟨low', high', rfl⟩ := List.length_eq_two.mp hSecond
      have hWord : Address.ofBytes low high = Address.ofBytes low' high' := by
        simpa [operand, operandWord] using h
      obtain ⟨rfl, rfl⟩ := Address.ofBytes_inj hWord
      rfl
  | relative =>
      obtain ⟨value, rfl⟩ := List.length_eq_one_iff.mp hFirst
      obtain ⟨value', rfl⟩ := List.length_eq_one_iff.mp hSecond
      have hTarget : Address.displacement value = Address.displacement value' := by
        simpa [operand, branchTarget] using h
      rw [Address.displacement_inj hTarget]
  | _ =>
      obtain ⟨value, rfl⟩ := List.length_eq_one_iff.mp hFirst
      obtain ⟨value', rfl⟩ := List.length_eq_one_iff.mp hSecond
      simpa [operand, operandByte] using h

variable {operation operand : List Char}

theorem take_join (h : operation.length = 3) : (join operation operand).take 3 = operation := by
  unfold join
  split
  · rw [← h, List.take_length]
  · rw [← h, List.take_left]

theorem drop_join (h : operation.length = 3) : (join operation operand).drop 4 = operand := by
  unfold join
  split
  · rw [List.drop_eq_nil_of_le (by omega)]
  · rw [List.drop_append, h]
    simp [h]

end Assembly

namespace Opcode

/-- The rows of documented opcodes whose operands look as given, with their opcode bytes. -/
def rowsLike (shape : List Char) : List (Opcode × Nat) :=
  table.toList.zipIdx.filter fun row => row.1.documented && row.1.mode.shape == shape

/-- A documented opcode is among the rows that look like it. -/
theorem mem_rowsLike {byte : UInt8} {shape : List Char}
    (hDocumented : (ofByte byte).documented = true) (hShape : (ofByte byte).mode.shape = shape) :
    (ofByte byte, byte.toNat) ∈ rowsLike shape := by
  refine List.mem_filter.mpr ⟨List.mk_mem_zipIdx_iff_getElem?.mpr ?_, ?_⟩
  · rw [Array.getElem?_toList, Array.getElem?_eq_getElem (table_size ▸ byte.toNat_lt)]
    rfl
  · simp [hDocumented, hShape]

/-- No two documented opcodes with operands that look alike have the same operation. The modes of
one operation can therefore be told apart. -/
theorem nodup_mnemonics (mode : Mode) :
    ((rowsLike mode.shape).map fun row => row.1.mnemonic).Nodup := by
  cases mode <;> decide +kernel

/-- A documented opcode is determined by its operation and the look of its operand. -/
theorem ofByte_inj {first second : UInt8} (hFirst : (ofByte first).documented = true)
    (hSecond : (ofByte second).documented = true)
    (hMnemonic : (ofByte first).mnemonic = (ofByte second).mnemonic)
    (hShape : (ofByte first).mode.shape = (ofByte second).mode.shape) : first = second := by
  have hRow := List.inj_on_of_nodup_map (nodup_mnemonics (ofByte second).mode)
    (mem_rowsLike hFirst hShape) (mem_rowsLike hSecond rfl) hMnemonic
  exact Address.byte_ext (congrArg Prod.snd hRow)

end Opcode

namespace Record

/-- A record is data, or a documented instruction. -/
def Plain (record : Record) : Prop :=
  record = data record.address record.opcode ∨ record.Tabled ∧ record.documented = true

/-- Without undocumented opcodes every record is data or a documented instruction. -/
theorem plain_head (byte : UInt8) (rest : List UInt8) (address : Address) :
    (head false byte rest address).Plain := by
  rcases head_cases false byte rest address with ⟨_, hData⟩ | ⟨hShown, tabled, _, hOpcode, _⟩
  · exact .inl (by rw [hData]; rfl)
  · refine .inr ⟨tabled, ?_⟩
    rw [tabled.documented, hOpcode]
    by_contra hUndocumented
    exact hShown (.inl ⟨eq_false_of_ne_true hUndocumented, rfl⟩)

section

variable {record first second : Record}

/-- The spelling of data is that of no operation. -/
theorem ofLetters?_text_data (address : Address) (byte : UInt8) :
    Mnemonic.ofLetters? ((data address byte).text.take 3) = none := by
  show Mnemonic.ofLetters? ['.', 'b', 'y'] = none
  decide

namespace Tabled

theorem text_eq (tabled : record.Tabled) (hDocumented : record.documented = true) :
    record.text = Assembly.join (Opcode.ofByte record.opcode).mnemonic.letters
      (Assembly.operand (Opcode.ofByte record.opcode).mode record.operand record.address) := by
  simp [text, tabled.isData_eq_false, hDocumented, tabled.operation, tabled.mode]

/-- The first letters of an instruction tell its operation. -/
theorem ofLetters?_text (tabled : record.Tabled) (hDocumented : record.documented = true) :
    Mnemonic.ofLetters? (record.text.take 3) = some (Opcode.ofByte record.opcode).mnemonic := by
  rw [tabled.text_eq hDocumented, Assembly.take_join (Mnemonic.letters_length _),
    Mnemonic.ofLetters?_letters]

theorem drop_text (tabled : record.Tabled) (hDocumented : record.documented = true) :
    record.text.drop 4 =
      Assembly.operand (Opcode.ofByte record.opcode).mode record.operand record.address := by
  rw [tabled.text_eq hDocumented, Assembly.drop_join (Mnemonic.letters_length _)]

/-- Documented instructions at one address that are written alike are the same. -/
theorem bytes_eq_of_text_eq (tabled : first.Tabled) (hDocumented : first.documented = true)
    (tabled' : second.Tabled) (hDocumented' : second.documented = true)
    (hAddress : first.address = second.address) (h : first.text = second.text) :
    first.bytes = second.bytes := by
  have hMnemonic := tabled.ofLetters?_text hDocumented
  have hOperand := tabled.drop_text hDocumented
  rw [h, tabled'.ofLetters?_text hDocumented'] at hMnemonic
  rw [h, tabled'.drop_text hDocumented'] at hOperand
  have hShape := congrArg Hexadecimal.shape hOperand
  rw [Assembly.shape_operand tabled.operand, Assembly.shape_operand tabled'.operand] at hShape
  have hOpcode : second.opcode = first.opcode :=
    Opcode.ofByte_inj (tabled'.documented ▸ hDocumented') (tabled.documented ▸ hDocumented)
      (Option.some.inj hMnemonic) hShape
  have hLength := tabled'.operand
  rw [hOpcode] at hOperand hLength
  rw [hAddress] at hOperand
  rw [tabled.bytes_eq, tabled'.bytes_eq, hOpcode,
    Assembly.operand_inj hLength tabled.operand hOperand]

end Tabled

/-- Of records at one address the text determines the bytes. -/
theorem Plain.bytes_eq_of_text_eq (plain : first.Plain) (plain' : second.Plain)
    (hAddress : first.address = second.address) (h : first.text = second.text) :
    first.bytes = second.bytes := by
  rcases plain with hData | ⟨tabled, hDocumented⟩ <;>
    rcases plain' with hData' | ⟨tabled', hDocumented'⟩
  · rw [hData, hData'] at h ⊢
    have hByte : first.opcode = second.opcode := by
      simpa [text, isData, data, Assembly.join] using h
    rw [hAddress, hByte]
  · have hNone := ofLetters?_text_data first.address first.opcode
    rw [← hData, h, tabled'.ofLetters?_text hDocumented'] at hNone
    cases hNone
  · have hNone := ofLetters?_text_data second.address second.opcode
    rw [← hData', ← h, tabled.ofLetters?_text hDocumented] at hNone
    cases hNone
  · exact tabled.bytes_eq_of_text_eq hDocumented tabled' hDocumented' hAddress h

end

end Record

/-- A listing in which undocumented opcodes are data determines the bytes: from one start, two runs of
bytes are listed alike, line by line, only if they are the same. -/
theorem map_text_listing_inj (start : Address) (first second : List UInt8) :
    (listing false first start).map Record.text = (listing false second start).map Record.text ↔
      first = second := by
  refine ⟨fun h => ?_, fun h => by rw [h]⟩
  generalize hRecords : listing false first start = records at h
  induction records generalizing first second start with
  | nil =>
      rw [eq_nil_of_listing_eq_nil hRecords,
        eq_nil_of_listing_eq_nil (List.map_eq_nil_iff.mp h.symm)]
  | cons record records ih =>
      cases first with
      | nil => cases hRecords
      | cons byte rest =>
          cases second with
          | nil => cases h
          | cons byte' rest' =>
              rw [listing_cons] at hRecords
              obtain ⟨hHead, hLater⟩ := List.cons_eq_cons.mp hRecords
              rw [listing_cons, List.map_cons, List.map_cons, ← hHead] at h
              obtain ⟨hText, hTexts⟩ := List.cons_eq_cons.mp h
              have hBytes := (Record.plain_head byte rest start).bytes_eq_of_text_eq
                (Record.plain_head byte' rest' start)
                (by rw [Record.address_head, Record.address_head]) hText
              -- records of as many bytes leave the next lines at one address
              have hSize := congrArg List.length hBytes
              rw [Record.length_bytes_head, Record.length_bytes_head] at hSize
              rw [← hSize] at hTexts
              rw [← Record.bytes_head_append false byte rest start,
                ← Record.bytes_head_append false byte' rest' start, hBytes, ← hSize,
                ih _ _ _ hLater hTexts]

/-- Undocumented opcodes that are wanted spoil this: many of them repeat one operation. -/
example : (listing true [0x1A] 0).map Record.text = (listing true [0x3A] 0).map Record.text := by
  decide

end Mos6510
