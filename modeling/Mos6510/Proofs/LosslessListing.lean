import Mos6510.Listing

/-!
Listings lose nothing. A listing is made of the record at the head of the bytes and the listing of
what that record leaves, so everything about listings is proved by one induction over records. Main
statement: the bytes of the records, written one after another, are the bytes that were listed; the
addresses follow one another; and data stands exactly where no wanted instruction fits.
-/

namespace Mos6510

namespace Record

/-- The bytes that a record stands for: a byte of data alone, or an opcode and its operand. -/
def bytes (record : Record) : List UInt8 :=
  if record.isData then [record.opcode] else record.opcode :: record.operand

/-- A record says of its opcode what the opcode table says, and has the operand that belongs to it. -/
structure Tabled (record : Record) : Prop where
  operation : record.operation = (Opcode.ofByte record.opcode).mnemonic.letters
  documented : record.documented = (Opcode.ofByte record.opcode).documented
  mode : record.mode = (Opcode.ofByte record.opcode).mode
  size : record.size = (Opcode.ofByte record.opcode).size
  cycles : record.cycles = (Opcode.ofByte record.opcode).cycles
  operand : record.operand.length = (Opcode.ofByte record.opcode).mode.operandBytes

/-- The spelling of data is longer than that of any operation. -/
theorem Tabled.isData_eq_false {record : Record} (tabled : record.Tabled) :
    record.isData = false := by
  refine beq_eq_false_iff_ne.mpr fun hSpelling => ?_
  have hLength := congrArg List.length hSpelling
  rw [tabled.operation, Mnemonic.letters_length] at hLength
  cases hLength

theorem Tabled.size_eq {record : Record} (tabled : record.Tabled) :
    record.size = 1 + record.operand.length := by
  rw [tabled.size, Opcode.size, tabled.operand]

/-- The bytes of a record from the table are the opcode and its operand, as they stood in memory. -/
theorem Tabled.bytes_eq {record : Record} (tabled : record.Tabled) :
    record.bytes = record.opcode :: record.operand := by
  rw [bytes, tabled.isData_eq_false]
  rfl

theorem isData_data (address : Address) (byte : UInt8) : (data address byte).isData = true := rfl

/-- An instruction is not shown although its opcode stands there: the opcode is undocumented and
such opcodes are not wanted, or the bytes end before its operand does. -/
def Withheld (undocumented : Bool) (byte : UInt8) (rest : List UInt8) : Prop :=
  ((Opcode.ofByte byte).documented = false ∧ undocumented = false) ∨
    rest.length < (Opcode.ofByte byte).mode.operandBytes

section

variable (undocumented : Bool) (byte : UInt8) (rest : List UInt8) (address : Address)

/-- Decoding fails if the operand is cut off. Else it gives the row of the opcode with so many of
the following bytes as operand. -/
theorem decode?_cons :
    (rest.length < (Opcode.ofByte byte).mode.operandBytes ∧
        decode? (byte :: rest) address = none) ∨
      ∃ record : Record, decode? (byte :: rest) address = some record ∧ record.Tabled ∧
        record.address = address ∧ record.opcode = byte ∧
        (Opcode.ofByte byte).mode.operandBytes ≤ rest.length ∧
        record.operand = rest.take (Opcode.ofByte byte).mode.operandBytes := by
  by_cases hFits : (rest.take (Opcode.ofByte byte).mode.operandBytes).length =
      (Opcode.ofByte byte).mode.operandBytes
  · refine .inr ⟨_, by rw [decode?, if_pos hFits], ⟨rfl, rfl, rfl, rfl, rfl, hFits⟩, rfl, rfl, ?_, rfl⟩
    rw [List.length_take] at hFits
    omega
  · refine .inl ⟨?_, by rw [decode?, if_neg hFits]⟩
    rw [List.length_take] at hFits
    omega

/-- The record at the head of some bytes is data if the instruction there is withheld, and else that
instruction. -/
theorem head_cases :
    (Withheld undocumented byte rest ∧ head undocumented byte rest address = data address byte) ∨
      (¬Withheld undocumented byte rest ∧ (head undocumented byte rest address).Tabled ∧
        (head undocumented byte rest address).address = address ∧
        (head undocumented byte rest address).opcode = byte ∧
        (head undocumented byte rest address).operand =
          rest.take (Opcode.ofByte byte).mode.operandBytes) := by
  rcases decode?_cons byte rest address with
    ⟨hShort, hNone⟩ | ⟨record, hSome, tabled, hAddress, hOpcode, hFits, hOperand⟩
  · exact .inl ⟨.inr hShort, by simp only [head, hNone, Option.filter_none]⟩
  · have hDocumented := tabled.documented
    rw [hOpcode] at hDocumented
    by_cases hWanted : (record.documented || undocumented) = true
    · have hHead : head undocumented byte rest address = record := by
        simp only [head, hSome, Option.filter_some, if_pos hWanted]
      rw [hHead]
      refine .inr ⟨?_, tabled, hAddress, hOpcode, hOperand⟩
      rintro (⟨hUndocumented, hUnwanted⟩ | hShort)
      · rw [hDocumented, hUndocumented, hUnwanted] at hWanted
        cases hWanted
      · omega
    · refine .inl ⟨.inl ?_, by simp only [head, hSome, Option.filter_some, if_neg hWanted]⟩
      rwa [Bool.not_eq_true, Bool.or_eq_false_iff, hDocumented] at hWanted

theorem address_head : (head undocumented byte rest address).address = address := by
  rcases head_cases undocumented byte rest address with ⟨_, hData⟩ | ⟨_, _, hAddress, _⟩
  · rw [hData]
    rfl
  · exact hAddress

theorem opcode_head : (head undocumented byte rest address).opcode = byte := by
  rcases head_cases undocumented byte rest address with ⟨_, hData⟩ | ⟨_, _, _, hOpcode, _⟩
  · rw [hData]
    rfl
  · exact hOpcode

/-- A byte is listed as data exactly if its instruction is withheld. -/
theorem isData_head_iff :
    (head undocumented byte rest address).isData = true ↔ Withheld undocumented byte rest := by
  rcases head_cases undocumented byte rest address with ⟨hWithheld, hData⟩ | ⟨hShown, tabled, _⟩
  · rw [hData]
    exact iff_of_true rfl hWithheld
  · exact iff_of_false (by rw [tabled.isData_eq_false]; exact Bool.false_ne_true) hShown

/-- What is not listed as data is listed as the table has it. -/
theorem tabled_head_of_isData_eq_false
    (h : (head undocumented byte rest address).isData = false) :
    (head undocumented byte rest address).Tabled := by
  rcases head_cases undocumented byte rest address with ⟨_, hData⟩ | ⟨_, tabled, _⟩
  · rw [hData, isData_data] at h
    cases h
  · exact tabled

theorem size_pos_head : 0 < (head undocumented byte rest address).size := by
  rcases head_cases undocumented byte rest address with ⟨_, hData⟩ | ⟨_, tabled, _⟩
  · rw [hData]
    exact Nat.one_pos
  · rw [tabled.size]
    exact Opcode.size_pos _

/-- A record stands for as many bytes as its size says, so that the next one begins behind them. -/
theorem length_bytes_head :
    (head undocumented byte rest address).bytes.length =
      (head undocumented byte rest address).size := by
  rcases head_cases undocumented byte rest address with ⟨_, hData⟩ | ⟨_, tabled, _⟩
  · rw [hData]
    rfl
  · rw [tabled.bytes_eq, tabled.size_eq, List.length_cons, Nat.add_comm]

/-- The bytes split into those of the record at their head and those behind it. -/
theorem bytes_head_append :
    (head undocumented byte rest address).bytes ++
      rest.drop ((head undocumented byte rest address).size - 1) = byte :: rest := by
  rcases head_cases undocumented byte rest address with
    ⟨_, hData⟩ | ⟨_, tabled, _, hOpcode, hOperand⟩
  · rw [hData]
    rfl
  · have hSize : (head undocumented byte rest address).size - 1 =
        (Opcode.ofByte byte).mode.operandBytes := by
      rw [tabled.size, hOpcode, Opcode.size, Nat.add_sub_cancel_left]
    rw [hSize, tabled.bytes_eq, hOpcode, hOperand, List.cons_append, List.take_append_drop]

end

end Record

/-- Bytes of a record that is listed already only move the address. -/
theorem Listing.from_eq (undocumented : Bool) (covered : Nat) (bytes : List UInt8)
    (address : Address) :
    Listing.from undocumented covered bytes address =
      listing undocumented (bytes.drop covered) (address + UInt16.ofNat covered) := by
  induction covered generalizing bytes address with
  | zero =>
      rw [List.drop_zero, show UInt16.ofNat 0 = 0 from rfl, UInt16.add_zero]
      rfl
  | succ covered ih =>
      cases bytes with
      | nil => rfl
      | cons byte rest =>
          rw [Listing.from, ih, List.drop_succ_cons, Nat.add_comm covered 1, UInt16.ofNat_add,
            UInt16.add_assoc]
          rfl

variable {undocumented : Bool}

/-- A listing is the record at its head and the listing of what lies behind it. -/
theorem listing_cons (byte : UInt8) (rest : List UInt8) (address : Address) :
    listing undocumented (byte :: rest) address =
      Record.head undocumented byte rest address ::
        listing undocumented (rest.drop ((Record.head undocumented byte rest address).size - 1))
          (address + UInt16.ofNat (Record.head undocumented byte rest address).size) := by
  have hPos := Record.size_pos_head undocumented byte rest address
  rw [listing, Listing.from, Listing.from_eq, UInt16.add_assoc]
  congr 3
  rw [show (1 : UInt16) = UInt16.ofNat 1 from rfl, ← UInt16.ofNat_add]
  congr 1
  omega

theorem eq_nil_of_listing_eq_nil {bytes : List UInt8} {address : Address}
    (h : listing undocumented bytes address = []) : bytes = [] := by
  cases bytes with
  | nil => rfl
  | cons byte rest =>
      rw [listing_cons] at h
      cases h

/-- Wherever a listing is split between two records, the first part covers the bytes up to some
place, and the second part is the listing of the bytes from there. -/
theorem exists_tail_of_listing_eq_append {bytes : List UInt8} {address : Address}
    {earlier later : List Record} (h : listing undocumented bytes address = earlier ++ later) :
    ∃ tail, bytes = earlier.flatMap Record.bytes ++ tail ∧
      later = listing undocumented tail
        (address + UInt16.ofNat (earlier.flatMap Record.bytes).length) := by
  induction earlier generalizing bytes address with
  | nil =>
      refine ⟨bytes, rfl, ?_⟩
      rw [List.flatMap_nil, List.length_nil, show UInt16.ofNat 0 = 0 from rfl, UInt16.add_zero]
      exact h.symm
  | cons record earlier ih =>
      cases bytes with
      | nil => cases h
      | cons byte rest =>
          rw [listing_cons, List.cons_append] at h
          obtain ⟨hRecord, hRest⟩ := List.cons_eq_cons.mp h
          obtain ⟨tail, hTail, hLater⟩ := ih hRest
          refine ⟨tail, ?_, ?_⟩
          · rw [← Record.bytes_head_append undocumented byte rest address, hTail, hRecord,
              List.flatMap_cons, List.append_assoc]
          · rw [hLater, hRecord, List.flatMap_cons, List.length_append, UInt16.ofNat_add,
              UInt16.add_assoc, ← hRecord, Record.length_bytes_head]

/-- A record of a listing is the one at the head of the bytes that begin where it stands. -/
theorem exists_rest_of_listing_eq {bytes : List UInt8} {address : Address}
    {earlier later : List Record} {record : Record}
    (h : listing undocumented bytes address = earlier ++ record :: later) :
    ∃ rest, bytes = earlier.flatMap Record.bytes ++ record.opcode :: rest ∧
      record = Record.head undocumented record.opcode rest
        (address + UInt16.ofNat (earlier.flatMap Record.bytes).length) ∧
      later = listing undocumented (rest.drop (record.size - 1))
        (record.address + UInt16.ofNat record.size) := by
  obtain ⟨tail, hBytes, hTail⟩ := exists_tail_of_listing_eq_append h
  cases tail with
  | nil => cases hTail
  | cons byte rest =>
      rw [listing_cons] at hTail
      obtain ⟨rfl, hLater⟩ := List.cons_eq_cons.mp hTail
      refine ⟨rest, ?_, ?_, ?_⟩
      · rw [Record.opcode_head]
        exact hBytes
      · rw [Record.opcode_head]
      · rw [Record.address_head]
        exact hLater

/-- No byte is lost or doubled, and none is out of its place. -/
theorem flatMap_bytes_listing (bytes : List UInt8) (address : Address) :
    (listing undocumented bytes address).flatMap Record.bytes = bytes := by
  obtain ⟨tail, hBytes, hTail⟩ := exists_tail_of_listing_eq_append
    (List.append_nil (listing undocumented bytes address)).symm
  rw [eq_nil_of_listing_eq_nil hTail.symm, List.append_nil] at hBytes
  exact hBytes.symm

/-- Every record covers a byte. -/
theorem Record.length_le_length_flatMap_bytes (records : List Record) :
    records.length ≤ (records.flatMap Record.bytes).length := by
  induction records with
  | nil => exact Nat.le_refl 0
  | cons record records ih =>
      have hPos : 0 < record.bytes.length := by
        unfold Record.bytes
        split <;> exact Nat.succ_pos _
      rw [List.length_cons, List.flatMap_cons, List.length_append]
      omega

/-- Records that are asked for one at a time are those of the listing, in its order. -/
theorem first_eq_take (count : Nat) (bytes : List UInt8) (address : Address) :
    Listing.first undocumented count bytes address =
      (listing undocumented bytes address).take count := by
  induction count generalizing bytes address with
  | zero => rfl
  | succ count ih =>
      cases bytes with
      | nil => rfl
      | cons byte rest => rw [Listing.first, ih, listing_cons, List.take_succ_cons]

/-- The first record of a listing stands at its address. -/
theorem address_of_listing_eq_cons {bytes : List UInt8} {address : Address} {record : Record}
    {later : List Record} (h : listing undocumented bytes address = record :: later) :
    record.address = address := by
  cases bytes with
  | nil => cases h
  | cons byte rest =>
      rw [listing_cons] at h
      obtain ⟨rfl, _⟩ := List.cons_eq_cons.mp h
      exact Record.address_head ..

/-- A listing loses nothing and invents nothing. Its records cover the bytes from the first to the
last, also when they are asked for one at a time, and then there is an end. Their addresses begin at
the start and advance by their sizes, with the wrap of an address. Instructions agree with the opcode
table, and data stands where the instruction is withheld and nowhere else. -/
theorem listing_lossless (undocumented : Bool) (bytes : List UInt8) (start : Address) :
    (listing undocumented bytes start).flatMap Record.bytes = bytes ∧
    (∀ count, bytes.length ≤ count →
      Listing.first undocumented count bytes start = listing undocumented bytes start) ∧
    (∀ record later, listing undocumented bytes start = record :: later →
      record.address = start) ∧
    (∀ earlier record next later,
      listing undocumented bytes start = earlier ++ record :: next :: later →
      next.address = record.address + UInt16.ofNat record.size) ∧
    (∀ record ∈ listing undocumented bytes start, record.isData = false →
      record.Tabled ∧ record.size = 1 + record.operand.length ∧
        1 ≤ record.size ∧ record.size ≤ 3) ∧
    ∀ earlier record later, listing undocumented bytes start = earlier ++ record :: later →
      ∃ rest, bytes = earlier.flatMap Record.bytes ++ record.opcode :: rest ∧
        (record.isData = true ↔ Record.Withheld undocumented record.opcode rest) := by
  refine ⟨flatMap_bytes_listing bytes start, fun count hCount => ?_,
    fun _ _ => address_of_listing_eq_cons, fun earlier record next later hSplit => ?_,
    fun record hRecord hCode => ?_, fun earlier record later hSplit => ?_⟩
  · have hLength := Record.length_le_length_flatMap_bytes (listing undocumented bytes start)
    rw [flatMap_bytes_listing] at hLength
    rw [first_eq_take, List.take_of_length_le (Nat.le_trans hLength hCount)]
  · obtain ⟨_, _, _, hLater⟩ := exists_rest_of_listing_eq hSplit
    exact address_of_listing_eq_cons hLater.symm
  · obtain ⟨earlier, later, hSplit⟩ := List.append_of_mem hRecord
    obtain ⟨rest, _, hHead, _⟩ := exists_rest_of_listing_eq hSplit
    have tabled : record.Tabled := by
      rw [hHead] at hCode ⊢
      exact Record.tabled_head_of_isData_eq_false _ _ _ _ hCode
    refine ⟨tabled, tabled.size_eq, ?_, ?_⟩
    · rw [tabled.size]
      exact Opcode.size_pos _
    · rw [tabled.size]
      exact Opcode.size_le_three _
  · obtain ⟨rest, hBytes, hHead, _⟩ := exists_rest_of_listing_eq hSplit
    refine ⟨rest, hBytes, ?_⟩
    rw [← Record.isData_head_iff _ _ _ (start + UInt16.ofNat (earlier.flatMap Record.bytes).length),
      ← hHead]

/-- A store whose operand is cut off is data, and addresses wrap after the last one. -/
example : (listing true [0xA9, 0x42, 0x03, 0x10, 0x8D] 0xFFFD).map
    (fun record => (record.address, record.isData)) =
      [(0xFFFD, false), (0xFFFF, false), (0x0001, true)] := by
  decide +kernel

end Mos6510
