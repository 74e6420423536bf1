import Mos6510.Proofs.LosslessListing

/-!
Listings split between records. To decide on a record a listing looks at no byte behind it, unless the
bytes end within the instruction. Main statement: where a record ends, a listing is that of the bytes
before followed by that of the bytes behind, so it can be taken up again at any record; and records that
are not cut off depend on the bytes that they cover alone.
-/

namespace Mos6510

namespace Record

/-- The number of bytes that some records cover. -/
def extent : List Record → Nat
  | [] => 0
  | record :: rest => record.size + extent rest

/-- A byte of data that would be an instruction, which is wanted, if the bytes went on. -/
def IsCutOff (undocumented : Bool) (record : Record) : Prop :=
  record.isData = true ∧
    ((Opcode.ofByte record.opcode).documented = true ∨ undocumented = true)

instance (undocumented : Bool) (record : Record) : Decidable (record.IsCutOff undocumented) :=
  inferInstanceAs (Decidable (_ ∧ _))

end Record

/-- A record of the listing of some bytes ends before the byte at an offset, or the offset is zero. -/
def EndsAt (undocumented : Bool) (bytes : List UInt8) (start : Address) (offset : Nat) : Prop :=
  ∃ earlier later, listing undocumented bytes start = earlier ++ later ∧
    Record.extent earlier = offset

namespace Record

section

variable {undocumented : Bool} {byte : UInt8} {rest more : List UInt8} {address : Address}

/-- An opcode whose instruction is withheld stands in the listing as a byte of data. -/
theorem head_of_withheld (h : Withheld undocumented byte rest) :
    head undocumented byte rest address = data address byte := by
  rcases head_cases undocumented byte rest address with ⟨_, hData⟩ | ⟨hShown, _⟩
  · exact hData
  · exact absurd h hShown

/-- An opcode that is not withheld is listed with all of its operand. -/
theorem size_head_of_not_withheld (h : ¬Withheld undocumented byte rest) :
    (head undocumented byte rest address).size = 1 + (Opcode.ofByte byte).mode.operandBytes := by
  rcases head_cases undocumented byte rest address with ⟨hWithheld, _⟩ | ⟨_, tabled, _, hOpcode, _⟩
  · exact absurd hWithheld h
  · rw [tabled.size, hOpcode, Opcode.size]

/-- Once the operand is there, the bytes behind it do not matter. -/
theorem head_append_of_le (h : (Opcode.ofByte byte).mode.operandBytes ≤ rest.length) :
    head undocumented byte (rest ++ more) address = head undocumented byte rest address := by
  simp only [head, decode?, List.take_append_of_le_length h]

/-- Bytes behind the record at the head do not matter. -/
theorem head_append (h : (head undocumented byte (rest ++ more) address).size ≤ 1 + rest.length) :
    head undocumented byte (rest ++ more) address = head undocumented byte rest address := by
  rcases Nat.lt_or_ge rest.length (Opcode.ofByte byte).mode.operandBytes with hShort | hFits
  · by_cases hWithheld : Withheld undocumented byte (rest ++ more)
    · rw [head_of_withheld hWithheld, head_of_withheld (.inr hShort)]
    · rw [size_head_of_not_withheld hWithheld] at h
      omega
  · exact head_append_of_le hFits

/-- The record at the head covers bytes that are there. -/
theorem size_head_le : (head undocumented byte rest address).size ≤ 1 + rest.length := by
  by_cases h : Withheld undocumented byte rest
  · rw [head_of_withheld h]
    exact Nat.le_add_right 1 _
  · have hFits := (not_or.mp h).2
    rw [size_head_of_not_withheld h]
    omega

/-- A record that is not cut off is decided by the bytes that it covers. -/
theorem head_take_append (h : ¬(head undocumented byte rest address).IsCutOff undocumented)
    (more : List UInt8) :
    head undocumented byte
        (rest.take ((head undocumented byte rest address).size - 1) ++ more) address =
      head undocumented byte rest address := by
  by_cases hWithheld : Withheld undocumented byte rest
  · have hUnwanted : (Opcode.ofByte byte).documented = false ∧ undocumented = false := by
      rw [head_of_withheld hWithheld, IsCutOff, isData_data, not_and, not_or] at h
      simpa [data] using h rfl
    rw [head_of_withheld hWithheld, head_of_withheld (.inl hUnwanted)]
  · have hFits : (Opcode.ofByte byte).mode.operandBytes ≤ rest.length :=
      Nat.not_lt.mp (not_or.mp hWithheld).2
    have hTake : (Opcode.ofByte byte).mode.operandBytes ≤
        (rest.take (Opcode.ofByte byte).mode.operandBytes).length :=
      Nat.le_of_eq (List.length_take_of_le hFits).symm
    rw [size_head_of_not_withheld hWithheld, Nat.add_sub_cancel_left, head_append_of_le hTake,
      ← head_append_of_le hTake, List.take_append_drop]

end

end Record

variable {undocumented : Bool}

section

variable {bytes first second : List UInt8} {start : Address} {earlier later : List Record}
  {record : Record}

/-- The first record of a listing is the one at the head of the bytes, and the others are the listing of
what it leaves. -/
theorem eq_cons_of_listing_eq_cons (h : listing undocumented bytes start = record :: later) :
    ∃ byte rest, bytes = byte :: rest ∧ Record.head undocumented byte rest start = record ∧
      listing undocumented (rest.drop (record.size - 1)) (start + UInt16.ofNat record.size) =
        later := by
  cases bytes with
  | nil => cases h
  | cons byte rest =>
      rw [listing_cons] at h
      obtain ⟨rfl, hLater⟩ := List.cons_eq_cons.mp h
      exact ⟨byte, rest, rfl, rfl, hLater⟩

/-- The bytes of the records of a listing are as many as their sizes say. -/
theorem length_flatMap_bytes_of_listing (h : listing undocumented bytes start = earlier ++ later) :
    (earlier.flatMap Record.bytes).length = Record.extent earlier := by
  induction earlier generalizing bytes start with
  | nil => rfl
  | cons record earlier ih =>
      obtain ⟨byte, rest, _, rfl, hRest⟩ := eq_cons_of_listing_eq_cons h
      rw [List.flatMap_cons, List.length_append, Record.length_bytes_head, ih hRest, Record.extent]

/-- Records that end where the first of two runs of bytes ends are the listing of that run: none of them
has been decided by a byte of the second. -/
theorem listing_eq_of_extent (h : listing undocumented (first ++ second) start = earlier ++ later)
    (hExtent : Record.extent earlier = first.length) :
    listing undocumented first start = earlier := by
  induction earlier generalizing first start with
  | nil =>
      obtain rfl := List.eq_nil_of_length_eq_zero hExtent.symm
      rfl
  | cons record earlier ih =>
      rw [List.cons_append] at h
      obtain ⟨byte, rest, hBytes, hHead, hRest⟩ := eq_cons_of_listing_eq_cons h
      have hPos := Record.size_pos_head undocumented byte rest start
      rw [hHead] at hPos
      rw [Record.extent] at hExtent
      cases first with
      | nil =>
          -- the record would lie behind the end of the run
          rw [List.length_nil] at hExtent
          omega
      | cons first others =>
          rw [List.cons_append] at hBytes
          obtain ⟨rfl, rfl⟩ := List.cons_eq_cons.mp hBytes
          rw [List.length_cons] at hExtent
          have hSame : Record.head undocumented first (others ++ second) start =
              Record.head undocumented first others start :=
            Record.head_append (by rw [hHead]; omega)
          rw [hSame] at hHead
          rw [List.drop_append_of_le_length (by omega)] at hRest
          rw [listing_cons, hHead, ih hRest (by rw [List.length_drop]; omega)]

/-- A listing that is split at a place where one of two runs of bytes ends is split into their
listings. -/
theorem listing_append_of_extent
    (h : listing undocumented (first ++ second) start = earlier ++ later)
    (hExtent : Record.extent earlier = first.length) :
    earlier = listing undocumented first start ∧
      later = listing undocumented second (start + UInt16.ofNat first.length) := by
  refine ⟨(listing_eq_of_extent h hExtent).symm, ?_⟩
  have hLength := length_flatMap_bytes_of_listing h
  obtain ⟨tail, hBytes, hLater⟩ := exists_tail_of_listing_eq_append h
  obtain ⟨_, rfl⟩ := List.append_inj hBytes (hExtent.symm.trans hLength.symm)
  rw [hLater, hLength, hExtent]

/-- Records that are not cut off are decided by the bytes that they cover: other bytes behind these are
listed as they would be from there. -/
theorem listing_take_append (h : listing undocumented bytes start = earlier ++ later)
    (hWhole : ∀ record ∈ earlier, ¬record.IsCutOff undocumented) (tail : List UInt8) :
    listing undocumented (bytes.take (Record.extent earlier) ++ tail) start =
      earlier ++ listing undocumented tail (start + UInt16.ofNat (Record.extent earlier)) := by
  induction earlier generalizing bytes start with
  | nil =>
      rw [Record.extent, List.take_zero, show UInt16.ofNat 0 = 0 from rfl, UInt16.add_zero]
      rfl
  | cons record earlier ih =>
      obtain ⟨byte, rest, rfl, rfl, hRest⟩ := eq_cons_of_listing_eq_cons h
      obtain ⟨hFirst, hEarlier⟩ := List.forall_mem_cons.mp hWhole
      have hLe : (Record.head undocumented byte rest start).size ≤ 1 + rest.length :=
        Record.size_head_le
      obtain ⟨length, hLength⟩ : ∃ length, (Record.head undocumented byte rest start).size = length + 1 :=
        ⟨_, (Nat.sub_add_cancel (Record.size_pos_head undocumented byte rest start)).symm⟩
      have hHead := Record.head_take_append hFirst
        ((rest.drop length).take (Record.extent earlier) ++ tail)
      rw [hLength, Nat.add_sub_cancel] at hHead hRest
      -- the bytes of the record at the head, then those of the others
      have hTake : (byte :: rest).take (length + 1 + Record.extent earlier) ++ tail =
          byte :: (rest.take length ++ ((rest.drop length).take (Record.extent earlier) ++ tail)) := by
        rw [Nat.add_right_comm, List.take_succ_cons, List.take_add, List.cons_append,
          List.append_assoc]
      rw [Record.extent, hLength, hTake, listing_cons, hHead, hLength, Nat.add_sub_cancel,
        List.drop_left' (List.length_take_of_le (by omega)), ih hRest hEarlier, List.cons_append,
        UInt16.add_assoc, ← UInt16.ofNat_add]

/-- A listing goes on at any of its records, from the byte and the address where the record stands, as
one begun there. -/
theorem listing_drop_of_listing_eq
    (h : listing undocumented bytes start = earlier ++ record :: later) :
    listing undocumented (bytes.drop (Record.extent earlier)) record.address = record :: later := by
  obtain ⟨tail, rfl, hTail⟩ := exists_tail_of_listing_eq_append h
  rw [List.drop_left' (length_flatMap_bytes_of_listing h), address_of_listing_eq_cons hTail.symm,
    ← hTail]

end

/-- Listings are split and taken up again between records. Where a record ends, the listing of two runs
of bytes is that of the first followed by that of the second, from the address that its bytes have. The
records that are asked for first are the first ones of the listing, and unless one of them is cut off
they stay the same whatever stands behind the bytes that they cover. From the place and the address of
any record on, the listing is that record and those behind it. -/
theorem listing_splits_and_resumes (undocumented : Bool) (start : Address) :
    (∀ first second, EndsAt undocumented (first ++ second) start first.length →
      listing undocumented (first ++ second) start =
        listing undocumented first start ++
          listing undocumented second (start + UInt16.ofNat first.length)) ∧
    ∀ bytes,
      (∀ count, Listing.first undocumented count bytes start =
        (listing undocumented bytes start).take count) ∧
      (∀ count,
        let records := Listing.first undocumented count bytes start
        (∀ record ∈ records, ¬record.IsCutOff undocumented) →
          ∀ tail, Listing.first undocumented records.length
            (bytes.take (Record.extent records) ++ tail) start = records) ∧
      ∀ earlier record later, listing undocumented bytes start = earlier ++ record :: later →
        listing undocumented (bytes.drop (Record.extent earlier)) record.address =
          record :: later := by
  refine ⟨?_, fun bytes => ⟨fun count => first_eq_take count bytes start, ?_, ?_⟩⟩
  · rintro first second ⟨earlier, later, hSplit, hExtent⟩
    obtain ⟨rfl, rfl⟩ := listing_append_of_extent hSplit hExtent
    exact hSplit
  · intro count records hWhole tail
    have hRecords : records = (listing undocumented bytes start).take count :=
      first_eq_take count bytes start
    have hSplit : listing undocumented bytes start =
        records ++ (listing undocumented bytes start).drop count := by
      rw [hRecords, List.take_append_drop]
    rw [first_eq_take, listing_take_append hSplit hWhole, List.take_left' rfl]
  · exact fun earlier record later => listing_drop_of_listing_eq

/-- A load and a store that lacks the end of its operand, across the end of memory: the load stands at
the start, and the store is two bytes of data of which the first is cut off. -/
theorem listing_splits_and_resumes_before_store :
    (EndsAt true ([0xA9, 0x42] ++ [0x8D, 0x10]) 0xFFFE 2 ∧
      listing true ([0xA9, 0x42] ++ [0x8D, 0x10]) 0xFFFE =
        listing true [0xA9, 0x42] 0xFFFE ++ listing true [0x8D, 0x10] 0x0000) ∧
    Listing.first true 1 ([0xA9, 0x42] ++ [0x60]) 0xFFFE =
      Listing.first true 1 [0xA9, 0x42, 0x8D, 0x10] 0xFFFE ∧
    listing true [0x8D, 0x10] 0x0000 =
      [Record.data 0x0000 0x8D, Record.data 0x0001 0x10] := by
  obtain ⟨hSplits, hResumes⟩ := listing_splits_and_resumes true 0xFFFE
  obtain ⟨_, hFirst, hDrop⟩ := hResumes [0xA9, 0x42, 0x8D, 0x10]
  have hEnds : EndsAt true ([0xA9, 0x42] ++ [0x8D, 0x10]) 0xFFFE 2 :=
    ⟨_, _, (List.take_append_drop 1 _).symm, by decide +kernel⟩
  refine ⟨⟨hEnds, hSplits _ _ hEnds⟩, hFirst 1 (by decide +kernel) [0x60], ?_⟩
  exact hDrop (listing true [0xA9, 0x42] 0xFFFE) (Record.data 0x0000 0x8D) [Record.data 0x0001 0x10]
    (by decide +kernel)

end Mos6510
