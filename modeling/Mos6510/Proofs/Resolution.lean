import Mos6510.Proofs.BinaryNumbers

/-!
Where operands lie, in whole numbers. The rules of the addressing modes are written down as arithmetic on
the numbers of addresses and the values of bytes, with every wrap as a remainder. Main statement:
resolution follows these rules, for instructions and pointers at the ends of pages and of the space too,
and what it reports as a page crossing is a carry out of the low byte.
-/

namespace Mos6510

/-- The value of the byte with a number. Behind the last byte comes the first one again. -/
def cell (read : Address → UInt8) (number : Nat) : Nat := (read (UInt16.ofNat number)).toNat

/-- The value of the word whose low and high byte have the given numbers. -/
def wordAt (read : Address → UInt8) (low high : Nat) : Nat := cell read low + 256 * cell read high

namespace Mode

variable (mode : Mode) (read : Address → UInt8) (pc x y : Nat)

/-- The number of the address before the last indexing: the operand, the word that a zero-page pointer
holds, the place of a pointer that is indexed itself or that a jump goes through, or the address behind a
branch. -/
def baseNumber : Nat :=
  match mode with
  | .implied | .accumulator => pc
  | .immediate => (pc + 1) % 65536
  | .zeroPage | .zeroPageX | .zeroPageY => cell read (pc + 1)
  | .absolute | .absoluteX | .absoluteY | .indirect => wordAt read (pc + 1) (pc + 2)
  | .indexedIndirect => (cell read (pc + 1) + x) % 256
  | .indirectIndexed => wordAt read (cell read (pc + 1)) ((cell read (pc + 1) + 1) % 256)
  | .relative => (pc + 2) % 65536

/-- The number of the address that the instruction works on. -/
def addressNumber : Nat :=
  let base := mode.baseNumber read pc x
  match mode with
  | .implied | .accumulator | .immediate | .zeroPage | .absolute => base
  | .zeroPageX => (base + x) % 256
  | .zeroPageY => (base + y) % 256
  | .absoluteX => (base + x) % 65536
  | .absoluteY | .indirectIndexed => (base + y) % 65536
  -- the high byte of the target comes from the page of the low byte
  | .indirect => wordAt read base (base / 256 * 256 + (base + 1) % 256)
  | .indexedIndirect => wordAt read base ((base + 1) % 256)
  | .relative =>
    ((pc + 2 + Arithmetic.signedByte (read (UInt16.ofNat (pc + 1)))) % 65536).toNat

/-- An index carries out of the low byte, or a branch leaves the page of the instruction behind it. -/
def Crosses : Prop :=
  let base := mode.baseNumber read pc x
  match mode with
  | .absoluteX => 256 ≤ base % 256 + x
  | .absoluteY | .indirectIndexed => 256 ≤ base % 256 + y
  | .relative => mode.addressNumber read pc x y / 256 ≠ base / 256
  | _ => False

end Mode

theorem Address.ofNat_toNat_add (address : Address) (distance : Nat) :
    UInt16.ofNat (address.toNat + distance) = address + UInt16.ofNat distance := by
  rw [UInt16.ofNat_add, UInt16.ofNat_toNat]

/-- An address in the zero page is the number of its offset. -/
theorem Address.toNat_zeroPage (offset : UInt8) : (zeroPage offset).toNat = offset.toNat := by
  simp [zeroPage]

/-- Adding the operand of a branch adds the signed number that it is. -/
theorem Address.toNat_add_displacement (base : Address) (operand : UInt8) :
    (base + displacement operand).toNat =
      ((base.toNat + Arithmetic.signedByte operand) % 65536).toNat := by
  have hBase := base.toNat_lt
  have hOperand := operand.toNat_lt
  have hSign : operand < 0x80 ↔ operand.toNat < 128 := UInt8.lt_iff_toNat_lt
  rw [displacement, Arithmetic.signedByte, Arithmetic.isNegative_eq]
  by_cases h : operand.toNat < 128
  · rw [if_pos (hSign.mpr h), if_neg (by simpa using h), UInt16.toNat_add, UInt8.toNat_toUInt16]
    omega
  · rw [if_neg (mt hSign.mp h), if_pos (by simpa using h), UInt16.toNat_add, UInt16.toNat_add,
      UInt8.toNat_toUInt16, show (0xFF00 : UInt16).toNat = 0xFF00 from rfl]
    omega

section

variable (read : Address → UInt8)

/-- A cell at a distance is read where the addresses wrap, as the cells do. -/
theorem cell_add (address : Address) (distance : Nat) :
    cell read (address.toNat + distance) = (read (address + UInt16.ofNat distance)).toNat := by
  rw [cell, Address.ofNat_toNat_add]

theorem cell_zeroPage (offset : UInt8) :
    cell read offset.toNat = (read (Address.zeroPage offset)).toNat := by
  rw [cell, ← Address.toNat_zeroPage offset, UInt16.ofNat_toNat]

/-- The bytes of an operand word lie behind the opcode, at the end of the space as anywhere. -/
theorem toNat_readWord (pc : Address) :
    (readWord read (pc + 1)).toNat = wordAt read (pc.toNat + 1) (pc.toNat + 2) := by
  have hNext : pc + 1 + 1 = pc + UInt16.ofNat 2 := UInt16.add_assoc pc 1 1
  rw [readWord, Address.toNat_ofBytes, wordAt, cell_add, cell_add, hNext, Nat.mul_comm, Nat.add_comm]
  rfl

/-- A word in the zero page has its second byte at the start of the page if its first is at the
end. -/
theorem toNat_readZeroPageWord (pointer : UInt8) :
    (readZeroPageWord read pointer).toNat =
      wordAt read pointer.toNat ((pointer.toNat + 1) % 256) := by
  have hNext : (pointer.toNat + 1) % 256 = (pointer + 1).toNat := (UInt8.toNat_add pointer 1).symm
  rw [readZeroPageWord, Address.toNat_ofBytes, wordAt, hNext, cell_zeroPage, cell_zeroPage,
    Nat.mul_comm, Nat.add_comm]

/-- A word within a page does not leave it either: the fault of the indirect jump. -/
theorem toNat_readPageWord (pointer : Address) :
    (readPageWord read pointer).toNat =
      wordAt read pointer.toNat (pointer.toNat / 256 * 256 + (pointer.toNat + 1) % 256) := by
  have hHigh : UInt16.ofNat (pointer.toNat / 256 * 256 + (pointer.toNat + 1) % 256) =
      Address.ofBytes (pointer.low + 1) pointer.page := by
    apply Address.ext
    have hPointer := pointer.toNat_lt
    rw [Address.toNat_ofBytes, UInt8.toNat_add, Address.toNat_low, Address.toNat_page,
      UInt16.toNat_ofNat', show (1 : UInt8).toNat = 1 from rfl]
    omega
  rw [readPageWord, Address.toNat_ofBytes, wordAt, cell, cell, hHigh, UInt16.ofNat_toNat,
    Nat.mul_comm, Nat.add_comm]

end

namespace Mode

variable (mode : Mode) (read : Address → UInt8) (pc : Address) (x y : UInt8)

/-- The base that a mode starts from is the number that its rule gives. -/
theorem toNat_base_resolve :
    (mode.resolve read pc x y).base.toNat = mode.baseNumber read pc.toNat x.toNat := by
  have hByte : cell read (pc.toNat + 1) = (read (pc + 1)).toNat := cell_add read pc 1
  cases mode with
  | implied | accumulator => rfl
  | immediate => exact UInt16.toNat_add pc 1
  | zeroPage | zeroPageX | zeroPageY =>
      rw [baseNumber, hByte]
      exact Address.toNat_zeroPage _
  | absolute | absoluteX | absoluteY | indirect => exact toNat_readWord read pc
  | indexedIndirect =>
      rw [baseNumber, hByte]
      exact (Address.toNat_zeroPage _).trans (UInt8.toNat_add _ _)
  | indirectIndexed =>
      rw [baseNumber, hByte]
      exact toNat_readZeroPageWord read (read (pc + 1))
  | relative => exact UInt16.toNat_add pc 2

/-- The address that a mode resolves to is the number that its rule gives. -/
theorem toNat_address_resolve :
    (mode.resolve read pc x y).address.toNat = mode.addressNumber read pc.toNat x.toNat y.toNat := by
  have hBase := mode.toNat_base_resolve read pc x y
  unfold addressNumber
  rw [← hBase]
  cases mode with
  | implied | accumulator | immediate | zeroPage | absolute => rfl
  | zeroPageX | zeroPageY =>
      simp only [resolve, Address.toNat_zeroPage]
      exact UInt8.toNat_add _ _
  | absoluteX | absoluteY | indirectIndexed =>
      simp [resolve, EffectiveAddress.indexed, EffectiveAddress.offset]
  | indirect => exact toNat_readPageWord read _
  | indexedIndirect =>
      simp only [resolve, Address.toNat_zeroPage]
      exact toNat_readZeroPageWord read _
  | relative =>
      have hNext : (pc + 2).toNat = (pc.toNat + 2) % 65536 := UInt16.toNat_add pc 2
      have hOperand : UInt16.ofNat (pc.toNat + 1) = pc + 1 := Address.ofNat_toNat_add pc 1
      have hTarget := Address.toNat_add_displacement (pc + 2) (read (pc + 1))
      rw [hNext] at hTarget
      simp only [hOperand]
      refine Eq.trans hTarget (congrArg Int.toNat ?_)
      omega

/-- The crossing that a mode reports is the one of its rule. -/
theorem crossesPage_resolve :
    (mode.resolve read pc x y).crossesPage = true ↔
      mode.Crosses read pc.toNat x.toNat y.toNat := by
  have hBase := mode.toNat_base_resolve read pc x y
  have hAddress := mode.toNat_address_resolve read pc x y
  unfold Crosses
  rw [← hBase, ← hAddress]
  cases mode with
  | absoluteX | absoluteY | indirectIndexed =>
      simp only [resolve, EffectiveAddress.indexed_crossesPage, decide_eq_true_eq]
      rfl
  | relative =>
      simp only [resolve, EffectiveAddress.offset, bne_iff_ne, ne_eq, ← UInt8.toNat_inj,
        Address.toNat_page]
      exact not_congr eq_comm
  | _ => exact iff_of_false Bool.noConfusion id

/-- What is reported as a crossing is a change of page, except for the two modes that follow a pointer
last: their addresses lie in any page, and no crossing is reported. -/
theorem crossesPage_resolve_iff_page_ne (h : mode ∉ [.indirect, .indexedIndirect]) :
    (mode.resolve read pc x y).crossesPage = true ↔
      (mode.resolve read pc x y).address.page ≠ (mode.resolve read pc x y).base.page := by
  cases mode with
  | indirect | indexedIndirect => exact absurd (by decide) h
  | absoluteX | absoluteY | indirectIndexed | relative =>
      simp only [resolve, EffectiveAddress.indexed, EffectiveAddress.offset, bne_iff_ne]
      exact ne_comm
  | zeroPageX | zeroPageY => simp [resolve, Address.zeroPage]
  | _ => simp [resolve, EffectiveAddress.direct]

/-- Resolution gives the address that the rules of the mode give, and the address that it was indexed
from, and it reports a page crossing exactly when an index carries or a branch leaves the page. -/
theorem resolve_exact :
    (mode.resolve read pc x y).base.toNat = mode.baseNumber read pc.toNat x.toNat ∧
    (mode.resolve read pc x y).address.toNat =
      mode.addressNumber read pc.toNat x.toNat y.toNat ∧
    ((mode.resolve read pc x y).crossesPage = true ↔
      mode.Crosses read pc.toNat x.toNat y.toNat) :=
  ⟨mode.toNat_base_resolve read pc x y, mode.toNat_address_resolve read pc x y,
    mode.crossesPage_resolve read pc x y⟩

/-- The zero-page pointer at $FF wraps to $00, and the index carries past the last address. -/
example :
    indirectIndexed.resolve
        (((Ram.zero.write 0x8001 0xFF).write 0x00FF 0xF0).write 0x0000 0xFF).read 0x8000 0 0x20 =
      ⟨0x0010, 0xFFF0, true⟩ := by
  decide +kernel

end Mode

end Mos6510
