import Mos6510.Bus
import Mos6510.Mode

/-!
Where an operand lies. Resolution reads the operand bytes behind the opcode and, for the indirect
modes, a pointer; it changes nothing. Every step of an address wraps: operand bytes at the end of
the space, zero-page sums and zero-page pointers within page zero, the pointer of an indirect jump
within its page.
-/

namespace Mos6510

/-- The address of an operand, with the address that it was indexed from. -/
structure EffectiveAddress where
  address : Address
  /-- The address before indexing. For an indirect jump and for the pointer that `x` selects it is
  where the pointer lies, for a branch it is the address of the next instruction. -/
  base : Address
  /-- Whether indexing, or the displacement of a branch, led to another page. -/
  crossesPage : Bool
  deriving DecidableEq, Repr

namespace EffectiveAddress

/-- An operand that is not indexed. -/
def direct (address : Address) : EffectiveAddress := ⟨address, address, false⟩

/-- An operand at the sum of a base and some distance. -/
def offset (base distance : Address) : EffectiveAddress :=
  ⟨base + distance, base, base.page != (base + distance).page⟩

/-- An operand at the sum of a base and an index register. -/
def indexed (base : Address) (index : UInt8) : EffectiveAddress := offset base index.toUInt16

/-- The cycles that a page crossing costs where it costs any. -/
def crossing (target : EffectiveAddress) : Nat := if target.crossesPage then 1 else 0

/-- An index leads to another page exactly when it carries out of the low byte. -/
theorem indexed_crossesPage (base : Address) (index : UInt8) :
    (indexed base index).crossesPage = decide (256 ≤ base.toNat % 256 + index.toNat) := by
  have hBase := base.toNat_lt
  have hIndex := index.toNat_lt
  have hSum : (base + index.toUInt16).toNat = (base.toNat + index.toNat) % 65536 := by simp
  have hPage : base.page = (base + index.toUInt16).page ↔
      base.toNat / 256 = (base.toNat + index.toNat) % 65536 / 256 := by
    rw [← UInt8.toNat_inj, Address.toNat_page, Address.toNat_page, hSum]
  by_cases hCarry : 256 ≤ base.toNat % 256 + index.toNat
  · have hNe : base.page ≠ (base + index.toUInt16).page := fun h => by
      have hEq := hPage.mp h
      omega
    simp [indexed, offset, hCarry, hNe]
  · have hEq : base.page = (base + index.toUInt16).page := hPage.mpr (by omega)
    simp [indexed, offset, hCarry, ← hEq]

end EffectiveAddress

/-- The word that a zero-page pointer holds. Both of its bytes are in page zero. -/
def readZeroPageWord (read : Address → UInt8) (pointer : UInt8) : Address :=
  Address.ofBytes (read (Address.zeroPage pointer)) (read (Address.zeroPage (pointer + 1)))

/-- The word that the pointer of an indirect jump holds. Both of its bytes are in one page. -/
def readPageWord (read : Address → UInt8) (pointer : Address) : Address :=
  Address.ofBytes (read pointer) (read (Address.ofBytes (pointer.low + 1) pointer.page))

/-- Where the operand of the instruction at `pc` lies. Without an operand in memory it is the
instruction itself, and for an immediate operand the byte behind the opcode. -/
def Mode.resolve (mode : Mode) (read : Address → UInt8) (pc : Address) (x y : UInt8) :
    EffectiveAddress :=
  let byte := read (pc + 1)
  let word := readWord read (pc + 1)
  match mode with
  | .implied | .accumulator => .direct pc
  | .immediate => .direct (pc + 1)
  | .zeroPage => .direct (Address.zeroPage byte)
  | .zeroPageX => ⟨Address.zeroPage (byte + x), Address.zeroPage byte, false⟩
  | .zeroPageY => ⟨Address.zeroPage (byte + y), Address.zeroPage byte, false⟩
  | .absolute => .direct word
  | .absoluteX => .indexed word x
  | .absoluteY => .indexed word y
  | .indirect => ⟨readPageWord read word, word, false⟩
  | .indexedIndirect =>
    let pointer := byte + x
    ⟨readZeroPageWord read pointer, Address.zeroPage pointer, false⟩
  | .indirectIndexed => .indexed (readZeroPageWord read byte) y
  | .relative => .offset (pc + 2) (Address.displacement byte)

end Mos6510
