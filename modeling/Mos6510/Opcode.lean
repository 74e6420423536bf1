import Mos6510.Address
import Mos6510.Mnemonic
import Mos6510.Mode

/-!
Opcodes: what each of the 256 byte values means as the first byte of an instruction. Every value
has a row, so decoding is total; 151 of the rows are documented.
-/

namespace Mos6510

/-- The meaning of an opcode byte. -/
structure Opcode where
  mnemonic : Mnemonic
  mode : Mode
  /-- The cycles that the instruction takes before penalties. -/
  cycles : Nat
  documented : Bool
  deriving DecidableEq, Repr

namespace Opcode

/-- The length of the instruction: the opcode and its operand bytes. -/
def size (opcode : Opcode) : Nat := 1 + opcode.mode.operandBytes

def documentedCount : Nat := 151

/-- The rows in the order of the opcode byte, eight to a group. -/
def table : Array Opcode := #[
  -- $00
  ⟨.brk, .implied, 7, true⟩,
  ⟨.ora, .indexedIndirect, 6, true⟩,
  ⟨.jam, .implied, 2, false⟩,
  ⟨.slo, .indexedIndirect, 8, false⟩,
  ⟨.nop, .zeroPage, 3, false⟩,
  ⟨.ora, .zeroPage, 3, true⟩,
  ⟨.asl, .zeroPage, 5, true⟩,
  ⟨.slo, .zeroPage, 5, false⟩,
  -- $08
  ⟨.php, .implied, 3, true⟩,
  ⟨.ora, .immediate, 2, true⟩,
  ⟨.asl, .accumulator, 2, true⟩,
  ⟨.anc, .immediate, 2, false⟩,
  ⟨.nop, .absolute, 4, false⟩,
  ⟨.ora, .absolute, 4, true⟩,
  ⟨.asl, .absolute, 6, true⟩,
  ⟨.slo, .absolute, 6, false⟩,
  -- $10
  ⟨.bpl, .relative, 2, true⟩,
  ⟨.ora, .indirectIndexed, 5, true⟩,
  ⟨.jam, .implied, 2, false⟩,
  ⟨.slo, .indirectIndexed, 8, false⟩,
  ⟨.nop, .zeroPageX, 4, false⟩,
  ⟨.ora, .zeroPageX, 4, true⟩,
  ⟨.asl, .zeroPageX, 6, true⟩,
  ⟨.slo, .zeroPageX, 6, false⟩,
  -- $18
  ⟨.clc, .implied, 2, true⟩,
  ⟨.ora, .absoluteY, 4, true⟩,
  ⟨.nop, .implied, 2, false⟩,
  ⟨.slo, .absoluteY, 7, false⟩,
  ⟨.nop, .absoluteX, 4, false⟩,
  ⟨.ora, .absoluteX, 4, true⟩,
  ⟨.asl, .absoluteX, 7, true⟩,
  ⟨.slo, .absoluteX, 7, false⟩,
  -- $20
  ⟨.jsr, .absolute, 6, true⟩,
  ⟨.and, .indexedIndirect, 6, true⟩,
  ⟨.jam, .implied, 2, false⟩,
  ⟨.rla, .indexedIndirect, 8, false⟩,
  ⟨.bit, .zeroPage, 3, true⟩,
  ⟨.and, .zeroPage, 3, true⟩,
  ⟨.rol, .zeroPage, 5, true⟩,
  ⟨.rla, .zeroPage, 5, false⟩,
  -- $28
  ⟨.plp, .implied, 4, true⟩,
  ⟨.and, .immediate, 2, true⟩,
  ⟨.rol, .accumulator, 2, true⟩,
  ⟨.anc, .immediate, 2, false⟩,
  ⟨.bit, .absolute, 4, true⟩,
  ⟨.and, .absolute, 4, true⟩,
  ⟨.rol, .absolute, 6, true⟩,
  ⟨.rla, .absolute, 6, false⟩,
  -- $30
  ⟨.bmi, .relative, 2, true⟩,
  ⟨.and, .indirectIndexed, 5, true⟩,
  ⟨.jam, .implied, 2, false⟩,
  ⟨.rla, .indirectIndexed, 8, false⟩,
  ⟨.nop, .zeroPageX, 4, false⟩,
  ⟨.and, .zeroPageX, 4, true⟩,
  ⟨.rol, .zeroPageX, 6, true⟩,
  ⟨.rla, .zeroPageX, 6, false⟩,
  -- $38
  ⟨.sec, .implied, 2, true⟩,
  ⟨.and, .absoluteY, 4, true⟩,
  ⟨.nop, .implied, 2, false⟩,
  ⟨.rla, .absoluteY, 7, false⟩,
  ⟨.nop, .absoluteX, 4, false⟩,
  ⟨.and, .absoluteX, 4, true⟩,
  ⟨.rol, .absoluteX, 7, true⟩,
  ⟨.rla, .absoluteX, 7, false⟩,
  -- $40
  ⟨.rti, .implied, 6, true⟩,
  ⟨.eor, .indexedIndirect, 6, true⟩,
  ⟨.jam, .implied, 2, false⟩,
  ⟨.sre, .indexedIndirect, 8, false⟩,
  ⟨.nop, .zeroPage, 3, false⟩,
  ⟨.eor, .zeroPage, 3, true⟩,
  ⟨.lsr, .zeroPage, 5, true⟩,
  ⟨.sre, .zeroPage, 5, false⟩,
  -- $48
  ⟨.pha, .implied, 3, true⟩,
  ⟨.eor, .immediate, 2, true⟩,
  ⟨.lsr, .accumulator, 2, true⟩,
  ⟨.alr, .immediate, 2, false⟩,
  ⟨.jmp, .absolute, 3, true⟩,
  ⟨.eor, .absolute, 4, true⟩,
  ⟨.lsr, .absolute, 6, true⟩,
  ⟨.sre, .absolute, 6, false⟩,
  -- $50
  ⟨.bvc, .relative, 2, true⟩,
  ⟨.eor, .indirectIndexed, 5, true⟩,
  ⟨.jam, .implied, 2, false⟩,
  ⟨.sre, .indirectIndexed, 8, false⟩,
  ⟨.nop, .zeroPageX, 4, false⟩,
  ⟨.eor, .zeroPageX, 4, true⟩,
  ⟨.lsr, .zeroPageX, 6, true⟩,
  ⟨.sre, .zeroPageX, 6, false⟩,
  -- $58
  ⟨.cli, .implied, 2, true⟩,
  ⟨.eor, .absoluteY, 4, true⟩,
  ⟨.nop, .implied, 2, false⟩,
  ⟨.sre, .absoluteY, 7, false⟩,
  ⟨.nop, .absoluteX, 4, false⟩,
  ⟨.eor, .absoluteX, 4, true⟩,
  ⟨.lsr, .absoluteX, 7, true⟩,
  ⟨.sre, .absoluteX, 7, false⟩,
  -- $60
  ⟨.rts, .implied, 6, true⟩,
  ⟨.adc, .indexedIndirect, 6, true⟩,
  ⟨.jam, .implied, 2, false⟩,
  ⟨.rra, .indexedIndirect, 8, false⟩,
  ⟨.nop, .zeroPage, 3, false⟩,
  ⟨.adc, .zeroPage, 3, true⟩,
  ⟨.ror, .zeroPage, 5, true⟩,
  ⟨.rra, .zeroPage, 5, false⟩,
  -- $68
  ⟨.pla, .implied, 4, true⟩,
  ⟨.adc, .immediate, 2, true⟩,
  ⟨.ror, .accumulator, 2, true⟩,
  ⟨.arr, .immediate, 2, false⟩,
  ⟨.jmp, .indirect, 5, true⟩,
  ⟨.adc, .absolute, 4, true⟩,
  ⟨.ror, .absolute, 6, true⟩,
  ⟨.rra, .absolute, 6, false⟩,
  -- $70
  ⟨.bvs, .relative, 2, true⟩,
  ⟨.adc, .indirectIndexed, 5, true⟩,
  ⟨.jam, .implied, 2, false⟩,
  ⟨.rra, .indirectIndexed, 8, false⟩,
  ⟨.nop, .zeroPageX, 4, false⟩,
  ⟨.adc, .zeroPageX, 4, true⟩,
  ⟨.ror, .zeroPageX, 6, true⟩,
  ⟨.rra, .zeroPageX, 6, false⟩,
  -- $78
  ⟨.sei, .implied, 2, true⟩,
  ⟨.adc, .absoluteY, 4, true⟩,
  ⟨.nop, .implied, 2, false⟩,
  ⟨.rra, .absoluteY, 7, false⟩,
  ⟨.nop, .absoluteX, 4, false⟩,
  ⟨.adc, .absoluteX, 4, true⟩,
  ⟨.ror, .absoluteX, 7, true⟩,
  ⟨.rra, .absoluteX, 7, false⟩,
  -- $80
  ⟨.nop, .immediate, 2, false⟩,
  ⟨.sta, .indexedIndirect, 6, true⟩,
  ⟨.nop, .immediate, 2, false⟩,
  ⟨.sax, .indexedIndirect, 6, false⟩,
  ⟨.sty, .zeroPage, 3, true⟩,
  ⟨.sta, .zeroPage, 3, true⟩,
  ⟨.stx, .zeroPage, 3, true⟩,
  ⟨.sax, .zeroPage, 3, false⟩,
  -- $88
  ⟨.dey, .implied, 2, true⟩,
  ⟨.nop, .immediate, 2, false⟩,
  ⟨.txa, .implied, 2, true⟩,
  ⟨.xaa, .immediate, 2, false⟩,
  ⟨.sty, .absolute, 4, true⟩,
  ⟨.sta, .absolute, 4, true⟩,
  ⟨.stx, .absolute, 4, true⟩,
  ⟨.sax, .absolute, 4, false⟩,
  -- $90
  ⟨.bcc, .relative, 2, true⟩,
  ⟨.sta, .indirectIndexed, 6, true⟩,
  ⟨.jam, .implied, 2, false⟩,
  ⟨.sha, .indirectIndexed, 6, false⟩,
  ⟨.sty, .zeroPageX, 4, true⟩,
  ⟨.sta, .zeroPageX, 4, true⟩,
  ⟨.stx, .zeroPageY, 4, true⟩,
  ⟨.sax, .zeroPageY, 4, false⟩,
  -- $98
  ⟨.tya, .implied, 2, true⟩,
  ⟨.sta, .absoluteY, 5, true⟩,
  ⟨.txs, .implied, 2, true⟩,
  ⟨.tas, .absoluteY, 5, false⟩,
  ⟨.shy, .absoluteX, 5, false⟩,
  ⟨.sta, .absoluteX, 5, true⟩,
  ⟨.shx, .absoluteY, 5, false⟩,
  ⟨.sha, .absoluteY, 5, false⟩,
  -- $A0
  ⟨.ldy, .immediate, 2, true⟩,
  ⟨.lda, .indexedIndirect, 6, true⟩,
  ⟨.ldx, .immediate, 2, true⟩,
  ⟨.lax, .indexedIndirect, 6, false⟩,
  ⟨.ldy, .zeroPage, 3, true⟩,
  ⟨.lda, .zeroPage, 3, true⟩,
  ⟨.ldx, .zeroPage, 3, true⟩,
  ⟨.lax, .zeroPage, 3, false⟩,
  -- $A8
  ⟨.tay, .implied, 2, true⟩,
  ⟨.lda, .immediate, 2, true⟩,
  ⟨.tax, .implied, 2, true⟩,
  ⟨.lxa, .immediate, 2, false⟩,
  ⟨.ldy, .absolute, 4, true⟩,
  ⟨.lda, .absolute, 4, true⟩,
  ⟨.ldx, .absolute, 4, true⟩,
  ⟨.lax, .absolute, 4, false⟩,
  -- $B0
  ⟨.bcs, .relative, 2, true⟩,
  ⟨.lda, .indirectIndexed, 5, true⟩,
  ⟨.jam, .implied, 2, false⟩,
  ⟨.lax, .indirectIndexed, 5, false⟩,
  ⟨.ldy, .zeroPageX, 4, true⟩,
  ⟨.lda, .zeroPageX, 4, true⟩,
  ⟨.ldx, .zeroPageY, 4, true⟩,
  ⟨.lax, .zeroPageY, 4, false⟩,
  -- $B8
  ⟨.clv, .implied, 2, true⟩,
  ⟨.lda, .absoluteY, 4, true⟩,
  ⟨.tsx, .implied, 2, true⟩,
  ⟨.las, .absoluteY, 4, false⟩,
  ⟨.ldy, .absoluteX, 4, true⟩,
  ⟨.lda, .absoluteX, 4, true⟩,
  ⟨.ldx, .absoluteY, 4, true⟩,
  ⟨.lax, .absoluteY, 4, false⟩,
  -- $C0
  ⟨.cpy, .immediate, 2, true⟩,
  ⟨.cmp, .indexedIndirect, 6, true⟩,
  ⟨.nop, .immediate, 2, false⟩,
  ⟨.dcp, .indexedIndirect, 8, false⟩,
  ⟨.cpy, .zeroPage, 3, true⟩,
  ⟨.cmp, .zeroPage, 3, true⟩,
  ⟨.dec, .zeroPage, 5, true⟩,
  ⟨.dcp, .zeroPage, 5, false⟩,
  -- $C8
  ⟨.iny, .implied, 2, true⟩,
  ⟨.cmp, .immediate, 2, true⟩,
  ⟨.dex, .implied, 2, true⟩,
  ⟨.sbx, .immediate, 2, false⟩,
  ⟨.cpy, .absolute, 4, true⟩,
  ⟨.cmp, .absolute, 4, true⟩,
  ⟨.dec, .absolute, 6, true⟩,
  ⟨.dcp, .absolute, 6, false⟩,
  -- $D0
  ⟨.bne, .relative, 2, true⟩,
  ⟨.cmp, .indirectIndexed, 5, true⟩,
  ⟨.jam, .implied, 2, false⟩,
  ⟨.dcp, .indirectIndexed, 8, false⟩,
  ⟨.nop, .zeroPageX, 4, false⟩,
  ⟨.cmp, .zeroPageX, 4, true⟩,
  ⟨.dec, .zeroPageX, 6, true⟩,
  ⟨.dcp, .zeroPageX, 6, false⟩,
  -- $D8
  ⟨.cld, .implied, 2, true⟩,
  ⟨.cmp, .absoluteY, 4, true⟩,
  ⟨.nop, .implied, 2, false⟩,
  ⟨.dcp, .absoluteY, 7, false⟩,
  ⟨.nop, .absoluteX, 4, false⟩,
  ⟨.cmp, .absoluteX, 4, true⟩,
  ⟨.dec, .absoluteX, 7, true⟩,
  ⟨.dcp, .absoluteX, 7, false⟩,
  -- $E0
  ⟨.cpx, .immediate, 2, true⟩,
  ⟨.sbc, .indexedIndirect, 6, true⟩,
  ⟨.nop, .immediate, 2, false⟩,
  ⟨.isc, .indexedIndirect, 8, false⟩,
  ⟨.cpx, .zeroPage, 3, true⟩,
  ⟨.sbc, .zeroPage, 3, true⟩,
  ⟨.inc, .zeroPage, 5, true⟩,
  ⟨.isc, .zeroPage, 5, false⟩,
  -- $E8
  ⟨.inx, .implied, 2, true⟩,
  ⟨.sbc, .immediate, 2, true⟩,
  ⟨.nop, .implied, 2, true⟩,
  ⟨.sbc, .immediate, 2, false⟩,
  ⟨.cpx, .absolute, 4, true⟩,
  ⟨.sbc, .absolute, 4, true⟩,
  ⟨.inc, .absolute, 6, true⟩,
  ⟨.isc, .absolute, 6, false⟩,
  -- $F0
  ⟨.beq, .relative, 2, true⟩,
  ⟨.sbc, .indirectIndexed, 5, true⟩,
  ⟨.jam, .implied, 2, false⟩,
  ⟨.isc, .indirectIndexed, 8, false⟩,
  ⟨.nop, .zeroPageX, 4, false⟩,
  ⟨.sbc, .zeroPageX, 4, true⟩,
  ⟨.inc, .zeroPageX, 6, true⟩,
  ⟨.isc, .zeroPageX, 6, false⟩,
  -- $F8
  ⟨.sed, .implied, 2, true⟩,
  ⟨.sbc, .absoluteY, 4, true⟩,
  ⟨.nop, .implied, 2, false⟩,
  ⟨.isc, .absoluteY, 7, false⟩,
  ⟨.nop, .absoluteX, 4, false⟩,
  ⟨.sbc, .absoluteX, 4, true⟩,
  ⟨.inc, .absoluteX, 7, true⟩,
  ⟨.isc, .absoluteX, 7, false⟩
]

set_option maxRecDepth 4096 in
/-- There is a row for every byte, so no opcode is without a meaning. -/
theorem table_size : table.size = 256 := by decide +kernel

/-- The row of an opcode byte. -/
def ofByte (byte : UInt8) : Opcode :=
  have hIndex : byte.toNat < table.size := table_size ▸ byte.toNat_lt
  table[byte.toNat]

/-- What holds of every row of the table holds of every opcode. -/
theorem forall_ofByte {property : Opcode → Prop} (h : ∀ opcode ∈ table.toList, property opcode)
    (byte : UInt8) : property (ofByte byte) :=
  h _ (Array.getElem_mem_toList _)

theorem documented_rows :
    (table.toList.filter fun opcode => opcode.documented).length = documentedCount := by
  decide +kernel

theorem size_pos (opcode : Opcode) : 0 < opcode.size := by
  simp only [size]
  omega

theorem size_le_three (opcode : Opcode) : opcode.size ≤ 3 := by
  have hOperand := opcode.mode.operandBytes_le_two
  simp only [size]
  omega

end Opcode

end Mos6510
