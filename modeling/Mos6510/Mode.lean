/-!
Addressing modes: how an instruction names its operand. A mode fixes how many bytes follow the
opcode; where the operand then lies is the subject of `Mos6510.EffectiveAddress`.
-/

namespace Mos6510

/-- The thirteen ways to name an operand. -/
inductive Mode where
  | implied
  | accumulator
  | immediate
  | zeroPage
  | zeroPageX
  | zeroPageY
  | absolute
  | absoluteX
  | absoluteY
  | indirect
  | indexedIndirect
  | indirectIndexed
  | relative
  deriving DecidableEq, Repr

/-- The number of bytes that follow the opcode. -/
def Mode.operandBytes : Mode → Nat
  | .implied | .accumulator => 0
  | .absolute | .absoluteX | .absoluteY | .indirect => 2
  | _ => 1

theorem Mode.operandBytes_le_two (mode : Mode) : mode.operandBytes ≤ 2 := by
  cases mode <;> decide

end Mos6510
