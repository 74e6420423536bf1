import Mos6510.EffectiveAddress
import Mos6510.Hexadecimal

/-!
Assembly notation for operands. Bytes and addresses are hexadecimal behind a dollar sign, `#` marks
an immediate operand, `A` the accumulator, and parentheses an indirection. A branch shows where it
leads. A byte that is not there is shown as two question marks.
-/

namespace Mos6510.Assembly

/-- The first operand byte, or two question marks. -/
def operandByte : List UInt8 → List Char
  | [] => ['?', '?']
  | value :: _ => Hexadecimal.byte value

/-- The first two operand bytes as an address, or four question marks. -/
def operandWord : List UInt8 → List Char
  | low :: high :: _ => Hexadecimal.address (Address.ofBytes low high)
  | _ => ['?', '?', '?', '?']

/-- Where a branch at `address` leads, or four question marks. -/
def branchTarget (address : Address) : List UInt8 → List Char
  | [] => ['?', '?', '?', '?']
  | value :: _ => Hexadecimal.address (address + 2 + Address.displacement value)

/-- The operand of an instruction at `address`. An instruction without an operand shows nothing. -/
def operand (mode : Mode) (bytes : List UInt8) (address : Address) : List Char :=
  match mode with
  | .implied => []
  | .accumulator => ['A']
  | .immediate => '#' :: '$' :: operandByte bytes
  | .zeroPage => '$' :: operandByte bytes
  | .zeroPageX => '$' :: operandByte bytes ++ [',', 'X']
  | .zeroPageY => '$' :: operandByte bytes ++ [',', 'Y']
  | .absolute => '$' :: operandWord bytes
  | .absoluteX => '$' :: operandWord bytes ++ [',', 'X']
  | .absoluteY => '$' :: operandWord bytes ++ [',', 'Y']
  | .indirect => '(' :: '$' :: operandWord bytes ++ [')']
  | .indexedIndirect => '(' :: '$' :: operandByte bytes ++ [',', 'X', ')']
  | .indirectIndexed => '(' :: '$' :: operandByte bytes ++ [')', ',', 'Y']
  | .relative => '$' :: branchTarget address bytes

/-- An operation and its operand, with a space between them if there is an operand. -/
def join (operation operand : List Char) : List Char :=
  match operand with
  | [] => operation
  | _ => operation ++ ' ' :: operand

end Mos6510.Assembly
