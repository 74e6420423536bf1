import Mos6510.Assembly
import Mos6510.Opcode

/-!
Listings: machine code read as assembly text. A listing splits bytes into records, each of them an
instruction or a single byte of data, and the records cover the bytes from the first to the last.
A byte is data if its opcode is undocumented and such opcodes are not wanted, or if the bytes end
before its operand does.
-/

namespace Mos6510

/-- One line of a listing. -/
structure Record where
  address : Address
  opcode : UInt8
  /-- The spelling of the operation. -/
  operation : List Char
  documented : Bool
  mode : Mode
  operand : List UInt8
  /-- The number of bytes that the record covers. -/
  size : Nat
  cycles : Nat
  deriving DecidableEq, Repr

namespace Record

/-- The spelling that marks a byte of data. -/
def dataSpelling : List Char := ['.', 'b', 'y', 't', 'e']

def data (address : Address) (byte : UInt8) : Record where
  address
  opcode := byte
  operation := dataSpelling
  documented := true
  mode := .implied
  operand := [byte]
  size := 1
  cycles := 0

def isData (record : Record) : Bool := record.operation == dataSpelling

/-- The instruction that the bytes begin with; `none` if they end before it does. -/
def decode? (bytes : List UInt8) (address : Address) : Option Record :=
  match bytes with
  | [] => none
  | byte :: rest =>
    let opcode := Opcode.ofByte byte
    let operand := rest.take opcode.mode.operandBytes
    if operand.length = opcode.mode.operandBytes then
      some {
        address
        opcode := byte
        operation := opcode.mnemonic.letters
        documented := opcode.documented
        mode := opcode.mode
        operand
        size := opcode.size
        cycles := opcode.cycles }
    else none

/-- The record at the head of some bytes: the instruction there if it is wanted, else a byte of
data. -/
def head (undocumented : Bool) (byte : UInt8) (rest : List UInt8) (address : Address) : Record :=
  match (decode? (byte :: rest) address).filter fun record => record.documented || undocumented with
  | some record => record
  | none => data address byte

/-- The text of a record. A star marks an undocumented operation. -/
def text (record : Record) : List Char :=
  if record.isData then
    Assembly.join dataSpelling ('$' :: Hexadecimal.byte record.opcode)
  else
    (if record.documented then [] else ['*']) ++
      Assembly.join record.operation (Assembly.operand record.mode record.operand record.address)

end Record

/-- Lists bytes of which the first `covered` belong to a record already listed. -/
def Listing.from (undocumented : Bool) : (covered : Nat) → List UInt8 → Address → List Record
  | _, [], _ => []
  | covered + 1, _ :: rest, address => Listing.from undocumented covered rest (address + 1)
  | 0, byte :: rest, address =>
    let record := Record.head undocumented byte rest address
    record :: Listing.from undocumented (record.size - 1) rest (address + 1)

/-- The records of some bytes, the first of which lies at the given address. Undocumented opcodes
are data unless they are wanted. -/
def listing (undocumented : Bool) (bytes : List UInt8) (start : Address) : List Record :=
  Listing.from undocumented 0 bytes start

/-- The first `count` records of some bytes, found without looking at the bytes behind them. -/
def Listing.first (undocumented : Bool) : (count : Nat) → List UInt8 → Address → List Record
  | 0, _, _ => []
  | _ + 1, [], _ => []
  | count + 1, byte :: rest, address =>
    let record := Record.head undocumented byte rest address
    record :: Listing.first undocumented count (rest.drop (record.size - 1))
      (address + UInt16.ofNat record.size)

end Mos6510
