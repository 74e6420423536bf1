/-!
Mnemonics: one per distinct operation. An undocumented opcode that repeats a documented operation
shares its mnemonic. The spelling of a mnemonic is three capital letters, and no two mnemonics are
spelled alike.
-/

namespace Mos6510

/-- The operations of the processor. Those that its makers document come first, by their kind: loads and
stores, transfers, the stack, arithmetic and logic, counting, shifts, jumps, branches and flags. -/
inductive Mnemonic where
  | lda | ldx | ldy | sta | stx | sty
  | tax | tay | txa | tya | tsx | txs
  | pha | php | pla | plp
  | adc | sbc | and | ora | eor | cmp | cpx | cpy | bit
  | inc | dec | inx | iny | dex | dey
  | asl | lsr | rol | ror
  | jmp | jsr | rts | rti | brk | nop
  | bcc | bcs | beq | bne | bmi | bpl | bvc | bvs
  | clc | sec | cli | sei | cld | sed | clv
  /-- Masks A and copies its sign to the carry. -/
  | anc
  /-- Masks A and shifts it right. -/
  | alr
  /-- Masks A and rotates it right, with flags of its own. -/
  | arr
  /-- Subtracts from A masked by X, into X. -/
  | sbx
  /-- Loads A and X. -/
  | lax
  /-- Stores A masked by X. -/
  | sax
  /-- Decrements memory and compares the result with A. -/
  | dcp
  /-- Increments memory and subtracts the result from A. -/
  | isc
  /-- Shifts memory left and sets bits of A. -/
  | slo
  /-- Shifts memory right and flips bits of A. -/
  | sre
  /-- Rotates memory left and masks A. -/
  | rla
  /-- Rotates memory right and adds the result to A. -/
  | rra
  /-- Masks the stack pointer and copies it to A and X. -/
  | las
  /-- Sets the stack pointer to A masked by X and stores it masked. -/
  | tas
  /-- Sets A to X masked by A and the operand. -/
  | xaa
  /-- Masks A and copies it to X. -/
  | lxa
  /-- Stores A masked by X and by the page. -/
  | sha
  /-- Stores X masked by the page. -/
  | shx
  /-- Stores Y masked by the page. -/
  | shy
  /-- Halts the processor. -/
  | jam
  deriving DecidableEq, Repr

namespace Mnemonic

/-- The three letters of a mnemonic. -/
def letters : Mnemonic → List Char
  | .lda => ['L', 'D', 'A']
  | .ldx => ['L', 'D', 'X']
  | .ldy => ['L', 'D', 'Y']
  | .sta => ['S', 'T', 'A']
  | .stx => ['S', 'T', 'X']
  | .sty => ['S', 'T', 'Y']
  | .tax => ['T', 'A', 'X']
  | .tay => ['T', 'A', 'Y']
  | .txa => ['T', 'X', 'A']
  | .tya => ['T', 'Y', 'A']
  | .tsx => ['T', 'S', 'X']
  | .txs => ['T', 'X', 'S']
  | .pha => ['P', 'H', 'A']
  | .php => ['P', 'H', 'P']
  | .pla => ['P', 'L', 'A']
  | .plp => ['P', 'L', 'P']
  | .adc => ['A', 'D', 'C']
  | .sbc => ['S', 'B', 'C']
  | .and => ['A', 'N', 'D']
  | .ora => ['O', 'R', 'A']
  | .eor => ['E', 'O', 'R']
  | .cmp => ['C', 'M', 'P']
  | .cpx => ['C', 'P', 'X']
  | .cpy => ['C', 'P', 'Y']
  | .bit => ['B', 'I', 'T']
  | .inc => ['I', 'N', 'C']
  | .dec => ['D', 'E', 'C']
  | .inx => ['I', 'N', 'X']
  | .iny => ['I', 'N', 'Y']
  | .dex => ['D', 'E', 'X']
  | .dey => ['D', 'E', 'Y']
  | .asl => ['A', 'S', 'L']
  | .lsr => ['L', 'S', 'R']
  | .rol => ['R', 'O', 'L']
  | .ror => ['R', 'O', 'R']
  | .jmp => ['J', 'M', 'P']
  | .jsr => ['J', 'S', 'R']
  | .rts => ['R', 'T', 'S']
  | .rti => ['R', 'T', 'I']
  | .brk => ['B', 'R', 'K']
  | .nop => ['N', 'O', 'P']
  | .bcc => ['B', 'C', 'C']
  | .bcs => ['B', 'C', 'S']
  | .beq => ['B', 'E', 'Q']
  | .bne => ['B', 'N', 'E']
  | .bmi => ['B', 'M', 'I']
  | .bpl => ['B', 'P', 'L']
  | .bvc => ['B', 'V', 'C']
  | .bvs => ['B', 'V', 'S']
  | .clc => ['C', 'L', 'C']
  | .sec => ['S', 'E', 'C']
  | .cli => ['C', 'L', 'I']
  | .sei => ['S', 'E', 'I']
  | .cld => ['C', 'L', 'D']
  | .sed => ['S', 'E', 'D']
  | .clv => ['C', 'L', 'V']
  | .anc => ['A', 'N', 'C']
  | .alr => ['A', 'L', 'R']
  | .arr => ['A', 'R', 'R']
  | .sbx => ['S', 'B', 'X']
  | .lax => ['L', 'A', 'X']
  | .sax => ['S', 'A', 'X']
  | .dcp => ['D', 'C', 'P']
  | .isc => ['I', 'S', 'C']
  | .slo => ['S', 'L', 'O']
  | .sre => ['S', 'R', 'E']
  | .rla => ['R', 'L', 'A']
  | .rra => ['R', 'R', 'A']
  | .las => ['L', 'A', 'S']
  | .tas => ['T', 'A', 'S']
  | .xaa => ['X', 'A', 'A']
  | .lxa => ['L', 'X', 'A']
  | .sha => ['S', 'H', 'A']
  | .shx => ['S', 'H', 'X']
  | .shy => ['S', 'H', 'Y']
  | .jam => ['J', 'A', 'M']

def name (mnemonic : Mnemonic) : String := String.ofList mnemonic.letters

/-- Whether silicon disagrees with itself about the result, which then depends on analog effects.
Such an operation has one fixed result here. -/
def isUnstable : Mnemonic → Bool
  | .xaa | .lxa | .las | .tas | .sha | .shx | .shy => true
  | _ => false

def all : List Mnemonic :=
  [.lda, .ldx, .ldy, .sta, .stx, .sty, .tax, .tay, .txa, .tya, .tsx, .txs, .pha, .php, .pla,
   .plp, .adc, .sbc, .and, .ora, .eor, .cmp, .cpx, .cpy, .bit, .inc, .dec, .inx, .iny, .dex,
   .dey, .asl, .lsr, .rol, .ror, .jmp, .jsr, .rts, .rti, .brk, .nop, .bcc, .bcs, .beq, .bne,
   .bmi, .bpl, .bvc, .bvs, .clc, .sec, .cli, .sei, .cld, .sed, .clv, .anc, .alr, .arr, .sbx,
   .lax, .sax, .dcp, .isc, .slo, .sre, .rla, .rra, .las, .tas, .xaa, .lxa, .sha, .shx, .shy, .jam]

/-- Mnemonics have three letters, which is what columns of text rely on. -/
theorem letters_length (mnemonic : Mnemonic) : mnemonic.letters.length = 3 := by
  cases mnemonic <;> rfl

/-- The mnemonic with the given spelling. -/
def ofLetters? (letters : List Char) : Option Mnemonic :=
  all.find? fun mnemonic => mnemonic.letters == letters

/-- No two mnemonics are spelled alike, so each can be found again from its letters. -/
theorem ofLetters?_letters (mnemonic : Mnemonic) : ofLetters? mnemonic.letters = some mnemonic := by
  cases mnemonic <;> decide

end Mnemonic

end Mos6510
