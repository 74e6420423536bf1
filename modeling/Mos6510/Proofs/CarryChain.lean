import Mathlib.Data.List.Induction
import Mathlib.Data.Nat.Digits.Defs
import Mathlib.Tactic.LinearCombination
import Mos6510.Proofs.RegisterFrame
import Mos6510.Ram

/-!
Numbers of many bytes. A program adds or subtracts them byte by byte, the lowest byte first, and the
carry goes from one byte to the next. Whether the bytes are binary or hold decimal digits, the adder
is exact on one of them: the result and the carry out account for the operands and the carry in. Main
statement: then it is exact on numbers of any length.
-/

namespace Mos6510

/-- The operations that take the carry in and put it out. -/
inductive CarryOperation where
  | add
  | subtract
  deriving DecidableEq

namespace CarryOperation

def mnemonic : CarryOperation → Mnemonic
  | add => .adc
  | subtract => .sbc

/-- What the operation leaves in the accumulator and the flags. -/
def outcome : CarryOperation → UInt8 → UInt8 → Flags → Outcome
  | add => Arithmetic.add
  | subtract => Arithmetic.subtract

/-- What a carry counts: one more in a sum if it is set, one less in a difference if it is clear. -/
def weight : CarryOperation → Bool → Int
  | add, carry => carry.toNat
  | subtract, carry => -(!carry).toNat

/-- The exact sum with the carry, or the exact difference less the borrow. -/
def exactResult (operation : CarryOperation) (first second : Int) (carry : Bool) : Int :=
  match operation with
  | add => first + second + carry.toNat
  | subtract => first - second - (!carry).toNat

/-- The carry out of a number with `modulus` values is to be set: the sum does not fit, or nothing has
to be borrowed for the difference. -/
def Carries (operation : CarryOperation) (modulus result : Int) : Prop :=
  match operation with
  | add => modulus ≤ result
  | subtract => 0 ≤ result

instance (operation : CarryOperation) (modulus result : Int) :
    Decidable (operation.Carries modulus result) :=
  match operation with
  | add => inferInstanceAs (Decidable (modulus ≤ result))
  | subtract => inferInstanceAs (Decidable (0 ≤ result))

/-- A number and a carry that account for an exact result are its remainder and the carry that is due. -/
theorem eq_emod_and_carry_iff {operation : CarryOperation} {modulus number result : Int} {carry : Bool}
    (hNonneg : 0 ≤ number) (hBound : number < modulus)
    (h : number + modulus * operation.weight carry = result) :
    number = result % modulus ∧ (carry = true ↔ operation.Carries modulus result) := by
  refine ⟨?_, ?_⟩
  · rw [← h, Int.add_mul_emod_self_left, Int.emod_eq_of_lt hNonneg hBound]
  · cases operation <;> cases carry <;> simp [weight] at h <;> simp [Carries] <;> omega

end CarryOperation

/-- A way to read bytes as the digits of a number, chosen by the decimal flag, in which the adder is
exact on single bytes. -/
structure Numerals where
  decimal : Bool
  base : Nat
  digit : UInt8 → Nat
  /-- The bytes that stand for digits. -/
  IsDigit : UInt8 → Prop
  one_lt_base : 1 < base
  digit_lt : ∀ {byte}, IsDigit byte → digit byte < base
  isDigit_outcome : ∀ (operation : CarryOperation) {a operand : UInt8} {flags : Flags},
    flags.decimal = decimal → IsDigit a → IsDigit operand →
      IsDigit (operation.outcome a operand flags).value
  outcome_exact : ∀ (operation : CarryOperation) {a operand : UInt8} {flags : Flags},
    flags.decimal = decimal → IsDigit a → IsDigit operand →
      (digit (operation.outcome a operand flags).value : Int) +
          base * operation.weight (operation.outcome a operand flags).flags.carry =
        operation.exactResult (digit a) (digit operand) flags.carry

namespace Numerals

variable (numerals : Numerals)

/-- The number that bytes stand for, the lowest first. -/
def value (bytes : List UInt8) : Nat := Nat.ofDigits numerals.base (bytes.map numerals.digit)

@[simp] theorem value_nil : numerals.value [] = 0 := rfl

/-- Numbers grow at the high end: a byte that is appended counts for all the places below it. -/
theorem value_append_singleton (bytes : List UInt8) (byte : UInt8) :
    numerals.value (bytes ++ [byte]) =
      numerals.value bytes + numerals.base ^ bytes.length * numerals.digit byte := by
  simp [value, Nat.ofDigits_append]

/-- A number with so many places is less than the power of the base. -/
theorem value_lt {bytes : List UInt8} (h : ∀ byte ∈ bytes, numerals.IsDigit byte) :
    numerals.value bytes < numerals.base ^ bytes.length := by
  have hDigits : ∀ digit ∈ bytes.map numerals.digit, digit < numerals.base := by
    intro digit hDigit
    obtain ⟨byte, hByte, rfl⟩ := List.mem_map.mp hDigit
    exact numerals.digit_lt (h byte hByte)
  simpa [value] using Nat.ofDigits_lt_base_pow_length numerals.one_lt_base hDigits

end Numerals

namespace Processor

variable {β : Type} [Bus β] {processor : Processor β}

/-- A load takes its operand as it is and leaves the carry for the operation that follows. -/
theorem execute_of_load (h : processor.opcode.mnemonic = .lda) :
    processor.execute.registers.a = processor.operand ∧
      processor.execute.registers.flags = processor.registers.flags.observe processor.operand := by
  rw [registers_execute_of_read Registers.loadA (by rw [h]; rfl)]
  exact ⟨rfl, rfl⟩

/-- An operation of a chain, in whatever mode its operand is given, computes with the accumulator,
the operand and the flags that it finds. -/
theorem execute_of_carryOperation {operation : CarryOperation}
    (h : processor.opcode.mnemonic = operation.mnemonic) :
    processor.execute.registers.a = (operation.outcome processor.registers.a processor.operand
        processor.registers.flags).value ∧
      processor.execute.registers.flags = (operation.outcome processor.registers.a
        processor.operand processor.registers.flags).flags := by
  cases operation with
  | add =>
      rw [registers_execute_of_read Registers.add (by rw [h]; rfl)]
      exact ⟨rfl, rfl⟩
  | subtract =>
      rw [registers_execute_of_read Registers.subtract (by rw [h]; rfl)]
      exact ⟨rfl, rfl⟩

end Processor

/-- No operation changes the number system that it computes in. -/
theorem CarryOperation.decimal_outcome (operation : CarryOperation) (a operand : UInt8)
    (flags : Flags) : (operation.outcome a operand flags).flags.decimal = flags.decimal := by
  cases operation with
  | add => exact Arithmetic.sameExcept_add a operand flags .decimal (by decide)
  | subtract => exact Arithmetic.sameExcept_subtract a operand flags .decimal (by decide)

variable {β : Type}

/-- What happens between the instructions of a chain leaves the carry and the decimal flag alone. -/
def KeepsCarry (before after : Processor β) : Prop :=
  after.registers.flags.carry = before.registers.flags.carry ∧
    after.registers.flags.decimal = before.registers.flags.decimal

theorem KeepsCarry.refl (processor : Processor β) : KeepsCarry processor processor := ⟨rfl, rfl⟩

variable [Bus β]

/-- A number is added to another, or subtracted from it, byte by byte, the lowest byte first: each byte
of the first is loaded into the accumulator, and the operation is applied with the byte of the second.
The lists hold the bytes loaded, the bytes applied and what the accumulator held afterwards. -/
inductive CarryChain (operation : CarryOperation) (start : Processor β) :
    List UInt8 → List UInt8 → List UInt8 → Processor β → Prop where
  | start : CarryChain operation start [] [] [] start
  | byte {firsts seconds results : List UInt8} {before loading operating : Processor β}
      (prior : CarryChain operation start firsts seconds results before)
      (hBefore : KeepsCarry before loading)
      (hLoad : loading.opcode.mnemonic = .lda)
      (hBetween : KeepsCarry loading.execute operating)
      (hLoaded : operating.registers.a = loading.execute.registers.a)
      (hOperate : operating.opcode.mnemonic = operation.mnemonic) :
      CarryChain operation start (firsts ++ [loading.operand]) (seconds ++ [operating.operand])
        (results ++ [operating.execute.registers.a]) operating.execute

/-- One link of a chain, seen from the processor that the chain has reached before. -/
theorem execute_of_link {operation : CarryOperation} {before loading operating : Processor β}
    (hBefore : KeepsCarry before loading) (hLoad : loading.opcode.mnemonic = .lda)
    (hBetween : KeepsCarry loading.execute operating)
    (hLoaded : operating.registers.a = loading.execute.registers.a)
    (hOperate : operating.opcode.mnemonic = operation.mnemonic) :
    ∃ flags : Flags, flags.carry = before.registers.flags.carry ∧
      flags.decimal = before.registers.flags.decimal ∧
      operating.execute.registers.a =
        (operation.outcome loading.operand operating.operand flags).value ∧
      operating.execute.registers.flags =
        (operation.outcome loading.operand operating.operand flags).flags := by
  obtain ⟨hA, hFlags⟩ := Processor.execute_of_load hLoad
  obtain ⟨hValue, hOut⟩ := Processor.execute_of_carryOperation hOperate
  rw [hLoaded, hA] at hValue hOut
  refine ⟨operating.registers.flags, ?_, ?_, hValue, hOut⟩
  · rw [hBetween.1, hFlags, ← hBefore.1]
    rfl
  · rw [hBetween.2, hFlags, ← hBefore.2]
    rfl

namespace CarryChain

variable {operation : CarryOperation} {start after : Processor β}
  {firsts seconds results : List UInt8}

theorem length_eq (chain : CarryChain operation start firsts seconds results after) :
    seconds.length = firsts.length ∧ results.length = firsts.length := by
  induction chain with
  | start => exact ⟨rfl, rfl⟩
  | byte _ _ _ _ _ _ ih =>
      simp only [List.length_append, List.length_singleton, ih.1, ih.2, and_self]

/-- The number system of a chain is chosen before its first byte. -/
theorem decimal_eq (chain : CarryChain operation start firsts seconds results after) :
    after.registers.flags.decimal = start.registers.flags.decimal := by
  induction chain with
  | start => rfl
  | byte _ hBefore hLoad hBetween hLoaded hOperate ih =>
      obtain ⟨flags, _, hDecimal, _, hOut⟩ :=
        execute_of_link hBefore hLoad hBetween hLoaded hOperate
      rw [hOut, operation.decimal_outcome, hDecimal, ih]

/-- The result so far and the carry account for what has been read and the carry at the start. -/
theorem accounts (numerals : Numerals)
    (chain : CarryChain operation start firsts seconds results after)
    (hDecimal : start.registers.flags.decimal = numerals.decimal)
    (hFirsts : ∀ byte ∈ firsts, numerals.IsDigit byte)
    (hSeconds : ∀ byte ∈ seconds, numerals.IsDigit byte) :
    (∀ byte ∈ results, numerals.IsDigit byte) ∧
      (numerals.value results : Int) + (numerals.base : Int) ^ firsts.length *
          operation.weight after.registers.flags.carry =
        operation.exactResult (numerals.value firsts) (numerals.value seconds)
          start.registers.flags.carry := by
  induction chain with
  | start => cases operation <;> simp [CarryOperation.weight, CarryOperation.exactResult]
  | @byte firsts seconds results before loading operating prior hBefore hLoad hBetween hLoaded
      hOperate ih =>
      rw [List.forall_mem_append, List.forall_mem_singleton] at hFirsts hSeconds
      obtain ⟨hDigits, hPrior⟩ := ih hFirsts.1 hSeconds.1
      obtain ⟨flags, hCarry, hKept, hValue, hOut⟩ :=
        execute_of_link hBefore hLoad hBetween hLoaded hOperate
      have hFlags : flags.decimal = numerals.decimal := by rw [hKept, prior.decimal_eq, hDecimal]
      have hDigit := numerals.isDigit_outcome operation hFlags hFirsts.2 hSeconds.2
      have hExact := numerals.outcome_exact operation hFlags hFirsts.2 hSeconds.2
      rw [← hValue] at hDigit
      rw [← hValue, ← hOut, hCarry] at hExact
      obtain ⟨hLength, hLength'⟩ := prior.length_eq
      refine ⟨List.forall_mem_append.mpr ⟨hDigits, List.forall_mem_singleton.mpr hDigit⟩, ?_⟩
      simp only [numerals.value_append_singleton, hLength, hLength', List.length_append,
        List.length_singleton, pow_succ]
      push_cast
      cases operation <;> simp only [CarryOperation.weight, CarryOperation.exactResult] at hPrior hExact ⊢ <;>
        linear_combination hPrior + (numerals.base : Int) ^ firsts.length * hExact

/-- In numerals in which the adder is exact on single bytes, it is exact on numbers of any length: the
result is what remains of the exact result, and the carry tells whether it did not fit. -/
theorem value_and_carry (numerals : Numerals)
    (chain : CarryChain operation start firsts seconds results after)
    (hDecimal : start.registers.flags.decimal = numerals.decimal)
    (hFirsts : ∀ byte ∈ firsts, numerals.IsDigit byte)
    (hSeconds : ∀ byte ∈ seconds, numerals.IsDigit byte) :
    (numerals.value results : Int) =
        operation.exactResult (numerals.value firsts) (numerals.value seconds)
          start.registers.flags.carry % (numerals.base : Int) ^ firsts.length ∧
      (after.registers.flags.carry = true ↔
        operation.Carries ((numerals.base : Int) ^ firsts.length)
          (operation.exactResult (numerals.value firsts) (numerals.value seconds)
            start.registers.flags.carry)) := by
  obtain ⟨hDigits, hAccounts⟩ := chain.accounts numerals hDecimal hFirsts hSeconds
  have hBound := numerals.value_lt hDigits
  rw [chain.length_eq.2] at hBound
  exact CarryOperation.eq_emod_and_carry_iff (Int.natCast_nonneg _) (by exact_mod_cast hBound)
    hAccounts

end CarryChain

namespace Processor

/-- The processor with an instruction of two bytes put at its program counter. -/
def withInstruction (processor : Processor Ram) (opcode operand : UInt8) : Processor Ram :=
  { processor with
    bus := (processor.bus.write (processor.registers.pc + 1) operand).write processor.registers.pc
      opcode }

variable (processor : Processor Ram) {byte operand : UInt8}

theorem opcode_withInstruction :
    (processor.withInstruction byte operand).opcode = Opcode.ofByte byte := by
  rw [opcode, opcodeByte, read]
  exact congrArg Opcode.ofByte (Ram.read_write_self ..)

theorem operand_withInstruction (h : (Opcode.ofByte byte).mode = .immediate) :
    (processor.withInstruction byte operand).operand = operand := by
  have hNext : processor.registers.pc + 1 ≠ processor.registers.pc := by simp
  rw [Processor.operand, opcode_withInstruction, h]
  exact (Ram.read_write_of_ne _ _ hNext).trans (Ram.read_write_self ..)

end Processor

def CarryOperation.immediate : CarryOperation → UInt8
  | add => 0x69
  | subtract => 0xE9

/-- Any two numbers of one length have a chain: each instruction can be put in place when its turn
comes. -/
theorem CarryChain.exists_of_length_eq (operation : CarryOperation) (start : Processor Ram)
    {firsts seconds : List UInt8} (h : seconds.length = firsts.length) :
    ∃ results after, CarryChain operation start firsts seconds results after := by
  induction firsts using List.reverseRecOn generalizing seconds with
  | nil =>
      rw [List.length_eq_zero_iff.mp h]
      exact ⟨[], start, .start⟩
  | append_singleton firsts first ih =>
      obtain rfl | ⟨seconds, second, rfl⟩ := seconds.eq_nil_or_concat
      · simp at h
      · obtain ⟨results, before, prior⟩ := @ih seconds (by simpa using h)
        let loading := before.withInstruction 0xA9 first
        let operating := loading.execute.withInstruction operation.immediate second
        have hLoad : loading.opcode.mnemonic = .lda := by
          rw [before.opcode_withInstruction]
          rfl
        have hOperate : operating.opcode.mnemonic = operation.mnemonic := by
          rw [loading.execute.opcode_withInstruction]
          cases operation <;> rfl
        have hFirst : loading.operand = first := before.operand_withInstruction rfl
        have hSecond : operating.operand = second :=
          loading.execute.operand_withInstruction (by cases operation <;> rfl)
        have hBefore : KeepsCarry before loading := ⟨rfl, rfl⟩
        have hBetween : KeepsCarry loading.execute operating := ⟨rfl, rfl⟩
        have chain := prior.byte hBefore hLoad hBetween rfl hOperate
        rw [hFirst, hSecond] at chain
        rw [List.concat_eq_append]
        exact ⟨_, _, chain⟩

end Mos6510
