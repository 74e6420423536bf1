import Mos6510.Proofs.CarryChain

/-!
Decimal numbers of many bytes. With the decimal flag set a byte counts as two digits. The correction
by six makes the adder exact on each of them, and so on a byte. A difference takes its carry from the
binary difference, which borrows exactly when the decimal one does. Main statement: after a chain of
decimal additions or subtractions, result and carry are those of the whole number.
-/

namespace Mos6510

namespace Arithmetic

variable {first second high low : Nat}

/-- The sum of two digits is a digit again, and with its carry it is exact. -/
theorem addDigits_exact (hFirst : first ≤ 9) (hSecond : second ≤ 9) (carry : Bool) :
    (addDigits first second carry).1 ≤ 9 ∧
      (addDigits first second carry).1 + 10 * (addDigits first second carry).2.toNat =
        first + second + carry.toNat := by
  have hCarry := carry.toNat_le
  by_cases h : 9 < first + second + carry.toNat
  · simp only [addDigits, h, if_true, Bool.toNat_true]
    omega
  · simp only [addDigits, h, if_false, Bool.toNat_false]
    omega

/-- The difference of two digits is a digit again, and with its borrow it is exact. -/
theorem subtractDigits_exact (hFirst : first ≤ 9) (hSecond : second ≤ 9) (borrow : Bool) :
    (subtractDigits first second borrow).1 ≤ 9 ∧
      (subtractDigits first second borrow).1 + second + borrow.toNat =
        first + 10 * (subtractDigits first second borrow).2.toNat := by
  have hBorrow := borrow.toNat_le
  by_cases h : first < second + borrow.toNat
  · simp only [subtractDigits, h, if_true, Bool.toNat_true]
    omega
  · simp only [subtractDigits, h, if_false, Bool.toNat_false]
    omega

theorem borrow_subtractDigits (first second : Nat) (borrow : Bool) :
    (subtractDigits first second borrow).2 = decide (first < second + borrow.toNat) := by
  by_cases h : first < second + borrow.toNat <;> simp [subtractDigits, h]

/-- Two digits that are decimal fit into a byte side by side. -/
theorem toNat_ofDigits (hHigh : high ≤ 9) (hLow : low ≤ 9) :
    (ofDigits high low).toNat = high * 16 + low := by
  rw [ofDigits, UInt8.toNat_ofNat']
  omega

theorem lowDigit_ofDigits (hHigh : high ≤ 9) (hLow : low ≤ 9) :
    lowDigit (ofDigits high low) = low := by
  rw [lowDigit, toNat_ofDigits hHigh hLow]
  omega

theorem highDigit_ofDigits (hHigh : high ≤ 9) (hLow : low ≤ 9) :
    highDigit (ofDigits high low) = high := by
  rw [highDigit, toNat_ofDigits hHigh hLow]
  omega

/-- A byte holds two decimal digits. -/
def IsDecimal (byte : UInt8) : Prop := highDigit byte ≤ 9 ∧ lowDigit byte ≤ 9

instance (byte : UInt8) : Decidable (IsDecimal byte) := inferInstanceAs (Decidable (_ ∧ _))

/-- The number that the two digits of a byte stand for. -/
def decimalByte (byte : UInt8) : Nat := 10 * highDigit byte + lowDigit byte

theorem isDecimal_ofDigits (hHigh : high ≤ 9) (hLow : low ≤ 9) : IsDecimal (ofDigits high low) :=
  ⟨(highDigit_ofDigits hHigh hLow).trans_le hHigh, (lowDigit_ofDigits hHigh hLow).trans_le hLow⟩

theorem decimalByte_ofDigits (hHigh : high ≤ 9) (hLow : low ≤ 9) :
    decimalByte (ofDigits high low) = 10 * high + low := by
  rw [decimalByte, highDigit_ofDigits hHigh hLow, lowDigit_ofDigits hHigh hLow]

variable {a operand : UInt8}

/-- With decimal operands the sum has decimal digits and is exact: the carry stands for a
hundred. -/
theorem addDecimal_exact (hA : IsDecimal a) (hOperand : IsDecimal operand) (flags : Flags) :
    IsDecimal (addDecimal a operand flags).value ∧
      decimalByte (addDecimal a operand flags).value +
          100 * (addDecimal a operand flags).flags.carry.toNat =
        decimalByte a + decimalByte operand + flags.carry.toNat := by
  obtain ⟨hLow, hLowSum⟩ := addDigits_exact hA.2 hOperand.2 flags.carry
  obtain ⟨hHigh, hHighSum⟩ := addDigits_exact hA.1 hOperand.1
    (addDigits (lowDigit a) (lowDigit operand) flags.carry).2
  refine ⟨isDecimal_ofDigits hHigh hLow, ?_⟩
  simp only [addDecimal, decimalByte_ofDigits hHigh hLow]
  unfold decimalByte
  omega

/-- The higher digits of two bytes borrow exactly when the binary difference does. -/
theorem carry_subtractBinary (a operand : UInt8) (flags : Flags) :
    (!(subtractBinary a operand flags).flags.carry) =
      (subtractDigits (highDigit a) (highDigit operand)
        (subtractDigits (lowDigit a) (lowDigit operand) (!flags.carry)).2).2 := by
  have hBorrow := (!flags.carry).toNat_le
  rw [borrow_subtractDigits, borrow_subtractDigits]
  simp only [subtractBinary, ← decide_not, highDigit, lowDigit]
  by_cases h : a.toNat % 16 < operand.toNat % 16 + (!flags.carry).toNat <;> simp [h] <;> omega

/-- With decimal operands the difference has decimal digits and is exact: what is borrowed for it is
a hundred. -/
theorem subtractDecimal_exact (hA : IsDecimal a) (hOperand : IsDecimal operand) (flags : Flags) :
    IsDecimal (subtractDecimal a operand flags).value ∧
      decimalByte (subtractDecimal a operand flags).value + decimalByte operand +
          (!flags.carry).toNat =
        decimalByte a + 100 * (!(subtractDecimal a operand flags).flags.carry).toNat := by
  obtain ⟨hLow, hLowDifference⟩ := subtractDigits_exact hA.2 hOperand.2 !flags.carry
  obtain ⟨hHigh, hHighDifference⟩ := subtractDigits_exact hA.1 hOperand.1
    (subtractDigits (lowDigit a) (lowDigit operand) (!flags.carry)).2
  refine ⟨isDecimal_ofDigits hHigh hLow, ?_⟩
  simp only [subtractDecimal, decimalByte_ofDigits hHigh hLow, carry_subtractBinary]
  unfold decimalByte
  omega

end Arithmetic

namespace CarryOperation

variable {a operand : UInt8} {flags : Flags}

/-- Both operations are exact on a byte of two decimal digits, and give such a byte again. -/
theorem outcome_of_decimal (operation : CarryOperation) (h : flags.decimal = true)
    (hA : Arithmetic.IsDecimal a) (hOperand : Arithmetic.IsDecimal operand) :
    Arithmetic.IsDecimal (operation.outcome a operand flags).value ∧
      (Arithmetic.decimalByte (operation.outcome a operand flags).value : Int) +
          100 * operation.weight (operation.outcome a operand flags).flags.carry =
        operation.exactResult (Arithmetic.decimalByte a) (Arithmetic.decimalByte operand)
          flags.carry := by
  cases operation with
  | add =>
      obtain ⟨hDecimal, hSum⟩ := Arithmetic.addDecimal_exact hA hOperand flags
      rw [outcome, Arithmetic.add, if_pos h, weight, exactResult]
      exact ⟨hDecimal, by omega⟩
  | subtract =>
      obtain ⟨hDecimal, hDifference⟩ :=
        Arithmetic.subtractDecimal_exact hA hOperand flags
      rw [outcome, Arithmetic.subtract, if_pos h, weight, exactResult]
      exact ⟨hDecimal, by omega⟩

end CarryOperation

/-- Bytes of two decimal digits as digits to the base 100. -/
def packedDecimal : Numerals where
  decimal := true
  base := 100
  digit := Arithmetic.decimalByte
  IsDigit := Arithmetic.IsDecimal
  one_lt_base := by decide
  digit_lt h := by
    obtain ⟨hHigh, hLow⟩ := h
    unfold Arithmetic.decimalByte
    omega
  isDigit_outcome operation _ _ _ h hA hOperand := (operation.outcome_of_decimal h hA hOperand).1
  outcome_exact operation _ _ _ h hA hOperand := (operation.outcome_of_decimal h hA hOperand).2

namespace CarryChain

variable {β : Type} [Bus β] {operation : CarryOperation} {start after : Processor β}
  {firsts seconds results : List UInt8}

/-- After a chain of decimal additions or subtractions the results are decimal again and are the
remainder of the exact sum or difference. The carry tells whether the sum did not fit or nothing had
to be borrowed. -/
theorem decimal_chain_exact (chain : CarryChain operation start firsts seconds results after)
    (hDecimal : start.registers.flags.decimal = true)
    (hFirsts : ∀ byte ∈ firsts, Arithmetic.IsDecimal byte)
    (hSeconds : ∀ byte ∈ seconds, Arithmetic.IsDecimal byte) :
    results.length = firsts.length ∧
    (∀ byte ∈ results, Arithmetic.IsDecimal byte) ∧
    (packedDecimal.value results : Int) =
      operation.exactResult (packedDecimal.value firsts) (packedDecimal.value seconds)
        start.registers.flags.carry % 100 ^ firsts.length ∧
    (after.registers.flags.carry = true ↔
      operation.Carries (100 ^ firsts.length)
        (operation.exactResult (packedDecimal.value firsts) (packedDecimal.value seconds)
          start.registers.flags.carry)) := by
  obtain ⟨hResults, _⟩ := chain.accounts packedDecimal hDecimal hFirsts hSeconds
  exact ⟨chain.length_eq.2, hResults,
    chain.value_and_carry packedDecimal hDecimal hFirsts hSeconds⟩

/-- The difference of 1000 and 1, with the decimal flag and the carry set. -/
def longDifference : Processor Ram where
  registers := { Registers.powerOn 0x8000 with
    flags := { Flags.powerOn with decimal := true, carry := true } }
  lines := .released
  jammed := false
  cycles := 0
  bus := Ram.zero.writeRun 0x8000 [0xA9, 0x00, 0xE9, 0x01, 0x85, 0x20, 0xA9, 0x10, 0xE9, 0x00]

/-- The borrow goes through both digits of the low byte and ends in the high byte. -/
theorem decimal_chain_exact_of_borrow :
    ∃ results after, CarryChain .subtract longDifference [0x00, 0x10] [0x01, 0x00] results after ∧
      packedDecimal.value results = 999 ∧ after.registers.flags.carry = true := by
  let second := longDifference.execute.execute.execute
  have hStored : KeepsCarry longDifference.execute.execute second :=
    ⟨by decide +kernel, by decide +kernel⟩
  have low := CarryChain.start.byte (.refl longDifference) (by decide +kernel) (.refl _) rfl
    (show longDifference.execute.opcode.mnemonic = CarryOperation.subtract.mnemonic
      by decide +kernel)
  have both := low.byte hStored (by decide +kernel) (.refl _) rfl
    (show second.execute.opcode.mnemonic = CarryOperation.subtract.mnemonic by decide +kernel)
  obtain ⟨hFirsts, hSeconds⟩ : (longDifference.operand = 0x00 ∧ second.operand = 0x10) ∧
      longDifference.execute.operand = 0x01 ∧ second.execute.operand = 0x00 := by decide +kernel
  rw [hFirsts.1, hFirsts.2, hSeconds.1, hSeconds.2] at both
  obtain ⟨_, _, hValue, hCarry⟩ := both.decimal_chain_exact rfl (by decide +kernel) (by decide +kernel)
  exact ⟨_, _, both, Int.ofNat_inj.mp (hValue.trans (by decide)), hCarry.mpr (by decide)⟩

end CarryChain

end Mos6510
