import Mathlib.Tactic.Linarith
import Mathlib.Tactic.Positivity
import Mos6510.Proofs.CarryChain
import Mos6510.Ram

/-!
Binary numbers of many bytes. With the decimal flag clear the adder is exact on single bytes, so a
chain of additions or subtractions is exact on numbers of any length. The overflow flag speaks of the
last byte alone; because the bytes below it contribute less than one of its units, that is enough.
Main statement: after a chain, result, carry and overflow are those of the whole number.
-/

namespace Mos6510

namespace Arithmetic

variable (a operand : UInt8) (flags : Flags)

/-- The byte and the carry out are together the whole sum. -/
theorem toNat_addBinary :
    (addBinary a operand flags).value.toNat + 256 * (addBinary a operand flags).flags.carry.toNat =
      a.toNat + operand.toNat + flags.carry.toNat := by
  have hA := a.toNat_lt
  have hOperand := operand.toNat_lt
  have hCarry := flags.carry.toNat_le
  simp only [addBinary, UInt8.toNat_ofNat']
  by_cases h : 255 < a.toNat + operand.toNat + flags.carry.toNat
  · rw [decide_eq_true h, Bool.toNat_true]
    omega
  · rw [decide_eq_false h, Bool.toNat_false]
    omega

/-- The byte is the whole difference if what had to be borrowed for it is paid back. -/
theorem toNat_subtractBinary :
    (subtractBinary a operand flags).value.toNat + operand.toNat + (!flags.carry).toNat =
      a.toNat + 256 * (!(subtractBinary a operand flags).flags.carry).toNat := by
  have hA := a.toNat_lt
  have hOperand := operand.toNat_lt
  have hBorrow := (!flags.carry).toNat_le
  simp only [subtractBinary, UInt8.toNat_ofNat']
  by_cases h : operand.toNat + (!flags.carry).toNat ≤ a.toNat
  · rw [decide_eq_true h, Bool.not_true, Bool.toNat_false]
    omega
  · rw [decide_eq_false h, Bool.not_false, Bool.toNat_true]
    omega

/-- The number that a byte is in two's complement. -/
def signedByte (byte : UInt8) : Int := if isNegative byte then byte.toNat - 256 else byte.toNat

theorem isNegative_eq (byte : UInt8) : isNegative byte = decide (128 ≤ byte.toNat) := rfl

/-- Overflow is set if the sum of the signed bytes and the carry is not a signed byte. -/
theorem overflow_addBinary :
    (addBinary a operand flags).flags.overflow = true ↔
      ¬(-128 ≤ signedByte a + signedByte operand + flags.carry.toNat ∧
        signedByte a + signedByte operand + flags.carry.toNat ≤ 127) := by
  have hA := a.toNat_lt
  have hOperand := operand.toNat_lt
  have hCarry := flags.carry.toNat_le
  simp only [addBinary, sumOverflows, signedByte, isNegative_eq, UInt8.toNat_ofNat']
  by_cases h : 128 ≤ a.toNat <;> by_cases h' : 128 ≤ operand.toNat <;> simp [h, h'] <;> omega

/-- Overflow is set if the difference of the signed bytes, less the borrow, is not a signed byte. -/
theorem overflow_subtractBinary :
    (subtractBinary a operand flags).flags.overflow = true ↔
      ¬(-128 ≤ signedByte a - signedByte operand - (!flags.carry).toNat ∧
        signedByte a - signedByte operand - (!flags.carry).toNat ≤ 127) := by
  have hA := a.toNat_lt
  have hOperand := operand.toNat_lt
  have hBorrow := (!flags.carry).toNat_le
  simp only [subtractBinary, differenceOverflows, signedByte, isNegative_eq, UInt8.toNat_ofNat']
  by_cases h : 128 ≤ a.toNat <;> by_cases h' : 128 ≤ operand.toNat <;> simp [h, h'] <;> omega

end Arithmetic

namespace CarryOperation

variable {a operand : UInt8} {flags : Flags}

theorem outcome_add_of_binary (h : flags.decimal = false) :
    add.outcome a operand flags = Arithmetic.addBinary a operand flags := by
  simp [outcome, Arithmetic.add, h]

theorem outcome_subtract_of_binary (h : flags.decimal = false) :
    subtract.outcome a operand flags = Arithmetic.subtractBinary a operand flags := by
  simp [outcome, Arithmetic.subtract, h]

/-- Both operations are exact on one byte: the carry out weighs what is missing in the byte. -/
theorem toNat_outcome_of_binary (operation : CarryOperation) (h : flags.decimal = false) :
    ((operation.outcome a operand flags).value.toNat : Int) +
        256 * operation.weight (operation.outcome a operand flags).flags.carry =
      operation.exactResult a.toNat operand.toNat flags.carry := by
  cases operation with
  | add =>
      have hSum := Arithmetic.toNat_addBinary a operand flags
      rw [outcome_add_of_binary h, weight, exactResult]
      omega
  | subtract =>
      have hDifference := Arithmetic.toNat_subtractBinary a operand flags
      rw [outcome_subtract_of_binary h, weight, exactResult]
      omega

theorem overflow_outcome_of_binary (operation : CarryOperation) (h : flags.decimal = false) :
    (operation.outcome a operand flags).flags.overflow = true ↔
      ¬(-128 ≤ operation.exactResult (Arithmetic.signedByte a) (Arithmetic.signedByte operand)
          flags.carry ∧
        operation.exactResult (Arithmetic.signedByte a) (Arithmetic.signedByte operand)
          flags.carry ≤ 127) := by
  cases operation with
  | add =>
      rw [outcome_add_of_binary h]
      exact Arithmetic.overflow_addBinary a operand flags
  | subtract =>
      rw [outcome_subtract_of_binary h]
      exact Arithmetic.overflow_subtractBinary a operand flags

end CarryOperation

/-- Bytes as digits to the base 256. -/
def binary : Numerals where
  decimal := false
  base := 256
  digit := UInt8.toNat
  IsDigit _ := True
  one_lt_base := by decide
  digit_lt _ := UInt8.toNat_lt _
  isDigit_outcome _ _ _ _ _ _ _ := trivial
  outcome_exact operation _ _ _ h _ _ := operation.toNat_outcome_of_binary h

/-- The number that bytes, the lowest first, are in two's complement. -/
def signedValue (bytes : List UInt8) : Int :=
  if 2 * binary.value bytes < 256 ^ bytes.length then binary.value bytes
  else binary.value bytes - 256 ^ bytes.length

/-- A number has a place among those that so many bytes hold in two's complement. -/
def FitsSigned (length : Nat) (number : Int) : Prop :=
  -256 ^ length ≤ 2 * number ∧ 2 * number < 256 ^ length

instance (length : Nat) (number : Int) : Decidable (FitsSigned length number) :=
  inferInstanceAs (Decidable (_ ∧ _))

/-- The sign is that of the last byte. -/
theorem signedValue_append_singleton (bytes : List UInt8) (byte : UInt8) :
    signedValue (bytes ++ [byte]) =
      binary.value bytes + 256 ^ bytes.length * Arithmetic.signedByte byte := by
  have hBound : binary.value bytes < 256 ^ bytes.length := binary.value_lt fun _ _ => trivial
  have hByte := byte.toNat_lt
  have hValue : binary.value (bytes ++ [byte]) =
      binary.value bytes + 256 ^ bytes.length * byte.toNat :=
    binary.value_append_singleton bytes byte
  rw [signedValue, hValue, Arithmetic.signedByte, Arithmetic.isNegative_eq, List.length_append,
    List.length_singleton, pow_succ]
  by_cases h : 128 ≤ byte.toNat
  · have hHigh := Nat.mul_le_mul_left (256 ^ bytes.length) h
    rw [if_neg (by omega), if_pos (decide_eq_true h)]
    push_cast
    ring
  · have hHigh := Nat.mul_le_mul_left (256 ^ bytes.length) (show byte.toNat ≤ 127 by omega)
    rw [if_pos (by omega), if_neg (by simpa using h)]
    push_cast
    ring

/-- Only the highest byte, with what is carried into it, decides whether a number fits. -/
theorem fitsSigned_succ_iff {length : Nat} {low high : Int} (hNonneg : 0 ≤ low)
    (hBound : low < 256 ^ length) :
    FitsSigned (length + 1) (low + 256 ^ length * high) ↔ -128 ≤ high ∧ high ≤ 127 := by
  rw [FitsSigned, pow_succ]
  have hScale : ∀ {least most : Int}, least ≤ most → 256 ^ length * least ≤ 256 ^ length * most :=
    fun h => mul_le_mul_of_nonneg_left h (by positivity)
  refine ⟨fun ⟨hLeast, hMost⟩ => ⟨?_, ?_⟩, fun ⟨hLeast, hMost⟩ => ⟨?_, ?_⟩⟩
  · by_contra h
    have := hScale (show high ≤ -129 by omega)
    linarith
  · by_contra h
    have := hScale (show 128 ≤ high by omega)
    linarith
  · have := hScale hLeast
    linarith
  · have := hScale hMost
    linarith

namespace CarryChain

variable {β : Type} [Bus β] {operation : CarryOperation} {start after : Processor β}
  {firsts seconds results : List UInt8}

/-- The flag that the last byte leaves speaks of the whole number, since the bytes below it add less
than one unit to the last. -/
theorem overflow_iff (chain : CarryChain operation start firsts seconds results after)
    (hBinary : start.registers.flags.decimal = false) (hNonempty : firsts ≠ []) :
    after.registers.flags.overflow = true ↔
      ¬FitsSigned firsts.length (operation.exactResult (signedValue firsts) (signedValue seconds)
        start.registers.flags.carry) := by
  cases chain with
  | start => exact (hNonempty rfl).elim
  | @byte firsts seconds results before loading operating prior hBefore hLoad hBetween hLoaded
      hOperate =>
      obtain ⟨flags, hCarry, hKept, _, hOut⟩ :=
        execute_of_link hBefore hLoad hBetween hLoaded hOperate
      have hFlags : flags.decimal = false := by rw [hKept, prior.decimal_eq, hBinary]
      obtain ⟨_, hAccounts⟩ := prior.accounts binary hBinary (fun _ _ => trivial)
        (fun _ _ => trivial)
      obtain ⟨hLength, hLength'⟩ := prior.length_eq
      have hBound : binary.value results < 256 ^ results.length :=
        binary.value_lt fun _ _ => trivial
      rw [hLength'] at hBound
      -- the bytes below the last one reach it only through the carry
      have hSplit : operation.exactResult (signedValue (firsts ++ [loading.operand]))
          (signedValue (seconds ++ [operating.operand])) start.registers.flags.carry =
          binary.value results + 256 ^ firsts.length *
            operation.exactResult (Arithmetic.signedByte loading.operand)
              (Arithmetic.signedByte operating.operand) flags.carry := by
        rw [← hCarry] at hAccounts
        rw [signedValue_append_singleton, signedValue_append_singleton, hLength]
        change (binary.value results : Int) + 256 ^ firsts.length * _ = _ at hAccounts
        cases operation <;>
          simp only [CarryOperation.weight, CarryOperation.exactResult] at hAccounts ⊢ <;>
          linear_combination -hAccounts
      rw [hOut, operation.overflow_outcome_of_binary hFlags, hSplit, List.length_append,
        List.length_singleton, fitsSigned_succ_iff (Int.natCast_nonneg _) (by exact_mod_cast hBound)]

/-- After a chain of binary additions or subtractions the results are the remainder of the exact sum or
difference, the carry tells whether the sum did not fit or nothing had to be borrowed, and the overflow
flag tells whether the signed result does not fit. -/
theorem binary_chain_exact (chain : CarryChain operation start firsts seconds results after)
    (hBinary : start.registers.flags.decimal = false) :
    results.length = firsts.length ∧
    (binary.value results : Int) =
      operation.exactResult (binary.value firsts) (binary.value seconds)
        start.registers.flags.carry % 256 ^ firsts.length ∧
    (after.registers.flags.carry = true ↔
      operation.Carries (256 ^ firsts.length)
        (operation.exactResult (binary.value firsts) (binary.value seconds)
          start.registers.flags.carry)) ∧
    (firsts ≠ [] →
      (after.registers.flags.overflow = true ↔
        ¬FitsSigned firsts.length
          (operation.exactResult (signedValue firsts) (signedValue seconds)
            start.registers.flags.carry))) := by
  obtain ⟨hValue, hCarry⟩ := chain.value_and_carry binary hBinary (fun _ _ => trivial)
    (fun _ _ => trivial)
  exact ⟨chain.length_eq.2, hValue, hCarry, chain.overflow_iff hBinary⟩

/-- The sum of $7FFF and $0001. The low byte is stored before the high byte is loaded. -/
def longSum : Processor Ram where
  registers := Registers.powerOn 0x8000
  lines := .released
  jammed := false
  cycles := 0
  bus := Ram.zero.writeRun 0x8000 [0xA9, 0xFF, 0x69, 0x01, 0x85, 0x20, 0xA9, 0x7F, 0x69, 0x00]

/-- The carry goes from byte to byte and not out of the last, while the signed sum does not fit. -/
theorem binary_chain_exact_of_overflow :
    ∃ results after, CarryChain .add longSum [0xFF, 0x7F] [0x01, 0x00] results after ∧
      binary.value results = 0x8000 ∧ after.registers.flags.carry = false ∧
      after.registers.flags.overflow = true := by
  let second := longSum.execute.execute.execute
  have hStored : KeepsCarry longSum.execute.execute second :=
    ⟨by decide +kernel, by decide +kernel⟩
  have low := CarryChain.start.byte (.refl longSum) (by decide +kernel) (.refl _) rfl
    (show longSum.execute.opcode.mnemonic = CarryOperation.add.mnemonic by decide +kernel)
  have both := low.byte hStored (by decide +kernel) (.refl _) rfl
    (show second.execute.opcode.mnemonic = CarryOperation.add.mnemonic by decide +kernel)
  obtain ⟨hFirsts, hSeconds⟩ : (longSum.operand = 0xFF ∧ second.operand = 0x7F) ∧
      longSum.execute.operand = 0x01 ∧ second.execute.operand = 0x00 := by decide +kernel
  rw [hFirsts.1, hFirsts.2, hSeconds.1, hSeconds.2] at both
  obtain ⟨_, hValue, hCarry, hOverflow⟩ := both.binary_chain_exact rfl
  refine ⟨_, _, both, ?_, ?_, ?_⟩
  · exact Int.ofNat_inj.mp (hValue.trans (by decide))
  · rw [Bool.eq_false_iff, ne_eq, hCarry]
    decide
  · rw [hOverflow (by decide)]
    decide

end CarryChain

end Mos6510
