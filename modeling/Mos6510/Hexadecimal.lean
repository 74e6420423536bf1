import Mos6510.Address

/-!
Hexadecimal text of fixed width: two upper-case digits for a byte, four for an address, which may
also be cut down to two. Reading accepts either case. Main statement: the bytes that are written are
the bytes that are read back.
-/

namespace Mos6510.Hexadecimal

/-- The digit that stands for a number below sixteen; larger numbers have none and give `?`. -/
def digit : Nat → Char
  | 0 => '0' | 1 => '1' | 2 => '2' | 3 => '3' | 4 => '4' | 5 => '5' | 6 => '6' | 7 => '7'
  | 8 => '8' | 9 => '9' | 10 => 'A' | 11 => 'B' | 12 => 'C' | 13 => 'D' | 14 => 'E' | 15 => 'F'
  | _ => '?'

/-- The two digits of a byte. -/
def byte (value : UInt8) : List Char :=
  [digit (value.toNat / 16), digit (value.toNat % 16)]

/-- The four digits of an address. -/
def address (value : Address) : List Char := byte value.page ++ byte value.low

/-- The digits of an address without leading zeros, but at least two. -/
def short (value : Address) : List Char :=
  if value.page = 0 then byte value.low
  else if value.page < 16 then digit value.page.toNat :: byte value.low
  else address value

/-- The digits of a run of bytes, without a separator. -/
def bytes (values : List UInt8) : List Char := values.flatMap byte

/-- The digits of a run of bytes, with a space between one byte and the next. -/
def spaced : List UInt8 → List Char
  | [] => []
  | [value] => byte value
  | value :: rest => byte value ++ ' ' :: spaced rest

/-- The number below sixteen that a digit of either case stands for. -/
def value? (c : Char) : Option Nat :=
  if '0' ≤ c ∧ c ≤ '9' then some (c.toNat - '0'.toNat)
  else if 'A' ≤ c ∧ c ≤ 'F' then some (c.toNat - 'A'.toNat + 10)
  else if 'a' ≤ c ∧ c ≤ 'f' then some (c.toNat - 'a'.toNat + 10)
  else none

/-- The bytes that a text of digit pairs stands for; `none` if a digit is missing or is no digit. -/
def read? : List Char → Option (List UInt8)
  | [] => some []
  | high :: low :: rest => do
    let h ← value? high
    let l ← value? low
    let values ← read? rest
    return UInt8.ofNat (h * 16 + l) :: values
  | [_] => none

/-- A digit has the value that it was written for. -/
theorem value?_digit {n : Nat} (h : n < 16) : value? (digit n) = some n := by
  have hAll : ∀ m : Fin 16, value? (digit m) = some m.val := by decide
  exact hAll ⟨n, h⟩

/-- Bytes survive being written and read back. -/
theorem read?_bytes (values : List UInt8) : read? (bytes values) = some values := by
  induction values with
  | nil => rfl
  | cons value rest ih =>
    have hBound := value.toNat_lt
    have hHigh := value?_digit (show value.toNat / 16 < 16 by omega)
    have hLow := value?_digit (show value.toNat % 16 < 16 by omega)
    have hJoin : UInt8.ofNat (value.toNat / 16 * 16 + value.toNat % 16) = value := by
      rw [show value.toNat / 16 * 16 + value.toNat % 16 = value.toNat by omega]
      exact UInt8.ofNat_toNat
    have hRest : read? (List.flatMap byte rest) = some rest := ih
    simp only [bytes, byte, List.flatMap_cons, List.cons_append, List.nil_append, read?, hHigh,
      hLow, hRest, Option.bind_eq_bind, Option.bind_some, Option.pure_def, hJoin]

end Mos6510.Hexadecimal
