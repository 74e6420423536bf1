/-!
Addresses of the 64 KiB space. An address is a page number and an offset within the page, one byte
each; arithmetic on addresses wraps at the end of the space. The lemmas read every operation off in
`Nat`, so that later arguments about wrapping and page boundaries are linear arithmetic.
-/

namespace Mos6510

/-- A place in the 64 KiB address space. -/
abbrev Address := UInt16

namespace Address

/-- The offset of an address within its page: its low byte. -/
def low (address : Address) : UInt8 := address.toUInt8

/-- The page that an address lies in: its high byte. -/
def page (address : Address) : UInt8 := (address / 256).toUInt8

/-- The address with the given low and high byte, in the order in which memory holds them. -/
def ofBytes (low high : UInt8) : Address := high.toUInt16 * 256 + low.toUInt16

def zeroPage (offset : UInt8) : Address := ofBytes offset 0

/-- The address that a stack pointer denotes. The stack is page one. -/
def stack (pointer : UInt8) : Address := ofBytes pointer 1

/-- The distance that the operand of a branch denotes: a byte in two's complement, so that adding
the result moves an address forward by up to 127 or back by up to 128. -/
def displacement (operand : UInt8) : Address :=
  if operand < 0x80 then operand.toUInt16 else operand.toUInt16 + 0xFF00

@[simp] theorem toNat_low (address : Address) : address.low.toNat = address.toNat % 256 := by
  simp [low]

@[simp] theorem toNat_page (address : Address) : address.page.toNat = address.toNat / 256 := by
  have hBound := address.toNat_lt
  simp [page]
  omega

@[simp] theorem toNat_ofBytes (low high : UInt8) :
    (ofBytes low high).toNat = high.toNat * 256 + low.toNat := by
  have hLow := low.toNat_lt
  have hHigh := high.toNat_lt
  simp [ofBytes]
  omega

/-- A byte is determined by its value. -/
theorem byte_ext {a b : UInt8} (h : a.toNat = b.toNat) : a = b := UInt8.toNat_inj.mp h

/-- An address is determined by its value. -/
theorem ext {a b : Address} (h : a.toNat = b.toNat) : a = b := UInt16.toNat_inj.mp h

@[simp] theorem low_ofBytes (low high : UInt8) : (ofBytes low high).low = low := by
  have hLow := low.toNat_lt
  apply byte_ext
  rw [toNat_low, toNat_ofBytes]
  omega

@[simp] theorem page_ofBytes (low high : UInt8) : (ofBytes low high).page = high := by
  have hLow := low.toNat_lt
  apply byte_ext
  rw [toNat_page, toNat_ofBytes]
  omega

/-- An address is made of its low byte and its page, so a pointer that is stored byte by byte can be
read back. -/
@[simp] theorem ofBytes_low_page (address : Address) :
    ofBytes address.low address.page = address := by
  apply ext
  rw [toNat_ofBytes, toNat_low, toNat_page]
  omega

end Address

end Mos6510
