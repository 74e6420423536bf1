import Mos6510.Bus
import Mos6510.Hexadecimal

/-!
Random-access memory: 65536 bytes, all zero at first. The bytes are the leaves of a complete binary
tree of depth sixteen, chosen by the bits of the address from the lowest up, so that an old memory
stays available after a write and two memories are equal as soon as they agree at every address.
Main statements: a byte reads back as it was last written, and other bytes stay.
-/

namespace Mos6510

/-- A complete binary tree of bytes with the given depth. The lowest bit of an index chooses
between the two branches of a node. -/
inductive Cells : Nat → Type where
  | leaf (value : UInt8) : Cells 0
  | node {depth : Nat} (even odd : Cells depth) : Cells (depth + 1)

namespace Cells

def fill (value : UInt8) : (depth : Nat) → Cells depth
  | 0 => leaf value
  | depth + 1 =>
    let branch := fill value depth
    node branch branch

/-- The byte at an index; bits of the index above the depth do not matter. -/
def read {depth : Nat} : Cells depth → Nat → UInt8
  | leaf value, _ => value
  | node even odd, index =>
    if index % 2 = 0 then even.read (index / 2) else odd.read (index / 2)

/-- The tree with the byte at an index replaced. -/
def write {depth : Nat} : Cells depth → Nat → UInt8 → Cells depth
  | leaf _, _, value => leaf value
  | node even odd, index, value =>
    if index % 2 = 0 then node (even.write (index / 2) value) odd
    else node even (odd.write (index / 2) value)

/-- How many bytes a tree of the given depth has. -/
def width : Nat → Nat
  | 0 => 1
  | depth + 1 => 2 * width depth

/-- A tree of depth sixteen has a leaf for every address. -/
theorem width_sixteen : width 16 = UInt16.size := by decide

theorem read_fill (value : UInt8) (depth index : Nat) : (fill value depth).read index = value := by
  induction depth generalizing index with
  | zero => rfl
  | succ depth ih => simp [fill, read, ih]

theorem read_write_self {depth : Nat} (cells : Cells depth) (index : Nat) (value : UInt8) :
    (cells.write index value).read index = value := by
  induction cells generalizing index with
  | leaf => rfl
  | node even odd hEven hOdd => by_cases h : index % 2 = 0 <;> simp [write, read, h, hEven, hOdd]

theorem read_write_of_ne {depth : Nat} (cells : Cells depth) {index other : Nat} (value : UInt8)
    (h : other % width depth ≠ index % width depth) :
    (cells.write index value).read other = cells.read other := by
  induction cells generalizing index other with
  | leaf => simp [width, Nat.mod_one] at h
  | @node depth even odd hEven hOdd =>
    have hSplit (n : Nat) : n % width (depth + 1) = 2 * (n / 2 % width depth) + n % 2 := by
      rw [width, Nat.mod_mul]
      omega
    rw [hSplit, hSplit] at h
    by_cases hIndex : index % 2 = 0 <;> by_cases hOther : other % 2 = 0 <;>
      simp only [write, read, hIndex, hOther, if_true, if_false]
    · exact hEven (by omega)
    · exact hOdd (by omega)

/-- Trees that agree at every index of their depth are equal. -/
theorem ext {depth : Nat} {first second : Cells depth}
    (h : ∀ index, index < width depth → first.read index = second.read index) :
    first = second := by
  induction first with
  | leaf value =>
    cases second with
    | leaf other => rw [show value = other from h 0 (by decide)]
  | @node depth even odd hEven hOdd =>
    cases second with
    | node even' odd' =>
      have hE : even = even' := hEven fun index hIndex => by
        have hAt := h (2 * index) (by rw [width]; omega)
        simpa [read] using hAt
      have hO : odd = odd' := hOdd fun index hIndex => by
        have hAt := h (2 * index + 1) (by rw [width]; omega)
        have hDiv : (2 * index + 1) / 2 = index := by omega
        simpa [read, hDiv] using hAt
      rw [hE, hO]

end Cells

/-- The 64 KiB memory. -/
structure Ram where
  cells : Cells 16

namespace Ram

def zero : Ram := ⟨Cells.fill 0 16⟩

def read (ram : Ram) (address : Address) : UInt8 := ram.cells.read address.toNat

def write (ram : Ram) (address : Address) (value : UInt8) : Ram :=
  ⟨ram.cells.write address.toNat value⟩

instance : Bus Ram where
  read := read
  write := write

/-- An image was to be loaded at an address from which it would run past the last one. -/
structure LoadError where
  address : Address
  length : Nat
  deriving DecidableEq, Repr

/-- What a refused load is reported as. -/
def LoadError.message (error : LoadError) : String :=
  toString error.length ++ " byte image at $" ++ String.ofList (Hexadecimal.address error.address)
    ++ " runs past the end of the address space"

/-- Writes bytes to consecutive addresses, wrapping after the last one. -/
def writeRun (ram : Ram) (address : Address) : List UInt8 → Ram
  | [] => ram
  | value :: rest => (ram.write address value).writeRun (address + 1) rest

/-- Copies an image into memory. An image that would run past the last address is refused, and then
nothing is written. -/
def load (ram : Ram) (address : Address) (image : List UInt8) : Except LoadError Ram :=
  if address.toNat + image.length > 65536 then .error ⟨address, image.length⟩
  else .ok (ram.writeRun address image)

/-- Stores a target address, low byte first, at a vector. -/
def setVector (ram : Ram) (vector target : Address) : Ram :=
  (ram.write vector target.low).write (vector + 1) target.page

/-- The bytes other than zero from the first address to the last one, in ascending order. -/
def nonzero (ram : Ram) (first last : Address) : List Write :=
  (List.range' first.toNat (last.toNat + 1 - first.toNat)).filterMap fun index =>
    let address := UInt16.ofNat index
    if ram.read address = 0 then none else some ⟨address, ram.read address⟩

@[simp] theorem read_zero (address : Address) : zero.read address = 0 :=
  Cells.read_fill 0 16 address.toNat

@[simp] theorem read_write_self (ram : Ram) (address : Address) (value : UInt8) :
    (ram.write address value).read address = value :=
  Cells.read_write_self ram.cells address.toNat value

/-- A write reaches no other address than its own. -/
theorem read_write_of_ne (ram : Ram) {address other : Address} (value : UInt8)
    (h : other ≠ address) : (ram.write address value).read other = ram.read other := by
  apply Cells.read_write_of_ne
  rw [Cells.width_sixteen, Nat.mod_eq_of_lt other.toNat_lt, Nat.mod_eq_of_lt address.toNat_lt]
  exact fun hValue => h (Address.ext hValue)

/-- A byte is the one last written to its address, or what was there before. -/
theorem read_write (ram : Ram) (address other : Address) (value : UInt8) :
    (ram.write address value).read other = if other = address then value else ram.read other := by
  split
  · next h => rw [h, read_write_self]
  · next h => exact ram.read_write_of_ne value h

/-- Memories that agree at every address are equal. -/
theorem ext {first second : Ram} (h : ∀ address, first.read address = second.read address) :
    first = second := by
  obtain ⟨cells⟩ := first
  obtain ⟨others⟩ := second
  congr 1
  refine Cells.ext fun index hIndex => ?_
  rw [Cells.width_sixteen] at hIndex
  have hAt := h (UInt16.ofNat index)
  have hNat : (UInt16.ofNat index).toNat = index := UInt16.toNat_ofNat_of_lt' hIndex
  simpa only [read, hNat] using hAt

end Ram

end Mos6510
