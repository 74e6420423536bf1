import Mos6510.Ram

/-!
The stack as memory. The cells of the stack are counted from where the stack pointer once stood: the
byte that is pushed on top of `depth` others goes to the cell of that depth. Cells wrap within page
one, and those of depths below 256 are distinct. Main statement: bytes that are pushed lie on top of
those that were held before, as long as there are no more than 256 together, and no other byte of
memory changes.
-/

namespace Mos6510

namespace Address

/-- Where the stack pointer points after a number of bytes has been pushed. -/
def stackCell (base : UInt8) (depth : Nat) : Address := stack (base - UInt8.ofNat depth)

/-- The stack has 256 cells, one for each stack pointer. -/
theorem stack_inj {first second : UInt8} (h : stack first = stack second) : first = second := by
  rw [← low_ofBytes first 1, ← low_ofBytes second 1]
  exact congrArg low h

/-- Depths add up: cells can be counted from where the pointer stands now. -/
theorem stackCell_sub (base : UInt8) (depth more : Nat) :
    stackCell (base - UInt8.ofNat depth) more = stackCell base (depth + more) := by
  rw [stackCell, stackCell, UInt8.ofNat_add]
  congr 1
  grind

/-- To go up again from some depth leads to the cell that was there. -/
theorem stack_sub_add (base : UInt8) (depth count : Nat) :
    stack (base - UInt8.ofNat (depth + count) + UInt8.ofNat count) = stackCell base depth := by
  rw [stackCell, UInt8.ofNat_add]
  congr 1
  grind

/-- Cells of depths below 256 are distinct. -/
theorem stackCell_inj {base : UInt8} {first second : Nat} (hFirst : first < 256)
    (hSecond : second < 256) (h : stackCell base first = stackCell base second) :
    first = second := by
  have hOffsets : UInt8.ofNat first = UInt8.ofNat second := by
    have hPointers := stack_inj h
    grind
  have hValues := congrArg UInt8.toNat hOffsets
  rwa [UInt8.toNat_ofNat_of_lt' hFirst, UInt8.toNat_ofNat_of_lt' hSecond] at hValues

end Address

namespace Ram

open Address

/-- The memory after bytes have been pushed from the last of the list to the first. -/
def pushAll (ram : Ram) (pointer : UInt8) : List UInt8 → Ram
  | [] => ram
  | byte :: earlier => (ram.pushAll pointer earlier).write (stackCell pointer earlier.length) byte

/-- The bytes pushed since the stack pointer stood at `base` are those of the list, the latest
first. -/
def Holds (ram : Ram) (base : UInt8) : List UInt8 → Prop
  | [] => True
  | byte :: earlier => ram.read (stackCell base earlier.length) = byte ∧ ram.Holds base earlier

variable {ram : Ram} {base : UInt8}

theorem Holds.of_append {later earlier : List UInt8} (h : ram.Holds base (later ++ earlier)) :
    ram.Holds base earlier := by
  induction later with
  | nil => exact h
  | cons byte later ih => exact ih h.2

theorem Holds.congr {other : Ram} {bytes : List UInt8} (h : ram.Holds base bytes)
    (hCells : ∀ depth < bytes.length,
      other.read (stackCell base depth) = ram.read (stackCell base depth)) :
    other.Holds base bytes := by
  induction bytes with
  | nil => trivial
  | cons byte earlier ih =>
      obtain ⟨hTop, hRest⟩ := h
      refine ⟨?_, ih hRest fun depth hDepth => hCells depth (Nat.lt_succ_of_lt hDepth)⟩
      rw [hCells earlier.length (Nat.lt_succ_self _), hTop]

/-- A byte that is pushed lies on top of those that are held. -/
theorem Holds.write {bytes : List UInt8} (h : ram.Holds base bytes) (hRoom : bytes.length < 256)
    (byte : UInt8) :
    (ram.write (stackCell base bytes.length) byte).Holds base (byte :: bytes) := by
  refine ⟨ram.read_write_self _ _, h.congr fun depth hDepth => ?_⟩
  apply read_write_of_ne
  intro hCell
  have hEq := stackCell_inj (by omega) hRoom hCell
  omega

/-- Bytes that are pushed lie on those that were held, if there is room for all. They do not reach
the lowest of them from the other side. -/
theorem Holds.pushAll {bytes : List UInt8} (h : ram.Holds base bytes) (more : List UInt8)
    (hRoom : more.length + bytes.length ≤ 256) :
    (ram.pushAll (base - UInt8.ofNat bytes.length) more).Holds base (more ++ bytes) := by
  induction more with
  | nil => exact h
  | cons byte earlier ih =>
      rw [List.length_cons] at hRoom
      have hHeld := ih (by omega)
      have hCell : stackCell (base - UInt8.ofNat bytes.length) earlier.length =
          stackCell base (earlier ++ bytes).length := by
        rw [stackCell_sub, List.length_append, Nat.add_comm]
      rw [Ram.pushAll, hCell]
      exact hHeld.write (by rw [List.length_append]; omega) byte

/-- The byte that lies below some others on the stack is the one after as many, counted from where
the stack pointer points. -/
theorem Holds.read_above {first below : List UInt8} {byte : UInt8}
    (h : ram.Holds base (first ++ byte :: below)) :
    ram.read (stack (base - UInt8.ofNat (first ++ byte :: below).length +
      UInt8.ofNat (first.length + 1))) = byte := by
  have hLength : (first ++ byte :: below).length = below.length + (first.length + 1) := by
    rw [List.length_append, List.length_cons]
    omega
  rw [hLength, stack_sub_add]
  exact h.of_append.1

/-- Bytes that are pushed change their own cells only. -/
theorem read_pushAll_of_ne {pointer : UInt8} {bytes : List UInt8} {address : Address}
    (h : ∀ depth < bytes.length, address ≠ stackCell pointer depth) :
    (ram.pushAll pointer bytes).read address = ram.read address := by
  induction bytes with
  | nil => rfl
  | cons byte earlier ih =>
      rw [Ram.pushAll, read_write_of_ne _ _ (h earlier.length (Nat.lt_succ_self _))]
      exact ih fun depth hDepth => h depth (Nat.lt_succ_of_lt hDepth)

end Ram

end Mos6510
