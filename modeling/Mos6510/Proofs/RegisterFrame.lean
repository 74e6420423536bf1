import Mos6510.Proofs.SingleStep
import Mos6510.Ram

/-!
What an instruction leaves alone. Every register apart from the program counter, and every flag, has
a list of the operations that may change it. The lists follow from what the operations on registers
touch, taken together along the actions. Main statement: a step that carries out an instruction
changes a register or a flag only if its operation is on the list; it changes neither the interrupt
lines nor the traps nor the trace switch, and it halts the processor only if it is made for that.
-/

namespace Mos6510

/-- The parts of the registers, the program counter apart. -/
inductive Part where
  | a
  | x
  | y
  | sp
  | flag (which : Flag)
  deriving DecidableEq, Repr

namespace Part

/-- The second registers have a part from the first. -/
def Same (part : Part) (first second : Registers) : Prop :=
  match part with
  | .a => second.a = first.a
  | .x => second.x = first.x
  | .y => second.y = first.y
  | .sp => second.sp = first.sp
  | .flag which => second.flags.get which = first.flags.get which

def flags : List Part :=
  [.flag .negative, .flag .overflow, .flag .decimal, .flag .interruptDisable, .flag .zero,
   .flag .carry]

def all : List Part := [.a, .x, .y, .sp] ++ flags

theorem mem_flags (which : Flag) : flag which ∈ flags := by
  cases which <;> decide

theorem mem_all (part : Part) : part ∈ all := by
  cases part with
  | flag which => exact List.mem_append_right _ (mem_flags which)
  | _ => decide

/-- The operations that leave sign and zero alone. -/
def resultKeepers : List Mnemonic :=
  [.bcc, .bcs, .beq, .bne, .bmi, .bpl, .bvc, .bvs, .jmp, .jsr, .rts, .brk, .sta, .stx, .sty, .sax,
   .sha, .shx, .shy, .tas, .pha, .php, .txs, .nop, .jam, .clc, .sec, .cli, .sei, .cld, .sed, .clv]

/-- The operations that may change a part, whatever their operand. -/
def writers : Part → List Mnemonic
  | .a =>
    [.lda, .txa, .tya, .pla, .adc, .sbc, .and, .ora, .eor, .anc, .alr, .arr, .lax, .lxa, .las, .xaa,
     .slo, .rla, .sre, .rra, .isc]
  | .x => [.ldx, .tax, .tsx, .inx, .dex, .lax, .lxa, .las, .sbx]
  | .y => [.ldy, .tay, .iny, .dey]
  | .sp => [.txs, .tas, .las, .pha, .php, .pla, .plp, .jsr, .rts, .rti, .brk]
  | .flag .decimal => [.sed, .cld, .plp, .rti]
  | .flag .interruptDisable => [.sei, .cli, .plp, .rti, .brk]
  | .flag .overflow => [.clv, .adc, .sbc, .bit, .arr, .rra, .isc, .plp, .rti]
  | .flag .carry =>
    [.clc, .sec, .adc, .sbc, .cmp, .cpx, .cpy, .asl, .lsr, .rol, .ror, .anc, .alr, .arr, .sbx, .dcp,
     .isc, .slo, .sre, .rla, .rra, .plp, .rti]
  | .flag .negative | .flag .zero =>
    Mnemonic.all.filter fun mnemonic => decide (mnemonic ∉ resultKeepers)

/-- An opcode may change a part: its operation is one that does, or it shifts the accumulator. -/
def MayChange (part : Part) (opcode : Opcode) : Prop :=
  opcode.mnemonic ∈ part.writers ∨
    part = .a ∧ opcode.mnemonic ∈ [.asl, .lsr, .rol, .ror] ∧ opcode.mode = .accumulator

end Part

/-- The parts that an operation may change, whatever its operand. -/
def Mnemonic.targets (mnemonic : Mnemonic) : List Part :=
  Part.all.filter fun part => decide (mnemonic ∈ part.writers)

/-- The list of the parts that an operation changes is the other reading of the lists of those that
change a part. -/
theorem Mnemonic.mem_targets_iff {mnemonic : Mnemonic} {part : Part} :
    part ∈ mnemonic.targets ↔ mnemonic ∈ part.writers := by
  simp [targets, part.mem_all]

/-- The second flags have all but some of their values from the first. -/
def Flags.SameExcept (changed : List Flag) (first second : Flags) : Prop :=
  ∀ flag ∉ changed, second.get flag = first.get flag

namespace Arithmetic

variable (a operand value : UInt8) (flags : Flags)

/-- A sum changes four flags, in either number system. -/
theorem sameExcept_add :
    Flags.SameExcept [.negative, .overflow, .zero, .carry] flags (add a operand flags).flags := by
  intro flag h
  unfold add
  split <;> cases flag <;> simp_all [addDecimal, addBinary, Flags.get, Flags.observe]

theorem sameExcept_subtract :
    Flags.SameExcept [.negative, .overflow, .zero, .carry] flags
      (subtract a operand flags).flags := by
  intro flag h
  unfold subtract
  split <;> cases flag <;> simp_all [subtractDecimal, subtractBinary, Flags.get, Flags.observe]

/-- A comparison leaves overflow alone. -/
theorem sameExcept_compare :
    Flags.SameExcept [.negative, .zero, .carry] flags (compare a operand flags) := by
  intro flag h
  cases flag <;> simp_all [compare, Flags.get, Flags.observe]

theorem sameExcept_shiftLeft (enters : Bool) :
    Flags.SameExcept [.negative, .zero, .carry] flags (shiftLeft enters value flags).flags := by
  intro flag h
  cases flag <;> simp_all [shiftLeft, Flags.get, Flags.observe]

theorem sameExcept_shiftRight (enters : Bool) :
    Flags.SameExcept [.negative, .zero, .carry] flags (shiftRight enters value flags).flags := by
  intro flag h
  cases flag <;> simp_all [shiftRight, Flags.get, Flags.observe]

theorem sameExcept_rotateLeft :
    Flags.SameExcept [.negative, .zero, .carry] flags (rotateLeft value flags).flags :=
  sameExcept_shiftLeft value flags flags.carry

theorem sameExcept_rotateRight :
    Flags.SameExcept [.negative, .zero, .carry] flags (rotateRight value flags).flags :=
  sameExcept_shiftRight value flags flags.carry

/-- An increment observes its result and does not carry. -/
theorem sameExcept_increment :
    Flags.SameExcept [.negative, .zero] flags (increment value flags).flags := by
  intro flag h
  cases flag <;> simp_all [increment, Flags.get, Flags.observe]

theorem sameExcept_decrement :
    Flags.SameExcept [.negative, .zero] flags (decrement value flags).flags := by
  intro flag h
  cases flag <;> simp_all [decrement, Flags.get, Flags.observe]

/-- To count up on the way to a use leaves all flags alone. -/
theorem sameExcept_successor : Flags.SameExcept [] flags (successor value flags).flags :=
  fun _ _ => rfl

/-- To count down does so too. -/
theorem sameExcept_predecessor : Flags.SameExcept [] flags (predecessor value flags).flags :=
  fun _ _ => rfl

/-- A rotation within the adder changes overflow too, which other rotations do not. -/
theorem sameExcept_rotateInAdder :
    Flags.SameExcept [.negative, .overflow, .zero, .carry] flags
      (rotateInAdder value flags).flags := by
  intro flag h
  unfold rotateInAdder
  dsimp only
  split <;> cases flag <;> simp_all [Flags.get, Flags.observe]

end Arithmetic

namespace Flags

/-- To observe a byte changes sign and zero alone. -/
theorem sameExcept_observe (flags : Flags) (value : UInt8) :
    flags.SameExcept [.negative, .zero] (flags.observe value) := by
  intro flag h
  cases flag <;> simp_all [observe, get]

theorem sameExcept_set (flags : Flags) (flag : Flag) (value : Bool) :
    flags.SameExcept [flag] (flags.set flag value) :=
  fun _ h => get_set_of_ne flags value (by simpa using h)

end Flags

namespace Registers

/-- The second registers have all but some of their parts from the first. -/
def SameExcept (changed : List Part) (first second : Registers) : Prop :=
  ∀ part ∉ changed, part.Same first second

namespace SameExcept

variable {changed more : List Part} {first second third : Registers}

theorem refl (registers : Registers) : SameExcept changed registers registers := by
  intro part _
  cases part <;> rfl

theorem mono (h : SameExcept changed first second) (hMore : changed ⊆ more) :
    SameExcept more first second :=
  fun part hPart => h part fun hChanged => hPart (hMore hChanged)

theorem trans (left : SameExcept changed first second) (right : SameExcept changed second third) :
    SameExcept changed first third := by
  intro part hPart
  have hLeft := left part hPart
  have hRight := right part hPart
  cases part <;> exact Eq.trans hRight hLeft

/-- The program counter is not a part that a list would have to name. -/
theorem pc (h : SameExcept changed first second) (pc : Address) :
    SameExcept changed first { second with pc } := by
  intro part hPart
  have hSame := h part hPart
  cases part <;> exact hSame

theorem a (h : SameExcept changed first second) (hA : .a ∈ changed) (a : UInt8) :
    SameExcept changed first { second with a } := by
  intro part hPart
  have hSame := h part hPart
  cases part with
  | a => exact (hPart hA).elim
  | _ => exact hSame

theorem sp (h : SameExcept changed first second) (hPointer : .sp ∈ changed) (sp : UInt8) :
    SameExcept changed first { second with sp } := by
  intro part hPart
  have hSame := h part hPart
  cases part with
  | sp => exact (hPart hPointer).elim
  | _ => exact hSame

end SameExcept

/-- Who changes the flags within a list of flags changes the registers within the same list. -/
theorem sameExcept_of_flags {changed : List Flag} {registers : Registers} {flags : Flags}
    (h : registers.flags.SameExcept changed flags) :
    SameExcept (changed.map .flag) registers { registers with flags } := by
  intro part hPart
  cases part with
  | flag which => exact h which fun hChanged => hPart (List.mem_map_of_mem hChanged)
  | _ => rfl

/-- An outcome that goes to the accumulator changes that and the flags that its operation
changes. -/
theorem sameExcept_acceptA {changed : List Flag} {registers : Registers} (outcome : Outcome)
    (h : registers.flags.SameExcept changed outcome.flags) :
    SameExcept (.a :: changed.map .flag) registers (registers.acceptA outcome) := by
  intro part hPart
  cases part with
  | a => simp at hPart
  | flag which => exact h which fun hChanged => hPart (.tail _ (List.mem_map_of_mem hChanged))
  | _ => rfl

variable (value operand register : UInt8) (registers : Registers)

/-- A load of the accumulator changes it and the two flags that tell of it. -/
theorem sameExcept_loadA :
    SameExcept [.a, .flag .negative, .flag .zero] registers (registers.loadA value) :=
  sameExcept_acceptA ⟨value, _⟩ (registers.flags.sameExcept_observe value)

theorem sameExcept_loadX :
    SameExcept [.x, .flag .negative, .flag .zero] registers (registers.loadX value) := by
  intro part h
  have hFlags := registers.flags.sameExcept_observe value
  cases part with
  | flag which => exact hFlags which (by simpa using h)
  | x => simp at h
  | _ => rfl

theorem sameExcept_loadY :
    SameExcept [.y, .flag .negative, .flag .zero] registers (registers.loadY value) := by
  intro part h
  have hFlags := registers.flags.sameExcept_observe value
  cases part with
  | flag which => exact hFlags which (by simpa using h)
  | y => simp at h
  | _ => rfl

/-- The two registers that are loaded together are loaded with one byte, which is observed once. -/
theorem sameExcept_loadAX :
    SameExcept [.a, .x, .flag .negative, .flag .zero] registers (registers.loadAX value) :=
  ((sameExcept_loadX value registers).mono (by decide)).a (by decide) value

/-- A comparison changes no register. -/
theorem sameExcept_compare :
    SameExcept [.flag .negative, .flag .zero, .flag .carry] registers
      (registers.compare register operand) :=
  sameExcept_of_flags (Arithmetic.sameExcept_compare register operand registers.flags)

theorem sameExcept_testBits :
    SameExcept [.flag .negative, .flag .zero, .flag .overflow] registers
      (registers.testBits operand) := by
  intro part h
  cases part with
  | flag which => cases which <;> simp_all [Part.Same, testBits, Flags.get]
  | _ => rfl

theorem sameExcept_setFlag (flag : Flag) (value : Bool) :
    SameExcept [.flag flag] registers (registers.setFlag flag value) :=
  sameExcept_of_flags (registers.flags.sameExcept_set flag value)

/-- All flags come from a byte, and nothing else does. -/
theorem sameExcept_loadFlags :
    SameExcept Part.flags registers (registers.loadFlags value) := by
  intro part h
  cases part with
  | flag which => exact (h (Part.mem_flags which)).elim
  | _ => rfl

theorem sameExcept_maskToCarry :
    SameExcept [.a, .flag .negative, .flag .zero, .flag .carry] registers
      (registers.maskToCarry operand) :=
  ((sameExcept_loadA _ registers).mono (by decide)).trans
    ((sameExcept_setFlag _ .carry _).mono (by decide))

/-- The shift leaves its own flags, and none of those of the masked byte. -/
theorem sameExcept_maskAndShift :
    SameExcept [.a, .flag .negative, .flag .zero, .flag .carry] registers
      (registers.maskAndShift operand) :=
  sameExcept_acceptA _ (Arithmetic.sameExcept_shiftRight _ _ false)

/-- The difference goes to the index register, and the accumulator that is masked for it stays. -/
theorem sameExcept_subtractIntoX :
    SameExcept [.x, .flag .negative, .flag .zero, .flag .carry] registers
      (registers.subtractIntoX operand) :=
  ((sameExcept_setFlag registers .carry _).mono (by decide)).trans
    ((sameExcept_loadX _ _).mono (by decide))

/-- Three registers are loaded with one byte. -/
theorem sameExcept_maskStackPointer :
    SameExcept [.a, .x, .sp, .flag .negative, .flag .zero] registers
      (registers.maskStackPointer operand) :=
  ((sameExcept_loadAX _ registers).mono (by decide)).sp (by decide) _

end Registers

/-- The parts that an action changes are on a list, whatever its operand holds. An alteration of the
accumulator changes that too. -/
def Action.StaysWithin (changed : List Part) : Action → Prop
  | .inherent change => ∀ r, Registers.SameExcept changed r (change r)
  | .read use => ∀ operand r, Registers.SameExcept changed r (use operand r)
  | .store prepare _ => ∀ r, Registers.SameExcept changed r (prepare r)
  | .modify alter use => ∀ operand result (r : Registers),
      Registers.SameExcept changed r (use result { r with flags := (alter operand r.flags).flags })
  | .push _ | .call | .returnFromCall => .sp ∈ changed
  | .pull use => .sp ∈ changed ∧ ∀ operand r, Registers.SameExcept changed r (use operand r)
  | .branch _ | .jump | .halt => True
  | .returnFromInterrupt => .sp ∈ changed ∧ Part.flags ⊆ changed
  | .interrupt => .sp ∈ changed ∧ .flag .interruptDisable ∈ changed

namespace Action

/-- An action within a list is within every longer one. -/
theorem StaysWithin.mono {action : Action} {changed more : List Part}
    (h : action.StaysWithin changed) (hMore : changed ⊆ more) : action.StaysWithin more := by
  cases action with
  | inherent change => exact fun r => (h r).mono hMore
  | read use => exact fun operand r => (h operand r).mono hMore
  | store prepare value => exact fun r => (h r).mono hMore
  | modify alter use => exact fun operand result r => (h operand result r).mono hMore
  | push | call | returnFromCall => exact hMore h
  | pull use => exact ⟨hMore h.1, fun operand r => (h.2 operand r).mono hMore⟩
  | branch | jump | halt => trivial
  | returnFromInterrupt => exact ⟨hMore h.1, List.Subset.trans h.2 hMore⟩
  | interrupt => exact ⟨hMore h.1, hMore h.2⟩

/-- An alteration changes the flags that it has a list for, and what uses the result the parts that
it has one for. -/
theorem staysWithin_modify {altered : List Flag} {used changed : List Part}
    {alter : UInt8 → Flags → Outcome} {use : UInt8 → Registers → Registers}
    (hAlter : ∀ operand flags, Flags.SameExcept altered flags (alter operand flags).flags)
    (hUse : ∀ result r, Registers.SameExcept used r (use result r))
    (hChanged : altered.map .flag ++ used ⊆ changed) :
    (modify alter use).StaysWithin changed := by
  obtain ⟨hFlags, hUsed⟩ := List.append_subset.mp hChanged
  intro operand result r
  exact ((Registers.sameExcept_of_flags (hAlter operand r.flags)).mono hFlags).trans
    ((hUse result _).mono hUsed)

/-- Without a use there are only the flags, and the operand itself. -/
theorem staysWithin_alterOnly {altered : List Flag} {changed : List Part}
    {alter : UInt8 → Flags → Outcome}
    (hAlter : ∀ operand flags, Flags.SameExcept altered flags (alter operand flags).flags)
    (hChanged : altered.map .flag ⊆ changed) :
    (alterOnly alter).StaysWithin changed :=
  fun operand _ r => (Registers.sameExcept_of_flags (hAlter operand r.flags)).mono hChanged

end Action

open Registers Arithmetic in
/-- An operation changes its targets and nothing else. -/
theorem Mnemonic.staysWithin (mnemonic : Mnemonic) :
    mnemonic.action.StaysWithin mnemonic.targets := by
  cases mnemonic with
  | bcc | bcs | beq | bne | bmi | bpl | bvc | bvs | jmp | jam => trivial
  | jsr | rts | pha | php => show Part.sp ∈ _; decide
  | brk | rti => constructor <;> decide
  | sta | stx | sty | sax | sha | shx | shy => exact fun r => .refl r
  | nop => exact fun _ r => .refl r
  | txs => exact fun r => (SameExcept.refl r).sp (by decide) r.x
  | tas => exact fun r => (SameExcept.refl r).sp (by decide) (r.a &&& r.x)
  | clc | sec | cli | sei | cld | sed | clv =>
      exact fun r => (sameExcept_setFlag r _ _).mono (by decide)
  | txa | tya => exact fun r => (sameExcept_loadA _ r).mono (by decide)
  | tax | tsx | inx | dex => exact fun r => (sameExcept_loadX _ r).mono (by decide)
  | tay | iny | dey => exact fun r => (sameExcept_loadY _ r).mono (by decide)
  | lda | and | ora | eor | xaa => exact fun _ r => (sameExcept_loadA _ r).mono (by decide)
  | ldx => exact fun _ r => (sameExcept_loadX _ r).mono (by decide)
  | ldy => exact fun _ r => (sameExcept_loadY _ r).mono (by decide)
  | lax | lxa => exact fun _ r => (sameExcept_loadAX _ r).mono (by decide)
  | las => exact fun _ r => (sameExcept_maskStackPointer _ r).mono (by decide)
  | cmp | cpx | cpy => exact fun _ r => (sameExcept_compare _ _ r).mono (by decide)
  | bit => exact fun _ r => (sameExcept_testBits _ r).mono (by decide)
  | adc => exact fun _ r => (sameExcept_acceptA _ (sameExcept_add _ _ _)).mono (by decide)
  | sbc => exact fun _ r => (sameExcept_acceptA _ (sameExcept_subtract _ _ _)).mono (by decide)
  | arr => exact fun _ r => (sameExcept_acceptA _ (sameExcept_rotateInAdder _ _)).mono (by decide)
  | anc => exact fun _ r => (sameExcept_maskToCarry _ r).mono (by decide)
  | alr => exact fun _ r => (sameExcept_maskAndShift _ r).mono (by decide)
  | sbx => exact fun _ r => (sameExcept_subtractIntoX _ r).mono (by decide)
  | pla => exact ⟨by decide, fun _ r => (sameExcept_loadA _ r).mono (by decide)⟩
  | plp => exact ⟨by decide, fun _ r => (sameExcept_loadFlags _ r).mono (by decide)⟩
  | inc => exact Action.staysWithin_alterOnly sameExcept_increment (by decide)
  | dec => exact Action.staysWithin_alterOnly sameExcept_decrement (by decide)
  | asl => exact Action.staysWithin_alterOnly (sameExcept_shiftLeft · · false) (by decide)
  | lsr => exact Action.staysWithin_alterOnly (sameExcept_shiftRight · · false) (by decide)
  | rol => exact Action.staysWithin_alterOnly sameExcept_rotateLeft (by decide)
  | ror => exact Action.staysWithin_alterOnly sameExcept_rotateRight (by decide)
  | dcp =>
      exact Action.staysWithin_modify sameExcept_predecessor (fun _ r => sameExcept_compare _ _ r)
        (by decide)
  | slo =>
      exact Action.staysWithin_modify (sameExcept_shiftLeft · · false)
        (fun _ r => sameExcept_loadA _ r) (by decide)
  | sre =>
      exact Action.staysWithin_modify (sameExcept_shiftRight · · false)
        (fun _ r => sameExcept_loadA _ r) (by decide)
  | rla =>
      exact Action.staysWithin_modify sameExcept_rotateLeft (fun _ r => sameExcept_loadA _ r)
        (by decide)
  | rra =>
      exact Action.staysWithin_modify sameExcept_rotateRight
        (fun _ r => sameExcept_acceptA _ (sameExcept_add _ _ _)) (by decide)
  | isc =>
      exact Action.staysWithin_modify sameExcept_successor
        (fun _ r => sameExcept_acceptA _ (sameExcept_subtract _ _ _)) (by decide)

namespace Opcode

variable {opcode : Opcode} {changed : List Part} (read : Address → UInt8) (r : Registers)

open Registers in
/-- An effect changes no part that its action does not, except the accumulator when that is the
operand. -/
theorem sameExcept_effect (hAction : opcode.mnemonic.action.StaysWithin changed)
    (hMode : opcode.mode = .accumulator → .a ∈ changed) :
    SameExcept changed r (opcode.effect read r).registers := by
  have hSelf : SameExcept changed r r := .refl r
  unfold effect
  generalize opcode.mnemonic.action = action at hAction ⊢
  cases action with
  | inherent change => exact (hAction r).pc _
  | read use => exact (hAction _ r).pc _
  | store prepare value => exact (hAction r).pc _
  | modify alter use =>
      dsimp only
      split
      next h =>
        -- the result is used on registers whose accumulator has been replaced already
        have hAltered := hSelf.a (hMode h) (alter r.a r.flags).value
        exact (hAltered.trans (hAction r.a (alter r.a r.flags).value _)).pc _
      next => exact (hAction _ _ r).pc _
  | push value => exact (hSelf.sp hAction (r.sp - 1)).pc _
  | pull use => exact ((hSelf.sp hAction.1 (r.sp + 1)).trans (hAction.2 _ _)).pc _
  | branch condition =>
      dsimp only
      split <;> exact hSelf.pc _
  | jump => exact hSelf.pc _
  | call => exact (hSelf.sp hAction (r.sp - 2)).pc _
  | returnFromCall => exact (hSelf.sp hAction (r.sp + 2)).pc _
  | returnFromInterrupt =>
      have hFlags := (sameExcept_loadFlags (read (Address.stack (r.sp + 1))) r).mono hAction.2
      exact (hFlags.sp hAction.1 (r.sp + 3)).pc _
  | interrupt =>
      have hDisable := (sameExcept_setFlag r .interruptDisable true).mono
        (List.cons_subset.mpr ⟨hAction.2, List.nil_subset _⟩)
      exact hDisable.sp hAction.1 (r.sp - 3)
  | halt => exact hSelf

/-- Only one operation halts, and it does so whatever its opcode. -/
theorem halts_effect_eq (opcode : Opcode) :
    (opcode.effect read r).halts = decide (opcode.mnemonic = .jam) := by
  unfold effect
  cases hMnemonic : opcode.mnemonic with
  | jam => rfl
  | bcc | bcs | beq | bne | bmi | bpl | bvc | bvs => dsimp only [Mnemonic.action]; split <;> rfl
  | asl | lsr | rol | ror | inc | dec | slo | sre | rla | rra | isc | dcp =>
      dsimp only [Mnemonic.action, Action.alterOnly]
      split <;> rfl
  | _ => rfl

/-- The accumulator is the operand of shifts and rotations alone. -/
theorem mnemonic_ofByte_of_accumulator :
    ∀ byte, (ofByte byte).mode = .accumulator → (ofByte byte).mnemonic ∈ [.asl, .lsr, .rol, .ror] :=
  @forall_ofByte (fun opcode =>
    opcode.mode = .accumulator → opcode.mnemonic ∈ [.asl, .lsr, .rol, .ror]) (by decide +kernel)

/-- An effect leaves every part that its opcode may not change as it was. -/
theorem same_effect {part : Part} (byte : UInt8) (h : ¬part.MayChange (ofByte byte)) :
    part.Same r ((ofByte byte).effect read r).registers := by
  have hShift := mnemonic_ofByte_of_accumulator byte
  generalize ofByte byte = opcode at h hShift ⊢
  have hTargets : part ∉ opcode.mnemonic.targets :=
    fun hPart => h (.inl (Mnemonic.mem_targets_iff.mp hPart))
  by_cases hMode : opcode.mode = .accumulator
  · have hWithin := opcode.mnemonic.staysWithin.mono (List.subset_cons_self .a _)
    have hA : part ≠ .a := fun hPart => h (.inr ⟨hPart, hShift hMode, hMode⟩)
    exact sameExcept_effect read r hWithin (fun _ => List.mem_cons_self) part
      (by simp [hA, hTargets])
  · exact sameExcept_effect read r opcode.mnemonic.staysWithin (fun hA => (hMode hA).elim) part
      hTargets

end Opcode

namespace Processor

variable {β : Type} [Bus β] (processor : Processor β)

/-- An instruction leaves every part that its opcode may not change as it was. A vector changes the
program counter only. -/
theorem same_execute {part : Part} (h : ¬part.MayChange processor.opcode) :
    part.Same processor.registers processor.execute.registers := by
  have hEffect := Opcode.same_effect processor.read processor.registers processor.opcodeByte h
  change part.Same processor.registers processor.effect.registers at hEffect
  unfold execute apply
  cases processor.effect.vector with
  | none => exact hEffect
  | some vector => cases part <;> exact hEffect

/-- An instruction never gets a halted processor going. -/
theorem jammed_execute :
    processor.execute.jammed = (processor.jammed || decide (processor.opcode.mnemonic = .jam)) := by
  simp only [execute, apply, effect, Opcode.halts_effect_eq]

end Processor

namespace Machine

variable {β ν : Type} [Bus β] {machine : Machine β ν}

/-- A step that carries out an instruction and calls no handler changes only those registers and flags
that its operation may change. It leaves the interrupt lines, the traps and the trace switch alone,
and only the operation that is made for it halts the processor. -/
theorem instruction_keeps (hPending : machine.processor.pendingInterrupt = none)
    (hTraps : machine.traps.handler? machine.processor.registers.pc = none) (run : Runner β ν) :
    ∃ cost after, machine.step run = some (cost, after) ∧
      (∀ part : Part, ¬part.MayChange machine.processor.opcode →
        part.Same machine.processor.registers after.processor.registers) ∧
      after.processor.lines = machine.processor.lines ∧
      after.traps = machine.traps ∧
      after.tracing = machine.tracing ∧
      (machine.processor.opcode.mnemonic ≠ .jam →
        after.processor.jammed = machine.processor.jammed) := by
  obtain ⟨hTable, hTracing, _, _⟩ := machine.surroundings_advance
  refine ⟨_, _, step_of_untrapped (fun _ => hTraps) run, ?_, ?_, hTable, hTracing, ?_⟩
  all_goals rw [advance_of_not_pending hPending]
  · exact fun _ => machine.processor.same_execute
  · rfl
  · intro hRuns
    have hJammed := machine.processor.jammed_execute
    rwa [decide_eq_false hRuns, Bool.or_false] at hJammed

/-- A rotation of a byte of memory that is then added to the accumulator. -/
def rotation : Ram :=
  (((Ram.zero.setVector resetVector 0x8000).write 0x8000 0x67).write 0x8001 0x10).write 0x10 0xA0

/-- The machine that is about to carry out the rotation. -/
def beforeRotation : Machine Ram Empty :=
  (powerOn {} rotation).change (.registers fun registers => { registers with a := 0x50, x := 0x80 })

/-- The sum overflows, while the index registers and the decimal flag stay. -/
theorem instruction_keeps_of_rotation :
    ∃ after, beforeRotation.step (run? 0) = some (5, after) ∧
      after.processor.registers.a = 0xA0 ∧ after.processor.registers.flags.overflow = true ∧
      after.processor.registers.x = 0x80 ∧ after.processor.registers.flags.decimal = false := by
  have hPending : beforeRotation.processor.pendingInterrupt = none := rfl
  obtain ⟨cost, after, hStep, hSame, _⟩ := instruction_keeps hPending rfl (run? 0)
  have hX := hSame .x (by unfold Part.MayChange; decide)
  have hDecimal := hSame (.flag .decimal) (by unfold Part.MayChange; decide)
  cases hStep
  exact ⟨_, rfl, rfl, rfl, hX, hDecimal⟩

end Machine

end Mos6510
