import PathArmor.Library.X86

/-!
# The library wrapper

`armor_lib_enter` is called at the entry of a library function. If the function was called from
target code it tells the module so, calls the function itself and tells the module when it is back;
the module keeps the return address in between.
-/

namespace PathArmor.Shared
open Library Library.X86

def sysIoctl : UInt64 := 0x10

def iocLibEnter : UInt64 := 0x6c08

def iocLibExit : UInt64 := 0x6c09

/-- The entries of the global offset table that the stubs read. -/
structure Got where
  armorStartCode : UInt64
  armorRangeCode : UInt64
  armorFd : UInt64

section

variable (got : Got)

/-- The check that an address in `r11` lies in the target's code, up to the jump. -/
def checkRange : List Instr := [
  .mov .r10 (.mem (.abs got.armorStartCode)),
  .sub .r11 (.mem (.off .r10 0)),
  .mov .r10 (.mem (.abs got.armorRangeCode)),
  .cmp (.reg .r11) (.mem (.off .r10 0))]

def checkFd : List Instr := [
  .mov .r11 (.mem (.abs got.armorFd)),
  .cmpl (.off .r11 0) 0]

/-- The registers that carry an ioctl on `armor_fd`, up to its argument. -/
def setupIoctl (request : UInt64) : List Instr := [
  .mov .rax (.imm sysIoctl),
  .mov .rdi (.mem (.abs got.armorFd)),
  .mov .rdi (.mem (.off .rdi 0)),
  .mov .rsi (.imm request)]

/-- Both stubs tell the module of the return this way: a dummy word, which the module replaces by the
address to return to, the registers, and the ioctl. -/
def exitIoctl (dummy request : UInt64) : List Instr :=
  .push (.imm dummy) ::
  [.push (.reg .rdi), .push (.reg .rsi), .push (.reg .rdx), .push (.reg .rcx), .push (.reg .r8),
    .push (.reg .r9), .push (.reg .rax)] ++
  setupIoctl got request ++ [.lea .rdx (.off .rsp 0x38)]

end

def exitRestore : List Instr := [
  .pop .rax, .pop .r9, .pop .r8, .pop .rcx, .pop .rdx, .pop .rsi, .pop .rdi]

/-! ## The way out -/

section

variable (got : Got) (s : Machine) (dummy request : UInt64)

theorem mem_setupIoctl : (exec (setupIoctl got request) s).mem = s.mem := rfl

theorem reg_setupIoctl {r : Reg} (other : r ∉ [Reg.rax, .rdi, .rsi]) :
    (exec (setupIoctl got request) s).reg r = s.reg r := by
  simp only [List.mem_cons, List.not_mem_nil, or_false, not_or] at other
  simp only [setupIoctl, exec, step, Machine.reg_set, if_neg other.1, if_neg other.2.1,
    if_neg other.2.2]

/-- The registers saved around the second ioctl, the one pushed last first. -/
def exitSaved : List Reg := [.rax, .r9, .r8, .rcx, .rdx, .rsi, .rdi]

/-- At the second ioctl, its argument points to the dummy word. -/
structure AtExit (s s' : Machine) : Prop where
  rsp : s'.reg .rsp = s.reg .rsp - 64
  rdx : s'.reg .rdx = s'.reg .rsp + UInt64.ofNat (8 * 7)
  stack : Holds s'.mem (s'.reg .rsp) (exitSaved.map s.reg ++ [dummy])
  saved : ∀ r ∈ calleeSaved, s'.reg r = s.reg r

theorem exec_exitIoctl : AtExit dummy s (exec (exitIoctl got dummy request) s) := by
  have noRsp : Reg.rsp ∉ [Reg.rdi, .rsi, .rdx, .rcx, .r8, .r9, .rax] := by decide
  have dummyPushed : Holds (s.push dummy).mem ((s.push dummy).reg .rsp) [dummy] :=
    Holds.nil.push (by simp) dummy
  have pushed := exec_push _ noRsp dummyPushed (by simp)
  obtain ⟨s₁, named⟩ : ∃ s₁, s₁ = exec ([Reg.rdi, .rsi, .rdx, .rcx, .r8, .r9, .rax].map
    fun r => .push (.reg r)) (s.push dummy) := ⟨_, rfl⟩
  rw [← named] at pushed
  have setup : exec (exitIoctl got dummy request) s =
      step (.lea .rdx (.off .rsp 0x38)) (exec (setupIoctl got request) s₁) := by
    rw [named]
    rfl
  have rsp : (exec (setupIoctl got request) s₁).reg .rsp = s₁.reg .rsp :=
    reg_setupIoctl got s₁ request (by decide)
  rw [setup]
  constructor
  · simp only [step, Machine.reg_set, reduceCtorEq, if_false, rsp, pushed.rsp, Machine.reg_push,
      if_true]
    change s.reg .rsp - 8 - 56 = s.reg .rsp - 64
    grind
  · simp only [step, Machine.reg_set, reduceCtorEq, if_false, if_true, Machine.address_off]
    rfl
  · simp only [step, Machine.reg_set, Machine.mem_set, reduceCtorEq, if_false, rsp,
      mem_setupIoctl]
    exact pushed.stack
  · intro r saved
    have others : r ∉ [Reg.rax, .rdi, .rsi] ∧ r ≠ .rdx ∧ r ≠ .rsp := by revert r; decide
    simp only [step, Machine.reg_set, if_neg others.2.1]
    rw [reg_setupIoctl got s₁ request others.1, pushed.reg r others.2.2, Machine.reg_push,
      if_neg others.2.2]

variable {got s dummy request} {L : Type} {prog : Program L} {l back : L}

/-- If the module stores an address then control goes there, with the stack pointer and the registers
of the start. -/
theorem exit_reaches (before : prog.code l = ⟨exitIoctl got dummy request, .syscall back⟩)
    (after : prog.code back = ⟨exitRestore, .ret⟩) (s : Machine) :
    prog.Reaches l s (.syscall back) fun s₅ => ∀ result s₆ address,
      Syscall result s₅ s₆ (s₅.mem.store64 (s₅.reg .rdx) address) →
      prog.Reaches back s₆ (.left address) fun s₇ =>
        s₇.reg .rsp = s.reg .rsp ∧ ∀ r ∈ exitSaved ++ calleeSaved, s₇.reg r = s.reg r := by
  have exit := exec_exitIoctl got s dummy request
  apply Program.Reaches.leaves (exec (exitIoctl got dummy request) s)
  · rw [before]
    rfl
  intro result s₆ address syscall
  -- The module has replaced the dummy word.
  have stack : Holds s₆.mem (s₆.reg .rsp) (exitSaved.map s.reg ++ [address]) := by
    have written := exit.stack.store (by simp [exitSaved]) (i := 7) (by simp [exitSaved]) address
    rw [← exit.rdx, ← syscall.mem, ← syscall.reg .rsp (by decide)] at written
    exact written
  have popped := exec_pop exitSaved (by decide) (by decide) stack (List.length_map _)
  have target : (exec exitRestore s₆).mem.load64 ((exec exitRestore s₆).reg .rsp) = address :=
    popped.stack.1
  apply Program.Reaches.leaves
    ((exec exitRestore s₆).set .rsp ((exec exitRestore s₆).reg .rsp + 8))
  · rw [after]
    simp only [Program.leave, target]
  constructor
  · rw [Machine.reg_set, if_pos rfl]
    have rsp : (exec exitRestore s₆).reg .rsp = _ := popped.rsp
    rw [rsp, syscall.reg .rsp (by decide), exit.rsp]
    calc s.reg .rsp - 64 + UInt64.ofNat (8 * exitSaved.length) + 8
        = s.reg .rsp - 64 + 64 := UInt64.add_assoc _ _ _
      _ = s.reg .rsp := UInt64.sub_add_cancel _ _
  · intro r member
    have notRsp : r ≠ .rsp := by revert r; decide
    rw [Machine.reg_set, if_neg notRsp]
    rcases List.mem_append.mp member with saved | saved
    · exact List.map_inj_left.mp popped.regs r saved
    · have untouched : r ∉ exitSaved ∧ r ∉ [Reg.rax, .rcx, .r11] := by revert r; decide
      have kept : (exec exitRestore s₆).reg r = s₆.reg r := popped.reg r untouched.1 notRsp
      rw [kept, syscall.reg r untouched.2, exit.saved r saved]

end

namespace LibEnter

/-- The labels of `libenter.S`, and names for the places it falls through to or comes back to. -/
inductive Label
  | armorLibEnter
  | notInRange
  | returnInRange
  | armorFdNotSet
  | armorFdSet
  | enterDone
  | armorLibFunctionReturned
  | exitDone

/-- The program of `libenter.S`, loaded at `address`. -/
def program (got : Got) (address : Label → UInt64) : Program Label where
  address := address
  code
    | .armorLibEnter =>
        ⟨.mov .r11 (.mem (.off .rsp 0x8)) :: checkRange got, .below .returnInRange .notInRange⟩
    | .notInRange => ⟨[], .ret⟩
    | .returnInRange => ⟨checkFd got, .notEqual .armorFdSet .armorFdNotSet⟩
    | .armorFdNotSet => ⟨[], .ret⟩
    | .armorFdSet =>
        ⟨[.push (.reg .rdi), .push (.reg .rsi), .push (.reg .rdx),
            .push (.reg .rcx), .push (.reg .r8), .push (.reg .r9)] ++
          setupIoctl got iocLibEnter ++ [.mov .rdx (.mem (.off .rsp 0x38))],
          .syscall .enterDone⟩
    | .enterDone =>
        ⟨[.pop .r9, .pop .r8, .pop .rcx, .pop .rdx, .pop .rsi, .pop .rdi, .pop .r10, .pop .r11],
          .call (.reg .r10) .armorLibFunctionReturned⟩
    | .armorLibFunctionReturned => ⟨exitIoctl got 0xdead iocLibExit, .syscall .exitDone⟩
    | .exitDone => ⟨exitRestore, .ret⟩

/-- The address the library function was called from. -/
def returnAddress (s : Machine) : UInt64 := s.mem.load64 (s.reg .rsp + 8)

/-- The address in the library function that the wrapper was called from. -/
def function (s : Machine) : UInt64 := s.mem.load64 (s.reg .rsp)

def FromTarget (got : Got) (s : Machine) : Prop :=
  returnAddress s - s.mem.load64 (s.mem.load64 got.armorStartCode) <
    s.mem.load64 (s.mem.load64 got.armorRangeCode)

def FdSet (got : Got) (s : Machine) : Prop := s.mem.load32 (s.mem.load64 got.armorFd) ≠ 0

instance (got : Got) (s : Machine) : Decidable (FromTarget got s) :=
  inferInstanceAs (Decidable (_ < _))

instance (got : Got) (s : Machine) : Decidable (FdSet got s) :=
  inferInstanceAs (Decidable (_ ≠ _))

/-- The number of vector registers a variadic call passes arguments in. -/
def al (s : Machine) : UInt8 := (s.reg .rax).toUInt8

def argumentRegs : List Reg := [.rdi, .rsi, .rdx, .rcx, .r8, .r9]

/-- The library function is entered, in the second state, as the caller of the first one called it:
only the return slot and the memory below it are the wrapper's. -/
structure EnteredAsCalled (s s' : Machine) : Prop where
  args : ∀ r ∈ argumentRegs, s'.reg r = s.reg r
  al : al s' = al s
  rsp : s'.reg .rsp = s.reg .rsp + 8
  mem : ∀ x ∉ region (s.reg .rsp - 48) 64, s'.mem x = s.mem x

/-- What a call of the wrapper is to be for the caller and for the library function, whatever the
function does and with the module handing back the address it was given. -/
def Transparent (prog : Program Label) (s : Machine) : Prop :=
  prog.Reaches .armorLibEnter s (.syscall .enterDone) fun s₁ =>
    ∀ s₂, Syscall 0 s₁ s₂ s₁.mem →
      prog.Reaches .enterDone s₂ (.called (function s) .armorLibFunctionReturned) fun s₃ =>
        EnteredAsCalled s s₃ ∧ ∀ s₄, FunctionReturns s₃ s₄ →
          prog.Reaches .armorLibFunctionReturned s₄ (.syscall .exitDone) fun s₅ =>
            ∀ s₆, Syscall 0 s₅ s₆ (s₅.mem.store64 (s₅.reg .rdx) (s₁.reg .rdx)) →
              prog.Reaches .exitDone s₆ (.left (returnAddress s)) fun s₇ =>
                s₇.reg .rax = s₄.reg .rax ∧ s₇.reg .rdx = s₄.reg .rdx ∧
                s₇.reg .rsp = s.reg .rsp + 16

section

variable (got : Got) (address : Label → UInt64)

/-- The two checks touch the scratch registers and the flags only. -/
structure Checked (s s' : Machine) : Prop where
  reg : ∀ r, r ∉ [Reg.r10, .r11] → s'.reg r = s.reg r
  mem : s'.mem = s.mem

theorem Checked.trans {s s' s'' : Machine} (first : Checked s s') (second : Checked s' s'') :
    Checked s s'' :=
  ⟨fun r other => (second.reg r other).trans (first.reg r other), second.mem.trans first.mem⟩

theorem checked_range (source : Operand) (s : Machine) :
    Checked s (exec (.mov .r11 source :: checkRange got) s) ∧
      ((exec (.mov .r11 source :: checkRange got) s).cf = true ↔
        s.value source - s.mem.load64 (s.mem.load64 got.armorStartCode) <
          s.mem.load64 (s.mem.load64 got.armorRangeCode)) := by
  refine ⟨⟨?_, rfl⟩, ?_⟩
  · intro r other
    simp only [List.mem_cons, List.not_mem_nil, or_false, not_or] at other
    simp only [checkRange, exec, step, Machine.reg_set, if_neg other.1, if_neg other.2]
  · simp [checkRange, exec, step, Machine.value]

theorem checked_fd (s : Machine) :
    Checked s (exec (checkFd got) s) ∧ ((exec (checkFd got) s).zf = true ↔ ¬ FdSet got s) := by
  refine ⟨⟨?_, rfl⟩, ?_⟩
  · intro r other
    simp only [List.mem_cons, List.not_mem_nil, or_false, not_or] at other
    simp only [checkFd, exec, step, Machine.reg_set, if_neg other.2]
  · simp [checkFd, exec, step, Machine.value, FdSet]

/-- The two checks with which both stubs begin. -/
theorem stub_checks_reach {L : Type} {prog : Program L} {enter inRange notInRange fdSet fdNotSet : L}
    {source : Operand} {event : Event L} {Q : Machine → Prop} {s : Machine}
    (range : prog.code enter = ⟨.mov .r11 source :: checkRange got, .below inRange notInRange⟩)
    (fd : prog.code inRange = ⟨checkFd got, .notEqual fdSet fdNotSet⟩)
    (reaches : ∀ s', Checked s s' → prog.Reaches
      (if s.value source - s.mem.load64 (s.mem.load64 got.armorStartCode) <
          s.mem.load64 (s.mem.load64 got.armorRangeCode)
        then if FdSet got s then fdSet else fdNotSet else notInRange) s' event Q) :
    prog.Reaches enter s event Q := by
  obtain ⟨checked, below⟩ := checked_range got source s
  apply Program.Reaches.below (congrArg Block.exit range)
  rw [range]
  obtain ⟨s₁, named⟩ : ∃ s₁, s₁ = exec (.mov .r11 source :: checkRange got) s := ⟨_, rfl⟩
  rw [← named] at checked below ⊢
  by_cases inside : s.value source - s.mem.load64 (s.mem.load64 got.armorStartCode) <
      s.mem.load64 (s.mem.load64 got.armorRangeCode)
  · rw [if_pos (below.mpr inside)]
    obtain ⟨checked', zero⟩ := checked_fd got s₁
    rw [FdSet, checked.mem, ← FdSet] at zero
    have next := reaches _ (checked.trans checked')
    rw [if_pos inside] at next
    apply Program.Reaches.notEqual (congrArg Block.exit fd)
    rw [fd]
    by_cases isSet : FdSet got s
    · rw [if_neg fun isZero => zero.mp isZero isSet]
      rwa [if_pos isSet] at next
    · rw [if_pos (zero.mpr isSet)]
      rwa [if_neg isSet] at next
  · rw [if_neg fun taken => inside (below.mp taken)]
    have next := reaches s₁ checked
    rwa [if_neg inside] at next

theorem Checked.stub_ret {L : Type} {prog : Program L} {l : L} {s s' : Machine}
    (checked : Checked s s') (ret : prog.code l = ⟨[], .ret⟩) :
    prog.Reaches l s' (.left (s.mem.load64 (s.reg .rsp))) fun s'' =>
      s''.reg .rsp = s.reg .rsp + 8 ∧ s''.mem = s.mem ∧
      ∀ r, r ∉ [Reg.rsp, .r10, .r11] → s''.reg r = s.reg r := by
  have rsp : s'.reg .rsp = s.reg .rsp := checked.reg .rsp (by decide)
  apply Program.Reaches.leaves (s'.set .rsp (s'.reg .rsp + 8))
  · rw [ret, ← rsp, ← checked.mem]
    rfl
  refine ⟨?_, checked.mem, ?_⟩
  · rw [Machine.reg_set, if_pos rfl, rsp]
  · intro r other
    rw [List.mem_cons, not_or] at other
    rw [Machine.reg_set, if_neg other.1, checked.reg r other.2]

/-- At the first ioctl the arguments are on the stack, above the two return addresses. -/
structure AtEnter (s s' : Machine) : Prop where
  rsp : s'.reg .rsp = s.reg .rsp - 48
  rdx : s'.reg .rdx = returnAddress s
  stack : Holds s'.mem (s'.reg .rsp)
    ((argumentRegs.map s.reg).reverse ++ [function s, returnAddress s])
  mem : ∀ x ∉ region (s.reg .rsp - 48) 48, s'.mem x = s.mem x

theorem exec_armorFdSet (s : Machine) :
    AtEnter s (exec ((program got address).code .armorFdSet).body s) := by
  have stack : Holds s.mem (s.reg .rsp) [function s, returnAddress s] := ⟨rfl, rfl, trivial⟩
  have pushed := exec_push argumentRegs (by decide) stack (by simp [argumentRegs])
  obtain ⟨s₁, named⟩ : ∃ s₁, s₁ = exec (argumentRegs.map fun r => .push (.reg r)) s := ⟨_, rfl⟩
  rw [← named] at pushed
  have setup : exec ((program got address).code .armorFdSet).body s =
      step (.mov .rdx (.mem (.off .rsp 0x38))) (exec (setupIoctl got iocLibEnter) s₁) := by
    rw [named]
    rfl
  have rsp : (exec (setupIoctl got iocLibEnter) s₁).reg .rsp = s₁.reg .rsp :=
    reg_setupIoctl got s₁ iocLibEnter (by decide)
  rw [setup]
  constructor
  · simp only [step, Machine.reg_set, reduceCtorEq, if_false, rsp]
    exact pushed.rsp
  · simp only [step, Machine.reg_set, if_true, Machine.value, Machine.address_off, rsp,
      mem_setupIoctl]
    exact pushed.stack.load64 (i := 7) rfl
  · simp only [step, Machine.reg_set, Machine.mem_set, reduceCtorEq, if_false, rsp, mem_setupIoctl]
    exact pushed.stack
  · exact pushed.mem

variable {got address} {s : Machine}

theorem Checked.atEnter {s' s'' : Machine} (checked : Checked s s') (enter : AtEnter s' s'') :
    AtEnter s s'' := by
  have rsp : s'.reg .rsp = s.reg .rsp := checked.reg .rsp (by decide)
  have function : function s' = function s := by rw [function, rsp, checked.mem]; rfl
  have returnAddress : returnAddress s' = returnAddress s := by
    rw [returnAddress, rsp, checked.mem]; rfl
  have args : argumentRegs.map s'.reg = argumentRegs.map s.reg := by
    apply List.map_congr_left
    intro r member
    apply checked.reg
    revert r
    decide
  obtain ⟨rsp', rdx, stack, mem⟩ := enter
  rw [rsp] at rsp' mem
  rw [returnAddress] at rdx stack
  rw [function, args] at stack
  rw [checked.mem] at mem
  exact ⟨rsp', rdx, stack, mem⟩

theorem checks_reach {event : Event Label} {Q : Machine → Prop}
    (reaches : ∀ s', Checked s s' → (program got address).Reaches
      (if FromTarget got s then if FdSet got s then .armorFdSet else .armorFdNotSet else .notInRange)
      s' event Q) :
    (program got address).Reaches .armorLibEnter s event Q := by
  apply stub_checks_reach got rfl rfl
  have source : s.value (.mem (.off .rsp 0x8)) = returnAddress s := by
    rw [Machine.value, Machine.address_off, returnAddress]
  rw [source]
  exact reaches

theorem enter_reaches (fromTarget : FromTarget got s) (fdSet : FdSet got s) :
    (program got address).Reaches .armorLibEnter s (.syscall .enterDone) (AtEnter s) := by
  apply checks_reach
  intro s' checked
  rw [if_pos fromTarget, if_pos fdSet]
  apply Program.Reaches.leaves _ rfl
  exact checked.atEnter (exec_armorFdSet got address _)

/-- The function gets what the caller passed it, but for `rax`. -/
structure AtFunction (result : UInt64) (s s' : Machine) : Prop where
  args : ∀ r ∈ argumentRegs, s'.reg r = s.reg r
  rax : s'.reg .rax = result
  rsp : s'.reg .rsp = s.reg .rsp + 8
  mem : ∀ x ∉ region (s.reg .rsp - 48) 64, s'.mem x = s.mem x

theorem function_reaches {s₁ s₂ : Machine} (enter : AtEnter s s₁) {result : UInt64}
    (syscall : Syscall result s₁ s₂ s₁.mem) :
    (program got address).Reaches .enterDone s₂ (.called (function s) .armorLibFunctionReturned)
      (AtFunction result s) := by
  have stack : Holds s₂.mem (s₂.reg .rsp)
      ((argumentRegs.map s.reg).reverse ++ [function s, returnAddress s] ++ []) := by
    rw [syscall.mem, syscall.reg .rsp (by decide), List.append_nil]
    exact enter.stack
  have popped := exec_pop [.r9, .r8, .rcx, .rdx, .rsi, .rdi, .r10, .r11] (by decide) (by decide)
    stack (by simp [argumentRegs])
  obtain ⟨s', named⟩ : ∃ s', s' = exec ((program got address).code .enterDone).body s₂ := ⟨_, rfl⟩
  have popped : Popped _ _ _ s₂ s' := named ▸ popped
  obtain ⟨r9, r8, rcx, rdx, rsi, rdi, r10, -⟩ : s'.reg .r9 = s.reg .r9 ∧ s'.reg .r8 = s.reg .r8 ∧
      s'.reg .rcx = s.reg .rcx ∧ s'.reg .rdx = s.reg .rdx ∧ s'.reg .rsi = s.reg .rsi ∧
      s'.reg .rdi = s.reg .rdi ∧ s'.reg .r10 = function s ∧ s'.reg .r11 = returnAddress s := by
    simpa [argumentRegs] using popped.regs
  have rsp : s'.reg .rsp - 8 = s.reg .rsp - 48 + UInt64.ofNat 56 := by
    rw [popped.rsp, syscall.reg .rsp (by decide), enter.rsp]
    change s.reg .rsp - 48 + 64 - 8 = s.reg .rsp - 48 + 56
    grind
  apply Program.Reaches.leaves (s'.push (address .armorLibFunctionReturned))
  · rw [← named, ← r10]
    rfl
  constructor
  · intro r member
    have notRsp : r ≠ .rsp := by revert r; decide
    rw [Machine.reg_push, if_neg notRsp]
    revert r
    simp [argumentRegs, rdi, rsi, rdx, rcx, r8, r9]
  · rw [Machine.reg_push, if_neg (by decide), popped.reg .rax (by decide) (by decide), syscall.rax]
  · rw [Machine.reg_push, if_pos rfl, rsp]
    change s.reg .rsp - 48 + 56 = s.reg .rsp + 8
    grind
  · intro x outside
    rw [show 64 = 56 + 8 from rfl, region_add, List.mem_append, not_or, ← rsp] at outside
    have below : x ∉ region (s.reg .rsp - 48) 48 := fun inside =>
      outside.1 (region_subset _ (by decide) inside)
    calc (s'.push (address .armorLibFunctionReturned)).mem x
        = s'.mem x := Memory.store64_of_notMem outside.2
      _ = s₁.mem x := by rw [popped.mem, syscall.mem]
      _ = s.mem x := enter.mem x below

/-- Any other call goes straight on to the library function. -/
theorem armorLibEnter_passes (other : ¬ (FromTarget got s ∧ FdSet got s)) :
    (program got address).Reaches .armorLibEnter s (.left (function s)) fun s' =>
      s'.reg .rsp = s.reg .rsp + 8 ∧ s'.mem = s.mem ∧
      ∀ r, r ∉ [Reg.rsp, .r10, .r11] → s'.reg r = s.reg r := by
  apply checks_reach
  intro s' checked
  by_cases fromTarget : FromTarget got s
  · rw [if_pos fromTarget, if_neg fun fdSet => other ⟨fromTarget, fdSet⟩]
    exact checked.stub_ret rfl
  · rw [if_neg fromTarget]
    exact checked.stub_ret rfl

/-- But for `al`, which the ioctl's result overwrites, the wrapper does what it is to do. -/
theorem transparent_of_al (fromTarget : FromTarget got s) (fdSet : FdSet got s)
    (noVector : al s = 0) : Transparent (program got address) s := by
  apply (enter_reaches fromTarget fdSet).mono
  intro s₁ enter s₂ syscall
  apply (function_reaches enter syscall).mono
  intro s₃ entered
  constructor
  · refine ⟨entered.args, ?_, entered.rsp, entered.mem⟩
    rw [noVector, al, entered.rax]
    rfl
  intro s₄ returned
  apply (exit_reaches rfl rfl s₄).mono
  intro s₅ exit s₆ syscall'
  have left := exit 0 s₆ _ syscall'
  rw [enter.rdx] at left
  apply left.mono
  intro s₇ ⟨rsp, regs⟩
  refine ⟨regs .rax (by decide), regs .rdx (by decide), ?_⟩
  rw [rsp, returned.rsp, entered.rsp]
  exact UInt64.add_assoc _ _ _

theorem al_of_transparent (fromTarget : FromTarget got s) (fdSet : FdSet got s)
    (transparent : Transparent (program got address) s) : al s = 0 := by
  obtain ⟨s₁, -, enter, goesOn⟩ := (enter_reaches fromTarget fdSet).and transparent
  obtain ⟨s₂, syscall⟩ := exists_syscall 0 s₁ s₁.mem
  obtain ⟨s₃, -, entered, asCalled, -⟩ := (function_reaches enter syscall).and (goesOn s₂ syscall)
  rw [← asCalled.al, al, entered.rax]
  rfl

/-- A call from target code is transparent just if the caller passes nothing in vector registers. -/
theorem armorLibEnter_transparent_iff (fromTarget : FromTarget got s) (fdSet : FdSet got s) :
    Transparent (program got address) s ↔ al s = 0 :=
  ⟨al_of_transparent fromTarget fdSet, transparent_of_al fromTarget fdSet⟩

end

/-- A call of a library function from `0x400123`, with the target's code at `0x400000` to
`0x401000` and `rax` as given. -/
def callFromTarget (rax : UInt64) : Machine where
  reg
    | .rax => rax
    | .rdi => 0x401f00
    | .rsp => 0x7ffe0000
    | _ => 0
  mem :=
    let zero : Memory := fun _ => 0
    let got := ((zero.store64 0x601000 0x602000).store64 0x601008 0x602008).store64 0x601010 0x602010
    let data := ((got.store64 0x602000 0x400000).store64 0x602008 0x1000).store64 0x602010 3
    (data.store64 0x7ffe0000 0x7f000005).store64 0x7ffe0008 0x400123
  gs := 0
  kernelGs := 0
  zf := false
  cf := false

def sampleGot : Got := ⟨0x601000, 0x601008, 0x601010⟩

theorem armorLibEnter_transparent_callFromTarget :
    Transparent (program sampleGot fun _ => 0x500000) (callFromTarget 0) :=
  (armorLibEnter_transparent_iff (by decide +kernel) (by decide +kernel)).mpr rfl

/-- A variadic call with one vector register does not reach the function as it was made. -/
theorem variadicCall_not_transparent :
    ¬ Transparent (program sampleGot fun _ => 0x500000) (callFromTarget 1) := by
  intro transparent
  have noVector := al_of_transparent (by decide +kernel) (by decide +kernel) transparent
  exact absurd noVector (by decide)

end LibEnter

end PathArmor.Shared
