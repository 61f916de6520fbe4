import PathArmor.Shared.LibEnter

/-!
# The callback stubs

`armor_cbk_enter` makes an indirect call of a library into the target in the library's place, between
two ioctls. `armor_pthread_enter` starts a thread's function: it lays out the stack as the
instrumentation before `armor_cbk_enter` would have and jumps into the middle of it.
-/

namespace PathArmor.Shared.Callback
open Library Library.X86

def iocCallbackEnter : UInt64 := 0x6c0a

def iocCallbackExit : UInt64 := 0x6c0b

/-- The labels of `callback.S`, and names for the places it falls through to or comes back to. -/
inductive Label
  | armorCbkEnter
  | notInRange
  | returnInRange
  | armorFdNotSet
  | armorFdSet
  | armorCbkPthreadHook
  | enterDone
  | armorCbkTargetReturn
  | exitDone
  | armorPthreadEnter

/-- The program of `callback.S`, loaded at `address`. -/
def program (got : Got) (address : Label → UInt64) : Program Label where
  address := address
  code
    | .armorCbkEnter =>
        ⟨.mov .r11 (.reg .rdi) :: checkRange got, .below .returnInRange .notInRange⟩
    | .notInRange => ⟨[], .ret⟩
    | .returnInRange => ⟨checkFd got, .notEqual .armorFdSet .armorFdNotSet⟩
    | .armorFdNotSet => ⟨[], .ret⟩
    | .armorFdSet =>
        ⟨[.mov .r10 (.reg .rdi), .pop .r11, .add .r11 (.imm 18), .add .r11 (.reg .rsi)],
          .jump .armorCbkPthreadHook⟩
    | .armorCbkPthreadHook =>
        ⟨setupIoctl got iocCallbackEnter ++ [.mov .rdx (.reg .r11)], .syscall .enterDone⟩
    | .enterDone =>
        ⟨.lea .rsp (.off .rsp 0x8) ::
          [.pop .rdi, .pop .rsi, .pop .rdx, .pop .rcx, .pop .r9, .pop .r8, .pop .rax] ++
          [.mov .rsp (.mem (.off .rsp 0))],
          .call (.reg .r10) .armorCbkTargetReturn⟩
    | .armorCbkTargetReturn => ⟨exitIoctl got 0xcafe iocCallbackExit, .syscall .exitDone⟩
    | .exitDone => ⟨exitRestore, .ret⟩
    | .armorPthreadEnter =>
        ⟨[.mov .r10 (.reg .rsi), .mov .r11 (.mem (.off .rsp 0)), .push (.reg .rsp)] ++
          [.push (.reg .rax), .push (.reg .r8), .push (.reg .r9), .push (.reg .rcx),
            .push (.reg .rdx), .push (.reg .rsi), .push (.reg .rdi)] ++
          [.lea .rsp (.off .rsp (-0x8))],
          .jump .armorCbkPthreadHook⟩

/-- From `armor_pthread_enter(arg, f)` the thread's function is entered on a stack pointer that is
`aligned` modulo 16, and control comes back to the caller with a stack pointer `popped` above its
value at entry. -/
def CallsThread (prog : Program Label) (aligned popped : UInt64) (s : Machine) : Prop :=
  prog.Reaches .armorPthreadEnter s (.syscall .enterDone) fun s₁ =>
    ∀ result s₂, Syscall result s₁ s₂ s₁.mem →
      prog.Reaches .enterDone s₂ (.called (s.reg .rsi) .armorCbkTargetReturn) fun s₃ =>
        s₃.reg .rdi = s.reg .rdi ∧ s₃.reg .rsp % 16 = aligned ∧ ∀ s₄, FunctionReturns s₃ s₄ →
          prog.Reaches .armorCbkTargetReturn s₄ (.syscall .exitDone) fun s₅ =>
            ∀ result' s₆, Syscall result' s₅ s₆ (s₅.mem.store64 (s₅.reg .rdx) (s₁.reg .rdx)) →
              prog.Reaches .exitDone s₆ (.left (s.mem.load64 (s.reg .rsp))) fun s₇ =>
                s₇.reg .rax = s₄.reg .rax ∧ (∀ r ∈ calleeSaved, s₇.reg r = s.reg r) ∧
                s₇.reg .rsp = s.reg .rsp + popped

/-- What a call instruction in place of the stub does. -/
def PlainCall (prog : Program Label) (s : Machine) : Prop := CallsThread prog 8 8 s

/-- The stub does one thing, whatever the kernel and the thread's function do. -/
theorem CallsThread.unique {prog : Program Label} {aligned popped aligned' popped' : UInt64}
    {s : Machine} (first : CallsThread prog aligned popped s)
    (second : CallsThread prog aligned' popped' s) : aligned = aligned' ∧ popped = popped' := by
  obtain ⟨s₁, -, entered, entered'⟩ := first.and second
  obtain ⟨s₂, syscall⟩ := exists_syscall 0 s₁ s₁.mem
  obtain ⟨s₃, -, ⟨-, rsp, called⟩, -, rsp', called'⟩ :=
    (entered 0 s₂ syscall).and (entered' 0 s₂ syscall)
  obtain ⟨s₄, returned⟩ := exists_functionReturns s₃
  obtain ⟨s₅, -, exits, exits'⟩ := (called s₄ returned).and (called' s₄ returned)
  obtain ⟨s₆, syscall'⟩ := exists_syscall 0 s₅ _
  obtain ⟨s₇, -, ⟨-, -, left⟩, -, -, left'⟩ := (exits 0 s₆ syscall').and (exits' 0 s₆ syscall')
  rw [left] at left'
  exact ⟨rsp.symm.trans rsp', (UInt64.add_right_inj _).mp left'⟩

section

variable (got : Got) (address : Label → UInt64)

/-- The registers on the stack at the first ioctl, the one pushed last first. -/
def enterSaved : List Reg := [.rdi, .rsi, .rdx, .rcx, .r9, .r8, .rax]

/-- At the first ioctl: the stack holds, under a word that is skipped, the registers and the stack
pointer of the entry. -/
structure AtEnter (s s' : Machine) : Prop where
  stack : Holds s'.mem (s'.reg .rsp + 8) (enterSaved.map s.reg ++ [s.reg .rsp])
  rdx : s'.reg .rdx = s.mem.load64 (s.reg .rsp)
  r10 : s'.reg .r10 = s.reg .rsi
  saved : ∀ r ∈ calleeSaved, s'.reg r = s.reg r

theorem exec_armorPthreadEnter (s : Machine) :
    let s' := exec ((program got address).code .armorPthreadEnter).body s
    Holds s'.mem (s'.reg .rsp + 8) (enterSaved.map s.reg ++ [s.reg .rsp]) ∧
    s'.reg .r10 = s.reg .rsi ∧ s'.reg .r11 = s.mem.load64 (s.reg .rsp) ∧
    ∀ r ∈ calleeSaved, s'.reg r = s.reg r := by
  obtain ⟨s₁, named⟩ : ∃ s₁, s₁ = exec
    [.mov .r10 (.reg .rsi), .mov .r11 (.mem (.off .rsp 0)), .push (.reg .rsp)] s := ⟨_, rfl⟩
  have first : Holds s₁.mem (s₁.reg .rsp) [s.reg .rsp] := by
    rw [named]
    exact Holds.nil.push (by simp) _
  have others : ∀ r, r ∉ [Reg.rsp, .r10, .r11] → s₁.reg r = s.reg r := by
    intro r other
    simp only [List.mem_cons, List.not_mem_nil, or_false, not_or] at other
    simp only [named, exec, step, Machine.value, Machine.reg_push, Machine.reg_set, if_neg other.1,
      if_neg other.2.1, if_neg other.2.2]
  have r10 : s₁.reg .r10 = s.reg .rsi := by rw [named]; rfl
  have r11 : s₁.reg .r11 = s.mem.load64 (s.reg .rsp) := by
    simp [named, exec, step, Machine.value]
  have pushed := exec_push [.rax, .r8, .r9, .rcx, .rdx, .rsi, .rdi] (by decide) first (by simp)
  obtain ⟨s₂, named'⟩ : ∃ s₂, s₂ = exec ([Reg.rax, .r8, .r9, .rcx, .rdx, .rsi, .rdi].map
    fun r => .push (.reg r)) s₁ := ⟨_, rfl⟩
  rw [← named'] at pushed
  have last : exec ((program got address).code .armorPthreadEnter).body s =
      s₂.set .rsp (s₂.reg .rsp + (-0x8)) := by
    rw [named', named]
    simp only [program, List.cons_append, List.nil_append, List.map_cons, List.map_nil, exec, step,
      Machine.address_off]
  rw [last]
  refine ⟨?_, ?_, ?_, ?_⟩
  · have regs : [Reg.rax, .r8, .r9, .rcx, .rdx, .rsi, .rdi].map s₁.reg =
        [Reg.rax, .r8, .r9, .rcx, .rdx, .rsi, .rdi].map s.reg := by
      apply List.map_congr_left
      intro r member
      apply others
      revert r
      decide
    have stack := pushed.stack
    rw [regs] at stack
    have skipped : s₂.reg .rsp + (-0x8) + 8 = s₂.reg .rsp := by grind
    rw [Machine.mem_set, Machine.reg_set, if_pos rfl, skipped]
    exact stack
  · rw [Machine.reg_set, if_neg (by decide), pushed.reg .r10 (by decide), r10]
  · rw [Machine.reg_set, if_neg (by decide), pushed.reg .r11 (by decide), r11]
  · intro r member
    have other : r ∉ [Reg.rsp, .r10, .r11] := by revert r; decide
    have notRsp : r ≠ .rsp := fun same => other (same ▸ List.mem_cons_self)
    rw [Machine.reg_set, if_neg notRsp, pushed.reg r notRsp, others r other]

variable {got address} {s : Machine}

/-- The first ioctl carries the address in `r11`. -/
theorem hook_reaches (s : Machine) :
    (program got address).Reaches .armorCbkPthreadHook s (.syscall .enterDone) fun s' =>
      s'.mem = s.mem ∧ s'.reg .rdx = s.reg .r11 ∧
      ∀ r, r ∉ [Reg.rax, .rdi, .rsi] → r ≠ .rdx → s'.reg r = s.reg r := by
  have hook : exec ((program got address).code .armorCbkPthreadHook).body s =
      (exec (setupIoctl got iocCallbackEnter) s).set .rdx (s.reg .r11) := rfl
  apply Program.Reaches.leaves _ rfl
  rw [hook]
  refine ⟨?_, ?_, ?_⟩
  · rw [Machine.mem_set, mem_setupIoctl]
  · rw [Machine.reg_set, if_pos rfl]
  · intro r other notRdx
    rw [Machine.reg_set, if_neg notRdx, reg_setupIoctl got s _ other]

theorem enter_reaches (s : Machine) :
    (program got address).Reaches .armorPthreadEnter s (.syscall .enterDone) (AtEnter s) := by
  obtain ⟨stack, r10, r11, saved⟩ := exec_armorPthreadEnter got address s
  apply Program.Reaches.jumps .armorCbkPthreadHook rfl
  obtain ⟨s₁, named⟩ : ∃ s₁, s₁ = exec ((program got address).code .armorPthreadEnter).body s :=
    ⟨_, rfl⟩
  rw [← named] at stack r10 r11 saved ⊢
  apply (hook_reaches s₁).mono
  intro s₂ ⟨mem, rdx, others⟩
  constructor
  · rw [mem, others .rsp (by decide) (by decide)]
    exact stack
  · exact rdx.trans r11
  · rw [others .r10 (by decide) (by decide), r10]
  · intro r member
    rw [others r (by revert r; decide) (by revert r; decide), saved r member]

/-- The call is made with the registers and the stack pointer that were put on the stack. -/
theorem target_reaches {site s₁ s₂ : Machine}
    (stack : Holds s₁.mem (s₁.reg .rsp + 8) (enterSaved.map site.reg ++ [site.reg .rsp]))
    (saved : ∀ r ∈ calleeSaved, s₁.reg r = site.reg r) {result : UInt64}
    (syscall : Syscall result s₁ s₂ s₁.mem) :
    (program got address).Reaches .enterDone s₂ (.called (s₁.reg .r10) .armorCbkTargetReturn)
      fun s₃ => (∀ r ∈ enterSaved ++ calleeSaved, s₃.reg r = site.reg r) ∧
        s₃.reg .rsp = site.reg .rsp - 8 ∧
        s₃.mem = s₁.mem.store64 (site.reg .rsp - 8) (address .armorCbkTargetReturn) := by
  obtain ⟨s₃, named⟩ : ∃ s₃, s₃ = s₂.set .rsp (s₂.reg .rsp + 8) := ⟨_, rfl⟩
  have stack : Holds s₃.mem (s₃.reg .rsp) (enterSaved.map site.reg ++ [site.reg .rsp]) := by
    rw [named, Machine.mem_set, Machine.reg_set, if_pos rfl, syscall.mem,
      syscall.reg .rsp (by decide)]
    exact stack
  have popped := exec_pop enterSaved (by decide) (by decide) stack (List.length_map _)
  obtain ⟨s₄, named'⟩ : ∃ s₄, s₄ = exec (enterSaved.map fun r => .pop r) s₃ := ⟨_, rfl⟩
  rw [← named'] at popped
  have body : exec ((program got address).code .enterDone).body s₂ =
      s₄.set .rsp (site.reg .rsp) := by
    rw [← popped.stack.1, named', named]
    simp only [program, enterSaved, List.cons_append, List.nil_append, List.map_cons, List.map_nil,
      exec, step, Machine.value, Machine.address_off, UInt64.add_zero]
  have others : ∀ r, r ∉ [Reg.rax, .rcx, .r11] → r ∉ enterSaved → r ≠ .rsp →
      s₄.reg r = s₁.reg r := by
    intro r other notPopped notRsp
    rw [popped.reg r notPopped notRsp, named, Machine.reg_set, if_neg notRsp, syscall.reg r other]
  have r10 : s₄.reg .r10 = s₁.reg .r10 := others .r10 (by decide) (by decide) (by decide)
  apply Program.Reaches.leaves ((s₄.set .rsp (site.reg .rsp)).push (address .armorCbkTargetReturn))
  · rw [body, ← r10]
    rfl
  refine ⟨?_, rfl, ?_⟩
  · intro r member
    have notRsp : r ≠ .rsp := by revert r; decide
    rw [Machine.reg_push, if_neg notRsp, Machine.reg_set, if_neg notRsp]
    rcases List.mem_append.mp member with restored | callee
    · exact List.map_inj_left.mp popped.regs r restored
    · rw [others r (by revert r; decide) (by revert r; decide) notRsp, saved r callee]
  · have mem : s₄.mem = s₁.mem := by rw [popped.mem, named, Machine.mem_set, syscall.mem]
    rw [Machine.mem_push, Machine.mem_set, Machine.reg_set, if_pos rfl, mem]

/-- At the thread's function the stack pointer is the one of the entry again: the caller's return
address is still on the stack, and another one under it. -/
structure AtFunction (s s' : Machine) : Prop where
  rdi : s'.reg .rdi = s.reg .rdi
  rsp : s'.reg .rsp = s.reg .rsp - 8
  saved : ∀ r ∈ calleeSaved, s'.reg r = s.reg r

theorem function_reaches {s₁ s₂ : Machine} (enter : AtEnter s s₁) {result : UInt64}
    (syscall : Syscall result s₁ s₂ s₁.mem) :
    (program got address).Reaches .enterDone s₂ (.called (s.reg .rsi) .armorCbkTargetReturn)
      (AtFunction s) := by
  rw [← enter.r10]
  apply (target_reaches enter.stack enter.saved syscall).mono
  intro s₃ ⟨regs, rsp, _⟩
  exact ⟨regs .rdi (by decide), rsp, fun r member => regs r (List.mem_append_right _ member)⟩

theorem sub_mod_of_aligned {rsp : UInt64} (aligned : rsp % 16 = 8) : (rsp - 8) % 16 = 0 := by
  have number := congrArg UInt64.toNat aligned
  apply UInt64.toNat_inj.mp
  simp only [UInt64.toNat_mod, UInt64.toNat_sub, UInt64.reduceToNat] at number ⊢
  omega

/-- What the stub does: the function runs on a misaligned stack, and the caller gets its return
address back unpopped. -/
theorem callsThread (aligned : s.reg .rsp % 16 = 8) : CallsThread (program got address) 0 0 s := by
  apply (enter_reaches s).mono
  intro s₁ enter result s₂ syscall
  apply (function_reaches enter syscall).mono
  intro s₃ entered
  refine ⟨entered.rdi, ?_, ?_⟩
  · rw [entered.rsp]
    exact sub_mod_of_aligned aligned
  intro s₄ returned
  apply (exit_reaches rfl rfl s₄).mono
  intro s₅ exit result' s₆ syscall'
  have left := exit result' s₆ _ syscall'
  rw [enter.rdx] at left
  apply left.mono
  intro s₇ ⟨rsp, regs⟩
  refine ⟨regs .rax (by decide), ?_, ?_⟩
  · intro r member
    rw [regs r (List.mem_append_right _ member), returned.saved r member, entered.saved r member]
  · rw [rsp, returned.rsp, entered.rsp, UInt64.sub_add_cancel, UInt64.add_zero]

/-- Neither half of a plain call holds, of no entry that satisfies the ABI. -/
theorem armorPthreadEnter_not_plainCall (aligned : s.reg .rsp % 16 = 8) :
    CallsThread (program got address) 0 0 s ∧ ¬ PlainCall (program got address) s := by
  refine ⟨callsThread aligned, ?_⟩
  intro plain
  have unique := plain.unique (callsThread aligned)
  exact absurd unique.1 (by decide)

end

/-- A thread that is to run the function at `0x400200` with the argument `0x602100`. -/
def threadStart : Machine where
  reg
    | .rdi => 0x602100
    | .rsi => 0x400200
    | .rsp => 0x7f00ffe8
    | _ => 0
  mem := Memory.store64 (fun _ => 0) 0x7f00ffe8 0x7f000010
  gs := 0
  kernelGs := 0
  zf := false
  cf := false

theorem armorPthreadEnter_not_plainCall_threadStart :
    threadStart.reg .rsp % 16 = 8 ∧
    CallsThread (program ⟨0, 0, 0⟩ fun _ => 0x500000) 0 0 threadStart ∧
    ¬ PlainCall (program ⟨0, 0, 0⟩ fun _ => 0x500000) threadStart :=
  ⟨by decide, armorPthreadEnter_not_plainCall (by decide)⟩

theorem threadStart_misaligned :
    ¬ PlainCall (program ⟨0, 0, 0⟩ fun _ => 0x500000) threadStart := by
  intro plain
  have unique := plain.unique (callsThread (by decide))
  exact absurd unique.1 (by decide)

/-! ## Indirect calls of libraries -/

section

open LibEnter (Checked FdSet)

/-- The indirect call leads into the target's code. -/
def InTarget (got : Got) (s : Machine) : Prop :=
  s.reg .rdi - s.mem.load64 (s.mem.load64 got.armorStartCode) <
    s.mem.load64 (s.mem.load64 got.armorRangeCode)

instance (got : Got) (s : Machine) : Decidable (InTarget got s) :=
  inferInstanceAs (Decidable (_ < _))

/-- The instrumentation of the indirect call at `site` has called the stub. Above the return address
and a word that is skipped it keeps the registers and the stack pointer of the call. -/
structure Instrumented (site s : Machine) : Prop where
  stack : Holds s.mem (s.reg .rsp + 16) (enterSaved.map site.reg ++ [site.reg .rsp])
  saved : ∀ r ∈ calleeSaved, s.reg r = site.reg r

/-- Behind the indirect call: between the stub's return address and the call instruction, of which
`rsi` is the size, the instrumentation restores the registers in 18 bytes. -/
def behind (s : Machine) : UInt64 := s.mem.load64 (s.reg .rsp) + 18 + s.reg .rsi

/-- The target function is entered as by a call instruction at `site`, and control goes on behind
that one with what the function left. Only `r10` and `r11` are the stub's. -/
def CallsInPlace (prog : Program Label) (site s : Machine) : Prop :=
  prog.Reaches .armorCbkEnter s (.syscall .enterDone) fun s₁ =>
    ∀ result s₂, Syscall result s₁ s₂ s₁.mem →
      prog.Reaches .enterDone s₂ (.called (s.reg .rdi) .armorCbkTargetReturn) fun s₃ =>
        (∀ r, r ∉ [Reg.r10, .r11] →
          s₃.reg r = (site.push (prog.address .armorCbkTargetReturn)).reg r) ∧
        s₃.mem = s.mem.store64 (site.reg .rsp - 8) (prog.address .armorCbkTargetReturn) ∧
        ∀ s₄, FunctionReturns s₃ s₄ →
          prog.Reaches .armorCbkTargetReturn s₄ (.syscall .exitDone) fun s₅ =>
            ∀ result' s₆, Syscall result' s₅ s₆ (s₅.mem.store64 (s₅.reg .rdx) (s₁.reg .rdx)) →
              prog.Reaches .exitDone s₆ (.left (behind s)) fun s₇ =>
                s₇.reg .rsp = site.reg .rsp ∧
                ∀ r, r ∉ [Reg.rsp, .r10, .r11] → s₇.reg r = s₄.reg r

variable {got : Got} {address : Label → UInt64} {site s : Machine}

theorem checks_reach {event : Event Label} {Q : Machine → Prop}
    (reaches : ∀ s', Checked s s' → (program got address).Reaches
      (if InTarget got s then if FdSet got s then .armorFdSet else .armorFdNotSet else .notInRange)
      s' event Q) :
    (program got address).Reaches .armorCbkEnter s event Q :=
  LibEnter.stub_checks_reach got rfl rfl reaches

/-- At the first ioctl the registers are still where the instrumentation has put them. -/
theorem armorFdSet_reaches {s' : Machine} (checked : Checked s s') :
    (program got address).Reaches .armorFdSet s' (.syscall .enterDone) fun s₁ =>
      s₁.mem = s.mem ∧ s₁.reg .rdx = behind s ∧ s₁.reg .r10 = s.reg .rdi ∧
      s₁.reg .rsp = s.reg .rsp + 8 ∧ ∀ r ∈ calleeSaved, s₁.reg r = s.reg r := by
  obtain ⟨s₁, named⟩ : ∃ s₁, s₁ = exec ((program got address).code .armorFdSet).body s' := ⟨_, rfl⟩
  have same (r : Reg) (other : r ∉ [Reg.r10, .r11]) : s'.reg r = s.reg r := checked.reg r other
  apply Program.Reaches.jumps .armorCbkPthreadHook rfl
  rw [← named]
  apply (hook_reaches s₁).mono
  intro s₂ ⟨mem, rdx, others⟩
  refine ⟨?_, ?_, ?_, ?_, ?_⟩
  · rw [mem, named, ← checked.mem]
    rfl
  · rw [rdx, named, behind, ← checked.mem, ← same .rsp (by decide), ← same .rsi (by decide)]
    rfl
  · rw [others .r10 (by decide) (by decide), named, ← same .rdi (by decide)]
    rfl
  · rw [others .rsp (by decide) (by decide), named, ← same .rsp (by decide)]
    rfl
  · intro r callee
    have notScratch : r ≠ .r10 ∧ r ≠ .r11 ∧ r ≠ .rsp := by revert r; decide
    rw [others r (by revert r; decide) (by revert r; decide), named, ← same r (by revert r; decide)]
    simp only [program, exec, step, Machine.reg_set, Machine.reg_pop, if_neg notScratch.1,
      if_neg notScratch.2.1, if_neg notScratch.2.2]

theorem callsInPlace (instrumented : Instrumented site s) (inTarget : InTarget got s)
    (fdSet : FdSet got s) : CallsInPlace (program got address) site s := by
  apply checks_reach
  intro s' checked
  rw [if_pos inTarget, if_pos fdSet]
  apply (armorFdSet_reaches checked).mono
  intro s₁ ⟨mem, rdx, r10, rsp, saved⟩ result s₂ syscall
  have stack : Holds s₁.mem (s₁.reg .rsp + 8) (enterSaved.map site.reg ++ [site.reg .rsp]) := by
    rw [mem, rsp, UInt64.add_assoc]
    exact instrumented.stack
  have callee : ∀ r ∈ calleeSaved, s₁.reg r = site.reg r := fun r member =>
    (saved r member).trans (instrumented.saved r member)
  rw [← r10]
  apply (target_reaches stack callee syscall).mono
  intro s₃ ⟨regs, rsp', mem'⟩
  refine ⟨?_, ?_, ?_⟩
  · intro r notScratch
    by_cases isRsp : r = .rsp
    · rw [isRsp, rsp', Machine.reg_push, if_pos rfl]
    · rw [Machine.reg_push, if_neg isRsp]
      apply regs
      cases r <;> first | decide | exact absurd notScratch (by decide) | exact absurd rfl isRsp
  · rw [mem', mem]
    rfl
  intro s₄ returned
  apply (exit_reaches rfl rfl s₄).mono
  intro s₅ exit result' s₆ syscall'
  have left := exit result' s₆ _ syscall'
  rw [rdx] at left
  apply left.mono
  intro s₇ ⟨rsp'', regs'⟩
  refine ⟨?_, ?_⟩
  · rw [rsp'', returned.rsp, rsp', UInt64.sub_add_cancel]
  · intro r notScratch
    apply regs'
    cases r <;> first | decide | exact absurd notScratch (by decide)

/-- An instrumented indirect call into the target is made by the stub as the library would have made
it. Any other one is left to the library. -/
theorem armorCbkEnter_in_place (instrumented : Instrumented site s) :
    (InTarget got s ∧ FdSet got s → CallsInPlace (program got address) site s) ∧
    (¬ (InTarget got s ∧ FdSet got s) →
      (program got address).Reaches .armorCbkEnter s (.left (s.mem.load64 (s.reg .rsp)))
        fun s' => s'.reg .rsp = s.reg .rsp + 8 ∧ s'.mem = s.mem ∧
          ∀ r, r ∉ [Reg.rsp, .r10, .r11] → s'.reg r = s.reg r) := by
  constructor
  · intro called
    exact callsInPlace instrumented called.1 called.2
  · intro other
    apply checks_reach
    intro s' checked
    by_cases inTarget : InTarget got s
    · rw [if_pos inTarget, if_neg fun fdSet => other ⟨inTarget, fdSet⟩]
      exact checked.stub_ret rfl
    · rw [if_neg inTarget]
      exact checked.stub_ret rfl

/-- A library at `0x7f000100` calls back the function at `0x400200` by an instruction of two
bytes. -/
def indirectCall : Machine where
  reg
    | .rdi => 0x602100
    | .rax => 0x400200
    | .rsp => 0x7ffe0000
    | _ => 0
  mem := fun _ => 0
  gs := 0
  kernelGs := 0
  zf := false
  cf := false

/-- The instrumentation of that call, below the red zone. -/
def instrumentedCall : Machine where
  reg
    | .rdi => 0x400200
    | .rsi => 2
    | .rsp => 0x7ffdff20
    | _ => 0
  mem :=
    let got := (LibEnter.callFromTarget 0).mem
    let saved := (got.store64 0x7ffdff20 0x7f0000ee).store64 0x7ffdff30 0x602100
    (saved.store64 0x7ffdff60 0x400200).store64 0x7ffdff68 0x7ffe0000
  gs := 0
  kernelGs := 0
  zf := false
  cf := false

theorem indirectCall_instrumented : Instrumented indirectCall instrumentedCall := by
  constructor
  · simp only [enterSaved, List.map_cons, List.map_nil, List.cons_append, List.nil_append]
    refine ⟨?_, ?_, ?_, ?_, ?_, ?_, ?_, ?_, trivial⟩
    all_goals decide +kernel
  · decide

theorem armorCbkEnter_in_place_indirectCall :
    Instrumented indirectCall instrumentedCall ∧ behind instrumentedCall = 0x7f000102 ∧
    CallsInPlace (program LibEnter.sampleGot fun _ => 0x500000) indirectCall instrumentedCall :=
  ⟨indirectCall_instrumented, by decide +kernel,
    (armorCbkEnter_in_place indirectCall_instrumented).1 ⟨by decide +kernel, by decide +kernel⟩⟩

end

end PathArmor.Shared.Callback
