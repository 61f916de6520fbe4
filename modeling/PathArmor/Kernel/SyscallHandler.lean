import PathArmor.Library.X86

/-!
# The system call handler

`syscall_new` stands in for the kernel's entry point. For five system calls it switches to the
kernel stack, saves the registers there and calls a hook; then it restores the registers and jumps
to the kernel's own entry, behind its `swapgs`.
-/

namespace PathArmor.SyscallHandler
open Library Library.X86

/-- The entries of the handler. Those of `read` and `write` are there, but no test leads to them. -/
inductive Entry
  | mmap | mprotect | sigaction | sigreturn | execve | read | write
deriving DecidableEq

/-- The system call numbers the handler tests for. -/
def tests : List (UInt64 × Entry) :=
  [(0x09, .mmap), (0x0a, .mprotect), (0x0d, .sigaction), (0x0f, .sigreturn), (0x3b, .execve)]

/-- The addresses of the module's variables and of the hooks. The address of `r11_scratch` is
relative to a CPU's base. -/
structure Symbols where
  addrOldRsp : UInt64
  addrKernelStack : UInt64
  syscallOrig : UInt64
  syscallAfterSwapgs : UInt64
  r11Scratch : UInt64
  newSys : Entry → UInt64

section

variable (sym : Symbols)

/-- `SAVE`, up to the frame. -/
def saveStack : List Instr := [
  .swapgs,
  .store (.gsAbs sym.r11Scratch) .r11,
  .mov .r11 (.mem (.abs sym.addrOldRsp)),
  .store (.gsOff .r11) .rsp,
  .mov .r11 (.mem (.abs sym.addrKernelStack)),
  .mov .rsp (.mem (.gsOff .r11)),
  .mov .r11 (.mem (.gsAbs sym.r11Scratch)),
  .sti,
  .sub .rsp (.imm 0x50)]

def save : List Instr := saveStack sym ++ [
  .store (.off .rsp 0x40) .rdi,
  .store (.off .rsp 0x38) .rsi,
  .store (.off .rsp 0x30) .rdx,
  .store (.off .rsp 0x20) .rax,
  .store (.off .rsp 0x18) .r8,
  .store (.off .rsp 0x10) .r9,
  .store (.off .rsp 0x8) .r10,
  .store (.off .rsp 0) .r11,
  .store (.off .rsp 0x48) .rax,
  .store (.off .rsp 0x50) .rcx]

/-- `CONTINUE`, up to its jump. -/
def continueSyscall : List Instr := .cli :: [
  .mov .rcx (.mem (.off .rsp 0x50)),
  .mov .r11 (.mem (.off .rsp 0)),
  .mov .r10 (.mem (.off .rsp 0x8)),
  .mov .r9 (.mem (.off .rsp 0x10)),
  .mov .r8 (.mem (.off .rsp 0x18)),
  .mov .rax (.mem (.off .rsp 0x20)),
  .mov .rdx (.mem (.off .rsp 0x30)),
  .mov .rsi (.mem (.off .rsp 0x38)),
  .mov .rdi (.mem (.off .rsp 0x40))] ++ [
  .mov .r11 (.mem (.abs sym.addrOldRsp)),
  .mov .rsp (.mem (.gsOff .r11))]

end

inductive Label
  /-- The test for the first of these numbers, and the tests that follow it. -/
  | test (numbers : List (UInt64 × Entry))
  | doHook (entry : Entry)
  | hookReturned (entry : Entry)

def syscallNew : Label := .test tests

/-- The program of `syscall-handler.S`, loaded at `address`. -/
def program (sym : Symbols) (address : Label → UInt64) : Program Label where
  address := address
  code
    | .test ((number, entry) :: rest) =>
        ⟨[.cmp (.reg .rax) (.imm number)], .equal (.doHook entry) (.test rest)⟩
    | .test [] => ⟨[], .jumpTo (.mem (.abs sym.syscallOrig))⟩
    | .doHook entry => ⟨save sym, .call (.imm (sym.newSys entry)) (.hookReturned entry)⟩
    | .hookReturned _ => ⟨continueSyscall sym, .jumpTo (.mem (.abs sym.syscallAfterSwapgs))⟩

/-- The number leads to the entry. -/
def Hooked (number : UInt64) (entry : Entry) : Prop := tests.lookup number = some entry

/-- The registers the kernel's entry code uses. -/
def consumed : List Reg := [.rax, .rdi, .rsi, .rdx, .r10, .r8, .r9, .rcx, .r11, .rsp]

section

variable (sym : Symbols) (s : Machine)

/-- The cell of the CPU in which the user's stack pointer waits. -/
def oldRsp : UInt64 := s.kernelGs + s.mem.load64 sym.addrOldRsp

/-- The top of the kernel stack. -/
def kernelStack : UInt64 := s.mem.load64 (s.kernelGs + s.mem.load64 sym.addrKernelStack)

/-- What the handler reads: a cell of the CPU and the variables. -/
def inputs : List (UInt64 × Nat) := [
  (s.kernelGs + s.mem.load64 sym.addrKernelStack, 8),
  (sym.addrOldRsp, 8),
  (sym.addrKernelStack, 8),
  (sym.syscallAfterSwapgs, 8)]

/-- What the handler touches. It writes two cells of the CPU and, on the kernel stack, the frame and
the return address under it. -/
def cells : List (UInt64 × Nat) :=
  (s.kernelGs + sym.r11Scratch, 8) :: (oldRsp sym s, 8) ::
    (inputs sym s ++ [(kernelStack sym s - 0x58, 0x60)])

def Separate : Prop := (addresses (cells sym s)).Nodup

end

/-- A hook of the System V ABI has returned. It has not written the frame, and the CPU's cell and the
variables, which are set when the module is loaded, are as they were. -/
structure HookReturns (sym : Symbols) (entered returned : Machine) : Prop
    extends FunctionReturns entered returned where
  gs : returned.gs = entered.gs
  mem : ∀ x ∈ addresses [(entered.reg .rsp + 8, 0x58),
      (entered.gs + entered.mem.load64 sym.addrOldRsp, 8), (sym.addrOldRsp, 8),
      (sym.syscallAfterSwapgs, 8)],
    returned.mem x = entered.mem x

/-- The kernel's entry code gets the registers of the system call, whatever the hook does. -/
def Transparent (sym : Symbols) (address : Label → UInt64) (entry : Entry) (s : Machine) : Prop :=
  (program sym address).Reaches syscallNew s (.called (sym.newSys entry) (.hookReturned entry))
    fun s₁ => ∀ s₂, HookReturns sym s₁ s₂ →
      (program sym address).Reaches (.hookReturned entry) s₂
        (.left (s.mem.load64 sym.syscallAfterSwapgs)) fun s₃ => ∀ r ∈ consumed, s₃.reg r = s.reg r

section

variable {sym : Symbols} {address : Label → UInt64} {s : Machine}

/-- The tests change the flags only. -/
structure Tested (s s' : Machine) : Prop where
  reg : s'.reg = s.reg
  mem : s'.mem = s.mem
  kernelGs : s'.kernelGs = s.kernelGs

theorem Tested.trans {s' s'' : Machine} (first : Tested s s') (second : Tested s' s'') :
    Tested s s'' :=
  ⟨second.reg.trans first.reg, second.mem.trans first.mem, second.kernelGs.trans first.kernelGs⟩

section
variable {numbers : List (UInt64 × Entry)} {event : Event Label} {Q : Machine → Prop}

theorem test_reach {number : UInt64} {entry : Entry}
    (reaches : ∀ s', Tested s s' → (program sym address).Reaches
      (if s.reg .rax == number then .doHook entry else .test numbers) s' event Q) :
    (program sym address).Reaches (.test ((number, entry) :: numbers)) s event Q := by
  apply Program.Reaches.equal rfl
  exact reaches _ ⟨rfl, rfl, rfl⟩

/-- What holds after the tests holds of the handler, at the entry that the number leads to. -/
theorem tests_reach {entry : Entry} (found : numbers.lookup (s.reg .rax) = some entry)
    (reaches : ∀ s', Tested s s' → (program sym address).Reaches (.doHook entry) s' event Q) :
    (program sym address).Reaches (.test numbers) s event Q := by
  induction numbers generalizing s with
  | nil => cases found
  | cons first numbers ih =>
      obtain ⟨number, entry'⟩ := first
      apply test_reach
      intro s' tested
      rw [List.lookup_cons] at found
      cases same : s.reg .rax == number with
      | true =>
          rw [same] at found
          cases found
          exact reaches s' tested
      | false =>
          rw [same, ← tested.reg] at found
          exact ih found fun s'' later => reaches s'' (tested.trans later)

/-- Any other system call goes on to the kernel's entry point as it came. -/
theorem tests_pass (other : numbers.lookup (s.reg .rax) = none) :
    (program sym address).Reaches (.test numbers) s (.left (s.mem.load64 sym.syscallOrig))
      (Tested s) := by
  induction numbers generalizing s with
  | nil =>
      apply Program.Reaches.leaves s
      · simp only [program, exec, Program.leave, Machine.value, Machine.address_abs]
      · exact ⟨rfl, rfl, rfl⟩
  | cons first numbers ih =>
      obtain ⟨number, entry⟩ := first
      apply test_reach
      intro s' tested
      rw [List.lookup_cons] at other
      cases same : s.reg .rax == number with
      | true =>
          rw [same] at other
          cases other
      | false =>
          rw [same, ← tested.reg] at other
          rw [← tested.mem]
          exact (ih other).mono fun s'' => tested.trans

end

/-! ## `SAVE` -/

/-- The memory once the two cells are written. -/
def switchedMem (sym : Symbols) (s : Machine) : Memory :=
  (s.mem.store64 (s.kernelGs + sym.r11Scratch) (s.reg .r11)).store64 (oldRsp sym s) (s.reg .rsp)

theorem Separate.load64_scratch (separate : Separate sym s) {a : UInt64}
    (cell : (a, 8) ∈ inputs sym s) (v : UInt64) :
    (s.mem.store64 (s.kernelGs + sym.r11Scratch) v).load64 a = s.mem.load64 a := by
  obtain ⟨scratch, -⟩ := List.pairwise_cons.mp (disjoint_of_nodup separate)
  apply Memory.load64_store64_of_disjoint
  exact scratch _ (List.mem_cons_of_mem _ (List.mem_append_left _ cell))

theorem Separate.load64_switchedMem (separate : Separate sym s) {a : UInt64}
    (cell : (a, 8) ∈ inputs sym s) : (switchedMem sym s).load64 a = s.mem.load64 a := by
  obtain ⟨-, rest⟩ := List.pairwise_cons.mp (disjoint_of_nodup separate)
  obtain ⟨oldRsp, -⟩ := List.pairwise_cons.mp rest
  rw [← separate.load64_scratch cell]
  apply Memory.load64_store64_of_disjoint
  exact oldRsp _ (List.mem_append_left _ cell)

theorem Separate.scratch (separate : Separate sym s) :
    (switchedMem sym s).load64 (s.kernelGs + sym.r11Scratch) = s.reg .r11 := by
  obtain ⟨scratch, -⟩ := List.pairwise_cons.mp (disjoint_of_nodup separate)
  have apart := scratch (oldRsp sym s, 8) List.mem_cons_self
  calc (switchedMem sym s).load64 (s.kernelGs + sym.r11Scratch)
      = (s.mem.store64 (s.kernelGs + sym.r11Scratch) (s.reg .r11)).load64 _ :=
        Memory.load64_store64_of_disjoint apart.symm
    _ = s.reg .r11 := Memory.load64_store64 _ _ _

/-- The kernel stack is apart from what is read later. -/
theorem Separate.stack (separate : Separate sym s) {a : UInt64}
    (cell : (a, 8) ∈ (oldRsp sym s, 8) :: inputs sym s) :
    (region a 8).Disjoint (region (kernelStack sym s - 0x58) 0x60) := by
  obtain ⟨-, rest⟩ := List.pairwise_cons.mp (disjoint_of_nodup separate)
  have split : ((oldRsp sym s, 8) :: inputs sym s ++ [(kernelStack sym s - 0x58, 0x60)]).Pairwise
      fun (p q : UInt64 × Nat) => (region p.1 p.2).Disjoint (region q.1 q.2) := rest
  have apart := (List.pairwise_append.mp split).2.2 (a, 8) cell (kernelStack sym s - 0x58, 0x60)
  exact apart (List.mem_singleton_self _)

/-- On the kernel stack, the two cells written. -/
structure Switched (sym : Symbols) (s s' : Machine) : Prop where
  gs : s'.gs = s.kernelGs
  mem : s'.mem = switchedMem sym s
  rsp : s'.reg .rsp = kernelStack sym s - 0x50
  reg : ∀ r, r ≠ .rsp → s'.reg r = s.reg r

theorem exec_saveStack (separate : Separate sym s) : Switched sym s (exec (saveStack sym) s) := by
  have addrOldRsp := separate.load64_scratch (a := sym.addrOldRsp) (by simp [inputs]) (s.reg .r11)
  have addrKernelStack := separate.load64_switchedMem (a := sym.addrKernelStack)
    (by simp [inputs])
  have top := separate.load64_switchedMem (a := s.kernelGs + s.mem.load64 sym.addrKernelStack)
    (by simp [inputs])
  have scratch := separate.scratch
  rw [switchedMem, oldRsp] at addrKernelStack top scratch
  constructor
  case gs => rfl
  all_goals
    simp only [saveStack, exec, step, Machine.value, Machine.address_abs, Machine.address_gsAbs,
      Machine.address_gsOff, Machine.reg_set, Machine.mem_set, Machine.gs_set, if_true, reduceCtorEq,
      if_false, addrOldRsp, addrKernelStack, top, scratch]
  case mem => rfl
  case rsp => rfl
  case reg =>
    -- `r11` holds what the first store saved.
    intro r other
    rw [if_neg other]
    split
    · next same => rw [same]
    · rfl

/-- The slots of the frame, in the order of `SAVE`. -/
def saved : List (Nat × Reg) := [(0x40, .rdi), (0x38, .rsi), (0x30, .rdx), (0x20, .rax), (0x18, .r8),
  (0x10, .r9), (0x8, .r10), (0, .r11), (0x48, .rax), (0x50, .rcx)]

/-- At the hook: its return address is under the frame. -/
structure AtHook (sym : Symbols) (s s' : Machine) : Prop where
  rsp : s'.reg .rsp = kernelStack sym s - 0x58
  gs : s'.gs = s.kernelGs
  slot : ∀ d r, (d, r) ∈ saved → s'.mem.load64 (s'.reg .rsp + 8 + UInt64.ofNat d) = s.reg r
  oldRsp : s'.mem.load64 (oldRsp sym s) = s.reg .rsp
  input : ∀ a, (a, 8) ∈ inputs sym s → s'.mem.load64 a = s.mem.load64 a

theorem exec_save (separate : Separate sym s) (ret : UInt64) :
    AtHook sym s ((exec (save sym) s).push ret) := by
  have switched := exec_saveStack separate
  obtain ⟨s₁, named⟩ : ∃ s₁, s₁ = exec (saveStack sym) s := ⟨_, rfl⟩
  rw [← named] at switched
  have stored : Stored saved s₁ (exec (save sym) s) := by
    rw [save, exec_append, ← named]
    exact exec_store (by decide) (by decide)
  obtain ⟨s₂, named'⟩ : ∃ s₂, s₂ = exec (save sym) s := ⟨_, rfl⟩
  rw [← named'] at stored ⊢
  have rsp : s₂.reg .rsp - 8 = kernelStack sym s - 0x58 := by
    rw [stored.reg, switched.rsp]
    grind
  have above : s₁.reg .rsp = kernelStack sym s - 0x58 + UInt64.ofNat 8 := by
    rw [switched.rsp]
    change _ = kernelStack sym s - 0x58 + 8
    grind
  have outside : ∀ x ∉ region (kernelStack sym s - 0x58) 0x60,
      (s₂.push ret).mem x = switchedMem sym s x := by
    intro x away
    rw [← switched.mem, Machine.mem_push, rsp]
    rw [Memory.store64_of_notMem fun inside => away (region_subset _ (by decide) inside)]
    apply stored.mem
    intro d r member inside
    have bound : 8 + d + 8 ≤ 0x60 := by
      have all : ∀ p ∈ saved, 8 + p.1 + 8 ≤ 0x60 := by decide
      exact all (d, r) member
    rw [above, offset_offset] at inside
    exact away (region_offset_subset _ bound inside)
  have kept : ∀ a, (a, 8) ∈ (oldRsp sym s, 8) :: inputs sym s →
      (s₂.push ret).mem.load64 a = (switchedMem sym s).load64 a := by
    intro a cell
    apply Memory.load64_congr
    intro k below
    exact outside _ fun inside => separate.stack cell (mem_region.mpr ⟨k, below, rfl⟩) inside
  constructor
  · rw [Machine.reg_push, if_pos rfl, rsp]
  · rw [Machine.gs_push, stored.gs, switched.gs]
  · intro d r member
    have notRsp : r ≠ .rsp := by
      have all : ∀ p ∈ saved, p.2 ≠ .rsp := by decide
      exact all (d, r) member
    have bound : 8 + d + 8 ≤ 2 ^ 64 := by
      have all : ∀ p ∈ saved, 8 + p.1 + 8 ≤ 2 ^ 64 := by decide
      exact all (d, r) member
    calc (s₂.push ret).mem.load64 ((s₂.push ret).reg .rsp + 8 + UInt64.ofNat d)
        = (s₂.mem.store64 (kernelStack sym s - 0x58) ret).load64 (s₁.reg .rsp + UInt64.ofNat d) := by
          rw [Machine.mem_push, Machine.reg_push, if_pos rfl, rsp, above]
          rfl
      _ = s₂.mem.load64 (s₁.reg .rsp + UInt64.ofNat d) := by
          apply Memory.load64_congr
          intro k below
          rw [above, offset_offset, offset_offset]
          exact Memory.store64_of_notMem (offset_notMem_region (by omega) (by omega))
      _ = s.reg r := by rw [stored.slot d r member, switched.reg r notRsp]
  · rw [kept _ List.mem_cons_self]
    exact Memory.load64_store64 _ _ _
  · intro a cell
    rw [kept a (List.mem_cons_of_mem _ cell), separate.load64_switchedMem cell]

/-! ## `CONTINUE` -/

/-- The slots of the frame, in the order of `CONTINUE`. -/
def restored : List (Nat × Reg) := [(0x50, .rcx), (0, .r11), (0x8, .r10), (0x10, .r9), (0x18, .r8),
  (0x20, .rax), (0x30, .rdx), (0x38, .rsi), (0x40, .rdi)]

theorem restored_subset : restored ⊆ saved := by decide

/-- At the kernel's entry code: `r11` was restored and then used to find the stack pointer. -/
structure AtEntry (sym : Symbols) (s s' : Machine) : Prop where
  reg : ∀ r ∈ consumed, r ≠ .r11 → s'.reg r = s.reg r
  r11 : s'.reg .r11 = s.mem.load64 sym.addrOldRsp

theorem HookReturns.load64 {s₁ s₂ : Machine} (returns : HookReturns sym s₁ s₂) {a : UInt64} {n d : Nat}
    (block : (a, n) ∈ [(s₁.reg .rsp + 8, 0x58), (s₁.gs + s₁.mem.load64 sym.addrOldRsp, 8),
      (sym.addrOldRsp, 8), (sym.syscallAfterSwapgs, 8)]) (inside : d + 8 ≤ n) :
    s₂.mem.load64 (a + UInt64.ofNat d) = s₁.mem.load64 (a + UInt64.ofNat d) := by
  apply Memory.load64_congr
  intro k below
  rw [offset_offset]
  exact returns.mem _ (mem_addresses block (by omega))

theorem hookReturned_reaches {s₁ s₂ : Machine} (hook : AtHook sym s s₁)
    (returns : HookReturns sym s₁ s₂) (entry : Entry) :
    (program sym address).Reaches (.hookReturned entry) s₂
      (.left (s.mem.load64 sym.syscallAfterSwapgs)) (AtEntry sym s) := by
  have loaded : Loaded restored s₂ (exec (restored.map fun p =>
      .mov p.2 (.mem (.off .rsp (UInt64.ofNat p.1)))) s₂) := exec_load (by decide) (by decide)
  obtain ⟨s₃, named⟩ : ∃ s₃, s₃ = exec (restored.map fun p =>
      .mov p.2 (.mem (.off .rsp (UInt64.ofNat p.1)))) s₂ := ⟨_, rfl⟩
  rw [← named] at loaded
  have addrOldRsp : s₁.mem.load64 sym.addrOldRsp = s.mem.load64 sym.addrOldRsp :=
    hook.input _ (by simp [inputs])
  have cell : ∀ a, (a, 8) ∈ [(oldRsp sym s, 8), (sym.addrOldRsp, 8), (sym.syscallAfterSwapgs, 8)] →
      s₃.mem.load64 a = s₁.mem.load64 a := by
    intro a block
    rw [oldRsp, ← addrOldRsp, ← hook.gs] at block
    have same := returns.load64 (List.mem_cons_of_mem _ block) (d := 0) le_rfl
    rw [loaded.mem]
    rwa [show UInt64.ofNat 0 = 0 from rfl, UInt64.add_zero] at same
  have body : exec (continueSyscall sym) s₂ =
      (s₃.set .r11 (s.mem.load64 sym.addrOldRsp)).set .rsp (s.reg .rsp) := by
    have gs : s₃.gs + s.mem.load64 sym.addrOldRsp = oldRsp sym s := by
      rw [loaded.gs, returns.gs, hook.gs, oldRsp]
    calc exec (continueSyscall sym) s₂
        = exec [.mov .r11 (.mem (.abs sym.addrOldRsp)), .mov .rsp (.mem (.gsOff .r11))] s₃ := by
          rw [named, ← exec_append]
          rfl
      _ = (s₃.set .r11 (s.mem.load64 sym.addrOldRsp)).set .rsp (s.reg .rsp) := by
          simp only [exec, step, Machine.value, Machine.address_abs, Machine.address_gsOff,
            Machine.mem_set, Machine.gs_set, Machine.reg_set, if_true]
          rw [cell sym.addrOldRsp (by simp), addrOldRsp, gs, cell (oldRsp sym s) (by simp),
            hook.oldRsp]
  apply Program.Reaches.leaves ((s₃.set .r11 (s.mem.load64 sym.addrOldRsp)).set .rsp (s.reg .rsp))
  · have target : s₃.mem.load64 sym.syscallAfterSwapgs = s.mem.load64 sym.syscallAfterSwapgs := by
      rw [cell _ (by simp), hook.input _ (by simp [inputs])]
    rw [← target, ← body]
    simp only [program, Program.leave, Machine.value, Machine.address_abs, body, Machine.mem_set]
  constructor
  · intro r member notR11
    by_cases same : r = .rsp
    · rw [same]
      rfl
    obtain ⟨d, slot⟩ : ∃ d, (d, r) ∈ restored := by
      have all : ∀ r ∈ consumed, r ≠ .r11 → r ≠ .rsp → ∃ p ∈ restored, p.2 = r := by decide
      obtain ⟨⟨d, r⟩, slot, rfl⟩ := all r member notR11 same
      exact ⟨d, slot⟩
    have bound : d + 8 ≤ 0x58 := by
      have all : ∀ p ∈ restored, p.1 + 8 ≤ 0x58 := by decide
      exact all (d, r) slot
    rw [Machine.reg_set, if_neg same, Machine.reg_set, if_neg notR11, loaded.reg d r slot,
      returns.rsp, returns.load64 List.mem_cons_self bound, hook.slot d r (restored_subset slot)]
  · rfl

/-! ## The handler -/

theorem Tested.atHook {s' s₁ : Machine} (tested : Tested s s') (hook : AtHook sym s' s₁) :
    AtHook sym s s₁ := by
  have stack : kernelStack sym s' = kernelStack sym s := by
    rw [kernelStack, tested.mem, tested.kernelGs]
    rfl
  have cell : oldRsp sym s' = oldRsp sym s := by
    rw [oldRsp, tested.mem, tested.kernelGs]
    rfl
  have input : inputs sym s' = inputs sym s := by
    rw [inputs, tested.mem, tested.kernelGs]
    rfl
  obtain ⟨rsp, gs, slot, oldRsp, inputs⟩ := hook
  rw [stack] at rsp
  rw [tested.kernelGs] at gs
  rw [cell] at oldRsp
  rw [input, tested.mem] at inputs
  rw [tested.reg] at slot oldRsp
  exact ⟨rsp, gs, slot, oldRsp, inputs⟩

theorem Tested.separate {s' : Machine} (tested : Tested s s') (separate : Separate sym s) :
    Separate sym s' := by
  rw [Separate, cells, inputs, oldRsp, kernelStack, tested.mem, tested.kernelGs]
  exact separate

theorem syscallNew_reaches {entry : Entry} (hooked : Hooked (s.reg .rax) entry)
    (separate : Separate sym s) :
    (program sym address).Reaches syscallNew s (.called (sym.newSys entry) (.hookReturned entry))
      (AtHook sym s) := by
  apply tests_reach hooked
  intro s' tested
  apply Program.Reaches.leaves _ rfl
  exact tested.atHook (exec_save (tested.separate separate) _)

theorem transparent_of_r11 {entry : Entry} (hooked : Hooked (s.reg .rax) entry)
    (separate : Separate sym s) (r11 : s.reg .r11 = s.mem.load64 sym.addrOldRsp) :
    Transparent sym address entry s := by
  apply (syscallNew_reaches hooked separate).mono
  intro s₁ hook s₂ returns
  apply (hookReturned_reaches hook returns entry).mono
  intro s₃ atEntry r member
  by_cases same : r = .r11
  · rw [same, atEntry.r11, r11]
  · exact atEntry.reg r member same

theorem r11_of_transparent {entry : Entry} (hooked : Hooked (s.reg .rax) entry)
    (separate : Separate sym s) (transparent : Transparent sym address entry s) :
    s.reg .r11 = s.mem.load64 sym.addrOldRsp := by
  obtain ⟨s₁, -, hook, goesOn⟩ := (syscallNew_reaches hooked separate).and transparent
  -- A hook that does nothing will do.
  have returns : HookReturns sym s₁ (s₁.set .rsp (s₁.reg .rsp + 8)) := by
    refine ⟨⟨rfl, ?_⟩, rfl, fun _ _ => rfl⟩
    intro r member
    apply if_neg
    rintro rfl
    exact absurd member (by decide)
  obtain ⟨s₃, -, atEntry, same⟩ := (hookReturned_reaches hook returns entry).and (goesOn _ returns)
  rw [← same .r11 (by decide), atEntry.r11]

/-- The kernel gets the registers of a hooked system call just if the user's flags in `r11` happen to
be the address that `CONTINUE` leaves there. -/
theorem syscallNew_transparent_iff {entry : Entry} (hooked : Hooked (s.reg .rax) entry)
    (separate : Separate sym s) :
    Transparent sym address entry s ↔ s.reg .r11 = s.mem.load64 sym.addrOldRsp :=
  ⟨r11_of_transparent hooked separate, transparent_of_r11 hooked separate⟩

end

def sampleSymbols : Symbols where
  addrOldRsp := 0x1000
  addrKernelStack := 0x1008
  syscallOrig := 0x1010
  syscallAfterSwapgs := 0x1018
  r11Scratch := 0x20
  newSys _ := 0x5000

/-- An `mprotect` from user code, with the given flags in `r11`. -/
def mprotectCall (flags : UInt64) : Machine where
  reg
    | .rax => 0x0a
    | .rcx => 0x400100
    | .rsp => 0x7ffe0000
    | .r11 => flags
    | _ => 0
  mem :=
    let zero : Memory := fun _ => 0
    let data := ((zero.store64 0x1000 0x10).store64 0x1008 0x18).store64 0x1018 0x9000
    data.store64 0x2018 0x4000
  gs := 0
  kernelGs := 0x2000
  zf := false
  cf := false

theorem cells_mprotectCall (flags : UInt64) : cells sampleSymbols (mprotectCall flags) =
    [(0x2020, 8), (0x2010, 8), (0x2018, 8), (0x1000, 8), (0x1008, 8), (0x1018, 8),
      (0x3fa8, 0x60)] := by
  -- The layout does not depend on the flags.
  change cells sampleSymbols (mprotectCall 0) = _
  decide +kernel

theorem separate_mprotectCall (flags : UInt64) : Separate sampleSymbols (mprotectCall flags) := by
  rw [Separate, cells_mprotectCall]
  exact nodup_addresses (by decide) (by decide)

theorem syscallNew_transparent_mprotectCall :
    Transparent sampleSymbols (fun _ => 0x6000) .mprotect (mprotectCall 0x10) := by
  have hooked : Hooked ((mprotectCall 0x10).reg .rax) .mprotect := rfl
  exact (syscallNew_transparent_iff hooked (separate_mprotectCall 0x10)).mpr (by decide +kernel)

theorem mprotectCall_not_transparent :
    ¬ Transparent sampleSymbols (fun _ => 0x6000) .mprotect (mprotectCall 0x246) := by
  intro transparent
  have hooked : Hooked ((mprotectCall 0x246).reg .rax) .mprotect := rfl
  have flags := r11_of_transparent hooked (separate_mprotectCall 0x246) transparent
  exact absurd flags (by decide +kernel)

end PathArmor.SyscallHandler
