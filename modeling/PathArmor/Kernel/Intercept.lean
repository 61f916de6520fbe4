import PathArmor.Library.X86

/-!
# Interception of a kernel function

`intercept_symbol` writes a relative jump over the five bytes that a kernel function starts with,
and another one at the end of the interceptor, back behind the first. Memory is written through the
page tables: a store to a page that is not writable is a fault.
-/

namespace PathArmor.Intercept
open PathArmor.Library PathArmor.Library.X86

/-- Memory with the bit `_PAGE_RW` of each entry of the page tables. -/
structure KernelText where
  mem : Memory
  writable : Nat → Bool

def relativejumpOpcode : UInt8 := 0xe9

def nops : List UInt8 := [0x90, 0x90, 0x90, 0x90, 0x90]

/-- The one instruction that the function tracer leaves at the start of a function. -/
def longNop : List UInt8 := [0x0f, 0x1f, 0x44, 0x00, 0x00]

section
variable (page : UInt64 → Nat)

namespace KernelText

def makeRw (t : KernelText) (address : UInt64) : KernelText :=
  { t with writable := Function.update t.writable (page address) true }

def makeRo (t : KernelText) (address : UInt64) : KernelText :=
  { t with writable := Function.update t.writable (page address) false }

/-- `none` is a fault. -/
def store (t : KernelText) (address : UInt64) (bytes : List UInt8) : Option KernelText :=
  if (region address bytes.length).all fun x => t.writable (page x) then
    some { t with mem := t.mem.write address bytes }
  else none

/-- The displacement is cut off to 32 bits. -/
def synthesizeReljump (t : KernelText) (source target : UInt64) : Option KernelText :=
  (t.store page (source + 1) (toBytes 4 (target - (source + 5)).toNat)).bind fun t =>
    t.store page source [relativejumpOpcode]

end KernelText

/-- `kallsyms_lookup_name` gave `symbol`. The second result is that 0 was returned. -/
def interceptSymbol (symbol : Option UInt64) (jmpDst jmpBackSrc : UInt64) (t : KernelText) :
    Option (KernelText × Bool) :=
  match symbol with
  | none => some (t, false)
  | some jmpSrc =>
      let jmpBackDst := jmpSrc + 5
      let t := ((t.makeRw page jmpSrc).makeRw page jmpDst).makeRw page jmpBackSrc
      (t.synthesizeReljump page jmpSrc jmpDst).bind fun t =>
        (t.synthesizeReljump page jmpBackSrc jmpBackDst).map fun t =>
          (((t.makeRo page jmpSrc).makeRo page jmpDst).makeRo page jmpBackSrc, true)

def restoreSymbol (symbol : Option UInt64) (t : KernelText) : Option (KernelText × Bool) :=
  match symbol with
  | none => some (t, false)
  | some jmpSrc =>
      ((t.makeRw page jmpSrc).store page jmpSrc nops).map fun t => (t.makeRo page jmpSrc, true)

end

/-- Where the processor goes on that executes the five bytes at `x`, if they are a relative jump or
do nothing. -/
def goesOn (m : Memory) (x : UInt64) : Option UInt64 :=
  if m x = relativejumpOpcode then
    some (x + 5 + ⟨(m.load32 (x + 1)).toBitVec.signExtend 64⟩)
  else if m.read x 5 = nops ∨ m.read x 5 = longNop then some (x + 5)
  else none

/-- The displacement fits into 32 bits. -/
def Near (source target : UInt64) : Prop :=
  -2 ^ 31 ≤ (target - (source + 5)).toBitVec.toInt ∧
    (target - (source + 5)).toBitVec.toInt < 2 ^ 31

instance (source target : UInt64) : Decidable (Near source target) :=
  inferInstanceAs (Decidable (_ ∧ _))

/-! ## Relative jumps -/

/-- The five bytes of a relative jump. -/
def reljump (source target : UInt64) : List UInt8 :=
  relativejumpOpcode :: toBytes 4 (target - (source + 5)).toNat

theorem length_reljump (source target : UInt64) : (reljump source target).length = 5 := by
  rw [reljump, List.length_cons, length_toBytes]

theorem signExtend_setWidth_iff (d : BitVec 64) :
    (d.setWidth 32).signExtend 64 = d ↔ -2 ^ 31 ≤ d.toInt ∧ d.toInt < 2 ^ 31 := by
  have below := d.isLt
  rw [← BitVec.toInt_inj, BitVec.toInt_signExtend_of_le (by omega), BitVec.toInt_setWidth,
    BitVec.toInt_eq_toNat_cond, Int.bmod_def]
  split <;> split <;> omega

theorem read_succ (m : Memory) (x : UInt64) (n : Nat) :
    m.read x (n + 1) = m x :: m.read (x + 1) n := by
  rw [Memory.read, Nat.add_comm, region_add, List.map_append]
  simp [region, Memory.read]

theorem goesOn_reljump {m : Memory} {source target : UInt64}
    (patched : m.read source 5 = reljump source target) :
    goesOn m source = some target ↔ Near source target := by
  rw [read_succ, reljump, List.cons.injEq] at patched
  obtain ⟨opcode, bytes⟩ := patched
  obtain ⟨distance, rfl⟩ : ∃ distance, target = source + 5 + distance := ⟨target - (source + 5), by grind⟩
  have back : source + 5 + distance - (source + 5) = distance := by grind
  rw [back] at bytes
  have word : (m.load32 (source + 1)).toBitVec = distance.toBitVec.setWidth 32 := by
    rw [Memory.load32, bytes, ofBytes_toBytes]
    apply BitVec.eq_of_toNat_eq
    simp
  rw [goesOn, if_pos opcode, word, Option.some.injEq, UInt64.add_right_inj, Near, back,
    ← signExtend_setWidth_iff, ← UInt64.toBitVec_inj]

theorem goesOn_nops {m : Memory} {x : UInt64} (nothing : m.read x 5 = nops ∨ m.read x 5 = longNop) :
    goesOn m x = some (x + 5) := by
  have other : m x ≠ relativejumpOpcode := by
    rw [read_succ] at nothing
    rcases nothing with same | same <;>
      · rw [(List.cons.inj same).1]
        decide
  rw [goesOn, if_neg other, if_pos nothing]

/-! ## Patches -/

/-- The five bytes at `x` are on one page. -/
def OnePage (page : UInt64 → Nat) (x : UInt64) : Prop := ∀ y ∈ region x 5, page y = page x

section
variable {page : UInt64 → Nat} {t : KernelText}

theorem store_of_writable {address : UInt64} {bytes : List UInt8}
    (writable : ∀ x ∈ region address bytes.length, t.writable (page x)) :
    t.store page address bytes = some { t with mem := t.mem.write address bytes } := by
  rw [KernelText.store, if_pos (List.all_eq_true.mpr writable)]

/-- The displacement is written before the opcode, which makes no difference in the end. -/
theorem synthesizeReljump_of_writable {source : UInt64} (target : UInt64)
    (writable : ∀ x ∈ region source 5, t.writable (page x)) :
    t.synthesizeReljump page source target =
      some { t with mem := t.mem.write source (reljump source target) } := by
  have split : region source 5 = region source 1 ++ region (source + 1) 4 := region_add source 1 4
  have apart := (List.nodup_append.mp (split ▸ region_nodup source (by omega))).2.2
  rw [KernelText.synthesizeReljump, store_of_writable, Option.bind_some, store_of_writable]
  · congr 2
    rw [Memory.write_comm]
    · exact Memory.write_append (by simp)
    · intro x second first
      rw [length_toBytes] at second
      exact apart x first x second rfl
  · intro x inside
    exact writable x (split ▸ List.mem_append_left _ inside)
  · intro x inside
    rw [length_toBytes] at inside
    exact writable x (split ▸ List.mem_append_right _ inside)

/-- The memory after `intercept_symbol`. -/
def patched (m : Memory) (jmpSrc jmpDst jmpBackSrc : UInt64) : Memory :=
  (m.write jmpSrc (reljump jmpSrc jmpDst)).write jmpBackSrc (reljump jmpBackSrc (jmpSrc + 5))

variable {jmpSrc jmpBackSrc : UInt64}

theorem interceptSymbol_mem (t : KernelText) (jmpDst : UInt64) (srcPage : OnePage page jmpSrc)
    (backPage : OnePage page jmpBackSrc) :
    ∃ t', interceptSymbol page (some jmpSrc) jmpDst jmpBackSrc t = some (t', true) ∧
      t'.mem = patched t.mem jmpSrc jmpDst jmpBackSrc := by
  rw [interceptSymbol, synthesizeReljump_of_writable, Option.bind_some,
    synthesizeReljump_of_writable, Option.map_some]
  · exact ⟨_, rfl, rfl⟩
  · intro x inside
    simp [KernelText.makeRw, backPage x inside]
  · intro x inside
    simp [KernelText.makeRw, srcPage x inside, Function.update_apply]

theorem restoreSymbol_mem (t : KernelText) (srcPage : OnePage page jmpSrc) :
    ∃ t', restoreSymbol page (some jmpSrc) t = some (t', true) ∧
      t'.mem = t.mem.write jmpSrc nops := by
  rw [restoreSymbol, store_of_writable, Option.map_some]
  · exact ⟨_, rfl, rfl⟩
  · intro x inside
    simp [KernelText.makeRw, srcPage x inside]

end

section
variable {m : Memory} {jmpSrc jmpDst jmpBackSrc : UInt64}

theorem read_write_of_disjoint {a b : UInt64} {n : Nat} {bytes : List UInt8}
    (apart : (region a n).Disjoint (region b bytes.length)) :
    (m.write b bytes).read a n = m.read a n := by
  apply Memory.read_congr
  intro k below
  exact Memory.write_of_notMem (apart (mem_region.mpr ⟨k, below, rfl⟩))

theorem read_reljump (m : Memory) (source target : UInt64) :
    (m.write source (reljump source target)).read source 5 = reljump source target := by
  have written : (m.write source (reljump source target)).read source
      (reljump source target).length = reljump source target :=
    Memory.read_write_self (by rw [length_reljump]; omega)
  rwa [length_reljump] at written

theorem read_patched_src (apart : (region jmpSrc 5).Disjoint (region jmpBackSrc 5)) :
    (patched m jmpSrc jmpDst jmpBackSrc).read jmpSrc 5 = reljump jmpSrc jmpDst := by
  rw [patched, read_write_of_disjoint (by rwa [length_reljump]), read_reljump]

theorem read_patched_back :
    (patched m jmpSrc jmpDst jmpBackSrc).read jmpBackSrc 5 =
      reljump jmpBackSrc (jmpSrc + 5) := read_reljump _ _ _

theorem read_nops (m : Memory) (x : UInt64) : (m.write x nops).read x 5 = nops := by
  have written : (m.write x nops).read x nops.length = nops :=
    Memory.read_write_self (by decide)
  exact written

theorem patched_of_notMem {x : UInt64} (src : x ∉ region jmpSrc 5) (back : x ∉ region jmpBackSrc 5) :
    patched m jmpSrc jmpDst jmpBackSrc x = m x := by
  rw [patched, Memory.write_of_notMem (by rwa [length_reljump]),
    Memory.write_of_notMem (by rwa [length_reljump])]

end

/-! ## The interceptor -/

inductive Label
  | preSignalDelivered
  | hookReturned

/-- The registers that `pre_signal_delivered` saves. -/
def arguments : List Reg := [.rdi, .rsi, .rdx, .rcx, .r8]

/-- The code of `pre.S` between its two places for patches; the second one has been patched with a
jump to `back`. -/
def interceptor (newSignalDelivered back : UInt64) (address : Label → UInt64) : Program Label where
  address := address
  code
    | .preSignalDelivered =>
        ⟨arguments.map fun r => .push (.reg r), .call (.imm newSignalDelivered) .hookReturned⟩
    | .hookReturned => ⟨arguments.reverse.map fun r => .pop r, .jumpTo (.imm back)⟩

/-- The hook has returned, and has not written to the stack of its caller. -/
structure HookReturns (entered returned : Machine) : Prop
    extends FunctionReturns entered returned where
  mem : ∀ x ∈ region (entered.reg .rsp + 8) 40, returned.mem x = entered.mem x

/-- The hook is called with the arguments of the intercepted function, and whatever it does, the
function then goes on at `back` as if there had been no hook. -/
def Transparent (newSignalDelivered back : UInt64) (address : Label → UInt64) (s : Machine) : Prop :=
  (interceptor newSignalDelivered back address).Reaches .preSignalDelivered s
    (.called newSignalDelivered .hookReturned) fun s₁ =>
      (∀ r, r ≠ .rsp → s₁.reg r = s.reg r) ∧
      (∀ x ∉ region (s.reg .rsp - 48) 48, s₁.mem x = s.mem x) ∧
      ∀ s₂, HookReturns s₁ s₂ →
        (interceptor newSignalDelivered back address).Reaches .hookReturned s₂ (.left back) fun s₃ =>
          s₃.mem = s₂.mem ∧ ∀ r ∈ .rsp :: arguments ++ calleeSaved, s₃.reg r = s.reg r

theorem interceptor_transparent (newSignalDelivered back : UInt64) (address : Label → UInt64)
    (s : Machine) : Transparent newSignalDelivered back address s := by
  have saved := exec_push arguments (by decide) (.nil : Holds s.mem (s.reg .rsp) []) (by decide)
  obtain ⟨s', named⟩ : ∃ s', s' = exec (arguments.map fun r => .push (.reg r)) s := ⟨_, rfl⟩
  rw [← named] at saved
  have top : s'.reg .rsp = s.reg .rsp - 40 := saved.rsp
  have entered : (s'.push (address .hookReturned)).reg .rsp = s.reg .rsp - 48 := by
    rw [Machine.reg_push, if_pos rfl, top]
    grind
  apply Program.Reaches.leaves (s'.push (address .hookReturned))
  · rw [named]
    rfl
  refine ⟨?_, ?_, ?_⟩
  · intro r notRsp
    rw [Machine.reg_push, if_neg notRsp, saved.reg r notRsp]
  · intro x outside
    have below : region (s.reg .rsp - 48) 48 =
        region (s.reg .rsp - 48) 8 ++ region (s.reg .rsp - 48 + 8) 40 := region_add _ 8 40
    have back : s.reg .rsp - 48 + 8 = s.reg .rsp - 40 := by grind
    rw [below, back, List.mem_append, not_or] at outside
    rw [Machine.mem_push, top, show s.reg .rsp - 40 - 8 = s.reg .rsp - 48 by grind,
      Memory.store64_of_notMem outside.1]
    exact saved.mem x outside.2
  · intro s₂ returned
    have back : s₂.reg .rsp = s'.reg .rsp := by
      rw [returned.rsp, Machine.reg_push, if_pos rfl, UInt64.sub_add_cancel]
    have stack : Holds s₂.mem (s₂.reg .rsp) ((arguments.map s.reg).reverse ++ []) := by
      rw [back]
      apply saved.stack.congr
      intro k below
      have bound : k < 40 := by simpa [arguments] using below
      have above : s'.reg .rsp = s'.reg .rsp - 8 + UInt64.ofNat 8 :=
        (UInt64.sub_add_cancel _ 8).symm
      rw [returned.mem, Machine.mem_push, Memory.store64_of_notMem]
      · rw [above, offset_offset, ← above]
        exact offset_notMem_region (by omega) (by omega)
      · rw [Machine.reg_push, if_pos rfl, UInt64.sub_add_cancel]
        exact mem_region.mpr ⟨k, bound, rfl⟩
    have popped := exec_pop arguments.reverse (by decide) (by decide) stack (by simp)
    obtain ⟨s₃, named'⟩ : ∃ s₃, s₃ = exec (arguments.reverse.map fun r => .pop r) s₂ := ⟨_, rfl⟩
    rw [← named'] at popped
    apply Program.Reaches.leaves s₃
    · rw [named']
      rfl
    refine ⟨popped.mem, ?_⟩
    intro r kept
    rw [List.cons_append, List.mem_cons, List.mem_append] at kept
    rcases kept with rfl | argument | callee
    · have higher : s₃.reg .rsp = s₂.reg .rsp + 40 := popped.rsp
      rw [higher, back, top]
      grind
    · have same : arguments.map s₃.reg = arguments.map s.reg := by
        have regs := popped.regs
        rwa [List.map_reverse, List.reverse_inj] at regs
      exact List.map_inj_left.mp same r argument
    · have notRsp : r ≠ .rsp := by revert r; decide
      rw [popped.reg r (by revert r; decide) notRsp, returned.saved r callee, Machine.reg_push,
        if_neg notRsp, saved.reg r notRsp]

end PathArmor.Intercept
