import PathArmor.Library.Memory

/-!
# A fragment of x86-64

The integer instructions of hand-written entry and exit stubs, in basic blocks. A run goes on until
control leaves the code, by a return, an indirect jump, a call or a system call; what the other side
does is up to the statement about the run.
-/

namespace PathArmor.Library.X86

inductive Reg
  | rax | rbx | rcx | rdx | rsi | rdi | rbp | rsp | r8 | r9 | r10 | r11 | r12 | r13 | r14 | r15
deriving DecidableEq

/-- The registers a function of the System V ABI hands back as it found them, besides `rsp`. -/
def calleeSaved : List Reg := [.rbx, .rbp, .r12, .r13, .r14, .r15]

structure Machine where
  reg : Reg → UInt64
  mem : Memory
  /-- The base of the `gs` segment and the one `swapgs` exchanges it with. -/
  gs : UInt64
  kernelGs : UInt64
  zf : Bool
  cf : Bool

/-- The operand `disp(base)`, or `%gs:disp(base)`; without a base it is an absolute address. -/
structure Address where
  base : Option Reg
  disp : UInt64
  gs : Bool

namespace Address

def off (base : Reg) (disp : UInt64) : Address := ⟨some base, disp, false⟩

def abs (a : UInt64) : Address := ⟨none, a, false⟩

def gsOff (base : Reg) : Address := ⟨some base, 0, true⟩

def gsAbs (a : UInt64) : Address := ⟨none, a, true⟩

end Address

inductive Operand
  | reg (r : Reg)
  | imm (value : UInt64)
  | mem (address : Address)

inductive Instr
  | mov (dst : Reg) (src : Operand)
  | store (dst : Address) (src : Reg)
  | lea (dst : Reg) (src : Address)
  | add (dst : Reg) (src : Operand)
  | sub (dst : Reg) (src : Operand)
  /-- The flags of `left - right`. -/
  | cmp (left right : Operand)
  /-- The same on a memory word of 32 bits. -/
  | cmpl (left : Address) (right : UInt32)
  | push (src : Operand)
  | pop (dst : Reg)
  | swapgs
  -- The interrupt flag is not part of the state.
  | sti
  | cli

namespace Machine

def set (s : Machine) (r : Reg) (value : UInt64) : Machine :=
  { s with reg := fun q => if q = r then value else s.reg q }

def address (s : Machine) (a : Address) : UInt64 :=
  (if a.gs then s.gs else 0) + (match a.base with | some r => s.reg r | none => 0) + a.disp

def value (s : Machine) : Operand → UInt64
  | .reg r => s.reg r
  | .imm value => value
  | .mem a => s.mem.load64 (s.address a)

def push (s : Machine) (value : UInt64) : Machine :=
  { s.set .rsp (s.reg .rsp - 8) with mem := s.mem.store64 (s.reg .rsp - 8) value }

def pop (s : Machine) (r : Reg) : Machine :=
  (s.set .rsp (s.reg .rsp + 8)).set r (s.mem.load64 (s.reg .rsp))

section

variable (s : Machine) (r q : Reg) (v : UInt64)

@[simp] theorem reg_set : (s.set r v).reg q = if q = r then v else s.reg q := rfl

@[simp] theorem mem_set : (s.set r v).mem = s.mem := rfl

@[simp] theorem gs_set : (s.set r v).gs = s.gs := rfl

@[simp] theorem reg_push : (s.push v).reg q = if q = .rsp then s.reg .rsp - 8 else s.reg q := rfl

@[simp] theorem mem_push : (s.push v).mem = s.mem.store64 (s.reg .rsp - 8) v := rfl

@[simp] theorem gs_push : (s.push v).gs = s.gs := rfl

@[simp] theorem reg_pop : (s.pop r).reg q =
    if q = r then s.mem.load64 (s.reg .rsp) else if q = .rsp then s.reg .rsp + 8 else s.reg q := rfl

@[simp] theorem address_off : s.address (.off r v) = s.reg r + v := by
  simp [address, Address.off]

@[simp] theorem address_abs : s.address (.abs v) = v := by
  simp [address, Address.abs]

@[simp] theorem address_gsOff : s.address (.gsOff r) = s.gs + s.reg r := by
  simp [address, Address.gsOff]

@[simp] theorem address_gsAbs : s.address (.gsAbs v) = s.gs + v := by
  simp [address, Address.gsAbs]

end

end Machine

def step : Instr → Machine → Machine
  | .mov dst src, s => s.set dst (s.value src)
  | .store dst src, s => { s with mem := s.mem.store64 (s.address dst) (s.reg src) }
  | .lea dst src, s => s.set dst (s.address src)
  | .add dst src, s =>
      let sum := s.reg dst + s.value src
      { s.set dst sum with zf := sum == 0, cf := decide (sum < s.reg dst) }
  | .sub dst src, s =>
      { s.set dst (s.reg dst - s.value src) with
        zf := s.reg dst == s.value src, cf := decide (s.reg dst < s.value src) }
  | .cmp left right, s =>
      { s with zf := s.value left == s.value right, cf := decide (s.value left < s.value right) }
  | .cmpl left right, s =>
      let word := s.mem.load32 (s.address left)
      { s with zf := word == right, cf := decide (word < right) }
  | .push src, s => s.push (s.value src)
  | .pop dst, s => s.pop dst
  | .swapgs, s => { s with gs := s.kernelGs, kernelGs := s.gs }
  | .sti, s => s
  | .cli, s => s

def exec : List Instr → Machine → Machine
  | [], s => s
  | i :: is, s => exec is (step i s)

theorem exec_append (is js : List Instr) (s : Machine) :
    exec (is ++ js) s = exec js (exec is s) := by
  induction is generalizing s with
  | nil => rfl
  | cons i is ih => exact ih (step i s)

/-- The registers an instruction writes. -/
def Instr.dest : Instr → List Reg
  | .mov dst _ | .lea dst _ | .add dst _ | .sub dst _ => [dst]
  | .push _ => [.rsp]
  | .pop dst => [.rsp, dst]
  | _ => []

theorem reg_step {i : Instr} {r : Reg} (untouched : r ∉ i.dest) (s : Machine) :
    (step i s).reg r = s.reg r := by
  cases i with
  | mov dst src | lea dst src | add dst src | sub dst src =>
      exact if_neg (by simpa [Instr.dest] using untouched)
  | push src => exact if_neg (by simpa [Instr.dest] using untouched)
  | pop dst =>
      rw [Instr.dest, List.mem_pair, not_or] at untouched
      rw [step, Machine.reg_pop, if_neg untouched.2, if_neg untouched.1]
  | _ => rfl

theorem reg_exec {is : List Instr} {r : Reg} (untouched : ∀ i ∈ is, r ∉ i.dest) (s : Machine) :
    (exec is s).reg r = s.reg r := by
  induction is generalizing s with
  | nil => rfl
  | cons i is ih =>
      rw [exec, ih fun j later => untouched j (List.mem_cons_of_mem _ later)]
      exact reg_step (untouched i List.mem_cons_self) s

/-! ## Blocks and runs -/

/-- How a block ends. -/
inductive Transfer (L : Type)
  | jump (next : L)
  | below (taken other : L)
  | equal (taken other : L)
  | notEqual (taken other : L)
  | ret
  | jumpTo (target : Operand)
  | call (target : Operand) (back : L)
  | syscall (back : L)

structure Block (L : Type) where
  body : List Instr
  exit : Transfer L

structure Program (L : Type) where
  code : L → Block L
  /-- Where the block of a label is loaded, which a call pushes. -/
  address : L → UInt64

/-- Control leaves the code for good, or to come back at a label. -/
inductive Event (L : Type)
  | left (target : UInt64)
  | called (target : UInt64) (back : L)
  | syscall (back : L)

namespace Program
variable {L : Type} (prog : Program L)

def leave (s : Machine) : Transfer L → L ⊕ (Event L × Machine)
  | .jump next => .inl next
  | .below taken other => .inl (if s.cf then taken else other)
  | .equal taken other => .inl (if s.zf then taken else other)
  | .notEqual taken other => .inl (if s.zf then other else taken)
  | .ret => .inr (.left (s.mem.load64 (s.reg .rsp)), s.set .rsp (s.reg .rsp + 8))
  | .jumpTo target => .inr (.left (s.value target), s)
  | .call target back => .inr (.called (s.value target) back, s.push (prog.address back))
  | .syscall back => .inr (.syscall back, s)

def run : Nat → L → Machine → Option (Event L × Machine)
  | 0, _, _ => none
  | fuel + 1, l, s =>
      match prog.leave (exec (prog.code l).body s) (prog.code l).exit with
      | .inl next => run fuel next (exec (prog.code l).body s)
      | .inr result => some result

theorem run_add {fuel : Nat} {l : L} {s : Machine} {result : Event L × Machine}
    (runs : prog.run fuel l s = some result) (more : Nat) :
    prog.run (fuel + more) l s = some result := by
  induction fuel generalizing l s with
  | zero => cases runs
  | succ fuel ih =>
      rw [Nat.succ_add]
      unfold run at runs ⊢
      cases next : prog.leave (exec (prog.code l).body s) (prog.code l).exit with
      | inl after =>
          rw [next] at runs
          exact ih runs
      | inr left =>
          rw [next] at runs
          exact runs

/-- From `l` control leaves the code by `event`, in a state that satisfies `Q`. -/
def Reaches (l : L) (s : Machine) (event : Event L) (Q : Machine → Prop) : Prop :=
  ∃ fuel s', prog.run fuel l s = some (event, s') ∧ Q s'

variable {prog} {l : L} {s : Machine} {event : Event L} {P Q : Machine → Prop}

theorem Reaches.mono (reaches : prog.Reaches l s event P) (weaker : ∀ s', P s' → Q s') :
    prog.Reaches l s event Q := by
  obtain ⟨fuel, s', runs, holds⟩ := reaches
  exact ⟨fuel, s', runs, weaker s' holds⟩

/-- A run is determined by where it starts. -/
theorem Reaches.and {event' : Event L} (first : prog.Reaches l s event P)
    (second : prog.Reaches l s event' Q) : ∃ s', event = event' ∧ P s' ∧ Q s' := by
  obtain ⟨fuel, s₁, runs, holds⟩ := first
  obtain ⟨fuel', s₂, runs', holds'⟩ := second
  have longer := prog.run_add runs fuel'
  rw [Nat.add_comm, prog.run_add runs' fuel] at longer
  cases longer
  exact ⟨s₁, rfl, holds, holds'⟩

theorem Reaches.conj {event' : Event L} (first : prog.Reaches l s event P)
    (second : prog.Reaches l s event' Q) : prog.Reaches l s event fun s' => P s' ∧ Q s' := by
  obtain ⟨fuel, s₁, runs, holds⟩ := first
  obtain ⟨fuel', s₂, runs', holds'⟩ := second
  have longer := prog.run_add runs fuel'
  rw [Nat.add_comm, prog.run_add runs' fuel] at longer
  cases longer
  exact ⟨fuel, s₁, runs, holds, holds'⟩

theorem Reaches.leaves (s' : Machine)
    (leaves : prog.leave (exec (prog.code l).body s) (prog.code l).exit = .inr (event, s'))
    (holds : Q s') : prog.Reaches l s event Q := by
  refine ⟨1, s', ?_, holds⟩
  rw [run, leaves]

theorem Reaches.jumps (next : L)
    (jumps : prog.leave (exec (prog.code l).body s) (prog.code l).exit = .inl next)
    (reaches : prog.Reaches next (exec (prog.code l).body s) event Q) :
    prog.Reaches l s event Q := by
  obtain ⟨fuel, s', runs, holds⟩ := reaches
  refine ⟨fuel + 1, s', ?_, holds⟩
  rw [run, jumps]
  exact runs

section
variable {taken other : L}

theorem Reaches.below (exit : (prog.code l).exit = .below taken other)
    (reaches : prog.Reaches (if (exec (prog.code l).body s).cf then taken else other)
      (exec (prog.code l).body s) event Q) : prog.Reaches l s event Q := by
  apply Reaches.jumps _ _ reaches
  rw [exit, leave]

theorem Reaches.equal (exit : (prog.code l).exit = .equal taken other)
    (reaches : prog.Reaches (if (exec (prog.code l).body s).zf then taken else other)
      (exec (prog.code l).body s) event Q) : prog.Reaches l s event Q := by
  apply Reaches.jumps _ _ reaches
  rw [exit, leave]

theorem Reaches.notEqual (exit : (prog.code l).exit = .notEqual taken other)
    (reaches : prog.Reaches (if (exec (prog.code l).body s).zf then other else taken)
      (exec (prog.code l).body s) event Q) : prog.Reaches l s event Q := by
  apply Reaches.jumps _ _ reaches
  rw [exit, leave]

end

end Program

/-! ## The other side -/

/-- What a system call leaves the registers in; its effect on the memory is the caller's business. -/
structure Syscall (result : UInt64) (before after : Machine) (mem : Memory) : Prop where
  rax : after.reg .rax = result
  reg : ∀ r, r ∉ [Reg.rax, .rcx, .r11] → after.reg r = before.reg r
  mem : after.mem = mem

theorem exists_syscall (result : UInt64) (s : Machine) (mem : Memory) :
    ∃ s', Syscall result s s' mem := by
  refine ⟨{ s.set .rax result with mem := mem }, rfl, ?_, rfl⟩
  intro r other
  apply if_neg
  rintro rfl
  exact other List.mem_cons_self

/-- A function of the System V ABI, entered in the one state, has returned in the other. -/
structure FunctionReturns (entered returned : Machine) : Prop where
  rsp : returned.reg .rsp = entered.reg .rsp + 8
  saved : ∀ r ∈ calleeSaved, returned.reg r = entered.reg r

theorem exists_functionReturns (s : Machine) : ∃ s', FunctionReturns s s' := by
  refine ⟨s.set .rsp (s.reg .rsp + 8), rfl, ?_⟩
  intro r saved
  apply if_neg
  rintro rfl
  exact absurd saved (by decide)

/-! ## The stack -/

/-- The words from an address on. -/
def Holds (m : Memory) : UInt64 → List UInt64 → Prop
  | _, [] => True
  | a, value :: values => m.load64 a = value ∧ Holds m (a + UInt64.ofNat 8) values

section

variable {m m' : Memory} {a : UInt64} {values : List UInt64}

theorem Holds.nil : Holds m a [] := trivial

theorem Holds.congr (holds : Holds m a values)
    (same : ∀ k < 8 * values.length, m' (a + UInt64.ofNat k) = m (a + UInt64.ofNat k)) :
    Holds m' a values := by
  induction values generalizing a with
  | nil => trivial
  | cons value values ih =>
      obtain ⟨first, rest⟩ := holds
      rw [List.length_cons] at same
      constructor
      · rw [← first]
        apply Memory.load64_congr
        intro k below
        exact same k (by omega)
      · apply ih rest
        intro k below
        rw [offset_offset]
        exact same (8 + k) (by omega)

theorem Holds.load64 (holds : Holds m a values) {i : Nat} {value : UInt64}
    (entry : values[i]? = some value) : m.load64 (a + UInt64.ofNat (8 * i)) = value := by
  induction values generalizing a i with
  | nil => cases entry
  | cons first values ih =>
      cases i with
      | zero =>
          cases entry
          rw [Nat.mul_zero, show UInt64.ofNat 0 = 0 from rfl, UInt64.add_zero]
          exact holds.1
      | succ i =>
          rw [Nat.mul_succ, Nat.add_comm, ← offset_offset]
          exact ih holds.2 entry

theorem Holds.push (holds : Holds m a values) (room : 8 * values.length + 8 ≤ 2 ^ 64)
    (value : UInt64) : Holds (m.store64 (a - 8) value) (a - 8) (value :: values) := by
  have back : a - 8 + UInt64.ofNat 8 = a := UInt64.sub_add_cancel a 8
  refine ⟨Memory.load64_store64 _ _ _, ?_⟩
  rw [back]
  apply holds.congr
  intro k below
  apply Memory.store64_of_notMem
  have behind : a + UInt64.ofNat k = a - 8 + UInt64.ofNat (8 + k) := by rw [← offset_offset, back]
  rw [behind]
  exact offset_notMem_region (by omega) (by omega)

theorem Holds.store (holds : Holds m a values) (room : 8 * values.length ≤ 2 ^ 64) {i : Nat}
    (inside : i < values.length) (value : UInt64) :
    Holds (m.store64 (a + UInt64.ofNat (8 * i)) value) a (values.set i value) := by
  induction values generalizing a i with
  | nil => exact absurd inside (Nat.not_lt_zero i)
  | cons first values ih =>
      rw [List.length_cons] at room inside
      obtain ⟨top, rest⟩ := holds
      cases i with
      | zero =>
          rw [Nat.mul_zero, show UInt64.ofNat 0 = 0 from rfl, UInt64.add_zero]
          refine ⟨Memory.load64_store64 _ _ _, rest.congr ?_⟩
          intro k below
          rw [offset_offset]
          exact Memory.store64_of_notMem (offset_notMem_region (by omega) (by omega))
      | succ i =>
          constructor
          · rw [← top]
            apply Memory.load64_congr
            intro k below
            exact Memory.store64_of_notMem (offset_notMem (by omega) (by omega) (by omega))
          · have later := ih rest (by omega) (show i < values.length by omega)
            rw [offset_offset, Nat.add_comm] at later
            exact later

end

/-- Registers have been pushed, the first one first, onto a stack that held `values`. -/
structure Pushed (rs : List Reg) (values : List UInt64) (s s' : Machine) : Prop where
  reg : ∀ r, r ≠ .rsp → s'.reg r = s.reg r
  rsp : s'.reg .rsp = s.reg .rsp - UInt64.ofNat (8 * rs.length)
  stack : Holds s'.mem (s'.reg .rsp) ((rs.map s.reg).reverse ++ values)
  mem : ∀ x ∉ region (s.reg .rsp - UInt64.ofNat (8 * rs.length)) (8 * rs.length), s'.mem x = s.mem x

theorem exec_push (rs : List Reg) (noRsp : .rsp ∉ rs) {values : List UInt64} {s : Machine}
    (stack : Holds s.mem (s.reg .rsp) values) (room : 8 * (values.length + rs.length) ≤ 2 ^ 64) :
    Pushed rs values s (exec (rs.map fun r => .push (.reg r)) s) := by
  induction rs generalizing s values with
  | nil =>
      refine ⟨fun _ _ => rfl, ?_, stack, fun _ _ => rfl⟩
      exact (UInt64.sub_zero _).symm
  | cons r rs ih =>
      rw [List.mem_cons, not_or] at noRsp
      rw [List.length_cons] at room
      have pushed := ih noRsp.2 (s := s.push (s.reg r)) (stack.push (by omega) (s.reg r))
        (by rw [List.length_cons]; omega)
      have lower : s.reg .rsp - UInt64.ofNat (8 * (r :: rs).length) =
          s.reg .rsp - 8 - UInt64.ofNat (8 * rs.length) := by
        rw [List.length_cons, Nat.mul_succ, UInt64.ofNat_add]
        grind
      have others : ∀ q, q ≠ .rsp → (s.push (s.reg r)).reg q = s.reg q := by
        intro q other
        rw [Machine.reg_push, if_neg other]
      have regs : rs.map (s.push (s.reg r)).reg = rs.map s.reg := by
        apply List.map_congr_left
        intro q member
        exact others q fun same => noRsp.2 (same ▸ member)
      constructor
      · intro q other
        exact (pushed.reg q other).trans (others q other)
      · rw [lower]
        exact pushed.rsp
      · have stack' := pushed.stack
        rw [regs] at stack'
        rw [List.map_cons (f := s.reg), List.reverse_cons, List.append_assoc]
        exact stack'
      · intro x outside
        rw [lower, List.length_cons, Nat.mul_succ, region_add, List.mem_append, not_or,
          UInt64.sub_add_cancel] at outside
        exact (pushed.mem x outside.1).trans (Memory.store64_of_notMem outside.2)

/-- Registers have been popped, the first one first, off a stack that held `popped ++ values`. -/
structure Popped (rs : List Reg) (popped values : List UInt64) (s s' : Machine) : Prop where
  mem : s'.mem = s.mem
  regs : rs.map s'.reg = popped
  rsp : s'.reg .rsp = s.reg .rsp + UInt64.ofNat (8 * rs.length)
  reg : ∀ r, r ∉ rs → r ≠ .rsp → s'.reg r = s.reg r
  stack : Holds s'.mem (s'.reg .rsp) values

theorem exec_pop (rs : List Reg) (nodup : rs.Nodup) (noRsp : .rsp ∉ rs)
    {popped values : List UInt64} {s : Machine}
    (stack : Holds s.mem (s.reg .rsp) (popped ++ values)) (length : popped.length = rs.length) :
    Popped rs popped values s (exec (rs.map fun r => .pop r) s) := by
  induction rs generalizing s popped with
  | nil =>
      obtain rfl := List.length_eq_zero_iff.mp length
      refine ⟨rfl, rfl, ?_, fun _ _ _ => rfl, stack⟩
      exact (UInt64.add_zero _).symm
  | cons r rs ih =>
      obtain ⟨value, popped, rfl⟩ := List.exists_cons_of_length_eq_add_one length
      obtain ⟨new, nodup⟩ := List.nodup_cons.mp nodup
      rw [List.mem_cons, not_or] at noRsp
      obtain ⟨top, stack⟩ := stack
      have rsp : (s.pop r).reg .rsp = s.reg .rsp + UInt64.ofNat 8 := by
        rw [Machine.reg_pop, if_neg noRsp.1, if_pos rfl]
        rfl
      rw [← rsp] at stack
      have rest := ih nodup noRsp.2 (s := s.pop r) stack (Nat.succ.inj length)
      constructor
      · exact rest.mem
      · have first : (s.pop r).reg r = value := by rw [Machine.reg_pop, if_pos rfl, top]
        have kept := rest.reg r new (Ne.symm noRsp.1)
        exact List.cons_eq_cons.mpr ⟨kept.trans first, rest.regs⟩
      · have higher := rest.rsp
        rw [rsp, offset_offset, Nat.add_comm] at higher
        rw [List.length_cons, Nat.mul_succ]
        exact higher
      · intro q other notRsp
        rw [List.mem_cons, not_or] at other
        have kept := rest.reg q other.2 notRsp
        rw [Machine.reg_pop, if_neg other.1, if_neg notRsp] at kept
        exact kept
      · exact rest.stack

/-! ## A frame -/

/-- Registers have been stored, each in its slot above `rsp`. -/
structure Stored (slots : List (Nat × Reg)) (s s' : Machine) : Prop where
  reg : s'.reg = s.reg
  gs : s'.gs = s.gs
  slot : ∀ d r, (d, r) ∈ slots → s'.mem.load64 (s.reg .rsp + UInt64.ofNat d) = s.reg r
  mem : ∀ x, (∀ d r, (d, r) ∈ slots → x ∉ region (s.reg .rsp + UInt64.ofNat d) 8) →
    s'.mem x = s.mem x

theorem exec_store {slots : List (Nat × Reg)} {s : Machine}
    (apart : slots.Pairwise fun p q => p.1 + 8 ≤ q.1 ∨ q.1 + 8 ≤ p.1)
    (room : ∀ p ∈ slots, p.1 + 8 ≤ 2 ^ 64) :
    Stored slots s (exec (slots.map fun p => .store (.off .rsp (UInt64.ofNat p.1)) p.2) s) := by
  induction slots generalizing s with
  | nil => exact ⟨rfl, rfl, fun _ _ member => absurd member List.not_mem_nil, fun _ _ => rfl⟩
  | cons p slots ih =>
      obtain ⟨first, apart⟩ := List.pairwise_cons.mp apart
      have rest := ih (s := step (.store (.off .rsp (UInt64.ofNat p.1)) p.2) s) apart
        fun q member => room q (List.mem_cons_of_mem _ member)
      have written : (step (.store (.off .rsp (UInt64.ofNat p.1)) p.2) s).mem =
          s.mem.store64 (s.reg .rsp + UInt64.ofNat p.1) (s.reg p.2) := by
        simp only [step, Machine.address_off]
      constructor
      · exact rest.reg
      · exact rest.gs
      · intro d r member
        rcases List.mem_cons.mp member with rfl | member
        · -- The later stores leave the slot alone.
          rw [← Memory.load64_store64 s.mem (s.reg .rsp + UInt64.ofNat d) (s.reg r), ← written]
          apply Memory.load64_congr
          intro k below
          apply rest.mem
          intro e q later
          have away := first _ later
          have inside := room _ (List.mem_cons_self (a := (d, r)) (l := slots))
          have inside' := room _ (List.mem_cons_of_mem _ later)
          rw [offset_offset]
          apply offset_notMem <;> grind
        · exact rest.slot d r member
      · intro x outside
        have later := rest.mem x fun d r member => outside d r (List.mem_cons_of_mem _ member)
        rw [written] at later
        exact later.trans (Memory.store64_of_notMem (outside p.1 p.2 List.mem_cons_self))

/-- Registers have been loaded, each from its slot above `rsp`. -/
structure Loaded (slots : List (Nat × Reg)) (s s' : Machine) : Prop where
  mem : s'.mem = s.mem
  gs : s'.gs = s.gs
  reg : ∀ d r, (d, r) ∈ slots → s'.reg r = s.mem.load64 (s.reg .rsp + UInt64.ofNat d)
  others : ∀ r, r ∉ slots.map Prod.snd → s'.reg r = s.reg r

theorem exec_load {slots : List (Nat × Reg)} {s : Machine} (nodup : (slots.map Prod.snd).Nodup)
    (noRsp : .rsp ∉ slots.map Prod.snd) :
    Loaded slots s
      (exec (slots.map fun p => .mov p.2 (.mem (.off .rsp (UInt64.ofNat p.1)))) s) := by
  induction slots generalizing s with
  | nil => exact ⟨rfl, rfl, fun _ _ member => absurd member List.not_mem_nil, fun _ _ => rfl⟩
  | cons p slots ih =>
      rw [List.map_cons] at nodup noRsp
      obtain ⟨new, nodup⟩ := List.nodup_cons.mp nodup
      rw [List.mem_cons, not_or] at noRsp
      have rest := ih (s := s.set p.2 (s.mem.load64 (s.reg .rsp + UInt64.ofNat p.1))) nodup noRsp.2
      have first : step (.mov p.2 (.mem (.off .rsp (UInt64.ofNat p.1)))) s =
          s.set p.2 (s.mem.load64 (s.reg .rsp + UInt64.ofNat p.1)) := by
        simp only [step, Machine.value, Machine.address_off]
      rw [List.map_cons, exec, first]
      constructor
      · exact rest.mem
      · exact rest.gs
      · intro d r member
        rcases List.mem_cons.mp member with rfl | member
        · rw [rest.others r new, Machine.reg_set, if_pos rfl]
        · have loaded := rest.reg d r member
          rw [Machine.mem_set, Machine.reg_set, if_neg noRsp.1] at loaded
          exact loaded
      · intro r other
        rw [List.map_cons, List.mem_cons, not_or] at other
        rw [rest.others r other.2, Machine.reg_set, if_neg other.1]

end PathArmor.Library.X86
