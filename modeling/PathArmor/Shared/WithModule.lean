import PathArmor.Kernel.Transparency
import PathArmor.Library.Brackets
import PathArmor.Shared.Callback

/-!
# The stubs with the module

The module keeps the return addresses that the stubs hand it. Over a whole run, with other calls of
the task inside and with any number of other tasks, each stub gets its own address back and returns
to where its call was made.
-/

namespace PathArmor.Shared
open Library Library.X86
open Kernel (Hook Nesting)

/-! ## Calls inside a call -/

def libraryCalls (t : Task) : Brackets Hook UInt64 where
  opens
    | .libEnter u arg1 => u == t && arg1 != 0
    | _ => false
  closes
    | .libExit u arg1 => u == t && arg1 != 0
    | _ => false
  value := Hook.arg

def callbackCalls (t : Task) : Brackets Hook UInt64 where
  opens
    | .callbackEnter u _ => u == t
    | _ => false
  closes
    | .callbackExit u => u == t
    | _ => false
  value := Hook.arg

section
variable {n n' : Nesting} {h : Hook} {t : Task} {events : List Hook}

theorem step_left (admits : n.Admits h) (left : n.status t = .exiting ∨ n.status t = .gone) :
    (n.step h).status t = .exiting ∨ (n.step h).status t = .gone := by
  cases h with
  | wakeUpNewTask u p =>
      have other : t ≠ p := by
        rintro rfl
        simp [admits.1.2] at left
      simpa [Nesting.step, Nesting.move, other] using left
  | doExit u =>
      rcases eq_or_ne t u with rfl | other
      · simp [Nesting.step, Nesting.move]
      · simpa [Nesting.step, Nesting.move, other] using left
  | deferredExit u =>
      rcases eq_or_ne t u with rfl | other
      · simp [Nesting.step, Nesting.move]
      · simpa [Nesting.step, Nesting.move, other] using left
  | libEnter u arg1 | libExit u arg1 | signalDelivered u arg1 =>
      by_cases none : arg1 = 0 <;> simpa [Nesting.step, Nesting.move, none] using left
  | _ => exact left

theorem step_running (admits : n.Admits h) (running : n.status t = .running) :
    (n.step h).status t = .running ∨ (n.step h).status t = .exiting := by
  cases h with
  | wakeUpNewTask u p =>
      by_cases same : t = p <;> simp [Nesting.step, Nesting.move, same, running]
  | doExit u =>
      by_cases same : t = u <;> simp [Nesting.step, Nesting.move, same, running]
  | deferredExit u =>
      have other : t ≠ u := by
        rintro rfl
        have exiting : n.status t = .exiting := admits.1
        simp [exiting] at running
      simp [Nesting.step, Nesting.move, other, running]
  | libEnter u arg1 | libExit u arg1 | signalDelivered u arg1 =>
      by_cases none : arg1 = 0 <;> simp [Nesting.step, Nesting.move, none, running]
  | _ => exact .inl running

/-- What an event does to the calls that a task has pending, if these are the brackets of `B`. -/
def MovesBy (B : Brackets Hook UInt64) (pending : Nesting → List Nat) (t : Task) : Prop :=
  ∀ n h, n.Admits h → n.status t = .running → pending (n.step h) =
    if B.opens h then n.clock :: pending n else if B.closes h then (pending n).tail else pending n

theorem other_of_running {u : Task} {status : Kernel.Status} (running : n.status t = .running)
    (different : n.status u = status) (notRunning : status ≠ .running) : t ≠ u := by
  rintro rfl
  exact notRunning (different.symm.trans running)

theorem lib_movesBy (t : Task) : MovesBy (libraryCalls t) (fun n => n.lib t) t := by
  intro n h admits running
  cases h with
  | libEnter u arg1 | libExit u arg1 =>
      by_cases none : arg1 = 0 <;> by_cases same : u = t <;>
        simp [libraryCalls, Nesting.step, Nesting.move, none, same, Ne.symm]
  | signalDelivered u arg1 =>
      by_cases none : arg1 = 0 <;> simp [libraryCalls, Nesting.step, Nesting.move, none]
  | wakeUpNewTask u p =>
      have other := other_of_running running admits.1.2 (by simp)
      simp [libraryCalls, Nesting.step, Nesting.move, other]
  | deferredExit u =>
      have other := other_of_running running (show n.status u = .exiting from admits.1) (by simp)
      simp [libraryCalls, Nesting.step, Nesting.move, other]
  | _ => rfl

theorem cbk_movesBy (t : Task) : MovesBy (callbackCalls t) (fun n => n.cbk t) t := by
  intro n h admits running
  cases h with
  | callbackEnter u arg1 =>
      by_cases same : u = t <;> simp [callbackCalls, Nesting.step, Nesting.move, same, Ne.symm]
  | callbackExit u =>
      by_cases same : u = t <;> simp [callbackCalls, Nesting.step, Nesting.move, same, Ne.symm]
  | libEnter u arg1 | libExit u arg1 | signalDelivered u arg1 =>
      by_cases none : arg1 = 0 <;> simp [callbackCalls, Nesting.step, Nesting.move, none]
  | wakeUpNewTask u p =>
      have other := other_of_running running admits.1.2 (by simp)
      simp [callbackCalls, Nesting.step, Nesting.move, other]
  | deferredExit u =>
      have other := other_of_running running (show n.status u = .exiting from admits.1) (by simp)
      simp [callbackCalls, Nesting.step, Nesting.move, other]
  | _ => rfl

section
variable {B : Brackets Hook UInt64} {pending : Nesting → List Nat} (moves : MovesBy B pending t)
include moves

/-- As long as the calls inside close only what they opened, what was pending stays below. -/
theorem pending_of_depth (run : Kernel.nesting.Run Nesting.Admits n events n')
    (running : n.status t = .running) (still : n'.status t = .running) {top below : List Nat}
    {d : Nat} (before : pending n = top ++ below) (bounded : B.depth top.length events = some d) :
    ∃ top', pending n' = top' ++ below ∧ top'.length = d := by
  induction run generalizing top with
  | nil => exact ⟨top, before, Option.some.inj bounded⟩
  | @cons n n₁ n' h events admits step rest ih =>
      obtain rfl : n.step h = n₁ := Option.some.inj step
      have running' : (n.step h).status t = .running := by
        refine (step_running admits running).resolve_right fun left => ?_
        have after := rest.invariant
          (P := fun n => n.status t = .exiting ∨ n.status t = .gone)
          (fun n h n' left admits step => by
            obtain rfl : n.step h = n' := Option.some.inj step
            exact step_left admits left)
          (.inl left)
        simp [still] at after
      have moved := moves n h admits running
      simp only [Brackets.depth] at bounded
      by_cases opens : B.opens h
      · rw [if_pos opens] at moved bounded
        rw [before, ← List.cons_append] at moved
        exact ih running' still moved bounded
      · rw [if_neg opens] at moved bounded
        by_cases closes : B.closes h
        · rw [if_pos closes] at moved bounded
          cases top with
          | nil => simp at bounded
          | cons first top =>
              rw [before, List.cons_append, List.tail_cons] at moved
              exact ih running' still moved bounded
        · rw [if_neg closes] at moved bounded
          exact ih running' still (moved.trans before) bounded

/-- The call that an event opened is the innermost one again once those inside are closed. -/
theorem pending_of_nested {past inside : List Hook} {status : Task → Kernel.Status}
    (run : Kernel.nesting.Run Nesting.Admits (.start status) (past ++ h :: inside) n)
    (still : n.status t = .running) (task : h.task = t) (opens : B.opens h)
    (entered : ∀ n : Nesting, n.Alive h → n.status h.task = .running)
    (unmoved : ∀ n : Nesting, (n.step h).status = n.status)
    (nested : B.Balanced inside) : ∃ rest, pending n = past.length :: rest := by
  obtain ⟨n₀, first, second⟩ := run.split
  have clock : n₀.clock = past.length := by
    have counted := first.history (P := fun past n => n.clock = past.length) []
      (fun past n h n' clock _ step => by
        obtain rfl : n.step h = n' := Option.some.inj step
        simp [Nesting.step, clock])
      rfl
    exact counted
  cases second with
  | cons admits step rest =>
      obtain rfl : n₀.step h = _ := Option.some.inj step
      have running : n₀.status t = .running := task ▸ entered n₀ admits.1
      have moved := moves n₀ h admits running
      rw [if_pos opens, clock, ← List.nil_append (past.length :: _)] at moved
      obtain ⟨top, after, empty⟩ := pending_of_depth moves rest (by rw [unmoved]; exact running)
        still moved nested
      rw [List.length_eq_zero_iff.mp empty] at after
      exact ⟨_, after⟩

end

/-! ## What the module hands back -/

section
variable {target : Kernel.Target} {cpu : Task → Kernel.Msrs} {status : Task → Kernel.Status}
  {past inside : List Hook} {ret : UInt64}

theorem run_tracks (run : Kernel.nesting.Run Nesting.Admits (.start status) events n) :
    Kernel.Tracks target (.init cpu) events n :=
  run.history (P := Kernel.Tracks target (.init cpu)) []
    (fun past n h n' tracks admits step => by
      obtain rfl : n.step h = n' := Option.some.inj step
      exact tracks.step admits)
    Kernel.start_tracks

theorem libExit_of_nested (nonzero : ret ≠ 0)
    (run : Kernel.nesting.Run Nesting.Admits (.start status) (past ++ .libEnter t ret :: inside) n)
    (still : n.status t = .running) (nested : (libraryCalls t).Balanced inside) :
    (((Kernel.Machine.init cpu).after target (past ++ .libEnter t ret :: inside)).wrappers.libExit
      t).2 = (ret, false) := by
  obtain ⟨rest, pending⟩ := pending_of_nested (lib_movesBy t) run still rfl
    (by simp [libraryCalls, nonzero]) (fun n alive => alive)
    (fun n => by simp [Nesting.step, Nesting.move, nonzero]) nested
  have tracks : Kernel.Tracks target (.init cpu) _ n := run_tracks run
  rw [(Kernel.libExit_keeps tracks.keeps.lib).2]
  simp [Nesting.shadow, pending, Kernel.Machine.opened, Hook.arg]

theorem cbkExit_of_nested
    (run : Kernel.nesting.Run Nesting.Admits (.start status)
      (past ++ .callbackEnter t ret :: inside) n)
    (still : n.status t = .running) (nested : (callbackCalls t).Balanced inside)
    (regs : Kernel.Msrs) :
    (((Kernel.Machine.init cpu).after target (past ++ .callbackEnter t ret :: inside)).wrappers.cbkExit
      t regs).2 =
      ((((Kernel.Machine.init cpu).after target past).regs t).saved, ret, false) := by
  obtain ⟨rest, pending⟩ := pending_of_nested (cbk_movesBy t) run still rfl
    (by simp [callbackCalls]) (fun n alive => alive)
    (fun n => by simp [Nesting.step, Nesting.move]) nested
  have tracks : Kernel.Tracks target (.init cpu) _ n := run_tracks run
  rw [(Kernel.cbkExit_keeps t regs tracks.keeps.cbk).2]
  simp [Nesting.shadow, pending, Kernel.Machine.opened, Hook.arg, Hook.task]

end

end

/-! ## The requests -/

structure IsIoctl (got : Got) (request arg1 : UInt64) (s : Machine) : Prop where
  rax : s.reg .rax = sysIoctl
  rdi : s.reg .rdi = s.mem.load64 (s.mem.load64 got.armorFd)
  rsi : s.reg .rsi = request
  rdx : s.reg .rdx = arg1

/-- The memory after `LIB_EXIT` or `CALLBACK_EXIT`, which store an address for the stub. -/
def handedBack (mem : Memory) (arg1 ret : UInt64) : Memory :=
  if arg1 = 0 then mem else mem.store64 arg1 ret

section
variable {got : Got} {s : Machine}

/-- The stubs set up a request this way: its argument comes last. -/
theorem isIoctl_of_setup {before : List Instr} {request arg1 : UInt64} {last : Instr}
    (dest : last.dest = [.rdx]) (mem : ∀ s, (step last s).mem = s.mem)
    (rdx : (exec (before ++ setupIoctl got request ++ [last]) s).reg .rdx = arg1) :
    IsIoctl got request arg1 (exec (before ++ setupIoctl got request ++ [last]) s) := by
  rw [exec_append, exec_append] at rdx ⊢
  obtain ⟨s₁, named⟩ : ∃ s₁, s₁ = exec (setupIoctl got request) (exec before s) := ⟨_, rfl⟩
  have others (r : Reg) (other : r ≠ .rdx) : (exec [last] s₁).reg r = s₁.reg r :=
    reg_step (by simpa [dest] using other) _
  rw [← named] at rdx ⊢
  refine ⟨?_, ?_, ?_, rdx⟩
  · rw [others .rax (by decide), named]
    rfl
  · have same : (exec [last] s₁).mem = s₁.mem := mem s₁
    rw [others .rdi (by decide), same, named]
    simp [setupIoctl, exec, step, Machine.value]
  · rw [others .rsi (by decide), named]
    rfl

theorem exit_request {L : Type} {prog : Program L} {l back : L} {dummy request : UInt64}
    (before : prog.code l = ⟨exitIoctl got dummy request, .syscall back⟩) (s : Machine) :
    prog.Reaches l s (.syscall back) (IsIoctl got request (s.reg .rsp - 8)) := by
  have exit := exec_exitIoctl got s dummy request
  apply Program.Reaches.leaves (exec (exitIoctl got dummy request) s)
  · rw [before]
    rfl
  have rdx : (exec (exitIoctl got dummy request) s).reg .rdx = s.reg .rsp - 8 := by
    rw [exit.rdx, exit.rsp]
    change s.reg .rsp - 64 + 56 = s.reg .rsp - 8
    grind
  exact isIoctl_of_setup rfl (fun _ => rfl) rdx

end

namespace LibEnter

variable {got : Got} {address : Label → UInt64} {s : Machine}

theorem enter_request (fromTarget : FromTarget got s) (fdSet : FdSet got s) :
    (program got address).Reaches .armorLibEnter s (.syscall .enterDone) fun s₁ =>
      IsIoctl got iocLibEnter (returnAddress s) s₁ ∧ ∀ r ∈ calleeSaved, s₁.reg r = s.reg r := by
  apply checks_reach
  intro s' checked
  rw [if_pos fromTarget, if_pos fdSet]
  apply Program.Reaches.leaves _ rfl
  constructor
  · apply isIoctl_of_setup rfl fun _ => rfl
    exact (checked.atEnter (exec_armorFdSet got address s')).rdx
  · intro r callee
    rw [← checked.reg r (by revert r; decide)]
    apply reg_exec
    revert r
    simp [program, setupIoctl, Instr.dest, calleeSaved]

theorem function_saved (s : Machine) :
    (program got address).Reaches .enterDone s
      (.called ((exec ((program got address).code .enterDone).body s).reg .r10)
        .armorLibFunctionReturned)
      fun s₃ => ∀ r ∈ calleeSaved, s₃.reg r = s.reg r := by
  apply Program.Reaches.leaves _ rfl
  intro r callee
  rw [Machine.reg_push, if_neg (by revert r; decide)]
  apply reg_exec
  revert r
  simp [program, Instr.dest, calleeSaved]

end LibEnter

namespace Callback

variable {got : Got} {address : Label → UInt64} {s : Machine}

theorem enter_request (inTarget : InTarget got s) (fdSet : LibEnter.FdSet got s) :
    (program got address).Reaches .armorCbkEnter s (.syscall .enterDone)
      (IsIoctl got iocCallbackEnter (behind s)) := by
  apply checks_reach
  intro s' checked
  rw [if_pos inTarget, if_pos fdSet]
  have hook : (program got address).Reaches .armorFdSet s' (.syscall .enterDone) fun s₁ =>
      ∃ arg1, IsIoctl got iocCallbackEnter arg1 s₁ := by
    apply Program.Reaches.jumps .armorCbkPthreadHook rfl
    apply Program.Reaches.leaves _ rfl
    have body : ((program got address).code .armorCbkPthreadHook).body =
        [] ++ setupIoctl got iocCallbackEnter ++ [.mov .rdx (.reg .r11)] := rfl
    rw [body]
    exact ⟨_, isIoctl_of_setup rfl (fun _ => rfl) rfl⟩
  apply ((armorFdSet_reaches checked).conj hook).mono
  rintro s₁ ⟨⟨_, rdx, _⟩, arg1, request⟩
  exact { request with rdx := rdx }

end Callback

section
variable (target : Kernel.Target) (cpu : Task → Kernel.Msrs) {got : Got} {s : Machine} {t : Task}
  {n : Nesting} {past inside : List Hook} {status : Task → Kernel.Status}

/-- Inside a library call: a callback that makes a library call, and a task that is created. -/
def callsInside : List Hook :=
  [.callbackEnter 1 0x7f000102, .libEnter 1 0x400130, .wakeUpNewTask 1 2, .libExit 1 0x7ffdff00,
    .callbackExit 1]

theorem callsInside_runs {h : Hook}
    (starts : h = .libEnter 1 0x400123 ∨ h = .callbackEnter 1 0x7f000102) :
    ∃ n, Kernel.nesting.Run Nesting.Admits (.start fun t => if t = 1 then .running else .absent)
      ([] ++ h :: callsInside) n ∧ n.status 1 = .running := by
  have fits (s : Kernel.Shadow) := s.fits_of_two 1 2
  rcases starts with rfl | rfl
  all_goals
    refine ⟨_, .cons ⟨rfl, fun call => fits _ (fun t other => ?_) ?_⟩ rfl
      (.cons ⟨rfl, fun call => fits _ (fun t other => ?_) ?_⟩ rfl
      (.cons ⟨rfl, fun call => fits _ (fun t other => ?_) ?_⟩ rfl
      (.cons ⟨⟨rfl, rfl⟩, fun call => fits _ (fun t other => ?_) ?_⟩ rfl
      (.cons ⟨rfl, fun call => fits _ (fun t other => ?_) ?_⟩ rfl
      (.cons ⟨rfl, fun call => fits _ (fun t other => ?_) ?_⟩ rfl (.nil _)))))), rfl⟩
    all_goals
      try simp only [Finset.mem_insert, Finset.mem_singleton, not_or] at other
      simp [Nesting.step, Nesting.move, Nesting.start, Nesting.shadow, Kernel.stackSize, *]

end

end PathArmor.Shared
