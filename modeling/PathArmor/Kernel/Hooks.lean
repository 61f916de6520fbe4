import PathArmor.Kernel.ShadowStack

/-!
# The requests and hooks of the module

What the ioctls of the wrappers and the hooks on signals, task creation and exit do to the caches
and to the LBR registers, which belong to the task they run for.
-/

namespace PathArmor.Kernel
open PathArmor.Library

structure Machine where
  wrappers : Wrappers
  regs : Task → Msrs
  killed : Task → Bool -- `SIGKILL` was sent

/-- `branches` is the processor, which moves no other register. -/
inductive Hook
  | branches (t : Task) (tos : UInt64) (fromAddr toAddr : Fin lbrEntries → UInt64)
  | libEnter (t : Task) (arg1 : UInt64)
  | libExit (t : Task) (arg1 : UInt64)
  | callbackEnter (t : Task) (arg1 : UInt64)
  | callbackExit (t : Task)
  | signalDelivered (t : Task) (handler : UInt64)
  | rtSigreturn (t : Task)
  | wakeUpNewTask (t p : Task)
  | doExit (t : Task)
  | deferredExit (t : Task)

def Hook.task : Hook → Task
  | .branches t _ _ _ | .libEnter t _ | .libExit t _ | .callbackEnter t _ | .callbackExit t
  | .signalDelivered t _ | .rtSigreturn t | .wakeUpNewTask t _ | .doExit t | .deferredExit t => t

def Hook.op (cpu : Msrs) : Hook → Option Op
  | .branches _ _ _ _ => none
  | .libEnter t arg1 => if arg1 = 0 then none else some (.libInit t arg1)
  | .libExit t arg1 => if arg1 = 0 then none else some (.libExit t)
  | .callbackEnter t arg1 => some (.cbkInit t arg1 cpu)
  | .callbackExit t => some (.cbkExit t cpu)
  | .signalDelivered t handler => if handler = 0 then none else some (.sigInit t handler cpu)
  | .rtSigreturn t => some (.sigExit t cpu)
  | .wakeUpNewTask t p => some (.newWakeUpNewTask t p)
  | .doExit t => some (.doExit t)
  | .deferredExit t => some (.doDeferredExit t)

namespace Machine

def init (cpu : Task → Msrs) : Machine where
  wrappers := .zero
  regs t := enableLbr (cpu t)
  killed _ := false

def put (m : Machine) (t : Task) (wrappers : Wrappers) (regs : Msrs) (kill : Bool) : Machine where
  wrappers := wrappers
  regs := Function.update m.regs t regs
  killed := Function.update m.killed t (m.killed t || kill)

def step (target : Target) (m : Machine) : Hook → Machine
  | .branches t tos fromAddr toAddr =>
      m.put t m.wrappers { m.regs t with tos, fromAddr, toAddr } false
  | .libEnter t arg1 =>
      let entered := if arg1 = 0 then (m.wrappers, false) else m.wrappers.libInit t arg1
      m.put t entered.1 { m.regs t with debugctl := 0 } entered.2
  | .libExit t arg1 =>
      let left := if arg1 = 0 then (m.wrappers, 0, false) else m.wrappers.libExit t
      m.put t left.1 { m.regs t with debugctl := ia32Debugctl } left.2.2
  | .callbackEnter t arg1 =>
      let entered := m.wrappers.cbkInit t arg1 (m.regs t)
      m.put t entered.1 entered.2.1 entered.2.2
  | .callbackExit t =>
      let left := m.wrappers.cbkExit t (m.regs t)
      m.put t left.1 left.2.1 left.2.2.2
  | .signalDelivered t handler =>
      if handler = 0 then m
      else
        let entered := m.wrappers.sigInit t target handler (m.regs t)
        m.put t entered.1 entered.2.1 entered.2.2
  | .rtSigreturn t =>
      let left := m.wrappers.sigExit t (m.regs t)
      m.put t left.1 left.2.1 left.2.2
  -- the child starts with the registers that `get_lbr` put into `lbr_cache` for it
  | .wakeUpNewTask t p =>
      let woken := m.wrappers.newWakeUpNewTask t p
      { wrappers := woken.1
        regs := Function.update m.regs p (m.regs t).saved
        killed := Function.update m.killed t (m.killed t || woken.2) }
  | .doExit _ => m
  | .deferredExit t => { m with wrappers := m.wrappers.doDeferredExit t }

def after (target : Target) (m : Machine) (events : List Hook) : Machine :=
  events.foldl (step target) m

variable {target : Target} {m : Machine} {h : Hook}

theorem after_concat (events : List Hook) :
    m.after target (events ++ [h]) = (m.after target events).step target h := by
  simp [after]

theorem step_wrappers :
    match h.op (m.regs h.task) with
    | none => (m.step target h).wrappers = m.wrappers
    | some op => (Kernel.wrappers target).step m.wrappers op = some (m.step target h).wrappers := by
  cases h with
  | libEnter t arg1 => by_cases none : arg1 = 0 <;> simp [Hook.op, step, put, none, Kernel.wrappers]
  | libExit t arg1 => by_cases none : arg1 = 0 <;> simp [Hook.op, step, put, none, Kernel.wrappers]
  | signalDelivered t handler =>
      by_cases none : handler = 0 <;>
        simp [Hook.op, step, put, none, Kernel.wrappers, Hook.task]
  | _ => rfl

theorem step_wrappers_none (none : h.op (m.regs h.task) = none) :
    (m.step target h).wrappers = m.wrappers := by
  have stepped := @step_wrappers target m h
  rwa [none] at stepped

theorem step_wrappers_some {op : Op} (some : h.op (m.regs h.task) = some op) :
    (Kernel.wrappers target).step m.wrappers op = .some (m.step target h).wrappers := by
  have stepped := @step_wrappers target m h
  rwa [some] at stepped

end Machine

end PathArmor.Kernel
