import PathArmor.Kernel.Lifetime
import PathArmor.Kernel.SyscallHandler

/-!
# Which tasks are supervised

The module knows its tasks by the bits `TASK_LBR` and `SUSP_LBR`, which a child inherits, and every
hook on a dangerous system call asks for the first one. Here the tasks also have a program: the
target, until an `execve` succeeds.
-/

namespace PathArmor.Kernel
open PathArmor.Library
open SyscallHandler (Entry)

def protExec : UInt64 := 0x4

/-- The calls of `validate_lbr` so far are recorded with the registers they read. `descends`,
`program` and `inExecve` are not in the sources: the task stems from the one that called `INIT`, it
still runs the same program, and it is in the kernel's `execve`. -/
structure Supervision where
  life : Lifetimes
  validated : List (Task × Msrs)
  descends : Task → Bool
  program : Task → Bool
  inExecve : Task → Bool

/-- `prot` is the third argument, which only the hooks of `mmap` and `mprotect` look at. -/
inductive Action
  | syscall (t : Task) (number prot : UInt64)
  | life (e : Life)

namespace Supervision

def init (t : Task) (c : Nat) (others : Task → Stage) (cpu : Nat → Msrs) : Supervision where
  life := .init t c others cpu
  validated := []
  descends u := u = t
  program u := u = t
  inExecve _ := false

section
variable (s : Supervision) (t : Task)

def validateLbr : Supervision :=
  match s.life.onCpu t with
  | some c => { s with validated := s.validated ++ [(t, s.life.switching.cpu c)] }
  | none => s

/-- The hooks on dangerous system calls. -/
def validateIf (condition : Bool) : Supervision :=
  if s.life.taskLbr t then if condition then s.validateLbr t else s else s

def newSysExecve : Supervision := { s.validateIf t true with life := s.life.execve t }

def newSysMmapPgoff (prot : UInt64) : Supervision := s.validateIf t (prot &&& protExec != 0)

def newSysMprotect (prot : UInt64) : Supervision := s.validateIf t (prot &&& protExec != 0)

def newSysRead : Supervision := s.validateIf t true

def newSysWrite : Supervision := s.validateIf t true

def newSysRtSigaction : Supervision := s.validateIf t true

def newSysRtSigreturn (target : Target) : Supervision :=
  match s.life.onCpu t with
  | some c => { s with life := s.life.request target (.rtSigreturn t) c }
  | none => s

def newSys (target : Target) (prot : UInt64) : Entry → Supervision
  | .mmap => s.newSysMmapPgoff t prot
  | .mprotect => s.newSysMprotect t prot
  | .sigaction => s.newSysRtSigaction t
  | .sigreturn => s.newSysRtSigreturn t target
  | .execve => s.newSysExecve t
  | .read => s.newSysRead t
  | .write => s.newSysWrite t

/-- `syscall_new`, and for `execve` the kernel's own code after it. -/
def syscallNew (target : Target) (number prot : UInt64) : Supervision :=
  match SyscallHandler.tests.lookup number with
  | none => s
  | some .execve => { s.newSys t target prot .execve with
      inExecve := Function.update s.inExecve t true }
  | some entry => s.newSys t target prot entry

end

/-- The calls of `validate_lbr` in the ioctls and in the signal hook. -/
def validateRequest (s : Supervision) : Hook → Supervision
  | .signalDelivered t handler => s.validateIf t (handler != 0)
  | .callbackEnter t _ => s.validateLbr t
  | _ => s

/-- Whether a task can do this where it is: the hooks of system calls are called by `syscall_new`
only, and in `execve` it runs none of its own code. -/
def can (s : Supervision) : Life → Bool
  | .request (.rtSigreturn _) | .execve _ => false
  | .request h => !s.inExecve h.task
  | .fork t _ => !s.inExecve t
  | .execveRet t _ => s.inExecve t
  | _ => true

def after (s : Supervision) (e : Life) (life : Lifetimes) : Supervision :=
  match e with
  | .request h => { s.validateRequest h with life }
  | .fork t p =>
      { s with
        life
        descends := Function.update s.descends p (s.descends t)
        program := Function.update s.program p (s.program t)
        inExecve := Function.update s.inExecve p false }
  | .execveRet t failed =>
      { s with
        life
        program := Function.update s.program t (s.program t && failed)
        inExecve := Function.update s.inExecve t false }
  | _ => { s with life }

end Supervision

def supervision (target : Target) : System Supervision Action where
  step s
    | .syscall t number prot =>
        if (s.life.onCpu t).isSome && !s.inExecve t then some (s.syscallNew t target number prot)
        else none
    | .life e => if s.can e then ((lifetimes target).step s.life e).map (s.after e) else none

/-! ## What the bits say -/

/-- What an event does to the bits. -/
def Lifetimes.MovesBits (s s' : Lifetimes) : Life → Prop
  | .fork t p =>
      s'.taskLbr = Function.update s.taskLbr p (s.taskLbr t) ∧
        s'.suspLbr = Function.update s.suspLbr p (s.suspLbr t)
  | .execve t => s' = s.execve t
  | .execveRet t failed => s' = s.execveRet t failed
  | _ => s'.taskLbr = s.taskLbr ∧ s'.suspLbr = s.suspLbr

theorem Lifetimes.request_bits (target : Target) (s : Lifetimes) (h : Hook) (c : Nat) :
    (s.request target h c).taskLbr = s.taskLbr ∧ (s.request target h c).suspLbr = s.suspLbr := by
  unfold Lifetimes.request
  split_ifs <;> exact ⟨rfl, rfl⟩

theorem Lifetimes.step_movesBits {target : Target} {s s' : Lifetimes} {e : Life}
    (step : (lifetimes target).step s e = some s') : s.MovesBits s' e := by
  cases e with
  | request h =>
      simp only [lifetimes, Option.bind_eq_some_iff] at step
      obtain ⟨c, -, step⟩ := step
      split_ifs at step
      obtain rfl := Option.some.inj step
      exact s.request_bits target h c
  | fork t p =>
      simp only [lifetimes, Option.bind_eq_some_iff] at step
      obtain ⟨c, -, step⟩ := step
      split_ifs at step
      obtain rfl := Option.some.inj step
      simp only [MovesBits, Lifetimes.fork]
      split_ifs <;> exact ⟨rfl, rfl⟩
  | schedOut t =>
      cases stage : s.stage t with
      | running c =>
          obtain rfl : s.schedOut t c .offCpu = s' := by simpa [lifetimes, stage] using step
          exact ⟨rfl, rfl⟩
      | exiting c =>
          obtain rfl : s.schedOut t c .gone = s' := by simpa [lifetimes, stage] using step
          exact ⟨rfl, rfl⟩
      | _ => simp [lifetimes, stage] at step
  | schedIn t c =>
      simp only [lifetimes] at step
      split_ifs at step
      obtain rfl := Option.some.inj step
      exact ⟨rfl, rfl⟩
  | execve t =>
      obtain ⟨c, -, rfl⟩ := Option.map_eq_some_iff.mp step
      rfl
  | execveRet t failed =>
      obtain ⟨c, -, rfl⟩ := Option.map_eq_some_iff.mp step
      rfl
  | doExit t =>
      obtain ⟨c, -, rfl⟩ := Option.map_eq_some_iff.mp step
      simp only [MovesBits, Lifetimes.doExit]
      split_ifs <;> exact ⟨rfl, rfl⟩
  | deferredExit t =>
      simp only [lifetimes] at step
      split_ifs at step
      obtain rfl := Option.some.inj step
      exact ⟨rfl, rfl⟩

namespace Supervision
variable {target : Target} {s s' : Supervision} {t u : Task}

/-- A task that stems from the target has one of the two bits. If it still runs the target's program
then `SUSP_LBR` is for the time of its `execve`. -/
structure MarkedAt (s : Supervision) (t : Task) : Prop where
  descends : s.descends t ↔ s.life.taskLbr t ∨ s.life.suspLbr t
  one : ¬ (s.life.taskLbr t ∧ s.life.suspLbr t)
  program : s.program t → s.descends t ∧ (s.life.suspLbr t ↔ s.inExecve t)

/-- Nothing that the bits depend on changes for the task. -/
structure SameAt (s s' : Supervision) (t : Task) : Prop where
  taskLbr : s'.life.taskLbr t = s.life.taskLbr t
  suspLbr : s'.life.suspLbr t = s.life.suspLbr t
  descends : s'.descends t = s.descends t
  program : s'.program t = s.program t
  inExecve : s'.inExecve t = s.inExecve t

theorem MarkedAt.same (marked : s.MarkedAt t) (same : s.SameAt s' t) : s'.MarkedAt t := by
  obtain ⟨taskLbr, suspLbr, descends, program, inExecve⟩ := same
  constructor
  · rw [taskLbr, suspLbr, descends]
    exact marked.descends
  · rw [taskLbr, suspLbr]
    exact marked.one
  · rw [suspLbr, descends, program, inExecve]
    exact marked.program

theorem MarkedAt.taskLbr_iff (marked : s.MarkedAt t) (program : s.program t) :
    s.life.taskLbr t ↔ ¬ s.inExecve t := by
  obtain ⟨descends, suspended⟩ := marked.program program
  rw [← suspended]
  constructor
  · exact fun supervised suspended => marked.one ⟨supervised, suspended⟩
  · exact (marked.descends.mp descends).resolve_right

/-- The hooks only record that they validate. -/
structure Recorded (s s' : Supervision) : Prop where
  life : s'.life = s.life
  descends : s'.descends = s.descends
  program : s'.program = s.program
  inExecve : s'.inExecve = s.inExecve

theorem validateLbr_recorded : Recorded s (s.validateLbr t) := by
  unfold validateLbr
  cases s.life.onCpu t <;> exact ⟨rfl, rfl, rfl, rfl⟩

theorem validateIf_recorded {condition : Bool} : Recorded s (s.validateIf t condition) := by
  unfold validateIf
  split_ifs
  · exact validateLbr_recorded
  all_goals exact ⟨rfl, rfl, rfl, rfl⟩

theorem validateRequest_recorded {h : Hook} : Recorded s (s.validateRequest h) := by
  cases h with
  | signalDelivered t handler => exact validateIf_recorded
  | callbackEnter t arg1 => exact validateLbr_recorded
  | _ => exact ⟨rfl, rfl, rfl, rfl⟩

theorem Recorded.sameAt (recorded : Recorded s s') : s.SameAt s' u := by
  obtain ⟨life, descends, program, inExecve⟩ := recorded
  constructor
  · rw [life]
  · rw [life]
  · rw [descends]
  · rw [program]
  · rw [inExecve]

/-- All that an action can do to what the bits depend on. -/
inductive Effect (s s' : Supervision) : Action → Prop
  | nothing {a : Action} (other : ∀ t failed, a ≠ .life (.execveRet t failed))
      (same : ∀ u, s.SameAt s' u) : Effect s s' a
  | execve (t : Task) (number prot : UInt64) (outside : ¬ s.inExecve t)
      (life : s'.life = s.life.execve t) (descends : s'.descends = s.descends)
      (program : s'.program = s.program) (inExecve : s'.inExecve = Function.update s.inExecve t true) :
      Effect s s' (.syscall t number prot)
  | fork (t p : Task) (outside : ¬ s.inExecve t)
      (taskLbr : s'.life.taskLbr = Function.update s.life.taskLbr p (s.life.taskLbr t))
      (suspLbr : s'.life.suspLbr = Function.update s.life.suspLbr p (s.life.suspLbr t))
      (descends : s'.descends = Function.update s.descends p (s.descends t))
      (program : s'.program = Function.update s.program p (s.program t))
      (inExecve : s'.inExecve = Function.update s.inExecve p false) :
      Effect s s' (.life (.fork t p))
  | execveRet (t : Task) (failed : Bool) (inside : s.inExecve t)
      (life : s'.life = s.life.execveRet t failed) (descends : s'.descends = s.descends)
      (program : s'.program = Function.update s.program t (s.program t && failed))
      (inExecve : s'.inExecve = Function.update s.inExecve t false) :
      Effect s s' (.life (.execveRet t failed))

theorem syscallNew_effect (number prot : UInt64) (outside : ¬ s.inExecve t) :
    Effect s (s.syscallNew t target number prot) (.syscall t number prot) := by
  unfold syscallNew
  cases SyscallHandler.tests.lookup number with
  | none => exact .nothing (by simp) fun u => ⟨rfl, rfl, rfl, rfl, rfl⟩
  | some entry =>
      cases entry with
      | execve =>
          have recorded : Recorded s (s.validateIf t true) := validateIf_recorded
          exact .execve t number prot outside rfl recorded.descends recorded.program rfl
      | sigreturn =>
          refine .nothing (by simp) fun u => ?_
          simp only [newSys, newSysRtSigreturn]
          cases s.life.onCpu t with
          | none => exact ⟨rfl, rfl, rfl, rfl, rfl⟩
          | some c =>
              obtain ⟨taskLbr, suspLbr⟩ := s.life.request_bits target (.rtSigreturn t) c
              exact ⟨congrFun taskLbr u, congrFun suspLbr u, rfl, rfl, rfl⟩
      | _ => exact .nothing (by simp) fun u => validateIf_recorded.sameAt

theorem after_effect {e : Life} {life : Lifetimes} (can : s.can e)
    (step : (lifetimes target).step s.life e = some life) :
    Effect s (s.after e life) (.life e) := by
  have moves := Lifetimes.step_movesBits step
  cases e with
  | request h =>
      have recorded : Recorded s (s.validateRequest h) := validateRequest_recorded
      refine .nothing (by simp) fun u => ⟨congrFun moves.1 u, congrFun moves.2 u, ?_, ?_, ?_⟩
      · exact congrFun recorded.descends u
      · exact congrFun recorded.program u
      · exact congrFun recorded.inExecve u
  | fork t p => exact .fork t p (by simpa [Supervision.can] using can) moves.1 moves.2 rfl rfl rfl
  | execve t => simp [Supervision.can] at can
  | execveRet t failed => exact .execveRet t failed can moves rfl rfl rfl
  | _ => exact .nothing (by simp) fun u => ⟨congrFun moves.1 u, congrFun moves.2 u, rfl, rfl, rfl⟩

theorem step_effect {a : Action} (step : (supervision target).step s a = some s') :
    Effect s s' a := by
  cases a with
  | syscall t number prot =>
      simp only [supervision] at step
      split_ifs at step with allowed
      obtain rfl := Option.some.inj step
      simp only [Bool.and_eq_true, Bool.not_eq_true'] at allowed
      exact syscallNew_effect number prot (by simp [allowed.2])
  | life e =>
      simp only [supervision] at step
      split_ifs at step with can
      obtain ⟨life, moved, rfl⟩ := Option.map_eq_some_iff.mp step
      exact after_effect can moved

theorem Effect.marked {a : Action} (effect : Effect s s' a) (marked : ∀ u, s.MarkedAt u) (u : Task) :
    s'.MarkedAt u := by
  cases effect with
  | nothing _ same => exact (marked u).same (same u)
  | execve t number prot outside life descends program inExecve =>
      rcases eq_or_ne u t with rfl | other
      · by_cases supervised : s.life.taskLbr u
        · have once := (marked u).descends.mpr (.inl supervised)
          constructor <;>
            simp [life, descends, inExecve, Lifetimes.execve, supervised, once]
        · have suspended : s.program u → False := fun same =>
            supervised (((marked u).taskLbr_iff same).mpr outside)
          have unmoved : s.life.execve u = s.life := by simp [Lifetimes.execve, supervised]
          constructor
          · rw [life, unmoved, descends]
            exact (marked u).descends
          · rw [life, unmoved]
            exact (marked u).one
          · rw [program]
            exact fun same => (suspended same).elim
      · refine (marked u).same ⟨?_, ?_, by rw [descends], by rw [program], by simp [inExecve, other]⟩
        all_goals
          rw [life, Lifetimes.execve]
          split_ifs <;> simp [other]
  | fork t p outside taskLbr suspLbr descends program inExecve =>
      rcases eq_or_ne u p with rfl | other
      · constructor
        · simpa [taskLbr, suspLbr, descends] using (marked t).descends
        · simpa [taskLbr, suspLbr] using (marked t).one
        · simpa [suspLbr, descends, program, inExecve, outside] using (marked t).program
      · refine (marked u).same ⟨?_, ?_, ?_, ?_, ?_⟩ <;> simp [*]
  | execveRet t failed inside life descends program inExecve =>
      rcases eq_or_ne u t with rfl | other
      · by_cases woken : s.life.suspLbr u ∧ failed
        · have once := (marked u).descends.mpr (.inr woken.1)
          constructor <;>
            simp [life, descends, inExecve, Lifetimes.execveRet, woken.1, woken.2, once]
        · have unmoved : s.life.execveRet u failed = s.life := by
            rw [Lifetimes.execveRet, if_neg (by simpa using woken)]
          constructor
          · rw [life, unmoved, descends]
            exact (marked u).descends
          · rw [life, unmoved]
            exact (marked u).one
          · -- In its `execve` the target's program has `SUSP_LBR`, so that this one succeeded.
            intro same
            obtain ⟨before, isFailed⟩ : s.program u ∧ failed := by simpa [program] using same
            have suspended := ((marked u).program before).2.mpr inside
            exact absurd ⟨suspended, isFailed⟩ woken
      · refine (marked u).same ⟨?_, ?_, by rw [descends], by simp [program, other],
          by simp [inExecve, other]⟩
        all_goals
          rw [life, Lifetimes.execveRet]
          split_ifs <;> simp [other]

theorem init_marked (t : Task) (c : Nat) (others : Task → Stage) (cpu : Nat → Msrs) (u : Task) :
    (init t c others cpu).MarkedAt u := by
  constructor <;> simp [init, Lifetimes.init]

theorem exec_marked {t₀ : Task} {c₀ : Nat} {others : Task → Stage} {cpu₀ : Nat → Msrs}
    {actions : List Action}
    (run : (supervision target).exec (.init t₀ c₀ others cpu₀) actions = some s) (u : Task) :
    s.MarkedAt u := by
  have free : (supervision target).Run (fun _ _ => True) _ actions s :=
    .of_exec (fun _ _ _ => trivial) run
  exact free.invariant (P := fun s => ∀ u, s.MarkedAt u)
    (fun _ _ _ marked _ step => (step_effect step).marked marked)
    (init_marked t₀ c₀ others cpu₀) u

end Supervision

/-! ## Dangerous calls of the target -/

/-- What is dangerous: executable memory, signal handlers, other programs, and code that the target
does not call itself. -/
def Action.Dangerous (t : Task) : Action → Prop
  | .syscall u number prot => u = t ∧
      (number = 0x3b ∨ number = 0x0d ∨ (number = 0x09 ∨ number = 0x0a) ∧ prot &&& protExec ≠ 0)
  | .life (.request (.signalDelivered u handler)) => u = t ∧ handler ≠ 0
  | .life (.request (.callbackEnter u _)) => u = t
  | _ => False

namespace Supervision
variable {target : Target} {s s' : Supervision} {t : Task} {c : Nat}

theorem validateLbr_of_running (running : s.life.stage t = .running c) :
    (s.validateLbr t).validated = s.validated ++ [(t, s.life.switching.cpu c)] := by
  rw [validateLbr, Lifetimes.onCpu_eq_some.mpr running]

theorem validateIf_of_supervised (running : s.life.stage t = .running c)
    (supervised : s.life.taskLbr t) {condition : Bool} (holds : condition = true) :
    (s.validateIf t condition).validated = s.validated ++ [(t, s.life.switching.cpu c)] := by
  rw [validateIf, if_pos supervised, if_pos holds]
  exact validateLbr_of_running running

theorem syscallNew_validates {number prot : UInt64} (running : s.life.stage t = .running c)
    (supervised : s.life.taskLbr t) (dangerous : (Action.syscall t number prot).Dangerous t) :
    (s.syscallNew t target number prot).validated =
      s.validated ++ [(t, s.life.switching.cpu c)] := by
  obtain ⟨-, rfl | rfl | ⟨rfl | rfl, executable⟩⟩ := dangerous
  · exact validateIf_of_supervised running supervised rfl
  · exact validateIf_of_supervised running supervised rfl
  · exact validateIf_of_supervised running supervised (by simpa using executable)
  · exact validateIf_of_supervised running supervised (by simpa using executable)

end Supervision

/-- The target maps executable memory in a child that another task of it has created. -/
def forkedMmap : List Action :=
  [.life (.fork 1 2), .syscall 1 0x3b 0, .life (.execveRet 1 true), .life (.schedIn 2 1)]

theorem forkedMmap_runs :
    ∃ s s', (supervision forkTarget).exec
        (.init 1 0 (fun _ => .absent) fun _ => putLbr Lbr.zero) forkedMmap = some s ∧
      (supervision forkTarget).step s (.syscall 2 0x09 7) = some s' ∧ s.program 2 = true :=
  ⟨_, _, rfl, rfl, rfl⟩

namespace Supervision
variable {target : Target} {s s' : Supervision}

/-- No hook takes another program for the target. -/
def OnlyTarget (s : Supervision) : Prop := ∀ t, s.life.taskLbr t → s.program t

/-- An `execve` that fails is one of the target's program, if of a task that stems from it. -/
def FailsInTarget (s : Supervision) (a : Action) : Prop :=
  ∀ t, a = .life (.execveRet t true) → s.descends t → s.program t

theorem Effect.failsInTarget {a : Action} (effect : Effect s s' a) (marked : ∀ u, s.MarkedAt u)
    (only : s.OnlyTarget) (only' : s'.OnlyTarget) : s.FailsInTarget a := by
  rintro t rfl descends
  cases effect with
  | nothing other _ => exact absurd rfl (other t true)
  | execveRet _ _ inside life _ program _ =>
      rcases (marked t).descends.mp descends with supervised | suspended
      · exact only t supervised
      · have woken : s'.life.taskLbr t := by simp [life, Lifetimes.execveRet, suspended]
        simpa [program] using only' t woken

theorem Effect.onlyTarget {a : Action} (effect : Effect s s' a) (marked : ∀ u, s.MarkedAt u)
    (only : s.OnlyTarget) (fails : s.FailsInTarget a) : s'.OnlyTarget := by
  intro u supervised
  cases effect with
  | nothing _ same =>
      rw [(same u).program]
      exact only u ((same u).taskLbr ▸ supervised)
  | execve t number prot outside life descends program inExecve =>
      rw [program]
      apply only
      rw [life, Lifetimes.execve] at supervised
      split_ifs at supervised
      · rcases eq_or_ne u t with rfl | other
        · simp at supervised
        · simpa [other] using supervised
      · exact supervised
  | fork t p outside taskLbr suspLbr descends program inExecve =>
      rcases eq_or_ne u p with rfl | other
      · simpa [program] using only t (by simpa [taskLbr] using supervised)
      · simpa [program, other] using only u (by simpa [taskLbr, other] using supervised)
  | execveRet t failed inside life descends program inExecve =>
      rcases eq_or_ne u t with rfl | other
      · by_cases woken : s.life.suspLbr u ∧ failed
        · have once := (marked u).descends.mpr (.inr woken.1)
          simpa [program, woken.2] using fails u (by rw [woken.2]) once
        · rw [life, Lifetimes.execveRet, if_neg (by simpa using woken)] at supervised
          have outside := ((marked u).taskLbr_iff (only u supervised)).mp supervised
          exact absurd inside outside
      · have before : s.life.taskLbr u := by
          rw [life, Lifetimes.execveRet] at supervised
          split_ifs at supervised
          · simpa [other] using supervised
          · exact supervised
        simpa [program, other] using only u before

structure Exact (s : Supervision) : Prop where
  marked : ∀ u, s.MarkedAt u
  only : s.OnlyTarget

def Allows (target : Target) (s : Supervision) (a : Action) : Prop :=
  ((supervision target).step s a).isSome → s.FailsInTarget a

theorem Exact.step_iff (exact : s.Exact) {a : Action}
    (step : (supervision target).step s a = some s') : s'.Exact ↔ Allows target s a := by
  have effect := step_effect step
  constructor
  · intro exact' _
    exact effect.failsInTarget exact.marked exact.only exact'.only
  · intro allows
    exact ⟨effect.marked exact.marked,
      effect.onlyTarget exact.marked exact.only (allows (by simp [step]))⟩

theorem init_exact (t : Task) (c : Nat) (others : Task → Stage) (cpu : Nat → Msrs) :
    (init t c others cpu).Exact := ⟨init_marked t c others cpu, fun _ supervised => supervised⟩

end Supervision

/-- The target starts another program, which then fails to start a third one. -/
def shellFails : List Action :=
  [.syscall 1 0x3b 0, .life (.execveRet 1 false), .syscall 1 0x3b 0, .life (.execveRet 1 true)]

theorem shellFails_runs :
    ∃ s, (supervision forkTarget).exec
        (.init 1 0 (fun _ => .absent) fun _ => putLbr Lbr.zero) shellFails = some s ∧
      s.life.taskLbr 1 = true ∧ s.program 1 = false :=
  ⟨_, rfl, rfl, rfl⟩

end PathArmor.Kernel
