import PathArmor.Kernel.Hooks
import PathArmor.Kernel.Isolation
import PathArmor.Kernel.LbrCache

/-!
# Tasks and what the caches keep of them

A task is created, switched in and out, calls `execve` and exits. Its bits, its scheduler hooks and
the work queued for it decide whether all four caches let go of it.
-/

namespace PathArmor.Kernel
open PathArmor.Library

inductive Stage
  | absent
  | offCpu
  | running (c : Nat)
  | exiting (c : Nat) -- `do_exit` was called, the last `sched_out` is to come
  | gone
  deriving DecidableEq, Repr

/-- `supervisedOnce` is not in the sources: the bit `TASK_LBR` was ever set. -/
structure Lifetimes where
  wrappers : Wrappers
  switching : Switching
  taskLbr : Task → Bool
  suspLbr : Task → Bool
  hooked : Task → Bool
  exitQueue : List Task
  stage : Task → Stage
  supervisedOnce : Task → Bool

inductive Life
  | request (h : Hook)
  | fork (t p : Task)
  | schedOut (t : Task)
  | schedIn (t : Task) (c : Nat)
  | execve (t : Task)
  | execveRet (t : Task) (failed : Bool)
  | doExit (t : Task)
  | deferredExit (t : Task)

/-- The ioctls of the wrappers, which any task can make, and the signal hooks. -/
def Hook.isRequest : Hook → Bool
  | .wakeUpNewTask _ _ | .doExit _ | .deferredExit _ => false
  | _ => true

def Hook.isSignal : Hook → Bool
  | .signalDelivered _ _ | .rtSigreturn _ => true
  | _ => false

namespace Lifetimes

/-- `INIT` by the task `t`; the others are not supervised. -/
def init (t : Task) (c : Nat) (others : Task → Stage) (cpu : Nat → Msrs) : Lifetimes where
  wrappers := .zero
  switching := .init cpu
  taskLbr u := u = t
  suspLbr _ := false
  hooked u := u = t
  exitQueue := []
  stage := Function.update others t (.running c)
  supervisedOnce u := u = t

def request (target : Target) (s : Lifetimes) (h : Hook) (c : Nat) : Lifetimes :=
  if h.isSignal && !s.taskLbr h.task then s
  else
    let m : Machine := ⟨s.wrappers, fun _ => s.switching.cpu c, fun _ => false⟩
    let m := m.step target h
    { s with
      wrappers := m.wrappers
      switching := { s.switching with cpu := Function.update s.switching.cpu c (m.regs h.task) } }

/-- The child has its parent's `personality`, and none of its scheduler hooks. -/
def fork (s : Lifetimes) (t p : Task) (c : Nat) : Lifetimes :=
  let s := { s with
    taskLbr := Function.update s.taskLbr p (s.taskLbr t)
    suspLbr := Function.update s.suspLbr p (s.suspLbr t)
    supervisedOnce := Function.update s.supervisedOnce p (s.taskLbr t)
    stage := Function.update s.stage p .offCpu }
  if s.taskLbr p then
    { s with
      hooked := Function.update s.hooked p true
      wrappers := (s.wrappers.newWakeUpNewTask t p).1
      switching := s.switching.storeLbr p c }
  else s

def schedOut (s : Lifetimes) (t : Task) (c : Nat) (stage : Stage) : Lifetimes :=
  { s with
    switching := if s.hooked t then s.switching.saveLbr t c else s.switching
    stage := Function.update s.stage t stage }

def schedIn (s : Lifetimes) (t : Task) (c : Nat) : Lifetimes :=
  { s with
    switching := if s.hooked t then s.switching.restoreLbr t c else s.switching
    stage := Function.update s.stage t (.running c) }

def execve (s : Lifetimes) (t : Task) : Lifetimes :=
  if s.taskLbr t then
    { s with
      taskLbr := Function.update s.taskLbr t false
      suspLbr := Function.update s.suspLbr t true }
  else s

def execveRet (s : Lifetimes) (t : Task) (failed : Bool) : Lifetimes :=
  if s.suspLbr t && failed then
    { s with
      suspLbr := Function.update s.suspLbr t false
      taskLbr := Function.update s.taskLbr t true
      supervisedOnce := Function.update s.supervisedOnce t true }
  else s

def doExit (s : Lifetimes) (t : Task) (c : Nat) : Lifetimes :=
  let s := { s with stage := Function.update s.stage t (.exiting c) }
  if s.taskLbr t then
    { s with hooked := Function.update s.hooked t false, exitQueue := t :: s.exitQueue }
  else s

def deferredExit (s : Lifetimes) (t : Task) : Lifetimes :=
  { s with wrappers := s.wrappers.doDeferredExit t, exitQueue := s.exitQueue.erase t }

def onCpu (s : Lifetimes) (t : Task) : Option Nat :=
  match s.stage t with
  | .running c => some c
  | _ => none

end Lifetimes

def lifetimes (target : Target) : System Lifetimes Life where
  step s
    | .request h => (s.onCpu h.task).bind fun c =>
        if h.isRequest then some (s.request target h c) else none
    | .fork t p => (s.onCpu t).bind fun c =>
        if s.stage p = .absent then some (s.fork t p c) else none
    | .schedOut t =>
        match s.stage t with
        | .running c => some (s.schedOut t c .offCpu)
        | .exiting c => some (s.schedOut t c .gone)
        | _ => none
    | .schedIn t c => if s.stage t = .offCpu then some (s.schedIn t c) else none
    | .execve t => (s.onCpu t).map fun _ => s.execve t
    | .execveRet t failed => (s.onCpu t).map fun _ => s.execveRet t failed
    | .doExit t => (s.onCpu t).map fun c => s.doExit t c
    | .deferredExit t => if t ∈ s.exitQueue then some (s.deferredExit t) else none

/-! ## Owners -/

namespace Wrappers

def Owns (w : Wrappers) (u : Task) : Prop :=
  wrapperLayout.Owns w.lib u ∨ wrapperLayout.Owns w.cbk u ∨ wrapperLayout.Owns w.sig u

structure Exclusive (w : Wrappers) : Prop where
  lib : wrapperLayout.Exclusive w.lib
  cbk : wrapperLayout.Exclusive w.cbk
  sig : wrapperLayout.Exclusive w.sig

structure Moves (t : Task) (w w' : Wrappers) : Prop where
  lib : wrapperLayout.Moves t w.lib w'.lib
  cbk : wrapperLayout.Moves t w.cbk w'.cbk
  sig : wrapperLayout.Moves t w.sig w'.sig

variable {w w' : Wrappers} {t u : Task}

theorem Moves.refl (t : Task) (w : Wrappers) : Moves t w w := ⟨.inl rfl, .inl rfl, .inl rfl⟩

theorem Moves.owns (moves : Moves t w w') (owns : w'.Owns u) : w.Owns u ∨ u = t := by
  rcases owns with lib | cbk | sig
  · exact (moves.lib.owns lib).imp .inl id
  · exact (moves.cbk.owns cbk).imp (.inr ∘ .inl) id
  · exact (moves.sig.owns sig).imp (.inr ∘ .inr) id

theorem Moves.exclusive (moves : Moves t w w') (exclusive : w.Exclusive) : w'.Exclusive :=
  ⟨moves.lib.exclusive exclusive.lib, moves.cbk.exclusive exclusive.cbk,
    moves.sig.exclusive exclusive.sig⟩

end Wrappers

section
variable {n : Nat} {data : Cache n} {task : Task}

theorem Allocates.moves [NeZero n] {data' : Cache n} {killed : Bool}
    (allocates : Allocates data task data' killed) : wrapperLayout.Moves task data data' := by
  right
  cases allocates with
  | own i slot killed mine owner => exact ⟨i, slot, rfl, .inr (.inl (owner.trans mine.symm))⟩
  | free i slot killed empty absent owner =>
      refine ⟨i, slot, rfl, .inr (.inr ⟨owner, ?_⟩)⟩
      rintro ⟨j, mine⟩
      exact absent j mine
  | wrong slot full owner => exact ⟨0, slot, rfl, .inr (.inl owner)⟩

theorem leave_moves {ρ : Type} {size : WrapperLib → Nat} {load : WrapperLib → WrapperLib × ρ}
    (owner : ∀ slot, (load slot).1.task = slot.task) :
    wrapperLayout.Moves task data (leave data task size load).1 := by
  cases found : (List.finRange n).find? fun i => (data i).task = some task with
  | none => exact .inl (by simp [leave, found])
  | some i =>
      right
      simp only [leave, found]
      by_cases last : size (data i) = 1
      · simp only [last, if_true]
        exact ⟨i, _, rfl, .inl (owner _)⟩
      · simp only [last, if_false]
        exact ⟨i, _, rfl, .inr (.inl (owner _))⟩

theorem forget_releases : wrapperLayout.Releases task data (forget data task) := by
  cases found : (List.finRange n).find? fun i => (data i).task = some task with
  | none =>
      left
      refine ⟨?_, by simp [forget, found]⟩
      rintro ⟨i, mine⟩
      have foreign : (data i).task ≠ some task := by
        simpa using List.find?_eq_none.mp found i (List.mem_finRange i)
      exact foreign mine
  | some i =>
      have mine : (data i).task = some task := by simpa using List.find?_some found
      exact .inr ⟨i, .zero, mine, rfl, by simp [forget, found]⟩

end

namespace Wrappers
variable (w : Wrappers) (t p : Task)

theorem newWakeUpNewTask_moves : Moves p w (w.newWakeUpNewTask t p).1 := by
  have moves {n : Nat} [NeZero n] {data : Cache n} {entries : List (Fin n)}
      {copy : WrapperLib → WrapperLib → WrapperLib}
      (owner : ∀ ours new, (copy ours new).task = new.task) :
      wrapperLayout.Moves p data (inherit data t p entries copy).1 := by
    cases inherit_allocates data p t entries owner with
    | inl same => exact .inl (congrArg Prod.fst same)
    | inr allocates => exact allocates.moves
  constructor <;> exact moves fun _ _ => rfl

theorem doDeferredExit_moves : Moves t w (w.doDeferredExit t) :=
  ⟨forget_releases.moves, forget_releases.moves, forget_releases.moves⟩

end Wrappers

theorem step_moves (target : Target) {m : Machine} {h : Hook} (request : h.isRequest) :
    Wrappers.Moves h.task m.wrappers (m.step target h).wrappers := by
  cases h with
  | branches t tos fromAddr toAddr => exact .refl t _
  | libEnter t arg1 =>
      simp only [Machine.step, Machine.put]
      split_ifs
      · exact .refl t _
      · exact ⟨(m.wrappers.libInit_allocates t arg1).moves, .inl rfl, .inl rfl⟩
  | libExit t arg1 =>
      simp only [Machine.step, Machine.put]
      split_ifs
      · exact .refl t _
      · exact ⟨leave_moves stackPop_task, .inl rfl, .inl rfl⟩
  | callbackEnter t arg1 =>
      exact ⟨.inl rfl, (m.wrappers.cbkInit_allocates t arg1 _).moves, .inl rfl⟩
  | callbackExit t =>
      exact ⟨.inl rfl, leave_moves fun slot => (stackPop_task _).trans (lbrStackPop_task slot _),
        .inl rfl⟩
  | signalDelivered t handler =>
      simp only [Machine.step]
      split_ifs
      · exact .refl t _
      · exact ⟨.inl rfl, .inl rfl, (m.wrappers.sigInit_allocates t target handler _).moves⟩
  | rtSigreturn t => exact ⟨.inl rfl, .inl rfl, leave_moves fun slot => lbrStackPop_task slot _⟩
  | wakeUpNewTask t p | doExit t | deferredExit t => cases request

section
variable {k : Switching} {t : Task} {c : Nat}

theorem storeLbr_moves (absent : ¬ lbrLayout.Owns k.lbrCache t) :
    lbrLayout.Moves t k.lbrCache (k.storeLbr t c).lbrCache := by
  cases found : (List.finRange lbrCacheSize).find? fun i => (k.lbrCache i).task = none with
  | none => exact .inl (by simp [Switching.storeLbr, found])
  | some i =>
      simp only [Switching.storeLbr, found]
      exact .inr ⟨i, _, rfl, .inr (.inr ⟨rfl, absent⟩)⟩

theorem storeLbr_owns (free : ∃ i, (k.lbrCache i).task = none) :
    lbrLayout.Owns (k.storeLbr t c).lbrCache t := by
  cases found : (List.finRange lbrCacheSize).find? fun i => (k.lbrCache i).task = none with
  | none =>
      obtain ⟨i, empty⟩ := free
      have taken : (k.lbrCache i).task ≠ none := by
        simpa using List.find?_eq_none.mp found i (List.mem_finRange i)
      exact absurd empty taken
  | some i =>
      simp only [Switching.storeLbr, found]
      exact ⟨i, by simp [lbrLayout]⟩

theorem restoreLbr_releases : lbrLayout.Releases t k.lbrCache (k.restoreLbr t c).lbrCache := by
  cases found : (List.finRange lbrCacheSize).find? fun i => (k.lbrCache i).task = some t with
  | none =>
      left
      refine ⟨?_, by simp [Switching.restoreLbr, found]⟩
      rintro ⟨i, mine⟩
      have foreign : (k.lbrCache i).task ≠ some t := by
        simpa using List.find?_eq_none.mp found i (List.mem_finRange i)
      exact foreign mine
  | some i =>
      have mine : (k.lbrCache i).task = some t := by simpa using List.find?_some found
      simp only [Switching.restoreLbr, found]
      exact .inr ⟨i, _, mine, rfl, rfl⟩

end

/-! ## Runs -/

namespace Lifetimes
variable {target : Target} {s s' : Lifetimes} {t p u : Task} {c : Nat}

def Over (s : Lifetimes) (u : Task) : Prop := (∃ c, s.stage u = .exiting c) ∨ s.stage u = .gone

/-- No task exits while its tracking is suspended. -/
def Tracked (s : Lifetimes) : Life → Prop
  | .doExit t => s.supervisedOnce t → s.taskLbr t
  | _ => True

/-- The queue takes care of whatever the caches still keep of a task that has exited, and only a
task off the CPUs that is going to be switched in has an entry in `lbr_cache`. -/
structure Tidy (s : Lifetimes) : Prop where
  exclusive : s.wrappers.Exclusive
  lbrExclusive : lbrLayout.Exclusive s.switching.lbrCache
  owner : ∀ u, s.wrappers.Owns u →
    s.stage u ≠ .absent ∧ (s.Over u → s.supervisedOnce u → u ∈ s.exitQueue)
  lbrOwner : ∀ u, lbrLayout.Owns s.switching.lbrCache u → s.stage u = .offCpu ∧ s.hooked u
  hooked : ∀ u, s.hooked u → s.supervisedOnce u ∧ s.stage u ≠ .absent ∧ ¬ s.Over u
  supervised : ∀ u, s.taskLbr u → s.supervisedOnce u
  queued : ∀ u ∈ s.exitQueue, s.Over u

theorem onCpu_eq_some : s.onCpu t = some c ↔ s.stage t = .running c := by
  unfold onCpu
  cases stage : s.stage t <;> simp

structure TidyAt (s : Lifetimes) (u : Task) : Prop where
  owner : s.wrappers.Owns u →
    s.stage u ≠ .absent ∧ (s.Over u → s.supervisedOnce u → u ∈ s.exitQueue)
  lbrOwner : lbrLayout.Owns s.switching.lbrCache u → s.stage u = .offCpu ∧ s.hooked u
  hooked : s.hooked u → s.supervisedOnce u ∧ s.stage u ≠ .absent ∧ ¬ s.Over u
  supervised : s.taskLbr u → s.supervisedOnce u
  queued : u ∈ s.exitQueue → s.Over u

/-- Nothing changes for the task, except that it may lose its slots. -/
structure Spares (s s' : Lifetimes) (u : Task) : Prop where
  owns : s'.wrappers.Owns u → s.wrappers.Owns u
  lbrOwns : lbrLayout.Owns s'.switching.lbrCache u → lbrLayout.Owns s.switching.lbrCache u
  stage : s'.stage u = s.stage u
  hooked : s'.hooked u = s.hooked u
  tracked : s'.taskLbr u = s.taskLbr u
  once : s'.supervisedOnce u = s.supervisedOnce u
  queued : u ∈ s'.exitQueue ↔ u ∈ s.exitQueue

theorem Spares.tidyAt (spares : s.Spares s' u) (tidy : s.Tidy) : s'.TidyAt u := by
  have ended : s'.Over u ↔ s.Over u := by simp only [Over, spares.stage]
  constructor
  · rw [spares.stage, ended, spares.once, spares.queued]
    exact fun owns => tidy.owner u (spares.owns owns)
  · rw [spares.stage, spares.hooked]
    exact fun owns => tidy.lbrOwner u (spares.lbrOwns owns)
  · rw [spares.hooked, spares.once, spares.stage, ended]
    exact tidy.hooked u
  · rw [spares.tracked, spares.once]
    exact tidy.supervised u
  · rw [spares.queued, ended]
    exact tidy.queued u

theorem Tidy.change (tidy : s.Tidy) (exclusive : s'.wrappers.Exclusive)
    (lbrExclusive : lbrLayout.Exclusive s'.switching.lbrCache) (own : s'.TidyAt t)
    (others : ∀ u ≠ t, s.Spares s' u) : s'.Tidy := by
  have tidyAt (u : Task) : s'.TidyAt u := by
    rcases eq_or_ne u t with rfl | differs
    · exact own
    · exact (others u differs).tidyAt tidy
  exact ⟨exclusive, lbrExclusive, fun u => (tidyAt u).owner, fun u => (tidyAt u).lbrOwner,
    fun u => (tidyAt u).hooked, fun u => (tidyAt u).supervised, fun u => (tidyAt u).queued⟩

theorem Tidy.not_lbrOwns (tidy : s.Tidy) (onCpu : s.stage t ≠ .offCpu) :
    ¬ lbrLayout.Owns s.switching.lbrCache t := fun owns => onCpu (tidy.lbrOwner t owns).1

theorem Tidy.not_queued (tidy : s.Tidy) (alive : ¬ s.Over t) : t ∉ s.exitQueue :=
  fun queued => alive (tidy.queued t queued)

theorem Tidy.request (tidy : s.Tidy) {h : Hook} (running : s.stage h.task = .running c)
    (isRequest : h.isRequest) : (s.request target h c).Tidy := by
  unfold Lifetimes.request
  split_ifs
  · exact tidy
  · have moves := step_moves target isRequest
      (m := ⟨s.wrappers, fun _ => s.switching.cpu c, fun _ => false⟩)
    exact { tidy with
      exclusive := moves.exclusive tidy.exclusive
      owner := fun u owns => by
        cases moves.owns owns with
        | inl before => exact tidy.owner u before
        | inr same => simp [Over, same, running] }

theorem Tidy.fork (tidy : s.Tidy) (absent : s.stage p = .absent) : (s.fork t p c).Tidy := by
  have lbrAbsent := tidy.not_lbrOwns (t := p) (by simp [absent])
  have notQueued := tidy.not_queued (t := p) (by simp [Over, absent])
  by_cases supervised : s.taskLbr t
  · have moves := s.wrappers.newWakeUpNewTask_moves t p
    have lbrMoves := storeLbr_moves (c := c) lbrAbsent
    simp only [Lifetimes.fork, supervised, Function.update_self, if_true]
    refine tidy.change (t := p) (moves.exclusive tidy.exclusive)
      (lbrMoves.exclusive tidy.lbrExclusive) ?_ ?_
    · constructor <;> simp [Over, notQueued]
    · intro u differs
      refine ⟨fun owns => (moves.owns owns).resolve_right differs,
        fun owns => (lbrMoves.owns owns).resolve_right differs, ?_, ?_, ?_, ?_, .rfl⟩
      all_goals exact Function.update_of_ne differs _ _
  · have notHooked : ¬ s.hooked p := fun hooked => (tidy.hooked p hooked).2.1 absent
    simp only [Lifetimes.fork, supervised, Function.update_self]
    refine tidy.change (t := p) tidy.exclusive tidy.lbrExclusive ?_ ?_
    · constructor <;> simp [Over, notQueued, lbrAbsent, notHooked]
    · intro u differs
      constructor <;> simp [differs]

theorem Tidy.schedOut (tidy : s.Tidy) (running : s.stage t = .running c) :
    (s.schedOut t c .offCpu).Tidy := by
  have lbrAbsent := tidy.not_lbrOwns (t := t) (by simp [running])
  have notQueued := tidy.not_queued (t := t) (by simp [Over, running])
  have lbrMoves : lbrLayout.Moves t s.switching.lbrCache
      (s.schedOut t c .offCpu).switching.lbrCache := by
    simp only [Lifetimes.schedOut]
    split_ifs
    · exact storeLbr_moves lbrAbsent
    · exact .inl rfl
  refine tidy.change (t := t) tidy.exclusive (lbrMoves.exclusive tidy.lbrExclusive) ?_ ?_
  · refine ⟨fun _ => by simp [Lifetimes.schedOut, Over], fun owns => ?_, fun hooked => ?_,
      tidy.supervised t, fun queued => absurd queued notQueued⟩
    · refine ⟨by simp [Lifetimes.schedOut], ?_⟩
      by_contra notHooked
      have same : s.hooked t = false := by simpa [Lifetimes.schedOut] using notHooked
      simp only [Lifetimes.schedOut, same] at owns
      exact lbrAbsent owns
    · simpa [Lifetimes.schedOut, Over] using (tidy.hooked t hooked).1
  · intro u differs
    exact ⟨id, fun owns => (lbrMoves.owns owns).resolve_right differs,
      Function.update_of_ne differs _ _, rfl, rfl, rfl, .rfl⟩

/-- The last `sched_out` of a task finds no hook. -/
theorem Tidy.lastSchedOut (tidy : s.Tidy) (exiting : s.stage t = .exiting c) :
    (s.schedOut t c .gone).Tidy := by
  have ended : s.Over t := .inl ⟨c, exiting⟩
  have lbrAbsent := tidy.not_lbrOwns (t := t) (by simp [exiting])
  have notHooked : s.hooked t = false := by
    by_contra hooked
    exact (tidy.hooked t (by simpa using hooked)).2.2 ended
  simp only [Lifetimes.schedOut, notHooked]
  refine tidy.change (t := t) tidy.exclusive tidy.lbrExclusive ?_ ?_
  · refine ⟨fun owns => ?_, fun owns => absurd owns lbrAbsent, by simp [notHooked],
      tidy.supervised t, by simp [Over]⟩
    simpa [Over, ended] using (tidy.owner t owns).2 ended
  · intro u differs
    constructor <;> simp [differs]

theorem Tidy.schedIn (tidy : s.Tidy) (off : s.stage t = .offCpu) : (s.schedIn t c).Tidy := by
  have notQueued := tidy.not_queued (t := t) (by simp [Over, off])
  have lbrMoves : lbrLayout.Moves t s.switching.lbrCache (s.schedIn t c).switching.lbrCache ∧
      ¬ lbrLayout.Owns (s.schedIn t c).switching.lbrCache t := by
    simp only [Lifetimes.schedIn]
    split_ifs with hooked
    · exact ⟨restoreLbr_releases.moves, restoreLbr_releases.not_owns tidy.lbrExclusive⟩
    · exact ⟨.inl rfl, fun owns => hooked (tidy.lbrOwner t owns).2⟩
  refine tidy.change (t := t) tidy.exclusive (lbrMoves.1.exclusive tidy.lbrExclusive) ?_ ?_
  · refine ⟨fun _ => by simp [Lifetimes.schedIn, Over], fun owns => absurd owns lbrMoves.2,
      fun hooked => ?_, tidy.supervised t, fun queued => absurd queued notQueued⟩
    simpa [Lifetimes.schedIn, Over] using (tidy.hooked t hooked).1
  · intro u differs
    exact ⟨id, fun owns => (lbrMoves.1.owns owns).resolve_right differs,
      Function.update_of_ne differs _ _, rfl, rfl, rfl, .rfl⟩

theorem Tidy.execve (tidy : s.Tidy) : (s.execve t).Tidy := by
  unfold Lifetimes.execve
  split_ifs
  · refine tidy.change (t := t) tidy.exclusive tidy.lbrExclusive ?_ ?_
    · exact ⟨tidy.owner t, tidy.lbrOwner t, tidy.hooked t, by simp, tidy.queued t⟩
    · intro u differs
      constructor <;> simp [differs]
  · exact tidy

theorem Tidy.execveRet (tidy : s.Tidy) (running : s.stage t = .running c) (failed : Bool) :
    (s.execveRet t failed).Tidy := by
  unfold Lifetimes.execveRet
  split_ifs
  · refine tidy.change (t := t) tidy.exclusive tidy.lbrExclusive ?_ ?_
    · refine ⟨fun _ => by simp [Over, running], tidy.lbrOwner t, fun hooked => ?_, by simp,
        tidy.queued t⟩
      exact ⟨by simp, (tidy.hooked t hooked).2⟩
    · intro u differs
      constructor <;> simp [differs]
  · exact tidy

theorem Tidy.doExit (tidy : s.Tidy) (running : s.stage t = .running c)
    (tracked : s.supervisedOnce t → s.taskLbr t) : (s.doExit t c).Tidy := by
  have lbrAbsent := tidy.not_lbrOwns (t := t) (by simp [running])
  by_cases supervised : s.taskLbr t
  · simp only [Lifetimes.doExit, supervised, if_true]
    refine tidy.change (t := t) tidy.exclusive tidy.lbrExclusive ?_ ?_
    · exact ⟨by simp, fun owns => absurd owns lbrAbsent, by simp, tidy.supervised t, by simp [Over]⟩
    · intro u differs
      constructor <;> simp [differs]
  · have notOnce : ¬ s.supervisedOnce t := fun once => supervised (tracked once)
    simp only [Lifetimes.doExit, supervised]
    refine tidy.change (t := t) tidy.exclusive tidy.lbrExclusive ?_ ?_
    · exact ⟨by simp [notOnce], fun owns => absurd owns lbrAbsent,
        fun hooked => absurd (tidy.hooked t hooked).1 notOnce, tidy.supervised t, by simp [Over]⟩
    · intro u differs
      constructor <;> simp [differs]

theorem Tidy.deferredExit (tidy : s.Tidy) : (s.deferredExit t).Tidy := by
  have moves := s.wrappers.doDeferredExit_moves t
  refine tidy.change (t := t) (moves.exclusive tidy.exclusive) tidy.lbrExclusive ?_ ?_
  · refine ⟨?_, tidy.lbrOwner t, tidy.hooked t, tidy.supervised t,
      fun queued => tidy.queued t (List.mem_of_mem_erase queued)⟩
    rintro (lib | cbk | sig)
    · exact absurd lib (forget_releases.not_owns tidy.exclusive.lib)
    · exact absurd cbk (forget_releases.not_owns tidy.exclusive.cbk)
    · exact absurd sig (forget_releases.not_owns tidy.exclusive.sig)
  · intro u differs
    exact ⟨fun owns => (moves.owns owns).resolve_right differs, id, rfl, rfl, rfl, rfl,
      List.mem_erase_of_ne differs⟩

theorem Tidy.step (tidy : s.Tidy) {e : Life} (tracked : s.Tracked e)
    (step : (lifetimes target).step s e = some s') : s'.Tidy := by
  cases e with
  | request h =>
      simp only [lifetimes, Option.bind_eq_some_iff] at step
      obtain ⟨c, running, step⟩ := step
      split_ifs at step with isRequest
      obtain rfl := Option.some.inj step
      exact tidy.request (onCpu_eq_some.mp running) isRequest
  | fork t p =>
      simp only [lifetimes, Option.bind_eq_some_iff] at step
      obtain ⟨c, -, step⟩ := step
      split_ifs at step with absent
      obtain rfl := Option.some.inj step
      exact tidy.fork absent
  | schedOut t =>
      cases stage : s.stage t with
      | running c =>
          obtain rfl : s.schedOut t c .offCpu = s' := by simpa [lifetimes, stage] using step
          exact tidy.schedOut stage
      | exiting c =>
          obtain rfl : s.schedOut t c .gone = s' := by simpa [lifetimes, stage] using step
          exact tidy.lastSchedOut stage
      | _ => simp [lifetimes, stage] at step
  | schedIn t c =>
      simp only [lifetimes] at step
      split_ifs at step with off
      obtain rfl := Option.some.inj step
      exact tidy.schedIn off
  | execve t =>
      obtain ⟨c, -, rfl⟩ := Option.map_eq_some_iff.mp step
      exact tidy.execve
  | execveRet t failed =>
      obtain ⟨c, running, rfl⟩ := Option.map_eq_some_iff.mp step
      exact tidy.execveRet (onCpu_eq_some.mp running) failed
  | doExit t =>
      obtain ⟨c, running, rfl⟩ := Option.map_eq_some_iff.mp step
      exact tidy.doExit (onCpu_eq_some.mp running) tracked
  | deferredExit t =>
      simp only [lifetimes] at step
      split_ifs at step
      obtain rfl := Option.some.inj step
      exact tidy.deferredExit

theorem init_tidy (t : Task) (c : Nat) (others : Task → Stage) (cpu : Nat → Msrs) :
    (init t c others cpu).Tidy where
  exclusive := by constructor <;> intro i j u owner <;> cases owner
  lbrExclusive := fun owner => by cases owner
  owner := by rintro u (⟨i, owner⟩ | ⟨i, owner⟩ | ⟨i, owner⟩) <;> cases owner
  lbrOwner := by
    rintro u ⟨i, owner⟩
    cases owner
  hooked u hooked := by
    obtain rfl : u = t := by simpa [init] using hooked
    simp [init, Over]
  supervised _ tracked := tracked
  queued := by simp [init]

variable (target) in
/-- The hooks stay, nothing is queued, and the last `sched_out` stores the registers for good. -/
theorem doExit_suspended (running : s.stage t = .running c) (suspended : s.taskLbr t = false)
    (hooked : s.hooked t) (free : ∃ i, (s.switching.lbrCache i).task = none) :
    ∃ s', (lifetimes target).exec s [.doExit t, .schedOut t] = some s' ∧ s'.stage t = .gone ∧
      s'.exitQueue = s.exitQueue ∧ s'.supervisedOnce = s.supervisedOnce ∧
      lbrLayout.Owns s'.switching.lbrCache t := by
  refine ⟨(s.doExit t c).schedOut t c .gone, ?_, ?_, ?_, ?_, ?_⟩
  · simp [System.exec, lifetimes, onCpu_eq_some.mpr running, Lifetimes.doExit, suspended]
  · simp [Lifetimes.schedOut]
  · simp [Lifetimes.schedOut, Lifetimes.doExit, suspended]
  · simp [Lifetimes.schedOut, Lifetimes.doExit, suspended]
  · simp only [Lifetimes.schedOut, Lifetimes.doExit, suspended, Bool.false_eq_true, if_false,
      hooked, if_true]
    exact storeLbr_owns free

end Lifetimes

/-- If no task exits while its tracking is suspended, no cache outlives its task. A task that does
leaves its registers in `lbr_cache`, as long as there is room for them. -/
theorem caches_released_iff_tracked {target : Target} {t₀ : Task} {c₀ : Nat} {others : Task → Stage}
    {cpu₀ : Nat → Msrs} {events : List Life} {s : Lifetimes}
    (run : (lifetimes target).Run Lifetimes.Tracked (.init t₀ c₀ others cpu₀) events s) :
    (∀ u, s.supervisedOnce u → s.stage u = .gone → u ∉ s.exitQueue →
      ¬ s.wrappers.Owns u ∧ ¬ lbrLayout.Owns s.switching.lbrCache u) ∧
    ∀ t c, s.stage t = .running c → ¬ s.taskLbr t → s.hooked t →
      (∃ i, (s.switching.lbrCache i).task = none) →
      ∃ s', (lifetimes target).exec s [.doExit t, .schedOut t] = some s' ∧ s'.supervisedOnce t ∧
        s'.stage t = .gone ∧ t ∉ s'.exitQueue ∧ lbrLayout.Owns s'.switching.lbrCache t := by
  have tidy : s.Tidy := run.invariant (P := Lifetimes.Tidy)
    (fun _ _ _ tidy tracked step => tidy.step tracked step) (Lifetimes.init_tidy t₀ c₀ others cpu₀)
  constructor
  · intro u once gone notQueued
    constructor
    · intro owns
      exact notQueued ((tidy.owner u owns).2 (.inr gone) once)
    · intro owns
      simp [(tidy.lbrOwner u owns).1] at gone
  · intro t c running suspended hooked free
    obtain ⟨s', executed, gone, queue, once, owns⟩ := Lifetimes.doExit_suspended target
      running (by simpa using suspended) hooked free
    refine ⟨s', executed, by rw [once]; exact (tidy.hooked t hooked).1, gone, ?_, owns⟩
    rw [queue]
    intro queued
    simpa [Lifetimes.Over, running] using tidy.queued t queued

/-- After a successful `execve`. -/
theorem execve_leaks :
    ∃ s, (lifetimes forkTarget).exec (.init 1 0 (fun _ => .absent) fun _ => putLbr Lbr.zero)
        [.execve 1, .execveRet 1 false, .doExit 1, .schedOut 1] = some s ∧
      s.supervisedOnce 1 = true ∧ s.stage 1 = .gone ∧ s.exitQueue = [] ∧
      lbrLayout.Owns s.switching.lbrCache 1 := by
  have free : ∃ i, ((Switching.init fun _ => putLbr Lbr.zero).lbrCache i).task = none :=
    ⟨⟨0, by simp [lbrCacheSize]⟩, rfl⟩
  let start := Lifetimes.init 1 0 (fun _ => .absent) fun _ => putLbr Lbr.zero
  obtain ⟨s, executed, gone, queue, once, owns⟩ := Lifetimes.doExit_suspended forkTarget
    (s := (start.execve 1).execveRet 1 false) (t := 1) (c := 0) rfl rfl rfl free
  exact ⟨s, executed, by rw [once]; rfl, gone, queue, owns⟩

def failedExecve : List Life :=
  [.request (.libEnter 1 0x400123), .execve 1, .execveRet 1 true, .doExit 1, .schedOut 1,
    .deferredExit 1]

theorem caches_released_iff_tracked_execve :
    ∃ s, (lifetimes forkTarget).Run Lifetimes.Tracked
        (.init 1 0 (fun _ => .absent) fun _ => putLbr Lbr.zero) failedExecve s ∧
      s.stage 1 = .gone ∧ ¬ s.wrappers.Owns 1 ∧ ¬ lbrLayout.Owns s.switching.lbrCache 1 := by
  have run : ∃ s, (lifetimes forkTarget).Run Lifetimes.Tracked
      (.init 1 0 (fun _ => .absent) fun _ => putLbr Lbr.zero) failedExecve s ∧
      s.supervisedOnce 1 = true ∧ s.stage 1 = .gone ∧ s.exitQueue = [] :=
    ⟨_, .cons trivial rfl (.cons trivial rfl (.cons trivial rfl (.cons (fun _ => rfl) rfl
      (.cons trivial rfl (.cons trivial rfl (.nil _)))))), rfl, rfl, rfl⟩
  obtain ⟨s, run, once, gone, queue⟩ := run
  exact ⟨s, run, gone, (caches_released_iff_tracked run).1 1 once gone (by simp [queue])⟩

end PathArmor.Kernel
