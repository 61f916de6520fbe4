import PathArmor.Kernel.Hooks

/-!
# When the processor records

The LBR is to be on in target code and off in library code. `LIB_ENTER` and `LIB_EXIT` set it,
callbacks and signals restore what they saved.
-/

namespace PathArmor.Kernel
open PathArmor.Library

def Target.contains (target : Target) (address : UInt64) : Bool :=
  target.startCode ≤ address && address < target.endCode

/-- What a task is nested in, the innermost first. -/
inductive Frame
  | libCall
  | pthreadCreate -- the wrapper, which stores no return address
  | callback
  | signal (inTarget : Bool)
  deriving DecidableEq, Repr

def inTarget : List Frame → Bool
  | [] | .callback :: _ => true
  | .libCall :: _ | .pthreadCreate :: _ => false
  | .signal inTarget :: _ => inTarget

def recording (frames : List Frame) : UInt64 := if inTarget frames then ia32Debugctl else 0

/-- The well-nested events: library calls are made in target code, callbacks in library code, the
wrapper is called and signals arrive anywhere. -/
def nest (target : Target) (frames : List Frame) : Hook → Option (List Frame)
  | .branches _ _ _ _ => some frames
  | .libEnter _ arg1 =>
      if arg1 = 0 then some (.pthreadCreate :: frames)
      else if inTarget frames then some (.libCall :: frames) else none
  | .libExit _ arg1 =>
      match frames with
      | .pthreadCreate :: frames => if arg1 = 0 then some frames else none
      | .libCall :: frames => if arg1 = 0 then none else some frames
      | _ => none
  | .callbackEnter _ _ => if inTarget frames then none else some (.callback :: frames)
  | .callbackExit _ =>
      match frames with
      | .callback :: frames => some frames
      | _ => none
  | .signalDelivered _ handler =>
      if handler = 0 then some frames else some (.signal (target.contains handler) :: frames)
  | .rtSigreturn _ =>
      match frames with
      | .signal _ :: frames => some frames
      | _ => none
  | _ => none

/-- One task, until it is killed. -/
def supervised (target : Target) (t : Task) : System (Machine × List Frame) Hook where
  step s h :=
    if h.task = t ∧ s.1.killed t = false then
      (nest target s.2 h).map fun frames => (s.1.step target h, frames)
    else none

def Records (t : Task) (s : Machine × List Frame) : Prop :=
  (s.1.regs t).debugctl = recording s.2

/-- The wrapper of `pthread_create` returns to target code, and no signal handler is the first byte
of the code segment. -/
def Proper (target : Target) (s : Machine × List Frame) : Hook → Prop
  | .libExit _ arg1 => arg1 = 0 → inTarget s.2.tail
  | .signalDelivered _ handler =>
      handler = 0 ∨ handler ≠ target.startCode ∨ target.endCode ≤ target.startCode
  | _ => True

/-! ## What the caches hold for one task -/

def alone {α : Type} (t : Task) (pending : List α) : Task → List α :=
  Function.update (fun _ => []) t pending

section
variable {α : Type} {t : Task} {pending after : List α}

@[simp] theorem alone_self : alone t pending t = pending := by simp [alone]

@[simp] theorem update_alone : Function.update (alone t pending) t after = alone t after := by
  simp [alone]

theorem alone_room {n : Nat} (positive : 1 ≤ n) : {t' | alone t pending t' ≠ []}.encard ≤ n := by
  apply encard_le_of_covers {t} (by simpa using positive)
  intro t' nonempty
  by_contra other
  rw [Finset.mem_singleton] at other
  simp [alone, other] at nonempty

end

/-- The pending calls of the frames, with registers that record as the frame below does. -/
inductive Backed : List Frame → List UInt64 → List (UInt64 × Msrs) → List Msrs → Prop
  | nil : Backed [] [] [] []
  | libCall {frames lib cbk sig} (ret : UInt64) (called : inTarget frames)
      (rest : Backed frames lib cbk sig) : Backed (.libCall :: frames) (ret :: lib) cbk sig
  | pthreadCreate {frames lib cbk sig} (rest : Backed frames lib cbk sig) :
      Backed (.pthreadCreate :: frames) lib cbk sig
  | callback {frames lib cbk sig} (call : UInt64 × Msrs)
      (saved : call.2.debugctl = recording frames) (rest : Backed frames lib cbk sig) :
      Backed (.callback :: frames) lib (call :: cbk) sig
  | signal {frames lib cbk sig} (inTarget : Bool) (regs : Msrs)
      (saved : regs.debugctl = recording frames) (rest : Backed frames lib cbk sig) :
      Backed (.signal inTarget :: frames) lib cbk (regs :: sig)

structure Holding (t : Task) (w : Wrappers) (lib : List UInt64) (cbk : List (UInt64 × Msrs))
    (sig : List Msrs) : Prop where
  libStored : Stores w.lib (libEntry ∘ alone t lib)
  cbkStored : Stores w.cbk (cbkEntry ∘ alone t cbk)
  sigStored : Stores w.sig (sigEntry ∘ alone t sig)
  libDepth : lib.length ≤ stackSize
  cbkDepth : cbk.length ≤ stackSize
  sigDepth : sig.length ≤ stackSize

section
variable {target : Target} {t : Task} {w : Wrappers} {lib : List UInt64}
  {cbk : List (UInt64 × Msrs)} {sig : List Msrs} {cpu : Msrs}

theorem libCacheSize_pos : 1 ≤ libCacheSize := by simp [libCacheSize]

theorem enter_alone_full {α : Type} {n : Nat} [NeZero n] {data : Cache n} {pending : List α}
    {entry : List α → List UInt64 × List Msrs} (empty : ∀ l, entry l = ([], []) ↔ l = [])
    (positive : 1 ≤ n) (holds : Stores data (entry ∘ alone t pending)) (call : α)
    {store : WrapperLib → WrapperLib × Bool}
    (full : ∀ slot, wrapperLayout.view slot = entry pending → (store slot).2 = true) :
    (enter data t store).2 = true := by
  apply enter_full holds
  · apply room_of_encard empty (List.cons_ne_nil call pending)
    rw [update_alone]
    exact alone_room positive
  · intro slot view
    exact full slot (by simpa using view)

theorem Holding.libInit (holding : Holding t w lib cbk sig) (ret : UInt64) :
    (w.libInit t ret).2 = true ∨ Holding t (w.libInit t ret).1 (ret :: lib) cbk sig := by
  rcases holding.libDepth.lt_or_eq with room | full
  · right
    refine ⟨?_, holding.cbkStored, holding.sigStored, room, holding.cbkDepth, holding.sigDepth⟩
    have kept := libInit_keeps t ret holding.libStored (by simpa using room)
    simp only [alone_self, update_alone] at kept
    exact (kept (alone_room libCacheSize_pos)).1
  · left
    simp only [Wrappers.libInit]
    apply enter_alone_full (fun _ => libEntry_eq_empty) libCacheSize_pos holding.libStored ret
    intro slot view
    exact stackPush_full ret view full

theorem Holding.cbkInit (holding : Holding t w lib cbk sig) (ret : UInt64) :
    (w.cbkInit t ret cpu).2.2 = true ∨
      Holding t (w.cbkInit t ret cpu).1 lib ((ret, cpu.saved) :: cbk) sig := by
  rcases holding.cbkDepth.lt_or_eq with room | full
  · right
    refine ⟨holding.libStored, ?_, holding.sigStored, holding.libDepth, room, holding.sigDepth⟩
    have kept := cbkInit_keeps t ret cpu holding.cbkStored (by simpa using room)
    simp only [alone_self, update_alone] at kept
    exact (kept (alone_room (by decide))).1
  · left
    simp only [Wrappers.cbkInit]
    apply enter_alone_full (fun _ => cbkEntry_eq_empty) (by decide) holding.cbkStored (ret, cpu)
    intro slot view
    simp [stackPush_full ret view (by simpa using full)]

theorem Holding.sigInit (holding : Holding t w lib cbk sig) (handler : UInt64) :
    (w.sigInit t target handler cpu).2.2 = true ∨
      Holding t (w.sigInit t target handler cpu).1 lib cbk (cpu.saved :: sig) := by
  rcases holding.sigDepth.lt_or_eq with room | full
  · right
    refine ⟨holding.libStored, holding.cbkStored, ?_, holding.libDepth, holding.cbkDepth, room⟩
    have kept := sigInit_keeps t cpu target handler holding.sigStored (by simpa using room)
    simp only [alone_self, update_alone] at kept
    exact (kept (alone_room (by decide))).1
  · left
    simp only [Wrappers.sigInit]
    apply enter_alone_full (fun _ => sigEntry_eq_empty) (by decide) holding.sigStored cpu
    intro slot view
    exact lbrStackPush_full cpu view full

theorem Holding.libExit {ret : UInt64} (holding : Holding t w (ret :: lib) cbk sig) :
    Holding t (w.libExit t).1 lib cbk sig := by
  have kept := (libExit_keeps (t := t) holding.libStored).1
  simp only [alone_self, update_alone, List.tail_cons] at kept
  exact ⟨kept, holding.cbkStored, holding.sigStored, Nat.le_of_succ_le holding.libDepth,
    holding.cbkDepth, holding.sigDepth⟩

theorem Holding.cbkExit (cpu : Msrs) {call : UInt64 × Msrs}
    (holding : Holding t w lib (call :: cbk) sig) :
    Holding t (w.cbkExit t cpu).1 lib cbk sig ∧ (w.cbkExit t cpu).2.1 = call.2 := by
  obtain ⟨kept, restored⟩ := cbkExit_keeps t cpu holding.cbkStored
  simp only [alone_self, update_alone, List.tail_cons] at kept
  exact ⟨⟨holding.libStored, kept, holding.sigStored, holding.libDepth,
    Nat.le_of_succ_le holding.cbkDepth, holding.sigDepth⟩, by simp [restored]⟩

theorem Holding.sigExit (cpu : Msrs) {regs : Msrs} (holding : Holding t w lib cbk (regs :: sig)) :
    Holding t (w.sigExit t cpu).1 lib cbk sig ∧ (w.sigExit t cpu).2.1 = regs := by
  obtain ⟨kept, restored⟩ := sigExit_keeps t cpu holding.sigStored
  simp only [alone_self, update_alone, List.tail_cons] at kept
  exact ⟨⟨holding.libStored, holding.cbkStored, kept, holding.libDepth, holding.cbkDepth,
    Nat.le_of_succ_le holding.sigDepth⟩, by simp [restored]⟩

end

/-! ## Steps and runs -/

def Backs (t : Task) (s : Machine × List Frame) : Prop :=
  ∃ lib cbk sig, Holding t s.1.wrappers lib cbk sig ∧ Backed s.2 lib cbk sig

section
variable {target : Target} {t : Task} {s s' : Machine × List Frame} {h : Hook}

theorem supervised_step (step : (supervised target t).step s h = some s') :
    h.task = t ∧ ∃ frames, nest target s.2 h = some frames ∧ s' = (s.1.step target h, frames) := by
  simp only [supervised] at step
  split_ifs at step with guard
  obtain ⟨frames, nested, rfl⟩ := Option.map_eq_some_iff.mp step
  exact ⟨guard.1, frames, nested, rfl⟩

theorem put_killed {m : Machine} {w : Wrappers} {regs : Msrs} {kill : Bool} (killed : kill = true) :
    (m.put t w regs kill).killed t = true := by
  simp [Machine.put, killed]

theorem step_libEnter {arg1 : UInt64} {frames : List Frame} (backs : Backs t s)
    (nested : nest target s.2 (.libEnter t arg1) = some frames) :
    let s' := (s.1.step target (.libEnter t arg1), frames)
    Records t s' ∧ (s'.1.killed t = true ∨ Backs t s') := by
  obtain ⟨lib, cbk, sig, holding, backed⟩ := backs
  by_cases none : arg1 = 0
  · obtain rfl : Frame.pthreadCreate :: s.2 = frames := by simpa [nest, none] using nested
    refine ⟨by simp [Records, Machine.step, Machine.put, recording, inTarget], .inr ?_⟩
    exact ⟨lib, cbk, sig, by simpa [Machine.step, Machine.put, none] using holding,
      .pthreadCreate backed⟩
  · simp only [nest, none, if_false] at nested
    split_ifs at nested with called
    obtain rfl := Option.some.inj nested
    refine ⟨by simp [Records, Machine.step, Machine.put, recording, inTarget], ?_⟩
    simp only [Machine.step, none, if_false]
    exact (holding.libInit arg1).imp put_killed fun kept =>
      ⟨arg1 :: lib, cbk, sig, kept, .libCall arg1 called backed⟩

theorem step_libExit {arg1 : UInt64} {frames : List Frame} (backs : Backs t s)
    (nested : nest target s.2 (.libExit t arg1) = some frames) :
    let s' := (s.1.step target (.libExit t arg1), frames)
    (Records t s' ↔ (arg1 = 0 → inTarget s.2.tail)) ∧ Backs t s' := by
  obtain ⟨m, stack⟩ := s
  obtain ⟨lib, cbk, sig, holding, backed⟩ := backs
  have on : ia32Debugctl ≠ 0 := by decide
  cases backed with
  | nil => simp [nest] at nested
  | libCall ret called rest =>
      simp only [nest] at nested
      split_ifs at nested with none
      obtain rfl := Option.some.inj nested
      refine ⟨by simp [Records, Machine.step, Machine.put, recording, called, none], ?_⟩
      refine ⟨_, _, _, ?_, rest⟩
      simpa [Machine.step, Machine.put, none] using holding.libExit
  | pthreadCreate rest =>
      simp only [nest] at nested
      split_ifs at nested with none
      obtain rfl := Option.some.inj nested
      refine ⟨by simp [Records, Machine.step, Machine.put, recording, none, on], ?_⟩
      exact ⟨_, _, _, by simpa [Machine.step, Machine.put, none] using holding, rest⟩
  | callback call saved rest => simp [nest] at nested
  | signal inside regs saved rest => simp [nest] at nested

theorem step_callbackEnter {arg1 : UInt64} {frames : List Frame} (backs : Backs t s)
    (records : Records t s) (nested : nest target s.2 (.callbackEnter t arg1) = some frames) :
    let s' := (s.1.step target (.callbackEnter t arg1), frames)
    Records t s' ∧ (s'.1.killed t = true ∨ Backs t s') := by
  obtain ⟨lib, cbk, sig, holding, backed⟩ := backs
  simp only [nest] at nested
  split_ifs at nested
  obtain rfl := Option.some.inj nested
  refine ⟨by simp [Records, Machine.step, Machine.put, Wrappers.cbkInit, flushLbr, recording,
    inTarget], ?_⟩
  exact (holding.cbkInit arg1).imp put_killed fun kept =>
    ⟨lib, (arg1, (s.1.regs t).saved) :: cbk, sig, kept, .callback _ records backed⟩

theorem step_callbackExit {frames : List Frame} (backs : Backs t s)
    (nested : nest target s.2 (.callbackExit t) = some frames) :
    let s' := (s.1.step target (.callbackExit t), frames)
    Records t s' ∧ Backs t s' := by
  obtain ⟨m, stack⟩ := s
  obtain ⟨lib, cbk, sig, holding, backed⟩ := backs
  cases backed with
  | callback call saved rest =>
      obtain rfl := Option.some.inj nested
      obtain ⟨kept, restored⟩ := holding.cbkExit (m.regs t)
      refine ⟨?_, _, _, _, kept, rest⟩
      simpa [Records, Machine.step, Machine.put, restored] using saved
  | _ => simp [nest] at nested

/-- The comparison of `sig_init` leaves out the first byte of the code segment. -/
theorem contains_iff {handler : UInt64} :
    (target.startCode < handler && handler < target.endCode) = target.contains handler ↔
      handler ≠ target.startCode ∨ target.endCode ≤ target.startCode := by
  rw [Bool.eq_iff_iff]
  simp only [Target.contains, Bool.and_eq_true, decide_eq_true_eq, UInt64.lt_iff_toNat_lt,
    UInt64.le_iff_toNat_le, ne_eq, ← UInt64.toNat_inj]
  omega

theorem debugctl_eq_iff (enabled expected : Bool) :
    ((if enabled then ia32Debugctl else 0) = if expected then ia32Debugctl else 0) ↔
      enabled = expected := by
  cases enabled <;> cases expected <;> decide

theorem step_signalDelivered {handler : UInt64} {frames : List Frame} (backs : Backs t s)
    (records : Records t s) (nested : nest target s.2 (.signalDelivered t handler) = some frames) :
    let s' := (s.1.step target (.signalDelivered t handler), frames)
    (Records t s' ↔
      handler = 0 ∨ handler ≠ target.startCode ∨ target.endCode ≤ target.startCode) ∧
      (s'.1.killed t = true ∨ Backs t s') := by
  by_cases none : handler = 0
  · obtain rfl : s.2 = frames := by simpa [nest, none] using nested
    have same : s.1.step target (.signalDelivered t handler) = s.1 := by simp [Machine.step, none]
    rw [same]
    exact ⟨iff_of_true records (.inl none), .inr backs⟩
  · obtain ⟨lib, cbk, sig, holding, backed⟩ := backs
    obtain rfl : Frame.signal (target.contains handler) :: s.2 = frames := by
      simpa [nest, none] using nested
    constructor
    · rw [or_iff_right none, ← contains_iff]
      simp only [Records, Machine.step, none, if_false, Machine.put, Wrappers.sigInit, flushLbr,
        Function.update_self, recording, inTarget]
      exact debugctl_eq_iff _ _
    · simp only [Machine.step, none, if_false]
      exact (holding.sigInit handler).imp put_killed fun kept =>
        ⟨lib, cbk, (s.1.regs t).saved :: sig, kept, .signal _ _ records backed⟩

theorem step_rtSigreturn {frames : List Frame} (backs : Backs t s)
    (nested : nest target s.2 (.rtSigreturn t) = some frames) :
    let s' := (s.1.step target (.rtSigreturn t), frames)
    Records t s' ∧ Backs t s' := by
  obtain ⟨m, stack⟩ := s
  obtain ⟨lib, cbk, sig, holding, backed⟩ := backs
  cases backed with
  | signal inside regs saved rest =>
      obtain rfl := Option.some.inj nested
      obtain ⟨kept, restored⟩ := holding.sigExit (m.regs t)
      refine ⟨?_, _, _, _, kept, rest⟩
      simpa [Records, Machine.step, Machine.put, restored] using saved
  | _ => simp [nest] at nested

theorem step_records (backs : Backs t s) (records : Records t s)
    (step : (supervised target t).step s h = some s') :
    (Records t s' ↔ Proper target s h) ∧ (s'.1.killed t = true ∨ Backs t s') := by
  obtain ⟨own, frames, nested, rfl⟩ := supervised_step step
  cases h with
  | branches u tos fromAddr toAddr =>
      obtain rfl : u = t := own
      obtain rfl := Option.some.inj nested
      refine ⟨iff_of_true ?_ trivial, .inr backs⟩
      simpa [Records, Machine.step, Machine.put] using records
  | libEnter u arg1 =>
      obtain rfl : u = t := own
      obtain ⟨recorded, kept⟩ := step_libEnter backs nested
      exact ⟨iff_of_true recorded trivial, kept⟩
  | libExit u arg1 =>
      obtain rfl : u = t := own
      obtain ⟨recorded, kept⟩ := step_libExit backs nested
      exact ⟨recorded, .inr kept⟩
  | callbackEnter u arg1 =>
      obtain rfl : u = t := own
      obtain ⟨recorded, kept⟩ := step_callbackEnter backs records nested
      exact ⟨iff_of_true recorded trivial, kept⟩
  | callbackExit u =>
      obtain rfl : u = t := own
      obtain ⟨recorded, kept⟩ := step_callbackExit backs nested
      exact ⟨iff_of_true recorded trivial, .inr kept⟩
  | signalDelivered u handler =>
      obtain rfl : u = t := own
      exact step_signalDelivered backs records nested
  | rtSigreturn u =>
      obtain rfl : u = t := own
      obtain ⟨recorded, kept⟩ := step_rtSigreturn backs nested
      exact ⟨iff_of_true recorded trivial, .inr kept⟩
  | wakeUpNewTask u p | doExit u | deferredExit u => cases nested

end

theorem alone_nil {α : Type} (t : Task) : alone t ([] : List α) = fun _ => [] := by
  simp [alone]

theorem init_backs (cpu : Task → Msrs) (t : Task) : Backs t (.init cpu, []) := by
  refine ⟨[], [], [], ⟨?_, ?_, ?_, ?_, ?_, ?_⟩, .nil⟩
  · rw [alone_nil]
    exact zero_stores
  · rw [alone_nil]
    exact zero_stores
  · rw [alone_nil]
    exact zero_stores
  all_goals exact Nat.zero_le _

/-- In every run all of whose steps are proper the LBR is on exactly in target code, and a step of
such a run that is not proper leaves it wrong. -/
theorem records_iff_proper {target : Target} {t : Task} {cpu : Task → Msrs} {events : List Hook}
    {s : Machine × List Frame}
    (run : (supervised target t).Run (Proper target) (.init cpu, []) events s) :
    Records t s ∧ ∀ h s', (supervised target t).step s h = some s' →
      (Records t s' ↔ Proper target s h) := by
  have invariant : Records t s ∧ (s.1.killed t = true ∨ Backs t s) := by
    refine run.invariant (P := fun s => Records t s ∧ (s.1.killed t = true ∨ Backs t s))
      (fun s h s' known proper step => ?_) ⟨rfl, .inr (init_backs cpu t)⟩
    obtain ⟨records, alive⟩ := known
    cases alive with
    | inl killed => simp [supervised, killed] at step
    | inr backs =>
        obtain ⟨recorded, kept⟩ := step_records backs records step
        exact ⟨recorded.mpr proper, kept⟩
  refine ⟨invariant.1, fun h s' step => ?_⟩
  cases invariant.2 with
  | inl killed => simp [supervised, killed] at step
  | inr backs => exact (step_records backs invariant.1 step).1

def threadFromLibrary : List Hook := [.libEnter 1 0x400123, .libEnter 1 0, .libExit 1 0]

theorem first_libInit (t : Task) (ret : UInt64) : (Wrappers.zero.libInit t ret).2 = false := by
  have nothing : Stores Wrappers.zero.lib (libEntry ∘ alone t []) := by
    rw [alone_nil]
    exact zero_stores
  have kept := libInit_keeps t ret nothing (by simp)
  rw [update_alone] at kept
  exact (kept (alone_room libCacheSize_pos)).2

/-- A thread that a library creates: the wrapper returns to the library with the LBR on. -/
theorem threadFromLibrary_records :
    ∃ s, (supervised forkTarget 1).exec (.init fun _ => putLbr Lbr.zero, []) threadFromLibrary =
        some s ∧ s.2 = [.libCall] ∧ inTarget s.2 = false ∧ (s.1.regs 1).debugctl = ia32Debugctl ∧
      ¬ Records 1 s := by
  refine ⟨((Machine.init fun _ => putLbr Lbr.zero).after forkTarget threadFromLibrary, [.libCall]),
    ?_, rfl, rfl, ?_, ?_⟩
  · simp [System.exec, supervised, threadFromLibrary, nest, inTarget, Machine.after, Machine.step,
      Machine.put, Machine.init, Hook.task, first_libInit]
  · simp [Machine.after, threadFromLibrary, Machine.step, Machine.put]
  · simp [Records, recording, inTarget, Machine.after, threadFromLibrary, Machine.step, Machine.put,
      ia32Debugctl]

def threadFromTarget : List Hook := [.libEnter 1 0, .libExit 1 0, .libEnter 1 0x400123]

theorem records_iff_proper_thread :
    ∃ s, (supervised forkTarget 1).Run (Proper forkTarget) (.init fun _ => putLbr Lbr.zero, [])
        threadFromTarget s ∧ Records 1 s ∧ inTarget s.2 = false := by
  have run : ∃ s, (supervised forkTarget 1).Run (Proper forkTarget)
      (.init fun _ => putLbr Lbr.zero, []) threadFromTarget s ∧ inTarget s.2 = false :=
    ⟨_, .cons trivial rfl (.cons (fun _ => rfl) rfl (.cons trivial rfl (.nil _))), rfl⟩
  obtain ⟨s, run, library⟩ := run
  exact ⟨s, run, (records_iff_proper run).1, library⟩

end PathArmor.Kernel
