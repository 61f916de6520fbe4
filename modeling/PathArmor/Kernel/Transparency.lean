import PathArmor.Kernel.Hooks

/-!
# Callbacks and signals are transparent

The registers that a callback or a signal handler finds are gone when it returns: those from before
it was entered are back. `Nesting` says which event a return belongs to.
-/

namespace PathArmor.Kernel
open PathArmor.Library

/-- The positions of the events that opened the pending calls of each task, innermost first. -/
structure Nesting where
  clock : Nat
  status : Task → Status
  lib : Task → List Nat
  cbk : Task → List Nat
  sig : Task → List Nat

namespace Nesting

def start (status : Task → Status) : Nesting where
  clock := 0
  status := status
  lib _ := []
  cbk _ := []
  sig _ := []

def move (n : Nesting) : Hook → Nesting
  | .branches _ _ _ _ => n
  | .libEnter t arg1 =>
      if arg1 = 0 then n else { n with lib := Function.update n.lib t (n.clock :: n.lib t) }
  | .libExit t arg1 =>
      if arg1 = 0 then n else { n with lib := Function.update n.lib t (n.lib t).tail }
  | .callbackEnter t _ => { n with cbk := Function.update n.cbk t (n.clock :: n.cbk t) }
  | .callbackExit t => { n with cbk := Function.update n.cbk t (n.cbk t).tail }
  | .signalDelivered t handler =>
      if handler = 0 then n else { n with sig := Function.update n.sig t (n.clock :: n.sig t) }
  | .rtSigreturn t => { n with sig := Function.update n.sig t (n.sig t).tail }
  | .wakeUpNewTask t p =>
      { n with
        status := Function.update n.status p .running
        lib := Function.update n.lib p (n.lib t)
        cbk := Function.update n.cbk p (n.cbk t)
        sig := Function.update n.sig p (n.sig t) }
  | .doExit t => { n with status := Function.update n.status t .exiting }
  | .deferredExit t =>
      { n with
        status := Function.update n.status t .gone
        lib := Function.update n.lib t []
        cbk := Function.update n.cbk t []
        sig := Function.update n.sig t [] }

def step (n : Nesting) (h : Hook) : Nesting := { n.move h with clock := n.clock + 1 }

/-- The shadow stacks, given the argument and the saved registers of each event. -/
def shadow (n : Nesting) (call : Nat → UInt64 × Msrs) : Shadow where
  status := n.status
  lib t := (n.lib t).map fun k => (call k).1
  cbk t := (n.cbk t).map call
  sig t := (n.sig t).map fun k => (call k).2

def Alive (n : Nesting) : Hook → Prop
  | .wakeUpNewTask t p => n.status t = .running ∧ n.status p = .absent
  | .deferredExit t => n.status t = .exiting
  | h => n.status h.task = .running

/-- The bounds of `Shadow.Fits` only count, whatever was saved. -/
def Admits (n : Nesting) (h : Hook) : Prop := n.Alive h ∧ ∀ call, ((n.step h).shadow call).Fits

end Nesting

def nesting : System Nesting Hook where
  step n h := some (n.step h)

def Hook.arg : Hook → UInt64
  | .libEnter _ arg | .callbackEnter _ arg | .signalDelivered _ arg => arg
  | _ => 0

/-- What the event `k` was called with, and the registers of its task right before it. -/
def Machine.opened (target : Target) (m : Machine) (events : List Hook) (k : Nat) : UInt64 × Msrs :=
  match events[k]? with
  | some h => (h.arg, ((m.after target (events.take k)).regs h.task).saved)
  | none => (0, m.regs 0)

section
variable {target : Target} {m : Machine} {events : List Hook} {h : Hook} {n : Nesting} {k : Nat}
  {call call' : Nat → UInt64 × Msrs}

theorem opened_append (past : k < events.length) :
    m.opened target (events ++ [h]) k = m.opened target events k := by
  simp only [Machine.opened, List.getElem?_append_left past,
    List.take_append_of_le_length past.le]

theorem opened_last : m.opened target (events ++ [h]) events.length =
    (h.arg, ((m.after target events).regs h.task).saved) := by
  simp [Machine.opened]

theorem shadow_congr (lib : ∀ t, ∀ k ∈ n.lib t, call k = call' k)
    (cbk : ∀ t, ∀ k ∈ n.cbk t, call k = call' k) (sig : ∀ t, ∀ k ∈ n.sig t, call k = call' k) :
    n.shadow call = n.shadow call' := by
  simp only [Nesting.shadow, Shadow.mk.injEq, true_and]
  refine ⟨?_, ?_, ?_⟩ <;> funext t <;> apply List.map_congr_left <;> intro k member
  · rw [lib t k member]
  · exact cbk t k member
  · rw [sig t k member]

theorem map_update {α β : Type} (f : α → β) (pending : Task → List α) (t : Task) (after : List α) :
    (fun t' => (Function.update pending t after t').map f) =
      Function.update (fun t' => (pending t').map f) t (after.map f) := by
  funext t'
  exact Function.apply_update (fun _ => List.map f) pending t after t'

theorem shadow_step {cpu : Msrs} (here : call n.clock = (h.arg, cpu.saved)) :
    (n.step h).shadow call = (h.op cpu).elim (n.shadow call) (n.shadow call).step := by
  cases h with
  | libEnter t arg | libExit t arg | signalDelivered t arg =>
      by_cases none : arg = 0 <;>
        simp [Nesting.step, Nesting.move, Nesting.shadow, Hook.op, Shadow.step, none, map_update,
          here, Hook.arg, List.map_tail]
  | _ =>
      simp [Nesting.step, Nesting.move, Nesting.shadow, Hook.op, Shadow.step, map_update, here,
        Hook.arg, List.map_tail]

theorem Nesting.Alive.shadow {cpu : Msrs} {op : Op} (alive : n.Alive h)
    (some : h.op cpu = some op) : (n.shadow call).Alive op := by
  cases h with
  | branches t tos fromAddr toAddr => cases some
  | libEnter t arg1 | libExit t arg1 | signalDelivered t arg1 =>
      by_cases none : arg1 = 0
      · simp [Hook.op, none] at some
      · simp only [Hook.op, none, if_false, Option.some.injEq] at some
        subst some
        exact alive
  | _ =>
      cases some
      exact alive

/-! ## Runs -/

/-- Every pending call was opened by an event of its kind. -/
structure Nesting.OpenedBy (n : Nesting) (events : List Hook) : Prop where
  lib : ∀ t, ∀ k ∈ n.lib t, ∃ t' arg, events[k]? = some (.libEnter t' arg)
  cbk : ∀ t, ∀ k ∈ n.cbk t, ∃ t' arg, events[k]? = some (.callbackEnter t' arg)
  sig : ∀ t, ∀ k ∈ n.sig t, ∃ t' arg, events[k]? = some (.signalDelivered t' arg)

section
variable {pending : Task → List Nat} {opens : Task → UInt64 → Hook} {t : Task} {h : Hook}
  (opened : ∀ t, ∀ k ∈ pending t, ∃ t' arg, events[k]? = some (opens t' arg))
include opened

theorem opened_concat :
    ∀ t, ∀ k ∈ pending t, ∃ t' arg, (events ++ [h])[k]? = some (opens t' arg) := by
  intro t k member
  obtain ⟨t', arg, found⟩ := opened t k member
  have past : k < events.length := (List.getElem?_eq_some_iff.mp found).1
  exact ⟨t', arg, by rwa [List.getElem?_append_left past]⟩

theorem opened_update {after : List Nat}
    (inside : ∀ k ∈ after, ∃ t' arg, (events ++ [h])[k]? = some (opens t' arg)) :
    ∀ t', ∀ k ∈ Function.update pending t after t',
      ∃ t' arg, (events ++ [h])[k]? = some (opens t' arg) := by
  intro t' k member
  rcases eq_or_ne t' t with rfl | other
  · rw [Function.update_self] at member
    exact inside k member
  · rw [Function.update_of_ne other] at member
    exact opened_concat opened t' k member

theorem opened_push {value : UInt64} :
    ∀ t', ∀ k ∈ Function.update pending t (events.length :: pending t) t',
      ∃ t' arg, (events ++ [opens t value])[k]? = some (opens t' arg) := by
  apply opened_update opened
  intro k member
  cases member with
  | head => exact ⟨t, value, by simp⟩
  | tail _ before => exact opened_concat opened t k before

theorem opened_tail :
    ∀ t', ∀ k ∈ Function.update pending t (pending t).tail t',
      ∃ t' arg, (events ++ [h])[k]? = some (opens t' arg) :=
  opened_update opened fun k member => opened_concat opened t k (List.mem_of_mem_tail member)

theorem opened_nil :
    ∀ t', ∀ k ∈ Function.update pending t [] t',
      ∃ t' arg, (events ++ [h])[k]? = some (opens t' arg) :=
  opened_update opened fun _ member => absurd member List.not_mem_nil

end

theorem Nesting.OpenedBy.unmoved (opened : n.OpenedBy events) (unmoved : n.move h = n) :
    (n.step h).OpenedBy events := by
  rw [Nesting.step, unmoved]
  exact ⟨opened.lib, opened.cbk, opened.sig⟩

theorem Nesting.OpenedBy.step (opened : n.OpenedBy events) (clock : n.clock = events.length) :
    (n.step h).OpenedBy (events ++ [h]) := by
  have same : n.OpenedBy (events ++ [h]) :=
    ⟨opened_concat opened.lib, opened_concat opened.cbk, opened_concat opened.sig⟩
  cases h with
  | branches t tos fromAddr toAddr => exact same.unmoved rfl
  | libEnter t arg1 =>
      by_cases none : arg1 = 0
      · exact same.unmoved (by simp [Nesting.move, none])
      · simp only [Nesting.step, Nesting.move, none, if_false, clock]
        exact ⟨opened_push opened.lib, same.cbk, same.sig⟩
  | libExit t arg1 =>
      by_cases none : arg1 = 0
      · exact same.unmoved (by simp [Nesting.move, none])
      · simp only [Nesting.step, Nesting.move, none, if_false]
        exact ⟨opened_tail opened.lib, same.cbk, same.sig⟩
  | callbackEnter t arg1 =>
      simp only [Nesting.step, Nesting.move, clock]
      exact ⟨same.lib, opened_push opened.cbk, same.sig⟩
  | callbackExit t => exact ⟨same.lib, opened_tail opened.cbk, same.sig⟩
  | signalDelivered t handler =>
      by_cases none : handler = 0
      · exact same.unmoved (by simp [Nesting.move, none])
      · simp only [Nesting.step, Nesting.move, none, if_false, clock]
        exact ⟨same.lib, same.cbk, opened_push opened.sig⟩
  | rtSigreturn t => exact ⟨same.lib, same.cbk, opened_tail opened.sig⟩
  | wakeUpNewTask t p =>
      exact ⟨opened_update opened.lib (same.lib t), opened_update opened.cbk (same.cbk t),
        opened_update opened.sig (same.sig t)⟩
  | doExit t => exact ⟨same.lib, same.cbk, same.sig⟩
  | deferredExit t => exact ⟨opened_nil opened.lib, opened_nil opened.cbk, opened_nil opened.sig⟩

theorem shadow_concat (opened : n.OpenedBy events) :
    n.shadow (m.opened target (events ++ [h])) = n.shadow (m.opened target events) := by
  have past {opens : Task → UInt64 → Hook} {k : Nat}
      (found : ∃ t arg, events[k]? = some (opens t arg)) :
      m.opened target (events ++ [h]) k = m.opened target events k := by
    obtain ⟨t, arg, found⟩ := found
    exact opened_append (List.getElem?_eq_some_iff.mp found).1
  apply shadow_congr
  · exact fun t k member => past (opened.lib t k member)
  · exact fun t k member => past (opened.cbk t k member)
  · exact fun t k member => past (opened.sig t k member)

/-- The caches hold what the events that opened the pending calls saved. -/
structure Tracks (target : Target) (m : Machine) (events : List Hook) (n : Nesting) : Prop where
  clock : n.clock = events.length
  opened : n.OpenedBy events
  keeps : Keeps (n.shadow (m.opened target events)) (m.after target events).wrappers

theorem Tracks.step (tracks : Tracks target m events n) (admits : n.Admits h) :
    Tracks target m (events ++ [h]) (n.step h) where
  clock := by simp [Nesting.step, tracks.clock]
  opened := tracks.opened.step tracks.clock
  keeps := by
    have here : m.opened target (events ++ [h]) n.clock =
        (h.arg, ((m.after target events).regs h.task).saved) := by
      rw [tracks.clock, opened_last]
    have before := tracks.keeps
    rw [← shadow_concat (h := h) tracks.opened] at before
    have fits := admits.2 (m.opened target (events ++ [h]))
    rw [shadow_step here] at fits ⊢
    rw [Machine.after_concat]
    cases op : h.op ((m.after target events).regs h.task) with
    | none =>
        rw [Machine.step_wrappers_none op]
        exact before
    | some op' =>
        rw [op] at fits
        obtain ⟨w, stepped, after⟩ := step_keeps target before ⟨admits.1.shadow op, fits⟩
        rw [Machine.step_wrappers_some op, Option.some.injEq] at stepped
        rw [stepped]
        exact after

theorem start_tracks {status : Task → Status} {cpu : Task → Msrs} :
    Tracks target (.init cpu) [] (.start status) where
  clock := rfl
  opened := by constructor <;> simp [Nesting.start]
  keeps := start_keeps status

theorem Tracks.sizes (tracks : Tracks target m events n) (i : Fin cbkCacheSize) :
    ((m.after target events).wrappers.cbk i).rets.size =
      ((m.after target events).wrappers.cbk i).lbrs.size := by
  have view : ∃ pending, wrapperLayout.view ((m.after target events).wrappers.cbk i) =
      cbkEntry pending := by
    cases owner : ((m.after target events).wrappers.cbk i).task with
    | none => exact ⟨[], tracks.keeps.cbk.free owner⟩
    | some t => exact ⟨_, (tracks.keeps.cbk.held owner).1⟩
  obtain ⟨pending, view⟩ := view
  have rets := congrArg (List.length ∘ Prod.fst) view
  have lbrs := congrArg (List.length ∘ Prod.snd) view
  simp only [wrapperLayout, cbkEntry, Function.comp_apply, Stack.length_toList, List.length_map]
    at rets lbrs
  rw [rets, lbrs]

end

/-- In every run within the bounds, a return from a callback or signal handler puts back the
registers its task, or the ancestor it inherited the call from, had right before the matching
event, with each `FROM` through `LBR_FROM`. -/
theorem callbacks_and_signals_transparent {target : Target} {status : Task → Status}
    {cpu : Task → Msrs} {events : List Hook} {n : Nesting}
    (run : nesting.Run Nesting.Admits (.start status) events n) :
    let m := Machine.init cpu
    (∀ i, ((m.after target events).wrappers.cbk i).rets.size =
      ((m.after target events).wrappers.cbk i).lbrs.size) ∧
    ∀ t k rest,
      (n.cbk t = k :: rest → ∃ t' arg, events[k]? = some (.callbackEnter t' arg) ∧
        ((m.after target events).step target (.callbackExit t)).regs t =
          ((m.after target (events.take k)).regs t').saved) ∧
      (n.sig t = k :: rest → ∃ t' handler, events[k]? = some (.signalDelivered t' handler) ∧
        ((m.after target events).step target (.rtSigreturn t)).regs t =
          ((m.after target (events.take k)).regs t').saved) := by
  intro m
  have tracks : Tracks target m events n :=
    run.history (P := Tracks target m) []
      (fun past n h n' tracks admits step => by
        obtain rfl : n.step h = n' := by simpa [nesting] using step
        exact tracks.step admits)
      start_tracks
  refine ⟨tracks.sizes, fun t k rest => ⟨fun pending => ?_, fun pending => ?_⟩⟩
  · obtain ⟨t', arg, found⟩ := tracks.opened.cbk t k (by simp [pending])
    refine ⟨t', arg, found, ?_⟩
    simp [Machine.step, Machine.put, (cbkExit_keeps _ _ tracks.keeps.cbk).2, Nesting.shadow,
      pending, Machine.opened, found, Hook.task]
  · obtain ⟨t', handler, found⟩ := tracks.opened.sig t k (by simp [pending])
    refine ⟨t', handler, found, ?_⟩
    simp [Machine.step, Machine.put, (sigExit_keeps _ _ tracks.keeps.sig).2, Nesting.shadow,
      pending, Machine.opened, found, Hook.task]

def forkInCallback : List Hook :=
  [.callbackEnter 1 0x7f0123, .branches 1 3 (fun _ => 0x40010a) (fun _ => 0x400200),
    .wakeUpNewTask 1 2, .libEnter 2 0x400130, .libExit 2 0x7ffe00, .callbackExit 1]

theorem callbacks_and_signals_transparent_fork :
    let m := Machine.init fun _ => putLbr Lbr.zero
    ((m.after forkTarget forkInCallback).step forkTarget (.callbackExit 2)).regs 2 =
      (m.regs 1).saved := by
  intro m
  have fits (s : Shadow) := s.fits_of_two 1 2
  have run : ∃ n, nesting.Run Nesting.Admits (.start fun t => if t = 1 then .running else .absent)
      forkInCallback n ∧ n.cbk 2 = [0] := by
    refine ⟨_, .cons ⟨rfl, fun call => fits _ (fun t other => ?_) ?_⟩ rfl
      (.cons ⟨rfl, fun call => fits _ (fun t other => ?_) ?_⟩ rfl
      (.cons ⟨⟨rfl, rfl⟩, fun call => fits _ (fun t other => ?_) ?_⟩ rfl
      (.cons ⟨rfl, fun call => fits _ (fun t other => ?_) ?_⟩ rfl
      (.cons ⟨rfl, fun call => fits _ (fun t other => ?_) ?_⟩ rfl
      (.cons ⟨rfl, fun call => fits _ (fun t other => ?_) ?_⟩ rfl (.nil _)))))), rfl⟩
    all_goals
      try simp only [Finset.mem_insert, Finset.mem_singleton, not_or] at other
      simp [Nesting.step, Nesting.move, Nesting.start, Nesting.shadow, *]
  obtain ⟨n, run, pending⟩ := run
  obtain ⟨t', arg, found, restored⟩ :=
    ((@callbacks_and_signals_transparent forkTarget _ _ _ _ run).2 2 0 []).1 pending
  obtain ⟨rfl, rfl⟩ : 1 = t' ∧ 0x7f0123 = arg := by simpa [forkInCallback] using found
  exact restored

end PathArmor.Kernel
