import PathArmor.Kernel.WrapperCache
import PathArmor.Library.Transition

/-!
# Shadow stacks

What the caches are for: each task has its own stack of pending library calls, callbacks and
signals, which a child inherits. The caches keep exactly these stacks as long as the stacks and
the tables have room.
-/

namespace PathArmor.Kernel
open PathArmor.Library

inductive Status
  | absent   -- not created yet
  | running
  | exiting  -- `do_exit` has queued the clean-up
  | gone
  deriving DecidableEq, Repr

/-- Pending calls, the innermost first, with the registers a callback or signal interrupts. -/
structure Shadow where
  status : Task → Status
  lib : Task → List UInt64
  cbk : Task → List (UInt64 × Msrs)
  sig : Task → List Msrs

inductive Op
  | libInit (t : Task) (ret : UInt64)
  | libExit (t : Task)
  | cbkInit (t : Task) (ret : UInt64) (cpu : Msrs)
  | cbkExit (t : Task) (cpu : Msrs)
  | sigInit (t : Task) (sighandler : UInt64) (cpu : Msrs)
  | sigExit (t : Task) (cpu : Msrs)
  | newWakeUpNewTask (t p : Task)
  | doExit (t : Task)
  | doDeferredExit (t : Task)

namespace Shadow

def start (status : Task → Status) : Shadow where
  status := status
  lib _ := []
  cbk _ := []
  sig _ := []

def step (s : Shadow) : Op → Shadow
  | .libInit t ret => { s with lib := Function.update s.lib t (ret :: s.lib t) }
  | .libExit t => { s with lib := Function.update s.lib t (s.lib t).tail }
  | .cbkInit t ret cpu => { s with cbk := Function.update s.cbk t ((ret, cpu.saved) :: s.cbk t) }
  | .cbkExit t _ => { s with cbk := Function.update s.cbk t (s.cbk t).tail }
  | .sigInit t _ cpu => { s with sig := Function.update s.sig t (cpu.saved :: s.sig t) }
  | .sigExit t _ => { s with sig := Function.update s.sig t (s.sig t).tail }
  | .newWakeUpNewTask t p =>
      { status := Function.update s.status p .running
        lib := Function.update s.lib p (s.lib t)
        cbk := Function.update s.cbk p (s.cbk t)
        sig := Function.update s.sig p (s.sig t) }
  | .doExit t => { s with status := Function.update s.status t .exiting }
  | .doDeferredExit t =>
      { status := Function.update s.status t .gone
        lib := Function.update s.lib t []
        cbk := Function.update s.cbk t []
        sig := Function.update s.sig t [] }

def Alive (s : Shadow) : Op → Prop
  | .libInit t _ | .libExit t | .cbkInit t _ _ | .cbkExit t _ | .sigInit t _ _ | .sigExit t _
  | .doExit t => s.status t = .running
  | .newWakeUpNewTask t p => s.status t = .running ∧ s.status p = .absent
  | .doDeferredExit t => s.status t = .exiting

/-- No task nests too deep, and the tasks with pending calls fit into the caches. -/
structure Fits (s : Shadow) : Prop where
  libDepth : ∀ t, (s.lib t).length ≤ stackSize
  cbkDepth : ∀ t, (s.cbk t).length ≤ stackSize
  sigDepth : ∀ t, (s.sig t).length ≤ stackSize
  libRoom : {t | s.lib t ≠ []}.encard ≤ libCacheSize
  cbkRoom : {t | s.cbk t ≠ []}.encard ≤ cbkCacheSize
  sigRoom : {t | s.sig t ≠ []}.encard ≤ sigCacheSize

def Admits (s : Shadow) (op : Op) : Prop := s.Alive op ∧ (s.step op).Fits

end Shadow

def shadow : System Shadow Op where
  step s op := some (s.step op)

/-- The kernel module. `do_exit` leaves the caches to `do_deferred_exit`. -/
def wrappers (target : Target) : System Wrappers Op where
  step w
    | .libInit t ret => some (w.libInit t ret).1
    | .libExit t => some (w.libExit t).1
    | .cbkInit t ret cpu => some (w.cbkInit t ret cpu).1
    | .cbkExit t cpu => some (w.cbkExit t cpu).1
    | .sigInit t sighandler cpu => some (w.sigInit t target sighandler cpu).1
    | .sigExit t cpu => some (w.sigExit t cpu).1
    | .newWakeUpNewTask t p => some (w.newWakeUpNewTask t p).1
    | .doExit _ => some w
    | .doDeferredExit t => some (w.doDeferredExit t)

/-! ## The entries of each cache -/

def libEntry (pending : List UInt64) : List UInt64 × List Msrs := (pending, [])
def cbkEntry (pending : List (UInt64 × Msrs)) : List UInt64 × List Msrs :=
  (pending.map Prod.fst, pending.map Prod.snd)
def sigEntry (pending : List Msrs) : List UInt64 × List Msrs := ([], pending)

@[simp] theorem libEntry_eq_empty {pending : List UInt64} :
    libEntry pending = ([], []) ↔ pending = [] := by
  simp [libEntry]

@[simp] theorem cbkEntry_eq_empty {pending : List (UInt64 × Msrs)} :
    cbkEntry pending = ([], []) ↔ pending = [] := by
  simp [cbkEntry]

@[simp] theorem sigEntry_eq_empty {pending : List Msrs} :
    sigEntry pending = ([], []) ↔ pending = [] := by
  simp [sigEntry]

structure Keeps (s : Shadow) (w : Wrappers) : Prop where
  lib : Stores w.lib (libEntry ∘ s.lib)
  cbk : Stores w.cbk (cbkEntry ∘ s.cbk)
  sig : Stores w.sig (sigEntry ∘ s.sig)
  absent : ∀ t, s.status t = .absent → s.lib t = [] ∧ s.cbk t = [] ∧ s.sig t = []

section
variable {α : Type} {n : Nat} {data : Cache n} {pending : Task → List α} {t p : Task}
  {entry : List α → List UInt64 × List Msrs} (empty : ∀ l, entry l = ([], []) ↔ l = [])
include empty

theorem room_of_encard {after : List α} (nonempty : after ≠ [])
    (room : {t' | Function.update pending t after t' ≠ []}.encard ≤ n) :
    (insert t {t' | (entry ∘ pending) t' ≠ ([], [])}).encard ≤ n := by
  convert room using 2
  ext t'
  rcases eq_or_ne t' t with rfl | other
  · simp [nonempty]
  · simp [other, empty]

theorem inherit_keeps [NeZero n] (holds : Stores data (entry ∘ pending))
    {copy : WrapperLib → WrapperLib → WrapperLib} (fresh : pending p = [])
    (room : {t' | Function.update pending p (pending t) t' ≠ []}.encard ≤ n)
    (owner : ∀ ours new, (copy ours new).task = new.task)
    (copied : ∀ ours new, wrapperLayout.view ours = entry (pending t) →
      wrapperLayout.view new = ([], []) → wrapperLayout.view (copy ours new) = entry (pending t)) :
    Stores (inherit data t p (List.finRange n) copy).1
      (entry ∘ Function.update pending p (pending t)) := by
  rw [Function.comp_update]
  refine (inherit_stores holds ?_ (fun nonempty => ?_) owner copied).1
  · exact (empty _).mpr fresh
  · exact room_of_encard empty ((empty _).not.mp nonempty) room

theorem forget_keeps (holds : Stores data (entry ∘ pending)) :
    Stores (forget data t) (entry ∘ Function.update pending t []) := by
  rw [Function.comp_update, (empty []).mpr rfl]
  exact forget_stores holds

omit empty in
theorem unchanged_keeps (holds : Stores data (entry ∘ pending)) {after : List α}
    (same : pending t = after) : Stores data (entry ∘ Function.update pending t after) := by
  rwa [← same, Function.update_eq_self]

end

section
variable {w : Wrappers} {t : Task} {ret : UInt64} {cpu : Msrs}

theorem size_rets_eq_one {slot : WrapperLib} {rets : List UInt64} {lbrs : List Msrs}
    (view : wrapperLayout.view slot = (ret :: rets, lbrs)) : slot.rets.size = 1 ↔ rets = [] := by
  have stored : slot.rets.toList = ret :: rets := congrArg Prod.fst view
  rw [← Stack.length_toList, stored]
  simp

theorem size_lbrs_eq_one {slot : WrapperLib} {rets : List UInt64} {lbrs : List Msrs} {regs : Msrs}
    (view : wrapperLayout.view slot = (rets, regs :: lbrs)) : slot.lbrs.size = 1 ↔ lbrs = [] := by
  have stored : slot.lbrs.toList.map putLbr = regs :: lbrs := congrArg Prod.snd view
  rw [← Stack.length_toList, ← List.length_map (f := putLbr), stored]
  simp

/-! ## Library calls -/

variable (t ret) in
theorem libInit_keeps {pending : Task → List UInt64} (holds : Stores w.lib (libEntry ∘ pending))
    (depth : (ret :: pending t).length ≤ stackSize)
    (room : {t' | Function.update pending t (ret :: pending t) t' ≠ []}.encard ≤ libCacheSize) :
    Stores (w.libInit t ret).1.lib (libEntry ∘ Function.update pending t (ret :: pending t)) ∧
      (w.libInit t ret).2 = false := by
  simp only [Wrappers.libInit, Function.comp_update]
  refine enter_stores holds (room_of_encard (fun _ => libEntry_eq_empty) (by simp) room)
    (fun _ => rfl) (fun slot view => ?_) (by simp)
  exact stackPush_view ret view depth

theorem libExit_keeps {pending : Task → List UInt64} (holds : Stores w.lib (libEntry ∘ pending)) :
    Stores (w.libExit t).1.lib (libEntry ∘ Function.update pending t (pending t).tail) ∧
      (w.libExit t).2 = (pending t).head?.elim (0, true) fun ret => (ret, false) := by
  cases calls : pending t with
  | nil =>
      have nothing : (libEntry ∘ pending) t = ([], []) := by simp [calls]
      simp only [Wrappers.libExit, leave_of_empty holds nothing]
      exact ⟨unchanged_keeps holds calls, rfl⟩
  | cons ret rest =>
      have stored : (libEntry ∘ pending) t = (ret :: rest, []) := by simp [calls, libEntry]
      have left : Stores (leave w.lib t (·.rets.size) stackPop).1
            (Function.update (libEntry ∘ pending) t (libEntry rest)) ∧
          (leave w.lib t (·.rets.size) stackPop).2 = some (ret, false) := by
        refine leave_stores holds stackPop_task (fun slot view => ?_) (by simp [calls])
        rw [stored] at view
        obtain ⟨popped, result⟩ := stackPop_view view
        exact ⟨popped, result, (size_rets_eq_one view).trans libEntry_eq_empty.symm⟩
      simp only [Wrappers.libExit, Function.comp_update, left.2]
      exact ⟨left.1, rfl⟩

/-! ## Callbacks -/

variable (t ret cpu) in
theorem cbkInit_keeps {pending : Task → List (UInt64 × Msrs)}
    (holds : Stores w.cbk (cbkEntry ∘ pending))
    (depth : ((ret, cpu.saved) :: pending t).length ≤ stackSize)
    (room : {t' | Function.update pending t ((ret, cpu.saved) :: pending t) t' ≠ []}.encard ≤
      cbkCacheSize) :
    Stores (w.cbkInit t ret cpu).1.cbk
        (cbkEntry ∘ Function.update pending t ((ret, cpu.saved) :: pending t)) ∧
      (w.cbkInit t ret cpu).2.2 = false := by
  simp only [Wrappers.cbkInit, Function.comp_update]
  have nonempty : cbkEntry ((ret, cpu.saved) :: pending t) ≠ ([], []) := by simp
  refine enter_stores holds (room_of_encard (fun _ => cbkEntry_eq_empty) (by simp) room)
    (fun slot => ?_) (fun slot view => ?_) nonempty
  · exact lbrStackPush_task _ cpu
  · obtain ⟨pushed, ok⟩ := stackPush_view ret view (by simpa using depth)
    obtain ⟨pushed', ok'⟩ := lbrStackPush_view cpu pushed (by simpa using depth)
    exact ⟨pushed', by simp [ok, ok']⟩

variable (t cpu) in
theorem cbkExit_keeps {pending : Task → List (UInt64 × Msrs)}
    (holds : Stores w.cbk (cbkEntry ∘ pending)) :
    Stores (w.cbkExit t cpu).1.cbk (cbkEntry ∘ Function.update pending t (pending t).tail) ∧
      (w.cbkExit t cpu).2 =
        (pending t).head?.elim (cpu, 0, true) fun call => (call.2, call.1, false) := by
  cases calls : pending t with
  | nil =>
      have nothing : (cbkEntry ∘ pending) t = ([], []) := by simp [calls]
      simp only [Wrappers.cbkExit, leave_of_empty holds nothing]
      exact ⟨unchanged_keeps holds calls, rfl⟩
  | cons call rest =>
      have stored : (cbkEntry ∘ pending) t =
          (call.1 :: rest.map Prod.fst, call.2 :: rest.map Prod.snd) := by
        simp [calls, cbkEntry]
      let load := fun slot =>
        let popped := lbrStackPop slot cpu
        let popped' := stackPop popped.1
        (popped'.1, popped.2.1, popped'.2.1, popped.2.2 || popped'.2.2)
      have left : Stores (leave w.cbk t (·.rets.size) load).1
            (Function.update (cbkEntry ∘ pending) t (cbkEntry rest)) ∧
          (leave w.cbk t (·.rets.size) load).2 = some (call.2, call.1, false) := by
        refine leave_stores holds (fun slot => ?_) (fun slot view => ?_) (by simp [calls])
        · exact (stackPop_task _).trans (lbrStackPop_task slot cpu)
        · rw [stored] at view
          obtain ⟨popped, result⟩ := lbrStackPop_view cpu view
          obtain ⟨popped', result'⟩ := stackPop_view popped
          refine ⟨popped', by simp [load, result, result'], (size_rets_eq_one view).trans ?_⟩
          simp
      simp only [load] at left
      simp only [Wrappers.cbkExit, Function.comp_update, left.2]
      exact ⟨left.1, rfl⟩

/-! ## Signals -/

variable (t cpu) in
theorem sigInit_keeps {pending : Task → List Msrs} (target : Target) (sighandler : UInt64)
    (holds : Stores w.sig (sigEntry ∘ pending))
    (depth : (cpu.saved :: pending t).length ≤ stackSize)
    (room : {t' | Function.update pending t (cpu.saved :: pending t) t' ≠ []}.encard ≤
      sigCacheSize) :
    Stores (w.sigInit t target sighandler cpu).1.sig
        (sigEntry ∘ Function.update pending t (cpu.saved :: pending t)) ∧
      (w.sigInit t target sighandler cpu).2.2 = false := by
  simp only [Wrappers.sigInit, Function.comp_update]
  refine enter_stores holds (room_of_encard (fun _ => sigEntry_eq_empty) (by simp) room)
    (lbrStackPush_task · cpu) (fun slot view => ?_) (by simp)
  exact lbrStackPush_view cpu view depth

variable (t cpu) in
theorem sigExit_keeps {pending : Task → List Msrs} (holds : Stores w.sig (sigEntry ∘ pending)) :
    Stores (w.sigExit t cpu).1.sig (sigEntry ∘ Function.update pending t (pending t).tail) ∧
      (w.sigExit t cpu).2 = (pending t).head?.elim (cpu, true) fun regs => (regs, false) := by
  cases calls : pending t with
  | nil =>
      have nothing : (sigEntry ∘ pending) t = ([], []) := by simp [calls]
      simp only [Wrappers.sigExit, leave_of_empty holds nothing]
      exact ⟨unchanged_keeps holds calls, rfl⟩
  | cons regs rest =>
      have stored : (sigEntry ∘ pending) t = ([], regs :: rest) := by simp [calls, sigEntry]
      have left : Stores (leave w.sig t (·.lbrs.size) (lbrStackPop · cpu)).1
            (Function.update (sigEntry ∘ pending) t (sigEntry rest)) ∧
          (leave w.sig t (·.lbrs.size) (lbrStackPop · cpu)).2 = some (regs, false) := by
        refine leave_stores holds (lbrStackPop_task · cpu) (fun slot view => ?_) (by simp [calls])
        rw [stored] at view
        obtain ⟨popped, result⟩ := lbrStackPop_view cpu view
        exact ⟨popped, result, (size_lbrs_eq_one view).trans sigEntry_eq_empty.symm⟩
      simp only [Wrappers.sigExit, Function.comp_update, left.2]
      exact ⟨left.1, rfl⟩

end

/-! ## Steps and runs -/

theorem zero_stores {n : Nat} : Stores (fun _ : Fin n => WrapperLib.zero) fun _ => ([], []) where
  exclusive owner := by cases owner
  held owner := by cases owner
  owned nonempty := absurd rfl nonempty
  free _ := rfl

theorem start_keeps (status : Task → Status) : Keeps (.start status) .zero where
  lib := zero_stores
  cbk := zero_stores
  sig := zero_stores
  absent _ _ := ⟨rfl, rfl, rfl⟩

theorem step_keeps (target : Target) {s : Shadow} {w : Wrappers} {op : Op} (keeps : Keeps s w)
    (admits : s.Admits op) : ∃ w', (wrappers target).step w op = some w' ∧ Keeps (s.step op) w' := by
  obtain ⟨alive, fits⟩ := admits
  have others {t t' : Task} (running : s.status t = .running) (absent : s.status t' = .absent) :
      t' ≠ t := by
    rintro rfl
    simp [running] at absent
  cases op with
  | libInit t ret =>
      refine ⟨_, rfl, ?_, keeps.cbk, keeps.sig, fun t' absent => ?_⟩
      · refine (libInit_keeps t ret keeps.lib ?_ fits.libRoom).1
        simpa [Shadow.step] using fits.libDepth t
      · simpa [Shadow.step, others alive absent] using keeps.absent t' absent
  | libExit t =>
      refine ⟨_, rfl, (libExit_keeps keeps.lib).1, keeps.cbk, keeps.sig, fun t' absent => ?_⟩
      simpa [Shadow.step, others alive absent] using keeps.absent t' absent
  | cbkInit t ret cpu =>
      refine ⟨_, rfl, keeps.lib, ?_, keeps.sig, fun t' absent => ?_⟩
      · refine (cbkInit_keeps t ret cpu keeps.cbk ?_ fits.cbkRoom).1
        simpa [Shadow.step] using fits.cbkDepth t
      · simpa [Shadow.step, others alive absent] using keeps.absent t' absent
  | cbkExit t cpu =>
      refine ⟨_, rfl, keeps.lib, (cbkExit_keeps t cpu keeps.cbk).1, keeps.sig, fun t' absent => ?_⟩
      simpa [Shadow.step, others alive absent] using keeps.absent t' absent
  | sigInit t sighandler cpu =>
      refine ⟨_, rfl, keeps.lib, keeps.cbk, ?_, fun t' absent => ?_⟩
      · refine (sigInit_keeps t cpu target _ keeps.sig ?_ fits.sigRoom).1
        simpa [Shadow.step] using fits.sigDepth t
      · simpa [Shadow.step, others alive absent] using keeps.absent t' absent
  | sigExit t cpu =>
      refine ⟨_, rfl, keeps.lib, keeps.cbk, (sigExit_keeps t cpu keeps.sig).1, fun t' absent => ?_⟩
      simpa [Shadow.step, others alive absent] using keeps.absent t' absent
  | newWakeUpNewTask t p =>
      obtain ⟨lib, cbk, sig⟩ := keeps.absent p alive.2
      refine ⟨_, rfl, ?_, ?_, ?_, fun t' absent => ?_⟩
      · refine inherit_keeps (fun _ => libEntry_eq_empty) keeps.lib lib fits.libRoom
          (fun _ _ => rfl) fun ours new view nothing => ?_
        simp_all [wrapperLayout, libEntry]
      · exact inherit_keeps (fun _ => cbkEntry_eq_empty) keeps.cbk cbk fits.cbkRoom
          (fun _ _ => rfl) fun ours new view _ => view
      · refine inherit_keeps (fun _ => sigEntry_eq_empty) keeps.sig sig fits.sigRoom
          (fun _ _ => rfl) fun ours new view nothing => ?_
        simp_all [wrapperLayout, sigEntry]
      · have old : t' ≠ p := by
          rintro rfl
          simp [Shadow.step] at absent
        simp only [Shadow.step, Function.update_of_ne old] at absent ⊢
        exact keeps.absent t' absent
  | doExit t =>
      refine ⟨_, rfl, keeps.lib, keeps.cbk, keeps.sig, fun t' absent => keeps.absent t' ?_⟩
      have old : t' ≠ t := by
        rintro rfl
        simp [Shadow.step] at absent
      simpa [Shadow.step, old] using absent
  | doDeferredExit t =>
      refine ⟨_, rfl, forget_keeps (fun _ => libEntry_eq_empty) keeps.lib,
        forget_keeps (fun _ => cbkEntry_eq_empty) keeps.cbk,
        forget_keeps (fun _ => sigEntry_eq_empty) keeps.sig, fun t' absent => ?_⟩
      have old : t' ≠ t := by
        rintro rfl
        simp [Shadow.step] at absent
      simp only [Shadow.step, Function.update_of_ne old] at absent ⊢
      exact keeps.absent t' absent

/-- After every run within the bounds, an exit returns the innermost pending return address, fails
exactly if there is none, and the slots in use are those of the tasks with pending calls. -/
theorem wrappers_keep_shadow {target : Target} {status : Task → Status} {ops : List Op} {s : Shadow}
    (run : shadow.Run Shadow.Admits (.start status) ops s) :
    ∃ w, (wrappers target).exec .zero ops = some w ∧ ∀ t,
      (w.libExit t).2 = (s.lib t).head?.elim (0, true) (fun ret => (ret, false)) ∧
      (∀ cpu, (w.cbkExit t cpu).2 =
        (s.cbk t).head?.elim (cpu, 0, true) fun call => (call.2, call.1, false)) ∧
      wrapperLayout.OwnsIff w.lib t (s.lib t ≠ []) ∧
      wrapperLayout.OwnsIff w.cbk t (s.cbk t ≠ []) ∧
      wrapperLayout.OwnsIff w.sig t (s.sig t ≠ []) := by
  obtain ⟨w, executed, keeps⟩ := run.simulation (T := wrappers target) (R := Keeps)
    (fun s w op s' keeps admits step => by
      obtain rfl : s.step op = s' := by simpa [shadow] using step
      exact step_keeps target keeps admits)
    (start_keeps status)
  refine ⟨w, executed, fun t => ⟨(libExit_keeps keeps.lib).2, fun cpu => (cbkExit_keeps t cpu keeps.cbk).2,
    ?_, ?_, ?_⟩⟩
  · simpa [wrapperLayout] using keeps.lib.ownsIff t
  · simpa [wrapperLayout] using keeps.cbk.ownsIff t
  · simpa [wrapperLayout] using keeps.sig.ownsIff t

theorem Shadow.fits_of_few {s : Shadow} (busy : Finset Task) (few : busy.card ≤ sigCacheSize)
    (only : ∀ t ∉ busy, s.lib t = [] ∧ s.cbk t = [] ∧ s.sig t = [])
    (depth : ∀ t ∈ busy, (s.lib t).length ≤ stackSize ∧ (s.cbk t).length ≤ stackSize ∧
      (s.sig t).length ≤ stackSize) : s.Fits := by
  have depths (t : Task) : (s.lib t).length ≤ stackSize ∧ (s.cbk t).length ≤ stackSize ∧
      (s.sig t).length ≤ stackSize := by
    by_cases inside : t ∈ busy
    · exact depth t inside
    · simp [only t inside]
  have counts {α : Type} {n : Nat} {pending : Task → List α} (only : ∀ t ∉ busy, pending t = [])
      (small : busy.card ≤ n) : {t | pending t ≠ []}.encard ≤ n :=
    encard_le_of_covers busy small fun t => not_imp_comm.mp (only t)
  have larger : sigCacheSize ≤ libCacheSize := by
    simp only [libCacheSize]
    decide
  exact {
    libDepth := fun t => (depths t).1
    cbkDepth := fun t => (depths t).2.1
    sigDepth := fun t => (depths t).2.2
    libRoom := counts (fun t outside => (only t outside).1) (few.trans larger)
    cbkRoom := counts (fun t outside => (only t outside).2.1) few
    sigRoom := counts (fun t outside => (only t outside).2.2) few }

theorem Shadow.fits_of_two {s : Shadow} (a b : Task)
    (only : ∀ t ∉ ({a, b} : Finset Task), s.lib t = [] ∧ s.cbk t = [] ∧ s.sig t = [])
    (depth : ∀ t ∈ ({a, b} : Finset Task), (s.lib t).length ≤ stackSize ∧
      (s.cbk t).length ≤ stackSize ∧ (s.sig t).length ≤ stackSize) : s.Fits :=
  fits_of_few {a, b} (Finset.card_le_two.trans (by decide)) only depth

def forkTarget : Target where
  startCode := 0x400000
  endCode := 0x500000
  indirectCallSource := 0x7f0010

def forkInCall : List Op := [.libInit 1 0x400123, .newWakeUpNewTask 1 2, .libExit 1]

theorem wrappers_keep_shadow_fork :
    ∃ w, (wrappers forkTarget).exec .zero forkInCall = some w ∧
      (w.libExit 2).2 = (0x400123, false) ∧ (w.libExit 1).2 = (0, true) := by
  have fits (s : Shadow) := s.fits_of_two 1 2
  have run : ∃ s, shadow.Run Shadow.Admits (.start fun t => if t = 1 then .running else .absent)
      forkInCall s ∧ s.lib 1 = [] ∧ s.lib 2 = [0x400123] := by
    refine ⟨_, .cons ⟨rfl, fits _ (fun t other => ?_) (by decide)⟩ rfl
      (.cons ⟨⟨rfl, rfl⟩, fits _ (fun t other => ?_) (by decide)⟩ rfl
      (.cons ⟨rfl, fits _ (fun t other => ?_) (by decide)⟩ rfl (.nil _))), rfl, rfl⟩
    all_goals
      simp only [Finset.mem_insert, Finset.mem_singleton, not_or] at other
      simp [Shadow.step, Shadow.start, other]
  obtain ⟨s, run, parent, child⟩ := run
  obtain ⟨w, executed, kept⟩ := @wrappers_keep_shadow forkTarget _ _ _ run
  refine ⟨w, executed, ?_, ?_⟩
  · rw [(kept 2).1, child]
    rfl
  · rw [(kept 1).1, parent]
    rfl

end PathArmor.Kernel
