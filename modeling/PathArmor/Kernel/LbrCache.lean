import PathArmor.Kernel.Msr
import PathArmor.Library.Slots
import PathArmor.Library.Transition

/-!
# Context switches

The LBR registers belong to a CPU. `sched_out` parks those of the task that leaves in `lbr_cache`,
`sched_in` puts them back on the CPU the task continues on, and a new task finds a copy of its
parent's there. `failed` is not in the sources: some operation took its failure branch.
-/

namespace PathArmor.Kernel
open PathArmor.Library

@[irreducible] def lbrCacheSize : Nat := 1024

structure Switching where
  lbrCache : Fin lbrCacheSize → Lbr
  cpu : Nat → Msrs
  failed : Bool

namespace Switching

def init (cpu : Nat → Msrs) : Switching where
  lbrCache _ := Lbr.zero
  cpu c := enableLbr (cpu c)
  failed := false

/-- The loops of `save_lbr` and `new_wake_up_new_task` over the cache, on the CPU `c`. -/
def storeLbr (k : Switching) (task : Task) (c : Nat) : Switching :=
  match (List.finRange lbrCacheSize).find? fun i => (k.lbrCache i).task = none with
  | some i =>
      { k with
        lbrCache := Function.update k.lbrCache i
          { getLbr (k.cpu c) (k.lbrCache i) with task := some task } }
  | none => { k with failed := true }

/-- The LBR is switched off for the next task, whether or not there was room. -/
def saveLbr (k : Switching) (current : Task) (c : Nat) : Switching :=
  let stored := k.storeLbr current c
  { stored with cpu := Function.update stored.cpu c { stored.cpu c with debugctl := 0 } }

def restoreLbr (k : Switching) (current : Task) (c : Nat) : Switching :=
  match (List.finRange lbrCacheSize).find? fun i => (k.lbrCache i).task = some current with
  | some i =>
      { k with
        cpu := Function.update k.cpu c (putLbr (k.lbrCache i))
        lbrCache := Function.update k.lbrCache i { k.lbrCache i with task := none } }
  | none => { k with failed := true }

end Switching

/-- What happens to supervised tasks: `t` is the current task and `c` its CPU. -/
inductive Switch
  | record (c : Nat) (regs : Msrs) -- branches, or a write to the registers
  | schedOut (t : Task) (c : Nat)
  | schedIn (t : Task) (c : Nat)
  | newWakeUpNewTask (t p : Task) (c : Nat)
  | doExit (t : Task)

/-- The hooks are removed in `do_exit`: the last `sched_out` of a task does not call `save_lbr`. -/
def switching : System Switching Switch where
  step k
    | .record c regs => some { k with cpu := Function.update k.cpu c regs }
    | .schedOut t c => some (k.saveLbr t c)
    | .schedIn t c => some (k.restoreLbr t c)
    | .newWakeUpNewTask _ p c => some (k.storeLbr p c)
    | .doExit _ => some k

/-! ## Tasks and the registers they left -/

inductive Place
  | absent
  | running (c : Nat)
  | switchedOut (regs : Msrs) -- the registers at its last `sched_out`, or at its parent's fork
  | exited

structure Tasks where
  place : Task → Place
  cpu : Nat → Msrs

namespace Tasks

def init (t : Task) (c : Nat) (cpu : Nat → Msrs) : Tasks where
  place := Function.update (fun _ => .absent) t (.running c)
  cpu c := enableLbr (cpu c)

def step (s : Tasks) : Switch → Tasks
  | .record c regs => { s with cpu := Function.update s.cpu c regs }
  | .schedOut t c =>
      { place := Function.update s.place t (.switchedOut (s.cpu c))
        cpu := Function.update s.cpu c { s.cpu c with debugctl := 0 } }
  | .schedIn t c =>
      match s.place t with
      | .switchedOut regs =>
          { place := Function.update s.place t (.running c)
            cpu := Function.update s.cpu c regs.saved }
      | _ => s
  | .newWakeUpNewTask _ p c =>
      { s with place := Function.update s.place p (.switchedOut (s.cpu c)) }
  | .doExit t => { s with place := Function.update s.place t .exited }

def OffCpu (s : Tasks) (t : Task) : Prop := ∃ regs, s.place t = .switchedOut regs

def Alternates (s : Tasks) : Switch → Prop
  | .record _ _ => True
  | .schedOut t c => s.place t = .running c
  | .schedIn t _ => s.OffCpu t
  | .newWakeUpNewTask t p c => s.place t = .running c ∧ s.place p = .absent
  | .doExit t => ∃ c, s.place t = .running c

def Admits (s : Tasks) (e : Switch) : Prop :=
  s.Alternates e ∧ {t | (s.step e).OffCpu t}.encard ≤ lbrCacheSize

end Tasks

def tasks : System Tasks Switch where
  step s e := some (s.step e)

/-! ## The cache -/

def lbrLayout : Layout Lbr Task (Option Msrs) where
  owner := Lbr.task
  view lbr := lbr.task.map fun _ => putLbr lbr
  empty := none

def Place.stored : Place → Option Msrs
  | .switchedOut regs => some regs.saved
  | _ => none

theorem offCpu_iff {s : Tasks} {t : Task} : s.OffCpu t ↔ (Place.stored ∘ s.place) t ≠ none := by
  cases place : s.place t <;> simp [Tasks.OffCpu, Place.stored, place]

structure Follows (s : Tasks) (k : Switching) : Prop where
  cache : lbrLayout.Holds k.lbrCache (Place.stored ∘ s.place)
  cpu : k.cpu = s.cpu
  ok : k.failed = false

section
variable {s : Tasks} {k : Switching} {t : Task} {c : Nat}

theorem storeLbr_follows (follows : Follows s k) (notOff : ¬ s.OffCpu t)
    (room : {t' | (⟨Function.update s.place t (.switchedOut (s.cpu c)), s.cpu⟩ : Tasks).OffCpu
      t'}.encard ≤ lbrCacheSize) :
    Follows ⟨Function.update s.place t (.switchedOut (s.cpu c)), s.cpu⟩ (k.storeLbr t c) := by
  have nothing : (Place.stored ∘ s.place) t = none := by simpa [offCpu_iff] using notOff
  have room' : (insert t {t' | (Place.stored ∘ s.place) t' ≠ none}).encard ≤ lbrCacheSize := by
    convert room using 2
    ext t'
    rw [Set.mem_ofPred_eq, offCpu_iff]
    rcases eq_or_ne t' t with rfl | other
    · simp [Place.stored]
    · simp [other]
  obtain ⟨i, free⟩ := follows.cache.find_free nothing room'
  have found : (List.finRange lbrCacheSize).find? (fun i => (k.lbrCache i).task = none) = some i :=
    free
  have owner : (k.lbrCache i).task = none := Layout.owner_of_find free
  simp only [Switching.storeLbr, found]
  refine ⟨?_, follows.cpu, follows.ok⟩
  rw [Function.comp_update, ← follows.cpu]
  exact follows.cache.put (.inr ⟨owner, nothing⟩) (iff_of_false (by simp [lbrLayout]) (by simp [lbrLayout]))
    (.inr rfl)

theorem restoreLbr_follows (follows : Follows s k) {regs : Msrs}
    (off : s.place t = .switchedOut regs) :
    Follows ⟨Function.update s.place t (.running c), Function.update s.cpu c regs.saved⟩
      (k.restoreLbr t c) := by
  have stored : (s.place t).stored = some regs.saved := by simp [off, Place.stored]
  obtain ⟨i, owns⟩ := follows.cache.owned (k := t) (by simp [stored, lbrLayout])
  have found : (List.finRange lbrCacheSize).find? (fun i => (k.lbrCache i).task = some t) = some i :=
    follows.cache.find_eq_some.mpr owns
  have content : putLbr (k.lbrCache i) = regs.saved := by
    have view := (follows.cache.held owns).1
    have task : (k.lbrCache i).task = some t := owns
    simpa [lbrLayout, task, stored] using view
  simp only [Switching.restoreLbr, found]
  refine ⟨?_, ?_, follows.ok⟩
  · rw [Function.comp_update]
    exact follows.cache.put (.inl owns) (iff_of_true rfl rfl) (.inl rfl)
  · rw [content, follows.cpu]

theorem step_follows {e : Switch} (follows : Follows s k) (admits : s.Admits e) :
    ∃ k', switching.step k e = some k' ∧ Follows (s.step e) k' := by
  obtain ⟨alternates, room⟩ := admits
  cases e with
  | record c regs => exact ⟨_, rfl, follows.cache, by rw [Tasks.step, follows.cpu], follows.ok⟩
  | schedOut t c =>
      have running : s.place t = .running c := alternates
      have notOff : ¬ s.OffCpu t := by
        rintro ⟨regs, off⟩
        simp [running] at off
      have stored := storeLbr_follows (c := c) follows notOff room
      exact ⟨_, rfl, stored.cache, by simp only [Switching.saveLbr, stored.cpu, Tasks.step],
        stored.ok⟩
  | schedIn t c =>
      obtain ⟨regs, off⟩ := alternates
      refine ⟨_, rfl, ?_⟩
      simp only [Tasks.step, off]
      exact restoreLbr_follows follows off
  | newWakeUpNewTask t p c =>
      have notOff : ¬ s.OffCpu p := by
        rintro ⟨regs, off⟩
        simp [alternates.2] at off
      exact ⟨_, rfl, storeLbr_follows follows notOff room⟩
  | doExit t =>
      obtain ⟨c, running⟩ := alternates
      refine ⟨_, rfl, ?_, follows.cpu, follows.ok⟩
      have same : Place.stored .exited = (Place.stored ∘ s.place) t := by
        simp [running, Place.stored]
      simp only [Tasks.step]
      rw [Function.comp_update, same, Function.update_eq_self]
      exact follows.cache

end

theorem init_follows (t : Task) (c : Nat) (cpu : Nat → Msrs) :
    Follows (.init t c cpu) (.init cpu) where
  cpu := rfl
  ok := rfl
  cache := by
    have nothing (t' : Task) : (Place.stored ∘ (Tasks.init t c cpu).place) t' = none := by
      rcases eq_or_ne t' t with rfl | other
      · simp [Tasks.init, Place.stored]
      · simp [Tasks.init, Place.stored, other]
    exact {
      exclusive := fun owner => by cases owner
      held := fun owner => by cases owner
      owned := fun stored => absurd (nothing _) stored
      free := fun _ => rfl }

/-- After every run within the bound no failure branch was taken, `sched_in` installs the registers
the task (or its parent) was left with, and the cache has one entry for each task off the CPUs. -/
theorem lbrCache_follows_tasks {t₀ : Task} {c₀ : Nat} {cpu₀ : Nat → Msrs} {events : List Switch}
    {s : Tasks} (run : tasks.Run Tasks.Admits (.init t₀ c₀ cpu₀) events s) :
    ∃ k, switching.exec (.init cpu₀) events = some k ∧ k.cpu = s.cpu ∧ k.failed = false ∧
      (∀ t c regs, s.place t = .switchedOut regs →
        (k.restoreLbr t c).cpu c = regs.saved ∧ (k.restoreLbr t c).failed = false) ∧
      ∀ t, lbrLayout.OwnsIff k.lbrCache t (s.OffCpu t) := by
  obtain ⟨k, executed, follows⟩ := run.simulation (T := switching) (R := Follows)
    (fun s k e s' follows admits step => by
      obtain rfl : s.step e = s' := by simpa [tasks] using step
      exact step_follows follows admits)
    (init_follows t₀ c₀ cpu₀)
  refine ⟨k, executed, follows.cpu, follows.ok, fun t c regs off => ?_, fun t => ?_⟩
  · have restored := restoreLbr_follows (c := c) follows off
    exact ⟨by simp [restored.cpu], restored.ok⟩
  · rw [offCpu_iff]
    exact follows.cache.ownsIff t

def migrationRegs : Msrs where
  debugctl := 1
  select := 0x185
  tos := 3
  fromAddr _ := 0x800000000040010a
  toAddr _ := 0x400200

def migration : List Switch :=
  [.record 0 migrationRegs, .newWakeUpNewTask 1 2 0, .schedOut 1 0, .schedIn 1 3, .schedIn 2 0]

theorem lbrCache_follows_tasks_migration :
    ∃ k, switching.exec (.init fun _ => migrationRegs) migration = some k ∧ k.failed = false ∧
      k.cpu 0 = migrationRegs.saved ∧ k.cpu 3 = migrationRegs.saved := by
  have few {s : Tasks} (only : ∀ t, s.OffCpu t → t ∈ ({1, 2} : Finset Task)) :
      {t | s.OffCpu t}.encard ≤ lbrCacheSize :=
    encard_le_of_covers {1, 2} (by simp [lbrCacheSize]) only
  have run : ∃ s, tasks.Run Tasks.Admits (.init 1 0 fun _ => migrationRegs) migration s ∧
      s.cpu 0 = migrationRegs.saved ∧ s.cpu 3 = migrationRegs.saved := by
    refine ⟨_, .cons ⟨trivial, few fun t => ?_⟩ rfl (.cons ⟨⟨rfl, rfl⟩, few fun t => ?_⟩ rfl
      (.cons ⟨rfl, few fun t => ?_⟩ rfl (.cons ⟨⟨_, rfl⟩, few fun t => ?_⟩ rfl
      (.cons ⟨⟨_, rfl⟩, few fun t => ?_⟩ rfl (.nil _))))), rfl, rfl⟩
    all_goals
      rintro ⟨regs, off⟩
      by_contra other
      simp only [Finset.mem_insert, Finset.mem_singleton, not_or] at other
      simp [Tasks.step, Tasks.init, Function.update_of_ne, other] at off
  obtain ⟨s, run, parked, moved⟩ := run
  obtain ⟨k, executed, same, ok, -⟩ := lbrCache_follows_tasks run
  exact ⟨k, executed, ok, same ▸ parked, same ▸ moved⟩

end PathArmor.Kernel
