import PathArmor.Kernel.WrapperCache

/-!
# The slots of other tasks

In whatever state a cache is, full or not, an operation of one task changes at most one slot. It is
a slot of that task, an empty one, or, in a full cache, the first one.
-/

namespace PathArmor.Kernel

section
variable {n : Nat} [NeZero n] {data : Cache n} {task : Task}

def Full (data : Cache n) (task : Task) : Prop :=
  ∀ i, (data i).task ≠ some task ∧ (data i).task ≠ none

/-- What taking an entry for `task` and filling it can do to a cache. -/
inductive Allocates (data : Cache n) (task : Task) : Cache n → Bool → Prop
  | own (i : Fin n) (slot : WrapperLib) (killed : Bool) (mine : (data i).task = some task)
      (owner : slot.task = some task) : Allocates data task (Function.update data i slot) killed
  | free (i : Fin n) (slot : WrapperLib) (killed : Bool) (empty : (data i).task = none)
      (absent : ∀ j, (data j).task ≠ some task) (owner : slot.task = some task) :
      Allocates data task (Function.update data i slot) killed
  | wrong (slot : WrapperLib) (full : Full data task) (owner : slot.task = (data 0).task) :
      Allocates data task (Function.update data 0 slot) true

theorem findCacheEntryInit_cases (data : Cache n) (task : Task) :
    (∃ i, findCacheEntryInit data task = (data, i, false) ∧ (data i).task = some task) ∨
    (∃ i, findCacheEntryInit data task =
        (Function.update data i { data i with task := some task }, i, false) ∧
      (data i).task = none ∧ ∀ j, (data j).task ≠ some task) ∨
    findCacheEntryInit data task = (data, 0, true) ∧ Full data task := by
  cases found : (List.finRange n).find? fun i => (data i).task = some task with
  | some i =>
      left
      refine ⟨i, ?_, by simpa using List.find?_some found⟩
      simp [findCacheEntryInit, scanEntries_of_some found]
  | none =>
      have absent (j : Fin n) : (data j).task ≠ some task := by
        simpa using List.find?_eq_none.mp found j (List.mem_finRange j)
      right
      cases free : (List.finRange n).find? fun i => (data i).task = none with
      | some i =>
          left
          refine ⟨i, ?_, by simpa using List.find?_some free, absent⟩
          simp [findCacheEntryInit, scanEntries_of_none found, free]
      | none =>
          right
          refine ⟨by simp [findCacheEntryInit, scanEntries_of_none found, free], fun i => ?_⟩
          exact ⟨absent i, by simpa using List.find?_eq_none.mp free i (List.mem_finRange i)⟩

theorem enter_allocates {store : WrapperLib → WrapperLib × Bool}
    (owner : ∀ slot, (store slot).1.task = slot.task) :
    Allocates data task (enter data task store).1 (enter data task store).2 := by
  rcases findCacheEntryInit_cases data task with ⟨i, found, mine⟩ | ⟨i, found, empty, absent⟩ |
    ⟨found, full⟩
  · simp only [enter, found]
    exact .own i _ _ mine (by rw [owner, mine])
  · simp only [enter, found, Function.update_self, Function.update_idem]
    exact .free i _ _ empty absent (owner _)
  · simp only [enter, found, Bool.true_or]
    exact .wrong _ full (owner _)

variable (data task) in
theorem inherit_allocates (current : Task) (entries : List (Fin n))
    {copy : WrapperLib → WrapperLib → WrapperLib}
    (owner : ∀ ours new, (copy ours new).task = new.task) :
    inherit data current task entries copy = (data, false) ∨
      Allocates data task (inherit data current task entries copy).1
        (inherit data current task entries copy).2 := by
  cases ours : ourIndex data current entries with
  | none => exact .inl (by simp [inherit, ours])
  | some our =>
      right
      rcases findCacheEntryInit_cases data task with ⟨i, found, mine⟩ | ⟨i, found, empty, absent⟩ |
        ⟨found, full⟩
      · simp only [inherit, ours, found]
        exact .own i _ _ mine (by rw [owner, mine])
      · simp only [inherit, ours, found, Function.update_self, Function.update_idem]
        exact .free i _ _ empty absent (owner _ _)
      · simp only [inherit, ours, found]
        exact .wrong _ full (owner _ _)

/-- Only the first slot of a full cache can belong to somebody else and change, and then the
current task is killed. -/
def Spared (t owner : Task) (data data' : Cache n) (killed : Bool) : Prop :=
  ∀ i u, (data i).task = some u → u ≠ t → u ≠ owner →
    data' i = data i ∨ i = 0 ∧ Full data owner ∧ killed = true

theorem Spared.refl (t owner : Task) (data : Cache n) (killed : Bool) :
    Spared t owner data data killed := fun _ _ _ _ _ => .inl rfl

theorem Allocates.spared {t : Task} {data' : Cache n} {killed : Bool}
    (allocates : Allocates data task data' killed) : Spared t task data data' killed := by
  intro j u theirs _ other
  cases allocates with
  | own i slot killed mine owner =>
      left
      apply Function.update_of_ne
      rintro rfl
      exact other (Option.some.inj (theirs.symm.trans mine))
  | free i slot killed empty absent owner =>
      left
      apply Function.update_of_ne
      rintro rfl
      simp [theirs] at empty
  | wrong slot full owner =>
      by_cases first : j = 0
      · exact .inr ⟨first, full, rfl⟩
      · exact .inl (Function.update_of_ne first _ _)

theorem inherit_spared {t : Task} {entries : List (Fin n)}
    {copy : WrapperLib → WrapperLib → WrapperLib}
    (owner : ∀ ours new, (copy ours new).task = new.task) :
    Spared t task data (inherit data t task entries copy).1
      (inherit data t task entries copy).2 := by
  cases inherit_allocates data task t entries owner with
  | inl same =>
      rw [same]
      exact .refl t task data false
  | inr allocates => exact allocates.spared

theorem Spared.weaken {t : Task} {data' : Cache n} {killed killed' : Bool}
    (spared : Spared t task data data' killed) (imp : killed = true → killed' = true) :
    Spared t task data data' killed' := fun i u theirs notT other =>
  (spared i u theirs notT other).imp id fun wrong => ⟨wrong.1, wrong.2.1, imp wrong.2.2⟩

end

namespace Wrappers
variable (w : Wrappers) (t p : Task) (target : Target) (ret sighandler : UInt64) (cpu : Msrs)

theorem libInit_allocates : Allocates w.lib t (w.libInit t ret).1.lib (w.libInit t ret).2 := by
  simp only [libInit]
  exact enter_allocates fun _ => rfl

theorem cbkInit_allocates :
    Allocates w.cbk t (w.cbkInit t ret cpu).1.cbk (w.cbkInit t ret cpu).2.2 := by
  simp only [cbkInit]
  exact enter_allocates fun _ => lbrStackPush_task _ cpu

theorem sigInit_allocates : Allocates w.sig t (w.sigInit t target sighandler cpu).1.sig
    (w.sigInit t target sighandler cpu).2.2 := by
  simp only [sigInit]
  exact enter_allocates fun slot => lbrStackPush_task slot cpu

structure Spared (t owner : Task) (w w' : Wrappers) (killed : Bool) : Prop where
  lib : Kernel.Spared t owner w.lib w'.lib killed
  cbk : Kernel.Spared t owner w.cbk w'.cbk killed
  sig : Kernel.Spared t owner w.sig w'.sig killed

theorem newWakeUpNewTask_spared :
    Spared t p w (w.newWakeUpNewTask t p).1 (w.newWakeUpNewTask t p).2 := by
  simp only [newWakeUpNewTask]
  constructor <;> apply Spared.weaken (inherit_spared ?_)
  all_goals simp +contextual

/-- In every state of the caches, full ones included. -/
theorem operations_spare_other_tasks :
    w.Spared t t (w.libInit t ret).1 (w.libInit t ret).2 ∧
    w.Spared t t (w.cbkInit t ret cpu).1 (w.cbkInit t ret cpu).2.2 ∧
    w.Spared t t (w.sigInit t target sighandler cpu).1 (w.sigInit t target sighandler cpu).2.2 ∧
    w.Spared t p (w.newWakeUpNewTask t p).1 (w.newWakeUpNewTask t p).2 :=
  ⟨⟨(w.libInit_allocates t ret).spared, .refl _ _ _ _, .refl _ _ _ _⟩,
    ⟨.refl _ _ _ _, (w.cbkInit_allocates t ret cpu).spared, .refl _ _ _ _⟩,
    ⟨.refl _ _ _ _, .refl _ _ _ _, (w.sigInit_allocates t target sighandler cpu).spared⟩,
    w.newWakeUpNewTask_spared t p⟩

/-- Every slot of the callback cache holds a pending callback of a task of its own. -/
def busyCallbacks (cpu : Msrs) : Wrappers where
  lib := zero.lib
  cbk i := (lbrStackPush (stackPush { WrapperLib.zero with task := some (i.val + 1) } 0x7f0001).1 cpu).1
  sig := zero.sig

/-- The 65th task to enter a callback pushes its return address on the stack of another one. -/
theorem cbkInit_of_busy :
    ((busyCallbacks (putLbr Lbr.zero)).cbk 0).task = some 1 ∧
    ((busyCallbacks (putLbr Lbr.zero)).cbk 0).rets.toList = [0x7f0001] ∧
    (((busyCallbacks (putLbr Lbr.zero)).cbkInit 100 0x400123 (putLbr Lbr.zero)).1.cbk 0).rets.toList =
      [0x400123, 0x7f0001] := by
  decide +kernel

end Wrappers

end PathArmor.Kernel
