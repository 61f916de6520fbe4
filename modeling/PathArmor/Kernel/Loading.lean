import PathArmor.Kernel.Intercept
import PathArmor.Library.Transition

/-!
# Loading and unloading the module

`armor_init` registers the module's hooks with the kernel, points the system calls of all processors
to `syscall_new` and intercepts `signal_delivered`. Where one of this fails it takes back what is
done, in the opposite order. Between two loads, and while the module is in, processors may be taken
off line and brought back; the kernel then sets them up anew.
-/

namespace PathArmor.Loading
open PathArmor.Library Intercept

/-- What the module registers with the kernel. -/
inductive Resource
  | sysctlTable
  | workqueue
  | wakeUpNewTask
  | doExit
  | execve
  | miscdev
  deriving DecidableEq

/-- A module in memory, and three of its addresses. -/
structure Image where
  contains : UInt64 → Bool
  code : Memory
  syscallNew : UInt64
  preSignalDelivered : UInt64
  preSignalDeliveredExit : UInt64

/-- The kernel's entry point for system calls, `signal_delivered` if `kallsyms_lookup_name` finds
it, and which entry of the page tables maps an address. -/
structure Kallsyms where
  systemCall : UInt64
  signalDelivered : Option UInt64
  page : UInt64 → Nat

/-- What the kernel's functions return to `armor_init`. -/
structure Outcomes where
  granted : Resource → Bool
  found : Resource → Bool

/-- The kernel, and the module's `syscall_orig`. `since` is not in the sources: the processors that
have been on line since the module came in. -/
@[ext] structure Host where
  text : KernelText
  lstar : Nat → UInt64
  online : Nat → Bool
  registered : Resource → Nat
  syscallOrig : UInt64
  loaded : Option Image
  since : Nat → Bool

namespace Host
variable (h : Host)

def register (r : Resource) : Host :=
  { h with registered := Function.update h.registered r (h.registered r + 1) }

def unregister (r : Resource) : Host :=
  { h with registered := Function.update h.registered r (h.registered r - 1) }

def setText (text : KernelText) : Host := { h with text }

def onEachCpu (lstar : UInt64) : Host :=
  { h with lstar := fun c => if h.online c then lstar else h.lstar c }

/-- It reads the register of the processor it runs on, and always returns 0. -/
def interceptSyscallsInit (cpu : Nat) (syscallNew : UInt64) : Host :=
  { h with syscallOrig := h.lstar cpu }.onEachCpu syscallNew

def interceptSyscallsExit : Host :=
  if h.syscallOrig = 0 then h else { h.onEachCpu h.syscallOrig with syscallOrig := 0 }

/-! The labels of `armor_init`, each of which falls through to the next one. -/

def errUnrollRegisterSysctl : Host := h.unregister .sysctlTable

def errUnrollWorkqueue : Host := (h.unregister .workqueue).errUnrollRegisterSysctl

def errUnrollRegisterNewTask : Host := (h.unregister .wakeUpNewTask).errUnrollWorkqueue

def errUnrollRegisterDoExit : Host := (h.unregister .doExit).errUnrollRegisterNewTask

def errUnrollRegisterExecve : Host := (h.unregister .execve).errUnrollRegisterDoExit

def errUnrollInterceptSyscalls : Host := h.interceptSyscallsExit.errUnrollRegisterExecve

end Host

section
variable (k : Kallsyms)

def Host.errUnrollInterceptSignalDelivered (h : Host) : Option Host :=
  (restoreSymbol k.page k.signalDelivered h.text).map fun restored =>
    (h.setText restored.1).errUnrollInterceptSyscalls

/-- The second half of `armor_init`, from `intercept_syscalls_init` on. -/
def Host.interceptAll (image : Image) (cpu : Nat) (o : Outcomes) (h : Host) :
    Option (Host × Bool) :=
  let h := h.interceptSyscallsInit cpu image.syscallNew
  (interceptSymbol k.page k.signalDelivered image.preSignalDelivered image.preSignalDeliveredExit
    h.text).bind fun intercepted =>
      let h := h.setText intercepted.1
      if !intercepted.2 then some (h.errUnrollInterceptSyscalls, false)
      else if !o.granted .miscdev then (h.errUnrollInterceptSignalDelivered k).map (·, false)
      else some (h.register .miscdev, true)

/-- On the processor `cpu`. The second result is that 0 was returned. -/
def armorInit (image : Image) (cpu : Nat) (o : Outcomes) (h : Host) : Option (Host × Bool) :=
  if !o.granted .sysctlTable then some (h, false) else
  let h := h.register .sysctlTable
  if !o.granted .workqueue then some (h.errUnrollRegisterSysctl, false) else
  let h := h.register .workqueue
  if !o.found .wakeUpNewTask then some (h.errUnrollWorkqueue, false) else
  if !o.found .doExit then some (h.errUnrollWorkqueue, false) else
  if !o.found .execve then some (h.errUnrollWorkqueue, false) else
  if !o.granted .wakeUpNewTask then some (h.errUnrollWorkqueue, false) else
  let h := h.register .wakeUpNewTask
  if !o.granted .doExit then some (h.errUnrollRegisterNewTask, false) else
  let h := h.register .doExit
  if !o.granted .execve then some (h.errUnrollRegisterDoExit, false) else
  (h.register .execve).interceptAll k image cpu o

def armorExit (h : Host) : Option Host :=
  (restoreSymbol k.page k.signalDelivered h.text).map fun restored =>
    let h := (h.setText restored.1).interceptSyscallsExit
    ((((((h.unregister .execve).unregister .doExit).unregister .wakeUpNewTask).unregister
      .workqueue).unregister .sysctlTable).unregister .miscdev)

inductive Event
  | insmod (image : Image) (cpu : Nat) (o : Outcomes)
  | rmmod
  | online (cpu : Nat)
  | offline (cpu : Nat)

/-- The module is put into memory, with its variables as they are initialized. -/
def Host.load (image : Image) (h : Host) : Host :=
  { h with
    text := { h.text with mem := fun x => if image.contains x then image.code x else h.text.mem x }
    syscallOrig := 0 }

/-- A module whose initialization fails is taken out again. -/
def host : System Host Event where
  step h
    | .insmod image cpu o => (armorInit k image cpu o (h.load image)).map fun result =>
        if result.2 then { result.1 with loaded := some image, since := result.1.online }
        else result.1
    | .rmmod => (armorExit k h).map fun h => { h with loaded := none }
    | .online cpu => some { h with
        lstar := Function.update h.lstar cpu k.systemCall
        online := Function.update h.online cpu true
        since := Function.update h.since cpu false }
    | .offline cpu => some { h with
        online := Function.update h.online cpu false
        since := Function.update h.since cpu false }

/-- The patches are not across pages, and the module lies outside the kernel. -/
structure Image.Fits (image : Image) : Prop where
  exitPage : OnePage k.page image.preSignalDeliveredExit
  exitInside : ∀ x ∈ region image.preSignalDeliveredExit 5, image.contains x
  outside : ∀ symbol, k.signalDelivered = some symbol → ∀ x ∈ region symbol 5, ¬ image.contains x

def Host.Possible (h : Host) : Event → Prop
  | .insmod image cpu _ => h.loaded = none ∧ h.online cpu ∧ image.Fits k
  | .rmmod => h.loaded.isSome
  | .online cpu => ¬ h.online cpu
  | .offline cpu => h.online cpu

/-- The kernel before the module has been loaded. `signal_delivered` starts with what the function
tracer leaves there. -/
structure Host.Booted (h : Host) : Prop where
  entry : k.systemCall ≠ 0
  lstar : ∀ c, h.online c → h.lstar c = k.systemCall
  symbolPage : ∀ symbol, k.signalDelivered = some symbol → OnePage k.page symbol
  symbolNops : ∀ symbol, k.signalDelivered = some symbol →
    h.text.mem.read symbol 5 = nops ∨ h.text.mem.read symbol 5 = longNop
  loaded : h.loaded = none

end

/-! ## What the functions do -/

namespace Host
variable {k : Kallsyms} {h : Host} {image : Image} {cpu : Nat}

section
variable (h : Host) (r q : Resource)

theorem registered_register :
    (h.register r).registered q = if q = r then h.registered r + 1 else h.registered q :=
  Function.update_apply _ _ _ _

theorem unregister_register : (h.register r).unregister r = h := by
  simp [register, unregister]

theorem unroll_sysctlTable : (h.register .sysctlTable).errUnrollRegisterSysctl = h :=
  h.unregister_register _

theorem unroll_workqueue :
    ((h.register .sysctlTable).register .workqueue).errUnrollWorkqueue = h := by
  rw [errUnrollWorkqueue, unregister_register, unroll_sysctlTable]

theorem unroll_wakeUpNewTask : (((h.register .sysctlTable).register .workqueue).register
    .wakeUpNewTask).errUnrollRegisterNewTask = h := by
  rw [errUnrollRegisterNewTask, unregister_register, unroll_workqueue]

theorem unroll_doExit : ((((h.register .sysctlTable).register .workqueue).register
    .wakeUpNewTask).register .doExit).errUnrollRegisterDoExit = h := by
  rw [errUnrollRegisterDoExit, unregister_register, unroll_wakeUpNewTask]

/-- All that `armor_init` registers before it intercepts anything. -/
def registerAll : Host :=
  ((((h.register .sysctlTable).register .workqueue).register .wakeUpNewTask).register
    .doExit).register .execve

theorem registerAll_eq : h.registerAll =
    { h with registered := fun r => if r = .miscdev then h.registered r else h.registered r + 1 } := by
  apply Host.ext
  case registered =>
    funext q
    simp only [registerAll, registered_register]
    cases q <;> simp
  all_goals rfl

theorem unroll_registerAll : h.registerAll.errUnrollRegisterExecve = h := by
  rw [registerAll, errUnrollRegisterExecve, unregister_register, unroll_doExit]

end

/-- All processors have the kernel's entry point. -/
def Agrees (k : Kallsyms) (h : Host) : Prop := ∀ c, h.online c → h.lstar c = k.systemCall

theorem Agrees.interceptSyscallsExit_init (agrees : h.Agrees k) (entry : k.systemCall ≠ 0)
    (online : h.online cpu) (syscallNew : UInt64) (text : KernelText) :
    ((h.interceptSyscallsInit cpu syscallNew).setText text).interceptSyscallsExit =
      { h with text, syscallOrig := 0 } := by
  have orig : (h.interceptSyscallsInit cpu syscallNew).syscallOrig = k.systemCall :=
    agrees cpu online
  rw [interceptSyscallsExit, if_neg (orig ▸ entry)]
  apply Host.ext
  case lstar =>
    funext c
    change (if h.online c then h.lstar cpu else if h.online c then syscallNew else h.lstar c) = _
    split_ifs with on
    · rw [agrees cpu online, agrees c on]
    · rfl
  all_goals rfl

/-- The module is in, and all its hooks are in place. -/
def hooked (h : Host) (image : Image) (text : KernelText) (syscallOrig : UInt64) : Host :=
  { h with
    text
    lstar := fun c => if h.online c then image.syscallNew else h.lstar c
    registered := fun r => h.registered r + 1
    syscallOrig }

/-- Nothing is left of the module but, perhaps, the five bytes of `restore_symbol`. -/
structure Undone (k : Kallsyms) (image : Image) (h h' : Host) : Prop where
  same : h' = h.setText h'.text
  mem : h'.text.mem = h.text.mem ∨ ∃ symbol, k.signalDelivered = some symbol ∧
    h'.text.mem = (patched h.text.mem symbol image.preSignalDelivered
      image.preSignalDeliveredExit).write symbol nops

/-- The module is in, or it is not; nothing is left half done. -/
inductive Settles (k : Kallsyms) (image : Image) (h : Host) : Option (Host × Bool) → Prop
  | failed {h' : Host} (undone : h.Undone k image h') : Settles k image h (some (h', false))
  | done {symbol : UInt64} {text : KernelText} (found : k.signalDelivered = some symbol)
      (mem : text.mem = patched h.text.mem symbol image.preSignalDelivered
        image.preSignalDeliveredExit) :
      Settles k image h (some (h.hooked image text k.systemCall, true))

namespace Settles
variable {result rest : Option (Host × Bool)}

theorem unrolled {h' : Host} (same : h' = h) : Settles k image h (some (h', false)) := by
  subst same
  exact .failed ⟨rfl, .inl rfl⟩

theorem rung {succeeds : Bool} {h' : Host} (unrolls : h' = h) (goesOn : Settles k image h rest) :
    Settles k image h (if !succeeds then some (h', false) else rest) := by
  cases succeeds with
  | false => exact unrolled unrolls
  | true => exact goesOn

end Settles

/-- Where the module can be loaded. -/
structure Ready (k : Kallsyms) (image : Image) (cpu : Nat) (h : Host) : Prop where
  agrees : h.Agrees k
  entry : k.systemCall ≠ 0
  online : h.online cpu
  fresh : h.syscallOrig = 0
  exitPage : OnePage k.page image.preSignalDeliveredExit
  symbolPage : ∀ symbol, k.signalDelivered = some symbol → OnePage k.page symbol

namespace Ready

theorem unroll (ready : h.Ready k image cpu) (text : KernelText) :
    ((h.registerAll.interceptSyscallsInit cpu image.syscallNew).setText
      text).errUnrollInterceptSyscalls = h.setText text := by
  have agrees : h.registerAll.Agrees k := by rw [registerAll_eq]; exact ready.agrees
  have fresh : h.registerAll.syscallOrig = 0 := by rw [registerAll_eq]; exact ready.fresh
  rw [errUnrollInterceptSyscalls, agrees.interceptSyscallsExit_init ready.entry ready.online,
    ← fresh]
  exact unroll_registerAll (h.setText text)

theorem hooked (ready : h.Ready k image cpu) (text : KernelText) :
    ((h.registerAll.interceptSyscallsInit cpu image.syscallNew).setText text).register .miscdev =
      h.hooked image text k.systemCall := by
  rw [registerAll_eq]
  apply Host.ext
  case registered =>
    funext q
    rw [registered_register]
    change (if q = .miscdev then h.registered .miscdev + 1
      else if q = .miscdev then h.registered q else h.registered q + 1) = h.registered q + 1
    split_ifs with last
    · rw [last]
    · rfl
  case syscallOrig => exact ready.agrees cpu ready.online
  all_goals rfl

theorem interceptAll (ready : h.Ready k image cpu) (o : Outcomes) :
    Settles k image h (h.registerAll.interceptAll k image cpu o) := by
  obtain ⟨h₁, named⟩ : ∃ h₁, h₁ = h.registerAll.interceptSyscallsInit cpu image.syscallNew := ⟨_, rfl⟩
  have sameText : h₁.text = h.text := by rw [named, registerAll_eq]; rfl
  have unroll (text : KernelText) : (h₁.setText text).errUnrollInterceptSyscalls = h.setText text := by
    rw [named]
    exact ready.unroll text
  rw [Host.interceptAll, ← named, sameText]
  cases found : k.signalDelivered with
  | none => exact .unrolled (unroll h.text)
  | some symbol =>
      have srcPage := ready.symbolPage symbol found
      obtain ⟨text, intercepted, mem⟩ :=
        interceptSymbol_mem h.text image.preSignalDelivered srcPage ready.exitPage
      rw [intercepted, Option.bind_some]
      simp only [Bool.not_true, Bool.false_eq_true, if_false]
      cases granted : o.granted .miscdev with
      | true =>
          rw [Bool.not_true, if_neg Bool.false_ne_true, named, ready.hooked text]
          exact .done found mem
      | false =>
          obtain ⟨restored, restores, nothing⟩ := restoreSymbol_mem text srcPage
          have unrolls : (h₁.setText text).errUnrollInterceptSignalDelivered k =
              some (h.setText restored) := by
            have patchedText : (h₁.setText text).text = text := rfl
            rw [errUnrollInterceptSignalDelivered, found, patchedText, restores, Option.map_some]
            exact congrArg some (unroll restored)
          rw [Bool.not_false, if_pos rfl, unrolls, Option.map_some]
          refine .failed ⟨rfl, .inr ⟨symbol, found, ?_⟩⟩
          rw [← mem]
          exact nothing

theorem armorInit (ready : h.Ready k image cpu) (o : Outcomes) :
    Settles k image h (armorInit k image cpu o h) := by
  apply Settles.rung rfl
  apply Settles.rung (unroll_sysctlTable h)
  apply Settles.rung (unroll_workqueue h)
  apply Settles.rung (unroll_workqueue h)
  apply Settles.rung (unroll_workqueue h)
  apply Settles.rung (unroll_workqueue h)
  apply Settles.rung (unroll_wakeUpNewTask h)
  apply Settles.rung (unroll_doExit h)
  exact ready.interceptAll o

end Ready

theorem armorExit_eq (entry : h.syscallOrig ≠ 0) {text : KernelText} {found : Bool}
    (restores : restoreSymbol k.page k.signalDelivered h.text = some (text, found)) :
    armorExit k h = some { h.onEachCpu h.syscallOrig with
      text
      registered := fun r => h.registered r - 1
      syscallOrig := 0 } := by
  simp only [armorExit, restores, Option.map_some, interceptSyscallsExit, setText, entry, if_false,
    unregister, onEachCpu]
  congr 2
  funext r
  cases r <;> simp

end Host

/-! ## One event -/

theorem Image.Fits.apart {k : Kallsyms} {image : Image} (fits : image.Fits k) {symbol : UInt64}
    (found : k.signalDelivered = some symbol) :
    (region symbol 5).Disjoint (region image.preSignalDeliveredExit 5) := by
  intro x first second
  exact fits.outside symbol found x first (fits.exitInside x second)

namespace Host
variable {k : Kallsyms} {boot h : Host} {image : Image} {symbol : UInt64}

/-- The kernel while the module is not in. -/
structure Restored (k : Kallsyms) (h boot : Host) : Prop where
  agrees : h.Agrees k
  registered : h.registered = boot.registered
  bytes : ∀ symbol, k.signalDelivered = some symbol →
    h.text.mem.read symbol 5 = boot.text.mem.read symbol 5 ∨ h.text.mem.read symbol 5 = nops

/-- The kernel while the module is in. A processor that has come on line since then has the kernel's
own entry point. -/
structure InPlace (k : Kallsyms) (h boot : Host) (image : Image) : Prop where
  lstar : ∀ c, h.online c → h.lstar c = if h.since c then image.syscallNew else k.systemCall
  since : ∀ c, h.since c → h.online c
  syscallOrig : h.syscallOrig = k.systemCall
  registered : ∀ r, h.registered r = boot.registered r + 1
  bytes : ∃ symbol, k.signalDelivered = some symbol ∧
    h.text.mem.read symbol 5 = reljump symbol image.preSignalDelivered ∧
    h.text.mem.read image.preSignalDeliveredExit 5 =
      reljump image.preSignalDeliveredExit (symbol + 5)

def Consistent (k : Kallsyms) (h boot : Host) : Prop :=
  match h.loaded with
  | none => h.Restored k boot
  | some image => h.InPlace k boot image

theorem consistent_of_unloaded (unloaded : h.loaded = none) :
    h.Consistent k boot ↔ h.Restored k boot := by
  rw [Consistent, unloaded]

theorem consistent_of_loaded (loaded : h.loaded = some image) :
    h.Consistent k boot ↔ h.InPlace k boot image := by
  rw [Consistent, loaded]

theorem read_load (outside : ∀ x ∈ region symbol 5, ¬ image.contains x) :
    (h.load image).text.mem.read symbol 5 = h.text.mem.read symbol 5 := by
  apply Memory.read_congr
  intro j below
  exact if_neg (outside _ (mem_region.mpr ⟨j, below, rfl⟩))

end Host

/-- The address is none that the event could write to. -/
def Event.Spares (k : Kallsyms) (x : UInt64) : Event → Prop
  | .insmod image _ _ =>
      ¬ image.contains x ∧ ∀ symbol, k.signalDelivered = some symbol → x ∉ region symbol 5
  | _ => ∀ symbol, k.signalDelivered = some symbol → x ∉ region symbol 5

namespace Host
variable {k : Kallsyms} {boot h h' : Host} {image : Image} {symbol : UInt64} {e : Event}

/-- The event can take place. It leaves the kernel consistent, and everything else alone. -/
def Goes (k : Kallsyms) (h boot : Host) (e : Event) : Prop :=
  ∃ h', (host k).step h e = some h' ∧ h'.Consistent k boot ∧
    ∀ x, e.Spares k x → h'.text.mem x = h.text.mem x

theorem load_of_spared {x : UInt64} (outside : ¬ image.contains x) :
    (h.load image).text.mem x = h.text.mem x := if_neg outside

theorem Restored.failed (restored : h.Restored k boot) (fits : image.Fits k)
    (undone : (h.load image).Undone k image h') : h'.Restored k boot := by
  obtain ⟨same, mem⟩ := undone
  refine ⟨?_, ?_, ?_⟩
  · rw [same]
    exact restored.agrees
  · rw [same]
    exact restored.registered
  · intro symbol found
    rcases mem with mem | ⟨symbol', found', mem⟩
    · rw [mem, read_load (fits.outside symbol found)]
      exact restored.bytes symbol found
    · obtain rfl : symbol' = symbol := Option.some.inj (found'.symm.trans found)
      exact .inr (by rw [mem, read_nops])

theorem Undone.spares (fits : image.Fits k) (undone : (h.load image).Undone k image h') {x : UInt64}
    (outside : ¬ image.contains x)
    (elsewhere : ∀ symbol, k.signalDelivered = some symbol → x ∉ region symbol 5) :
    h'.text.mem x = h.text.mem x := by
  have away : x ∉ region image.preSignalDeliveredExit 5 :=
    fun inside => outside (fits.exitInside x inside)
  rcases undone.mem with mem | ⟨symbol, found, mem⟩
  · rw [mem, load_of_spared outside]
  · rw [mem, Memory.write_of_notMem (elsewhere symbol found),
      patched_of_notMem (elsewhere symbol found) away, load_of_spared outside]

theorem Restored.insmod (restored : h.Restored k boot) (booted : boot.Booted k)
    (unloaded : h.loaded = none) {cpu : Nat} (online : h.online cpu) (fits : image.Fits k)
    (o : Outcomes) : h.Goes k boot (.insmod image cpu o) := by
  have ready : (h.load image).Ready k image cpu :=
    ⟨restored.agrees, booted.entry, online, rfl, fits.exitPage, booted.symbolPage⟩
  have step : (host k).step h (.insmod image cpu o) =
      (armorInit k image cpu o (h.load image)).map fun result =>
        if result.2 then { result.1 with loaded := some image, since := result.1.online }
        else result.1 := rfl
  have settles := ready.armorInit o
  generalize armorInit k image cpu o (h.load image) = result at step settles
  cases settles with
  | @failed h' undone =>
      refine ⟨h', step, ?_, ?_⟩
      · have unloaded' : h'.loaded = none := by
          rw [undone.same]
          exact unloaded
        rw [consistent_of_unloaded unloaded']
        exact restored.failed fits undone
      · rintro x ⟨outside, elsewhere⟩
        exact undone.spares fits outside elsewhere
  | @done symbol text found mem =>
      refine ⟨_, step, ?_, ?_⟩
      · refine InPlace.mk ?_ ?_ rfl ?_ ⟨symbol, found, ?_, ?_⟩
        · intro c on
          exact (if_pos on).trans (if_pos on).symm
        · exact fun c on => on
        · intro r
          exact congrArg (· + 1) (congrFun restored.registered r)
        · exact (congrArg (Memory.read · symbol 5) mem).trans (read_patched_src (fits.apart found))
        · exact (congrArg (Memory.read · image.preSignalDeliveredExit 5) mem).trans
            read_patched_back
      · rintro x ⟨outside, elsewhere⟩
        have away : x ∉ region image.preSignalDeliveredExit 5 :=
          fun inside => outside (fits.exitInside x inside)
        have same : text.mem x = h.text.mem x := by
          rw [mem, patched_of_notMem (elsewhere symbol found) away, load_of_spared outside]
        exact same

theorem InPlace.rmmod (inPlace : h.InPlace k boot image) (booted : boot.Booted k) :
    h.Goes k boot .rmmod := by
  obtain ⟨symbol, found, -⟩ := inPlace.bytes
  obtain ⟨text, restores, nothing⟩ := restoreSymbol_mem h.text (booted.symbolPage symbol found)
  have exits := armorExit_eq (h := h) (by rw [inPlace.syscallOrig]; exact booted.entry)
    (by rw [found]; exact restores)
  have step : (host k).step h .rmmod = (armorExit k h).map fun h => { h with loaded := none } := rfl
  rw [exits] at step
  refine ⟨_, step, Restored.mk ?_ ?_ ?_, ?_⟩
  · intro c on
    exact (if_pos on).trans inPlace.syscallOrig
  · funext r
    exact (congrArg (· - 1) (inPlace.registered r)).trans (Nat.add_sub_cancel _ 1)
  · intro symbol' found'
    obtain rfl : symbol = symbol' := Option.some.inj (found.symm.trans found')
    exact .inr ((congrArg (Memory.read · symbol 5) nothing).trans (read_nops _ _))
  · intro x elsewhere
    have same : text.mem x = h.text.mem x := by
      rw [nothing, Memory.write_of_notMem (elsewhere symbol found)]
    exact same

theorem Consistent.cpu (consistent : h.Consistent k boot) (cpu : Nat) (lstar : UInt64)
    (online : Bool) (anew : online → lstar = k.systemCall) :
    { h with
      lstar := Function.update h.lstar cpu lstar
      online := Function.update h.online cpu online
      since := Function.update h.since cpu false }.Consistent k boot := by
  cases loaded : h.loaded with
  | none =>
      have restored := (consistent_of_unloaded loaded).mp consistent
      rw [consistent_of_unloaded rfl]
      refine ⟨?_, restored.registered, restored.bytes⟩
      intro c on
      rcases eq_or_ne c cpu with rfl | other
      · simpa using anew (by simpa using on)
      · simpa [other] using restored.agrees c (by simpa [other] using on)
  | some image =>
      have inPlace := (consistent_of_loaded loaded).mp consistent
      rw [consistent_of_loaded rfl]
      refine ⟨?_, ?_, inPlace.syscallOrig, inPlace.registered, inPlace.bytes⟩
      · intro c on
        rcases eq_or_ne c cpu with rfl | other
        · simpa using anew (by simpa using on)
        · simpa [other] using inPlace.lstar c (by simpa [other] using on)
      · intro c since
        rcases eq_or_ne c cpu with rfl | other
        · simp at since
        · simpa [other] using inPlace.since c (by simpa [other] using since)

theorem Consistent.online (consistent : h.Consistent k boot) (cpu : Nat) :
    h.Goes k boot (.online cpu) :=
  ⟨_, rfl, consistent.cpu cpu k.systemCall true fun _ => rfl, fun _ _ => rfl⟩

theorem Consistent.offline (consistent : h.Consistent k boot) (cpu : Nat) :
    h.Goes k boot (.offline cpu) := by
  refine ⟨_, rfl, ?_, fun _ _ => rfl⟩
  have consistent' := consistent.cpu cpu (h.lstar cpu) false nofun
  rwa [Function.update_eq_self] at consistent'

theorem Consistent.goes (consistent : h.Consistent k boot) (booted : boot.Booted k)
    (possible : h.Possible k e) : h.Goes k boot e := by
  cases e with
  | insmod image cpu o =>
      obtain ⟨unloaded, online, fits⟩ := possible
      have restored := (consistent_of_unloaded unloaded).mp consistent
      exact restored.insmod booted unloaded online fits o
  | rmmod =>
      obtain ⟨image, loaded⟩ := Option.isSome_iff_exists.mp possible
      exact ((consistent_of_loaded loaded).mp consistent).rmmod booted
  | online cpu => exact consistent.online cpu
  | offline cpu => exact consistent.offline cpu

theorem Booted.consistent (booted : boot.Booted k) : boot.Consistent k boot :=
  (consistent_of_unloaded booted.loaded).mpr ⟨booted.lstar, rfl, fun _ _ => .inl rfl⟩

/-! ## Whole histories -/

variable {events : List Event}

theorem run_consistent (booted : boot.Booted k)
    (run : (host k).Run (Possible k) boot events h) : h.Consistent k boot := by
  apply run.invariant (P := (Consistent k · boot))
  · intro h e h' consistent possible step
    obtain ⟨after, goes, consistent', -⟩ := consistent.goes booted possible
    obtain rfl : after = h' := Option.some.inj (goes.symm.trans step)
    exact consistent'
  · exact booted.consistent

theorem run_spares (booted : boot.Booted k) (run : (host k).Run (Possible k) boot events h)
    {x : UInt64} (spared : ∀ e ∈ events, e.Spares k x) : h.text.mem x = boot.text.mem x := by
  have history := run.history (P := fun past h => h.Consistent k boot ∧
    ((∀ e ∈ past, e.Spares k x) → h.text.mem x = boot.text.mem x)) [] ?_
    ⟨booted.consistent, fun _ => rfl⟩
  · exact history.2 spared
  · rintro past h e h' ⟨consistent, same⟩ possible step
    obtain ⟨after, goes, consistent', frame⟩ := consistent.goes booted possible
    obtain rfl : after = h' := Option.some.inj (goes.symm.trans step)
    refine ⟨consistent', fun spared => ?_⟩
    rw [frame x (spared e (by simp)), same fun e' earlier => spared e' (by simp [earlier])]

/-- A call of `signal_delivered` runs the hook first. -/
structure Intercepts (m : Memory) (image : Image) (newSignalDelivered symbol : UInt64) : Prop where
  enters : goesOn m symbol = some image.preSignalDelivered
  leaves : goesOn m image.preSignalDeliveredExit = some (symbol + 5)
  transparent : ∀ address s, Transparent newSignalDelivered (symbol + 5) address s

/-- While the module is in, everything is registered once and the system calls come to it, but for
processors that have come on line since. Signals do exactly if the module is near enough to the
kernel. -/
theorem loaded_intercepts (booted : boot.Booted k)
    (run : (host k).Run (Possible k) boot events h) (loaded : h.loaded = some image)
    (newSignalDelivered : UInt64) :
    (∀ c, h.online c → h.lstar c = if h.since c then image.syscallNew else k.systemCall) ∧
    h.syscallOrig = k.systemCall ∧ (∀ r, h.registered r = boot.registered r + 1) ∧
    ∃ symbol, k.signalDelivered = some symbol ∧
      (Intercepts h.text.mem image newSignalDelivered symbol ↔
        Near symbol image.preSignalDelivered ∧
          Near image.preSignalDeliveredExit (symbol + 5)) := by
  have inPlace := (consistent_of_loaded loaded).mp (run_consistent booted run)
  obtain ⟨symbol, found, entry, exit⟩ := inPlace.bytes
  refine ⟨inPlace.lstar, inPlace.syscallOrig, inPlace.registered, symbol, found, ?_⟩
  rw [← goesOn_reljump entry, ← goesOn_reljump exit]
  constructor
  · exact fun intercepts => ⟨intercepts.enters, intercepts.leaves⟩
  · rintro ⟨enters, leaves⟩
    exact ⟨enters, leaves, interceptor_transparent newSignalDelivered (symbol + 5)⟩

end Host

def sampleKallsyms : Kallsyms where
  systemCall := 0xffffffff81700000
  signalDelivered := some 0xffffffff81070000
  page x := (x >>> 12).toNat

def sampleBoot : Host where
  text := ⟨fun _ => 0x90, fun _ => false⟩
  lstar _ := 0xffffffff81700000
  online _ := true
  registered _ := 0
  syscallOrig := 0
  loaded := none
  since _ := false

def sampleImage : Image where
  contains x := decide (0xffffffffa0000000 ≤ x)
  code _ := 0x90
  syscallNew := 0xffffffffa0001000
  preSignalDelivered := 0xffffffffa0002000
  preSignalDeliveredExit := 0xffffffffa0002014

theorem sample_onePage {x : UInt64}
    (pages : (region x 5).all fun y => sampleKallsyms.page y == sampleKallsyms.page x) :
    OnePage sampleKallsyms.page x :=
  fun y inside => beq_iff_eq.mp (List.all_eq_true.mp pages y inside)

theorem sampleBoot_booted : sampleBoot.Booted sampleKallsyms := by
  refine ⟨by decide, fun _ _ => rfl, ?_, ?_, rfl⟩
  · rintro symbol ⟨⟩
    exact sample_onePage rfl
  · rintro symbol ⟨⟩
    exact .inl rfl

theorem sampleImage_fits : sampleImage.Fits sampleKallsyms := by
  refine ⟨sample_onePage rfl, ?_, ?_⟩
  · have inside : (region 0xffffffffa0002014 5).all sampleImage.contains = true := rfl
    exact List.all_eq_true.mp inside
  · rintro symbol ⟨⟩ x member contained
    have outside : (region 0xffffffff81070000 5).all (fun x => !sampleImage.contains x) = true := rfl
    have away := List.all_eq_true.mp outside x member
    simp [contained] at away

/-- The kernel has no minor number left for the device. -/
def noMinor : Outcomes := ⟨fun r => r != .miscdev, fun _ => true⟩

theorem sampleBoot_fails : ∃ h,
    (host sampleKallsyms).step sampleBoot (.insmod sampleImage 0 noMinor) = some h ∧
      h.loaded = none := ⟨_, rfl, rfl⟩

def allGranted : Outcomes := ⟨fun _ => true, fun _ => true⟩

theorem sampleBoot_loads : ∃ h,
    (host sampleKallsyms).step sampleBoot (.insmod sampleImage 0 allGranted) = some h ∧
      h.loaded = some sampleImage ∧ h.online 1 = true := ⟨_, rfl, rfl, rfl⟩

/-- A processor comes back on line while the module is in. -/
theorem sampleBoot_online : ∃ h, (host sampleKallsyms).Run (Host.Possible sampleKallsyms) sampleBoot
      [.insmod sampleImage 0 allGranted, .offline 1, .online 1] h ∧
    h.loaded = some sampleImage ∧ h.online 1 = true ∧ h.since 1 = false := by
  obtain ⟨h, step, loaded, online⟩ := sampleBoot_loads
  have possible : sampleBoot.Possible sampleKallsyms (.insmod sampleImage 0 allGranted) :=
    ⟨rfl, rfl, sampleImage_fits⟩
  refine ⟨_, .cons possible step (.cons online rfl (.cons ?_ rfl (.nil _))), loaded, ?_, ?_⟩
  all_goals simp [Host.Possible]

theorem loaded_intercepts_online : ∃ h, (host sampleKallsyms).Run (Host.Possible sampleKallsyms)
      sampleBoot [.insmod sampleImage 0 allGranted, .offline 1, .online 1] h ∧
    h.online 1 = true ∧ h.lstar 1 = 0xffffffff81700000 ∧
    Host.Intercepts h.text.mem sampleImage 0xffffffffa0003000 0xffffffff81070000 := by
  obtain ⟨h, run, loaded, online, since⟩ := sampleBoot_online
  obtain ⟨lstar, -, -, symbol, found, iff⟩ :=
    Host.loaded_intercepts sampleBoot_booted run loaded 0xffffffffa0003000
  obtain rfl : 0xffffffff81070000 = symbol := Option.some.inj found
  refine ⟨h, run, online, ?_, iff.mpr (by decide)⟩
  rw [lstar 1 online, since]
  rfl

end PathArmor.Loading
