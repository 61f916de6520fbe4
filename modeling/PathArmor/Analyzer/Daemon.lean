import PathArmor.Kernel.Tables

/-!
# The table the daemon works with

`run_lbr_state_analysis_daemon` gets the PLT/GOT table with three requests, one after the other. For
each LBR it gets the two halves again and compares them with its own. Any number of targets may push
a new table between two of its requests.
-/

namespace PathArmor.Analyzer
open PathArmor.Library PathArmor.Kernel

/-- A table as a successful `ARMOR_IOC_PUSH_PLTS` leaves it in the kernel. -/
structure Table where
  size : UInt64
  items : UInt64
  plts : List UInt8
  gots : List UInt8
  plts_length : plts.length = size.toNat
  gots_length : gots.length = size.toNat

inductive DaemonPhase
  | starting
  | copied        -- the four buffers are allocated
  | halfFetched   -- has the PLTs
  | idle          -- waits in `GET_JIT_WORK`
  | working
  | halfRefetched -- has the other PLTs
  | refetched
  | validating    -- in `jit_validate_lbr`
  | stopped
  deriving DecidableEq

/-- The buffers of `plt_got_copy` and `plt_got_another_copy`. -/
structure Buffers where
  plts : List UInt8
  gots : List UInt8
  otherPlts : List UInt8
  otherGots : List UInt8

def Buffers.Sized (buffers : Buffers) (size : UInt64) : Prop :=
  buffers.plts.length = size.toNat ∧ buffers.gots.length = size.toNat ∧
    buffers.otherPlts.length = size.toNat ∧ buffers.otherGots.length = size.toNat

instance (buffers : Buffers) (size : UInt64) : Decidable (buffers.Sized size) :=
  inferInstanceAs (Decidable (_ ∧ _))

structure DaemonState extends Buffers where
  phase : DaemonPhase
  size : UInt64
  items : UInt64

/-- The kernel and one daemon. `pushed` is not in the sources: all tables so far, the newest
first. -/
structure Session where
  table : Option Table := none
  pltAvailable : Nat := 0
  daemon : DaemonState
  pushed : List Table := []

inductive SessionEvent
  | push (table : Table)
  | pullPltCopy (malloc : Buffers)
  | pullPlts
  | pullGots
  | getJitWork
  | refetchPlts
  | refetchGots
  | compare
  | putJitWork

/-- The buffer after `copy_to_user` wrote to its start. What goes beyond its end is lost here. -/
def overwrite (buffer bytes : List UInt8) : List UInt8 :=
  (bytes ++ buffer.drop bytes.length).take buffer.length

namespace DaemonState

def pltsFetched (d : DaemonState) (plts : List UInt8) : DaemonState :=
  { d with phase := .halfFetched, plts := overwrite d.plts plts }

def gotsFetched (d : DaemonState) (gots : List UInt8) : DaemonState :=
  { d with phase := .idle, gots := overwrite d.gots gots }

def pltsRefetched (d : DaemonState) (plts : List UInt8) : DaemonState :=
  { d with phase := .halfRefetched, otherPlts := overwrite d.otherPlts plts }

def gotsRefetched (d : DaemonState) (gots : List UInt8) : DaemonState :=
  { d with phase := .refetched, otherGots := overwrite d.otherGots gots }

/-- Both calls of `memcmp` return 0. -/
def unchanged (d : DaemonState) : Bool := d.otherPlts == d.plts && d.otherGots == d.gots

def compared (d : DaemonState) : DaemonState :=
  { d with phase := if d.unchanged then .validating else .stopped }

end DaemonState

namespace Session

/-- A request of the daemon that the current table answers. -/
def pull (s : Session) (phase : DaemonPhase) (next : Table → DaemonState) : Option Session :=
  if s.daemon.phase = phase then s.table.map fun table => { s with daemon := next table } else none

/-- A part of the daemon's loop that does not look at the table. -/
def move (s : Session) (phase : DaemonPhase) (next : DaemonState) : Option Session :=
  if s.daemon.phase = phase then some { s with daemon := next } else none

def step (s : Session) : SessionEvent → Option Session
  | .push table => some { s with
      table := some table
      pltAvailable := s.pltAvailable + 1
      pushed := table :: s.pushed }
  | .pullPltCopy malloc =>
      match s.table with
      | some table =>
          if s.daemon.phase = .starting ∧ 0 < s.pltAvailable ∧ malloc.Sized table.size then
            some { s with
              pltAvailable := s.pltAvailable - 1
              daemon :=
                { malloc with phase := .copied, size := table.size, items := table.items } }
          else none
      | none => none
  | .pullPlts => s.pull .copied fun table => s.daemon.pltsFetched table.plts
  | .pullGots => s.pull .halfFetched fun table => s.daemon.gotsFetched table.gots
  | .getJitWork => s.move .idle { s.daemon with phase := .working }
  | .refetchPlts => s.pull .working fun table => s.daemon.pltsRefetched table.plts
  | .refetchGots => s.pull .halfRefetched fun table => s.daemon.gotsRefetched table.gots
  | .compare => s.move .refetched s.daemon.compared
  | .putJitWork => s.move .validating { s.daemon with phase := .idle }

end Session

def session : System Session SessionEvent where
  step := Session.step

/-- No target has started yet and neither has the analysis. -/
def Session.init : Session where
  daemon := { (⟨[], [], [], []⟩ : Buffers) with phase := .starting, size := 0, items := 0 }

/-! ## What the daemon is to be given -/

namespace Session

/-- What a request of the daemon writes, and the buffer it writes to. -/
def written (s : Session) (table : Table) : SessionEvent → Option (List UInt8 × List UInt8)
  | .pullPlts => some (table.plts, s.daemon.plts)
  | .pullGots => some (table.gots, s.daemon.gots)
  | .refetchPlts => some (table.plts, s.daemon.otherPlts)
  | .refetchGots => some (table.gots, s.daemon.otherGots)
  | _ => none

def Exact (s : Session) (e : SessionEvent) : Prop :=
  ∀ table bytes buffer, s.table = some table → s.written table e = some (bytes, buffer) →
    bytes.length = buffer.length

def FromOnePush (s : Session) (size : UInt64) (plts gots : List UInt8) : Prop :=
  ∃ table ∈ s.pushed, table.size = size ∧ table.plts = plts ∧ table.gots = gots

def Consistent (s : Session) : Prop :=
  s.daemon.phase = .validating → s.FromOnePush s.daemon.size s.daemon.plts s.daemon.gots

end Session

/-- The daemon may send another request for a part of the table. -/
def DaemonState.live (d : DaemonState) : Bool :=
  match d.phase with
  | .starting | .stopped => false
  | .refetched => d.unchanged
  | _ => true

/-- Once the daemon has the size of a table, the tables have that size. While it has the PLTs only,
the GOTs belong to these PLTs in some table. -/
def Session.Proper (s : Session) : SessionEvent → Prop
  | .push table => (s.daemon.live → table.size = s.daemon.size) ∧
      (s.daemon.phase = .halfFetched →
        ∃ whole ∈ table :: s.pushed, whole.size = s.daemon.size ∧ whole.plts = s.daemon.plts ∧
          whole.gots = table.gots)
  | _ => True

/-! ## Requests -/

theorem length_overwrite (buffer bytes : List UInt8) :
    (overwrite buffer bytes).length = buffer.length := by
  simp only [overwrite, List.length_take, List.length_append, List.length_drop]
  omega

theorem overwrite_of_length {buffer bytes : List UInt8} (same : bytes.length = buffer.length) :
    overwrite buffer bytes = bytes := by
  rw [overwrite, same, List.drop_length, List.append_nil, ← same, List.take_length]

def DaemonPhase.fetched : DaemonPhase → Bool
  | .idle | .working | .halfRefetched | .refetched | .validating => true
  | _ => false

namespace Session
variable {s s' : Session} {phase : DaemonPhase}

theorem pull_eq_some {next : Table → DaemonState} : s.pull phase next = some s' ↔
    s.daemon.phase = phase ∧ ∃ table, s.table = some table ∧
      { s with daemon := next table } = s' := by
  rw [pull, Option.ite_none_right_eq_some, Option.map_eq_some_iff]

theorem move_eq_some {next : DaemonState} : s.move phase next = some s' ↔
    s.daemon.phase = phase ∧ { s with daemon := next } = s' := by
  rw [move, Option.ite_none_right_eq_some, Option.some.injEq]

structure Sound (s : Session) : Prop where
  listed : ∀ table, s.table = some table → table ∈ s.pushed
  sized : s.daemon.phase ≠ .starting → s.daemon.Sized s.daemon.size
  current : s.daemon.live → ∃ table, s.table = some table ∧ table.size = s.daemon.size
  half : s.daemon.phase = .halfFetched → ∃ table, s.table = some table ∧
    s.FromOnePush s.daemon.size s.daemon.plts table.gots
  whole : s.daemon.phase.fetched → s.FromOnePush s.daemon.size s.daemon.plts s.daemon.gots

namespace Sound

theorem size (sound : s.Sound) (live : s.daemon.live) {table : Table}
    (current : s.table = some table) : table.size = s.daemon.size := by
  obtain ⟨table', current', size⟩ := sound.current live
  rw [current] at current'
  cases current'
  exact size

theorem push (sound : s.Sound) {table : Table} (proper : s.Proper (.push table))
    (step : s.step (.push table) = some s') : s'.Sound := by
  cases step
  refine ⟨?_, sound.sized, fun live => ⟨table, rfl, proper.1 live⟩,
    fun half => ⟨table, rfl, proper.2 half⟩, fun fetched => ?_⟩
  · intro table' current
    cases current
    exact List.mem_cons_self
  · obtain ⟨whole, mem, parts⟩ := sound.whole fetched
    exact ⟨whole, List.mem_cons_of_mem _ mem, parts⟩

theorem pullPltCopy (sound : s.Sound) {malloc : Buffers}
    (step : s.step (.pullPltCopy malloc) = some s') : s'.Sound := by
  simp only [Session.step] at step
  split at step
  · rename_i table current
    simp only [Option.ite_none_right_eq_some, Option.some.injEq] at step
    obtain ⟨⟨-, -, sized⟩, rfl⟩ := step
    exact ⟨sound.listed, fun _ => sized, fun _ => ⟨table, current, rfl⟩, nofun, nofun⟩
  · cases step

theorem fits (sound : s.Sound) (live : s.daemon.live) {table : Table}
    (current : s.table = some table) {buffer bytes : List UInt8}
    (sized : buffer.length = s.daemon.size.toNat) (length : bytes.length = table.size.toNat) :
    bytes.length = buffer.length := by
  rw [length, sized, sound.size live current]

theorem pullPlts (sound : s.Sound) (step : s.step .pullPlts = some s') : s'.Sound := by
  obtain ⟨phase, table, current, rfl⟩ := pull_eq_some.mp step
  have live : s.daemon.live := by simp [DaemonState.live, phase]
  have size := sound.size live current
  obtain ⟨plts, gots, others⟩ := sound.sized (by simp [phase])
  refine ⟨sound.listed, fun _ => ⟨?_, gots, others⟩, fun _ => ⟨table, current, size⟩,
    fun _ => ⟨table, current, table, sound.listed table current, size, ?_, rfl⟩, nofun⟩
  · exact (length_overwrite _ _).trans plts
  · exact (overwrite_of_length (sound.fits live current plts table.plts_length)).symm

theorem pullGots (sound : s.Sound) (step : s.step .pullGots = some s') : s'.Sound := by
  obtain ⟨phase, table, current, rfl⟩ := pull_eq_some.mp step
  have live : s.daemon.live := by simp [DaemonState.live, phase]
  have size := sound.size live current
  obtain ⟨plts, gots, others⟩ := sound.sized (by simp [phase])
  refine ⟨sound.listed, fun _ => ⟨plts, ?_, others⟩, fun _ => ⟨table, current, size⟩, nofun,
    fun _ => ?_⟩
  · exact (length_overwrite _ _).trans gots
  · obtain ⟨table', current', whole⟩ := sound.half phase
    rw [current] at current'
    cases current'
    rwa [← overwrite_of_length (sound.fits live current gots table.gots_length)] at whole

theorem loop (sound : s.Sound) (fetched : s.daemon.phase.fetched) {d : DaemonState}
    (own : d.size = s.daemon.size ∧ d.plts = s.daemon.plts ∧ d.gots = s.daemon.gots)
    (others : d.otherPlts.length = s.daemon.otherPlts.length ∧
      d.otherGots.length = s.daemon.otherGots.length)
    (live : d.live → s.daemon.live) (phase : d.phase ≠ .halfFetched) :
    Sound { s with daemon := d } := by
  have started : s.daemon.phase ≠ .starting := by
    intro starting
    simp [starting, DaemonPhase.fetched] at fetched
  obtain ⟨size, plts, gots⟩ := own
  have sized := sound.sized started
  refine ⟨sound.listed, fun _ => ?_, fun alive => ?_, fun half => absurd half phase, fun _ => ?_⟩
  · simpa only [Buffers.Sized, size, plts, gots, others.1, others.2] using sized
  · simpa only [size] using sound.current (live alive)
  · rw [size, plts, gots]
    exact sound.whole fetched

theorem step (sound : s.Sound) {e : SessionEvent} (proper : s.Proper e)
    (step : s.step e = some s') : s'.Sound := by
  cases e with
  | push table => exact sound.push proper step
  | pullPltCopy malloc => exact sound.pullPltCopy step
  | pullPlts => exact sound.pullPlts step
  | pullGots => exact sound.pullGots step
  | getJitWork =>
      obtain ⟨phase, rfl⟩ := move_eq_some.mp step
      refine sound.loop ?_ ⟨rfl, rfl, rfl⟩ ⟨rfl, rfl⟩ ?_ ?_ <;>
        simp [phase, DaemonPhase.fetched, DaemonState.live]
  | refetchPlts =>
      obtain ⟨phase, table, current, rfl⟩ := pull_eq_some.mp step
      refine sound.loop ?_ ⟨rfl, rfl, rfl⟩ ⟨length_overwrite _ _, rfl⟩ ?_ ?_ <;>
        simp [phase, DaemonPhase.fetched, DaemonState.live, DaemonState.pltsRefetched]
  | refetchGots =>
      obtain ⟨phase, table, current, rfl⟩ := pull_eq_some.mp step
      refine sound.loop ?_ ⟨rfl, rfl, rfl⟩ ⟨rfl, length_overwrite _ _⟩ ?_ ?_ <;>
        simp [phase, DaemonPhase.fetched, DaemonState.live, DaemonState.gotsRefetched]
  | compare =>
      obtain ⟨phase, rfl⟩ := move_eq_some.mp step
      refine sound.loop ?_ ⟨rfl, rfl, rfl⟩ ⟨rfl, rfl⟩ ?_ ?_ <;>
        cases same : s.daemon.unchanged <;>
        simp [phase, DaemonPhase.fetched, DaemonState.live, DaemonState.compared, same]
  | putJitWork =>
      obtain ⟨phase, rfl⟩ := move_eq_some.mp step
      refine sound.loop ?_ ⟨rfl, rfl, rfl⟩ ⟨rfl, rfl⟩ ?_ ?_ <;>
        simp [phase, DaemonPhase.fetched, DaemonState.live]

theorem consistent (sound : s.Sound) : s.Consistent := by
  intro validating
  exact sound.whole (by simp [validating, DaemonPhase.fetched])

theorem exact_pull (sound : s.Sound) {e : SessionEvent} (step : s.step e = some s') :
    s.Exact e := by
  intro table bytes buffer current written
  cases e with
  | pullPlts =>
      obtain ⟨phase, -⟩ := pull_eq_some.mp step
      cases written
      exact sound.fits (by simp [DaemonState.live, phase]) current
        (sound.sized (by simp [phase])).1 table.plts_length
  | pullGots =>
      obtain ⟨phase, -⟩ := pull_eq_some.mp step
      cases written
      exact sound.fits (by simp [DaemonState.live, phase]) current
        (sound.sized (by simp [phase])).2.1 table.gots_length
  | refetchPlts =>
      obtain ⟨phase, -⟩ := pull_eq_some.mp step
      cases written
      exact sound.fits (by simp [DaemonState.live, phase]) current
        (sound.sized (by simp [phase])).2.2.1 table.plts_length
  | refetchGots =>
      obtain ⟨phase, -⟩ := pull_eq_some.mp step
      cases written
      exact sound.fits (by simp [DaemonState.live, phase]) current
        (sound.sized (by simp [phase])).2.2.2 table.gots_length
  | _ => cases written

end Sound

theorem init_sound : init.Sound :=
  ⟨nofun, fun started => absurd rfl started, nofun, nofun, nofun⟩

theorem run_sound {events : List SessionEvent}
    (run : session.Run (fun s e => s.Proper e) init events s) : s.Sound :=
  run.invariant (fun _ _ _ sound proper step => Sound.step sound proper step) init_sound

/-! ## Other pushes -/

/-- The daemon gets a wrong number of bytes, or validates with halves of two tables. -/
def Harmed (s : Session) : Prop :=
  ¬ s.Consistent ∨ ∃ e s', s.step e = some s' ∧ ¬ s.Exact e

theorem harmed_of_pulling {table : Table} (current : s.table = some table)
    (sized : s.daemon.Sized s.daemon.size) (size : table.size ≠ s.daemon.size)
    (phase : s.daemon.phase = .copied ∨ s.daemon.phase = .halfFetched ∨
      s.daemon.phase = .working ∨ s.daemon.phase = .halfRefetched) : s.Harmed := by
  have differ {bytes buffer : List UInt8} (bytes_length : bytes.length = table.size.toNat)
      (buffer_length : buffer.length = s.daemon.size.toNat) : bytes.length ≠ buffer.length := by
    rw [bytes_length, buffer_length]
    exact fun same => size (UInt64.toNat_inj.mp same)
  right
  rcases phase with phase | phase | phase | phase
  · refine ⟨.pullPlts, _, pull_eq_some.mpr ⟨phase, table, current, rfl⟩, fun fits => ?_⟩
    exact differ table.plts_length sized.1 (fits table _ _ current rfl)
  · refine ⟨.pullGots, _, pull_eq_some.mpr ⟨phase, table, current, rfl⟩, fun fits => ?_⟩
    exact differ table.gots_length sized.2.1 (fits table _ _ current rfl)
  · refine ⟨.refetchPlts, _, pull_eq_some.mpr ⟨phase, table, current, rfl⟩, fun fits => ?_⟩
    exact differ table.plts_length sized.2.2.1 (fits table _ _ current rfl)
  · refine ⟨.refetchGots, _, pull_eq_some.mpr ⟨phase, table, current, rfl⟩, fun fits => ?_⟩
    exact differ table.gots_length sized.2.2.2 (fits table _ _ current rfl)

variable (s') in
theorem harmed_of_size (sound : s.Sound) (live : s.daemon.live) {table : Table}
    (current : s'.table = some table) (daemon : s'.daemon = s.daemon)
    (size : table.size ≠ s.daemon.size) :
    ∃ later s'', session.exec s' later = some s'' ∧ s''.Harmed := by
  have sized : s.daemon.Sized s.daemon.size := by
    apply sound.sized
    intro starting
    simp [DaemonState.live, starting] at live
  rw [← daemon] at live sized size
  cases phase : s'.daemon.phase with
  | starting | stopped => simp [DaemonState.live, phase] at live
  | copied | halfFetched | working | halfRefetched =>
      exact ⟨[], s', rfl, harmed_of_pulling current sized size (by simp [phase])⟩
  | idle =>
      refine ⟨[.getJitWork], { s' with daemon := { s'.daemon with phase := .working } }, ?_, ?_⟩
      · simp [System.exec, session, step, move, phase]
      · exact harmed_of_pulling current sized size (by simp)
  | refetched =>
      have same : s'.daemon.unchanged := by simpa [DaemonState.live, phase] using live
      refine ⟨[.compare, .putJitWork, .getJitWork],
        { s' with daemon := { s'.daemon with phase := .working } }, ?_, ?_⟩
      · simp [System.exec, session, step, move, phase, DaemonState.compared, same]
      · exact harmed_of_pulling current sized size (by simp)
  | validating =>
      refine ⟨[.putJitWork, .getJitWork],
        { s' with daemon := { s'.daemon with phase := .working } }, ?_, ?_⟩
      · simp [System.exec, session, step, move, phase]
      · exact harmed_of_pulling current sized size (by simp)

theorem harmed_of_gots (sound : s.Sound) (phase : s.daemon.phase = .halfFetched) {table : Table}
    (size : table.size = s.daemon.size)
    (apart : ∀ whole ∈ table :: s.pushed, whole.size = s.daemon.size →
      whole.plts = s.daemon.plts → whole.gots ≠ table.gots) :
    ∃ later s', session.exec s (.push table :: later) = some s' ∧ s'.Harmed := by
  obtain ⟨-, -, whole, mem, wholeSize, wholePlts, -⟩ := sound.half phase
  obtain ⟨plts, gots, otherPlts, otherGots⟩ := sound.sized (by simp [phase])
  have fetchGots : overwrite s.daemon.gots table.gots = table.gots :=
    overwrite_of_length (by rw [table.gots_length, size, gots])
  have refetchPlts : overwrite s.daemon.otherPlts s.daemon.plts = s.daemon.plts :=
    overwrite_of_length (by rw [plts, otherPlts])
  have refetchGots : overwrite s.daemon.otherGots table.gots = table.gots :=
    overwrite_of_length (by rw [table.gots_length, size, otherGots])
  refine ⟨[.pullGots, .getJitWork, .push whole, .refetchPlts, .push table, .refetchGots, .compare],
    { s with
      table := some table
      pltAvailable := s.pltAvailable + 3
      pushed := table :: whole :: table :: s.pushed
      daemon := { s.daemon with
        phase := .validating
        gots := table.gots
        otherPlts := s.daemon.plts
        otherGots := table.gots } }, ?_, .inl fun consistent => ?_⟩
  · simp [System.exec, session, step, move, pull, phase, DaemonState.gotsFetched,
      DaemonState.pltsRefetched, DaemonState.gotsRefetched, DaemonState.compared,
      DaemonState.unchanged, fetchGots, refetchPlts, refetchGots, wholePlts]
  · obtain ⟨other, listed, otherSize, otherPlts, otherGots⟩ := consistent rfl
    apply apart other _ otherSize otherPlts otherGots
    simp only [List.mem_cons] at listed ⊢
    rcases listed with rfl | rfl | rfl | older
    · exact .inl rfl
    · exact .inr mem
    · exact .inl rfl
    · exact .inr older

/-- As long as every push is proper, each request fills the daemon's buffer exactly and the table
it validates with is one that was pushed. After any other push the run can go on so that it does
not. -/
theorem snapshot_of_proper {events : List SessionEvent}
    (run : session.Run (fun s e => s.Proper e) init events s) :
    (s.Consistent ∧ ∀ e s', s.step e = some s' → s.Exact e) ∧
      ∀ table, ¬ s.Proper (.push table) →
        ∃ later s', session.exec s (.push table :: later) = some s' ∧ s'.Harmed := by
  have sound := run_sound run
  refine ⟨⟨sound.consistent, fun e s' step => sound.exact_pull step⟩, fun table improper => ?_⟩
  by_cases sizes : s.daemon.live → table.size = s.daemon.size
  · have apart : ¬ _ := fun half => improper ⟨sizes, half⟩
    simp only [Classical.not_imp, not_exists, not_and] at apart
    obtain ⟨phase, apart⟩ := apart
    exact harmed_of_gots sound phase (sizes (by simp [DaemonState.live, phase])) apart
  · obtain ⟨live, size⟩ := Classical.not_imp.mp sizes
    exact harmed_of_size { s with
      table := some table
      pltAvailable := s.pltAvailable + 1
      pushed := table :: s.pushed } sound live rfl rfl size

def oneTable : Table := ⟨1, 0, [1], [1], rfl, rfl⟩

def otherTable : Table := ⟨1, 0, [2], [2], rfl, rfl⟩

def largerTable : Table := ⟨2, 0, [3, 3], [3, 3], rfl, rfl⟩

def blank : Buffers := ⟨[0], [0], [0], [0]⟩

theorem snapshot_of_proper_once :
    ∃ s, session.Run (fun s e => s.Proper e) init
        [.push oneTable, .pullPltCopy blank, .pullPlts, .pullGots, .getJitWork, .refetchPlts,
          .refetchGots, .compare] s ∧
      s.FromOnePush 1 [1] [1] := by
  have run : ∃ s, session.Run (fun s e => s.Proper e) init
      [.push oneTable, .pullPltCopy blank, .pullPlts, .pullGots, .getJitWork, .refetchPlts,
        .refetchGots, .compare] s ∧
      s.daemon.phase = .validating ∧ s.daemon.size = 1 ∧ s.daemon.plts = [1] ∧
      s.daemon.gots = [1] :=
    ⟨_, .cons ⟨nofun, nofun⟩ rfl (.cons trivial rfl (.cons trivial rfl (.cons trivial rfl
      (.cons trivial rfl (.cons trivial rfl (.cons trivial rfl (.cons trivial rfl (.nil _)))))))),
      rfl, rfl, rfl, rfl⟩
  obtain ⟨s, run, validating, size, plts, gots⟩ := run
  have whole := (snapshot_of_proper run).1.1 validating
  rw [size, plts, gots] at whole
  exact ⟨s, run, whole⟩

/-- A larger table arrives after the daemon has asked for the size; two tables of one size take
turns. -/
theorem mixed_snapshot :
    (∃ s s', session.exec init [.push oneTable, .pullPltCopy blank, .push largerTable] = some s ∧
      s.step .pullPlts = some s' ∧ ¬ s.Exact .pullPlts) ∧
    ∃ s, session.exec init
        [.push oneTable, .pullPltCopy blank, .pullPlts, .push otherTable, .pullGots, .getJitWork,
          .push oneTable, .refetchPlts, .push otherTable, .refetchGots, .compare] = some s ∧
      s.daemon.phase = .validating ∧ ¬ s.Consistent := by
  refine ⟨⟨_, _, rfl, rfl, fun fits => ?_⟩, ⟨_, rfl, rfl, fun consistent => ?_⟩⟩
  · have length := fits largerTable _ _ rfl rfl
    cases length
  · obtain ⟨table, listed, -, plts, gots⟩ := consistent rfl
    change table ∈ [otherTable, oneTable, otherTable, oneTable] at listed
    simp only [List.mem_cons, List.not_mem_nil, or_false] at listed
    rcases listed with rfl | rfl | rfl | rfl
    · cases plts
    · cases gots
    · cases plts
    · cases gots

end Session

/-! ## The kernel's side

The table of a session is what `plt_got_copy` and the memory it points to amount to, as long as all
pushes succeed.
-/

/-- What a successful push brings. -/
def PushPlts.table? (push : PushPlts) : Option Table :=
  if lengths : push.plts.data.value.length = push.descriptor.value.size.toNat ∧
      push.gots.data.value.length = push.descriptor.value.size.toNat then
    some {
      size := push.descriptor.value.size
      items := push.descriptor.value.items
      plts := push.plts.data.value
      gots := push.gots.data.value
      plts_length := lengths.1
      gots_length := lengths.2 }
  else none

inductive LiveEvent
  | push (push : PushPlts)
  | request (e : SessionEvent)

def LiveEvent.session : LiveEvent → Option SessionEvent
  | .push new => (PushPlts.table? new).map .push
  | .request e => some e

/-- What the daemon's buffer receives. -/
def copied (kernel : Tables) (e : TableIoctl) : Option (List UInt8) :=
  match kernel.ioctl e with
  | some (_, .memory address size) => (kernel.heap address).map (List.take size.toNat)
  | _ => none

def livePull (s : Tables × DaemonState) (phase : DaemonPhase) (e : TableIoctl)
    (next : List UInt8 → DaemonState) : Option (Tables × DaemonState) :=
  if s.2.phase = phase then (copied s.1 e).map fun bytes => (s.1, next bytes) else none

def liveMove (s : Tables × DaemonState) (phase : DaemonPhase) (next : DaemonState) :
    Option (Tables × DaemonState) :=
  if s.2.phase = phase then some (s.1, next) else none

def liveStep (s : Tables × DaemonState) : LiveEvent → Option (Tables × DaemonState)
  | .push push => some ((s.1.pushPlts push).1, s.2)
  | .request (.push _) => none
  | .request (.pullPltCopy malloc) =>
      match s.1.ioctl (.pullPltCopy false) with
      | some (kernel, .pltGotCopy copy) =>
          if s.2.phase = .starting ∧ malloc.Sized copy.size then
            some (kernel,
              { malloc with phase := .copied, size := copy.size, items := copy.items })
          else none
      | _ => none
  | .request .pullPlts => livePull s .copied .pullPlts s.2.pltsFetched
  | .request .pullGots => livePull s .halfFetched .pullGots s.2.gotsFetched
  | .request .getJitWork => liveMove s .idle { s.2 with phase := .working }
  | .request .refetchPlts => livePull s .working .pullPlts s.2.pltsRefetched
  | .request .refetchGots => livePull s .halfRefetched .pullGots s.2.gotsRefetched
  | .request .compare => liveMove s .refetched s.2.compared
  | .request .putJitWork => liveMove s .validating { s.2 with phase := .idle }

def live : System (Tables × DaemonState) LiveEvent where
  step := liveStep

structure Describes (kernel : Tables) (table : Table) : Prop where
  size : kernel.pltGotCopy.size = table.size
  items : kernel.pltGotCopy.items = table.items
  plts : kernel.heap kernel.pltGotCopy.plts = some table.plts
  gots : kernel.heap kernel.pltGotCopy.gots = some table.gots

structure Shows (kernel : Tables) (s : Session) : Prop where
  available : kernel.pltAvailable = s.pltAvailable
  table : ∀ table, s.table = some table → Describes kernel table
  empty : s.table = none → s.pltAvailable = 0 ∧ s.daemon.phase = .starting

section
variable {kernel : Tables} {table : Table} {s : Session} {d : DaemonState}

theorem describes_push {push : PushPlts} (succeeds : push.succeeds)
    (possible : push.Possible kernel.heap) (brought : PushPlts.table? push = some table) :
    Describes (kernel.pushPlts push).1 table ∧
      (kernel.pushPlts push).1.pltAvailable = kernel.pltAvailable + 1 := by
  obtain ⟨plts, gots, buffer, buffer', pushed⟩ := Tables.pushPlts_ok (s := kernel) succeeds
  simp only [PushPlts.table?, Option.dite_none_right_eq_some, Option.some.injEq] at brought
  obtain ⟨lengths, rfl⟩ := brought
  rw [pushed]
  refine ⟨⟨rfl, rfl, ?_, Fetch.fetched buffer'⟩, rfl⟩
  exact possible.2.extends _ _ (Fetch.fetched buffer)

theorem Describes.copied_plts (describes : Describes kernel table) :
    copied kernel .pullPlts = some table.plts := by
  simp [copied, Tables.ioctl, describes.plts, describes.size, ← table.plts_length]

theorem Describes.copied_gots (describes : Describes kernel table) :
    copied kernel .pullGots = some table.gots := by
  simp [copied, Tables.ioctl, describes.gots, describes.size, ← table.gots_length]

def AllPushed (s : Tables × DaemonState) : LiveEvent → Prop
  | .push push => push.succeeds ∧ push.Possible s.1.heap
  | .request _ => True

theorem exists_table {push : PushPlts} {heap : Heap} (possible : push.Possible heap) :
    ∃ table, PushPlts.table? push = some table := by
  rw [PushPlts.table?, dif_pos ⟨possible.1.1, possible.2.1⟩]
  exact ⟨_, rfl⟩

theorem Shows.push (shows' : Shows kernel s) {push : PushPlts} (succeeds : push.succeeds)
    (possible : push.Possible kernel.heap) (brought : PushPlts.table? push = some table) :
    Shows (kernel.pushPlts push).1 { s with
      table := some table
      pltAvailable := s.pltAvailable + 1
      pushed := table :: s.pushed } := by
  obtain ⟨describes, available⟩ := describes_push succeeds possible brought
  refine ⟨by rw [available, shows'.available], fun table' current => ?_, nofun⟩
  cases current
  exact describes

theorem Shows.daemon (shows' : Shows kernel s) (phase : s.daemon.phase ≠ .starting)
    (d : DaemonState) : Shows kernel { s with daemon := d } :=
  ⟨shows'.available, shows'.table, fun none => absurd (shows'.empty none).2 phase⟩

theorem Shows.current (shows' : Shows kernel s) (phase : s.daemon.phase ≠ .starting) :
    ∃ table, s.table = some table ∧ Describes kernel table := by
  cases current : s.table with
  | none => exact absurd (shows'.empty current).2 phase
  | some table => exact ⟨table, rfl, shows'.table table current⟩

theorem Shows.move (shows' : Shows kernel s) {phase : DaemonPhase} {next : DaemonState}
    {after : Tables × DaemonState} (started : phase ≠ .starting)
    (step : liveMove (kernel, s.daemon) phase next = some after) :
    ∃ s', s.move phase next = some s' ∧ s'.daemon = after.2 ∧ Shows after.1 s' := by
  simp only [liveMove, Option.ite_none_right_eq_some, Option.some.injEq] at step
  obtain ⟨at', rfl⟩ := step
  exact ⟨_, Session.move_eq_some.mpr ⟨at', rfl⟩, rfl, shows'.daemon (at' ▸ started) next⟩

theorem Shows.pull (shows' : Shows kernel s) {phase : DaemonPhase} {e : TableIoctl}
    {next : List UInt8 → DaemonState} {part : Table → List UInt8} {after : Tables × DaemonState}
    (started : phase ≠ .starting)
    (answer : ∀ table, Describes kernel table → copied kernel e = some (part table))
    (step : livePull (kernel, s.daemon) phase e next = some after) :
    ∃ s', s.pull phase (fun table => next (part table)) = some s' ∧ s'.daemon = after.2 ∧
      Shows after.1 s' := by
  simp only [livePull, Option.ite_none_right_eq_some, Option.map_eq_some_iff] at step
  obtain ⟨at', bytes, received, rfl⟩ := step
  obtain ⟨table, current, describes⟩ := shows'.current (at' ▸ started)
  rw [answer table describes] at received
  cases received
  exact ⟨_, Session.pull_eq_some.mpr ⟨at', table, current, rfl⟩, rfl,
    shows'.daemon (at' ▸ started) _⟩

theorem Shows.pullPltCopy (shows' : Shows kernel s) {malloc : Buffers}
    {after : Tables × DaemonState}
    (step : liveStep (kernel, s.daemon) (.request (.pullPltCopy malloc)) = some after) :
    ∃ s', s.step (.pullPltCopy malloc) = some s' ∧ s'.daemon = after.2 ∧ Shows after.1 s' := by
  simp only [liveStep, Tables.ioctl] at step
  split at step
  · rename_i kernel' copy answer
    simp only [Option.ite_none_right_eq_some, Option.some.injEq, Prod.mk.injEq,
      Reply.pltGotCopy.injEq] at answer step
    obtain ⟨up, rfl, rfl⟩ := answer
    obtain ⟨⟨starting, sized⟩, rfl⟩ := step
    have available : 0 < s.pltAvailable := shows'.available ▸ up
    cases current : s.table with
    | none => simp [(shows'.empty current).1] at available
    | some table =>
        have describes := shows'.table table current
        rw [describes.size] at sized
        refine ⟨{ s with
          pltAvailable := s.pltAvailable - 1
          daemon := { malloc with phase := .copied, size := table.size, items := table.items } },
          ?_, ?_, ?_⟩
        · simp [Session.step, current, starting, available, sized]
        · simp [describes.size, describes.items]
        · refine ⟨by simp [shows'.available], fun table' current' => ?_, fun none => ?_⟩
          · have describes' := shows'.table table' current'
            exact ⟨describes'.size, describes'.items, describes'.plts, describes'.gots⟩
          · simp [current] at none
  · cases step

theorem Shows.request (shows' : Shows kernel s) {e : SessionEvent} {after : Tables × DaemonState}
    (step : liveStep (kernel, s.daemon) (.request e) = some after) :
    ∃ s', s.step e = some s' ∧ s'.daemon = after.2 ∧ Shows after.1 s' := by
  cases e with
  | push table => cases step
  | pullPltCopy malloc => exact shows'.pullPltCopy step
  | pullPlts => exact shows'.pull (by decide) (fun _ => Describes.copied_plts) step
  | pullGots => exact shows'.pull (by decide) (fun _ => Describes.copied_gots) step
  | getJitWork => exact shows'.move (by decide) step
  | refetchPlts => exact shows'.pull (by decide) (fun _ => Describes.copied_plts) step
  | refetchGots => exact shows'.pull (by decide) (fun _ => Describes.copied_gots) step
  | compare => exact shows'.move (by decide) step
  | putJitWork => exact shows'.move (by decide) step

/-- The kernel and the daemon do what a session does. -/
theorem live_refines_session {events : List LiveEvent}
    (run : live.Run AllPushed ({}, Session.init.daemon) events (kernel, d)) :
    ∃ s, session.exec Session.init (events.filterMap LiveEvent.session) = some s ∧
      s.daemon = d ∧ Shows kernel s := by
  apply run.history (P := fun past after => ∃ s,
    session.exec Session.init (past.filterMap LiveEvent.session) = some s ∧
      s.daemon = after.2 ∧ Shows after.1 s) []
  · rintro past ⟨kernel, d⟩ e after ⟨s, executed, rfl, shows'⟩ pushed step
    rw [List.filterMap_append, System.exec_append, executed, Option.bind_some]
    cases e with
    | push new =>
        obtain ⟨succeeds, possible⟩ := pushed
        obtain ⟨table, brought⟩ := exists_table possible
        cases step
        have shown := shows'.push succeeds possible brought
        refine ⟨_, ?_, ?_, shown⟩
        · simp [LiveEvent.session, brought, System.exec, session, Session.step]
        · rfl
    | request e =>
        obtain ⟨s', stepped, daemon, shown⟩ := shows'.request step
        exact ⟨s', by simp [LiveEvent.session, System.exec, session, stepped], daemon, shown⟩
  · refine ⟨Session.init, rfl, rfl, rfl, ?_, fun _ => ⟨rfl, rfl⟩⟩
    intro table impossible
    cases impossible

end

end PathArmor.Analyzer
