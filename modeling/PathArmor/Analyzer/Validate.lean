import PathArmor.Analyzer.JitSearch
import PathArmor.Analyzer.LbrRing

/-!
# The validator

`jit_validate_lbr` looks up the entries of an LBR from the oldest on, learns some of the edges the
graph lacks, and searches a path through the edges it found. Between calls the daemon keeps the
graph, the static `last_lib_call` of `jit_normalize_addr` and the static call stack of the search.

`retouch` is Dyninst's new parse of an address, and `exitpoint` is `bsearch` in the table of exit
points.
-/

namespace PathArmor.Analyzer

def jitAddrUnknown : Address := 0xffffffffffffffff
def addressTaken : Address := 0xc477b4c8
def uninstrumentable : Address := 0x8000000000000000

structure Offsets where
  libs : List (Address × Address)
  indirectCallSource : Address
  loadFrom : Address
  armorLibEnter : Address
  armorLibReturn : Address
  pthreadCreate : Address
  pthreadCreateReturn : Address

structure Tables where
  offsets : Offsets
  pltGot : List (Address × Address)
  exitpoint : Address → Bool
  retouch : Address → Cfg → Cfg

inductive Verdict
  | invalid
  | valid
  | unsupported
  deriving DecidableEq, Repr

inductive Halt
  | aborted   -- the assertion in `jit_track_callstack`
  | crashed   -- a NULL pointer in `jit_add_plt_got_edge`
  | outOfFuel
  deriving DecidableEq, Repr

structure Daemon where
  cfg : Cfg
  lastLibCall : Address := jitAddrUnknown
  stack : List (Option BlockId) := []

/-! ## Addresses -/

/-- The normalized address and the new `last_lib_call`. -/
def jitNormalizeAddr (o : Offsets) (g : Cfg) (lastLibCall addr : Address) : Address × Address :=
  if g.addrInCfg addr then (addr, lastLibCall)
  else if addr = o.indirectCallSource then (addressTaken, lastLibCall)
  else if addr = o.loadFrom then (0, lastLibCall)
  else if addr = o.armorLibReturn then (lastLibCall, lastLibCall)
  else if addr = o.pthreadCreate ∨ addr = o.pthreadCreateReturn then
    match g.findLibDummyByName "pthread_create" with
    | none => (addr, lastLibCall)
    | some f => ((g.func f).baseAddr, lastLibCall)
  else if o.libs.any fun lib => lib.1 < addr && addr < lib.2 then (addr, addr)
  else (jitAddrUnknown, lastLibCall)

/-! ## Edges learned on the fly -/

namespace Cfg
variable (g : Cfg)

/-- The only way out of the source leads to a dummy block, and the target is in its function. -/
def allowsFromDummy (a b : Address) : Bool :=
  match g.findBbByLastInsnAddress a with
  | none => false
  | some source =>
      match g.outgoing source with
      | [f] =>
          (g.block (g.target f)).isDummy &&
            match g.findBb b with
            | none => false
            | some target => g.getFunction source == g.getFunction target
      | _ => false

/-- All ways out of the source are indirect jumps within its function. -/
def allowsFromJumps (a : Address) : Bool :=
  match g.findBbByLastInsnAddress a with
  | none => false
  | some source => g.intraProceduralIndirectJumpTargetsOnly source

def addIntraJump (a b : Address) : Cfg × EdgeId :=
  let added := g.createAndAddEdge a b
  ((added.1.setType added.2 .indirectJmp).setIntraprocedural added.2, added.2)

def intraJump (a b : Address) : Option (Cfg × EdgeId) :=
  if g.allowsFromDummy a b || g.allowsFromJumps a then some (g.addIntraJump a b) else none

def addInterEdge (a b : Address) (type : ArmsEdgeType) : Cfg × EdgeId :=
  let added := g.createAndAddEdge a b
  ((added.1.setType added.2 type).setInterprocedural added.2, added.2)

end Cfg

/-- A loop by index over an edge set, which is read again in every round and may grow. -/
def forEachEdge (edges : Cfg → List EdgeId) (body : Cfg → EdgeId → Option Cfg) :
    Nat → Nat → Cfg → Option Cfg
  | 0, _, _ => none
  | fuel + 1, i, g =>
      match (edges g)[i]? with
      | none => some g
      | some e => (body g e).bind (forEachEdge edges body fuel (i + 1))

def addRetEdge (base : Address) (g : Cfg) (cc : BlockId) : Cfg :=
  match g.getFallthroughBb cc with
  | none => g
  | some bb => (g.addInterEdge base (g.block bb).startAddress .ret).1

/-- For one edge `into` into a PLT entry: returns to where its source was called from, once for
each edge out of it that is not a call, and to its own continuation. -/
def addRetEdges (fuel : Nat) (base : Address) (g : Cfg) (into : EdgeId) : Option Cfg :=
  let cc := g.source into
  let callers := fun g => forEachEdge (·.incoming cc)
    (fun g caller => some (addRetEdge base g (g.source caller))) fuel 0 g
  (forEachEdge (·.outgoing cc)
    (fun g out => if edgeIsCall (g.edge out) then some g else callers g) fuel 0 g).map
      fun g => addRetEdge base g cc

def jitAddPltGotEdge (fuel : Nat) (g : Cfg) (a b : Address) : Except Halt (Option (Cfg × EdgeId)) :=
  match g.findFunction a with
  | none => .ok none
  | some plt =>
      if (g.func plt).isPlt then
        let shlib := g.createDummyFunction (g.func plt).funname b
        let edge := (shlib.1.setIsLibDummy shlib.2).addInterEdge a b .interIndirectJmp
        let base := (edge.1.func shlib.2).baseAddr
        match edge.1.findBb (edge.1.func plt).baseAddr with
        | none => .error .crashed
        | some bb =>
            match forEachEdge (·.incoming bb) (addRetEdges fuel base) fuel 0 edge.1 with
            | none => .error .outOfFuel
            | some g => .ok (some (g, edge.2))
      else .ok none

/-! ## The PLT and GOT tables -/

inductive PltGot
  | inPlt
  | unsupported
  | missing
  deriving DecidableEq

def scanPltGot (origA origB : Address) : List (Address × Address) → PltGot
  | [] => .missing
  | (plt, got) :: rest =>
      if plt = origA ∧ got = origB then .inPlt
      else if got &&& uninstrumentable ≠ 0 ∧ got = origB ||| uninstrumentable then .unsupported
      else scanPltGot origA origB rest

def precedingBb (g : Cfg) (b : Address) : Option BlockId :=
  (List.range 16).findSome? fun x => g.findBbByLastInsnAddress (b - UInt64.ofNat x)

def afterUnsupported (pltGot : List (Address × Address)) (g : Cfg) (b : Address) : Bool :=
  match precedingBb g b with
  | none => false
  | some bb => (g.outgoing bb).any fun e =>
      let start := (g.block (g.target e)).startAddress
      pltGot.any fun (plt, _) => plt &&& uninstrumentable != 0 && plt == start ||| uninstrumentable

/-! ## One entry -/

/-- The loop of `jit_validate_lbr` between two entries, with the edges found so far. -/
structure Progress where
  cfg : Cfg
  lastLibCall : Address
  edges : List EdgeId

inductive Stop
  | verdict (v : Verdict)
  | halt (h : Halt)
  deriving DecidableEq

section
variable (t : Tables) (fuel : Nat)

def Progress.found (s : Progress) (g : Cfg) (e : EdgeId) : Progress × Option Stop :=
  ({ s with cfg := g, edges := s.edges ++ [e] }, none)

def Progress.stop (s : Progress) (reason : Stop) : Progress × Option Stop := (s, some reason)

def normalizeEntry (s : Progress) (entry : Address × Address) : Progress × Address × Address :=
  let a := jitNormalizeAddr t.offsets s.cfg s.lastLibCall entry.1
  let b := jitNormalizeAddr t.offsets s.cfg a.2 entry.2
  ({ s with lastLibCall := b.2 }, a.1, b.1)

/-- A missing target in the main executable is parsed. -/
def retouched (g : Cfg) (a b : Address) : Cfg :=
  if g.findEdge a b = none ∧ g.findBb b = none ∧ b < 0x4000000 then t.retouch b g else g

def lookupPltGot (s : Progress) (entry : Address × Address) (a b : Address) :
    Progress × Option Stop :=
  match scanPltGot entry.1 entry.2 t.pltGot with
  | .unsupported => s.stop (.verdict .unsupported)
  | .missing =>
      s.stop (.verdict (if afterUnsupported t.pltGot s.cfg b then .unsupported else .invalid))
  | .inPlt =>
      match jitAddPltGotEdge fuel s.cfg a b with
      | .error h => s.stop (.halt h)
      | .ok none => s.stop (.verdict .invalid)
      | .ok (some (g, e)) => s.found g e

def lookupEdge (s : Progress) (entry : Address × Address) (a b : Address) :
    Progress × Option Stop :=
  match s.cfg.findEdge a b with
  | some e => s.found s.cfg e
  | none =>
      match s.cfg.intraJump a b with
      | some (g, e) => s.found g e
      | none => lookupPltGot t fuel s entry a b

def jitRound (s : Progress) (entry : Address × Address) : Progress × Option Stop :=
  let (s, a, b) := normalizeEntry t s entry
  if a = jitAddrUnknown ∨ b = jitAddrUnknown then s.stop (.verdict .invalid)
  else lookupEdge t fuel { s with cfg := retouched t s.cfg a b } entry a b

def jitRounds : List (Address × Address) → Progress → Progress × Option Stop
  | [], s => (s, none)
  | entry :: rest, s =>
      match jitRound t fuel s entry with
      | (s, none) => jitRounds rest s
      | stopped => stopped

/-! ## The whole LBR -/

/-- Branches of simple functions back from the library count as such. -/
def patchExits (lbr : Lbr) : Lbr :=
  { lbr with
    fromAddr := fun i =>
      if t.exitpoint (lbr.fromAddr i) then t.offsets.armorLibReturn else lbr.fromAddr i }

/-- A library return whose call is not in the LBR, or an empty entry. -/
def skips (lbr : Lbr) (i : Nat) : Bool :=
  let (a, b) := lbr.entry (lbrIndex lbr i)
  let before := lbr.entry (ringIndex (lbr.tos + UInt64.ofNat i))
  a = t.offsets.armorLibReturn && i = 0 ||
    a = t.offsets.armorLibReturn && before.1 = 0 && before.2 = 0 || a = 0 && b = 0

def lookups (lbr : Lbr) : List (Address × Address) :=
  ((List.range lbrEntries).filter fun i => !skips t lbr i).map fun i => lbr.entry (lbrIndex lbr i)

def prepared (lbr : Lbr) : Lbr :=
  patchExits t (removeLibEnterEdges lbr t.offsets.armorLibEnter).1

/-- The search starts from the first edge; with no edge it does not look at it. -/
def searchPath (d : Daemon) (s : Progress) : Except Halt (Verdict × Daemon) :=
  let d' : Daemon := { cfg := s.cfg, lastLibCall := s.lastLibCall, stack := [] }
  match s.cfg.jitPathExists s.cfg.searchFuel s.edges (s.edges.headD 0) (.start d.stack) with
  | .found => .ok (.valid, d')
  | .rejected _ => .ok (.invalid, d')
  | .aborted => .error .aborted
  | .outOfFuel => .error .outOfFuel

def jitValidateLbr (d : Daemon) (lbr : Lbr) : Except Halt (Verdict × Daemon) :=
  let s : Progress := { cfg := d.cfg, lastLibCall := d.lastLibCall, edges := [] }
  match jitRounds t fuel (lookups t (prepared t lbr)) s with
  | (s, none) => searchPath d s
  | (s, some (.verdict v)) =>
      .ok (v, { d with cfg := s.cfg, lastLibCall := s.lastLibCall })
  | (_, some (.halt h)) => .error h

end

end PathArmor.Analyzer
