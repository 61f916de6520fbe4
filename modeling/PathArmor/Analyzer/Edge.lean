import Mathlib.Logic.Basic

namespace PathArmor.Analyzer

abbrev Address := UInt64
abbrev BlockId := Nat
abbrev EdgeId := Nat
abbrev FuncId := Nat

inductive ArmsEdgeType
  | directCall | indirectCall | interDirectJmp | interIndirectJmp
  | condTaken | condNotTaken | directJmp | indirectJmp | fallthrough | catchEdge
  | callFt   -- fallthrough after call instruction
  | ret | noEdge
  | fastpath -- simplified path, not a real edge in the binary
  | unknown
  deriving DecidableEq, Repr

def edgeTypeIsDirectCall : ArmsEdgeType → Bool
  | .directCall => true
  | _ => false

def edgeTypeIsIndirectCall : ArmsEdgeType → Bool
  | .indirectCall => true
  | _ => false

/-- An indirect jump counts as a call here, an indirect call does not. -/
def edgeTypeIsCall : ArmsEdgeType → Bool
  | .directCall | .indirectJmp => true
  | _ => false

def edgeTypeIsIndirect : ArmsEdgeType → Bool
  | .indirectJmp | .indirectCall | .interIndirectJmp => true
  | _ => false

structure ArmsEdge where
  source : BlockId
  target : BlockId
  type : ArmsEdgeType := .unknown
  hidden : Bool := false
  intraProcedural : Bool := true
  deriving DecidableEq, Repr

namespace ArmsEdge

/-- The types that leave a function mark the edge as interprocedural; no type marks it back. -/
def setType (e : ArmsEdge) (type : ArmsEdgeType) : ArmsEdge :=
  match type with
  | .directCall | .indirectCall | .ret | .interIndirectJmp | .interDirectJmp =>
      { e with type := type, intraProcedural := false }
  | _ => { e with type := type }

def setIntraprocedural (e : ArmsEdge) : ArmsEdge := { e with intraProcedural := true }

def setInterprocedural (e : ArmsEdge) : ArmsEdge := { e with intraProcedural := false }

def setHidden (e : ArmsEdge) (hidden : Bool) : ArmsEdge := { e with hidden := hidden }

def isIndirect (e : ArmsEdge) : Bool := edgeTypeIsIndirect e.type

def isReturn (e : ArmsEdge) : Bool := e.type == .ret

def isDirectCall (e : ArmsEdge) : Bool := edgeTypeIsDirectCall e.type

def isIndirectCall (e : ArmsEdge) : Bool := edgeTypeIsIndirectCall e.type

def isIndirectJump (e : ArmsEdge) : Bool := e.type == .interIndirectJmp || e.type == .indirectJmp

def isFastpath (e : ArmsEdge) : Bool := e.type == .fastpath

@[simp] theorem setType_source (e : ArmsEdge) (type : ArmsEdgeType) :
    (e.setType type).source = e.source := by cases type <;> rfl

@[simp] theorem setType_target (e : ArmsEdge) (type : ArmsEdgeType) :
    (e.setType type).target = e.target := by cases type <;> rfl

@[simp] theorem setType_type (e : ArmsEdge) (type : ArmsEdgeType) :
    (e.setType type).type = type := by cases type <;> rfl

end ArmsEdge

/-- What the processor records besides direct calls. -/
def edgeIsIndirect (e : ArmsEdge) : Bool := e.isIndirect || e.isReturn

def edgeIsDirectCall (e : ArmsEdge) : Bool := e.isDirectCall

def edgeIsReturn (e : ArmsEdge) : Bool := e.isReturn

def edgeIsCall (e : ArmsEdge) : Bool := e.type == .directCall || e.type == .indirectCall

def edgeIsFunctionExit (e : ArmsEdge) : Bool := edgeIsIndirect e || edgeIsReturn e || edgeIsCall e

def edgeIsHidden (e : ArmsEdge) : Bool := e.hidden

def edgeIsFastpath (e : ArmsEdge) : Bool := e.isFastpath

theorem edgeIsFunctionExit_eq (e : ArmsEdge) :
    edgeIsFunctionExit e = (edgeIsIndirect e || edgeIsDirectCall e) := by
  cases e with
  | mk source target type hidden intra => cases type <;> rfl

theorem edgeIsCall_functionExit {e : ArmsEdge} (call : edgeIsCall e) : edgeIsFunctionExit e := by
  simp [edgeIsFunctionExit, call]

theorem edgeIsReturn_functionExit {e : ArmsEdge} (ret : edgeIsReturn e) : edgeIsFunctionExit e := by
  simp [edgeIsFunctionExit, ret]

theorem edgeIsReturn_not_call {e : ArmsEdge} (ret : edgeIsReturn e) : edgeIsCall e = false := by
  simp_all [edgeIsReturn, ArmsEdge.isReturn, edgeIsCall]

end PathArmor.Analyzer
