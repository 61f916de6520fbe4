import PathArmor.LbrState

namespace PathArmor.Kernel

structure Msrs where
  debugctl : UInt64
  select : UInt64
  tos : UInt64
  fromAddr : Fin lbrEntries → UInt64
  toAddr : Fin lbrEntries → UInt64

def ia32Debugctl : UInt64 := 0x1
def lbrSelect : UInt64 := 0x185

/-- The sign overwrites the three flags. -/
def lbrFrom (x : UInt64) : UInt64 := ((x.toInt64 <<< 3) >>> 3).toUInt64

def flushLbr (enable : Bool) (cpu : Msrs) : Msrs where
  debugctl := if enable then ia32Debugctl else 0
  select := cpu.select
  tos := 0
  fromAddr _ := 0
  toAddr _ := 0

def enableLbr (cpu : Msrs) : Msrs := flushLbr true { cpu with select := lbrSelect }

/-- The `task` of the structure that is filled stays as it is. -/
def getLbr (cpu : Msrs) (lbr : Lbr) : Lbr where
  debug := cpu.debugctl
  select := cpu.select
  tos := cpu.tos
  fromAddr k := lbrFrom (cpu.fromAddr k)
  toAddr := cpu.toAddr
  task := lbr.task

def putLbr (lbr : Lbr) : Msrs where
  debugctl := lbr.debug
  select := lbr.select
  tos := lbr.tos
  fromAddr := lbr.fromAddr
  toAddr := lbr.toAddr

def Msrs.saved (cpu : Msrs) : Msrs := { cpu with fromAddr k := lbrFrom (cpu.fromAddr k) }

@[simp] theorem putLbr_getLbr (cpu : Msrs) (lbr : Lbr) : putLbr (getLbr cpu lbr) = cpu.saved := rfl

end PathArmor.Kernel
