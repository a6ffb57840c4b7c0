import Swindle.WordMemory
import Swindle.Interference

/-!
# The clock tree

The code of stage one that sets up the clocks and takes them back is a list of reads
and writes, in the order of the source. The oscillators and the PLL settle in their
own time, and the system clock moves to the selected source once that runs.
-/

set_option autoImplicit false

namespace Swindle.ClockTree
open Swindle.WordMemory Swindle.Interference

/-- The registers that the code writes, the wait states of the flash and the variable
`SystemCoreClock`. -/
inductive Cell where
  | ctl
  | cfg0
  | int
  | cfg1
  | ws
  | systemCoreClock
  deriving DecidableEq, Repr

def ctlIrc8men : Word := 1 <<< 0
def ctlIrc8mstb : Word := 1 <<< 1
def ctlHxtalen : Word := 1 <<< 16
def ctlHxtastb : Word := 1 <<< 17
def ctlPllen : Word := 1 <<< 24
def ctlPllstb : Word := 1 <<< 25

def cfg0SysclockMask : Word := 3
def cfg0SysclockPll : Word := 1 <<< 1
def cfg0SysclockIrc8 : Word := 0
def cfg0Pllsel : Word := 1 <<< 16
def cfg0Prediv : Word := 1 <<< 17
def cfg0UsbpscMask : Word := ~~~(3 <<< 22)
def cfg0Usbpsc (x : Word) : Word := (x &&& 3) <<< 22
def cfg0PllmulMask : Word := 0xf <<< 18
def cfg0Pllmul (x : Word) : Word := x <<< 18
def cfg0AhbMask : Word := 0xf <<< 4
def cfg0AhbDiv (x : Word) : Word := x <<< 4
def cfg0Apb1Mask : Word := 7 <<< 8
def cfg0Apb1Div (x : Word) : Word := x <<< 8
def cfg0Apb2Mask : Word := 7 <<< 11
def cfg0Apb2Div (x : Word) : Word := x <<< 11

def wsLatency2 : Word := 2

/-- The two bits in which the hardware shows the source that drives the system clock. -/
def cfg0SysclockStatus : Word := 0xC

/-- The bits that only the hardware writes. -/
def statusBits : Cell → Word
  | .ctl => ctlIrc8mstb ||| ctlHxtastb ||| ctlPllstb
  | .cfg0 => cfg0SysclockStatus
  | _ => 0

/-- `t` is the local variable or the register of the processor that a value is in on its way. -/
structure Clocks where
  cell : Cell → Word
  t : Word

def Clocks.write (s : Clocks) (c : Cell) (v : Word) : Clocks :=
  { s with cell := fun d =>
      if d = c then (v &&& ~~~statusBits c) ||| (s.cell c &&& statusBits c) else s.cell d }

/-! ## The code -/

inductive Instr where
  | load (c : Cell)
  | and (m : Word)
  | or (v : Word)
  | store (c : Cell)
  | put (c : Cell) (v : Word)
  | awaitSome (c : Cell) (m : Word)
  | awaitEqual (c : Cell) (m v : Word)
  deriving DecidableEq, Repr

/-- The waits are loops without a body: the turn in which the condition is met is their last. -/
def exec : Instr → Clocks → Option Clocks
  | .load c, s => some { s with t := s.cell c }
  | .and m, s => some { s with t := s.t &&& m }
  | .or v, s => some { s with t := s.t ||| v }
  | .store c, s => some (s.write c s.t)
  | .put c v, s => some (s.write c v)
  | .awaitSome c m, s => if s.cell c &&& m = 0 then none else some s
  | .awaitEqual c m v, s => if s.cell c &&& m = v then some s else none

/-- `|=` and `&=` on a register. -/
def orCell (c : Cell) (v : Word) : List Instr := [.load c, .or v, .store c]
def andCell (c : Cell) (m : Word) : List Instr := [.load c, .and m, .store c]

def waitControlBit (mask : Word) : List Instr := [.awaitSome .ctl mask]

def multipliers : List Word :=
  [0,0,0,1, 2,3,4,5, 6,7,8,9, 10,11,12,13, 14,14,15]

def setPll (multiplier : ℕ) (external : Bool) : List Instr :=
  [.put .cfg1 0, .load .cfg0, .and (~~~(cfg0PllmulMask ||| cfg0Pllsel ||| cfg0Prediv)),
    .or (cfg0Pllmul (multipliers.getD multiplier 0)),
    if external then .or cfg0Pllsel else .and (~~~cfg0Pllsel),
    .store .cfg0] ++ orCell .ctl ctlPllen ++ waitControlBit ctlPllstb

def inputClock : ℕ := 8
def multiplier : ℕ := 144 / inputClock

def lnInitSystemClockLimited : List Instr :=
  [.put .systemCoreClock (BitVec.ofNat 32 (inputClock*multiplier*1000000))]

def lnInitSystemClock : List Instr :=
  orCell .ctl ctlIrc8men ++ waitControlBit ctlIrc8mstb ++
  [.load .cfg0, .and (~~~cfg0SysclockMask), .store .cfg0,
    .awaitEqual .cfg0 cfg0SysclockMask cfg0SysclockIrc8] ++
  andCell .ctl (~~~ctlHxtalen) ++ andCell .ctl (~~~ctlPllen) ++
  orCell .ctl ctlHxtalen ++ waitControlBit ctlHxtastb ++
  setPll multiplier true ++
  [.put .systemCoreClock (BitVec.ofNat 32 (inputClock*multiplier*1000000)),
    .load .cfg0, .and (~~~cfg0AhbMask), .or (cfg0AhbDiv 0), .and (~~~cfg0Apb1Mask),
    .or (cfg0Apb1Div 0), .and (~~~cfg0Apb2Mask), .or (cfg0Apb2Div 0),
    -- the mask of the USB divider is the only one that is already complemented
    .and cfg0UsbpscMask, .or (cfg0Usbpsc 2), .store .cfg0,
    .put .ws wsLatency2,
    .and (~~~cfg0SysclockMask), .or cfg0SysclockPll, .store .cfg0,
    .awaitEqual .cfg0 cfg0SysclockMask cfg0SysclockPll]

def revertClockToHsi : List Instr :=
  orCell .ctl 0x00000001 ++ [.awaitSome .ctl 0x00000002, .put .cfg0 0x00000000,
    .awaitEqual .cfg0 0x0000000C 0x00000000] ++
  andCell .ctl 0xFEF6FFFF ++ andCell .ctl 0xFFFBFFFF ++ [.put .int 0x009F0000]

/-- What `main` of stage one does to the clocks on its way to stage two and to the application. -/
def stage1Clocks (toApplication : Bool) : List Instr :=
  lnInitSystemClock ++ if toApplication then revertClockToHsi else []

/-! ## The hardware -/

inductive Source where
  | hsi
  | hse
  | pll
  deriving DecidableEq, Repr

def Source.code : Source → Word
  | .hsi => 0
  | .hse => 1
  | .pll => 2

/-- The bit of `CTL` that turns a source on; the next one says that it is ready. -/
def Source.enable : Source → ℕ
  | .hsi => 0
  | .hse => 16
  | .pll => 24

def Source.status (d : Source) : ℕ := d.enable + 1

namespace Clocks
variable (s : Clocks)

def on (d : Source) : Bool := (s.cell .ctl).getLsbD d.enable
def ready (d : Source) : Bool := (s.cell .ctl).getLsbD d.status
def steady (d : Source) : Bool := s.on d && s.ready d

def input : Source := if (s.cell .cfg0).getLsbD 16 then .hse else .hsi

def powered (d : Source) : Bool := s.on d && (d != .pll || s.steady s.input)
def runs (d : Source) : Bool := s.powered d && s.ready d

def Selects (d : Source) : Prop := s.cell .cfg0 &&& cfg0SysclockMask = d.code
def Drives (d : Source) : Prop := s.cell .cfg0 &&& cfg0SysclockStatus = d.code <<< 2

instance (d : Source) : Decidable (s.Selects d) :=
  inferInstanceAs (Decidable (s.cell .cfg0 &&& cfg0SysclockMask = d.code))

instance (d : Source) : Decidable (s.Drives d) :=
  inferInstanceAs (Decidable (s.cell .cfg0 &&& cfg0SysclockStatus = d.code <<< 2))

def Driven : Prop := ∃ d, s.Drives d ∧ s.runs d = true

/-- The flash keeps up with the PLL, now and when the hardware moves to it. -/
def Waits : Prop := s.Drives .pll ∨ s.Selects .pll → s.cell .ws = wsLatency2

def display (c : Cell) (v : Word) : Clocks :=
  { s with cell := fun d => if d = c then v else s.cell d }

end Clocks

inductive Event where
  | settled (d : Source)
  | stopped (d : Source)
  | switched (d : Source)
  deriving DecidableEq, Repr

def hardware : Event → Clocks → Clocks
  | .settled d, s => if s.powered d then s.display .ctl (s.cell .ctl ||| BitVec.twoPow 32 d.status) else s
  | .stopped d, s => if s.powered d then s else s.display .ctl (s.cell .ctl &&& ~~~(BitVec.twoPow 32 d.status))
  | .switched d, s =>
    if s.Selects d ∧ s.runs d = true
    then s.display .cfg0 ((s.cell .cfg0 &&& ~~~cfg0SysclockStatus) ||| d.code <<< 2)
    else s

/-- One turn of the code, or something that the hardware does. -/
abbrev clockTurn : Turn Event → List Instr × Clocks → List Instr × Clocks := turn exec hardware

end Swindle.ClockTree
