import Swindle.BootHandover
import Swindle.Views

/-!
# Pins

The pins share registers: sixteen of them a port with its outputs, eight of them a
word of modes, and all of them the word that gives the ports their clock. Whatever is
called on the others, a pin is in the state that the calls on it have put it in.
-/

set_option autoImplicit false

namespace Swindle.Pins
open Swindle.WordMemory Swindle.MachineRuns Swindle.StageOne Swindle.BootHandover Swindle.Views

/-- `PA0` to `PE15`, sixteen for each port. -/
abbrev LnPin := Fin 80

inductive LnGpioMode where
  | floating
  | inputFloating
  | inputPullup
  | inputPulldown
  | output
  | outputOpenDrain
  | alternatePp
  | alternateOd
  | pwm
  | adcMode
  | dacMode
  | uart
  | spiMode
  | uartAlt
  deriving DecidableEq, Repr

/-- The peripherals that `enable` and `disable` know; `other` is any of the rest. -/
inductive Peripherals where
  | gpioA
  | gpioB
  | gpioC
  | gpioD
  | gpioE
  | af
  | usb
  | usbfsOtg
  | usbhs
  | dma0
  | dma1
  | other
  deriving DecidableEq, Repr

/-! ## The registers of a port -/

structure LnGpio where
  cfglr : Word
  cfghr : Word
  outdr : Word

/-- Writing `BSHR`: the lower half sets outputs, the upper half clears those it does not set. -/
def LnGpio.bshr (v : Word) (g : LnGpio) : LnGpio :=
  { g with outdr := (g.outdr &&& ~~~(v >>> 16)) ||| (v &&& 0xFFFF) }

/-- Writing `BCR` clears outputs. -/
def LnGpio.bcr (v : Word) (g : LnGpio) : LnGpio :=
  { g with outdr := g.outdr &&& ~~~(v &&& 0xFFFF) }

/-- The four bits that the switch of `lnPinMode` puts into the place it has cleared. -/
def LnGpioMode.bits : LnGpioMode → Word
  | .floating => 0x4
  | .inputFloating => 0x4
  | .inputPullup => 0x8
  | .inputPulldown => 0x8
  | .output => 0x1
  | .outputOpenDrain => 0x6
  | _ => 0

/-- `lnPinMode`, from the registers of the port on. -/
def LnGpio.pinMode (bit : ℕ) (mode : LnGpioMode) (g : LnGpio) : LnGpio :=
  let ctl := if bit < 8 then g.cfglr else g.cfghr
  let shift := if bit < 8 then bit*4 else (bit-8)*4
  let ctl := ctl &&& ~~~((0xF : Word) <<< shift)
  let ctl := ctl ||| mode.bits <<< shift
  let g := if bit < 8 then { g with cfglr := ctl } else { g with cfghr := ctl }
  if mode = .inputPullup then g.bshr ((1 : Word) <<< bit)
  else if mode = .inputPulldown then g.bcr ((1 : Word) <<< bit)
  else g

def LnGpio.digitalWrite (bit : ℕ) (value : Bool) (g : LnGpio) : LnGpio :=
  if value then g.bshr ((1 : Word) <<< bit) else g.bcr ((1 : Word) <<< bit)

def LnGpio.digitalToggle (bit : ℕ) (g : LnGpio) : LnGpio :=
  if g.outdr &&& (1 : Word) <<< bit ≠ 0 then g.bcr ((1 : Word) <<< bit)
  else g.bshr ((1 : Word) <<< bit)

/-! ## The calls -/

structure Io where
  apb2en : Word
  ahben : Word
  gpioPort : ℕ → LnGpio

def decodePin (pin : LnPin) : ℕ × ℕ := (pin.val / 16,pin.val % 16)

/-- The clock of a port is one bit of `APB2EN`; without it nothing is stored in the port. -/
def Io.access (io : Io) (port : ℕ) (f : LnGpio → LnGpio) : Io :=
  if io.apb2en.getLsbD (port+2)
  then { io with gpioPort := fun p => if p = port then f (io.gpioPort p) else io.gpioPort p }
  else io

def lnPinMode (pin : LnPin) (mode : LnGpioMode) (io : Io) : Io :=
  let (port,bit) := decodePin pin
  io.access port (LnGpio.pinMode bit mode)

def lnDigitalWrite (pin : LnPin) (value : Bool) (io : Io) : Io :=
  let (port,bit) := decodePin pin
  io.access port (LnGpio.digitalWrite bit value)

def lnDigitalToggle (pin : LnPin) (io : Io) : Io :=
  let (port,bit) := decodePin pin
  io.access port (LnGpio.digitalToggle bit)

def apb2Afen : Word := 1 <<< 0
def apb2Paen : Word := 1 <<< 2
def apb2Pben : Word := 1 <<< 3
def apb2Pcen : Word := 1 <<< 4
def apb2Pden : Word := 1 <<< 5
def apb2Peen : Word := 1 <<< 6
def ahbDma0en : Word := 1 <<< 0
def ahbDma1en : Word := 1 <<< 1
def ahbUsbhsen : Word := 1 <<< 11
def ahbUsbfsenOtg : Word := 1 <<< 12

def enable : Peripherals → Io → Io
  | .gpioA, io => { io with apb2en := io.apb2en ||| apb2Paen }
  | .gpioB, io => { io with apb2en := io.apb2en ||| apb2Pben }
  | .gpioC, io => { io with apb2en := io.apb2en ||| apb2Pcen }
  | .gpioD, io => { io with apb2en := io.apb2en ||| apb2Pden }
  | .gpioE, io => { io with apb2en := io.apb2en ||| apb2Peen }
  | .af, io => { io with apb2en := io.apb2en ||| apb2Afen }
  | .usb, io => { io with ahben := io.ahben ||| ahbUsbfsenOtg }
  | .usbfsOtg, io => { io with ahben := io.ahben ||| ahbUsbfsenOtg }
  | .usbhs, io => { io with ahben := io.ahben ||| ahbUsbhsen }
  | .dma0, io => { io with ahben := io.ahben ||| ahbDma0en }
  | .dma1, io => { io with ahben := io.ahben ||| ahbDma1en }
  | .other, io => io

/-- The DMA controllers are missing here. -/
def disable : Peripherals → Io → Io
  | .gpioA, io => { io with apb2en := io.apb2en &&& ~~~apb2Paen }
  | .gpioB, io => { io with apb2en := io.apb2en &&& ~~~apb2Pben }
  | .gpioC, io => { io with apb2en := io.apb2en &&& ~~~apb2Pcen }
  | .gpioD, io => { io with apb2en := io.apb2en &&& ~~~apb2Pden }
  | .gpioE, io => { io with apb2en := io.apb2en &&& ~~~apb2Peen }
  | .af, io => { io with apb2en := io.apb2en &&& ~~~apb2Afen }
  | .usb, io => { io with ahben := io.ahben &&& ~~~ahbUsbfsenOtg }
  | .usbfsOtg, io => { io with ahben := io.ahben &&& ~~~ahbUsbfsenOtg }
  | .usbhs, io => { io with ahben := io.ahben &&& ~~~ahbUsbhsen }
  | _, io => io

inductive Call where
  | pinMode (pin : LnPin) (mode : LnGpioMode)
  | digitalWrite (pin : LnPin) (value : Bool)
  | digitalToggle (pin : LnPin)
  | enable (p : Peripherals)
  | disable (p : Peripherals)
  deriving DecidableEq, Repr

def call : Call → Io → Io
  | .pinMode pin mode, io => lnPinMode pin mode io
  | .digitalWrite pin value, io => lnDigitalWrite pin value io
  | .digitalToggle pin, io => lnDigitalToggle pin io
  | .enable p, io => enable p io
  | .disable p, io => disable p io

/-! ## A pin by itself -/

/-- Whether its port has a clock, its mode and its output. -/
structure PinState where
  clocked : Bool
  mode : BitVec 4
  latch : Bool
  deriving DecidableEq, Repr

def Peripherals.port : Peripherals → Option ℕ
  | .gpioA => some 0
  | .gpioB => some 1
  | .gpioC => some 2
  | .gpioD => some 3
  | .gpioE => some 4
  | _ => none

def concerns (pin : LnPin) : Call → Bool
  | .pinMode p _ => p = pin
  | .digitalWrite p _ => p = pin
  | .digitalToggle p => p = pin
  | .enable p => p.port = some (decodePin pin).1
  | .disable p => p.port = some (decodePin pin).1

def LnGpioMode.pulled (mode : LnGpioMode) (latch : Bool) : Bool :=
  match mode with
  | .inputPullup => true
  | .inputPulldown => false
  | _ => latch

def pinCall : Call → PinState → PinState
  | .pinMode _ mode, s =>
    if s.clocked then { s with mode := mode.bits.setWidth 4, latch := mode.pulled s.latch } else s
  | .digitalWrite _ value, s => if s.clocked then { s with latch := value } else s
  | .digitalToggle _, s => if s.clocked then { s with latch := !s.latch } else s
  | .enable _, s => { s with clocked := true }
  | .disable _, s => { s with clocked := false }

def LnGpio.modeOf (g : LnGpio) (bit : ℕ) : BitVec 4 :=
  if bit < 8 then g.cfglr.extractLsb' (bit*4) 4 else g.cfghr.extractLsb' ((bit-8)*4) 4

def Io.pin (pin : LnPin) (io : Io) : PinState :=
  let (port,bit) := decodePin pin
  ⟨io.apb2en.getLsbD (port+2),(io.gpioPort port).modeOf bit,(io.gpioPort port).outdr.getLsbD bit⟩

/-! ## One port -/

theorem single_bit (b : ℕ) (hb : b < 16) : (1 : Word) <<< b >>> 16 = 0 ∧
    (1 : Word) <<< b &&& 0xFFFF = BitVec.twoPow 32 b ∧ (1 : Word) <<< b = BitVec.twoPow 32 b := by
  interval_cases b <;> decide

theorem bshr_bit (g : LnGpio) (b i : ℕ) (hb : b < 16) :
    (g.bshr ((1 : Word) <<< b)).outdr.getLsbD i = (g.outdr.getLsbD i || decide (i = b)) := by
  obtain ⟨hhigh,hlow,-⟩ := single_bit b hb
  have hg := @BitVec.getLsbD_of_ge 32 g.outdr i
  rw [LnGpio.bshr, hhigh, hlow]
  simp only [BitVec.getLsbD_or, BitVec.getLsbD_and, BitVec.getLsbD_not, BitVec.getLsbD_twoPow]
  simp
  grind

theorem bcr_bit (g : LnGpio) (b i : ℕ) (hb : b < 16) :
    (g.bcr ((1 : Word) <<< b)).outdr.getLsbD i = (g.outdr.getLsbD i && decide (i ≠ b)) := by
  obtain ⟨-,hlow,-⟩ := single_bit b hb
  have hg := @BitVec.getLsbD_of_ge 32 g.outdr i
  rw [LnGpio.bcr, hlow]
  simp only [BitVec.getLsbD_and, BitVec.getLsbD_not, BitVec.getLsbD_twoPow]
  grind

def LnGpio.pin (bit : ℕ) (g : LnGpio) : BitVec 4 × Bool := (g.modeOf bit,g.outdr.getLsbD bit)

theorem write_pin (g : LnGpio) (b i : ℕ) (value : Bool) (hb : b < 16) :
    (g.digitalWrite b value).pin i = if i = b then (g.modeOf i,value) else g.pin i := by
  cases value with
  | true =>
    rw [LnGpio.digitalWrite, if_pos rfl, LnGpio.pin, bshr_bit g b i hb]
    by_cases hi : i = b <;> simp [hi, LnGpio.pin, LnGpio.modeOf, LnGpio.bshr]
  | false =>
    rw [LnGpio.digitalWrite, if_neg (by decide), LnGpio.pin, bcr_bit g b i hb]
    by_cases hi : i = b <;> simp [hi, LnGpio.pin, LnGpio.modeOf, LnGpio.bcr]

theorem toggle_pin (g : LnGpio) (b i : ℕ) (hb : b < 16) :
    (g.digitalToggle b).pin i = if i = b then (g.modeOf i,!g.outdr.getLsbD b) else g.pin i := by
  have hsame : g.digitalToggle b = g.digitalWrite b (!g.outdr.getLsbD b) := by
    rw [LnGpio.digitalToggle, LnGpio.digitalWrite, (single_bit b hb).2.2, BitVec.and_twoPow]
    cases hbit : g.outdr.getLsbD b with
    | true =>
      have hne : BitVec.twoPow 32 b ≠ 0 := by interval_cases b <;> decide
      rw [if_pos rfl, if_pos hne]
      rfl
    | false => simp
  rw [hsame, write_pin g b i _ hb]

theorem mode_bits (mode : LnGpioMode) (j : ℕ) (hj : 4 ≤ j) : mode.bits.getLsbD j = false := by
  have hmask : mode.bits = mode.bits &&& mask 32 4 := by cases mode <;> decide
  rw [hmask, BitVec.getLsbD_and, mask_bit]
  simp
  omega

def LnGpio.moded (bit : ℕ) (mode : LnGpioMode) (g : LnGpio) : LnGpio :=
  if bit < 8 then { g with cfglr := insert g.cfglr 4 (bit*4) mode.bits }
  else { g with cfghr := insert g.cfghr 4 ((bit-8)*4) mode.bits }

theorem mode_eq (g : LnGpio) (b : ℕ) (mode : LnGpioMode) : g.pinMode b mode =
    if mode = .inputPullup then (g.moded b mode).digitalWrite b true
    else if mode = .inputPulldown then (g.moded b mode).digitalWrite b false
    else g.moded b mode := by
  rw [LnGpio.pinMode, LnGpio.moded]
  by_cases hb : b < 8
  · simp only [if_pos hb]
    rfl
  · simp only [if_neg hb]
    rfl

theorem moded_pin (g : LnGpio) (b i : ℕ) (mode : LnGpioMode) (hb : b < 16) (hi : i < 16) :
    (g.moded b mode).pin i =
      if i = b then (mode.bits.setWidth 4,g.outdr.getLsbD i) else g.pin i := by
  have hbits := mode_bits mode
  rw [LnGpio.moded]
  by_cases hlow : b < 8
  · rw [if_pos hlow, LnGpio.pin, LnGpio.modeOf]
    by_cases hi8 : i < 8
    · rw [if_pos hi8]
      by_cases hsame : i = b
      · subst hsame
        rw [if_pos rfl, field_insert _ _ _ (by omega) hbits]
      · rw [if_neg hsame, field_insert_apart _ _ _ _ hbits (by omega), LnGpio.pin, LnGpio.modeOf,
          if_pos hi8]
    · rw [if_neg hi8, if_neg (by omega), LnGpio.pin, LnGpio.modeOf, if_neg hi8]
  · rw [if_neg hlow, LnGpio.pin, LnGpio.modeOf]
    by_cases hi8 : i < 8
    · rw [if_pos hi8, if_neg (by omega), LnGpio.pin, LnGpio.modeOf, if_pos hi8]
    · rw [if_neg hi8]
      by_cases hsame : i = b
      · subst hsame
        rw [if_pos rfl, field_insert _ _ _ (by omega) hbits]
      · rw [if_neg hsame, field_insert_apart _ _ _ _ hbits (by omega), LnGpio.pin, LnGpio.modeOf,
          if_neg hi8]

theorem mode_pin (g : LnGpio) (b i : ℕ) (mode : LnGpioMode) (hb : b < 16) (hi : i < 16) :
    (g.pinMode b mode).pin i =
      if i = b then (mode.bits.setWidth 4,mode.pulled (g.outdr.getLsbD i)) else g.pin i := by
  have hmoded := moded_pin g b i mode hb hi
  have hwrite : ∀ value, ((g.moded b mode).digitalWrite b value).pin i =
      if i = b then (mode.bits.setWidth 4,value) else g.pin i := by
    intro value
    rw [write_pin _ b i value hb]
    by_cases hsame : i = b
    · rw [if_pos hsame] at hmoded ⊢
      rw [if_pos hsame, ← (Prod.mk.inj hmoded).1]
    · rw [if_neg hsame] at hmoded ⊢
      rw [if_neg hsame, hmoded]
  rw [mode_eq]
  cases mode with
  | inputPullup => exact hwrite true
  | inputPulldown => exact hwrite false
  | _ => exact hmoded

/-! ## All ports -/

theorem decode_lt (pin : LnPin) : (decodePin pin).1 < 5 ∧ (decodePin pin).2 < 16 := by
  have hlt := pin.isLt
  simp only [decodePin]
  omega

theorem decode_injective (p q : LnPin) (hport : (decodePin q).1 = (decodePin p).1)
    (hbit : (decodePin q).2 = (decodePin p).2) : q = p := by
  simp only [decodePin] at hport hbit
  apply Fin.ext
  omega

/-- A call to one pin that its port answers pin by pin. -/
theorem access_pin (io : Io) (p q : LnPin) (f : ℕ → LnGpio → LnGpio)
    (new : BitVec 4 × Bool → BitVec 4 × Bool)
    (hf : ∀ b i g, b < 16 → i < 16 → (f b g).pin i = if i = b then new (g.pin i) else g.pin i) :
    (io.access (decodePin q).1 (f (decodePin q).2)).pin p =
      if q = p ∧ (io.pin p).clocked = true then
        let s := new ((io.pin p).mode,(io.pin p).latch)
        ⟨true,s.1,s.2⟩
      else io.pin p := by
  have hpin := decode_lt p
  have hq := decode_lt q
  rw [Io.access]
  by_cases hclock : io.apb2en.getLsbD ((decodePin q).1 + 2) = true
  · rw [if_pos hclock]
    by_cases hport : (decodePin p).1 = (decodePin q).1
    · have hseen := hf (decodePin q).2 (decodePin p).2 (io.gpioPort (decodePin p).1) hq.2 hpin.2
      simp only [LnGpio.pin] at hseen
      by_cases hsame : q = p
      · subst hsame
        rw [if_pos rfl] at hseen
        rw [if_pos ⟨rfl,hclock⟩]
        simp only [Io.pin, if_pos, hclock]
        rw [← hseen]
      · have hbit : (decodePin p).2 ≠ (decodePin q).2 := fun h =>
          hsame (decode_injective p q hport.symm h.symm)
        rw [if_neg hbit] at hseen
        rw [if_neg (fun h => hsame h.1)]
        simp only [Io.pin, if_pos hport]
        rw [(Prod.mk.inj hseen).1, (Prod.mk.inj hseen).2]
    · have hsame : ¬ q = p := fun h => hport (by rw [h])
      rw [if_neg (fun h => hsame h.1)]
      simp only [Io.pin, if_neg hport]
  · rw [if_neg hclock]
    rw [if_neg]
    rintro ⟨rfl,hc⟩
    exact hclock hc

theorem call_pin_mode (io : Io) (p q : LnPin) (mode : LnGpioMode) :
    (lnPinMode q mode io).pin p =
      if q = p then pinCall (.pinMode q mode) (io.pin p) else io.pin p := by
  have h := access_pin io p q (fun b => LnGpio.pinMode b mode)
    (fun s => (mode.bits.setWidth 4,mode.pulled s.2)) (fun b i g hb hi => mode_pin g b i mode hb hi)
  rw [lnPinMode, h]
  by_cases hsame : q = p
  · cases hc : (io.pin p).clocked <;> simp [hsame, hc, pinCall]
  · simp [hsame]

theorem call_write (io : Io) (p q : LnPin) (value : Bool) :
    (lnDigitalWrite q value io).pin p =
      if q = p then pinCall (.digitalWrite q value) (io.pin p) else io.pin p := by
  have h := access_pin io p q (fun b => LnGpio.digitalWrite b value) (fun s => (s.1,value))
    (fun b i g hb _ => write_pin g b i value hb)
  rw [lnDigitalWrite, h]
  by_cases hsame : q = p
  · cases hc : (io.pin p).clocked <;> simp [hsame, hc, pinCall]
  · simp [hsame]

theorem call_toggle (io : Io) (p q : LnPin) :
    (lnDigitalToggle q io).pin p =
      if q = p then pinCall (.digitalToggle q) (io.pin p) else io.pin p := by
  have h := access_pin io p q LnGpio.digitalToggle (fun s => (s.1,!s.2))
    (fun b i g hb _ => by
      rw [toggle_pin g b i hb]
      by_cases hi : i = b <;> simp [hi, LnGpio.pin])
  rw [lnDigitalToggle, h]
  by_cases hsame : q = p
  · cases hc : (io.pin p).clocked <;> simp [hsame, hc, pinCall]
  · simp [hsame]

/-- A port's clock is in a bit of its own. -/
theorem enable_pin (io : Io) (pin : LnPin) (p : Peripherals) : (enable p io).pin pin =
    { io.pin pin with
      clocked := (io.pin pin).clocked || decide (p.port = some (decodePin pin).1) } := by
  have hlt := (decode_lt pin).1
  simp only [Io.pin]
  generalize (decodePin pin).1 = port at hlt ⊢
  interval_cases port <;> cases p <;>
    simp [enable, Peripherals.port, apb2Afen, apb2Paen, apb2Pben, apb2Pcen, apb2Pden, apb2Peen]

theorem disable_pin (io : Io) (pin : LnPin) (p : Peripherals) : (disable p io).pin pin =
    { io.pin pin with
      clocked := (io.pin pin).clocked && decide (p.port ≠ some (decodePin pin).1) } := by
  have hlt := (decode_lt pin).1
  simp only [Io.pin]
  generalize (decodePin pin).1 = port at hlt ⊢
  interval_cases port <;> cases p <;>
    simp [disable, Peripherals.port, apb2Afen, apb2Paen, apb2Pben, apb2Pcen, apb2Pden, apb2Peen]

theorem pin_view (pin : LnPin) : View call (concerns pin) pinCall (Io.pin pin) := by
  constructor
  · intro c io hc
    cases c with
    | pinMode q mode => exact (call_pin_mode io pin q mode).trans (if_pos (by simpa [concerns] using hc))
    | digitalWrite q value => exact (call_write io pin q value).trans (if_pos (by simpa [concerns] using hc))
    | digitalToggle q => exact (call_toggle io pin q).trans (if_pos (by simpa [concerns] using hc))
    | enable p =>
      rw [call, enable_pin, pinCall, show decide (p.port = some (decodePin pin).1) = true from hc,
        Bool.or_true]
    | disable p =>
      have hport : p.port = some (decodePin pin).1 := of_decide_eq_true hc
      rw [call, disable_pin, pinCall, decide_eq_false (fun h => h hport), Bool.and_false]
  · intro c io hc
    cases c with
    | pinMode q mode => exact (call_pin_mode io pin q mode).trans (if_neg (by simpa [concerns] using hc))
    | digitalWrite q value => exact (call_write io pin q value).trans (if_neg (by simpa [concerns] using hc))
    | digitalToggle q => exact (call_toggle io pin q).trans (if_neg (by simpa [concerns] using hc))
    | enable p =>
      rw [call, enable_pin, show decide (p.port = some (decodePin pin).1) = false from hc, Bool.or_false]
    | disable p =>
      have hport : p.port ≠ some (decodePin pin).1 := of_decide_eq_false hc
      rw [call, disable_pin, decide_eq_true hport, Bool.and_true]

/-- Whatever is called in whatever order: a pin is as the calls on it and the switching of
its port's clock leave it, as if it had its registers for itself. -/
theorem pins_independent (pin : LnPin) (calls : List Call) (io : Io) :
    (run call calls io).pin pin = run pinCall (calls.filter (concerns pin)) (io.pin pin) :=
  view_run (pin_view pin) calls io

/-! ## Reading -/

/-- The level of a pin: `outside` is what something else puts on it, `float` what is there
when nothing does. -/
def PinState.level (s : PinState) (outside : Option Bool) (float : Bool) : Bool :=
  if s.mode = 0x8 then outside.getD s.latch
  else if s.mode = 0x4 then outside.getD float
  else if s.mode = 0x0 then false
  -- an open drain can only pull down
  else if s.mode.getLsbD 2 then s.latch && outside.getD float
  else s.latch

section Read
variable (outside : LnPin → Option Bool) (float : LnPin → Bool)

/-- Reading `INDR` of a port. -/
def Io.indr (io : Io) (port : ℕ) : Word :=
  if io.apb2en.getLsbD (port+2) then
    BitVec.ofFnLE fun i : Fin 32 =>
      if h : i.val < 16 ∧ port*16 + i.val < 80 then
        let pin : LnPin := ⟨port*16 + i.val,h.2⟩
        (io.pin pin).level (outside pin) (float pin)
      else false
  else 0

def lnDigitalRead (pin : LnPin) (io : Io) : Bool :=
  let (port,bit) := decodePin pin
  decide ((io.indr outside float port >>> bit) &&& 1 ≠ 0)

theorem read_level (pin : LnPin) (io : Io) : lnDigitalRead outside float pin io =
    ((io.pin pin).clocked && (io.pin pin).level (outside pin) (float pin)) := by
  have hpin := decode_lt pin
  have hnum : (decodePin pin).1*16 + (decodePin pin).2 = pin.val := by
    simp only [decodePin]
    omega
  have hbit : ∀ w : Word, decide (w >>> (decodePin pin).2 &&& 1 ≠ 0) = w.getLsbD (decodePin pin).2 := by
    intro w
    rw [show (1 : Word) = BitVec.twoPow 32 0 from rfl, BitVec.and_twoPow, BitVec.getLsbD_ushiftRight,
      Nat.add_zero]
    cases w.getLsbD (decodePin pin).2 <;> decide
  change decide (io.indr outside float (decodePin pin).1 >>> (decodePin pin).2 &&& 1 ≠ 0) = _
  rw [hbit, Io.indr]
  cases hclock : io.apb2en.getLsbD ((decodePin pin).1 + 2) with
  | false => simp [Io.pin, hclock]
  | true =>
    have hc : (io.pin pin).clocked = true := hclock
    rw [if_pos rfl, hc, Bool.true_and, BitVec.getLsbD_ofFnLE]
    simp [hnum, hpin.2, show (decodePin pin).2 < 32 by omega]

/-- A pin with a pull resistor, whatever has been called on the others since. -/
theorem pulled_read (pin : LnPin) (up : Bool) (io : Io) (calls : List Call)
    (hclock : (io.pin pin).clocked = true) (hrest : ∀ c ∈ calls, concerns pin c = false) :
    lnDigitalRead outside float pin
      (run call (.pinMode pin (if up then .inputPullup else .inputPulldown) :: calls) io) =
      (outside pin).getD up := by
  have hnone : calls.filter (concerns pin) = [] :=
    List.filter_eq_nil_iff.mpr fun c hc => by rw [hrest c hc]; decide
  have hown : concerns pin (.pinMode pin (if up then .inputPullup else .inputPulldown)) = true :=
    decide_eq_true rfl
  rw [read_level, pins_independent, List.filter_cons_of_pos hown, hnone, run, run, pinCall,
    if_pos hclock]
  cases up <;> simp [hclock, PinState.level, LnGpioMode.bits, LnGpioMode.pulled]

end Read

/-! ## The pin that asks for stage two -/

def ledPin : LnPin := 29
def dfuPin : LnPin := 23

/-- What `main` of stage one calls before it reads the pin. -/
def stage1Calls : List Call :=
  [.enable .gpioA,.enable .gpioB,.enable .gpioC,.pinMode ledPin .output,.digitalWrite ledPin false,
    .pinMode dfuPin .inputPullup,.digitalWrite ledPin true]

/-- Whatever the registers of the pins have held before: stage one finds the pin low exactly
if something pulls it down, and then it starts stage two, whatever is in the flash. -/
theorem grounded_pin_enters {σ : Type} (u : CrcUnit σ) (m : Memory) (marker : BitVec 64) (io : Io)
    (outside : LnPin → Option Bool) (float : LnPin → Bool) :
    let pin := lnDigitalRead outside float dfuPin (run call stage1Calls io)
    (pin = false ↔ outside dfuPin = some false) ∧
      (outside dfuPin = some false → (stage1Main u m pin marker).target = stage2RamAddr) := by
  intro pin
  have hclock : ((run call [.enable .gpioA,.enable .gpioB,.enable .gpioC,.pinMode ledPin .output,
      .digitalWrite ledPin false] io).pin dfuPin).clocked = true := by
    rw [pins_independent]
    rfl
  have hread : pin = (outside dfuPin).getD true :=
    pulled_read outside float dfuPin true _ [.digitalWrite ledPin true] hclock (by decide)
  rw [hread]
  constructor
  · cases outside dfuPin <;> simp
  · intro hlow
    rw [hlow]
    exact asked_enters u m false marker (Or.inr rfl)

end Swindle.Pins
