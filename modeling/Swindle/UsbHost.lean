import Swindle.StageTwo
import Swindle.IdealFlash

/-!
# Polls as a host brings them about

Each event of the driver is found by some poll. These are the polls by which a
host's tokens reach the device, and a board to run them on.
-/

set_option autoImplicit false

namespace Swindle.UsbHost
open Swindle.WordMemory Swindle.DfuHandlers Swindle.IdealFlash Swindle.UsbDriver Swindle.StageTwo

def tokenPoll (pid : Byte) (rxLen : BitVec 16) (buf : ℕ → Byte) : Poll :=
  ⟨usbfsIntFgTransfer,pid <<< 4,rxLen,buf⟩

def setupBytes (req : SetupPacket) : List Byte :=
  [req.bmRequestType,req.bRequest,req.wValue.setWidth 8,(req.wValue >>> 8).setWidth 8,
    req.wIndex.setWidth 8,(req.wIndex >>> 8).setWidth 8,
    req.wLength.setWidth 8,(req.wLength >>> 8).setWidth 8]

def bytesAt (bytes : List Byte) (i : ℕ) : Byte := bytes.getD i 0

def setupPoll (req : SetupPacket) : Poll := tokenPoll pidSetup 8 (bytesAt (setupBytes req))
def inPoll : Poll := tokenPoll pidIn 0 (bytesAt [])
def outPoll (bytes : List Byte) : Poll :=
  tokenPoll pidOut (BitVec.ofNat 16 bytes.length) (bytesAt bytes)
def busResetPoll : Poll := ⟨usbfsIntFgBusRst,0,0,bytesAt []⟩
def suspendPoll : Poll := ⟨4,0,0,bytesAt []⟩

theorem read16_bytes (w : BitVec 16) : read16 (w.setWidth 8) ((w >>> 8).setWidth 8) = w := by
  apply BitVec.eq_of_toNat_eq
  simp only [read16, BitVec.toNat_ofNat, BitVec.toNat_setWidth, BitVec.toNat_ushiftRight,
    Nat.shiftRight_eq_div_pow]
  omega

theorem setup_poll (req : SetupPacket) : (setupPoll req).event = .setup req := by
  have h : parseSetup (bytesAt (setupBytes req)) = req := by
    simp [parseSetup, bytesAt, setupBytes, read16_bytes]
  simp [Poll.event, setupPoll, tokenPoll, usbfsIntFgTransfer, pidSetup, h]

theorem in_poll : inPoll.event = .inDone := rfl

theorem out_poll (bytes : List Byte) :
    (outPoll bytes).event = .out (BitVec.ofNat 16 bytes.length) (bytesAt bytes) := by
  simp [Poll.event, outPoll, tokenPoll, usbfsIntFgTransfer, pidSetup, pidIn, pidOut]

theorem bus_reset_poll : busResetPoll.event = .busReset := rfl
theorem suspend_poll : suspendPoll.event = .quiet := rfl

theorem poll_found (e : Event) : ∃ p : Poll, p.event = e := by
  cases e with
  | setup req => exact ⟨setupPoll req,setup_poll req⟩
  | inDone => exact ⟨inPoll,in_poll⟩
  | out l buf =>
    exact ⟨tokenPoll pidOut l buf,by
      simp [Poll.event, tokenPoll, usbfsIntFgTransfer, pidSetup, pidIn, pidOut]⟩
  | busReset => exact ⟨busResetPoll,bus_reset_poll⟩
  | quiet => exact ⟨suspendPoll,suspend_poll⟩

theorem polls_found (es : List Event) : ∃ ps : List Poll, ps.map Poll.event = es := by
  induction es with
  | nil => exact ⟨[],rfl⟩
  | cons e es ih =>
    obtain ⟨p,hp⟩ := poll_found e
    obtain ⟨ps,hps⟩ := ih
    exact ⟨p::ps,by rw [List.map_cons, hp, hps]⟩

def chunks : ℕ → List Byte → List (List Byte)
  | 0, _ => []
  | n+1, bytes => bytes.take 64 :: chunks n (bytes.drop 64)

/-- The OUT packets of a payload: 64 bytes each, the last one possibly shorter. -/
def packets (payload : List Byte) : List (List Byte) := chunks ((payload.length+63)/64) payload

def downloadPolls (block : BitVec 16) (payload : List Byte) : List Poll :=
  setupPoll ⟨0x21,dfuDnload,block,0,BitVec.ofNat 16 payload.length⟩ ::
    ((packets payload).map outPoll ++ [inPoll])

/-- A board with the perfect controller, its receive buffer in RAM. -/
def perfectBoard : Board := ⟨perfect,0x20000000,by decide⟩

def perfectBoot (m : Memory) : Stage2 := boot (resetFmc m)

end Swindle.UsbHost
