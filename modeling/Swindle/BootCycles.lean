import Swindle.BootHandover
import Swindle.LayoutObeyed

/-!
# One boot after the other

From boot to boot the device keeps its flash, and its RAM as long as it has
power. Stage one starts the application or stage two; the application leaves what
it likes outside the bootloader and in the marker, and stage two runs until it
resets. Power may be lost at any time, also inside an operation of the flash.
-/

set_option autoImplicit false

namespace Swindle.BootCycles
open Swindle.WordMemory Swindle.FlashController Swindle.FlashOperations Swindle.DfuHandlers
open Swindle.FlashFrames Swindle.IdealFlash Swindle.FlashProgress Swindle.UsbDriver Swindle.StageTwo
open Swindle.UsbHost Swindle.UsbDescriptors Swindle.Transfers Swindle.Download Swindle.ImageDownload
open Swindle.ResetTiming Swindle.StageOne Swindle.BootHandover Swindle.MachineRuns
open Swindle.BootRegion Swindle.LayoutString Swindle.LayoutObeyed

variable {σ : Type}

structure Device where
  flash : Memory
  marker : BitVec 64

/-- What follows stage one. A session that power cuts short leaves any marker, and one
that is torn inside operation `k` of a turn any flash. -/
inductive Session where
  | application (flash : Memory) (marker : BitVec 64)
  | reset (polls : List Poll)
  | cut (polls : List Poll) (marker : BitVec 64)
  | torn (polls : List Poll) (p : Poll) (k : ℕ) (flash : Memory) (marker : BitVec 64)
  | dark (marker : BitVec 64)

structure Cycle where
  dfuPin : Bool
  session : Session

def stage2After (b : Board) (m : Memory) (polls : List Poll) : Stage2 :=
  run (loopTurn b) polls (boot (resetFmc m))

def turnOps (b : Board) (p : Poll) (s : Stage2) : List Op :=
  (loopTurn b p s).fmc.log.drop s.fmc.log.length

/-- The flash when power is lost in the middle of operation `k` of a turn. -/
def TornIn (b : Board) (p : Poll) (k : ℕ) (s : Stage2) (m : Memory) : Prop :=
  ∃ op, (turnOps b p s)[k]? = some op ∧
    AgreeOff (target op) (replay b.hw ((turnOps b p s).take k) (s.fmc.flash,s.fmc.log)).1 m

section Cycles
variable (u : CrcUnit σ) (b : Board)

def stage1 (c : Cycle) (d : Device) : Boot σ := stage1Main u (aliased d.flash) c.dfuPin d.marker

def cycle (c : Cycle) (d : Device) : Device :=
  match c.session with
  | .application flash marker => ⟨flash,marker⟩
  | .reset polls => ⟨(stage2After b d.flash polls).fmc.flash,(stage1 u c d).marker⟩
  | .cut polls marker => ⟨(stage2After b d.flash polls).fmc.flash,marker⟩
  | .torn _ _ _ flash marker => ⟨flash,marker⟩
  | .dark marker => ⟨d.flash,marker⟩

def Possible (c : Cycle) (d : Device) : Prop :=
  match c.session with
  | .application flash _ =>
    (stage1 u c d).target = appAddress ∧ AgreeOn bootRegion d.flash flash
  | .reset polls =>
    (stage1 u c d).target = stage2RamAddr ∧ (stage2After b d.flash polls).reset = true
  | .cut _ _ => (stage1 u c d).target = stage2RamAddr
  | .torn polls p k flash _ =>
    (stage1 u c d).target = stage2RamAddr ∧ TornIn b p k (stage2After b d.flash polls) flash
  | .dark _ => True

end Cycles

/-! ## The bootloader -/

def Session.polls : Session → List Poll
  | .reset polls => polls
  | .cut polls _ => polls
  | .torn polls p _ _ _ => polls ++ [p]
  | _ => []

def KeepsTo (b : Board) (lay : ℕ × List Segment) (c : Cycle) (d : Device) : Prop :=
  Along (loopTurn b) (fun p s => Obedient b lay p.event s) c.session.polls (boot (resetFmc d.flash))

section Kept
variable (u : CrcUnit σ) (b : Board) (hl : Local b.hw)
include hl

theorem session_kept (m : Memory) (polls : List Poll)
    (h : Along (loopTurn b) (fun p s => Obedient b (0,layout 4 4 60) p.event s) polls
      (boot (resetFmc m))) : AgreeOn bootRegion m (stage2After b m polls).fmc.flash :=
  served_kept b (resetFmc m) polls (run_served b hl _ (reset_idle m) polls h)

theorem torn_kept (p : Poll) (k : ℕ) (s : Stage2) (hi : Idle s.fmc)
    (h : Obedient b (0,layout 4 4 60) p.event s) (m : Memory) (hm : TornIn b p k s m) :
    AgreeOn bootRegion s.fmc.flash m := by
  obtain ⟨ops,hp,hc⟩ := obedient_op b hl p.event s hi h
  have hops : turnOps b p s = ops := by
    rw [turnOps, loop_event, performs_log hp, List.drop_left]
  obtain ⟨op,hk,htorn⟩ := hm
  rw [hops] at hk htorn
  have hbefore := replay_frame b.hw bootRegionᶜ (ops.take k)
    (fun o ho => (hc o (List.mem_of_mem_take ho)).2) s.fmc.flash s.fmc.log
  have hinside := agreeOff_mono (hc op (List.mem_of_getElem? hk)).1 htorn
  exact agree_off_compl (agreeOff_trans hbefore hinside)

theorem cycle_kept (c : Cycle) (d : Device) (hc : Possible u b c d)
    (h : KeepsTo b (0,layout 4 4 60) c d) : AgreeOn bootRegion d.flash (cycle u b c d).flash := by
  rw [KeepsTo] at h
  cases hs : c.session with
  | application flash marker =>
    rw [Possible, hs] at hc
    rw [cycle, hs]
    exact hc.2
  | reset polls =>
    rw [hs] at h
    rw [cycle, hs]
    exact session_kept b hl d.flash polls h
  | cut polls marker =>
    rw [hs] at h
    rw [cycle, hs]
    exact session_kept b hl d.flash polls h
  | torn polls p k flash marker =>
    rw [Possible, hs] at hc
    rw [hs, Session.polls, along_append] at h
    have hidle : Idle (stage2After b d.flash polls).fmc :=
      run_always (loopTurn b) (fun s => Idle s.fmc) (loop_idle_fmc b) polls _ (reset_idle d.flash)
    have hbefore := session_kept b hl d.flash polls h.1
    have htorn := torn_kept b hl p k _ hidle h.2.1 flash hc.2
    rw [cycle, hs]
    exact fun x hx => (htorn x hx).trans (hbefore x hx)
  | dark marker =>
    rw [cycle, hs]
    exact fun _ _ => rfl

theorem cycles_kept (cs : List Cycle) (d : Device) (hc : Along (cycle u b) (Possible u b) cs d)
    (h : Along (cycle u b) (KeepsTo b (0,layout 4 4 60)) cs d) :
    AgreeOn bootRegion d.flash (run (cycle u b) cs d).flash := by
  apply run_invariant (cycle u b) _ (fun d' => AgreeOn bootRegion d.flash d'.flash) _ cs d
    (along_and (cycle u b) _ _ cs d hc h) (fun _ _ => rfl)
  rintro c d' ⟨hc,h⟩ hd x hx
  rw [cycle_kept u b hl c d' hc h x hx, hd x hx]

end Kept

/-! ## Recovery -/

/-- The polls of a session that downloads an image without an error, from anywhere in the
session on, and ends it. -/
structure Downloads (b : Board) (m : Memory) (image : List Byte) (polls : List Poll) : Prop where
  parts : ∃ (before ps : List Poll) (p : Poll) (x0 : Exchange) (xs : List Exchange)
    (req : SetupPacket),
    polls = before ++ ps ++ [p] ∧ (stage2After b m before).reset = false ∧
      SetsAddress appAddress x0 ∧ Sends 2 image xs ∧
      ps.map Poll.event = (x0::xs).flatMap Exchange.events ∧
      Along (exchange b) (EndsWell b) (x0::xs) (stage2After b m before) ∧
      p.event = .setup req ∧ EndsDownload req

/-- Whatever the flash held, such a session stores the image and resets. -/
theorem download_stores (b : Board) (hi : Ideal b.hw) (m : Memory) (image : List Byte)
    (hmax : image.length ≤ flashAppSizeKb*1024) (polls : List Poll)
    (h : Downloads b m image polls) : (stage2After b m polls).reset = true ∧
      Stored appAddress image (stage2After b m polls).fmc.flash := by
  obtain ⟨before,ps,p,x0,xs,req,rfl,hr,h0,hx,hps,hok,hp,hreq⟩ := h.parts
  have hready := ready_after b (resetFmc m) (reset_idle m) before hr
  have hend : appAddress.toNat + image.length ≤ flashEnd.toNat := by
    have happ : appAddress.toNat = 0x4000 := rfl
    have hflash : flashEnd.toNat = 0x40000 := rfl
    have hsize : flashAppSizeKb*1024 = 0x3C000 := rfl
    omega
  have hstored := image_stored b hi appAddress (by decide) x0 h0 image xs hx hend _ hready hok
  obtain ⟨-,hready',haddr,-⟩ := address_set b appAddress x0 h0 _ hready
  have hlast : Ready (run (exchange b) (x0::xs) (stage2After b m before)) :=
    (download_keeps b hi appAddress (by decide) xs (sends_firmware hx hend) _ hready' haddr
      hok.2).1
  obtain ⟨hreset,hfmc⟩ := manifest_resets b req hreq _ hlast
  have hrun : stage2After b m (before++ps++[p]) =
      turn b (.setup req) (run (exchange b) (x0::xs) (stage2After b m before)) := by
    rw [stage2After, run_append, run_append, run_exchanges b _ ps hps, run, run, loop_event, hp]
    rfl
  rw [hrun, hfmc]
  exact ⟨hreset,hstored⟩

/-- After any number of boots, downloads, resets and losses of power in which the hosts
kept to the layout and the application left the bootloader alone, the bootloader is as it
was, the grounded pin leads to stage two, and an image that is then downloaded to the end
is started by the next boot exactly if its header passes the check. -/
theorem always_recoverable (u : CrcUnit σ) (b : Board) (hl : Local b.hw) (hi : Ideal b.hw)
    (lay : ℕ × List Segment) (hlay : hostLayout (stringDescriptor stridxDfuse) = some lay)
    (cs : List Cycle) (d : Device) (hc : Along (cycle u b) (Possible u b) cs d)
    (h : Along (cycle u b) (KeepsTo b lay) cs d) (image : List Byte) (h12 : 12 ≤ image.length)
    (hmax : image.length ≤ flashAppSizeKb*1024) (hlong : LongEnough image) (polls : List Poll)
    (hdown : Downloads b (run (cycle u b) cs d).flash image polls) :
    let broken := run (cycle u b) cs d
    let repaired := cycle u b ⟨false,.reset polls⟩ broken
    AgreeOn bootRegion d.flash broken.flash ∧ Possible u b ⟨false,.reset polls⟩ broken ∧
      ((stage1Main u (aliased repaired.flash) true repaired.marker).target = appAddress ↔
        Bootable u image) := by
  intro broken repaired
  rw [host_layout] at hlay
  cases hlay
  obtain ⟨hreset,hstored⟩ := download_stores b hi broken.flash image hmax polls hdown
  have hmarker : repaired.marker = 0 := main_marker u _ _ _
  have henter := asked_enters u (aliased broken.flash) false broken.marker (Or.inr rfl)
  rw [hmarker]
  exact ⟨cycles_kept u b hl cs d hc h,⟨henter,hreset⟩,stored_starts_iff hstored u h12 hlong⟩

def halfErased : List Cycle :=
  [⟨false,.cut (downloadPolls 0 [dfuseCmdErasePage,0x00,0x40,0x00,0x00]) 5⟩]

theorem one_word_downloads (m : Memory) : Downloads perfectBoard m oneWordImage
    ([busResetPoll] ++ (downloadPolls 0 [0x21,0x00,0x40,0x00,0x00] ++ downloadPolls 2 oneWordImage) ++
      manifestPolls) := by
  have hready := ready_after perfectBoard (resetFmc m) (reset_idle m) [busResetPoll] rfl
  have h0 : SetsAddress appAddress
      (hostExchange 0 [0x21,0x00,0x40,0x00,0x00] (by decide) (by decide)) :=
    ⟨rfl,by decide,rfl,rfl⟩
  have hx : Sends 2 oneWordImage [hostExchange 2 oneWordImage (by decide) (by decide)] :=
    ⟨rfl,rfl,rfl⟩
  have hpolls : (downloadPolls 0 [0x21,0x00,0x40,0x00,0x00] ++
      downloadPolls 2 oneWordImage).map Poll.event =
      (hostExchange 0 [0x21,0x00,0x40,0x00,0x00] (by decide) (by decide) ::
        [hostExchange 2 oneWordImage (by decide) (by decide)]).flatMap Exchange.events := by
    simp only [List.map_append, List.flatMap_cons, List.flatMap_nil, List.append_nil]
    rw [host_polls 0, host_polls 2]
  have hok := session_ends_well perfectBoard perfect_reliable appAddress (by decide) _ h0 _
    (sends_firmware hx (by decide)) _ hready
  exact ⟨[busResetPoll],_,_,_,_,_,rfl,rfl,h0,hx,hpolls,hok,
    setup_poll ⟨0x21,dfuDnload,2,0,0⟩,⟨by decide,rfl,rfl⟩⟩

theorem half_erased_recovered :
    let d : Device := ⟨fun _ => 0,0⟩
    let broken := run (cycle ch32Unit perfectBoard) halfErased d
    let polls := [busResetPoll] ++
      (downloadPolls 0 [0x21,0x00,0x40,0x00,0x00] ++ downloadPolls 2 oneWordImage) ++ manifestPolls
    let repaired := cycle ch32Unit perfectBoard ⟨false,.reset polls⟩ broken
    AgreeOn bootRegion d.flash broken.flash ∧
      Possible ch32Unit perfectBoard ⟨false,.reset polls⟩ broken ∧
        (stage1Main ch32Unit (aliased repaired.flash) true repaired.marker).target = appAddress := by
  obtain ⟨hkept,hpossible,hboot⟩ := always_recoverable ch32Unit perfectBoard perfect_local
    perfect_ideal _ host_layout halfErased ⟨fun _ => 0,0⟩
    ⟨asked_enters _ _ _ _ (Or.inr rfl),trivial⟩ ⟨by rw [KeepsTo]; decide +kernel,trivial⟩
    oneWordImage (by decide) (by decide) (by unfold LongEnough; decide) _ (one_word_downloads _)
  exact ⟨hkept,hpossible,hboot.mpr one_word_bootable⟩

end Swindle.BootCycles
