import Swindle.StageOne
import Swindle.ImageDownload
import Swindle.ResetTiming

/-!
# From a download to the next boot

Stage two runs over the flash that stage one has left it, and stage one boots
again over the flash that stage two leaves. The marker is the only RAM that one
boot reads from the one before, and stage one clears it whatever it decides.
-/

set_option autoImplicit false

namespace Swindle.BootHandover
open Swindle.WordMemory Swindle.FlashController Swindle.FlashOperations Swindle.DfuHandlers
open Swindle.IdealFlash Swindle.FlashProgress Swindle.UsbDriver Swindle.StageTwo Swindle.UsbHost
open Swindle.Transfers Swindle.Download Swindle.ImageDownload Swindle.ResetTiming
open Swindle.StageOne Swindle.MachineRuns

variable {σ : Type}

/-- The memory behind the flash controller, read through the alias at zero. -/
def aliased (m : Memory) : Memory := fun a => m (phys a)

def imageWord (image : List Byte) (k : ℕ) : Word :=
  littleEndian (bytesAt image (4*k)) (bytesAt image (4*k+1)) (bytesAt image (4*k+2))
    (bytesAt image (4*k+3))

def Bootable (u : CrcUnit σ) (image : List Byte) : Prop :=
  let n := imageWord image 1
  let c := imageWord image 2
  (0 < n ∧ n < 256*1024) ∧
    (n = 0x1234 ∧ c = 0x5678 ∨
      u.hash ((List.range (n.toNat/4)).map fun i => imageWord image (3+i)) = c)

/-- The image is as long as its header says, where the header says something. -/
def LongEnough (image : List Byte) : Prop :=
  let n := imageWord image 1
  0 < n → n < 256*1024 → 12 + 4*(n.toNat/4) ≤ image.length

structure EndsDownload (req : SetupPacket) : Prop where
  toClass : requestType req = 0x20
  request : req.bRequest = dfuDnload
  empty : req.wLength = 0

section Stored
variable {image : List Byte} {m : Memory} (h : Stored appAddress image m)
include h

theorem stored_word (k : ℕ) (hk : 4*k+4 ≤ image.length) :
    readWord (aliased m) (appAddress + BitVec.ofNat 32 (4*k)) = imageWord image k := by
  have hbyte : ∀ j < 4, aliased m (appAddress + BitVec.ofNat 32 (4*k+j)) =
      bytesAt image (4*k+j) := by
    intro j hj
    rw [bytesAt_get image _ (by omega)]
    exact h (4*k+j) (by omega)
  have h1 := offset_offset appAddress (4*k) 1
  have h2 := offset_offset appAddress (4*k) 2
  have h3 := offset_offset appAddress (4*k) 3
  rw [imageWord, ← hbyte 1 (by decide), ← hbyte 2 (by decide), ← hbyte 3 (by decide), ← h1, ← h2,
    ← h3]
  exact congrArg (littleEndian · _ _ _) (hbyte 0 (by decide))

theorem stored_header (h12 : 12 ≤ image.length) :
    imageSize (aliased m) = imageWord image 1 ∧ checksum (aliased m) = imageWord image 2 :=
  ⟨stored_word h 1 (by omega),stored_word h 2 (by omega)⟩

theorem stored_words (n : ℕ) (hn : 12 + 4*n ≤ image.length) :
    words (aliased m) (appAddress + 12) n =
      (List.range n).map fun i => imageWord image (3+i) := by
  rw [words, wordAddrs, List.map_map]
  apply List.map_congr_left
  intro i hi
  rw [List.mem_range] at hi
  rw [← stored_word h (3+i) (by omega), Nat.mul_add, ← offset_offset appAddress (4*3) (4*i)]
  rfl

/-- What stage one decides of a stored image, when nobody asks for DFU. -/
theorem stored_starts_iff (u : CrcUnit σ) (h12 : 12 ≤ image.length) (hlong : LongEnough image) :
    (stage1Main u (aliased m) true 0).target = appAddress ↔ Bootable u image := by
  obtain ⟨hn,hc⟩ := stored_header h h12
  rw [main_starts_iff, and_iff_right nobody_asked, SizeAccepted, Unchecked, imageWords, hn, hc]
  by_cases hs : 0 < imageWord image 1 ∧ imageWord image 1 < 256*1024
  · rw [stored_words h _ (hlong hs.1 hs.2)]
    rfl
  · exact iff_of_false (fun hc => hs hc.1) (fun hc => hs hc.1)

end Stored

theorem manifest_resets (b : Board) (req : SetupPacket) (hreq : EndsDownload req) (s : Stage2)
    (hs : Ready s) : (turn b (.setup req) s).reset = true ∧
      (turn b (.setup req) s).fmc = s.fmc := by
  refine ⟨?_,turn_fmc b _ s⟩
  rw [turn_resets b _ s (ready_settled hs) hs.running]
  exact ⟨hs.running,hreq.toClass,Or.inr ⟨hreq.request,hreq.empty⟩⟩

/-- Whatever the flash held and however DFU was entered: after an image has been
downloaded without an error and the empty DNLOAD has made stage two reset, the next
boot starts the application exactly if the header of the image passes the
check, and enters stage two again otherwise. -/
theorem download_decides_boot (u : CrcUnit σ) (b : Board) (hi : Ideal b.hw) (f : Fmc)
    (hf : Idle f) (dfuPin : Bool) (marker : BitVec 64)
    (_hdfu : (stage1Main u (aliased f.flash) dfuPin marker).target = stage2RamAddr)
    (before : List Poll) (hr : (run (loopTurn b) before (boot f)).reset = false)
    (image : List Byte) (h12 : 12 ≤ image.length) (hmax : image.length ≤ flashAppSizeKb*1024)
    (hlong : LongEnough image) (x0 : Exchange) (h0 : SetsAddress appAddress x0)
    (xs : List Exchange) (hx : Sends 2 image xs) (ps : List Poll)
    (hps : ps.map Poll.event = (x0::xs).flatMap Exchange.events)
    (hok : Along (exchange b) (EndsWell b) (x0::xs) (run (loopTurn b) before (boot f)))
    (p : Poll) (req : SetupPacket) (hp : p.event = .setup req) (hreq : EndsDownload req) :
    let s := run (loopTurn b) (before++ps++[p]) (boot f)
    let next := stage1Main u (aliased s.fmc.flash) true
      (stage1Main u (aliased f.flash) dfuPin marker).marker
    s.reset = true ∧ (next.target = appAddress ↔ Bootable u image) ∧
      (¬ Bootable u image → next.copied = true ∧ next.target = stage2RamAddr) := by
  have hready := ready_after b f hf before hr
  have hend : appAddress.toNat + image.length ≤ flashEnd.toNat := by
    have happ : appAddress.toNat = 0x4000 := rfl
    have hflash : flashEnd.toNat = 0x40000 := rfl
    have happ : flashAppSizeKb*1024 = 0x3C000 := rfl
    omega
  have hstored := image_stored b hi appAddress (by decide) x0 h0 image xs hx hend _ hready hok
  obtain ⟨-,hready',haddr,-⟩ := address_set b appAddress x0 h0 _ hready
  have hlast : Ready (run (exchange b) (x0::xs) (run (loopTurn b) before (boot f))) :=
    (download_keeps b hi appAddress (by decide) xs (sends_firmware hx hend) _ hready' haddr
      hok.2).1
  obtain ⟨hreset,hfmc⟩ := manifest_resets b req hreq _ hlast
  have hrun : run (loopTurn b) (before++ps++[p]) (boot f) =
      turn b (.setup req) (run (exchange b) (x0::xs) (run (loopTurn b) before (boot f))) := by
    rw [run_append, run_append, run_exchanges b _ ps hps, run, run, loop_event, hp]
  simp only [hrun, hfmc, main_marker]
  have hiff := stored_starts_iff hstored u h12 hlong
  refine ⟨hreset,hiff,fun hn => ?_⟩
  rcases main_else u _ true 0 with hm | hm
  · exact absurd (hiff.mp hm) hn
  · exact hm

theorem asked_enters (u : CrcUnit σ) (m : Memory) (dfuPin : Bool) (marker : BitVec 64)
    (h : Asked dfuPin marker) : (stage1Main u m dfuPin marker).target = stage2RamAddr := by
  rcases main_else u m dfuPin marker with hm | hm
  · exact absurd h ((main_starts_iff u m dfuPin marker).mp hm).1
  · exact hm.2

/-- An image of one word, with its checksum. -/
def oneWordImage : List Byte := [0x6F,0,0,0,4,0,0,0,0xF8,0x65,0x06,0x97,9,9,9,9]

theorem one_word_bootable : Bootable ch32Unit oneWordImage := by
  unfold Bootable
  decide +kernel

/-- DFU entered by the pin over an erased flash, and an image that is started then. -/
theorem one_word_decides :
    let polls := downloadPolls 0 [0x21,0x00,0x40,0x00,0x00] ++ downloadPolls 2 oneWordImage
    let s := run (loopTurn perfectBoard) ([busResetPoll]++polls++manifestPolls)
      (perfectBoot fun _ => 0xFF)
    let next := stage1Main ch32Unit (aliased s.fmc.flash) true
      (stage1Main ch32Unit (aliased fun _ => 0xFF) false 0).marker
    s.reset = true ∧ next.target = appAddress := by
  have hready := ready_after perfectBoard (resetFmc fun _ => 0xFF) (reset_idle _) [busResetPoll] rfl
  have h0 : SetsAddress appAddress
      (hostExchange 0 [0x21,0x00,0x40,0x00,0x00] (by decide) (by decide)) :=
    ⟨rfl,by decide,rfl,rfl⟩
  have hx : Sends 2 oneWordImage [hostExchange 2 oneWordImage (by decide) (by decide)] :=
    ⟨rfl,rfl,rfl⟩
  have hpolls : (downloadPolls 0 [0x21,0x00,0x40,0x00,0x00] ++
      downloadPolls 2 oneWordImage).map Poll.event =
      (hostExchange 0 [0x21,0x00,0x40,0x00,0x00] (by decide) (by decide) ::
        [hostExchange 2 oneWordImage (by decide) (by decide)]).flatMap Exchange.events := by
    simp only [List.map_append, List.flatMap_cons, List.flatMap_nil, List.append_nil]
    rw [host_polls 0, host_polls 2]
  obtain ⟨hreset,hboot,-⟩ := download_decides_boot ch32Unit perfectBoard perfect_ideal
    (resetFmc fun _ => 0xFF) (reset_idle _) false 0 (asked_enters _ _ _ _ (Or.inr rfl)) [busResetPoll] rfl
    oneWordImage (by decide) (by decide) (by unfold LongEnough; decide) _ h0 _ hx _ hpolls
    (session_ends_well perfectBoard perfect_reliable appAddress (by decide) _ h0 _
      (sends_firmware hx (by decide)) _ hready)
    _ ⟨0x21,dfuDnload,2,0,0⟩ (setup_poll _) ⟨by decide,rfl,rfl⟩
  exact ⟨hreset,hboot.mpr one_word_bootable⟩

end Swindle.BootHandover
