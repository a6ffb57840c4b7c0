import Swindle.ImageDownload

/-!
# Consecutive blocks and the base address

Nothing rejects a base that is not a multiple of the page size. Each block then
erases the page that it shares with the block before it, and each block's own
verification passes.
-/

set_option autoImplicit false

namespace Swindle.ConsecutiveBlocks
open Swindle.WordMemory Swindle.FlashController Swindle.FlashOperations Swindle.DfuHandlers
open Swindle.IdealFlash Swindle.FlashProgress Swindle.StoringFlash Swindle.UsbDriver
open Swindle.StageTwo Swindle.UsbHost Swindle.Transfers Swindle.Download Swindle.ImageDownload
open Swindle.MachineRuns

/-- When no block has failed, an image sent to an aligned base is in the flash.
At any base it is in the flash exactly if every byte that shares a page with the
next block is the byte that an erased cell reads as. -/
theorem image_survives_iff (b : Board) (f : Fmc) (hf : Idle f) (before : List Poll)
    (hr : (run (loopTurn b) before (boot f)).reset = false) (A : Addr) (x0 : Exchange)
    (h0 : SetsAddress A x0) (image : List Byte) (xs : List Exchange) (hx : Sends 2 image xs)
    (hend : A.toNat + image.length ≤ flashEnd.toNat) (ps : List Poll)
    (hp : ps.map Poll.event = (x0::xs).flatMap Exchange.events)
    (hok : Along (exchange b) (EndsWell b) (x0::xs) (run (loopTurn b) before (boot f))) :
    let m := (run (loopTurn b) (before++ps) (boot f)).fmc.flash
    (Ideal b.hw → A.toNat % 256 = 0 → Stored A image m) ∧
      (Storing b.hw → (Stored A image m ↔ SharedErased A image)) := by
  intro m
  have hs := ready_after b f hf before hr
  have hm : m = (run (exchange b) (x0::xs) (run (loopTurn b) before (boot f))).fmc.flash := by
    simp only [m]
    rw [run_append, run_exchanges b _ ps hp]
  rw [hm]
  constructor
  · intro hi hA
    exact image_stored b hi A hA x0 h0 image xs hx hend _ hs hok
  · intro hst
    exact held_stored_iff (session_held b hst A x0 h0 image xs hx hend _ hs hok)

def setAddress4000 : Exchange :=
  hostExchange 0 [dfuseCmdSetAddress,0x00,0x40,0x00,0x00] (by decide) (by decide)

def setAddress4001 : Exchange :=
  hostExchange 0 [dfuseCmdSetAddress,0x01,0x40,0x00,0x00] (by decide) (by decide)

/-- Three bytes at 0x4000. -/
theorem three_bytes_survive :
    let m := (run (loopTurn perfectBoard) ([] ++ (downloadPolls 0
      [dfuseCmdSetAddress,0x00,0x40,0x00,0x00] ++ downloadPolls 2 [1,2,3]))
        (perfectBoot fun _ => 0xFF)).fmc.flash
    (Ideal perfect → (0x4000 : Addr).toNat % 256 = 0 → Stored 0x4000 [1,2,3] m) ∧
      (Storing perfect → (Stored 0x4000 [1,2,3] m ↔ SharedErased 0x4000 [1,2,3])) := by
  have h0 : SetsAddress 0x4000 setAddress4000 := ⟨rfl,by decide,rfl,rfl⟩
  have hx : Sends 2 [1,2,3] [hostExchange 2 [1,2,3] (by decide) (by decide)] := ⟨rfl,rfl,rfl⟩
  have hpolls : (downloadPolls 0 [dfuseCmdSetAddress,0x00,0x40,0x00,0x00] ++
      downloadPolls 2 [1,2,3]).map Poll.event =
      [setAddress4000,hostExchange 2 [1,2,3] (by decide) (by decide)].flatMap Exchange.events := by
    simp only [List.map_append, List.flatMap_cons, List.flatMap_nil, List.append_nil]
    rw [host_polls 0, host_polls 2]
    rfl
  have hok := session_ends_well perfectBoard perfect_reliable 0x4000 (by decide) setAddress4000 h0
    _ (sends_firmware hx (by decide)) _
    (ready_after perfectBoard (resetFmc fun _ => 0xFF) (reset_idle _) [] rfl)
  exact image_survives_iff perfectBoard (resetFmc fun _ => 0xFF) (reset_idle _) [] rfl 0x4000
    setAddress4000 h0 [1,2,3] _ hx (by decide) _ hpolls hok

/-- 4097 zero bytes at 0x4001: the last byte of the first block is erased again. -/
theorem unaligned_image_damaged : ¬ ∀ (b : Board) (f : Fmc) (A : Addr) (x0 : Exchange)
    (image : List Byte) (xs : List Exchange), Storing b.hw → Idle f → SetsAddress A x0 →
    Sends 2 image xs → A.toNat + image.length ≤ flashEnd.toNat →
    Along (exchange b) (EndsWell b) (x0::xs) (boot f) →
    Stored A image (run (exchange b) (x0::xs) (boot f)).fmc.flash := by
  intro h
  have hready := ready_after perfectBoard (resetFmc fun _ => 0xFF) (reset_idle _) [] rfl
  have h0 : SetsAddress 0x4001 setAddress4001 := ⟨rfl,by decide,rfl,rfl⟩
  obtain ⟨zeros,hzero,hlen⟩ : ∃ bytes : List Byte, (∀ j (hj : j < bytes.length), bytes[j] = 0) ∧
      bytes.length = 4096 :=
    ⟨List.replicate 4096 0,fun _ _ => List.getElem_replicate _,List.length_replicate⟩
  have hne : zeros ≠ [] := by
    intro h0
    rw [h0, List.length_nil] at hlen
    omega
  have hx : Sends 2 (zeros ++ [0]) [hostExchange 2 zeros hne hlen.le,
      hostExchange 3 [0] (by decide) (by decide)] := by
    refine ⟨rfl,(List.take_left' hlen).symm,rfl,?_,?_⟩
    · rw [List.drop_left' hlen]
      rfl
    · rw [Sends, List.drop_left' hlen]
      rfl
  have hlen' : (zeros ++ [0]).length = 4097 := by
    rw [List.length_append, hlen, List.length_singleton]
  have htotal : (0x4001 : Addr).toNat + (zeros ++ [0]).length ≤ flashEnd.toNat := by
    rw [hlen']
    decide
  obtain ⟨hend0,hr,ha,-⟩ := address_set perfectBoard 0x4001 setAddress4001 h0 _ hready
  have hok := And.intro hend0 (blocks_complete perfectBoard perfect_storing perfect_reliable 0x4001 _
    (sends_firmware hx htotal) _ hr ha)
  have hstored := h perfectBoard (resetFmc fun _ => 0xFF) 0x4001 setAddress4001 _ _ perfect_storing
    (reset_idle _) h0 hx htotal hok
  have hheld := session_held perfectBoard perfect_storing 0x4001 setAddress4001 h0 _ _ hx htotal _
    hready hok
  have hshared : Shared 0x4001 (zeros ++ [0]).length 4095 := by
    rw [hlen']
    decide
  have hbyte := (held_stored_iff hheld).mp hstored 4095 (by rw [hlen']; decide) hshared
  rw [List.getElem_append_left (by rw [hlen]; decide), hzero] at hbyte
  exact absurd hbyte (by decide)

end Swindle.ConsecutiveBlocks
