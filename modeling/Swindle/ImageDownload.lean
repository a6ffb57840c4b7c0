import Swindle.Download
import Swindle.StoringFlash

/-!
# An image in consecutive blocks

An image is sent as blocks 2, 3, ... of 4096 bytes, the last one possibly
shorter. From an aligned base it is in the flash when no block has failed. From
another base a block erases the last bytes of the block before it.
-/

set_option autoImplicit false

namespace Swindle.ImageDownload
open Swindle.WordMemory Swindle.FlashController Swindle.FlashOperations Swindle.DfuHandlers
open Swindle.FlashFrames Swindle.IdealFlash Swindle.FlashProgress Swindle.StoringFlash
open Swindle.UsbDriver Swindle.StageTwo Swindle.UsbHost Swindle.Transfers Swindle.Download
open Swindle.MachineRuns

/-- The exchanges carry the image, from this block number on. -/
def Sends : ℕ → List Byte → List Exchange → Prop
  | _, image, [] => image = []
  | k, image, x::xs => x.block = k ∧ x.payload = image.take 4096 ∧
      Sends (k+1) (image.drop 4096) xs

def imageAddr (A : Addr) (j : ℕ) : Addr := A + BitVec.ofNat 32 j

def Stored (A : Addr) (image : List Byte) (m : Memory) : Prop :=
  ∀ j (hj : j < image.length), m (phys (imageAddr A j)) = image[j]

theorem bytesAt_get (bytes : List Byte) (j : ℕ) (hj : j < bytes.length) :
    bytesAt bytes j = bytes[j] := by
  rw [bytesAt, List.getD_eq_getElem?_getD, List.getElem?_eq_getElem hj, Option.getD_some]

theorem sends_blocks {k : ℕ} {image : List Byte} {xs : List Exchange} (h : Sends k image xs)
    {x : Exchange} (hx : x ∈ xs) : k ≤ x.block ∧
      (x.block-k)*4096 + x.payload.length ≤ image.length := by
  induction xs generalizing k image with
  | nil => cases hx
  | cons y ys ih =>
    obtain ⟨hk,hp,hrest⟩ := h
    rcases List.mem_cons.mp hx with rfl | hx
    · rw [hp, List.length_take]
      omega
    · obtain ⟨hle,hlen⟩ := ih hrest hx
      have hpos := length_pos x
      rw [List.length_drop] at hlen
      omega

theorem sends_firmware {A : Addr} {image : List Byte} {xs : List Exchange}
    (h : Sends 2 image xs) (hend : A.toNat + image.length ≤ flashEnd.toNat) :
    ∀ x ∈ xs, Firmware A x := by
  intro x hx
  obtain ⟨h2,hlen⟩ := sends_blocks h hx
  exact ⟨h2,by omega⟩

theorem sends_byte {k : ℕ} {image : List Byte} {xs : List Exchange} (h : Sends k image xs)
    (j : ℕ) (hj : j < image.length) : ∃ ys x zs, xs = ys++x::zs ∧ x.block = k + j/4096 ∧
      j%4096 < x.payload.length ∧ bytesAt x.payload (j%4096) = bytesAt image j ∧
      ∀ z ∈ zs, z.block ≠ x.block := by
  induction xs generalizing k image j with
  | nil =>
    rw [Sends] at h
    rw [h] at hj
    exact absurd hj (Nat.not_lt_zero j)
  | cons y ys ih =>
    obtain ⟨hk,hp,hrest⟩ := h
    by_cases hfirst : j < 4096
    · refine ⟨[],y,ys,rfl,by omega,?_,?_,fun z hz => ?_⟩
      · rw [hp, List.length_take]
        omega
      · rw [hp, Nat.mod_eq_of_lt hfirst]
        simp only [bytesAt, List.getD_eq_getElem?_getD, List.getElem?_take, if_pos hfirst]
      · have := (sends_blocks hrest hz).1
        omega
    · have hj' : j-4096 < (image.drop 4096).length := by
        rw [List.length_drop]
        omega
      obtain ⟨ys',x,zs,rfl,hx,hlt,hb,hlast⟩ := ih hrest (j-4096) hj'
      refine ⟨y::ys',x,zs,rfl,by omega,by omega,?_,hlast⟩
      rw [show j%4096 = (j-4096)%4096 by omega, hb]
      simp only [bytesAt, List.getD_eq_getElem?_getD, List.getElem?_drop]
      rw [show 4096 + (j-4096) = j by omega]

/-- From an aligned base the image is stored. -/
theorem image_stored (b : Board) (hi : Ideal b.hw) (A : Addr) (hA : A.toNat % 256 = 0)
    (x0 : Exchange) (h0 : SetsAddress A x0) (image : List Byte) (xs : List Exchange)
    (hx : Sends 2 image xs) (hend : A.toNat + image.length ≤ flashEnd.toNat) (s : Stage2)
    (hs : Ready s) (hok : Along (exchange b) (EndsWell b) (x0::xs) s) :
    Stored A image (run (exchange b) (x0::xs) s).fmc.flash := by
  intro j hj
  have hf := sends_firmware hx hend
  obtain ⟨ys,x,zs,rfl,hblock,hlt,hbyte,hlast⟩ := sends_byte hx j hj
  have h := session_holds b hi A hA x0 h0 ys x zs hf hlast s hs hok (j%4096) hlt
  have haddr : byteAddr A x.block (j%4096) = imageAddr A j := by
    rw [byteAddr, imageAddr, show (x.block-2)*4096 + j%4096 = j by omega]
  rw [haddr, hbyte, bytesAt_get image j hj] at h
  exact h

/-! ## Any base -/

/-- Byte `j` of an image of `n` bytes shares a page with the next block. -/
def Shared (A : Addr) (n j : ℕ) : Prop :=
  4096 ≤ j%4096 + A.toNat%256 ∧ (j/4096+1)*4096 < n

instance (A : Addr) (n j : ℕ) : Decidable (Shared A n j) := inferInstanceAs (Decidable (_ ∧ _))

/-- What the flash holds of an image: the shared bytes are erased. -/
def Held (A : Addr) (image : List Byte) (m : Memory) : Prop :=
  ∀ j < image.length, m (phys (imageAddr A j)) =
    if Shared A image.length j then erasedByte (phys (imageAddr A j)) else bytesAt image j

theorem block_held (b : Board) (hst : Storing b.hw) (A : Addr) (sent : List Byte) (k : ℕ)
    (hsent : sent.length = 4096*k) (x : Exchange) (hx : Firmware A x) (hblock : x.block = k+2)
    (s : Stage2) (hs : Ready s) (ha : s.dfu.dfuAddress = A) (hok : EndsWell b x s)
    (hheld : Held A sent s.fmc.flash) :
    Ready (exchange b x s) ∧ (exchange b x s).dfu.dfuAddress = A ∧
      Held A (sent ++ x.payload) (exchange b x s).fmc.flash := by
  obtain ⟨d,hd⟩ := block_write b hx hs ha
  have hwa := hd.start
  have hlen := hd.length
  have hin := hd.inside
  have hfit : x.payload.length ≤ 4096 := x.transfer.fits
  have hpos := length_pos x
  obtain ⟨hstored,hshared,hbefore⟩ := write_block_storing hst (source b x s)
    x.transfer.req.wLength d s.fmc hs.idle (by omega) hin (hd.ends.mp hok)
  rw [← hd.fmc] at hstored hshared hbefore
  refine ⟨hd.ready,hd.address,fun j hj => ?_⟩
  rw [List.length_append] at hj ⊢
  have ho := offset_toNat A j
  have hp := phys_toNat (imageAddr A j) (by rw [imageAddr]; omega)
  rw [imageAddr] at hp
  rw [bytesAt_append]
  by_cases hlt : j < sent.length
  · rw [if_pos hlt]
    have hold := hheld j hlt
    rw [imageAddr] at hold ⊢
    by_cases htail : 4096*k ≤ j + A.toNat%256
    · have hsh : Shared A (sent.length + x.payload.length) j := ⟨by omega,by omega⟩
      rw [if_pos hsh]
      exact hshared _ (by omega) (by omega)
    · have hsame : Shared A (sent.length + x.payload.length) j ↔ Shared A sent.length j := by
        unfold Shared
        omega
      rw [hbefore _ (by omega), hold]
      simp only [hsame]
  · have hnot : ¬ Shared A (sent.length + x.payload.length) j := by
      unfold Shared
      omega
    have ho' := offset_toNat (phys (writeAddr d)) (j - sent.length)
    have hp' := phys_toNat (writeAddr d) (by omega)
    have heq : phys (imageAddr A j) =
        phys (writeAddr d) + BitVec.ofNat 32 (j - sent.length) := by
      rw [← BitVec.toNat_inj, imageAddr]
      omega
    rw [if_neg hlt, if_neg hnot, heq, hstored _ (by omega)]
    exact source_payload b x s (by omega)

theorem blocks_held (b : Board) (hst : Storing b.hw) (A : Addr) (xs : List Exchange) :
    ∀ (k : ℕ) (sent rest : List Byte) (s : Stage2), (rest ≠ [] → sent.length = 4096*k) →
      Sends (k+2) rest xs → (∀ x ∈ xs, Firmware A x) → Ready s → s.dfu.dfuAddress = A →
      Along (exchange b) (EndsWell b) xs s → Held A sent s.fmc.flash →
      Held A (sent++rest) (run (exchange b) xs s).fmc.flash := by
  induction xs with
  | nil =>
    intro k sent rest s _ hrest _ _ _ _ hheld
    rw [Sends] at hrest
    rw [hrest, List.append_nil]
    exact hheld
  | cons x xs ih =>
    rintro k sent rest s hsent ⟨hblock,hp,hrest⟩ hf hs ha ⟨hok,hoks⟩ hheld
    have hpos := length_pos x
    have hlen : x.payload.length = min 4096 rest.length := by rw [hp, List.length_take]
    have hne : rest ≠ [] := by
      intro h0
      rw [h0, List.length_nil] at hlen
      omega
    obtain ⟨hr,haddr,hheld'⟩ := block_held b hst A sent k (hsent hne) x (hf x (by simp)) hblock s hs
      ha hok hheld
    have h := ih (k+1) (sent ++ x.payload) (rest.drop 4096) (exchange b x s) (fun hmore => by
      have hd : 0 < (rest.drop 4096).length := List.length_pos_of_ne_nil hmore
      have hk := hsent hne
      rw [List.length_drop] at hd
      rw [List.length_append]
      omega) hrest (fun z hz => hf z (by simp [hz])) hr haddr hoks hheld'
    rw [run]
    rwa [hp, List.append_assoc, List.take_append_drop] at h

theorem blocks_complete (b : Board) (hst : Storing b.hw) (hr : Reliable b.hw) (A : Addr)
    (xs : List Exchange) (hx : ∀ x ∈ xs, Firmware A x) (s : Stage2) (hs : Ready s)
    (ha : s.dfu.dfuAddress = A) : Along (exchange b) (EndsWell b) xs s := by
  induction xs generalizing s with
  | nil => trivial
  | cons x xs ih =>
    have hf := hx x (by simp)
    obtain ⟨d,hd⟩ := block_write b hf hs ha
    obtain ⟨hdone,-⟩ := write_block_completes hst hr (source b x s) x.transfer.req.wLength d s.fmc
      hs.idle hd.inside
    have hend := hd.ends
    rw [hdone] at hend
    exact ⟨hend.mpr hd.live,
      ih (fun z hz => hx z (by simp [hz])) _ hd.ready hd.address⟩

/-! ## What the flash holds at the end -/

/-- The bytes that share a page with the next block read as erased in the image too. -/
def SharedErased (A : Addr) (image : List Byte) : Prop :=
  ∀ j (hj : j < image.length), Shared A image.length j →
    image[j] = erasedByte (phys (imageAddr A j))

theorem held_stored_iff {A : Addr} {image : List Byte} {m : Memory} (h : Held A image m) :
    Stored A image m ↔ SharedErased A image := by
  constructor
  · intro hs j hj hsh
    rw [← hs j hj, h j hj, if_pos hsh]
  · intro he j hj
    rw [h j hj]
    split_ifs with hsh
    · exact (he j hj hsh).symm
    · exact bytesAt_get image j hj

theorem session_held (b : Board) (hst : Storing b.hw) (A : Addr) (x0 : Exchange)
    (h0 : SetsAddress A x0) (image : List Byte) (xs : List Exchange) (hx : Sends 2 image xs)
    (hend : A.toNat + image.length ≤ flashEnd.toNat) (s : Stage2) (hs : Ready s)
    (hok : Along (exchange b) (EndsWell b) (x0::xs) s) :
    Held A image (run (exchange b) (x0::xs) s).fmc.flash := by
  obtain ⟨-,hr,ha,-⟩ := address_set b A x0 h0 s hs
  exact blocks_held b hst A xs 0 [] image _ (fun _ => rfl) hx (sends_firmware hx hend) hr ha hok.2
    (fun j hj => absurd hj (Nat.not_lt_zero j))

end Swindle.ImageDownload
