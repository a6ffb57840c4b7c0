import Swindle.FlashController

/-!
# The DFU request and data handlers

Requests move the state and the status; the payload of a download is acted on
when its data stage is over. Block zero carries the DfuSe commands, blocks from
two on carry firmware, and what is left over falls through without a trace.
-/

set_option autoImplicit false

namespace Swindle.DfuHandlers
open Swindle.WordMemory Swindle.FlashController

def flashBootldrSizeKb : ℕ := 16
def flashAppSizeKb : ℕ := 240

/-- Set once by `stage2_main`, before the poll loop. -/
def flashEnd : Addr := BitVec.ofNat 32 ((flashBootldrSizeKb + flashAppSizeKb) * 1024)

def dfuTransferSize : Addr := 4096
def dfuSectorSizeKb : ℕ := 4
def dfuSectorSize : Addr := BitVec.ofNat 32 (dfuSectorSizeKb * 1024)

inductive DfuStatus where
  | ok | errTarget | errFile | errWrite | errErase | errCheckErased | errProg | errVerify
  | errAddress | errNotdone | errFirmware | errVendor | errUsbr | errPor | errUnknown | errStalledpkt
  deriving DecidableEq, Repr

inductive DfuState where
  | appIdle | appDetach | dfuIdle | dfuDnloadSync | dfuDnbusy | dfuDnloadIdle | dfuManifestSync
  | dfuManifest | dfuManifestWaitReset | dfuUploadIdle | dfuError
  deriving DecidableEq, Repr

/-- The numbers the enumerations have on the wire. -/
def DfuStatus.code (s : DfuStatus) : Byte := BitVec.ofNat 8 s.ctorIdx
def DfuState.code (s : DfuState) : Byte := BitVec.ofNat 8 s.ctorIdx

def dfuDetach : Byte := 0
def dfuDnload : Byte := 1
def dfuUpload : Byte := 2
def dfuGetstatus : Byte := 3
def dfuClrstatus : Byte := 4
def dfuGetstate : Byte := 5
def dfuAbort : Byte := 6

structure SetupPacket where
  bmRequestType : Byte
  bRequest : Byte
  wValue : BitVec 16
  wIndex : BitVec 16
  wLength : BitVec 16
  deriving DecidableEq, Repr

structure Dfu where
  state : DfuState
  status : DfuStatus
  dfuAddress : Addr
  dfuBlockNum : BitVec 32
  deriving DecidableEq, Repr

def Dfu.init : Dfu := ⟨.dfuIdle,.ok,0,0⟩

/-- What a request handler hands back: whether it knew the request, and the
response bytes. A null pointer of length zero is the empty response. -/
structure Reply where
  dfu : Dfu
  ret : Bool
  data : List Byte
  deriving DecidableEq, Repr

/-- The state a status request leaves behind and reports. -/
def getstatusState : DfuState → DfuState
  | .dfuDnloadSync => .dfuDnbusy
  | .dfuDnbusy => .dfuDnloadIdle
  | .dfuManifestSync => .dfuManifest
  | s => s

def dfuHandleRequest (req : SetupPacket) (d : Dfu) : Reply :=
  if req.bRequest = dfuDetach then
    if req.wValue = 0 then ⟨{ d with status := .ok, state := .appDetach },true,[]⟩
    -- a non-zero timeout is not waited for: the main loop resets at once
    else ⟨{ d with state := .appDetach, status := .ok },true,[]⟩
  else if req.bRequest = dfuDnload then
    if req.wLength = 0 then ⟨{ d with state := .dfuManifestSync, status := .ok },true,[]⟩
    else ⟨{ d with dfuBlockNum := req.wValue.setWidth 32, state := .dfuDnloadSync, status := .ok },
      true,[]⟩
  else if req.bRequest = dfuUpload then
    ⟨{ d with state := .dfuUploadIdle, status := .ok },true,[]⟩
  else if req.bRequest = dfuGetstatus then
    let state := getstatusState d.state
    ⟨{ d with state := state },true,[d.status.code,10,0,0,state.code,0]⟩
  else if req.bRequest = dfuClrstatus then
    ⟨{ d with status := .ok, state := .dfuIdle },true,[]⟩
  else if req.bRequest = dfuGetstate then ⟨d,true,[d.state.code]⟩
  else if req.bRequest = dfuAbort then ⟨{ d with state := .dfuIdle, status := .ok },true,[]⟩
  else ⟨d,false,[]⟩

section Requests
variable (req : SetupPacket) (d : Dfu)

theorem detach_reply (h : req.bRequest = dfuDetach) :
    dfuHandleRequest req d = ⟨{ d with state := .appDetach, status := .ok },true,[]⟩ := by
  simp only [dfuHandleRequest, h, if_true]
  split_ifs <;> rfl

theorem manifest_reply (h : req.bRequest = dfuDnload) (hl : req.wLength = 0) :
    dfuHandleRequest req d = ⟨{ d with state := .dfuManifestSync, status := .ok },true,[]⟩ := by
  rw [dfuHandleRequest, if_neg (by rw [h]; decide), if_pos h, if_pos hl]

theorem dnload_reply (h : req.bRequest = dfuDnload) (hl : req.wLength ≠ 0) :
    dfuHandleRequest req d =
      ⟨{ d with dfuBlockNum := req.wValue.setWidth 32, state := .dfuDnloadSync, status := .ok },
        true,[]⟩ := by
  rw [dfuHandleRequest, if_neg (by rw [h]; decide), if_pos h, if_neg hl]

theorem getstatus_reply (h : req.bRequest = dfuGetstatus) :
    dfuHandleRequest req d =
      ⟨{ d with state := getstatusState d.state },true,
        [d.status.code,10,0,0,(getstatusState d.state).code,0]⟩ := by
  simp only [dfuHandleRequest, h]
  rfl

theorem getstate_reply (h : req.bRequest = dfuGetstate) :
    dfuHandleRequest req d = ⟨d,true,[d.state.code]⟩ := by
  simp only [dfuHandleRequest, h]
  rfl

def stateSet : Option DfuState :=
  if req.bRequest = dfuDetach then some .appDetach
  else if req.bRequest = dfuDnload then
    if req.wLength = 0 then some .dfuManifestSync else some .dfuDnloadSync
  else if req.bRequest = dfuUpload then some .dfuUploadIdle
  else if req.bRequest = dfuClrstatus ∨ req.bRequest = dfuAbort then some .dfuIdle
  else none

/-- A request sets a state with status OK, or asks for the state. Only a DNLOAD
with a payload names a block, and none moves the address. -/
theorem request_dfu : (dfuHandleRequest req d).dfu =
    match stateSet req with
    | some st => { d with
        state := st, status := .ok,
        dfuBlockNum := if req.bRequest = dfuDnload ∧ req.wLength ≠ 0 then req.wValue.setWidth 32
          else d.dfuBlockNum }
    | none => if req.bRequest = dfuGetstatus then { d with state := getstatusState d.state }
        else d := by
  by_cases h0 : req.bRequest = dfuDetach
  · have h1 : req.bRequest ≠ dfuDnload := by rw [h0]; decide
    rw [detach_reply req d h0, stateSet, if_pos h0]
    simp only [h1, false_and, if_false]
  · by_cases h1 : req.bRequest = dfuDnload
    · by_cases hl : req.wLength = 0
      · rw [manifest_reply req d h1 hl, stateSet, if_neg h0, if_pos h1, if_pos hl]
        simp only [hl, not_true_eq_false, ne_eq, and_false, if_false]
      · rw [dnload_reply req d h1 hl, stateSet, if_neg h0, if_pos h1, if_neg hl]
        simp only [h1, hl, not_false_eq_true, ne_eq, and_self, if_true]
    · by_cases h3 : req.bRequest = dfuGetstatus
      · have hnone : stateSet req = none := by
          rw [stateSet, if_neg h0, if_neg h1, h3]
          decide
        rw [getstatus_reply req d h3, hnone]
        exact (if_pos h3).symm
      · by_cases h5 : req.bRequest = dfuGetstate
        · have hnone : stateSet req = none := by
            rw [stateSet, if_neg h0, if_neg h1, h5]
            decide
          rw [getstate_reply req d h5, hnone]
          exact (if_neg h3).symm
        · simp only [dfuHandleRequest, stateSet, h0, h1, h3, h5, if_false, false_and]
          split_ifs <;> first | rfl | simp_all

theorem stateSet_cases {st : DfuState} (h : stateSet req = some st) :
    st = .appDetach ∧ req.bRequest = dfuDetach ∨
    st = .dfuManifestSync ∧ req.bRequest = dfuDnload ∧ req.wLength = 0 ∨
    st = .dfuDnloadSync ∧ req.bRequest = dfuDnload ∧ req.wLength ≠ 0 ∨
    st = .dfuUploadIdle ∧ req.bRequest = dfuUpload ∨
    st = .dfuIdle ∧ (req.bRequest = dfuClrstatus ∨ req.bRequest = dfuAbort) := by
  unfold stateSet at h
  split_ifs at h <;> simp_all

theorem request_blockNum (h : ¬ (req.bRequest = dfuDnload ∧ req.wLength ≠ 0)) :
    (dfuHandleRequest req d).dfu.dfuBlockNum = d.dfuBlockNum := by
  rw [request_dfu]
  cases stateSet req with
  | some st => exact if_neg h
  | none => simp only; split_ifs <;> rfl

theorem request_address : (dfuHandleRequest req d).dfu.dfuAddress = d.dfuAddress := by
  rw [request_dfu]
  cases stateSet req with
  | some st => rfl
  | none => simp only; split_ifs <;> rfl

end Requests

def Dfu.done (d : Dfu) : Dfu := { d with status := .ok }

def Dfu.fail (d : Dfu) (e : DfuStatus) : Dfu := { d with status := e, state := .dfuError }

/-- The addresses of a page loop `for (a = ...; a < limit; a += FLASH_SECTOR_SIZE)`.
The bound on the limit is what keeps `a` from wrapping. -/
def pages (a limit : Addr) (h : limit ≤ 0xFFFFFF00) : List Addr :=
  if a < limit then a :: pages (a + flashSectorSize) limit h else []
termination_by limit.toNat - a.toNat
decreasing_by simp only [flashSectorSize]; bv_omega

theorem flashEnd_le {limit : Addr} (h : ¬ flashEnd < limit) : limit ≤ 0xFFFFFF00 := by
  have hf : flashEnd = 0x40000 := rfl
  rw [hf] at h
  bv_omega

/-- `addr & ~(DFU_SECTOR_SIZE - 1)` -/
def sectorAddr (addr : Addr) : Addr := addr &&& ~~~(dfuSectorSize - 1)

/-- `wa & ~(FLASH_SECTOR_SIZE - 1)` -/
def pageAddr (wa : Addr) : Addr := wa &&& ~~~(flashSectorSize - 1)

theorem sectorAddr_toNat (addr : Addr) : (sectorAddr addr).toNat = addr.toNat / 4096 * 4096 :=
  alignDown_toNat addr 12

theorem pageAddr_toNat (wa : Addr) : (pageAddr wa).toNat = wa.toNat / 256 * 256 :=
  alignDown_toNat wa 8

/-- The end of a sector is a multiple of the sector size, or has wrapped to zero. -/
theorem sectorEnd_le (addr : Addr) : sectorAddr addr + dfuSectorSize ≤ 0xFFFFFF00 := by
  have h := sectorAddr_toNat addr
  have hs : dfuSectorSize = 4096 := rfl
  rw [hs]
  bv_omega

/-- Step 1 of ERASE_PAGE: every page of the sector reads erased already. -/
def sectorIsErased (m : Memory) (eraseAddr : Addr) (h : eraseAddr + dfuSectorSize ≤ 0xFFFFFF00) :
    Bool :=
  (pages eraseAddr (eraseAddr + dfuSectorSize) h).all (fmcPageIsErased m)

/-- Step 2 of ERASE_PAGE: a 32 KB block when the sector starts one, else 4 KB. -/
def eraseSector (hw : Controller) (eraseAddr : Addr) (f : Fmc) : Bool × Fmc :=
  if eraseAddr % 32768 = 0 then fmcErase32k hw eraseAddr f
  else fmcEraseRange hw eraseAddr dfuSectorSizeKb f

def dfuErasePage (hw : Controller) (addr : Addr) (d : Dfu) (f : Fmc) : Dfu × Fmc :=
  let eraseAddr := sectorAddr addr
  if sectorIsErased f.flash eraseAddr (sectorEnd_le addr) then (d.done, f)
  else
    let r := eraseSector hw eraseAddr f
    if r.1 then (d.done, r.2) else (d.fail .errErase, r.2)

def dfuseCmdSetAddress : Byte := 0x21
def dfuseCmdErasePage : Byte := 0x41

/-- Bytes 1 to 4 of a command, least significant first. -/
def commandAddr (data : Source) : Addr :=
  (data.byte 1).setWidth 32 ||| (data.byte 2).setWidth 32 <<< 8 |||
    (data.byte 3).setWidth 32 <<< 16 ||| (data.byte 4).setWidth 32 <<< 24

def dfuCommand (hw : Controller) (data : Source) (d : Dfu) (f : Fmc) : Dfu × Fmc :=
  let cmd := data.byte 0
  let addr := commandAddr data
  if cmd = dfuseCmdSetAddress then ({ d.done with dfuAddress := addr }, f)
  else if cmd = dfuseCmdErasePage then dfuErasePage hw addr d f
  else (d.fail .errUnknown, f)

def erasePages (hw : Controller) : List Addr → Fmc → Bool × Fmc
  | [], f => (true, f)
  | a::as, f =>
    if fmcPageIsErased f.flash a then erasePages hw as f
    else
      let r := fmcErasePage hw a f
      if r.1 then erasePages hw as r.2 else (false, r.2)

def writeAddr (d : Dfu) : Addr := d.dfuAddress + (d.dfuBlockNum - 2) * dfuTransferSize

theorem writeAddr_toNat (d : Dfu) (h : 2 ≤ d.dfuBlockNum) : (writeAddr d).toNat =
    (d.dfuAddress.toNat + (d.dfuBlockNum.toNat - 2)*4096) % 2^32 := by
  have hsub : (d.dfuBlockNum - 2).toNat = d.dfuBlockNum.toNat - 2 := by bv_omega
  rw [writeAddr, BitVec.toNat_add, BitVec.toNat_mul, hsub,
    show dfuTransferSize.toNat = 4096 from rfl]
  omega

def dfuWriteBlock (hw : Controller) (data : Source) (len : BitVec 16) (d : Dfu) (f : Fmc) :
    Dfu × Fmc :=
  let wa := writeAddr d
  if h : flashEnd < wa + len.setWidth 32 then (d.fail .errAddress, f)
  else
    let e := erasePages hw (pages (pageAddr wa) (wa + len.setWidth 32) (flashEnd_le h)) f
    if !e.1 then (d.fail .errErase, e.2)
    else
      let w := fmcWrite hw wa data len.toNat e.2
      if !w.1 then (d.fail .errWrite, w.2)
      else if !fmcVerify w.2.flash wa data len.toNat then (d.fail .errVerify, w.2)
      -- the state stays the one the request has set
      else (d.done, w.2)

def dfuHandleData (hw : Controller) (data : Source) (len : BitVec 16) (d : Dfu) (f : Fmc) :
    Dfu × Fmc :=
  if d.dfuBlockNum = 0 ∧ 5 ≤ len then dfuCommand hw data d f
  else if 2 ≤ d.dfuBlockNum ∧ 0 < len then dfuWriteBlock hw data len d f
  else (d, f)

def IsErasePage (data : Source) (len : BitVec 16) (d : Dfu) : Prop :=
  d.dfuBlockNum = 0 ∧ 5 ≤ len ∧ data.byte 0 = dfuseCmdErasePage

def IsBlock (len : BitVec 16) (d : Dfu) : Prop := 2 ≤ d.dfuBlockNum ∧ 0 < len

/-- The block passes the comparison with the end of the flash, which is the only one made. -/
def Accepted (len : BitVec 16) (d : Dfu) : Prop :=
  IsBlock len d ∧ ¬ flashEnd < writeAddr d + len.setWidth 32

instance (data : Source) (len : BitVec 16) (d : Dfu) : Decidable (IsErasePage data len d) :=
  inferInstanceAs (Decidable (_ ∧ _ ∧ _))

instance (len : BitVec 16) (d : Dfu) : Decidable (IsBlock len d) :=
  inferInstanceAs (Decidable (_ ∧ _))

instance (len : BitVec 16) (d : Dfu) : Decidable (Accepted len d) :=
  inferInstanceAs (Decidable (_ ∧ _))

theorem erase_page_data (hw : Controller) (data : Source) (len : BitVec 16) (d : Dfu) (f : Fmc)
    (h : IsErasePage data len d) :
    dfuHandleData hw data len d f = dfuErasePage hw (commandAddr data) d f := by
  obtain ⟨h0,h5,hc⟩ := h
  rw [dfuHandleData, if_pos ⟨h0,h5⟩, dfuCommand, if_neg (by rw [hc]; decide), if_pos hc]

theorem block_data (hw : Controller) (data : Source) (len : BitVec 16) (d : Dfu) (f : Fmc)
    (h : IsBlock len d) : dfuHandleData hw data len d f = dfuWriteBlock hw data len d f := by
  have h0 : ¬ (d.dfuBlockNum = 0 ∧ 5 ≤ len) := by
    rintro ⟨h0,-⟩
    have h2 := h.1
    rw [h0] at h2
    exact absurd h2 (by decide)
  rw [dfuHandleData, if_neg h0, if_pos (show 2 ≤ d.dfuBlockNum ∧ 0 < len from h)]

section Results
variable (hw : Controller) (data : Source) (len : BitVec 16) (d : Dfu) (f : Fmc)

theorem erase_cases (addr : Addr) : (dfuErasePage hw addr d f).1 = d.done ∨
    ∃ e ≠ DfuStatus.ok, (dfuErasePage hw addr d f).1 = d.fail e := by
  simp only [dfuErasePage]
  split_ifs
  · exact Or.inl rfl
  · exact Or.inl rfl
  · exact Or.inr ⟨.errErase,by decide,rfl⟩

theorem write_cases : (dfuWriteBlock hw data len d f).1 = d.done ∨
    ∃ e ≠ DfuStatus.ok, (dfuWriteBlock hw data len d f).1 = d.fail e := by
  simp only [dfuWriteBlock]
  split_ifs
  · exact Or.inr ⟨.errAddress,by decide,rfl⟩
  · exact Or.inr ⟨.errErase,by decide,rfl⟩
  · exact Or.inr ⟨.errWrite,by decide,rfl⟩
  · exact Or.inr ⟨.errVerify,by decide,rfl⟩
  · exact Or.inl rfl

/-- A payload is ignored, ends with status OK, or fails with a status of its own;
only a command moves the address. -/
theorem data_cases : (dfuHandleData hw data len d f).1 = d ∨
    (∃ a, (dfuHandleData hw data len d f).1 = { d.done with dfuAddress := a }) ∨
    ∃ e ≠ DfuStatus.ok, (dfuHandleData hw data len d f).1 = d.fail e := by
  simp only [dfuHandleData, dfuCommand]
  split_ifs
  · exact Or.inr (Or.inl ⟨commandAddr data,rfl⟩)
  · exact Or.inr ((erase_cases hw d f _).imp_left fun h => ⟨d.dfuAddress,h⟩)
  · exact Or.inr (Or.inr ⟨.errUnknown,by decide,rfl⟩)
  · exact Or.inr ((write_cases hw data len d f).imp_left fun h => ⟨d.dfuAddress,h⟩)
  · exact Or.inl rfl

theorem write_address : (dfuWriteBlock hw data len d f).1.dfuAddress = d.dfuAddress := by
  rcases write_cases hw data len d f with h | ⟨e,-,h⟩ <;> rw [h] <;> rfl

@[simp] theorem data_blockNum :
    (dfuHandleData hw data len d f).1.dfuBlockNum = d.dfuBlockNum := by
  rcases data_cases hw data len d f with h | ⟨a,h⟩ | ⟨e,-,h⟩ <;> rw [h] <;> rfl

theorem data_state : (dfuHandleData hw data len d f).1.state = d.state ∨
    (dfuHandleData hw data len d f).1.state = .dfuError := by
  rcases data_cases hw data len d f with h | ⟨a,h⟩ | ⟨e,-,h⟩
  · exact Or.inl (by rw [h])
  · exact Or.inl (by rw [h]; rfl)
  · exact Or.inr (by rw [h]; rfl)

theorem data_error (h : d.state ≠ .dfuError)
    (he : (dfuHandleData hw data len d f).1.state = .dfuError) :
    (dfuHandleData hw data len d f).1.status ≠ .ok := by
  rcases data_cases hw data len d f with hd | ⟨a,hd⟩ | ⟨e,hne,hd⟩
  · exact absurd ((congrArg Dfu.state hd).symm.trans he) h
  · exact absurd ((congrArg Dfu.state hd).symm.trans he) h
  · rw [hd]
    exact hne

theorem end_inside (h : (writeAddr d).toNat + len.toNat ≤ 0x40000) :
    ¬ flashEnd < writeAddr d + len.setWidth 32 := by
  have hf : flashEnd = 0x40000 := rfl
  rw [hf]
  bv_omega

theorem write_block_done (h : ¬ flashEnd < writeAddr d + len.setWidth 32) :
    let e := erasePages hw (pages (pageAddr (writeAddr d)) (writeAddr d + len.setWidth 32)
      (flashEnd_le h)) f
    let w := fmcWrite hw (writeAddr d) data len.toNat e.2
    e.1 = true → w.1 = true →
    (∀ i < len.toNat, w.2.flash (phys (writeAddr d) + BitVec.ofNat 32 i) = data.byte i) →
    dfuWriteBlock hw data len d f = (d.done, w.2) := by
  intro e w he hw1 hbytes
  have hv : fmcVerify w.2.flash (writeAddr d) data len.toNat = true :=
    (verify_iff _ _ _ _).mpr hbytes
  simp only [dfuWriteBlock, dif_neg h]
  rw [if_neg (by rw [he]; decide), if_neg (by rw [hw1]; decide), if_neg (by rw [hv]; decide)]

/-- A block that does not end in the error state has come through every step. -/
theorem write_block_ok (hok : (dfuWriteBlock hw data len d f).1.state ≠ .dfuError) :
    ∃ h : ¬ flashEnd < writeAddr d + len.setWidth 32,
      let e := erasePages hw (pages (pageAddr (writeAddr d)) (writeAddr d + len.setWidth 32)
        (flashEnd_le h)) f
      let w := fmcWrite hw (writeAddr d) data len.toNat e.2
      e.1 = true ∧ w.1 = true ∧
        (∀ i < len.toNat, w.2.flash (phys (writeAddr d) + BitVec.ofNat 32 i) = data.byte i) ∧
        dfuWriteBlock hw data len d f = (d.done, w.2) := by
  simp only [dfuWriteBlock] at hok ⊢
  split_ifs at hok ⊢ with h1 h2 h3 h4
  · exact absurd rfl hok
  · exact absurd rfl hok
  · exact absurd rfl hok
  · exact absurd rfl hok
  · simp only [Bool.not_eq_true', Bool.not_eq_false] at h2 h3 h4
    exact ⟨h1,h2,h3,(verify_iff _ _ _ _).mp h4,rfl⟩

end Results

end Swindle.DfuHandlers
