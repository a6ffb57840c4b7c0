import Swindle.DfuHandlers

/-!
# Stage one: the boot check

Stage one reads the flash through its alias at address zero. The eight bytes of
RAM that hold the reboot marker are kept clear of the data of both stages by
their linker scripts, and the startup code restores them. The CRC unit is a
parameter: a register that is reset, fed with words and read.
-/

set_option autoImplicit false

namespace Swindle.StageOne
open Swindle.WordMemory Swindle.FlashController Swindle.DfuHandlers

variable {σ : Type}

def appAddress : Addr := BitVec.ofNat 32 (flashBootldrSizeKb * 1024)
def stage2RamAddr : Addr := 0x20004000
def bootToDfuMarker : BitVec 64 := 0xDEADBEEFCC00FFEE

structure CrcUnit (σ : Type) where
  reset : σ
  feed : σ → Word → σ
  data : σ → Word

/-- The shift register of the CH32, fed from bit 31 down. -/
def ch32Shift (s : Word) : Word := if s.msb then s <<< 1 ^^^ 0x04C11DB7 else s <<< 1

def ch32Unit : CrcUnit Word := ⟨0xFFFFFFFF,fun s w => ch32Shift^[32] (s ^^^ w),id⟩

/-- What the unit makes of a list of words. -/
def CrcUnit.hash (u : CrcUnit σ) (ws : List Word) : Word := u.data (ws.foldl u.feed u.reset)

/-- The unit during a run of `ch32_crc`. `read` lists the addresses that the words
fed to it were read from; it is not part of the program. -/
structure CrcRun (σ : Type) where
  state : σ
  read : List Addr

/-- The loop of `ch32_crc`: `p` runs up to `lim`. -/
def crcLoop (u : CrcUnit σ) (m : Memory) (lim : Addr) : ℕ → Addr → CrcRun σ → CrcRun σ
  | 0, _, c => c
  | fuel+1, p, c =>
    if p < lim then crcLoop u m lim fuel (p + 4) ⟨u.feed c.state (readWord m p),c.read ++ [p]⟩
    else c

/-- The loop needs no more turns than there are words, see `crc_loop_ends`. -/
def ch32Crc (u : CrcUnit σ) (m : Memory) (addr : Addr) (lenInU32 : Word) : Word × CrcRun σ :=
  let lim := addr + 4*lenInU32
  let c := crcLoop u m lim lenInU32.toNat addr ⟨u.reset,[]⟩
  (u.data c.state, c)

/-- How a boot ends: the reasons for DFU, the marker it leaves behind, the run of
the CRC unit if there was one, whether stage two was copied, and the jump. -/
structure Boot (σ : Type) where
  goDfu : Word
  marker : BitVec 64
  crc : Option (CrcRun σ)
  copied : Bool
  target : Addr

/-- The first two checks of `main`. -/
def dfuReasons (dfuPin : Bool) (marker : BitVec 64) : Word :=
  let goDfu : Word := 0
  let goDfu := if marker = bootToDfuMarker then goDfu ||| 1 else goDfu
  if !dfuPin then goDfu ||| 2 else goDfu

/-- The header of the image, as `main` reads it. -/
def imageSize (m : Memory) : Word := readWord m (appAddress + 4)
def checksum (m : Memory) : Word := readWord m (appAddress + 8)

/-- The check of the application that follows them. -/
def crcGate (u : CrcUnit σ) (m : Memory) (goDfu : Word) : Word × Option (CrcRun σ) :=
  if goDfu = 0 ∧ 0 < imageSize m ∧ imageSize m < 256*1024 then
    if imageSize m ≠ 0x1234 ∨ checksum m ≠ 0x5678 then
      let computed := ch32Crc u m (appAddress + 12) (imageSize m >>> 2)
      (if computed.1 ≠ checksum m then goDfu ||| 8 else goDfu, some computed.2)
    else (goDfu, none)
  else if goDfu = 0 then (goDfu ||| 16, none)
  else (goDfu, none)

/-- `main` of stage one over the memory `m` that it reads. The marker is cleared
whatever has been decided. -/
def stage1Main (u : CrcUnit σ) (m : Memory) (dfuPin : Bool) (marker : BitVec 64) : Boot σ :=
  let r := crcGate u m (dfuReasons dfuPin marker)
  if r.1 = 0 then ⟨r.1,0,r.2,false,appAddress⟩
  else ⟨r.1,0,r.2,true,stage2RamAddr⟩

/-! ## What the loop does -/

def wordAddrs (p : Addr) (n : ℕ) : List Addr :=
  (List.range n).map fun i => p + BitVec.ofNat 32 (4*i)

def words (m : Memory) (p : Addr) (n : ℕ) : List Word := (wordAddrs p n).map (readWord m)

theorem wordAddrs_succ (p : Addr) (n : ℕ) : wordAddrs p (n+1) = p :: wordAddrs (p + 4) n := by
  have hstep : ∀ i, p + BitVec.ofNat 32 (4*(i+1)) = p + 4 + BitVec.ofNat 32 (4*i) := by
    intro i
    rw [Nat.mul_succ, Nat.add_comm, ← offset_offset p 4 (4*i)]
    rfl
  simp only [wordAddrs, List.range_succ_eq_map, List.map_cons, List.map_map, Function.comp_def,
    Nat.succ_eq_add_one, hstep, Nat.mul_zero, BitVec.ofNat_eq_ofNat, BitVec.add_zero]

theorem words_succ (m : Memory) (p : Addr) (n : ℕ) :
    words m p (n+1) = readWord m p :: words m (p + 4) n := by
  rw [words, wordAddrs_succ, List.map_cons, words]

section Loop
variable (u : CrcUnit σ) (m : Memory)

/-- As long as the region does not reach the end of the address space, the loop
feeds its words one by one. -/
theorem crc_loop_eq (n fuel : ℕ) (p : Addr) (c : CrcRun σ) (hn : n ≤ fuel)
    (hp : p.toNat + 4*n < 2^32) : crcLoop u m (p + BitVec.ofNat 32 (4*n)) fuel p c =
      ⟨(words m p n).foldl u.feed c.state,c.read ++ wordAddrs p n⟩ := by
  induction n generalizing fuel p c with
  | zero =>
    have hend : p + BitVec.ofNat 32 (4*0) = p := BitVec.add_zero p
    have hdone : (⟨(words m p 0).foldl u.feed c.state,c.read ++ wordAddrs p 0⟩ : CrcRun σ) = c := by
      simp [words, wordAddrs]
    rw [hend, hdone]
    cases fuel with
    | zero => rfl
    | succ fuel => rw [crcLoop, if_neg (BitVec.lt_irrefl p)]
  | succ n ih =>
    obtain ⟨fuel,rfl⟩ := Nat.exists_eq_add_of_lt hn
    have hlt : p < p + BitVec.ofNat 32 (4*(n+1)) := by
      rw [BitVec.lt_def, offset_toNat]
      omega
    have hlim : p + BitVec.ofNat 32 (4*(n+1)) = p + 4 + BitVec.ofNat 32 (4*n) := by
      rw [Nat.mul_succ, Nat.add_comm, ← offset_offset p 4 (4*n)]
      rfl
    have hnext : (p + 4).toNat = p.toNat + 4 := by
      rw [show p + 4 = p + BitVec.ofNat 32 4 from rfl, offset_toNat]
      omega
    rw [crcLoop, if_pos hlt, hlim, ih (n + fuel) (p + 4) _ (by omega) (by omega), words_succ,
      wordAddrs_succ, List.foldl_cons, List.append_assoc, List.singleton_append]

theorem limit_eq (addr : Addr) (len : Word) :
    addr + 4*len = addr + BitVec.ofNat 32 (4*len.toNat) := by
  have h4 : (4 : Word).toNat = 4 := rfl
  rw [← BitVec.toNat_inj, offset_toNat, BitVec.toNat_add, BitVec.toNat_mul, h4]
  omega

/-- The loop is over after `lenInU32` turns, wherever the region lies. -/
theorem crc_loop_ends (addr : Addr) (len : Word) (fuel : ℕ) (c : CrcRun σ)
    (h : len.toNat ≤ fuel) : crcLoop u m (addr + 4*len) fuel addr c =
      crcLoop u m (addr + 4*len) len.toNat addr c := by
  by_cases hlt : addr < addr + 4*len
  · have hlim : (addr + 4*len).toNat = (addr.toNat + 4*len.toNat) % 2^32 := by
      rw [limit_eq, offset_toNat]
    have hn : addr + 4*len =
        addr + BitVec.ofNat 32 (4*(((addr + 4*len).toNat - addr.toNat)/4)) := by
      rw [BitVec.lt_def] at hlt
      rw [← BitVec.toNat_inj, offset_toNat]
      omega
    rw [BitVec.lt_def] at hlt
    rw [hn, crc_loop_eq u m _ fuel addr c (by omega) (by omega),
      crc_loop_eq u m _ len.toNat addr c (by omega) (by omega)]
  · have hstop : ∀ k, crcLoop u m (addr + 4*len) k addr c = c := by
      intro k
      cases k with
      | zero => rfl
      | succ k => rw [crcLoop, if_neg hlt]
    rw [hstop, hstop]

theorem crc_run (addr : Addr) (len : Word) (h : addr.toNat + 4*len.toNat < 2^32) :
    ch32Crc u m addr len = (u.hash (words m addr len.toNat),
      ⟨(words m addr len.toNat).foldl u.feed u.reset,wordAddrs addr len.toNat⟩) := by
  rw [ch32Crc, limit_eq, crc_loop_eq u m _ _ _ _ le_rfl h]
  rfl

end Loop

/-! ## What the boot check decides -/

def SizeAccepted (m : Memory) : Prop := 0 < imageSize m ∧ imageSize m < 256*1024

/-- The header that makes stage one skip the check. -/
def Unchecked (m : Memory) : Prop := imageSize m = 0x1234 ∧ checksum m = 0x5678

def imageWords (m : Memory) : List Word := words m (appAddress + 12) ((imageSize m).toNat/4)

/-- Somebody asks for DFU: the marker is there, or the pin is grounded. -/
def Asked (dfuPin : Bool) (marker : BitVec 64) : Prop :=
  marker = bootToDfuMarker ∨ dfuPin = false

theorem nobody_asked : ¬ Asked true 0 := by
  rintro (hm | hp)
  · exact absurd hm (by decide)
  · cases hp

section Main
variable (u : CrcUnit σ) (m : Memory) (dfuPin : Bool) (marker : BitVec 64)

theorem size_words : (imageSize m >>> 2).toNat = (imageSize m).toNat/4 := by
  rw [BitVec.toNat_ushiftRight, Nat.shiftRight_eq_div_pow]

/-- The boot check stays far from the end of the address space. -/
theorem gate_run (h : SizeAccepted m) : ch32Crc u m (appAddress + 12) (imageSize m >>> 2) =
    (u.hash (imageWords m),
      ⟨(imageWords m).foldl u.feed u.reset,wordAddrs (appAddress + 12) ((imageSize m).toNat/4)⟩) := by
  have hlt : (imageSize m).toNat < 256*1024 := h.2
  have happ : (appAddress + 12).toNat = 0x400C := rfl
  have hw := size_words m
  rw [crc_run u m _ _ (by omega), hw, imageWords]

theorem reasons_zero_iff : dfuReasons dfuPin marker = 0 ↔ ¬ Asked dfuPin marker := by
  unfold dfuReasons Asked
  by_cases h : marker = bootToDfuMarker <;> cases dfuPin <;> simp [h]

theorem gate_zero_iff : (crcGate u m 0).1 = 0 ↔
    SizeAccepted m ∧ (Unchecked m ∨ u.hash (imageWords m) = checksum m) := by
  by_cases hsize : SizeAccepted m
  · rw [crcGate, if_pos ⟨rfl,hsize⟩, and_iff_right hsize]
    simp only [gate_run u m hsize]
    by_cases hskip : Unchecked m
    · have hk : ¬ (imageSize m ≠ 0x1234 ∨ checksum m ≠ 0x5678) := by
        rw [not_or, not_not, not_not]
        exact hskip
      rw [if_neg hk]
      exact iff_of_true rfl (Or.inl hskip)
    · have hk : imageSize m ≠ 0x1234 ∨ checksum m ≠ 0x5678 := not_and_or.mp hskip
      rw [if_pos hk, or_iff_right hskip]
      by_cases hhash : u.hash (imageWords m) = checksum m
      · rw [if_neg (not_not.mpr hhash)]
        exact iff_of_true rfl hhash
      · rw [if_pos hhash]
        exact iff_of_false (by decide : (0 ||| 8 : Word) ≠ 0) hhash
  · have hs : ¬ ((0 : Word) = 0 ∧ 0 < imageSize m ∧ imageSize m < 256*1024) := fun h => hsize h.2
    rw [crcGate, if_neg hs, if_pos rfl]
    exact iff_of_false (by decide : ¬ (0 ||| 16 : Word) = 0) (fun h => hsize h.1)

theorem gate_asked (goDfu : Word) (h : goDfu ≠ 0) : crcGate u m goDfu = (goDfu,none) := by
  rw [crcGate, if_neg (fun hc => h hc.1), if_neg h]

theorem main_marker : (stage1Main u m dfuPin marker).marker = 0 := by
  simp only [stage1Main]
  split_ifs <;> rfl

theorem main_else : (stage1Main u m dfuPin marker).target = appAddress ∨
    (stage1Main u m dfuPin marker).copied = true ∧
      (stage1Main u m dfuPin marker).target = stage2RamAddr := by
  simp only [stage1Main]
  split_ifs
  · exact Or.inl rfl
  · exact Or.inr ⟨rfl,rfl⟩

/-- The application is started exactly when nobody asks for DFU and the header
passes the check. -/
theorem main_starts_iff : (stage1Main u m dfuPin marker).target = appAddress ↔
    ¬ Asked dfuPin marker ∧ SizeAccepted m ∧
      (Unchecked m ∨ u.hash (imageWords m) = checksum m) := by
  have htarget : (stage1Main u m dfuPin marker).target = appAddress ↔
      (crcGate u m (dfuReasons dfuPin marker)).1 = 0 := by
    simp only [stage1Main]
    split_ifs with h
    · exact iff_of_true rfl h
    · exact iff_of_false (by decide : stage2RamAddr ≠ appAddress) h
  rw [htarget]
  by_cases h : Asked dfuPin marker
  · have hr : dfuReasons dfuPin marker ≠ 0 := fun hc => (reasons_zero_iff dfuPin marker).mp hc h
    rw [gate_asked u m _ hr]
    exact iff_of_false hr (fun hc => hc.1 h)
  · rw [(reasons_zero_iff dfuPin marker).mpr h, gate_zero_iff, and_iff_right h]

theorem main_crc (c : CrcRun σ) (h : (stage1Main u m dfuPin marker).crc = some c) :
    SizeAccepted m ∧ c = ⟨(imageWords m).foldl u.feed u.reset,
      wordAddrs (appAddress + 12) ((imageSize m).toNat/4)⟩ := by
  have hgate : (crcGate u m (dfuReasons dfuPin marker)).2 = some c := by
    simp only [stage1Main] at h
    split_ifs at h <;> exact h
  rw [crcGate] at hgate
  split_ifs at hgate with hsize hskip
  · rw [← Option.some.inj hgate, gate_run u m hsize.2]
    exact ⟨hsize.2,rfl⟩

theorem main_runs (h : ¬ Asked dfuPin marker) (hs : SizeAccepted m) (hk : ¬ Unchecked m) :
    (stage1Main u m dfuPin marker).crc =
      some (ch32Crc u m (appAddress + 12) (imageSize m >>> 2)).2 := by
  have hgate : (crcGate u m 0).2 =
      some (ch32Crc u m (appAddress + 12) (imageSize m >>> 2)).2 := by
    rw [crcGate, if_pos ⟨rfl,hs⟩, if_pos (not_and_or.mp hk)]
  simp only [stage1Main, (reasons_zero_iff dfuPin marker).mpr h]
  split_ifs <;> exact hgate

end Main

end Swindle.StageOne
