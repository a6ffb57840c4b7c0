import Swindle.StageOne

/-!
# What the boot check looks at

The size in the header is given in bytes and compared with 256 KB. The check
divides it by four, drops the remainder, and starts behind the header. So it
looks at the image itself only for sizes that are whole words and fit the
partition together with the header.
-/

set_option autoImplicit false

namespace Swindle.BootCheck
open Swindle.WordMemory Swindle.DfuHandlers Swindle.StageOne

variable {σ : Type}

def fedBytes (c : CrcRun σ) : List Addr := c.read.flatMap fun p => [p,p+1,p+2,p+3]

def imageBytes (m : Memory) : List Addr :=
  (List.range (imageSize m).toNat).map fun i => appAddress + 12 + BitVec.ofNat 32 i

def InPartition (a : Addr) : Prop :=
  appAddress.toNat ≤ a.toNat ∧ a.toNat < appAddress.toNat + flashAppSizeKb*1024

/-- The unit has been fed the words of flash whose addresses are listed. These are
every byte of the image, each once and in order, and nothing else, inside the
partition. So a flash with the same header in which they are all the same holds
the same image. -/
structure HashesImage (u : CrcUnit σ) (m : Memory) (c : CrcRun σ) : Prop where
  fed : c.state = (c.read.map (readWord m)).foldl u.feed u.reset
  exact : fedBytes c = imageBytes m
  inside : ∀ a ∈ fedBytes c, InPartition a
  tells : ∀ m' : Memory, imageSize m' = imageSize m → checksum m' = checksum m →
    (∀ a ∈ fedBytes c, m' a = m a) → ∀ a ∈ imageBytes m', m' a = m a

theorem word_bytes (p : Addr) (n : ℕ) : (wordAddrs p n).flatMap (fun a => [a,a+1,a+2,a+3]) =
    (List.range (4*n)).map fun i => p + BitVec.ofNat 32 i := by
  induction n with
  | zero => rfl
  | succ n ih =>
    have h1 := offset_offset p (4*n) 1
    have h2 := offset_offset p (4*n) 2
    have h3 := offset_offset p (4*n) 3
    rw [wordAddrs, List.range_succ, List.map_append, List.flatMap_append, ← wordAddrs, ih,
      Nat.mul_succ, List.range_succ, List.range_succ, List.range_succ, List.range_succ]
    simp only [List.map_append, List.map_cons, List.map_nil, List.flatMap_cons, List.flatMap_nil,
      List.append_assoc, List.append_nil, List.cons_append, List.nil_append, ← h1, ← h2, ← h3]
    rfl

section Run
variable {u : CrcUnit σ} {m : Memory} {dfuPin : Bool} {marker : BitVec 64} {c : CrcRun σ}
  (h : (stage1Main u m dfuPin marker).crc = some c)
include h

theorem fed_eq : fedBytes c = (List.range (4*((imageSize m).toNat/4))).map
    fun i => appAddress + 12 + BitVec.ofNat 32 i := by
  obtain ⟨-,rfl⟩ := main_crc u m dfuPin marker c h
  rw [fedBytes, word_bytes]

theorem fed_words : c.state = (c.read.map (readWord m)).foldl u.feed u.reset := by
  obtain ⟨-,rfl⟩ := main_crc u m dfuPin marker c h
  rfl

theorem size_bounds : 0 < (imageSize m).toNat ∧ (imageSize m).toNat < 0x40000 := by
  obtain ⟨⟨hpos,hlt⟩,-⟩ := main_crc u m dfuPin marker c h
  have hlim : (256*1024 : Word).toNat = 0x40000 := rfl
  rw [BitVec.lt_def] at hpos hlt
  exact ⟨hpos,hlim ▸ hlt⟩

/-- Where byte `i` behind the header lies: the size test keeps it from wrapping. -/
theorem byte_toNat (i : ℕ) (hi : i < (imageSize m).toNat) :
    (appAddress + 12 + BitVec.ofNat 32 i).toNat = appAddress.toNat + 12 + i := by
  have hn := size_bounds h
  have ho := offset_toNat (appAddress + 12) i
  have happ : appAddress.toNat = 0x4000 := rfl
  have h12 : (appAddress + 12).toNat = 0x400C := rfl
  omega

end Run

/-- Whenever the check runs, it hashes the image and nothing else exactly for the
sizes that are whole words and fit the partition. -/
theorem hashes_image_iff (u : CrcUnit σ) (m : Memory) (dfuPin : Bool) (marker : BitVec 64)
    (c : CrcRun σ) (h : (stage1Main u m dfuPin marker).crc = some c) : HashesImage u m c ↔
      4 ∣ (imageSize m).toNat ∧ 12 + (imageSize m).toNat ≤ flashAppSizeKb*1024 := by
  obtain ⟨hpos,hlt⟩ := size_bounds h
  have hsize : flashAppSizeKb*1024 = 245760 := rfl
  have happ : appAddress.toNat = 0x4000 := rfl
  constructor
  · intro hc
    have hlen := congrArg List.length hc.exact
    rw [fed_eq h, imageBytes, List.length_map, List.length_map, List.length_range,
      List.length_range] at hlen
    have hlast : appAddress + 12 + BitVec.ofNat 32 ((imageSize m).toNat-1) ∈ fedBytes c := by
      rw [hc.exact]
      exact List.mem_map.mpr ⟨_,List.mem_range.mpr (by omega),rfl⟩
    obtain ⟨-,hin⟩ := hc.inside _ hlast
    rw [byte_toNat h _ (by omega)] at hin
    exact ⟨⟨_,hlen.symm⟩,by omega⟩
  · rintro ⟨⟨k,hk⟩,hfit⟩
    have hwords : 4*((imageSize m).toNat/4) = (imageSize m).toNat := by omega
    have hexact : fedBytes c = imageBytes m := by rw [fed_eq h, imageBytes, hwords]
    refine ⟨fed_words h,hexact,fun a ha => ?_,fun m' hs _ hag a ha => hag a ?_⟩
    · rw [hexact] at ha
      obtain ⟨i,hi,rfl⟩ := List.mem_map.mp ha
      rw [List.mem_range] at hi
      rw [InPartition, byte_toNat h i hi]
      omega
    · rw [imageBytes, hs] at ha
      rw [hexact]
      exact ha

def headerOnly (size : Byte) : Memory := fun a => if a = 0x4004 then size else 0

theorem header_runs (size : Byte) (h : size ≠ 0) :
    imageSize (headerOnly size) = size.setWidth 32 ∧
      (stage1Main ch32Unit (headerOnly size) true 0).crc =
        some (ch32Crc ch32Unit (headerOnly size) (appAddress + 12) (size.setWidth 32 >>> 2)).2 := by
  have hsize : imageSize (headerOnly size) = size.setWidth 32 := by
    have h0 : headerOnly size (appAddress + 4) = size := if_pos (by decide)
    have h1 : headerOnly size (appAddress + 4 + 1) = 0 := if_neg (by decide)
    have h2 : headerOnly size (appAddress + 4 + 2) = 0 := if_neg (by decide)
    have h3 : headerOnly size (appAddress + 4 + 3) = 0 := if_neg (by decide)
    apply BitVec.eq_of_toNat_eq
    rw [imageSize, readWord, h0, h1, h2, h3, littleEndian_toNat,
      BitVec.toNat_setWidth_of_le (by decide)]
    rfl
  have hbound := size.isLt
  have hpos : 0 < imageSize (headerOnly size) := by
    rw [hsize]
    bv_omega
  have hlt : imageSize (headerOnly size) < 256*1024 := by
    rw [hsize]
    bv_omega
  have hcheck : ¬ Unchecked (headerOnly size) := by
    rw [Unchecked, hsize]
    bv_omega
  refine ⟨hsize,?_⟩
  rw [main_runs ch32Unit (headerOnly size) true 0 nobody_asked ⟨hpos,hlt⟩ hcheck, hsize]

/-- An image of two words. -/
theorem two_words_hashed :
    HashesImage ch32Unit (headerOnly 8) (ch32Crc ch32Unit (headerOnly 8) (appAddress + 12) 2).2 ↔
      4 ∣ (imageSize (headerOnly 8)).toNat ∧
        12 + (imageSize (headerOnly 8)).toNat ≤ flashAppSizeKb*1024 :=
  hashes_image_iff ch32Unit (headerOnly 8) true 0 _ (header_runs 8 (by decide)).2

/-- The last byte of an image of five bytes is not looked at. -/
theorem fifth_byte_unchecked : ¬ ∀ (u : CrcUnit Word) (m : Memory) (dfuPin : Bool)
    (marker : BitVec 64) (c : CrcRun Word), (stage1Main u m dfuPin marker).crc = some c →
      HashesImage u m c := by
  intro h
  obtain ⟨hsize,hrun⟩ := header_runs 5 (by decide)
  have hlen := congrArg List.length (h _ _ _ _ _ hrun).exact
  rw [fed_eq hrun, imageBytes, hsize] at hlen
  exact absurd hlen (by decide)

end Swindle.BootCheck
