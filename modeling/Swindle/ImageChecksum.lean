import Swindle.BootCheck
import Swindle.ShiftRegister

/-!
# What the checksum tells apart

The unit of the CH32 takes a word at a time, highest bit first, and the words in
flash are little-endian. So the bytes of a word enter last byte first, which is
not the order of a checksum that is taken byte by byte.
-/

set_option autoImplicit false

namespace Swindle.ImageChecksum
open Swindle.WordMemory Swindle.StageOne Swindle.BootCheck
open Swindle.ShiftRegister hiding shift
open Polynomial (X)

def crcPolynomial : Word := 0x04C11DB7

theorem unit_feed (s w : Word) : ch32Unit.feed s w = feed crcPolynomial s w := by
  have hw : w.setWidth 32 <<< (32-32) = w := by
    rw [BitVec.setWidth_eq]
    exact BitVec.shiftLeft_zero w
  rw [feed, hw]
  rfl

theorem unit_hash (ws : List Word) :
    ch32Unit.hash ws = ws.foldl (feed crcPolynomial) 0xFFFFFFFF := by
  have hfeed : ch32Unit.feed = feed crcPolynomial := funext fun s => funext (unit_feed s)
  rw [CrcUnit.hash, hfeed]
  rfl

/-! ## Byte by byte -/

/-- The checksum GDB takes of a region, byte by byte in address order. -/
def gdbCrc32 (bs : List Byte) : Word :=
  bs.foldl (fun (c : Word) (b : Byte) => ch32Shift^[8] (c ^^^ b.setWidth 32 <<< 24)) 0xFFFFFFFF

def bytesFrom (m : Memory) (p : Addr) (n : ℕ) : List Byte :=
  (List.range n).map fun i => m (p + BitVec.ofNat 32 i)

/-- The word whose highest byte comes first in memory. -/
def bigEndian (m : Memory) (p : Addr) : Word := m p ++ m (p+1) ++ m (p+2) ++ m (p+3)

/-- What each word differs by from the same bytes the other way around. -/
def skew (m : Memory) (p : Addr) (n : ℕ) : List Word :=
  (wordAddrs p n).map fun a => readWord m a ^^^ bigEndian m a

/-- The order of the bytes does not show modulo the polynomial. -/
def OrderBlind (m : Memory) (p : Addr) (n : ℕ) : Prop :=
  modulus crcPolynomial ∣ message (skew m p n)

section Order
variable (m : Memory)

theorem message_xor (f g : Addr → Word) (as : List Addr) :
    message (as.map fun a => f a ^^^ g a) = message (as.map f) + message (as.map g) := by
  induction as with
  | nil => simp [message]
  | cons a as ih =>
    simp only [List.map_cons, message, ih, poly_xor, List.length_map]
    ring

theorem message_bytes (as : List Addr) :
    message ((as.flatMap fun a => [a,a+1,a+2,a+3]).map m) = message (as.map (bigEndian m)) := by
  induction as with
  | nil => rfl
  | cons a as ih =>
    have hlen : ((as.flatMap fun a => [a,a+1,a+2,a+3]).map m).length = 4*as.length := by
      rw [List.length_map, List.length_flatMap]
      simp [Nat.mul_comm]
    have hword : poly (bigEndian m a) = X^24*poly (m a) + X^16*poly (m (a+1)) +
        X^8*poly (m (a+2)) + poly (m (a+3)) := by
      rw [bigEndian, poly_append, poly_append, poly_append]
      ring
    simp only [List.flatMap_cons, List.map_cons, List.cons_append, List.nil_append, message,
      List.length_cons, List.length_map, hlen, hword, ← ih]
    ring

theorem bytes_words (p : Addr) (n : ℕ) : bytesFrom m p (4*n) =
    ((wordAddrs p n).flatMap fun a => [a,a+1,a+2,a+3]).map m := by
  rw [word_bytes, List.map_map]
  rfl

theorem gdb_fold (bs : List Byte) :
    gdbCrc32 bs = bs.foldl (feed crcPolynomial) 0xFFFFFFFF := rfl

/-- The checksum of stage one is the one of the documentation exactly when the
order of the bytes within the words does not matter. The region has to end before
the address space does: the loop compares pointers. -/
theorem crc_is_gdb_iff (addr : Addr) (len : Word) (h : addr.toNat + 4*len.toNat < 2^32) :
    (ch32Crc ch32Unit m addr len).1 = gdbCrc32 (bytesFrom m addr (4*len.toNat)) ↔
      OrderBlind m addr len.toNat := by
  have hbit : crcPolynomial.getLsbD 0 = true := by decide
  have hlen : 32*(words m addr len.toNat).length =
      8*(bytesFrom m addr (4*len.toNat)).length := by
    simp only [words, wordAddrs, bytesFrom, List.length_map, List.length_range]
    omega
  rw [crc_run ch32Unit m addr len h, unit_hash, gdb_fold,
    fold_eq_iff crcPolynomial hbit (le_refl 32) (by decide) _ _ hlen, OrderBlind, skew,
    message_xor, bytes_words, message_bytes, words, CharTwo.sub_eq_add]

/-- Words that read the same both ways hide the difference. -/
theorem symmetric_blind (p : Addr) (n : ℕ)
    (h : ∀ a ∈ wordAddrs p n, readWord m a = bigEndian m a) : OrderBlind m p n := by
  have hsame : (wordAddrs p n).map (readWord m) = (wordAddrs p n).map (bigEndian m) :=
    List.map_congr_left h
  rw [OrderBlind, skew, message_xor, hsame, CharTwo.add_self_eq_zero]
  exact dvd_zero _

/-- A single word that does not is enough to show it. -/
theorem one_word_blind_iff (p : Addr) : OrderBlind m p 1 ↔ readWord m p = bigEndian m p := by
  have haddrs : wordAddrs p 1 = [p] := by
    rw [wordAddrs_succ]
    rfl
  constructor
  · intro h
    have hm : message (skew m p 1) = poly (readWord m p) + poly (bigEndian m p) := by
      simp [skew, haddrs, message, poly_xor]
    rw [OrderBlind, hm] at h
    have hdeg : (poly (readWord m p) + poly (bigEndian m p)).degree < 32 :=
      lt_of_le_of_lt (Polynomial.degree_add_le _ _) (max_lt (poly_degree _) (poly_degree _))
    have hzero := modulus_divides_small crcPolynomial _ hdeg h
    exact poly_injective (CharTwo.add_eq_zero.mp hzero)
  · intro h
    apply symmetric_blind
    simp [haddrs, h]

end Order

def nopImage : Memory := fun a => if a = appAddress + 12 then 0x13 else 0

theorem nop_crc_is_gdb_iff :
    (ch32Crc ch32Unit nopImage (appAddress + 12) 1).1 =
      gdbCrc32 (bytesFrom nopImage (appAddress + 12) (4*1)) ↔
        OrderBlind nopImage (appAddress + 12) 1 :=
  crc_is_gdb_iff nopImage (appAddress + 12) 1 (by decide)

theorem nop_crc_not_gdb : (ch32Crc ch32Unit nopImage (appAddress + 12) 1).1 ≠
    gdbCrc32 (bytesFrom nopImage (appAddress + 12) (4*1)) := by
  decide +kernel

/-! ## Corrupted images -/

theorem image_words_length (m : Memory) :
    (imageWords m).length = (imageSize m).toNat/4 := by
  rw [imageWords, words, wordAddrs, List.length_map, List.length_map, List.length_range]

theorem burst_hash (ws vs : List Word) (hl : ws.length = vs.length) (hb : Burst 32 ws vs) :
    ch32Unit.hash ws ≠ ch32Unit.hash vs := by
  rw [unit_hash, unit_hash]
  exact burst_detected crcPolynomial (by decide) (le_refl 32) ws vs hl hb _

/-- Of two images with the same header that differ in one burst of bits, stage one
starts at most one. -/
theorem at_most_one_boots (m m' : Memory) (dfuPin : Bool) (marker : BitVec 64)
    (hsize : imageSize m' = imageSize m) (hsum : checksum m' = checksum m)
    (hcheck : ¬ Unchecked m) (hburst : Burst 32 (imageWords m) (imageWords m')) :
    ¬ ((stage1Main ch32Unit m dfuPin marker).target = appAddress ∧
      (stage1Main ch32Unit m' dfuPin marker).target = appAddress) := by
  have hcheck' : ¬ Unchecked m' := by
    rw [Unchecked, hsize, hsum]
    exact hcheck
  have hlen : (imageWords m).length = (imageWords m').length := by
    rw [image_words_length, image_words_length, hsize]
  rintro ⟨hboot,hboot'⟩
  obtain ⟨-,-,hm⟩ := (main_starts_iff ch32Unit m dfuPin marker).mp hboot
  obtain ⟨-,-,hm'⟩ := (main_starts_iff ch32Unit m' dfuPin marker).mp hboot'
  apply burst_hash _ _ hlen hburst
  rw [hm.resolve_left hcheck, hm'.resolve_left hcheck', hsum]

/-- An image of one word with its checksum, and the same with a bit flipped. -/
def zeroImage : Memory :=
  writeWord (writeWord (fun _ => 0) (appAddress + 4) 4) (appAddress + 8) 0xC704DD7B

def flippedImage : Memory := writeWord zeroImage (appAddress + 12) 0x100

theorem flipped_image_rejected :
    ¬ ((stage1Main ch32Unit zeroImage true 0).target = appAddress ∧
      (stage1Main ch32Unit flippedImage true 0).target = appAddress) := by
  have hzero : imageWords zeroImage = [0] := by decide +kernel
  have hflipped : imageWords flippedImage = [0].set 0 0x100 := by decide +kernel
  refine at_most_one_boots zeroImage flippedImage true 0 (by decide +kernel) (by decide +kernel)
    (by unfold Unchecked; decide +kernel) ?_
  rw [hzero, hflipped]
  exact word_burst [0] 0 (by decide) 0x100 (by decide)

end Swindle.ImageChecksum
