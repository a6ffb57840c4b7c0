import Swindle.StageOne
import Swindle.WordLoops

/-!
# The startup code of both stages

Stage one copies its data out of the flash, stage two out of the payload that
stage one has copied to RAM. The loops compare addresses as signed numbers; those
of stage one test at the end, so that each writes a word even if its section is
empty. The linker scripts say where the sections may lie.
-/

set_option autoImplicit false

namespace Swindle.StartUp
open Swindle.WordMemory Swindle.WordLoops Swindle.StageOne

def ramStart : Addr := 0x20000000

/-- The symbols that a linker script provides. -/
structure Sections where
  dataLma : Addr
  dataBegin : Addr
  dataEnd : Addr
  bssBegin : Addr
  bssEnd : Addr

/-! ## Stage one -/

/-- `lp0` of `start_c`: `t2` is the end of the data. -/
def lp0 : ℕ → Addr → Addr → Addr → Memory → Option Memory
  | 0, _, _, _, _ => none
  | n+1, t0, t1, t2, m =>
    let m := writeWord m t1 (readWord m t0)
    let t0 := t0 + 4
    let t1 := t1 + 4
    if t1.slt t2 then lp0 n t0 t1 t2 m else some m

/-- `lp1` of `start_c`. -/
def lp1 : ℕ → Addr → Addr → Memory → Option Memory
  | 0, _, _, _ => none
  | n+1, t0, t1, m =>
    let m := writeWord m t0 0
    let t0 := t0 + 4
    if t0.slt t1 then lp1 n t0 t1 m else some m

/-- `start_c` up to the call of `main`, with fuel for its loops. -/
def startC (fuel : ℕ) (s : Sections) (m : Memory) : Option Memory := do
  let r0 := readWord m ramStart
  let r1 := readWord m (ramStart + 4)
  let m ← lp0 fuel s.dataLma s.dataBegin s.dataEnd m
  let m ← lp1 fuel s.bssBegin s.bssEnd m
  return writeWord (writeWord m ramStart r0) (ramStart + 4) r1

/-! ## Stage two -/

/-- `lp0` of `stage2_cpp_entry`, which tests first. -/
def entryLp0 : ℕ → Addr → Addr → Addr → Memory → Option Memory
  | 0, _, _, _, _ => none
  | n+1, t0, t1, t2, m =>
    if t2.sle t1 then some m
    else entryLp0 n (t0 + 4) (t1 + 4) t2 (writeWord m t1 (readWord m t0))

def entryLp1 : ℕ → Addr → Addr → Memory → Option Memory
  | 0, _, _, _ => none
  | n+1, t0, t1, m =>
    if t1.sle t0 then some m else entryLp1 n (t0 + 4) t1 (writeWord m t0 0)

def stage2CppEntry (fuel : ℕ) (s : Sections) (m : Memory) : Option Memory := do
  let m ← entryLp0 fuel s.dataLma s.dataBegin s.dataEnd m
  entryLp1 fuel s.bssBegin s.bssEnd m

/-- Stage one copies the payload, and stage two starts. -/
def chainToStage2 (fuel : ℕ) (payload : List Byte) (s : Sections) (m : Memory) : Option Memory :=
  stage2CppEntry fuel s (storeBytes payload stage2RamAddr m)

/-! ## The loops -/

theorem slt_low {a b : Addr} (ha : a.toNat < 2^31) (hb : b.toNat < 2^31) :
    a.slt b = decide (a.toNat < b.toNat) := by
  rw [BitVec.slt_eq_decide, BitVec.toInt_eq_toNat_of_lt (by omega), BitVec.toInt_eq_toNat_of_lt (by omega)]
  simp

theorem sle_low {a b : Addr} (ha : a.toNat < 2^31) (hb : b.toNat < 2^31) :
    a.sle b = decide (a.toNat ≤ b.toNat) := by
  rw [BitVec.sle_eq_decide, BitVec.toInt_eq_toNat_of_lt (by omega), BitVec.toInt_eq_toNat_of_lt (by omega)]
  simp

/-- The test at the end of a loop that has `k` words to do. -/
theorem bottom_test (k : ℕ) (dst stop : Addr) (hk : stop.toNat = dst.toNat + 4*k)
    (hlow : dst.toNat + 4*k + 4 < 2^31) : (dst + 4).slt stop = decide (1 < k) := by
  have hnext := step_toNat dst (by omega)
  rw [slt_low (by omega) (by omega), hnext, hk]
  exact decide_eq_decide.mpr (by omega)

/-- The test at its start. -/
theorem top_test (k : ℕ) (dst stop : Addr) (hk : stop.toNat = dst.toNat + 4*k)
    (hlow : dst.toNat + 4*k < 2^31) : stop.sle dst = decide (k = 0) := by
  rw [sle_low (by omega) (by omega), hk]
  exact decide_eq_decide.mpr (by omega)

/-- The loop copies what its section has, and one word at least. -/
theorem lp0_copies (k n : ℕ) (src dst stop : Addr) (m : Memory) (hk : stop.toNat = dst.toNat + 4*k)
    (hlow : dst.toNat + 4*k + 4 < 2^31) (hn : max 1 k ≤ n) :
    lp0 n src dst stop m = some (copyWords (max 1 k) src dst m) := by
  induction n generalizing k src dst m with
  | zero => omega
  | succ n ih =>
    rw [lp0]
    simp only [bottom_test k dst stop hk hlow, decide_eq_true_eq]
    by_cases hmore : 1 < k
    · have hnext := step_toNat dst (by omega)
      rw [if_pos hmore, ih (k-1) (src + 4) (dst + 4) _ (by omega) (by omega) (by omega),
        show max 1 k = max 1 (k-1) + 1 by omega]
      rfl
    · rw [if_neg hmore, show max 1 k = 1 by omega]
      rfl

theorem lp1_fills (k n : ℕ) (dst stop : Addr) (m : Memory) (hk : stop.toNat = dst.toNat + 4*k)
    (hlow : dst.toNat + 4*k + 4 < 2^31) (hn : max 1 k ≤ n) :
    lp1 n dst stop m = some (fillWords 0 (max 1 k) dst m) := by
  induction n generalizing k dst m with
  | zero => omega
  | succ n ih =>
    rw [lp1]
    simp only [bottom_test k dst stop hk hlow, decide_eq_true_eq]
    by_cases hmore : 1 < k
    · have hnext := step_toNat dst (by omega)
      rw [if_pos hmore, ih (k-1) (dst + 4) _ (by omega) (by omega) (by omega),
        show max 1 k = max 1 (k-1) + 1 by omega]
      rfl
    · rw [if_neg hmore, show max 1 k = 1 by omega]
      rfl

theorem entry_copies (k n : ℕ) (src dst stop : Addr) (m : Memory)
    (hk : stop.toNat = dst.toNat + 4*k) (hlow : dst.toNat + 4*k < 2^31) (hn : k < n) :
    entryLp0 n src dst stop m = some (copyWords k src dst m) := by
  induction n generalizing k src dst m with
  | zero => omega
  | succ n ih =>
    rw [entryLp0, top_test k dst stop hk hlow]
    cases k with
    | zero => rfl
    | succ k =>
      have hnext := step_toNat dst (by omega)
      rw [if_neg (by simp)]
      exact ih k (src + 4) (dst + 4) _ (by omega) (by omega) (by omega)

theorem entry_fills (k n : ℕ) (dst stop : Addr) (m : Memory)
    (hk : stop.toNat = dst.toNat + 4*k) (hlow : dst.toNat + 4*k < 2^31) (hn : k < n) :
    entryLp1 n dst stop m = some (fillWords 0 k dst m) := by
  induction n generalizing k dst m with
  | zero => omega
  | succ n ih =>
    rw [entryLp1, top_test k dst stop hk hlow]
    cases k with
    | zero => rfl
    | succ k =>
      have hnext := step_toNat dst (by omega)
      rw [if_neg (by simp)]
      exact ih k (dst + 4) _ (by omega) (by omega) (by omega)

/-! ## What the linker scripts promise -/

/-- The data is loaded inside `[romLow, romHigh)` and lives inside `[ramLow, ramHigh)` with the
zeroed section behind it, everything in whole words. -/
structure Linked (s : Sections) (romLow romHigh ramLow ramHigh : ℕ) : Prop where
  romLow : romLow ≤ s.dataLma.toNat
  romHigh : s.dataLma.toNat + (s.dataEnd.toNat - s.dataBegin.toNat) ≤ romHigh
  ramLow : ramLow ≤ s.dataBegin.toNat
  data : s.dataBegin.toNat ≤ s.dataEnd.toNat
  order : s.dataEnd.toNat ≤ s.bssBegin.toNat
  bss : s.bssBegin.toNat ≤ s.bssEnd.toNat
  ramHigh : s.bssEnd.toNat ≤ ramHigh
  dataWords : (s.dataEnd.toNat - s.dataBegin.toNat) % 4 = 0
  bssWords : (s.bssEnd.toNat - s.bssBegin.toNat) % 4 = 0

def Sections.dataWords (s : Sections) : ℕ := (s.dataEnd.toNat - s.dataBegin.toNat)/4
def Sections.bssWords (s : Sections) : ℕ := (s.bssEnd.toNat - s.bssBegin.toNat)/4

theorem Linked.data_end {s : Sections} {romLow romHigh ramLow ramHigh : ℕ}
    (h : Linked s romLow romHigh ramLow ramHigh) :
    s.dataEnd.toNat = s.dataBegin.toNat + 4*s.dataWords := by
  have hdata := h.data
  have hwords := h.dataWords
  rw [Sections.dataWords]
  omega

theorem Linked.bss_end {s : Sections} {romLow romHigh ramLow ramHigh : ℕ}
    (h : Linked s romLow romHigh ramLow ramHigh) :
    s.bssEnd.toNat = s.bssBegin.toNat + 4*s.bssWords := by
  have hbss := h.bss
  have hwords := h.bssWords
  rw [Sections.bssWords]
  omega

/-- The sections as C expects them, loaded from where `source` has them, and nothing changed
outside of `touched`. -/
structure Started (s : Sections) (source m m' : Memory) (touched : Set Addr) : Prop where
  data : ∀ i < 4*s.dataWords, m' (s.dataBegin + BitVec.ofNat 32 i) =
    source (s.dataLma + BitVec.ofNat 32 i)
  bss : ∀ x ∈ span s.bssBegin (4*s.bssWords), m' x = 0
  frame : AgreeOff touched m m'

/-- The words that stage one writes: one for each section that is empty. -/
def touched1 (s : Sections) : Set Addr :=
  span s.dataBegin (4*max 1 s.dataWords) ∪ span s.bssBegin (4*max 1 s.bssWords)

def touched2 (s : Sections) : Set Addr :=
  span s.dataBegin (4*s.dataWords) ∪ span s.bssBegin (4*s.bssWords)

theorem marker_restored (m m' : Memory) (h0 : ∀ k < 4, m' (ramStart + BitVec.ofNat 32 k) =
    m (ramStart + BitVec.ofNat 32 k)) (h4 : ∀ k < 4, m' (ramStart + 4 + BitVec.ofNat 32 k) =
    m (ramStart + 4 + BitVec.ofNat 32 k)) :
    writeWord (writeWord m' ramStart (readWord m ramStart)) (ramStart + 4)
      (readWord m (ramStart + 4)) = m' := by
  have hself : ∀ (a : Addr) (mm : Memory), (∀ k < 4, mm (a + BitVec.ofNat 32 k) =
      m (a + BitVec.ofNat 32 k)) → writeWord mm a (readWord m a) = mm := by
    intro a mm h
    funext x
    rw [writeWord]
    split_ifs with hx
    · have hk : (x - a).toNat < 4 := hx
      have hxa : x = a + BitVec.ofNat 32 (x - a).toNat := by
        rw [BitVec.ofNat_toNat, BitVec.setWidth_eq, add_sub_cancel]
      rw [word_byte m a _ hk, ← h _ hk, ← hxa]
    · rfl
  rw [hself ramStart m' h0, hself (ramStart + 4) m' h4]

/-- What copying `j` words and then clearing `k` makes of the sections. Either loop may go
a word too far. -/
theorem copied_and_cleared (s : Sections) {romLow romHigh ramLow ramHigh : ℕ}
    (h : Linked s romLow romHigh ramLow ramHigh) (j k : ℕ) (hj : s.dataWords ≤ j)
    (hk : s.bssWords ≤ k) (hapart : s.dataLma.toNat + 4*j ≤ s.dataBegin.toNat)
    (hdst : s.dataBegin.toNat + 4*j < 2^32) (hbss : s.bssBegin.toNat + 4*k < 2^32) (m : Memory) :
    Started s m m (fillWords 0 k s.bssBegin (copyWords j s.dataLma s.dataBegin m))
      (span s.dataBegin (4*j) ∪ span s.bssBegin (4*k)) := by
  have horder := h.order
  have hdata := h.data
  have hwords : 4*s.dataWords ≤ s.dataEnd.toNat - s.dataBegin.toNat := Nat.mul_div_le _ 4
  refine ⟨fun i hi => ?_,fun x hx => ?_,fun x hx => ?_⟩
  · have hoff : (s.dataBegin + BitVec.ofNat 32 i).toNat = s.dataBegin.toNat + i := by
      rw [offset_toNat, Nat.mod_eq_of_lt (by omega)]
    rw [fill_outside k 0 s.bssBegin _ hbss _ (by rw [mem_span]; omega)]
    exact copy_inside j s.dataLma s.dataBegin m (by omega) hdst (Or.inl hapart) i (by omega)
  · rw [mem_span] at hx
    exact fill_inside k s.bssBegin _ hbss x (by rw [mem_span]; omega)
  · rw [Set.mem_union, not_or] at hx
    rw [fill_outside k 0 s.bssBegin _ hbss x hx.2, copy_outside j s.dataLma s.dataBegin m hdst x hx.1]

/-- Stage one starts with its data, its zeros and everything else as it was, the marker
included, wherever its linker script has put the sections. -/
theorem stage1_started (s : Sections) (hl : Linked s 0 0x8000 0x20000010 0x20004000) (m : Memory)
    (fuel : ℕ) (hfuel : 4096 ≤ fuel) :
    ∃ m', startC fuel s m = some m' ∧ Started s m m m' (touched1 s) ∧
      AgreeOn (span ramStart 16) m m' := by
  have hromHigh := hl.romHigh
  have hramLow := hl.ramLow
  have horder := hl.order
  have hramHigh := hl.ramHigh
  have hdk := hl.data_end
  have hbk := hl.bss_end
  have hcopy := lp0_copies s.dataWords fuel s.dataLma s.dataBegin s.dataEnd m hdk (by omega) (by omega)
  have hfill := lp1_fills s.bssWords fuel s.bssBegin s.bssEnd
    (copyWords (max 1 s.dataWords) s.dataLma s.dataBegin m) hbk (by omega) (by omega)
  have hstarted := copied_and_cleared s hl (max 1 s.dataWords) (max 1 s.bssWords) (by omega) (by omega)
    (by omega) (by omega) (by omega) m
  have hstart : ramStart.toNat = 0x20000000 := rfl
  have hkept : AgreeOn (span ramStart 16) m (fillWords 0 (max 1 s.bssWords) s.bssBegin
      (copyWords (max 1 s.dataWords) s.dataLma s.dataBegin m)) := by
    intro x hx
    rw [mem_span] at hx
    apply hstarted.frame
    rw [Set.mem_union, mem_span, mem_span]
    omega
  have hmarker : ∀ j ≤ 4, ∀ k < 4, (ramStart + BitVec.ofNat 32 j + BitVec.ofNat 32 k) ∈
      span ramStart 16 := by
    intro j hj k hk
    rw [offset_offset, mem_span, offset_toNat]
    omega
  refine ⟨_,?_,hstarted,hkept⟩
  simp only [startC, hcopy, hfill, Option.bind_eq_bind, Option.bind_some]
  exact congrArg some (marker_restored m _
    (fun k hk => hkept _ (by simpa using hmarker 0 (by decide) k hk))
    (fun k hk => hkept _ (hmarker 4 (by decide) k hk)))

/-- Stage two starts with the payload at its place, its data out of the payload and its zeros,
wherever its linker script has put the sections, and nothing else has changed in RAM. -/
theorem stage2_started (payload : List Byte) (s : Sections) (hsize : payload.length ≤ 0x4000)
    (hl : Linked s 0x20004000 (0x20004000 + payload.length) 0x20008000 0x20010000) (m : Memory)
    (fuel : ℕ) (hfuel : 8192 < fuel) :
    ∃ m', chainToStage2 fuel payload s m = some m' ∧
      (∀ i < payload.length, m' (stage2RamAddr + BitVec.ofNat 32 i) = payload.getD i 0) ∧
      Started s (storeBytes payload stage2RamAddr m) m m'
        (span stage2RamAddr payload.length ∪ touched2 s) ∧
      AgreeOn (span ramStart 16) m m' := by
  have hromHigh := hl.romHigh
  have hramLow := hl.ramLow
  have horder := hl.order
  have hramHigh := hl.ramHigh
  have hdk := hl.data_end
  have hbk := hl.bss_end
  have haddr : stage2RamAddr.toNat = 0x20004000 := rfl
  have hstart : ramStart.toNat = 0x20000000 := rfl
  have hcopy := entry_copies s.dataWords fuel s.dataLma s.dataBegin s.dataEnd
    (storeBytes payload stage2RamAddr m) hdk (by omega) (by omega)
  have hfill := entry_fills s.bssWords fuel s.bssBegin s.bssEnd
    (copyWords s.dataWords s.dataLma s.dataBegin (storeBytes payload stage2RamAddr m)) hbk (by omega)
    (by omega)
  have hstarted := copied_and_cleared s hl s.dataWords s.bssWords le_rfl le_rfl (by omega) (by omega)
    (by omega) (storeBytes payload stage2RamAddr m)
  have hstored := store_outside payload stage2RamAddr m (by omega)
  have hframe : AgreeOff (span stage2RamAddr payload.length ∪ touched2 s) m (fillWords 0 s.bssWords
      s.bssBegin (copyWords s.dataWords s.dataLma s.dataBegin
        (storeBytes payload stage2RamAddr m))) := by
    apply agreeOff_trans (agreeOff_mono Set.subset_union_left hstored)
    exact agreeOff_mono Set.subset_union_right hstarted.frame
  refine ⟨_,?_,fun i hi => ?_,⟨hstarted.data,hstarted.bss,hframe⟩,fun x hx => ?_⟩
  · simp only [chainToStage2, stage2CppEntry, hcopy, hfill, Option.bind_eq_bind, Option.bind_some]
  · have hoff : (stage2RamAddr + BitVec.ofNat 32 i).toNat = 0x20004000 + i := by
      rw [offset_toNat, haddr, Nat.mod_eq_of_lt (by omega)]
    rw [hstarted.frame _ (by rw [Set.mem_union, mem_span, mem_span]; omega)]
    exact store_inside payload stage2RamAddr m (by omega) i hi
  · rw [mem_span] at hx
    apply hframe
    rw [touched2, Set.mem_union, Set.mem_union, mem_span, mem_span, mem_span]
    omega

def smallSections (lma data : Addr) : Sections := ⟨lma,data,data + 8,data + 8,data + 8⟩

theorem small_stage1_started : ∃ m', startC 4096 (smallSections 0x7F00 0x20000010) (fun _ => 0xFF) =
      some m' ∧ Started (smallSections 0x7F00 0x20000010) (fun _ => 0xFF) (fun _ => 0xFF) m'
        (touched1 (smallSections 0x7F00 0x20000010)) ∧
      AgreeOn (span ramStart 16) (fun _ => 0xFF) m' :=
  stage1_started (smallSections 0x7F00 0x20000010) ⟨by decide,by decide,by decide,by decide,by decide,
    by decide,by decide,by decide,by decide⟩ (fun _ => 0xFF) 4096 (by decide)

theorem small_stage2_started :
    let payload : List Byte := [1,2,3,4,5,6,7,8,9,10,11,12]
    let s := smallSections 0x20004004 0x20008000
    ∃ m', chainToStage2 8193 payload s (fun _ => 0xFF) = some m' ∧
      (∀ i < payload.length, m' (stage2RamAddr + BitVec.ofNat 32 i) = payload.getD i 0) ∧
      Started s (storeBytes payload stage2RamAddr fun _ => 0xFF) (fun _ => 0xFF) m'
        (span stage2RamAddr payload.length ∪ touched2 s) ∧
      AgreeOn (span ramStart 16) (fun _ => 0xFF) m' :=
  stage2_started [1,2,3,4,5,6,7,8,9,10,11,12] (smallSections 0x20004004 0x20008000) (by decide)
    ⟨by decide,by decide,by decide,by decide,by decide,by decide,by decide,by decide,by decide⟩
    (fun _ => 0xFF) 8193 (by decide)

end Swindle.StartUp
