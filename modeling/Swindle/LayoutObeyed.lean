import Swindle.LayoutString
import Swindle.AddressRange
import Swindle.BootRegion

/-!
# A host that keeps to the layout

The handlers do not protect the bootloader, and leave that to the host: the
layout string says which sectors it may erase and write. A host that reads the
string and keeps to it never reaches the bootloader, and is never refused for an
address.
-/

set_option autoImplicit false

namespace Swindle.LayoutObeyed
open Swindle.WordMemory Swindle.FlashController Swindle.FlashOperations Swindle.DfuHandlers
open Swindle.FlashFrames Swindle.UsbDriver Swindle.StageTwo Swindle.UsbHost Swindle.MachineRuns
open Swindle.UsbDescriptors Swindle.EmbeddedPrintf Swindle.PrintfNumbers Swindle.LayoutString
open Swindle.IdealFlash Swindle.AddressRange Swindle.BootRegion

/-! ## Reading a string descriptor -/

/-- Characters of two bytes, the second one zero. -/
def wideString : List Byte → Option (List Byte)
  | [] => some []
  | [_] => none
  | c::d::cs => if d = 0 then (wideString cs).map (c :: ·) else none

def readString : List Byte → Option (List Byte)
  | len::type::cs =>
    if type = usbDtString ∧ len.toNat = cs.length + 2 then wideString cs else none
  | _ => none

theorem wide_string (s : List Char) :
    wideString (s.flatMap fun c => [BitVec.ofNat 8 c.toNat,0]) = some (s.map chr) := by
  induction s with
  | nil => rfl
  | cons c s ih =>
    simp only [List.flatMap_cons, List.cons_append, List.nil_append, wideString, ih]
    rfl

theorem string_short (idx : Byte) : (stringOf idx).length ≤ 58 := by
  rw [stringOf]
  split_ifs
  · decide
  · decide
  · decide
  · exact (List.length_take_le _ _)
  · decide

/-- Every string of the device comes through its descriptor. -/
theorem string_round_trip (idx : Byte) (h : idx ≠ 0) :
    readString (stringDescriptor idx) = some ((stringOf idx).map chr) := by
  have hshort := string_short idx
  have hlen : ((stringOf idx).flatMap fun c => [BitVec.ofNat 8 c.toNat,(0 : Byte)]).length =
      2*(stringOf idx).length := by
    simp [List.length_flatMap]
    omega
  have htwo : (2 : Byte).toNat = 2 := rfl
  have hfirst : (2 + BitVec.ofNat 8 (stringOf idx).length * 2 : Byte).toNat =
      2*(stringOf idx).length + 2 := by
    simp only [BitVec.toNat_add, BitVec.toNat_mul, BitVec.toNat_ofNat, htwo]
    omega
  rw [stringDescriptor, if_neg h]
  simp only [List.cons_append, List.nil_append, readString, hlen, hfirst, true_and, if_true]
  exact wide_string _

/-- What the host makes of the response to a request for string four. -/
def hostLayout (response : List Byte) : Option (ℕ × List Segment) :=
  (readString response).bind readLayout

/-- The model of the descriptor has the text that the printf puts out. -/
theorem dfuse_string : (stringOf stridxDfuse).map chr =
    dfuseText (BitVec.ofNat 32 (flashBootldrSizeKb / dfuSectorSizeKb)) (BitVec.ofNat 32 dfuSectorSizeKb)
      (BitVec.ofNat 32 (flashAppSizeKb / dfuSectorSizeKb)) := by
  decide

theorem host_layout : hostLayout (stringDescriptor stridxDfuse) = some (0,layout 4 4 60) := by
  rw [hostLayout, string_round_trip stridxDfuse (by decide), dfuse_string, Option.bind_some]
  exact layout_round_trip _ (by decide) 0 _ (List.cons_ne_nil _ _)

theorem layout_delivered (req : SetupPacket) (usbDevAddr : Byte)
    (hreq : req.bRequest = usbReqGetDescriptor) (hv : req.wValue = 0x0304) :
    hostLayout (handleStdRequest req usbDevAddr).2 = some (0,layout 4 4 60) := by
  have hset : ¬ req.bRequest = usbReqSetAddress := by rw [hreq]; decide
  rw [handleStdRequest, if_neg hset, if_pos hreq, hv]
  exact host_layout

/-! ## Keeping to the layout -/

def Writable (s : Segment) : Prop := s.attr &&& 6 = 6

instance (s : Segment) : Decidable (Writable s) := inferInstanceAs (Decidable (_ = _))

def WritableAt (a : ℕ) : ℕ → List Segment → Prop
  | _, [] => False
  | start, s::rest =>
    start ≤ a ∧ a < start + s.count*(s.sizeKb*1024) ∧ Writable s ∨
      WritableAt a (start + s.count*(s.sizeKb*1024)) rest

/-- A payload that names sectors and bytes only where the layout lets it. -/
structure Obeys (lay : ℕ × List Segment) (data : Source) (len : BitVec 16) (d : Dfu) : Prop where
  erase : IsErasePage data len d → WritableAt (commandAddr data).toNat lay.1 lay.2
  write : IsBlock len d → ∀ i < len.toNat, WritableAt ((writeAddr d).toNat + i) lay.1 lay.2

def decidableWritableAt (a : ℕ) : ∀ start segs, Decidable (WritableAt a start segs)
  | _, [] => isFalse id
  | start, s::rest =>
    have := decidableWritableAt a (start + s.count*(s.sizeKb*1024)) rest
    inferInstanceAs (Decidable (_ ∧ _ ∧ _ ∨ _))

instance (a start : ℕ) (segs : List Segment) : Decidable (WritableAt a start segs) :=
  decidableWritableAt a start segs

instance (lay : ℕ × List Segment) (data : Source) (len : BitVec 16) (d : Dfu) :
    Decidable (Obeys lay data len d) :=
  decidable_of_iff ((IsErasePage data len d → WritableAt (commandAddr data).toNat lay.1 lay.2) ∧
      (IsBlock len d → ∀ i < len.toNat, WritableAt ((writeAddr d).toNat + i) lay.1 lay.2))
    ⟨fun h => ⟨h.1,h.2⟩,fun h => ⟨h.erase,h.write⟩⟩

theorem writable_layout (a : ℕ) : WritableAt a 0 (layout 4 4 60) ↔ 0x4000 ≤ a ∧ a < 0x40000 := by
  have hread : ¬ Writable ⟨4,4,chr 'a'⟩ := by decide
  have hwrite : Writable ⟨60,4,chr 'g'⟩ := by decide
  simp only [layout, WritableAt, hread, hwrite, and_false, and_true, false_or, or_false]

section Obedient
variable {data : Source} {len : BitVec 16} {d : Dfu} (h : Obeys (0,layout 4 4 60) data len d)
include h

theorem obedient_block (hb : IsBlock len d) :
    0x4000 ≤ (writeAddr d).toNat ∧ (writeAddr d).toNat + len.toNat ≤ 0x40000 := by
  have hlen : 0 < len.toNat := hb.2
  have hfirst := (writable_layout _).mp (h.write hb 0 hlen)
  have hlast := (writable_layout _).mp (h.write hb (len.toNat-1) (by omega))
  omega

/-- Rounding up to whole pages never goes around the end of the addresses. -/
theorem obedient_clear : ¬ Trespasses data len d := by
  rintro (⟨he,hb⟩ | ⟨hacc,i,hi,hb⟩)
  · have hw := (writable_layout _).mp (h.erase he)
    rw [mem_bootRegion, sectorAddr_toNat] at hb
    omega
  · have hw := obedient_block h hacc.1
    rw [rounded] at hi
    rw [mem_bootRegion, offset_toNat, Nat.mod_eq_of_lt (by omega)] at hb
    omega

/-- A sector or a block that is allowed is not refused for its address. -/
theorem obedient_accepted (hw : Controller) (f : Fmc) (hd : IsErasePage data len d ∨ IsBlock len d) :
    (dfuHandleData hw data len d f).1.status ≠ .errAddress := by
  rcases hd with he | hb
  · exact erase_not_refused hw data len d f he
  · have hw' := obedient_block h hb
    apply block_not_refused hw data len d f hb
    rw [BitVec.lt_def, flashEnd_toNat, BitVec.toNat_add, BitVec.toNat_setWidth_of_le (by decide)]
    omega

end Obedient

/-- Every payload that this event hands over keeps to the layout. -/
def Obedient (b : Board) (lay : ℕ × List Segment) (e : Event) (s : Stage2) : Prop :=
  ∀ data len, handedOver b e s = some (data,len) → Obeys lay data len s.dfu

instance (b : Board) (lay : ℕ × List Segment) (e : Event) (s : Stage2) :
    Decidable (Obedient b lay e s) :=
  match h : handedOver b e s with
  | some (data,len) => decidable_of_iff (Obeys lay data len s.dfu)
      (by simp only [Obedient, h, Option.some.injEq, Prod.mk.injEq]
          exact ⟨fun ho _ _ he => he.1 ▸ he.2 ▸ ho,fun ho => ho data len ⟨rfl,rfl⟩⟩)
  | none => isTrue (by simp [Obedient, h])

/-- A turn in which the bootloader stays as it is, and an erase or a block is not
refused for its address. -/
structure Served (b : Board) (e : Event) (s : Stage2) : Prop where
  kept : AgreeOn bootRegion s.fmc.flash (turn b e s).fmc.flash
  accepted : ∀ data len, handedOver b e s = some (data,len) →
    IsErasePage data len s.dfu ∨ IsBlock len s.dfu → (turn b e s).dfu.status ≠ .errAddress

/-- An operation that an allowed payload makes the controller commit stays clear of the
bootloader. -/
theorem obedient_op (b : Board) (hl : Local b.hw) (e : Event) (s : Stage2) (hi : Idle s.fmc)
    (h : Obedient b (0,layout 4 4 60) e s) :
    ∃ ops, Performs b.hw ops s.fmc (turn b e s).fmc ∧
      ∀ op ∈ ops, target op ⊆ bootRegionᶜ ∧ ∀ log m, AgreeOff bootRegionᶜ m (b.hw log op m).1 := by
  obtain ⟨ops,hp,hc⟩ := turn_commits b e s hi
  refine ⟨ops,hp,fun op hop => ?_⟩
  obtain ⟨data,len,hh,hcom⟩ := hc op hop
  have hclear := (commits_clear data len s.dfu (obedient_clear (h data len hh)) op
    hcom).subset_compl_right
  exact ⟨hclear,fun log m => agreeOff_mono hclear (hl log op m)⟩

theorem agree_off_compl {T : Set Addr} {m m' : Memory} (h : AgreeOff Tᶜ m m') : AgreeOn T m m' :=
  fun x hx => h x (fun hn => hn hx)

theorem turn_served (b : Board) (hl : Local b.hw) (e : Event) (s : Stage2) (hs : Settled s)
    (hi : Idle s.fmc) (h : Obedient b (0,layout 4 4 60) e s) : Served b e s := by
  obtain ⟨ops,hp,hc⟩ := obedient_op b hl e s hi h
  refine ⟨agree_off_compl (performs_frame hp fun op hop => (hc op hop).2),fun data len hh hd => ?_⟩
  rw [(turn_handed b e s hs data len hh).1]
  exact obedient_accepted (h data len hh) b.hw s.fmc hd

theorem run_served (b : Board) (hl : Local b.hw) (f : Fmc) (hf : Idle f) (ps : List Poll)
    (h : Along (loopTurn b) (fun p s => Obedient b (0,layout 4 4 60) p.event s) ps (boot f)) :
    Along (loopTurn b) (fun p s => Served b p.event s) ps (boot f) := by
  apply along_invariant (loopTurn b) _ (fun s => Settled s ∧ Idle s.fmc) _ _ _ ps _ h
    ⟨settled_boot f,hf⟩
  · rintro p s - ⟨hs,hi⟩
    exact ⟨settled_loop b p s hs,loop_idle_fmc b p s hi⟩
  · rintro p s hn ⟨hs,hi⟩
    exact turn_served b hl p.event s hs hi hn

theorem served_kept (b : Board) (f : Fmc) (ps : List Poll)
    (h : Along (loopTurn b) (fun p s => Served b p.event s) ps (boot f)) :
    AgreeOn bootRegion f.flash (run (loopTurn b) ps (boot f)).fmc.flash := by
  apply run_invariant (loopTurn b) _ (fun s => AgreeOn bootRegion f.flash s.fmc.flash) _ ps _ h
    (fun _ _ => rfl)
  intro p s hp hs x hx
  rw [loop_event, hp.kept x hx, hs x hx]

/-- Whatever a host does that reads string four and keeps to the layout it finds there:
the bootloader is as it was at every turn, and no erase and no block is refused
for its address. -/
theorem obedient_host (b : Board) (hl : Local b.hw) (f : Fmc) (hf : Idle f) (req : SetupPacket)
    (usbDevAddr : Byte) (hreq : req.bRequest = usbReqGetDescriptor) (hv : req.wValue = 0x0304)
    (lay : ℕ × List Segment) (hlay : hostLayout (handleStdRequest req usbDevAddr).2 = some lay)
    (ps : List Poll)
    (h : Along (loopTurn b) (fun p s => Obedient b lay p.event s) ps (boot f)) :
    Along (loopTurn b) (fun p s => Served b p.event s) ps (boot f) ∧
      AgreeOn bootRegion f.flash (run (loopTurn b) ps (boot f)).fmc.flash := by
  rw [layout_delivered req usbDevAddr hreq hv] at hlay
  cases hlay
  have hserved := run_served b hl f hf ps h
  exact ⟨hserved,served_kept b f ps hserved⟩

/-- The application written to where the layout says it may be. -/
theorem application_served : Along (loopTurn perfectBoard)
    (fun p s => Served perfectBoard p.event s) writeApplication (perfectBoot fun _ => 0xFF) ∧
      AgreeOn bootRegion (fun _ => 0xFF)
        (run (loopTurn perfectBoard) writeApplication (perfectBoot fun _ => 0xFF)).fmc.flash :=
  obedient_host perfectBoard perfect_local (resetFmc fun _ => 0xFF) (reset_idle _)
    ⟨0x80,usbReqGetDescriptor,0x0304,0,255⟩ 0 rfl rfl (0,layout 4 4 60)
    (layout_delivered _ _ rfl rfl) writeApplication (by decide +kernel)

end Swindle.LayoutObeyed
