import Swindle.StageTwo

/-!
# The data toggle

A host drops a packet that carries the toggle of the one before, because it takes it
for a repetition. The packets of a data stage alternate from DATA1 on, and the packet of
a status stage is always DATA1. The driver keeps one bit for both.
-/

set_option autoImplicit false

namespace Swindle.DataToggle
open Swindle.WordMemory Swindle.FlashController Swindle.DfuHandlers Swindle.UsbDriver
open Swindle.StageTwo Swindle.MachineRuns

def begins : Event → Bool
  | .setup _ => true
  | .busReset => true
  | _ => false

def newPackets (u v : Usb) : List Packet := v.armed.drop u.armed.length

/-- How many packets have been armed since the sequence began, before this event. -/
def before (e : Event) (n : ℕ) : ℕ := if begins e then 0 else n

def countSent (b : Board) (p : Poll) (s : Stage2) (n : ℕ) : ℕ :=
  before p.event n + (newPackets s.usb (loopTurn b p s).usb).length

/-- At most one packet is armed, with the toggle that the host expects; only the completion
of an IN packet arms another one than the first. -/
def Expected (e : Event) (n : ℕ) (u v : Usb) : Prop :=
  (newPackets u v).length ≤ 1 ∧
    ∀ p ∈ newPackets u v, p.tog = decide (before e n % 2 = 0) ∧ (e ≠ .inDone → p.tog = true)

structure InStep (n : ℕ) (u : Usb) : Prop where
  tog : u.ep0Tog = decide (n % 2 = 0)
  out : u.ctrlPhase = .ctrlDataOut → n = 0

/-- What one event arms: nothing, or one packet behind `n` others. -/
inductive Arms (n : ℕ) (u v : Usb) : Prop where
  | nothing (harmed : v.armed = u.armed) (hstep : InStep n v)
  | packet (p : Packet) (harmed : v.armed = u.armed ++ [p]) (htog : p.tog = decide (n % 2 = 0))
      (hstep : InStep (n+1) v)

theorem toggle_next (n : ℕ) : (!decide (n % 2 = 0)) = decide ((n+1) % 2 = 0) := by
  by_cases h : n % 2 = 0
  · rw [decide_eq_true h, decide_eq_false (by omega)]
    rfl
  · rw [decide_eq_false h, decide_eq_true (by omega)]
    rfl

/-- Sending with the toggle in step, in a phase that takes no more OUT packets. -/
theorem send_arms (n : ℕ) (data : List Byte) (len : BitVec 16) (u v : Usb)
    (harmed : v.armed = u.armed) (htog : v.ep0Tog = decide (n % 2 = 0))
    (hphase : v.ctrlPhase ≠ .ctrlDataOut) : Arms n u (ep0Send data len v) := by
  refine .packet ⟨data.take (clamp len).toNat,clamp len,v.ep0Tog⟩ (by rw [← harmed]; rfl) htog ⟨?_,?_⟩
  · rw [← toggle_next, ← htog]
    rfl
  · exact fun h => absurd h hphase

theorem setup_arms (req : SetupPacket) (u : Usb) (d : Dfu) : Arms 0 u (onSetup req u d).1 := by
  simp only [onSetup, route_request]
  split_ifs
  · exact send_arms 0 _ _ u _ rfl rfl (by simp)
  · exact send_arms 0 _ _ u _ rfl rfl (by simp)
  · exact send_arms 0 _ _ u _ rfl rfl (by simp)
  · exact send_arms 0 _ _ u _ rfl rfl (by simp)
  · exact .nothing rfl ⟨rfl,fun _ => rfl⟩

theorem in_arms (n : ℕ) (u : Usb) (h : InStep n u) : Arms n u (onIn u) := by
  have hidle : ∀ v : Usb, v.armed = u.armed → v.ep0Tog = u.ep0Tog →
      Arms n u (applyAddress { v with ctrlPhase := .ctrlIdle }) := by
    intro v harmed htog
    rw [applyAddress]
    split_ifs
    · exact .nothing harmed ⟨htog.trans h.tog,by simp⟩
    · exact .nothing harmed ⟨htog.trans h.tog,by simp⟩
  simp only [onIn]
  split_ifs with hin
  · exact send_arms n _ _ u _ rfl h.tog (by simp [hin.1])
  · exact hidle { u with ctrlDataRemaining := u.ctrlDataRemaining - clamp u.ctrlDataRemaining } rfl rfl
  · exact hidle u rfl rfl
  · exact .nothing rfl h

theorem take_same (rxLen : BitVec 16) (buf : ℕ → Byte) (u : Usb) :
    (takePacket rxLen buf u).armed = u.armed ∧ (takePacket rxLen buf u).ep0Tog = u.ep0Tog := by
  simp only [takePacket, storePacket]
  split_ifs <;> exact ⟨rfl,rfl⟩

theorem out_arms (n : ℕ) (rxLen : BitVec 16) (buf : ℕ → Byte) (u : Usb) (h : InStep n u) :
    Arms n u (outUsb rxLen buf u) ∧ ((outUsb rxLen buf u).armed ≠ u.armed → n = 0) := by
  obtain ⟨harmed,htog⟩ := take_same rxLen buf u
  rw [outUsb]
  split_ifs with hp hends
  · exact ⟨send_arms n [] 0 u _ harmed (htog.trans h.tog) (by simp),fun _ => h.out hp⟩
  · exact ⟨.nothing harmed ⟨htog.trans h.tog,fun _ => h.out hp⟩,fun hne => absurd harmed hne⟩
  · exact ⟨.nothing rfl h,fun hne => absurd rfl hne⟩

/-- The events of a running machine. -/
theorem turn_arms (b : Board) (e : Event) (n : ℕ) (s : Stage2) (hr : s.reset = false)
    (h : InStep n s.usb) : Arms (before e n) s.usb (turn b e s).usb ∧
      (e ≠ .inDone → (turn b e s).usb.armed ≠ s.usb.armed → before e n = 0) := by
  rw [turn_usb b e s hr]
  cases e with
  | setup req => exact ⟨setup_arms req s.usb s.dfu,fun _ _ => rfl⟩
  | inDone => exact ⟨in_arms n s.usb h,fun hne => absurd rfl hne⟩
  | out rxLen buf =>
    obtain ⟨harms,hfirst⟩ := out_arms n rxLen buf s.usb h
    exact ⟨harms,fun _ => hfirst⟩
  | busReset => exact ⟨.nothing rfl ⟨rfl,by simp [onBusReset]⟩,fun _ _ => rfl⟩
  | quiet => exact ⟨.nothing rfl h,fun _ hne => absurd rfl hne⟩

theorem arms_new {n : ℕ} {u v : Usb} (h : Arms n u v) : (newPackets u v).length ≤ 1 ∧
    (∀ p ∈ newPackets u v, p.tog = decide (n % 2 = 0) ∧ v.armed ≠ u.armed) ∧
      InStep (n + (newPackets u v).length) v := by
  cases h with
  | nothing harmed hstep =>
    have hnew : newPackets u v = [] := by rw [newPackets, harmed, List.drop_length]
    rw [hnew]
    exact ⟨Nat.zero_le _,by simp,hstep⟩
  | packet p harmed htog hstep =>
    have hnew : newPackets u v = [p] := by rw [newPackets, harmed, List.drop_left]
    rw [hnew]
    refine ⟨le_rfl,fun q hq => ?_,hstep⟩
    rw [List.mem_singleton.mp hq]
    exact ⟨htog,by rw [harmed]; simp⟩

/-- Whatever the host does: a poll arms at most one packet, between SETUP packets and bus
resets the packets alternate from DATA1 on, and the packets of status stages are DATA1. -/
theorem toggles_expected (b : Board) (f : Fmc) (ps : List Poll) :
    Along (watched (loopTurn b) (countSent b))
      (fun p c => Expected p.event c.2 c.1.usb (loopTurn b p c.1).usb) ps (boot f,0) := by
  apply along_invariant (watched (loopTurn b) (countSent b)) (fun _ _ => True)
    (fun c : Stage2 × ℕ => c.1.reset = false → InStep c.2 c.1.usb) _ _ _ ps _
    (along_inputs _ (fun _ => True) ps _ fun _ _ => trivial)
  · exact fun _ => ⟨rfl,fun _ => rfl⟩
  · intro p c _ hc hreset
    simp only [watched, countSent, loop_event] at hreset ⊢
    have hr : c.1.reset = false := by
      by_contra hne
      rw [Bool.not_eq_false] at hne
      rw [turn_reset b _ _ hne, hne] at hreset
      cases hreset
    exact (arms_new (turn_arms b p.event c.2 c.1 hr (hc hr)).1).2.2
  · intro p c _ hc
    rw [loop_event]
    cases hr : c.1.reset with
    | true =>
      rw [turn_reset b _ _ hr, Expected, newPackets, List.drop_length]
      exact ⟨Nat.zero_le _,by simp⟩
    | false =>
      obtain ⟨harms,hfirst⟩ := turn_arms b p.event c.2 c.1 hr (hc hr)
      obtain ⟨hone,hnew,-⟩ := arms_new harms
      refine ⟨hone,fun q hq => ?_⟩
      obtain ⟨htog,hne⟩ := hnew q hq
      refine ⟨htog,fun hin => ?_⟩
      rw [htog, hfirst hin hne]
      rfl

end Swindle.DataToggle
