import Swindle.WordMemory

/-!
# The flash controller and its erase and program primitives

The register file, the write cache and the memory behind the controller are
one state. Setting START or FASTSTART commits the operation that the mode bits
select; what the hardware then does to memory and which STAT flags it raises is
a parameter, which may depend on every operation committed before. STAT flags
are write-one-to-clear, FASTSTART clears itself, and an operation is finished
when the busy waits return, so the waits themselves do not appear.
-/

set_option autoImplicit false

namespace Swindle.FlashController
open Swindle.WordMemory

def flashSectorSize : Addr := 256

/-- The physical flash alias that every primitive adds to its address. -/
def phys (a : Addr) : Addr := a ||| 0x08000000

def fmcStatPgErr : Word := BitVec.twoPow 32 3
def fmcStatWpErr : Word := BitVec.twoPow 32 4
def fmcStatWpEndf : Word := BitVec.twoPow 32 5

def fmcCtlPg : Word := BitVec.twoPow 32 0
def fmcCtlStart : Word := BitVec.twoPow 32 6
def fmcCtlLk : Word := BitVec.twoPow 32 7
def fmcCtlFastUnlock : Word := BitVec.twoPow 32 15
def fmcCtlFastProgram : Word := BitVec.twoPow 32 16
def fmcCtlFastErase : Word := BitVec.twoPow 32 17
def fmcCtlBer32 : Word := BitVec.twoPow 32 18
def fmcCtlFastStart : Word := BitVec.twoPow 32 21

/-- Some bit of `mask` is set in the register value `r`. -/
def has (r mask : Word) : Bool := r &&& mask != 0

/-- A committed operation. `undefined` is a commit with no single mode bit
set, with the wrong start bit, or on a locked controller. -/
inductive Op where
  | fastErase (addr : Addr)
  | blockErase (addr : Addr)
  | fastProgram (words : List (Addr × Word))
  | undefined (ctl : Word)
  deriving DecidableEq, Repr

structure Flags where
  pgErr : Bool
  wpErr : Bool
  endf : Bool
  deriving DecidableEq, Repr

def Flags.stat (g : Flags) : Word :=
  (if g.pgErr then fmcStatPgErr else 0) ||| (if g.wpErr then fmcStatWpErr else 0) |||
    (if g.endf then fmcStatWpEndf else 0)

/-- The controller reports the end of the operation and no error. -/
def Flags.ok (g : Flags) : Bool := !(g.pgErr || g.wpErr) && g.endf

/-- The hardware: from the operations committed so far, the one committed now
and the memory, the memory afterwards and the flags raised. -/
abbrev Controller := List Op → Op → Memory → Memory × Flags

structure Fmc where
  ctl : Word
  stat : Word
  addr : Addr
  cache : List (Addr × Word)
  flash : Memory
  log : List Op

def decode (v : Word) (addr : Addr) (cache : List (Addr × Word)) : Op :=
  if has v fmcCtlLk || has v fmcCtlFastUnlock then .undefined v else
  match has v fmcCtlFastErase, has v fmcCtlBer32, has v fmcCtlFastProgram with
  | true, false, false => if has v fmcCtlStart then .fastErase addr else .undefined v
  | false, true, false => if has v fmcCtlStart then .blockErase addr else .undefined v
  | false, false, true => if has v fmcCtlFastStart then .fastProgram cache else .undefined v
  | _, _, _ => .undefined v

def Fmc.writeCtl (hw : Controller) (v : Word) (f : Fmc) : Fmc :=
  if (has v fmcCtlStart && !has f.ctl fmcCtlStart) || has v fmcCtlFastStart then
    let op := decode v f.addr f.cache
    let r := hw f.log op f.flash
    { f with ctl := v &&& ~~~fmcCtlFastStart, stat := f.stat ||| r.2.stat,
             cache := [], flash := r.1, log := f.log ++ [op] }
  else { f with ctl := v }

def Fmc.writeStat (v : Word) (f : Fmc) : Fmc := { f with stat := f.stat &&& ~~~v }

def Fmc.writeAddr (a : Addr) (f : Fmc) : Fmc := { f with addr := a }

/-- A word store into the flash range while fast programming fills the cache. -/
def Fmc.store (a : Addr) (w : Word) (f : Fmc) : Fmc := { f with cache := f.cache ++ [(a,w)] }

/-- The standard and the fast key sequences; each clears its lock bit. -/
def fmcFastUnlock (f : Fmc) : Fmc :=
  let ctl := if has f.ctl fmcCtlLk then f.ctl &&& ~~~fmcCtlLk else f.ctl
  let ctl := if has ctl fmcCtlFastUnlock then ctl &&& ~~~fmcCtlFastUnlock else ctl
  { f with ctl := ctl }

def erasedWord : Word := 0xE339E339

/-- The body that `fmc_erase_page` and `fmc_erase_32k` share: they differ in
the mode bit, and in what they do once the controller reports success. -/
def fmcErase (hw : Controller) (mode : Word) (fmcAddr : Addr) (f : Fmc) : Bool × Fmc :=
  let f := fmcFastUnlock f
  let f := f.writeCtl hw (f.ctl ||| mode)
  let f := f.writeAddr fmcAddr
  let f := f.writeCtl hw (f.ctl ||| fmcCtlStart)
  let stat := f.stat
  let f := f.writeStat fmcStatWpEndf
  let f := f.writeCtl hw (f.ctl &&& ~~~mode)
  let f := f.writeCtl hw (f.ctl &&& ~~~fmcCtlStart)
  if has stat (fmcStatPgErr ||| fmcStatWpErr) then
    (false, f.writeStat (fmcStatPgErr ||| fmcStatWpErr))
  else if !has stat fmcStatWpEndf then (false, f)
  else (true, f)

/-- All 64 words of the page that starts at the physical address `p` read erased. -/
def erasedWords (m : Memory) (p : Addr) : Bool :=
  (List.range 64).all fun i => readWord m (p + 4*BitVec.ofNat 32 i) == erasedWord

/-- Completion is not trusted: the page is read back. -/
def fmcErasePage (hw : Controller) (addr : Addr) (f : Fmc) : Bool × Fmc :=
  let r := fmcErase hw fmcCtlFastErase (phys addr) f
  if r.1 then (erasedWords r.2.flash (phys addr), r.2) else (false, r.2)

/-- The block path believes the end flag. -/
def fmcErase32k (hw : Controller) (addr : Addr) (f : Fmc) : Bool × Fmc :=
  fmcErase hw fmcCtlBer32 (phys addr) f

/-- The loop of `fmc_erase_range`, with `n` page erases still to do. -/
def fmcErasePages (hw : Controller) : ℕ → Addr → Fmc → Bool × Fmc
  | 0, _, f => (true, f)
  | n+1, startAddress, f =>
    let r := fmcErasePage hw startAddress f
    if r.1 then fmcErasePages hw n (startAddress + 256) r.2 else (false, r.2)

def fmcEraseRange (hw : Controller) (startAddress : Addr) (sizeInKBytes : ℕ) (f : Fmc) :
    Bool × Fmc :=
  fmcErasePages hw (sizeInKBytes*4) startAddress f

/-- A pointer to source bytes: its numeric value and what lies from it on. -/
structure Source where
  addr : Addr
  byte : ℕ → Byte

def Source.advance (n : ℕ) (src : Source) : Source where
  addr := src.addr + BitVec.ofNat 32 n
  byte i := src.byte (n+i)

theorem advance_byte (src : Source) {n i : ℕ} (h : n ≤ i) :
    (src.advance n).byte (i-n) = src.byte i := congrArg src.byte (Nat.add_sub_of_le h)

/-- The word an aligned load reads from little-endian memory. -/
def Source.loadWord (src : Source) (i : ℕ) : Word :=
  littleEndian (src.byte i) (src.byte (i+1)) (src.byte (i+2)) (src.byte (i+3))

/-- The word the unaligned branch assembles by shifts. -/
def Source.assembleWord (src : Source) (i : ℕ) : Word :=
  (src.byte i).setWidth 32 ||| (src.byte (i+1)).setWidth 32 <<< 8 |||
    (src.byte (i+2)).setWidth 32 <<< 16 ||| (src.byte (i+3)).setWidth 32 <<< 24

/-- `n` iterations of a copy loop: one word a turn, four bytes further each time. -/
def storeWords (word : ℕ → Word) (prog : Addr) (n : ℕ) (f : Fmc) : Fmc :=
  (List.range n).foldl (fun f i => f.store (prog + 4*BitVec.ofNat 32 i) (word (4*i))) f

def fmcWriteBlock (hw : Controller) (addr : Addr) (data : Source) (f : Fmc) : Bool × Fmc :=
  let prog := phys addr
  let f := f.writeCtl hw (f.ctl ||| fmcCtlFastProgram)
  let f :=
    if data.addr &&& 3 == 0 then storeWords data.loadWord prog 64 f
    else storeWords data.assembleWord prog 64 f
  let f := f.writeCtl hw (f.ctl ||| fmcCtlFastStart)
  let stat := f.stat
  let f := f.writeCtl hw (f.ctl &&& ~~~fmcCtlPg)
  let f := f.writeCtl hw (f.ctl &&& ~~~fmcCtlFastProgram)
  let f := f.writeStat fmcStatWpEndf
  if has stat (fmcStatPgErr ||| fmcStatWpErr) then
    (false, f.writeStat (fmcStatPgErr ||| fmcStatWpErr))
  else if !has stat fmcStatWpEndf then (false, f)
  else (true, f)

/-- The loop of `fmc_write`; the counter is signed and may step past zero. -/
def fmcWriteLoop (hw : Controller) (startAddress : Addr) (data : Source) (sizeInBytes : ℤ)
    (f : Fmc) : Bool × Fmc :=
  if 0 < sizeInBytes then
    let r := fmcWriteBlock hw startAddress data f
    if r.1 then
      fmcWriteLoop hw (startAddress + 256) (data.advance 256) (sizeInBytes - 256) r.2
    else (false, r.2)
  else (true, f)
termination_by sizeInBytes.toNat
decreasing_by omega

def fmcWrite (hw : Controller) (startAddress : Addr) (data : Source) (sizeInBytes : ℤ)
    (f : Fmc) : Bool × Fmc :=
  fmcWriteLoop hw startAddress data sizeInBytes (fmcFastUnlock f)

def fmcPageIsErased (m : Memory) (addr : Addr) : Bool := erasedWords m (phys addr)

def fmcVerify (m : Memory) (addr : Addr) (data : Source) (sizeInBytes : ℕ) : Bool :=
  (List.range sizeInBytes).all fun i => m (phys addr + BitVec.ofNat 32 i) == data.byte i

theorem verify_iff (m : Memory) (addr : Addr) (data : Source) (n : ℕ) :
    fmcVerify m addr data n = true ↔
      ∀ i < n, m (phys addr + BitVec.ofNat 32 i) = data.byte i := by
  simp only [fmcVerify, List.all_eq_true, List.mem_range, beq_iff_eq]

end Swindle.FlashController
