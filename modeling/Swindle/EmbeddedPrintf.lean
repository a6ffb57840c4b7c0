import Swindle.WordMemory

/-!
# The embedded printf

The build disables the floating point, `long long` and `ptrdiff_t` conversions,
and the model is of what is left. Both `long` and `int` have 32 bits, and `char`
is signed, as the build asks for. A format is the whole array of its characters with the terminator,
and reading outside an array has no result.
-/

set_option autoImplicit false

namespace Swindle.EmbeddedPrintf
open Swindle.WordMemory

variable {σ : Type}

def chr (c : Char) : Byte := BitVec.ofNat 8 c.toNat

def literal (s : List Byte) : List Byte := s ++ [0]

def ntoaBufferSize : ℕ := 32

/-- The bits of `flags`. -/
structure Flags where
  zeropad : Bool := false
  left : Bool := false
  plus : Bool := false
  space : Bool := false
  hash : Bool := false
  uppercase : Bool := false
  char : Bool := false
  short : Bool := false
  long : Bool := false
  longLong : Bool := false
  precision : Bool := false
  deriving DecidableEq

inductive Arg where
  | word (w : Word)
  | str (s : List Byte)

/-- `out(character, buffer, idx, maxlen)`, where `σ` is what it writes to. -/
abbrev OutFct (σ : Type) := Byte → Word → Word → σ → σ

/-! ## The output functions -/

abbrev Buffer := Word → Byte

def outBuffer : OutFct Buffer := fun c idx maxlen b =>
  if idx < maxlen then Function.update b idx c else b

def outNull : OutFct σ := fun _ _ _ s => s

structure Cursor (σ : Type) where
  idx : Word
  sink : σ

section Output
variable (out : OutFct σ) (maxlen : Word)

/-- `out(c, buffer, idx++, maxlen)`. -/
def put (c : Byte) (k : Cursor σ) : Cursor σ := ⟨k.idx + 1,out c k.idx maxlen k.sink⟩

def spaces : ℕ → Cursor σ → Cursor σ
  | 0, k => k
  | n+1, k => spaces n (put out maxlen (chr ' ') k)

/-- `while (idx - start_idx < width)`. -/
def spacesTo (start width : Word) : ℕ → Cursor σ → Cursor σ
  | 0, k => k
  | n+1, k =>
    if k.idx - start < width then spacesTo start width n (put out maxlen (chr ' ') k) else k

def puts : List Byte → Cursor σ → Cursor σ
  | [], k => k
  | c::cs, k => puts cs (put out maxlen c k)

def outRev (buf : List Byte) (width : Word) (flags : Flags) (k : Cursor σ) : Cursor σ :=
  let start := k.idx
  let k := if !flags.left && !flags.zeropad then spaces out maxlen (width.toNat - buf.length) k else k
  -- `while (len) out(buf[--len], ...)`
  let k := puts out maxlen buf.reverse k
  if flags.left then spacesTo out maxlen start width width.toNat k else k

/-! ## Numbers -/

def strnlenS : List Byte → ℕ → Option Word
  | [], _ => none
  | c::cs, maxsize =>
    if c = 0 then some 0
    else match maxsize with
      | 0 => some 0
      | n+1 => do return (← strnlenS cs n) + 1

def isDigit (c : Byte) : Bool := chr '0' ≤ c && c ≤ chr '9'

def atoiLoop : List Byte → Word → Option (Word × List Byte)
  | [], _ => none
  | c::cs, i => if isDigit c then atoiLoop cs (i*10 + (c - chr '0').setWidth 32) else some (i,c::cs)

def atoi (s : List Byte) : Option (Word × List Byte) := atoiLoop s 0

/-- `while ((len < target) && (len < PRINTF_NTOA_BUFFER_SIZE)) buf[len++] = '0'`. -/
def padZeros (target : ℕ) : ℕ → List Byte → List Byte
  | 0, buf => buf
  | n+1, buf =>
    if buf.length < target ∧ buf.length < ntoaBufferSize then padZeros target n (buf ++ [chr '0'])
    else buf

/-- `if (len < PRINTF_NTOA_BUFFER_SIZE) buf[len++] = c`. -/
def pushIf (c : Byte) (buf : List Byte) : List Byte :=
  if buf.length < ntoaBufferSize then buf ++ [c] else buf

/-- Room for the prefix, in place of zeros if there are any. -/
def dropForHash (base prec width : Word) (flags : Flags) (buf : List Byte) : List Byte :=
  if !flags.precision ∧ buf.length ≠ 0 ∧ (buf.length = prec.toNat ∨ buf.length = width.toNat) then
    let buf := buf.dropLast
    if buf.length ≠ 0 ∧ base = 16 then buf.dropLast else buf
  else buf

def pushBase (base : Word) (flags : Flags) (buf : List Byte) : List Byte :=
  if base = 16 ∧ !flags.uppercase then pushIf (chr 'x') buf
  else if base = 16 ∧ flags.uppercase then pushIf (chr 'X') buf
  else if base = 2 then pushIf (chr 'b') buf
  else buf

def handleHash (base prec width : Word) (flags : Flags) (buf : List Byte) : List Byte :=
  pushIf (chr '0') (pushBase base flags (dropForHash base prec width flags buf))

def pushSign (negative : Bool) (flags : Flags) (buf : List Byte) : List Byte :=
  if buf.length < ntoaBufferSize then
    if negative then buf ++ [chr '-']
    else if flags.plus then buf ++ [chr '+']
    else if flags.space then buf ++ [chr ' ']
    else buf
  else buf

/-- The width that `_ntoa_format` goes on with. -/
def formatWidth (negative : Bool) (width : Word) (flags : Flags) : Word :=
  if !flags.left ∧ width ≠ 0 ∧ flags.zeropad ∧ (negative ∨ flags.plus ∨ flags.space) then width - 1
  else width

/-- The buffer that `_ntoa_format` hands to `_out_rev`. -/
def formatBuf (buf : List Byte) (negative : Bool) (base prec width : Word) (flags : Flags) :
    List Byte :=
  let buf :=
    if !flags.left then
      let buf := padZeros prec.toNat ntoaBufferSize buf
      if flags.zeropad then padZeros width.toNat ntoaBufferSize buf else buf
    else buf
  let buf := if flags.hash then handleHash base prec width flags buf else buf
  pushSign negative flags buf

def ntoaFormat (buf : List Byte) (negative : Bool) (base prec width : Word) (flags : Flags)
    (k : Cursor σ) : Cursor σ :=
  let width := formatWidth negative width flags
  outRev out maxlen (formatBuf buf negative base prec width flags) width flags k

def digitChar (uppercase : Bool) (digit : Byte) : Byte :=
  if digit < 10 then chr '0' + digit else (if uppercase then chr 'A' else chr 'a') + digit - 10

/-- The digits of `value` from the last one on. -/
def digitLoop (base : Word) (uppercase : Bool) : ℕ → Word → List Byte → List Byte
  | 0, _, buf => buf
  | n+1, value, buf =>
    let buf := buf ++ [digitChar uppercase ((value % base).setWidth 8)]
    let value := value / base
    if value ≠ 0 ∧ buf.length < ntoaBufferSize then digitLoop base uppercase n value buf else buf

def ntoaLong (value : Word) (negative : Bool) (base prec width : Word) (flags : Flags)
    (k : Cursor σ) : Cursor σ :=
  let flags := if value = 0 then { flags with hash := false } else flags
  let buf := if !flags.precision ∨ value ≠ 0 then digitLoop base flags.uppercase ntoaBufferSize value []
    else []
  ntoaFormat out maxlen buf negative base prec width flags k

end Output

/-! ## Reading a conversion -/

def flagsLoop (flags : Flags) : List Byte → Option (Flags × List Byte)
  | [] => none
  | c::cs =>
    if c = chr '0' then flagsLoop { flags with zeropad := true } cs
    else if c = chr '-' then flagsLoop { flags with left := true } cs
    else if c = chr '+' then flagsLoop { flags with plus := true } cs
    else if c = chr ' ' then flagsLoop { flags with space := true } cs
    else if c = chr '#' then flagsLoop { flags with hash := true } cs
    else some (flags,c::cs)

/-- `va_arg` for any type of 32 bits that is no pointer to characters. -/
def vaWord : List Arg → Option (Word × List Arg)
  | .word w::va => some (w,va)
  | _ => none

def vaStr : List Arg → Option (List Byte × List Arg)
  | .str s::va => some (s,va)
  | _ => none

structure Reading where
  format : List Byte
  va : List Arg
  flags : Flags
  width : Word := 0
  precision : Word := 0

def widthField (r : Reading) : Option Reading :=
  match r.format with
  | [] => none
  | c::cs =>
    if isDigit c then do
      let (w,cs) ← atoi (c::cs)
      return { r with width := w, format := cs }
    else if c = chr '*' then do
      let (w,va) ← vaWord r.va
      if w.toInt < 0 then
        return { r with flags := { r.flags with left := true }, width := -w, va := va, format := cs }
      else return { r with width := w, va := va, format := cs }
    else some r

def precisionField (r : Reading) : Option Reading :=
  match r.format with
  | [] => none
  | c::cs =>
    if c = chr '.' then
      let r := { r with flags := { r.flags with precision := true }, format := cs }
      match cs with
      | [] => none
      | c::cs =>
        if isDigit c then do
          let (p,cs) ← atoi (c::cs)
          return { r with precision := p, format := cs }
        else if c = chr '*' then do
          let (p,va) ← vaWord r.va
          return { r with precision := if 0 < p.toInt then p else 0, va := va, format := cs }
        else some r
    else some r

def lengthField (r : Reading) : Option Reading :=
  match r.format with
  | [] => none
  | c::cs =>
    if c = chr 'l' then
      let r := { r with flags := { r.flags with long := true }, format := cs }
      match cs with
      | [] => none
      | c::cs =>
        if c = chr 'l' then some { r with flags := { r.flags with longLong := true }, format := cs }
        else some r
    else if c = chr 'h' then
      let r := { r with flags := { r.flags with short := true }, format := cs }
      match cs with
      | [] => none
      | c::cs =>
        if c = chr 'h' then some { r with flags := { r.flags with char := true }, format := cs }
        else some r
    -- `intmax_t` has 64 bits, `size_t` as many as `long`
    else if c = chr 'j' then some { r with flags := { r.flags with longLong := true }, format := cs }
    else if c = chr 'z' then some { r with flags := { r.flags with long := true }, format := cs }
    else some r

/-! ## The conversions -/

section Conversions
variable (out : OutFct σ) (maxlen : Word)

def isInteger (c : Byte) : Bool :=
  c = chr 'd' || c = chr 'i' || c = chr 'u' || c = chr 'x' || c = chr 'X' || c = chr 'o' ||
    c = chr 'b'

def isSigned (c : Byte) : Bool := c = chr 'i' || c = chr 'd'

def baseOf (c : Byte) : Word :=
  if c = chr 'x' ∨ c = chr 'X' then 16
  else if c = chr 'o' then 8
  else if c = chr 'b' then 2
  else 10

def integerFlags (c : Byte) (flags : Flags) : Flags :=
  let flags := if baseOf c = 10 then { flags with hash := false } else flags
  let flags := if c = chr 'X' then { flags with uppercase := true } else flags
  let flags := if !isSigned c then { flags with plus := false, space := false } else flags
  if flags.precision then { flags with zeropad := false } else flags

/-- The argument as the casts of the conversion narrow it. -/
def narrow (isSigned : Bool) (flags : Flags) (w : Word) : Word :=
  if flags.long then w
  else if flags.char then
    if isSigned then (w.setWidth 8).signExtend 32 else (w.setWidth 8).setWidth 32
  else if flags.short then
    if isSigned then (w.setWidth 16).signExtend 32 else (w.setWidth 16).setWidth 32
  else w

/-- `value > 0 ? value : 0 - value`. -/
def magnitude (value : Word) : Word := if 0 < value.toInt then value else 0 - value

/-- Nothing is read or put out for a `long long`. -/
def integerConversion (c : Byte) (r : Reading) (k : Cursor σ) : Option (List Arg × Cursor σ) :=
  let flags := integerFlags c r.flags
  if flags.longLong then some (r.va,k)
  else do
    let (w,va) ← vaWord r.va
    let value := narrow (isSigned c) flags w
    if isSigned c then
      return (va,ntoaLong out maxlen (magnitude value) (value.toInt < 0) (baseOf c) r.precision r.width
        flags k)
    else return (va,ntoaLong out maxlen value false (baseOf c) r.precision r.width flags k)

def charConversion (r : Reading) (k : Cursor σ) : Option (List Arg × Cursor σ) := do
  let k := if !r.flags.left then spaces out maxlen (r.width.toNat - 1) k else k
  let (w,va) ← vaWord r.va
  let k := put out maxlen (w.setWidth 8) k
  return (va,if r.flags.left then spaces out maxlen (r.width.toNat - 1) k else k)

/-- `while ((*p != 0) && (!(flags & FLAGS_PRECISION) || precision--))`. -/
def stringLoop (bounded : Bool) : List Byte → ℕ → Cursor σ → Option (Cursor σ)
  | [], _, _ => none
  | c::cs, precision, k =>
    if c = 0 ∨ (bounded ∧ precision = 0) then some k
    else stringLoop bounded cs (precision - 1) (put out maxlen c k)

def stringConversion (r : Reading) (k : Cursor σ) : Option (List Arg × Cursor σ) := do
  let (p,va) ← vaStr r.va
  let l ← strnlenS p (if r.precision ≠ 0 then r.precision.toNat else 2^32-1)
  let l := if r.flags.precision then (if l < r.precision then l else r.precision) else l
  let k := if !r.flags.left then spaces out maxlen (r.width.toNat - l.toNat) k else k
  let k ← stringLoop out maxlen r.flags.precision p r.precision.toNat k
  return (va,if r.flags.left then spaces out maxlen (r.width.toNat - l.toNat) k else k)

def pointerConversion (r : Reading) (k : Cursor σ) : Option (List Arg × Cursor σ) := do
  let flags := { r.flags with zeropad := true, uppercase := true }
  let (w,va) ← vaWord r.va
  return (va,ntoaLong out maxlen w false 16 r.precision 8 flags k)

/-- The specifier `c`, which has been passed over in the format. -/
def specifier (c : Byte) (r : Reading) (k : Cursor σ) : Option (List Arg × Cursor σ) :=
  if isInteger c then integerConversion out maxlen c r k
  else if c = chr 'c' then charConversion out maxlen r k
  else if c = chr 's' then stringConversion out maxlen r k
  else if c = chr 'p' then pointerConversion out maxlen r k
  else if c = chr '%' then some (r.va,put out maxlen (chr '%') k)
  else some (r.va,put out maxlen c k)

def fields (format : List Byte) (va : List Arg) : Option Reading := do
  let (flags,format) ← flagsLoop {} format
  let r ← widthField { format, va, flags }
  let r ← precisionField r
  lengthField r

/-- `while (*format)`. Every turn passes over a character, so that the length of the
format is fuel enough. -/
def formatLoop : ℕ → List Byte → List Arg → Cursor σ → Option (Cursor σ)
  | 0, _, _, _ => none
  | n+1, format, va, k =>
    match format with
    | [] => none
    | c::cs =>
      if c = 0 then some k
      else if c ≠ chr '%' then formatLoop n cs va (put out maxlen c k)
      else do
        let r ← fields cs va
        match r.format with
        | [] => none
        | c::cs =>
          let (va,k) ← specifier out maxlen c r k
          formatLoop n cs va k

def vsnprintfCore (format : List Byte) (va : List Arg) (s : σ) : Option (Word × σ) := do
  let k ← formatLoop out maxlen format.length format va ⟨0,s⟩
  return (k.idx,out 0 (if k.idx < maxlen then k.idx else maxlen - 1) maxlen k.sink)

end Conversions

/-! ## Printing into a buffer -/

/-- No buffer stands for a null pointer. -/
def snprintf (buffer : Option Buffer) (count : Word) (format : List Byte) (va : List Arg) :
    Option (Word × Option Buffer) :=
  match buffer with
  | none => do return ((← vsnprintfCore outNull count format va ()).1,none)
  | some b => do
    let r ← vsnprintfCore outBuffer count format va b
    return (r.1,some r.2)

end Swindle.EmbeddedPrintf
