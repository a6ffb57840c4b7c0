import Swindle.PrintfBuffer
import Swindle.PrintfNumbers
import Swindle.UsbDescriptors

/-!
# The layout string

String four tells the host which sectors it may erase and write. The text comes
out of the embedded printf, is cut at 58 characters, and is sent with two bytes
for each character. What a host makes of it is given by the readers below.
-/

set_option autoImplicit false

namespace Swindle.LayoutString
open Swindle.WordMemory Swindle.EmbeddedPrintf Swindle.PrintfText Swindle.PrintfBuffer
open Swindle.PrintfNumbers Swindle.Numerals

/-! ## The layout and its text -/

/-- So many sectors of a size, with the letter for what may be done with them. -/
structure Segment where
  count : ℕ
  sizeKb : ℕ
  attr : Byte
  deriving DecidableEq

def padded (base w n : ℕ) : List Byte :=
  List.replicate (w - (digitList base n).length) (chr '0') ++
    ((digitList base n).map (digitByte false)).reverse

def segmentText (s : Segment) : List Byte :=
  padded 10 0 s.count ++ chr '*' :: (padded 10 4 s.sizeKb ++ [chr 'K',s.attr])

def segmentsText : List Segment → List Byte
  | [] => []
  | [s] => segmentText s
  | s::t::rest => segmentText s ++ chr ',' :: segmentsText (t::rest)

def layoutText (name : List Byte) (start : ℕ) (segs : List Segment) : List Byte :=
  chr '@' :: (name ++ chr '/' :: chr '0' :: chr 'x' ::
    (padded 16 8 start ++ chr '/' :: segmentsText segs))

/-! ## How a host reads it -/

def inBase (base : ℕ) (c : Byte) : Bool := (digitValue c).any (· < base)

def readNumber (base : ℕ) (cs : List Byte) : Option (ℕ × List Byte) :=
  (numeral base digitValue (cs.takeWhile (inBase base))).map fun n => (n,cs.dropWhile (inBase base))

def expect (c : Byte) : List Byte → Option (List Byte)
  | [] => none
  | d::ds => if d = c then some ds else none

def readSegment (cs : List Byte) : Option (Segment × List Byte) := do
  let (n,cs) ← readNumber 10 cs
  let cs ← expect (chr '*') cs
  let (k,cs) ← readNumber 10 cs
  let cs ← expect (chr 'K') cs
  match cs with
  | [] => none
  | a::cs => return (⟨n,k,a⟩,cs)

/-- Segments with commas between them, up to the end of the text. -/
def readSegments : ℕ → List Byte → Option (List Segment)
  | 0, _ => none
  | n+1, cs => do
    let (s,cs) ← readSegment cs
    match cs with
    | [] => return [s]
    | c::cs => do
      let cs ← expect (chr ',') (c::cs)
      return s :: (← readSegments n cs)

def readLayout (t : List Byte) : Option (ℕ × List Segment) := do
  let cs ← expect (chr '@') t
  let cs ← expect (chr '/') (cs.dropWhile (· ≠ chr '/'))
  let cs ← expect (chr '0') cs
  let cs ← expect (chr 'x') cs
  let (start,cs) ← readNumber 16 cs
  let cs ← expect (chr '/') cs
  return (start,← readSegments t.length cs)

/-! ## The round trip -/

theorem expect_self (c : Byte) (cs : List Byte) : expect c (c::cs) = some cs := if_pos rfl

section Padded
variable (base w n : ℕ) (hbase : 1 < base) (h16 : base ≤ 16)
include hbase h16

theorem padded_value : numeral base digitValue (padded base w n) = some n := by
  have hchar : ∀ d < base, digitValue (digitByte false d) = some d := fun d hd =>
    digit_byte_value false d (lt_of_lt_of_le hd h16)
  have hne : padded base w n ≠ [] := fun h =>
    digit_list_ne base n hbase (by simpa [padded] using (List.append_eq_nil_iff.mp h).2)
  rw [numeral, if_neg hne, padded, numeral_zeros _ _ _ (by decide), digitList]
  by_cases hn : n = 0
  · subst hn
    simp [numeralFrom, hchar 0 (Nat.zero_lt_of_lt hbase)]
  · rw [if_neg hn, ← List.map_reverse]
    exact numeral_written _ _ _ hbase hchar n

theorem padded_digits : ∀ c ∈ padded base w n, inBase base c = true := by
  intro c hc
  rcases List.mem_append.mp hc with hz | hd
  · rw [List.eq_of_mem_replicate hz, inBase, show digitValue (chr '0') = some 0 by decide]
    simpa using Nat.zero_lt_of_lt hbase
  · obtain ⟨d,hmem,rfl⟩ := List.mem_map.mp (List.mem_reverse.mp hd)
    have hlt := digit_list_lt base n d hbase hmem
    rw [inBase, digit_byte_value false d (lt_of_lt_of_le hlt h16)]
    simpa using hlt

/-- A number is read up to the first character that is no digit. -/
theorem read_padded (c : Byte) (cs : List Byte) (hc : inBase base c = false) :
    readNumber base (padded base w n ++ c::cs) = some (n,c::cs) := by
  have hdigits := padded_digits base w n hbase h16
  rw [readNumber, List.takeWhile_append_of_pos hdigits, List.dropWhile_append_of_pos hdigits,
    List.takeWhile_cons, List.dropWhile_cons, hc]
  simp [padded_value base w n hbase h16]

end Padded

theorem read_segment (s : Segment) (cs : List Byte) :
    readSegment (segmentText s ++ cs) = some (s,cs) := by
  rw [readSegment, segmentText, List.append_assoc, List.cons_append,
    read_padded 10 0 s.count (by decide) (by decide) _ _ (by decide)]
  simp only [Option.bind_eq_bind, Option.bind_some, expect_self, List.append_assoc, List.cons_append,
    List.nil_append]
  rw [read_padded 10 4 s.sizeKb (by decide) (by decide) _ _ (by decide)]
  simp only [Option.bind_some, expect_self]
  rfl

theorem read_segments (segs : List Segment) (hne : segs ≠ []) (n : ℕ) (hn : segs.length ≤ n) :
    readSegments n (segmentsText segs) = some segs := by
  induction segs generalizing n with
  | nil => exact absurd rfl hne
  | cons s rest ih =>
    obtain ⟨n,rfl⟩ : ∃ k, n = k+1 := ⟨n-1,by simp at hn; omega⟩
    cases rest with
    | nil =>
      have h := read_segment s []
      rw [List.append_nil] at h
      simp [readSegments, segmentsText, h]
    | cons t rest =>
      have ih := ih (List.cons_ne_nil t rest) n (by simpa using hn)
      simp [readSegments, segmentsText, read_segment, expect_self, ih]

theorem segments_length (segs : List Segment) : segs.length ≤ (segmentsText segs).length := by
  induction segs with
  | nil => exact Nat.zero_le _
  | cons s rest ih =>
    cases rest with
    | nil => simp [segmentsText, segmentText]; omega
    | cons t rest =>
      rw [List.length_cons, segmentsText, List.length_append, List.length_cons (a := chr ',')]
      omega

/-- A layout is read back from its text. -/
theorem layout_round_trip (name : List Byte) (hname : ∀ c ∈ name, c ≠ chr '/') (start : ℕ)
    (segs : List Segment) (hne : segs ≠ []) :
    readLayout (layoutText name start segs) = some (start,segs) := by
  have hlen : segs.length ≤ (layoutText name start segs).length := by
    have := segments_length segs
    simp only [layoutText, List.length_cons, List.length_append]
    omega
  have hskip : ∀ cs, (name ++ chr '/' :: cs).dropWhile (· ≠ chr '/') = chr '/' :: cs := by
    intro cs
    rw [List.dropWhile_append_of_pos (fun c hc => decide_eq_true (hname c hc))]
    rfl
  have hsegs := read_segments segs hne _ hlen
  rw [readLayout]
  generalize (layoutText name start segs).length = n at hsegs ⊢
  simp only [layoutText, Option.bind_eq_bind, Option.bind_some, expect_self, hskip]
  rw [read_padded 16 8 start (by decide) (by decide) _ _ (by decide)]
  simp only [Option.bind_some, expect_self, hsegs]
  rfl

/-! ## The text of the program -/

def dfuseFormat : List Byte :=
  literal ("@Internal Flash  /0x00000000/%d*%04dKa,%d*%04dKg".toList.map chr)

def dfuseName : List Byte := "Internal Flash  ".toList.map chr

def layout (boot sector app : ℕ) : List Segment := [⟨boot,sector,chr 'a'⟩,⟨app,sector,chr 'g'⟩]

theorem magnitude_small (w : Word) (h : w.toNat < 2^31) : magnitude w = w ∧ ¬ w.toInt < 0 := by
  have hint := BitVec.toInt_eq_toNat_cond w
  rw [if_pos (by omega)] at hint
  refine ⟨BitVec.eq_of_toNat_eq ?_,by omega⟩
  rw [magnitude_toNat, hint]
  rfl

theorem long_padded (w width : Word) (zeropad : Bool) (hwidth : width.toNat ≤ ntoaBufferSize)
    (hz : zeropad = false → width = 0) :
    longText w false 10 0 width { zeropad } = padded 10 width.toNat w.toNat := by
  have hflags : (if w = 0 then { ({ zeropad } : Flags) with hash := false } else { zeropad }) =
      { zeropad } := ite_self _
  have hdigits := stored_digits_eq w 10 { zeropad } (by decide)
  have hstored : storedDigits w 10 { zeropad } =
      (digitList 10 w.toNat).map (digitByte false) := if_pos (Or.inl rfl)
  have hsame : formatWidth false width { zeropad } = width := by simp [formatWidth]
  have hpush : ∀ buf, pushSign false { zeropad } buf = buf := fun buf => ite_self _
  simp only [longText, hflags, hdigits, hstored, hsame, format_buf_eq _ _ _ _ _ ({ zeropad } : Flags) rfl,
    hpush, padded, List.length_map, zeros]
  cases zeropad with
  | true => simp [revText, List.reverse_append, hwidth]
  | false => simp [revText, inField, hz rfl, blanks]

/-- What `%d` and `%0kd` put out for an `int` that is not negative. -/
theorem specifier_decimal (w width : Word) (zeropad : Bool) (cs : List Byte) (va : List Arg)
    (hw : w.toNat < 2^31) (hwidth : width.toNat ≤ ntoaBufferSize) (hz : zeropad = false → width = 0) :
    specifierText (chr 'd') ⟨cs,.word w::va,{ zeropad },width,0⟩ =
      some (va,padded 10 width.toNat w.toNat) := by
  obtain ⟨hmag,hneg⟩ := magnitude_small w hw
  have hflags : integerFlags (chr 'd') { zeropad } = { zeropad } := by cases zeropad <;> rfl
  have hd : isSigned (chr 'd') = true := by decide
  have hnarrow : narrow true { zeropad } w = w := rfl
  have hneg : decide (w.toInt < 0) = false := decide_eq_false hneg
  rw [specifierText, if_pos (by decide), integerText]
  simp only [hflags, hd, vaWord, Option.bind_eq_bind, Option.bind_some, hnarrow, hmag, hneg, if_true]
  rw [← long_padded w width zeropad hwidth hz]
  rfl

/-- The text of a `%d` at the head of a format. -/
theorem text_decimal (spec rest : List Byte) (zeropad : Bool) (width : Word)
    (hspec : ∀ va, fields (spec ++ chr 'd' :: rest) va =
      some ⟨chr 'd' :: rest,va,{ zeropad },width,0⟩)
    (w : Word) (hw : w.toNat < 2^31) (hwidth : width.toNat ≤ ntoaBufferSize)
    (hz : zeropad = false → width = 0) (va : List Arg) (n : ℕ) (u : List Byte)
    (h : textLoop n rest va = some u) :
    textLoop (n+1) (chr '%' :: (spec ++ chr 'd' :: rest)) (.word w :: va) =
      some (padded 10 width.toNat w.toNat ++ u) :=
  text_conversion (chr 'd') _ rest _ va _ n _ u (hspec _) rfl
    (specifier_decimal w width zeropad _ va hw hwidth hz) h

/-- One segment of the format. -/
theorem text_segment (c : Char) (hc : c = 'a' ∨ c = 'g') (rest : List Byte) (count sector : Word)
    (hcount : count.toNat < 2^31) (hsector : sector.toNat < 2^31) (va : List Arg) (n : ℕ)
    (u : List Byte) (h : textLoop n rest va = some u) :
    textLoop (n+5) ("%d*%04dK".toList.map chr ++ chr c :: rest) (.word count :: .word sector :: va) =
      some (segmentText ⟨count.toNat,sector.toNat,chr c⟩ ++ u) := by
  have hplain : ∀ d ∈ [chr 'K',chr c], d ≠ 0 ∧ d ≠ chr '%' := by
    rcases hc with rfl | rfl <;> decide
  have htail := text_plain [chr 'K',chr c] rest va n u hplain h
  have hsize := text_decimal [chr '0',chr '4'] ([chr 'K',chr c] ++ rest) true 4 (fun _ => rfl) sector
    hsector (by decide) (by simp) va _ _ htail
  have hstar := text_plain [chr '*'] _ _ _ _ (by decide) hsize
  have hall := text_decimal [] _ false 0 (fun _ => rfl) count hcount (by decide) (fun _ => rfl) _ _ _ hstar
  rw [show n+5 = 1 + (2 + n + 1) + 1 by omega]
  refine hall.trans ?_
  simp [segmentText]

section Sizes
variable (boot sector app : Word) (hboot : boot.toNat < 2^31) (hsector : sector.toNat < 2^31)
  (happ : app.toNat < 2^31)

def dfuseArgs : List Arg := [.word boot,.word sector,.word app,.word sector]

def dfuseText : List Byte := layoutText dfuseName 0 (layout boot.toNat sector.toNat app.toNat)

include hboot hsector happ

/-- The format puts the layout out, for sectors of any size and number. -/
theorem format_text : formatText dfuseFormat (dfuseArgs boot sector app) =
    some (dfuseText boot sector app) := by
  have happ := text_segment 'g' (Or.inr rfl) [0] app sector happ hsector [] 1 [] rfl
  have hcomma := text_plain [chr ','] _ _ _ _ (by decide) happ
  have hboot := text_segment 'a' (Or.inl rfl) _ boot sector hboot hsector _ _ _ hcomma
  have hall := text_plain ("@Internal Flash  /0x00000000/".toList.map chr) _ _ _ _ (by decide) hboot
  have hmore := text_fuel _ dfuseFormat.length (by decide) _ _ _ hall
  have hformat : dfuseFormat = "@Internal Flash  /0x00000000/".toList.map chr ++
      ("%d*%04dK".toList.map chr ++ chr 'a' :: ([chr ','] ++
        ("%d*%04dK".toList.map chr ++ chr 'g' :: [0]))) := by decide
  have htext : dfuseText boot sector app = "@Internal Flash  /0x00000000/".toList.map chr ++
      (segmentText ⟨boot.toNat,sector.toNat,chr 'a'⟩ ++ ([chr ','] ++
        (segmentText ⟨app.toNat,sector.toNat,chr 'g'⟩ ++ []))) := by
    have hstart : padded 16 8 0 = "00000000".toList.map chr := by decide
    rw [dfuseText, layoutText, hstart, List.append_nil]
    rfl
  rw [htext, ← hmore]
  exact congrArg (textLoop dfuseFormat.length · (dfuseArgs boot sector app)) hformat

end Sizes

/-! ## What the buffer holds of it -/

/-- The characters of a C string from `i` on, at most `n` of them. -/
def cString (b : Buffer) : ℕ → Word → List Byte
  | 0, _ => []
  | n+1, i => if b i = 0 then [] else b i :: cString b n (i+1)

theorem cString_stored (count : Word) (t : List Byte) (b : Buffer) (ht : ∀ c ∈ t, c ≠ 0)
    (hcount : 0 < count.toNat) (n i : ℕ) (hi : i ≤ min t.length (count.toNat - 1))
    (hn : min t.length (count.toNat - 1) < i + n) :
    cString (stored count t b) n (BitVec.ofNat 32 i) = (t.take (count.toNat - 1)).drop i := by
  have hc := count.isLt
  have hidx : (BitVec.ofNat 32 i).toNat = i := by rw [BitVec.toNat_ofNat, Nat.mod_eq_of_lt (by omega)]
  have hin : ¬ count ≤ BitVec.ofNat 32 i := by
    rw [BitVec.le_def, hidx]
    omega
  have hlen : (t.take (count.toNat - 1)).length = min t.length (count.toNat - 1) := by
    rw [List.length_take, Nat.min_comm]
  induction n generalizing i with
  | zero => omega
  | succ n ih =>
    rw [cString]
    simp only [stored, if_neg hin, hidx]
    by_cases hlt : i < min t.length (count.toNat - 1)
    · have hget : i < t.length := by omega
      have htake : i < (t.take (count.toNat - 1)).length := hlen ▸ hlt
      have hchar : t.getD i 0 = (t.take (count.toNat - 1))[i] := by
        rw [List.getElem_take, List.getD_eq_getElem t 0 hget]
      have hne : t.getD i 0 ≠ 0 := by
        rw [List.getD_eq_getElem t 0 hget]
        exact ht _ (List.getElem_mem hget)
      have hnext : (BitVec.ofNat 32 (i+1)).toNat = i+1 := by
        rw [BitVec.toNat_ofNat, Nat.mod_eq_of_lt (by omega)]
      have hstep : BitVec.ofNat 32 i + 1 = BitVec.ofNat 32 (i+1) := (BitVec.ofNat_add i 1).symm
      rw [if_pos hlt, if_neg hne, List.drop_eq_getElem_cons (hlen ▸ hlt), hchar, hstep,
        ih (i+1) (by omega) (by omega) hnext (by rw [BitVec.le_def, hnext]; omega)]
    · have hend : i = min t.length (count.toNat - 1) := by omega
      rw [if_neg hlt, if_pos hend, if_pos rfl, List.drop_eq_nil_of_le (by omega)]

theorem padded_free (base w n : ℕ) (hbase : 1 < base) (h16 : base ≤ 16) (c : Byte)
    (hc : digitValue c = none) : c ∉ padded base w n := by
  intro h
  have hd := padded_digits base w n hbase h16 c h
  rw [inBase, hc] at hd
  cases hd

def digitCount (n : ℕ) : ℕ := (digitList 10 n).length

theorem padded_length (w n : ℕ) : (padded 10 w n).length = max w (digitCount n) := by
  rw [padded, List.length_append, List.length_replicate, List.length_reverse, List.length_map,
    digitCount]
  omega

theorem digit_count_le (w : Word) (hw : w.toNat < 2^31) : digitCount w.toNat ≤ 10 := by
  rw [digitCount, digitList]
  split_ifs
  · decide
  · rw [Nat.digits_length_le_iff (by decide)]
    exact hw.trans (by decide)

section Sizes
variable (boot sector app : Word)

/-- The text up to its last character, which is the only `g` in it. -/
def dfuseFront : List Byte :=
  chr '@' :: (dfuseName ++ chr '/' :: chr '0' :: chr 'x' :: (padded 16 8 0 ++ chr '/' ::
    (segmentText ⟨boot.toNat,sector.toNat,chr 'a'⟩ ++ chr ',' ::
      (padded 10 0 app.toNat ++ chr '*' :: (padded 10 4 sector.toNat ++ [chr 'K'])))))

theorem text_front : dfuseText boot sector app = dfuseFront boot sector app ++ [chr 'g'] := by
  simp [dfuseText, dfuseFront, layoutText, layout, segmentsText, segmentText]

theorem front_free (c : Byte) (hc : c = chr 'g' ∨ c = 0) : c ∉ dfuseFront boot sector app := by
  have hvalue : digitValue c = none := by rcases hc with rfl | rfl <;> decide
  have h10 := fun w n => padded_free 10 w n (by decide) (by decide) c hvalue
  have h16 := padded_free 16 8 0 (by decide) (by decide) c hvalue
  have hname : c ∉ dfuseName := by rcases hc with rfl | rfl <;> decide
  have hchar : ∀ d ∈ [chr '@',chr '/',chr '0',chr 'x',chr ',',chr '*',chr 'K',chr 'a'], c ≠ d := by
    rcases hc with rfl | rfl <;> decide
  simp only [List.mem_cons, forall_eq_or_imp] at hchar
  simp only [dfuseFront, segmentText, List.mem_cons, List.mem_append, not_or, List.not_mem_nil,
    not_false_eq_true, and_true]
  tauto

theorem text_nonzero : ∀ c ∈ dfuseText boot sector app, c ≠ 0 := by
  rintro c hc rfl
  rw [text_front, List.mem_append, List.mem_singleton] at hc
  rcases hc with hc | hc
  · exact front_free boot sector app 0 (Or.inr rfl) hc
  · exact absurd hc (by decide)

theorem text_length : (dfuseText boot sector app).length =
    36 + digitCount boot.toNat + digitCount app.toNat + 2*max 4 (digitCount sector.toNat) := by
  have hname : dfuseName.length = 16 := by decide
  have hstart : (padded 16 8 0).length = 8 := by decide
  simp only [text_front, dfuseFront, segmentText, List.length_append, List.length_cons,
    List.length_nil, padded_length, hname, hstart]
  omega

end Sizes

/-! ## What is read of a text that is cut -/

theorem expect_suffix (c : Byte) (cs ds : List Byte) (h : expect c cs = some ds) : ds <:+ cs := by
  cases cs with
  | nil => cases h
  | cons d cs =>
    rw [expect] at h
    split_ifs at h
    cases h
    exact List.suffix_cons d _

theorem read_number_suffix (base : ℕ) (cs : List Byte) (a : ℕ × List Byte)
    (h : readNumber base cs = some a) : a.2 <:+ cs := by
  obtain ⟨n,-,ha⟩ := Option.map_eq_some_iff.mp h
  rw [← ha]
  exact List.dropWhile_suffix _

theorem read_segment_suffix (cs : List Byte) (a : Segment × List Byte)
    (h : readSegment cs = some a) : a.1.attr :: a.2 <:+ cs := by
  rw [readSegment] at h
  obtain ⟨n,hn,h⟩ := Option.bind_eq_some_iff.mp h
  obtain ⟨cs1,h1,h⟩ := Option.bind_eq_some_iff.mp h
  obtain ⟨k,hk,h⟩ := Option.bind_eq_some_iff.mp h
  obtain ⟨cs2,h2,h⟩ := Option.bind_eq_some_iff.mp h
  have hsuffix := (expect_suffix _ _ _ h2).trans ((read_number_suffix _ _ _ hk).trans
    ((expect_suffix _ _ _ h1).trans (read_number_suffix _ _ _ hn)))
  cases cs2 with
  | nil => cases h
  | cons c cs2 =>
    cases h
    exact hsuffix

/-- The letter of a segment stands in the text. -/
theorem read_segments_mem (n : ℕ) (cs : List Byte) (segs : List Segment)
    (h : readSegments n cs = some segs) : ∀ s ∈ segs, s.attr ∈ cs := by
  induction n generalizing cs segs with
  | zero => cases h
  | succ n ih =>
    rw [readSegments] at h
    obtain ⟨a,ha,h⟩ := Option.bind_eq_some_iff.mp h
    have hsuffix := read_segment_suffix cs a ha
    have hfirst : a.1.attr ∈ cs := hsuffix.subset (List.mem_cons_self ..)
    cases hrest : a.2 with
    | nil =>
      simp only [hrest] at h
      cases h
      simpa using hfirst
    | cons c ds =>
      simp only [hrest] at h
      obtain ⟨ds',hd,h⟩ := Option.bind_eq_some_iff.mp h
      obtain ⟨segs',hs,h⟩ := Option.bind_eq_some_iff.mp h
      cases h
      have hds : ds' <:+ cs := (expect_suffix _ _ _ hd).trans
        (hrest ▸ (List.suffix_cons _ _).trans hsuffix)
      simp only [List.mem_cons, forall_eq_or_imp]
      exact ⟨hfirst,fun s hs' => hds.subset (ih _ _ hs s hs')⟩

theorem read_layout_mem (t : List Byte) (start : ℕ) (segs : List Segment)
    (h : readLayout t = some (start,segs)) : ∀ s ∈ segs, s.attr ∈ t := by
  rw [readLayout] at h
  obtain ⟨cs1,h1,h⟩ := Option.bind_eq_some_iff.mp h
  obtain ⟨cs2,h2,h⟩ := Option.bind_eq_some_iff.mp h
  obtain ⟨cs3,h3,h⟩ := Option.bind_eq_some_iff.mp h
  obtain ⟨cs4,h4,h⟩ := Option.bind_eq_some_iff.mp h
  obtain ⟨a,h5,h⟩ := Option.bind_eq_some_iff.mp h
  obtain ⟨cs6,h6,h⟩ := Option.bind_eq_some_iff.mp h
  obtain ⟨segs',h7,h⟩ := Option.bind_eq_some_iff.mp h
  cases h
  have hsuffix : cs6 <:+ t := (expect_suffix _ _ _ h6).trans ((read_number_suffix _ _ _ h5).trans
    ((expect_suffix _ _ _ h4).trans ((expect_suffix _ _ _ h3).trans ((expect_suffix _ _ _ h2).trans
      ((List.dropWhile_suffix _).trans (expect_suffix _ _ _ h1))))))
  exact fun s hs => hsuffix.subset (read_segments_mem _ _ _ h7 s hs)

/-- Whatever sizes the layout is built for: the host reads it from the buffer as it is,
exactly if the text has at most 58 characters. Nothing is stored behind them. -/
theorem layout_read_iff (boot sector app : Word) (hboot : boot.toNat < 2^31)
    (hsector : sector.toNat < 2^31) (happ : app.toNat < 2^31) (b : Buffer) :
    ∃ b', snprintf (some b) 59 dfuseFormat (dfuseArgs boot sector app) =
        some (BitVec.ofNat 32 (dfuseText boot sector app).length,some b') ∧
      (∀ i, 59 ≤ i → b' i = b i) ∧
      (readLayout (cString b' 60 0) = some (0,layout boot.toNat sector.toNat app.toNat) ↔
        digitCount boot.toNat + digitCount app.toNat + 2*max 4 (digitCount sector.toNat) ≤ 22) := by
  have htext := format_text boot sector app hboot hsector happ
  have hlength := text_length boot sector app
  have hdigits := digit_count_le boot hboot
  have hdigits' := digit_count_le sector hsector
  have hdigits'' := digit_count_le app happ
  obtain ⟨b',hr,-,hkept,hstored⟩ := (snprintf_stored b 59 dfuseFormat _).2 _ htext
  have hread : cString b' 60 0 = (dfuseText boot sector app).take 58 := by
    have h := cString_stored 59 (dfuseText boot sector app) b (text_nonzero boot sector app)
      (by decide) 60 0 (Nat.zero_le _) (by simp)
    rw [hstored (by omega)]
    simpa using h
  refine ⟨b',hr,hkept,?_⟩
  rw [hread]
  by_cases hfits : (dfuseText boot sector app).length ≤ 58
  · rw [List.take_of_length_le hfits]
    exact iff_of_true (layout_round_trip _ (by decide) 0 _ (List.cons_ne_nil _ _)) (by omega)
  · refine iff_of_false (fun h => ?_) (by omega)
    -- the letter of the last segment has been cut off, and there is no other
    have hmem := read_layout_mem _ _ _ h ⟨app.toNat,sector.toNat,chr 'g'⟩ (by simp [layout])
    have hfront : (dfuseText boot sector app).take 58 = (dfuseFront boot sector app).take 58 := by
      rw [text_front] at hfits ⊢
      rw [List.length_append, List.length_singleton] at hfits
      exact List.take_append_of_le_length (by omega)
    rw [hfront] at hmem
    exact front_free boot sector app (chr 'g') (Or.inl rfl) (List.mem_of_mem_take hmem)

theorem built_layout_read :
    ∃ b', snprintf (some fun _ => 0) 59 dfuseFormat (dfuseArgs 4 4 60) =
        some (BitVec.ofNat 32 (dfuseText 4 4 60).length,some b') ∧
      (∀ i, 59 ≤ i → b' i = 0) ∧
      (readLayout (cString b' 60 0) = some (0,layout 4 4 60) ↔
        digitCount 4 + digitCount 60 + 2*max 4 (digitCount 4) ≤ 22) :=
  layout_read_iff 4 4 60 (by decide) (by decide) (by decide) fun _ => 0

end Swindle.LayoutString
