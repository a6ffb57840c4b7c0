import Swindle.LayoutString

/-!
# The header of the payload

The build writes the image of stage two into a C header, as an array of bytes in lines
of twelve and a variable with its size. Stage one copies what a compiler makes of that
text: the constants between the braces, and the number behind the second equals sign.
-/

set_option autoImplicit false

namespace Swindle.PayloadHeader
open Swindle.WordMemory Swindle.EmbeddedPrintf Swindle.PrintfNumbers Swindle.LayoutString

def text (s : String) : List Byte := s.toList.map chr

def newline : Byte := chr '\n'

/-! ## What is written -/

/-- `0x` and two digits. -/
def hexByte (b : Byte) : List Byte := chr '0' :: chr 'x' :: padded 16 2 b.toNat

def joined : List (List Byte) → List Byte
  | [] => []
  | [s] => s
  | s::t::rest => s ++ chr ',' :: chr ' ' :: joined (t::rest)

def payloadLine (chunk : List Byte) : List Byte :=
  text "    " ++ joined (chunk.map hexByte) ++ [chr ',',newline]

/-- The loop over the data, twelve bytes at a time. -/
def payloadLines (data : List Byte) : List Byte :=
  (List.range ((data.length+11)/12)).flatMap fun i => payloadLine ((data.drop (12*i)).take 12)

def bin2h (data : List Byte) : List Byte :=
  text "#pragma once\n" ++ text "#include <stdint.h>\n" ++ text "\n" ++
    text "static const uint8_t stage2_payload[] = \x7b\n" ++ payloadLines data ++ text "\x7d;\n" ++
    text "static const unsigned int stage2_payload_size = " ++ padded 10 0 data.length ++ text "u;\n"

/-! ## What is read -/

def isSpace (c : Byte) : Bool := c = chr ' ' || c = newline

def openBrace : Byte := 0x7B
def closeBrace : Byte := 0x7D

/-- Constants with commas between them, up to the closing brace. There may be a comma before
that, and there must be a constant. -/
def readBytes : ℕ → List Byte → Option (List Byte × List Byte)
  | 0, _ => none
  | fuel+1, cs => do
    let cs ← expect (chr '0') (cs.dropWhile isSpace)
    let cs ← expect (chr 'x') cs
    let (n,cs) ← readNumber 16 cs
    let b := BitVec.ofNat 8 n
    match cs.dropWhile isSpace with
    | [] => none
    | c::cs =>
      if c = closeBrace then return ([b],cs)
      else
        let cs ← expect (chr ',') (c::cs)
        match cs.dropWhile isSpace with
        | [] => none
        | d::ds =>
          if d = closeBrace then return ([b],ds)
          else
            let (bs,ds) ← readBytes fuel (d::ds)
            return (b::bs,ds)

def readHeader (t : List Byte) : Option (List Byte × ℕ) := do
  let cs ← expect openBrace (t.dropWhile (· ≠ openBrace))
  let (bs,cs) ← readBytes t.length cs
  let cs ← expect (chr '=') (cs.dropWhile (· ≠ chr '='))
  let (size,_) ← readNumber 10 (cs.dropWhile isSpace)
  return (bs,size)

/-! ## The array -/

def Spaces (cs : List Byte) : Prop := ∀ c ∈ cs, isSpace c = true

/-- A text that lists the bytes, each with a comma and blanks behind it. -/
inductive Listing : List Byte → List Byte → Prop where
  | last (b : Byte) (ws : List Byte) (hws : Spaces ws) : Listing [b] (hexByte b ++ chr ',' :: ws)
  | more (b : Byte) (ws : List Byte) {bs t : List Byte} (hws : Spaces ws) (rest : Listing bs t) :
      Listing (b::bs) (hexByte b ++ chr ',' :: (ws ++ t))

theorem skip_spaces (ws cs : List Byte) (c : Byte) (hws : Spaces ws) (hc : isSpace c = false) :
    (ws ++ c::cs).dropWhile isSpace = c::cs := by
  rw [List.dropWhile_append_of_pos hws, List.dropWhile_cons_of_neg (by rw [hc]; decide)]

theorem listing_head {bs t : List Byte} (h : Listing bs t) : ∃ u, t = chr '0' :: u := by
  cases h with
  | last b ws hws => exact ⟨_,rfl⟩
  | more b ws hws rest => exact ⟨_,rfl⟩

theorem read_item (b : Byte) (ws pre cs : List Byte) (d : Byte) (hpre : Spaces pre) (hws : Spaces ws)
    (hd : isSpace d = false) (fuel : ℕ) :
    readBytes (fuel+1) (pre ++ (hexByte b ++ chr ',' :: (ws ++ d::cs))) =
      if d = closeBrace then some ([b],cs)
      else (readBytes fuel (d::cs)).map fun r => (b::r.1,r.2) := by
  have hnumber := read_padded 16 2 b.toNat (by decide) (by decide) (chr ',') (ws ++ d::cs) (by decide)
  have hcomma : (chr ',' :: (ws ++ d::cs)).dropWhile isSpace = chr ',' :: (ws ++ d::cs) :=
    List.dropWhile_cons_of_neg (by decide)
  rw [readBytes, hexByte, List.cons_append, skip_spaces pre _ (chr '0') hpre (by decide)]
  simp only [expect_self, Option.bind_eq_bind, Option.bind_some, List.cons_append, hnumber, hcomma]
  rw [if_neg (by decide)]
  simp only [skip_spaces ws cs d hws hd]
  rw [BitVec.ofNat_toNat, BitVec.setWidth_eq]
  by_cases hclose : d = closeBrace
  · rw [if_pos hclose, if_pos hclose]
    rfl
  · rw [if_neg hclose, if_neg hclose]
    cases readBytes fuel (d::cs) <;> rfl

theorem read_listing {bs t : List Byte} (h : Listing bs t) (pre cs : List Byte) (hpre : Spaces pre)
    (fuel : ℕ) (hfuel : bs.length ≤ fuel) :
    readBytes fuel (pre ++ (t ++ closeBrace :: cs)) = some (bs,cs) := by
  induction h generalizing pre fuel with
  | last b ws hws =>
    obtain ⟨n,rfl⟩ : ∃ n, fuel = n+1 := ⟨fuel-1,by simp at hfuel; omega⟩
    rw [List.append_assoc, List.cons_append, read_item b ws pre cs closeBrace hpre hws (by decide) n,
      if_pos rfl]
  | @more b ws bs t hws rest ih =>
    obtain ⟨n,rfl⟩ : ∃ n, fuel = n+1 := ⟨fuel-1,by simp at hfuel; omega⟩
    obtain ⟨u,hu⟩ := listing_head rest
    have hnext := ih [] (by simp [Spaces]) n (by simpa using hfuel)
    rw [List.append_assoc, List.cons_append, List.append_assoc]
    subst hu
    rw [List.cons_append] at hnext ⊢
    rw [read_item b ws pre _ (chr '0') hpre hws (by decide) n, if_neg (by decide)]
    rw [List.nil_append] at hnext
    rw [hnext]
    rfl

/-! ### The lines -/

theorem listing_spaces {bs t : List Byte} (h : Listing bs t) (ws : List Byte) (hws : Spaces ws) :
    Listing bs (t ++ ws) := by
  induction h with
  | last b vs hvs =>
    rw [List.append_assoc, List.cons_append]
    exact .last b _ fun c hc => (List.mem_append.mp hc).elim (hvs c) (hws c)
  | more b vs hvs rest ih =>
    rw [List.append_assoc, List.cons_append, List.append_assoc]
    exact .more b vs hvs ih

theorem listing_append {bs t cs u : List Byte} (h : Listing bs t) (k : Listing cs u) :
    Listing (bs++cs) (t++u) := by
  induction h with
  | last b ws hws =>
    rw [List.append_assoc, List.cons_append, List.cons_append, List.nil_append]
    exact .more b ws hws k
  | more b ws hws rest ih =>
    rw [List.cons_append, List.append_assoc, List.cons_append, List.append_assoc]
    exact .more b ws hws ih

theorem joined_listing (bs : List Byte) (hne : bs ≠ []) :
    Listing bs (joined (bs.map hexByte) ++ [chr ',']) := by
  induction bs with
  | nil => exact absurd rfl hne
  | cons b bs ih =>
    cases bs with
    | nil => exact .last b [] (by simp [Spaces])
    | cons c bs =>
      have hrest := ih (List.cons_ne_nil c bs)
      have h := Listing.more b [chr ' '] (by simp [Spaces, isSpace]) hrest
      simpa [joined] using h

theorem indent_spaces : Spaces (text "    ") := by simp [Spaces, text, isSpace]

theorem lines_step (data : List Byte) (hne : data ≠ []) :
    payloadLines data = payloadLine (data.take 12) ++ payloadLines (data.drop 12) := by
  have hpos : 0 < data.length := List.length_pos_iff.mpr hne
  have hcount : (data.length+11)/12 = ((data.drop 12).length+11)/12 + 1 := by
    rw [List.length_drop]
    omega
  have hdrop : ∀ i, data.drop (12*(i+1)) = (data.drop 12).drop (12*i) := by
    intro i
    rw [List.drop_drop, Nat.mul_succ, Nat.add_comm]
  rw [payloadLines, hcount, List.range_succ_eq_map, List.flatMap_cons, List.flatMap_map]
  simp only [hdrop, Nat.succ_eq_add_one, Nat.mul_zero, List.drop_zero]
  rfl

theorem line_listing (chunk : List Byte) (hne : chunk ≠ []) :
    ∃ t, payloadLine chunk = text "    " ++ t ∧ Listing chunk t := by
  refine ⟨_,?_,listing_spaces (joined_listing chunk hne) [newline] (by simp [Spaces, isSpace])⟩
  simp [payloadLine]

/-- All but the blanks at the beginning of the first line. -/
theorem lines_listing (n : ℕ) (data : List Byte) (hdata : data.length ≤ n) (hne : data ≠ []) :
    ∃ t, payloadLines data = text "    " ++ t ∧ Listing data t := by
  induction n generalizing data with
  | zero => exact absurd (List.length_eq_zero_iff.mp (Nat.le_zero.mp hdata)) hne
  | succ n ih =>
    have hpos : 0 < data.length := List.length_pos_iff.mpr hne
    have htake : data.take 12 ≠ [] := fun h => by simp [hne] at h
    obtain ⟨t,ht,hlisting⟩ := line_listing (data.take 12) htake
    rw [lines_step data hne, ht]
    by_cases hrest : data.drop 12 = []
    · have hall : data.take 12 = data := by
        rw [List.drop_eq_nil_iff] at hrest
        exact List.take_of_length_le hrest
      rw [hall] at hlisting
      exact ⟨t,by simp [hrest, payloadLines],hlisting⟩
    · obtain ⟨u,hu,hmore⟩ := ih (data.drop 12) (by rw [List.length_drop]; omega) hrest
      refine ⟨t ++ text "    " ++ u,by rw [hu]; simp,?_⟩
      have happend := listing_append (listing_spaces hlisting _ indent_spaces) hmore
      rwa [List.take_append_drop] at happend

/-! ## The round trip -/

theorem listing_length {bs t : List Byte} (h : Listing bs t) : bs.length ≤ t.length := by
  induction h with
  | last b ws hws => simp [hexByte]
  | more b ws hws rest ih =>
    simp [hexByte]
    omega

theorem header_front (cs : List Byte) :
    (text "#pragma once\n" ++ text "#include <stdint.h>\n" ++ text "\n" ++
      text "static const uint8_t stage2_payload[] = \x7b\n" ++ cs).dropWhile (· ≠ openBrace) =
      openBrace :: newline :: cs := by
  have hsplit : text "#pragma once\n" ++ text "#include <stdint.h>\n" ++ text "\n" ++
      text "static const uint8_t stage2_payload[] = \x7b\n" =
      (text "#pragma once\n" ++ text "#include <stdint.h>\n" ++ text "\n" ++
        text "static const uint8_t stage2_payload[] = ") ++ [openBrace,newline] := by decide
  rw [hsplit, List.append_assoc, List.dropWhile_append_of_pos (by decide)]
  rfl

theorem header_back (cs : List Byte) :
    (text ";\n" ++ text "static const unsigned int stage2_payload_size = " ++ cs).dropWhile
      (· ≠ chr '=') = chr '=' :: chr ' ' :: cs := by
  have hsplit : text ";\n" ++ text "static const unsigned int stage2_payload_size = " =
      (text ";\n" ++ text "static const unsigned int stage2_payload_size ") ++ [chr '=',chr ' '] := by
    decide
  rw [hsplit, List.append_assoc, List.dropWhile_append_of_pos (by decide)]
  rfl

def sizeText (data : List Byte) : List Byte :=
  text ";\n" ++ text "static const unsigned int stage2_payload_size = " ++
    (padded 10 0 data.length ++ text "u;\n")

theorem header_parts (data : List Byte) :
    bin2h data = text "#pragma once\n" ++ text "#include <stdint.h>\n" ++ text "\n" ++
      text "static const uint8_t stage2_payload[] = \x7b\n" ++
        (payloadLines data ++ closeBrace :: sizeText data) := by
  have hclose : text "\x7d;\n" = closeBrace :: text ";\n" := by decide
  rw [bin2h, sizeText, hclose]
  simp only [List.append_assoc, List.cons_append]

theorem digit_no_space (c : Byte) (hc : inBase 10 c = true) : isSpace c = false := by
  by_contra hspace
  rw [Bool.not_eq_false, isSpace, Bool.or_eq_true, decide_eq_true_eq, decide_eq_true_eq] at hspace
  rcases hspace with rfl | rfl
  · exact absurd hc (by decide)
  · exact absurd hc (by decide)

theorem number_starts (n : ℕ) (cs : List Byte) :
    (chr ' ' :: (padded 10 0 n ++ cs)).dropWhile isSpace = padded 10 0 n ++ cs := by
  have hvalue := padded_value 10 0 n (by decide) (by decide)
  have hdigits := padded_digits 10 0 n (by decide) (by decide)
  rw [List.dropWhile_cons_of_pos (by decide)]
  cases hp : padded 10 0 n with
  | nil =>
    rw [hp] at hvalue
    cases hvalue
  | cons d ds =>
    have hd := digit_no_space d (hdigits d (by rw [hp]; exact List.mem_cons_self ..))
    rw [List.cons_append, List.dropWhile_cons_of_neg (by rw [hd]; decide)]

theorem read_size (data bs : List Byte) :
    (do
      let cs ← expect (chr '=') ((sizeText data).dropWhile (· ≠ chr '='))
      let (size,_) ← readNumber 10 (cs.dropWhile isSpace)
      return (bs,size)) = some (bs,data.length) := by
  have hnumber := read_padded 10 0 data.length (by decide) (by decide) (chr 'u') (text ";\n") (by decide)
  rw [sizeText, header_back]
  simp only [expect_self, Option.bind_eq_bind, Option.bind_some, number_starts]
  rw [show text "u;\n" = chr 'u' :: text ";\n" by decide, hnumber]
  rfl

theorem read_array (data : List Byte) (fuel : ℕ) (hfuel : data.length ≤ fuel) (cs : List Byte) :
    readBytes fuel (newline :: (payloadLines data ++ closeBrace :: cs)) =
      if data = [] then none else some (data,cs) := by
  by_cases hne : data = []
  · subst hne
    rw [if_pos rfl]
    cases fuel with
    | zero => rfl
    | succ n =>
      have hskip := skip_spaces [newline] cs closeBrace (by simp [Spaces, isSpace]) (by decide)
      rw [readBytes, show payloadLines [] = [] from rfl, List.nil_append]
      rw [List.cons_append, List.nil_append] at hskip
      rw [hskip, expect, if_neg (by decide)]
      rfl
  · obtain ⟨t,ht,hlisting⟩ := lines_listing data.length data le_rfl hne
    have hread := read_listing hlisting (newline :: text "    ") cs
      (by simp [Spaces, text, isSpace]) fuel hfuel
    rw [if_neg hne, ht, List.append_assoc]
    exact hread

theorem data_length (data : List Byte) : data.length ≤ (bin2h data).length := by
  by_cases hne : data = []
  · subst hne
    exact Nat.zero_le _
  · obtain ⟨t,ht,hlisting⟩ := lines_listing data.length data le_rfl hne
    have hlen := listing_length hlisting
    rw [header_parts, ht]
    simp only [List.length_append]
    omega

/-- What a compiler makes of the header is the image, byte for byte, and its length. An
array without a byte is not C. -/
theorem header_round_trip (data : List Byte) :
    readHeader (bin2h data) = if data = [] then none else some (data,data.length) := by
  have harray := read_array data (bin2h data).length (data_length data) (sizeText data)
  rw [readHeader]
  nth_rewrite 1 [header_parts]
  rw [header_front]
  simp only [expect_self, Option.bind_eq_bind, Option.bind_some, harray]
  by_cases hne : data = []
  · rw [if_pos hne, if_pos hne]
    rfl
  · rw [if_neg hne, if_neg hne, Option.bind_some]
    exact read_size data data

end Swindle.PayloadHeader
