import Swindle.Numerals
import Swindle.PrintfText

/-!
# Numbers that are read back

The text of an integer conversion is a numeral between blanks. Zeros and sign
go through a buffer of 32 characters: where the zeros fill it, the sign is lost.
-/

set_option autoImplicit false

namespace Swindle.PrintfNumbers
open Swindle.WordMemory Swindle.EmbeddedPrintf Swindle.PrintfText Swindle.Numerals

/-! ## Reading a number -/

def digitValue (c : Byte) : Option ℕ :=
  if chr '0' ≤ c ∧ c ≤ chr '9' then some (c.toNat - 48)
  else if chr 'a' ≤ c ∧ c ≤ chr 'f' then some (c.toNat - 87)
  else if chr 'A' ≤ c ∧ c ≤ chr 'F' then some (c.toNat - 55)
  else none

/-- A sign, if there is one, and a numeral. -/
def signed (base : ℕ) : List Byte → Option ℤ
  | [] => none
  | c::cs =>
    if c = chr '-' then (numeral base digitValue cs).map fun n : ℕ => -(n : ℤ)
    else if c = chr '+' then (numeral base digitValue cs).map fun n : ℕ => (n : ℤ)
    else (numeral base digitValue (c::cs)).map fun n : ℕ => (n : ℤ)

/-- The first number in a text: the blanks before it are skipped, and it ends at the next
one. -/
def readInteger (base : ℕ) (t : List Byte) : Option ℤ :=
  signed base ((t.dropWhile (· = chr ' ')).takeWhile (· ≠ chr ' '))

theorem strip_blanks (i j : ℕ) (u : List Byte) (hu : ∀ c ∈ u, c ≠ chr ' ') :
    ((blanks i ++ (u ++ blanks j)).dropWhile (· = chr ' ')).takeWhile (· ≠ chr ' ') = u := by
  have hblank : ∀ k, ∀ c ∈ blanks k, decide (c = chr ' ') = true := fun k c hc =>
    decide_eq_true (List.eq_of_mem_replicate hc)
  have hstop : (blanks j).takeWhile (· ≠ chr ' ') = [] := by
    cases j with
    | zero => rfl
    | succ j => rfl
  rw [List.dropWhile_append_of_pos (hblank i)]
  cases u with
  | nil =>
    rw [List.nil_append, List.dropWhile_eq_nil_iff.mpr (hblank j)]
    rfl
  | cons c u =>
    have hc : ¬ decide (c = chr ' ') = true := fun h => hu c (by simp) (of_decide_eq_true h)
    rw [List.cons_append, List.dropWhile_cons, if_neg hc, ← List.cons_append,
      List.takeWhile_append_of_pos (fun d hd => decide_eq_true (hu d hd)), hstop, List.append_nil]

/-! ## The digits -/

def digitByte (uppercase : Bool) (d : ℕ) : Byte := digitChar uppercase (BitVec.ofNat 8 d)

theorem digit_byte_value (uppercase : Bool) : ∀ d < 16, digitValue (digitByte uppercase d) = some d := by
  cases uppercase <;> decide

theorem digit_byte_plain (uppercase : Bool) : ∀ d < 16, digitByte uppercase d ≠ chr ' ' ∧
    digitByte uppercase d ≠ chr '-' ∧ digitByte uppercase d ≠ chr '+' := by
  cases uppercase <;> decide

/-- The digits as the loop stores them. Zero has one. -/
def digitList (base value : ℕ) : List ℕ := if value = 0 then [0] else Nat.digits base value

theorem digit_list_step (base value : ℕ) (hbase : 1 < base) : digitList base value =
    value % base :: if value/base = 0 then [] else digitList base (value/base) := by
  by_cases hv : value = 0
  · simp [digitList, hv]
  · rw [digitList, if_neg hv, Nat.digits_eq_cons_digits_div hbase hv]
    by_cases hd : value/base = 0
    · rw [if_pos hd, hd, Nat.digits_zero]
    · rw [if_neg hd, digitList, if_neg hd]

theorem digit_list_lt (base value d : ℕ) (hbase : 1 < base) (hd : d ∈ digitList base value) :
    d < base := by
  rw [digitList] at hd
  split_ifs at hd
  · rw [List.mem_singleton.mp hd]
    omega
  · exact Nat.digits_lt_base hbase hd

theorem digit_list_ne (base value : ℕ) (hbase : 1 < base) : digitList base value ≠ [] := by
  rw [digit_list_step base value hbase]
  exact List.cons_ne_nil _ _

theorem digit_char_eq (base value : Word) (uppercase : Bool) :
    digitChar uppercase ((value % base).setWidth 8) =
      digitByte uppercase (value.toNat % base.toNat) := by
  rw [digitByte, ← BitVec.toNat_umod, BitVec.ofNat_toNat]

theorem quotient_zero (base value : Word) : value / base = 0 ↔ value.toNat/base.toNat = 0 := by
  rw [← BitVec.toNat_udiv, ← BitVec.toNat_inj]
  rfl

/-- The loop stops at the last digit, before the buffer ends. -/
theorem digit_loop_eq (base : Word) (uppercase : Bool) (hbase : 1 < base.toNat) (n : ℕ)
    (value : Word) (buf : List Byte) (hn : buf.length + (n+1) = ntoaBufferSize)
    (hv : value.toNat < base.toNat^(n+1)) : digitLoop base uppercase (n+1) value buf =
      buf ++ (digitList base.toNat value.toNat).map (digitByte uppercase) := by
  induction n generalizing value buf with
  | zero =>
    have hq : value.toNat/base.toNat = 0 := Nat.div_eq_of_lt (by simpa using hv)
    rw [digitLoop, if_neg (fun h => h.1 ((quotient_zero base value).mpr hq)),
      digit_list_step _ _ hbase, if_pos hq, digit_char_eq]
    rfl
  | succ n ih =>
    have hlen : (buf ++ [digitChar uppercase ((value % base).setWidth 8)]).length =
        buf.length + 1 := by rw [List.length_append, List.length_singleton]
    rw [digitLoop, digit_list_step _ _ hbase]
    by_cases hq : value.toNat/base.toNat = 0
    · rw [if_pos hq, if_neg (fun h => h.1 ((quotient_zero base value).mpr hq)), digit_char_eq]
      rfl
    · have hroom : (buf ++ [digitChar uppercase ((value % base).setWidth 8)]).length <
          ntoaBufferSize := by omega
      have hnext : (value / base).toNat < base.toNat^(n+1) := by
        rw [BitVec.toNat_udiv]
        exact Nat.div_lt_of_lt_mul (by rwa [← Nat.pow_succ'])
      rw [if_neg hq, if_pos ⟨fun h => hq ((quotient_zero base value).mp h),hroom⟩,
        ih (value / base) _ (by omega) hnext, BitVec.toNat_udiv, digit_char_eq, List.append_assoc]
      rfl

/-! ## The shape of a number -/

def zeros (flags : Flags) (prec width : Word) (len : ℕ) : ℕ :=
  if flags.left then 0
  else max (min prec.toNat ntoaBufferSize)
    (if flags.zeropad then min width.toNat ntoaBufferSize else 0) - len

def signText (negative : Bool) (flags : Flags) : List Byte :=
  if negative then [chr '-'] else if flags.plus then [chr '+'] else if flags.space then [chr ' '] else []

theorem format_buf_eq (buf : List Byte) (negative : Bool) (base prec width : Word) (flags : Flags)
    (hhash : flags.hash = false) : formatBuf buf negative base prec width flags =
      pushSign negative flags
        (buf ++ List.replicate (zeros flags prec width buf.length) (chr '0')) := by
  rw [formatBuf, zeros, hhash]
  cases flags.left
  · cases flags.zeropad
    · simp [pad_zeros]
    · simp only [Bool.not_false, if_true, Bool.false_eq_true, if_false]
      rw [pad_zeros prec.toNat _ buf (by omega), pad_zeros width.toNat _ _ (by simp),
        List.append_assoc, List.replicate_append_replicate, List.length_append,
        List.length_replicate]
      congr 3
      omega
  · simp

/-- The sign goes in if there is room for it. -/
theorem push_sign_eq (negative : Bool) (flags : Flags) (buf : List Byte) :
    (pushSign negative flags buf).reverse =
      (if buf.length < ntoaBufferSize then signText negative flags else []) ++ buf.reverse := by
  rw [pushSign, signText]
  split_ifs <;> simp

/-- A number between blanks. -/
theorem rev_shape (buf : List Byte) (width : Word) (flags : Flags) :
    ∃ i j, revText buf width flags = blanks i ++ (buf.reverse ++ blanks j) := by
  rw [revText]
  split_ifs
  · exact ⟨0,0,by simp [blanks]⟩
  · rw [inField]
    split_ifs
    · exact ⟨0,_,rfl⟩
    · exact ⟨width.toNat - buf.reverse.length,0,by simp [blanks]⟩

/-! ## What is read back -/

def Plain (c : Byte) : Prop := c ≠ chr ' ' ∧ c ≠ chr '-' ∧ c ≠ chr '+'

theorem signed_plain (base : ℕ) (u : List Byte) (hu : ∀ c ∈ u, Plain c) :
    signed base u = (numeral base digitValue u).map fun n : ℕ => (n : ℤ) := by
  cases u with
  | nil => rfl
  | cons c u =>
    have hc := hu c (by simp)
    rw [signed, if_neg hc.2.1, if_neg hc.2.2]

/-- The sign as it stands in the text, in front of a numeral between blanks. -/
theorem read_number (base i j : ℕ) (room : Prop) [Decidable room] (negative : Bool) (flags : Flags)
    (u : List Byte) (hu : ∀ c ∈ u, Plain c) :
    readInteger base (blanks i ++
      ((if room then signText negative flags else []) ++ u ++ blanks j)) =
      (numeral base digitValue u).map
        fun n : ℕ => if room ∧ negative = true then -(n : ℤ) else (n : ℤ) := by
  have hstrip : ∀ v, (∀ c ∈ v, c ≠ chr ' ') → ∀ k, readInteger base (blanks k ++ (v ++ blanks j)) =
      signed base v := fun v hv k => congrArg (signed base) (strip_blanks k j v hv)
  have hplain : ∀ k, readInteger base (blanks k ++ (u ++ blanks j)) =
      (numeral base digitValue u).map fun n : ℕ => (n : ℤ) := fun k =>
    (hstrip u (fun c hc => (hu c hc).1) k).trans (signed_plain base u hu)
  have hsign : ∀ s, s ≠ chr ' ' → readInteger base (blanks i ++ ((s::u) ++ blanks j)) =
      signed base (s::u) := by
    intro s hs
    apply hstrip (s::u)
    simp only [List.mem_cons, forall_eq_or_imp]
    exact ⟨hs,fun c hc => (hu c hc).1⟩
  by_cases hroom : room
  · rw [if_pos hroom, signText]
    cases negative with
    | true =>
      simp only [if_true, List.singleton_append, hroom, and_self]
      rw [hsign (chr '-') (by decide), signed, if_pos rfl]
    | false =>
      simp only [Bool.false_eq_true, if_false, and_false]
      split_ifs
      · exact (hsign (chr '+') (by decide)).trans (by rw [signed, if_neg (by decide), if_pos rfl])
      · rw [show blanks i ++ ([chr ' '] ++ u ++ blanks j) = blanks (i+1) ++ (u ++ blanks j) by
          simp [blanks, List.replicate_succ']]
        exact hplain (i+1)
      · exact hplain i
  · simp only [hroom, if_false, false_and, List.nil_append]
    exact hplain i

/-- The zeros leave no room for the sign. -/
def SignLost (flags : Flags) (prec width : Word) : Prop :=
  flags.left = false ∧
    (ntoaBufferSize ≤ prec.toNat ∨ flags.zeropad = true ∧ ntoaBufferSize < width.toNat)

def NoDigit (flags : Flags) (prec : Word) : Prop :=
  flags.precision = true ∧ (flags.left = true ∨ prec = 0)

section Long
variable (value : Word) (negative : Bool) (base prec width : Word) (flags : Flags)

def storedDigits : List Byte :=
  if !flags.precision ∨ value ≠ 0 then
    (digitList base.toNat value.toNat).map (digitByte flags.uppercase)
  else []

/-- The numeral with the zeros in front of it. -/
def numeralText : List Byte :=
  List.replicate (zeros flags prec (formatWidth negative width flags)
    (storedDigits value base flags).length) (chr '0') ++ (storedDigits value base flags).reverse

theorem stored_digits_eq (hbase : 1 < base.toNat) :
    (if !flags.precision ∨ value ≠ 0 then digitLoop base flags.uppercase ntoaBufferSize value []
      else []) = storedDigits value base flags := by
  have hv : value.toNat < base.toNat^(31+1) :=
    lt_of_lt_of_le value.isLt (Nat.pow_le_pow_left hbase 32)
  rw [storedDigits, show ntoaBufferSize = 31+1 from rfl, digit_loop_eq base _ hbase 31 value [] rfl hv,
    List.nil_append]

theorem long_shape (hbase : 1 < base.toNat) (hhash : flags.hash = false) :
    ∃ i j, longText value negative base prec width flags = blanks i ++
      ((if (numeralText value negative base prec width flags).length < ntoaBufferSize then
        signText negative flags else []) ++ numeralText value negative base prec width flags ++
          blanks j) := by
  have hflags : (if value = 0 then { flags with hash := false } else flags) = flags := by
    split_ifs
    · rw [← hhash]
    · rfl
  have hlen : (numeralText value negative base prec width flags).length =
      (storedDigits value base flags ++ List.replicate (zeros flags prec
        (formatWidth negative width flags) (storedDigits value base flags).length)
          (chr '0')).length := by
    simp only [numeralText, List.length_append, List.length_replicate, List.length_reverse]
    omega
  have htext : (storedDigits value base flags ++ List.replicate (zeros flags prec
      (formatWidth negative width flags) (storedDigits value base flags).length)
        (chr '0')).reverse = numeralText value negative base prec width flags := by
    rw [List.reverse_append, List.reverse_replicate, numeralText]
  simp only [longText, hflags, stored_digits_eq value base flags hbase, format_buf_eq _ _ _ _ _ _ hhash,
    hlen]
  obtain ⟨i,j,hij⟩ := rev_shape (pushSign negative flags (storedDigits value base flags ++
    List.replicate (zeros flags prec (formatWidth negative width flags)
      (storedDigits value base flags).length) (chr '0'))) (formatWidth negative width flags) flags
  rw [push_sign_eq, htext] at hij
  exact ⟨i,j,hij⟩

theorem numeral_plain (hbase : 1 < base.toNat) (h16 : base.toNat ≤ 16) :
    ∀ c ∈ numeralText value negative base prec width flags, Plain c := by
  have hdigits : ∀ c ∈ storedDigits value base flags, Plain c := by
    intro c hc
    rw [storedDigits] at hc
    split_ifs at hc
    · obtain ⟨d,hd,rfl⟩ := List.mem_map.mp hc
      exact digit_byte_plain _ d (lt_of_lt_of_le (digit_list_lt _ _ d hbase hd) h16)
    · cases hc
  intro c hc
  rcases List.mem_append.mp hc with hz | hd
  · rw [List.eq_of_mem_replicate hz]
    exact ⟨by decide,by decide,by decide⟩
  · exact hdigits c (List.mem_reverse.mp hd)

theorem numeral_value (hbase : 1 < base.toNat) (h16 : base.toNat ≤ 16) :
    numeralFrom base.toNat digitValue 0 (numeralText value negative base prec width flags) =
      some value.toNat := by
  have hchar : ∀ d < base.toNat, digitValue (digitByte flags.uppercase d) = some d := fun d hd =>
    digit_byte_value _ d (lt_of_lt_of_le hd h16)
  rw [numeralText, numeral_zeros _ _ _ (by decide), storedDigits, digitList]
  by_cases hv : value = 0
  · subst hv
    cases flags.precision
    · simp [numeralFrom, hchar 0 (Nat.zero_lt_of_lt hbase)]
    · simp [numeralFrom]
  · have hn : value.toNat ≠ 0 := fun h => hv (BitVec.eq_of_toNat_eq h)
    rw [if_pos (Or.inr hv), if_neg hn, ← List.map_reverse]
    exact numeral_written _ _ _ hbase hchar _

theorem stored_empty (hbase : 1 < base.toNat) :
    storedDigits value base flags = [] ↔ flags.precision = true ∧ value = 0 := by
  rw [storedDigits]
  split_ifs with h
  · refine iff_of_false (fun he => ?_) (fun hc => ?_)
    · exact digit_list_ne _ _ hbase (List.map_eq_nil_iff.mp he)
    · rcases h with hp | hv
      · simp [hc.1] at hp
      · exact hv hc.2
  · rw [not_or, not_not] at h
    exact iff_of_true rfl ⟨by simpa using h.1,h.2⟩

theorem numeral_empty (hbase : 1 < base.toNat) (hzp : flags.precision = true → flags.zeropad = false) :
    numeralText value negative base prec width flags = [] ↔ value = 0 ∧ NoDigit flags prec := by
  have hprec : prec = 0 ↔ prec.toNat = 0 := by
    rw [← BitVec.toNat_inj]
    rfl
  rw [numeralText, List.append_eq_nil_iff, List.replicate_eq_nil_iff, List.reverse_eq_nil_iff,
    stored_empty _ _ _ hbase, NoDigit, zeros, hprec]
  constructor
  · rintro ⟨hz,hp,hv⟩
    refine ⟨hv,hp,?_⟩
    rw [hzp hp, (stored_empty value base flags hbase).mpr ⟨hp,hv⟩] at hz
    cases hleft : flags.left
    · rw [hleft] at hz
      simp only [Bool.false_eq_true, if_false, List.length_nil, ntoaBufferSize] at hz
      exact Or.inr (by omega)
    · exact Or.inl rfl
  · rintro ⟨hv,hp,hz⟩
    refine ⟨?_,hp,hv⟩
    rw [hzp hp]
    rcases hz with hl | hz
    · rw [if_pos hl]
    · rw [hz]
      simp

theorem width_of_negative (hl : flags.left = false) (hz : flags.zeropad = true) :
    (formatWidth true width flags).toNat = width.toNat - 1 := by
  rw [formatWidth, hl, hz]
  by_cases h : width = 0
  · rw [h, if_neg (by simp)]
    rfl
  · have hpos : width.toNat ≠ 0 := fun hn => h (BitVec.eq_of_toNat_eq hn)
    rw [if_pos ⟨rfl,h,rfl,Or.inl rfl⟩, BitVec.toNat_sub_of_le (by rw [BitVec.le_def]; simp; omega)]
    rfl

/-- The sign of a negative number has room unless the zeros take it. -/
theorem room_iff (hshort : (storedDigits value base flags).length < ntoaBufferSize) :
    (numeralText value true base prec width flags).length < ntoaBufferSize ↔
      ¬ SignLost flags prec width := by
  have hwidth := width_of_negative width flags
  rw [numeralText, List.length_append, List.length_replicate, List.length_reverse, SignLost, zeros]
  cases hl : flags.left
  · cases hz : flags.zeropad
    · simp only [Bool.false_eq_true, if_false, false_and, or_false, true_and]
      omega
    · simp only [Bool.false_eq_true, if_false, if_true, true_and, hwidth hl hz]
      omega
  · simpa using hshort

/-- A number is read back from its text unless its sign is lost or it is a zero
that is not written. -/
theorem long_reads_back (hbase : 1 < base.toNat) (h16 : base.toNat ≤ 16) (hhash : flags.hash = false)
    (hzp : flags.precision = true → flags.zeropad = false) (hvalue : negative = true → value ≠ 0)
    (hshort : negative = true → (storedDigits value base flags).length < ntoaBufferSize) :
    readInteger base.toNat (longText value negative base prec width flags) =
      some (if negative then -(value.toNat : ℤ) else value.toNat) ↔
        ¬ (negative = true ∧ SignLost flags prec width) ∧ ¬ (value = 0 ∧ NoDigit flags prec) := by
  obtain ⟨i,j,htext⟩ := long_shape value negative base prec width flags hbase hhash
  have hread := read_number base.toNat i j
    ((numeralText value negative base prec width flags).length < ntoaBufferSize) negative flags
    _ (numeral_plain value negative base prec width flags hbase h16)
  rw [htext, hread, numeral, numeral_value _ _ _ _ _ _ hbase h16]
  by_cases hempty : numeralText value negative base prec width flags = []
  · rw [if_pos hempty]
    exact iff_of_false (by simp)
      (fun h => h.2 ((numeral_empty _ _ _ _ _ _ hbase hzp).mp hempty))
  · have hdigit := fun h => hempty ((numeral_empty value negative base prec width flags hbase hzp).mpr h)
    rw [if_neg hempty, and_iff_left hdigit, Option.map_some, Option.some_inj]
    cases negative with
    | false => simp
    | true =>
      have hpos : value.toNat ≠ 0 := fun h => hvalue rfl (BitVec.eq_of_toNat_eq h)
      have hroom := room_iff value base prec width flags (hshort rfl)
      rw [if_pos rfl, and_iff_right rfl, ← hroom]
      split_ifs with hl
      · exact iff_of_true rfl hl.1
      · exact iff_of_false (by omega) (fun h => hl ⟨h,rfl⟩)

end Long

def argument (c : Byte) (flags : Flags) (w : Word) : ℤ :=
  let value := narrow (isSigned c) flags w
  if isSigned c then value.toInt else value.toNat

theorem base_bounds (c : Byte) : 1 < (baseOf c).toNat ∧ (baseOf c).toNat ≤ 16 := by
  rw [baseOf]
  split_ifs <;> decide

theorem signed_base (c : Byte) (hc : isSigned c = true) : baseOf c = 10 := by
  rw [isSigned, Bool.or_eq_true, decide_eq_true_eq, decide_eq_true_eq] at hc
  rcases hc with rfl | rfl <;> rfl

theorem precision_pads_no_zeros (c : Byte) (flags : Flags)
    (h : (integerFlags c flags).precision = true) : (integerFlags c flags).zeropad = false := by
  simp only [integerFlags] at *
  split_ifs at * <;> simp_all

theorem integer_long_long (c : Byte) (flags : Flags) :
    (integerFlags c flags).longLong = flags.longLong := by
  simp only [integerFlags]
  split_ifs <;> rfl

theorem magnitude_toNat (value : Word) : (magnitude value).toNat = value.toInt.natAbs := by
  have hint := BitVec.toInt_eq_toNat_cond value
  have hlt := value.isLt
  have hneg : (0 - value).toNat = (2^32 - value.toNat) % 2^32 := by
    rw [BitVec.toNat_sub]
    simp
  rw [magnitude]
  by_cases hpos : 0 < value.toInt
  · rw [if_pos hpos]
    split_ifs at hint <;> omega
  · rw [if_neg hpos, hneg]
    split_ifs at hint <;> omega

theorem magnitude_zero (value : Word) : magnitude value = 0 ↔ value.toInt = 0 := by
  rw [← BitVec.toNat_inj, magnitude_toNat, ← Int.natAbs_eq_zero]
  rfl

theorem magnitude_signed (value : Word) :
    (if decide (value.toInt < 0) = true then -((magnitude value).toNat : ℤ)
      else (magnitude value).toNat) = value.toInt := by
  rw [magnitude_toNat]
  by_cases h : value.toInt < 0
  · rw [if_pos (decide_eq_true h)]
    omega
  · rw [if_neg (fun hd => h (of_decide_eq_true hd))]
    omega

/-- Ten digits are enough for the decimals of a word. -/
theorem decimal_digits (value : Word) (flags : Flags) :
    (storedDigits value 10 flags).length < ntoaBufferSize := by
  have hlen : (Nat.digits 10 value.toNat).length ≤ 10 := by
    rw [Nat.digits_length_le_iff (by decide)]
    exact value.isLt.trans (by decide)
  rw [storedDigits, digitList]
  split_ifs
  · exact (by decide : 1 < ntoaBufferSize)
  · rw [List.length_map]
    exact lt_of_le_of_lt hlen (by decide)
  · exact (by decide : 0 < ntoaBufferSize)

theorem signed_reads_back (value prec width : Word) (flags : Flags) (hhash : flags.hash = false)
    (hzp : flags.precision = true → flags.zeropad = false) :
    readInteger (10 : Word).toNat (longText (magnitude value) (value.toInt < 0) 10 prec width flags) =
      some value.toInt ↔
        ¬ (value.toInt < 0 ∧ SignLost flags prec width) ∧
          ¬ (value.toInt = 0 ∧ NoDigit flags prec) := by
  have hvalue : decide (value.toInt < 0) = true → magnitude value ≠ 0 := fun hn hz => by
    have hneg := of_decide_eq_true hn
    have hzero := (magnitude_zero value).mp hz
    omega
  have h := long_reads_back (magnitude value) (decide (value.toInt < 0)) 10 prec width flags
    (by decide) (by decide) hhash hzp hvalue (fun _ => decimal_digits _ _)
  rw [magnitude_signed, magnitude_zero] at h
  simpa only [decide_eq_true_eq] using h

/-- The lowest byte of the argument is a signed number. -/
example : (specifierText (chr 'd') ⟨[],[.word 0x1FF],{ char := true },0,0⟩).map
    (fun a => readInteger 10 a.2) = some (some (-1)) := by decide

/-- One more column, and it reads as five. -/
example : (specifierText (chr 'd') ⟨[],[.word (-5)],{ zeropad := true },33,0⟩).map
    (fun a => readInteger 10 a.2) = some (some 5) := by decide

end Swindle.PrintfNumbers
