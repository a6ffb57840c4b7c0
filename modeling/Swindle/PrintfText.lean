import Swindle.EmbeddedPrintf

/-!
# The text of a format

What a format says does not depend on where it is written: there is a text, and
every output function is called with its characters one after the other. The
text is given here, and every loop of the printf is shown to put it out.
-/

set_option autoImplicit false

namespace Swindle.PrintfText
open Swindle.WordMemory Swindle.EmbeddedPrintf

variable {σ : Type}

/-! ## The texts -/

def blanks (n : ℕ) : List Byte := List.replicate n (chr ' ')

def inField (left : Bool) (width : Word) (t : List Byte) : List Byte :=
  if left then t ++ blanks (width.toNat - t.length) else blanks (width.toNat - t.length) ++ t

def revText (buf : List Byte) (width : Word) (flags : Flags) : List Byte :=
  if !flags.left && flags.zeropad then buf.reverse else inField flags.left width buf.reverse

def longText (value : Word) (negative : Bool) (base prec width : Word) (flags : Flags) : List Byte :=
  let flags := if value = 0 then { flags with hash := false } else flags
  let buf := if !flags.precision ∨ value ≠ 0 then digitLoop base flags.uppercase ntoaBufferSize value []
    else []
  let width := formatWidth negative width flags
  revText (formatBuf buf negative base prec width flags) width flags

def integerText (c : Byte) (r : Reading) : Option (List Arg × List Byte) :=
  let flags := integerFlags c r.flags
  if flags.longLong then some (r.va,[])
  else do
    let (w,va) ← vaWord r.va
    let value := narrow (isSigned c) flags w
    if isSigned c then
      return (va,longText (magnitude value) (value.toInt < 0) (baseOf c) r.precision r.width flags)
    else return (va,longText value false (baseOf c) r.precision r.width flags)

def charText (r : Reading) : Option (List Arg × List Byte) := do
  let (w,va) ← vaWord r.va
  return (va,inField r.flags.left r.width [w.setWidth 8])

/-- The characters of the array before its terminator, and no more than `n` of them. -/
def stringPrefix (bounded : Bool) : List Byte → ℕ → Option (List Byte)
  | [], _ => none
  | c::cs, n =>
    if c = 0 ∨ (bounded ∧ n = 0) then some []
    else do return c :: (← stringPrefix bounded cs (n - 1))

def stringText (r : Reading) : Option (List Arg × List Byte) := do
  let (p,va) ← vaStr r.va
  let l ← strnlenS p (if r.precision ≠ 0 then r.precision.toNat else 2^32-1)
  let l := if r.flags.precision then (if l < r.precision then l else r.precision) else l
  let t ← stringPrefix r.flags.precision p r.precision.toNat
  let pad := blanks (r.width.toNat - l.toNat)
  return (va,if r.flags.left then t ++ pad else pad ++ t)

def pointerText (r : Reading) : Option (List Arg × List Byte) := do
  let (w,va) ← vaWord r.va
  return (va,longText w false 16 r.precision 8 { r.flags with zeropad := true, uppercase := true })

def specifierText (c : Byte) (r : Reading) : Option (List Arg × List Byte) :=
  if isInteger c then integerText c r
  else if c = chr 'c' then charText r
  else if c = chr 's' then stringText r
  else if c = chr 'p' then pointerText r
  else if c = chr '%' then some (r.va,[chr '%'])
  else some (r.va,[c])

def textLoop : ℕ → List Byte → List Arg → Option (List Byte)
  | 0, _, _ => none
  | n+1, format, va =>
    match format with
    | [] => none
    | c::cs =>
      if c = 0 then some []
      else if c ≠ chr '%' then do return c :: (← textLoop n cs va)
      else do
        let r ← fields cs va
        match r.format with
        | [] => none
        | c::cs =>
          let (va,t) ← specifierText c r
          return t ++ (← textLoop n cs va)

/-- The text of a format with its arguments. -/
def formatText (format : List Byte) (va : List Arg) : Option (List Byte) :=
  textLoop format.length format va

/-! ## Texts of formats put together -/

/-- More fuel than is needed changes nothing. -/
theorem text_fuel (n m : ℕ) (hm : n ≤ m) (format : List Byte) (va : List Arg) (t : List Byte)
    (h : textLoop n format va = some t) : textLoop m format va = some t := by
  induction n generalizing m format va t with
  | zero => cases h
  | succ n ih =>
    obtain ⟨m,rfl⟩ : ∃ k, m = k+1 := ⟨m-1,by omega⟩
    have hm : n ≤ m := by omega
    cases format with
    | nil => cases h
    | cons c cs =>
      simp only [textLoop] at h ⊢
      split_ifs at h ⊢
      · exact h
      · obtain ⟨t',ht,h⟩ := Option.bind_eq_some_iff.mp h
        rw [ih m hm cs va t' ht]
        exact h
      · obtain ⟨r,hr,h⟩ := Option.bind_eq_some_iff.mp h
        rw [hr]
        cases hf : r.format with
        | nil => simp [hf] at h
        | cons d ds =>
          simp only [hf] at h
          obtain ⟨a,ha,h⟩ := Option.bind_eq_some_iff.mp h
          obtain ⟨t',ht,h⟩ := Option.bind_eq_some_iff.mp h
          simp only [Option.bind_eq_bind, Option.bind_some, hf, ha, ih m hm ds a.1 t' ht]
          exact h

/-- Characters other than `%` stand for themselves. -/
theorem text_plain (p cs : List Byte) (va : List Arg) (n : ℕ) (t : List Byte)
    (hp : ∀ c ∈ p, c ≠ 0 ∧ c ≠ chr '%') (h : textLoop n cs va = some t) :
    textLoop (p.length + n) (p++cs) va = some (p++t) := by
  induction p with
  | nil => simpa using h
  | cons c p ih =>
    have hc := hp c (by simp)
    have ih := ih (fun d hd => hp d (by simp [hd]))
    rw [List.length_cons, show p.length + 1 + n = p.length + n + 1 by omega, List.cons_append, textLoop]
    simp only [if_neg hc.1, if_pos hc.2, ih]
    rfl

theorem text_conversion (c : Byte) (cs rest : List Byte) (va va' : List Arg) (r : Reading) (n : ℕ)
    (t u : List Byte) (hr : fields cs va = some r) (hf : r.format = c::rest)
    (hc : specifierText c r = some (va',t)) (h : textLoop n rest va' = some u) :
    textLoop (n+1) (chr '%'::cs) va = some (t++u) := by
  simp [textLoop, hr, hf, hc, h, show ¬ chr '%' = 0#8 by decide]

/-! ## Characters put out one after the other -/

section Put
variable (out : OutFct σ) (maxlen : Word)

@[simp] theorem puts_nil (k : Cursor σ) : puts out maxlen [] k = k := rfl

@[simp] theorem puts_cons (c : Byte) (cs : List Byte) (k : Cursor σ) :
    puts out maxlen (c::cs) k = puts out maxlen cs (put out maxlen c k) := rfl

theorem puts_append (t u : List Byte) (k : Cursor σ) :
    puts out maxlen (t++u) k = puts out maxlen u (puts out maxlen t k) := by
  induction t generalizing k with
  | nil => rfl
  | cons c t ih => exact ih (put out maxlen c k)

theorem puts_idx (t : List Byte) (k : Cursor σ) :
    (puts out maxlen t k).idx = k.idx + BitVec.ofNat 32 t.length := by
  induction t generalizing k with
  | nil => simp
  | cons c t ih =>
    rw [puts_cons, ih, List.length_cons, Nat.add_comm, ← offset_offset k.idx 1 t.length]
    rfl

theorem spaces_puts (n : ℕ) (k : Cursor σ) :
    spaces out maxlen n k = puts out maxlen (blanks n) k := by
  induction n generalizing k with
  | zero => rfl
  | succ n ih => exact ih (put out maxlen (chr ' ') k)

/-- The loop that fills the field up has as many turns as there are characters
missing. -/
theorem spaces_to_puts (start width : Word) (n done : ℕ) (k : Cursor σ)
    (hk : k.idx = start + BitVec.ofNat 32 done) (hdone : done < 2^32) (hn : width.toNat ≤ done + n) :
    spacesTo out maxlen start width n k = puts out maxlen (blanks (width.toNat - done)) k := by
  induction n generalizing done k with
  | zero => rw [spacesTo, show width.toNat - done = 0 by omega]; rfl
  | succ n ih =>
    have hdiff : k.idx - start = BitVec.ofNat 32 done := by rw [hk, add_sub_cancel_left]
    have hw := width.isLt
    have htest : k.idx - start < width ↔ done < width.toNat := by
      rw [hdiff, BitVec.lt_def, BitVec.toNat_ofNat, Nat.mod_eq_of_lt hdone]
    rw [spacesTo]
    by_cases hlt : done < width.toNat
    · have hput : (put out maxlen (chr ' ') k).idx = start + BitVec.ofNat 32 (done+1) := by
        rw [← offset_offset start done 1, ← hk]
        rfl
      rw [if_pos (htest.mpr hlt), ih (done+1) _ hput (by omega) (by omega),
        show width.toNat - done = (width.toNat - (done+1)) + 1 by omega]
      rfl
    · rw [if_neg (fun h => hlt (htest.mp h)), show width.toNat - done = 0 by omega]
      rfl

end Put

/-! ## The buffer for a number -/

theorem pad_zeros (target n : ℕ) (buf : List Byte) (hn : ntoaBufferSize ≤ buf.length + n) :
    padZeros target n buf =
      buf ++ List.replicate (min target ntoaBufferSize - buf.length) (chr '0') := by
  induction n generalizing buf with
  | zero =>
    rw [padZeros, show min target ntoaBufferSize - buf.length = 0 by omega]
    simp
  | succ n ih =>
    rw [padZeros]
    split_ifs with h
    · rw [ih (buf ++ [chr '0']) (by simp; omega), List.append_assoc, List.length_append,
        List.length_singleton, show min target ntoaBufferSize - buf.length =
          (min target ntoaBufferSize - (buf.length+1)) + 1 by omega]
      rfl
    · rw [show min target ntoaBufferSize - buf.length = 0 by omega]
      simp

theorem pad_zeros_length (target : ℕ) (buf : List Byte) (hb : buf.length ≤ ntoaBufferSize) :
    (padZeros target ntoaBufferSize buf).length ≤ ntoaBufferSize := by
  rw [pad_zeros target _ buf (by omega), List.length_append, List.length_replicate]
  omega

theorem push_if_length (c : Byte) (buf : List Byte) (hb : buf.length ≤ ntoaBufferSize) :
    (pushIf c buf).length ≤ ntoaBufferSize := by
  rw [pushIf]
  split_ifs with h
  · rw [List.length_append, List.length_singleton]
    exact h
  · exact hb

theorem drop_for_hash_length (base prec width : Word) (flags : Flags) (buf : List Byte) :
    (dropForHash base prec width flags buf).length ≤ buf.length := by
  simp only [dropForHash]
  split_ifs
  · exact (List.dropLast_sublist _).length_le.trans (List.dropLast_sublist _).length_le
  · exact (List.dropLast_sublist _).length_le
  · exact le_rfl

theorem push_base_length (base : Word) (flags : Flags) (buf : List Byte)
    (hb : buf.length ≤ ntoaBufferSize) : (pushBase base flags buf).length ≤ ntoaBufferSize := by
  rw [pushBase]
  split_ifs
  · exact push_if_length _ buf hb
  · exact push_if_length _ buf hb
  · exact push_if_length _ buf hb
  · exact hb

theorem handle_hash_length (base prec width : Word) (flags : Flags) (buf : List Byte)
    (hb : buf.length ≤ ntoaBufferSize) :
    (handleHash base prec width flags buf).length ≤ ntoaBufferSize :=
  push_if_length _ _ (push_base_length base flags _
    ((drop_for_hash_length base prec width flags buf).trans hb))

theorem push_sign_length (negative : Bool) (flags : Flags) (buf : List Byte)
    (hb : buf.length ≤ ntoaBufferSize) : (pushSign negative flags buf).length ≤ ntoaBufferSize := by
  rw [pushSign]
  split_ifs with h
  · rw [List.length_append]
    exact h
  · rw [List.length_append]
    exact h
  · rw [List.length_append]
    exact h
  · exact hb
  · exact hb

/-- Nothing is ever stored behind the end of the buffer. -/
theorem format_buf_length (buf : List Byte) (negative : Bool) (base prec width : Word)
    (flags : Flags) (hb : buf.length ≤ ntoaBufferSize) :
    (formatBuf buf negative base prec width flags).length ≤ ntoaBufferSize := by
  unfold formatBuf
  apply push_sign_length
  have hpad := pad_zeros_length prec.toNat buf hb
  split_ifs <;> first
    | exact handle_hash_length _ _ _ _ _ (pad_zeros_length _ _ hpad)
    | exact handle_hash_length _ _ _ _ _ hpad
    | exact handle_hash_length _ _ _ _ _ hb
    | exact pad_zeros_length _ _ hpad
    | exact hpad
    | exact hb

theorem digit_loop_length (base : Word) (uppercase : Bool) (n : ℕ) (value : Word)
    (buf : List Byte) (hb : buf.length + n = ntoaBufferSize) :
    (digitLoop base uppercase n value buf).length ≤ ntoaBufferSize := by
  induction n generalizing value buf with
  | zero => rw [digitLoop]; omega
  | succ n ih =>
    have hnext : (buf ++ [digitChar uppercase ((value % base).setWidth 8)]).length =
        buf.length + 1 := by rw [List.length_append, List.length_singleton]
    rw [digitLoop]
    split_ifs
    · exact ih _ _ (by omega)
    · omega

theorem digit_buf_length (value base : Word) (flags : Flags) :
    (if !flags.precision ∨ value ≠ 0 then digitLoop base flags.uppercase ntoaBufferSize value []
      else []).length ≤ ntoaBufferSize := by
  split_ifs
  · exact digit_loop_length base _ ntoaBufferSize value [] (Nat.zero_add _)
  · exact Nat.zero_le _

/-! ## Every loop puts out its text -/

section Refines
variable (out : OutFct σ) (maxlen : Word)

theorem rev_puts (buf : List Byte) (width : Word) (flags : Flags) (k : Cursor σ)
    (hb : buf.length ≤ ntoaBufferSize) :
    outRev out maxlen buf width flags k = puts out maxlen (revText buf width flags) k := by
  have h32 : buf.length < 2^32 := lt_of_le_of_lt hb (by decide)
  have hlen : (puts out maxlen buf.reverse k).idx = k.idx + BitVec.ofNat 32 buf.length := by
    rw [puts_idx, List.length_reverse]
  simp only [outRev, revText, inField, List.length_reverse]
  cases flags.left
  · cases flags.zeropad
    · simp [spaces_puts, puts_append]
    · simp
  · simp only [Bool.not_true, Bool.false_and, Bool.false_eq_true, if_false, if_true]
    rw [spaces_to_puts out maxlen k.idx width width.toNat buf.length _ hlen h32 (by omega),
      puts_append]

theorem long_puts (value : Word) (negative : Bool) (base prec width : Word) (flags : Flags)
    (k : Cursor σ) : ntoaLong out maxlen value negative base prec width flags k =
      puts out maxlen (longText value negative base prec width flags) k := by
  simp only [ntoaLong, ntoaFormat, longText]
  exact rev_puts out maxlen _ _ _ k (format_buf_length _ _ _ _ _ _ (digit_buf_length _ _ _))

def putText (k : Cursor σ) (r : List Arg × List Byte) : List Arg × Cursor σ :=
  (r.1,puts out maxlen r.2 k)

theorem integer_puts (c : Byte) (r : Reading) (k : Cursor σ) :
    integerConversion out maxlen c r k = (integerText c r).map (putText out maxlen k) := by
  simp only [integerConversion, integerText]
  split_ifs
  · rfl
  all_goals
    cases vaWord r.va with
    | none => rfl
    | some a => exact congrArg some (congrArg (Prod.mk a.2) (long_puts ..))

theorem char_puts (r : Reading) (k : Cursor σ) :
    charConversion out maxlen r k = (charText r).map (putText out maxlen k) := by
  rw [charConversion, charText]
  cases vaWord r.va with
  | none => rfl
  | some a =>
    apply congrArg some
    apply congrArg (Prod.mk a.2)
    simp only [inField, List.length_singleton]
    cases r.flags.left
    · simp [spaces_puts, puts_append]
    · simp [spaces_puts]

theorem string_loop_puts (bounded : Bool) (p : List Byte) (n : ℕ) (k : Cursor σ) :
    stringLoop out maxlen bounded p n k =
      (stringPrefix bounded p n).map fun t => puts out maxlen t k := by
  induction p generalizing n k with
  | nil => rfl
  | cons c cs ih =>
    rw [stringLoop, stringPrefix]
    split_ifs
    · rfl
    · rw [ih]
      cases stringPrefix bounded cs (n-1) <;> rfl

theorem string_puts (r : Reading) (k : Cursor σ) :
    stringConversion out maxlen r k = (stringText r).map (putText out maxlen k) := by
  rw [stringConversion, stringText]
  cases vaStr r.va with
  | none => rfl
  | some a =>
    simp only [Option.bind_eq_bind, Option.bind_some]
    cases strnlenS a.1 (if r.precision ≠ 0 then r.precision.toNat else 2^32-1) with
    | none => rfl
    | some l =>
      simp only [Option.bind_some, string_loop_puts, spaces_puts]
      cases stringPrefix r.flags.precision a.1 r.precision.toNat with
      | none => rfl
      | some t => cases r.flags.left <;> simp [putText, puts_append]

theorem pointer_puts (r : Reading) (k : Cursor σ) :
    pointerConversion out maxlen r k = (pointerText r).map (putText out maxlen k) := by
  rw [pointerConversion, pointerText]
  cases vaWord r.va with
  | none => rfl
  | some a => exact congrArg some (congrArg (Prod.mk a.2) (long_puts ..))

theorem specifier_puts (c : Byte) (r : Reading) (k : Cursor σ) :
    specifier out maxlen c r k = (specifierText c r).map (putText out maxlen k) := by
  rw [specifier, specifierText]
  split_ifs
  · exact integer_puts out maxlen c r k
  · exact char_puts out maxlen r k
  · exact string_puts out maxlen r k
  · exact pointer_puts out maxlen r k
  · rfl
  · rfl

theorem loop_puts (n : ℕ) (format : List Byte) (va : List Arg) (k : Cursor σ) :
    formatLoop out maxlen n format va k =
      (textLoop n format va).map fun t => puts out maxlen t k := by
  induction n generalizing format va k with
  | zero => rfl
  | succ n ih =>
    cases format with
    | nil => rfl
    | cons c cs =>
      simp only [formatLoop, textLoop]
      split_ifs
      · rfl
      · rw [ih]
        cases textLoop n cs va <;> rfl
      · cases fields cs va with
        | none => rfl
        | some r =>
          simp only [Option.bind_eq_bind, Option.bind_some]
          cases r.format with
          | nil => rfl
          | cons d ds =>
            simp only [specifier_puts]
            cases specifierText d r with
            | none => rfl
            | some a =>
              simp only [Option.map_some, Option.bind_some, putText, ih]
              cases textLoop n ds a.1 with
              | none => rfl
              | some t => simp [puts_append]

/-- Whatever the output function is, it is called with the characters of the text and
then once with the terminator. -/
theorem core_text (format : List Byte) (va : List Arg) (s : σ) :
    vsnprintfCore out maxlen format va s = (formatText format va).map fun t =>
      let idx := BitVec.ofNat 32 t.length
      (idx,out 0 (if idx < maxlen then idx else maxlen - 1) maxlen (puts out maxlen t ⟨0,s⟩).sink) := by
  rw [vsnprintfCore, loop_puts, formatText]
  cases textLoop format.length format va with
  | none => rfl
  | some t => simp [puts_idx]

end Refines

end Swindle.PrintfText
