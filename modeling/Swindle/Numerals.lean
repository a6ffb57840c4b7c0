import Mathlib

/-!
# Numerals

The value of a numeral in a base, most significant digit first, over any
alphabet whose characters may have a value.
-/

set_option autoImplicit false

namespace Swindle.Numerals

variable {α : Type}

/-- The value of the numeral `cs` behind digits that are worth `n`. -/
def numeralFrom (base : ℕ) (val : α → Option ℕ) : ℕ → List α → Option ℕ
  | n, [] => some n
  | n, c::cs => (val c).bind fun d => numeralFrom base val (base*n + d) cs

def numeral (base : ℕ) (val : α → Option ℕ) (cs : List α) : Option ℕ :=
  if cs = [] then none else numeralFrom base val 0 cs

section Numeral
variable (base : ℕ) (val : α → Option ℕ)

theorem numeral_append (cs ds : List α) (n : ℕ) : numeralFrom base val n (cs++ds) =
    (numeralFrom base val n cs).bind fun m => numeralFrom base val m ds := by
  induction cs generalizing n with
  | nil => rfl
  | cons c cs ih =>
    rw [List.cons_append, numeralFrom, numeralFrom, Option.bind_assoc]
    exact Option.bind_congr fun d _ => ih (base*n + d)

theorem numeral_zeros (z : α) (hz : val z = some 0) (k : ℕ) (cs : List α) :
    numeralFrom base val 0 (List.replicate k z ++ cs) = numeralFrom base val 0 cs := by
  induction k with
  | zero => rfl
  | succ k ih => rw [List.replicate_succ, List.cons_append, numeralFrom, hz, Option.bind_some,
      Nat.mul_zero, ih]

/-- The digits of a number, most significant first, written as `char` writes them. -/
def written (char : ℕ → α) (n : ℕ) : List α := ((Nat.digits base n).reverse).map char

theorem numeral_written (char : ℕ → α) (hbase : 1 < base)
    (hchar : ∀ d < base, val (char d) = some d) (n : ℕ) :
    numeralFrom base val 0 (written base char n) = some n := by
  induction n using Nat.strong_induction_on with
  | _ n ih =>
    by_cases hn : n = 0
    · rw [hn, written, Nat.digits_zero]
      rfl
    · have hdigits := Nat.digits_eq_cons_digits_div hbase hn
      have hlt := Nat.mod_lt n (Nat.zero_lt_of_lt hbase)
      have hrest := ih (n/base) (Nat.div_lt_self (Nat.pos_of_ne_zero hn) hbase)
      rw [written] at hrest
      rw [written, hdigits, List.reverse_cons, List.map_append, numeral_append, hrest,
        Option.bind_some, List.map_singleton, numeralFrom, hchar _ hlt, Option.bind_some,
        numeralFrom, Nat.div_add_mod]

end Numeral

end Swindle.Numerals
