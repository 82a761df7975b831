import Mathlib.Data.Nat.Digits.Lemmas

/-! Numerals: numbers written with the digits of a base.

`value b text` is what a reader makes of a text in base `b`, the largest digit
first; a text with any other character in it is none. `numeral b n` is the one way
to write a positive `n` without a zero in front, and it is read back
(`value_numeral`). A program that writes a number has its last digit first, so a
numeral is taken apart at its end (`numeral_eq`). -/
namespace ShompOS.Numeral

/-- The digit a character stands for. -/
def digit (c : UInt8) : Option Nat :=
  if 0x30 ≤ c ∧ c ≤ 0x39 then some (c.toNat - 0x30)
  else if 0x41 ≤ c ∧ c ≤ 0x46 then some (c.toNat - 0x37)
  else none

/-- One more digit, read. -/
def valueStep (b v : Nat) (c : UInt8) : Option Nat :=
  (digit c).bind fun d => if d < b then some (b * v + d) else none

/-- The number a text of digits in base `b` stands for. -/
def value (b : Nat) (text : List UInt8) : Option Nat := text.foldlM (valueStep b) 0

/-- The character of a digit. -/
def digitChar (d : Nat) : UInt8 := .ofNat (if d < 10 then d + 0x30 else d + 0x37)

/-- A positive number in base `b`. -/
def numeral (b n : Nat) : List UInt8 := (b.digits n).reverse.map digitChar

variable {b n : Nat}

theorem digit_digitChar {d : Nat} (hd : d < 16) : digit (digitChar d) = some d := by
  have hall : ∀ d : Fin 16, digit (digitChar d) = some d.val := by decide
  exact hall ⟨d, hd⟩

theorem digitChar_eq_zero_iff {d : Nat} (hd : d < 16) : digitChar d = 0x30 ↔ d = 0 := by
  have hall : ∀ d : Fin 16, digitChar d = 0x30 ↔ d.val = 0 := by decide
  exact hall ⟨d, hd⟩

theorem digitChar_ne_terminator {d : Nat} (hd : d < 16) : digitChar d ≠ 0 := by
  have hall : ∀ d : Fin 16, digitChar d ≠ 0 := by decide
  exact hall ⟨d, hd⟩

theorem numeral_zero (b : Nat) : numeral b 0 = [] := by
  unfold numeral
  rw [Nat.digits_zero]
  rfl

/-- The last digit of a number is its remainder, and the digits before it are those of the quotient. -/
theorem numeral_eq (hb : 1 < b) (hn : n ≠ 0) : numeral b n = numeral b (n / b) ++ [digitChar (n % b)] := by
  unfold numeral
  rw [Nat.digits_eq_cons_digits_div hb hn, List.reverse_cons, List.map_append]
  rfl

theorem numeral_ne_nil (hb : 1 < b) (hn : n ≠ 0) : numeral b n ≠ [] := by
  rw [numeral_eq hb hn]
  exact List.append_ne_nil_of_right_ne_nil _ (List.cons_ne_nil _ _)

theorem length_numeral_le_iff (hb : 1 < b) (k : Nat) : (numeral b n).length ≤ k ↔ n < b ^ k := by
  unfold numeral
  rw [List.length_map, List.length_reverse]
  exact Nat.digits_length_le_iff hb n

/-- What holds of the characters of all digits holds of those of a numeral. -/
theorem forall_mem_numeral (hb : 1 < b) {P : UInt8 → Prop} (hP : ∀ d, d < b → P (digitChar d)) :
    ∀ c ∈ numeral b n, P c := by
  intro c hc
  obtain ⟨d, hd, rfl⟩ := List.mem_map.mp hc
  exact hP d (Nat.digits_lt_base hb (List.mem_reverse.mp hd))

/-- No zero stands in front. -/
theorem head_numeral_ne (hb : 1 < b) (hb' : b ≤ 16) (hn : n ≠ 0) : (numeral b n).head? ≠ some 0x30 := by
  have hlast := Nat.getLast_digit_ne_zero b hn
  have hne := Nat.digits_ne_nil_iff_ne_zero (b := b) |>.mpr hn
  unfold numeral
  rw [List.head?_map, List.head?_reverse, List.getLast?_eq_getLast_of_ne_nil hne, Option.map_some, ne_eq,
    Option.some_inj,
    digitChar_eq_zero_iff (Nat.lt_of_lt_of_le (Nat.digits_lt_base hb (List.getLast_mem hne)) hb')]
  exact hlast

theorem value_append_singleton (b : Nat) (text : List UInt8) (c : UInt8) :
    value b (text ++ [c]) = (value b text).bind fun v => valueStep b v c := by
  unfold value
  rw [List.foldlM_append]
  refine congrArg (Option.bind _) (funext fun v => ?_)
  exact bind_pure _

theorem valueStep_digitChar {d : Nat} (hd : d < b) (hb : b ≤ 16) (v : Nat) :
    valueStep b v (digitChar d) = some (b * v + d) := by
  unfold valueStep
  rw [digit_digitChar (Nat.lt_of_lt_of_le hd hb), Option.bind_some, if_pos hd]

/-- A number written is read back. -/
theorem value_numeral (hb : 1 < b) (hb' : b ≤ 16) (n : Nat) : value b (numeral b n) = some n := by
  induction n using Nat.strong_induction_on with
  | _ n ih =>
    by_cases hn : n = 0
    · rw [hn, numeral_zero]
      rfl
    · have hdiv : n / b < n := Nat.div_lt_self (Nat.pos_of_ne_zero hn) hb
      rw [numeral_eq hb hn, value_append_singleton, ih _ hdiv, Option.bind_some,
        valueStep_digitChar (Nat.mod_lt n (Nat.lt_of_succ_lt hb)) hb', Nat.div_add_mod]

end ShompOS.Numeral
