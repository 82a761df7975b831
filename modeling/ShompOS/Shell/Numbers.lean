import ShompOS.Numerals
import ShompOS.FakeLibc.String
import ShompOS.Shell.Screen

/-! Numbers on the terminal (`terminal_writeint`, `kernel.c`).

The digits go into a buffer from the last one on and are sent from the other end.
What a character is sent to is a parameter: the screen is one such thing, the file
system's record of what the terminal has been sent another, and a list of
characters a third. So is the number that a build goes on with where `-num` is too
large for an `int`, since C leaves that open: with all but one of them the smallest
number is not what is sent. -/
namespace ShompOS
namespace Terminal
open Numeral

/-- The loop of `terminal_writeint`: the digits in the buffer, and their number. -/
def fillDigits (buffer : Memory) (i : Nat) (num : Int) : Memory × Nat :=
  if num > 0 then fillDigits (buffer.store8 i (num.tmod 10 + 0x30).toNat) (i + 1) (num.tdiv 10)
  else (buffer, i)
termination_by num.toNat
decreasing_by
  rw [Int.tdiv_eq_ediv_of_nonneg (by omega)]
  omega

/-- The digits are sent, where `i` is one more than the index of the next. -/
def sendDigits {σ : Type} (putchar : σ → UInt8 → σ) (buffer : Memory) : (i : Nat) → σ → σ
  | 0, t => t
  | i + 1, t => sendDigits putchar buffer i (putchar t (buffer.byte i))

/-- `-num`. For the smallest `int` that overflows, which is undefined: `negMin` stands for
whatever the compiled loops go on with. -/
def negated (negMin num : Int) : Int := if num = -2 ^ 31 then negMin else -num

/-- `terminal_writeint`. The buffer is an array of its own: its addresses are the indices. -/
def writeint {σ : Type} (negMin : Int) (putchar : σ → UInt8 → σ) (num : Int) (buffer : Memory) (t : σ) : Memory × σ :=
  if num = 0 then (buffer, putchar t 0x30)
  else
    let t := if num < 0 then putchar t 0x2D else t
    let num := if num < 0 then negated negMin num else num
    let (buffer, i) := fillDigits buffer 0 num
    (buffer, sendDigits putchar buffer i t)

/-- The characters that are sent. -/
def sent (negMin num : Int) (buffer : Memory) : List UInt8 :=
  (writeint negMin (fun text c => text ++ [c]) num buffer []).2

/-! ### Decimal numbers -/

/-- A sign or none, and digits: at least one, and no zero in front of another character. -/
def Canonical (text : List UInt8) : Prop :=
  ∃ sign digits, text = sign ++ digits ∧ (sign = [] ∨ sign = [0x2D]) ∧ digits ≠ [] ∧
    (value 10 digits).isSome ∧ (digits.head? = some 0x30 → text = [0x30])

/-- The number that a text is read as. -/
def parse : List UInt8 → Option Int
  | [] => none
  | c :: text =>
    if c = 0x2D then (value 10 text).map fun v : Nat => -(v : Int)
    else (value 10 (c :: text)).map fun v : Nat => (v : Int)

/-- The number is sent in its one canonical way, from within the buffer. -/
structure Printed (negMin num : Int) (buffer : Memory) (t : Terminal) : Prop where
  canonical : Canonical (sent negMin num buffer)
  parsed : parse (sent negMin num buffer) = some num
  inside : Memory.Spares (12 ≤ ·) buffer (writeint negMin Terminal.putchar num buffer t).1

/-! ### The loops -/

variable {σ : Type} {putchar : σ → UInt8 → σ} {buffer buffer' : Memory} {negMin num : Int}

theorem fillDigits_writes (buffer : Memory) (i n : Nat) :
    ∃ buffer', fillDigits buffer i n = (buffer', i + (numeral 10 n).length) ∧
      buffer.Writes buffer' i (numeral 10 n).reverse := by
  induction n using Nat.strong_induction_on generalizing buffer i with
  | _ n ih =>
    rw [fillDigits]
    by_cases hn : n = 0
    · subst hn
      rw [if_neg (by decide), numeral_zero]
      exact ⟨buffer, rfl, .nil buffer i⟩
    · have hmod : (n : Int).tmod 10 = (n % 10 : Nat) := rfl
      have hdigit : ((n : Int).tmod 10 + 0x30).toNat = n % 10 + 0x30 := by
        rw [hmod]
        omega
      have hdiv : (n : Int).tdiv 10 = (n / 10 : Nat) := rfl
      obtain ⟨buffer', hrun, hwrites⟩ := ih (n / 10) (by omega) (buffer.store8 i (n % 10 + 0x30)) (i + 1)
      rw [if_pos (by omega), hdigit, hdiv, hrun, numeral_eq (by decide) hn]
      refine ⟨buffer', ?_, ?_⟩
      · rw [List.length_append, List.length_singleton, Nat.add_assoc, Nat.add_comm 1]
      · have hchar : UInt8.ofNat (n % 10 + 0x30) = digitChar (n % 10) := by
          unfold digitChar
          rw [if_pos (Nat.mod_lt n (by decide))]
        have hstore := Memory.writes_store8 buffer i (n % 10 + 0x30)
        rw [hchar] at hstore
        rw [List.reverse_append]
        exact hstore.append hwrites

theorem sendDigits_eq {text : List UInt8} (h : ∀ i c, text.reverse[i]? = some c → buffer.byte i = c) (t : σ) :
    sendDigits putchar buffer text.length t = text.foldl putchar t := by
  induction text generalizing t with
  | nil => rfl
  | cons c text ih =>
    rw [List.reverse_cons] at h
    have hc : buffer.byte text.length = c := by
      apply h
      rw [List.getElem?_append_right (by rw [List.length_reverse]), List.length_reverse, Nat.sub_self]
      rfl
    rw [List.length_cons, sendDigits, hc, List.foldl_cons]
    apply ih
    intro i d hi
    apply h
    rw [List.getElem?_append_left (List.getElem?_eq_some_iff.mp hi).1, hi]

/-- The digits of a number that is not positive are none. -/
theorem fillDigits_eq (buffer : Memory) (num : Int) :
    (fillDigits buffer 0 num).2 = (numeral 10 num.toNat).length ∧
      buffer.Writes (fillDigits buffer 0 num).1 0 (numeral 10 num.toNat).reverse := by
  have hnat : fillDigits buffer 0 num = fillDigits buffer 0 (num.toNat : Int) := by
    by_cases hnum : 0 ≤ num
    · rw [Int.toNat_of_nonneg hnum]
    · rw [fillDigits, if_neg (by omega), Int.toNat_of_nonpos (by omega), fillDigits, if_neg (by decide)]
  obtain ⟨buffer', hrun, hwrites⟩ := fillDigits_writes buffer 0 num.toNat
  rw [Nat.zero_add] at hrun
  rw [hnat, hrun]
  exact ⟨rfl, hwrites⟩

theorem sendDigits_fillDigits (buffer : Memory) (num : Int) (t : σ) :
    sendDigits putchar (fillDigits buffer 0 num).1 (fillDigits buffer 0 num).2 t =
      (numeral 10 num.toNat).foldl putchar t := by
  obtain ⟨hlen, hwrites⟩ := fillDigits_eq buffer num
  rw [hlen]
  apply sendDigits_eq
  intro i c hi
  rw [← hwrites.chars i c hi, Nat.zero_add]

/-- What is sent, by the number. -/
def text (negMin num : Int) : List UInt8 :=
  if num = 0 then [0x30]
  else if num < 0 then 0x2D :: numeral 10 (negated negMin num).toNat
  else numeral 10 num.toNat

theorem writeint_eq (negMin num : Int) (buffer : Memory) (t : σ) :
    (writeint negMin putchar num buffer t).2 = (text negMin num).foldl putchar t := by
  unfold writeint text
  by_cases h0 : num = 0
  · rw [if_pos h0, if_pos h0]
    rfl
  · rw [if_neg h0, if_neg h0]
    by_cases hneg : num < 0
    · simp only [if_pos hneg]
      exact sendDigits_fillDigits buffer _ _
    · simp only [if_neg hneg]
      exact sendDigits_fillDigits buffer _ _

theorem sent_eq (negMin num : Int) (buffer : Memory) : sent negMin num buffer = text negMin num := by
  unfold sent
  rw [writeint_eq]
  have happend : ∀ (text s : List UInt8), text.foldl (fun s c => s ++ [c]) s = s ++ text := by
    intro text
    induction text with
    | nil => exact fun s => (List.append_nil s).symm
    | cons c text ih => exact fun s => (ih (s ++ [c])).trans (List.append_assoc s [c] text)
  exact happend (text negMin num) []

theorem negated_eq (hneg : num ≠ -2 ^ 31 ∨ negMin = 2 ^ 31) : negated negMin num = -num := by
  unfold negated
  by_cases hmin : num = -2 ^ 31
  · rw [if_pos hmin, hneg.resolve_left fun h => h hmin, hmin]
    rfl
  · exact if_neg hmin

/-- At most ten digits are stored. -/
theorem writeint_spares (hlo : -2 ^ 31 ≤ num) (hhi : num < 2 ^ 31) (hneg : num ≠ -2 ^ 31 ∨ negMin = 2 ^ 31)
    (buffer : Memory) (t : σ) : Memory.Spares (12 ≤ ·) buffer (writeint negMin putchar num buffer t).1 := by
  have hfill : ∀ v : Int, v ≤ 2 ^ 31 → Memory.Spares (12 ≤ ·) buffer (fillDigits buffer 0 v).1 := by
    intro v hv
    have hwrites := (fillDigits_eq buffer v).2
    have hlen : (numeral 10 v.toNat).length ≤ 10 := (length_numeral_le_iff (by decide) 10).mpr (by omega)
    obtain ⟨new, hnew, hmem⟩ := hwrites.stores
    rw [List.length_reverse] at hmem
    refine ⟨⟨new, hnew, fun x hx => ?_⟩, fun x hx => hwrites.others x ?_⟩
    · have := (hmem x).mp hx
      omega
    · rw [List.length_reverse]
      omega
  unfold writeint
  by_cases h0 : num = 0
  · rw [if_pos h0]
    exact .refl _ buffer
  · rw [if_neg h0]
    apply hfill
    split
    · rw [negated_eq hneg]
      omega
    · omega

/-! ### What is sent is the number -/

variable {n : Nat}

theorem value_numeral_ten (n : Nat) : value 10 (numeral 10 n) = some n := value_numeral (by decide) (by decide) n

theorem canonical_numeral (hn : n ≠ 0) {sign : List UInt8} (hsign : sign = [] ∨ sign = [0x2D]) :
    Canonical (sign ++ numeral 10 n) := by
  refine ⟨sign, numeral 10 n, rfl, hsign, numeral_ne_nil (by decide) hn, ?_, fun hhead => ?_⟩
  · rw [value_numeral_ten]
    rfl
  · exact absurd hhead (head_numeral_ne (by decide) (by decide) hn)

theorem parse_numeral (hn : n ≠ 0) : parse (numeral 10 n) = some (n : Int) := by
  have hdigits : ∀ c ∈ numeral 10 n, c ≠ 0x2D := by
    have hall : ∀ d : Fin 10, digitChar d ≠ 0x2D := by decide
    exact forall_mem_numeral (P := (· ≠ 0x2D)) (by decide) fun d hd => hall ⟨d, hd⟩
  have hvalue := value_numeral_ten n
  obtain ⟨c, rest, hcons⟩ := List.exists_cons_of_ne_nil (numeral_ne_nil (show 1 < 10 by decide) hn)
  rw [hcons] at hdigits hvalue ⊢
  unfold parse
  dsimp only
  rw [if_neg (hdigits c (List.mem_cons_self ..)), hvalue, Option.map_some]

theorem parse_minus (n : Nat) : parse ([0x2D] ++ numeral 10 n) = some (-(n : Int)) := by
  unfold parse
  rw [List.singleton_append]
  dsimp only
  rw [if_pos rfl, value_numeral_ten, Option.map_some]

theorem text_of_pos (hpos : 0 < num) : text negMin num = [] ++ numeral 10 num.toNat := by
  unfold text
  rw [if_neg (by omega), if_neg (by omega)]
  rfl

theorem text_of_neg (hneg : num < 0) : text negMin num = [0x2D] ++ numeral 10 (negated negMin num).toNat := by
  unfold text
  rw [if_neg (by omega), if_pos hneg]
  rfl

/-- A sign alone is no number. -/
theorem not_canonical_minus : ¬ Canonical [0x2D] := by
  rintro ⟨sign, digits, hsplit, hsign, hne, hvalue, -⟩
  cases hsign with
  | inl hs =>
    subst hs
    rw [List.nil_append] at hsplit
    subst hsplit
    exact absurd hvalue (by decide)
  | inr hs =>
    subst hs
    exact hne (List.append_right_eq_self.mp hsplit.symm)

/-- Of what the smallest number may be negated to, only its absolute value gives it. -/
theorem negMin_eq (hcanonical : Canonical (text negMin (-2 ^ 31)))
    (hparse : parse (text negMin (-2 ^ 31)) = some (-2 ^ 31)) : negMin = 2 ^ 31 := by
  rw [text_of_neg (by decide), negated, if_pos rfl] at hcanonical hparse
  by_cases hpos : 0 < negMin
  · rw [parse_minus, Option.some.injEq] at hparse
    omega
  · rw [Int.toNat_of_nonpos (by omega), numeral_zero] at hcanonical
    exact absurd hcanonical not_canonical_minus

theorem printed_iff (hlo : -2 ^ 31 ≤ num) (hhi : num < 2 ^ 31) (buffer : Memory) (t : Terminal) :
    Printed negMin num buffer t ↔ num ≠ -2 ^ 31 ∨ negMin = 2 ^ 31 := by
  constructor
  · rintro ⟨hcanonical, hparse, -⟩
    rw [sent_eq] at hcanonical hparse
    by_cases hmin : num = -2 ^ 31
    · subst hmin
      exact Or.inr (negMin_eq hcanonical hparse)
    · exact Or.inl hmin
  · intro hdefined
    have hinside : Memory.Spares (12 ≤ ·) buffer (writeint negMin Terminal.putchar num buffer t).1 :=
      writeint_spares hlo hhi hdefined buffer t
    obtain hneg | rfl | hpos := lt_trichotomy num 0
    · have hn : (-num).toNat ≠ 0 := by omega
      have htext : sent negMin num buffer = [0x2D] ++ numeral 10 (-num).toNat := by
        rw [sent_eq, text_of_neg hneg, negated_eq hdefined]
      refine ⟨htext ▸ canonical_numeral hn (.inr rfl), ?_, hinside⟩
      rw [htext, parse_minus, Int.toNat_of_nonneg (by omega), Int.neg_neg]
    · have htext : sent negMin 0 buffer = [0x30] := sent_eq negMin 0 buffer
      exact ⟨htext ▸ ⟨[], [0x30], rfl, .inl rfl, by decide, by decide, fun _ => rfl⟩, htext ▸ rfl, hinside⟩
    · have hn : num.toNat ≠ 0 := by omega
      have htext : sent negMin num buffer = [] ++ numeral 10 num.toNat := by rw [sent_eq, text_of_pos hpos]
      refine ⟨htext ▸ canonical_numeral hn (.inl rfl), ?_, hinside⟩
      rw [htext, List.nil_append, parse_numeral hn, Int.toNat_of_nonneg (by omega)]

/-- A number is sent in its one canonical way, whatever a build makes of the overflow, unless it
is the smallest there is; then in those builds that go on with its absolute value. -/
theorem writeint_canonical_iff (hlo : -2 ^ 31 ≤ num) (hhi : num < 2 ^ 31) (buffer : Memory) (t : Terminal) :
    (∀ negMin, (writeint negMin Terminal.putchar num buffer t).2 =
      (sent negMin num buffer).foldl Terminal.putchar t) ∧
    (∀ negMin, Printed negMin num buffer t ↔ num ≠ -2 ^ 31 ∨ negMin = 2 ^ 31) ∧
    ((∀ negMin, Printed negMin num buffer t) ↔ num ≠ -2 ^ 31) := by
  have hiff : ∀ negMin, Printed negMin num buffer t ↔ num ≠ -2 ^ 31 ∨ negMin = 2 ^ 31 := fun _ =>
    printed_iff hlo hhi buffer t
  refine ⟨fun negMin => sent_eq negMin num buffer ▸ writeint_eq negMin num buffer t, hiff, fun hall => ?_,
    fun hmin negMin => (hiff negMin).mpr (Or.inl hmin)⟩
  exact ((hiff 0).mp (hall 0)).resolve_right (by decide)

theorem writeint_canonical_iff_negative : (∀ negMin, Printed negMin (-32759) Memory.zero (blank 7)) ↔
    (-32759 : Int) ≠ -2 ^ 31 :=
  (writeint_canonical_iff (by decide) (by decide) Memory.zero (blank 7)).2.2

/-- Where the smallest number is its own negative, as on a machine that wraps, its sign is all
that is sent. -/
theorem writeint_min : sent (-2 ^ 31) (-2 ^ 31) Memory.zero = [0x2D] ∧
    ¬ ∀ negMin, Printed negMin (-2 ^ 31) Memory.zero (blank 7) := by
  have hsent : sent (-2 ^ 31) (-2 ^ 31) Memory.zero = [0x2D] := by
    rw [sent_eq, text_of_neg (by decide), negated, if_pos rfl, Int.toNat_of_nonpos (by decide), numeral_zero]
    rfl
  exact ⟨hsent, fun hall => not_canonical_minus (hsent ▸ (hall (-2 ^ 31)).canonical)⟩

end Terminal
end ShompOS
