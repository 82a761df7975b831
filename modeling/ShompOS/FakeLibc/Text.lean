import ShompOS.Heap.Cells
import Mathlib.Data.List.TakeWhile

/-! Strings (`string.c`).

A C string is the address of its first character. A loop over one runs until it
finds the terminating 0; a memory without one would keep it running for ever, and
a function that comes back round to where it started is `none`. `IsStr m a s` says
that the string at `a` is `s`. `strtok` keeps its place between calls in a static
variable, which is an argument and a result here. -/
namespace ShompOS
namespace Memory

def strlenFrom (m : Memory) : (fuel s len : Nat) → Option Nat
  | 0, _, _ => none
  | fuel + 1, s, len => if m.byte s = 0 then some len else strlenFrom m fuel (wrap (s + 1)) (len + 1)

/-- `strlen` -/
def strlen (m : Memory) (s : Nat) : Option Nat := strlenFrom m addressSpace s 0

def strcmpFrom (m : Memory) : (fuel s1 s2 : Nat) → Option Int
  | 0, _, _ => none
  | fuel + 1, s1, s2 =>
    if m.byte s1 ≠ 0 ∧ m.byte s1 = m.byte s2 then strcmpFrom m fuel (wrap (s1 + 1)) (wrap (s2 + 1))
    else some ((m.load8 s1 : Int) - m.load8 s2)

/-- `strcmp` -/
def strcmp (m : Memory) (s1 s2 : Nat) : Option Int := strcmpFrom m addressSpace s1 s2

def strchrFrom (m : Memory) (c : UInt8) : (fuel s : Nat) → Option Nat
  | 0, _ => none
  | fuel + 1, s =>
    if m.byte s ≠ 0 then
      if m.byte s = c then some s else strchrFrom m c fuel (wrap (s + 1))
    else if c = 0 then some s
    else some 0

/-- `strchr` -/
def strchr (m : Memory) (s : Nat) (c : UInt8) : Option Nat := strchrFrom m c addressSpace s

/-- The first loop of `strtok`. -/
def skipDelims (m : Memory) (delim : Nat) : (fuel last : Nat) → Option Nat
  | 0, _ => none
  | fuel + 1, last =>
    if m.byte last = 0 then some last
    else (m.strchr delim (m.byte last)).bind fun r =>
      if r ≠ 0 then skipDelims m delim fuel (wrap (last + 1)) else some last

/-- Its second loop. -/
def tokenEnd (m : Memory) (delim : Nat) : (fuel last : Nat) → Option Nat
  | 0, _ => none
  | fuel + 1, last =>
    if m.byte last = 0 then some last
    else (m.strchr delim (m.byte last)).bind fun r =>
      if r = 0 then tokenEnd m delim fuel (wrap (last + 1)) else some last

/-- `strtok`: the memory, `last` and the token. -/
def strtok (m : Memory) (last str delim : Nat) : Option (Memory × Nat × Nat) :=
  if str = 0 ∧ last = 0 then some (m, 0, 0)
  else
    let last := if str ≠ 0 then str else last
    (skipDelims m delim addressSpace last).bind fun last =>
      if m.byte last = 0 then some (m, 0, 0)
      else
        let token := last
        (tokenEnd m delim addressSpace last).bind fun last =>
          if m.byte last ≠ 0 then some (m.store8 last 0, wrap (last + 1), token) else some (m, 0, token)

/-! ### Strings in memory -/

/-- The string at `a` is `s`. -/
structure IsStr (m : Memory) (a : Nat) (s : List UInt8) : Prop where
  chars : ∀ i c, s[i]? = some c → m.byte (a + i) = c
  stop : m.byte (a + s.length) = 0
  text : 0 ∉ s
  room : a + s.length + 1 < addressSpace

variable {m m' : Memory} {a b : Nat} {s t : List UInt8} {c : UInt8}

theorem IsStr.congr (h : IsStr m a s) (hm : ∀ x, a ≤ x → x ≤ a + s.length → m'.byte x = m.byte x) : IsStr m' a s := by
  refine ⟨fun i c hi => ?_, (hm _ (by omega) (by omega)).trans h.stop, h.text, h.room⟩
  have hlt := (List.getElem?_eq_some_iff.mp hi).1
  exact (hm _ (by omega) (by omega)).trans (h.chars i c hi)

theorem IsStr.head (h : IsStr m a (c :: s)) : m.byte a = c ∧ c ≠ 0 :=
  ⟨h.chars 0 c rfl, fun hc => h.text (hc ▸ List.mem_cons_self ..)⟩

theorem IsStr.tail (h : IsStr m a (c :: s)) : IsStr m (a + 1) s := by
  have hroom := h.room
  have hstop := h.stop
  rw [List.length_cons] at hroom hstop
  refine ⟨fun i d hi => ?_, ?_, fun hs => h.text (List.mem_cons_of_mem _ hs), by omega⟩
  · rw [show a + 1 + i = a + (i + 1) by omega]
    exact h.chars (i + 1) d hi
  · rw [show a + 1 + s.length = a + (s.length + 1) by omega]
    exact hstop

theorem IsStr.stop_nil (h : IsStr m a []) : m.byte a = 0 := h.stop

/-- An empty string begins with its end. -/
theorem IsStr.byte_eq_zero_iff (h : IsStr m a s) : m.byte a = 0 ↔ s = [] := by
  cases s with
  | nil => exact ⟨fun _ => rfl, fun _ => h.stop_nil⟩
  | cons c s => exact ⟨fun h0 => absurd (h.head.1.symm.trans h0) h.head.2, fun h0 => nomatch h0⟩

theorem IsStr.step (h : IsStr m a (c :: s)) : wrap (a + 1) = a + 1 := by
  have hroom := h.room
  rw [List.length_cons] at hroom
  exact wrap_eq (by omega)

/-- What is left of a string is one. -/
theorem IsStr.drop (h : IsStr m a s) {k : Nat} (hk : k ≤ s.length) : IsStr m (a + k) (s.drop k) := by
  induction k generalizing a s with
  | zero => exact h
  | succ k ih =>
    cases s with
    | nil => exact absurd hk (Nat.not_succ_le_zero k)
    | cons c s =>
      rw [List.drop_succ_cons, show a + (k + 1) = a + 1 + k by omega]
      exact ih h.tail (Nat.le_of_succ_le_succ hk)

/-- A memory holds one string at an address. -/
theorem IsStr.unique (h : IsStr m a s) (h' : IsStr m a t) : s = t := by
  induction s generalizing a t with
  | nil =>
    cases t with
    | nil => rfl
    | cons d t => exact absurd (h'.head.1.symm.trans h.stop_nil) h'.head.2
  | cons c s ih =>
    cases t with
    | nil => exact absurd (h.head.1.symm.trans h'.stop_nil) h.head.2
    | cons d t => rw [ih h.tail h'.tail, h.head.1.symm.trans h'.head.1]

theorem strlenFrom_eq (h : IsStr m a s) {fuel : Nat} (hf : s.length < fuel) (len : Nat) :
    strlenFrom m fuel a len = some (len + s.length) := by
  induction s generalizing a fuel len with
  | nil =>
    obtain ⟨fuel, rfl⟩ := Nat.exists_eq_succ_of_ne_zero (Nat.ne_zero_of_lt hf)
    exact if_pos h.stop_nil
  | cons c s ih =>
    obtain ⟨fuel, rfl⟩ := Nat.exists_eq_succ_of_ne_zero (Nat.ne_zero_of_lt hf)
    obtain ⟨hbyte, hc⟩ := h.head
    rw [List.length_cons] at hf ⊢
    unfold strlenFrom
    rw [if_neg (by rw [hbyte]; exact hc), h.step, ih h.tail (by omega)]
    congr 1
    omega

theorem strlen_eq (h : IsStr m a s) : m.strlen a = some s.length := by
  have hroom := h.room
  unfold strlen
  rw [strlenFrom_eq h (by omega), Nat.zero_add]

/-- Against a string the comparison ends, whatever the other is. -/
theorem strcmpFrom_ends (h : IsStr m b t) {fuel : Nat} (hf : t.length < fuel) (a : Nat) :
    ∃ d, strcmpFrom m fuel a b = some d := by
  induction t generalizing a b fuel with
  | nil =>
    obtain ⟨fuel, rfl⟩ := Nat.exists_eq_succ_of_ne_zero (Nat.ne_zero_of_lt hf)
    refine ⟨_, if_neg fun ⟨h1, h2⟩ => h1 ?_⟩
    rw [h2]
    exact h.stop_nil
  | cons c t ih =>
    obtain ⟨fuel, rfl⟩ := Nat.exists_eq_succ_of_ne_zero (Nat.ne_zero_of_lt hf)
    rw [List.length_cons] at hf
    unfold strcmpFrom
    split
    · rw [h.step]
      exact ih h.tail (by omega) _
    · exact ⟨_, rfl⟩

theorem load8_sub_eq_zero_iff : ((m.load8 a : Int) - m.load8 b = 0) ↔ m.byte a = m.byte b := by
  unfold load8
  rw [← UInt8.toNat_inj]
  omega

theorem strcmpFrom_eq_zero (h : IsStr m a s) (h' : IsStr m b t) {fuel : Nat} (hf : t.length < fuel) {d : Int}
    (hd : strcmpFrom m fuel a b = some d) : d = 0 ↔ s = t := by
  induction s generalizing a b t fuel with
  | nil =>
    obtain ⟨fuel, rfl⟩ := Nat.exists_eq_succ_of_ne_zero (Nat.ne_zero_of_lt hf)
    unfold strcmpFrom at hd
    rw [if_neg (fun hne => hne.1 h.stop_nil), Option.some.injEq] at hd
    rw [← hd, load8_sub_eq_zero_iff, h.stop_nil]
    cases t with
    | nil => exact ⟨fun _ => rfl, fun _ => h'.stop_nil.symm⟩
    | cons c t => exact ⟨fun he => absurd (h'.head.1.symm.trans he.symm) h'.head.2, fun he => nomatch he⟩
  | cons c s ih =>
    obtain ⟨fuel, rfl⟩ := Nat.exists_eq_succ_of_ne_zero (Nat.ne_zero_of_lt hf)
    obtain ⟨hbyte, hc⟩ := h.head
    unfold strcmpFrom at hd
    cases t with
    | nil =>
      rw [h'.stop_nil, if_neg (fun hne => hne.1 hne.2), Option.some.injEq] at hd
      rw [← hd, load8_sub_eq_zero_iff, hbyte, h'.stop_nil]
      exact ⟨fun he => absurd he hc, fun he => nomatch he⟩
    | cons d t =>
      rw [List.length_cons] at hf
      by_cases hcd : c = d
      · rw [if_pos ⟨by rw [hbyte]; exact hc, by rw [hbyte, h'.head.1, hcd]⟩, h.step, h'.step] at hd
        rw [ih h.tail h'.tail (by omega) hd, hcd]
        exact ⟨fun he => he ▸ rfl, fun he => (List.cons.inj he).2⟩
      · rw [if_neg (fun hne => hcd (by rw [← hbyte, hne.2, h'.head.1])), Option.some.injEq] at hd
        rw [← hd, load8_sub_eq_zero_iff, hbyte, h'.head.1]
        exact ⟨fun he => absurd he hcd, fun he => (List.cons.inj he).1⟩

/-- `strcmp` is 0 on equal strings only. -/
theorem strcmp_eq (h : IsStr m a s) (h' : IsStr m b t) : ∃ d, m.strcmp a b = some d ∧ (d = 0 ↔ s = t) := by
  have hroom := h'.room
  obtain ⟨d, hd⟩ := strcmpFrom_ends h' (show t.length < addressSpace by omega) a
  exact ⟨d, hd, strcmpFrom_eq_zero h h' (by omega) hd⟩

theorem strcmp_ends (h : IsStr m b t) (a : Nat) : ∃ d, m.strcmp a b = some d := by
  have hroom := h.room
  exact strcmpFrom_ends h (by omega) a

theorem strchrFrom_eq (h : IsStr m a s) (hc : c ≠ 0) {fuel : Nat} (hf : s.length < fuel) :
    strchrFrom m c fuel a = some (if c ∈ s then a + s.idxOf c else 0) := by
  induction s generalizing a fuel with
  | nil =>
    obtain ⟨fuel, rfl⟩ := Nat.exists_eq_succ_of_ne_zero (Nat.ne_zero_of_lt hf)
    unfold strchrFrom
    rw [if_neg (not_not.mpr h.stop_nil), if_neg hc, if_neg List.not_mem_nil]
  | cons d s ih =>
    obtain ⟨fuel, rfl⟩ := Nat.exists_eq_succ_of_ne_zero (Nat.ne_zero_of_lt hf)
    obtain ⟨hbyte, hd⟩ := h.head
    rw [List.length_cons] at hf
    unfold strchrFrom
    rw [hbyte, if_pos hd]
    by_cases hdc : d = c
    · rw [if_pos hdc, hdc, if_pos (List.mem_cons_self ..), List.idxOf_cons_self, Nat.add_zero]
    · rw [if_neg hdc, h.step, ih h.tail (by omega), List.idxOf_cons_ne _ hdc]
      by_cases hin : c ∈ s
      · rw [if_pos hin, if_pos (List.mem_cons_of_mem _ hin)]
        congr 1
        omega
      · rw [if_neg hin, if_neg]
        intro hmem
        cases List.mem_cons.mp hmem with
        | inl he => exact hdc he.symm
        | inr hmem => exact hin hmem

theorem strchr_eq (h : IsStr m a s) (hc : c ≠ 0) :
    m.strchr a c = some (if c ∈ s then a + s.idxOf c else 0) := by
  have hroom := h.room
  exact strchrFrom_eq h hc (by omega)

/-! ### Tokens -/

section Tokens
variable {delim : Nat} {ds : List UInt8}

theorem IsStr.append_right (h : IsStr m a (s ++ t)) : IsStr m (a + s.length) t := by
  have hdrop := h.drop (k := s.length) (by rw [List.length_append]; omega)
  rwa [List.drop_left] at hdrop

/-- `strchr` tells whether a character of a string is a delimiter. -/
theorem strchr_delim (hd : IsStr m delim ds) (hpos : delim ≠ 0) {x : UInt8} (hx : x ≠ 0) :
    ∃ r, m.strchr delim x = some r ∧ (r = 0 ↔ x ∉ ds) := by
  refine ⟨_, strchr_eq hd hx, ?_⟩
  by_cases hin : x ∈ ds
  · rw [if_pos hin]
    exact iff_of_false (Nat.ne_of_gt (Nat.lt_of_lt_of_le (Nat.pos_of_ne_zero hpos) (Nat.le_add_right ..)))
      (not_not.mpr hin)
  · rw [if_neg hin]
    exact iff_of_true rfl hin

theorem skipDelims_eq (hd : IsStr m delim ds) (hpos : delim ≠ 0) (h : IsStr m a s) {fuel : Nat}
    (hf : s.length < fuel) : skipDelims m delim fuel a = some (a + (s.takeWhile (· ∈ ds)).length) := by
  induction s generalizing a fuel with
  | nil =>
    obtain ⟨fuel, rfl⟩ := Nat.exists_eq_succ_of_ne_zero (Nat.ne_zero_of_lt hf)
    exact if_pos h.stop_nil
  | cons x s ih =>
    obtain ⟨fuel, rfl⟩ := Nat.exists_eq_succ_of_ne_zero (Nat.ne_zero_of_lt hf)
    obtain ⟨hbyte, hx⟩ := h.head
    obtain ⟨r, hr, hiff⟩ := strchr_delim hd hpos hx
    rw [List.length_cons] at hf
    unfold skipDelims
    rw [hbyte, if_neg hx, hr, Option.bind_some]
    by_cases hin : x ∈ ds
    · rw [if_pos (fun hz => hiff.mp hz hin), h.step, ih h.tail (by omega),
        List.takeWhile_cons_of_pos (p := fun y => decide (y ∈ ds)) (decide_eq_true hin), List.length_cons]
      congr 1
      omega
    · rw [if_neg (not_not.mpr (hiff.mpr hin)), List.takeWhile_cons_of_neg (by simpa using hin)]
      rfl

theorem tokenEnd_eq (hd : IsStr m delim ds) (hpos : delim ≠ 0) (h : IsStr m a s) {fuel : Nat}
    (hf : s.length < fuel) : tokenEnd m delim fuel a = some (a + (s.takeWhile (· ∉ ds)).length) := by
  induction s generalizing a fuel with
  | nil =>
    obtain ⟨fuel, rfl⟩ := Nat.exists_eq_succ_of_ne_zero (Nat.ne_zero_of_lt hf)
    exact if_pos h.stop_nil
  | cons x s ih =>
    obtain ⟨fuel, rfl⟩ := Nat.exists_eq_succ_of_ne_zero (Nat.ne_zero_of_lt hf)
    obtain ⟨hbyte, hx⟩ := h.head
    obtain ⟨r, hr, hiff⟩ := strchr_delim hd hpos hx
    rw [List.length_cons] at hf
    unfold tokenEnd
    rw [hbyte, if_neg hx, hr, Option.bind_some]
    by_cases hin : x ∈ ds
    · rw [if_neg (fun hz => hiff.mp hz hin), List.takeWhile_cons_of_neg (by simpa using hin)]
      rfl
    · rw [if_pos (hiff.mpr hin), h.step, ih h.tail (by omega),
        List.takeWhile_cons_of_pos (by simpa using hin), List.length_cons]
      congr 1
      omega

variable {str last : Nat}

/-- From `a` on there are only delimiters. -/
theorem strtok_end (hd : IsStr m delim ds) (hpos : delim ≠ 0) (h : IsStr m a s)
    (ha : (if str ≠ 0 then str else last) = a) (hne : a ≠ 0) (hs : ∀ x ∈ s, x ∈ ds) :
    m.strtok last str delim = some (m, 0, 0) := by
  have hroom := h.room
  have hall : s.takeWhile (· ∈ ds) = s := List.takeWhile_eq_self_iff.mpr fun x hx => decide_eq_true (hs x hx)
  have hgo : ¬ (str = 0 ∧ last = 0) := by
    rintro ⟨h1, h2⟩
    rw [if_neg (not_not.mpr h1)] at ha
    omega
  unfold strtok
  rw [if_neg hgo, ha]
  dsimp only
  rw [skipDelims_eq hd hpos h (by omega), Option.bind_some, hall, if_pos h.stop]

/-- The next token is found behind the delimiters; the delimiter after it, if
there is one, is overwritten. -/
theorem strtok_token (hd : IsStr m delim ds) (hpos : delim ≠ 0) {pre tok rest : List UInt8}
    (h : IsStr m a (pre ++ (tok ++ rest))) (ha : (if str ≠ 0 then str else last) = a) (hne : a ≠ 0)
    (hpre : ∀ x ∈ pre, x ∈ ds) (htok : ∀ x ∈ tok, x ∉ ds) (htok_ne : tok ≠ [])
    (hrest : ∀ x ∈ rest.head?, x ∈ ds) :
    m.strtok last str delim =
      if rest = [] then some (m, 0, a + pre.length)
      else some (m.store8 (a + pre.length + tok.length) 0, a + pre.length + tok.length + 1, a + pre.length) := by
  have hroom := h.room
  simp only [List.length_append] at hroom
  have hgo : ¬ (str = 0 ∧ last = 0) := by
    rintro ⟨h1, h2⟩
    rw [if_neg (not_not.mpr h1)] at ha
    omega
  have hskip : (pre ++ (tok ++ rest)).takeWhile (· ∈ ds) = pre := by
    rw [List.takeWhile_append_of_pos (fun x hx => decide_eq_true (hpre x hx))]
    cases tok with
    | nil => exact absurd rfl htok_ne
    | cons x tok =>
      rw [List.cons_append, List.takeWhile_cons_of_neg (by simpa using htok x (List.mem_cons_self ..)),
        List.append_nil]
  have hspan : (tok ++ rest).takeWhile (· ∉ ds) = tok := by
    rw [List.takeWhile_append_of_pos (fun x hx => decide_eq_true (htok x hx))]
    cases rest with
    | nil => rw [List.takeWhile_nil, List.append_nil]
    | cons x rest => rw [List.takeWhile_cons_of_neg (by simpa using hrest x rfl), List.append_nil]
  have htail := h.append_right
  unfold strtok
  rw [if_neg hgo, ha]
  dsimp only
  rw [skipDelims_eq hd hpos h (by simp only [List.length_append]; omega), Option.bind_some, hskip]
  -- at a token
  have hstart : m.byte (a + pre.length) ≠ 0 := by
    cases tok with
    | nil => exact absurd rfl htok_ne
    | cons x tok =>
      rw [htail.head.1]
      exact htail.head.2
  rw [if_neg hstart, tokenEnd_eq hd hpos htail (by simp only [List.length_append]; omega), Option.bind_some, hspan]
  cases rest with
  | nil =>
    have hstop := htail.append_right.stop_nil
    rw [if_neg (not_not.mpr hstop), if_pos rfl]
  | cons x rest =>
    obtain ⟨hbyte, hx⟩ := htail.append_right.head
    rw [if_pos (by rw [hbyte]; exact hx), if_neg (List.cons_ne_nil _ _), htail.append_right.step]

/-- The pieces of a string between delimiters. -/
def tokens (c : UInt8) (s : List UInt8) : List (List UInt8) :=
  if s.dropWhile (· = c) = [] then []
  else (s.dropWhile (· = c)).takeWhile (· ≠ c) :: tokens c ((s.dropWhile (· = c)).dropWhile (· ≠ c))
termination_by s.length
decreasing_by
  rename_i h
  have hle := (List.dropWhile_suffix (l := s) (fun x => decide (x = c))).length_le
  generalize hd : s.dropWhile (fun x => decide (x = c)) = t at *
  cases t with
  | nil => exact absurd rfl h
  | cons x t =>
    have hx : ¬ x = c := by
      have := List.head_dropWhile_not (fun x => decide (x = c)) (l := s) (by rw [hd]; simp)
      simpa [hd] using this
    rw [List.dropWhile_cons_of_pos (by simpa using hx)]
    have := (List.dropWhile_suffix (l := t) (fun x => decide (x ≠ c))).length_le
    rw [List.length_cons] at hle
    omega

/-- A string is cut at the first `c` of it. -/
theorem cut_append {pre : List UInt8} (h : c ∉ pre) (rest : List UInt8) :
    (pre ++ c :: rest).takeWhile (· ≠ c) = pre ∧ ((pre ++ c :: rest).dropWhile (· ≠ c)).tail = rest := by
  have hne : ∀ x ∈ pre, decide (x ≠ c) = true := fun x hx => decide_eq_true fun he => h (he ▸ hx)
  rw [List.takeWhile_append_of_pos hne, List.takeWhile_cons_of_neg (by simp), List.append_nil,
    List.dropWhile_append_of_pos hne, List.dropWhile_cons_of_neg (by simp), List.tail_cons]
  exact ⟨rfl, rfl⟩

theorem tokens_append {pre tok rest : List UInt8} (hpre : ∀ x ∈ pre, x = c) (htok : ∀ x ∈ tok, x ≠ c)
    (htok_ne : tok ≠ [])
    (hrest : ∀ x ∈ rest.head?, x = c) : tokens c (pre ++ (tok ++ rest)) = tok :: tokens c rest := by
  have hskip : (pre ++ (tok ++ rest)).dropWhile (· = c) = tok ++ rest := by
    rw [List.dropWhile_append_of_pos (fun x hx => decide_eq_true (hpre x hx))]
    cases tok with
    | nil => exact absurd rfl htok_ne
    | cons x tok => rw [List.cons_append, List.dropWhile_cons_of_neg (by simpa using htok x (List.mem_cons_self ..))]
  have hspan : (tok ++ rest).takeWhile (· ≠ c) = tok ∧ (tok ++ rest).dropWhile (· ≠ c) = rest := by
    rw [List.takeWhile_append_of_pos (fun x hx => decide_eq_true (htok x hx)),
      List.dropWhile_append_of_pos (fun x hx => decide_eq_true (htok x hx))]
    cases rest with
    | nil => exact ⟨List.append_nil _, rfl⟩
    | cons x rest =>
      rw [List.takeWhile_cons_of_neg (by simpa using hrest x rfl), List.dropWhile_cons_of_neg
        (by simpa using hrest x rfl)]
      exact ⟨List.append_nil _, rfl⟩
  rw [tokens, hskip, if_neg (List.append_ne_nil_of_left_ne_nil htok_ne _), hspan.1, hspan.2]

theorem tokens_cons (c : UInt8) (s : List UInt8) : tokens c (c :: s) = tokens c s := by
  conv_lhs => rw [tokens]
  conv_rhs => rw [tokens]
  rw [List.dropWhile_cons_of_pos (by simp)]

/-- A string is delimiters, or delimiters and a token and what follows. -/
theorem tokens_cases (c : UInt8) (s : List UInt8) :
    (s.dropWhile (· = c) = [] ∧ tokens c s = []) ∨
      ∃ pre tok rest, s = pre ++ (tok ++ rest) ∧ (∀ x ∈ pre, x = c) ∧ (∀ x ∈ tok, x ≠ c) ∧ tok ≠ [] ∧
        (∀ x ∈ rest.head?, x = c) ∧ tokens c s = tok :: tokens c rest := by
  by_cases h : s.dropWhile (· = c) = []
  · left
    rw [tokens, if_pos h]
    exact ⟨h, rfl⟩
  · right
    refine ⟨s.takeWhile (· = c), (s.dropWhile (· = c)).takeWhile (· ≠ c), (s.dropWhile (· = c)).dropWhile (· ≠ c),
      ?_, fun x hx => ?_, fun x hx => ?_, ?_, ?_, ?_⟩
    · rw [List.takeWhile_append_dropWhile, List.takeWhile_append_dropWhile]
    · simpa using List.mem_takeWhile_imp hx
    · simpa using List.mem_takeWhile_imp hx
    · have hhead := List.head_dropWhile_not (fun x => decide (x = c)) h
      generalize s.dropWhile (fun x => decide (x = c)) = t at *
      cases t with
      | nil => exact absurd rfl h
      | cons x t =>
        have hx : x ≠ c := of_decide_eq_false hhead
        rw [List.takeWhile_cons_of_pos (p := fun x => decide (x ≠ c)) (decide_eq_true hx)]
        exact List.cons_ne_nil _ _
    · intro x hx
      have := List.head?_dropWhile_not (fun x => decide (x ≠ c)) (s.dropWhile (fun x => decide (x = c)))
      rw [hx] at this
      simpa using this
    · rw [tokens, if_neg h]

/-- What is in front of a character that is overwritten with a 0 is a string, and
so is what is behind it. -/
theorem IsStr.cut (h : IsStr m a (s ++ c :: t)) :
    IsStr (m.store8 (a + s.length) 0) a s ∧ IsStr (m.store8 (a + s.length) 0) (a + s.length + 1) t := by
  have hroom := h.room
  have htail := h.append_right.tail
  rw [List.length_append, List.length_cons] at hroom
  refine ⟨⟨fun i d hi => ?_, ?_, fun h0 => h.text (List.mem_append_left _ h0), by omega⟩, htail.congr fun x h1 h2 => ?_⟩
  · have hlt := (List.getElem?_eq_some_iff.mp hi).1
    rw [byte_store8, if_neg (by omega)]
    apply h.chars
    rw [List.getElem?_append_left hlt]
    exact hi
  · rw [byte_store8, if_pos rfl]
    rfl
  · rw [byte_store8, if_neg (by omega)]

/-- One call of `strtok`. -/
theorem strtok_next (hd : IsStr m delim [c]) (hpos : delim ≠ 0) (h : IsStr m a s)
    (ha : (if str ≠ 0 then str else last) = a) (hne : a ≠ 0) :
    (tokens c s = [] ∧ m.strtok last str delim = some (m, 0, 0)) ∨
    ∃ tok rest token, tokens c s = tok :: tokens c rest ∧ token ≠ 0 ∧
      ((rest = [] ∧ m.strtok last str delim = some (m, 0, token) ∧ IsStr m token tok) ∨
      ∃ b, a ≤ b ∧ b + 1 + rest.length = a + s.length ∧ m.strtok last str delim = some (m.store8 b 0, b + 1, token) ∧
        IsStr (m.store8 b 0) token tok ∧ IsStr (m.store8 b 0) (b + 1) rest) := by
  cases tokens_cases c s with
  | inl hend =>
    have hall : ∀ x ∈ s, x ∈ [c] := by
      intro x hx
      rw [List.mem_singleton]
      simpa using List.dropWhile_eq_nil_iff.mp hend.1 x hx
    exact Or.inl ⟨hend.2, strtok_end hd hpos h ha hne hall⟩
  | inr htok =>
    right
    obtain ⟨pre, tok, rest, rfl, hpre, htok, htok_ne, hrest, htokens⟩ := htok
    have hcall := strtok_token hd hpos h ha hne (fun x hx => List.mem_singleton.mpr (hpre x hx))
      (fun x hx hc => htok x hx (List.mem_singleton.mp hc)) htok_ne fun x hx => List.mem_singleton.mpr (hrest x hx)
    cases rest with
    | nil =>
      rw [if_pos rfl] at hcall
      have hstr := h.append_right
      rw [List.append_nil] at hstr
      exact ⟨tok, [], a + pre.length, htokens, by omega, Or.inl ⟨rfl, hcall, hstr⟩⟩
    | cons x rest =>
      rw [if_neg (List.cons_ne_nil _ _)] at hcall
      obtain rfl : x = c := hrest x rfl
      obtain ⟨h1, h2⟩ := h.append_right.cut
      rw [tokens_cons] at htokens
      refine ⟨tok, rest, a + pre.length, htokens, by omega, Or.inr ⟨a + pre.length + tok.length, by omega, ?_, hcall, h1, h2⟩⟩
      simp only [List.length_append, List.length_cons]
      omega

end Tokens

end Memory

open Memory

/-- `strdup`; its loops are those of `strlen` and `memcpy`. -/
def Heap.strdup (L : Layout) (h : Heap) (s : Nat) : Option (Heap × Nat) :=
  (h.mem.strlen s).bind fun len =>
    (h.allocate L (wrap (len + 1))).bind fun (h, copy) =>
      if copy = 0 then some (h, 0)
      else some ((h.memcpy copy s len).setByte (wrap (copy + len)) 0, copy)

/-- The characters of a literal. -/
def ascii (s : String) : List UInt8 := s.toList.map fun c => .ofNat c.toNat

/-- The characters of a string are its bytes, and the 0 is what is there beyond them. -/
theorem Memory.IsStr.of_getD {m : Memory} {a : Nat} {text : List UInt8}
    (hbyte : ∀ i, i ≤ text.length → m.byte (a + i) = text.getD i 0)
    (h0 : 0 ∉ text) (hroom : a + text.length + 1 < addressSpace) : IsStr m a text := by
  refine ⟨fun i c hi => ?_, ?_, h0, hroom⟩
  · rw [hbyte i (Nat.le_of_lt (List.getElem?_eq_some_iff.mp hi).1), List.getD_eq_getElem?_getD, hi]
    rfl
  · rw [hbyte _ (Nat.le_refl _), List.getD_eq_default _ _ (Nat.le_refl _)]

/-- A memory with a string in it. -/
def ofText (a : Nat) (text : List UInt8) : Memory := ⟨fun x => if a ≤ x then text.getD (x - a) 0 else 0, []⟩

theorem isStr_ofText {a : Nat} {text : List UInt8} (h0 : 0 ∉ text) (hroom : a + text.length + 1 < addressSpace) :
    IsStr (ofText a text) a text := by
  apply IsStr.of_getD _ h0 hroom
  intro i _
  unfold ofText
  dsimp only
  rw [if_pos (Nat.le_add_right a i), Nat.add_sub_cancel_left]

section Strdup
variable {L : Layout} {S : Nat → UInt8} {P : Pool} {h : Heap} {cs : List Cell} {s : Nat} {text : List UInt8}

/-- A string that the caller has lent. -/
structure LentStr (L : Layout) (cs : List Cell) (m : Memory) (s : Nat) (text : List UInt8) : Prop where
  str : IsStr m s text
  lent : ∀ i, i ≤ text.length → Lent L cs (s + i)

theorem LentStr.congr {h' : Heap} {P' : Pool} {cs' F : List Cell} (hs : LentStr L F h.mem s text)
    (ho : Owns L S P h cs) (ho' : Owns L S P' h' cs') (hF : F ⊆ cs) (hF' : F ⊆ cs') : LentStr L F h'.mem s text := by
  refine ⟨hs.str.congr fun x h1 h2 => ?_, hs.lent⟩
  obtain ⟨i, rfl⟩ := Nat.exists_eq_add_of_le h1
  exact ho.lent_eq ho' hF hF' (hs.lent i (by omega))

theorem Lent.mono {F : List Cell} {x : Nat} (h : Lent L F x) (hF : F ⊆ cs) : Lent L cs x := by
  cases h with
  | inl h => exact Or.inl h
  | inr h =>
    obtain ⟨p, bs, hp, hx⟩ := h
    exact Or.inr ⟨p, bs, hF hp, hx⟩

theorem LentStr.mono {F : List Cell} {m : Memory} (h : LentStr L F m s text) (hF : F ⊆ cs) : LentStr L cs m s text :=
  ⟨h.str, fun i hi => (h.lent i hi).mono hF⟩

/-- The copy is a new cell, if there is memory for it. -/
theorem Owns.strdup (ho : Owns L S P h cs) (hs : LentStr L cs h.mem s text) :
    ∃ h', h.strdup L s = some (h', (P.allocate (text.length + 1)).2) ∧
      ((P.allocate (text.length + 1)).2 = 0 → (P.allocate (text.length + 1)).1 = P ∧ Owns L S P h' cs) ∧
      ((P.allocate (text.length + 1)).2 ≠ 0 → Owns L S (P.allocate (text.length + 1)).1 h'
        (((P.allocate (text.length + 1)).2, .bytes (text ++ [0])) :: cs)) := by
  have hroom := hs.str.room
  obtain ⟨h₁, hcall, hzero, hnew⟩ := ho.allocate (text.length + 1)
  unfold Heap.strdup
  rw [strlen_eq hs.str, Option.bind_some, wrap_eq (by omega), hcall, Option.bind_some]
  dsimp only
  by_cases hz : (P.allocate (text.length + 1)).2 = 0
  · rw [if_pos hz, hz]
    exact ⟨h₁, rfl, fun _ => hzero hz, fun hne => absurd rfl hne⟩
  rw [if_neg hz]
  refine ⟨_, rfl, fun h0 => absurd h0 hz, fun _ => ?_⟩
  generalize hp : (P.allocate (text.length + 1)).2 = p at *
  obtain ⟨junk, hlen, hjunk⟩ := Contents.exists_bytes h₁.mem p (text.length + 1)
  have ho₁ := hnew hz (.bytes junk) (Nat.le_of_eq hlen) hjunk
  -- the string is where it was, and not in the new cell
  have hsub : cs ⊆ (p, Contents.bytes junk) :: cs := List.subset_cons_self _ _
  have hchars : ∀ i b, text[i]? = some b → h₁.mem.byte (s + i) = b := by
    intro i b hi
    have hlt := (List.getElem?_eq_some_iff.mp hi).1
    rw [ho.lent_eq ho₁ (List.Subset.refl _) hsub (hs.lent i (by omega))]
    exact hs.str.chars i b hi
  have hcopied := ho₁.memcpyBytes 0 rfl (d := 0) (by omega) hchars (by omega) fun i hi =>
    ho₁.lent_outside hsub (hs.lent i (by omega)) (List.mem_cons_self ..) ho₁.fresh
  have hlast : ∃ x, junk.drop text.length = [x] :=
    List.length_eq_one_iff.mp (by rw [List.length_drop]; omega)
  obtain ⟨x, hx⟩ := hlast
  rw [Nat.zero_add, hx, List.take_zero, List.nil_append] at hcopied
  have hended := hcopied.setByte 0 rfl (i := text.length) (v := 0)
    (by rw [List.length_append]; exact Nat.lt_succ_self _)
  rw [List.set_append_right _ _ (Nat.le_refl _), Nat.sub_self] at hended
  exact hended

/-- A string literal of the kernel image. -/
structure Literal (L : Layout) (m : Memory) (s : Nat) (text : List UInt8) : Prop where
  ne_zero : s ≠ 0
  str : IsStr m s text
  static : ∀ i, i ≤ text.length → L.Static (s + i)

theorem Literal.lent {m : Memory} (h : Literal L m s text) (cs : List Cell) : LentStr L cs m s text :=
  ⟨h.str, fun i hi => Or.inl (h.static i hi)⟩

end Strdup
end ShompOS
