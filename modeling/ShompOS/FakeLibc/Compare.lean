import ShompOS.FakeLibc.Text

/-! Comparing the first characters of two strings (`strncmp`, `string.c`).

The loop counts `n` down in its condition, so it is one less behind the loop than
the characters that were left, and where none was left it has gone round to
`2 ^ 32 - 1`. The two tests behind the loop take it for the number of characters
that may still be compared. -/
namespace ShompOS
namespace Memory

/-- The loop of `strncmp`: the value returned from it, or `n` and the two pointers behind it. -/
def strncmpLoop (m : Memory) : (fuel n s1 s2 : Nat) → Option (Int ⊕ Nat × Nat × Nat)
  | 0, _, _, _ => none
  | fuel + 1, n, s1, s2 =>
    let more := n > 0
    let n := wrap (n + (addressSpace - 1))
    if more ∧ m.byte s1 ≠ 0 ∧ m.byte s2 ≠ 0 then
      if m.byte s1 ≠ m.byte s2 then some (.inl ((m.load8 s1 : Int) - m.load8 s2))
      else strncmpLoop m fuel n (wrap (s1 + 1)) (wrap (s2 + 1))
    else some (.inr (n, s1, s2))

/-- `strncmp` -/
def strncmp (m : Memory) (s1 s2 n : Nat) : Option Int :=
  if n = 0 then some 0
  else (strncmpLoop m addressSpace n s1 s2).map fun
    | .inl d => d
    | .inr (n, s1, s2) =>
      if n > 0 then
        if m.byte s1 ≠ 0 then 1
        else if m.byte s2 ≠ 0 then -1
        else 0
      else 0

/-! ### Characters by their positions -/

variable {m : Memory} {a b n : Nat} {s t : List UInt8} {c d : UInt8} {r : Int}

/-- The character at a position; 0 from the end of the string on. -/
def charAt (s : List UInt8) (i : Nat) : UInt8 := s.getD i 0

/-- What `strncmp` is to return: the sign of the first difference among the first `n` characters. -/
structure Compares (n : Nat) (s t : List UInt8) (r : Int) : Prop where
  same : r = 0 ↔ ∀ i, i < n → charAt s i = charAt t i
  differ : ∀ i, i < n → (∀ j, j < i → charAt s j = charAt t j) → charAt s i ≠ charAt t i →
    (r < 0 ↔ charAt s i < charAt t i) ∧ (0 < r ↔ charAt t i < charAt s i)

/-- All characters before the last that counts are the same, and neither string ends before it.
Then just one string ends at that character, or it is the same too and one string goes on. -/
structure Missed (n : Nat) (s t : List UInt8) : Prop where
  pos : 0 < n
  before : ∀ i, i + 1 < n → charAt s i = charAt t i ∧ charAt s i ≠ 0
  last : (charAt s (n - 1) = 0 ∧ charAt t (n - 1) ≠ 0) ∨ (charAt s (n - 1) ≠ 0 ∧ charAt t (n - 1) = 0) ∨
    (charAt s (n - 1) = charAt t (n - 1) ∧ charAt s (n - 1) ≠ 0 ∧ (charAt s n ≠ 0 ∨ charAt t n ≠ 0))

/-- What `strncmp` returns, by the characters. -/
def outcome : (n : Nat) → (s t : List UInt8) → Int
  | 0, s, t => if s ≠ [] then 1 else if t ≠ [] then -1 else 0
  | n + 1, c :: s, d :: t => if c ≠ d then (c.toNat : Int) - d.toNat else outcome n s t
  | n + 1, s, t => if n > 0 then if s ≠ [] then 1 else if t ≠ [] then -1 else 0 else 0

/-! ### The loop -/

/-- Behind the loop. -/
def afterLoop (m : Memory) : Int ⊕ Nat × Nat × Nat → Int
  | .inl d => d
  | .inr (n, s1, s2) => if n > 0 then if m.byte s1 ≠ 0 then 1 else if m.byte s2 ≠ 0 then -1 else 0 else 0

theorem afterLoop_inr (h : IsStr m a s) (h' : IsStr m b t) (n : Nat) :
    afterLoop m (.inr (n, a, b)) = if n > 0 then if s ≠ [] then 1 else if t ≠ [] then -1 else 0 else 0 := by
  unfold afterLoop
  simp only [ne_eq, h.byte_eq_zero_iff, h'.byte_eq_zero_iff]

/-- Where the limit is reached the counter is at its largest value. -/
theorem strncmpLoop_eq (h : IsStr m a s) (h' : IsStr m b t) {fuel : Nat} (hf : s.length < fuel)
    (hn : n < addressSpace) :
    (strncmpLoop m fuel n a b).map (afterLoop m) = some (outcome n s t) := by
  induction n generalizing a b s t fuel with
  | zero =>
    obtain ⟨fuel, rfl⟩ := Nat.exists_eq_succ_of_ne_zero (Nat.ne_zero_of_lt hf)
    unfold strncmpLoop
    rw [if_neg (fun hmore => absurd hmore.1 (Nat.lt_irrefl 0))]
    exact congrArg some (afterLoop_inr h h' _)
  | succ n ih =>
    obtain ⟨fuel, rfl⟩ := Nat.exists_eq_succ_of_ne_zero (Nat.ne_zero_of_lt hf)
    have hcount : wrap (n + 1 + (addressSpace - 1)) = n := wrap_sub (Nat.succ_pos n) hn
    unfold strncmpLoop
    dsimp only
    rw [hcount]
    cases s with
    | nil =>
      rw [if_neg (fun hmore => hmore.2.1 h.stop_nil)]
      exact congrArg some (afterLoop_inr h h' n)
    | cons c s =>
      cases t with
      | nil =>
        rw [if_neg (fun hmore => hmore.2.2 h'.stop_nil)]
        exact congrArg some (afterLoop_inr h h' n)
      | cons d t =>
        have hc := h.head
        have hd := h'.head
        rw [if_pos ⟨Nat.succ_pos n, by rw [hc.1]; exact hc.2, by rw [hd.1]; exact hd.2⟩, hc.1, hd.1]
        unfold outcome
        by_cases hcd : c ≠ d
        · rw [if_pos hcd, if_pos hcd]
          unfold load8
          rw [hc.1, hd.1]
          rfl
        · rw [if_neg hcd, if_neg hcd, h.step, h'.step]
          exact ih h.tail h'.tail (Nat.lt_of_succ_lt_succ hf) (by omega)

theorem strncmp_eq (h : IsStr m a s) (h' : IsStr m b t) (hn : n < addressSpace) :
    m.strncmp a b n = some (if n = 0 then 0 else outcome n s t) := by
  have hroom := h.room
  unfold strncmp
  by_cases h0 : n = 0
  · rw [if_pos h0, if_pos h0]
  · rw [if_neg h0, if_neg h0]
    exact strncmpLoop_eq h h' (by omega) hn

/-! ### What is returned -/

theorem charAt_zero (c : UInt8) (s : List UInt8) : charAt (c :: s) 0 = c := rfl

theorem charAt_zero_eq_zero_iff (h0 : 0 ∉ s) : charAt s 0 = 0 ↔ s = [] := by
  cases s with
  | nil => exact iff_of_true rfl rfl
  | cons c s => exact iff_of_false (fun hc => h0 (hc ▸ List.mem_cons_self ..)) (List.cons_ne_nil c s)

/-- A first character that both have decides nothing. -/
theorem compares_cons (c : UInt8) (n : Nat) (s t : List UInt8) (r : Int) :
    Compares (n + 1) (c :: s) (c :: t) r ↔ Compares n s t r := by
  have hsame : (∀ i, i < n + 1 → charAt (c :: s) i = charAt (c :: t) i) ↔ ∀ i, i < n → charAt s i = charAt t i := by
    constructor
    · exact fun h i hi => h (i + 1) (Nat.succ_lt_succ hi)
    · intro h i hi
      cases i with
      | zero => rfl
      | succ i => exact h i (Nat.lt_of_succ_lt_succ hi)
  constructor
  · intro h
    refine ⟨h.same.trans hsame, fun i hi hbefore hne => ?_⟩
    apply h.differ (i + 1) (Nat.succ_lt_succ hi) _ hne
    intro j hj
    cases j with
    | zero => rfl
    | succ j => exact hbefore j (Nat.lt_of_succ_lt_succ hj)
  · intro h
    refine ⟨h.same.trans hsame.symm, fun i hi hbefore hne => ?_⟩
    cases i with
    | zero => exact absurd rfl hne
    | succ i => exact h.differ i (Nat.lt_of_succ_lt_succ hi) (fun j hj => hbefore (j + 1) (Nat.succ_lt_succ hj)) hne

/-- A first difference at the first character decides everything. -/
theorem compares_of_ne (hne : charAt s 0 ≠ charAt t 0) :
    Compares (n + 1) s t r ↔ (r < 0 ↔ charAt s 0 < charAt t 0) ∧ (0 < r ↔ charAt t 0 < charAt s 0) := by
  constructor
  · exact fun h => h.differ 0 (Nat.succ_pos n) (fun j hj => absurd hj (Nat.not_lt_zero j)) hne
  · intro h
    have hlt := UInt8.lt_or_lt_of_ne hne
    refine ⟨iff_of_false (fun hr => ?_) fun hall => hne (hall 0 (Nat.succ_pos n)), fun i hi hbefore hdiff => ?_⟩
    · cases hlt with
      | inl hlt => have := h.1.mpr hlt; omega
      | inr hlt => have := h.2.mpr hlt; omega
    · cases i with
      | zero => exact h
      | succ i => exact absurd (hbefore 0 (Nat.succ_pos i)) hne

/-- Where no character counts, only 0 is right. -/
theorem compares_zero (s t : List UInt8) (r : Int) : Compares 0 s t r ↔ r = 0 := by
  constructor
  · exact fun h => h.same.mpr fun i hi => absurd hi (Nat.not_lt_zero i)
  · intro hr
    exact ⟨iff_of_true hr fun i hi => absurd hi (Nat.not_lt_zero i), fun i hi => absurd hi (Nat.not_lt_zero i)⟩

/-- The condition moves along with the strings while at least two characters count. -/
theorem missed_cons (hc : 0 ≠ c) (n : Nat) (s t : List UInt8) :
    Missed (n + 2) (c :: s) (c :: t) ↔ Missed (n + 1) s t := by
  constructor
  · intro h
    exact ⟨Nat.succ_pos n, fun i hi => h.before (i + 1) (Nat.succ_lt_succ hi), h.last⟩
  · intro h
    refine ⟨Nat.succ_pos _, fun i hi => ?_, h.last⟩
    cases i with
    | zero => exact ⟨rfl, hc.symm⟩
    | succ i => exact h.before i (Nat.lt_of_succ_lt_succ hi)

theorem missed_one_cons (hc : 0 ≠ c) (h0 : 0 ∉ s) (h0' : 0 ∉ t) :
    Missed 1 (c :: s) (c :: t) ↔ ¬ (s = [] ∧ t = []) := by
  rw [← charAt_zero_eq_zero_iff h0, ← charAt_zero_eq_zero_iff h0']
  constructor
  · intro h hends
    cases h.last with
    | inl hs => exact hc hs.1.symm
    | inr h =>
      cases h with
      | inl ht => exact hc ht.2.symm
      | inr hboth => exact hboth.2.2.elim (fun hs => hs hends.1) fun ht => ht hends.2
  · intro hgoes
    refine ⟨Nat.succ_pos 0, fun i hi => absurd hi (by omega), .inr (.inr ⟨rfl, hc.symm, ?_⟩)⟩
    exact Decidable.not_and_iff_or_not.mp hgoes

/-- With more than one character to go, a first difference is not missed. -/
theorem not_missed_of_ne (hne : charAt s 0 ≠ charAt t 0) (n : Nat) : ¬ Missed (n + 2) s t :=
  fun h => hne (h.before 0 (Nat.succ_lt_succ (Nat.succ_pos n))).1

/-- Nor is one between two characters, the last that counts included. -/
theorem not_missed_of_differ (hcd : c ≠ d) (hc : 0 ≠ c) (hd : 0 ≠ d) (n : Nat) :
    ¬ Missed (n + 1) (c :: s) (d :: t) := by
  cases n with
  | succ n =>
    have hne : charAt (c :: s) 0 ≠ charAt (d :: t) 0 := hcd
    exact not_missed_of_ne hne n
  | zero =>
    intro h
    cases h.last with
    | inl hs => exact hc hs.1.symm
    | inr h =>
      cases h with
      | inl ht => exact hd ht.2.symm
      | inr hsame => exact hcd hsame.1

theorem outcome_zero_eq_zero_iff (s t : List UInt8) : outcome 0 s t = 0 ↔ s = [] ∧ t = [] := by
  unfold outcome
  cases s <;> cases t <;> simp

/-- A string that goes on is the larger one. -/
theorem outcome_zero_sign (h0 : 0 ∉ s) (h0' : 0 ∉ t) (h : s = [] ∨ t = []) (hboth : ¬ (s = [] ∧ t = [])) :
    (outcome 0 s t < 0 ↔ charAt s 0 < charAt t 0) ∧ (0 < outcome 0 s t ↔ charAt t 0 < charAt s 0) := by
  cases s with
  | nil =>
    cases t with
    | nil => exact absurd ⟨rfl, rfl⟩ hboth
    | cons d t =>
      have hd : (0 : UInt8) < d := UInt8.pos_iff_ne_zero.mpr fun hd => h0' (hd ▸ List.mem_cons_self ..)
      exact ⟨iff_of_true (by simp [outcome]) hd, iff_of_false (by simp [outcome]) (UInt8.lt_asymm hd)⟩
  | cons c s =>
    have ht : t = [] := h.resolve_left (List.cons_ne_nil c s)
    subst ht
    have hc : (0 : UInt8) < c := UInt8.pos_iff_ne_zero.mpr fun hc => h0 (hc ▸ List.mem_cons_self ..)
    exact ⟨iff_of_false (by simp [outcome]) (UInt8.lt_asymm hc), iff_of_true (by simp [outcome]) hc⟩

theorem outcome_of_ends (h : s = [] ∨ t = []) (n : Nat) :
    outcome (n + 1) s t = if n > 0 then outcome 0 s t else 0 := by
  cases h with
  | inl hs => subst hs; rfl
  | inr ht => subst ht; cases s <;> rfl

theorem not_missed_nil (n : Nat) : ¬ Missed (n + 1) [] [] := by
  intro h
  cases h.last with
  | inl hs => exact hs.2 rfl
  | inr h =>
    cases h with
    | inl hs => exact hs.1 rfl
    | inr hs => exact hs.2.1 rfl

/-- Where a string ends before the last character that counts, the tests behind the loop decide. -/
theorem outcome_compares_of_ends (h0 : 0 ∉ s) (h0' : 0 ∉ t) (h : s = [] ∨ t = []) (n : Nat) :
    Compares (n + 1) s t (outcome (n + 1) s t) ↔ ¬ Missed (n + 1) s t := by
  rw [outcome_of_ends h]
  by_cases hboth : s = [] ∧ t = []
  · obtain ⟨rfl, rfl⟩ := hboth
    apply iff_of_true _ (not_missed_nil n)
    rw [show (if n > 0 then outcome 0 [] [] else 0) = (0 : Int) from ite_self 0]
    exact ⟨iff_of_true rfl fun i _ => rfl, fun i _ _ hne => absurd rfl hne⟩
  · have hzero : charAt s 0 = 0 ∨ charAt t 0 = 0 :=
      h.imp (charAt_zero_eq_zero_iff h0).mpr (charAt_zero_eq_zero_iff h0').mpr
    have hne : charAt s 0 ≠ charAt t 0 := by
      intro heq
      apply hboth
      rw [← charAt_zero_eq_zero_iff h0, ← charAt_zero_eq_zero_iff h0']
      cases hzero with
      | inl hs => exact ⟨hs, heq ▸ hs⟩
      | inr ht => exact ⟨heq ▸ ht, ht⟩
    rw [compares_of_ne hne]
    cases n with
    | zero =>
      rw [if_neg (Nat.lt_irrefl 0)]
      apply iff_of_false
      · intro hr
        cases UInt8.lt_or_lt_of_ne hne with
        | inl hlt => exact absurd (hr.1.mpr hlt) (lt_irrefl 0)
        | inr hlt => exact absurd (hr.2.mpr hlt) (lt_irrefl 0)
      · rw [not_not]
        refine ⟨Nat.succ_pos 0, fun i hi => absurd hi (by omega), ?_⟩
        cases hzero with
        | inl hs => exact .inl ⟨hs, fun ht => hne (hs.trans ht.symm)⟩
        | inr ht => exact .inr (.inl ⟨fun hs => hne (hs.trans ht.symm), ht⟩)
    | succ n =>
      rw [if_pos (Nat.succ_pos n)]
      exact iff_of_true (outcome_zero_sign h0 h0' h hboth) (not_missed_of_ne hne n)

/-- The limit is reached with both strings the same so far, or only one of them ends just there: the
cases in which the value is not the comparison. -/
theorem outcome_compares_iff (h0 : 0 ∉ s) (h0' : 0 ∉ t) (n : Nat) :
    Compares (n + 1) s t (outcome (n + 1) s t) ↔ ¬ Missed (n + 1) s t := by
  induction s generalizing n t with
  | nil => exact outcome_compares_of_ends h0 h0' (.inl rfl) n
  | cons c s ih =>
    cases t with
    | nil => exact outcome_compares_of_ends h0 h0' (.inr rfl) n
    | cons d t =>
      rw [List.mem_cons, not_or] at h0 h0'
      by_cases hcd : c = d
      · subst hcd
        have hstep : outcome (n + 1) (c :: s) (c :: t) = outcome n s t := if_neg (not_not.mpr rfl)
        rw [hstep, compares_cons]
        cases n with
        | zero => rw [compares_zero, outcome_zero_eq_zero_iff, missed_one_cons h0.1 h0.2 h0'.2, not_not]
        | succ n => rw [missed_cons h0.1, ih h0.2 h0'.2]
      · have hstep : outcome (n + 1) (c :: s) (d :: t) = (c.toNat : Int) - d.toNat := if_pos hcd
        have hne : charAt (c :: s) 0 ≠ charAt (d :: t) 0 := hcd
        rw [hstep, compares_of_ne hne, charAt_zero, charAt_zero, UInt8.lt_iff_toNat_lt, UInt8.lt_iff_toNat_lt]
        exact iff_of_true (by omega) (not_missed_of_differ hcd h0.1 h0'.1 n)

/-- `strncmp` compares exactly the first `n` characters unless the last of them decides or is the limit. -/
theorem strncmp_compares_iff (h : IsStr m a s) (h' : IsStr m b t) (hn : n < addressSpace) :
    ∃ r, m.strncmp a b n = some r ∧ (Compares n s t r ↔ ¬ Missed n s t) := by
  refine ⟨_, strncmp_eq h h' hn, ?_⟩
  cases n with
  | zero => exact iff_of_true ((compares_zero s t 0).mpr rfl) fun hm => absurd hm.pos (Nat.lt_irrefl 0)
  | succ n => exact outcome_compares_iff h.text h'.text n

theorem strncmp_compares_iff_ab : ∃ r, (ofText 4096 (ascii "ab")).strncmp 4096 4097 1 = some r ∧
    (Compares 1 (ascii "ab") (ascii "b") r ↔ ¬ Missed 1 (ascii "ab") (ascii "b")) :=
  strncmp_compares_iff (isStr_ofText (by decide) (by decide)) (isStr_ofText (by decide) (by decide)).tail (by decide)

/-- A string is not the same as itself up to a limit before its end. -/
theorem strncmp_itself : (ofText 4096 (ascii "ab")).strncmp 4096 4096 1 = some 1 ∧
    ¬ Compares 1 (ascii "ab") (ascii "ab") 1 := by
  have h : IsStr (ofText 4096 (ascii "ab")) 4096 (ascii "ab") := isStr_ofText (by decide) (by decide)
  exact ⟨strncmp_eq h h (by decide), fun hc => absurd (hc.same.mpr fun i _ => rfl) (by decide)⟩

end Memory
end ShompOS
