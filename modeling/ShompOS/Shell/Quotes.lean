import Mathlib.Data.List.Basic
import Mathlib.Algebra.Group.Nat.Even

/-! Lines of words and quoted sections.

The quotes of a line cut it into sections, outside and inside in turn. Its tokens are
what the spaces leave of the sections outside, and the sections inside as they are;
empty ones do not count. `gather` finds them in one pass. A line is *regular* when every
stretch between the spaces outside is a number of quoted sections and at most one word
behind them, and a word is there if one of the sections is not empty. -/
namespace ShompOS
namespace Line

def quote : UInt8 := 0x22
def space : UInt8 := 0x20

def nonEmpty (tokens : List (List UInt8)) : List (List UInt8) := tokens.filter (· ≠ [])

/-- The tokens of sections that are outside and inside in turn. -/
def tokensIn : (inQuotes : Bool) → (sections : List (List UInt8)) → List (List UInt8)
  | _, [] => []
  | false, s :: rest => nonEmpty (s.splitOn space) ++ tokensIn true rest
  | true, s :: rest => nonEmpty [s] ++ tokensIn false rest

/-- The non-empty runs outside quotes of neither spaces nor quotes, and the non-empty quoted sections. -/
def tokens (line : List UInt8) : List (List UInt8) := tokensIn false (line.splitOn quote)

/-! ### In one pass -/

/-- The tokens of the rest of a line, where `cur` has been read of one. -/
def gather : (inQuotes : Bool) → (cur rest : List UInt8) → List (List UInt8)
  | _, cur, [] => nonEmpty [cur]
  | q, cur, c :: rest =>
    if c = quote then nonEmpty [cur] ++ gather (!q) [] rest
    else if c = space ∧ q = false then nonEmpty [cur] ++ gather q [] rest
    else gather q (cur ++ [c]) rest

theorem nonEmpty_append (ts us : List (List UInt8)) : nonEmpty (ts ++ us) = nonEmpty ts ++ nonEmpty us :=
  List.filter_append ts us

theorem nil_not_mem_nonEmpty (ts : List (List UInt8)) : [] ∉ nonEmpty ts := by simp [nonEmpty]

theorem nonEmpty_of_ne {t : List UInt8} (ht : t ≠ []) : nonEmpty [t] = [t] := by simp [nonEmpty, ht]

theorem nonEmpty_nil : nonEmpty [[]] = [] := rfl

theorem nonEmpty_eq_self {ts : List (List UInt8)} (h : [] ∉ ts) : nonEmpty ts = ts := by
  apply List.filter_eq_self.mpr
  intro t ht
  exact decide_eq_true fun he => h (he ▸ ht)

theorem gather_eq (q : Bool) (cur rest : List UInt8) (hcur : q = false → space ∉ cur) :
    gather q cur rest = tokensIn q ((rest.splitOn quote).modifyHead (cur ++ ·)) := by
  induction rest generalizing q cur with
  | nil =>
    rw [List.splitOn_nil, List.modifyHead_cons, List.append_nil]
    cases q with
    | true => simp [gather, tokensIn]
    | false => simp [gather, tokensIn, List.splitOn_eq_singleton (hcur rfl)]
  | cons c rest ih =>
    obtain ⟨s, sections, hsections⟩ := List.exists_cons_of_ne_nil (List.splitOn_ne_nil quote rest)
    rw [List.splitOn_cons_eq_if_modifyHead]
    unfold gather
    by_cases hquote : c = quote
    · rw [if_pos hquote, if_pos (by simp [hquote]), ih _ _ fun _ => List.not_mem_nil, List.modifyHead_cons,
        List.append_nil, hsections]
      cases q with
      | true => simp [tokensIn]
      | false => simp [tokensIn, List.splitOn_eq_singleton (hcur rfl)]
    · have hne : ¬ (c == quote) = true := by simpa using hquote
      rw [if_neg hquote, if_neg hne, hsections, List.modifyHead_cons, List.modifyHead_cons]
      by_cases hspace : c = space ∧ q = false
      · obtain ⟨rfl, rfl⟩ := hspace
        rw [if_pos ⟨rfl, rfl⟩, ih _ _ fun _ => List.not_mem_nil, hsections, List.modifyHead_cons, List.nil_append]
        simp only [tokensIn]
        have hfirst : nonEmpty (cur :: s.splitOn space) = nonEmpty [cur] ++ nonEmpty (s.splitOn space) :=
          nonEmpty_append [cur] (s.splitOn space)
        rw [List.splitOn_append_cons_self_of_not_mem (hcur rfl), hfirst, List.append_assoc]
      · rw [if_neg hspace, ih, hsections, List.modifyHead_cons, List.append_assoc, List.singleton_append]
        intro hq hmem
        cases List.mem_append.mp hmem with
        | inl hold => exact hcur hq hold
        | inr hnew => exact hspace ⟨(List.mem_singleton.mp hnew).symm, hq⟩

theorem tokens_eq (line : List UInt8) : tokens line = gather false [] line := by
  rw [gather_eq false [] line fun _ => List.not_mem_nil]
  obtain ⟨s, sections, hsections⟩ := List.exists_cons_of_ne_nil (List.splitOn_ne_nil quote line)
  rw [tokens, hsections, List.modifyHead_cons, List.nil_append]

theorem nil_not_mem_gather (q : Bool) (cur rest : List UInt8) : [] ∉ gather q cur rest := by
  induction rest generalizing q cur with
  | nil => exact nil_not_mem_nonEmpty _
  | cons c rest ih =>
    unfold gather
    split
    · exact fun h => (List.mem_append.mp h).elim (nil_not_mem_nonEmpty _) (ih _ _)
    · split
      · exact fun h => (List.mem_append.mp h).elim (nil_not_mem_nonEmpty _) (ih _ _)
      · exact ih _ _

/-! ### Regular lines -/

/-- What stands between two spaces outside quotes, if no section opens behind a word. -/
structure Stretch where
  quoted : List (List UInt8)
  word : List UInt8

namespace Stretch

def text (s : Stretch) : List UInt8 := s.quoted.flatMap (fun q => quote :: q ++ [quote]) ++ s.word

structure WellFormed (s : Stretch) : Prop where
  quoted : ∀ q ∈ s.quoted, quote ∉ q
  word : quote ∉ s.word ∧ space ∉ s.word

theorem WellFormed.empty : WellFormed ⟨[], []⟩ :=
  ⟨fun _ hq => absurd hq List.not_mem_nil, List.not_mem_nil, List.not_mem_nil⟩

theorem WellFormed.cons_quoted {s : Stretch} (hs : s.WellFormed) {q : List UInt8} (hq : quote ∉ q) :
    WellFormed ⟨q :: s.quoted, s.word⟩ := by
  refine ⟨fun p hp => ?_, hs.word⟩
  cases List.mem_cons.mp hp with
  | inl hp => exact hp ▸ hq
  | inr hp => exact hs.quoted p hp

theorem WellFormed.cons_word {s : Stretch} (hs : s.WellFormed) {c : UInt8} (hquote : c ≠ quote) (hspace : c ≠ space) :
    WellFormed ⟨[], c :: s.word⟩ := by
  refine ⟨fun q hq => absurd hq List.not_mem_nil, fun h => ?_, fun h => ?_⟩
  · exact (List.mem_cons.mp h).elim hquote.symm hs.word.1
  · exact (List.mem_cons.mp h).elim hspace.symm hs.word.2

/-- A section that is not empty has a word behind it. -/
def Closed (s : Stretch) : Prop := s.word = [] → ∀ q ∈ s.quoted, q = []

end Stretch

/-- Stretches with a space between each two. -/
def joined : List Stretch → List UInt8
  | [] => []
  | [s] => s.text
  | s :: t :: rest => s.text ++ space :: joined (t :: rest)

def Regular (line : List UInt8) : Prop := ∃ stretches : List Stretch, (∀ s ∈ stretches, s.WellFormed ∧ s.Closed) ∧
    line = joined stretches

/-- The same as a condition on each character: no quote opens behind a word, and only a stretch
without characters, or with a word at its end, may end. -/
def RegularFrom : (inQuotes blank : Bool) → (cur rest : List UInt8) → Prop
  | _, blank, cur, [] => cur = [] → blank = true
  | q, blank, cur, c :: rest =>
    if c = quote then (q = false → cur = []) ∧ RegularFrom (!q) blank [] rest
    else if c = space ∧ q = false then (cur = [] → blank = true) ∧ RegularFrom q true [] rest
    else RegularFrom q false (cur ++ [c]) rest

/-! ### Both say the same -/

theorem regularFrom_quoted {blank : Bool} {cur q rest : List UInt8} (hq : quote ∉ q) :
    RegularFrom true blank cur (q ++ quote :: rest) ↔ RegularFrom false (blank && q.isEmpty) [] rest := by
  induction q generalizing blank cur with
  | nil => simp [RegularFrom]
  | cons c q ih =>
    have hc : c ≠ quote := fun he => hq (he ▸ List.mem_cons_self ..)
    rw [List.cons_append, RegularFrom, if_neg hc, if_neg (by simp), ih fun h => hq (List.mem_cons_of_mem _ h)]
    simp

theorem regularFrom_word (blank : Bool) (cur : List UInt8) {w : List UInt8} (rest : List UInt8)
    (hw : quote ∉ w ∧ space ∉ w) :
    RegularFrom false blank cur (w ++ rest) ↔ RegularFrom false (blank && w.isEmpty) (cur ++ w) rest := by
  induction w generalizing blank cur with
  | nil => simp
  | cons c w ih =>
    have hc : c ≠ quote := fun he => hw.1 (he ▸ List.mem_cons_self ..)
    have hs : c ≠ space := fun he => hw.2 (he ▸ List.mem_cons_self ..)
    have hrest : quote ∉ w ∧ space ∉ w := ⟨fun h => hw.1 (List.mem_cons_of_mem _ h),
      fun h => hw.2 (List.mem_cons_of_mem _ h)⟩
    rw [List.cons_append, RegularFrom, if_neg hc, if_neg fun h => hs h.1, ih _ _ hrest]
    simp

theorem regularFrom_text (blank : Bool) {s : Stretch} (rest : List UInt8) (hs : s.WellFormed) :
    RegularFrom false blank [] (s.text ++ rest) ↔
      RegularFrom false (blank && s.quoted.all List.isEmpty && s.word.isEmpty) s.word rest := by
  obtain ⟨quoted, word⟩ := s
  obtain ⟨hquoted, hword⟩ := hs
  unfold Stretch.text
  induction quoted generalizing blank with
  | nil => simpa using regularFrom_word blank [] rest hword
  | cons q quoted ih =>
    have hopen : ∀ tail, RegularFrom false blank [] (quote :: tail) ↔ RegularFrom true blank [] tail :=
      fun tail => by simp [RegularFrom]
    have hrest := ih (blank && q.isEmpty) (fun q hq => hquoted q (List.mem_cons_of_mem _ hq)) hword
    simp only [List.flatMap_cons, List.cons_append, List.append_assoc, List.nil_append] at hrest ⊢
    rw [hopen, regularFrom_quoted (hquoted q (List.mem_cons_self ..)), hrest, List.all_cons, Bool.and_assoc blank]

/-- Where a stretch ends. -/
theorem closed_iff (s : Stretch) :
    (s.word = [] → (true && s.quoted.all List.isEmpty && s.word.isEmpty) = true) ↔ s.Closed := by
  unfold Stretch.Closed
  refine forall_congr' fun hw => ?_
  simp [hw]

theorem regularFrom_joined {stretches : List Stretch} (h : ∀ s ∈ stretches, s.WellFormed) :
    RegularFrom false true [] (joined stretches) ↔ ∀ s ∈ stretches, s.Closed := by
  induction stretches with
  | nil => simp [joined, RegularFrom]
  | cons s rest ih =>
    have hs := h s (List.mem_cons_self ..)
    have hrest := ih fun t ht => h t (List.mem_cons_of_mem _ ht)
    have hend := closed_iff s
    cases rest with
    | nil =>
      have htext := regularFrom_text true [] hs
      rw [List.append_nil] at htext
      rw [joined, htext, RegularFrom, hend]
      simp
    | cons t rest =>
      rw [joined, regularFrom_text true _ hs, RegularFrom, if_neg (by decide), if_pos ⟨rfl, rfl⟩, hend, hrest]
      simp

theorem joined_quoted (q : List UInt8) (s : Stretch) (ss : List Stretch) :
    joined (⟨q :: s.quoted, s.word⟩ :: ss) = quote :: (q ++ quote :: joined (s :: ss)) := by
  cases ss with
  | nil => simp [joined, Stretch.text]
  | cons t ss => simp [joined, Stretch.text]

theorem joined_word (c : UInt8) {s : Stretch} (hs : s.quoted = []) (ss : List Stretch) :
    joined (⟨[], c :: s.word⟩ :: ss) = c :: joined (s :: ss) := by
  cases ss with
  | nil => simp [joined, Stretch.text, hs]
  | cons t ss => simp [joined, Stretch.text, hs]

/-- A line where no quote opens behind a word and every quote is closed is one of stretches. -/
theorem exists_stretches {blank : Bool} {cur rest : List UInt8} :
    (RegularFrom false blank cur rest → Even (rest.count quote) →
      ∃ s ss, (∀ t ∈ s :: ss, t.WellFormed) ∧ (cur ≠ [] → s.quoted = []) ∧ rest = joined (s :: ss)) ∧
    (RegularFrom true blank cur rest → ¬ Even (rest.count quote) →
      ∃ q s ss, quote ∉ q ∧ (∀ t ∈ s :: ss, t.WellFormed) ∧ rest = q ++ quote :: joined (s :: ss)) := by
  induction rest generalizing blank cur with
  | nil =>
    refine ⟨fun _ _ => ⟨⟨[], []⟩, [], ?_, fun _ => rfl, rfl⟩, fun _ hodd => absurd (by simp) hodd⟩
    exact List.forall_mem_singleton.mpr Stretch.WellFormed.empty
  | cons c rest ih =>
    constructor
    · intro hregular heven
      rw [RegularFrom] at hregular
      by_cases hquote : c = quote
      · rw [if_pos hquote] at hregular
        rw [hquote, List.count_cons_self, Nat.even_add_one] at heven
        obtain ⟨q, s, ss, hq, hwf, rfl⟩ := ih.2 hregular.2 heven
        obtain ⟨hs, hss⟩ := List.forall_mem_cons.mp hwf
        refine ⟨⟨q :: s.quoted, s.word⟩, ss, ?_, fun hcur => absurd (hregular.1 rfl) hcur, ?_⟩
        · exact List.forall_mem_cons.mpr ⟨hs.cons_quoted hq, hss⟩
        · rw [joined_quoted, hquote]
      · rw [if_neg hquote] at hregular
        rw [List.count_cons_of_ne hquote] at heven
        by_cases hspace : c = space
        · rw [if_pos ⟨hspace, rfl⟩] at hregular
          obtain ⟨s, ss, hwf, -, rfl⟩ := ih.1 hregular.2 heven
          refine ⟨⟨[], []⟩, s :: ss, ?_, fun _ => rfl, ?_⟩
          · exact List.forall_mem_cons.mpr ⟨Stretch.WellFormed.empty, hwf⟩
          · rw [joined, hspace]
            rfl
        · rw [if_neg fun h => hspace h.1] at hregular
          obtain ⟨s, ss, hwf, hword, rfl⟩ := ih.1 hregular heven
          obtain ⟨hs, hss⟩ := List.forall_mem_cons.mp hwf
          refine ⟨⟨[], c :: s.word⟩, ss, ?_, fun _ => rfl, (joined_word c (hword (by simp)) ss).symm⟩
          exact List.forall_mem_cons.mpr ⟨hs.cons_word hquote hspace, hss⟩
    · intro hregular hodd
      rw [RegularFrom] at hregular
      by_cases hquote : c = quote
      · rw [if_pos hquote] at hregular
        rw [hquote, List.count_cons_self, Nat.even_add_one, not_not] at hodd
        obtain ⟨s, ss, hwf, -, rfl⟩ := ih.1 hregular.2 hodd
        exact ⟨[], s, ss, List.not_mem_nil, hwf, by rw [hquote, List.nil_append]⟩
      · rw [if_neg hquote, if_neg (by simp)] at hregular
        rw [List.count_cons_of_ne hquote] at hodd
        obtain ⟨q, s, ss, hq, hwf, rfl⟩ := ih.2 hregular hodd
        refine ⟨c :: q, s, ss, fun h => ?_, hwf, rfl⟩
        exact (List.mem_cons.mp h).elim (fun h => hquote h.symm) hq

theorem regular_iff {line : List UInt8} (heven : Even (line.count quote)) : Regular line ↔
    RegularFrom false true [] line := by
  constructor
  · intro hregular
    obtain ⟨stretches, hall, rfl⟩ := hregular
    exact (regularFrom_joined fun s hs => (hall s hs).1).mpr fun s hs => (hall s hs).2
  · intro hregular
    obtain ⟨s, ss, hwf, -, rfl⟩ := exists_stretches.1 hregular heven
    have hclosed := (regularFrom_joined hwf).mp hregular
    exact ⟨s :: ss, fun t ht => ⟨hwf t ht, hclosed t ht⟩, rfl⟩

end Line
end ShompOS
