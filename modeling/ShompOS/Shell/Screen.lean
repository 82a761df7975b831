import ShompOS.FakeLibc.Text
import Mathlib.Data.Nat.Bitwise

/-! The screen (`terminal_writestring` and what it calls, `kernel.c`).

The cursor moves through 25 rows of 80 cells. A *sheet* has the same text on rows that
do not end; 25 of its rows are a page, and the screen shows the last page. A newline off
the bottom row clears the screen, and a character that fills the bottom row does not:
then what the page before has at a cell stays there until a character takes its place. -/
namespace ShompOS
open Memory

def vgaWidth : Nat := 80
def vgaHeight : Nat := 25

structure Terminal where
  buffer : Nat → UInt16
  row : Nat
  column : Nat
  color : UInt8
  /-- The indices of `terminal_buffer` stored to so far, the latest first. -/
  stores : List Nat

def vgaEntry (uc color : UInt8) : UInt16 := uc.toUInt16 ||| color.toUInt16 <<< 8

namespace Terminal

def put (t : Terminal) (index : Nat) (entry : UInt16) : Terminal :=
  {t with buffer := Function.update t.buffer index entry, stores := index :: t.stores}

/-- `terminal_putentryat` -/
def putentryat (t : Terminal) (c color : UInt8) (x y : Nat) : Terminal := t.put (y * vgaWidth + x) (vgaEntry c color)

/-- The inner loop of `terminal_clear`. -/
def clearRow (y : Nat) : (count x : Nat) → Terminal → Terminal
  | 0, _, t => t
  | count + 1, x, t => clearRow y count (x + 1) (t.putentryat 0x20 t.color x y)

/-- The outer loop of `terminal_clear`. -/
def clearRows : (count y : Nat) → Terminal → Terminal
  | 0, _, t => t
  | count + 1, y, t => clearRows count (y + 1) (clearRow y vgaWidth 0 t)

/-- `terminal_clear` -/
def clear (t : Terminal) : Terminal := {clearRows vgaHeight 0 t with column := 0, row := 0}

/-- `terminal_advance_row` -/
def advanceRow (t : Terminal) : Terminal :=
  let t := {t with row := t.row + 1}
  let t := if t.row = vgaHeight then {t with row := 0}.clear else t
  {t with column := 0}

/-- `terminal_putchar` -/
def putchar (t : Terminal) (c : UInt8) : Terminal :=
  if c = 0x0A then t.advanceRow
  else
    let t := t.putentryat c t.color t.column t.row
    let t := {t with column := t.column + 1}
    if t.column = vgaWidth then
      let t := {t with column := 0, row := t.row + 1}
      if t.row = vgaHeight then {t with row := 0} else t
    else t

/-- `terminal_write`, with the pointer to the character in the place of `i`. -/
def write (m : Memory) : (size data : Nat) → Terminal → Terminal
  | 0, _, t => t
  | size + 1, data, t =>
    write m size (wrap (data + 1)) (if m.byte data = 0x0A then t.advanceRow else t.putchar (m.byte data))

/-- `terminal_writestring` -/
def writestring (m : Memory) (data : Nat) (t : Terminal) : Option Terminal :=
    (m.strlen data).map fun len => write m len data t

/-- Cleared, with the cursor at the top. -/
structure Blank (t : Terminal) : Prop where
  cells : ∀ i, i < vgaHeight * vgaWidth → t.buffer i = vgaEntry 0x20 t.color
  row : t.row = 0
  column : t.column = 0
  stores : ∀ i ∈ t.stores, i < vgaHeight * vgaWidth

theorem putchar_newline (t : Terminal) : t.putchar 0x0A = t.advanceRow := if_pos rfl

/-- Both ways to a newline are one. -/
theorem write_eq {m : Memory} {data : Nat} {text : List UInt8} (h : IsStr m data text) (t : Terminal) :
    write m text.length data t = text.foldl putchar t := by
  induction text generalizing data t with
  | nil => rfl
  | cons c text ih =>
    have hbyte := h.head.1
    have hput : (if m.byte data = 0x0A then t.advanceRow else t.putchar (m.byte data)) = t.putchar c := by
      rw [hbyte]
      split
      · next hc => rw [hc, putchar_newline]
      · rfl
    rw [List.length_cons, write, hput, h.step, ih h.tail, List.foldl_cons]

theorem writestring_eq {m : Memory} {data : Nat} {text : List UInt8} (h : IsStr m data text) (t : Terminal) :
    t.writestring m data = some (text.foldl putchar t) := by
  unfold writestring
  rw [strlen_eq h, Option.map_some, write_eq h]

/-! ### Clearing -/

theorem clearRow_spec (y count x : Nat) (t : Terminal) :
    (clearRow y count x t).color = t.color ∧
      (∀ i, (clearRow y count x t).buffer i =
        if y * vgaWidth + x ≤ i ∧ i < y * vgaWidth + x + count then vgaEntry 0x20 t.color else t.buffer i) ∧
      ∀ i ∈ (clearRow y count x t).stores, i ∈ t.stores ∨ i < y * vgaWidth + x + count := by
  induction count generalizing x t with
  | zero => exact ⟨rfl, fun i => (if_neg (by omega)).symm, fun i hi => Or.inl hi⟩
  | succ count ih =>
    obtain ⟨hcolor, hbuffer, hstores⟩ := ih (x + 1) (t.putentryat 0x20 t.color x y)
    refine ⟨hcolor, fun i => ?_, fun i hi => ?_⟩
    · rw [clearRow, hbuffer]
      show (if _ then vgaEntry 0x20 t.color else Function.update t.buffer (y * vgaWidth + x)
        (vgaEntry 0x20 t.color) i) = _
      by_cases hi : i = y * vgaWidth + x
      · rw [if_neg (by omega), if_pos (by omega), hi, Function.update_self]
      · rw [Function.update_of_ne hi]
        exact if_congr (by omega) rfl rfl
    · cases hstores i hi with
      | inl hi =>
        cases List.mem_cons.mp hi with
        | inl he => exact Or.inr (by omega)
        | inr hi => exact Or.inl hi
      | inr hi => exact Or.inr (by omega)

theorem clearRows_spec (count y : Nat) (t : Terminal) :
    (clearRows count y t).color = t.color ∧
      (∀ i, (clearRows count y t).buffer i =
        if y * vgaWidth ≤ i ∧ i < (y + count) * vgaWidth then vgaEntry 0x20 t.color else t.buffer i) ∧
      ∀ i ∈ (clearRows count y t).stores, i ∈ t.stores ∨ i < (y + count) * vgaWidth := by
  have hw : vgaWidth = 80 := rfl
  induction count generalizing y t with
  | zero => exact ⟨rfl, fun i => (if_neg (by rw [hw]; omega)).symm, fun i hi => Or.inl hi⟩
  | succ count ih =>
    obtain ⟨hrow, hfirst, hold⟩ := clearRow_spec y vgaWidth 0 t
    obtain ⟨hcolor, hbuffer, hstores⟩ := ih (y + 1) (clearRow y vgaWidth 0 t)
    rw [hrow] at hcolor hbuffer
    rw [hw] at hbuffer hstores hfirst hold ⊢
    refine ⟨hcolor, fun i => ?_, fun i hi => ?_⟩
    · rw [clearRows, hw, hbuffer, hfirst]
      by_cases hi : (y + 1) * 80 ≤ i ∧ i < (y + 1 + count) * 80
      · rw [if_pos hi, if_pos (by omega)]
      · rw [if_neg hi]
        exact if_congr (by omega) rfl rfl
    · cases hstores i hi with
      | inl hi => exact (hold i hi).imp_right fun hi => by omega
      | inr hi => exact Or.inr (by omega)

theorem clear_blank (t : Terminal) (ht : ∀ i ∈ t.stores, i < vgaHeight * vgaWidth) : t.clear.Blank ∧
    t.clear.color = t.color := by
  obtain ⟨hcolor, hbuffer, hstores⟩ := clearRows_spec vgaHeight 0 t
  rw [Nat.zero_add] at hbuffer hstores
  unfold clear
  generalize clearRows vgaHeight 0 t = cleared at hcolor hbuffer hstores ⊢
  refine ⟨⟨fun i hi => ?_, rfl, rfl, fun i hi => ?_⟩, hcolor⟩
  · rw [hbuffer i, if_pos ⟨by omega, hi⟩, hcolor]
  · cases hstores i hi with
    | inl hi => exact ht i hi
    | inr hi => exact hi

end Terminal
/-! ### Sheets -/

/-- A character and its place. -/
structure Mark where
  row : Nat
  column : Nat
  char : UInt8

/-- The place of `k` comes before this one. -/
def Mark.Before (k : Mark) (row column : Nat) : Prop := k.row < row ∨ k.row = row ∧ k.column < column

structure Sheet where
  row : Nat
  column : Nat
  /-- The characters laid out so far, the latest first. -/
  marks : List Mark
  /-- The row the last newline off a page's bottom row has led to. -/
  top : Nat

namespace Sheet

def empty : Sheet := ⟨0, 0, [], 0⟩

def put (s : Sheet) (c : UInt8) : Sheet :=
  if c = 0x0A then
    {s with row := s.row + 1, column := 0, top := if (s.row + 1) % vgaHeight = 0 then s.row + 1 else s.top}
  else
    { row := if s.column + 1 = vgaWidth then s.row + 1 else s.row
      column := if s.column + 1 = vgaWidth then 0 else s.column + 1
      marks := ⟨s.row, s.column, c⟩ :: s.marks
      top := s.top }

def layOut (text : List UInt8) : Sheet := text.foldl put empty

/-- The first row of the last page. -/
def page (s : Sheet) : Nat := s.row - s.row % vgaHeight

/-- What is laid out at a place. -/
def charAt (s : Sheet) (row column : Nat) : Option UInt8 :=
  (s.marks.find? fun k => k.row = row ∧ k.column = column).map Mark.char

/-- What was last laid out at the places of a cell, on the pages since that row. -/
def seen (s : Sheet) (y x : Nat) : Option UInt8 :=
  (s.marks.find? fun k => s.top ≤ k.row ∧ k.row % vgaHeight = y ∧ k.column = x).map Mark.char

/-- The text is laid out line by line. -/
structure Ordered (s : Sheet) : Prop where
  column : s.column < vgaWidth
  before : ∀ k ∈ s.marks, k.Before s.row s.column
  sorted : s.marks.Pairwise fun k j => j.Before k.row k.column
  top : s.top ≤ s.row ∧ vgaHeight ∣ s.top
  width : ∀ k ∈ s.marks, k.column < vgaWidth

theorem ordered_empty : empty.Ordered :=
  ⟨by decide, fun k hk => absurd hk List.not_mem_nil, List.Pairwise.nil, ⟨Nat.le_refl _, Nat.dvd_zero _⟩,
    fun k hk => absurd hk List.not_mem_nil⟩

variable {s : Sheet}

theorem Ordered.put (h : s.Ordered) (c : UInt8) : (s.put c).Ordered := by
  have hcolumn := h.column
  have htop := h.top
  unfold Sheet.put
  by_cases hc : c = 0x0A
  · rw [if_pos hc]
    refine ⟨Nat.zero_lt_succ _, fun k hk => Or.inl ?_, h.sorted, ?_, h.width⟩
    · have hbefore := h.before k hk
      unfold Mark.Before at hbefore
      dsimp only
      omega
    · dsimp only
      split
      · next hpage => exact ⟨Nat.le_refl _, Nat.dvd_of_mod_eq_zero hpage⟩
      · exact ⟨Nat.le_succ_of_le htop.1, htop.2⟩
  · rw [if_neg hc]
    refine ⟨?_, fun k hk => ?_, List.pairwise_cons.mpr ⟨fun k hk => h.before k hk, h.sorted⟩, ⟨?_, htop.2⟩,
      fun k hk => ?_⟩
    · dsimp only
      split
      · exact Nat.zero_lt_succ _
      · omega
    · have hbefore : k.Before s.row (s.column + 1) := by
        unfold Mark.Before
        cases List.mem_cons.mp hk with
        | inl he =>
          rw [he]
          dsimp only
          omega
        | inr hk =>
          have hbefore := h.before k hk
          unfold Mark.Before at hbefore
          omega
      unfold Mark.Before at hbefore ⊢
      dsimp only
      split
      · omega
      · exact hbefore
    · have := htop.1
      dsimp only
      split
      · omega
      · exact this
    · cases List.mem_cons.mp hk with
      | inl he => exact he ▸ hcolumn
      | inr hk => exact h.width k hk

theorem ordered_layOut (text : List UInt8) : (layOut text).Ordered := by
  have hall : ∀ (text : List UInt8) (s : Sheet), s.Ordered → (text.foldl Sheet.put s).Ordered := by
    intro text
    induction text with
    | nil => exact fun s hs => hs
    | cons c text ih => exact fun s hs => ih _ (hs.put c)
  exact hall text empty ordered_empty

/-- What is found first comes last. -/
theorem find?_eq_some_iff {marks : List Mark} (h : marks.Pairwise fun k j => j.Before k.row k.column)
    (p : Mark → Bool) (k : Mark) :
    marks.find? p = some k ↔ k ∈ marks ∧ p k ∧ ∀ j ∈ marks, p j → ¬ k.Before j.row j.column := by
  have hasymm : ∀ j k : Mark, j.Before k.row k.column → ¬ k.Before j.row j.column := fun j k hj hk => by
    unfold Mark.Before at hj hk
    omega
  have hirrefl : ∀ k : Mark, ¬ k.Before k.row k.column := fun k hk => hasymm k k hk hk
  induction marks with
  | nil => simp
  | cons j marks ih =>
    obtain ⟨hfirst, hrest⟩ := List.pairwise_cons.mp h
    by_cases hj : p j
    · rw [List.find?_cons_of_pos hj, Option.some.injEq]
      constructor
      · intro he
        rw [← he]
        refine ⟨List.mem_cons_self .., hj, fun i hi _ => ?_⟩
        cases List.mem_cons.mp hi with
        | inl hi => exact hi ▸ hirrefl j
        | inr hi => exact hasymm i j (hfirst i hi)
      · intro hk
        cases List.mem_cons.mp hk.1 with
        | inl he => exact he.symm
        | inr hin => exact absurd (hfirst k hin) (hk.2.2 j (List.mem_cons_self ..) hj)
    · rw [List.find?_cons_of_neg hj]
      refine (ih hrest).trans ?_
      constructor
      · intro hk
        refine ⟨List.mem_cons_of_mem _ hk.1, hk.2.1, fun i hi hpi => ?_⟩
        cases List.mem_cons.mp hi with
        | inl hi => exact absurd (hi ▸ hpi) hj
        | inr hi => exact hk.2.2 i hi hpi
      · intro hk
        refine ⟨(List.mem_cons.mp hk.1).resolve_left fun he => hj (he ▸ hk.2.1), hk.2.1, fun i hi hpi => ?_⟩
        exact hk.2.2 i (List.mem_cons_of_mem _ hi) hpi

theorem Ordered.charAt_iff (h : s.Ordered) (row column : Nat) (c : UInt8) : s.charAt row column = some c ↔
    ⟨row, column, c⟩ ∈ s.marks := by
  unfold Sheet.charAt
  rw [Option.map_eq_some_iff]
  simp only [find?_eq_some_iff h.sorted, decide_eq_true_eq]
  constructor
  · intro hk
    obtain ⟨k, ⟨hin, ⟨rfl, rfl⟩, -⟩, rfl⟩ := hk
    exact hin
  · intro hin
    refine ⟨_, ⟨hin, ⟨rfl, rfl⟩, fun j _ hj hbefore => ?_⟩, rfl⟩
    unfold Mark.Before at hbefore
    dsimp only at hbefore
    omega

/-- Of the characters since that row, the one that no later one is in the place of. -/
theorem Ordered.seen_iff (h : s.Ordered) (y x : Nat) (c : UInt8) : s.seen y x = some c ↔
    ∃ k ∈ s.marks, k.char = c ∧ s.top ≤ k.row ∧ k.row % vgaHeight = y ∧ k.column = x ∧
      ∀ j ∈ s.marks, k.row < j.row → j.row % vgaHeight = y → j.column ≠ x := by
  unfold Sheet.seen
  rw [Option.map_eq_some_iff]
  simp only [find?_eq_some_iff h.sorted, decide_eq_true_eq]
  constructor
  · intro hk
    obtain ⟨k, ⟨hin, ⟨htop, hy, hx⟩, hlast⟩, rfl⟩ := hk
    exact ⟨k, hin, rfl, htop, hy, hx, fun j hj hlt hjy hjx => hlast j hj ⟨by omega, hjy, hjx⟩ (Or.inl hlt)⟩
  · intro hk
    obtain ⟨k, hin, rfl, htop, hy, hx, hlast⟩ := hk
    refine ⟨k, ⟨hin, ⟨htop, hy, hx⟩, fun j hj hcell hbefore => ?_⟩, rfl⟩
    cases hbefore with
    | inl hlt => exact hlast j hj hlt hcell.2.1 hcell.2.2
    | inr heq =>
      have := hcell.2.2
      omega

/-- A character of an earlier page since that row that nothing has taken the place of. -/
def Stale (s : Sheet) (k : Mark) : Prop :=
  k ∈ s.marks ∧ s.top ≤ k.row ∧ k.row < s.page ∧
    ∀ j ∈ s.marks, k.row < j.row → j.row % vgaHeight = k.row % vgaHeight → j.column ≠ k.column

theorem Ordered.top_le_page (h : s.Ordered) : s.top ≤ s.page := by
  obtain ⟨hle, n, hn⟩ := h.top
  rw [hn] at hle ⊢
  unfold page
  unfold vgaHeight at hle ⊢
  omega

theorem page_add_mod (s : Sheet) {y : Nat} (hy : y < vgaHeight) : (s.page + y) % vgaHeight = y := by
  unfold page
  unfold vgaHeight at hy ⊢
  omega

/-- A row of the last page, by its row on the screen. -/
theorem eq_page_add (s : Sheet) {r y : Nat} (hpage : s.page ≤ r) (hrow : r ≤ s.row) (hy : r % vgaHeight = y) :
    r = s.page + y := by
  unfold page at hpage ⊢
  unfold vgaHeight at hpage hy ⊢
  omega

theorem Ordered.row_le (h : s.Ordered) {k : Mark} (hk : k ∈ s.marks) : k.row ≤ s.row := by
  have hbefore := h.before k hk
  unfold Mark.Before at hbefore
  omega

/-- What is seen is the last page, if and only if what is left of earlier ones is blank. -/
theorem Ordered.seen_eq_iff (h : s.Ordered) :
    (∀ y x, y < vgaHeight → x < vgaWidth → (s.seen y x).getD 0x20 = (s.charAt (s.page + y) x).getD 0x20) ↔
      ∀ k, s.Stale k → k.char = 0x20 := by
  constructor
  · intro hall k hk
    obtain ⟨hin, hktop, hkpage, hnone⟩ := hk
    have hy : k.row % vgaHeight < vgaHeight := Nat.mod_lt _ (by decide)
    have hseen := (h.seen_iff _ _ k.char).mpr ⟨k, hin, rfl, hktop, rfl, rfl, hnone⟩
    have hchar : s.charAt (s.page + k.row % vgaHeight) k.column = none := by
      rw [Option.eq_none_iff_forall_ne_some]
      intro c hc
      exact hnone _ ((h.charAt_iff _ _ c).mp hc) (Nat.lt_add_right _ hkpage) (s.page_add_mod hy) rfl
    have hcell := hall _ _ hy (h.width k hin)
    rw [hseen, hchar] at hcell
    exact hcell
  · intro hall y x hy hx
    cases hchar : s.charAt (s.page + y) x with
    | some c =>
      -- nothing comes later in the cell than what is on the last page
      have hin := (h.charAt_iff _ _ c).mp hchar
      have htop := h.top_le_page
      have hseen : s.seen y x = some c := by
        refine (h.seen_iff y x c).mpr ⟨_, hin, rfl, Nat.le_add_right_of_le htop, s.page_add_mod hy,
          rfl, fun j hj hlt hjy => ?_⟩
        have hrow := s.eq_page_add (Nat.le_of_lt (Nat.lt_of_le_of_lt (Nat.le_add_right _ _) hlt)) (h.row_le hj) hjy
        exact absurd hlt (by rw [hrow]; exact Nat.lt_irrefl _)
      rw [hseen]
    | none =>
      cases hseen : s.seen y x with
      | none => rfl
      | some c =>
        obtain ⟨k, hin, rfl, hktop, hky, rfl, hnone⟩ := (h.seen_iff y x c).mp hseen
        refine hall k ⟨hin, hktop, ?_, fun j hj hlt hjy => hnone j hj hlt (hjy.trans hky)⟩
        by_contra hge
        have hplace := s.eq_page_add (Nat.le_of_not_lt hge) (h.row_le hin) hky
        have hmem := (h.charAt_iff (s.page + y) k.column k.char).mpr (hplace ▸ hin)
        rw [hchar] at hmem
        cases hmem

/-! ### What a character does to what is seen -/

theorem Ordered.seen_newline (h : s.Ordered) (y x : Nat) :
    (s.put 0x0A).seen y x = if (s.row + 1) % vgaHeight = 0 then none else s.seen y x := by
  unfold seen Sheet.put
  rw [if_pos rfl]
  split
  · -- everything is above the new page
    rw [Option.map_eq_none_iff, List.find?_eq_none]
    intro k hk
    have := h.row_le hk
    rw [decide_eq_true_eq]
    dsimp only
    omega
  · rfl

theorem Ordered.seen_put (h : s.Ordered) {c : UInt8} (hc : c ≠ 0x0A) (y x : Nat) :
    (s.put c).seen y x = if s.row % vgaHeight = y ∧ s.column = x then some c else s.seen y x := by
  have htop := h.top.1
  unfold seen Sheet.put
  rw [if_neg hc]
  by_cases hcell : s.row % vgaHeight = y ∧ s.column = x
  · rw [if_pos hcell, List.find?_cons_of_pos (by simpa using ⟨htop, hcell⟩), Option.map_some]
  · rw [if_neg hcell, List.find?_cons_of_neg (by simpa using fun _ => not_and.mp hcell)]

end Sheet

theorem vgaEntry_injective {c d color : UInt8} (h : vgaEntry c color = vgaEntry d color) : c = d := by
  have hlow : ∀ c : UInt8, (vgaEntry c color).toNat % 2 ^ 8 = c.toNat := fun c => by
    have hlt := c.toNat_lt
    have hshift : color.toUInt16.toNat <<< 8 % 2 ^ 16 % 2 ^ 8 = 0 := by
      rw [Nat.shiftLeft_eq]
      omega
    have height : UInt16.toNat 8 % 16 = 8 := rfl
    unfold vgaEntry
    rw [UInt16.toNat_or, UInt16.toNat_shiftLeft, Nat.or_mod_two_pow, height, hshift, Nat.or_zero, UInt8.toNat_toUInt16]
    exact Nat.mod_eq_of_lt hlt
  exact UInt8.toNat.inj (by rw [← hlow c, h, hlow d])

namespace Terminal

/-- The terminal shows what is seen of a sheet. -/
structure Shows (t : Terminal) (s : Sheet) (ink : UInt8) : Prop where
  row : t.row = s.row % vgaHeight
  column : t.column = s.column
  color : t.color = ink
  cells : ∀ y x, y < vgaHeight → x < vgaWidth → t.buffer (y * vgaWidth + x) = vgaEntry ((s.seen y x).getD 0x20) ink
  stores : ∀ i ∈ t.stores, i < vgaHeight * vgaWidth

theorem cell_lt {y x : Nat} (hy : y < vgaHeight) (hx : x < vgaWidth) : y * vgaWidth + x < vgaHeight * vgaWidth := by
  unfold vgaHeight vgaWidth at *
  omega

theorem cell_injective {y x y' x' : Nat} (hx : x < vgaWidth) (hx' : x' < vgaWidth) :
    y * vgaWidth + x = y' * vgaWidth + x' ↔ y = y' ∧ x = x' := by
  unfold vgaWidth at *
  omega

theorem row_mod (r : Nat) : (r % vgaHeight + 1 = vgaHeight ↔ (r + 1) % vgaHeight = 0) ∧
    (r % vgaHeight + 1 ≠ vgaHeight → (r + 1) % vgaHeight = r % vgaHeight + 1) := by
  unfold vgaHeight
  omega

theorem Blank.shows {t : Terminal} (h : t.Blank) : t.Shows Sheet.empty t.color :=
  ⟨h.row, h.column, rfl, fun _ _ hy hx => h.cells _ (cell_lt hy hx), h.stores⟩

variable {t : Terminal} {s : Sheet} {ink : UInt8}

theorem advanceRow_full (h : t.row + 1 = vgaHeight) : t.advanceRow = {{t with row := 0}.clear with column := 0} := by
  unfold advanceRow
  simp only [if_pos h]

theorem advanceRow_next (h : t.row + 1 ≠ vgaHeight) : t.advanceRow = {t with row := t.row + 1, column := 0} := by
  unfold advanceRow
  simp only [if_neg h]

theorem Shows.advanceRow (h : t.Shows s ink) (hs : s.Ordered) : t.advanceRow.Shows (s.put 0x0A) ink := by
  obtain ⟨hfull, hnext⟩ := row_mod s.row
  rw [← h.row] at hfull hnext
  by_cases hend : t.row + 1 = vgaHeight
  · rw [advanceRow_full hend]
    obtain ⟨hblank, hcolor⟩ := clear_blank {t with row := 0} h.stores
    have hink := hcolor.trans h.color
    generalize ({t with row := 0} : Terminal).clear = cleared at hblank hink ⊢
    refine ⟨hblank.row.trans (hfull.mp hend).symm, rfl, hink, fun y x hy hx => ?_, hblank.stores⟩
    rw [hs.seen_newline, if_pos (hfull.mp hend)]
    exact (hblank.cells _ (cell_lt hy hx)).trans (by rw [hink]; rfl)
  · rw [advanceRow_next hend]
    refine ⟨(hnext hend).symm, rfl, h.color, fun y x hy hx => ?_, h.stores⟩
    rw [hs.seen_newline, if_neg fun h0 => hend (hfull.mpr h0)]
    exact h.cells y x hy hx

/-- The cell of the cursor is stored to, and no other. -/
theorem Shows.putentryat (h : t.Shows s ink) (hs : s.Ordered) {c : UInt8} (hc : c ≠ 0x0A) :
    (∀ y x, y < vgaHeight → x < vgaWidth →
      (t.putentryat c t.color t.column t.row).buffer (y * vgaWidth + x) =
        vgaEntry (((s.put c).seen y x).getD 0x20) ink) ∧
      ∀ i ∈ (t.putentryat c t.color t.column t.row).stores, i < vgaHeight * vgaWidth := by
  have hrow : t.row < vgaHeight := h.row ▸ Nat.mod_lt _ (by decide)
  have hcolumn : t.column < vgaWidth := h.column ▸ hs.column
  constructor
  · intro y x hy hx
    show Function.update t.buffer (t.row * vgaWidth + t.column) (vgaEntry c t.color) (y * vgaWidth + x) = _
    rw [hs.seen_put hc, ← h.row, ← h.column]
    by_cases hcell : t.row = y ∧ t.column = x
    · rw [if_pos hcell, ← hcell.1, ← hcell.2, Function.update_self, h.color]
      rfl
    · rw [if_neg hcell, Function.update_of_ne fun he => hcell (((cell_injective hx hcolumn).mp he).imp Eq.symm Eq.symm)]
      exact h.cells y x hy hx
  · intro i hi
    cases List.mem_cons.mp hi with
    | inl he => exact he ▸ cell_lt hrow hcolumn
    | inr hi => exact h.stores i hi

theorem Shows.putchar (h : t.Shows s ink) (hs : s.Ordered) (c : UInt8) : (t.putchar c).Shows (s.put c) ink := by
  by_cases hc : c = 0x0A
  · rw [hc, putchar_newline]
    exact h.advanceRow hs
  · obtain ⟨hcells, hstores⟩ := h.putentryat hs hc
    obtain ⟨hfull, hnext⟩ := row_mod s.row
    rw [← h.row] at hfull hnext
    have hcolumn := h.column
    have hput : (s.put c).row = (if s.column + 1 = vgaWidth then s.row + 1 else s.row) ∧
        (s.put c).column = if s.column + 1 = vgaWidth then 0 else s.column + 1 := by
      unfold Sheet.put
      rw [if_neg hc]
      exact ⟨rfl, rfl⟩
    rw [← hcolumn] at hput
    unfold Terminal.putchar
    rw [if_neg hc]
    simp only [show (t.putentryat c t.color t.column t.row).column = t.column from rfl,
      show (t.putentryat c t.color t.column t.row).row = t.row from rfl]
    by_cases hwrap : t.column + 1 = vgaWidth
    · rw [if_pos hwrap, if_pos hwrap] at hput
      rw [if_pos hwrap]
      by_cases hend : t.row + 1 = vgaHeight
      · rw [if_pos hend]
        exact ⟨by rw [hput.1, hfull.mp hend], hput.2.symm, h.color, hcells, hstores⟩
      · rw [if_neg hend]
        exact ⟨by rw [hput.1, hnext hend], hput.2.symm, h.color, hcells, hstores⟩
    · rw [if_neg hwrap, if_neg hwrap] at hput
      rw [if_neg hwrap]
      exact ⟨by rw [hput.1, ← h.row], hput.2.symm, h.color, hcells, hstores⟩

/-- The screen shows what is seen of the text laid out. -/
theorem Blank.shows_layOut (h : t.Blank) (text : List UInt8) :
    (text.foldl Terminal.putchar t).Shows (Sheet.layOut text) t.color := by
  have hall : ∀ (text : List UInt8) (s : Sheet) (u : Terminal), s.Ordered → u.Shows s t.color →
      (text.foldl Terminal.putchar u).Shows (text.foldl Sheet.put s) t.color := by
    intro text
    induction text with
    | nil => exact fun s u _ hu => hu
    | cons c text ih => exact fun s u hs hu => ih _ _ (hs.put c) (hu.putchar hs c)
  exact hall text _ t Sheet.ordered_empty h.shows

/-- The cells show the last page of the text laid out, blank where it has nothing. -/
def ShowsPage (t : Terminal) (text : List UInt8) (ink : UInt8) : Prop :=
  ∀ y x, y < vgaHeight → x < vgaWidth → t.buffer (y * vgaWidth + x) =
    vgaEntry (((Sheet.layOut text).charAt ((Sheet.layOut text).page + y) x).getD 0x20) ink

theorem Blank.showsPage_iff (h : t.Blank) (text : List UInt8) :
    (text.foldl Terminal.putchar t).ShowsPage text t.color ↔ ∀ k, (Sheet.layOut text).Stale k → k.char = 0x20 := by
  have hshows := h.shows_layOut text
  rw [← (Sheet.ordered_layOut text).seen_eq_iff]
  unfold ShowsPage
  refine forall_congr' fun y => forall_congr' fun x => forall_congr' fun hy => forall_congr' fun hx => ?_
  rw [hshows.cells y x hy hx]
  exact ⟨vgaEntry_injective, fun he => by rw [he]⟩

/-- The screen shows the last page of what is written, and no store is outside its cells, if and only if
the pages since the last newline off the bottom row have left nothing but spaces where no later character is. -/
theorem writestring_iff {m : Memory} {data : Nat} {text : List UInt8} (htext : IsStr m data text) (h : t.Blank) :
    ∃ t', t.writestring m data = some t' ∧
      (t'.ShowsPage text t.color ∧ (∀ i ∈ t'.stores, i < vgaHeight * vgaWidth) ↔
        ∀ k, (Sheet.layOut text).Stale k → k.char = 0x20) := by
  refine ⟨_, writestring_eq htext t, ?_⟩
  rw [h.showsPage_iff text]
  exact and_iff_left (h.shows_layOut text).stores

/-- A blank screen. -/
def blank (ink : UInt8) : Terminal := ⟨fun _ => vgaEntry 0x20 ink, 0, 0, ink, []⟩

theorem blank_blank (ink : UInt8) : (blank ink).Blank :=
    ⟨fun _ _ => rfl, rfl, rfl, fun _ hi => absurd hi List.not_mem_nil⟩

/-- The bottom row is filled with spaces, which stay, and the next word is in the place of the first. -/
def pageTurner : List UInt8 :=
  ascii "hello" ++ List.replicate 24 0x0A ++ List.replicate 80 0x20 ++ ascii "world"

theorem writestring_iff_turned : ∃ m t', (blank 7).writestring m 0x300000 = some t' ∧
    t'.ShowsPage pageTurner 7 ∧ ∀ i ∈ t'.stores, i < vgaHeight * vgaWidth := by
  have htext : IsStr (ofText 0x300000 pageTurner) 0x300000 pageTurner := isStr_ofText (by decide) (by decide)
  obtain ⟨t', hwrite, hiff⟩ := writestring_iff htext (blank_blank 7)
  have hall : ∀ k ∈ (Sheet.layOut pageTurner).marks, k.char = 0x20 ∨ (Sheet.layOut pageTurner).page ≤ k.row ∨
      ∃ j ∈ (Sheet.layOut pageTurner).marks, k.row < j.row ∧ j.row % vgaHeight = k.row % vgaHeight ∧
        j.column = k.column := by decide +kernel
  refine ⟨_, t', hwrite, hiff.mpr fun k hk => ?_⟩
  obtain ⟨hin, -, hrow, hcover⟩ := hk
  rcases hall k hin with hspace | hpage | ⟨j, hj, hlt, hcell, hcolumn⟩
  · exact hspace
  · exact absurd hrow (Nat.not_lt.mpr hpage)
  · exact absurd hcolumn (hcover j hj hlt hcell)

/-- When the bottom row is filled its characters stay, on a page that has none yet. -/
theorem filled_row_stays : ¬ ∀ m data text t, IsStr m data text → Blank t → ∃ t', t.writestring m data = some t' ∧
    t'.ShowsPage text t.color ∧ ∀ i ∈ t'.stores, i < vgaHeight * vgaWidth := by
  intro hall
  let text : List UInt8 := List.replicate 24 0x0A ++ List.replicate 80 0x61
  have htext : IsStr (ofText 0x300000 text) 0x300000 text := isStr_ofText (by decide) (by decide)
  obtain ⟨t', hwrite, hshows, -⟩ := hall _ _ _ _ htext (blank_blank 7)
  rw [writestring_eq htext, Option.some.injEq] at hwrite
  rw [← hwrite, (blank_blank 7).showsPage_iff] at hshows
  have hlast : ∀ j ∈ (Sheet.layOut text).marks, j.row ≤ 24 := by decide +kernel
  have hchar := hshows ⟨24, 0, 0x61⟩ ⟨?_, by decide +kernel, by decide +kernel, fun j hj hlt => ?_⟩
  · cases hchar
  · exact ((Sheet.ordered_layOut text).charAt_iff 24 0 0x61).mp (by decide +kernel)
  · have := hlast j hj
    dsimp only at hlt
    omega

end Terminal
end ShompOS
