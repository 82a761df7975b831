import ShompOS.Run
import ShompOS.Shell.Keyboard
import Mathlib.Data.List.DropRight

/-! The line editor is faithful.

The reference is a fold over the scan codes since the last enter, with the
modifiers that the codes before have left. The handler keeps the line it has so
far in the first `cmd_pos` bytes of the buffer (`Holds`); whatever
`handle_command` leaves in the buffer does not matter, since the next line starts
at the first byte again. -/
namespace ShompOS
namespace Shell

variable {σ : Type} (K : Console σ)

/-! ### The reference -/

def IsModifier (keycode : UInt8) : Prop :=
  keycode ∈ [(0x2A : UInt8), 0xAA, 0x36, 0xB6, 0x38, 0xB8, 0x1D, 0x9D, 0x3A]

instance : DecidablePred IsModifier := fun _ => inferInstanceAs (Decidable (_ ∈ _))

/-- A key press that is not a modifier. -/
def IsPress (keycode : UInt8) : Prop := ¬ IsModifier keycode ∧ keycode ≤ 127

instance : DecidablePred IsPress := fun _ => inferInstanceAs (Decidable (_ ∧ _))

def IsEnter (keycode : UInt8) : Prop := IsPress keycode ∧ lookup keyboardMap keycode = 0x0A

instance : DecidablePred IsEnter := fun _ => inferInstanceAs (Decidable (_ ∧ _))

/-- The modifiers after a scan code. -/
def KeyState.after (keys : KeyState) (keycode : UInt8) : KeyState where
  shift := if keycode ∈ [(0x2A : UInt8), 0x36] then true else if keycode ∈
    [(0xAA : UInt8), 0xB6] then false else keys.shift
  alt := if keycode = 0x38 then true else if keycode = 0xB8 then false else keys.alt
  ctrl := if keycode = 0x1D then true else if keycode = 0x9D then false else keys.ctrl
  caps := if keycode = 0x3A then !keys.caps else keys.caps

def IsLetter (c : UInt8) : Prop := 0x61 ≤ c ∧ c ≤ 0x7A

instance : DecidablePred IsLetter := fun _ => inferInstanceAs (Decidable (_ ∧ _))

def Printable (c : UInt8) : Prop := 0x20 ≤ c ∧ c ≤ 0x7E

instance : DecidablePred Printable := fun _ => inferInstanceAs (Decidable (_ ∧ _))

/-- The character of a key press. -/
def KeyState.character (keys : KeyState) (keycode : UInt8) : UInt8 :=
  if IsLetter (lookup keyboardMap keycode) then
    if keys.shift ≠ keys.caps then lookup keyboardMap keycode - 0x20 else lookup keyboardMap keycode
  else if keys.shift then lookup keyboardMapShift keycode else lookup keyboardMap keycode

/-- The line after a scan code. -/
def edit (keys : KeyState) (line : List UInt8) (keycode : UInt8) : List UInt8 :=
  if ¬ IsPress keycode then line
  else if keycode = 0x0E then line.dropLast
  else if Printable (keys.character keycode) ∧ line.length < 63 then line ++ [keys.character keycode]
  else line

/-- The modifiers and the line after some scan codes. -/
def typed (keys : KeyState) (line : List UInt8) (codes : List UInt8) : KeyState × List UInt8 :=
  codes.foldl (fun x k => (x.1.after k, edit x.1 x.2 k)) (keys, line)

def sinceEnter (codes : List UInt8) : List UInt8 := codes.rtakeWhile (¬ IsEnter ·)

def untilEnter (codes : List UInt8) : List UInt8 := codes.rdropWhile (¬ IsEnter ·)

/-- What has been typed since the last enter. -/
def reference (keys : KeyState) (codes : List UInt8) : List UInt8 :=
  (typed ((untilEnter codes).foldl KeyState.after keys) [] (sinceEnter codes)).2

theorem typed_append (keys : KeyState) (line codes : List UInt8) (k : UInt8) :
    typed keys line (codes ++ [k]) = ((typed keys line codes).1.after k, edit (typed keys line codes).1
      (typed keys line codes).2 k) :=
  List.foldl_append

/-- The modifiers do not depend on the line. -/
theorem typed_keys (keys : KeyState) (line codes : List UInt8) : (typed keys line codes).1 =
    codes.foldl KeyState.after keys := by
  induction codes generalizing keys line with
  | nil => rfl
  | cons k codes ih => exact ih (keys.after k) (edit keys line k)

theorem typed_since (keys : KeyState) (codes : List UInt8) :
    (typed ((untilEnter codes).foldl KeyState.after keys) [] (sinceEnter codes)).1 =
      codes.foldl KeyState.after keys := by
  rw [typed_keys, ← List.foldl_append, untilEnter, sinceEnter, List.rdropWhile_append_rtakeWhile]

theorem reference_enter (keys : KeyState) (codes : List UInt8) {k : UInt8} (hk : IsEnter k) :
    reference keys (codes ++ [k]) = [] := by
  unfold reference sinceEnter
  rw [List.rtakeWhile_concat_neg _ _ _ (by simpa using hk)]
  rfl

theorem reference_append (keys : KeyState) (codes : List UInt8) {k : UInt8} (hk : ¬ IsEnter k) :
    reference keys (codes ++ [k]) = edit (codes.foldl KeyState.after keys) (reference keys codes) k := by
  unfold reference
  rw [← typed_since keys codes]
  unfold sinceEnter untilEnter
  rw [List.rtakeWhile_concat_pos _ _ _ (by simpa using hk), List.rdropWhile_concat_pos _ _ _
    (by simpa using hk), typed_append]

/-! ### The handler's comparisons -/

theorem signed_eq {c : UInt8} {n : Int} (h0 : 0 ≤ n) (h : n < 128) : signed c = n ↔ (c.toNat : Int) = n := by
  have hlt := c.toNat_lt
  unfold signed
  split <;> omega

theorem signed_between {c : UInt8} {m n : Int} (h0 : 0 ≤ m) (h : n < 128) :
    (signed c ≥ m ∧ signed c ≤ n) ↔ m ≤ (c.toNat : Int) ∧ (c.toNat : Int) ≤ n := by
  have hlt := c.toNat_lt
  unfold signed
  split <;> omega

theorem signed_eq_byte {c : UInt8} (b : UInt8) (h : b.toNat < 128) : signed c = b.toNat ↔ c = b := by
  rw [signed_eq (by omega) (by omega), ← UInt8.toNat_inj]
  omega

theorem isLetter_iff {c : UInt8} : (signed c ≥ 0x61 ∧ signed c ≤ 0x7A) ↔ IsLetter c := by
  rw [signed_between (by decide) (by decide)]
  unfold IsLetter
  rw [UInt8.le_iff_toNat_le, UInt8.le_iff_toNat_le]
  show _ ↔ 0x61 ≤ c.toNat ∧ c.toNat ≤ 0x7A
  omega

theorem printable_iff {c : UInt8} : (signed c ≥ 32 ∧ signed c ≤ 126) ↔ Printable c := by
  rw [signed_between (by decide) (by decide)]
  unfold Printable
  rw [UInt8.le_iff_toNat_le, UInt8.le_iff_toNat_le]
  show _ ↔ 0x20 ≤ c.toNat ∧ c.toNat ≤ 0x7E
  omega

theorem mapped_eq (keys : KeyState) (keycode : UInt8) : mapped keys keycode = keys.character keycode := by
  unfold mapped KeyState.character
  dsimp only
  simp only [isLetter_iff]
  split
  · cases keys.shift <;> cases keys.caps <;> rfl
  · rfl

/-! ### What the buffer holds -/

/-- The line is in the buffer, without an end. -/
structure Holds (e : Editor σ) (line : List UInt8) : Prop where
  pos : e.cmdPos = line.length
  bytes : ∀ i (hi : i < line.length), e.cmdBuffer i = (line)[i]
  printable : ∀ c ∈ line, Printable c
  short : line.length ≤ 63
  written : ∀ i ∈ e.written, i ≤ 63

/-- The line is in the buffer, with an end. -/
structure Reads (buffer : Nat → UInt8) (line : List UInt8) : Prop where
  bytes : ∀ i (hi : i < line.length), buffer i = (line)[i]
  nul : buffer line.length = 0
  nonzero : ∀ c ∈ line, c ≠ 0

variable {e : Editor σ} {line : List UInt8} {keycode : UInt8}

theorem Holds.backspace (h : Holds e line) : Holds (e.backspace K) line.dropLast := by
  have hpos := h.pos
  have hlen : line.dropLast.length = line.length - 1 := List.length_dropLast
  have hshort := h.short
  have hbytes : ∀ i (hi : i < line.dropLast.length), e.cmdBuffer i = line.dropLast[i] := fun i hi => by
    rw [List.getElem_dropLast]
    exact h.bytes i (by omega)
  have hprint : ∀ c ∈ line.dropLast, Printable c := fun c hc => h.printable c ((List.dropLast_sublist line).subset hc)
  unfold Editor.backspace
  split
  · exact ⟨by dsimp only; omega, hbytes, hprint, by omega, h.written⟩
  · exact ⟨by omega, hbytes, hprint, by omega, h.written⟩

theorem character_keys (keycode : UInt8) : (e.character K keycode).keys = e.keys := by
  unfold Editor.character
  dsimp only
  split
  · split <;> rfl
  · rfl

theorem Holds.character (h : Holds e line) (hpress : IsPress keycode) (hback : keycode ≠ 0x0E) :
    Holds (e.character K keycode) (edit e.keys line keycode) := by
  have hpos := h.pos
  unfold Editor.character edit
  rw [if_neg (not_not.mpr hpress), if_neg hback]
  dsimp only
  rw [mapped_eq]
  simp only [printable_iff]
  unfold cmdMaxLen
  by_cases hlt : e.cmdPos < 64 - 1
  · rw [if_pos hlt]
    by_cases hprint : Printable (e.keys.character keycode)
    · rw [if_pos hprint, if_pos ⟨hprint, by omega⟩]
      refine ⟨?_, fun i hi => ?_, fun c hc => ?_, ?_, fun i hi => ?_⟩
      · show e.cmdPos + 1 = _
        rw [List.length_append, hpos, List.length_singleton]
      · show Function.update e.cmdBuffer e.cmdPos _ i = _
        rw [List.length_append, List.length_singleton] at hi
        by_cases hi' : i < line.length
        · rw [Function.update_of_ne (by omega), h.bytes i hi', List.getElem_append_left hi']
        · have hlast : i = e.cmdPos := by omega
          rw [List.getElem_append_right (by omega), List.getElem_singleton, hlast, Function.update_self]
      · cases List.mem_append.mp hc with
        | inl hc => exact h.printable c hc
        | inr hc => exact List.mem_singleton.mp hc ▸ hprint
      · rw [List.length_append, List.length_singleton]
        omega
      · cases List.mem_cons.mp hi with
        | inl hi => omega
        | inr hi => exact h.written i hi
    · rw [if_neg hprint, if_neg fun hc => hprint hc.1]
      exact h
  · rw [if_neg hlt, if_neg fun hc => hlt (by omega)]
    exact h

theorem Holds.reads (h : Holds e line) : Reads (e.put e.cmdPos 0).cmdBuffer line := by
  constructor
  · intro i hi
    have hpos := h.pos
    exact (Function.update_of_ne (by omega) _ _).trans (h.bytes i hi)
  · rw [← h.pos]
    exact Function.update_self _ _ _
  · intro c hc h0
    have hp := (h.printable c hc).1
    rw [h0] at hp
    exact absurd hp (by decide)

/-- The end is found. -/
theorem Reads.firstSpace {buffer : Nat → UInt8} (h : Reads buffer line) {fuel i : Nat} (hi : i ≤ line.length)
    (hfuel : line.length < i + fuel) : ∃ sp, firstSpace buffer fuel i = some sp ∧ ∀ j ∈ sp, j < line.length := by
  induction fuel generalizing i with
  | zero => omega
  | succ fuel ih =>
    unfold Shell.firstSpace
    by_cases h0 : buffer i = 0
    · rw [if_pos h0]
      exact ⟨none, rfl, nofun⟩
    · have hlt : i < line.length := by
        apply Nat.lt_of_le_of_ne hi
        rintro rfl
        exact h0 h.nul
      rw [if_neg h0]
      split
      · exact ⟨some i, rfl, fun j hj => Option.some.inj hj ▸ hlt⟩
      · exact ih hlt (by omega)

/-- After enter the line is empty, whatever is left in the buffer. -/
theorem Holds.enter (h : Holds e line) : ∃ r, e.enter K = some r ∧ Holds r.editor [] ∧ r.editor.keys = e.keys ∧
    (r.called.isSome ↔ K.currentDir (K.newline e.console) = true ∧ line ≠ []) ∧
      ∀ buffer ∈ r.called, Reads buffer line := by
  have hreads := h.reads
  have hpos := h.pos
  have hshort := h.short
  have hwritten : ∀ i ∈ (e.put e.cmdPos 0).written, i ≤ 63 := fun i hi => by
    cases List.mem_cons.mp hi with
    | inl hi => omega
    | inr hi => exact h.written i hi
  have hcall : (K.currentDir (K.newline e.console) = true ∧ e.cmdPos > 0) ↔
      K.currentDir (K.newline e.console) = true ∧ line ≠ [] := by
    rw [hpos, gt_iff_lt, List.length_pos_iff]
  have hempty : ∀ (buffer : Nat → UInt8) (written : List Nat) (console : σ), (∀ i ∈ written, i ≤ 63) →
      Holds (⟨e.keys, buffer, 0, written, console⟩ : Editor σ) [] :=
    fun _ _ _ hw => ⟨rfl, nofun, nofun, Nat.zero_le _, hw⟩
  unfold Editor.enter
  dsimp only
  by_cases hc : K.currentDir (K.newline (e.put e.cmdPos 0).console) = true ∧ (e.put e.cmdPos 0).cmdPos > 0
  · rw [if_pos hc, if_pos hc]
    obtain ⟨sp, hsp, hlt⟩ := hreads.firstSpace (Nat.zero_le _)
      (show line.length < 0 + cmdMaxLen by unfold cmdMaxLen; omega)
    unfold Editor.handleCommand
    dsimp only
    rw [hsp]
    cases sp with
    | none =>
      exact ⟨_, rfl, hempty _ _ _ hwritten, rfl, iff_of_true rfl (hcall.mp hc),
        fun buffer hb => Option.some.inj hb ▸ hreads⟩
    | some i =>
      refine ⟨_, rfl, hempty _ _ _ fun j hj => ?_, rfl, iff_of_true rfl (hcall.mp hc),
        fun buffer hb => Option.some.inj hb ▸ hreads⟩
      cases List.mem_cons.mp hj with
      | inl hj =>
        have hi := hlt i rfl
        omega
      | inr hj => exact hwritten j hj
  · rw [if_neg hc, if_neg hc]
    exact ⟨_, rfl, hempty _ _ _ hwritten, rfl, iff_of_false nofun fun h => hc (hcall.mpr h), nofun⟩

/-! ### One interrupt -/

/-- The scan code that is handled, if there is one. -/
def Interrupt.code (i : Interrupt) : Option UInt8 := if i.status &&& 1 = 0 then none else some i.keycode

theorem Holds.withKeys (h : Holds e line) (keys : KeyState) : Holds {e with keys := keys} line :=
  ⟨h.pos, h.bytes, h.printable, h.short, h.written⟩

theorem after_of_not_modifier (keys : KeyState) (h : ¬ IsModifier keycode) : keys.after keycode = keys := by
  simp only [IsModifier, List.mem_cons, List.not_mem_nil, or_false, not_or] at h
  unfold KeyState.after
  simp [h]

theorem edit_of_not_press (keys : KeyState) (line : List UInt8) (h : ¬ IsPress keycode) :
    edit keys line keycode = line :=
  if_pos h

theorem not_enter_of_not_press (h : ¬ IsPress keycode) : ¬ IsEnter keycode := fun he => h he.1

/-- The four comparisons for modifiers are between the right values. -/
theorem modifier_cases (keycode : UInt8) :
    ((signed keycode = 0x2A ∨ keycode = 0xAA ∨ signed keycode = 0x36 ∨ keycode = 0xB6) ↔
      keycode ∈ [(0x2A : UInt8), 0xAA, 0x36, 0xB6]) ∧
    ((signed keycode = 0x38 ∨ keycode = 0xB8) ↔ keycode ∈ [(0x38 : UInt8), 0xB8]) ∧
    ((signed keycode = 0x1D ∨ keycode = 0x9D) ↔ keycode ∈ [(0x1D : UInt8), 0x9D]) ∧
    (signed keycode = 0x3A ↔ keycode = 0x3A) := by
  have h2A : signed keycode = 0x2A ↔ keycode = 0x2A := signed_eq_byte 0x2A (by decide)
  have h36 : signed keycode = 0x36 ↔ keycode = 0x36 := signed_eq_byte 0x36 (by decide)
  have h38 : signed keycode = 0x38 ↔ keycode = 0x38 := signed_eq_byte 0x38 (by decide)
  have h1D : signed keycode = 0x1D ↔ keycode = 0x1D := signed_eq_byte 0x1D (by decide)
  have h3A : signed keycode = 0x3A ↔ keycode = 0x3A := signed_eq_byte 0x3A (by decide)
  simp only [h2A, h36, h38, h1D, h3A, List.mem_cons, List.not_mem_nil, or_false, and_self]

/-- What an interrupt makes of the line, and what `handle_command` reads. -/
structure Follows (e : Editor σ) (line : List UInt8) (keycode : UInt8) (r : Handled σ) : Prop where
  keys : r.editor.keys = e.keys.after keycode
  holds : Holds r.editor (if IsEnter keycode then [] else edit e.keys line keycode)
  called_iff : r.called.isSome ↔ IsEnter keycode ∧ K.currentDir (K.newline e.console) = true ∧ line ≠ []
  reads : ∀ buffer ∈ r.called, Reads buffer line

/-- What is not a press changes at most the modifiers. -/
theorem Holds.ignored (h : Holds e line) (hpress : ¬ IsPress keycode) {keys : KeyState}
    (hkeys : keys = e.keys.after keycode) :
    Follows K e line keycode ⟨{e with keys := keys}, none⟩ := by
  refine ⟨hkeys, ?_, iff_of_false nofun fun hc => not_enter_of_not_press hpress hc.1, nofun⟩
  rw [if_neg (not_enter_of_not_press hpress), edit_of_not_press _ _ hpress]
  exact h.withKeys keys

theorem Holds.interrupt (h : Holds e line) {i : Interrupt} (hi : i.code = some keycode) :
    ∃ r, e.interrupt K i = some r ∧ Follows K e line keycode r := by
  unfold Interrupt.code at hi
  split at hi
  · cases hi
  next hstatus =>
  cases hi
  unfold Editor.interrupt
  rw [if_neg hstatus]
  dsimp only
  generalize i.keycode = k
  obtain ⟨hshift, halt, hctrl, hcaps⟩ := modifier_cases k
  have hmod : ∀ {l : List UInt8}, l ⊆ [(0x2A : UInt8), 0xAA, 0x36, 0xB6, 0x38, 0xB8, 0x1D, 0x9D, 0x3A] →
    k ∈ l → ¬ IsPress k :=
    fun hl hk hp => hp.1 (hl hk)
  simp only [hshift, halt, hctrl, hcaps]
  by_cases h1 : k ∈ [(0x2A : UInt8), 0xAA, 0x36, 0xB6]
  · rw [if_pos h1]
    refine ⟨_, rfl, h.ignored K (hmod (by decide) h1) ?_⟩
    simp only [List.mem_cons, List.not_mem_nil, or_false] at h1
    obtain rfl | rfl | rfl | rfl := h1 <;> rfl
  rw [if_neg h1]
  by_cases h2 : k ∈ [(0x38 : UInt8), 0xB8]
  · rw [if_pos h2]
    refine ⟨_, rfl, h.ignored K (hmod (by decide) h2) ?_⟩
    simp only [List.mem_cons, List.not_mem_nil, or_false] at h2
    obtain rfl | rfl := h2 <;> rfl
  rw [if_neg h2]
  by_cases h3 : k ∈ [(0x1D : UInt8), 0x9D]
  · rw [if_pos h3]
    refine ⟨_, rfl, h.ignored K (hmod (by decide) h3) ?_⟩
    simp only [List.mem_cons, List.not_mem_nil, or_false] at h3
    obtain rfl | rfl := h3 <;> rfl
  rw [if_neg h3]
  by_cases h4 : k = 0x3A
  · rw [if_pos h4]
    subst h4
    exact ⟨_, rfl, h.ignored K (by decide) rfl⟩
  rw [if_neg h4]
  -- the rest leaves the modifiers as they are
  have hnot : ¬ IsModifier k := fun hk => by
    have hsplit : k ∈ [(0x2A : UInt8), 0xAA, 0x36, 0xB6] ++
      ([(0x38 : UInt8), 0xB8] ++ ([(0x1D : UInt8), 0x9D] ++ [0x3A])) := hk
    simp only [List.mem_append, h1, h2, h3, false_or] at hsplit
    exact h4 (List.mem_singleton.mp hsplit)
  have hafter := after_of_not_modifier e.keys hnot
  by_cases h5 : k > 127
  · rw [if_pos h5]
    exact ⟨_, rfl, h.ignored K (fun hp => absurd hp.2 (UInt8.not_le.mpr h5)) hafter.symm⟩
  rw [if_neg h5]
  have hpress : IsPress k := ⟨hnot, UInt8.not_lt.mp h5⟩
  by_cases h6 : lookup keyboardMap k = 0x0A
  · rw [if_pos h6]
    have henter : IsEnter k := ⟨hpress, h6⟩
    obtain ⟨r, hr, hholds, hkeys, hcalled, hreads⟩ := h.enter K
    refine ⟨r, hr, hkeys.trans hafter.symm, ?_, ?_, hreads⟩
    · rw [if_pos henter]
      exact hholds
    · rw [hcalled, and_iff_right henter]
  rw [if_neg h6]
  have henter : ¬ IsEnter k := fun he => h6 he.2
  have hnone : (none : Option (Nat → UInt8)).isSome ↔
      IsEnter k ∧ K.currentDir (K.newline e.console) = true ∧ line ≠ [] := iff_of_false nofun fun hc => henter hc.1
  have hback : signed k = 0x0E ↔ k = 0x0E := signed_eq_byte 0x0E (by decide)
  simp only [hback]
  by_cases h7 : k = 0x0E
  · rw [if_pos h7]
    refine ⟨_, rfl, ?_, ?_, hnone, nofun⟩
    · unfold Editor.backspace
      split <;> exact hafter.symm
    · rw [if_neg henter]
      unfold edit
      rw [if_neg (not_not.mpr hpress), if_pos h7]
      exact h.backspace K
  · rw [if_neg h7]
    refine ⟨_, rfl, ?_, ?_, hnone, nofun⟩
    · exact (character_keys K k).trans hafter.symm
    · rw [if_neg henter]
      exact h.character K hpress h7

/-- Without a scan code nothing changes. -/
theorem interrupt_none {i : Interrupt} (hi : i.code = none) : e.interrupt K i = some ⟨e, none⟩ := by
  unfold Interrupt.code at hi
  split at hi
  · next hstatus => exact if_pos hstatus
  · cases hi

/-! ### Runs -/

def Start (keys : KeyState) (e : Editor σ) : Prop := e.keys = keys ∧ e.cmdPos = 0 ∧ e.written = []

def Step (e : Editor σ) (i : Interrupt) (e' : Editor σ) : Prop := ∃ r, e.interrupt K i = some r ∧ r.editor = e'

/-- The scan codes of a run. -/
def codes (tr : List (Editor σ × Interrupt)) : List UInt8 := tr.filterMap fun x => x.2.code

variable {K} {tr : List (Editor σ × Interrupt)} {keys : KeyState}

theorem holds_of_run (h : Run (Start keys) (Step K) tr e) :
    e.keys = (codes tr).foldl KeyState.after keys ∧ Holds e (reference keys (codes tr)) := by
  induction h with
  | start h =>
    obtain ⟨hkeys, hpos, hwritten⟩ := h
    exact ⟨hkeys, hpos, nofun, nofun, Nat.zero_le _, fun i hi => nomatch hwritten ▸ hi⟩
  | @next tr e i e' _ hstep ih =>
    obtain ⟨hkeys, hholds⟩ := ih
    obtain ⟨r, hr, rfl⟩ := hstep
    have hcodes : codes (tr ++ [(e, i)]) = codes tr ++ i.code.toList := by
      unfold codes
      rw [List.filterMap_append]
      cases hi : i.code <;> simp [hi]
    rw [hcodes]
    cases hi : i.code with
    | none =>
      rw [interrupt_none K hi] at hr
      cases hr
      rw [Option.toList_none, List.append_nil]
      exact ⟨hkeys, hholds⟩
    | some k =>
      obtain ⟨r', hr', hfollows⟩ := hholds.interrupt K hi
      cases hr.symm.trans hr'
      rw [Option.toList_some, List.foldl_append, ← hkeys]
      refine ⟨hfollows.keys, ?_⟩
      have hline := hfollows.holds
      by_cases hk : IsEnter k
      · rw [if_pos hk] at hline
        rw [reference_enter keys _ hk]
        exact hline
      · rw [if_neg hk, hkeys] at hline
        rw [reference_append keys _ hk]
        exact hline

/-- Every sequence of interrupts is handled. -/
theorem exists_run (h : Start keys e) (is : List Interrupt) : ∃ tr e', Run (Start keys) (Step K) tr e' ∧
    codes tr = is.filterMap Interrupt.code := by
  induction is using List.reverseRecOn with
  | nil => exact ⟨[], e, .start h, rfl⟩
  | append_singleton is i ih =>
    obtain ⟨tr, e', hrun, hcodes⟩ := ih
    have hnext : ∃ r, e'.interrupt K i = some r := by
      cases hi : i.code with
      | none => exact ⟨_, interrupt_none K hi⟩
      | some k =>
        obtain ⟨r, hr, -⟩ := (holds_of_run hrun).2.interrupt K hi
        exact ⟨r, hr⟩
    obtain ⟨r, hr⟩ := hnext
    refine ⟨_, r.editor, hrun.next ⟨r, hr, rfl⟩, ?_⟩
    unfold codes at hcodes ⊢
    rw [List.filterMap_append, List.filterMap_append, hcodes]
    rfl

/-- Throughout, the buffer is not written outside its bounds, and with an enter
`handle_command` reads what has been typed since the last one. -/
theorem run_types (h : Run (Start keys) (Step K) tr e) : (∀ j ∈ e.written, j ≤ cmdMaxLen - 1) ∧
    e.cmdPos ≤ cmdMaxLen - 1 ∧
    ∀ i, ∃ r, e.interrupt K i = some r ∧
      (r.called.isSome ↔ (∃ k ∈ i.code, IsEnter k) ∧ K.currentDir (K.newline e.console) = true ∧
        reference keys (codes tr) ≠ []) ∧
      ∀ buffer ∈ r.called, Reads buffer (reference keys (codes tr)) := by
  obtain ⟨-, hholds⟩ := holds_of_run h
  refine ⟨hholds.written, hholds.pos ▸ hholds.short, fun i => ?_⟩
  cases hi : i.code with
  | none => exact ⟨_, interrupt_none K hi, iff_of_false nofun fun ⟨⟨k, hk, _⟩, _⟩ => (nomatch hk), nofun⟩
  | some k =>
    obtain ⟨r, hr, hfollows⟩ := hholds.interrupt K hi
    refine ⟨r, hr, ?_, hfollows.reads⟩
    rw [hfollows.called_iff]
    exact and_congr_left' ⟨fun hk => ⟨k, rfl, hk⟩, fun ⟨k', hk', henter⟩ => Option.some.inj hk' ▸ henter⟩

/-- A console with nothing behind it. -/
def blank : Console Unit where
  newline _ := ()
  prompt _ := ()
  erase _ := ()
  echo _ _ := ()
  currentDir _ := true
  command _ _ _ := ()

/-- With shift held, `l`; then `x`, a backspace, `s` and enter. -/
theorem run_types_ls : ∃ tr e r buffer, Run (Start ⟨false, false, false, false⟩) (Step blank) tr e ∧
    e.interrupt blank ⟨1, 0x1C, 0⟩ = some r ∧ buffer ∈ r.called ∧ Reads buffer [0x4C, 0x73] := by
  obtain ⟨tr, e, hrun, hcodes⟩ := exists_run (K := blank) (e := ⟨⟨false, false, false, false⟩, fun _ => 7, 0, [], ()⟩)
    ⟨rfl, rfl, rfl⟩ [⟨1, 0x2A, 0⟩, ⟨1, 0x26, 0⟩, ⟨1, 0xAA, 0⟩, ⟨1, 0x2D, 0⟩, ⟨0, 0, 0⟩, ⟨1, 0x0E, 0⟩, ⟨1, 0x1F, 0⟩]
  obtain ⟨-, -, hnext⟩ := run_types hrun
  obtain ⟨r, hr, hcalled, hreads⟩ := hnext ⟨1, 0x1C, 0⟩
  have href : reference ⟨false, false, false, false⟩ (codes tr) = [0x4C, 0x73] := by
    rw [hcodes]
    decide +kernel
  rw [href] at hcalled hreads
  obtain ⟨buffer, hb⟩ := Option.isSome_iff_exists.mp (hcalled.mpr ⟨⟨0x1C, rfl, by decide⟩, rfl, List.cons_ne_nil _ _⟩)
  exact ⟨tr, e, r, buffer, hrun, hr, hb, hreads buffer hb⟩

end Shell
end ShompOS
