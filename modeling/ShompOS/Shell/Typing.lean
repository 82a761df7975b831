import ShompOS.Shell.Commands
import ShompOS.Shell.LineEditor

/-! The keyboard handler at work on the file system (`handle_keyboard_interrupt`, `kernel.c`).

Here the console is a shell: what is typed goes through `ramfs_write` to the standard input
and output, and a line is handed to the commands. `Typing` is what a user would say has
been typed. -/
namespace ShompOS
open Memory

/-- Where the handler has its data. -/
structure KeyboardData where
  cmdBuffer : Nat
  /-- The literal `"\n"`. -/
  newline : Nat
  /-- The local variable `c`. -/
  c : Nat

namespace Shell

/-! ### The console -/

section Handler
variable (L : Layout) (R : Rodata) (initElf : Ramfs → Nat → Option Ramfs) (D : KeyboardData)

/-- The two calls of `ramfs_write` with one byte. -/
def writeBoth (s : Shell) (buf : Nat) : Option Shell :=
  (s.ramfs.ramfsWrite L stdinFileno buf 1).bind fun (r, _) =>
    (r.ramfsWrite L stdoutFileno buf 1).map fun (r, _) => s.withRamfs r

def newline (s : Shell) : Option Shell := (s.writeBoth L D.newline).map fun s => s.print "\n"

def echo (s : Shell) (c : UInt8) : Option Shell := (s.withMem (s.mem.store8 D.c c.toNat)).writeBoth L D.c

/-- `cmd_buffer` with what the handler has put there. -/
def withBuffer (m : Memory) (cmdBuffer : Nat) (buffer : Nat → UInt8) : Memory :=
  {m with byte := fun x => if cmdBuffer ≤ x ∧ x < cmdBuffer + cmdMaxLen then buffer (x - cmdBuffer) else m.byte x}

/-- What `handle_command` does when it has looked for a space; it has put a 0 in front of
the arguments. -/
def command (s : Shell) (buffer : Nat → UInt8) : Option Nat → Option Shell
  | none => (s.withMem (withBuffer s.mem D.cmdBuffer buffer)).perform L R initElf D.cmdBuffer 0
  | some args =>
    (s.withMem ((withBuffer s.mem D.cmdBuffer buffer).store8 (D.cmdBuffer + (args - 1)) 0)).perform L R initElf
      D.cmdBuffer (wrap (D.cmdBuffer + args))

/-- A shell for a console; there is none any more if something did not return. What a
backspace does to the screen is not sent to the terminal. -/
def console : Console (Option Shell) where
  newline s := s.bind (newline L D)
  prompt s := s.map fun s => s.print "shompOS> "
  erase s := s
  echo s c := s.bind fun s => s.echo L D c
  currentDir s := s.any fun s => s.currentDir ≠ 0
  command s buffer args := s.bind fun s => s.command L R initElf D buffer args

end Handler

/-! ### What is typed -/

/-- The key puts a character on a line of that length. -/
def Types (keys : KeyState) (pos : Nat) (keycode : UInt8) : Prop :=
  IsPress keycode ∧ keycode ≠ 0x0E ∧ Printable (keys.character keycode) ∧ pos < 63

instance (keys : KeyState) (pos : Nat) : DecidablePred (Types keys pos) :=
  fun _ => inferInstanceAs (Decidable (_ ∧ _))

/-- What is sent to the terminal for a scan code. -/
def sends (keys : KeyState) (pos : Nat) (keycode : UInt8) : List UInt8 :=
  if IsEnter keycode then [0x0A] else if Types keys pos keycode then [keys.character keycode] else []

theorem sends_enter {keys : KeyState} {pos : Nat} {k : UInt8} (h : IsEnter k) : sends keys pos k = [0x0A] := if_pos h

theorem sends_types {keys : KeyState} {pos : Nat} {k : UInt8} (h : ¬ IsEnter k) (ht : Types keys pos k) :
    sends keys pos k = [keys.character k] :=
  (if_neg h).trans (if_pos ht)

theorem sends_nothing {keys : KeyState} {pos : Nat} {k : UInt8} (h : ¬ IsEnter k) (ht : ¬ Types keys pos k) :
    sends keys pos k = [] :=
  (if_neg h).trans (if_neg ht)

structure Typing where
  keys : KeyState
  line : List UInt8
  /-- The characters that were accepted, with a newline for each enter. -/
  sent : List UInt8
  /-- The lines that were entered, but for empty ones. -/
  lines : List (List UInt8)

namespace Typing

def press (x : Typing) (keycode : UInt8) : Typing where
  keys := x.keys.after keycode
  line := if IsEnter keycode then [] else edit x.keys x.line keycode
  sent := x.sent ++ sends x.keys x.line.length keycode
  lines := if IsEnter keycode ∧ x.line ≠ [] then x.lines ++ [x.line] else x.lines

theorem press_lines (x : Typing) {k : UInt8} (h : IsEnter k) (hline : x.line ≠ []) :
    (x.press k).lines = x.lines ++ [x.line] :=
  if_pos ⟨h, hline⟩

def of (keys : KeyState) (codes : List UInt8) : Typing := codes.foldl press ⟨keys, [], [], []⟩

variable (keys : KeyState) (codes : List UInt8)

@[simp] theorem of_nil : of keys [] = ⟨keys, [], [], []⟩ := rfl

@[simp] theorem of_append (k : UInt8) : of keys (codes ++ [k]) = (of keys codes).press k := List.foldl_append

/-- The line is the one of the reference. -/
theorem of_line : (of keys codes).keys = codes.foldl KeyState.after keys ∧
    (of keys codes).line = reference keys codes := by
  induction codes using List.reverseRecOn with
  | nil => exact ⟨rfl, rfl⟩
  | append_singleton codes k ih =>
    rw [of_append, List.foldl_append, ← ih.1]
    refine ⟨rfl, ?_⟩
    unfold press
    dsimp only
    split
    · next hk => exact (reference_enter keys codes hk).symm
    · next hk => rw [reference_append keys codes hk, ih.1, ih.2]

theorem lines_subset_press (x : Typing) (k : UInt8) : x.lines ⊆ (x.press k).lines := by
  unfold press
  dsimp only
  split
  · exact List.subset_append_left _ _
  · exact List.Subset.refl _

end Typing

/-! ### What an interrupt shows on the console -/

variable {σ : Type} {K : Console σ} {e : Editor σ} {line : List UInt8} {keycode : UInt8} {i : Interrupt} {r : Handled σ}

/-- The buffer as `handle_command` leaves it when it has found that space, or none. -/
def cutAt (buffer : Nat → UInt8) : Option Nat → Nat → UInt8
  | none => buffer
  | some i => Function.update buffer i 0

/-- What the handler has the console do for a scan code. -/
inductive Shown (K : Console σ) (c : σ) (keys : KeyState) (line : List UInt8) (keycode : UInt8) : σ → Prop
  | nothing : ¬ IsEnter keycode → ¬ Types keys line.length keycode → Shown K c keys line keycode c
  | erase : ¬ IsEnter keycode → ¬ Types keys line.length keycode → Shown K c keys line keycode (K.erase c)
  | echo : ¬ IsEnter keycode → Types keys line.length keycode →
      Shown K c keys line keycode (K.echo c (keys.character keycode))
  | enter : IsEnter keycode → ¬ (K.currentDir (K.newline c) = true ∧ line ≠ []) →
      Shown K c keys line keycode (K.prompt (K.newline c))
  | command {buffer : Nat → UInt8} {space : Option Nat} : IsEnter keycode → line ≠ [] →
      K.currentDir (K.newline c) = true → Reads buffer line → firstSpace buffer cmdMaxLen 0 = some space →
        Shown K c keys line keycode (K.prompt (K.command (K.newline c) (cutAt buffer space) (space.map (· + 1))))

theorem not_types_of_not_press {keys : KeyState} (h : ¬ IsPress keycode) : ¬ Types keys line.length keycode :=
  fun ht => h ht.1

theorem Holds.shown_character (h : Holds e line) (hpress : IsPress keycode) (henter : ¬ IsEnter keycode)
    (hback : keycode ≠ 0x0E) : Shown K e.console e.keys line keycode (e.character K keycode).console := by
  have hpos := h.pos
  unfold Editor.character
  dsimp only
  simp only [mapped_eq, printable_iff]
  unfold cmdMaxLen
  split
  · split
    · next hlt hprint => exact .echo henter ⟨hpress, hback, hprint, by omega⟩
    · next hprint => exact .nothing henter fun ht => hprint ht.2.2.1
  · next hlt => exact .nothing henter fun ht => hlt (by have := ht.2.2.2; omega)

theorem Holds.shown_enter (h : Holds e line) (henter : IsEnter keycode) (hr : e.enter K = some r) :
    Shown K e.console e.keys line keycode r.editor.console := by
  have hreads := h.reads
  have hpos : e.cmdPos > 0 ↔ line ≠ [] := by rw [h.pos, gt_iff_lt, List.length_pos_iff]
  unfold Editor.enter at hr
  dsimp only at hr
  by_cases hc : K.currentDir (K.newline (e.put e.cmdPos 0).console) = true ∧ (e.put e.cmdPos 0).cmdPos > 0
  · rw [if_pos hc, if_pos hc] at hr
    obtain ⟨e', he', rfl⟩ := Option.map_eq_some_iff.mp hr
    obtain ⟨space, hspace, rfl⟩ := Option.map_eq_some_iff.mp he'
    cases space with
    | none => exact .command henter (hpos.mp hc.2) hc.1 hreads hspace
    | some j => exact .command henter (hpos.mp hc.2) hc.1 hreads hspace
  · rw [if_neg hc, if_neg hc] at hr
    cases hr
    exact .enter henter fun h => hc ⟨h.1, hpos.mpr h.2⟩

theorem Holds.shown (h : Holds e line) (hi : i.code = some keycode) (hr : e.interrupt K i = some r) :
    Shown K e.console e.keys line keycode r.editor.console := by
  unfold Interrupt.code at hi
  split at hi
  · cases hi
  next hstatus =>
  cases hi
  unfold Editor.interrupt at hr
  rw [if_neg hstatus] at hr
  dsimp only at hr
  generalize i.keycode = k at hr ⊢
  obtain ⟨hshift, halt, hctrl, hcaps⟩ := modifier_cases k
  have hback : signed k = 0x0E ↔ k = 0x0E := signed_eq_byte 0x0E (by decide)
  simp only [hshift, halt, hctrl, hcaps, hback] at hr
  by_cases hpress : IsPress k
  · -- a press is none of the modifiers, and no release
    have hmod : ∀ {l : List UInt8}, l ⊆ [(0x2A : UInt8), 0xAA, 0x36, 0xB6, 0x38, 0xB8, 0x1D, 0x9D, 0x3A] → k ∉ l :=
      fun hl hk => hpress.1 (hl hk)
    rw [if_neg (hmod (by decide)), if_neg (hmod (by decide)), if_neg (hmod (by decide)),
      if_neg fun he => hmod (l := [0x3A]) (by decide) (List.mem_singleton.mpr he),
      if_neg (UInt8.not_lt.mpr hpress.2)] at hr
    split at hr
    · next henter => exact h.shown_enter ⟨hpress, henter⟩ hr
    · next henter =>
      have henter : ¬ IsEnter k := fun he => henter he.2
      split at hr
      · next hb =>
        cases hr
        have hnot : ¬ Types e.keys line.length k := fun ht => ht.2.1 hb
        unfold Editor.backspace
        split
        · exact .erase henter hnot
        · exact .nothing henter hnot
      · next hb =>
        cases hr
        exact h.shown_character hpress henter hb
  · have hnothing : Shown K e.console e.keys line k e.console :=
      .nothing (not_enter_of_not_press hpress) (not_types_of_not_press hpress)
    split at hr
    · cases hr
      exact hnothing
    next h1 =>
    split at hr
    · cases hr
      exact hnothing
    next h2 =>
    split at hr
    · cases hr
      exact hnothing
    next h3 =>
    split at hr
    · cases hr
      exact hnothing
    next h4 =>
    split at hr
    · cases hr
      exact hnothing
    next h5 =>
    have hnot : ¬ IsModifier k := fun hk => by
      have hsplit : k ∈ [(0x2A : UInt8), 0xAA, 0x36, 0xB6] ++
        ([(0x38 : UInt8), 0xB8] ++ ([(0x1D : UInt8), 0x9D] ++ [0x3A])) := hk
      simp only [List.mem_append, h1, h2, h3, false_or] at hsplit
      exact h4 (List.mem_singleton.mp hsplit)
    exact absurd ⟨hnot, UInt8.not_lt.mp h5⟩ hpress

end Shell
end ShompOS
