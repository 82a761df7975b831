import Mathlib.Logic.Function.Basic

/-! The keyboard interrupt (`handle_keyboard_interrupt`, `kernel.c`; `keyboard_map.h`,
`keyboard_map_shift.h`).

One interrupt delivers a scan code, or two if the first is the prefix `0xE0`. The
handler keeps the modifiers and edits the command line in `cmd_buffer`; with
enter it hands the line to `handle_command`, which cuts it at the first space in
place. Every index stored to is recorded. What a command does, and what is shown
on the terminal, is left to the `Console`. -/
namespace ShompOS
namespace Shell

def cmdMaxLen : Nat := 64

def keyboardMap : List Char :=
  [' ', ' ', '1', '2', '3', '4', '5', '6', '7', '8',
    '9', '0', '-', '=', ' ', ' ', 'q', 'w', 'e', 'r',
    't', 'y', 'u', 'i', 'o', 'p', '[', ']', '\n', ' ',
    'a', 's', 'd', 'f', 'g', 'h', 'j', 'k', 'l', ';',
    ' ', '\x60', ' ', ' ', 'z', 'x', 'c', 'v', 'b', 'n',
    'm', ',', '.', '/', ' ', '*', ' ', ' ', ' ', ' ',
    ' ', ' ', ' ', ' ', ' ', ' ', ' ', ' ', ' ', ' ',
    ' ', '7', '8', '9', '-', '4', '5', '6', ' ', '1',
    '2', '3', '0', '.'] ++ List.replicate 44 ' '

def keyboardMapShift : List Char :=
  [' ', ' ', '!', '@', '#', '$', '%', '^', '&', '*',
    '(', ')', '_', '+', ' ', ' ', 'Q', 'W', 'E', 'R',
    'T', 'Y', 'U', 'I', 'O', 'P', '\x7b', '\x7d', '\n', ' ',
    'A', 'S', 'D', 'F', 'G', 'H', 'J', 'K', 'L', ':',
    ' ', '~', ' ', ' ', 'Z', 'X', 'C', 'V', 'B', 'N',
    'M', '<', '>', '?', ' ', '*', ' ', ' ', ' ', ' ',
    ' ', ' ', ' ', ' ', ' ', ' ', ' ', ' ', ' ', ' ',
    ' ', '7', '8', '9', '-', '4', '5', '6', ' ', '1',
    '2', '3', '0', '.'] ++ List.replicate 44 ' '

/-- The character of a scan code below 128. -/
def lookup (map : List Char) (keycode : UInt8) : UInt8 := UInt8.ofNat (map.getD keycode.toNat ' ').toNat

/-- The value of a `char` in a comparison. -/
def signed (c : UInt8) : Int := if c.toNat < 128 then c.toNat else c.toNat - 256

/-- `special_key_state`: its fields have one bit. -/
structure KeyState where
  caps : Bool
  alt : Bool
  ctrl : Bool
  shift : Bool
  deriving DecidableEq

/-- What the handler reads from the ports. -/
structure Interrupt where
  status : UInt8
  data : UInt8
  /-- The byte after a prefix. -/
  next : UInt8

/-- What the handler shows on the terminal and writes to the standard streams, and
what the commands do. A command gets the line and where its arguments start. -/
structure Console (σ : Type) where
  newline : σ → σ
  prompt : σ → σ
  erase : σ → σ
  echo : σ → UInt8 → σ
  currentDir : σ → Bool
  command : σ → (Nat → UInt8) → Option Nat → σ

structure Editor (σ : Type) where
  keys : KeyState
  cmdBuffer : Nat → UInt8
  cmdPos : Nat
  /-- The indices of `cmd_buffer` stored to so far, the latest first. -/
  written : List Nat
  console : σ

variable {σ : Type} (K : Console σ)

def Editor.put (e : Editor σ) (i : Nat) (c : UInt8) : Editor σ :=
  {e with cmdBuffer := Function.update e.cmdBuffer i c, written := i :: e.written}

/-- The first space of the line from `i` on. -/
def firstSpace (cmd : Nat → UInt8) : Nat → Nat → Option (Option Nat)
  -- no end in the buffer
  | 0, _ => none
  | fuel + 1, i =>
    if cmd i = 0 then some none
    else if cmd i = 0x20 then some (some i)
    else firstSpace cmd fuel (i + 1)

def Editor.handleCommand (e : Editor σ) : Option (Editor σ) :=
  (firstSpace e.cmdBuffer cmdMaxLen 0).map fun
    | none => {e with console := K.command e.console e.cmdBuffer none}
    | some i =>
      let e := e.put i 0
      {e with console := K.command e.console e.cmdBuffer (some (i + 1))}

/-- The state after an interrupt, and the line if `handle_command` was called. -/
structure Handled (σ : Type) where
  editor : Editor σ
  called : Option (Nat → UInt8)

def Editor.enter (e : Editor σ) : Option (Handled σ) :=
  let e := e.put e.cmdPos 0
  let e := {e with console := K.newline e.console}
  let line := e.cmdBuffer
  let call := K.currentDir e.console = true ∧ e.cmdPos > 0
  (if call then e.handleCommand K else some e).map fun e =>
    ⟨{e with cmdPos := 0, console := K.prompt e.console}, if call then some line else none⟩

def Editor.backspace (e : Editor σ) : Editor σ :=
  if e.cmdPos > 0 then {e with cmdPos := e.cmdPos - 1, console := K.erase e.console} else e

/-- The character that a key stands for with the modifiers. -/
def mapped (keys : KeyState) (keycode : UInt8) : UInt8 :=
  let c := lookup keyboardMap keycode
  if signed c ≥ 0x61 ∧ signed c ≤ 0x7A then
    if xor keys.shift keys.caps = true then c - 32 else c
  else if keys.shift = true then lookup keyboardMapShift keycode
  else c

def Editor.character (e : Editor σ) (keycode : UInt8) : Editor σ :=
  if e.cmdPos < cmdMaxLen - 1 then
    let c := mapped e.keys keycode
    if signed c ≥ 32 ∧ signed c ≤ 126 then
      let e := e.put e.cmdPos c
      {e with cmdPos := e.cmdPos + 1, console := K.echo e.console c}
    else e
  else e

def Interrupt.keycode (i : Interrupt) : UInt8 := if i.data = 0xE0 ∨ i.data = 224 then i.next else i.data

/-- `1 - (keycode >> 7)` -/
def pressed (keycode : UInt8) : Bool := keycode >>> 7 = 0

/-- `handle_keyboard_interrupt` -/
def Editor.interrupt (e : Editor σ) (i : Interrupt) : Option (Handled σ) :=
  if i.status &&& 1 = 0 then some ⟨e, none⟩
  else
    let keycode := i.keycode
    if signed keycode = 0x2A ∨ keycode = 0xAA ∨ signed keycode = 0x36 ∨ keycode = 0xB6 then
      some ⟨{e with keys := {e.keys with shift := pressed keycode}}, none⟩
    else if signed keycode = 0x38 ∨ keycode = 0xB8 then
      some ⟨{e with keys := {e.keys with alt := pressed keycode}}, none⟩
    else if signed keycode = 0x1D ∨ keycode = 0x9D then
      some ⟨{e with keys := {e.keys with ctrl := pressed keycode}}, none⟩
    else if signed keycode = 0x3A then
      some ⟨{e with keys := {e.keys with caps := !e.keys.caps}}, none⟩
    else if keycode > 127 then some ⟨e, none⟩
    else if lookup keyboardMap keycode = 0x0A then e.enter K
    else if signed keycode = 0x0E then some ⟨e.backspace K, none⟩
    else some ⟨e.character K keycode, none⟩

end Shell
end ShompOS
