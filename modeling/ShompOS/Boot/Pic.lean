import ShompOS.Boot.Idt
import ShompOS.Run

/-! The interrupt controllers (`kernel.c`).

Two 8259A controllers stand between the devices and the processor, the second at input 2
of the first. What is modelled of one is what the kernel's port writes and the devices
do with it: initialization, the mask, requests, which of them the processor is shown,
and the end of an interrupt. Whatever the controllers were set to before, after `init_idt`
and `init_kb` only the keyboard gets through, after `init_pit` the clock too; each is
taken at the vector of its handler, never while another has not been ended, and none
that waits is held up once it has. -/
namespace ShompOS

/-- The initialization word that a controller waits for. -/
inductive Expects
  | icw2
  | icw3
  | icw4
  deriving DecidableEq

/-- An 8259A. -/
structure Pic where
  irr : BitVec 8
  isr : BitVec 8
  imr : BitVec 8
  /-- The vector of input 0. -/
  base : BitVec 8
  /-- The input of lowest priority; the one after it has the highest. -/
  lowest : Fin 8
  specialMask : Bool
  autoEoi : Bool
  single : Bool
  needsIcw4 : Bool
  expects : Option Expects

namespace Pic

/-- The inputs, the one of highest priority first. -/
def order (p : Pic) : List Nat := (List.range 8).map fun i => (p.lowest + 1 + i) % 8

/-- An input in service holds up those of lower priority, unless masked in special mask mode. -/
def inService (p : Pic) (n : Nat) : Bool := p.isr.getLsbD n && !(p.specialMask && p.imr.getLsbD n)

def requested (p : Pic) (n : Nat) : Bool := p.irr.getLsbD n && !p.imr.getLsbD n

/-- The input that the controller shows the processor. -/
def requesting (p : Pic) : Option Nat :=
  (p.order.find? fun n => p.inService n || p.requested n).bind fun n => if p.inService n then none else some n

def bit (n : Nat) : BitVec 8 := 1#8 <<< n

/-- A device asks for an interrupt. -/
def raise (p : Pic) (n : Nat) : Pic := {p with irr := p.irr ||| bit n}

/-- The processor takes the interrupt of an input. -/
def acknowledge (p : Pic) (n : Nat) : Pic :=
  {p with irr := p.irr &&& ~~~bit n, isr := if p.autoEoi then p.isr else p.isr ||| bit n}

/-- A byte for the command port: the first initialization word or the end of an
interrupt, of any input or of one; the rest nobody writes. -/
def command (p : Pic) (v : BitVec 8) : Pic :=
  if v.getLsbD 4 then
    {p with
      irr := 0
      imr := 0
      lowest := 7
      specialMask := false
      autoEoi := v.getLsbD 0 && p.autoEoi
      single := v.getLsbD 1
      needsIcw4 := v.getLsbD 0
      expects := some .icw2}
  else if v >>> 3 = 0b00100#8 then
    (p.order.find? p.isr.getLsbD).elim p fun n => {p with isr := p.isr &&& ~~~bit n}
  else if v >>> 3 = 0b01100#8 then {p with isr := p.isr &&& ~~~bit (v &&& 7#8).toNat}
  else p

/-- What follows a word of the initialization. -/
def after (p : Pic) : Expects → Option Expects
  | .icw2 => if p.single then if p.needsIcw4 then some .icw4 else none else some .icw3
  | .icw3 => if p.needsIcw4 then some .icw4 else none
  | .icw4 => none

/-- A byte for the data port. -/
def data (p : Pic) (v : BitVec 8) : Pic :=
  match p.expects with
  | none => {p with imr := v}
  | some .icw2 => {p with base := v &&& 0xF8#8, expects := p.after .icw2}
  | some .icw3 => {p with expects := p.after .icw3}
  | some .icw4 => {p with autoEoi := v.getLsbD 1, expects := p.after .icw4}

end Pic

/-! ### The ports -/

/-- The two controllers, with the memory that the descriptors are in. -/
structure Board where
  pic1 : Pic
  pic2 : Pic
  mem : Memory

namespace Board

/-- `PIC1_COMMAND_PORT` -/
def pic1CommandPort : Nat := 0x20

/-- `PIC1_DATA_PORT` -/
def pic1DataPort : Nat := 0x21

/-- `PIC2_COMMAND_PORT` -/
def pic2CommandPort : Nat := 0xA0

/-- `PIC2_DATA_PORT` -/
def pic2DataPort : Nat := 0xA1

/-- `PIT_CHANNEL_0_DATA_PORT` -/
def pitChannel0DataPort : Nat := 0x40

/-- `PIT_COMMAND_MODE_PORT` -/
def pitCommandModePort : Nat := 0x43

/-- `ioport_out`; the other devices are nothing to the controllers. -/
def ioportOut (b : Board) (port : Nat) (v : BitVec 8) : Board :=
  if port = pic1CommandPort then {b with pic1 := b.pic1.command v}
  else if port = pic1DataPort then {b with pic1 := b.pic1.data v}
  else if port = pic2CommandPort then {b with pic2 := b.pic2.command v}
  else if port = pic2DataPort then {b with pic2 := b.pic2.data v}
  else b

/-- `ioport_in(PIC1_DATA_PORT)` -/
def pic1Mask (b : Board) : BitVec 8 := b.pic1.imr

/-- `init_idt` -/
def initIdt (I : Idt.Image) (b : Board) : Board :=
  [(pic1CommandPort, 0x11#8), (pic2CommandPort, 0x11#8),
    (pic1DataPort, 0x20#8), (pic2DataPort, 0x28#8),
    (pic1DataPort, 0x4#8), (pic2DataPort, 0x2#8),
    (pic1DataPort, 0x1#8), (pic2DataPort, 0x1#8),
    (pic1DataPort, 0xFF#8), (pic2DataPort, 0xFF#8)].foldl (fun b x => b.ioportOut x.1 x.2)
    {b with mem := Idt.initIdt I b.mem}

/-- `init_kb` -/
def initKb (b : Board) : Board := b.ioportOut pic1DataPort 0xFD#8

/-- `init_pit` -/
def initPit (b : Board) (divisor : Nat) : Board :=
  let b := b.ioportOut pitCommandModePort 0x36#8
  let b := b.ioportOut pitChannel0DataPort (BitVec.ofNat 8 (divisor % 2 ^ 8))
  let b := b.ioportOut pitChannel0DataPort (BitVec.ofNat 8 (divisor / 2 ^ 8 % 2 ^ 8))
  b.ioportOut pic1DataPort (b.pic1Mask &&& ~~~1#8)

/-- `ioport_out(PIC1_COMMAND_PORT, 0x20)`, with which both handlers begin. -/
def endInterrupt (b : Board) : Board := b.ioportOut pic1CommandPort 0x20#8

/-- One of the sixteen lines; the second controller asks the first through its input 2. -/
def raise (b : Board) (line : Nat) : Board :=
  if line < 8 then {b with pic1 := b.pic1.raise line}
  else
    let pic2 := b.pic2.raise (line - 8)
    {b with pic2 := pic2, pic1 := if pic2.requesting.isSome then b.pic1.raise 2 else b.pic1}

/-- The processor takes the interrupt that it is shown; with it comes the vector. -/
def take (b : Board) : Option (BitVec 8 × Board) :=
  b.pic1.requesting.map fun n =>
    let b' := {b with pic1 := b.pic1.acknowledge n}
    if n = 2 then
      -- without a request of the second controller it is a spurious one
      b.pic2.requesting.elim (b.pic2.base + 7#8, b') fun k =>
        (b.pic2.base + BitVec.ofNat 8 k, {b' with pic2 := b.pic2.acknowledge k})
    else (b.pic1.base + BitVec.ofNat 8 n, b')

end Board

/-! ### Runs -/

/-- The processor with the controllers, as far as interrupts go. -/
structure Controlled where
  board : Board
  /-- The interrupt flag. -/
  enabled : Bool
  /-- The vectors taken whose handler has not ended the interrupt, the latest first. -/
  pending : List (BitVec 8)

namespace Controlled

inductive Event
  /-- A device asks for an interrupt. -/
  | raise (line : Nat)
  /-- The processor takes one. -/
  | take
  | cli
  /-- The handler's C function ends the interrupt. -/
  | endInterrupt
  /-- `iret` or `sti`, or the `popfl` of a process that is switched to. -/
  | resume
  | initPit (divisor : Nat)

/-- After `init_idt`, `init_kb` and `enable_interrupts`, from controllers that have
nothing in service. -/
def Booted (I : Idt.Image) (s : Controlled) : Prop :=
  ∃ b : Board, b.pic1.isr = 0#8 ∧ (∀ x, I.idt ≤ x → x < I.idt + 8 * Idt.idtSize → b.mem.byte x = 0) ∧
    s = ⟨(b.initIdt I).initKb, true, []⟩

/-- An interrupt gate clears the interrupt flag, a trap gate does not. Handlers end an
interrupt with the flag clear and set it only after that. -/
def Step (I : Idt.Image) (s : Controlled) : Event → Controlled → Prop
  | .raise line, s' => s' = {s with board := s.board.raise line}
  | .take, s' => s.enabled ∧ ∃ v b, s.board.take = some (v, b) ∧
      s' = ⟨b, !(Idt.descriptor I.idt s.board.mem v.toNat).interruptGate, v :: s.pending⟩
  | .cli, s' => s' = {s with enabled := false}
  | .endInterrupt, s' => ¬ s.enabled ∧ s.pending ≠ [] ∧ s' = ⟨s.board.endInterrupt, false, s.pending.tail⟩
  | .resume, s' => s.pending = [] ∧ s' = {s with enabled := true}
  | .initPit divisor, s' => s.pending = [] ∧ s' = {s with board := s.board.initPit divisor}

end Controlled

/-! ### The first controller after boot -/

namespace Pic

/-- What initialization leaves, with the keyboard let through and perhaps the clock. -/
structure Ready (p : Pic) : Prop where
  base : p.base = 0x20#8
  lowest : p.lowest = 7
  specialMask : p.specialMask = false
  autoEoi : p.autoEoi = false
  expects : p.expects = none
  imr : p.imr = 0xFD#8 ∨ p.imr = 0xFC#8

variable {p : Pic} {n : Nat}

theorem Ready.order (hp : p.Ready) : p.order = [0, 1, 2, 3, 4, 5, 6, 7] := by
  unfold Pic.order
  rw [hp.lowest]
  rfl

/-- With nothing in service the clock is shown before the keyboard, and nothing else. -/
theorem Ready.requesting_free (hp : p.Ready) (hisr : p.isr = 0#8) :
    p.requesting = if p.requested 0 then some 0 else if p.requested 1 then some 1 else none := by
  have hserve : ∀ n, p.inService n = false := fun n => by simp [inService, hisr]
  have hmasked : ∀ n, 2 ≤ n → n < 8 → p.requested n = false := by
    intro n h2 h8
    have hn : n = 2 ∨ n = 3 ∨ n = 4 ∨ n = 5 ∨ n = 6 ∨ n = 7 := by omega
    have hbit : p.imr.getLsbD n = true := by
      cases hp.imr with
      | inl h => rcases hn with rfl | rfl | rfl | rfl | rfl | rfl <;> rw [h] <;> rfl
      | inr h => rcases hn with rfl | rfl | rfl | rfl | rfl | rfl <;> rw [h] <;> rfl
    simp [requested, hbit]
  unfold requesting
  rw [hp.order]
  simp only [hserve, Bool.false_or, List.find?_cons, List.find?_nil, hmasked 2 (by decide) (by decide),
    hmasked 3 (by decide) (by decide), hmasked 4 (by decide) (by decide), hmasked 5 (by decide) (by decide),
    hmasked 6 (by decide) (by decide), hmasked 7 (by decide) (by decide)]
  cases p.requested 0 <;> cases p.requested 1 <;> rfl

/-- While the clock's interrupt is in service nothing is shown. -/
theorem Ready.requesting_clock (hp : p.Ready) (hisr : p.isr = bit 0) : p.requesting = none := by
  have hserve : p.inService 0 = true := by
    simp [inService, hisr, hp.specialMask, bit]
  unfold requesting
  rw [hp.order, List.find?_cons_of_pos (by rw [hserve]; rfl), Option.bind_some, hserve]
  rfl

theorem Ready.raise (hp : p.Ready) (n : Nat) : (p.raise n).Ready := ⟨hp.1, hp.2, hp.3, hp.4, hp.5, hp.6⟩

theorem Ready.acknowledge (hp : p.Ready) (n : Nat) : (p.acknowledge n).Ready := ⟨hp.1, hp.2, hp.3, hp.4, hp.5, hp.6⟩

/-- The end of an interrupt ends the one in service. -/
theorem Ready.endInterrupt (hp : p.Ready) (hn : n < 2) (hisr : p.isr = bit n) :
    (p.command 0x20#8).Ready ∧ (p.command 0x20#8).isr = 0#8 := by
  have hfind : p.order.find? p.isr.getLsbD = some n := by
    rw [hp.order, hisr]
    have h : n = 0 ∨ n = 1 := by omega
    rcases h with rfl | rfl <;> rfl
  have hcommand : p.command 0x20#8 = {p with isr := p.isr &&& ~~~bit n} := by
    unfold command
    rw [if_neg (by decide), if_pos (by decide), hfind]
    rfl
  rw [hcommand]
  refine ⟨⟨hp.1, hp.2, hp.3, hp.4, hp.5, hp.6⟩, ?_⟩
  dsimp only
  rw [hisr, BitVec.and_not_self]
  rfl

/-- Outside an initialization the data port is the mask. -/
theorem data_done (h : p.expects = none) (v : BitVec 8) : p.data v = {p with imr := v} := by
  unfold data
  rw [h]

theorem Ready.mask (hp : p.Ready) : (p.data (p.imr &&& ~~~1#8)).Ready ∧ (p.data (p.imr &&& ~~~1#8)).isr = p.isr ∧
    (p.data (p.imr &&& ~~~1#8)).irr = p.irr := by
  rw [data_done hp.expects]
  refine ⟨⟨hp.1, hp.2, hp.3, hp.4, hp.5, Or.inr ?_⟩, rfl, rfl⟩
  cases hp.imr with
  | inl h => rw [h]; rfl
  | inr h => rw [h]; rfl

/-- Another request changes nothing for one that waits, and neither does its being taken. -/
theorem requested_raise (h : p.requested n) (m : Nat) : (p.raise m).requested n := by
  unfold requested raise at *
  simp_all

theorem requested_acknowledge (h : p.requested n) {m : Nat} (hn : n < 8) (hne : m ≠ n) :
    (p.acknowledge m).requested n := by
  have hbit : (bit m).getLsbD n = false := by
    unfold bit
    rw [BitVec.getLsbD_shiftLeft]
    by_cases hlt : n < m
    · simp [hlt]
    · simp only [BitVec.getLsbD_one]
      simp
      omega
  unfold requested acknowledge at *
  simp_all

end Pic

namespace Controlled

variable {I : Idt.Image} {s s' : Controlled} {e : Event} {v : BitVec 8} {b : Board}

structure Good (I : Idt.Image) (s : Controlled) : Prop where
  ready : s.board.pic1.Ready
  clock : Idt.descriptor I.idt s.board.mem 0x20 = ⟨I.clockHandler, Idt.kernelCodeSegmentOffset, Idt.idtTrapGate32bit⟩
  keyboard : Idt.descriptor I.idt s.board.mem 0x21 =
    ⟨I.keyboardHandler, Idt.kernelCodeSegmentOffset, Idt.idtInterruptGate32bit⟩
  /-- What is in service is what has been taken; the keyboard's gate has cleared the flag. -/
  pending : (s.pending = [] ∧ s.board.pic1.isr = 0#8) ∨
    (s.pending = [0x20#8] ∧ s.board.pic1.isr = Pic.bit 0) ∨
    (s.pending = [0x21#8] ∧ s.board.pic1.isr = Pic.bit 1 ∧ s.enabled = false)

theorem good_of_booted (h : Booted I s) : s.Good I := by
  obtain ⟨b, hisr, hzero, rfl⟩ := h
  have hall := (Idt.initIdt_descriptors I b.mem hzero).1
  refine ⟨⟨rfl, rfl, rfl, rfl, rfl, Or.inl rfl⟩, ?_, ?_, Or.inl ⟨rfl, hisr⟩⟩
  · exact (hall 0x20 (by decide)).1 _ rfl
  · exact (hall 0x21 (by decide)).1 _ rfl

/-- What the processor can take, and that it takes nothing while anything is in service. -/
theorem Good.take (hg : s.Good I) (henabled : s.enabled) (h : s.board.take = some (v, b)) :
    s.pending = [] ∧ ∃ n, n < 2 ∧ v = 0x20#8 + BitVec.ofNat 8 n ∧ s.board.pic1.requested n ∧
      b = {s.board with pic1 := s.board.pic1.acknowledge n} := by
  obtain ⟨n, hn, he⟩ := Option.map_eq_some_iff.mp h
  rcases hg.pending with ⟨hp, hisr⟩ | ⟨-, hisr⟩ | ⟨-, -, hoff⟩
  · rw [hg.ready.requesting_free hisr] at hn
    -- the first two inputs are not the second controller's
    have hplain : n ≠ 2 → v = 0x20#8 + BitVec.ofNat 8 n ∧ b = {s.board with pic1 := s.board.pic1.acknowledge n} := by
      intro h2
      dsimp only at he
      rw [if_neg h2, hg.ready.base] at he
      exact ⟨(Prod.mk.inj he).1.symm, (Prod.mk.inj he).2.symm⟩
    split at hn
    · next h0 =>
      cases hn
      obtain ⟨hv, hb⟩ := hplain (by decide)
      exact ⟨hp, 0, by decide, hv, h0, hb⟩
    · split at hn
      · next h1 =>
        cases hn
        obtain ⟨hv, hb⟩ := hplain (by decide)
        exact ⟨hp, 1, by decide, hv, h1, hb⟩
      · cases hn
  · rw [hg.ready.requesting_clock hisr] at hn
    cases hn
  · rw [hoff] at henabled
    cases henabled

theorem Good.step (hg : s.Good I) (h : Step I s e s') : s'.Good I := by
  cases e with
  | raise line =>
    obtain rfl : s' = {s with board := s.board.raise line} := h
    have hsame : (s.board.raise line).mem = s.board.mem ∧ (s.board.raise line).pic1.isr = s.board.pic1.isr ∧
        (s.board.raise line).pic1.Ready := by
      unfold Board.raise
      split
      · exact ⟨rfl, rfl, hg.ready.raise line⟩
      · dsimp only
        split
        · exact ⟨rfl, rfl, hg.ready.raise 2⟩
        · exact ⟨rfl, rfl, hg.ready⟩
    refine ⟨hsame.2.2, ?_, ?_, ?_⟩
    · dsimp only
      rw [hsame.1]
      exact hg.clock
    · dsimp only
      rw [hsame.1]
      exact hg.keyboard
    · dsimp only
      rw [hsame.2.1]
      exact hg.pending
  | take =>
    obtain ⟨henabled, v, b, htake, rfl⟩ := h
    obtain ⟨hp, n, hn, rfl, -, rfl⟩ := hg.take henabled htake
    have hisr : (s.board.pic1.acknowledge n).isr = Pic.bit n := by
      rcases hg.pending with ⟨-, hisr⟩ | ⟨hp', -⟩ | ⟨hp', -⟩
      · unfold Pic.acknowledge
        dsimp only
        rw [hg.ready.autoEoi, hisr]
        exact BitVec.zero_or
      · rw [hp] at hp'
        cases hp'
      · rw [hp] at hp'
        cases hp'
    refine ⟨hg.ready.acknowledge n, hg.clock, hg.keyboard, ?_⟩
    dsimp only
    rw [hp, hisr]
    have h01 : n = 0 ∨ n = 1 := by omega
    rcases h01 with rfl | rfl
    · exact Or.inr (Or.inl ⟨rfl, rfl⟩)
    · refine Or.inr (Or.inr ⟨rfl, rfl, ?_⟩)
      rw [show (0x20#8 + BitVec.ofNat 8 1).toNat = 0x21 from rfl, hg.keyboard, Idt.interruptGate_flags]
      rfl
  | cli =>
    obtain rfl : s' = {s with enabled := false} := h
    refine ⟨hg.ready, hg.clock, hg.keyboard, ?_⟩
    exact hg.pending.imp_right fun h => h.imp_right fun h => ⟨h.1, h.2.1, rfl⟩
  | endInterrupt =>
    obtain ⟨-, hne, rfl⟩ := h
    have hserve : ∃ n, n < 2 ∧ s.board.pic1.isr = Pic.bit n ∧ s.pending.tail = [] := by
      rcases hg.pending with ⟨hp, -⟩ | ⟨hp, hisr⟩ | ⟨hp, hisr, -⟩
      · exact absurd hp hne
      · exact ⟨0, by decide, hisr, by rw [hp]; rfl⟩
      · exact ⟨1, by decide, hisr, by rw [hp]; rfl⟩
    obtain ⟨n, hn, hisr, htail⟩ := hserve
    obtain ⟨hready, hfree⟩ := hg.ready.endInterrupt hn hisr
    exact ⟨hready, hg.clock, hg.keyboard, Or.inl ⟨htail, hfree⟩⟩
  | resume =>
    obtain ⟨hp, rfl⟩ := h
    refine ⟨hg.ready, hg.clock, hg.keyboard, ?_⟩
    rcases hg.pending with hfree | ⟨hp', -⟩ | ⟨hp', -⟩
    · exact Or.inl hfree
    · rw [hp] at hp'
      cases hp'
    · rw [hp] at hp'
      cases hp'
  | initPit divisor =>
    obtain ⟨hp, rfl⟩ := h
    obtain ⟨hready, hisr, -⟩ := hg.ready.mask
    refine ⟨hready, hg.clock, hg.keyboard, ?_⟩
    rcases hg.pending with ⟨hp', hfree⟩ | ⟨hp', -⟩ | ⟨hp', -⟩
    · exact Or.inl ⟨hp', hisr.trans hfree⟩
    · rw [hp] at hp'
      cases hp'
    · rw [hp] at hp'
      cases hp'

/-- What is to be so in a state: interrupts come one at a time, from the clock or the
keyboard and to its handler, and one that is asked for is shown as long as no other has
to be ended, and not forgotten. -/
structure Attends (I : Idt.Image) (s : Controlled) : Prop where
  taken : ∀ s', Step I s .take s' → s.pending = [] ∧
    ((s'.pending = [0x20#8] ∧ s.board.pic1.requested 0 ∧
        (Idt.descriptor I.idt s.board.mem 0x20).offset = I.clockHandler) ∨
      (s'.pending = [0x21#8] ∧ s.board.pic1.requested 1 ∧
        (Idt.descriptor I.idt s.board.mem 0x21).offset = I.keyboardHandler))
  shown : s.pending = [] → ∀ n, n < 2 → s.board.pic1.requested n → s.board.take.isSome
  kept : ∀ n, n < 2 → s.board.pic1.requested n → ∀ e s', Step I s e s' →
    s'.board.pic1.requested n ∨ s'.pending = [0x20#8 + BitVec.ofNat 8 n]

theorem Good.attends (hg : s.Good I) : Attends I s := by
  refine ⟨fun s' h => ?_, fun hp n hn hreq => ?_, fun n hn hreq e s' h => ?_⟩
  · obtain ⟨henabled, v, b, htake, rfl⟩ := h
    obtain ⟨hp, n, hn, rfl, hreq, -⟩ := hg.take henabled htake
    refine ⟨hp, ?_⟩
    dsimp only
    rw [hp, hg.clock, hg.keyboard]
    have h01 : n = 0 ∨ n = 1 := by omega
    rcases h01 with rfl | rfl
    · exact Or.inl ⟨rfl, hreq, rfl⟩
    · exact Or.inr ⟨rfl, hreq, rfl⟩
  · have hisr : s.board.pic1.isr = 0#8 := by
      rcases hg.pending with ⟨-, hisr⟩ | ⟨hp', -⟩ | ⟨hp', -⟩
      · exact hisr
      · rw [hp] at hp'
        cases hp'
      · rw [hp] at hp'
        cases hp'
    unfold Board.take
    rw [Option.isSome_map, hg.ready.requesting_free hisr]
    have h01 : n = 0 ∨ n = 1 := by omega
    rcases h01 with rfl | rfl
    · rw [if_pos hreq]
      rfl
    · rw [if_pos hreq]
      split <;> rfl
  · cases e with
    | raise line =>
      obtain rfl : s' = {s with board := s.board.raise line} := h
      left
      dsimp only
      unfold Board.raise
      split
      · exact Pic.requested_raise hreq line
      · dsimp only
        split
        · exact Pic.requested_raise hreq 2
        · exact hreq
    | take =>
      obtain ⟨henabled, v, b, htake, rfl⟩ := h
      obtain ⟨hp, m, -, rfl, -, rfl⟩ := hg.take henabled htake
      by_cases hmn : m = n
      · right
        dsimp only
        rw [hp, hmn]
      · exact Or.inl (Pic.requested_acknowledge hreq (by omega) hmn)
    | cli =>
      obtain rfl : s' = {s with enabled := false} := h
      exact Or.inl hreq
    | endInterrupt =>
      obtain ⟨-, -, rfl⟩ := h
      left
      show (s.board.pic1.command 0x20#8).requested n
      unfold Pic.command
      rw [if_neg (by decide), if_pos (by decide)]
      cases s.board.pic1.order.find? s.board.pic1.isr.getLsbD with
      | none => exact hreq
      | some m => exact hreq
    | resume =>
      obtain ⟨-, rfl⟩ := h
      exact Or.inl hreq
    | initPit divisor =>
      obtain ⟨-, rfl⟩ := h
      left
      obtain ⟨hready, -, hirr⟩ := hg.ready.mask
      show (s.board.pic1.data (s.board.pic1.imr &&& ~~~1#8)).requested n
      rw [Pic.data_done hg.ready.expects]
      unfold Pic.requested at hreq ⊢
      dsimp only
      rw [Bool.and_eq_true] at hreq ⊢
      refine ⟨hreq.1, ?_⟩
      have himr := hreq.2
      rw [Bool.not_eq_true'] at himr
      rw [BitVec.getLsbD_and, himr]
      rfl

/-- Whatever the controllers were set to before, and whatever the devices ask for and in
whatever order, interrupts are attended to as they are to be. -/
theorem run_attends {tr : List (Controlled × Event)} (hrun : Run (Booted I) (Step I) tr s) : Attends I s :=
  (hrun.invariant (fun _ h => good_of_booted h) fun _ _ _ hg h => hg.step h).attends

/-- Controllers that had all inputs masked and were in the middle of an initialization. -/
def sampleBoard : Board where
  pic1 := ⟨0xFF#8, 0#8, 0xFF#8, 0x70#8, 3, true, true, true, false, some .icw3⟩
  pic2 := ⟨0#8, 0#8, 0#8, 0x08#8, 0, false, false, false, false, none⟩
  mem := .zero

/-- The machine as it is booted from there. -/
def sampleBooted : Controlled := ⟨(sampleBoard.initIdt Idt.sampleImage).initKb, true, []⟩

/-- A key is pressed after the disk has asked. -/
def samplePressed : Controlled := {sampleBooted with board := (sampleBooted.board.raise 14).raise 1}

theorem run_attends_pressed : samplePressed.board.take.isSome ∧
    ∀ s', Step Idt.sampleImage samplePressed .take s' → samplePressed.pending = [] := by
  have hboot : Booted Idt.sampleImage sampleBooted := ⟨sampleBoard, rfl, fun _ _ _ => rfl, rfl⟩
  have hdisk : Step Idt.sampleImage sampleBooted (.raise 14)
      {sampleBooted with board := sampleBooted.board.raise 14} := rfl
  have hkey : Step Idt.sampleImage {sampleBooted with board := sampleBooted.board.raise 14} (.raise 1)
      samplePressed := rfl
  have hattends := run_attends (((Run.start hboot).next hdisk).next hkey)
  exact ⟨hattends.shown rfl 1 (by decide) rfl, fun s' h => (hattends.taken s' h).1⟩

end Controlled
end ShompOS
