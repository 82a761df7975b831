import ShompOS.Fs.LastWrite
import ShompOS.System.State

/-! Who can change what.

A call of the file system changes no process and no memory but the buffer it is given.
Any other event changes no file and no descriptor, and of the memory that others hold only
what it is there to write. So whatever happens between them, the calls of the file system
alone say what is in the files. -/
namespace ShompOS
open Memory Elf

namespace System
variable {L : Layout} {R : Rodata} {C : Code} {s s' : System} {v v' : Volume} {e : SystemEvent} {r : Int} {x file : Nat}

/-- The bytes of what is held that an event is there to write. -/
def Writes (s : System) : SystemEvent → Nat → Prop
  | .call c, x => c.Fills x
  | .push a _, x => x = a
  | .process (.initProcess _ p), x => s.kernel.InStack p x
  | _, _ => False

/-- What an event of the others leaves: the volume, and the memory it does not write. -/
structure Beside (L : Layout) (R : Rodata) (s : System) (v : Volume) (e : SystemEvent) (s' : System) : Prop where
  sound : ∃ P, s'.Sound L R {v with pool := P}
  memory : ∀ x, Callers L s.held x → Callers L s'.held x → ¬ s.Writes e x →
    s'.heap.mem.byte x = s.heap.mem.byte x

/-! ### One event -/

theorem Sound.allocate (hs : s.Sound L R v) {n : Nat} (hcall : s.handle L R C (.allocate n) = some (s', r)) :
    s.Beside L R v (.allocate n) s' := by
  obtain ⟨h', halloc, hset, hbytes⟩ := hs.settled.allocate n
  have halloc' : s.heap.allocate L n = some (h', (v.pool.allocate n).2) := halloc
  rw [handle, halloc', Option.map_some] at hcall
  cases hcall
  refine ⟨⟨_, hs.next (k := {s.kernel with heap := h'}) hset (fun x hx => hbytes x (Or.inl hx)) ?_ ?_⟩,
    fun x hx _ _ => hbytes x hx⟩
  · exact ⟨hs.identified.distinct, hs.identified.bound, hs.identified.active⟩
  · exact Kernel.Housed.mono ⟨hs.housed.stack, hs.housed.apart⟩ (subset_lend ..)

theorem Sound.free (hs : s.Sound L R v) {p : Nat} (hp : s.Permits L R (.free p))
    (hcall : s.handle L R C (.free p) = some (s', r)) : s.Beside L R v (.free p) s' := by
  obtain ⟨⟨n, hn⟩, hnew⟩ := hp
  obtain ⟨h', P', hfree, hset, hbytes⟩ := hs.settled.free hn
  have hfree' : s.heap.free L p = some (h', 0) := hfree
  rw [handle, hfree', Option.map_some] at hcall
  cases hcall
  have hhoused := hs.housed.free hnew
  refine ⟨⟨P', hs.next (k := {s.kernel with heap := h'}) hset (fun x hx => hbytes x (Or.inl hx)) ?_ ?_⟩,
    fun x _ hx _ => hbytes x hx⟩
  · exact ⟨hs.identified.distinct, hs.identified.bound, hs.identified.active⟩
  · exact ⟨hhoused.stack, hhoused.apart⟩

theorem Sound.push (hs : s.Sound L R v) {a w : Nat} (hp : s.Permits L R (.push a w))
    (hcall : s.handle L R C (.push a w) = some (s', r)) : s.Beside L R v (.push a w) s' := by
  obtain ⟨p, ⟨i, hi, hstack⟩, hin⟩ := hp
  obtain ⟨n, hn⟩ := hs.housed.stack i hi
  obtain ⟨b, t, hb, hused, -⟩ := hs.settled.held_block (hstack ▸ hn)
  subst hb
  have hin := (Kernel.inStack_iff hs.settled hused).mp hin
  have hbytes : ∀ x, x ≠ a → (s.heap.mem.store8 a w).byte x = s.heap.mem.byte x := fun x hx => by
    rw [byte_store8, if_neg hx]
  have hset := hs.settled.payload (m := s.heap.mem.store8 a w) (hstack ▸ hn) hused fun x hx =>
    hbytes x fun he => hx (he ▸ hin)
  have hlow := (Owns.represents hs.settled).stands.valid.tiling.lower (Or.inl hused)
  cases hcall
  refine ⟨⟨_, hs.next (k := {s.kernel with heap := ⟨s.heap.mem.store8 a w, s.heap.currentBrk⟩}) hset
    (fun x hx => hbytes x fun he => ?_) ?_ ?_⟩, fun x _ _ hx => hbytes x hx⟩
  · have hstatic := hx.1
    omega
  · exact ⟨hs.identified.distinct, hs.identified.bound, hs.identified.active⟩
  · exact ⟨hs.housed.stack, hs.housed.apart⟩

theorem Sound.initElf (hs : s.Sound L R v) (hp : s.Permits L R (.initElf file))
    (hcall : s.handle L R C (.initElf file) = some (s', r)) : s.Beside L R v (.initElf file) s' := by
  obtain ⟨hslot, hlinked, hwf⟩ := hp
  obtain ⟨⟨k', outcome⟩, hload, he⟩ := Option.map_eq_some_iff.mp hcall
  cases he
  obtain ⟨d, hd, f, hf, rfl⟩ := (hs.good.owns.linked_iff hs.good.tree).mp hlinked
  have hat := hs.good.file hd hf
  have hdata : s.dataOf f.addr = f.data := hat.data
  have hcell : (f.data, Contents.bytes f.contents) ∈ v.cells :=
    DirNode.mem_cells hd (FileNode.mem_cells hf (List.mem_of_getElem? (i := 2) rfl))
  rw [hdata] at hload hwf ⊢
  rw [show s.heap.word f.addr RamfsFile.size = f.contents.length from hat.size] at hwf
  obtain ⟨hid, hhoused, ⟨P', hset⟩, -, hbytes⟩ :=
    settled_initElf hs.settled hs.housed hs.identified hslot hcell hwf hload
  exact ⟨⟨P', hs.next hset (fun x hx => hbytes x (Or.inl hx)) hid hhoused⟩, fun x hx _ _ => hbytes x hx⟩

theorem Sound.kill (hs : s.Sound L R v) {pid : Nat} {k : Kernel} (hkill : s.kernel.killProcess L pid = some k) :
    (∃ P, (s.withKernel k (s.kernel.afterKill s.held pid)).Sound L R {v with pool := P}) ∧
      ∀ x, Callers L (s.kernel.afterKill s.held pid) x → k.heap.mem.byte x = s.heap.mem.byte x := by
  obtain ⟨hhoused, ⟨P, hset⟩, hbytes⟩ := Kernel.settled_killProcess hs.settled hs.housed hkill
  exact ⟨⟨P, hs.next hset (fun x hx => hbytes x (Or.inl hx)) (hs.identified.killProcess hkill) hhoused⟩, hbytes⟩

theorem Sound.tick (hs : s.Sound L R v) (esp : Nat) :
    (s.withKernel (s.kernel.switchProcessFromQueue esp).1 s.held).Sound L R v ∧
      (s.kernel.switchProcessFromQueue esp).1.heap = s.heap := by
  have hkeeps := s.kernel.keepsStacks_tick esp
  have hheap : (s.kernel.switchProcessFromQueue esp).1.heap = s.heap := hkeeps.heap
  refine ⟨hs.next ?_ (fun x _ => by rw [hheap]) (hs.identified.tick esp) (hs.housed.same hkeeps), hheap⟩
  rw [hheap]
  exact hs.settled

theorem Sound.process (hs : s.Sound L R v) {e : Kernel.Event} (hp : s.Permits L R (.process e))
    (hcall : s.handle L R C (.process e) = some (s', r)) : s.Beside L R v (.process e) s' := by
  obtain ⟨k, hhandle, he⟩ := Option.map_eq_some_iff.mp hcall
  cases he
  cases e with
  | initProcess entryPoint p =>
    obtain ⟨hslot, ⟨n, hn, hroom⟩, hnew⟩ := hp
    obtain ⟨pid, hinit⟩ := Kernel.handle_initProcess hhandle
    obtain ⟨hset, hbytes⟩ := Kernel.settled_initProcess hs.settled hn hroom hinit
    obtain ⟨a, t, rfl, ha, -⟩ := hs.settled.held_block hn
    have hlow := (Owns.represents hs.settled).stands.valid.tiling.lower (Or.inl ha)
    refine ⟨⟨_, hs.next hset (fun x hx => hbytes x fun hin => ?_) (hs.identified.initProcess hslot hinit)
      (hs.housed.initProcess hslot hn hnew hinit).1⟩, fun x _ _ hx => hbytes x hx⟩
    have hin := (Kernel.inStack_iff hs.settled ha).mp hin
    have hstatic := hx.1
    omega
  | killProcess pid =>
    obtain ⟨hsound, hbytes⟩ := hs.kill hhandle
    exact ⟨hsound, fun x _ hx _ => hbytes x hx⟩
  | tick esp =>
    cases hhandle
    obtain ⟨hsound, hheap⟩ := hs.tick esp
    exact ⟨⟨v.pool, hsound⟩, fun x _ _ _ => congrArg (fun h : Heap => h.mem.byte x) hheap⟩
  | exit esp =>
    obtain ⟨k₁, hkill, rfl⟩ := Kernel.handle_exit hhandle
    obtain ⟨⟨P, hsound⟩, hbytes⟩ := hs.kill hkill
    obtain ⟨hsound', hheap⟩ := hsound.tick esp
    exact ⟨⟨P, hsound'⟩, fun x _ hx _ => (congrArg (fun h : Heap => h.mem.byte x) hheap).trans (hbytes x hx)⟩

/-- A call of the file system, and what it leaves of the rest. -/
theorem Sound.call (hs : s.Sound L R v) {c : FsCall} (hp : s.Permits L R (.call c))
    (hcare : Mount.Careful (s.mount, (c, r))) (hcall : s.handle L R C (.call c) = some (s', r)) :
    s.mount.call L R c = some (s'.mount, r) ∧ s' = {s with mount := s'.mount} ∧ s'.held = s.held ∧
      ∃ v', s'.Sound L R v' ∧ v.Effect s.mount c r v' := by
  obtain ⟨⟨m, r'⟩, hm, he⟩ := Option.map_eq_some_iff.mp hcall
  cases he
  obtain ⟨v', hg', -, hheld, heff⟩ := hs.good.step hp hcare.1 hcare.2 hm
  refine ⟨hm, rfl, hheld, v', ⟨hg', ?_, ?_⟩, heff⟩
  · exact ⟨hs.identified.distinct, hs.identified.bound, hs.identified.active⟩
  · have hhoused : ({s with mount := m} : System).kernel.Housed s.held := ⟨hs.housed.stack, hs.housed.apart⟩
    show Kernel.Housed _ m.held
    rw [hheld]
    exact hhoused

/-! ### Runs -/

abbrev Runs (L : Layout) (R : Rodata) (C : Code) : List (System × (SystemEvent × Int)) → System → Prop :=
  Run (Booted L R) (Step L R C)

/-- How an event changed the bytes of a file: only a call of the file system does. -/
def change (x : System × (SystemEvent × Int)) : Option (Change Nat UInt8) :=
  match x.2.1 with
  | .call c => Mount.change (x.1.mount, (c, x.2.2))
  | _ => none

end System
end ShompOS
