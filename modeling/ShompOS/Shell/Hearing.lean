import ShompOS.Fs.LastWrite
import ShompOS.Shell.Lines
import ShompOS.Shell.Typing

/-! The standard input hears what is typed.

Whatever keys are pressed, the handler comes back, the tree stays one, and the file that is
open as the standard input gets the characters in the order in which they are typed; one is
left out if there is no memory for a longer file. That file must not be removed, as the
descriptor would go on to use it. -/
namespace ShompOS
open Memory

/-! ### The file that listens -/

/-- The standard input is a file of that name, open to append to, and these are its contents. -/
structure Mount.Listens (s : Mount) (file : Nat) (name heard : List UInt8) : Prop where
  entry : ∃ entry, s.ramfs.fdEntry stdinFileno = some entry ∧ s.fileOf entry = file ∧
    s.heap.word entry RamfsFd.flags &&& (oWronly ||| oRdwr) ≠ 0 ∧ s.heap.word entry RamfsFd.flags &&& oAppend ≠ 0
  linked : s.heap.Linked s.root file
  name : s.heap.HasName file name
  contents : s.contents file = heard

/-- There is a block for the file with a byte more. -/
def Mount.Offers (L : Layout) (s : Mount) (file : Nat) : Bool :=
  (s.heap.allocate L ((s.contents file).length + 1)).any fun x => x.2 ≠ 0

/-- The same in a volume. -/
structure Volume.Listens (v : Volume) (i : Fin maxFds) (e : OpenFd) (d : DirNode) (f : FileNode)
    (file : Nat) (name heard : List UInt8) : Prop where
  stdin : (i : Int) = stdinFileno
  entry : v.fds i = some e
  opened : e.file = file
  writes : e.flags &&& (oWronly ||| oRdwr) ≠ 0
  appends : e.flags &&& oAppend ≠ 0
  dir : d ∈ v.dirs
  mem : f ∈ d.fileNodes
  addr : f.addr = file
  name : f.text = name
  contents : f.contents = heard

/-- A file that stays goes on to listen. -/
theorem Volume.Listens.retained {v w : Volume} {i : Fin maxFds} {e : OpenFd} {d : DirNode} {f : FileNode} {file : Nat}
    {name heard : List UInt8} {gone : Option (List UInt8)} (h : v.Listens i e d f file name heard)
    (hr : v.Retains w gone) (hgone : gone ≠ some name) : ∃ d', w.Listens i e d' f file name heard := by
  obtain ⟨d', hd', hf'⟩ := hr.files d h.dir f h.mem (h.name.symm ▸ hgone)
  exact ⟨d', h.stdin, (congrFun hr.fds i).trans h.entry, h.opened, h.writes, h.appends, hd', hf', h.addr, h.name,
    h.contents⟩

/-- Writing through a descriptor changes one file, and no name. -/
theorem Volume.Opens.grows {v : Volume} {fd : Int} {k j : Nat} {i : Fin maxFds} {d : DirNode} {f g : FileNode}
    {e : OpenFd} (ho : v.Opens fd k j i d f e) (P : Pool) (e' : OpenFd) (htext : g.text = f.text) :
    v.Grows (v.withOpen k j i P g e') k d (d.setFile j g) none ∧
      (d.setFile j g).fileNodes.map FileNode.text = d.fileNodes.map FileNode.text := by
  refine ⟨⟨ho.dir, ?_, rfl, rfl, rfl, rfl, (List.append_nil _).symm, nofun, nofun⟩, ?_⟩
  · rw [Volume.withOpen_dirs ho.dir]
    exact (List.append_nil _).symm
  · show (d.fileNodes.set j g).map FileNode.text = _
    rw [List.map_set, htext]
    exact set_same (by rw [List.getElem?_map, ho.file]; rfl)

theorem Volume.Listens.withOpen {v : Volume} {k j : Nat} {i : Fin maxFds} {d : DirNode} {f g : FileNode} {e : OpenFd}
    {file : Nat} {name heard : List UInt8} (h : v.Listens i e d f file name heard)
    (ho : v.Opens stdinFileno k j i d f e) (P : Pool) (haddr : g.addr = f.addr) (hname : g.text = f.text) (n : Nat) :
    (v.withOpen k j i P g {e with position := n}).Listens i {e with position := n} (d.setFile j g) g file name
      g.contents := by
  obtain ⟨hd', hg'⟩ := ho.changed P g {e with position := n}
  exact ⟨h.stdin, Function.update_self .., h.opened, h.writes, h.appends, hd', hg', haddr.trans h.addr,
    hname.trans h.name, rfl⟩

namespace Mount
variable {L : Layout} {R : Rodata} {s : Mount} {v : Volume} {i : Fin maxFds} {e : OpenFd} {d : DirNode}
  {f : FileNode} {file buf : Nat} {name heard : List UInt8}

theorem Good.listens_iff (hg : s.Good L R v) :
    s.Listens file name heard ↔ ∃ i e d f, v.Listens i e d f file name heard := by
  constructor
  · intro h
    obtain ⟨entry, hentry, rfl, hwrites, happends⟩ := h.entry
    obtain ⟨i, e, hi, he, rfl, hfile⟩ := hg.entry hentry
    obtain ⟨d, hd, f, hf, haddr⟩ := (hg.owns.linked_iff hg.tree).mp h.linked
    rw [hg.flags_eq he] at hwrites happends
    have hname := h.name
    have hcontents := h.contents
    rw [← haddr, hg.hasName_file hd hf] at hname
    rw [← haddr, (hg.file hd hf).contents] at hcontents
    exact ⟨i, e, d, f, hi, he, hfile.symm, hwrites, happends, hd, hf, haddr, hname, hcontents⟩
  · rintro ⟨i, e, d, f, h⟩
    refine ⟨⟨e.addr, hg.fdEntry_of h.stdin h.entry, (hg.fdAt h.entry).file.trans h.opened, ?_, ?_⟩, ?_, ?_, ?_⟩
    · rw [hg.flags_eq h.entry]
      exact h.writes
    · rw [hg.flags_eq h.entry]
      exact h.appends
    · exact (hg.owns.linked_iff hg.tree).mpr ⟨d, h.dir, f, h.mem, h.addr⟩
    · rw [← h.addr, hg.hasName_file h.dir h.mem]
      exact h.name
    · rw [← h.addr, (hg.file h.dir h.mem).contents]
      exact h.contents

theorem Good.offers_iff (hg : s.Good L R v) (h : v.Listens i e d f file name heard) :
    s.Offers L file = true ↔ (v.pool.allocate (heard.length + 1)).2 ≠ 0 := by
  obtain ⟨h', hcall, -⟩ := hg.owns.allocate (heard.length + 1)
  unfold Offers
  rw [(hg.listens_iff.mpr ⟨i, e, d, f, h⟩).contents, hcall, Option.any_some, decide_eq_true_iff]

/-- A byte is added to the file if there is memory for it. -/
theorem Good.write_stdin (hg : s.Good L R v) (h : v.Listens i e d f file name heard) (hbuf : Callers L s.held buf)
    (hroom : buf + 1 < addressSpace) :
    ∃ r ret w k d d', s.ramfs.ramfsWrite L stdinFileno buf 1 = some (r, ret) ∧ Calm L s (s.withRamfs r) ∧
      (s.withRamfs r).Good L R w ∧ v.Grows w k d d' none ∧
      d'.fileNodes.map FileNode.text = d.fileNodes.map FileNode.text ∧
      ∃ i e d f, w.Listens i e d f file name (heard ++ if s.Offers L file = true then [s.mem.byte buf] else []) := by
  obtain ⟨k, hk⟩ := List.getElem?_of_mem h.dir
  obtain ⟨j, hj⟩ := List.getElem?_of_mem h.mem
  have ho : v.Opens stdinFileno k j i d f e := ⟨h.stdin, h.entry, hk, hj, h.opened.trans h.addr.symm⟩
  have hstart : e.start f = f.contents.length := if_pos h.appends
  have hbound := (hg.owns.bounds (List.mem_append_left _ (DirNode.mem_cells h.dir (FileNode.mem_cells h.mem
    (List.mem_of_getElem? (i := 2) rfl))))).2.2
  rw [Contents.size_bytes] at hbound
  have hmax : 2 ^ maxBlockScale < addressSpace ∧ 1 ≤ headerSize := by decide
  have hbytes : s.mem.bytesAt buf 1 = [s.mem.byte buf] := rfl
  have hbuffer : s.Buffer L buf 1 := ⟨fun i hi => by rwa [Nat.lt_one_iff.mp hi], hroom⟩
  obtain ⟨s', gap, hgap, hcall, hgood, hcalm⟩ := hg.write ho (by decide) h.writes hbuffer.lent
    (by rw [hstart, length_bytesAt]; omega)
  rw [hstart, Nat.sub_self, List.length_eq_zero_iff] at hgap
  rw [length_bytesAt] at hcall
  obtain ⟨⟨r, ret⟩, hwrite, he⟩ := Option.map_eq_some_iff.mp hcall
  obtain ⟨rfl, -⟩ := Prod.mk.inj he
  obtain ⟨-, htext, -⟩ := f.write_same v.pool e gap (s.mem.bytesAt buf 1)
  obtain ⟨hgrows, htexts⟩ := ho.grows (f.write v.pool e gap (s.mem.bytesAt buf 1)).1
    (f.write v.pool e gap (s.mem.bytesAt buf 1)).2.2.1 htext
  have hlong : e.start f + (s.mem.bytesAt buf 1).length > f.contents.length := by
    rw [hstart, length_bytesAt]
    omega
  have hoffers : s.Offers L file = true ↔ (v.pool.allocate (e.start f + (s.mem.bytesAt buf 1).length)).2 ≠ 0 := by
    rw [hg.offers_iff h, hstart, length_bytesAt, h.contents]
  by_cases hzero : (v.pool.allocate (e.start f + (s.mem.bytesAt buf 1).length)).2 = 0
  · rw [FileNode.write_full hlong hzero] at hgood hgrows htexts
    have hnew := h.withOpen ho v.pool rfl rfl (e.start f)
    rw [h.contents, ← List.append_nil heard] at hnew
    rw [if_neg fun hyes => hoffers.mp hyes hzero]
    exact ⟨r, ret, _, k, d, _, hwrite, hcalm, hgood, hgrows, htexts, _, _, _, _, hnew⟩
  · rw [FileNode.write_moved hlong hzero] at hgood hgrows htexts
    have hnew := h.withOpen (g := {f with
        data := (v.pool.allocate (e.start f + (s.mem.bytesAt buf 1).length)).2
        contents := overwritten f.contents gap (s.mem.bytesAt buf 1) (e.start f)}) ho
      ((v.pool.allocate (e.start f + (s.mem.bytesAt buf 1).length)).1.freed f.data) rfl rfl
      (e.start f + (s.mem.bytesAt buf 1).length)
    have hadded : overwritten f.contents gap (s.mem.bytesAt buf 1) (e.start f) = heard ++ [s.mem.byte buf] := by
      rw [hgap, hstart, hbytes, h.contents]
      simp [overwritten]
    rw [if_pos (hoffers.mpr hzero), ← hadded]
    exact ⟨r, ret, _, k, d, _, hwrite, hcalm, hgood, hgrows, htexts, _, _, _, _, hnew⟩

end Mount

/-- The handler's data are apart from each other and from the literals of the file system. -/
structure KeyboardData.Placed (L : Layout) (R : Rodata) (D : KeyboardData) : Prop where
  buffer : CmdBuffer L R D.cmdBuffer
  newline : L.Static D.newline ∧ D.newline ≠ D.c ∧
    ¬ (D.cmdBuffer ≤ D.newline ∧ D.newline < D.cmdBuffer + Shell.cmdMaxLen)
  c : ¬ R.Byte D.c ∧ D.c + 1 < addressSpace

namespace Shell
variable {L : Layout} {R : Rodata} {initElf : Ramfs → Nat → Option Ramfs} {D : KeyboardData} {s s' : Shell}
  {file buf : Nat} {name heard line : List UInt8} {buffer : Nat → UInt8} {space : Option Nat}

/-! ### One call -/

/-- The text, if there is memory for one more character. -/
def kept (L : Layout) (s : Shell) (file : Nat) (text : List UInt8) : List UInt8 :=
  if s.mount.Offers L file = true then text else []

/-- A tidy shell whose standard input listens. -/
structure Hears (L : Layout) (R : Rodata) (D : KeyboardData) (s : Shell) (file : Nat) (name heard : List UInt8) :
    Prop where
  tidy : ∃ v, s.Tidy L R v
  listens : s.mount.Listens file name heard
  newline : s.mem.byte D.newline = 0x0A
  c : Callers L s.mount.held D.c

theorem Hears.same (h : s.Hears L R D file name heard) (hgood : ∀ v, s.mount.Good L R v → s'.mount.Good L R v)
    (hroot : s'.systemRoot = s.systemRoot) (hcur : s'.currentDir = s.currentDir) (hheld : s'.mount.held = s.mount.held)
    (hnewline : s'.mem.byte D.newline = s.mem.byte D.newline) : s'.Hears L R D file name heard := by
  obtain ⟨v, ht⟩ := h.tidy
  refine ⟨⟨v, hgood v ht.good, hroot ▸ ht.orderly, hcur ▸ hroot ▸ ht.current⟩, ?_, hnewline.trans h.newline,
    hheld ▸ h.c⟩
  exact (hgood v ht.good).listens_iff.mpr (ht.good.listens_iff.mp h.listens)

theorem Hears.quiet (h : s.Hears L R D file name heard) {r : Ramfs} (hq : s.ramfs.Quiet r) :
    (s.withRamfs r).Hears L R D file name heard :=
  h.same (fun _ hg => hg.quiet hq) rfl rfl rfl (by rw [mem, withRamfs, Mount.withRamfs, hq.heap])

theorem Hears.writeBoth (h : s.Hears L R D file name heard) (hD : D.Placed L R) (hbuf : Callers L s.mount.held buf)
    (hroom : buf + 1 < addressSpace) :
    ∃ s', s.writeBoth L buf = some s' ∧ s'.Hears L R D file name (heard ++ s.kept L file [s.mem.byte buf]) := by
  obtain ⟨v, ht⟩ := h.tidy
  obtain ⟨i, e, d, f, hlistens⟩ := ht.good.listens_iff.mp h.listens
  obtain ⟨r, ret, w, k, d, d', hwrite, hcalm, hgood, hgrows, htexts, hlistens'⟩ :=
    ht.good.write_stdin hlistens hbuf hroom
  obtain ⟨e, he, hcur, hnear⟩ := ht.current
  have htidy : (s.withRamfs r).Tidy L R w :=
    ht.grow hgood rfl hgrows (htexts.symm ▸ ht.orderly.files d (List.mem_of_getElem? hgrows.dir)) nofun hcur hnear
  have hears : (s.withRamfs r).Hears L R D file name (heard ++ s.kept L file [s.mem.byte buf]) :=
    ⟨⟨w, htidy⟩, hgood.listens_iff.mpr hlistens', (hcalm.memory _ (Or.inl hD.newline.1)).trans h.newline, h.c⟩
  have hstdout : ∃ r' ret', r.ramfsWrite L stdoutFileno buf 1 = some (r', ret') ∧ r.Quiet r' := by
    cases hopen : r.fdEntry stdoutFileno with
    | none => exact ⟨r, _, Ramfs.ramfsWrite_closed hopen, rfl, rfl⟩
    | some entry =>
      obtain ⟨r', hr', hq⟩ := Ramfs.writestring_ends (s := r) (a := buf) hgood.terminated (by omega)
      rw [Ramfs.ramfsWrite_console (Or.inl rfl) hopen, hr']
      exact ⟨r', _, rfl, hq⟩
  obtain ⟨r', ret', hr', hq⟩ := hstdout
  refine ⟨s.withRamfs r', ?_, hears.quiet (s := s.withRamfs r) hq⟩
  unfold Shell.writeBoth
  rw [hwrite, Option.bind_some]
  dsimp only
  rw [hr']
  rfl

theorem Hears.enter (h : s.Hears L R D file name heard) (hD : D.Placed L R) :
    ∃ s', s.newline L D = some s' ∧ s'.Hears L R D file name (heard ++ s.kept L file [0x0A]) := by
  have hbelow := hD.newline.1.1
  have hbound : heapLowerBound < addressSpace := by decide
  obtain ⟨s', hs', hears⟩ := h.writeBoth hD (Or.inl hD.newline.1) (by omega)
  rw [h.newline] at hears
  unfold Shell.newline
  rw [hs', Option.map_some]
  exact ⟨_, rfl, hears.quiet ⟨rfl, rfl⟩⟩

/-- What the heap offers is a matter of the volume. -/
theorem Hears.kept_same (h : s.Hears L R D file name heard) (hgood : ∀ v, s.mount.Good L R v → s'.mount.Good L R v)
    (text : List UInt8) : s'.kept L file text = s.kept L file text := by
  obtain ⟨v, ht⟩ := h.tidy
  obtain ⟨i, e, d, f, hlistens⟩ := ht.good.listens_iff.mp h.listens
  exact if_congr (((hgood v ht.good).offers_iff hlistens).trans (ht.good.offers_iff hlistens).symm) rfl rfl

theorem Hears.echo (h : s.Hears L R D file name heard) (hD : D.Placed L R) (c : UInt8) :
    ∃ s', s.echo L D c = some s' ∧ s'.Hears L R D file name (heard ++ s.kept L file [c]) := by
  have hgood : ∀ v, s.mount.Good L R v → (s.withMem (s.mem.store8 D.c c.toNat)).mount.Good L R v := by
    intro v hg
    obtain ⟨s₁, hcall, hgood, -⟩ := hg.store h.c hD.c.1 c.toNat
    cases hcall
    exact hgood
  have hother : (s.mem.store8 D.c c.toNat).byte D.newline = s.mem.byte D.newline := by
    rw [byte_store8, if_neg hD.newline.2.1]
  have hbyte : (s.mem.store8 D.c c.toNat).byte D.c = c := by
    rw [byte_store8, if_pos rfl, UInt8.ofNat_toNat]
  have hstored : (s.withMem (s.mem.store8 D.c c.toNat)).Hears L R D file name heard :=
    h.same hgood rfl rfl rfl hother
  obtain ⟨s', hs', hears⟩ := hstored.writeBoth hD hstored.c hD.c.2
  rw [show (s.withMem (s.mem.store8 D.c c.toNat)).mem.byte D.c = c from hbyte, h.kept_same hgood] at hears
  exact ⟨s', hs', hears⟩

/-! ### A line -/

theorem withBuffer_byte (m : Memory) (cmdBuffer : Nat) {i : Nat} (hi : i < cmdMaxLen) :
    (withBuffer m cmdBuffer buffer).byte (cmdBuffer + i) = buffer i := by
  unfold withBuffer
  dsimp only
  rw [if_pos (by omega), Nat.add_sub_cancel_left]

theorem withBuffer_isStr {m : Memory} {cmdBuffer : Nat} (h : Reads buffer line) (hlen : line.length ≤ cmdMaxLen - 1)
    (hroom : cmdBuffer + cmdMaxLen < addressSpace) : IsStr (withBuffer m cmdBuffer buffer) cmdBuffer line := by
  have hmax : 0 < cmdMaxLen := by decide
  refine ⟨fun i c hi => ?_, ?_, fun h0 => h.nonzero 0 h0 rfl, by omega⟩
  · obtain ⟨hlt, hget⟩ := List.getElem?_eq_some_iff.mp hi
    rw [withBuffer_byte m cmdBuffer (by omega), h.bytes i hlt, hget]
  · rw [withBuffer_byte m cmdBuffer (by omega)]
    exact h.nul

/-- The two loops look for the same space. -/
theorem findSpace_withBuffer (m : Memory) {cmdBuffer : Nat} (hroom : cmdBuffer + cmdMaxLen < addressSpace)
    {fuel fuel' i : Nat} (hi : i + fuel ≤ cmdMaxLen) (hfuel : fuel ≤ fuel')
    (h : firstSpace buffer fuel i = some space) :
    (withBuffer m cmdBuffer buffer).findSpace fuel' (cmdBuffer + i) = some (space.map (cmdBuffer + ·)) := by
  induction fuel generalizing i fuel' with
  | zero => cases h
  | succ fuel ih =>
    obtain ⟨fuel', rfl⟩ := Nat.exists_eq_succ_of_ne_zero (Nat.ne_zero_of_lt hfuel)
    unfold firstSpace at h
    unfold Memory.findSpace
    rw [withBuffer_byte m cmdBuffer (by omega)]
    split at h
    · next h0 =>
      cases h
      exact if_pos h0
    · next h0 =>
      rw [if_neg h0]
      split at h
      · next h20 =>
        cases h
        exact if_pos h20
      · next h20 =>
        rw [if_neg h20, wrap_eq (by omega)]
        exact ih (by omega) (Nat.le_of_succ_le_succ hfuel) h

/-- What the handler has cut and handed on is what `handle_command` does with the line. -/
theorem command_eq (L : Layout) (R : Rodata) (initElf : Ramfs → Nat → Option Ramfs) (s : Shell)
    (hroom : D.cmdBuffer + cmdMaxLen < addressSpace) (h : firstSpace buffer cmdMaxLen 0 = some space) :
    s.command L R initElf D (cutAt buffer space) (space.map (· + 1)) =
      (s.withMem (withBuffer s.mem D.cmdBuffer buffer)).handleCommand L R initElf D.cmdBuffer := by
  have hmax : cmdMaxLen ≤ addressSpace := by decide
  have hfind := findSpace_withBuffer s.mem hroom (by omega) hmax h
  unfold handleCommand
  rw [show (s.withMem (withBuffer s.mem D.cmdBuffer buffer)).mem.findSpace addressSpace D.cmdBuffer =
    some (space.map (D.cmdBuffer + ·)) from hfind, Option.bind_some]
  cases space with
  | none => rfl
  | some i =>
    have hcut : (withBuffer s.mem D.cmdBuffer (Function.update buffer i 0)).store8 (D.cmdBuffer + i) 0 =
        (withBuffer s.mem D.cmdBuffer buffer).store8 (D.cmdBuffer + i) 0 := by
      unfold withBuffer Memory.store8
      rw [Memory.mk.injEq]
      refine ⟨funext fun x => ?_, rfl⟩
      dsimp only
      split
      · rfl
      · split
        · rw [Function.update_of_ne (by omega)]
        · rfl
    simp only [Option.map_some, command, cutAt, Nat.add_sub_cancel, Nat.add_assoc]
    rw [hcut]
    rfl

theorem Hears.command (initElf : Ramfs → Nat → Option Ramfs) (h : s.Hears L R D file name heard) (hD : D.Placed L R)
    (hlow : R.slash < L.freeList) (hreads : Reads buffer line) (hlen : line.length ≤ cmdMaxLen - 1)
    (hspace : firstSpace buffer cmdMaxLen 0 = some space)
    (hrun : nameOf line ≠ ascii "run") (hstays : removed (nameOf line) (argsOf line) ≠ some name) :
    ∃ s', s.command L R initElf D (cutAt buffer space) (space.map (· + 1)) = some s' ∧
      s'.Hears L R D file name heard := by
  obtain ⟨v, ht⟩ := h.tidy
  have hroom : D.cmdBuffer + cmdMaxLen < addressSpace := by
    have hlast := (hD.buffer.2 (cmdMaxLen - 1) (by decide)).1.1
    have hmax : 0 < cmdMaxLen ∧ heapLowerBound < addressSpace := by decide
    omega
  have hstr := withBuffer_isStr (m := s.mem) hreads hlen hroom
  have hout : ∀ x, ¬ (D.cmdBuffer ≤ x ∧ x < D.cmdBuffer + cmdMaxLen) →
      (withBuffer s.mem D.cmdBuffer buffer).byte x = s.mem.byte x := fun x hx => if_neg hx
  obtain ⟨s', hs', hheld, hmem, w, hgood, hretains⟩ :=
    handleCommand_leaves initElf ht hD.buffer hlow hout hstr hlen hrun
  obtain ⟨v', ht'⟩ := ht.enters hD.buffer hlow hrun ⟨_, hout, hstr, hlen, hs'⟩
  refine ⟨s', (command_eq L R initElf s hroom hspace).trans hs', ⟨v', ht'⟩, ?_, ?_, hheld ▸ h.c⟩
  · obtain ⟨i, e, d, f, hlistens⟩ := ht.good.listens_iff.mp h.listens
    obtain ⟨d', hlistens'⟩ := hlistens.retained hretains hstays
    exact hgood.listens_iff.mpr ⟨i, e, d', f, hlistens'⟩
  · exact (hmem _ (Or.inl hD.newline.1) hD.newline.2.2).trans h.newline

/-! ### Runs -/

/-- The handler with a shell that has heard some of what has been typed. -/
structure Attends (L : Layout) (R : Rodata) (D : KeyboardData) (file : Nat) (name heard : List UInt8)
    (e : Editor (Option Shell)) (x : Typing) : Prop where
  keys : e.keys = x.keys
  holds : Holds e x.line
  shell : ∃ s, e.console = some s ∧ s.Hears L R D file name heard

/-- There is memory for one more character. -/
def Offered (L : Layout) (file : Nat) (e : Editor (Option Shell)) : Bool := e.console.all (·.mount.Offers L file)

/-- What an interrupt sends to the terminal. -/
def sentAt (y : Editor (Option Shell) × Interrupt) : List UInt8 := y.2.code.elim [] (sends y.1.keys y.1.cmdPos)

/-- What the interrupts have sent at which there was memory for it. -/
def heardOf (L : Layout) (file : Nat) (tr : List (Editor (Option Shell) × Interrupt)) : List UInt8 :=
  (tr.filter fun y => Offered L file y.1).flatMap sentAt

theorem heardOf_append (L : Layout) (file : Nat) (tr : List (Editor (Option Shell) × Interrupt))
    (y : Editor (Option Shell) × Interrupt) :
    heardOf L file (tr ++ [y]) = heardOf L file tr ++ if Offered L file y.1 = true then sentAt y else [] := by
  unfold heardOf
  rw [List.filter_append, List.flatMap_append]
  cases hoffered : Offered L file y.1 <;> simp [hoffered]

variable {e e' : Editor (Option Shell)} {x : Typing} {keycode : UInt8} {i : Interrupt}

/-- What a line may be. -/
def Harmless (name line : List UInt8) : Prop :=
  nameOf line ≠ ascii "run" ∧ removed (nameOf line) (argsOf line) ≠ some name

theorem Attends.sent (h : Attends L R D file name heard e x) (hi : i.code = some keycode) :
    sentAt (e, i) = sends x.keys x.line.length keycode := by
  unfold sentAt
  rw [hi, Option.elim_some, h.keys, h.holds.pos]

theorem Attends.press (h : Attends L R D file name heard e x) (hD : D.Placed L R) (hlow : R.slash < L.freeList)
    (hi : i.code = some keycode) (hstep : Step (console L R initElf D) e i e')
    (hlines : ∀ line ∈ (x.press keycode).lines, Harmless name line) :
    Attends L R D file name (heard ++ if Offered L file e = true then sentAt (e, i) else []) e' (x.press keycode) := by
  have hsent := h.sent hi
  obtain ⟨r, hr, rfl⟩ := hstep
  obtain ⟨r', hr', hfollows⟩ := h.holds.interrupt (console L R initElf D) hi
  cases hr.symm.trans hr'
  have hshown := h.holds.shown hi hr
  obtain ⟨s, hs, hears⟩ := h.shell
  have hoffered : (if Offered L file e = true then sentAt (e, i) else []) =
      s.kept L file (sends x.keys x.line.length keycode) := by
    unfold Offered kept
    rw [hs, Option.all_some, hsent]
  rw [hs, h.keys] at hshown
  rw [hoffered]
  refine ⟨hfollows.keys.trans (by rw [h.keys]; rfl), ?_, ?_⟩
  · have hholds := hfollows.holds
    rw [h.keys] at hholds
    exact hholds
  · generalize r.editor.console = c at hshown
    have hnone : s.kept L file [] = [] := ite_self _
    cases hshown with
    | nothing henter htypes =>
      rw [sends_nothing henter htypes, hnone, List.append_nil]
      exact ⟨s, rfl, hears⟩
    | erase henter htypes =>
      rw [sends_nothing henter htypes, hnone, List.append_nil]
      exact ⟨s, rfl, hears⟩
    | echo henter htypes =>
      rw [sends_types henter htypes]
      exact hears.echo hD (x.keys.character keycode)
    | enter henter _ =>
      obtain ⟨s', hs', hears'⟩ := hears.enter hD
      rw [sends_enter henter]
      exact ⟨s'.print "shompOS> ", congrArg (Option.map fun s : Shell => s.print "shompOS> ") hs',
        hears'.quiet ⟨rfl, rfl⟩⟩
    | command henter hline _ hreads hspace =>
      have hentered : x.line ∈ (x.press keycode).lines := by
        rw [x.press_lines henter hline]
        exact List.mem_append_right _ (List.mem_singleton_self _)
      obtain ⟨hrun, hstays⟩ := hlines _ hentered
      obtain ⟨s₁, hs₁, hears₁⟩ := hears.enter hD
      obtain ⟨s', hs', hears'⟩ := hears₁.command initElf hD hlow hreads h.holds.short hspace hrun hstays
      rw [sends_enter henter]
      refine ⟨s'.print "shompOS> ", ?_, hears'.quiet ⟨rfl, rfl⟩⟩
      show Option.map (fun s : Shell => s.print "shompOS> ")
        (Option.bind (s.newline L D) fun s => s.command L R initElf D _ _) = _
      rw [hs₁, Option.bind_some, hs', Option.map_some]

/-- The keyboard is at rest, with an empty line, and the shell on a tree that is one. -/
def Seated (L : Layout) (R : Rodata) (D : KeyboardData) (keys : KeyState) (file : Nat) (name heard : List UInt8)
    (e : Editor (Option Shell)) : Prop :=
  Start keys e ∧ ∃ s, e.console = some s ∧ Fit L R s ∧ s.mount.Listens file name heard ∧
    s.mem.byte D.newline = 0x0A ∧ Callers L s.mount.held D.c

theorem Seated.attends {keys : KeyState} (h : Seated L R D keys file name heard e) :
    Attends L R D file name heard e (Typing.of keys []) := by
  obtain ⟨⟨hkeys, hpos, hwritten⟩, s, hs, ⟨⟨v, hg⟩, hwell, hnames⟩, hlistens, hnewline, hc⟩ := h
  refine ⟨hkeys, ⟨hpos, nofun, nofun, Nat.zero_le _, fun i hi => ?_⟩, s, hs,
    ⟨v, tidy_of_wellFormed hg hwell hnames⟩, hlistens, hnewline, hc⟩
  rw [hwritten] at hi
  exact absurd hi List.not_mem_nil

theorem attends_of_run {keys : KeyState} {tr : List (Editor (Option Shell) × Interrupt)} (hD : D.Placed L R)
    (hlow : R.slash < L.freeList) (hrun : Run (Seated L R D keys file name heard) (Step (console L R initElf D)) tr e)
    (hlines : ∀ line ∈ (Typing.of keys (codes tr)).lines, Harmless name line) :
    Attends L R D file name (heard ++ heardOf L file tr) e (Typing.of keys (codes tr)) ∧
      (Typing.of keys (codes tr)).sent = tr.flatMap sentAt := by
  induction hrun with
  | start h => exact ⟨(List.append_nil heard).symm ▸ h.attends, rfl⟩
  | @next tr e i e' _ hstep ih =>
    have hcodes : codes (tr ++ [(e, i)]) = codes tr ++ i.code.toList := by
      unfold codes
      rw [List.filterMap_append]
      cases hi : i.code <;> simp [hi]
    rw [hcodes] at hlines ⊢
    rw [heardOf_append, ← List.append_assoc, List.flatMap_append, List.flatMap_singleton]
    cases hi : i.code with
    | none =>
      rw [hi, Option.toList_none, List.append_nil] at hlines
      have hnothing : sentAt (e, i) = [] := by
        unfold sentAt
        rw [hi, Option.elim_none]
      rw [Option.toList_none, List.append_nil, hnothing, ite_self, List.append_nil, List.append_nil]
      obtain ⟨r, hr, rfl⟩ := hstep
      rw [interrupt_none _ hi] at hr
      cases hr
      exact ih hlines
    | some k =>
      rw [hi, Option.toList_some, Typing.of_append] at hlines
      rw [Option.toList_some, Typing.of_append]
      obtain ⟨hbefore, hsent⟩ := ih fun line hline => hlines line (Typing.lines_subset_press _ k hline)
      refine ⟨hbefore.press hD hlow hi hstep hlines, ?_⟩
      rw [hbefore.sent hi, ← hsent]
      rfl

/-- Whatever keys are pressed, in any order, the handler and what it calls come back, the buffer
has the line that is typed, the tree stays one, and the standard input has heard what was
typed, but for the characters at which there was no memory for one more. -/
theorem run_heard {keys : KeyState} {tr : List (Editor (Option Shell) × Interrupt)} (hD : D.Placed L R)
    (hlow : R.slash < L.freeList) (hrun : Run (Seated L R D keys file name heard) (Step (console L R initElf D)) tr e)
    (hlines : ∀ line ∈ (Typing.of keys (codes tr)).lines, Harmless name line) :
    (∀ i, ∃ r, e.interrupt (console L R initElf D) i = some r) ∧ Holds e (reference keys (codes tr)) ∧
      (∃ s, e.console = some s ∧ s.WellFormed ∧ s.mount.Listens file name (heard ++ heardOf L file tr)) ∧
      (Typing.of keys (codes tr)).sent = tr.flatMap sentAt ∧
      (heardOf L file tr).Sublist (Typing.of keys (codes tr)).sent ∧
      ((∀ y ∈ tr, Offered L file y.1 = true) → heardOf L file tr = (Typing.of keys (codes tr)).sent) := by
  obtain ⟨⟨-, hholds, s, hs, hears⟩, hsent⟩ := attends_of_run hD hlow hrun hlines
  refine ⟨fun i => ?_, (Typing.of_line keys (codes tr)).2 ▸ hholds, ⟨s, hs, ?_, hears.listens⟩, hsent, ?_,
    fun hall => ?_⟩
  · cases hi : i.code with
    | none => exact ⟨_, interrupt_none _ hi⟩
    | some k =>
      obtain ⟨r, hr, -⟩ := hholds.interrupt (console L R initElf D) hi
      exact ⟨r, hr⟩
  · obtain ⟨v, ht⟩ := hears.tidy
    exact ht.wellFormed
  · rw [hsent]
    exact List.filter_sublist.flatMap sentAt
  · rw [hsent, heardOf, List.filter_eq_self.mpr hall]

/-! ### A file of a booted machine -/

/-- Every sequence of interrupts is handled. -/
theorem exists_seated (initElf : Ramfs → Nat → Option Ramfs) {keys : KeyState}
    (h : Seated L R D keys file name heard e) (is : List Interrupt) :
    ∃ tr e', Run (Seated L R D keys file name heard) (Step (console L R initElf D)) tr e' ∧
      codes tr = is.filterMap Interrupt.code := by
  induction is using List.reverseRecOn with
  | nil => exact ⟨[], e, .start h, rfl⟩
  | append_singleton is i ih =>
    obtain ⟨tr, e', hrun, hcodes⟩ := ih
    have hnext : ∃ r, e'.interrupt (console L R initElf D) i = some r := by
      cases hi : i.code with
      | none => exact ⟨_, interrupt_none _ hi⟩
      | some k =>
        obtain ⟨r, hr, -⟩ := (holds_of_run (hrun.mono fun _ hs => hs.1)).2.interrupt (console L R initElf D) hi
        exact ⟨r, hr⟩
    obtain ⟨r, hr⟩ := hnext
    refine ⟨_, r.editor, hrun.next ⟨r, hr, rfl⟩, ?_⟩
    unfold codes at hcodes ⊢
    rw [List.filterMap_append, List.filterMap_append, hcodes]
    rfl

def bootKeyboard : KeyboardData := ⟨bootBuffer, 0x3000, 0x3010⟩

theorem placed_boot : bootKeyboard.Placed .kernelImage Mount.bootRodata := by
  refine ⟨cmdBuffer_boot, ?_, ?_⟩
  · decide +kernel
  · decide +kernel

/-- `cat a`, where `a` is the standard input. -/
theorem run_heard_cat : ∃ tr e file s log,
    Run (Seated .kernelImage Mount.bootRodata bootKeyboard ⟨false, false, false, false⟩ file (ascii "a") [])
      (Step (console .kernelImage Mount.bootRodata (fun _ _ => none) bootKeyboard)) tr e ∧
    codes tr = [0x2E, 0x1E, 0x14, 0x39, 0x1E, 0x1C] ∧ e.console = some s ∧ s.WellFormed ∧
    s.mount.Listens file (ascii "a") log ∧ log.Sublist (ascii "cat a" ++ [0x0A]) := by
  have hdec : Mount.rehearses (fun root => [.store 0x3000 0x0A, .createFile root 0x1050 0x1040 0,
      .openFile root 0x1050 (oRdwr ||| oAppend)]) (fun tr s =>
        (∀ x ∈ tr, x.1.KeepsOpen x.2.1 ∧ x.1.Bounded x.2.1) ∧ s.heap.word s.root RamfsDir.fileCount = 1 ∧
        s.heap.word s.root RamfsDir.subdirCount = 0 ∧ s.heap.word s.root RamfsDir.parent = 0 ∧
        s.heap.word s.root RamfsDir.name ≠ 0 ∧ s.mem.byte 0x3000 = 0x0A ∧
        s.heap.nameAt (s.heap.fileAt s.root 0) = some (ascii "a") ∧ s.contents (s.heap.fileAt s.root 0) = [] ∧
        (s.ramfs.fdEntry stdinFileno).any fun entry => s.fileOf entry = s.heap.fileAt s.root 0 ∧
          s.heap.word entry RamfsFd.flags = oRdwr ||| oAppend) := by decide +kernel
  obtain ⟨tr₀, m, hrun₀, hdec⟩ := Mount.run_rehearses hdec
  obtain ⟨hkeeps, hfiles, hsubs, hparent, hnamed, hnewline, hname, hempty, hopen⟩ := of_decide_eq_true hdec
  obtain ⟨entry, hentry, hopen⟩ := (Option.any_eq_true _ _).mp hopen
  obtain ⟨hfile, hflags⟩ := of_decide_eq_true hopen
  have hgood := (Mount.good_of_run hrun₀ (Mount.careful_of_keeps hrun₀ hkeeps)).1
  have hfit : Fit .kernelImage Mount.bootRodata (atRoot m) := fit_of_one hgood hfiles hsubs hparent hnamed
  have hlistens : m.Listens (m.heap.fileAt m.root 0) (ascii "a") [] :=
    ⟨⟨entry, hentry, hfile, by rw [hflags]; decide, by rw [hflags]; decide⟩,
      ⟨m.root, 0, .root, by rw [hfiles]; exact Nat.one_pos, rfl⟩, Heap.nameAt_hasName hname, hempty⟩
  have hseated : Seated .kernelImage Mount.bootRodata bootKeyboard ⟨false, false, false, false⟩
      (m.heap.fileAt m.root 0) (ascii "a") [] ⟨⟨false, false, false, false⟩, fun _ => 7, 0, [], some (atRoot m)⟩ :=
    ⟨⟨rfl, rfl, rfl⟩, atRoot m, rfl, hfit, hlistens, hnewline, Or.inl (by decide +kernel)⟩
  obtain ⟨tr, e, hrun, hcodes⟩ := exists_seated (fun _ _ => none) hseated
    [⟨1, 0x2E, 0⟩, ⟨1, 0x1E, 0⟩, ⟨1, 0x14, 0⟩, ⟨1, 0x39, 0⟩, ⟨1, 0x1E, 0⟩, ⟨1, 0x1C, 0⟩]
  have htyped : codes tr = [0x2E, 0x1E, 0x14, 0x39, 0x1E, 0x1C] := hcodes.trans (by decide +kernel)
  have hlines : ∀ line ∈ (Typing.of ⟨false, false, false, false⟩ (codes tr)).lines, Harmless (ascii "a") line := by
    rw [htyped]
    unfold Harmless
    decide +kernel
  obtain ⟨-, -, ⟨s, hs, hwell, hheard⟩, -, hlog, -⟩ := run_heard placed_boot (by decide) hrun hlines
  rw [htyped] at hlog
  exact ⟨tr, e, _, s, _, hrun, htyped, hs, hwell, hheard, hlog⟩

end Shell
end ShompOS
