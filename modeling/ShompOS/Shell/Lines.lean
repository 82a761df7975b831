import ShompOS.Shell.Terminal
import ShompOS.Shell.WellFormed

/-! Every line comes back.

There is a 0 in the image, so whatever is printed ends, and what the commands call returns.
A line leaves the descriptors and the files with what is in them, but for those of the name
that `rm` is given. -/
namespace ShompOS
open Memory

/-! ### Printing -/

/-- Wherever a string begins, it ends. -/
def Memory.Terminated (m : Memory) : Prop := ∀ a, a < addressSpace → ∃ n, m.strlen a = some n

theorem Memory.ends_of_nul {m : Memory} {z : Nat} (hz : z < addressSpace) (h0 : m.byte z = 0) : m.Terminated := by
  intro a ha
  have hreach : m.byte (wrap (a + wrap (z + (addressSpace - a)))) = 0 := by
    unfold wrap
    rw [Nat.add_mod_mod, show a + (z + (addressSpace - a)) = z + addressSpace by omega, Nat.add_mod_right,
      Nat.mod_eq_of_lt hz]
    exact h0
  have hlt : wrap (z + (addressSpace - a)) < addressSpace := Nat.mod_lt _ (by decide)
  have hex : ∃ n, m.byte (wrap (a + n)) = 0 := ⟨_, hreach⟩
  exact ⟨Nat.find hex, (strlen_eq_some_iff ha).mpr ⟨Nat.lt_of_le_of_lt (Nat.find_min' hex hreach) hlt,
    Nat.find_spec hex, fun i hi => Nat.find_min hex hi⟩⟩

namespace Ramfs
variable {s : Ramfs} {a dir : Nat}

theorem writestring_ends (h : s.heap.mem.Terminated) (ha : a < addressSpace) :
    ∃ r, s.terminalWritestring a = some r ∧ s.Quiet r := by
  obtain ⟨n, hn⟩ := h a ha
  unfold terminalWritestring
  rw [hn]
  exact ⟨_, rfl, rfl, rfl⟩

theorem report_ends (h : s.heap.mem.Terminated) (ha : a < addressSpace) (text : String) :
    ∃ r, s.report text a = some r ∧ s.Quiet r := by
  obtain ⟨r, hr, hq⟩ := writestring_ends (s := s.print text) h ha
  unfold report
  rw [hr]
  exact ⟨_, rfl, hq.heap, hq.table⟩

theorem listSubdirs_ends (h : s.heap.mem.Terminated) (dir count i : Nat) : ∃ r, listSubdirs dir count i s = some r := by
  induction count generalizing i s with
  | zero => exact ⟨s, rfl⟩
  | succ count ih =>
    obtain ⟨r, hr, hq⟩ := report_ends h (load32_lt _ _) "[DIR]  "
    unfold listSubdirs
    rw [Heap.word, Memory.word, hr]
    exact ih (hq.heap.symm ▸ h) (i + 1)

theorem listFiles_ends (h : s.heap.mem.Terminated) (R : Rodata) (dir count i : Nat) :
    ∃ r, listFiles R dir count i s = some r := by
  induction count generalizing i s with
  | zero => exact ⟨s, rfl⟩
  | succ count ih =>
    obtain ⟨r, hr, hq⟩ := writestring_ends (s := s.print "[FILE] ") h
      (load32_lt _ (wrap (s.heap.word (s.heap.word dir RamfsDir.files) i + 4 * RamfsFile.name)))
    unfold listFiles
    dsimp only
    rw [show (s.print "[FILE] ").terminalWritestring
      (s.heap.word (s.heap.word (s.heap.word dir RamfsDir.files) i) RamfsFile.name) = some r from hr, Option.bind_some]
    apply ih
    have hsize := quiet_writeint R (r.print "    size:")
      (toSigned (r.heap.word (s.heap.word (s.heap.word dir RamfsDir.files) i) RamfsFile.size))
    show (Ramfs.terminalWriteint _ _ _).heap.mem.Terminated
    rw [hsize.heap]
    exact hq.heap.symm ▸ h

end Ramfs

/-! ### What stays -/

/-- The descriptors and files are still there, with what is in them; files of one name
need not be. -/
structure Volume.Retains (v w : Volume) (gone : Option (List UInt8)) : Prop where
  fds : w.fds = v.fds
  files : ∀ d ∈ v.dirs, ∀ f ∈ d.fileNodes, gone ≠ some f.text → ∃ d' ∈ w.dirs, f ∈ d'.fileNodes

namespace Volume
variable {v w : Volume} {k : Nat} {d d' : DirNode} {gone : Option (List UInt8)}

theorem retains_pool (v : Volume) (P : Pool) (gone : Option (List UInt8)) : v.Retains {v with pool := P} gone :=
  ⟨rfl, fun d hd _ hf _ => ⟨d, hd, hf⟩⟩

/-- One directory is different, and still has its files. -/
theorem retains_set (hk : v.dirs[k]? = some d) (hfds : w.fds = v.fds) (hdirs : v.dirs.set k d' ⊆ w.dirs)
    (hfiles : ∀ f ∈ d.fileNodes, gone ≠ some f.text → f ∈ d'.fileNodes) : v.Retains w gone := by
  refine ⟨hfds, fun x hx f hf hgone => ?_⟩
  obtain ⟨i, hi⟩ := List.getElem?_of_mem hx
  by_cases hik : k = i
  · obtain rfl := Option.some.inj (hk.symm.trans (hik ▸ hi))
    exact ⟨d', hdirs (List.mem_of_getElem? (List.getElem?_set_self (List.getElem?_eq_some_iff.mp hk).1)),
      hfiles f hf hgone⟩
  · exact ⟨x, hdirs (List.mem_of_getElem? (by rw [List.getElem?_set_ne hik]; exact hi)), hf⟩

theorem retains_createFile (gone : Option (List UInt8)) (hk : v.dirs[k]? = some d) (text contents : List UInt8) :
    v.Retains (v.withDir k (d.createFile v.pool text contents).1 (d.createFile v.pool text contents).2.1) gone := by
  refine retains_set hk rfl (List.Subset.refl _) fun f hf _ => ?_
  cases DirNode.createFile_cases v.pool d text contents with
  | inl h => exact h.1.symm ▸ hf
  | inr h =>
    obtain ⟨g, files, -, -, -, -, he⟩ := h
    rw [he]
    exact List.mem_append_left _ hf

theorem retains_createDir (hk : v.dirs[k]? = some d) (text : List UInt8) : v.Retains (v.createDir k d text) gone := by
  refine retains_set hk rfl (List.subset_append_left _ _) fun f hf _ => ?_
  cases DirNode.createDir_cases v.pool d text with
  | inl h => exact h.1.symm ▸ hf
  | inr h =>
    obtain ⟨dir, name, subdirs, -, -, he⟩ := h
    exact he.symm ▸ hf

theorem retains_deleteFile (hk : v.dirs[k]? = some d) (text : List UInt8) :
    v.Retains (v.withDir k (d.deleteFile v.pool text).1 (d.deleteFile v.pool text).2) (some text) := by
  refine retains_set hk rfl (List.Subset.refl _) fun f hf hgone => ?_
  cases DirNode.deleteFile_cases v.pool d text with
  | inl h => exact h.2.symm ▸ hf
  | inr h =>
    obtain ⟨i, g, hidx, hg, he⟩ := h
    rw [he]
    obtain ⟨j, hj⟩ := List.getElem?_of_mem hf
    refine List.mem_eraseIdx_iff_getElem?.mpr ⟨j, fun hij => ?_, hj⟩
    obtain ⟨hlt, htext, -⟩ := List.findIdx?_eq_some_iff_getElem.mp hidx
    have hget : d.fileNodes[i] = f := Option.some.inj ((List.getElem?_eq_getElem hlt).symm.trans (hij ▸ hj))
    rw [hget] at htext
    exact hgone (congrArg some (of_decide_eq_true htext).symm)

end Volume

/-! ### The commands -/

namespace Mount
variable {L : Layout} {R : Rodata} {s : Mount} {v : Volume} {k : Nat} {d : DirNode} {a : Nat} {text : List UInt8}
  {gone : Option (List UInt8)} {r : Option Ramfs}

theorem Good.terminated (hg : s.Good L R v) : s.mem.Terminated := by
  have hroom := hg.rodata.empty.str.room
  exact ends_of_nul (Nat.lt_of_succ_lt hroom) hg.rodata.empty.str.stop

/-- What is called comes back, and leaves the files. -/
def Leaves (L : Layout) (R : Rodata) (s : Mount) (v : Volume) (gone : Option (List UInt8)) (r : Option Ramfs) : Prop :=
  ∃ r', r = some r' ∧ Calm L s (s.withRamfs r') ∧ ∃ w, (s.withRamfs r').Good L R w ∧ v.Retains w gone

/-- Something is called, and then something is printed. -/
theorem Leaves.intro {w : Volume} {r₁ r₂ : Ramfs} (hcalm : Calm L s (s.withRamfs r₁)) (hg : (s.withRamfs r₁).Good L R w)
    (hretains : v.Retains w gone) (hr : r = some r₂) (hq : r₁.Quiet r₂) : Leaves L R s v gone r := by
  obtain ⟨hg', hcalm'⟩ := hg.congr (r := r₂) hq.heap hq.table
  exact ⟨r₂, hr, hcalm.trans hcalm', w, hg', hretains⟩

theorem Good.leaves_quiet (hg : s.Good L R v) {r' : Ramfs} (hr : r = some r') (hq : s.ramfs.Quiet r') :
    Leaves L R s v gone r :=
  .intro (Calm.refl s) hg (Volume.retains_pool v v.pool gone) hr hq

theorem Good.leaves_report (hg : s.Good L R v) (ha : a < addressSpace) (text : String) :
    Leaves L R s v gone (s.ramfs.report text a) := by
  obtain ⟨r', hr, hq⟩ := Ramfs.report_ends hg.terminated ha text
  exact hg.leaves_quiet hr hq

theorem Good.leaves_pwd (gone : Option (List UInt8)) (hg : s.Good L R v) (hlow : R.slash < L.freeList)
    (hp : v.Parented s.root) (hnear : v.Near s.root d) : Leaves L R s v gone (s.ramfs.ramfsPwd L d.addr) := by
  obtain ⟨ds, texts, hline, htexts, hfits⟩ := hg.near_texts hlow hp hnear
  obtain ⟨r, hcall, -, hgood, hcalm⟩ := hg.pwd hp hline htexts hfits
  exact ⟨r, hcall, hcalm, _, hgood, Volume.retains_pool v _ gone⟩

theorem Good.leaves_ls (hg : s.Good L R v) (hlow : R.slash < L.freeList) (hp : v.Parented s.root)
    (hnear : v.Near s.root d) : Leaves L R s v gone (s.ramfs.ramfsLs L R d.addr) := by
  unfold Ramfs.ramfsLs
  split
  · exact hg.leaves_quiet rfl ⟨rfl, rfl⟩
  · have hg' : (s.withRamfs (s.ramfs.print "Contents of ")).Good L R v := hg.quiet ⟨rfl, rfl⟩
    obtain ⟨r, hr, hcalm, w, hw, hretains⟩ := hg'.leaves_pwd gone hlow hp hnear
    change (s.ramfs.print "Contents of ").ramfsPwd L d.addr = some r at hr
    obtain ⟨r₁, hr₁⟩ := Ramfs.listSubdirs_ends hw.terminated d.addr (r.heap.word d.addr RamfsDir.subdirCount) 0
    have hq := Ramfs.quiet_listSubdirs hr₁
    have hcalm : Calm L s (s.withRamfs r) := ⟨rfl, rfl, hcalm.memory⟩
    obtain ⟨r₂, hr₂⟩ := Ramfs.listFiles_ends (s := r₁) (hq.heap.symm ▸ hw.terminated) R d.addr
      (r₁.heap.word d.addr RamfsDir.fileCount) 0
    refine .intro hcalm hw hretains ?_ (hq.trans (Ramfs.quiet_listFiles hr₂))
    rw [hr, Option.bind_some]
    rw [show Ramfs.listSubdirs d.addr (r.heap.word d.addr RamfsDir.subdirCount) 0 r = some r₁ from hr₁]
    exact hr₂

theorem Good.leaves_cat (hg : s.Good L R v) (hk : v.dirs[k]? = some d) (hname : s.Passes L a text) :
    Leaves L R s v gone (s.ramfs.ramfsCat d.addr a) := by
  unfold Ramfs.ramfsCat
  split
  · exact hg.leaves_quiet rfl ⟨rfl, rfl⟩
  have hroom := hname.1.room
  obtain ⟨j, hj, hskip, -⟩ := skipSpaces_eq hname.1 (show text.length < addressSpace by omega)
  have hd := List.mem_of_getElem? hk
  rw [hskip, Option.bind_some, hg.owns.searchFile (fun c hc => List.mem_append_left _ (DirNode.mem_cells hd hc))
    (hg.valid d hd) (hname.drop hj).1, Option.bind_some]
  split
  · exact hg.leaves_report (load32_lt _ _) _
  · exact hg.leaves_report (by omega) _

theorem Good.leaves_touch (hg : s.Good L R v) (hk : v.dirs[k]? = some d) (hname : s.Passes L a text) :
    Leaves L R s v gone (s.ramfs.ramfsTouch L R d.addr a) := by
  unfold Ramfs.ramfsTouch
  split
  · exact hg.leaves_quiet rfl ⟨rfl, rfl⟩
  next hnull =>
  have hroom := hname.1.room
  obtain ⟨j, hj, hskip, -⟩ := skipSpaces_eq hname.1 (show text.length < addressSpace by omega)
  have hname' := hname.drop hj
  have hd := List.mem_of_getElem? hk
  rw [hskip, Option.bind_some, strlen_eq hname'.1, Option.bind_some]
  split
  · exact hg.leaves_quiet rfl ⟨rfl, rfl⟩
  rw [hg.owns.searchFile (fun c hc => List.mem_append_left _ (DirNode.mem_cells hd hc)) (hg.valid d hd) hname'.1,
    Option.bind_some]
  split
  · exact hg.leaves_quiet rfl ⟨rfl, rfl⟩
  obtain ⟨s₁, hcall, hgood, hcalm⟩ := hg.createFile hk hname' (by omega) hg.lent_empty hg.rodata.empty.ne_zero
  obtain ⟨⟨h₁, file⟩, hcreate, he⟩ := Option.map_eq_some_iff.mp hcall
  cases he
  rw [show ([0] : List UInt8).length = 1 from rfl] at hcreate
  have hretains := Volume.retains_createFile gone hk (text.drop j) [0]
  rw [hcreate, Option.bind_some]
  dsimp only
  split
  · obtain ⟨r₂, hr₂, hq⟩ := Ramfs.report_ends (s := {s.ramfs with heap := h₁}) hgood.terminated
      (show a + j < addressSpace by omega) "Created file: "
    exact .intro hcalm hgood hretains hr₂ hq
  · exact .intro hcalm hgood hretains rfl ⟨rfl, rfl⟩

theorem Good.leaves_mkdir (hg : s.Good L R v) (hk : v.dirs[k]? = some d) (hname : s.Passes L a text) :
    Leaves L R s v gone (s.ramfs.ramfsMkdir L d.addr a) := by
  have hroom := hname.1.room
  unfold Ramfs.ramfsMkdir
  split
  · exact hg.leaves_quiet rfl ⟨rfl, rfl⟩
  next hnull =>
  obtain ⟨found, hfound, -⟩ := searchName_ends hname.1 (s.heap.word d.addr RamfsDir.subdirCount) 0
    (a := s.heap.word d.addr RamfsDir.subdirs)
  rw [show Heap.searchName s.ramfs.heap.mem (s.ramfs.heap.word d.addr RamfsDir.subdirs) a
    (s.ramfs.heap.word d.addr RamfsDir.subdirCount) 0 = some found from hfound, Option.bind_some]
  cases found with
  | some i => exact hg.leaves_report (by omega) _
  | none =>
    obtain ⟨s₁, hcall, hgood, hcalm⟩ := hg.createDir hk hname fun h0 => hnull (Or.inr h0)
    obtain ⟨⟨h₁, made⟩, hcreate, he⟩ := Option.map_eq_some_iff.mp hcall
    obtain ⟨rfl, -⟩ := Prod.mk.inj he
    obtain ⟨r₂, hr₂, hq⟩ := Ramfs.report_ends (s := {s.ramfs with heap := h₁}) hgood.terminated
      (show a < addressSpace by omega) (if made ≠ 0 then "Created directory: " else "Failed to create directory: ")
    refine .intro hcalm hgood (Volume.retains_createDir hk text) ?_ hq
    dsimp only
    rw [hcreate, Option.bind_some]
    exact hr₂

theorem Good.leaves_rm (hg : s.Good L R v) (hk : v.dirs[k]? = some d) (hname : s.Passes L a text) :
    Leaves L R s v (some text) (s.ramfs.ramfsRm L d.addr a) := by
  have hroom := hname.1.room
  unfold Ramfs.ramfsRm
  split
  · exact hg.leaves_quiet rfl ⟨rfl, rfl⟩
  next hnull =>
  have hd := List.mem_of_getElem? hk
  rw [hg.owns.searchFile (fun c hc => List.mem_append_left _ (DirNode.mem_cells hd hc)) (hg.valid d hd) hname.1,
    Option.bind_some]
  split
  · exact hg.leaves_report (show a < addressSpace by omega) _
  · obtain ⟨h', hdelete, -, hgood, hcalm⟩ := hg.deleteFile hk hname.1 fun h0 => hnull (Or.inr h0)
    rw [hdelete, Option.bind_some]
    obtain ⟨r₂, hr₂, hq⟩ := Ramfs.report_ends (s := {s.ramfs with heap := h'}) hgood.terminated
      (show a < addressSpace by omega) "Removed file: "
    exact .intro hcalm hgood (Volume.retains_deleteFile hk text) hr₂ hq

end Mount

namespace Shell
variable {L : Layout} {R : Rodata} {initElf : Ramfs → Nat → Option Ramfs} {s s' : Shell} {v : Volume} {k : Nat}
  {d : DirNode} {cmd args cmdBuffer : Nat} {name line : List UInt8} {given gone : Option (List UInt8)} {m : Memory}

/-- The name of the file that a line removes. -/
def removed (name : List UInt8) (given : Option (List UInt8)) : Option (List UInt8) :=
  if name = ascii "rm" then given else none

/-- A command comes back, and leaves the files. -/
def Leaves (L : Layout) (R : Rodata) (s : Shell) (v : Volume) (gone : Option (List UInt8)) (s' : Option Shell) : Prop :=
  ∃ s₁, s' = some s₁ ∧ Mount.Calm L s.mount s₁.mount ∧ ∃ w, s₁.mount.Good L R w ∧ v.Retains w gone

theorem Leaves.after {r : Option Ramfs} (h : s.mount.Leaves L R v gone r) : s.Leaves L R v gone (s.after r) := by
  obtain ⟨r', rfl, h⟩ := h
  exact ⟨s.withRamfs r', rfl, h⟩

theorem Leaves.quiet (hg : s.mount.Good L R v) {r : Ramfs} (hq : s.ramfs.Quiet r) :
    s.Leaves L R v gone (some (s.withRamfs r)) :=
  .after (r := some r) (hg.leaves_quiet rfl hq)

theorem Leaves.needs (hg : s.mount.Good L R v) (usage : String) {command : Option Shell}
    (h : args ≠ 0 → s.Leaves L R v gone command) : s.Leaves L R v gone (s.needs args usage command) := by
  unfold Shell.needs
  split
  · exact .quiet hg ⟨rfl, rfl⟩
  · next hne => exact h hne

theorem leaves_cd (hg : s.mount.Good L R v) {text : List UInt8} (hpath : s.mount.Passes L args text) (hne : args ≠ 0) :
    s.Leaves L R v gone (s.changeDir L R args) := by
  obtain ⟨root, hroot, he⟩ := (hg.owns.inTree_iff hg.tree).mp .root
  obtain ⟨s₁, dir, hcall, hgood, hcalm, -⟩ := hg.findDir hroot hpath hne
  obtain ⟨⟨h₁, last, dir'⟩, hfind, hr⟩ := Option.map_eq_some_iff.mp hcall
  cases hr
  have hretains := Volume.retains_pool v (Volume.findDirPool v.pool text) gone
  rw [he] at hfind
  unfold changeDir Ramfs.ramfsCd
  rw [show s.ramfs.heap.ramfsFindDir L R s.ramfs.last s.systemRoot args = some (h₁, last, dir) from hfind,
    Option.map_some, Option.map_some]
  dsimp only
  split
  · exact ⟨_, rfl, hcalm, _, hgood, hretains⟩
  · exact .after (r := some _) (.intro hcalm hgood hretains rfl ⟨rfl, rfl⟩)

theorem perform_leaves (initElf : Ramfs → Nat → Option Ramfs) (hg : s.mount.Good L R v) (hk : v.dirs[k]? = some d)
    (hcur : d.addr = s.currentDir) (hcmd : IsStr s.mem cmd name)
    (hargs : args = 0 ∨ ∃ text, given = some text ∧ s.mount.Passes L args text)
    (hrun : name ≠ ascii "run") (hlow : R.slash < L.freeList) (hp : v.Parented s.systemRoot)
    (hnear : v.Near s.systemRoot d) :
    s.Leaves L R v (removed name given) (s.perform L R initElf cmd args) := by
  have hroom := hcmd.room
  unfold perform
  dsimp only
  rw [← hcur]
  by_cases hclear : s.mem.streq cmd (ascii "clear") = true
  · rw [if_pos hclear]
    exact .quiet hg ⟨rfl, rfl⟩
  rw [if_neg hclear]
  by_cases hls : s.mem.streq cmd (ascii "ls") = true
  · rw [if_pos hls]
    exact .after (hg.leaves_ls hlow hp hnear)
  rw [if_neg hls]
  by_cases hpwd : s.mem.streq cmd (ascii "pwd") = true
  · rw [if_pos hpwd]
    exact .after (hg.leaves_pwd _ hlow hp hnear)
  rw [if_neg hpwd]
  by_cases hcat : s.mem.streq cmd (ascii "cat") = true
  · rw [if_pos hcat]
    refine .needs hg _ fun hne => ?_
    obtain ⟨text, -, hpasses⟩ := hargs.resolve_left hne
    exact .after (hg.leaves_cat hk hpasses)
  rw [if_neg hcat]
  by_cases htouch : s.mem.streq cmd (ascii "touch") = true
  · rw [if_pos htouch]
    refine .needs hg _ fun hne => ?_
    obtain ⟨text, -, hpasses⟩ := hargs.resolve_left hne
    exact .after (hg.leaves_touch hk hpasses)
  rw [if_neg htouch]
  by_cases hmkdir : s.mem.streq cmd (ascii "mkdir") = true
  · rw [if_pos hmkdir]
    refine .needs hg _ fun hne => ?_
    obtain ⟨text, -, hpasses⟩ := hargs.resolve_left hne
    exact .after (hg.leaves_mkdir hk hpasses)
  rw [if_neg hmkdir]
  by_cases hrm : s.mem.streq cmd (ascii "rm") = true
  · rw [if_pos hrm]
    refine .needs hg _ fun hne => ?_
    obtain ⟨text, hgiven, hpasses⟩ := hargs.resolve_left hne
    have hgone : removed name given = some text := by
      rw [removed, if_pos ((streq_iff hcmd (by decide)).mp hrm), hgiven]
    rw [hgone]
    exact .after (hg.leaves_rm hk hpasses)
  rw [if_neg hrm]
  by_cases hhelp : s.mem.streq cmd (ascii "help") = true
  · rw [if_pos hhelp]
    exact .quiet hg ⟨rfl, rfl⟩
  rw [if_neg hhelp]
  by_cases hcd : s.mem.streq cmd (ascii "cd") = true
  · rw [if_pos hcd]
    refine .needs hg _ fun hne => ?_
    obtain ⟨text, -, hpasses⟩ := hargs.resolve_left hne
    exact leaves_cd hg hpasses hne
  rw [if_neg hcd]
  by_cases hcmd' : s.mem.streq cmd (ascii "run") = true
  · exact absurd ((streq_iff hcmd (by decide)).mp hcmd') hrun
  rw [if_neg hcmd']
  split
  · exact .after (hg.leaves_report (by omega) _)
  · exact .quiet hg ⟨rfl, rfl⟩

/-- What a line that stands in the buffer is to do: its name is in front of what it is cut at. -/
theorem handleCommand_eq (initElf : Ramfs → Nat → Option Ramfs) (hbuf : CmdBuffer L R cmdBuffer)
    (hm : ∀ x, ¬ (cmdBuffer ≤ x ∧ x < cmdBuffer + cmdMaxLen) → m.byte x = s.mem.byte x) (hstr : IsStr m cmdBuffer line)
    (hlen : line.length ≤ cmdMaxLen - 1) :
    ∃ m' args, (s.withMem m).handleCommand L R initElf cmdBuffer = (s.withMem m').perform L R initElf cmdBuffer args ∧
      (∀ x, ¬ (cmdBuffer ≤ x ∧ x < cmdBuffer + cmdMaxLen) → m'.byte x = s.mem.byte x) ∧
      IsStr m' cmdBuffer (nameOf line) ∧
      (args = 0 ∨ ∃ text, argsOf line = some text ∧ (s.withMem m').mount.Passes L args text) := by
  have hmax : cmdMaxLen - 1 < cmdMaxLen ∧ cmdMaxLen < addressSpace := by decide
  have hroom := hstr.room
  unfold handleCommand
  by_cases hspace : 0x20 ∈ line
  · obtain ⟨args, hargs, hcut, hname⟩ := cut_line hspace
    have hlengths := congrArg List.length hcut
    rw [List.length_append, List.length_cons] at hlengths
    rw [hcut] at hstr
    obtain ⟨hcmd, hrest⟩ := hstr.cut
    rw [show (s.withMem m).mem.findSpace addressSpace cmdBuffer = some (some (cmdBuffer + (nameOf line).length)) from
      findSpace_some hstr hname (by omega), Option.bind_some]
    refine ⟨m.store8 (cmdBuffer + (nameOf line).length) 0, _, rfl, fun x hx => ?_, hcmd,
      Or.inr ⟨args, hargs, ?_⟩⟩
    · rw [byte_store8, if_neg (by omega)]
      exact hm x hx
    · rw [wrap_eq (by omega)]
      refine ⟨hrest, fun i hi => Or.inl ?_⟩
      rw [Nat.add_assoc, Nat.add_assoc]
      exact (hbuf.2 _ (by omega)).1
  · have hall : nameOf line = line := List.takeWhile_eq_self_iff.mpr fun x hx => decide_eq_true fun he =>
      hspace (he ▸ hx)
    rw [show (s.withMem m).mem.findSpace addressSpace cmdBuffer = some none from findSpace_none hstr hspace (by omega),
      Option.bind_some]
    exact ⟨m, 0, rfl, hm, hall.symm ▸ hstr, Or.inl rfl⟩

/-- A line that stands in the buffer comes back, and leaves the files but the one it removes. -/
theorem handleCommand_leaves (initElf : Ramfs → Nat → Option Ramfs) (ht : s.Tidy L R v)
    (hbuf : CmdBuffer L R cmdBuffer) (hlow : R.slash < L.freeList)
    (hm : ∀ x, ¬ (cmdBuffer ≤ x ∧ x < cmdBuffer + cmdMaxLen) → m.byte x = s.mem.byte x) (hstr : IsStr m cmdBuffer line)
    (hlen : line.length ≤ cmdMaxLen - 1) (hrun : nameOf line ≠ ascii "run") :
    ∃ s', (s.withMem m).handleCommand L R initElf cmdBuffer = some s' ∧ s'.mount.held = s.mount.held ∧
      (∀ x, Callers L s.mount.held x → ¬ (cmdBuffer ≤ x ∧ x < cmdBuffer + cmdMaxLen) →
        s'.mem.byte x = s.mem.byte x) ∧
      ∃ w, s'.mount.Good L R w ∧ v.Retains w (removed (nameOf line) (argsOf line)) := by
  obtain ⟨d, hd, hcur, hnear⟩ := ht.current
  obtain ⟨k, hk⟩ := List.getElem?_of_mem hd
  obtain ⟨m', args, hcommand, hm', hcmd, hargs⟩ := handleCommand_eq initElf hbuf hm hstr hlen
  have hg' : (s.withMem m').mount.Good L R v := good_buffer ht.good hbuf hm'
  obtain ⟨s', hs', hcalm, hleft⟩ := perform_leaves initElf hg' hk hcur hcmd hargs hrun hlow
    ht.orderly.parented hnear
  exact ⟨s', hcommand.trans hs', hcalm.held, fun x hx hout => (hcalm.memory x hx).trans (hm' x hout), hleft⟩

/-! ### Sessions -/

/-- What some lines leave as they found it: the files, but for those of certain names, the
descriptors, and the memory of others but for the buffer. -/
structure Kept (L : Layout) (cmdBuffer : Nat) (s s' : Shell) (gone : List UInt8 → Prop) : Prop where
  files : ∀ file text, s.heap.Linked s.systemRoot file → s.heap.HasName file text → ¬ gone text →
    s'.heap.Linked s'.systemRoot file ∧ s'.heap.HasName file text ∧ s'.mount.contents file = s.mount.contents file
  table : s'.ramfs.fdTable = s.ramfs.fdTable
  descriptors : ∀ i, s.ramfs.fdTable i ≠ 0 → ∀ field ∈ [RamfsFd.file, RamfsFd.position, RamfsFd.flags],
    s'.heap.word (s.ramfs.fdTable i) field = s.heap.word (s.ramfs.fdTable i) field
  held : s'.mount.held = s.mount.held
  memory : ∀ x, Callers L s.mount.held x → ¬ (cmdBuffer ≤ x ∧ x < cmdBuffer + cmdMaxLen) →
    s'.mem.byte x = s.mem.byte x

theorem Kept.refl (L : Layout) (cmdBuffer : Nat) (s : Shell) (gone : List UInt8 → Prop) : s.Kept L cmdBuffer s gone :=
  ⟨fun _ _ hlinked hname _ => ⟨hlinked, hname, rfl⟩, rfl, fun _ _ _ _ => rfl, rfl, fun _ _ _ => rfl⟩

theorem Kept.trans {t : Shell} {p q r : List UInt8 → Prop} (h : s.Kept L cmdBuffer s' p)
    (h' : s'.Kept L cmdBuffer t q) (hr : ∀ text, p text ∨ q text → r text) : s.Kept L cmdBuffer t r := by
  refine ⟨fun file text hlinked hname hno => ?_, h'.table.trans h.table, fun i hi field hfield => ?_,
    h'.held.trans h.held, fun x hx hout => ?_⟩
  · obtain ⟨hlinked', hname', hsame⟩ := h.files file text hlinked hname fun hp => hno (hr text (Or.inl hp))
    obtain ⟨hlinked'', hname'', hsame'⟩ := h'.files file text hlinked' hname' fun hq =>
      hno (hr text (Or.inr hq))
    exact ⟨hlinked'', hname'', hsame'.trans hsame⟩
  · rw [← h.table] at hi ⊢
    rw [h'.descriptors i hi field hfield, h.table]
    exact h.descriptors i (h.table ▸ hi) field hfield
  · exact (h'.memory x (h.held ▸ hx) hout).trans (h.memory x hx hout)

/-- A line comes back, to a shell whose tree is one. -/
theorem Tidy.keeps (initElf : Ramfs → Nat → Option Ramfs) (ht : s.Tidy L R v) (hbuf : CmdBuffer L R cmdBuffer)
    (hlow : R.slash < L.freeList) (hrun : nameOf line ≠ ascii "run")
    (h : Enters L R initElf cmdBuffer s line s') :
    (∃ v', s'.Tidy L R v') ∧ s.Kept L cmdBuffer s' fun text => removed (nameOf line) (argsOf line) = some text := by
  refine ⟨ht.enters hbuf hlow hrun h, ?_⟩
  obtain ⟨m, hm, hstr, hlen, hcall⟩ := h
  obtain ⟨s₁, hs₁, hheld, hmem, w, hgood, hretains⟩ := handleCommand_leaves initElf ht hbuf hlow hm hstr hlen hrun
  obtain rfl : s' = s₁ := Option.some.inj (hcall.symm.trans hs₁)
  have hg := ht.good
  obtain ⟨htable, hfds⟩ := hg.sameFds hgood hretains.fds
  refine ⟨fun file text hlinked hname hno => ?_, htable, fun i hi field hfield => ?_, hheld, hmem⟩
  · obtain ⟨d, hd, f, hf, rfl⟩ := (hg.owns.linked_iff hg.tree).mp hlinked
    obtain rfl := (hg.hasName_file hd hf).mp hname
    obtain ⟨d', hd', hf'⟩ := hretains.files d hd f hf hno
    exact ⟨(hgood.owns.linked_iff hgood.tree).mpr ⟨d', hd', f, hf', rfl⟩, (hgood.hasName_file hd' hf').mpr rfl,
      (hgood.file hd' hf').contents.trans (hg.file hd hf).contents.symm⟩
  · obtain ⟨hfile, hposition, hflags⟩ := hfds i hi
    simp only [List.mem_cons, List.not_mem_nil, or_false] at hfield
    rcases hfield with rfl | rfl | rfl
    · exact hfile
    · exact hposition
    · exact hflags

/-- After some lines the tree is one, and kept are the files but those that a line removed. -/
theorem Tidy.run {s₀ : Shell} {tr : List (Shell × List UInt8)} (ht : s₀.Tidy L R v) (hbuf : CmdBuffer L R cmdBuffer)
    (hlow : R.slash < L.freeList) (hrun : Run (· = s₀) (Enters L R initElf cmdBuffer) tr s)
    (hlines : ∀ x ∈ tr, nameOf x.2 ≠ ascii "run") :
    (∃ v', s.Tidy L R v') ∧
      s₀.Kept L cmdBuffer s fun text => ∃ x ∈ tr, removed (nameOf x.2) (argsOf x.2) = some text := by
  induction hrun with
  | start h => exact h.symm ▸ ⟨⟨v, ht⟩, .refl ..⟩
  | @next tr s line s' _ hstep ih =>
    have hin : (s, line) ∈ tr ++ [(s, line)] := List.mem_append_right _ (List.mem_singleton_self _)
    obtain ⟨⟨v', ht'⟩, hkept⟩ := ih fun x hx => hlines x (List.mem_append_left _ hx)
    obtain ⟨htidy, hline⟩ := ht'.keeps initElf hbuf hlow (hlines _ hin) hstep
    refine ⟨htidy, hkept.trans hline fun text hgone => ?_⟩
    cases hgone with
    | inl h =>
      obtain ⟨x, hx, htext⟩ := h
      exact ⟨x, List.mem_append_left _ hx, htext⟩
    | inr h => exact ⟨_, hin, h⟩

/-- With one file and no directory besides the root, the tree is one. -/
theorem wellFormed_of_one {s : Mount} (hfiles : s.heap.word s.root RamfsDir.fileCount ≤ 1)
    (hsubs : s.heap.word s.root RamfsDir.subdirCount = 0) (hparent : s.heap.word s.root RamfsDir.parent = 0) :
    (atRoot s).WellFormed := by
  have hroot : ∀ {dir}, s.heap.InTree s.root dir → dir = s.root := fun hdir => Mount.inTree_root hsubs hdir
  have hnone : ∀ {dir i}, s.heap.InTree s.root dir → ¬ i < s.heap.word dir RamfsDir.subdirCount := fun hdir hi => by
    rw [hroot hdir, hsubs] at hi
    exact Nat.not_lt_zero _ hi
  refine ⟨fun dir i j text hdir hi hj _ _ => ?_, fun dir i j text hdir hi => absurd hi (hnone hdir),
    fun dir i hdir hi => absurd hi (hnone hdir), fun dir dir' i j hdir _ hi => absurd hi (hnone hdir),
    fun dir i hdir hi => absurd hi (hnone hdir), fun dir hdir => ?_, .root⟩
  · change i < s.heap.word dir RamfsDir.fileCount at hi
    change j < s.heap.word dir RamfsDir.fileCount at hj
    rw [hroot hdir] at hi hj
    omega
  · rw [show dir = (atRoot s).systemRoot from hroot hdir]
    exact .top hparent

theorem fit_of_one {s : Mount} (hgood : ∃ v, s.Good L R v) (hfiles : s.heap.word s.root RamfsDir.fileCount = 1)
    (hsubs : s.heap.word s.root RamfsDir.subdirCount = 0) (hparent : s.heap.word s.root RamfsDir.parent = 0)
    (hnamed : s.heap.word s.root RamfsDir.name ≠ 0) : Fit L R (atRoot s) :=
  ⟨hgood, wellFormed_of_one (Nat.le_of_eq hfiles) hsubs hparent, fun _ hdir =>
    Mount.inTree_root (h := s.heap) hsubs hdir ▸ hnamed⟩

end Shell
end ShompOS
