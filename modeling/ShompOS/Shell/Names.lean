import ShompOS.Fs.Listing
import ShompOS.Shell.WellFormed

/-! What the commands for files take for a name.

`touch` and `cat` skip the spaces in front of it, `rm` does not: a file created with
spaces in front of its name is found, and is not removed. -/
namespace ShompOS
open Memory

namespace Ramfs
variable {s : Ramfs} {dir filename file : Nat}

/-- The file that `ramfs_cat` finds, or `NULL`. -/
def catFile (s : Ramfs) (dir filename : Nat) : Option Nat :=
  (s.heap.mem.skipSpaces addressSpace filename).bind fun filename =>
    (Heap.searchName s.heap.mem (s.heap.word dir RamfsDir.files) filename (s.heap.word dir RamfsDir.fileCount) 0).map
      fun found => found.elim 0 fun i => s.heap.word (s.heap.word dir RamfsDir.files) i

/-- Its data is what is printed. -/
theorem ramfsCat_eq (hdir : dir ≠ 0) (hname : filename ≠ 0) (hfile : file ≠ 0)
    (h : s.catFile dir filename = some file) :
    s.ramfsCat dir filename = s.report "" (s.heap.word file RamfsFile.data) := by
  unfold catFile at h
  unfold ramfsCat
  obtain ⟨name, hskip, h⟩ := Option.bind_eq_some_iff.mp h
  obtain ⟨found, hfound, h⟩ := Option.map_eq_some_iff.mp h
  rw [if_neg (not_or.mpr ⟨hdir, hname⟩), hskip, Option.bind_some, hfound, Option.bind_some]
  cases found with
  | none => exact absurd h.symm hfile
  | some i =>
    rw [← h]
    rfl

theorem report_of_strlen {name len : Nat} (text : String) (h : s.heap.mem.strlen name = some len) :
    ∃ r, s.report text name = some r ∧ r.heap = s.heap ∧
      r.terminal = s.terminal ++ ascii text ++
        ((List.range len).map fun i => s.heap.mem.byte (wrap (name + i))) ++ ascii "\n" := by
  unfold report terminalWritestring
  rw [show (s.print text).heap.mem.strlen name = some len from h]
  exact ⟨_, rfl, rfl, rfl⟩

end Ramfs

namespace Shell
variable {L : Layout} {R : Rodata} {initElf : Ramfs → Nat → Option Ramfs} {cmdBuffer : Nat}
  {s s' s₁ : Shell} {v : Volume}
  {k cmd args file : Nat} {d : DirNode} {f : FileNode} {a name line : List UInt8} {Q : Shell → Prop}

/-- The files of the current directory. -/
def fileList (s : Shell) : List Nat :=
  (List.range (s.heap.word s.currentDir RamfsDir.fileCount)).map (s.heap.fileAt s.currentDir)

/-- A line is carried out, and `Q` holds then. -/
def Leads (L : Layout) (R : Rodata) (initElf : Ramfs → Nat → Option Ramfs) (cmdBuffer : Nat) (s : Shell)
    (line : List UInt8)
    (Q : Shell → Prop) : Prop :=
  (∃ s', Enters L R initElf cmdBuffer s line s') ∧ ∀ s', Enters L R initElf cmdBuffer s line s' → Q s'

/-- The file that `touch` has created is the one that `cat` finds; it is empty. `rm`
leaves the list of files as it was before. -/
def FilesAgree (L : Layout) (R : Rodata) (initElf : Ramfs → Nat → Option Ramfs) (cmdBuffer : Nat)
    (s s₁ : Shell) (file : Nat)
    (a : List UInt8) : Prop :=
  Leads L R initElf cmdBuffer s₁ (ascii "cat" ++ 0x20 :: a) (fun s₂ =>
    s₂.ramfs.catFile s.currentDir (cmdBuffer + 4) = some file ∧ s₂.ramfs.terminal = s₁.ramfs.terminal ++ ascii "\n") ∧
  Leads L R initElf cmdBuffer s₁ (ascii "rm" ++ 0x20 :: a) fun s₃ => s₃.fileList = s.fileList

/-! ### Lines -/

theorem CmdBuffer_room (hbuf : CmdBuffer L R cmdBuffer) : cmdBuffer + cmdMaxLen < addressSpace := by
  have hlast := (hbuf.2 (cmdMaxLen - 1) (by decide)).1.1
  have hlow : heapLowerBound + cmdMaxLen < addressSpace := by decide
  omega

/-- It is enough that the command is carried out wherever the line is cut. -/
theorem leads_of (hg : s.mount.Good L R v) (hbuf : CmdBuffer L R cmdBuffer) (hname : 0x20 ∉ name)
    (h0 : 0 ∉ name ++ 0x20 :: a) (hlen : (name ++ 0x20 :: a).length ≤ cmdMaxLen - 1)
    (hperform : ∀ m, (s.withMem m).mount.Good L R v → IsStr m cmdBuffer name →
      (s.withMem m).mount.Passes L (cmdBuffer + name.length + 1) a →
      ∃ s', (s.withMem m).perform L R initElf cmdBuffer (cmdBuffer + name.length + 1) = some s' ∧ Q s') :
    Leads L R initElf cmdBuffer s (name ++ 0x20 :: a) Q := by
  constructor
  · have hm : ∀ x, ¬ (cmdBuffer ≤ x ∧ x < cmdBuffer + cmdMaxLen) →
        (withLine s.mem cmdBuffer (name ++ 0x20 :: a)).byte x = s.mem.byte x := fun x hx => if_neg hx
    have hstr := withLine_isStr (m := s.mem) h0 hlen (CmdBuffer_room hbuf)
    obtain ⟨m', hg', hcmd, hargs, hcut⟩ := handleCommand_cut initElf hg hbuf hname hm hstr hlen
    obtain ⟨s', hs', -⟩ := hperform m' hg' hcmd hargs
    exact ⟨s', _, hm, hstr, hlen, hcut.trans hs'⟩
  · intro s' h
    obtain ⟨m, hg', hcmd, hargs, h⟩ := h.cut hg hbuf hname
    obtain ⟨s₁, hs₁, hQ⟩ := hperform m hg' hcmd hargs
    obtain rfl := Option.some.inj (h.symm.trans hs₁)
    exact hQ

/-- What a command with a file's name does, whichever it is. -/
theorem perform_eq {command : Option Shell} (hcmd : IsStr s.mem cmd name) (hargs : args ≠ 0)
    (hname : (name, command) ∈ [(ascii "touch", s.after (s.ramfs.ramfsTouch L R s.currentDir args)),
      (ascii "cat", s.after (s.ramfs.ramfsCat s.currentDir args)),
      (ascii "rm", s.after (s.ramfs.ramfsRm L s.currentDir args))]) :
    s.perform L R initElf cmd args = command := by
  have hstreq : ∀ text, 0 ∉ text → (s.mem.streq cmd text = true ↔ name = text) := fun text h0 => streq_iff hcmd h0
  unfold perform needs
  simp only [hstreq (ascii "clear") (by decide), hstreq (ascii "ls") (by decide), hstreq (ascii "pwd") (by decide),
    hstreq (ascii "cat") (by decide), hstreq (ascii "touch") (by decide), hstreq (ascii "mkdir") (by decide),
    hstreq (ascii "rm") (by decide), if_neg hargs]
  simp only [List.mem_cons, List.not_mem_nil, or_false, Prod.mk.injEq] at hname
  rcases hname with ⟨rfl, rfl⟩ | ⟨rfl, rfl⟩ | ⟨rfl, rfl⟩
  all_goals rfl

/-! ### Files -/

theorem fileList_eq (hg : s.mount.Good L R v) (hd : d ∈ v.dirs) (hcur : d.addr = s.currentDir) :
    s.fileList = d.fileNodes.map FileNode.addr := by
  unfold fileList
  rw [← hcur, show s.heap.word d.addr RamfsDir.fileCount = d.fileNodes.length from hg.fileCount hd]
  apply List.ext_getElem
  · rw [List.length_map, List.length_map, List.length_range]
  · intro i hi hi'
    rw [List.length_map] at hi'
    rw [List.getElem_map, List.getElem_map, List.getElem_range]
    exact hg.fileAt hd (List.getElem?_eq_getElem hi')

/-- What can be said of a file that `touch` has created. -/
theorem Enters.touched (hg : s.mount.Good L R v) (hbuf : CmdBuffer L R cmdBuffer) (hk : v.dirs[k]? = some d)
    (hcur : d.addr = s.currentDir) (h : Enters L R initElf cmdBuffer s (ascii "touch" ++ 0x20 :: a) s₁)
    (hnew : s₁.fileList = s.fileList ++ [file]) :
    ∃ v₁ d₁ f, s₁.mount.Good L R v₁ ∧ v₁.dirs[k]? = some d₁ ∧ d₁.addr = s₁.currentDir ∧ s₁.currentDir = s.currentDir ∧
      d₁.fileNodes = d.fileNodes ++ [f] ∧ f.addr = file ∧ f.text = Mount.trimmed a ∧ f.contents = [0] ∧
      d.fileIdx (Mount.trimmed a) = none := by
  have hd := List.mem_of_getElem? hk
  obtain ⟨m, hg', hcmd, hargs, h⟩ := h.cut hg hbuf (by decide)
  rw [perform_eq hcmd (Nat.succ_ne_zero _) (.head _)] at h
  obtain ⟨r, hr, rfl⟩ := Option.map_eq_some_iff.mp h
  rw [show (s.withMem m).currentDir = d.addr from hcur.symm] at hr
  have hlong : ∀ {d' : DirNode} {w : Volume}, ((s.withMem m).withRamfs r).mount.Good L R w → d' ∈ w.dirs →
    d'.addr = d.addr →
      d'.fileNodes.map FileNode.addr = d.fileNodes.map FileNode.addr ++ [file] := by
    intro d' w hw hd' haddr
    rw [← fileList_eq hg hd hcur, ← hnew]
    exact (fileList_eq hw hd' (haddr.trans hcur)).symm
  cases hg'.touch hk hargs hr with
  | inl hgood =>
    have hlen := congrArg List.length (hlong hgood hd rfl)
    rw [List.length_append] at hlen
    exact absurd hlen (Nat.ne_of_lt (Nat.lt_succ_self _))
  | inr hgood =>
    obtain ⟨hidx, hgood⟩ := hgood
    have hk' : (v.withDir k (d.createFile v.pool (Mount.trimmed a) [0]).1
        (d.createFile v.pool (Mount.trimmed a) [0]).2.1).dirs[k]? =
          some (d.createFile v.pool (Mount.trimmed a) [0]).2.1 :=
      List.getElem?_set_self (List.getElem?_eq_some_iff.mp hk).1
    have haddr := DirNode.createFile_addr v.pool d (Mount.trimmed a) [0]
    have hmap := hlong hgood (List.mem_of_getElem? hk') haddr
    cases DirNode.createFile_cases v.pool d (Mount.trimmed a) [0] with
    | inl hsame =>
      rw [hsame.1] at hmap
      have hlen := congrArg List.length hmap
      rw [List.length_append] at hlen
      exact absurd hlen (Nat.ne_of_lt (Nat.lt_succ_self _))
    | inr hcreated =>
      obtain ⟨f, files, -, htext, hcontents, -, he⟩ := hcreated
      refine ⟨_, _, f, hgood, hk', haddr.trans hcur, rfl, ?_, ?_, htext, hcontents, hidx⟩
      · rw [he]
      · rw [he, List.map_append, List.map_singleton] at hmap
        exact List.singleton_inj.mp (List.append_cancel_left hmap)

theorem fileIdx_concat {files : List FileNode} {text : List UInt8} (hfiles : d.fileNodes = files ++ [f])
    (hf : f.text = text)
    (hnone : ∀ x ∈ files, x.text ≠ text) : d.fileIdx text = some files.length := by
  unfold DirNode.fileIdx
  rw [hfiles, List.findIdx?_append, List.findIdx?_eq_none_iff.mpr fun x hx => decide_eq_false (hnone x hx),
    Option.none_or,
    List.findIdx?_singleton, if_pos (decide_eq_true hf), Option.map_some, Nat.zero_add]

/-- `cat` finds a file that is the last one, and prints it if it is empty. -/
theorem cat_last {files : List FileNode} (hg : s.mount.Good L R v) (hd : d ∈ v.dirs) (hcur : d.addr = s.currentDir)
    (hargs : s.mount.Passes L args a) (hargs0 : args ≠ 0) (hfiles : d.fileNodes = files ++ [f])
    (hf : f.text = Mount.trimmed a)
    (hempty : f.contents = [0]) (hnone : ∀ x ∈ files, x.text ≠ Mount.trimmed a) :
    s.ramfs.catFile s.currentDir args = some f.addr ∧
      ∃ r, s.ramfs.ramfsCat s.currentDir args = some r ∧ r.heap = s.heap ∧ r.terminal = s.ramfs.terminal ++
        ascii "\n" := by
  have hroom := hargs.1.room
  obtain ⟨j, hj, hskip, hdrop⟩ := skipSpaces_eq hargs.1 (show a.length < addressSpace by omega)
  have hcells := DirNode.mem_cells hd
  have hsearch := hg.owns.searchFile (fun c hc => List.mem_append_left _ (hcells hc)) (hg.valid d hd) (hargs.drop hj).1
  rw [show a.drop j = Mount.trimmed a from hdrop, fileIdx_concat hfiles hf hnone] at hsearch
  have hget : d.fileNodes[files.length]? = some f := by
    rw [hfiles]
    exact List.getElem?_concat_length
  have hin := List.mem_of_getElem? hget
  have hat := hg.fileAt hd hget
  have hfound : s.ramfs.catFile s.currentDir args = some f.addr := by
    unfold Ramfs.catFile
    rw [hskip, Option.bind_some, ← hcur, hsearch]
    exact congrArg some hat
  have hdir0 : s.currentDir ≠ 0 := hcur ▸ hg.addr_ne_zero hd
  have hfile0 : f.addr ≠ 0 := hg.owns.ne_zero
    (List.mem_append_left _ (hcells (FileNode.mem_cells hin (List.mem_cons_self ..))))
  refine ⟨hfound, ?_⟩
  rw [Ramfs.ramfsCat_eq hdir0 hargs0 hfile0 hfound, show s.heap.word f.addr RamfsFile.data =
    f.data from (hg.file hd hin).data]
  have hdata : s.mem.byte f.data = 0 := by
    refine hg.owns.byte_eq (List.mem_append_left _
      (hcells (FileNode.mem_cells hin (List.mem_of_getElem? (i := 2) rfl)))) (i := 0) ?_
    rw [hempty]
    rfl
  obtain ⟨r, hr, hheap, hterm⟩ := Ramfs.report_of_strlen (s := s.ramfs) "" (show s.mem.strlen f.data =
    some 0 from if_pos hdata)
  refine ⟨r, hr, hheap, hterm.trans ?_⟩
  rw [List.range_zero, List.map_nil, List.append_nil, show ascii "" = [] from rfl, List.append_nil]

/-- `rm` is carried out, whatever there is. -/
theorem rm_returns (hg : s.mount.Good L R v) (hk : v.dirs[k]? = some d) (hcur : d.addr = s.currentDir)
    (hargs : s.mount.Passes L args a) (hargs0 : args ≠ 0) :
    ∃ r, s.ramfs.ramfsRm L s.currentDir args = some r ∧
      (s.withRamfs r).fileList = (d.deleteFile v.pool a).2.fileNodes.map FileNode.addr := by
  have hd := List.mem_of_getElem? hk
  have hreturns : ∃ r, s.ramfs.ramfsRm L d.addr args = some r := by
    have hsearch := hg.owns.searchFile (fun c hc => List.mem_append_left _ (DirNode.mem_cells hd hc))
      (hg.valid d hd) hargs.1
    unfold Ramfs.ramfsRm
    rw [if_neg (not_or.mpr ⟨hg.addr_ne_zero hd, hargs0⟩), hsearch, Option.bind_some]
    cases d.fileIdx a with
    | none =>
      obtain ⟨r, hr, -⟩ := Ramfs.report_of_strlen (s := s.ramfs) "File not found: " (strlen_eq hargs.1)
      exact ⟨r, hr⟩
    | some i =>
      obtain ⟨h', hdelete, -, -, hcalm⟩ := hg.deleteFile hk hargs.1 hargs0
      have hname : IsStr h'.mem args a := hargs.1.congr fun x hlo hhi => by
        obtain ⟨i, rfl⟩ := Nat.exists_eq_add_of_le hlo
        exact hcalm.memory _ (hargs.2 i (by omega))
      obtain ⟨r, hr, -⟩ := Ramfs.report_of_strlen (s := {s.ramfs with heap := h'}) "Removed file: " (strlen_eq hname)
      dsimp only
      rw [hdelete, Option.bind_some]
      exact ⟨r, hr⟩
  obtain ⟨r, hr⟩ := hreturns
  have hcall : s.mount.call L R (.rm d.addr args) = some (s.mount.withRamfs r, 0) := by
    dsimp only [Mount.call]
    rw [show s.mount.ramfs.ramfsRm L d.addr args = some r from hr]
    rfl
  obtain ⟨-, hgood, -⟩ := hg.rm hk hargs.1 hargs0 hcall
  have hk' : (v.withDir k (d.deleteFile v.pool a).1 (d.deleteFile v.pool a).2).dirs[k]? =
    some (d.deleteFile v.pool a).2 :=
    List.getElem?_set_self (List.getElem?_eq_some_iff.mp hk).1
  rw [hcur] at hr
  exact ⟨r, hr, fileList_eq (s := s.withRamfs r) hgood (List.mem_of_getElem? hk')
    ((DirNode.deleteFile_addr _ _ _).trans hcur)⟩

theorem trimmed_of_head (h : a.head? ≠ some 0x20) : Mount.trimmed a = a := by
  cases a with
  | nil => rfl
  | cons c a => exact List.dropWhile_cons_of_neg (by simpa using h)

theorem trimmed_ne (h : a.head? = some 0x20) : Mount.trimmed a ≠ a := by
  cases a with
  | nil => cases h
  | cons c a =>
    obtain rfl := Option.some.inj h
    intro he
    have hlen : (Mount.trimmed a).length = a.length + 1 := congrArg List.length he
    have hle : (Mount.trimmed a).length ≤ a.length := (List.dropWhile_sublist _).length_le
    omega

/-- A file is removed again, or another one or none. -/
theorem deleteFile_last {P : Pool} {files : List FileNode} (hfiles : d.fileNodes = files ++ [f])
    (hf : f.text = Mount.trimmed a)
    (hnone : ∀ x ∈ files, x.text ≠ Mount.trimmed a) (hfresh : f.addr ∉ files.map FileNode.addr) :
    (d.deleteFile P a).2.fileNodes.map FileNode.addr = files.map FileNode.addr ↔ a.head? ≠ some 0x20 := by
  constructor
  · intro h hhead
    apply hfresh
    rw [← h]
    apply List.mem_map_of_mem
    have hin : f ∈ d.fileNodes := hfiles ▸ List.mem_append_right _ (List.mem_singleton_self f)
    cases DirNode.deleteFile_cases P d a with
    | inl h =>
      rw [h.2]
      exact hin
    | inr h =>
      obtain ⟨i, g, hidx, hget, he⟩ := h
      rw [he]
      obtain ⟨hi, hg, -⟩ := List.findIdx?_eq_some_iff_getElem.mp hidx
      rw [List.getElem?_eq_getElem hi] at hget
      have hne : f ≠ d.fileNodes[i] := fun he => trimmed_ne hhead (by rw [← hf, he]; exact of_decide_eq_true hg)
      obtain ⟨j, hj, hfj⟩ := List.getElem_of_mem hin
      refine List.mem_eraseIdx_iff_getElem.mpr ⟨j, hj, fun hij => hne ?_, hfj⟩
      rw [← hfj]
      exact getElem_congr_idx hij
  · intro hhead
    have htrim := trimmed_of_head hhead
    rw [htrim] at hf hnone
    have hidx := fileIdx_concat hfiles hf hnone
    cases DirNode.deleteFile_cases P d a with
    | inl h => exact absurd (h.1.symm.trans hidx) (by simp)
    | inr h =>
      obtain ⟨i, g, hidx', -, he⟩ := h
      obtain rfl := Option.some.inj (hidx.symm.trans hidx')
      rw [he]
      unfold DirNode.deleteAt
      dsimp only
      rw [hfiles, List.eraseIdx_append_of_length_le (Nat.le_refl _), Nat.sub_self]
      exact congrArg _ (List.append_nil files)

theorem filesAgree_iff (hg : s.mount.Good L R v) (hbuf : CmdBuffer L R cmdBuffer)
    (hdir : s.heap.InTree s.systemRoot s.currentDir)
    (htouch : Enters L R initElf cmdBuffer s (ascii "touch" ++ 0x20 :: a) s₁)
    (hnew : s₁.fileList = s.fileList ++ [file]) :
    FilesAgree L R initElf cmdBuffer s s₁ file a ↔ a.head? ≠ some 0x20 := by
  obtain ⟨d, hd, hcur⟩ := (hg.owns.inTree_iff hg.tree).mp hdir
  obtain ⟨k, hk⟩ := List.getElem?_of_mem hd
  have hlist := fileList_eq hg hd hcur
  have htext : 0 ∉ a ∧ a.length + 6 ≤ cmdMaxLen - 1 := by
    obtain ⟨m, -, hstr, hlen, -⟩ := htouch
    rw [List.length_append, List.length_cons, show (ascii "touch").length = 5 from rfl] at hlen
    exact ⟨fun h0 => hstr.text (List.mem_append_right _ (List.mem_cons_of_mem _ h0)), by omega⟩
  obtain ⟨v₁, d₁, f, hg₁, hk₁, hcur₁, hsame, hfiles, rfl, hf, hempty, hidx⟩ := htouch.touched hg hbuf hk hcur hnew
  have hd₁ := List.mem_of_getElem? hk₁
  have hnone : ∀ x ∈ d.fileNodes, x.text ≠ Mount.trimmed a := fun x hx =>
    of_decide_eq_false (List.findIdx?_eq_none_iff.mp hidx x hx)
  have hfresh : f.addr ∉ d.fileNodes.map FileNode.addr := by
    have hnodup := hg₁.owns.files_nodup hd₁
    rw [hfiles, List.map_append, List.map_singleton] at hnodup
    exact fun hin => (List.nodup_append.mp hnodup).2.2 _ hin _ (List.mem_singleton_self _) rfl
  have hcat : Leads L R initElf cmdBuffer s₁ (ascii "cat" ++ 0x20 :: a) (fun s₂ =>
      s₂.ramfs.catFile s.currentDir (cmdBuffer + 4) = some f.addr ∧ s₂.ramfs.terminal = s₁.ramfs.terminal ++
        ascii "\n") := by
    refine leads_of hg₁ hbuf (by decide) ?_ ?_ fun m hgm hcmd hargs => ?_
    · exact fun h0 => (List.mem_append.mp h0).elim (by decide) fun h0 => (List.mem_cons.mp h0).elim (by decide) htext.1
    · rw [List.length_append, List.length_cons, show (ascii "cat").length = 3 from rfl]
      omega
    · obtain ⟨hfound, r, hr, hheap, hterm⟩ := cat_last hgm hd₁ hcur₁ hargs (Nat.succ_ne_zero _) hfiles hf hempty hnone
      rw [perform_eq hcmd (Nat.succ_ne_zero _) (.tail _ (.head _)), hr]
      refine ⟨_, rfl, ?_, hterm⟩
      rw [← hsame, ← hfound]
      unfold Ramfs.catFile
      rw [show ((s₁.withMem m).withRamfs r).ramfs.heap = (s₁.withMem m).ramfs.heap from hheap]
      rfl
  have hrm : Leads L R initElf cmdBuffer s₁ (ascii "rm" ++ 0x20 :: a) fun s₃ =>
      s₃.fileList = (d₁.deleteFile v₁.pool a).2.fileNodes.map FileNode.addr := by
    refine leads_of hg₁ hbuf (by decide) ?_ ?_ fun m hgm hcmd hargs => ?_
    · exact fun h0 => (List.mem_append.mp h0).elim (by decide) fun h0 => (List.mem_cons.mp h0).elim (by decide) htext.1
    · rw [List.length_append, List.length_cons, show (ascii "rm").length = 2 from rfl]
      omega
    · obtain ⟨r, hr, hrest⟩ := rm_returns hgm hk₁ hcur₁ hargs (Nat.succ_ne_zero _)
      rw [perform_eq hcmd (Nat.succ_ne_zero _) (.tail _ (.tail _ (.head _))), hr]
      exact ⟨_, rfl, hrest⟩
  rw [← deleteFile_last (P := v₁.pool) hfiles hf hnone hfresh, ← hlist]
  constructor
  · intro h
    obtain ⟨s₃, hs₃⟩ := hrm.1
    exact (hrm.2 s₃ hs₃).symm.trans (h.2.2 s₃ hs₃)
  · intro h
    exact ⟨hcat, hrm.1, fun s₃ hs₃ => (hrm.2 s₃ hs₃).trans h⟩

/-- A shell that starts no programs, on a booted machine. -/
def booted (lines : List (List UInt8)) (s : Mount) : Option Shell :=
  (atRoot s).enterAll .kernelImage Mount.bootRodata (fun _ _ => none) bootBuffer lines

theorem filesAgree_iff_plain : ∃ s s₁ file, Mount.booted = some s ∧
    Enters .kernelImage Mount.bootRodata (fun _ _ => none) bootBuffer (atRoot s)
      (ascii "touch" ++ 0x20 :: ascii "a b") s₁ ∧
    s₁.fileList = (atRoot s).fileList ++ [file] ∧
    FilesAgree .kernelImage Mount.bootRodata (fun _ _ => none) bootBuffer (atRoot s) s₁ file (ascii "a b") := by
  have hrun : Mount.booted.any fun s => (booted [ascii "touch a b"] s).any fun s₁ =>
      s₁.fileList = (atRoot s).fileList ++ [s₁.fileList.headD 0] := by decide +kernel
  obtain ⟨s, hboot, hrun⟩ := (Option.any_eq_true _ _).mp hrun
  obtain ⟨s₁, hs₁, hrun⟩ := (Option.any_eq_true _ _).mp hrun
  have hnew := of_decide_eq_true hrun
  obtain ⟨s₂, htouch, he⟩ := enterAll_cons (by decide) hs₁
  cases he
  obtain ⟨P, name, hg⟩ := Mount.good_of_fresh (Mount.fresh_of_booted hboot)
  exact ⟨s, s₁, _, hboot, htouch, hnew,
    (filesAgree_iff (s := atRoot s) hg cmdBuffer_boot .root htouch hnew).mpr (by decide)⟩

/-- With a second space in front of the name `rm` does not find the file. -/
theorem spaced_file_stays : ¬ ∀ s s₁ file a, Mount.booted = some s →
    Enters .kernelImage Mount.bootRodata (fun _ _ => none) bootBuffer (atRoot s) (ascii "touch" ++ 0x20 :: a) s₁ →
    s₁.fileList = (atRoot s).fileList ++ [file] →
    FilesAgree .kernelImage Mount.bootRodata (fun _ _ => none) bootBuffer (atRoot s) s₁ file a := by
  have hrun : Mount.booted.any fun s => (booted [ascii "touch  x"] s).any fun s₁ =>
      s₁.fileList = (atRoot s).fileList ++ [s₁.fileList.headD 0] ∧
      (s₁.enterAll .kernelImage Mount.bootRodata (fun _ _ => none) bootBuffer [ascii "rm  x"]).any fun s₂ =>
        s₂.fileList ≠ (atRoot s).fileList := by decide +kernel
  obtain ⟨s, hboot, hrun⟩ := (Option.any_eq_true _ _).mp hrun
  obtain ⟨s₁, hs₁, hrun⟩ := (Option.any_eq_true _ _).mp hrun
  obtain ⟨hnew, hrun⟩ := of_decide_eq_true hrun
  obtain ⟨s₂, hs₂, hrun⟩ := (Option.any_eq_true _ _).mp hrun
  have hleft := of_decide_eq_true hrun
  obtain ⟨s₃, htouch, he⟩ := enterAll_cons (by decide) hs₁
  cases he
  obtain ⟨s₄, hrm, he⟩ := enterAll_cons (by decide) hs₂
  cases he
  intro h
  exact hleft ((h s s₁ _ (ascii " x") hboot htouch hnew).2.2 s₂ hrm)

end Shell
end ShompOS
