import ShompOS.Fs.Mounted

/-! What each call does to a mount and its volume.

One lemma a call: it returns, what it returns, and the volume afterwards. -/
namespace ShompOS
open Memory

namespace Mount
variable {L : Layout} {R : Rodata} {s s' : Mount} {v v' : Volume} {c : FsCall} {k j : Nat} {d : DirNode} {f : FileNode}
  {e : OpenFd} {i : Fin maxFds}

/-! ### Directories -/

/-- A directory changed by itself. -/
theorem Good.nextDir (hg : s.Good L R v) (hk : v.dirs[k]? = some d) {P : Pool} {d' : DirNode} {h : Heap}
    (ho : Owns L s.mem.byte P h (d'.cells ++ (v.restOfDir k ++ heldCells s.held s.mem))) (haddr : d'.addr = d.addr)
    (hsubs : d'.subdirNodes = d.subdirNodes) (hvalid : d'.Valid) :
    (s.withHeap h).Good L R (v.withDir k P d') ∧ Calm L s (s.withHeap h) := by
  refine hg.next (w := v.withDir k P d') (r := {s.ramfs with heap := h}) (ho.perm ?_) hg.table (fun e he => ?_) ?_
  · rw [← List.append_assoc]
    exact (Volume.withDir_perm hk P d').symm.append_right _
  · cases Volume.withDir_mem he with
    | inl he =>
      rw [he]
      exact hvalid
    | inr he => exact hg.valid e he
  · rw [Volume.withDir_shape hk haddr hsubs]
    exact hg.tree

/-- The cells of one directory and the rest. -/
theorem Good.ownsDir (hg : s.Good L R v) (hk : v.dirs[k]? = some d) :
    Owns L s.mem.byte v.pool s.heap (d.cells ++ (v.restOfDir k ++ heldCells s.held s.mem)) := by
  refine hg.owns.perm ?_
  rw [← List.append_assoc]
  exact (Volume.dir_perm hk).append_right _

theorem heldCells_subset (cs : List Cell) (held : List (Nat × Nat)) (m : Memory) :
    heldCells held m ⊆ cs ++ heldCells held m :=
  List.subset_append_right _ _

theorem Good.createFile (hg : s.Good L R v) (hk : v.dirs[k]? = some d) {name data : Nat} {text contents : List UInt8}
    (hname : s.Passes L name text) (hname0 : name ≠ 0)
    (hdata : LentBytes L (heldCells s.held s.mem) s.mem data contents) (hdata0 : data ≠ 0) :
    ∃ s', s.call L R (.createFile d.addr name data contents.length) =
      some (s', (((d.createFile v.pool text contents).2.2 : Nat) : Int)) ∧
      s'.Good L R (v.withDir k (d.createFile v.pool text contents).1 (d.createFile v.pool text contents).2.1) ∧
      Calm L s s' := by
  have hsub := heldCells_subset (v.restOfDir k) s.held s.mem
  obtain ⟨h', hcall, ho⟩ := (hg.ownsDir hk).ramfsCreateFile (hg.valid d (List.mem_of_getElem? hk))
    (hname.lent.mono hsub) (hdata.mono hsub) hname0 hdata0
  dsimp only [call]
  rw [hcall]
  refine ⟨_, rfl, hg.nextDir hk ho ?_ ?_ ((hg.valid d (List.mem_of_getElem? hk)).createFile _ hname.1.text _)⟩
  all_goals
    cases DirNode.createFile_cases v.pool d text contents with
    | inl h => rw [h.1]
    | inr h =>
      obtain ⟨f, files, -, -, -, -, he⟩ := h
      rw [he]

theorem Good.deleteFile (hg : s.Good L R v) (hk : v.dirs[k]? = some d) {name : Nat} {text : List UInt8}
    (hname : IsStr s.mem name text) (hname0 : name ≠ 0) :
    ∃ h', s.heap.ramfsDeleteFile L d.addr name = some h' ∧
      s.call L R (.deleteFile d.addr name) = some (s.withHeap h', 0) ∧
      (s.withHeap h').Good L R (v.withDir k (d.deleteFile v.pool text).1 (d.deleteFile v.pool text).2) ∧
      Calm L s (s.withHeap h') := by
  obtain ⟨h', hcall, ho⟩ := (hg.ownsDir hk).ramfsDeleteFile (hg.valid d (List.mem_of_getElem? hk)) hname hname0
  dsimp only [call]
  rw [hcall]
  refine ⟨h', rfl, rfl, hg.nextDir hk ho ?_ ?_ ((hg.valid d (List.mem_of_getElem? hk)).deleteFile _ _)⟩
  all_goals
    cases DirNode.deleteFile_cases v.pool d text with
    | inl h => rw [h.2]
    | inr h =>
      obtain ⟨i, f, -, -, he⟩ := h
      rw [he]
      rfl

theorem Good.createDir (hg : s.Good L R v) (hk : v.dirs[k]? = some d) {name : Nat} {text : List UInt8}
    (hname : s.Passes L name text) (hname0 : name ≠ 0) :
    ∃ s', s.call L R (.createDir d.addr name) = some (s', ((newDirPtr (d.createDir v.pool text).2.2.1 : Nat) : Int)) ∧
      s'.Good L R (v.createDir k d text) ∧ Calm L s s' := by
  have hd := hg.valid d (List.mem_of_getElem? hk)
  obtain ⟨h', hcall, ho⟩ := (hg.ownsDir hk).ramfsCreateDir hd
    (hname.lent.mono (heldCells_subset (v.restOfDir k) s.held s.mem)) hname0
  dsimp only [call]
  rw [hcall]
  obtain ⟨hvalid, hnew⟩ := hd.createDir v.pool hname.1.text
  refine ⟨_, rfl, hg.next (w := v.createDir k d text) (r := {s.ramfs with heap := h'}) (ho.perm ?_) hg.table
    (fun e he => ?_) ?_⟩
  · rw [← List.append_assoc]
    exact (Volume.createDir_perm hk text).symm.append_right _
  · cases List.mem_append.mp he with
    | inl he =>
      cases List.mem_or_eq_of_mem_set he with
      | inl he => exact hg.valid e he
      | inr he =>
        rw [he]
        exact hvalid
    | inr he => exact hnew e (Option.mem_toList.mp he)
  · cases Volume.createDir_shape hk text with
    | inl h =>
      rw [h]
      exact hg.tree
    | inr h =>
      obtain ⟨new, hnew, h⟩ := h
      have hnodup := Owns.dirs_nodup (ho.perm (by
        rw [← List.append_assoc]
        exact (Volume.createDir_perm hk text).symm.append_right _))
      have haddrs : (v.createDir k d text).dirs.map DirNode.addr = (v.createDir k d text).shape.map Prod.fst := by
        unfold Volume.shape
        rw [List.map_map]
        rfl
      rw [haddrs, h, List.map_append, List.map_set, List.nodup_append] at hnodup
      rw [h]
      refine hg.tree.add hnew fun hin => ?_
      obtain ⟨j, hj⟩ := List.getElem?_of_mem hin
      have hset : ((v.shape.map Prod.fst).set k d.addr)[j]? = some new := by
        by_cases hkj : k = j
        · rw [← hkj, List.getElem?_map, hnew] at hj
          rw [← hkj, List.getElem?_set_self (by simpa using (List.getElem?_eq_some_iff.mp hnew).1)]
          exact hj
        · rw [List.getElem?_set_ne hkj]
          exact hj
      exact hnodup.2.2 new (List.mem_of_getElem? hset) new (List.mem_singleton_self _) rfl

theorem Good.rm (hg : s.Good L R v) (hk : v.dirs[k]? = some d) {filename : Nat} {text : List UInt8}
    (hname : IsStr s.mem filename text) (hname0 : filename ≠ 0) {r : Int}
    (hcall : s.call L R (.rm d.addr filename) = some (s', r)) :
    r = 0 ∧ s'.Good L R (v.withDir k (d.deleteFile v.pool text).1 (d.deleteFile v.pool text).2) ∧ Calm L s s' := by
  have hdir0 : d.addr ≠ 0 :=
    hg.owns.ne_zero (List.mem_append_left _ (DirNode.mem_cells (List.mem_of_getElem? hk) (List.mem_cons_self ..)))
  have hsearch := hg.owns.searchFile (fun c hc => List.mem_append_left _
    (DirNode.mem_cells (List.mem_of_getElem? hk) hc))
    (hg.valid d (List.mem_of_getElem? hk)) hname
  obtain ⟨h', hdelete, -, hgood, hcalm⟩ := hg.deleteFile hk hname hname0
  have hprint : ∀ {r r' : Ramfs} {a : Nat}, r.terminalWritestring a = some r' → r'.heap = r.heap ∧
    r'.fdTable = r.fdTable := by
    intro r r' a h
    obtain ⟨len, -, rfl⟩ := Option.map_eq_some_iff.mp h
    exact ⟨rfl, rfl⟩
  obtain ⟨r', hrm, he⟩ := Option.map_eq_some_iff.mp hcall
  obtain ⟨rfl, rfl⟩ := Prod.mk.inj he
  unfold Ramfs.ramfsRm at hrm
  rw [if_neg (by omega), hsearch, Option.bind_some] at hrm
  refine ⟨rfl, ?_⟩
  cases hidx : d.fileIdx text with
  | none =>
    rw [hidx] at hrm
    obtain ⟨r'', hr'', rfl⟩ := Option.map_eq_some_iff.mp hrm
    obtain ⟨hheap, htable⟩ := hprint hr''
    cases DirNode.deleteFile_cases v.pool d text with
    | inl h =>
      rw [h.2, Volume.withDir_self hk]
      exact hg.congr hheap htable
    | inr h =>
      obtain ⟨i, f, hi, -⟩ := h
      rw [hidx] at hi
      cases hi
  | some i =>
    rw [hidx] at hrm
    dsimp only at hrm
    rw [hdelete, Option.bind_some] at hrm
    obtain ⟨r'', hr'', rfl⟩ := Option.map_eq_some_iff.mp hrm
    obtain ⟨hheap, htable⟩ := hprint hr''
    obtain ⟨h1, h2⟩ := hgood.congr (r := r''.print "\n") hheap htable
    exact ⟨h1, hcalm.trans h2⟩

/-! ### Paths -/

theorem Good.findDir (hg : s.Good L R v) (hd : d ∈ v.dirs) {path : Nat} {text : List UInt8}
    (hpath : s.Passes L path text)
    (hpath0 : path ≠ 0) :
    ∃ s' dir, s.call L R (.findDir d.addr path) = some (s', ((dir : Nat) : Int)) ∧
      s'.Good L R {v with pool := Volume.findDirPool v.pool text} ∧ Calm L s s' ∧
      (dir = 0 ∨ ∃ e ∈ v.dirs, e.addr = dir ∧ v.Descends (tokens 0x2F text).length d e) ∧
      (v.Named → dir = v.findDir v.pool d.addr text) := by
  obtain ⟨h', last, dir, hcall, ho, hmem, hnamed⟩ :=
    hg.owns.ramfsFindDir hg.valid hg.tree.volume_closed hg.rodata.slash.ne_zero
    (hg.rodata.slash.lent _) hd hpath0 hpath.lent s.ramfs.last
  dsimp only [call]
  rw [hcall]
  obtain ⟨h1, h2⟩ := hg.next (w := {v with pool := Volume.findDirPool v.pool text})
    (r := {s.ramfs with heap := h', last := last}) ho hg.table hg.valid hg.tree
  exact ⟨_, dir, rfl, h1, h2, hmem, hnamed⟩

theorem Good.openFile (hg : s.Good L R v) (hd : d ∈ v.dirs) {path flags : Nat} {text : List UInt8}
    (hpath : s.Passes L path text) (hpath0 : path ≠ 0) (hflags : flags < addressSpace) :
    ∃ s' found, s.call L R (.openFile d.addr path flags) = some (s', (v.openPath d text flags found).2) ∧
      s'.Good L R (v.openPath d text flags found).1 ∧ Calm L s s' ∧ (found = 0 ∨ ∃ e ∈ v.dirs, e.addr = found) ∧
      (v.Named → found = v.findDir (v.pool.allocate (text.length + 1)).1 d.addr (Volume.dirname text)) := by
  obtain ⟨r, found, hcall, ho, ht, hmem, hnamed⟩ :=
    Owns.ramfsOpen hg.owns hg.table hg.valid hg.tree.volume_closed hg.rodata hd
    hpath0 hpath.lent hflags
  dsimp only [call]
  rw [hcall]
  obtain ⟨hdirs, -⟩ := Volume.openPath_dirs v d text flags found
  obtain ⟨h1, h2⟩ := hg.next (w := (v.openPath d text flags found).1) (r := r) ho ht (hdirs ▸ hg.valid) (by
    unfold Volume.shape
    rw [hdirs]
    exact hg.tree)
  exact ⟨_, found, rfl, h1, h2, hmem, hnamed⟩

/-! ### Descriptors -/

theorem Good.entry (hg : s.Good L R v) {fd : Int} {entry : Nat} (h : s.ramfs.fdEntry fd = some entry) :
    ∃ (i : Fin maxFds) (e : OpenFd), (i : Int) = fd ∧ v.fds i = some e ∧ e.addr = entry ∧ s.fileOf entry = e.file := by
  unfold Ramfs.fdEntry at h
  split at h
  · next hfd =>
    dsimp only at h
    split at h
    · cases h
    · next hne =>
      rw [hg.table] at h hne
      cases hi : v.fds ⟨fd.toNat, by omega⟩ with
      | none =>
        rw [hi] at hne
        exact absurd rfl hne
      | some e =>
        rw [hi] at h
        cases h
        refine ⟨_, e, ?_, hi, rfl, ?_⟩
        · dsimp only
          omega
        · exact hg.owns.word_eq (List.mem_append_left _ (OpenFd.mem_cells hi (List.mem_singleton_self _))) rfl
  · cases h

/-- A descriptor and its file, if that is linked. -/
theorem Good.opens (hg : s.Good L R v) {fd : Int} {entry : Nat} (h : s.ramfs.fdEntry fd = some entry)
    (hlinked : s.heap.Linked s.root (s.fileOf entry)) :
    ∃ k j i d f e, v.Opens fd k j i d f e ∧ e.addr = entry := by
  obtain ⟨i, e, hi, he, haddr, hfile⟩ := hg.entry h
  rw [hfile] at hlinked
  obtain ⟨d, hd, f, hf, hsame⟩ := (hg.owns.linked_iff hg.tree).mp hlinked
  obtain ⟨k, hk⟩ := List.getElem?_of_mem hd
  obtain ⟨j, hj⟩ := List.getElem?_of_mem hf
  exact ⟨k, j, i, d, f, e, ⟨hi, he, hk, hj, hsame.symm⟩, haddr⟩

/-- The other way round: what a descriptor of the volume is in the table. -/
theorem Good.fdEntry_of (hg : s.Good L R v) {fd : Int} (hfd : (i : Int) = fd) (hi : v.fds i = some e) :
    s.ramfs.fdEntry fd = some e.addr := by
  have hne := hg.owns.ne_zero (List.mem_append_left _ (OpenFd.mem_cells hi (List.mem_singleton_self _)))
  have hlt := i.isLt
  have hidx : (⟨fd.toNat, by omega⟩ : Fin maxFds) = i := Fin.ext (by dsimp only; omega)
  have htable := hg.table i
  rw [hi] at htable
  unfold Ramfs.fdEntry
  rw [dif_pos (by omega)]
  dsimp only
  rw [hidx, htable]
  exact if_neg hne

theorem Good.fdEntry_eq (hg : s.Good L R v) {fd : Int} (ho : v.Opens fd k j i d f e) :
    s.ramfs.fdEntry fd = some e.addr :=
  hg.fdEntry_of ho.fd ho.entry

theorem Good.ownsOpen (hg : s.Good L R v) {fd : Int} (ho : v.Opens fd k j i d f e) :
    Owns L s.mem.byte v.pool s.heap (f.cells ++ (e.cells i ++ (v.restOfOpen k j i ++ heldCells s.held s.mem))) := by
  refine hg.owns.perm ?_
  rw [← List.append_assoc (e.cells i), ← List.append_assoc f.cells]
  exact (Volume.open_perm ho.dir ho.file ho.entry).append_right _

/-- The table, the names and the tree do not depend on what is in a file, or on where
a descriptor is. -/
theorem Good.restOpen (hg : s.Good L R v) {fd : Int} (ho : v.Opens fd k j i d f e) {P : Pool}
    {g : FileNode} {x : OpenFd}
    (htext : g.text = f.text) (he : x.addr = e.addr) :
    (v.withOpen k j i P g x).Table s.ramfs.fdTable ∧ (∀ d ∈ (v.withOpen k j i P g x).dirs, d.Valid) ∧
      IsTree (v.withOpen k j i P g x).shape s.root := by
  have hd := hg.valid d (List.mem_of_getElem? ho.dir)
  refine ⟨fun k => ?_, fun d' hd' => ?_, ?_⟩
  · unfold Volume.withOpen
    dsimp only
    by_cases hk : k = i
    · rw [hk, Function.update_self, hg.table i, ho.entry]
      exact he.symm
    · rw [Function.update_of_ne hk]
      exact hg.table k
  · rw [Volume.withOpen_dirs ho.dir] at hd'
    cases List.mem_or_eq_of_mem_set hd' with
    | inl hd' => exact hg.valid d' hd'
    | inr he =>
      rw [he]
      refine ⟨fun hnil => hd.files ?_, hd.subdirs, hd.text, fun f' hf' => ?_⟩
      · have := congrArg List.length hnil
        unfold DirNode.setFile at this
        rw [List.length_set] at this
        exact List.length_eq_zero_iff.mp this
      · cases List.mem_or_eq_of_mem_set hf' with
        | inl hf' => exact hd.fileText f' hf'
        | inr he =>
          rw [he, htext]
          exact hd.fileText f (List.mem_of_getElem? ho.file)
  · have hshape := Volume.withDir_shape (P := P) ho.dir (x := d.setFile j g) rfl rfl
    unfold Volume.shape at *
    rw [Volume.withOpen_dirs ho.dir]
    unfold Volume.withDir at hshape
    dsimp only at hshape
    rw [hshape]
    exact hg.tree

theorem Good.write (hg : s.Good L R v) {fd : Int} (ho : v.Opens fd k j i d f e)
    (hterm : ¬ (fd = stdoutFileno ∨ fd = stderrFileno)) (hmode : e.flags &&& (oWronly ||| oRdwr) ≠ 0) {buf : Nat}
    {bytes : List UInt8} (hbuf : LentBytes L (heldCells s.held s.mem) s.mem buf bytes)
    (hroom : e.start f + bytes.length < addressSpace) :
    ∃ s' gap, gap.length = e.start f - f.contents.length ∧
      s.call L R (.write fd buf bytes.length) = some (s', (f.write v.pool e gap bytes).2.2.2) ∧
      s'.Good L R (v.withOpen k j i (f.write v.pool e gap bytes).1 (f.write v.pool e gap bytes).2.1
        (f.write v.pool e gap bytes).2.2.1) ∧ Calm L s s' := by
  obtain ⟨h', gap, hgap, hcall, howns⟩ := Owns.ramfsWrite (hg.ownsOpen ho) (hg.fdEntry_eq ho) hterm hmode ho.same
    (heldCells_subset (v.restOfOpen k j i) s.held s.mem) hbuf hroom
  obtain ⟨haddr, htext, hentry, -⟩ := f.write_same v.pool e gap bytes
  dsimp only [call]
  rw [hcall]
  obtain ⟨ht, hvalid, htree⟩ := hg.restOpen ho (P := (f.write v.pool e gap bytes).1) htext hentry
  refine ⟨_, gap, hgap, rfl, hg.next (r := {s.ramfs with heap := h'}) (howns.perm ?_) ht hvalid htree⟩
  rw [← List.append_assoc (OpenFd.cells i _), ← List.append_assoc (FileNode.cells _)]
  exact (Volume.withOpen_perm ho.dir ho.file _ haddr _).symm.append_right _

theorem Good.seek (hg : s.Good L R v) {fd : Int} (ho : v.Opens fd k j i d f e) (offset origin : Int) :
    ∃ s', s.call L R (.seek fd offset origin) = some (s', (e.seekTo f offset origin).getD (-1)) ∧
      s'.Good L R (v.withOpen k j i v.pool f (e.afterSeek f offset origin)) ∧ Calm L s s' := by
  obtain ⟨h', hcall, howns⟩ := Owns.ramfsSeek (hg.ownsOpen ho) (hg.fdEntry_eq ho) ho.same offset origin
  dsimp only [call]
  rw [hcall]
  obtain ⟨ht, hvalid, htree⟩ := hg.restOpen ho (P := v.pool) (g := f) (x := e.afterSeek f offset origin) rfl rfl
  refine ⟨_, rfl, hg.next (r := {s.ramfs with heap := h'}) (howns.perm ?_) ht hvalid htree⟩
  rw [← List.append_assoc (OpenFd.cells i _), ← List.append_assoc (FileNode.cells _)]
  exact (Volume.withOpen_perm ho.dir ho.file _ rfl _).symm.append_right _

theorem Good.flags_eq (hg : s.Good L R v) (hi : v.fds i = some e) : s.heap.word e.addr RamfsFd.flags = e.flags :=
  hg.owns.word_eq (List.mem_append_left _ (OpenFd.mem_cells hi (List.mem_singleton_self _))) rfl

theorem Good.write_refused (hg : s.Good L R v) {fd : Int} (ho : v.Opens fd k j i d f e)
    (hterm : ¬ (fd = stdoutFileno ∨ fd = stderrFileno)) (hmode : e.flags &&& (oWronly ||| oRdwr) = 0)
    (buf count : Nat) :
    s.call L R (.write fd buf count) = some (s, -1) := by
  dsimp only [call]
  unfold Ramfs.ramfsWrite
  rw [hg.fdEntry_eq ho]
  dsimp only
  rw [if_neg hterm, hg.flags_eq ho.entry, if_pos hmode]
  rfl

theorem Good.read_refused (hg : s.Good L R v) {fd : Int} (ho : v.Opens fd k j i d f e) (hstdin : fd ≠ stdinFileno)
    (hmode : e.flags &&& oRdonly = 0 ∧ e.flags &&& oRdwr = 0) (buf count : Nat) :
    s.call L R (.read fd buf count) = some (s, -1) := by
  dsimp only [call]
  unfold Ramfs.ramfsRead
  rw [hg.fdEntry_eq ho]
  dsimp only
  rw [if_neg hstdin, hg.flags_eq ho.entry, if_pos hmode]
  rfl

/-- A read changes the buffer it is given and nothing else of the callers' memory. -/
theorem Good.read (hg : s.Good L R v) {fd : Int} (ho : v.Opens fd k j i d f e) (hstdin : fd ≠ stdinFileno)
    (hmode : ¬ (e.flags &&& oRdonly = 0 ∧ e.flags &&& oRdwr = 0)) {buf count : Nat} (hbuf : s.Buffer L buf count)
    (hR : ∀ i, i < count → ¬ R.Byte (buf + i)) :
    ∃ s', s.call L R (.read fd buf count) = some (s', toSigned (e.readCount f count)) ∧
      s'.Good L R (v.withOpen k j i v.pool f (e.afterRead f count)) ∧ s'.root = s.root ∧ s'.held = s.held ∧
      (∀ x, Callers L s.held x → ¬ (buf ≤ x ∧ x < buf + e.readCount f count) → s'.mem.byte x = s.mem.byte x) ∧
      (e.position + e.readCount f count ≤ f.contents.length → ∀ j, j < e.readCount f count →
        f.contents[e.position + j]? = some (s'.mem.byte (buf + j))) := by
  have hs : Settled L s.held v.pool s.heap (f.cells ++ (e.cells i ++ v.restOfOpen k j i)) :=
    hg.settled.perm (Volume.open_perm ho.dir ho.file ho.entry)
  obtain ⟨h', hcall, hs', hout, hin⟩ := Settled.ramfsRead hs (hg.fdEntry_eq ho) hstdin hmode ho.same hbuf.1 hbuf.2 some
  dsimp only [call]
  rw [hcall]
  obtain ⟨ht, hvalid, htree⟩ := hg.restOpen ho (P := v.pool) (g := f) (x := e.afterRead f count) rfl rfl
  have hle := e.readCount_le f count
  refine ⟨_, rfl, ⟨hs'.perm (Volume.withOpen_perm ho.dir ho.file _ rfl _).symm, ht, hvalid, htree, ?_⟩,
    rfl, rfl, hout, hin⟩
  refine hg.rodata.congr fun x hx hlit => hout x (Or.inl hx) fun hrange => ?_
  obtain ⟨j, rfl⟩ := Nat.exists_eq_add_of_le hrange.1
  exact hR j (by omega) hlit

theorem Good.close (hg : s.Good L R v) {fd : Int} {fdPtr : Nat} {e : OpenFd} (hfd : (i : Int) = fd)
    (hi : v.fds i = some e)
    (hptr : s.Refuses fdPtr) :
    ∃ s', s.call L R (.close fd fdPtr) = some (s', 0) ∧ s'.Good L R (v.closeFd i e) ∧ Calm L s s' := by
  have hlt := i.isLt
  have hidx : (⟨fd.toNat, by omega⟩ : Fin maxFds) = i := Fin.ext (by dsimp only; omega)
  have htable := hg.table i
  rw [hi] at htable
  have hne := hg.owns.ne_zero (List.mem_append_left _ (OpenFd.mem_cells hi (List.mem_singleton_self _)))
  have hfree : s.heap.free L fdPtr = some (s.heap, 1) := by
    unfold Heap.free
    by_cases h0 : fdPtr = 0
    · rw [if_pos h0]
    · rw [if_neg h0]
      dsimp only
      rw [if_pos (hptr.resolve_left h0)]
  dsimp only [call]
  unfold Ramfs.ramfsClose
  rw [dif_pos (by omega), hidx, if_neg (fun h0 => hne (htable.symm.trans h0)), hfree]
  refine ⟨_, rfl, hg.next (w := v.closeFd i e)
    (r := {s.ramfs with fdTable := Function.update s.ramfs.fdTable i 0, fdCount := s.ramfs.fdCount - 1})
    (hg.owns.perm ((Volume.closeFd_perm hi).symm.append_right _)) (fun k => ?_) hg.valid hg.tree⟩
  unfold Volume.closeFd
  dsimp only
  by_cases hk : k = i
  · rw [hk, Function.update_self, Function.update_self]
    rfl
  · rw [Function.update_of_ne hk, Function.update_of_ne hk]
    exact hg.table k

/-- What a caller does with its own memory. -/
theorem Good.store (hg : s.Good L R v) {a : Nat} (ha : Callers L s.held a) (hR : ¬ R.Byte a) (b : Nat) :
    ∃ s', s.call L R (.store a b) = some (s', 0) ∧ s'.Good L R v ∧ s'.root = s.root ∧ s'.held = s.held ∧
      ∀ x, Callers L s.held x → x ≠ a → s'.mem.byte x = s.mem.byte x := by
  have hother : ∀ x, x ≠ a → (s.mem.store8 a b).byte x = s.mem.byte x := fun x hx => by rw [byte_store8, if_neg hx]
  refine ⟨_, rfl, ⟨?_, hg.table, hg.valid, hg.tree, hg.rodata.congr fun x _ hx => hother x fun he =>
    hR (he ▸ hx)⟩, rfl, rfl,
    fun x _ hx => hother x hx⟩
  exact Settled.store hg.settled fun x hx => hother x fun he => hx (he ▸ ha)

end Mount
end ShompOS
