import ShompOS.Fs.Calls

/-! What any call can do.

`Volume.Effect` says once what a call may have done to the volume and what it then
returned; the invariants of whole runs are read off that. A call that goes through
a descriptor whose file is gone, or that writes past the end of the address space,
has no effect of this kind. -/
namespace ShompOS
open Memory

/-- A pointer is `NULL` that must not be. -/
def FsCall.Null : FsCall → Prop
  | .createFile dir name data _ => dir = 0 ∨ name = 0 ∨ data = 0
  | .createDir dir name | .deleteFile dir name | .rm dir name | .findDir dir name | .openFile dir name _ =>
      dir = 0 ∨ name = 0
  | _ => False

/-- What is returned then. -/
def FsCall.refusal : FsCall → Int
  | .openFile .. => -1
  | _ => 0

/-- The number that a call is given for a descriptor. -/
def FsCall.fd : FsCall → Option Int
  | .read fd .. | .write fd .. | .seek fd .. | .close fd _ => some fd
  | _ => none

inductive Volume.Effect (s : Mount) (v : Volume) : FsCall → Int → Volume → Prop
  | null {c : FsCall} : c.Null → Effect s v c c.refusal v
  | createFile {k : Nat} {d : DirNode} {name data size : Nat} {text : List UInt8} : v.dirs[k]? = some d → d.addr ≠ 0 →
      name ≠ 0 → data ≠ 0 → IsStr s.mem name text →
      Effect s v (.createFile d.addr name data size) ((d.createFile v.pool text (s.mem.bytesAt data size)).2.2 : Nat)
        (v.withDir k (d.createFile v.pool text (s.mem.bytesAt data size)).1
          (d.createFile v.pool text (s.mem.bytesAt data size)).2.1)
  | createDir {k : Nat} {d : DirNode} {name : Nat} {text : List UInt8} : v.dirs[k]? = some d → d.addr ≠ 0 → name ≠ 0 →
      IsStr s.mem name text →
      Effect s v (.createDir d.addr name) (newDirPtr (d.createDir v.pool text).2.2.1 : Nat) (v.createDir k d text)
  | deleteFile {k : Nat} {d : DirNode} {name : Nat} {text : List UInt8} {c : FsCall} : v.dirs[k]? =
      some d → d.addr ≠ 0 →
      name ≠ 0 → c = .deleteFile d.addr name ∨ c = .rm d.addr name → IsStr s.mem name text →
      (∀ i f, d.fileIdx text = some i → d.fileNodes[i]? = some f → s.Deletes c f.addr) →
      Effect s v c 0 (v.withDir k (d.deleteFile v.pool text).1 (d.deleteFile v.pool text).2)
  | findDir {d : DirNode} {path found : Nat} {text : List UInt8} : d ∈ v.dirs → d.addr ≠ 0 → path ≠ 0 →
      IsStr s.mem path text →
      (v.Named → found = v.findDir v.pool d.addr text) →
      Effect s v (.findDir d.addr path) (found : Nat) {v with pool := Volume.findDirPool v.pool text}
  | openFile {d : DirNode} {path flags found : Nat} {text : List UInt8} : d ∈ v.dirs → d.addr ≠ 0 → path ≠ 0 →
      IsStr s.mem path text → (found = 0 ∨ ∃ e ∈ v.dirs, e.addr = found) →
      (v.Named → found = v.findDir (v.pool.allocate (text.length + 1)).1 d.addr (Volume.dirname text)) →
      Effect s v (.openFile d.addr path flags) (v.openPath d text flags found).2 (v.openPath d text flags found).1
  | closed {c : FsCall} {n : Int} : c.fd = some n → (∀ i : Fin maxFds, (i : Int) = n → v.fds i = none) →
      Effect s v c (-1) v
  | stdin {buf count : Nat} {i : Fin maxFds} {e : OpenFd} : (i : Int) = stdinFileno → v.fds i = some e →
      Effect s v (.read stdinFileno buf count) (-1) v
  | terminal {fd : Int} {buf count : Nat} {i : Fin maxFds} {e : OpenFd} : (i : Int) = fd → v.fds i = some e →
      fd = stdoutFileno ∨ fd = stderrFileno → Effect s v (.write fd buf count) (toSigned count) v
  | readRefused {fd : Int} {buf count k j : Nat} {i : Fin maxFds} {d : DirNode} {f : FileNode} {e : OpenFd} :
      v.Opens fd k j i d f e → fd ≠ stdinFileno → e.flags &&& oRdonly = 0 ∧ e.flags &&& oRdwr = 0 →
      Effect s v (.read fd buf count) (-1) v
  | writeRefused {fd : Int} {buf count k j : Nat} {i : Fin maxFds} {d : DirNode} {f : FileNode} {e : OpenFd} :
      v.Opens fd k j i d f e → ¬ (fd = stdoutFileno ∨ fd = stderrFileno) → e.flags &&& (oWronly ||| oRdwr) = 0 →
      Effect s v (.write fd buf count) (-1) v
  | read {fd : Int} {buf count k j : Nat} {i : Fin maxFds} {d : DirNode} {f : FileNode} {e : OpenFd} :
      v.Opens fd k j i d f e → fd ≠ stdinFileno → ¬ (e.flags &&& oRdonly = 0 ∧ e.flags &&& oRdwr = 0) →
      Effect s v (.read fd buf count) (toSigned (e.readCount f count)) (v.withOpen k j i v.pool f (e.afterRead f count))
  | write {fd : Int} {buf count k j : Nat} {i : Fin maxFds} {d : DirNode} {f : FileNode} {e : OpenFd}
      {gap : List UInt8} :
      v.Opens fd k j i d f e → ¬ (fd = stdoutFileno ∨ fd = stderrFileno) → e.flags &&& (oWronly ||| oRdwr) ≠ 0 →
      gap.length = e.start f - f.contents.length →
      Effect s v (.write fd buf count) (f.write v.pool e gap (s.mem.bytesAt buf count)).2.2.2
        (v.withOpen k j i (f.write v.pool e gap (s.mem.bytesAt buf count)).1
          (f.write v.pool e gap (s.mem.bytesAt buf count)).2.1 (f.write v.pool e gap (s.mem.bytesAt buf count)).2.2.1)
  | seek {fd offset origin : Int} {k j : Nat} {i : Fin maxFds} {d : DirNode} {f : FileNode} {e : OpenFd} :
      v.Opens fd k j i d f e → Effect s v (.seek fd offset origin) ((e.seekTo f offset origin).getD (-1))
        (v.withOpen k j i v.pool f (e.afterSeek f offset origin))
  | close {fd : Int} {fdPtr : Nat} {i : Fin maxFds} {e : OpenFd} : (i : Int) = fd → v.fds i = some e →
      Effect s v (.close fd fdPtr) 0 (v.closeFd i e)
  | store {a b : Nat} : Effect s v (.store a b) 0 v

namespace Ramfs
variable {L : Layout} {s : Ramfs} {fd : Int} {buf count entry : Nat}

theorem ramfsWrite_closed (h : s.fdEntry fd = none) : s.ramfsWrite L fd buf count = some (s, -1) := by
  unfold ramfsWrite
  rw [h]

theorem ramfsWrite_console (hfd : fd = stdoutFileno ∨ fd = stderrFileno) (hopen : s.fdEntry fd = some entry) :
    s.ramfsWrite L fd buf count = (s.terminalWritestring buf).map fun s => (s, toSigned count) := by
  unfold ramfsWrite
  rw [hopen]
  exact if_pos hfd

end Ramfs

namespace Mount
variable {L : Layout} {R : Rodata} {s s' : Mount} {v : Volume} {c : FsCall} {r : Int}

/-! ### Calls that do nothing -/

theorem call_null (h : c.Null) : s.call L R c = some (s, c.refusal) := by
  cases c with
  | createFile dir name data size =>
    have hnull : dir = 0 ∨ name = 0 ∨ data = 0 := h
    dsimp only [call]
    unfold Heap.ramfsCreateFile
    rw [if_pos hnull]
    rfl
  | createDir parent name =>
    have hnull : parent = 0 ∨ name = 0 := h
    dsimp only [call]
    unfold Heap.ramfsCreateDir
    rw [if_pos hnull]
    rfl
  | deleteFile dir name =>
    have hnull : dir = 0 ∨ name = 0 := h
    dsimp only [call]
    unfold Heap.ramfsDeleteFile
    rw [if_pos (hnull.imp_right Or.inl)]
    rfl
  | rm dir filename =>
    have hnull : dir = 0 ∨ filename = 0 := h
    dsimp only [call]
    unfold Ramfs.ramfsRm
    rw [if_pos hnull]
    rfl
  | findDir root path =>
    have hnull : root = 0 ∨ path = 0 := h
    dsimp only [call]
    unfold Heap.ramfsFindDir
    rw [if_pos hnull]
    rfl
  | openFile root path flags =>
    have hnull : root = 0 ∨ path = 0 := h
    dsimp only [call]
    unfold Ramfs.ramfsOpen
    rw [if_pos (hnull.imp_right Or.inl)]
    rfl
  | read | write | seek | close | store => exact h.elim

theorem call_closed {fd : Int} (hfd : c.fd = some fd) (h : s.ramfs.fdEntry fd = none) :
    s.call L R c = some (s, -1) := by
  cases c with
  | read n buf count =>
    cases hfd
    dsimp only [call]
    unfold Ramfs.ramfsRead
    rw [h]
    rfl
  | write n buf count =>
    cases hfd
    dsimp only [call]
    rw [Ramfs.ramfsWrite_closed h]
    rfl
  | seek n offset origin =>
    cases hfd
    dsimp only [call]
    unfold Ramfs.ramfsSeek
    rw [h]
    rfl
  | close n fdPtr =>
    cases hfd
    dsimp only [call]
    unfold Ramfs.fdEntry at h
    unfold Ramfs.ramfsClose
    split at h
    · next hrange =>
      rw [dif_pos hrange]
      dsimp only at h
      split at h
      · next h0 =>
        rw [if_pos h0]
        rfl
      · cases h
    · next hrange =>
      rw [dif_neg hrange]
      rfl
  | createFile | createDir | deleteFile | rm | findDir | openFile | store => cases hfd

theorem call_stdin {buf count entry : Nat} (h : s.ramfs.fdEntry stdinFileno = some entry) :
    s.call L R (.read stdinFileno buf count) = some (s, -1) := by
  dsimp only [call]
  unfold Ramfs.ramfsRead
  rw [h]
  dsimp only
  rw [if_pos rfl]
  rfl

/-- What is written to the terminal is in no file. -/
theorem call_terminal {fd : Int} {buf count entry : Nat} (h : s.ramfs.fdEntry fd = some entry)
    (hterm : fd = stdoutFileno ∨ fd = stderrFileno) (hcall : s.call L R (.write fd buf count) = some (s', r)) :
    r = toSigned count ∧ ∃ q, s' = s.withRamfs q ∧ q.heap = s.heap ∧ q.fdTable = s.ramfs.fdTable := by
  dsimp only [call] at hcall
  rw [Ramfs.ramfsWrite_console hterm h] at hcall
  obtain ⟨⟨q, ret⟩, hq, he⟩ := Option.map_eq_some_iff.mp hcall
  obtain ⟨q', hq', he'⟩ := Option.map_eq_some_iff.mp hq
  obtain ⟨len, -, rfl⟩ := Option.map_eq_some_iff.mp hq'
  cases he'
  cases he
  exact ⟨rfl, _, rfl, rfl, rfl⟩

/-- What a step leaves. -/
def Next (L : Layout) (R : Rodata) (s : Mount) (v : Volume) (c : FsCall) (s' : Mount) (r : Int) : Prop :=
  ∃ v', s'.Good L R v' ∧ s'.root = s.root ∧ s'.held = s.held ∧ v.Effect s c r v'

theorem Good.nothing (hg : s.Good L R v) (x : Int) (h : s.call L R c = some (s, x))
    (hcall : s.call L R c = some (s', r))
    (he : v.Effect s c x v) : Next L R s v c s' r := by
  rw [h] at hcall
  cases hcall
  exact ⟨v, hg, rfl, rfl, he⟩

theorem Good.did {s₁ : Mount} {r₁ : Int} {v' : Volume} (h : s.call L R c = some (s₁, r₁))
    (hcall : s.call L R c = some (s', r))
    (hg : s₁.Good L R v') (hroot : s₁.root = s.root) (hheld : s₁.held = s.held)
    (he : v.Effect s c r₁ v') : Next L R s v c s' r := by
  rw [h] at hcall
  cases hcall
  exact ⟨v', hg, hroot, hheld, he⟩

/-! ### Directories and paths -/

theorem Good.dir_ne_zero (hg : s.Good L R v) {k : Nat} {d : DirNode} (hk : v.dirs[k]? = some d) : d.addr ≠ 0 :=
  hg.owns.ne_zero (List.mem_append_left _ (DirNode.mem_cells (List.mem_of_getElem? hk) (List.mem_cons_self ..)))

theorem Good.step_createFile (hg : s.Good L R v) {dir name data size : Nat}
    (hp : s.Permits L R (.createFile dir name data size))
    (hcall : s.call L R (.createFile dir name data size) = some (s', r)) : Next L R s v
      (.createFile dir name data size) s' r := by
  by_cases hnull : dir = 0 ∨ name = 0 ∨ data = 0
  · exact hg.nothing _ (call_null (c := .createFile dir name data size) hnull) hcall
      (.null (c := .createFile dir name data size) hnull)
  · obtain ⟨hdir, hname, hdata⟩ := hp
    obtain ⟨k, d, hk, rfl⟩ := (hg.dir hdir).resolve_left fun h => hnull (Or.inl h)
    obtain ⟨text, hname⟩ := hname.resolve_left fun h => hnull (Or.inr (Or.inl h))
    have hbuf := (hdata.resolve_left fun h => hnull (Or.inr (Or.inr h))).lent
    have hd0 := hg.dir_ne_zero hk
    obtain ⟨s₁, h1, h2, h3⟩ := hg.createFile hk hname (fun h => hnull (Or.inr (Or.inl h))) hbuf fun h =>
      hnull (Or.inr (Or.inr h))
    rw [length_bytesAt] at h1
    exact Good.did h1 hcall h2 h3.root h3.held (.createFile hk hd0 (fun h => hnull (Or.inr (Or.inl h)))
      (fun h => hnull (Or.inr (Or.inr h))) hname.1)

theorem Good.step_createDir (hg : s.Good L R v) {parent name : Nat} (hp : s.Permits L R (.createDir parent name))
    (hcall : s.call L R (.createDir parent name) = some (s', r)) : Next L R s v (.createDir parent name) s' r := by
  by_cases hnull : parent = 0 ∨ name = 0
  · exact hg.nothing _ (call_null (c := .createDir parent name) hnull) hcall (.null (c := .createDir parent name) hnull)
  · obtain ⟨k, d, hk, rfl⟩ := (hg.dir hp.1).resolve_left fun h => hnull (Or.inl h)
    obtain ⟨text, hname⟩ := hp.2.resolve_left fun h => hnull (Or.inr h)
    obtain ⟨s₁, h1, h2, h3⟩ := hg.createDir hk hname fun h => hnull (Or.inr h)
    exact Good.did h1 hcall h2 h3.root h3.held (.createDir hk (hg.dir_ne_zero hk) (fun h => hnull (Or.inr h)) hname.1)

/-- The file of a name is the one the search finds. -/
theorem Good.deletes (hg : s.Good L R v) {k : Nat} {d : DirNode} (hk : v.dirs[k]? = some d) {name : Nat}
    {text : List UInt8}
    (hname : IsStr s.mem name text) (hname0 : name ≠ 0)
    (hc : c = .deleteFile d.addr name ∨ c = .rm d.addr name) (i : Nat)
    (f : FileNode) (hi : d.fileIdx text = some i) (hf : d.fileNodes[i]? = some f) : s.Deletes c f.addr := by
  have hd := List.mem_of_getElem? hk
  have hcells : d.cells ⊆ v.cells ++ heldCells s.held s.mem :=
    fun x hx => List.mem_append_left _ (DirNode.mem_cells hd hx)
  have hsearch := hg.owns.searchFile hcells (hg.valid d hd) hname
  rw [hi] at hsearch
  refine ⟨d.addr, name, i, hc, hg.owns.ne_zero (hcells (List.mem_cons_self ..)), hname0, hsearch, ?_⟩
  rw [hg.owns.word_eq (hcells (List.mem_cons_self ..)) (i := RamfsDir.files) rfl]
  exact hg.owns.array_word (fun x hx => hcells (List.mem_cons_of_mem _ (List.mem_append_left _ hx)))
    (by rw [List.getElem?_map, hf]; rfl)

theorem Good.step_deleteFile (hg : s.Good L R v) {dir name : Nat} (hp : s.Permits L R (.deleteFile dir name))
    (hcall : s.call L R (.deleteFile dir name) = some (s', r)) : Next L R s v (.deleteFile dir name) s' r := by
  by_cases hnull : dir = 0 ∨ name = 0
  · exact hg.nothing _ (call_null (c := .deleteFile dir name) hnull) hcall (.null (c := .deleteFile dir name) hnull)
  · obtain ⟨k, d, hk, rfl⟩ := (hg.dir hp.1).resolve_left fun h => hnull (Or.inl h)
    obtain ⟨text, hname⟩ := hp.2.resolve_left fun h => hnull (Or.inr h)
    obtain ⟨h', -, h1, h2, h3⟩ := hg.deleteFile hk hname fun h => hnull (Or.inr h)
    exact Good.did h1 hcall h2 h3.root h3.held (.deleteFile hk (hg.dir_ne_zero hk) (fun h => hnull (Or.inr h))
      (Or.inl rfl) hname (hg.deletes hk hname (fun h => hnull (Or.inr h)) (Or.inl rfl)))

theorem Good.step_rm (hg : s.Good L R v) {dir filename : Nat} (hp : s.Permits L R (.rm dir filename))
    (hcall : s.call L R (.rm dir filename) = some (s', r)) : Next L R s v (.rm dir filename) s' r := by
  by_cases hnull : dir = 0 ∨ filename = 0
  · exact hg.nothing _ (call_null (c := .rm dir filename) hnull) hcall (.null (c := .rm dir filename) hnull)
  · obtain ⟨k, d, hk, rfl⟩ := (hg.dir hp.1).resolve_left fun h => hnull (Or.inl h)
    obtain ⟨text, hname⟩ := hp.2.resolve_left fun h => hnull (Or.inr h)
    obtain ⟨rfl, h2, h3⟩ := hg.rm hk hname (fun h => hnull (Or.inr h)) hcall
    exact ⟨_, h2, h3.root, h3.held, .deleteFile hk (hg.dir_ne_zero hk) (fun h => hnull (Or.inr h)) (Or.inr rfl) hname
      (hg.deletes hk hname (fun h => hnull (Or.inr h)) (Or.inr rfl))⟩

theorem Good.step_findDir (hg : s.Good L R v) {root path : Nat} (hp : s.Permits L R (.findDir root path))
    (hcall : s.call L R (.findDir root path) = some (s', r)) : Next L R s v (.findDir root path) s' r := by
  by_cases hnull : root = 0 ∨ path = 0
  · exact hg.nothing _ (call_null (c := .findDir root path) hnull) hcall (.null (c := .findDir root path) hnull)
  · obtain ⟨k, d, hk, rfl⟩ := (hg.dir hp.1).resolve_left fun h => hnull (Or.inl h)
    obtain ⟨text, hpath⟩ := hp.2.resolve_left fun h => hnull (Or.inr h)
    obtain ⟨s₁, dir, h1, h2, h3, -, h4⟩ := hg.findDir (List.mem_of_getElem? hk) hpath fun h => hnull (Or.inr h)
    exact Good.did h1 hcall h2 h3.root h3.held
      (.findDir (List.mem_of_getElem? hk) (hg.dir_ne_zero hk) (fun h => hnull (Or.inr h)) hpath.1 h4)

theorem Good.step_openFile (hg : s.Good L R v) {root path flags : Nat} (hp : s.Permits L R (.openFile root path flags))
    (hcall : s.call L R (.openFile root path flags) = some (s', r)) : Next L R s v
      (.openFile root path flags) s' r := by
  by_cases hnull : root = 0 ∨ path = 0
  · exact hg.nothing _ (call_null (c := .openFile root path flags) hnull) hcall
      (.null (c := .openFile root path flags) hnull)
  · obtain ⟨hroot, hpath, hflags⟩ := hp
    obtain ⟨k, d, hk, rfl⟩ := (hg.dir hroot).resolve_left fun h => hnull (Or.inl h)
    obtain ⟨text, hpath⟩ := hpath.resolve_left fun h => hnull (Or.inr h)
    obtain ⟨s₁, found, h1, h2, h3, h4, h5⟩ :=
      hg.openFile (List.mem_of_getElem? hk) hpath (fun h => hnull (Or.inr h)) hflags
    exact Good.did h1 hcall h2 h3.root h3.held
      (.openFile (List.mem_of_getElem? hk) (hg.dir_ne_zero hk) (fun h => hnull (Or.inr h)) hpath.1 h4 h5)

/-! ### Descriptors -/

/-- Nothing is at an index that is no descriptor. -/
theorem Good.closed_of_none (hg : s.Good L R v) {fd : Int} (h : s.ramfs.fdEntry fd = none) :
    ∀ i : Fin maxFds, (i : Int) = fd → v.fds i = none := by
  intro i hi
  cases hfds : v.fds i with
  | none => rfl
  | some e =>
    rw [hg.fdEntry_of hi hfds] at h
    cases h

theorem Good.step_read (hg : s.Good L R v) {fd : Int} {buf count : Nat} (hp : s.Permits L R (.read fd buf count))
    (hl : s.Lively (.read fd buf count)) (hcall : s.call L R (.read fd buf count) = some (s', r)) :
    Next L R s v (.read fd buf count) s' r := by
  cases hentry : s.ramfs.fdEntry fd with
  | none =>
    exact hg.nothing (-1) (call_closed rfl hentry) hcall (.closed (n := fd) rfl (hg.closed_of_none hentry))
  | some entry =>
    by_cases hstdin : fd = stdinFileno
    · obtain ⟨i, e, hi, he, -, -⟩ := hg.entry hentry
      subst hstdin
      exact hg.nothing (-1) (call_stdin hentry) hcall (.stdin hi he)
    · obtain ⟨k, j, i, d, f, e, ho, rfl⟩ := hg.opens hentry (hl entry (through_read_iff.mpr ⟨hstdin, hentry⟩))
      by_cases hmode : e.flags &&& oRdonly = 0 ∧ e.flags &&& oRdwr = 0
      · exact hg.nothing (-1) (hg.read_refused ho hstdin hmode buf count) hcall (.readRefused ho hstdin hmode)
      · obtain ⟨s₁, h1, h2, h3, h4, -⟩ := hg.read ho hstdin hmode hp.1 hp.2
        exact Good.did h1 hcall h2 h3 h4 (.read ho hstdin hmode)

/-- Where a write through a descriptor begins, read off memory. -/
theorem Good.position_eq (hg : s.Good L R v) {fd : Int} {k j : Nat} {i : Fin maxFds} {d : DirNode}
    {f : FileNode} {e : OpenFd}
    (ho : v.Opens fd k j i d f e) : s.position e.addr = e.start f := by
  have hs := hg.ownsOpen ho
  have hfile : s.fileOf e.addr = f.addr := (hs.word_eq (List.mem_of_getElem? (i := 3) rfl)
    (i := RamfsFd.file) rfl).trans ho.same
  unfold position OpenFd.start
  rw [hg.flags_eq ho.entry, hfile, hs.word_eq (List.mem_of_getElem? (i := 0) rfl) (i := RamfsFile.size) rfl,
    hs.word_eq (List.mem_of_getElem? (i := 3) rfl) (i := RamfsFd.position) rfl]

/-- There is room for what is written. -/
theorem Good.room (hg : s.Good L R v) {fd : Int} {k j : Nat} {i : Fin maxFds} {d : DirNode} {f : FileNode}
    {e : OpenFd} (ho : v.Opens fd k j i d f e) {buf count : Nat} (hb : s.Bounded (.write fd buf count))
    (hthrough : s.through (.write fd buf count) = some e.addr) (hmode : e.flags &&& (oWronly ||| oRdwr) ≠ 0) :
    e.start f + (s.mem.bytesAt buf count).length < addressSpace := by
  have hroom := hb e.addr hthrough
  rw [hg.flags_eq ho.entry, hg.position_eq ho] at hroom
  rw [length_bytesAt]
  exact hroom hmode

theorem Good.step_write (hg : s.Good L R v) {fd : Int} {buf count : Nat} (hp : s.Permits L R (.write fd buf count))
    (hl : s.Lively (.write fd buf count)) (hb : s.Bounded (.write fd buf count))
    (hcall : s.call L R (.write fd buf count) = some (s', r)) : Next L R s v (.write fd buf count) s' r := by
  cases hentry : s.ramfs.fdEntry fd with
  | none =>
    exact hg.nothing (-1) (call_closed rfl hentry) hcall (.closed (n := fd) rfl (hg.closed_of_none hentry))
  | some entry =>
    by_cases hterm : fd = stdoutFileno ∨ fd = stderrFileno
    · obtain ⟨rfl, q, rfl, hheap, htable⟩ := call_terminal hentry hterm hcall
      obtain ⟨i, e, hi, he, -, -⟩ := hg.entry hentry
      exact ⟨v, (hg.congr hheap htable).1, rfl, rfl, .terminal hi he hterm⟩
    · have hthrough : s.through (.write fd buf count) = some entry := through_write_iff.mpr ⟨hterm, hentry⟩
      obtain ⟨k, j, i, d, f, e, ho, rfl⟩ := hg.opens hentry (hl entry hthrough)
      by_cases hmode : e.flags &&& (oWronly ||| oRdwr) = 0
      · exact hg.nothing (-1) (hg.write_refused ho hterm hmode buf count) hcall (.writeRefused ho hterm hmode)
      · obtain ⟨s₁, gap, h0, h1, h2, h3⟩ := hg.write ho hterm hmode (Buffer.lent hp)
          (hg.room ho hb hthrough hmode)
        rw [length_bytesAt] at h1
        exact Good.did h1 hcall h2 h3.root h3.held (.write ho hterm hmode h0)

theorem Good.step_seek (hg : s.Good L R v) {fd offset origin : Int} (hl : s.Lively (.seek fd offset origin))
    (hcall : s.call L R (.seek fd offset origin) = some (s', r)) : Next L R s v (.seek fd offset origin) s' r := by
  cases hentry : s.ramfs.fdEntry fd with
  | none =>
    exact hg.nothing (-1) (call_closed rfl hentry) hcall (.closed (n := fd) rfl (hg.closed_of_none hentry))
  | some entry =>
    obtain ⟨k, j, i, d, f, e, ho, rfl⟩ := hg.opens hentry (hl entry hentry)
    obtain ⟨s₁, h1, h2, h3⟩ := hg.seek ho offset origin
    exact Good.did h1 hcall h2 h3.root h3.held (.seek ho)

theorem Good.step_close (hg : s.Good L R v) {fd : Int} {fdPtr : Nat} (hp : s.Refuses fdPtr)
    (hcall : s.call L R (.close fd fdPtr) = some (s', r)) : Next L R s v (.close fd fdPtr) s' r := by
  cases hentry : s.ramfs.fdEntry fd with
  | none =>
    exact hg.nothing (-1) (call_closed rfl hentry) hcall (.closed (n := fd) rfl (hg.closed_of_none hentry))
  | some entry =>
    obtain ⟨i, e, hi, he, -, -⟩ := hg.entry hentry
    obtain ⟨s₁, h1, h2, h3⟩ := hg.close hi he hp
    exact Good.did h1 hcall h2 h3.root h3.held (.close hi he)

theorem Good.step (hg : s.Good L R v) (hp : s.Permits L R c) (hl : s.Lively c) (hb : s.Bounded c)
    (hcall : s.call L R c = some (s', r)) : Next L R s v c s' r := by
  cases c with
  | createFile dir name data size => exact hg.step_createFile hp hcall
  | createDir parent name => exact hg.step_createDir hp hcall
  | deleteFile dir name => exact hg.step_deleteFile hp hcall
  | rm dir filename => exact hg.step_rm hp hcall
  | findDir root path => exact hg.step_findDir hp hcall
  | openFile root path flags => exact hg.step_openFile hp hcall
  | read fd buf count => exact hg.step_read hp hl hcall
  | write fd buf count => exact hg.step_write hp hl hb hcall
  | seek fd offset origin => exact hg.step_seek hl hcall
  | close fd fdPtr => exact hg.step_close hp hcall
  | store a b =>
    obtain ⟨s₁, h1, h2, h3, h4, -⟩ := hg.store hp.1 hp.2 b
    exact Good.did h1 hcall h2 h3 h4 .store

end Mount
end ShompOS
