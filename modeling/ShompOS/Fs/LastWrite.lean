import ShompOS.Fs.Writes
import ShompOS.Fs.Reads
import ShompOS.History

/-! A file holds what was last written to it.

The calls of a run that change a file's bytes are the successful creations and writes;
a file that is linked is as long as these say, and each byte one of them reached is the
byte of the last that did. So a read gives back the last writes to what it reads. Files
are known by their addresses, and an address that has been given back may be another
file's by then: a creation begins the record of its file anew. -/
namespace ShompOS
open Memory

namespace Volume
variable {cs : List (Change Nat UInt8)} {v w : Volume} {c : Change Nat UInt8}

/-- What is in the files is what the changes say. -/
def Recorded (cs : List (Change Nat UInt8)) (v : Volume) : Prop :=
  ∀ d ∈ v.dirs, ∀ f ∈ d.fileNodes, ShompOS.Recorded cs f.addr f.contents

theorem Recorded.fewer (h : v.Recorded cs)
    (hsub : ∀ d ∈ w.dirs, ∀ f ∈ d.fileNodes, ∃ d' ∈ v.dirs, f ∈ d'.fileNodes) : w.Recorded cs := by
  intro d hd f hf
  obtain ⟨d', hd', hf'⟩ := hsub d hd f hf
  exact h d' hd' f hf'

/-- One file is as the change says and the others were there before. -/
theorem Recorded.change (h : v.Recorded cs)
    (hone : ∀ d ∈ w.dirs, ∀ f ∈ d.fileNodes, f.addr = c.key → ShompOS.Recorded (cs ++ [c]) f.addr f.contents)
    (hothers : ∀ d ∈ w.dirs, ∀ f ∈ d.fileNodes, f.addr ≠ c.key → ∃ d' ∈ v.dirs, f ∈ d'.fileNodes) :
    w.Recorded (cs ++ [c]) := by
  intro d hd f hf
  by_cases hkey : f.addr = c.key
  · exact hone d hd f hf hkey
  · obtain ⟨d', hd', hf'⟩ := hothers d hd f hf hkey
    exact (h d' hd' f hf').other fun he => hkey he.symm

/-- The files after a change to one are that one and those before. -/
theorem withOpen_files {fd : Int} {k j : Nat} {i : Fin maxFds} {d d₂ : DirNode} {f f₂ : FileNode} {e : OpenFd}
    (ho : v.Opens fd k j i d f e) (P : Pool) (g : FileNode) (e' : OpenFd)
    (hd₂ : d₂ ∈ (v.withOpen k j i P g e').dirs) (hf₂ : f₂ ∈ d₂.fileNodes) :
    f₂ = g ∨ ∃ d' ∈ v.dirs, f₂ ∈ d'.fileNodes := by
  rw [withOpen_dirs ho.dir] at hd₂
  cases List.mem_or_eq_of_mem_set hd₂ with
  | inl h => exact Or.inr ⟨d₂, h, hf₂⟩
  | inr h =>
    rw [h] at hf₂
    cases List.mem_or_eq_of_mem_set hf₂ with
    | inl hf => exact Or.inr ⟨d, List.mem_of_getElem? ho.dir, hf⟩
    | inr hf => exact Or.inl hf

/-- With the same file again there are no others. -/
theorem Recorded.withOpen (h : v.Recorded cs) {fd : Int} {k j : Nat} {i : Fin maxFds} {d : DirNode} {f : FileNode}
    {e : OpenFd} (ho : v.Opens fd k j i d f e) (P : Pool) (e' : OpenFd) :
    (v.withOpen k j i P f e').Recorded cs := by
  refine h.fewer fun d₂ hd₂ f₂ hf₂ => ?_
  cases withOpen_files ho P f e' hd₂ hf₂ with
  | inl he => exact ⟨d, List.mem_of_getElem? ho.dir, he ▸ List.mem_of_getElem? ho.file⟩
  | inr h => exact h

end Volume

namespace Mount
variable {L : Layout} {R : Rodata} {s s' : Mount} {v v' : Volume} {c : FsCall} {r fd : Int}
  {buf count entry file : Nat} {d d₂ : DirNode} {f f₂ : FileNode} {cs : List (Change Nat UInt8)}

/-- How a call that returned `r` changed the bytes of a file. -/
def change (x : Mount × (FsCall × Int)) : Option (Change Nat UInt8) :=
  match x.2.1 with
  | .createFile _ _ data size =>
    if x.2.2 = 0 then none else some (.made x.2.2.toNat (x.1.mem.bytesAt data size))
  | .write fd buf count =>
    if x.2.2 = -1 then none
    else (x.1.through (.write fd buf count)).map fun entry =>
      .wrote (x.1.fileOf entry) (x.1.position entry) (x.1.mem.bytesAt buf count)
  | _ => none

/-- What fails changes nothing. -/
@[simp] theorem change_createFile_null (s : Mount) (dir name data size : Nat) :
    change (s, .createFile dir name data size, 0) = none := by
  simp [change]

@[simp] theorem change_write_failed (s : Mount) (fd : Int) (buf count : Nat) :
    change (s, .write fd buf count, -1) = none := by
  simp [change]

theorem change_write (hthrough : s.through (.write fd buf count) = some entry) (hr : r ≠ -1) :
    change (s, .write fd buf count, r) =
      some (.wrote (s.fileOf entry) (s.position entry) (s.mem.bytesAt buf count)) := by
  simp [change, hr, hthrough]

/-- Two files are not at one address. -/
theorem Good.file_unique (hg : s.Good L R v) (hd : d ∈ v.dirs) (hf : f ∈ d.fileNodes) (hd₂ : d₂ ∈ v.dirs)
    (hf₂ : f₂ ∈ d₂.fileNodes) (haddr : f₂.addr = f.addr) : f₂.contents = f.contents := by
  rw [← (hg.file hd hf).contents, ← (hg.file hd₂ hf₂).contents, haddr]

theorem Good.recorded_createFile (hg' : s'.Good L R v') (h : v.Recorded cs) {k name data size : Nat}
    {text : List UInt8} (hk : v.dirs[k]? = some d)
    (hv' : v' = v.withDir k (d.createFile v.pool text (s.mem.bytesAt data size)).1
      (d.createFile v.pool text (s.mem.bytesAt data size)).2.1) :
    v'.Recorded (cs ++ (change (s, .createFile d.addr name data size,
      ((d.createFile v.pool text (s.mem.bytesAt data size)).2.2 : Nat))).toList) := by
  cases DirNode.createFile_cases v.pool d text (s.mem.bytesAt data size) with
  | inl hno =>
    have hnone : change (s, .createFile d.addr name data size,
        ((d.createFile v.pool text (s.mem.bytesAt data size)).2.2 : Nat)) = none := by
      simp [hno.2]
    rw [hnone, Option.toList_none, List.append_nil]
    refine h.fewer fun d₂ hd₂ f₂ hf₂ => ?_
    rw [hv'] at hd₂
    cases Volume.withDir_mem hd₂ with
    | inl he =>
      rw [he, hno.1] at hf₂
      exact ⟨d, List.mem_of_getElem? hk, hf₂⟩
    | inr hin => exact ⟨d₂, hin, hf₂⟩
  | inr hyes =>
    obtain ⟨f, files, hne, -, hcontents, hret, hdir⟩ := hyes
    have hsome : change (s, .createFile d.addr name data size,
        ((d.createFile v.pool text (s.mem.bytesAt data size)).2.2 : Nat)) =
          some (.made f.addr (s.mem.bytesAt data size)) := by
      simp [change, hret, hne]
    rw [hsome, Option.toList_some]
    -- the new directory is there, with the new file in it
    have hnew : (d.createFile v.pool text (s.mem.bytesAt data size)).2.1 ∈ v'.dirs := by
      rw [hv']
      exact List.mem_of_getElem? (List.getElem?_set_self (List.getElem?_eq_some_iff.mp hk).1)
    have hf : f ∈ (d.createFile v.pool text (s.mem.bytesAt data size)).2.1.fileNodes := by
      rw [hdir]
      exact List.mem_append_right _ (List.mem_singleton_self f)
    refine h.change (fun d₂ hd₂ f₂ hf₂ hkey => ?_) fun d₂ hd₂ f₂ hf₂ hkey => ?_
    · have hkey : f₂.addr = f.addr := hkey
      rw [hg'.file_unique hnew hf hd₂ hf₂ hkey, hcontents, hkey]
      exact recorded_made _ _ _
    · rw [hv'] at hd₂
      cases Volume.withDir_mem hd₂ with
      | inl he =>
        rw [he, hdir] at hf₂
        cases List.mem_append.mp hf₂ with
        | inl hold => exact ⟨d, List.mem_of_getElem? hk, hold⟩
        | inr hlast => exact absurd (congrArg FileNode.addr (List.mem_singleton.mp hlast)) hkey
      | inr hin => exact ⟨d₂, hin, hf₂⟩

theorem Good.recorded_write (hg : s.Good L R v) (hg' : s'.Good L R v') (h : v.Recorded cs) {k j : Nat}
    {i : Fin maxFds} {e : OpenFd} {gap : List UInt8} (ho : v.Opens fd k j i d f e)
    (hterm : ¬ (fd = stdoutFileno ∨ fd = stderrFileno)) (hgap : gap.length = e.start f - f.contents.length)
    (hv' : v' = v.withOpen k j i (f.write v.pool e gap (s.mem.bytesAt buf count)).1
      (f.write v.pool e gap (s.mem.bytesAt buf count)).2.1 (f.write v.pool e gap (s.mem.bytesAt buf count)).2.2.1) :
    v'.Recorded (cs ++ (change (s, .write fd buf count,
      (f.write v.pool e gap (s.mem.bytesAt buf count)).2.2.2)).toList) := by
  cases write_cases v.pool f e gap (s.mem.bytesAt buf count) with
  | inl hno =>
    rw [hno.2.2] at hv' ⊢
    dsimp only at hv' ⊢
    rw [change_write_failed, Option.toList_none, List.append_nil, hv']
    exact h.withOpen ho _ _
  | inr hyes =>
    obtain ⟨P', g, haddr, -, -, hcontents, hwrite⟩ := hyes
    rw [hwrite] at hv' ⊢
    dsimp only at hv' ⊢
    have hthrough : s.through (.write fd buf count) = some e.addr := through_write_iff.mpr ⟨hterm, hg.fdEntry_eq ho⟩
    rw [change_write hthrough (by omega), hg.position_eq ho, (hg.fdAt ho.entry).file, ho.same, Option.toList_some]
    obtain ⟨hd', hgd'⟩ := ho.changed P' g {e with position := e.start f + (s.mem.bytesAt buf count).length}
    rw [← hv'] at hd'
    refine h.change (fun d₂ hd₂ f₂ hf₂ hkey => ?_) fun d₂ hd₂ f₂ hf₂ hkey => ?_
    · have hkey : f₂.addr = f.addr := hkey
      rw [hg'.file_unique hd' hgd' hd₂ hf₂ (hkey.trans haddr.symm), hcontents, hkey]
      exact (h d (List.mem_of_getElem? ho.dir) f (List.mem_of_getElem? ho.file)).wrote (length_overwritten hgap)
        (fun n hn => overwritten_written hgap hn) fun n hn hout => overwritten_kept hgap hn hout
    · rw [hv'] at hd₂
      exact (Volume.withOpen_files ho _ g _ hd₂ hf₂).resolve_left fun he => hkey (he ▸ haddr)

/-- A step records what it changes. -/
theorem Good.recorded_step (hg : s.Good L R v) (hg' : s'.Good L R v') (heff : v.Effect s c r v')
    (h : v.Recorded cs) : v'.Recorded (cs ++ (change (s, c, r)).toList) := by
  -- most calls change no file
  have hnothing : change (s, c, r) = none → v'.Recorded cs → v'.Recorded (cs ++ (change (s, c, r)).toList) := by
    intro hnone hv'
    rw [hnone, Option.toList_none, List.append_nil]
    exact hv'
  cases heff with
  | null hnull =>
    refine hnothing ?_ h
    cases c with
    | createFile => exact change_createFile_null ..
    | write => exact hnull.elim
    | _ => rfl
  | createFile hk => exact hg'.recorded_createFile h hk rfl
  | @createDir k d name text hk =>
    refine hnothing rfl (h.fewer fun d₂ hd₂ f₂ hf₂ => ?_)
    have hparent : (d.createDir v.pool text).2.1.fileNodes = d.fileNodes := by
      cases DirNode.createDir_cases v.pool d text with
      | inl hno => rw [hno.1]
      | inr hyes =>
        obtain ⟨dir, name, subdirs, -, -, hdir⟩ := hyes
        rw [hdir]
    cases List.mem_append.mp hd₂ with
    | inl hset =>
      cases List.mem_or_eq_of_mem_set hset with
      | inl hin => exact ⟨d₂, hin, hf₂⟩
      | inr he => exact ⟨d, List.mem_of_getElem? hk, by rwa [he, hparent] at hf₂⟩
    | inr hnew =>
      cases DirNode.createDir_cases v.pool d text with
      | inl hno =>
        rw [hno.2] at hnew
        exact absurd hnew List.not_mem_nil
      | inr hyes =>
        obtain ⟨dir, name, subdirs, -, hnode, -⟩ := hyes
        rw [hnode, Option.toList_some] at hnew
        rw [List.mem_singleton.mp hnew] at hf₂
        exact absurd hf₂ List.not_mem_nil
  | @deleteFile k d name text c hk _ _ hc =>
    refine hnothing ?_ (h.fewer fun d₂ hd₂ f₂ hf₂ => ?_)
    · cases hc with
      | inl hc => rw [hc]; rfl
      | inr hc => rw [hc]; rfl
    · cases Volume.withDir_mem hd₂ with
      | inl he =>
        refine ⟨d, List.mem_of_getElem? hk, ?_⟩
        rw [he] at hf₂
        cases DirNode.deleteFile_cases v.pool d text with
        | inl hno => rwa [hno.2] at hf₂
        | inr hyes =>
          obtain ⟨i, f, -, -, hdir⟩ := hyes
          rw [hdir] at hf₂
          exact List.mem_of_mem_eraseIdx hf₂
      | inr hin => exact ⟨d₂, hin, hf₂⟩
  | findDir => exact hnothing rfl h
  | @openFile d path flags found text =>
    refine hnothing rfl ?_
    unfold Volume.Recorded
    rw [(Volume.openPath_dirs v d text flags found).1]
    exact h
  | closed hfd =>
    refine hnothing ?_ h
    cases c with
    | createFile => cases hfd
    | write => exact change_write_failed ..
    | _ => rfl
  | stdin => exact hnothing rfl h
  | @terminal fd buf count i e _ _ hterm =>
    refine hnothing ?_ h
    have hthrough : s.through (.write fd buf count) = none := if_pos hterm
    unfold change
    dsimp only
    rw [hthrough, Option.map_none, ite_self]
  | readRefused => exact hnothing rfl h
  | writeRefused => exact hnothing (change_write_failed ..) h
  | read ho => exact hnothing rfl (h.withOpen ho _ _)
  | write ho hterm hmode hgap => exact hg.recorded_write hg' h ho hterm hgap rfl
  | seek ho => exact hnothing rfl (h.withOpen ho _ _)
  | close => exact hnothing rfl h
  | store => exact hnothing rfl h

theorem recorded_of_run {tr : List (Mount × (FsCall × Int))} (hrun : Run (Fresh L R) (Step L R) tr s)
    (hcare : ∀ x ∈ tr, Careful x) : ∃ v, s.Good L R v ∧ v.Recorded (tr.filterMap change) := by
  induction hrun with
  | start hfresh =>
    obtain ⟨P, name, hg⟩ := good_of_fresh hfresh
    refine ⟨_, hg, fun d hd f hf => ?_⟩
    rw [List.mem_singleton.mp hd] at hf
    exact absurd hf List.not_mem_nil
  | @next tr s e s' _ hstep ih =>
    obtain ⟨v, hg, hrec⟩ := ih fun x hx => hcare x (List.mem_append_left _ hx)
    have hC := hcare (s, e) (List.mem_append_right _ (List.mem_singleton_self _))
    obtain ⟨v', hg', -, -, heff⟩ := hg.step hstep.1 hC.1 hC.2 hstep.2
    refine ⟨v', hg', ?_⟩
    have hone : [(s, e)].filterMap change = (change (s, e)).toList := by
      cases hc : change (s, e) <;> simp [hc]
    rw [List.filterMap_append, hone]
    exact hg.recorded_step hg' heff hrec

/-- After any calls a linked file holds what the creations and writes among them say. -/
theorem run_lastWrite {tr : List (Mount × (FsCall × Int))} (hrun : Run (Fresh L R) (Step L R) tr s)
    (hcare : ∀ x ∈ tr, Careful x) (hlinked : s.heap.Linked s.root file) :
    (s.contents file).length = lengthOf file (tr.filterMap change) ∧
      ∀ i b, lastAt file i (tr.filterMap change) = some b → (s.contents file)[i]? = some b := by
  obtain ⟨v, hg, hrec⟩ := recorded_of_run hrun hcare
  obtain ⟨d, hd, f, hf, rfl⟩ := (hg.owns.linked_iff hg.tree).mp hlinked
  rw [(hg.file hd hf).contents]
  exact ⟨(hrec d hd f hf).length, (hrec d hd f hf).bytes⟩

theorem run_lastWrite_twice : ∃ tr s file, Run (Fresh .kernelImage bootRodata) (Step .kernelImage bootRodata) tr s ∧
    (s.contents file).length = 4 ∧ (s.contents file)[1]? = some 0x62 := by
  have hdec : rehearses (fun root => [.createFile root 0x1050 0x1060 1, .openFile root 0x1050 oRdwr,
      .write 0 0x1010 4, .seek 0 1 seekSet, .write 0 0x1060 1]) fun tr s =>
        (∀ x ∈ tr, x.1.KeepsOpen x.2.1 ∧ x.1.Bounded x.2.1) ∧
        s.through (.seek 0 0 seekSet) = some (s.ramfs.fdTable 0) ∧
        lengthOf (s.fileOf (s.ramfs.fdTable 0)) (tr.filterMap change) = 4 ∧
        lastAt (s.fileOf (s.ramfs.fdTable 0)) 1 (tr.filterMap change) = some 0x62 := by decide +kernel
  obtain ⟨tr, s, hrun, hdec⟩ := run_rehearses hdec
  obtain ⟨hkeeps, hentry, hlength, hlast⟩ := of_decide_eq_true hdec
  obtain ⟨v, hg, hl⟩ := (fdsLinked_of_run hrun hkeeps).1
  have h := run_lastWrite hrun (careful_of_keeps hrun hkeeps) (hg.lively hl _ _ hentry)
  exact ⟨tr, s, s.fileOf (s.ramfs.fdTable 0), hrun, h.1.trans hlength, h.2 1 _ hlast⟩

/-- A read through a descriptor whose file is linked, from a position in the file, gives as
much as there is, and of that what was last written. -/
theorem run_read_lastWrite {tr : List (Mount × (FsCall × Int))} (hrun : Run (Fresh L R) (Step L R) tr s)
    (hcare : ∀ x ∈ tr, Careful x) (hstep : Step L R s (.read fd buf count, r) s')
    (hentry : s.through (.read fd buf count) = some entry) (hlinked : s.heap.Linked s.root (s.fileOf entry))
    (hmode : ¬ (s.heap.word entry RamfsFd.flags &&& oRdonly = 0 ∧ s.heap.word entry RamfsFd.flags &&& oRdwr = 0))
    (hpos : s.heap.word entry RamfsFd.position ≤ lengthOf (s.fileOf entry) (tr.filterMap change)) :
    r = (min count (lengthOf (s.fileOf entry) (tr.filterMap change) - s.heap.word entry RamfsFd.position) : Nat) ∧
      ∀ (i : Nat) b, i < r → lastAt (s.fileOf entry) (s.heap.word entry RamfsFd.position + i) (tr.filterMap change) =
        some b → s'.mem.byte (buf + i) = b := by
  obtain ⟨v, hg, hrec⟩ := recorded_of_run hrun hcare
  obtain ⟨hfd, hthrough⟩ := through_read_iff.mp hentry
  obtain ⟨k, j, i, d, f, e, ho, rfl⟩ := hg.opens hthrough hlinked
  have hat := hg.fdAt ho.entry
  have hfile : s.fileOf e.addr = f.addr := hat.file.trans ho.same
  have hf := hrec d (List.mem_of_getElem? ho.dir) f (List.mem_of_getElem? ho.file)
  rw [hfile, ← hf.length, hat.position] at hpos
  rw [hat.flags] at hmode
  have hdone := (hg.read_done_iff ho hstep.1 hfd hmode hstep.2).mpr (Or.inl hpos)
  have hreadable := hg.readable_eq ho count
  rw [if_pos hpos] at hreadable
  have hr : r = (s.readable e.addr count : Nat) := hdone.returned
  rw [hfile, hat.position, ← hf.length, ← hreadable]
  refine ⟨hr, fun n b hn hlast => ?_⟩
  have hcopied := hdone.copied n (by omega)
  rw [hfile, hat.position, (hg.file (List.mem_of_getElem? ho.dir) (List.mem_of_getElem? ho.file)).contents,
    hf.bytes _ b hlast] at hcopied
  exact (Option.some.inj hcopied).symm

theorem run_read_lastWrite_twice : ∃ tr s s' r,
    Run (Fresh .kernelImage bootRodata) (Step .kernelImage bootRodata) tr s ∧
    Step .kernelImage bootRodata s (.read 1 0x2000 9, r) s' ∧ r = 4 ∧ s'.mem.byte 0x2001 = 0x62 := by
  have hdec : rehearses (fun root => [.createFile root 0x1050 0x1060 1, .openFile root 0x1050 oRdwr,
      .openFile root 0x1050 oRdonly, .write 0 0x1010 4, .seek 0 1 seekSet, .write 0 0x1060 1]) fun tr s =>
        s.answers (.read 1 0x2000 9) fun _ r =>
          (∀ x ∈ tr, x.1.KeepsOpen x.2.1 ∧ x.1.Bounded x.2.1) ∧ s.allows .kernelImage bootRodata (.read 1 0x2000 9) ∧
          s.through (.read 1 0x2000 9) = some (s.ramfs.fdTable 1) ∧
          s.heap.word (s.ramfs.fdTable 1) RamfsFd.flags = oRdonly ∧
          s.heap.word (s.ramfs.fdTable 1) RamfsFd.position = 0 ∧ r = 4 ∧
          lastAt (s.fileOf (s.ramfs.fdTable 1)) 1 (tr.filterMap change) = some 0x62 := by decide +kernel
  obtain ⟨tr, s, hrun, hdec⟩ := run_rehearses hdec
  obtain ⟨s', r, hcall, hdec⟩ := call_of_answers hdec
  obtain ⟨hkeeps, hallows, hentry, hflags, hposition, hr, hlast⟩ := of_decide_eq_true hdec
  obtain ⟨v, hg, hl⟩ := (fdsLinked_of_run hrun hkeeps).1
  have hstep : Step .kernelImage bootRodata s (.read 1 0x2000 9, r) s' := ⟨permits_of_allows hallows, hcall⟩
  have h := run_read_lastWrite hrun (careful_of_keeps hrun hkeeps) hstep hentry (hg.lively hl _ _ hentry)
    (by rw [hflags]; decide) (by rw [hposition]; exact Nat.zero_le _)
  rw [hposition] at h
  exact ⟨tr, s, s', r, hrun, hstep, hr, h.2 1 _ (by rw [hr]; decide) hlast⟩

end Mount
end ShompOS
