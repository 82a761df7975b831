import ShompOS.Fs.Reading

/-! A write is a write to an array of bytes.

What a write through a descriptor does to its file, and that it does nothing to any
other, as long as the descriptor's file is linked. A descriptor whose file is gone
may lead to memory that another file has by now. -/
namespace ShompOS
open Memory

/-! ### Bytes over bytes -/

section Overwritten
variable {contents gap bytes : List UInt8} {position i : Nat}

theorem overwritten_written (hgap : gap.length = position - contents.length) (hi : i < bytes.length) :
    (overwritten contents gap bytes position)[position + i]? = bytes[i]? := by
  have hlen : ((contents ++ gap).take position).length = position := by
    rw [List.length_take, List.length_append]
    omega
  unfold overwritten
  rw [List.append_assoc, List.getElem?_append_right (by omega), hlen, Nat.add_sub_cancel_left,
    List.getElem?_append_left hi]

theorem overwritten_kept (hgap : gap.length = position - contents.length) (hi : i < contents.length)
    (hout : ¬ (position ≤ i ∧ i < position + bytes.length)) :
    (overwritten contents gap bytes position)[i]? = contents[i]? := by
  have hlen : ((contents ++ gap).take position).length = position := by
    rw [List.length_take, List.length_append]
    omega
  unfold overwritten
  by_cases hlow : i < position
  · rw [List.append_assoc, List.getElem?_append_left (by omega), List.getElem?_take_of_lt hlow,
      List.getElem?_append_left hi]
  · rw [List.getElem?_append_right (by rw [List.length_append]; omega), List.getElem?_drop]
    congr 1
    rw [List.length_append]
    omega

end Overwritten

/-! ### The volume with one file changed -/

namespace Volume
variable {v : Volume} {fd : Int} {k j : Nat} {i : Fin maxFds} {d d₂ : DirNode} {f f₂ g : FileNode}
  {e e' : OpenFd} {P : Pool}

theorem Opens.changed (ho : v.Opens fd k j i d f e) (P : Pool) (g : FileNode) (e' : OpenFd) :
    d.setFile j g ∈ (v.withOpen k j i P g e').dirs ∧ g ∈ (d.setFile j g).fileNodes := by
  have hk := (List.getElem?_eq_some_iff.mp ho.dir).1
  have hj := (List.getElem?_eq_some_iff.mp ho.file).1
  rw [withOpen_dirs ho.dir]
  exact ⟨List.mem_of_getElem? (List.getElem?_set_self hk), List.mem_of_getElem? (List.getElem?_set_self hj)⟩

/-- The other files are where they were. -/
theorem Opens.others (ho : v.Opens fd k j i d f e) (hd₂ : d₂ ∈ v.dirs) (hf₂ : f₂ ∈ d₂.fileNodes)
    (hne : f₂.addr ≠ f.addr)
    (P : Pool) (g : FileNode) (e' : OpenFd) : ∃ d' ∈ (v.withOpen k j i P g e').dirs, f₂ ∈ d'.fileNodes := by
  obtain ⟨n, hn⟩ := List.getElem?_of_mem hd₂
  obtain ⟨m, hm⟩ := List.getElem?_of_mem hf₂
  rw [withOpen_dirs ho.dir]
  by_cases hkn : k = n
  · rw [← hkn, ho.dir, Option.some.injEq] at hn
    refine ⟨_, List.mem_of_getElem? (List.getElem?_set_self (List.getElem?_eq_some_iff.mp ho.dir).1), ?_⟩
    have hjm : j ≠ m := by
      intro hjm
      rw [← hn, ← hjm, ho.file, Option.some.injEq] at hm
      exact hne (congrArg FileNode.addr hm.symm)
    exact List.mem_of_getElem? ((List.getElem?_set_ne hjm).trans (hn ▸ hm))
  · exact ⟨d₂, List.mem_of_getElem? ((List.getElem?_set_ne hkn).trans hn), hf₂⟩

theorem Opens.outline (ho : v.Opens fd k j i d f e) (P : Pool) (e' : OpenFd) (haddr : g.addr = f.addr)
    (hname : g.name = f.name)
    (htext : g.text = f.text) :
    (v.withOpen k j i P g e').dirs.map Mount.outlineOf = v.dirs.map Mount.outlineOf := by
  have hd : Mount.outlineOf (d.setFile j g) = Mount.outlineOf d := by
    have hfiles : (d.setFile j g).fileNodes.map (fun f => (f.addr, f.name, f.text)) =
        d.fileNodes.map fun f => (f.addr, f.name, f.text) := by
      unfold DirNode.setFile
      rw [List.map_set, haddr, hname, htext]
      apply set_same
      rw [List.getElem?_map, ho.file]
      rfl
    have hlen : (d.setFile j g).fileNodes.length = d.fileNodes.length := List.length_set
    unfold Mount.outlineOf
    rw [hfiles]
    unfold DirNode.record
    rw [hlen]
    rfl
  rw [withOpen_dirs ho.dir, List.map_set, hd]
  apply set_same
  rw [List.getElem?_map, ho.dir]
  rfl

end Volume
namespace Mount
variable {L : Layout} {R : Rodata} {s s' : Mount} {v : Volume} {fd : Int} {buf count entry k j : Nat}
  {r : Int} {i : Fin maxFds}
  {d : DirNode} {f : FileNode} {e : OpenFd} {gap bytes : List UInt8}

/-! ### The law -/

/-- What a write of `count` bytes from `buf` through a descriptor is to have done. -/
structure Written (s : Mount) (entry buf count : Nat) (r : Int) (s' : Mount) : Prop where
  returned : r = count
  size : s'.heap.word (s.fileOf entry) RamfsFile.size =
    max (s.heap.word (s.fileOf entry) RamfsFile.size) (s.position entry + count)
  inside : ∀ i, i < count → (s'.contents (s.fileOf entry))[s.position entry + i]? = some (s.mem.byte (buf + i))
  kept : ∀ i, i < s.heap.word (s.fileOf entry) RamfsFile.size →
    ¬ (s.position entry ≤ i ∧ i < s.position entry + count) →
    (s'.contents (s.fileOf entry))[i]? = (s.contents (s.fileOf entry))[i]?
  position : s'.heap.word entry RamfsFd.position = s.position entry + count
  /-- The descriptors are what they were, so all of those for the file see its new contents. -/
  descriptors : s'.ramfs.fdTable = s.ramfs.fdTable ∧ ∀ i, s.ramfs.fdTable i ≠ 0 →
    s'.fileOf (s.ramfs.fdTable i) = s.fileOf (s.ramfs.fdTable i)
  positions : ∀ i, s.ramfs.fdTable i ≠ 0 → s.ramfs.fdTable i ≠ entry →
    s'.heap.word (s.ramfs.fdTable i) RamfsFd.position = s.heap.word (s.ramfs.fdTable i) RamfsFd.position
  others : ∀ file, s.heap.Linked s.root file → file ≠ s.fileOf entry → s'.contents file = s.contents file
  tree : SameTree s s'

/-- A write that returned moved the descriptor and wrote over its file. -/
theorem write_cases (P : Pool) (f : FileNode) (e : OpenFd) (gap bytes : List UInt8) :
    (e.start f + bytes.length > f.contents.length ∧ (P.allocate (e.start f + bytes.length)).2 = 0 ∧
      f.write P e gap bytes = (P, f, {e with position := e.start f}, -1)) ∨
    ∃ P' g, g.addr = f.addr ∧ g.name = f.name ∧ g.text = f.text ∧
      g.contents = overwritten f.contents gap bytes (e.start f) ∧
      f.write P e gap bytes = (P', g, {e with position := e.start f + bytes.length}, (bytes.length : Int)) := by
  by_cases hlong : e.start f + bytes.length > f.contents.length
  · by_cases hzero : (P.allocate (e.start f + bytes.length)).2 = 0
    · exact Or.inl ⟨hlong, hzero, FileNode.write_full hlong hzero⟩
    · right
      refine ⟨_, _, ?_, ?_, ?_, ?_, FileNode.write_moved hlong hzero⟩ <;> rfl
  · right
    refine ⟨_, _, ?_, ?_, ?_, ?_, FileNode.write_inside hlong⟩ <;> rfl

/-- Every descriptor but the `i`-th is as it was. -/
theorem Good.otherFd (hg : s.Good L R v) {P : Pool} {g : FileNode} {e' : OpenFd}
    (hg' : s'.Good L R (v.withOpen k j i P g e')) {n : Fin maxFds} (hn : s.ramfs.fdTable n ≠ 0) (hni : n ≠ i) :
    ∃ e₂, v.fds n = some e₂ ∧ FdAt s n e₂ ∧ FdAt s' n e₂ := by
  cases hfds : v.fds n with
  | none =>
    rw [hg.table n, hfds] at hn
    exact absurd rfl hn
  | some e₂ => exact ⟨e₂, rfl, hg.fdAt hfds, hg'.fdAt ((Function.update_of_ne hni _ _).trans hfds)⟩

theorem Good.written (hg : s.Good L R v) (ho : v.Opens fd k j i d f e)
    (hgap : gap.length = e.start f - f.contents.length)
    (hbytes : bytes = s.mem.bytesAt buf count)
    (hg' : s'.Good L R (v.withOpen k j i (f.write v.pool e gap bytes).1 (f.write v.pool e gap bytes).2.1
      (f.write v.pool e gap bytes).2.2.1))
    (hr : (f.write v.pool e gap bytes).2.2.2 ≠ -1) : s.Written e.addr buf count
      (f.write v.pool e gap bytes).2.2.2 s' := by
  have hlen : bytes.length = count := by rw [hbytes, length_bytesAt]
  have hd := List.mem_of_getElem? ho.dir
  have hf := List.mem_of_getElem? ho.file
  have hat := hg.file hd hf
  have hfd := hg.fdAt ho.entry
  have hfile : s.fileOf e.addr = f.addr := hfd.file.trans ho.same
  cases write_cases v.pool f e gap bytes with
  | inl h =>
    rw [h.2.2] at hr
    exact absurd rfl hr
  | inr h =>
    obtain ⟨P', g, haddr, hname, htext, hcontents, hw⟩ := h
    rw [hw] at hg' ⊢
    dsimp only at hg' ⊢
    obtain ⟨hd', hgd'⟩ := ho.changed P' g {e with position := e.start f + bytes.length}
    have hat' := hg'.file hd' hgd'
    have hsize' := hat'.size
    have hcontents' := hat'.contents
    rw [haddr, hcontents] at hsize' hcontents'
    have hfd' := hg'.fdAt (i := i) (Function.update_self ..)
    have hother : ∀ {n}, s.ramfs.fdTable n ≠ 0 → n ≠ i → ∃ e₂, v.fds n = some e₂ ∧ FdAt s n e₂ ∧ FdAt s' n e₂ :=
      fun hn hni => hg.otherFd hg' hn hni
    have htable : s'.ramfs.fdTable = s.ramfs.fdTable := by
      funext n
      by_cases hni : n = i
      · rw [hni, hfd.table, hfd'.table]
      · rw [hg'.table n, hg.table n]
        exact congrArg (fun x : Option OpenFd => x.elim 0 OpenFd.addr) (Function.update_of_ne hni _ _)
    have hposition := hg.position_eq ho
    refine ⟨by rw [hlen], ?_, fun n hn => ?_, fun n hn hout => ?_, ?_, ⟨htable, fun n hn => ?_⟩, fun n hn hne => ?_,
      fun file hin hne => ?_, hg.sameTree hg' (ho.outline P' _ haddr hname htext)⟩
    · rw [hfile, hposition, hsize', length_overwritten hgap, hat.size, hlen]
    · rw [hfile, hposition, hcontents', overwritten_written hgap (by omega), hbytes, bytesAt_getElem? _ _ hn]
    · rw [hfile, hat.size] at hn
      rw [hposition] at hout
      rw [hfile, hat.contents, hcontents', overwritten_kept hgap hn (by rw [hlen]; exact hout)]
    · rw [hposition, ← hlen]
      exact hfd'.position
    · by_cases hni : n = i
      · rw [hni, hfd.table, hfd.file]
        exact hfd'.file
      · obtain ⟨e₂, -, h1, h2⟩ := hother hn hni
        rw [h1.table, h1.file, h2.file]
    · have hni : n ≠ i := fun h => hne (h ▸ hfd.table)
      obtain ⟨e₂, -, h1, h2⟩ := hother hn hni
      rw [h1.table, h1.position, h2.position]
    · obtain ⟨d₂, hd₂, f₂, hf₂, rfl⟩ := (hg.owns.linked_iff hg.tree).mp hin
      obtain ⟨d', hd'', hf'⟩ := ho.others hd₂ hf₂ (hfile ▸ hne) P' g {e with position := e.start f + bytes.length}
      rw [(hg.file hd₂ hf₂).contents, (hg'.file hd'' hf').contents]

/-- A write that is not refused, through a descriptor whose file is linked. -/
theorem Good.write_written (hg : s.Good L R v) (hp : s.Permits L R (.write fd buf count))
    (hentry : s.through (.write fd buf count) = some entry)
    (hmode : s.heap.word entry RamfsFd.flags &&& (oWronly ||| oRdwr) ≠ 0)
    (hlinked : s.heap.Linked s.root (s.fileOf entry))
    (hroom : s.position entry + count < addressSpace) (hcall : s.call L R (.write fd buf count) = some (s', r))
    (hr : r ≠ -1) :
    s.Written entry buf count r s' := by
  obtain ⟨hterm, hentry⟩ := through_write_iff.mp hentry
  obtain ⟨k, j, i, d, f, e, ho, rfl⟩ := hg.opens hentry hlinked
  rw [hg.flags_eq ho.entry] at hmode
  rw [hg.position_eq ho] at hroom
  obtain ⟨s₁, gap, hgap, h1, h2, -⟩ := hg.write ho hterm hmode (Buffer.lent hp) (by rw [length_bytesAt]; exact hroom)
  rw [length_bytesAt] at h1
  rw [h1] at hcall
  cases hcall
  exact hg.written ho hgap rfl h2 hr

/-- In a run that keeps clear of files that are gone, and of writes past the end of the
address space, a write is one to an array of bytes. -/
theorem run_written {tr : List (Mount × (FsCall × Int))} (hrun : Run (Fresh L R) (Step L R) tr s)
    (hcare : ∀ x ∈ tr, Careful x) (hstep : Step L R s (.write fd buf count, r) s')
    (hentry : s.through (.write fd buf count) = some entry)
    (hmode : s.heap.word entry RamfsFd.flags &&& (oWronly ||| oRdwr) ≠ 0)
    (hlinked : s.heap.Linked s.root (s.fileOf entry))
    (hroom : s.position entry + count < addressSpace) (hr : r ≠ -1) : s.Written entry buf count r s' := by
  obtain ⟨v, hg⟩ := (good_of_run hrun hcare).1
  exact hg.write_written hstep.1 hentry hmode hlinked hroom hstep.2 hr

theorem run_written_past_end : ∃ tr s entry r s',
    Run (Fresh .kernelImage bootRodata) (Step .kernelImage bootRodata) tr s ∧
    s.contents (s.fileOf entry) = ascii "b" ∧ s.position entry = 3 ∧ s.Written entry 0x1010 4 r s' := by
  have hdec : rehearses (fun root => [.createFile root 0x1050 0x1060 1, .openFile root 0x1050 oRdwr,
    .seek 0 3 seekSet])
      fun tr s => s.answers (.write 0 0x1010 4) fun _ r =>
        (∀ x ∈ tr, x.1.KeepsOpen x.2.1 ∧ x.1.Bounded x.2.1) ∧
        s.allows .kernelImage bootRodata (.write 0 0x1010 4) ∧ s.through (.write 0 0x1010 4) =
          some (s.ramfs.fdTable 0) ∧
        s.heap.word (s.ramfs.fdTable 0) RamfsFd.flags &&& (oWronly ||| oRdwr) ≠ 0 ∧
        s.contents (s.fileOf (s.ramfs.fdTable 0)) = ascii "b" ∧ s.position (s.ramfs.fdTable 0) = 3 ∧
          r ≠ -1 := by decide +kernel
  obtain ⟨tr, s, hrun, hdec⟩ := run_rehearses hdec
  obtain ⟨s', r, hcall, hdec⟩ := call_of_answers hdec
  obtain ⟨hkeeps, hallows, hentry, hmode, hcontents, hposition, hr⟩ := of_decide_eq_true hdec
  obtain ⟨v, hg, hl⟩ := (fdsLinked_of_run hrun hkeeps).1
  refine ⟨tr, s, s.ramfs.fdTable 0, r, s', hrun, hcontents, hposition, ?_⟩
  exact run_written hrun (careful_of_keeps hrun hkeeps)
    ⟨permits_of_allows hallows, hcall⟩ hentry
    hmode (hg.lively hl _ _ hentry) (by rw [hposition]; decide) hr

/-- The name of a directory is where a file was that has been deleted while open. -/
theorem dangling_write_strays : ¬ ∀ tr s s' fd buf count entry r,
    Run (Fresh .kernelImage bootRodata) (Step .kernelImage bootRodata) tr s →
    Step .kernelImage bootRodata s (.write fd buf count, r) s' → s.through (.write fd buf count) = some entry →
    s.heap.word entry RamfsFd.flags &&& (oWronly ||| oRdwr) ≠ 0 → s.position entry + count < addressSpace → r ≠ -1 →
    s.Written entry buf count r s' := by
  have hdec : rehearses (fun root => [.createFile root 0x1050 0x1060 1, .openFile root 0x1050 oRdwr,
    .deleteFile root 0x1050,
      .createDir root 0x1070, .seek 0 319754137 seekSet]) fun _ s =>
        s.answers (.write 0 0x1050 1) fun s' r =>
          s.allows .kernelImage bootRodata (.write 0 0x1050 1) ∧ s.through (.write 0 0x1050 1) =
            some (s.ramfs.fdTable 0) ∧
          s.heap.word (s.ramfs.fdTable 0) RamfsFd.flags &&& (oWronly ||| oRdwr) ≠ 0 ∧
          s.position (s.ramfs.fdTable 0) + 1 < addressSpace ∧ r ≠ -1 ∧ 0 < s.heap.word s.root RamfsDir.subdirCount ∧
          s'.heap.word (s.heap.word (s.heap.word s.root RamfsDir.subdirs) 0) RamfsDir.name ≠
            s.heap.word (s.heap.word (s.heap.word s.root RamfsDir.subdirs) 0) RamfsDir.name := by decide +kernel
  obtain ⟨tr, s, hrun, hdec⟩ := run_rehearses hdec
  obtain ⟨s', r, hcall, hdec⟩ := call_of_answers hdec
  obtain ⟨hallows, hentry, hmode, hroom, hr, hcount, hname⟩ := of_decide_eq_true hdec
  intro h
  have hw := h tr s s' 0 0x1050 1 _ r hrun ⟨permits_of_allows hallows, hcall⟩ hentry hmode hroom hr
  exact hname (hw.tree.record _ (.subdir .root hcount) RamfsDir.name (by decide))

end Mount
end ShompOS
