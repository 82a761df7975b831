import ShompOS.Fs.Modes

/-! A read stays within its file, if its position does.

`ramfs_read` takes the size of the file less the position for what is available. A
seek may have moved the position past the end, and the difference is then a very
large number. -/
namespace ShompOS
open Memory

/-- A stored word changes its four bytes only. -/
theorem byte_store32_ne (m : Memory) {a v x : Nat} (ha : a + 4 ≤ addressSpace) (hx : ¬ (a ≤ x ∧ x < a + 4)) :
    (m.store32 a v).byte x = m.byte x := by
  unfold store32
  rw [wrap_eq (by omega), wrap_eq (by omega), wrap_eq (by omega), wrap_eq (by omega)]
  rw [byte_store8, byte_store8, byte_store8, byte_store8, if_neg (by omega), if_neg (by omega), if_neg (by omega),
    if_neg (by omega)]

/-- The bytes that `ramfs_read` copies: where they begin, and how many. -/
def Ramfs.readSource (s : Ramfs) (fdEntry count : Nat) : Nat × Nat :=
  let file := s.heap.word fdEntry RamfsFd.file
  let position := s.heap.word fdEntry RamfsFd.position
  let available := wrap (s.heap.word file RamfsFile.size + (addressSpace - position))
  (wrap (s.heap.word file RamfsFile.data + position), if count > available then available else count)

/-- What `ramfs_read` does with a descriptor that passes its checks. -/
theorem Ramfs.ramfsRead_accepted {s : Ramfs} {fd : Int} {fdEntry count src n : Nat} (hfd : s.fdEntry fd = some fdEntry)
    (hstdin : fd ≠ stdinFileno)
    (hmode : ¬ (s.heap.word fdEntry RamfsFd.flags &&& oRdonly = 0 ∧ s.heap.word fdEntry RamfsFd.flags &&& oRdwr = 0))
    (hfile : s.heap.word fdEntry RamfsFd.file ≠ 0) (hsource : s.readSource fdEntry count = (src, n))
    (keyboard : Ramfs → Option Ramfs) (buf : Nat) :
    s.ramfsRead keyboard fd buf count =
      some ({s with
        heap := ((s.heap.memcpy buf src n).setWord fdEntry RamfsFd.position
          (wrap ((s.heap.memcpy buf src n).word fdEntry RamfsFd.position + n)))}, toSigned n) := by
  obtain ⟨rfl, rfl⟩ := Prod.mk.inj hsource
  unfold Ramfs.ramfsRead
  rw [hfd]
  dsimp only
  rw [if_neg hstdin, if_neg hmode, if_neg hfile]

namespace Mount
variable {L : Layout} {R : Rodata} {s s' : Mount} {v : Volume} {fd : Int} {buf count entry k j : Nat}
  {r : Int} {i : Fin maxFds}
  {d : DirNode} {f : FileNode} {e : OpenFd}

/-- How much there is to read, up to `count`. -/
def readable (s : Mount) (entry count : Nat) : Nat :=
  if s.heap.word entry RamfsFd.position ≤ s.heap.word (s.fileOf entry) RamfsFile.size then
    min count (s.heap.word (s.fileOf entry) RamfsFile.size - s.heap.word entry RamfsFd.position)
  else 0

/-- What a read through a descriptor is to have done. -/
structure ReadDone (s : Mount) (entry buf count : Nat) (r : Int) (s' : Mount) : Prop where
  returned : r = s.readable entry count
  copied : ∀ i, i < s.readable entry count →
    (s.contents (s.fileOf entry))[s.heap.word entry RamfsFd.position + i]? = some (s'.mem.byte (buf + i))
  position : s'.heap.word entry RamfsFd.position = s.heap.word entry RamfsFd.position + s.readable entry count
  /-- What is copied is in the file's data. -/
  inside : ∀ i, i < (s.ramfs.readSource entry count).2 →
    s.heap.word (s.fileOf entry) RamfsFile.data ≤ (s.ramfs.readSource entry count).1 + i ∧
      (s.ramfs.readSource entry count).1 + i <
        s.heap.word (s.fileOf entry) RamfsFile.data + s.heap.word (s.fileOf entry) RamfsFile.size
  frame : ∀ x, ¬ (buf ≤ x ∧ x < buf + s.readable entry count) →
    ¬ (entry + 4 * RamfsFd.position ≤ x ∧ x < entry + 4 * RamfsFd.position + 4) → s'.mem.byte x = s.mem.byte x
  rest : s' = s.withHeap ⟨s'.mem, s.heap.currentBrk⟩

/-- What the code takes for available, in terms of the volume. -/
theorem Good.readSource_eq (hg : s.Good L R v) (ho : v.Opens fd k j i d f e) (count : Nat) :
    s.ramfs.readSource e.addr count = (wrap (f.data + e.position), e.readCount f count) := by
  have hfd := hg.fdAt ho.entry
  have hfile : s.heap.word e.addr RamfsFd.file = f.addr := hfd.file.trans ho.same
  have hat := hg.file (List.mem_of_getElem? ho.dir) (List.mem_of_getElem? ho.file)
  unfold Ramfs.readSource
  dsimp only
  rw [hfile, hfd.position, hat.size, hat.data]
  rfl

theorem Good.readable_eq (hg : s.Good L R v) (ho : v.Opens fd k j i d f e) (count : Nat) :
    s.readable e.addr count = if e.position ≤ f.contents.length then min count
      (f.contents.length - e.position) else 0 := by
  have hfd := hg.fdAt ho.entry
  have hfile : s.fileOf e.addr = f.addr := hfd.file.trans ho.same
  have hat := hg.file (List.mem_of_getElem? ho.dir) (List.mem_of_getElem? ho.file)
  unfold readable
  rw [hfile, hfd.position, hat.size]

/-- From a position in the file as much is read as there is. -/
theorem readCount_inside {e : OpenFd} {f : FileNode} (hsize : f.contents.length < addressSpace)
    (hin : e.position ≤ f.contents.length) (count : Nat) :
    e.readCount f count = min count (f.contents.length - e.position) := by
  unfold OpenFd.readCount
  rw [wrap_sub hin hsize]
  dsimp only
  split <;> omega

/-- From a position past its end something is read all the same. -/
theorem readCount_outside {e : OpenFd} {f : FileNode} (hpos : e.position < addressSpace)
    (hout : f.contents.length < e.position) (hcount : count ≠ 0) : e.readCount f count ≠ 0 := by
  have havail : wrap (f.contents.length + (addressSpace - e.position)) =
    f.contents.length + (addressSpace - e.position) :=
    wrap_eq (by omega)
  unfold OpenFd.readCount
  rw [havail]
  dsimp only
  split <;> omega

/-- The words of a cell are 32-bit words. -/
theorem Good.position_lt (hg : s.Good L R v) (hi : v.fds i = some e) : e.position < addressSpace := by
  rw [← (hg.fdAt hi).position]
  exact load32_lt _ _

theorem Good.size_lt (hg : s.Good L R v) (hd : d ∈ v.dirs) (hf : f ∈ d.fileNodes) :
    f.contents.length < 2 ^ maxBlockScale := by
  have hcell : (f.data, Contents.bytes f.contents) ∈ v.cells ++ heldCells s.held s.mem :=
    List.mem_append_left _ (DirNode.mem_cells hd (FileNode.mem_cells hf (List.mem_of_getElem? (i := 2) rfl)))
  have hb := (hg.owns.bounds hcell).2.2
  have h9 : headerSize = 9 := rfl
  rw [Contents.size_bytes] at hb
  omega

theorem Good.read_done_iff (hg : s.Good L R v) (ho : v.Opens fd k j i d f e) (hp : s.Permits L R (.read fd buf count))
    (hstdin : fd ≠ stdinFileno) (hmode : ¬ (e.flags &&& oRdonly = 0 ∧ e.flags &&& oRdwr = 0))
    (hcall : s.call L R (.read fd buf count) = some (s', r)) :
    s.ReadDone e.addr buf count r s' ↔ e.position ≤ f.contents.length ∨ count = 0 := by
  have hfd := hg.fdAt ho.entry
  have hd := List.mem_of_getElem? ho.dir
  have hf := List.mem_of_getElem? ho.file
  have hat := hg.file hd hf
  have hfile : s.fileOf e.addr = f.addr := hfd.file.trans ho.same
  have hsize := hg.size_lt hd hf
  have hM : 2 ^ maxBlockScale < 2 ^ 31 := by decide
  have hposlt := hg.position_lt ho.entry
  have hroom := hp.1.2
  have hentry := (hg.owns.bounds (List.mem_append_left _ (OpenFd.mem_cells ho.entry (List.mem_singleton_self _)))).2.1
  have hle := e.readCount_le f count
  -- the state after, as the code computes it
  have hf0 : s.heap.word e.addr RamfsFd.file ≠ 0 := by
    rw [show s.heap.word e.addr RamfsFd.file = f.addr from hfile]
    exact hg.owns.ne_zero (List.mem_append_left _
      (DirNode.mem_cells hd (FileNode.mem_cells hf (List.mem_cons_self ..))))
  have hcode := Ramfs.ramfsRead_accepted (hg.fdEntry_eq ho) hstdin (by rw [hfd.flags]; exact hmode) hf0
    (hg.readSource_eq ho count) some buf
  obtain ⟨s₁, h1, h2, h3, h4, h5, h6⟩ := hg.read ho hstdin hmode hp.1 hp.2
  rw [h1] at hcall
  cases hcall
  dsimp only [call] at h1
  rw [hcode] at h1
  have hs₁ := (Prod.mk.inj (Option.some.inj h1)).1
  constructor
  · intro h
    by_contra hnot
    rw [not_or, Nat.not_le] at hnot
    have hne := readCount_outside hposlt hnot.1 hnot.2
    have hzero : s.readable e.addr count = 0 := by
      rw [hg.readable_eq ho]
      exact if_neg (by omega)
    have hret := h.returned
    rw [hzero] at hret
    unfold toSigned at hret
    split at hret <;> omega
  · intro h
    have hcount : e.readCount f count = s.readable e.addr count := by
      rw [hg.readable_eq ho]
      by_cases hin : e.position ≤ f.contents.length
      · rw [if_pos hin]
        exact readCount_inside (by omega) hin count
      · rw [if_neg hin]
        omega
    have hin : e.readCount f count ≠ 0 → e.position + e.readCount f count ≤ f.contents.length := by
      intro hne
      rw [hcount, hg.readable_eq ho] at hne ⊢
      split at hne
      · next hin =>
        rw [if_pos hin]
        omega
      · exact absurd rfl hne
    have hpos' : wrap (e.position + e.readCount f count) = e.position + e.readCount f count := by
      by_cases hz : e.readCount f count = 0
      · rw [hz, Nat.add_zero]
        exact wrap_eq hposlt
      · exact wrap_eq (by have := hin hz; omega)
    have hfd' := h2.fdAt (i := i) (Function.update_self ..)
    refine ⟨?_, fun n hn => ?_, ?_, fun n hn => ?_, fun x hx hx' => ?_, ?_⟩
    · rw [← hcount]
      exact toSigned_eq (by
        by_cases hz : e.readCount f count = 0
        · omega
        · have := hin hz
          omega)
    · rw [← hcount] at hn
      rw [hfile, hat.contents, hfd.position]
      exact h6 (hin (by omega)) n hn
    · rw [hfd.position, ← hcount, ← hpos']
      exact hfd'.position
    · rw [hg.readSource_eq ho] at hn ⊢
      dsimp only at hn ⊢
      have hlt := hin (by omega)
      have hup := (hg.owns.bounds (List.mem_append_left _
        (DirNode.mem_cells hd (FileNode.mem_cells hf (List.mem_of_getElem? (i := 2) rfl))))).2.1
      have hpM := two_pow_pos' maxBlockScale
      rw [Contents.size_bytes] at hup
      rw [hfile, hat.data, hat.size, wrap_eq (by omega)]
      omega
    · rw [← hcount] at hx
      rw [← hs₁]
      have h2 : RamfsFd.position = 2 := rfl
      have h16 : (Contents.words [i, e.file, e.position, e.flags]).size = 16 := rfl
      have hw : wrap (e.addr + 4 * RamfsFd.position) = e.addr + 4 * RamfsFd.position := wrap_eq (by omega)
      refine (byte_store32_ne _ (by rw [hw]; omega) (by rw [hw]; exact hx')).trans ?_
      exact memcpy_outside _ _ _ (by omega) hx
    · rw [← hs₁]
      rfl

/-- As long as no open file is deleted and no write goes past the end of the address
space, a read does what it is to do if the position is in the file or nothing is asked
for, and only then. -/
theorem run_read_iff {tr : List (Mount × (FsCall × Int))} (hrun : Run (Fresh L R) (Step L R) tr s)
    (hkeeps : ∀ x ∈ tr, x.1.KeepsOpen x.2.1 ∧ x.1.Bounded x.2.1) (hstep : Step L R s (.read fd buf count, r) s')
    (hfd : fd ≠ stdinFileno) (hentry : s.ramfs.fdEntry fd = some entry)
    (hmode : ¬ (s.heap.word entry RamfsFd.flags &&& oRdonly = 0 ∧ s.heap.word entry RamfsFd.flags &&& oRdwr = 0)) :
    s.ReadDone entry buf count r s' ↔
      s.heap.word entry RamfsFd.position ≤ s.heap.word (s.fileOf entry) RamfsFile.size ∨ count = 0 := by
  obtain ⟨v, hg, hlinked⟩ := (fdsLinked_of_run hrun hkeeps).1
  have hl := hg.lively hlinked (.read fd buf count) entry (through_read_iff.mpr ⟨hfd, hentry⟩)
  obtain ⟨k, j, i, d, f, e, ho, rfl⟩ := hg.opens hentry hl
  have hat := hg.fdAt ho.entry
  rw [hat.flags] at hmode
  rw [hg.read_done_iff ho hstep.1 hfd hmode hstep.2, hat.position, hat.file, ho.same,
    (hg.file (List.mem_of_getElem? ho.dir) (List.mem_of_getElem? ho.file)).size]

theorem run_read_iff_short : ∃ tr s entry r s',
    Run (Fresh .kernelImage bootRodata) (Step .kernelImage bootRodata) tr s ∧
    s.ramfs.fdEntry 1 = some entry ∧ s.ReadDone entry 0x2000 4 r s' ∧ r = 1 := by
  have hdec : rehearses (fun root => [.createFile root 0x1050 0x1060 1, .openFile root 0x1050 oRdonly,
      .openFile root 0x1050 oRdonly]) fun tr s =>
        s.answers (.read 1 0x2000 4) fun _ r =>
          (∀ x ∈ tr, x.1.KeepsOpen x.2.1 ∧ x.1.Bounded x.2.1) ∧ s.allows .kernelImage bootRodata (.read 1 0x2000 4) ∧
          s.ramfs.fdEntry 1 = some (s.ramfs.fdTable 1) ∧ s.heap.word (s.ramfs.fdTable 1) RamfsFd.flags = oRdonly ∧
          s.heap.word (s.ramfs.fdTable 1) RamfsFd.position = 0 ∧ r = 1 := by decide +kernel
  obtain ⟨tr, s, hrun, hdec⟩ := run_rehearses hdec
  obtain ⟨s', r, hcall, hdec⟩ := call_of_answers hdec
  obtain ⟨hkeeps, hallows, hentry, hflags, hposition, hr⟩ := of_decide_eq_true hdec
  refine ⟨tr, s, s.ramfs.fdTable 1, r, s', hrun, hentry, ?_, hr⟩
  refine (run_read_iff hrun hkeeps ⟨permits_of_allows hallows, hcall⟩ (by decide) hentry ?_).mpr ?_
  · rw [hflags]
    decide
  · rw [hposition]
    exact Or.inl (Nat.zero_le _)

/-- From five bytes behind the start of a file of one byte four bytes are read. -/
theorem read_past_end : ¬ ∀ tr s fd buf count entry r s',
    Run (Fresh .kernelImage bootRodata) (Step .kernelImage bootRodata) tr s →
    Step .kernelImage bootRodata s (.read fd buf count, r) s' → fd ≠ stdinFileno → s.ramfs.fdEntry fd = some entry →
    ¬ (s.heap.word entry RamfsFd.flags &&& oRdonly = 0 ∧ s.heap.word entry RamfsFd.flags &&& oRdwr = 0) →
    s.ReadDone entry buf count r s' := by
  have hdec : rehearses (fun root => [.createFile root 0x1050 0x1060 1, .openFile root 0x1050 oRdonly,
      .openFile root 0x1050 oRdonly, .seek 1 5 seekSet]) fun _ s =>
        s.answers (.read 1 0x2000 4) fun _ r =>
          s.allows .kernelImage bootRodata (.read 1 0x2000 4) ∧ s.ramfs.fdEntry 1 = some (s.ramfs.fdTable 1) ∧
          s.heap.word (s.ramfs.fdTable 1) RamfsFd.flags = oRdonly ∧ s.readable (s.ramfs.fdTable 1) 4 = 0 ∧ r = 4 := by
    decide +kernel
  obtain ⟨tr, s, hrun, hdec⟩ := run_rehearses hdec
  obtain ⟨s', r, hcall, hdec⟩ := call_of_answers hdec
  obtain ⟨hallows, hentry, hflags, hzero, hr⟩ := of_decide_eq_true hdec
  intro h
  have hdone := h tr s 1 0x2000 4 _ r s' hrun ⟨permits_of_allows hallows, hcall⟩ (by decide) hentry
    (by rw [hflags]; decide)
  have hret := hdone.returned
  rw [hzero, hr] at hret
  exact absurd hret (by decide)

end Mount
end ShompOS
