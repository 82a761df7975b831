import ShompOS.Fs.Modes
import ShompOS.Heap.Invariant

/-! Writes that fail.

A write that is refused does nothing. One that finds no memory for a longer file has
by then moved the descriptor, if it appends, to the end of the file. -/
namespace ShompOS
open Memory

/-- The allocated blocks are those of the cells. -/
theorem Owns.allocatedBlock_iff {L : Layout} {S : Nat → UInt8} {P : Pool} {h : Heap} {cs : List Cell}
    (ho : Owns L S P h cs)
    (a : Nat) : h.AllocatedBlock a ↔ a + headerSize ∈ cs.map Prod.fst := by
  rw [ho.represents.allocatedBlock_iff, List.mem_map]
  constructor
  · rintro ⟨t, ht⟩
    exact ho.used a t ht
  · rintro ⟨c, hc, hca⟩
    obtain ⟨b, t, hcb, hb, -⟩ := ho.block c hc
    exact ⟨t, by rwa [show a = b by omega]⟩

namespace Mount
variable {L : Layout} {R : Rodata} {s s' : Mount} {v v' : Volume} {fd : Int} {buf count entry : Nat}
  {r : Int} {i : Fin maxFds}
  {e : OpenFd}

/-- Files, descriptors and blocks are as before. -/
structure Untouched (s s' : Mount) : Prop where
  files : SameFiles s s'
  table : s'.ramfs.fdTable = s.ramfs.fdTable
  descriptors : ∀ i, s.ramfs.fdTable i ≠ 0 → ∀ k, k < 4 → s'.heap.word (s.ramfs.fdTable i) k =
    s.heap.word (s.ramfs.fdTable i) k
  blocks : ∀ a, s'.heap.AllocatedBlock a ↔ s.heap.AllocatedBlock a

/-- That is so if the volume is as before, but for the pool. -/
theorem Good.untouched (hg : s.Good L R v) (hg' : s'.Good L R v') (hdirs : v'.dirs = v.dirs) (hfds : v'.fds = v.fds)
    (hlost : v'.lost = v.lost) (hheld : s'.held = s.held) : s.Untouched s' := by
  have hfd : ∀ n, s.ramfs.fdTable n ≠ 0 → ∃ e, v.fds n = some e := by
    intro n hn
    cases hfds : v.fds n with
    | none =>
      rw [hg.table n, hfds] at hn
      exact absurd rfl hn
    | some e => exact ⟨e, rfl⟩
  refine ⟨⟨hg.sameTree hg' (by rw [hdirs]), fun file hin => ?_⟩, funext fun n => ?_, fun n hn k hk => ?_, fun a => ?_⟩
  · obtain ⟨d, hd, f, hf, rfl⟩ := (hg.owns.linked_iff hg.tree).mp hin
    rw [(hg.file hd hf).contents, (hg'.file (hdirs ▸ hd) hf).contents]
  · rw [hg'.table n, hg.table n, hfds]
  · obtain ⟨e, he⟩ := hfd n hn
    obtain ⟨w, hw⟩ : ∃ w, [(n : Nat), e.file, e.position, e.flags][k]? = some w := ⟨_, List.getElem?_eq_getElem hk⟩
    have hcell : ∀ {u : Volume}, u.fds n = some e →
      (e.addr, Contents.words [n, e.file, e.position, e.flags]) ∈ u.cells :=
      fun hu => OpenFd.mem_cells hu (List.mem_singleton_self _)
    rw [(hg.fdAt he).table, hg.owns.word_eq (List.mem_append_left _ (hcell he)) hw]
    exact hg'.owns.word_eq (List.mem_append_left _ (hcell (hfds ▸ he))) hw
  · rw [hg'.owns.allocatedBlock_iff, hg.owns.allocatedBlock_iff, List.map_append, List.map_append,
      Volume.cells_congr hdirs hfds hlost, hheld, heldCells_addrs, heldCells_addrs]

/-- A write that finds no memory for a longer file, through a descriptor that appends and is
somewhere else. -/
def Repositions (L : Layout) (s : Mount) (entry count : Nat) : Prop :=
  s.heap.word entry RamfsFd.flags &&& (oWronly ||| oRdwr) ≠ 0 ∧ s.heap.word entry RamfsFd.flags &&& oAppend ≠ 0 ∧
    s.heap.word entry RamfsFd.position ≠ s.heap.word (s.fileOf entry) RamfsFile.size ∧ s.Full L entry count

theorem start_ne_iff (e : OpenFd) (f : FileNode) :
    e.start f ≠ e.position ↔ e.flags &&& oAppend ≠ 0 ∧ e.position ≠ f.contents.length := by
  unfold OpenFd.start
  by_cases h : e.flags &&& oAppend ≠ 0
  · rw [if_pos h]
    exact ⟨fun hne => ⟨h, hne.symm⟩, fun hne => hne.2.symm⟩
  · rw [if_neg h]
    exact ⟨fun hne => absurd rfl hne, fun hne => absurd hne.1 h⟩

theorem Good.repositions_iff (hg : s.Good L R v) (ho : v.Opens fd k j i d f e)
    (hterm : ¬ (fd = stdoutFileno ∨ fd = stderrFileno))
    (hmode : e.flags &&& (oWronly ||| oRdwr) ≠ 0) :
    (∃ entry, s.through (.write fd buf count) = some entry ∧ s.Repositions L entry count) ↔
      e.start f ≠ e.position ∧ s.Full L e.addr count := by
  have hat := hg.fdAt ho.entry
  have hfile := hg.file (List.mem_of_getElem? ho.dir) (List.mem_of_getElem? ho.file)
  have hentry : s.through (.write fd buf count) = some e.addr := through_write_iff.mpr ⟨hterm, hg.fdEntry_eq ho⟩
  unfold Repositions
  rw [start_ne_iff]
  constructor
  · rintro ⟨entry, h, -, h1, h2, h3⟩
    rw [hentry, Option.some.injEq] at h
    subst h
    rw [hat.flags] at h1
    rw [hat.position, hat.file, ho.same, hfile.size] at h2
    exact ⟨⟨h1, h2⟩, h3⟩
  · rintro ⟨⟨h1, h2⟩, h3⟩
    refine ⟨e.addr, hentry, ?_, ?_, ?_, h3⟩
    · rw [hat.flags]
      exact hmode
    · rw [hat.flags]
      exact h1
    · rw [hat.position, hat.file, ho.same, hfile.size]
      exact h2

/-- A write that fails leaves everything as it was unless it repositions the descriptor. -/
theorem Good.write_fails_iff (hg : s.Good L R v) (hl : s.Lively (.write fd buf count))
    (hb : s.Bounded (.write fd buf count))
    (hp : s.Permits L R (.write fd buf count)) (hcall : s.call L R (.write fd buf count) = some (s', r)) :
    (r = -1 → s.Untouched s') ↔ ¬ ∃ entry, s.through (.write fd buf count) = some entry ∧
      s.Repositions L entry count := by
  obtain ⟨v', hg', -, hheld, heff⟩ := hg.step_write hp hl hb hcall
  cases heff with
  | null h => exact h.elim
  | deleteFile _ _ _ hc => cases hc with
    | inl hc => cases hc
    | inr hc => cases hc
  | @closed _ n hn hclosed =>
    cases hn
    refine iff_of_true (fun _ => hg.untouched hg' rfl rfl rfl hheld) ?_
    rintro ⟨entry, hentry, -⟩
    obtain ⟨i, e, hi, he, -⟩ := hg.entry (through_write_iff.mp hentry).2
    rw [hclosed i hi] at he
    cases he
  | terminal hi he hterm =>
    refine iff_of_true (fun _ => hg.untouched hg' rfl rfl rfl hheld) ?_
    rintro ⟨entry, hentry, -⟩
    exact (through_write_iff.mp hentry).1 hterm
  | @writeRefused _ _ _ k j i d f e ho hterm hmode =>
    refine iff_of_true (fun _ => hg.untouched hg' rfl rfl rfl hheld) ?_
    rintro ⟨entry, hentry, hmode', -⟩
    have hsome := (through_write_iff.mp hentry).2
    rw [hg.fdEntry_eq ho, Option.some.injEq] at hsome
    rw [← hsome, hg.flags_eq ho.entry] at hmode'
    exact hmode' hmode
  | @write _ _ _ k j i d f e gap ho hterm hmode hgap =>
    have hat := hg.fdAt ho.entry
    rw [hg.repositions_iff ho hterm hmode, hg.full_iff ho]
    cases write_cases v.pool f e gap (s.mem.bytesAt buf count) with
    | inl h =>
      obtain ⟨hlong, hzero, hw⟩ := h
      rw [length_bytesAt] at hlong hzero
      rw [hw] at hg' ⊢
      dsimp only at hg' ⊢
      have hat' := hg'.fdAt (i := i) (Function.update_self ..)
      constructor
      · intro h hn
        have hpos := (h rfl).descriptors i (by rw [hat.table]; exact hat.ne_zero) RamfsFd.position (by decide)
        rw [hat.table, hat.position] at hpos
        exact hn.1 (hat'.position.symm.trans hpos)
      · intro hn _
        have hstart : e.start f = e.position := by_contra fun hne => hn ⟨hne, hlong, hzero⟩
        refine hg.untouched hg' ?_ ?_ rfl hheld
        · have hsame : d.setFile j f = d := by
            unfold DirNode.setFile
            rw [set_same ho.file]
          rw [Volume.withOpen_dirs ho.dir, hsame, set_same ho.dir]
        · unfold Volume.withOpen
          rw [hstart]
          exact Function.update_eq_self_iff.mpr ho.entry.symm
    | inr h =>
      obtain ⟨P', g, -, -, -, -, hw⟩ := h
      refine iff_of_true (fun he => ?_) fun hn => ?_
      · rw [hw] at he
        dsimp only at he
        omega
      · rw [FileNode.write_full (by rw [length_bytesAt]; exact hn.2.1) (by rw [length_bytesAt]; exact hn.2.2)] at hw
        have hret := congrArg (fun x => x.2.2.2) hw
        dsimp only at hret
        omega

/-- As long as no open file is deleted and no write goes past the end of the address
space, a write that returns -1 changes nothing, unless it is one that repositions the
descriptor. -/
theorem run_write_fails_iff {tr : List (Mount × (FsCall × Int))} (hrun : Run (Fresh L R) (Step L R) tr s)
    (hkeeps : ∀ x ∈ tr, x.1.KeepsOpen x.2.1 ∧ x.1.Bounded x.2.1) (hstep : Step L R s (.write fd buf count, r) s')
    (hb : s.Bounded (.write fd buf count)) :
    (r = -1 → s.Untouched s') ↔ ¬ ∃ entry, s.through (.write fd buf count) = some entry ∧
      s.Repositions L entry count := by
  obtain ⟨v, hg, hlinked⟩ := (fdsLinked_of_run hrun hkeeps).1
  exact hg.write_fails_iff (hg.lively hlinked _) hb hstep.1 hstep.2

/-- A caller may write as much as no block can hold. -/
theorem permits_long_write (s : Mount) (fd : Int) : s.Permits .kernelImage bootRodata (.write fd 0x100000 0x8000) := by
  refine ⟨fun i hi => Or.inl ⟨?_, ?_⟩, by decide⟩
  · unfold heapLowerBound
    omega
  · have hlist : Layout.kernelImage.freeList = 0x300000 := rfl
    unfold Layout.ListByte
    omega

/-- A write that is too long, to a file that is not appended to. -/
theorem run_write_fails_iff_long : ∃ tr s s', Run (Fresh .kernelImage bootRodata) (Step .kernelImage bootRodata) tr s ∧
    Step .kernelImage bootRodata s (.write 0 0x100000 0x8000, -1) s' ∧ s.Untouched s' := by
  have hdec : rehearses (fun root => [.createFile root 0x1050 0x1060 1,
    .openFile root 0x1050 oWronly]) fun tr s =>
        s.answers (.write 0 0x100000 0x8000) fun _ r =>
          (∀ x ∈ tr, x.1.KeepsOpen x.2.1 ∧ x.1.Bounded x.2.1) ∧ s.Bounded (.write 0 0x100000 0x8000) ∧
          s.through (.write 0 0x100000 0x8000) = some (s.ramfs.fdTable 0) ∧
          s.heap.word (s.ramfs.fdTable 0) RamfsFd.flags &&& oAppend = 0 ∧ r = -1 := by decide +kernel
  obtain ⟨tr, s, hrun, hdec⟩ := run_rehearses hdec
  obtain ⟨s', r, hcall, hdec⟩ := call_of_answers hdec
  obtain ⟨hkeeps, hb, hthrough, happend, rfl⟩ := of_decide_eq_true hdec
  have hstep : Step .kernelImage bootRodata s (.write 0 0x100000 0x8000, -1) s' := ⟨permits_long_write s 0, hcall⟩
  refine ⟨tr, s, s', hrun, hstep, (run_write_fails_iff hrun hkeeps hstep hb).mpr ?_ rfl⟩
  rintro ⟨entry, hentry, -, happend', -⟩
  rw [hthrough, Option.some.injEq] at hentry
  exact happend' (hentry ▸ happend)

/-- More than a block can hold is appended to a file of one byte: nothing is written,
but the descriptor has moved from 0 to 1. -/
theorem failed_append_moves : ¬ ∀ tr s fd buf count r s',
    Run (Fresh .kernelImage bootRodata) (Step .kernelImage bootRodata) tr s →
    Step .kernelImage bootRodata s (.write fd buf count, r) s' → r = -1 → s.Untouched s' := by
  have hdec : rehearses (fun root => [.createFile root 0x1050 0x1060 1, .openFile root 0x1050 (oWronly ||| oAppend)])
      fun _ s => s.answers (.write 0 0x100000 0x8000) fun s' r =>
        r = -1 ∧ s.ramfs.fdTable 0 ≠ 0 ∧ s.heap.word (s.ramfs.fdTable 0) RamfsFd.position = 0 ∧
        s'.heap.word (s.ramfs.fdTable 0) RamfsFd.position = 1 := by decide +kernel
  obtain ⟨tr, s, hrun, hdec⟩ := run_rehearses hdec
  obtain ⟨s', r, hcall, hdec⟩ := call_of_answers hdec
  obtain ⟨rfl, hopen, hbefore, hafter⟩ := of_decide_eq_true hdec
  intro h
  have hsame := (h tr s 0 0x100000 0x8000 (-1) s' hrun
    ⟨permits_long_write s 0, hcall⟩ rfl).descriptors 0 hopen RamfsFd.position
    (by decide)
  rw [hbefore, hafter] at hsame
  cases hsame

end Mount
end ShompOS
