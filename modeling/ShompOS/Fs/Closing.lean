import ShompOS.Fs.Table

/-! What closing leaves behind.

`ramfs_close` passes `free` the address of its own variable, which `free` refuses,
and sets the table's entry to `NULL`: the block of the descriptor stays allocated,
and nothing points to it any more. -/
namespace ShompOS
open Memory

namespace Volume
variable {v w : Volume} {i : Fin maxFds} {e : OpenFd}

/-- Opening adds the cell of the descriptor, and nothing else. -/
theorem openPath_adds {d : DirNode} (hd : d ∈ v.dirs) (text : List UInt8) (flags found : Nat)
    (hi : v.fds i = none) (hi' : (v.openPath d text flags found).1.fds i = some e) :
    (v.openPath d text flags found).1.fds = Function.update v.fds i (some e) ∧
      (v.openPath d text flags found).1.cells.Perm (e.cells i ++ v.cells) := by
  obtain ⟨hdirs, hlost⟩ := openPath_dirs v d text flags found
  cases openPath_fds hd text flags found with
  | inl hf =>
    rw [hf.1, hi] at hi'
    cases hi'
  | inr hf =>
    obtain ⟨n, e', -, -, -, -, -, hf⟩ := hf
    have hin : i = n := by_contra fun hne => by
      rw [hf, Function.update_of_ne hne, hi] at hi'
      cases hi'
    subst hin
    rw [hf, Function.update_self, Option.some.injEq] at hi'
    subst hi'
    have hcells := withFd_perm hi v.pool e'
    rw [← cells_congr (w := (v.openPath d text flags found).1) (by rw [hdirs]) (by rw [hf]) (by rw [hlost])] at hcells
    exact ⟨hf, hcells⟩

end Volume

namespace Mount
variable {L : Layout} {R : Rodata} {s s₁ s₂ : Mount} {v : Volume} {fd r : Int} {root path flags entry fdPtr : Nat}

/-- The same blocks, the same table and the same count. -/
structure HeapNeutral (s s' : Mount) : Prop where
  blocks : ∀ a, s'.heap.AllocatedBlock a ↔ s.heap.AllocatedBlock a
  table : s'.ramfs.fdTable = s.ramfs.fdTable
  count : s'.ramfs.fdCount = s.ramfs.fdCount

/-- The table is as before, and the block of the descriptor is one that was not allocated
and now is. -/
theorem Good.open_close (hg : s.Good L R v) (hopen : Step L R s (.openFile root path flags, fd) s₁)
    (hnew : s.ramfs.fdEntry fd = none) (hentry : s₁.ramfs.fdEntry fd = some entry)
    (hclose : Step L R s₁ (.close fd fdPtr, r) s₂) : s₂.ramfs.fdTable = s.ramfs.fdTable ∧
      ∃ b, entry = b + headerSize ∧ ¬ s.heap.AllocatedBlock b ∧ ∀ a, s₂.heap.AllocatedBlock a ↔ a = b ∨
        s.heap.AllocatedBlock a := by
  obtain ⟨v₁, hg₁, -, hheld₁, heff⟩ := hg.step_openFile hopen.1 hopen.2
  obtain ⟨i, e, hi, he, rfl, -⟩ := hg₁.entry hentry
  have hnone : v.fds i = none := hg.closed_of_none hnew i hi
  have hadds : v₁.fds = Function.update v.fds i (some e) ∧ v₁.cells.Perm (e.cells i ++ v.cells) := by
    cases heff with
    | null =>
      rw [hnone] at he
      cases he
    | deleteFile _ _ _ hc => cases hc with
      | inl hc => cases hc
      | inr hc => cases hc
    | openFile hd => exact Volume.openPath_adds hd _ _ _ hnone he
    | closed hn => cases hn
  obtain ⟨s', hcall', hg₂, hcalm⟩ := hg₁.close hi he hclose.1
  rw [hclose.2] at hcall'
  obtain ⟨rfl, -⟩ := Prod.mk.inj (Option.some.inj hcall')
  have haddrs : (((v₁.closeFd i e).cells ++ heldCells s₂.held s₂.mem).map Prod.fst).Perm
      (e.addr :: (v.cells ++ heldCells s.held s.mem).map Prod.fst) := by
    rw [List.map_append, List.map_append, ← List.cons_append, heldCells_addrs, hcalm.held, hheld₁,
      ← heldCells_addrs s.held s.mem]
    exact (((Volume.closeFd_perm he).trans hadds.2).map Prod.fst).append_right _
  obtain ⟨b, t, hb, -⟩ := hg₁.owns.block _ (List.mem_append_left _ (OpenFd.mem_cells he (List.mem_singleton_self _)))
  dsimp only at hb
  refine ⟨?_, b, hb, fun hin => ?_, fun a => ?_⟩
  · funext n
    have hfds : (v₁.closeFd i e).fds n = v.fds n := by
      unfold Volume.closeFd
      dsimp only
      rw [hadds.1, Function.update_idem, ← hnone, Function.update_eq_self]
    rw [hg₂.table n, hg.table n, hfds]
  · have hnodup := (haddrs.nodup_iff).mp hg₂.owns.nodup
    rw [hb] at hnodup
    exact (List.nodup_cons.mp hnodup).1 ((hg.owns.allocatedBlock_iff b).mp hin)
  · rw [hg₂.owns.allocatedBlock_iff, hg.owns.allocatedBlock_iff, haddrs.mem_iff, List.mem_cons, hb,
      Nat.add_right_cancel_iff]

/-- Opening a file and closing it again is never neutral. -/
theorem run_open_close {tr : List (Mount × (FsCall × Int))} (hrun : Run (Fresh L R) (Step L R) tr s)
    (hcare : ∀ x ∈ tr, Careful x) (hopen : Step L R s (.openFile root path flags, fd) s₁)
    (hnew : s.ramfs.fdEntry fd = none) (hentry : s₁.ramfs.fdEntry fd = some entry)
    (hclose : Step L R s₁ (.close fd fdPtr, r) s₂) : ¬ s.HeapNeutral s₂ := by
  obtain ⟨v, hg⟩ := (good_of_run hrun hcare).1
  obtain ⟨-, b, -, hb, hblocks⟩ := hg.open_close hopen hnew hentry hclose
  exact fun h => hb ((h.blocks b).mp ((hblocks b).mpr (Or.inl rfl)))

/-- A file is opened and closed on the booted machine. -/
theorem exists_open_close : ∃ tr s s₁ s₂ entry,
    Run (Fresh .kernelImage bootRodata) (Step .kernelImage bootRodata) tr s ∧
    (∀ x ∈ tr, Careful x) ∧ Step .kernelImage bootRodata s (.openFile s.root 0x1050 oRdonly, 0) s₁ ∧
    s.ramfs.fdEntry 0 = none ∧ s₁.ramfs.fdEntry 0 = some entry ∧
      Step .kernelImage bootRodata s₁ (.close 0 0, 0) s₂ := by
  have hdec : rehearses (fun root => [.createFile root 0x1050 0x1060 1]) fun tr s =>
      s.answers (.openFile s.root 0x1050 oRdonly) fun s₁ fd =>
        s₁.answers (.close 0 0) fun _ r =>
          (∀ x ∈ tr, x.1.KeepsOpen x.2.1 ∧ x.1.Bounded x.2.1) ∧
          s.allows .kernelImage bootRodata (.openFile s.root 0x1050 oRdonly) ∧ s.ramfs.fdEntry 0 = none ∧
          s₁.ramfs.fdEntry 0 = some (s₁.ramfs.fdTable 0) ∧ fd = 0 ∧ r = 0 := by decide +kernel
  obtain ⟨tr, s, hrun, hdec⟩ := run_rehearses hdec
  obtain ⟨s₁, fd, hopen, hdec⟩ := call_of_answers hdec
  obtain ⟨s₂, r, hclose, hdec⟩ := call_of_answers hdec
  obtain ⟨hkeeps, hallows, hnew, hentry, rfl, rfl⟩ := of_decide_eq_true hdec
  exact ⟨tr, s, s₁, s₂, _, hrun, careful_of_keeps hrun hkeeps,
    ⟨permits_of_allows hallows, hopen⟩,
    hnew, hentry, Or.inl rfl, hclose⟩

theorem run_open_close_once : ∃ tr s s₁ s₂, Run (Fresh .kernelImage bootRodata) (Step .kernelImage bootRodata) tr s ∧
    Step .kernelImage bootRodata s (.openFile s.root 0x1050 oRdonly, 0) s₁ ∧
    Step .kernelImage bootRodata s₁ (.close 0 0, 0) s₂ ∧ ¬ s.HeapNeutral s₂ := by
  obtain ⟨tr, s, s₁, s₂, entry, hrun, hcare, hopen, hnew, hentry, hclose⟩ := exists_open_close
  exact ⟨tr, s, s₁, s₂, hrun, hopen, hclose, run_open_close hrun hcare hopen hnew hentry hclose⟩

/-- The descriptor of a file that is opened and closed stays allocated. -/
theorem closed_descriptor_leaks : ¬ ∀ tr s s₁ s₂ root path flags fd entry fdPtr r,
    Run (Fresh .kernelImage bootRodata) (Step .kernelImage bootRodata) tr s →
    Step .kernelImage bootRodata s (.openFile root path flags, fd) s₁ → s.ramfs.fdEntry fd = none →
    s₁.ramfs.fdEntry fd = some entry → Step .kernelImage bootRodata s₁ (.close fd fdPtr, r) s₂ → s.HeapNeutral s₂ := by
  obtain ⟨tr, s, s₁, s₂, entry, hrun, hcare, hopen, hnew, hentry, hclose⟩ := exists_open_close
  intro h
  obtain ⟨v, hg⟩ := (good_of_run hrun hcare).1
  obtain ⟨-, b, -, hb, hblocks⟩ := hg.open_close hopen hnew hentry hclose
  exact hb (((h tr s s₁ s₂ _ _ _ _ _ _ _ hrun hopen hnew hentry hclose).blocks b).mp ((hblocks b).mpr (Or.inl rfl)))

end Mount
end ShompOS
