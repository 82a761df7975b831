import ShompOS.Fs.Writes

/-! Open modes.

A descriptor keeps the flags it was opened with. `O_RDWR` is `O_RDONLY | O_WRONLY`,
and both checks test whether any bit of it is there, so a descriptor that was opened
with one of the two passes the check for the other. -/
namespace ShompOS
open Memory

/-- The calls so far have opened `fd` with these flags and not closed it since. -/
def OpenedWith (tr : List (Mount × (FsCall × Int))) (fd : Int) (flags : Nat) : Prop :=
  ∃ tr₁ s root path tr₂, tr = tr₁ ++ (s, (.openFile root path flags, fd)) :: tr₂ ∧
    ∀ x ∈ tr₂, ∀ fdPtr, x.2.1 ≠ .close fd fdPtr

theorem OpenedWith.append {tr : List (Mount × (FsCall × Int))} {x : Mount × (FsCall × Int)} {fd : Int} {flags : Nat}
    (h : OpenedWith (tr ++ [x]) fd flags) :
    (∃ root path, x.2 = (.openFile root path flags, fd)) ∨ OpenedWith tr fd flags ∧
      ∀ fdPtr, x.2.1 ≠ .close fd fdPtr := by
  obtain ⟨tr₁, s, root, path, tr₂, he, hopen⟩ := h
  cases tr₂.eq_nil_or_concat' with
  | inl hnil =>
    rw [hnil] at he
    obtain ⟨-, hx⟩ := List.append_inj' he rfl
    cases hx
    exact Or.inl ⟨root, path, rfl⟩
  | inr hlast =>
    obtain ⟨tr₂, y, rfl⟩ := hlast
    rw [← List.cons_append, ← List.append_assoc] at he
    obtain ⟨htr, hx⟩ := List.append_inj' he rfl
    cases hx
    exact Or.inr ⟨⟨tr₁, s, root, path, tr₂, htr, fun z hz => hopen z (List.mem_append_left _ hz)⟩,
      hopen x (List.mem_append_right _ (List.mem_singleton_self _))⟩

/-- The last call opened it. -/
theorem openedWith_last {tr : List (Mount × (FsCall × Int))} {root path flags : Nat} {fd : Int}
    (h : (tr.getLast?.map Prod.snd) = some (.openFile root path flags, fd)) : OpenedWith tr fd flags := by
  obtain ⟨⟨s, x⟩, hlast, rfl⟩ := Option.map_eq_some_iff.mp h
  obtain ⟨tr', rfl⟩ := List.getLast?_eq_some_iff.mp hlast
  exact ⟨tr', s, root, path, [], rfl, fun y hy => (List.not_mem_nil hy).elim⟩

/-! ### Flags -/

/-- No call but `ramfs_close` makes a descriptor another one. -/
theorem Volume.Effect.fds_kept {s : Mount} {v v' : Volume} {c : FsCall} {r : Int} {i : Fin maxFds} {e : OpenFd}
    (he : v.Effect s c r v') (hi : v.fds i = some e) (hc : ∀ fdPtr, c ≠ .close i fdPtr) :
    ∃ e', v'.fds i = some e' ∧ e'.flags = e.flags := by
  have hopen : ∀ {fd k j n d f e₂ P g e'}, v.Opens fd k j n d f e₂ → e'.flags = e₂.flags →
      ∃ e'', (v.withOpen k j n P g e').fds i = some e'' ∧ e''.flags = e.flags := by
    intro fd k j n d f e₂ P g e' ho he'
    unfold Volume.withOpen
    dsimp only
    by_cases hin : i = n
    · rw [hin, ho.entry, Option.some.injEq] at hi
      rw [hin, Function.update_self]
      exact ⟨e', rfl, by rw [he', hi]⟩
    · rw [Function.update_of_ne hin]
      exact ⟨e, hi, rfl⟩
  cases he with
  | @openFile d path flags found text hd =>
    cases Volume.openPath_fds hd text flags found with
    | inl hf =>
      rw [hf.1]
      exact ⟨e, hi, rfl⟩
    | inr hf =>
      obtain ⟨n, e', -, -, -, hn, -, hf⟩ := hf
      have hin : i ≠ n := fun h => by
        rw [← h, hi] at hn
        cases hn
      rw [hf, Function.update_of_ne hin]
      exact ⟨e, hi, rfl⟩
  | read ho => exact hopen ho rfl
  | write ho =>
    refine hopen ho ?_
    unfold FileNode.write
    dsimp only
    split
    · split <;> rfl
    · rfl
  | seek ho => exact hopen ho rfl
  | @close fd fdPtr n e' hn he' =>
    have hin : i ≠ n := fun h => hc fdPtr (by rw [h, hn])
    unfold Volume.closeFd
    dsimp only
    rw [Function.update_of_ne hin]
    exact ⟨e, hi, rfl⟩
  | _ => exact ⟨e, hi, rfl⟩

namespace Mount
variable {L : Layout} {R : Rodata} {s s' : Mount} {v v' : Volume} {c : FsCall} {r : Int} {i : Fin maxFds} {e : OpenFd}

/-- What `ramfs_open` returns, if it is not one of the first three numbers, is a
descriptor with these flags. -/
theorem Good.opened (hg : s.Good L R v) {root path flags : Nat} (hp : s.Permits L R (.openFile root path flags))
    (hcall : s.call L R (.openFile root path flags) = some (s', r)) (hr : 3 ≤ r) :
    ∃ entry, s'.ramfs.fdEntry r = some entry ∧ s'.heap.word entry RamfsFd.flags = flags := by
  have hnull : ¬ (root = 0 ∨ path = 0) := by
    intro hnull
    have hrefused : r = -1 := (Prod.mk.inj (Option.some.inj (hcall.symm.trans (call_null hnull)))).2
    omega
  obtain ⟨hroot, hpath, hflags⟩ := hp
  obtain ⟨k, d, hk, rfl⟩ := (hg.dir hroot).resolve_left fun h => hnull (Or.inl h)
  obtain ⟨text, hpath⟩ := hpath.resolve_left fun h => hnull (Or.inr h)
  have hd := List.mem_of_getElem? hk
  obtain ⟨s₁, found, h1, h2, -⟩ := hg.openFile hd hpath (fun h => hnull (Or.inr h)) hflags
  rw [h1] at hcall
  cases hcall
  cases Volume.openPath_fds hd text flags found with
  | inl hf => omega
  | inr hf =>
    obtain ⟨i, e, -, he, -, -, hret, hf⟩ := hf
    have hi : (v.openPath d text flags found).1.fds i = some e := by rw [hf, Function.update_self]
    exact ⟨e.addr, h2.fdEntry_of hret.symm hi, (h2.flags_eq hi).trans he⟩

/-- A descriptor has the flags it was opened with. -/
theorem flags_of_opened {tr : List (Mount × (FsCall × Int))} (hrun : Run (Fresh L R) (Step L R) tr s)
    (hkeeps : ∀ x ∈ tr, x.1.KeepsOpen x.2.1 ∧ x.1.Bounded x.2.1) {fd : Int} {flags : Nat} (hfd : 3 ≤ fd)
    (ho : OpenedWith tr fd flags) : ∃ entry, s.ramfs.fdEntry fd = some entry ∧
      s.heap.word entry RamfsFd.flags = flags := by
  induction hrun with
  | start _ =>
    obtain ⟨tr₁, t, root, path, tr₂, he, -⟩ := ho
    exact absurd he.symm (List.append_ne_nil_of_right_ne_nil _ (List.cons_ne_nil _ _))
  | @next tr s x s' hrun hstep ih =>
    have hkeeps' : ∀ y ∈ tr, y.1.KeepsOpen y.2.1 ∧ y.1.Bounded y.2.1 := fun y hy => hkeeps y (List.mem_append_left _ hy)
    obtain ⟨v, hg, hl⟩ := (fdsLinked_of_run hrun hkeeps').1
    have hlast := hkeeps (s, x) (List.mem_append_right _ (List.mem_singleton_self _))
    cases ho.append with
    | inl h =>
      obtain ⟨root, path, rfl⟩ := h
      exact hg.opened hstep.1 hstep.2 hfd
    | inr h =>
      obtain ⟨entry, hentry, hflags⟩ := ih hkeeps' h.1
      obtain ⟨i, e, hi, he, rfl, -⟩ := hg.entry hentry
      obtain ⟨v', hg', -, -, heff⟩ := hg.step hstep.1 (hg.lively hl _) hlast.2 hstep.2
      obtain ⟨e', he', hsame⟩ := heff.fds_kept he (hi ▸ h.2)
      refine ⟨e'.addr, hg'.fdEntry_of hi he', ?_⟩
      rw [hg'.flags_eq he', hsame, ← hg.flags_eq he, hflags]

/-! ### What the modes are to do -/

/-- The file would have to grow, and there is no memory for that. -/
def Full (L : Layout) (s : Mount) (entry count : Nat) : Prop :=
  s.heap.word (s.fileOf entry) RamfsFile.size < s.position entry + count ∧
    ∃ h, s.heap.allocate L (s.position entry + count) = some (h, 0)

/-- What a call is to do and not to do through descriptors that were opened with these
access bits. -/
structure ModesEnforced (L : Layout) (tr : List (Mount × (FsCall × Int))) (s : Mount) (x : FsCall × Int)
    (s' : Mount) : Prop where
  rdonly : ∀ fd buf count flags, x.1 = .write fd buf count → 3 ≤ fd → OpenedWith tr fd flags →
    flags &&& oRdwr = oRdonly →
    x.2 = -1 ∧ SameFiles s s'
  wronly : ∀ fd buf count flags entry, x.1 = .read fd buf count → 3 ≤ fd → OpenedWith tr fd flags →
    flags &&& oRdwr = oWronly → s.ramfs.fdEntry fd = some entry →
    x.2 = -1 ∧ s'.mem.bytesAt buf count = s.mem.bytesAt buf count ∧
      s'.heap.word entry RamfsFd.position = s.heap.word entry RamfsFd.position
  /-- A write that is refused has no memory to be done with. -/
  rdwrWrite : ∀ fd buf count flags entry, x.1 = .write fd buf count → 3 ≤ fd → OpenedWith tr fd flags →
    flags &&& oRdwr = oRdwr → s.ramfs.fdEntry fd = some entry → x.2 = -1 → s.Full L entry count
  rdwrRead : ∀ fd buf count flags, x.1 = .read fd buf count → 3 ≤ fd → OpenedWith tr fd flags →
    flags &&& oRdwr = oRdwr →
    x.2 ≠ -1

/-- A write through an `O_RDONLY` descriptor finds no memory, and there is no read through
an `O_WRONLY` one. -/
def ModesMet (L : Layout) (tr : List (Mount × (FsCall × Int))) (s : Mount) : FsCall → Prop
  | .write fd _ count => ∀ flags entry, 3 ≤ fd → OpenedWith tr fd flags → flags &&& oRdwr = oRdonly →
    s.ramfs.fdEntry fd = some entry → s.Full L entry count
  | .read fd _ _ => ∀ flags, 3 ≤ fd → OpenedWith tr fd flags → flags &&& oRdwr ≠ oWronly
  | _ => True

/-! ### What they do -/

/-- Callers cannot have all of the address space. -/
theorem Good.buffer_lt (hg : s.Good L R v) (hi : v.fds i = some e) {buf n : Nat} (hb : s.Buffer L buf n) :
    n + 1 < addressSpace := by
  have hcell := OpenFd.mem_cells hi (List.mem_singleton_self _)
  have hup := (hg.owns.bounds (List.mem_append_left _ hcell)).2.1
  have hpM := two_pow_pos' maxBlockScale
  have hroom := hb.2
  rw [Contents.size_words, List.length_cons, List.length_cons, List.length_cons, List.length_cons,
    List.length_nil] at hup
  by_contra hn
  have hin := hb.1 e.addr (by omega)
  rw [show buf = 0 by omega, Nat.zero_add] at hin
  have hout := Settled.outside hg.settled hin hcell
  rw [Contents.size_words, List.length_cons] at hout
  dsimp only at hout
  omega

theorem toSigned_ne {n : Nat} (h : n + 1 < addressSpace) : toSigned n ≠ -1 := by
  unfold toSigned
  split <;> omega

/-- A read through a descriptor with any access bit does not return -1. -/
theorem Good.read_accepted (hg : s.Good L R v) (hl : s.Lively c) {fd : Int} {buf count entry : Nat}
    (hc : c = .read fd buf count) (hp : s.Permits L R c) (hfd : fd ≠ stdinFileno)
    (hentry : s.ramfs.fdEntry fd = some entry)
    (hmode : s.heap.word entry RamfsFd.flags &&& oRdwr ≠ 0) (hcall : s.call L R c = some (s', r)) : r ≠ -1 := by
  subst hc
  obtain ⟨k, j, i, d, f, e, ho, rfl⟩ := hg.opens hentry (hl entry (through_read_iff.mpr ⟨hfd, hentry⟩))
  rw [hg.flags_eq ho.entry] at hmode
  obtain ⟨s₁, h1, -⟩ := hg.read ho hfd (fun h => hmode h.2) hp.1 hp.2
  rw [h1] at hcall
  cases hcall
  have hlt := hg.buffer_lt ho.entry hp.1
  have hle := e.readCount_le f count
  exact toSigned_ne (by omega)

/-- What `Full` says of the volume. -/
theorem Good.full_iff {fd : Int} {k j count : Nat} {d : DirNode} {f : FileNode} (hg : s.Good L R v)
    (ho : v.Opens fd k j i d f e) :
    s.Full L e.addr count ↔ f.contents.length < e.start f + count ∧ (v.pool.allocate (e.start f + count)).2 = 0 := by
  have hsize : s.heap.word (s.fileOf e.addr) RamfsFile.size = f.contents.length := by
    rw [(hg.fdAt ho.entry).file, ho.same]
    exact (hg.file (List.mem_of_getElem? ho.dir) (List.mem_of_getElem? ho.file)).size
  obtain ⟨h', hcall', -⟩ := hg.owns.allocate (e.start f + count)
  unfold Full
  rw [hsize, hg.position_eq ho, hcall']
  exact and_congr_right fun _ => ⟨fun ⟨h, he⟩ => (Prod.mk.inj (Option.some.inj he)).2, fun h => ⟨h', by rw [h]⟩⟩

/-- A write through one returns -1 exactly if there is no memory, and then it does
nothing to any file. -/
theorem Good.write_accepted (hg : s.Good L R v) (hl : s.Lively c) (hb : s.Bounded c) {fd : Int} {buf count entry : Nat}
    (hc : c = .write fd buf count) (hp : s.Permits L R c) (hfd : ¬ (fd = stdoutFileno ∨ fd = stderrFileno))
    (hentry : s.ramfs.fdEntry fd = some entry) (hmode : s.heap.word entry RamfsFd.flags &&& oRdwr ≠ 0)
    (hcall : s.call L R c = some (s', r)) : (r = -1 ↔ s.Full L entry count) ∧ (r = -1 → SameFiles s s') := by
  subst hc
  have hthrough : s.through (.write fd buf count) = some entry := through_write_iff.mpr ⟨hfd, hentry⟩
  obtain ⟨k, j, i, d, f, e, ho, rfl⟩ := hg.opens hentry (hl entry hthrough)
  rw [hg.flags_eq ho.entry] at hmode
  obtain ⟨s₁, gap, -, h1, h2, -⟩ := hg.write ho hfd hmode (Buffer.lent hp) (hg.room ho hb hthrough hmode)
  rw [length_bytesAt] at h1
  rw [h1] at hcall
  cases hcall
  rw [hg.full_iff ho]
  cases write_cases v.pool f e gap (s.mem.bytesAt buf count) with
  | inl h =>
    obtain ⟨hlong, hzero, hw⟩ := h
    rw [length_bytesAt] at hlong hzero
    rw [hw] at h2 ⊢
    dsimp only at h2 ⊢
    refine ⟨⟨fun _ => ⟨hlong, hzero⟩, fun _ => rfl⟩,
      fun _ => ⟨hg.sameTree h2 (ho.outline _ _ rfl rfl rfl), fun file hin => ?_⟩⟩
    obtain ⟨d₂, hd₂, f₂, hf₂, rfl⟩ := (hg.owns.linked_iff hg.tree).mp hin
    by_cases hsame : f₂.addr = f.addr
    · obtain ⟨hd', hf'⟩ := ho.changed v.pool f {e with position := e.start f}
      rw [hsame, (h2.file hd' hf').contents,
        (hg.file (List.mem_of_getElem? ho.dir) (List.mem_of_getElem? ho.file)).contents]
    · obtain ⟨d', hd', hf'⟩ := ho.others hd₂ hf₂ hsame v.pool f {e with position := e.start f}
      rw [(h2.file hd' hf').contents, (hg.file hd₂ hf₂).contents]
  | inr h =>
    have hne : (f.write v.pool e gap (s.mem.bytesAt buf count)).2.2.2 ≠ -1 := by
      obtain ⟨P', g, -, -, -, -, hw⟩ := h
      rw [hw]
      dsimp only
      omega
    refine ⟨⟨fun he => absurd he hne, fun he => ?_⟩, fun he => absurd he hne⟩
    rw [FileNode.write_full (by rw [length_bytesAt]; exact he.1) (by rw [length_bytesAt]; exact he.2)]

/-- As long as no open file is deleted and no write goes past the end of the address
space, the modes are enforced by just those calls that meet the condition. -/
theorem modes_enforced_iff {tr : List (Mount × (FsCall × Int))} {x : FsCall × Int}
    (hrun : Run (Fresh L R) (Step L R) tr s)
    (hkeeps : ∀ x ∈ tr, x.1.KeepsOpen x.2.1 ∧ x.1.Bounded x.2.1) (hstep : Step L R s x s') (hb : s.Bounded x.1) :
    ModesEnforced L tr s x s' ↔ ModesMet L tr s x.1 := by
  obtain ⟨c, r⟩ := x
  obtain ⟨v, hg, hlinked⟩ := (fdsLinked_of_run hrun hkeeps).1
  have hl := hg.lively hlinked c
  -- the access bits of a descriptor that was opened
  have hmode : ∀ {fd flags entry}, 3 ≤ fd → OpenedWith tr fd flags → s.ramfs.fdEntry fd = some entry →
      flags &&& oRdwr ≠ 0 → s.heap.word entry RamfsFd.flags &&& oRdwr ≠ 0 := by
    intro fd flags entry hfd ho hentry hne
    obtain ⟨entry', hentry', hflags⟩ := flags_of_opened hrun hkeeps hfd ho
    rw [hentry, Option.some.injEq] at hentry'
    rw [hentry', hflags]
    exact hne
  constructor
  · intro h
    cases c with
    | write fd buf count =>
      intro flags entry hfd ho hbits hentry
      exact (hg.write_accepted hl hb rfl hstep.1 (by unfold stdoutFileno stderrFileno; omega) hentry
        (hmode hfd ho hentry (by rw [hbits]; decide)) hstep.2).1.mp (h.rdonly fd buf count flags rfl hfd ho hbits).1
    | read fd buf count =>
      intro flags hfd ho hbits
      obtain ⟨entry, hentry, -⟩ := flags_of_opened hrun hkeeps hfd ho
      exact hg.read_accepted hl rfl hstep.1 (by unfold stdinFileno; omega) hentry
        (hmode hfd ho hentry (by rw [hbits]; decide))
        hstep.2 (h.wronly fd buf count flags entry rfl hfd ho hbits hentry).1
    | _ => trivial
  · intro h
    refine ⟨?_, ?_, ?_, ?_⟩
    · rintro fd buf count flags rfl hfd ho hbits
      obtain ⟨entry, hentry, -⟩ := flags_of_opened hrun hkeeps hfd ho
      obtain ⟨hiff, hsame⟩ := hg.write_accepted hl hb rfl hstep.1 (by unfold stdoutFileno stderrFileno; omega) hentry
        (hmode hfd ho hentry (by rw [hbits]; decide)) hstep.2
      have hr := hiff.mpr (h flags entry hfd ho hbits hentry)
      exact ⟨hr, hsame hr⟩
    · rintro fd buf count flags entry rfl hfd ho hbits -
      exact absurd hbits (h flags hfd ho)
    · rintro fd buf count flags entry rfl hfd ho hbits hentry hr
      exact (hg.write_accepted hl hb rfl hstep.1 (by unfold stdoutFileno stderrFileno; omega) hentry
        (hmode hfd ho hentry (by rw [hbits]; decide)) hstep.2).1.mp hr
    · rintro fd buf count flags rfl hfd ho hbits
      obtain ⟨entry, hentry, -⟩ := flags_of_opened hrun hkeeps hfd ho
      exact hg.read_accepted hl rfl hstep.1 (by unfold stdinFileno; omega) hentry
        (hmode hfd ho hentry (by rw [hbits]; decide))
        hstep.2

theorem modes_enforced_iff_rdwr : ∃ tr s x s', Run (Fresh .kernelImage bootRodata) (Step .kernelImage bootRodata) tr s ∧
    OpenedWith tr 3 oRdwr ∧ x.1 = .write 3 0x1010 4 ∧ ModesEnforced .kernelImage tr s x s' := by
  have hdec : rehearses (fun root => [.createFile root 0x1050 0x1060 1, .openFile root 0x1050 oRdwr,
    .openFile root 0x1050 oRdwr,
      .openFile root 0x1050 oRdwr, .openFile root 0x1050 oRdwr]) fun tr s =>
        s.answers (.write 3 0x1010 4) fun _ _ =>
          (∀ x ∈ tr, x.1.KeepsOpen x.2.1 ∧ x.1.Bounded x.2.1) ∧ s.allows .kernelImage bootRodata (.write 3 0x1010 4) ∧
          s.Bounded (.write 3 0x1010 4) ∧ tr.getLast?.map Prod.snd =
            some (.openFile s.root 0x1050 oRdwr, 3) := by decide +kernel
  obtain ⟨tr, s, hrun, hdec⟩ := run_rehearses hdec
  obtain ⟨s', r, hcall, hdec⟩ := call_of_answers hdec
  obtain ⟨hkeeps, hallows, hbounded, hlast⟩ := of_decide_eq_true hdec
  have ho := openedWith_last hlast
  refine ⟨tr, s, (.write 3 0x1010 4, r), s', hrun, ho, rfl, ?_⟩
  refine (modes_enforced_iff hrun hkeeps ⟨permits_of_allows hallows, hcall⟩ hbounded).mpr ?_
  intro flags entry hfd hopened hbits hentry
  obtain ⟨entry₁, h1, hflags₁⟩ := flags_of_opened hrun hkeeps hfd ho
  obtain ⟨entry₂, h2, hflags₂⟩ := flags_of_opened hrun hkeeps hfd hopened
  rw [h1, Option.some.injEq] at h2
  rw [h2, hflags₂] at hflags₁
  rw [hflags₁] at hbits
  exact absurd hbits (by decide)

theorem rdonly_write_accepted : ¬ ∀ tr s x s', Run (Fresh .kernelImage bootRodata) (Step .kernelImage bootRodata) tr s →
    Step .kernelImage bootRodata s x s' → ModesEnforced .kernelImage tr s x s' := by
  have hdec : rehearses (fun root => [.createFile root 0x1050 0x1060 1, .openFile root 0x1050 oRdonly,
      .openFile root 0x1050 oRdonly, .openFile root 0x1050 oRdonly, .openFile root 0x1050 oRdonly]) fun tr s =>
        s.answers (.write 3 0x1050 1) fun _ r =>
          s.allows .kernelImage bootRodata (.write 3 0x1050 1) ∧
          tr.getLast?.map Prod.snd = some (.openFile s.root 0x1050 oRdonly, 3) ∧ r ≠ -1 := by decide +kernel
  obtain ⟨tr, s, hrun, hdec⟩ := run_rehearses hdec
  obtain ⟨s', r, hcall, hdec⟩ := call_of_answers hdec
  obtain ⟨hallows, hlast, hr⟩ := of_decide_eq_true hdec
  intro h
  have hmodes := h tr s (.write 3 0x1050 1, r) s' hrun ⟨permits_of_allows hallows, hcall⟩
  exact hr (hmodes.rdonly 3 0x1050 1 oRdonly rfl (by decide) (openedWith_last hlast) rfl).1

end Mount
end ShompOS
