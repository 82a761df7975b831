import ShompOS.Mnt.Image

/-! When the image is the tree.

Nothing in the scripts keeps two paths apart that become one identifier, and nothing in
`init_mnt` looks at whether there was memory for an entry. Otherwise what the root holds
afterwards is the tree of the host. -/
namespace ShompOS
open Memory

/-- With an object for each file, the statements find every file where they look for it. -/
theorem Loaded.of_loads {L : Layout} {K : Linkage} {t : HostDir} {m : Memory} (hload : K.Loads L m (mntSetup mntDir t))
    (hobjects : ((HostDir.ldRuns t mntDir).map LdRun.out).Nodup) : Loaded L K m t mntDir := by
  rw [mntSetup_eq t isPath_mntDir] at hload
  constructor
  · intro f hf
    have hrun : (⟨sed f.1 ++ ascii ".o", f.1, f.2⟩ : LdRun) ∈ objects (HostDir.ldRuns t mntDir) := by
      rw [objects_of_nodup hobjects]
      exact List.mem_map_of_mem (f := fun f : List UInt8 × List UInt8 => (⟨sed f.1 ++ ascii ".o", f.1, f.2⟩ : LdRun)) hf
    have hembedded := hload.object _ hrun
    dsimp only at hembedded
    rw [(HostDir.files_isPath t isPath_mntDir f hf).ldSymbol_eq] at hembedded
    exact hembedded
  · intro line hline
    exact hload.literal line (List.mem_cons_of_mem _ (List.mem_append_left _ hline))

namespace Mount
variable {L : Layout} {R : Rodata} {K : Linkage} {s : Mount}

/-- `init_mnt` returns, and the root holds the tree exactly if there was memory for
everything on the way. -/
theorem initMnt_holdsTree_iff (t : HostDir) (hfresh : Fresh L R s) (hload : Loaded L K s.mem t mntDir) :
    ∃ tr s', s.initMnt L R K (mntSetup mntDir t) = some (tr, s') ∧
      (s'.HoldsTree t s.root 0 0 ↔ ∀ x ∈ tr, x.1.Supplies L x.2.1) := by
  obtain ⟨P, name, hg⟩ := good_of_fresh hfresh
  have hroot : (emptyVolume P s.root name).store s.root =
    some ⟨if name = 0 then none else some (ascii "/"), 0, [], []⟩ :=
    Volume.store_eq hg.owns.dirs_nodup (d := ⟨s.root, name, ascii "/", 0, 0, [], 0, []⟩) (List.mem_singleton_self _)
  have hvar : Function.update (fun _ => 0) (sed mntDir) s.root (sed mntDir) = s.root := Function.update_self ..
  obtain ⟨tr, vars', s', v', kept, hperforms, hg', hcalm, -, hgrown, hkept⟩ :=
    hg.performs t hload (fun _ _ => rfl) (Function.update (fun _ => 0) (sed mntDir) s.root) (by
      rw [hvar, hroot]
      exact Option.some_ne_none _)
  rw [hvar] at hgrown
  refine ⟨tr, s', ?_, ?_⟩
  · rw [mntSetup_eq t isPath_mntDir]
    unfold initMnt
    dsimp only
    rw [hperforms]
    unfold exec
    exact congrArg (fun tr => some (tr, s')) (List.append_nil tr)
  · obtain ⟨d, hd, haddr⟩ := Volume.exists_of_store (hgrown.later.ne_none (hroot ▸ Option.some_ne_none _))
    rw [← haddr, hg'.holdsTree_iff t hd, haddr, ← hkept]
    exact hgrown.shows_iff hroot

/-- The generator reproduces a tree exactly if no two files and no two directories have
paths that become one identifier, and there is memory for everything. -/
theorem reproduces_iff (t : HostDir) (hfresh : Fresh L R s) (hload : K.Loads L s.mem (mntSetup mntDir t)) :
    s.Reproduces L R K t ↔ ((HostDir.files t mntDir).map fun f => f.1).Pairwise (fun p q => ¬ PathsAlike p q) ∧
      (HostDir.dirs t mntDir).Pairwise (fun p q => ¬ PathsAlike p q) ∧
      ∀ tr s', s.initMnt L R K (mntSetup mntDir t) = some (tr, s') → ∀ x ∈ tr, x.1.Supplies L x.2.1 := by
  have hgenerated := mntSetup_eq t isPath_mntDir
  have hfiles := HostDir.ldRuns_out_nodup_iff t isPath_mntDir
  have hdirs : (mntSetup mntDir t).Compiles ↔ (HostDir.dirs t mntDir).Pairwise fun p q => ¬ PathsAlike p q :=
    (mntSetup_compiles_iff t isPath_mntDir).trans
      (sed_nodup_iff fun p hp => (HostDir.dirs_isPath t isPath_mntDir p hp).1)
  constructor
  · intro h
    have hobjects := h.objects
    rw [hgenerated] at hobjects
    obtain ⟨tr, s', hrun, hholds⟩ := initMnt_holdsTree_iff t hfresh (.of_loads hload hobjects)
    refine ⟨hfiles.mp hobjects, hdirs.mp h.compiles, fun tr₁ s₁ hrun₁ => ?_⟩
    obtain ⟨tr₂, s₂, hrun₂, hheld⟩ := h.runs
    cases hrun.symm.trans hrun₁
    cases hrun.symm.trans hrun₂
    exact hholds.mp hheld
  · intro h
    obtain ⟨hfilesApart, hdirsApart, hsupplies⟩ := h
    have hobjects := hfiles.mpr hfilesApart
    obtain ⟨tr, s', hrun, hholds⟩ := initMnt_holdsTree_iff t hfresh (.of_loads hload hobjects)
    refine ⟨?_, ?_, ?_, hdirs.mpr hdirsApart, mntSetup_links t isPath_mntDir,
      tr, s', hrun, hholds.mpr (hsupplies tr s' hrun)⟩
    all_goals rw [hgenerated]
    · dsimp only [HostDir.ldRuns]
      rw [List.map_map]
      exact List.map_id _
    · exact hobjects
    · exact (HostDir.ldRuns_symbol_nodup_iff t isPath_mntDir).mpr hfilesApart

/-! ### Two trees -/

/-- A directory with a file in it, and a file beside the directory. -/
def smallTree : HostDir :=
  .dir ⟨ascii "a", by decide, List.all_eq_true.mp (by decide), by decide⟩
    (.file ⟨ascii "a", by decide, List.all_eq_true.mp (by decide), by decide⟩ (ascii "b") .empty)
    (.file ⟨ascii "b", by decide, List.all_eq_true.mp (by decide), by decide⟩ (ascii "a") .empty)

/-- The names and the letters in the files, on a machine that has both. -/
def smallLinkage : Linkage where
  symbol x :=
    if x = startSymbol (ascii "__mnt_a_a") then 0x1060
    else if x = endSymbol (ascii "__mnt_a_a") then 0x1061
    else if x = endSymbol (ascii "__mnt_b") then 0x1051
    else 0x1050
  literal x := if x = ascii "b" then 0x1060 else 0x1050

/-- The name is in the image, and there is memory for everything that the call allocates. -/
def supplied (s : Mount) : FsCall → Bool
  | .createFile dir name _ size => (staticText .kernelImage s.mem 64 name).any fun text =>
    s.heap.served .kernelImage [RamfsFile.bytes, text.length + 1, if size = 0 then 1 else size,
      4 * (s.heap.word dir RamfsDir.fileCount + 1)] = some [true, true, true, true]
  | .createDir parent name => (staticText .kernelImage s.mem 64 name).any fun text =>
    s.heap.served .kernelImage [RamfsDir.bytes, text.length + 1,
      4 * (s.heap.word parent RamfsDir.subdirCount + 1)] = some [true, true, true]
  | _ => false

theorem supplies_of_supplied {c : FsCall} (h : s.supplied c) : s.Supplies .kernelImage c := by
  cases c with
  | createFile dir name data size =>
    obtain ⟨text, htext, hserved⟩ := (Option.any_eq_true _ _).mp h
    intro text' htext'
    rw [htext'.unique (staticText_passes htext).1]
    exact of_decide_eq_true hserved
  | createDir parent name =>
    obtain ⟨text, htext, hserved⟩ := (Option.any_eq_true _ _).mp h
    intro text' htext'
    rw [htext'.unique (staticText_passes htext).1]
    exact of_decide_eq_true hserved
  | _ => cases h

/-- One byte of the image is an object. -/
theorem embedded_one {m : Memory} {start stop : Nat} {b : UInt8} (hstart : start ≠ 0) (hbyte : m.byte start = b)
    (hstatic : Layout.kernelImage.Static start) (hstop : stop = start + 1) (hroom : stop < addressSpace) :
    Embedded .kernelImage m start stop [b] := by
  refine ⟨hstart, fun i c hi => ?_, fun i hi => ?_, hstop, hroom⟩
  · cases i with
    | zero =>
      cases hi
      exact hbyte
    | succ i => cases hi
  · obtain rfl := Nat.lt_one_iff.mp hi
    exact hstatic

/-- The tree is on a mount that has just been booted. -/
theorem smallTree_reproduced : ∃ s : Mount, s.Reproduces .kernelImage bootRodata smallLinkage smallTree := by
  have hrun : booted.any fun s => (staticText .kernelImage s.mem 64 0x1050 = some (ascii "a") ∧
      staticText .kernelImage s.mem 64 0x1060 = some (ascii "b")) ∧
      (s.mem.byte 0x1050 = 0x61 ∧ s.mem.byte 0x1060 = 0x62) ∧
      (exec .kernelImage bootRodata smallLinkage (Function.update (fun _ => 0) (sed mntDir) s.root) s
        (HostDir.body smallTree mntDir ++ [.return0])).any fun x => x.1.all fun y => y.1.supplied y.2.1 := by
    decide +kernel
  obtain ⟨s, hboot, hrun⟩ := (Option.any_eq_true _ _).mp hrun
  obtain ⟨⟨htextA, htextB⟩, ⟨hbyteA, hbyteB⟩, hexec⟩ := of_decide_eq_true hrun
  refine ⟨s, (reproduces_iff smallTree (fresh_of_booted hboot) ?_).mpr ⟨?_, List.pairwise_singleton _ _,
    fun tr s' hinit => ?_⟩⟩
  · rw [mntSetup_eq smallTree isPath_mntDir]
    constructor
    · have hobjects : objects (HostDir.ldRuns smallTree mntDir) =
          [⟨ascii "__mnt_a_a.o", ascii "./mnt/a/a", ascii "b"⟩, ⟨ascii "__mnt_b.o", ascii "./mnt/b", ascii "a"⟩] := by
        decide
      intro run hrun
      dsimp only at hrun
      rw [hobjects, List.mem_cons, List.mem_singleton] at hrun
      rcases hrun with rfl | rfl
      · exact embedded_one (by decide) hbyteB (by decide) (by decide) (by decide)
      · exact embedded_one (by decide) hbyteA (by decide) (by decide) (by decide)
    · have hliteral : ∀ name ∈ [ascii "a", ascii "b"], Literal .kernelImage s.mem (smallLinkage.literal name) name := by
        intro name hname
        rw [List.mem_cons, List.mem_singleton] at hname
        rcases hname with rfl | rfl
        · obtain ⟨hstr, hstatic⟩ := staticText_passes htextA
          exact ⟨by decide, hstr, hstatic⟩
        · obtain ⟨hstr, hstatic⟩ := staticText_passes htextB
          exact ⟨by decide, hstr, hstatic⟩
      have hnames : ∀ line ∈ HostDir.body smallTree mntDir, ∀ name ∈ line.literal, name ∈ [ascii "a", ascii "b"] := by
        decide
      intro line hline name hname
      rw [List.mem_cons, List.mem_append, List.mem_singleton] at hline
      rcases hline with rfl | hline | rfl
      · cases hname
      · exact hliteral name (hnames line hline name hname)
      · cases hname
  · have hlength : (ascii "./mnt/a/a").length ≠ (ascii "./mnt/b").length := by decide
    exact List.pairwise_pair.mpr fun halike => hlength halike.length_eq
  · rw [mntSetup_eq smallTree isPath_mntDir] at hinit
    obtain ⟨⟨tr', u⟩, hran, hall⟩ := (Option.any_eq_true _ _).mp hexec
    obtain ⟨rfl, rfl⟩ := Prod.mk.inj (Option.some.inj (hran.symm.trans hinit))
    exact fun x hx => supplies_of_supplied (List.all_eq_true.mp hall x hx)

/-- Two files that differ in what `sed` replaces. -/
def twinFiles : HostDir :=
  .file ⟨ascii "a.b", by decide, List.all_eq_true.mp (by decide), by decide⟩ (ascii "1")
    (.file ⟨ascii "a_b", by decide, List.all_eq_true.mp (by decide), by decide⟩ (ascii "2") .empty)

/-- They are one object with the bytes of the second, on any machine. -/
theorem twinFiles_not_reproduced :
    (∀ (L : Layout) (R : Rodata) (K : Linkage) (s : Mount), ¬ s.Reproduces L R K twinFiles) ∧
      (objects (mntSetup mntDir twinFiles).ldRuns).map LdRun.contents = [ascii "2"] := by
  rw [mntSetup_eq twinFiles isPath_mntDir]
  refine ⟨fun L R K s h => ?_, by decide⟩
  have hobjects := h.objects
  rw [mntSetup_eq twinFiles isPath_mntDir] at hobjects
  exact absurd hobjects (by decide)

end Mount
end ShompOS
