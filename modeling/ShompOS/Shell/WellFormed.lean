import ShompOS.Fs.Orderly
import ShompOS.Shell.Effects

/-! The tree while the shell is used.

That no name comes twice in a directory is due to the commands, which look for it
before they have something created. Over a line the volume stays orderly, and the
shell in a directory of it. -/
namespace ShompOS
open Memory

/-- The pointers back lead from a directory to the root, and end there. -/
inductive Heap.Rises (h : Heap) (root : Nat) : Nat → Prop
  | top : h.word root RamfsDir.parent = 0 → Rises h root root
  | under {dir : Nat} : h.word dir RamfsDir.parent ≠ 0 → Rises h root (h.word dir RamfsDir.parent) → Rises h root dir

theorem Heap.Rises.root {h : Heap} {root dir : Nat} (hr : h.Rises root dir) : h.word root RamfsDir.parent = 0 := by
  induction hr with
  | top h0 => exact h0
  | under _ _ ih => exact ih

/-- The tree is one, and the shell is in it. A directory for whose name there was no
memory has none. -/
structure Shell.WellFormed (s : Shell) : Prop where
  files : ∀ dir i j text, s.heap.InTree s.systemRoot dir → i < s.heap.word dir RamfsDir.fileCount →
    j < s.heap.word dir RamfsDir.fileCount → s.heap.HasName (s.heap.fileAt dir i) text →
    s.heap.HasName (s.heap.fileAt dir j) text → i = j
  subs : ∀ dir i j text, s.heap.InTree s.systemRoot dir → i < s.heap.word dir RamfsDir.subdirCount →
    j < s.heap.word dir RamfsDir.subdirCount → s.heap.HasName (s.heap.subdirAt dir i) text →
    s.heap.HasName (s.heap.subdirAt dir j) text → i = j
  parent : ∀ dir i, s.heap.InTree s.systemRoot dir → i < s.heap.word dir RamfsDir.subdirCount →
    s.heap.word (s.heap.subdirAt dir i) RamfsDir.parent = dir
  once : ∀ dir dir' i j, s.heap.InTree s.systemRoot dir → s.heap.InTree s.systemRoot dir' →
    i < s.heap.word dir RamfsDir.subdirCount → j < s.heap.word dir' RamfsDir.subdirCount →
    s.heap.subdirAt dir i = s.heap.subdirAt dir' j → dir = dir' ∧ i = j
  top : ∀ dir i, s.heap.InTree s.systemRoot dir → i < s.heap.word dir RamfsDir.subdirCount →
    s.heap.subdirAt dir i ≠ s.systemRoot
  rises : ∀ dir, s.heap.InTree s.systemRoot dir → s.heap.Rises s.systemRoot dir
  current : s.heap.InTree s.systemRoot s.currentDir

/-! ### Order and the shell -/

/-- Of a directory nearby the one it has become is nearby. -/
theorem Volume.Near.grow {v w : Volume} {root k : Nat} {d d' e : DirNode} {new : Option DirNode} (hnear : v.Near root e)
    (h : v.Grows w k d d' new) (hw : (w.dirs.map DirNode.addr).Nodup) : ∃ e' ∈ w.dirs, e'.addr = e.addr ∧
      w.Near root e' := by
  obtain ⟨ds, hline, hcases⟩ := hnear
  obtain ⟨e', ds', hline', haddr, hnames⟩ := h.lineage hw hline
  refine ⟨e', hline'.mem, haddr, ds', hline', ?_⟩
  cases hcases with
  | inl hne =>
    refine Or.inl fun x hx => ?_
    have hin : x.name ∈ ds.map DirNode.name := hnames ▸ List.mem_map_of_mem hx
    obtain ⟨y, hy, he⟩ := List.mem_map.mp hin
    exact he ▸ hne y hy
  | inr hshort =>
    have hlen := congrArg List.length hnames
    rw [List.length_map, List.length_map] at hlen
    exact Or.inr (hlen.symm ▸ hshort)

namespace Shell
variable {L : Layout} {R : Rodata} {initElf : Ramfs → Nat → Option Ramfs} {cmdBuffer : Nat}
  {s s' : Shell} {v w : Volume}
  {line : List UInt8}

/-- The shell has an orderly volume, and is in a directory of it. -/
structure Tidy (L : Layout) (R : Rodata) (s : Shell) (v : Volume) : Prop where
  good : s.mount.Good L R v
  orderly : v.Orderly s.systemRoot
  current : ∃ d ∈ v.dirs, d.addr = s.currentDir ∧ v.Near s.systemRoot d

theorem Tidy.grow {k : Nat} {d d' e : DirNode} {new : Option DirNode} (ht : s.Tidy L R v) (hgood : s'.mount.Good L R w)
    (hroot : s'.systemRoot = s.systemRoot) (h : v.Grows w k d d' new) (hfiles : (d'.fileNodes.map FileNode.text).Nodup)
    (hname : ∀ e ∈ new, ∀ x ∈ v.dirs, x.addr ∈ d.subdirNodes → x.name ≠ 0 → x.text ≠ e.text)
    (hcur : e.addr = s'.currentDir) (hnear : v.Near s.systemRoot e) : s'.Tidy L R w := by
  have hw := hgood.owns.dirs_nodup
  refine ⟨hgood, hroot ▸ ht.orderly.grow ht.good.tree h hw hfiles hname, ?_⟩
  obtain ⟨e', he', haddr, hnear'⟩ := hnear.grow h hw
  exact ⟨e', he', haddr.trans hcur, hroot ▸ hnear'⟩

/-- A line keeps order. -/
theorem Tidy.enters (ht : s.Tidy L R v) (hbuf : CmdBuffer L R cmdBuffer) (hlow : R.slash < L.freeList)
    (hrun : nameOf line ≠ ascii "run") (h : Enters L R initElf cmdBuffer s line s') : ∃ v', s'.Tidy L R v' := by
  obtain ⟨d, hd, hcur, hnear⟩ := ht.current
  obtain ⟨k, hk⟩ := List.getElem?_of_mem hd
  have hfiles := ht.orderly.files d hd
  have hlen : line.length ≤ cmdMaxLen - 1 := by
    obtain ⟨m, -, -, hlen, -⟩ := h
    exact hlen
  obtain ⟨w, hgood, hroot, heffect⟩ := h.next ht.good hbuf hk hcur hrun fun _ => ⟨hlow, ht.orderly.parented, hnear⟩
  refine ⟨w, ?_⟩
  generalize hc : s'.currentDir = c at heffect
  cases heffect with
  | idle => exact ht.grow hgood hroot (Volume.grows_pool hk _) hfiles nofun (hcur.trans hc.symm) hnear
  | touch hnone =>
    exact ht.grow hgood hroot (Volume.grows_createFile hk _ _) (Volume.files_createFile hfiles hnone _ _) nofun
      (hcur.trans hc.symm) hnear
  | mkdir _ _ hnew =>
    obtain ⟨hgrows, htext⟩ := Volume.grows_createDir hk _
    exact ht.grow hgood hroot hgrows (Volume.files_createDir hfiles _ _)
      (fun e he x hx hin hne => (htext e he).symm ▸ hnew x hx hin hne) (hcur.trans hc.symm) hnear
  | rm =>
    exact ht.grow hgood hroot (Volume.grows_deleteFile hk _) (Volume.files_deleteFile hfiles _ _) nofun
      (hcur.trans hc.symm) hnear
  | cd hargs hr hra he hdown hn =>
    have hshort := argsOf_length hargs
    obtain ⟨es, hline, hes⟩ := hdown.lineage (.top hr hra)
    have hmax : 0 < cmdMaxLen := by decide
    rw [List.length_singleton] at hes
    exact ht.grow hgood hroot (Volume.grows_pool hk _) hfiles nofun hc.symm ⟨es, hline, Or.inr (by omega)⟩

/-! ### Order in memory -/

theorem Tidy.wellFormed (ht : s.Tidy L R v) : s.WellFormed := by
  have hg := ht.good
  have hmem : ∀ {dir}, s.heap.InTree s.systemRoot dir → ∃ d ∈ v.dirs, d.addr = dir := fun h =>
    (hg.owns.inTree_iff hg.tree).mp h
  have hparents := hg.parented_iff.mpr ht.orderly.parented
  have hsub : ∀ {d i}, d ∈ v.dirs → i < s.heap.word d.addr RamfsDir.subdirCount →
      d.subdirNodes[i]? = some (s.heap.subdirAt d.addr i) := fun {d i} hd hi => by
    rw [hg.subdirCount hd] at hi
    rw [List.getElem?_eq_getElem hi, hg.subdirAt hd (List.getElem?_eq_getElem hi)]
  refine ⟨fun dir i j text hdir hi hj hname hname' => ?_, fun dir i j text hdir hi hj hname hname' => ?_, hparents.sub,
    fun dir dir' i j hdir hdir' hi hj he => ?_, fun dir i hdir hi he => ?_, fun dir hdir => ?_, ?_⟩
  · obtain ⟨d, hd, rfl⟩ := hmem hdir
    rw [hg.fileCount hd] at hi hj
    have hget := List.getElem?_eq_getElem hi
    have hget' := List.getElem?_eq_getElem hj
    rw [hg.fileAt hd hget, hg.hasName_file hd (List.getElem_mem hi)] at hname
    rw [hg.fileAt hd hget', hg.hasName_file hd (List.getElem_mem hj)] at hname'
    have hi' : i < (d.fileNodes.map FileNode.text).length := by rwa [List.length_map]
    have hj' : j < (d.fileNodes.map FileNode.text).length := by rwa [List.length_map]
    have hsame : (d.fileNodes.map FileNode.text)[i] = (d.fileNodes.map FileNode.text)[j] := by
      rw [List.getElem_map, List.getElem_map, hname, hname']
    exact (List.Nodup.getElem_inj_iff (ht.orderly.files d hd)).mp hsame
  · obtain ⟨d, hd, rfl⟩ := hmem hdir
    have hget := hsub hd hi
    have hget' := hsub hd hj
    obtain ⟨e, he, hea⟩ := hg.subdirNode hd (List.mem_of_getElem? hget)
    obtain ⟨e', he', hea'⟩ := hg.subdirNode hd (List.mem_of_getElem? hget')
    rw [← hea, hg.hasName_dir he] at hname
    rw [← hea', hg.hasName_dir he'] at hname'
    have hsame := ht.orderly.subs d hd e he e' he' (hea ▸ List.mem_of_getElem? hget) (hea' ▸ List.mem_of_getElem? hget')
      hname.1 hname'.1 (hname.2.trans hname'.2.symm)
    rw [← hea, hsame, hea', ← hget'] at hget
    exact (List.getElem?_inj (by rwa [← hg.subdirCount hd]) (Volume.subdirs_nodup hg.tree hd)).mp hget
  · obtain ⟨d, hd, rfl⟩ := hmem hdir
    obtain ⟨d', hd', rfl⟩ := hmem hdir'
    have hget := hsub hd hi
    have hget' := hsub hd' hj
    rw [← he] at hget'
    obtain rfl := Volume.eq_of_mem_subdirs hg.tree hd hd' (List.mem_of_getElem? hget) (List.mem_of_getElem? hget')
    exact ⟨rfl, (List.getElem?_inj (by rwa [← hg.subdirCount hd]) (Volume.subdirs_nodup hg.tree hd)).mp
      (hget.trans hget'.symm)⟩
  · obtain ⟨d, hd, rfl⟩ := hmem hdir
    have hget := hsub hd hi
    rw [he] at hget
    exact (Volume.once hg.tree).1 (List.mem_flatMap.mpr ⟨d, hd, List.mem_of_getElem? hget⟩)
  · obtain ⟨d, hd, rfl⟩ := hmem hdir
    obtain ⟨ds, hline⟩ := Volume.exists_lineage hg.tree hd
    clear hdir
    induction hline with
    | top _ hroot =>
      rw [hroot]
      exact .top hparents.top
    | under hup he hin ih =>
      have hparent := (hg.dirAt he).record RamfsDir.parent _ rfl
      rw [ht.orderly.parented.sub _ hup.mem _ he hin] at hparent
      refine .under ?_ ?_
      · rw [hparent]
        exact hg.addr_ne_zero hup.mem
      · rw [hparent]
        exact ih hup.mem
  · obtain ⟨d, hd, hcur, -⟩ := ht.current
    exact hcur ▸ hg.inTree hd

theorem tidy_of_wellFormed (hg : s.mount.Good L R v) (hw : s.WellFormed)
    (hnames : ∀ dir, s.heap.InTree s.systemRoot dir → s.heap.word dir RamfsDir.name ≠ 0) : s.Tidy L R v := by
  have hparented : v.Parented s.systemRoot := hg.parented_iff.mp ⟨(hw.rises _ .root).root, hw.parent⟩
  refine ⟨hg, ⟨hparented, fun d hd => ?_, hg.distinct hw.subs⟩, ?_⟩
  · refine List.nodup_iff_injective_getElem.mpr fun i j hij => Fin.ext ?_
    have hi : i.val < d.fileNodes.length := by simpa using i.isLt
    have hj : j.val < d.fileNodes.length := by simpa using j.isLt
    dsimp only at hij
    rw [List.getElem_map, List.getElem_map] at hij
    refine hw.files d.addr i j d.fileNodes[i.val].text (hg.inTree hd) (by rwa [hg.fileCount hd])
      (by rwa [hg.fileCount hd]) ?_ ?_
    · rw [hg.fileAt hd (List.getElem?_eq_getElem hi)]
      exact (hg.hasName_file hd (List.getElem_mem hi)).mpr rfl
    · rw [hg.fileAt hd (List.getElem?_eq_getElem hj)]
      exact (hg.hasName_file hd (List.getElem_mem hj)).mpr hij.symm
  · obtain ⟨d, hd, hcur⟩ := (hg.owns.inTree_iff hg.tree).mp hw.current
    obtain ⟨ds, hline⟩ := Volume.exists_lineage hg.tree hd
    refine ⟨d, hd, hcur, ds, hline, Or.inl fun e he => ?_⟩
    have hname := hnames e.addr (hg.inTree (hline.subset he))
    rwa [show s.heap.word e.addr RamfsDir.name =
      e.name from (hg.dirAt (hline.subset he)).record RamfsDir.name _ rfl] at hname

/-! ### Sessions -/

/-- A shell on a tree that is one, where all directories have names. -/
def Fit (L : Layout) (R : Rodata) (s : Shell) : Prop :=
  (∃ v, s.mount.Good L R v) ∧ s.WellFormed ∧ ∀ dir, s.heap.InTree s.systemRoot dir → s.heap.word dir RamfsDir.name ≠ 0

/-- Whatever lines are entered, the tree stays one. -/
theorem stays_wellFormed (hbuf : CmdBuffer L R cmdBuffer) (hlow : R.slash < L.freeList) {tr : List (Shell × List UInt8)}
    (hrun : Run (Fit L R) (Enters L R initElf cmdBuffer) tr s)
    (hlines : ∀ x ∈ tr, nameOf x.2 ≠ ascii "run") : s.WellFormed := by
  obtain ⟨⟨v, ht⟩, -⟩ := hrun.invariant_of (I := fun s => ∃ v, s.Tidy L R v)
    (C := fun _ line => nameOf line ≠ ascii "run")
    (fun s h => by
      obtain ⟨⟨v, hg⟩, hw, hnames⟩ := h
      exact ⟨v, tidy_of_wellFormed hg hw hnames⟩)
    (fun s line s' h hline hstep => by
      obtain ⟨v, ht⟩ := h
      exact ht.enters hbuf hlow hline hstep) hlines
  exact ht.wellFormed

/-! ### Lines on a booted machine -/

/-- The buffer with a line in it. -/
def withLine (m : Memory) (cmdBuffer : Nat) (line : List UInt8) : Memory :=
  {m with byte := fun x => if cmdBuffer ≤ x ∧ x < cmdBuffer + cmdMaxLen then line.getD (x - cmdBuffer) 0 else m.byte x}

/-- Lines one after another, as long as they fit into the buffer. -/
def enterAll (L : Layout) (R : Rodata) (initElf : Ramfs → Nat → Option Ramfs) (cmdBuffer : Nat) (s : Shell) :
    List (List UInt8) → Option Shell
  | [] => some s
  | line :: lines =>
    if 0 ∉ line ∧ line.length ≤ cmdMaxLen - 1 then
      ((s.withMem (withLine s.mem cmdBuffer line)).handleCommand L R initElf cmdBuffer).bind fun s' =>
        enterAll L R initElf cmdBuffer s' lines
    else none

theorem withLine_isStr {m : Memory} (h0 : 0 ∉ line) (hlen : line.length ≤ cmdMaxLen - 1)
    (hroom : cmdBuffer + cmdMaxLen < addressSpace) : IsStr (withLine m cmdBuffer line) cmdBuffer line := by
  have hmax : 0 < cmdMaxLen := by decide
  apply IsStr.of_getD _ h0 (by omega)
  intro i hi
  unfold withLine
  dsimp only
  rw [if_pos (by omega), Nat.add_sub_cancel_left]

theorem enterAll_cons {lines : List (List UInt8)} (hroom : cmdBuffer + cmdMaxLen < addressSpace)
    (h : s.enterAll L R initElf cmdBuffer (line :: lines) = some s') :
    ∃ s₁, Enters L R initElf cmdBuffer s line s₁ ∧ s₁.enterAll L R initElf cmdBuffer lines = some s' := by
  unfold enterAll at h
  split at h
  · next hline =>
    obtain ⟨s₁, hs₁, h⟩ := Option.bind_eq_some_iff.mp h
    exact ⟨s₁, ⟨_, fun x hx => if_neg hx, withLine_isStr hline.1 hline.2 hroom, hline.2, hs₁⟩, h⟩
  · cases h

theorem run_enterAll {init : Shell → Prop} {tr : List (Shell × List UInt8)} {lines : List (List UInt8)}
    (hrun : Run init (Enters L R initElf cmdBuffer) tr s) (hroom : cmdBuffer + cmdMaxLen < addressSpace)
    (h : s.enterAll L R initElf cmdBuffer lines = some s') :
    ∃ tr', Run init (Enters L R initElf cmdBuffer) (tr ++ tr') s' ∧ tr'.map Prod.snd = lines := by
  induction lines generalizing s tr with
  | nil =>
    cases h
    exact ⟨[], by rwa [List.append_nil], rfl⟩
  | cons line lines ih =>
    obtain ⟨s₁, hstep, h⟩ := enterAll_cons hroom h
    obtain ⟨tr', hrun', hlines⟩ := ih (hrun.next hstep) h
    rw [List.append_assoc] at hrun'
    exact ⟨_, hrun', congrArg (line :: ·) hlines⟩

/-- The shell of a booted machine. -/
def atRoot (s : Mount) : Shell := ⟨s, s.root⟩

def bootBuffer : Nat := 0x2000

theorem cmdBuffer_boot : CmdBuffer .kernelImage Mount.bootRodata bootBuffer := by
  unfold CmdBuffer
  decide +kernel

theorem fit_of_booted {s : Mount} (h : Mount.booted = some s) : Fit .kernelImage Mount.bootRodata (atRoot s) := by
  obtain ⟨P, name, hg⟩ := Mount.good_of_fresh (Mount.fresh_of_booted h)
  have hone : ∀ d ∈ (Mount.emptyVolume P s.root name).dirs, d =
    ⟨s.root, name, ascii "/", 0, 0, [], 0, []⟩ := fun d hd =>
    List.mem_singleton.mp hd
  have ht : (atRoot s).Tidy .kernelImage Mount.bootRodata (Mount.emptyVolume P s.root name) := by
    refine ⟨hg, ⟨⟨fun d hd _ => ?_, fun d hd e _ hin => ?_⟩, fun d hd => ?_, fun d hd e _ e' _ hin => ?_⟩,
      _, List.mem_singleton_self _, rfl, _, .top (List.mem_singleton_self _) rfl, Or.inr (show 1 < cmdMaxLen by decide)⟩
    · rw [hone d hd]
    · rw [hone d hd] at hin
      cases hin
    · rw [hone d hd]
      exact List.nodup_nil
    · rw [hone d hd] at hin
      cases hin
  refine ⟨⟨_, hg⟩, ht.wellFormed, fun dir hdir => ?_⟩
  obtain ⟨d, hd, rfl⟩ := (hg.owns.inTree_iff hg.tree).mp hdir
  have hnamed : Mount.booted.any fun s => s.heap.word s.root RamfsDir.name ≠ 0 := by decide +kernel
  rw [hone d hd]
  rw [h] at hnamed
  exact of_decide_eq_true hnamed

def bootLines : List (List UInt8) := [ascii "mkdir a", ascii "cd a", ascii "touch b", ascii "pwd"]

theorem stays_wellFormed_boot : ∃ s s', Mount.booted = some s ∧
    (atRoot s).enterAll .kernelImage Mount.bootRodata (fun _ _ => none) bootBuffer bootLines = some s' ∧
      s'.WellFormed := by
  have hrun : Mount.booted.any fun s => ((atRoot s).enterAll .kernelImage Mount.bootRodata (fun _ _ => none) bootBuffer
      bootLines).isSome := by decide +kernel
  obtain ⟨s, hboot, hrun⟩ := (Option.any_eq_true _ _).mp hrun
  obtain ⟨s', hentered⟩ := Option.isSome_iff_exists.mp hrun
  obtain ⟨tr, hrun, hlines⟩ := run_enterAll (.start (fit_of_booted hboot)) (by decide) hentered
  refine ⟨s, s', hboot, hentered, stays_wellFormed cmdBuffer_boot (by decide) hrun fun x hx => ?_⟩
  have hline : x.2 ∈ bootLines := hlines ▸ List.mem_map_of_mem hx
  exact (by decide : ∀ line ∈ bootLines, nameOf line ≠ ascii "run") _ hline

end Shell
end ShompOS
