import ShompOS.Fs.Paths
import ShompOS.Shell.WellFormed

/-! Directories and their paths.

`ramfs_mkdir` takes whatever it is given for a name, an empty string or one with
slashes in it; `ramfs_find_dir` finds names between slashes. As long as the names
given to it are such, every directory is found by its path. -/
namespace ShompOS
open Memory

/-- The names on the way from a directory down to another. -/
inductive Heap.Way (h : Heap) : Nat → List (List UInt8) → Nat → Prop
  | here {dir : Nat} : Way h dir [] dir
  | down {dir i a : Nat} {name : List UInt8} {names : List (List UInt8)} : i < h.word dir RamfsDir.subdirCount →
      h.HasName (h.subdirAt dir i) name → Way h (h.subdirAt dir i) names a → Way h dir (name :: names) a

/-- All names below the root are plain, and no two subdirectories of a directory have the same. -/
structure Heap.PlainSubs (h : Heap) (root : Nat) : Prop where
  plain : ∀ dir i, h.InTree root dir → i < h.word dir RamfsDir.subdirCount →
    ∃ text, h.HasName (h.subdirAt dir i) text ∧ Plain text
  once : ∀ dir i j text, h.InTree root dir → i < h.word dir RamfsDir.subdirCount → j < h.word dir RamfsDir.subdirCount →
    h.HasName (h.subdirAt dir i) text → h.HasName (h.subdirAt dir j) text → i = j

/-- The path of a directory below the root. -/
def dirPath (names : List (List UInt8)) : List UInt8 := if names = [] then [0x2F] else names.flatMap (0x2F :: ·)

theorem components_dirPath {names : List (List UInt8)} (h : ∀ name ∈ names, Plain name) :
    components (dirPath names) = names := by
  have hflat : tokens 0x2F (names.flatMap (0x2F :: ·)) = names := by
    induction names with
    | nil => rw [List.flatMap_nil, tokens, if_pos List.dropWhile_nil]
    | cons name names ih =>
      have hname := h name (List.mem_cons_self ..)
      have hrest : ∀ x ∈ (names.flatMap (0x2F :: ·)).head?, x = 0x2F := by
        intro x hx
        cases names with
        | nil => cases hx
        | cons next names => exact (Option.some.inj hx).symm
      have hslash : ∀ x ∈ [(0x2F : UInt8)], x = 0x2F := fun x hx => List.mem_singleton.mp hx
      have hcut := tokens_append hslash (fun x hx he => hname.2 (he ▸ hx)) hname.1 hrest
      rw [List.flatMap_cons, show (0x2F :: name) ++ names.flatMap (0x2F :: ·) = [0x2F] ++
        (name ++ names.flatMap (0x2F :: ·)) from rfl,
        hcut, ih fun n hn => h n (List.mem_cons_of_mem _ hn)]
  unfold components dirPath
  rw [← tokens_eq_splitOn]
  by_cases hnil : names = []
  · rw [if_pos hnil, hnil, tokens_cons, tokens, if_pos List.dropWhile_nil]
  · rw [if_neg hnil, hflat]

namespace Volume
variable {v w : Volume} {k : Nat} {d d' e : DirNode} {new : Option DirNode}

/-- All subdirectories have plain names. -/
def PlainSubs (v : Volume) : Prop := ∀ d ∈ v.dirs, ∀ e ∈ v.dirs, e.addr ∈ d.subdirNodes → e.name ≠ 0 ∧ Plain e.text

theorem PlainSubs.named (h : v.PlainSubs) : v.Named := fun d hd _ ha e he hea => (h d hd e he (hea ▸ ha)).1

theorem PlainSubs.grow (hv : v.PlainSubs) (h : v.Grows w k d d' new) (hclosed : v.Closed)
    (hw : (w.dirs.map DirNode.addr).Nodup)
    (hnew : ∀ e ∈ new, e.name ≠ 0 ∧ Plain e.text) : w.PlainSubs := by
  intro y hy z hz hin
  obtain ⟨x, hx⟩ := h.was hy hin
  cases h.sub_cases hclosed hw hx hz hin with
  | inl hu =>
    obtain ⟨u, hu, hin⟩ := hu
    obtain ⟨-, hname, htext, -⟩ := h.same hu
    rw [hname, htext]
    exact hv x hx.1 u hu.1 hin
  | inr hz => exact hnew z hz.2

/-- The name of a new directory is where its copy was put. -/
theorem createDir_name {P : Pool} {text : List UInt8} (he : e ∈ (d.createDir P text).2.2.1) :
    (P.allocate RamfsDir.bytes).2 ≠ 0 ∧ e.name = ((P.allocate RamfsDir.bytes).1.allocate (text.length + 1)).2 := by
  unfold DirNode.createDir at he
  dsimp only at he
  by_cases h1 : (P.allocate RamfsDir.bytes).2 = 0
  · rw [if_pos h1] at he
    cases he
  rw [if_neg h1] at he
  refine ⟨h1, ?_⟩
  generalize ((P.allocate RamfsDir.bytes).1.allocate (text.length + 1)) = r₂ at he ⊢
  by_cases h2 : (r₂.1.allocate (4 * (d.subdirNodes.length + 1))).2 = 0
  · rw [if_pos h2] at he
    cases he
  · rw [if_neg h2] at he
    cases he
    rfl

end Volume

/-! ### Down the tree -/

namespace Mount
variable {L : Layout} {R : Rodata} {s : Mount} {v : Volume} {d : DirNode} {a : Nat} {names : List (List UInt8)}

theorem Good.distinct_of_plainSubs (hg : s.Good L R v) (h : s.heap.PlainSubs s.root) : v.Distinct ∧ v.PlainSubs := by
  refine ⟨hg.distinct h.once, fun d hd e he hin => ?_⟩
  obtain ⟨i, hi⟩ := List.getElem?_of_mem hin
  obtain ⟨text, hname, hplain⟩ := h.plain d.addr i (hg.inTree hd)
    (by rw [hg.subdirCount hd]; exact (List.getElem?_eq_some_iff.mp hi).1)
  rw [hg.subdirAt hd hi, hg.hasName_dir he] at hname
  exact ⟨hname.1, hname.2 ▸ hplain⟩

/-- The walk goes the way down. -/
theorem Good.way (hg : s.Good L R v) (hdistinct : v.Distinct) (hplain : v.PlainSubs)
    (h : s.heap.Way d.addr names a) (hd : d ∈ v.dirs) :
    (∀ name ∈ names, Plain name) ∧ v.walk d.addr names = a := by
  generalize hdir : d.addr = dir at h
  induction h generalizing d with
  | here => exact ⟨nofun, rfl⟩
  | @down dir i a name names hi hname _ ih =>
    subst hdir
    rw [hg.subdirCount hd] at hi
    have hget := List.getElem?_eq_getElem hi
    have hin := List.getElem_mem hi
    rw [hg.subdirAt hd hget] at hname ih
    obtain ⟨e, he, hea⟩ := hg.subdirNode hd hin
    rw [← hea] at hname hin
    obtain ⟨hn, htext⟩ := (hg.hasName_dir he).mp hname
    obtain ⟨hnames, hwalk⟩ := ih he hea
    refine ⟨fun n hn => (List.mem_cons.mp hn).elim (fun h => h ▸ htext ▸ (hplain d hd e he hin).2) (hnames n), ?_⟩
    rw [Volume.walk_cons hg.owns.dirs_nodup hd]
    -- no other subdirectory has the name
    have hfind : d.subdirNodes.find? (fun b => v.textAt b = name) = some e.addr := by
      have htextAt := Volume.textAt_eq hg.owns.dirs_nodup he
      cases hfound : d.subdirNodes.find? fun b => v.textAt b = name with
      | none =>
        have hnot := List.find?_eq_none.mp hfound _ hin
        rw [htextAt, htext] at hnot
        exact absurd (decide_eq_true rfl) hnot
      | some b =>
        have hb := List.mem_of_find?_eq_some hfound
        have hbname : v.textAt b = name := by simpa using List.find?_some hfound
        obtain ⟨e', he', rfl⟩ := hg.subdirNode hd hb
        rw [Volume.textAt_eq hg.owns.dirs_nodup he'] at hbname
        rw [hdistinct d hd e' he' e he hb hin (hplain d hd e' he' hb).1 hn (hbname.trans htext.symm)]
    rw [hfind, Option.elim_some, ← hwalk, hea]

end Mount

namespace Shell
variable {L : Layout} {R : Rodata} {initElf : Ramfs → Nat → Option Ramfs} {cmdBuffer : Nat} {s s' : Shell} {v : Volume}
  {line : List UInt8}

/-- Every directory of the tree is found by its path. This may be anywhere in static
memory, and there is to be memory for a copy of it. -/
def Reaches (L : Layout) (R : Rodata) (s : Shell) : Prop :=
  ∀ names dir m path, s.heap.Way s.systemRoot names dir → (∀ x, ¬ (L.Static x ∧ ¬ R.Byte x) → m.byte x = s.mem.byte x) →
    path ≠ 0 → (s.withMem m).mount.Passes L path (dirPath names) → (s.withMem m).mount.Copies L path →
    ∃ r, (s.withMem m).ramfs.ramfsCd L R s.systemRoot path = some (r, dir)

/-- A name given to `mkdir` is plain, and if there is memory for a new directory there is
some for its name too. -/
def Spells (L : Layout) (s : Shell) (line : List UInt8) : Prop :=
  nameOf line = ascii "mkdir" → ∀ text, argsOf line = some text →
    Plain text ∧ s.heap.served L [RamfsDir.bytes, text.length + 1] ≠ some [true, false]

/-- The shell has a volume of plain names, and is in a directory of it. -/
structure Plainly (L : Layout) (R : Rodata) (s : Shell) (v : Volume) : Prop where
  good : s.mount.Good L R v
  distinct : v.Distinct
  plain : v.PlainSubs
  current : ∃ d ∈ v.dirs, d.addr = s.currentDir

theorem Plainly.grow {w : Volume} {k : Nat} {d d' e : DirNode} {new : Option DirNode} (hp : s.Plainly L R v)
    (hgood : s'.mount.Good L R w) (h : v.Grows w k d d' new) (hnew : ∀ e ∈ new, e.name ≠ 0 ∧ Plain e.text)
    (hname : ∀ e ∈ new, ∀ x ∈ v.dirs, x.addr ∈ d.subdirNodes → x.name ≠ 0 → x.text ≠ e.text)
    (he : e ∈ v.dirs) (hcur : e.addr = s'.currentDir) : s'.Plainly L R w := by
  have hw := hgood.owns.dirs_nodup
  have hclosed := hp.good.tree.volume_closed
  obtain ⟨e', he', hwas, -⟩ := h.exists_of he
  exact ⟨hgood, hp.distinct.grow h hclosed hw hname, hp.plain.grow h hclosed hw hnew, e', he',
    (h.same hwas).1.trans hcur⟩

/-- A line keeps it so. -/
theorem Plainly.enters (hp : s.Plainly L R v) (hbuf : CmdBuffer L R cmdBuffer)
    (hline : nameOf line ∉ [ascii "run", ascii "ls", ascii "pwd"]) (hspells : s.Spells L line)
    (h : Enters L R initElf cmdBuffer s line s') : ∃ v', s'.Plainly L R v' := by
  obtain ⟨d, hd, hcur⟩ := hp.current
  obtain ⟨k, hk⟩ := List.getElem?_of_mem hd
  simp only [List.mem_cons, List.not_mem_nil, or_false, not_or] at hline
  obtain ⟨w, hgood, -, heffect⟩ := h.next hp.good hbuf hk hcur hline.1 fun h => absurd h (not_or.mpr hline.2)
  refine ⟨w, ?_⟩
  generalize hc : s'.currentDir = c at heffect
  cases heffect with
  | idle => exact hp.grow hgood (Volume.grows_pool hk _) nofun nofun hd (hcur.trans hc.symm)
  | touch => exact hp.grow hgood (Volume.grows_createFile hk _ _) nofun nofun hd (hcur.trans hc.symm)
  | @mkdir text hmkdir hargs hnew =>
    obtain ⟨hgrows, htext⟩ := Volume.grows_createDir hk text
    obtain ⟨hplain, hserved⟩ := hspells hmkdir text hargs
    rw [hp.good.owns.represents.served] at hserved
    refine hp.grow hgood hgrows (fun e he => ⟨fun h0 => ?_, htext e he ▸ hplain⟩)
      (fun e he x hx hin hne => (htext e he).symm ▸ hnew x hx hin hne) hd (hcur.trans hc.symm)
    obtain ⟨hrecord, hname⟩ := Volume.createDir_name he
    apply hserved
    unfold Pool.served Pool.served Pool.served
    rw [← hname, h0]
    simpa using hrecord
  | rm => exact hp.grow hgood (Volume.grows_deleteFile hk _) nofun nofun hd (hcur.trans hc.symm)
  | cd _ _ _ he => exact hp.grow hgood (Volume.grows_pool hk _) nofun nofun he hc.symm

theorem Plainly.reaches (hp : s.Plainly L R v) : s.Reaches L R := by
  intro names dir m path hway hm hpath0 hpath hcopies
  have hg := good_static hp.good hm
  obtain ⟨root, hroot, hroot'⟩ := (hp.good.owns.inTree_iff hp.good.tree).mp .root
  rw [← show root.addr = s.systemRoot from hroot'] at hway
  obtain ⟨hplain, hwalk⟩ := hp.good.way hp.distinct hp.plain hway hroot
  obtain ⟨r, dir', P, hcall, -, -, hfound⟩ := hg.cd hpath hpath0
  refine ⟨r, ?_⟩
  rw [Mount.Volume.findDir_eq ((hg.copies_iff hpath).mp hcopies), components_dirPath hplain, ← show root.addr =
    (s.withMem m).mount.root from hroot',
    hwalk] at hfound
  rw [← hfound hp.plain.named]
  exact hcall

/-- A shell in a directory of a tree with plain names. -/
def OnPlainTree (L : Layout) (R : Rodata) (s : Shell) : Prop :=
  (∃ v, s.mount.Good L R v) ∧ s.heap.PlainSubs s.systemRoot ∧ s.heap.InTree s.systemRoot s.currentDir

theorem stays_reachable (hbuf : CmdBuffer L R cmdBuffer) {tr : List (Shell × List UInt8)}
    (hrun : Run (OnPlainTree L R) (Enters L R initElf cmdBuffer) tr s)
    (hlines : ∀ x ∈ tr, nameOf x.2 ∉ [ascii "run", ascii "ls", ascii "pwd"] ∧ x.1.Spells L x.2) :
    s.Reaches L R ∧ ∀ x ∈ tr, x.1.Reaches L R := by
  obtain ⟨hend, hall⟩ := hrun.invariant_of (I := fun s => ∃ v, s.Plainly L R v)
    (C := fun s line => nameOf line ∉ [ascii "run", ascii "ls", ascii "pwd"] ∧ s.Spells L line)
    (fun s h => by
      obtain ⟨⟨v, hg⟩, hsubs, hcur⟩ := h
      obtain ⟨hdistinct, hplain⟩ := hg.distinct_of_plainSubs hsubs
      exact ⟨v, hg, hdistinct, hplain, (hg.owns.inTree_iff hg.tree).mp hcur⟩)
    (fun s line s' h hline hstep => by
      obtain ⟨v, hp⟩ := h
      exact hp.enters hbuf hline.1 hline.2 hstep) hlines
  refine ⟨?_, fun x hx => ?_⟩
  · obtain ⟨v, hp⟩ := hend
    exact hp.reaches
  · obtain ⟨v, hp⟩ := hall x hx
    exact hp.reaches

theorem onPlainTree_of_booted {s : Mount} (h : Mount.booted = some s) :
    OnPlainTree .kernelImage Mount.bootRodata (atRoot s) := by
  obtain ⟨P, name, hg⟩ := Mount.good_of_fresh (Mount.fresh_of_booted h)
  have hnone : ∀ dir, s.heap.InTree s.root dir → s.heap.word dir RamfsDir.subdirCount = 0 := by
    intro dir hdir
    obtain ⟨d, hd, rfl⟩ := (hg.owns.inTree_iff hg.tree).mp hdir
    rw [hg.subdirCount hd, List.mem_singleton.mp hd]
    rfl
  refine ⟨⟨_, hg⟩, ⟨fun dir i hdir hi => ?_, fun dir i j text hdir hi => ?_⟩, .root⟩ <;>
  · rw [show (atRoot s).heap.word dir RamfsDir.subdirCount = 0 from hnone dir hdir] at hi
    exact absurd hi (Nat.not_lt_zero i)

theorem stays_reachable_below : ∃ s s', Mount.booted = some s ∧
    (atRoot s).enterAll .kernelImage Mount.bootRodata (fun _ _ => none) bootBuffer
      [ascii "mkdir a", ascii "cd a"] = some s' ∧
    s'.Reaches .kernelImage Mount.bootRodata := by
  have hrun : Mount.booted.any fun s => (atRoot s).heap.served .kernelImage
    [RamfsDir.bytes, (ascii "a").length + 1] ≠ some [true, false] ∧
      ((atRoot s).enterAll .kernelImage Mount.bootRodata (fun _ _ => none) bootBuffer
        [ascii "mkdir a", ascii "cd a"]).isSome := by
    decide +kernel
  obtain ⟨s, hboot, hrun⟩ := (Option.any_eq_true _ _).mp hrun
  obtain ⟨hserved, hrun⟩ := of_decide_eq_true hrun
  obtain ⟨s', hentered⟩ := Option.isSome_iff_exists.mp hrun
  obtain ⟨s₁, h₁, hrest⟩ := enterAll_cons (by decide) hentered
  obtain ⟨s₂, h₂, he⟩ := enterAll_cons (by decide) hrest
  cases he
  refine ⟨s, s', hboot, hentered, (stays_reachable cmdBuffer_boot
    (((Run.start (onPlainTree_of_booted hboot)).next h₁).next h₂) fun x hx => ?_).1⟩
  rw [List.nil_append, List.mem_append, List.mem_singleton, List.mem_singleton] at hx
  cases hx with
  | inl hx =>
    rw [hx]
    refine ⟨(by decide : nameOf (ascii "mkdir a") ∉ _), fun _ text htext => ?_⟩
    obtain rfl : ascii "a" = text := Option.some.inj htext
    exact ⟨by decide, hserved⟩
  | inr hx =>
    rw [hx]
    exact ⟨(by decide : nameOf (ascii "cd a") ∉ _),
      fun h => absurd h (by decide : nameOf (ascii "cd a") ≠ ascii "mkdir")⟩

/-- `mkdir` with nothing behind the space makes a directory without a name. -/
theorem empty_name_not_reached : ¬ ∀ tr s, Run (OnPlainTree .kernelImage Mount.bootRodata)
    (Enters .kernelImage Mount.bootRodata (fun _ _ => none) bootBuffer) tr s →
    (∀ x ∈ tr, nameOf x.2 ∈ [ascii "mkdir", ascii "touch", ascii "rm", ascii "cd"]) →
      s.Reaches .kernelImage Mount.bootRodata := by
  have hrun : Mount.booted.any fun s =>
      ((atRoot s).enterAll .kernelImage Mount.bootRodata (fun _ _ => none) bootBuffer [ascii "mkdir "]).any fun s' =>
        0 < s'.heap.word s'.systemRoot RamfsDir.subdirCount ∧
        s'.heap.word (s'.heap.subdirAt s'.systemRoot 0) RamfsDir.name ≠ 0 ∧
        s'.heap.word (s'.heap.subdirAt s'.systemRoot 0) RamfsDir.name + 1 < addressSpace ∧
        s'.mem.byte (s'.heap.word (s'.heap.subdirAt s'.systemRoot 0) RamfsDir.name) = 0 ∧
        Mount.staticText .kernelImage s'.mem 64 0x1000 = some [0x2F] ∧ s'.mount.Copies .kernelImage 0x1000 ∧
        (s'.ramfs.ramfsCd .kernelImage Mount.bootRodata s'.systemRoot 0x1000).any fun r =>
          r.2 ≠ s'.heap.subdirAt s'.systemRoot 0 := by decide +kernel
  obtain ⟨s, hboot, hrun⟩ := (Option.any_eq_true _ _).mp hrun
  obtain ⟨s', hentered, hrun⟩ := (Option.any_eq_true _ _).mp hrun
  obtain ⟨hcount, hname, hroom, hend, hpath, hcopies, hcd⟩ := of_decide_eq_true hrun
  obtain ⟨s₁, h₁, he⟩ := enterAll_cons (by decide) hentered
  cases he
  obtain ⟨⟨r, dir⟩, hcd, hother⟩ := (Option.any_eq_true _ _).mp hcd
  have hother : dir ≠ s'.heap.subdirAt s'.systemRoot 0 := of_decide_eq_true hother
  obtain ⟨hstr, hstatic⟩ := Mount.staticText_passes hpath
  have hway : s'.heap.Way s'.systemRoot [[]] (s'.heap.subdirAt s'.systemRoot 0) :=
    .down hcount ⟨hname, ⟨nofun, hend, List.not_mem_nil, hroom⟩⟩ .here
  intro h
  have hreaches := h _ s' ((Run.start (onPlainTree_of_booted hboot)).next h₁) fun x hx => by
    rw [List.nil_append, List.mem_singleton] at hx
    rw [hx]
    exact (by decide : nameOf (ascii "mkdir ") ∈ [ascii "mkdir", ascii "touch", ascii "rm", ascii "cd"])
  obtain ⟨r', hr'⟩ := hreaches [[]] _ s'.mem 0x1000 hway (fun _ _ => rfl) (by decide)
    ⟨hstr, fun i hi => Or.inl (hstatic i hi)⟩ hcopies
  have hsame := Option.some.inj (hcd.symm.trans hr')
  exact hother (Prod.mk.inj hsame).2

end Shell
end ShompOS
