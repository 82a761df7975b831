import ShompOS.Fs.Names

/-! Looking paths up, and opening files by them.

`ramfs_find_dir` takes a path apart at every slash. `ramfs_open` cuts it at the
first one only, so that what it takes for the name of the file still has a slash in
it if the path has two. -/
namespace ShompOS
open Memory

namespace Mount
variable {L : Layout} {R : Rodata} {s s' : Mount} {v v' : Volume} {d : DirNode} {f : FileNode}
  {root path a : Nat} {r : Int}
  {text name : List UInt8} {names : List (List UInt8)}

/-! ### ramfs_find_dir -/

/-- There is memory for a copy of a string. -/
def Copies (L : Layout) (s : Mount) (path : Nat) : Prop := ∃ h p, s.heap.strdup L path = some (h, p) ∧ p ≠ 0

instance : Decidable (s.Copies L path) :=
  decidable_of_iff ((s.heap.strdup L path).any fun (_, p) => p ≠ 0) (by
    unfold Copies
    simp only [Option.any_eq_true, decide_eq_true_eq, Prod.exists])

theorem Good.copies_iff (hg : s.Good L R v) (hpath : s.Passes L path text) :
    s.Copies L path ↔ (v.pool.allocate (text.length + 1)).2 ≠ 0 := by
  obtain ⟨h', hcall, -⟩ := hg.owns.strdup (hpath.lent.mono (List.subset_append_right _ _))
  unfold Copies
  rw [hcall]
  exact ⟨fun ⟨h, p, he, hp⟩ => (Prod.mk.inj (Option.some.inj he)).2 ▸ hp, fun hp => ⟨h', _, rfl, hp⟩⟩

/-- What looking a path up is to do. -/
structure LooksUp (L : Layout) (s : Mount) (root : Nat) (text : List UInt8) (r : Int) (s' : Mount) : Prop where
  found : ∀ dir : Nat, dir ≠ 0 → r = dir → s.heap.Resolves root (components text) dir
  missing : r = 0 ↔ s.heap.Stuck root (components text)
  callers : ∀ x, Callers L s.held x → s'.mem.byte x = s.mem.byte x
  untouched : s.Untouched s'

theorem Volume.findDir_eq {v : Volume} {P : Pool} {root : Nat} (h : (P.allocate (text.length + 1)).2 ≠ 0) :
    v.findDir P root text = v.walk root (components text) := by
  unfold Volume.findDir components
  rw [← tokens_eq_splitOn]
  by_cases hroot : text = [0x2F]
  · rw [if_pos hroot, hroot, tokens_cons, tokens]
    rfl
  · rw [if_neg hroot, if_neg h]

/-- In a tree whose directories have names a path that can be copied is looked up. -/
theorem findDir_looksUp (hg : s.Good L R v) (hnamed : s.heap.Named s.root) (hroot : s.heap.InTree s.root root)
    (hpath : s.Passes L path text) (hpath0 : path ≠ 0) (hcopy : s.Copies L path) :
    ∃ s' r, s.call L R (.findDir root path) = some (s', r) ∧ s.LooksUp L root text r s' := by
  obtain ⟨d, hd, rfl⟩ := (hg.owns.inTree_iff hg.tree).mp hroot
  have hnamed := hg.named_iff.mp hnamed
  obtain ⟨s', dir, hcall, hg', hcalm, -, hdir⟩ := hg.findDir hd hpath hpath0
  have hwalk : dir = v.walk d.addr (components text) :=
    (hdir hnamed).trans (Volume.findDir_eq ((hg.copies_iff hpath).mp hcopy))
  refine ⟨s', _, hcall, ⟨fun a ha he => ?_, ?_, hcalm.memory, hg.untouched hg' rfl rfl rfl hcalm.held⟩⟩
  · exact (hg.resolves_iff hnamed hd).mpr ⟨ha, by omega⟩
  · rw [hg.stuck_iff hnamed hd]
    omega

end Mount

/-! ### Paths of files -/

/-- The path of a file, by the names on the way to it, with or without a slash in front. -/
def pathText (lead : Bool) (names : List (List UInt8)) (file : List UInt8) : List UInt8 :=
  (if lead then [0x2F] else []) ++ (names.flatMap (· ++ [0x2F]) ++ file)

namespace Volume
variable {v : Volume} {P : Pool} {pathCopy flags : Nat} {d : DirNode} {f : FileNode} {i : Fin maxFds}
  {file name : List UInt8} {names : List (List UInt8)} {lead : Bool}

theorem dirname_append {pre : List UInt8} (h : 0x2F ∉ pre) (rest : List UInt8) :
    dirname (pre ++ 0x2F :: rest) = pre ∧ filename (pre ++ 0x2F :: rest) = rest := cut_append h rest

theorem pathText_lead (names : List (List UInt8)) (file : List UInt8) : pathText true names file = 0x2F ::
    pathText false names file := rfl

theorem pathText_cons (name : List UInt8) (names : List (List UInt8)) (file : List UInt8) :
    pathText false (name :: names) file = name ++ 0x2F :: pathText false names file := by
  unfold pathText
  simp

/-- What is left of a path with a name in front has a slash. -/
theorem slash_mem_pathText (name : List UInt8) (names : List (List UInt8)) (file : List UInt8) :
    0x2F ∈ pathText false (name :: names) file := by
  rw [pathText_cons]
  exact List.mem_append_right _ (List.mem_cons_self ..)

theorem openIn_missing (hidx : d.fileIdx name = none) : (v.openIn P pathCopy d name flags).2 = -1 := by
  unfold openIn
  rw [hidx]
  rfl

theorem openIn_found {j : Nat} (hidx : d.fileIdx name = some j) (hf : d.fileNodes[j]? = some f)
    (hi : v.firstFree = some i)
    (hmem : (P.allocate RamfsFd.bytes).2 ≠ 0) : ∃ e, e.file = f.addr ∧
      (v.openIn P pathCopy d name flags).2 = (i : Nat) ∧
      (v.openIn P pathCopy d name flags).1.fds i = some e := by
  unfold openIn
  rw [hidx, Option.bind_some, hf, hi]
  dsimp only
  rw [if_neg hmem]
  exact ⟨_, rfl, rfl, Function.update_self ..⟩

/-- One of the paths that are not looked up. -/
def Device (text : List UInt8) : Prop := text = ascii "/dev/stdin" ∨ text = ascii "/dev/stdout" ∨
    text = ascii "/dev/stderr"

section Cut
variable {root : DirNode} {found : Nat} {text pre rest : List UInt8}

theorem openPath_uncopied (hdev : ¬ Device text) (hcopy : (v.pool.allocate (text.length + 1)).2 = 0) :
    (v.openPath root text flags found).2 = -1 := by
  unfold Device at hdev
  unfold openPath
  by_cases hnil : text = []
  · rw [if_pos hnil]
  · rw [if_neg hnil, if_neg fun h => hdev (Or.inl h), if_neg fun h => hdev (Or.inr (Or.inl h)),
      if_neg fun h => hdev (Or.inr (Or.inr h))]
    dsimp only
    rw [if_pos hcopy]

/-- A path without a slash is the name of a file below the root. -/
theorem openPath_file (hdev : ¬ Device text) (hcopy : (v.pool.allocate (text.length + 1)).2 ≠ 0) (hnil : text ≠ [])
    (hslash : 0x2F ∉ text) : v.openPath root text flags found =
      v.openIn (v.pool.allocate (text.length + 1)).1 (v.pool.allocate (text.length + 1)).2 root text flags := by
  unfold Device at hdev
  unfold openPath
  rw [if_neg hnil, if_neg fun h => hdev (Or.inl h), if_neg fun h => hdev (Or.inr (Or.inl h)),
    if_neg fun h => hdev (Or.inr (Or.inr h))]
  dsimp only
  rw [if_neg hcopy, if_pos hslash]

/-- A slash in front is dropped, with nothing else. -/
theorem openPath_lead (hdev : ¬ Device (0x2F :: rest)) (hcopy : (v.pool.allocate ((0x2F :: rest).length + 1)).2 ≠ 0) :
    v.openPath root (0x2F :: rest) flags found =
      v.openIn (v.pool.allocate ((0x2F :: rest).length + 1)).1
        (v.pool.allocate ((0x2F :: rest).length + 1)).2 root rest flags := by
  obtain ⟨hdir, hfile⟩ : dirname ([] ++ 0x2F :: rest) = [] ∧ filename ([] ++ 0x2F :: rest) = rest :=
    dirname_append List.not_mem_nil rest
  rw [List.nil_append] at hdir hfile
  unfold Device at hdev
  unfold openPath
  rw [if_neg (List.cons_ne_nil _ _), if_neg fun h => hdev (Or.inl h), if_neg fun h => hdev (Or.inr (Or.inl h)),
    if_neg fun h => hdev (Or.inr (Or.inr h))]
  dsimp only
  rw [if_neg hcopy, if_neg (not_not.mpr (List.mem_cons_self ..)), if_pos hdir, hfile]

/-- Any other path is cut at its first slash. -/
theorem openPath_cut (hdev : ¬ Device (pre ++ 0x2F :: rest))
    (hcopy : (v.pool.allocate ((pre ++ 0x2F :: rest).length + 1)).2 ≠ 0) (hnil : pre ≠ []) (hpre : 0x2F ∉ pre) :
    v.openPath root (pre ++ 0x2F :: rest) flags found = (v.dirAt found).elim
      ({v with pool := ((findDirPool (v.pool.allocate ((pre ++ 0x2F :: rest).length + 1)).1 pre).freed
        (v.pool.allocate ((pre ++ 0x2F :: rest).length + 1)).2)}, -1)
      fun d => v.openIn (findDirPool (v.pool.allocate ((pre ++ 0x2F :: rest).length + 1)).1 pre)
        (v.pool.allocate ((pre ++ 0x2F :: rest).length + 1)).2 d rest flags := by
  obtain ⟨hdir, hfile⟩ := dirname_append hpre rest
  unfold Device at hdev
  unfold openPath
  rw [if_neg (List.append_ne_nil_of_left_ne_nil hnil _), if_neg fun h => hdev (Or.inl h),
    if_neg fun h => hdev (Or.inr (Or.inl h)), if_neg fun h => hdev (Or.inr (Or.inr h))]
  dsimp only
  rw [if_neg hcopy, if_neg (not_not.mpr (List.mem_append_right _ (List.mem_cons_self ..))), hdir, if_neg hnil, hfile]

end Cut
end Volume

namespace Mount
variable {L : Layout} {R : Rodata} {s s' : Mount} {v v' : Volume} {d e : DirNode} {root path flags : Nat} {r : Int}
  {file : List UInt8} {names : List (List UInt8)} {lead : Bool}

/-- There is memory for a copy of the path, then for one of what is in front of its first slash,
which is given back, and for a descriptor. -/
def Serves (L : Layout) (s : Mount) (path : Nat) (first : List UInt8) : Prop :=
  ∃ h₁ copy, s.heap.strdup L path = some (h₁, copy) ∧ copy ≠ 0 ∧
    (∃ h₂ fdEntry, h₁.allocate L RamfsFd.bytes = some (h₂, fdEntry) ∧ fdEntry ≠ 0) ∧
    ∃ h₂ p h₃, h₁.allocate L (first.length + 1) = some (h₂, p) ∧ p ≠ 0 ∧ h₂.free L p = some (h₃, 0) ∧
      ∃ h₄ fdEntry, h₃.allocate L RamfsFd.bytes = some (h₄, fdEntry) ∧ fdEntry ≠ 0

theorem Good.serves (hg : s.Good L R v) {text first : List UInt8} (hpath : s.Passes L path text)
    (hs : s.Serves L path first) :
    (v.pool.allocate (text.length + 1)).2 ≠ 0 ∧ ((v.pool.allocate (text.length + 1)).1.allocate RamfsFd.bytes).2 ≠ 0 ∧
      ((v.pool.allocate (text.length + 1)).1.allocate (first.length + 1)).2 ≠ 0 ∧
      (((v.pool.allocate (text.length + 1)).1.borrowed (first.length + 1)).allocate RamfsFd.bytes).2 ≠ 0 := by
  obtain ⟨h₁, copy, hdup, hcopy, ⟨h₂, fdEntry, hfd, hne⟩, h₂', p, h₃, hfirst, hp, hfree, h₄, fdEntry', hfd', hne'⟩ := hs
  obtain ⟨k₁, hdup', -, hnew⟩ := hg.owns.strdup (hpath.lent.mono (List.subset_append_right _ _))
  rw [hdup] at hdup'
  obtain ⟨rfl, rfl⟩ := Prod.mk.inj (Option.some.inj hdup')
  have ho := hnew hcopy
  obtain ⟨k₂, hfd₂, -⟩ := ho.allocate RamfsFd.bytes
  rw [hfd] at hfd₂
  obtain ⟨rfl, rfl⟩ := Prod.mk.inj (Option.some.inj hfd₂)
  obtain ⟨k₃, hfirst', -, hnew'⟩ := ho.allocate (first.length + 1)
  rw [hfirst] at hfirst'
  obtain ⟨rfl, rfl⟩ := Prod.mk.inj (Option.some.inj hfirst')
  obtain ⟨junk, hlen, ho'⟩ := Owns.exists_bytes (hnew' hp) (Nat.le_refl _)
  obtain ⟨k₄, hfree', ho''⟩ := ho'.free 0 rfl
  rw [hfree] at hfree'
  obtain ⟨rfl, -⟩ := Prod.mk.inj (Option.some.inj hfree')
  obtain ⟨k₅, hfd₅, -⟩ := Owns.allocate ho'' RamfsFd.bytes
  rw [hfd'] at hfd₅
  obtain ⟨-, rfl⟩ := Prod.mk.inj (Option.some.inj hfd₅)
  refine ⟨hcopy, hne, hp, ?_⟩
  unfold Pool.borrowed
  dsimp only
  rw [if_neg hp]
  exact hne'

instance {first : List UInt8} : Decidable (s.Serves L path first) :=
  decidable_of_iff ((s.heap.strdup L path).any fun (h₁, copy) => copy ≠ 0 ∧
      ((h₁.allocate L RamfsFd.bytes).any fun (_, fdEntry) => fdEntry ≠ 0) ∧
      (h₁.allocate L (first.length + 1)).any fun (h₂, p) => p ≠ 0 ∧ (h₂.free L p).any fun (h₃, n) => n = 0 ∧
        (h₃.allocate L RamfsFd.bytes).any fun (_, fdEntry) => fdEntry ≠ 0) (by
    unfold Serves
    simp only [Option.any_eq_true, decide_eq_true_eq, Prod.exists]
    constructor
    · rintro ⟨h₁, copy, hdup, hcopy, hfd, h₂, p, hfirst, hp, h₃, n, hfree, rfl, hfd'⟩
      exact ⟨h₁, copy, hdup, hcopy, hfd, h₂, p, h₃, hfirst, hp, hfree, hfd'⟩
    · rintro ⟨h₁, copy, hdup, hcopy, hfd, h₂, p, h₃, hfirst, hp, hfree, hfd'⟩
      exact ⟨h₁, copy, hdup, hcopy, hfd, h₂, p, hfirst, hp, h₃, 0, hfree, rfl, hfd'⟩)

/-- There is a file at the end of the names, a free descriptor, and memory. -/
def Openable (L : Layout) (s : Mount) (root path : Nat) (lead : Bool) (names : List (List UInt8))
    (file : List UInt8) (dir node : Nat) :
    Prop :=
  (∃ i, s.ramfs.fdTable i = 0) ∧ s.Serves L path (Volume.dirname (pathText lead names file)) ∧
    s.heap.Resolves root names dir ∧ s.heap.FileOf dir file node

/-- What opening the path of a file is to do. -/
structure OpensPath (L : Layout) (s : Mount) (root path : Nat) (lead : Bool) (names : List (List UInt8))
    (file : List UInt8) (r : Int)
    (s' : Mount) : Prop where
  found : ∀ dir node, s.Openable L root path lead names file dir node →
    ∃ entry, s'.ramfs.fdEntry r = some entry ∧ s'.fileOf entry = node
  missing : (¬ ∃ dir node, s.heap.Resolves root names dir ∧ s.heap.FileOf dir file node) → r = -1

/-- A refusal is right if there is nothing to open. -/
theorem opensPath_refused :
    s.OpensPath L root path lead names file (-1) s' ↔
      ¬ ∃ dir node, s.Openable L root path lead names file dir node := by
  constructor
  · rintro h ⟨dir, node, ho⟩
    obtain ⟨entry, hentry, -⟩ := h.found dir node ho
    unfold Ramfs.fdEntry at hentry
    rw [dif_neg (by omega)] at hentry
    cases hentry
  · exact fun h => ⟨fun dir node ho => absurd ⟨dir, node, ho⟩ h, fun _ => rfl⟩

/-- The names lead to `e`, and the file is looked for there. -/
theorem Good.opensPath_here (hg : s.Good L R v) (hp : s.heap.PlainNames s.root) (he : e ∈ v.dirs) {P : Pool}
    {pathCopy : Nat}
    (hg' : s'.Good L R (v.openIn P pathCopy e file flags).1)
    (hres : ∀ dir, s.heap.Resolves root names dir ↔ dir = e.addr)
    (hmem : s.Serves L path (Volume.dirname (pathText lead names file)) → (P.allocate RamfsFd.bytes).2 ≠ 0) :
    s.OpensPath L root path lead names file (v.openIn P pathCopy e file flags).2 s' := by
  constructor
  · rintro dir node ⟨⟨i, hi⟩, hserves, hdir, hnode⟩
    rw [(hres dir).mp hdir] at hnode
    obtain ⟨j, f, hidx, hf, rfl⟩ := (hg.fileOf_iff hp he).mp hnode
    have hfree : v.firstFree ≠ none := fun hnone => by
      have hnot := List.find?_eq_none.mp hnone i (List.mem_finRange i)
      rw [(hg.table.eq_zero_iff hg.owns (List.subset_append_left _ _) i).mp hi] at hnot
      exact hnot rfl
    obtain ⟨i', hi'⟩ := Option.ne_none_iff_exists'.mp hfree
    obtain ⟨e', he', hret, hfds⟩ : ∃ e', e'.file = f.addr ∧ (v.openIn P pathCopy e file flags).2 = (i' : Nat) ∧
        (v.openIn P pathCopy e file flags).1.fds i' = some e' := Volume.openIn_found hidx hf hi' (hmem hserves)
    exact ⟨e'.addr, hg'.fdEntry_of hret.symm hfds, (hg'.fdAt hfds).file.trans he'⟩
  · intro hnone
    cases hidx : e.fileIdx file with
    | none => exact Volume.openIn_missing hidx
    | some j =>
      have hlt := (List.findIdx?_eq_some_iff_findIdx_eq.mp hidx).1
      exact absurd ⟨e.addr, _, (hres e.addr).mpr rfl,
        (hg.fileOf_iff hp he).mpr ⟨j, _, hidx, List.getElem?_eq_getElem hlt, rfl⟩⟩ hnone

/-- No file has a name with a slash. -/
theorem Good.fileIdx_slash (hg : s.Good L R v) (hp : s.heap.PlainNames s.root) (hd : d ∈ v.dirs) {text : List UInt8}
    (hslash : 0x2F ∈ text) : d.fileIdx text = none := by
  apply List.findIdx?_eq_none_iff.mpr
  intro f hf
  exact decide_eq_false fun he => (hg.file_plain hp hd hf).2 (he ▸ hslash)

theorem components_plain {name : List UInt8} (h : Plain name) : components name = [name] := by
  unfold components
  rw [List.splitOn_eq_singleton h.2, List.filter_cons_of_pos (by simpa using h.1)]
  rfl

/-- In a tree with plain names the path of a file is opened as it should be if the file is below the
root, or one directory further down without a slash in front of the path, and only then. -/
theorem openFile_opensPath_iff (hg : s.Good L R v) (hp : s.heap.PlainNames s.root) (hroot : s.heap.InTree s.root root)
    (hnames : ∀ name ∈ names, Plain name) (hfile : Plain file) (hpath : s.Passes L path (pathText lead names file))
    (hpath0 : path ≠ 0) (hdev : ¬ Volume.Device (pathText lead names file)) (hflags : flags < addressSpace) :
    ∃ s' r, s.call L R (.openFile root path flags) = some (s', r) ∧
      (s.OpensPath L root path lead names file r s' ↔
        ((∃ dir node, s.Openable L root path lead names file dir node) → names = [] ∨
          (names.length = 1 ∧ lead = false))) := by
  obtain ⟨d, hd, rfl⟩ := (hg.owns.inTree_iff hg.tree).mp hroot
  have hnamed := hg.named_iff.mp hp.named
  obtain ⟨s', found, hcall, hg', -, -, hfound⟩ := hg.openFile hd hpath hpath0 hflags
  refine ⟨s', _, hcall, ?_⟩
  have hfound := hfound hnamed
  have hserves := fun h : s.Serves L path (Volume.dirname (pathText lead names file)) => hg.serves hpath h
  -- if the directory is here, all is well
  have hright : ∀ {e : DirNode} {P : Pool} {copy : Nat}, e ∈ v.dirs →
      v.openPath d (pathText lead names file) flags found = v.openIn P copy e file flags →
      (∀ dir, s.heap.Resolves d.addr names dir ↔ dir = e.addr) →
      (s.Serves L path (Volume.dirname (pathText lead names file)) → (P.allocate RamfsFd.bytes).2 ≠ 0) →
      s.OpensPath L d.addr path lead names file (v.openPath d (pathText lead names file) flags found).2 s' := by
    intro e P copy he hopen hres hmem
    rw [hopen] at hg' ⊢
    exact hg.opensPath_here hp he hg' hres hmem
  by_cases hcopy : (v.pool.allocate ((pathText lead names file).length + 1)).2 = 0
  · rw [Volume.openPath_uncopied hdev hcopy, opensPath_refused]
    have hnone : ¬ ∃ dir node, s.Openable L d.addr path lead names file dir node :=
      fun ⟨_, _, _, hs, _⟩ => (hserves hs).1 hcopy
    exact iff_of_true hnone fun h => absurd h hnone
  have hhere : ∀ dir, s.heap.Resolves d.addr [] dir ↔ dir = d.addr := fun dir =>
    ⟨fun h => by cases h; rfl, fun h => h ▸ .here⟩
  -- otherwise the call is refused
  have hwrong : (v.openPath d (pathText lead names file) flags found).2 = -1 →
    ¬ (names = [] ∨ (names.length = 1 ∧ lead = false)) →
      (s.OpensPath L d.addr path lead names file (v.openPath d (pathText lead names file) flags found).2 s' ↔
        ((∃ dir node, s.Openable L d.addr path lead names file dir node) → names = [] ∨
          (names.length = 1 ∧ lead = false))) := by
    intro hret hnot
    rw [hret, opensPath_refused]
    exact ⟨fun h h' => absurd h' h, fun h h' => hnot (h h')⟩
  match names, lead with
  | [], false =>
    refine iff_of_true ?_ fun _ => Or.inl rfl
    exact hright hd (Volume.openPath_file hdev hcopy hfile.1 hfile.2) hhere fun h => (hserves h).2.1
  | [], true =>
    refine iff_of_true ?_ fun _ => Or.inl rfl
    exact hright hd (Volume.openPath_lead hdev hcopy) hhere fun h => (hserves h).2.1
  | [name], false =>
    have hname := hnames name (List.mem_singleton_self _)
    have htext : pathText false [name] file = name ++ 0x2F :: file := Volume.pathText_cons name [] file
    have hfirst : Volume.dirname (pathText false [name] file) = name := by
      rw [htext]
      exact (Volume.dirname_append hname.2 file).1
    refine iff_of_true ?_ fun _ => Or.inr ⟨rfl, rfl⟩
    rw [hfirst] at hfound hserves hright
    rw [htext] at hdev hcopy hfound hserves hright ⊢
    have hcut : v.openPath d (name ++ 0x2F :: file) flags found = (v.dirAt found).elim _ _ :=
      Volume.openPath_cut hdev hcopy hname.1 hname.2
    -- there is memory for the copy of the name if the directory is found, and then it is the one
    have hwalk : ((v.pool.allocate ((name ++ 0x2F :: file).length + 1)).1.allocate (name.length + 1)).2 ≠ 0 →
        found = v.walk d.addr [name] := fun h => by
      rw [hfound, Volume.findDir_eq h, components_plain hname]
    have hslash : name ≠ [0x2F] := fun h => hname.2 (h ▸ List.mem_singleton_self _)
    cases hdir : v.dirAt found with
    | none =>
      rw [hcut, hdir, Option.elim_none, opensPath_refused]
      rintro ⟨dir, node, -, hs, hres, -⟩
      rw [hfirst] at hs
      obtain ⟨hdir0, hwalk'⟩ := (hg.resolves_iff hnamed hd).mp hres
      have hfound' := hwalk (hserves hs).2.2.1
      obtain ⟨e, he, hea⟩ := (Volume.walk_mem hg.tree.volume_closed hg.owns.dirs_nodup [name] hd).resolve_left
        (hwalk' ▸ hdir0)
      rw [hfound', ← hea, Volume.dirAt_eq hg.owns.dirs_nodup he] at hdir
      cases hdir
    | some e =>
      have he := List.mem_of_find?_eq_some hdir
      have hea : e.addr = found := of_decide_eq_true (List.find?_some hdir :)
      have halloc : ((v.pool.allocate ((name ++ 0x2F :: file).length + 1)).1.allocate
        (name.length + 1)).2 ≠ 0 := fun h => by
        unfold Volume.findDir at hfound
        rw [if_neg hslash, if_pos h, ← hea] at hfound
        exact hg.addr_ne_zero he hfound
      refine hright he (by rw [hcut, hdir]; rfl) (fun dir => ?_) fun h => ?_
      · rw [hg.resolves_iff hnamed hd, ← hwalk halloc, hea]
        exact ⟨fun h => h.2.symm, fun h => ⟨h ▸ hea ▸ hg.addr_ne_zero he, h.symm⟩⟩
      · unfold Volume.findDirPool
        rw [if_neg hslash]
        exact (hserves h).2.2.2
  | name :: names, true =>
    refine hwrong ?_ (by simp)
    rw [Volume.pathText_lead] at hdev hcopy ⊢
    rw [Volume.openPath_lead hdev hcopy]
    exact Volume.openIn_missing (hg.fileIdx_slash hp hd (Volume.slash_mem_pathText name names file))
  | name :: name' :: names, false =>
    have hname := hnames name (List.mem_cons_self ..)
    refine hwrong ?_ (by simp)
    rw [Volume.pathText_cons] at hdev hcopy ⊢
    rw [Volume.openPath_cut hdev hcopy hname.1 hname.2]
    cases hdir : v.dirAt found with
    | none => rfl
    | some e =>
      exact Volume.openIn_missing (hg.fileIdx_slash hp (List.mem_of_find?_eq_some hdir)
        (Volume.slash_mem_pathText name' names file))

/-! ### A file in a directory -/

/-- There is one subdirectory, `a`, with one file, `b`. -/
def OneFile (h : Heap) (root : Nat) : Prop :=
  h.flatPlain root ∧ h.word root RamfsDir.subdirCount = 1 ∧ h.nameAt (h.subdirAt root 0) = some [0x61] ∧
    h.word (h.subdirAt root 0) RamfsDir.fileCount = 1 ∧ h.nameAt (h.fileAt (h.subdirAt root 0) 0) = some [0x62]

instance (h : Heap) (root : Nat) : Decidable (OneFile h root) := inferInstanceAs (Decidable (_ ∧ _ ∧ _ ∧ _ ∧ _))

theorem OneFile.found {h : Heap} {root : Nat} (ho : OneFile h root) : h.Resolves root [[0x61]] (h.subdirAt root 0) ∧
    h.FileOf (h.subdirAt root 0) [0x62] (h.fileAt (h.subdirAt root 0) 0) := by
  obtain ⟨-, hsubs, hsub, hfiles, hfile⟩ := ho
  refine ⟨.down ⟨0, ?_, rfl, Heap.nameAt_hasName hsub, fun j hj => absurd hj (Nat.not_lt_zero _)⟩ .here, 0, ?_, rfl,
    Heap.nameAt_hasName hfile⟩
  · rw [hsubs]
    exact Nat.one_pos
  · rw [hfiles]
    exact Nat.one_pos

/-- The directory and its file are created, and `/a/b` is written into static memory. -/
theorem exists_oneFile : ∃ tr s, Run (Fresh .kernelImage bootRodata) (Step .kernelImage bootRodata) tr s ∧
    (∀ x ∈ tr, Careful x) ∧
    OneFile s.heap s.root ∧ s.Passes .kernelImage 0x2000 (pathText true [[0x61]] [0x62]) ∧
    s.Passes .kernelImage 0x2001 (pathText false [[0x61]] [0x62]) ∧ s.ramfs.fdTable 0 = 0 ∧
      s.Copies .kernelImage 0x2001 ∧
    s.Serves .kernelImage 0x2000 [] ∧ ∃ s', s.call .kernelImage bootRodata (.openFile s.root 0x2000 oRdonly) =
      some (s', -1) := by
  have hdec : rehearses (fun root => [.createDir root 0x1050, .store 0x2000 0x2F, .store 0x2001 0x61, .store 0x2002 0x2F,
      .store 0x2003 0x62]) fun tr s =>
        s.answers (.createFile (s.heap.subdirAt s.root 0) 0x1060 0x1050 1) fun s₁ _ =>
          s₁.answers (.openFile s₁.root 0x2000 oRdonly) fun _ r =>
            (∀ x ∈ tr, x.1.KeepsOpen x.2.1 ∧ x.1.Bounded x.2.1) ∧ s.heap.word s.root RamfsDir.subdirCount = 1 ∧
            (staticText .kernelImage s.mem 64 0x1060).isSome ∧ OneFile s₁.heap s₁.root ∧
            staticText .kernelImage s₁.mem 64 0x2000 = some (pathText true [[0x61]] [0x62]) ∧
            staticText .kernelImage s₁.mem 64 0x2001 = some (pathText false [[0x61]] [0x62]) ∧ s₁.ramfs.fdTable 0 = 0 ∧
            s₁.Copies .kernelImage 0x2001 ∧ s₁.Serves .kernelImage 0x2000 [] ∧ r = -1 := by decide +kernel
  obtain ⟨tr, s, hrun, hdec⟩ := run_rehearses hdec
  obtain ⟨s₁, r₁, hcreate, hdec⟩ := call_of_answers hdec
  obtain ⟨s₂, r, hopen, hdec⟩ := call_of_answers hdec
  obtain ⟨hkeeps, hcount, hname, hone, hpath, hpath', hfree, hcopies, hserves, rfl⟩ := of_decide_eq_true hdec
  have hp : s.Permits .kernelImage bootRodata (.createFile (s.heap.subdirAt s.root 0) 0x1060 0x1050 1) := by
    refine ⟨Or.inr (.subdir .root (by rw [hcount]; exact Nat.one_pos)), Or.inr (passes_of_static hname),
      Or.inr ⟨fun i hi => Or.inl ?_,
      by decide⟩⟩
    rw [Nat.lt_one_iff.mp hi]
    decide
  have hpasses : ∀ {a text}, staticText .kernelImage s₁.mem 64 a = some text → s₁.Passes .kernelImage a text := fun h =>
    ⟨(staticText_passes h).1, fun i hi => Or.inl ((staticText_passes h).2 i hi)⟩
  refine ⟨_, s₁, hrun.next (e := (_, r₁)) ⟨hp, hcreate⟩, fun x hx => ?_, hone, hpasses hpath,
    hpasses hpath', hfree, hcopies,
    hserves, s₂, hopen⟩
  cases List.mem_append.mp hx with
  | inl hx => exact careful_of_keeps hrun hkeeps x hx
  | inr hx =>
    rw [List.mem_singleton.mp hx]
    exact ⟨fun entry h => (nomatch h), trivial⟩

/-- `a/b` has no directory at its end. -/
theorem findDir_looksUp_file : ∃ s s' r, Mount.call .kernelImage bootRodata s (.findDir s.root 0x2001) = some (s', r) ∧
    s.LooksUp .kernelImage s.root (pathText false [[0x61]] [0x62]) r s' := by
  obtain ⟨tr, s, hrun, hcare, hone, -, hpath, -, hcopies, -⟩ := exists_oneFile
  obtain ⟨v, hg⟩ := (good_of_run hrun hcare).1
  obtain ⟨s', r, hcall, hlooks⟩ := findDir_looksUp hg (Heap.plainNames_of_flatPlain hone.1).named .root hpath
    (by decide) hcopies
  exact ⟨s, s', r, hcall, hlooks⟩

theorem openFile_opensPath_iff_sub : ∃ s s' r,
    Mount.call .kernelImage bootRodata s (.openFile s.root 0x2001 oRdonly) = some (s', r) ∧
    s.OpensPath .kernelImage s.root 0x2001 false [[0x61]] [0x62] r s' := by
  obtain ⟨tr, s, hrun, hcare, hone, -, hpath, -⟩ := exists_oneFile
  obtain ⟨v, hg⟩ := (good_of_run hrun hcare).1
  have hnames : ∀ name ∈ [[0x61]], Plain name := by decide
  have hflags : oRdonly < addressSpace := by decide
  obtain ⟨s', r, hcall, hiff⟩ := openFile_opensPath_iff hg (Heap.plainNames_of_flatPlain hone.1) .root hnames
    (by decide) hpath (by decide) (by unfold Volume.Device; decide) hflags
  exact ⟨s, s', r, hcall, hiff.mpr fun _ => Or.inr ⟨rfl, rfl⟩⟩

/-- `/a/b` is not opened although it is there. -/
theorem leading_slash_refused : ¬ ∀ s v root path lead names file flags s' r, Mount.Good .kernelImage bootRodata s v →
    s.heap.PlainNames s.root → s.heap.InTree s.root root → (∀ name ∈ names, Plain name) → Plain file →
    s.Passes .kernelImage path (pathText lead names file) → ¬ Volume.Device (pathText lead names file) →
    s.call .kernelImage bootRodata (.openFile root path flags) = some (s', r) →
    s.OpensPath .kernelImage root path lead names file r s' := by
  obtain ⟨tr, s, hrun, hcare, hone, hpath, -, hfree, -, hserves, s', hcall⟩ := exists_oneFile
  obtain ⟨v, hg⟩ := (good_of_run hrun hcare).1
  obtain ⟨hres, hfile⟩ := hone.found
  intro h
  have hopens := h s v s.root 0x2000 true [[0x61]] [0x62] oRdonly s' (-1) hg
    (Heap.plainNames_of_flatPlain hone.1) .root (by decide)
    (by decide) hpath (by unfold Volume.Device; decide) hcall
  exact opensPath_refused.mp hopens ⟨_, _, ⟨0, hfree⟩, hserves, hres, hfile⟩

end Mount
end ShompOS
