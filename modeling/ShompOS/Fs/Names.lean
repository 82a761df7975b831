import ShompOS.Fs.Failures

/-! Names and paths.

A path is cut at its slashes, and its names lead from a directory to the first
subdirectory of that name, and on from there. `Resolves` says this of memory; in a
good mount where every directory has a name it is the walk of the volume. -/
namespace ShompOS
open Memory

/-- The pieces of a string that are not empty. -/
theorem tokens_eq_splitOn (c : UInt8) (s : List UInt8) : tokens c s = (s.splitOn c).filter (· ≠ []) := by
  generalize hn : s.length = n
  induction n using Nat.strong_induction_on generalizing s with
  | _ n ih =>
    by_cases hc : c ∈ s
    · obtain ⟨pre, rest, rfl, hpre⟩ := List.eq_append_cons_of_mem hc
      rw [List.length_append, List.length_cons] at hn
      have hih := ih rest.length (by omega) rest rfl
      rw [List.splitOn_append_cons_self_of_not_mem hpre]
      by_cases hnil : pre = []
      · rw [hnil, List.nil_append, tokens_cons, hih, List.filter_cons_of_neg (by simp)]
      · have htok : tokens c ([] ++ (pre ++ c :: rest)) = pre :: tokens c (c :: rest) :=
          tokens_append (fun x hx => absurd hx List.not_mem_nil) (fun x hx he => hpre (he ▸ hx)) hnil fun x hx =>
            (Option.some.inj hx).symm
        rw [List.nil_append] at htok
        rw [htok, tokens_cons, hih, List.filter_cons_of_pos (by simpa using hnil)]
    · rw [List.splitOn_eq_singleton hc]
      by_cases hnil : s = []
      · rw [hnil, tokens]
        rfl
      · have htok : tokens c ([] ++ (s ++ [])) = s :: tokens c [] :=
          tokens_append (fun x hx => absurd hx List.not_mem_nil) (fun x hx he => hc (he ▸ hx)) hnil fun x hx => absurd hx (Option.not_mem_none x)
        rw [List.nil_append, List.append_nil] at htok
        rw [htok, List.filter_cons_of_pos (by simpa using hnil), tokens]
        rfl

/-! ### In memory -/

namespace Heap

def subdirAt (h : Heap) (dir i : Nat) : Nat := h.word (h.word dir RamfsDir.subdirs) i

def fileAt (h : Heap) (dir i : Nat) : Nat := h.word (h.word dir RamfsDir.files) i

/-- The name of a directory or a file. -/
def HasName (h : Heap) (a : Nat) (text : List UInt8) : Prop := h.word a RamfsDir.name ≠ 0 ∧
    IsStr h.mem (h.word a RamfsDir.name) text

/-- The first subdirectory of a name. -/
def Sub (h : Heap) (dir : Nat) (name : List UInt8) (a : Nat) : Prop :=
  ∃ i, i < h.word dir RamfsDir.subdirCount ∧ h.subdirAt dir i = a ∧ h.HasName a name ∧ ∀ j, j < i →
    ¬ h.HasName (h.subdirAt dir j) name

/-- Names lead from a directory to another. -/
inductive Resolves (h : Heap) : Nat → List (List UInt8) → Nat → Prop
  | here {dir : Nat} : Resolves h dir [] dir
  | down {dir sub a : Nat} {name : List UInt8} {names : List (List UInt8)} : h.Sub dir name sub →
      Resolves h sub names a →
      Resolves h dir (name :: names) a

/-- Some name on the way has no subdirectory. -/
def Stuck (h : Heap) (dir : Nat) (names : List (List UInt8)) : Prop :=
  ∃ pre name post sub, names = pre ++ name :: post ∧ h.Resolves dir pre sub ∧
    ∀ i, i < h.word sub RamfsDir.subdirCount → ¬ h.HasName (h.subdirAt sub i) name

/-- A file of a directory, by its name. -/
def FileOf (h : Heap) (dir : Nat) (name : List UInt8) (file : Nat) : Prop :=
  ∃ i, i < h.word dir RamfsDir.fileCount ∧ h.fileAt dir i = file ∧ h.HasName file name

/-- All subdirectories below the root have names. -/
def Named (h : Heap) (root : Nat) : Prop :=
  ∀ dir i, h.InTree root dir → i < h.word dir RamfsDir.subdirCount → h.word (h.subdirAt dir i) RamfsDir.name ≠ 0

end Heap

/-- A name that can stand in a path. -/
def Plain (text : List UInt8) : Prop := text ≠ [] ∧ 0x2F ∉ text

instance : DecidablePred Plain := fun text => inferInstanceAs (Decidable (text ≠ [] ∧ 0x2F ∉ text))

/-- All names below the root are plain, and no two subdirectories and no two files of a
directory have the same. -/
structure Heap.PlainNames (h : Heap) (root : Nat) : Prop where
  sub : ∀ dir i, h.InTree root dir → i < h.word dir RamfsDir.subdirCount →
    ∃ text, h.HasName (h.subdirAt dir i) text ∧ Plain text
  file : ∀ dir i, h.InTree root dir → i < h.word dir RamfsDir.fileCount →
    ∃ text, h.HasName (h.fileAt dir i) text ∧ Plain text
  subs : ∀ dir i j text, h.InTree root dir → i < h.word dir RamfsDir.subdirCount → j < h.word dir RamfsDir.subdirCount →
    h.HasName (h.subdirAt dir i) text → h.HasName (h.subdirAt dir j) text → i = j
  files : ∀ dir i j text, h.InTree root dir → i < h.word dir RamfsDir.fileCount → j < h.word dir RamfsDir.fileCount →
    h.HasName (h.fileAt dir i) text → h.HasName (h.fileAt dir j) text → i = j

theorem Heap.PlainNames.named {h : Heap} {root : Nat} (hp : h.PlainNames root) : h.Named root := fun dir i hdir hi => by
  obtain ⟨text, hname, -⟩ := hp.sub dir i hdir hi
  exact hname.1

/-- The names in a path. -/
def components (path : List UInt8) : List (List UInt8) := (path.splitOn 0x2F).filter (· ≠ [])

/-! ### The two agree -/

namespace Mount
variable {L : Layout} {R : Rodata} {s s' : Mount} {v v' : Volume} {d : DirNode} {f : FileNode} {i a : Nat}
  {text name : List UInt8}
  {names : List (List UInt8)}

theorem Good.hasName_dir (hg : s.Good L R v) (hd : d ∈ v.dirs) : s.heap.HasName d.addr text ↔ d.name ≠ 0 ∧
    d.text = text := by
  have hat := hg.dirAt hd
  unfold Heap.HasName
  rw [hat.record RamfsDir.name _ rfl]
  exact and_congr_right fun hne => ⟨fun h => (hat.text hne).unique h, fun h => h ▸ hat.text hne⟩

theorem Good.hasName_file (hg : s.Good L R v) (hd : d ∈ v.dirs) (hf : f ∈ d.fileNodes) :
    s.heap.HasName f.addr text ↔ f.text = text := by
  have hat := hg.file hd hf
  have hne := hg.owns.ne_zero (List.mem_append_left _
    (DirNode.mem_cells hd (FileNode.mem_cells hf (List.mem_of_getElem? (i := 1) rfl))))
  unfold Heap.HasName
  rw [hat.name]
  exact ⟨fun h => hat.text.unique h.2, fun h => ⟨hne, h ▸ hat.text⟩⟩

theorem Good.subdirCount (hg : s.Good L R v) (hd : d ∈ v.dirs) : s.heap.word d.addr RamfsDir.subdirCount =
    d.subdirNodes.length :=
  (hg.dirAt hd).record RamfsDir.subdirCount _ rfl

theorem Good.fileCount (hg : s.Good L R v) (hd : d ∈ v.dirs) : s.heap.word d.addr RamfsDir.fileCount =
    d.fileNodes.length :=
  (hg.dirAt hd).record RamfsDir.fileCount _ rfl

theorem Good.subdirAt (hg : s.Good L R v) (hd : d ∈ v.dirs) (hi : d.subdirNodes[i]? = some a) :
    s.heap.subdirAt d.addr i = a := by
  have hat := hg.dirAt hd
  unfold Heap.subdirAt
  rw [hat.record RamfsDir.subdirs _ rfl]
  exact hat.subdir i a hi

theorem Good.fileAt (hg : s.Good L R v) (hd : d ∈ v.dirs) (hi : d.fileNodes[i]? = some f) :
    s.heap.fileAt d.addr i = f.addr := by
  have hat := hg.dirAt hd
  unfold Heap.fileAt
  rw [hat.record RamfsDir.files _ rfl]
  exact hat.entry i f hi

theorem Good.inTree (hg : s.Good L R v) (hd : d ∈ v.dirs) : s.heap.InTree s.root d.addr :=
  (hg.owns.inTree_iff hg.tree).mpr ⟨d, hd, rfl⟩

theorem Good.addr_ne_zero (hg : s.Good L R v) (hd : d ∈ v.dirs) : d.addr ≠ 0 :=
  hg.owns.ne_zero (List.mem_append_left _ (DirNode.mem_cells hd (List.mem_cons_self ..)))

/-- The subdirectories with their directories. -/
theorem Good.subdirNode (hg : s.Good L R v) (hd : d ∈ v.dirs) (ha : a ∈ d.subdirNodes) : ∃ e ∈ v.dirs, e.addr = a :=
  hg.tree.volume_closed d hd a ha

theorem Good.named_iff (hg : s.Good L R v) : s.heap.Named s.root ↔ v.Named := by
  constructor
  · intro h d hd a ha e he hea
    obtain ⟨i, hi⟩ := List.getElem?_of_mem ha
    have hname := h d.addr i (hg.inTree hd) (by rw [hg.subdirCount hd]; exact (List.getElem?_eq_some_iff.mp hi).1)
    rw [hg.subdirAt hd hi, ← hea, (hg.dirAt he).record RamfsDir.name _ rfl] at hname
    exact hname
  · intro h dir i hdir hi
    obtain ⟨d, hd, rfl⟩ := (hg.owns.inTree_iff hg.tree).mp hdir
    rw [hg.subdirCount hd] at hi
    have hget := List.getElem?_eq_getElem hi
    obtain ⟨e, he, hea⟩ := hg.subdirNode hd (List.getElem_mem hi)
    rw [hg.subdirAt hd hget, ← hea, (hg.dirAt he).record RamfsDir.name _ rfl]
    exact h d hd _ (List.getElem_mem hi) e he hea

theorem Good.hasName_sub (hg : s.Good L R v) (hnamed : v.Named) (hd : d ∈ v.dirs) (ha : a ∈ d.subdirNodes) :
    s.heap.HasName a name ↔ v.textAt a = name := by
  obtain ⟨e, he, rfl⟩ := hg.subdirNode hd ha
  rw [hg.hasName_dir he, Volume.textAt_eq hg.owns.dirs_nodup he]
  exact and_iff_right (hnamed d hd _ ha e he rfl)

/-- The first subdirectory of a name is the one that the walk goes on to. -/
theorem Good.sub_iff (hg : s.Good L R v) (hnamed : v.Named) (hd : d ∈ v.dirs) :
    s.heap.Sub d.addr name a ↔ d.subdirNodes.find? (fun b => v.textAt b = name) = some a := by
  unfold Heap.Sub
  rw [List.find?_eq_some_iff_getElem, hg.subdirCount hd]
  constructor
  · rintro ⟨i, hi, hsub, hname, hfirst⟩
    have hget := List.getElem?_eq_getElem hi
    rw [hg.subdirAt hd hget] at hsub
    subst hsub
    refine ⟨decide_eq_true ((hg.hasName_sub hnamed hd (List.getElem_mem hi)).mp hname), i, hi, rfl, fun j hj => ?_⟩
    have hnot := hfirst j hj
    rw [hg.subdirAt hd (List.getElem?_eq_getElem (Nat.lt_trans hj hi)), hg.hasName_sub hnamed hd
      (List.getElem_mem _)] at hnot
    simpa using hnot
  · rintro ⟨htext, i, hi, rfl, hfirst⟩
    refine ⟨i, hi, hg.subdirAt hd (List.getElem?_eq_getElem hi),
      (hg.hasName_sub hnamed hd (List.getElem_mem hi)).mpr (of_decide_eq_true htext),
      fun j hj => ?_⟩
    rw [hg.subdirAt hd (List.getElem?_eq_getElem (Nat.lt_trans hj hi)), hg.hasName_sub hnamed hd (List.getElem_mem _)]
    simpa using hfirst j hj

/-- Paths lead where the walk does. -/
theorem Good.resolves_iff (hg : s.Good L R v) (hnamed : v.Named) (hd : d ∈ v.dirs) :
    s.heap.Resolves d.addr names a ↔ a ≠ 0 ∧ v.walk d.addr names = a := by
  induction names generalizing d with
  | nil =>
    constructor
    · intro h
      cases h
      exact ⟨hg.addr_ne_zero hd, rfl⟩
    · rintro ⟨-, rfl⟩
      exact .here
  | cons name names ih =>
    rw [Volume.walk_cons hg.owns.dirs_nodup hd]
    constructor
    · intro h
      cases h with
      | @down _ sub _ _ _ hsub hrest =>
        have hfind := (hg.sub_iff hnamed hd).mp hsub
        obtain ⟨e, he, rfl⟩ := hg.subdirNode hd (List.mem_of_find?_eq_some hfind)
        rw [hfind]
        exact (ih he).mp hrest
    · rintro ⟨hne, hwalk⟩
      cases hfind : d.subdirNodes.find? fun b => v.textAt b = name with
      | none =>
        rw [hfind] at hwalk
        exact absurd hwalk.symm hne
      | some b =>
        rw [hfind] at hwalk
        obtain ⟨e, he, rfl⟩ := hg.subdirNode hd (List.mem_of_find?_eq_some hfind)
        exact .down ((hg.sub_iff hnamed hd).mpr hfind) ((ih he).mpr ⟨hne, hwalk⟩)

theorem Good.noSub_iff (hg : s.Good L R v) (hnamed : v.Named) (hd : d ∈ v.dirs) :
    (∀ i, i < s.heap.word d.addr RamfsDir.subdirCount → ¬ s.heap.HasName (s.heap.subdirAt d.addr i) name) ↔
      d.subdirNodes.find? (fun b => v.textAt b = name) = none := by
  rw [List.find?_eq_none, hg.subdirCount hd]
  constructor
  · intro h b hb
    obtain ⟨i, hi⟩ := List.getElem?_of_mem hb
    have hnot := h i (List.getElem?_eq_some_iff.mp hi).1
    rw [hg.subdirAt hd hi, hg.hasName_sub hnamed hd hb] at hnot
    simpa using hnot
  · intro h i hi
    rw [hg.subdirAt hd (List.getElem?_eq_getElem hi), hg.hasName_sub hnamed hd (List.getElem_mem _)]
    simpa using h _ (List.getElem_mem hi)

/-- The walk ends at 0 where it is stuck. -/
theorem Good.stuck_iff (hg : s.Good L R v) (hnamed : v.Named) (hd : d ∈ v.dirs) :
    s.heap.Stuck d.addr names ↔ v.walk d.addr names = 0 := by
  induction names generalizing d with
  | nil =>
    refine iff_of_false ?_ (hg.addr_ne_zero hd)
    rintro ⟨pre, name, post, sub, hnames, -⟩
    exact List.append_ne_nil_of_right_ne_nil _ (List.cons_ne_nil _ _) hnames.symm
  | cons name names ih =>
    rw [Volume.walk_cons hg.owns.dirs_nodup hd]
    cases hfind : d.subdirNodes.find? fun b => v.textAt b = name with
    | none => exact iff_of_true ⟨[], name, names, d.addr, rfl, .here, (hg.noSub_iff hnamed hd).mpr hfind⟩ rfl
    | some b =>
      obtain ⟨e, he, rfl⟩ := hg.subdirNode hd (List.mem_of_find?_eq_some hfind)
      refine Iff.trans ?_ (ih he)
      constructor
      · rintro ⟨pre, name', post, sub, hnames, hres, hnone⟩
        cases pre with
        | nil =>
          cases hres
          obtain ⟨rfl, -⟩ := List.cons.inj hnames
          rw [(hg.noSub_iff hnamed hd).mp hnone] at hfind
          cases hfind
        | cons first pre =>
          obtain ⟨rfl, hrest⟩ := List.cons.inj hnames
          cases hres with
          | down hsub hres =>
            rw [hg.sub_iff hnamed hd, hfind, Option.some.injEq] at hsub
            exact ⟨pre, name', post, sub, hrest, hsub ▸ hres, hnone⟩
      · rintro ⟨pre, name', post, sub, rfl, hres, hnone⟩
        exact ⟨name :: pre, name', post, sub, rfl, .down ((hg.sub_iff hnamed hd).mpr hfind) hres, hnone⟩

/-! ### Files by their names -/

theorem Good.file_plain (hg : s.Good L R v) (hp : s.heap.PlainNames s.root) (hd : d ∈ v.dirs) (hf : f ∈ d.fileNodes) :
    Plain f.text := by
  obtain ⟨i, hi⟩ := List.getElem?_of_mem hf
  obtain ⟨text, hname, hplain⟩ := hp.file d.addr i (hg.inTree hd) (by
    rw [hg.fileCount hd]
    exact (List.getElem?_eq_some_iff.mp hi).1)
  rw [hg.fileAt hd hi, hg.hasName_file hd hf] at hname
  rw [hname]
  exact hplain

/-- The file of a name is the one that the search finds. -/
theorem Good.fileOf_iff (hg : s.Good L R v) (hp : s.heap.PlainNames s.root) (hd : d ∈ v.dirs) :
    s.heap.FileOf d.addr name a ↔ ∃ j f, d.fileIdx name = some j ∧ d.fileNodes[j]? = some f ∧ f.addr = a := by
  constructor
  · rintro ⟨i, hi, rfl, hname⟩
    rw [hg.fileCount hd] at hi
    have hget := List.getElem?_eq_getElem hi
    have htext : (d.fileNodes[i]).text = name := by
      rw [hg.fileAt hd hget] at hname
      exact (hg.hasName_file hd (List.getElem_mem hi)).mp hname
    cases hidx : d.fileIdx name with
    | none =>
      have hnone := List.findIdx?_eq_none_iff.mp hidx _ (List.getElem_mem hi)
      exact absurd htext (of_decide_eq_false hnone)
    | some j =>
      obtain ⟨hj, htext', -⟩ := List.findIdx?_eq_some_iff_getElem.mp hidx
      have hget' := List.getElem?_eq_getElem hj
      have hij := hp.files d.addr i j name (hg.inTree hd) (by rw [hg.fileCount hd]; exact hi)
        (by rw [hg.fileCount hd]; exact hj) hname (by
          rw [hg.fileAt hd hget', hg.hasName_file hd (List.getElem_mem hj)]
          exact of_decide_eq_true htext')
      subst hij
      exact ⟨i, _, rfl, hget, (hg.fileAt hd hget).symm⟩
  · rintro ⟨j, f, hidx, hf, rfl⟩
    obtain ⟨hj, htext, -⟩ := List.findIdx?_eq_some_iff_getElem.mp hidx
    rw [List.getElem?_eq_getElem hj, Option.some.injEq] at hf
    subst hf
    have hget := List.getElem?_eq_getElem hj
    refine ⟨j, by rw [hg.fileCount hd]; exact hj, hg.fileAt hd hget, ?_⟩
    exact (hg.hasName_file hd (List.getElem_mem hj)).mpr (of_decide_eq_true htext)

end Mount
/-! ### Trees that can be checked -/

/-- The string at `a`, if it has fewer than `n` characters. -/
def Memory.strAt (m : Memory) : (n a : Nat) → Option (List UInt8)
  | 0, _ => none
  | n + 1, a => if m.byte a = 0 then some [] else (strAt m n (a + 1)).map (m.byte a :: ·)

theorem Memory.strAt_isStr {m : Memory} {n a : Nat} {text : List UInt8} (h : m.strAt n a = some text)
    (ha : a + n < addressSpace) :
    IsStr m a text := by
  induction n generalizing a text with
  | zero => cases h
  | succ n ih =>
    unfold strAt at h
    split at h
    · next h0 =>
      cases h
      exact ⟨fun i c hi => (nomatch hi), h0, List.not_mem_nil, by rw [List.length_nil]; omega⟩
    · next h0 =>
      obtain ⟨text, htext, rfl⟩ := Option.map_eq_some_iff.mp h
      have hstr := ih htext (by omega)
      have hroom := hstr.room
      refine ⟨fun i c hi => ?_, ?_, ?_, ?_⟩
      · cases i with
        | zero => exact Option.some.inj hi
        | succ i =>
          rw [← Nat.add_assoc, Nat.add_right_comm]
          exact hstr.chars i c hi
      · rw [List.length_cons, ← Nat.add_assoc, Nat.add_right_comm]
        exact hstr.stop
      · rw [List.mem_cons]
        exact fun hmem => hmem.elim (fun he => h0 he.symm) hstr.text
      · rw [List.length_cons]
        omega

namespace Heap
variable {h : Heap} {root dir a n : Nat} {text : List UInt8}

/-- The name of a directory or a file, if it has one. -/
def nameAt (h : Heap) (a : Nat) : Option (List UInt8) :=
  if h.word a RamfsDir.name ≠ 0 ∧ h.word a RamfsDir.name + 64 < addressSpace then h.mem.strAt 64
    (h.word a RamfsDir.name) else none

theorem nameAt_hasName (h' : h.nameAt a = some text) : h.HasName a text := by
  unfold nameAt at h'
  split at h'
  · next hc => exact ⟨hc.1, Memory.strAt_isStr h' hc.2⟩
  · cases h'

theorem HasName.unique {text' : List UInt8} (h₁ : h.HasName a text) (h₂ : h.HasName a text') : text = text' :=
    h₁.2.unique h₂.2

/-- Records with plain names of which no two are the same. -/
def plainEntries (h : Heap) (entry : Nat → Nat) (n : Nat) : Bool :=
  (∀ i, i < n → (h.nameAt (entry i)).any fun text => Plain text) ∧
    ∀ i, i < n → ∀ j, j < n → h.nameAt (entry i) = h.nameAt (entry j) → i = j

theorem plain_of_entries {entry : Nat → Nat} (hp : h.plainEntries entry n) {i : Nat} (hi : i < n) :
    ∃ text, h.nameAt (entry i) = some text ∧ h.HasName (entry i) text ∧ Plain text := by
  obtain ⟨text, htext, hplain⟩ := (Option.any_eq_true _ _).mp ((of_decide_eq_true hp).1 i hi)
  exact ⟨text, htext, nameAt_hasName htext, of_decide_eq_true hplain⟩

theorem distinct_of_entries {entry : Nat → Nat} (hp : h.plainEntries entry n) {i j : Nat} (hi : i < n) (hj : j < n)
    (hname : h.HasName (entry i) text) (hname' : h.HasName (entry j) text) : i = j := by
  obtain ⟨t, ht, htn, -⟩ := plain_of_entries hp hi
  obtain ⟨t', ht', htn', -⟩ := plain_of_entries hp hj
  refine (of_decide_eq_true hp).2 i hi j hj ?_
  rw [ht, ht', ← hname.unique htn, ← hname'.unique htn']

/-- A root whose subdirectories have none. -/
def flat (h : Heap) (root : Nat) : Bool := ∀ i, i < h.word root RamfsDir.subdirCount →
    h.word (h.subdirAt root i) RamfsDir.subdirCount = 0

theorem inTree_flat (hf : h.flat root) (hdir : h.InTree root dir) :
    dir = root ∨ ∃ i, i < h.word root RamfsDir.subdirCount ∧ dir = h.subdirAt root i := by
  induction hdir with
  | root => exact Or.inl rfl
  | @subdir dir i _ hi ih =>
    rcases ih with rfl | ⟨j, hj, rfl⟩
    · exact Or.inr ⟨i, hi, rfl⟩
    · rw [of_decide_eq_true hf j hj] at hi
      exact absurd hi (Nat.not_lt_zero _)

/-- The root and its subdirectories have plain names in them. -/
def flatPlain (h : Heap) (root : Nat) : Bool :=
  h.flat root ∧ h.plainEntries (h.subdirAt root) (h.word root RamfsDir.subdirCount) ∧
    h.plainEntries (h.fileAt root) (h.word root RamfsDir.fileCount) ∧
    ∀ i, i < h.word root RamfsDir.subdirCount →
      h.plainEntries (h.fileAt (h.subdirAt root i)) (h.word (h.subdirAt root i) RamfsDir.fileCount)

theorem plainNames_of_flatPlain (hp : h.flatPlain root) : h.PlainNames root := by
  obtain ⟨hflat, hsubs, hfiles, hsubFiles⟩ := of_decide_eq_true hp
  have hdirs : ∀ {dir}, h.InTree root dir → h.plainEntries (h.subdirAt dir) (h.word dir RamfsDir.subdirCount) ∧
      h.plainEntries (h.fileAt dir) (h.word dir RamfsDir.fileCount) := by
    intro dir hdir
    rcases inTree_flat hflat hdir with rfl | ⟨i, hi, rfl⟩
    · exact ⟨hsubs, hfiles⟩
    · rw [of_decide_eq_true hflat i hi]
      exact ⟨decide_eq_true ⟨fun j hj => absurd hj (Nat.not_lt_zero _), fun j hj => absurd hj (Nat.not_lt_zero _)⟩,
        hsubFiles i hi⟩
  refine ⟨fun dir i hdir hi => ?_, fun dir i hdir hi => ?_, fun dir i j text hdir hi hj h₁ h₂ => ?_,
    fun dir i j text hdir hi hj h₁ h₂ => ?_⟩
  · obtain ⟨text, -, hname⟩ := plain_of_entries (hdirs hdir).1 hi
    exact ⟨text, hname⟩
  · obtain ⟨text, -, hname⟩ := plain_of_entries (hdirs hdir).2 hi
    exact ⟨text, hname⟩
  · exact distinct_of_entries (hdirs hdir).1 hi hj h₁ h₂
  · exact distinct_of_entries (hdirs hdir).2 hi hj h₁ h₂

end Heap
end ShompOS
