import ShompOS.Fs.Pwd
import ShompOS.Shell.Commands

/-! What a line does to the file system.

Most commands leave the volume as it is but for the pool. `touch`, `mkdir` and `rm`
change the current directory, and they look for the very name they then work with;
`cd` goes to a directory that is no deeper than its argument is long. -/
namespace ShompOS
open Memory

/-! ### Cutting lines -/

namespace Memory
variable {m : Memory} {a fuel : Nat} {s t text : List UInt8}

theorem streq_iff (h : IsStr m a s) (h0 : 0 ∉ text) : m.streq a text = true ↔ s = text := by
  induction text generalizing a s with
  | nil =>
    unfold streq
    rw [decide_eq_true_iff]
    exact h.byte_eq_zero_iff
  | cons c text ih =>
    unfold streq
    rw [List.mem_cons, not_or] at h0
    cases s with
    | nil =>
      rw [h.stop_nil, Bool.and_eq_true, decide_eq_true_iff]
      exact ⟨fun hc => absurd hc.1 h0.1, nofun⟩
    | cons d s =>
      rw [h.head.1, h.step, Bool.and_eq_true, decide_eq_true_iff, ih h.tail h0.2, List.cons_eq_cons]

theorem findSpace_none (h : IsStr m a s) (hs : 0x20 ∉ s) (hfuel : s.length < fuel) :
    m.findSpace fuel a = some none := by
  induction s generalizing a fuel with
  | nil =>
    obtain ⟨fuel, rfl⟩ := Nat.exists_eq_succ_of_ne_zero (Nat.ne_zero_of_lt hfuel)
    exact if_pos h.stop_nil
  | cons c s ih =>
    obtain ⟨fuel, rfl⟩ := Nat.exists_eq_succ_of_ne_zero (Nat.ne_zero_of_lt hfuel)
    obtain ⟨hbyte, hc⟩ := h.head
    rw [List.mem_cons, not_or] at hs
    unfold findSpace
    rw [if_neg (hbyte ▸ hc), if_neg (hbyte ▸ Ne.symm hs.1), h.step]
    exact ih h.tail hs.2 (Nat.lt_of_succ_lt_succ hfuel)

theorem findSpace_some (h : IsStr m a (s ++ 0x20 :: t)) (hs : 0x20 ∉ s) (hfuel : s.length < fuel) :
    m.findSpace fuel a = some (some (a + s.length)) := by
  induction s generalizing a fuel with
  | nil =>
    obtain ⟨fuel, rfl⟩ := Nat.exists_eq_succ_of_ne_zero (Nat.ne_zero_of_lt hfuel)
    obtain ⟨hbyte, hc⟩ := h.head
    unfold findSpace
    rw [if_neg (hbyte ▸ hc), if_pos hbyte]
    rfl
  | cons c s ih =>
    obtain ⟨fuel, rfl⟩ := Nat.exists_eq_succ_of_ne_zero (Nat.ne_zero_of_lt hfuel)
    obtain ⟨hbyte, hc⟩ := h.head
    rw [List.mem_cons, not_or] at hs
    unfold findSpace
    rw [if_neg (hbyte ▸ hc), if_neg (hbyte ▸ Ne.symm hs.1), h.step, ih h.tail hs.2 (Nat.lt_of_succ_lt_succ hfuel),
      List.length_cons]
    congr 2
    omega

/-- Leading spaces are skipped. -/
theorem skipSpaces_eq (h : IsStr m a s) (hfuel : s.length < fuel) :
    ∃ k, k ≤ s.length ∧ m.skipSpaces fuel a = some (a + k) ∧ s.drop k = s.dropWhile (· = 0x20) := by
  induction s generalizing a fuel with
  | nil =>
    obtain ⟨fuel, rfl⟩ := Nat.exists_eq_succ_of_ne_zero (Nat.ne_zero_of_lt hfuel)
    refine ⟨0, Nat.le_refl _, if_neg ?_, rfl⟩
    rw [h.stop_nil]
    decide
  | cons c s ih =>
    obtain ⟨fuel, rfl⟩ := Nat.exists_eq_succ_of_ne_zero (Nat.ne_zero_of_lt hfuel)
    unfold skipSpaces
    rw [h.head.1]
    by_cases hc : c = 0x20
    · obtain ⟨k, hk, hskip, hdrop⟩ := ih h.tail (Nat.lt_of_succ_lt_succ hfuel)
      refine ⟨k + 1, Nat.succ_le_succ hk, ?_, ?_⟩
      · rw [if_pos hc, h.step, hskip, Nat.add_assoc, Nat.add_comm 1 k]
      · rw [List.drop_succ_cons, hdrop, List.dropWhile_cons_of_pos (p := fun x => decide (x = 0x20))
          (decide_eq_true hc)]
    · exact ⟨0, Nat.zero_le _, if_neg hc, (List.dropWhile_cons_of_neg (by simpa using hc)).symm⟩

end Memory

theorem Shell.cut_line {line : List UInt8} (h : 0x20 ∈ line) :
    ∃ args, Shell.argsOf line = some args ∧ line = Shell.nameOf line ++ 0x20 :: args ∧ 0x20 ∉ Shell.nameOf line := by
  obtain ⟨name, args, rfl, hname⟩ := List.eq_append_cons_of_mem h
  obtain ⟨htake, hdrop⟩ := cut_append hname args
  unfold Shell.nameOf Shell.argsOf
  rw [if_pos h, htake, hdrop]
  exact ⟨args, rfl, rfl, hname⟩

/-- The arguments are shorter than the line. -/
theorem Shell.argsOf_length {line args : List UInt8} (h : Shell.argsOf line = some args) :
    args.length + 1 ≤ line.length := by
  by_cases hspace : 0x20 ∈ line
  · obtain ⟨args', hargs, hline, -⟩ := Shell.cut_line hspace
    obtain rfl := Option.some.inj (hargs.symm.trans h)
    have hlen := congrArg List.length hline
    rw [List.length_append, List.length_cons] at hlen
    omega
  · unfold Shell.argsOf at h
    rw [if_neg hspace] at h
    cases h

/-! ### What is only printed -/

namespace Ramfs
variable {s r : Ramfs}

/-- Nothing but the terminal is different. -/
structure Quiet (s r : Ramfs) : Prop where
  heap : r.heap = s.heap
  table : r.fdTable = s.fdTable

theorem Quiet.trans {t : Ramfs} (h : s.Quiet r) (h' : r.Quiet t) : s.Quiet t :=
    ⟨h'.heap.trans h.heap, h'.table.trans h.table⟩

theorem quiet_writestring {a : Nat} (h : s.terminalWritestring a = some r) : s.Quiet r := by
  obtain ⟨len, -, rfl⟩ := Option.map_eq_some_iff.mp h
  exact ⟨rfl, rfl⟩

theorem quiet_writeint (R : Rodata) (s : Ramfs) (num : Int) : s.Quiet (s.terminalWriteint R num) := by
  rw [terminalWriteint_eq]
  exact ⟨rfl, rfl⟩

theorem quiet_report {text : String} {name : Nat} (h : s.report text name = some r) : s.Quiet r := by
  obtain ⟨r', hr', rfl⟩ := Option.map_eq_some_iff.mp h
  exact Quiet.trans (r := s.print text) ⟨rfl, rfl⟩ ((quiet_writestring hr').trans ⟨rfl, rfl⟩)

theorem quiet_listSubdirs {dir count i : Nat} (h : listSubdirs dir count i s = some r) : s.Quiet r := by
  induction count generalizing i s with
  | zero =>
    cases h
    exact ⟨rfl, rfl⟩
  | succ count ih =>
    obtain ⟨r', hr', h⟩ := Option.bind_eq_some_iff.mp h
    exact (quiet_report hr').trans (ih h)

theorem quiet_listFiles {R : Rodata} {dir count i : Nat} (h : listFiles R dir count i s = some r) : s.Quiet r := by
  induction count generalizing i s with
  | zero =>
    cases h
    exact ⟨rfl, rfl⟩
  | succ count ih =>
    obtain ⟨r', hr', h⟩ := Option.bind_eq_some_iff.mp h
    have hname : s.Quiet r' := Quiet.trans (r := s.print "[FILE] ") ⟨rfl, rfl⟩ (quiet_writestring hr')
    have hrest := ih h
    have hsize := quiet_writeint R (r'.print "    size:")
      (toSigned (r'.heap.word (s.heap.word (s.heap.word dir RamfsDir.files) i) RamfsFile.size))
    exact hname.trans ⟨hrest.heap.trans hsize.heap, hrest.table.trans hsize.table⟩

theorem quiet_cat {dir filename : Nat} (h : s.ramfsCat dir filename = some r) : s.Quiet r := by
  unfold ramfsCat at h
  split at h
  · cases h
    exact ⟨rfl, rfl⟩
  · obtain ⟨a, -, h⟩ := Option.bind_eq_some_iff.mp h
    obtain ⟨found, -, h⟩ := Option.bind_eq_some_iff.mp h
    cases found with
    | none => exact quiet_report h
    | some i => exact quiet_report h

end Ramfs

/-! ### The commands -/

/-- Up to a 0 there is a string. -/
theorem Memory.IsStr.exists_before {m : Memory} {a n : Nat} (hend : m.byte (a + n) = 0)
    (hroom : a + n + 1 < addressSpace) :
    ∃ text, IsStr m a text ∧ text.length ≤ n := by
  induction n generalizing a with
  | zero => exact ⟨[], ⟨nofun, hend, List.not_mem_nil, hroom⟩, Nat.le_refl _⟩
  | succ n ih =>
    by_cases h0 : m.byte a = 0
    · exact ⟨[], ⟨nofun, h0, List.not_mem_nil, by rw [List.length_nil]; omega⟩, Nat.zero_le _⟩
    · rw [← Nat.add_assoc, Nat.add_right_comm] at hend
      obtain ⟨text, htext, hle⟩ := ih hend (by omega)
      refine ⟨[m.byte a] ++ text, IsStr.prepend htext (fun i c hi => ?_) fun hmem => h0
        (List.mem_singleton.mp hmem).symm,
        Nat.succ_le_succ hle⟩
      cases i with
      | zero => exact Option.some.inj hi
      | succ i => cases hi

/-- The literals lie below the free lists, and so address 0 has a string in front of those. -/
theorem DirNode.Says.exists_of {L : Layout} {R : Rodata} {m : Memory} (hR : R.Holds L m) (hlow : R.slash < L.freeList)
    (d : DirNode) : ∃ text, d.Says L m text := by
  by_cases h0 : d.name = 0
  · have hstop := hR.slash.str.stop
    have hstatic := hR.slash.static 1 (Nat.le_refl _)
    have hlist : R.slash + 1 < L.freeList := by
      by_contra hle
      exact hstatic.2 ⟨by omega, by omega⟩
    have hheap := hstatic.1
    have hbound : heapLowerBound < addressSpace := by decide
    rw [show R.slash + (ascii "/").length = 0 + (R.slash + 1) from (Nat.zero_add _).symm] at hstop
    obtain ⟨text, htext, hle⟩ := IsStr.exists_before hstop (by omega)
    refine ⟨text, Or.inr ⟨h0, htext, fun i hi => ⟨by omega, fun hi' => ?_⟩⟩⟩
    have := hi'.1
    omega
  · exact ⟨d.text, Or.inl ⟨h0, rfl⟩⟩

/-- A path that is not too long: all names are there, or there are few. -/
def Volume.Near (v : Volume) (root : Nat) (d : DirNode) : Prop :=
  ∃ ds, v.Lineage root d ds ∧ ((∀ e ∈ ds, e.name ≠ 0) ∨ ds.length < Shell.cmdMaxLen)

namespace Mount
variable {L : Layout} {R : Rodata} {s : Mount} {v : Volume} {k : Nat} {d : DirNode} {r : Ramfs} {a : Nat}
  {text : List UInt8}

theorem Good.quiet (hg : s.Good L R v) (hr : s.ramfs.Quiet r) : (s.withRamfs r).Good L R v :=
    (hg.congr hr.heap hr.table).1

/-- Text of any directory, and with it of any lineage, is shorter than the memory below the heap. -/
theorem Good.says_length (hg : s.Good L R v) (hd : d ∈ v.dirs) (htexts : d.Says L s.mem text) :
    text.length + 1 ≤ heapLowerBound := by
  cases htexts with
  | inl hs =>
    obtain ⟨hne, rfl⟩ := hs
    have hname : (d.name, Contents.bytes (d.text ++ [0])) ∈ v.cells := DirNode.mem_cells hd (DirNode.name_mem hne)
    have hb := (hg.owns.bounds (List.mem_append_left _ hname)).2.2
    rw [Contents.size_bytes, List.length_append, List.length_singleton] at hb
    have hM : 2 ^ maxBlockScale ≤ heapLowerBound := by decide
    omega
  | inr hs => exact (hs.2.2 text.length (Nat.le_refl _)).1

theorem pathSize_le {texts : List (List UInt8)} {n : Nat} (h : ∀ text ∈ texts, text.length + 1 ≤ n) :
    pathSize texts ≤ texts.length * n := by
  induction texts with
  | nil => exact Nat.zero_le _
  | cons text texts ih =>
    have h1 := h text (List.mem_cons_self ..)
    have h2 := ih fun t ht => h t (List.mem_cons_of_mem _ ht)
    rw [pathSize_cons, List.length_cons, Nat.succ_mul]
    omega

/-- The names on the way to a directory nearby, and a path of them that fits. -/
theorem Good.near_texts (hg : s.Good L R v) (hlow : R.slash < L.freeList) (hp : v.Parented s.root)
    (hnear : v.Near s.root d) :
    ∃ ds texts, v.Lineage s.root d ds ∧ List.Forall₂ (DirNode.Says L s.mem) ds texts ∧
      pathSize texts + 1 < addressSpace := by
  obtain ⟨ds, hline, hcases⟩ := hnear
  cases hcases with
  | inl hnames => exact ⟨ds, _, hline, says_named hnames, hg.pathSize_lt hp hline hnames⟩
  | inr hshort =>
    have hall : ∀ ds : List DirNode, ds ⊆ v.dirs → ∃ texts, List.Forall₂ (DirNode.Says L s.mem) ds texts ∧
        ∀ text ∈ texts, text.length + 1 ≤ heapLowerBound := by
      intro ds
      induction ds with
      | nil => exact fun _ => ⟨[], .nil, nofun⟩
      | cons d ds ih =>
        intro hsub
        obtain ⟨text, htexts⟩ := DirNode.Says.exists_of hg.rodata hlow d
        obtain ⟨texts, hrest, hle⟩ := ih (List.subset_of_cons_subset hsub)
        exact ⟨text :: texts, .cons htexts hrest,
          List.forall_mem_cons.mpr ⟨hg.says_length (hsub (List.mem_cons_self ..)) htexts, hle⟩⟩
    obtain ⟨texts, htexts, hle⟩ := hall ds hline.subset
    have hsize := pathSize_le hle
    have hbound : (Shell.cmdMaxLen - 1) * heapLowerBound + 1 < addressSpace := by decide
    have hmul : texts.length * heapLowerBound ≤ (Shell.cmdMaxLen - 1) * heapLowerBound :=
      Nat.mul_le_mul_right _ (by rw [← htexts.length_eq]; omega)
    exact ⟨ds, texts, hline, htexts, by omega⟩

/-- The path of a directory nearby is printed. -/
theorem Good.pwd_near (hg : s.Good L R v) (hlow : R.slash < L.freeList) (hp : v.Parented s.root)
    (hnear : v.Near s.root d) :
    ∃ r P, s.ramfs.ramfsPwd L d.addr = some r ∧ (s.withRamfs r).Good L R {v with pool := P} := by
  obtain ⟨ds, texts, hline, htexts, hfits⟩ := hg.near_texts hlow hp hnear
  obtain ⟨r, hcall, -, hgood, -⟩ := hg.pwd hp hline htexts hfits
  exact ⟨r, _, hcall, hgood⟩

theorem Good.ls_near (hg : s.Good L R v) (hlow : R.slash < L.freeList) (hp : v.Parented s.root)
    (hnear : v.Near s.root d)
    (h : s.ramfs.ramfsLs L R d.addr = some r) : ∃ P, (s.withRamfs r).Good L R {v with pool := P} := by
  unfold Ramfs.ramfsLs at h
  split at h
  · cases h
    exact ⟨v.pool, hg.quiet ⟨rfl, rfl⟩⟩
  · have hg' : (s.withRamfs (s.ramfs.print "Contents of ")).Good L R v := hg.quiet ⟨rfl, rfl⟩
    obtain ⟨r₁, P, hcall, hgood⟩ := hg'.pwd_near hlow hp hnear
    obtain ⟨r₂, hr₂, h⟩ := Option.bind_eq_some_iff.mp h
    obtain rfl := Option.some.inj (hcall.symm.trans hr₂)
    obtain ⟨r₃, hr₃, h⟩ := Option.bind_eq_some_iff.mp h
    exact ⟨P, hgood.quiet ((Ramfs.quiet_listSubdirs hr₃).trans (Ramfs.quiet_listFiles h))⟩

/-- A directory is created, or there is one of that name. -/
theorem Good.mkdir (hg : s.Good L R v) (hk : v.dirs[k]? = some d) (hname : s.Passes L a text)
    (h : s.ramfs.ramfsMkdir L d.addr a = some r) :
    (s.withRamfs r).Good L R v ∨ ((s.withRamfs r).Good L R (v.createDir k d text) ∧
      ∀ e ∈ v.dirs, e.addr ∈ d.subdirNodes → e.name ≠ 0 → e.text ≠ text) := by
  unfold Ramfs.ramfsMkdir at h
  split at h
  · cases h
    exact Or.inl (hg.quiet ⟨rfl, rfl⟩)
  · next hnull =>
    obtain ⟨found, hfound, h⟩ := Option.bind_eq_some_iff.mp h
    cases found with
    | some i => exact Or.inl (hg.quiet (Ramfs.quiet_report h))
    | none =>
      obtain ⟨s₁, hcall, hgood, -⟩ := hg.createDir hk hname fun h0 => hnull (Or.inr h0)
      obtain ⟨⟨h₁, newdir⟩, hcreate, h⟩ := Option.bind_eq_some_iff.mp h
      dsimp only [call] at hcall
      rw [hcreate] at hcall
      obtain ⟨rfl, -⟩ := Prod.mk.inj (Option.some.inj hcall)
      refine Or.inr ⟨hgood.quiet (Ramfs.quiet_report h), fun e he hin hne heq => ?_⟩
      have hd := List.mem_of_getElem? hk
      obtain ⟨j, hj⟩ := List.getElem?_of_mem hin
      obtain ⟨x, hx, hx0⟩ := searchName_missing hfound (Nat.zero_le j) (by
        rw [Nat.zero_add, hg.subdirCount hd]
        exact (List.getElem?_eq_some_iff.mp hj).1)
      have hat := hg.subdirAt hd hj
      change s.mem.strcmp (s.heap.word (s.heap.subdirAt d.addr j) RamfsDir.name) a = some x at hx
      rw [hat, (hg.dirAt he).record RamfsDir.name _ rfl] at hx
      obtain ⟨y, hy, hiff⟩ := strcmp_eq ((hg.dirAt he).text hne) hname.1
      rw [hx] at hy
      exact hx0 ((Option.some.inj hy).trans (hiff.mpr heq))

theorem Passes.drop (h : s.Passes L a text) {j : Nat} (hj : j ≤ text.length) : s.Passes L (a + j) (text.drop j) := by
  refine ⟨h.1.drop hj, fun i hi => ?_⟩
  rw [List.length_drop] at hi
  rw [Nat.add_assoc]
  exact h.2 (j + i) (by omega)

/-- The name of a file without the spaces in front. -/
def trimmed (text : List UInt8) : List UInt8 := text.dropWhile (· = 0x20)

/-- The empty string is the 0 that ends it. -/
theorem Good.lent_empty (hg : s.Good L R v) : LentBytes L (heldCells s.held s.mem) s.mem R.empty [0] := by
  refine ⟨fun i b hi => ?_, fun i hi => ?_, hg.rodata.empty.str.room⟩
  · cases i with
    | zero =>
      cases hi
      exact hg.rodata.empty.str.stop
    | succ i => cases hi
  · obtain rfl := Nat.lt_one_iff.mp hi
    exact Or.inl (hg.rodata.empty.static 0 (Nat.le_refl _))

/-- An empty file is created, with the 0 that ends the empty string, if none has its name. -/
theorem Good.touch (hg : s.Good L R v) (hk : v.dirs[k]? = some d) (hname : s.Passes L a text)
    (h : s.ramfs.ramfsTouch L R d.addr a = some r) :
    (s.withRamfs r).Good L R v ∨ (d.fileIdx (trimmed text) = none ∧
      (s.withRamfs r).Good L R (v.withDir k (d.createFile v.pool (trimmed text) [0]).1
        (d.createFile v.pool (trimmed text) [0]).2.1)) := by
  unfold Ramfs.ramfsTouch at h
  split at h
  · cases h
    exact Or.inl (hg.quiet ⟨rfl, rfl⟩)
  next hnull =>
  have hroom := hname.1.room
  have hfuel : text.length < addressSpace := by omega
  obtain ⟨j, hj, hskip, hdrop⟩ := skipSpaces_eq hname.1 hfuel
  have hname' := hname.drop hj
  rw [hskip, Option.bind_some, strlen_eq hname'.1, Option.bind_some] at h
  rw [show trimmed text = text.drop j from hdrop.symm]
  split at h
  · cases h
    exact Or.inl (hg.quiet ⟨rfl, rfl⟩)
  have hd := List.mem_of_getElem? hk
  rw [hg.owns.searchFile (fun c hc => List.mem_append_left _ (DirNode.mem_cells hd hc)) (hg.valid d hd) hname'.1,
    Option.bind_some] at h
  cases hidx : d.fileIdx (text.drop j) with
  | some i =>
    rw [hidx] at h
    cases h
    exact Or.inl (hg.quiet ⟨rfl, rfl⟩)
  | none =>
    rw [hidx] at h
    obtain ⟨s₁, hcall, hgood, -⟩ := hg.createFile hk hname' (by omega) hg.lent_empty hg.rodata.empty.ne_zero
    obtain ⟨⟨h₁, file⟩, hcreate, h⟩ := Option.bind_eq_some_iff.mp h
    dsimp only [call] at hcall
    rw [show ([0] : List UInt8).length = 1 from rfl, hcreate] at hcall
    obtain ⟨rfl, -⟩ := Prod.mk.inj (Option.some.inj hcall)
    refine Or.inr ⟨rfl, ?_⟩
    dsimp only at h
    by_cases hfile : file ≠ 0
    · rw [if_pos hfile] at h
      exact hgood.quiet (Ramfs.quiet_report h)
    · rw [if_neg hfile] at h
      obtain rfl := Option.some.inj h
      exact hgood.quiet ⟨rfl, rfl⟩

/-- A directory that is found is at most as deep as its path has names. -/
theorem Good.cd (hg : s.Good L R v) (hpath : s.Passes L a text) (ha : a ≠ 0) :
    ∃ r dir P, s.ramfs.ramfsCd L R s.root a = some (r, dir) ∧ (s.withRamfs r).Good L R {v with pool := P} ∧
      (dir = 0 ∨ ∃ root ∈ v.dirs, root.addr = s.root ∧ ∃ e ∈ v.dirs, e.addr = dir ∧
        v.Descends (tokens 0x2F text).length root e) ∧
      (v.Named → dir = v.findDir v.pool s.root text) := by
  obtain ⟨root, hroot, he⟩ := (hg.owns.inTree_iff hg.tree).mp .root
  obtain ⟨s₁, dir, hcall, hgood, -, hdown, hfound⟩ := hg.findDir hroot hpath ha
  obtain ⟨⟨h₁, last, dir'⟩, hfind, hr⟩ := Option.map_eq_some_iff.mp hcall
  obtain ⟨rfl, hdir⟩ := Prod.mk.inj hr
  obtain rfl := Int.ofNat.inj hdir
  rw [he] at hfind hfound
  unfold Ramfs.ramfsCd
  rw [hfind]
  exact ⟨_, _, _, rfl, hgood, hdown.imp_right fun ⟨e, hin, hea, hn⟩ => ⟨root, hroot, he, e, hin, hea, hn⟩, hfound⟩

end Mount

namespace Shell
variable {L : Layout} {R : Rodata} {initElf : Ramfs → Nat → Option Ramfs} {s s' : Shell} {v : Volume}
  {k : Nat} {d : DirNode}
  {cmd args : Nat} {name line : List UInt8} {given : Option (List UInt8)}

/-- What a command may do to the volume, and where it leaves the shell; `d` is the current
directory. -/
inductive Effect (systemRoot currentDir : Nat) (v : Volume) (k : Nat) (d : DirNode) (name : List UInt8)
    (args : Option (List UInt8)) : Nat → Volume → Prop
  | idle {P : Pool} : Effect systemRoot currentDir v k d name args currentDir {v with pool := P}
  | touch {text : List UInt8} : d.fileIdx text = none →
      Effect systemRoot currentDir v k d name args currentDir
        (v.withDir k (d.createFile v.pool text [0]).1 (d.createFile v.pool text [0]).2.1)
  | mkdir {text : List UInt8} : name = ascii "mkdir" → args = some text →
      (∀ e ∈ v.dirs, e.addr ∈ d.subdirNodes → e.name ≠ 0 → e.text ≠ text) →
      Effect systemRoot currentDir v k d name args currentDir (v.createDir k d text)
  | rm {text : List UInt8} :
      Effect systemRoot currentDir v k d name args currentDir
        (v.withDir k (d.deleteFile v.pool text).1 (d.deleteFile v.pool text).2)
  | cd {root e : DirNode} {text : List UInt8} {n : Nat} {P : Pool} : args = some text → root ∈ v.dirs →
      root.addr = systemRoot →
      e ∈ v.dirs → v.Descends n root e → n ≤ text.length →
        Effect systemRoot currentDir v k d name args e.addr {v with pool := P}

/-- What a line leaves. -/
def Next (L : Layout) (R : Rodata) (systemRoot currentDir : Nat) (v : Volume) (k : Nat) (d : DirNode)
    (name : List UInt8)
    (args : Option (List UInt8)) (s' : Shell) : Prop :=
  ∃ v', s'.mount.Good L R v' ∧ s'.systemRoot = systemRoot ∧
    Effect systemRoot currentDir v k d name args s'.currentDir v'

theorem Next.idle {P : Pool} {r : Ramfs} (hg : (s.mount.withRamfs r).Good L R {v with pool := P}) :
    Next L R s.systemRoot s.currentDir v k d name given (s.withRamfs r) := ⟨_, hg, rfl, .idle⟩

theorem Next.quiet (hg : s.mount.Good L R v) {r : Ramfs} (hr : s.ramfs.Quiet r) :
    Next L R s.systemRoot s.currentDir v k d name given (s.withRamfs r) :=
  .idle (P := v.pool) (hg.quiet hr)

/-- Without arguments a command only says so. -/
theorem Next.needs (hg : s.mount.Good L R v) {usage : String} {command : Option Shell}
    (h : s.needs args usage command = some s')
    (hcommand : args ≠ 0 → command = some s' → Next L R s.systemRoot s.currentDir v k d name given s') :
    Next L R s.systemRoot s.currentDir v k d name given s' := by
  unfold Shell.needs at h
  split at h
  · cases h
    exact .quiet hg ⟨rfl, rfl⟩
  · next hne => exact hcommand hne h

theorem perform_next (hg : s.mount.Good L R v) (hk : v.dirs[k]? = some d) (hcur : d.addr = s.currentDir)
    (hcmd : IsStr s.mem cmd name) (hargs : args = 0 ∨ ∃ text, given = some text ∧ s.mount.Passes L args text)
    (hrun : name ≠ ascii "run")
    (hpath : name = ascii "ls" ∨ name = ascii "pwd" →
      R.slash < L.freeList ∧ v.Parented s.systemRoot ∧ v.Near s.systemRoot d)
    (h : s.perform L R initElf cmd args = some s') : Next L R s.systemRoot s.currentDir v k d name given s' := by
  unfold perform at h
  dsimp only at h
  rw [← hcur] at h
  by_cases hclear : s.mem.streq cmd (ascii "clear") = true
  · rw [if_pos hclear] at h
    obtain rfl := Option.some.inj h
    exact .quiet hg ⟨rfl, rfl⟩
  rw [if_neg hclear] at h
  by_cases hls : s.mem.streq cmd (ascii "ls") = true
  · rw [if_pos hls] at h
    obtain ⟨hlow, hp, hnear⟩ := hpath (Or.inl ((streq_iff hcmd (by decide)).mp hls))
    obtain ⟨r, hr, rfl⟩ := Option.map_eq_some_iff.mp h
    obtain ⟨P, hgood⟩ := hg.ls_near hlow hp hnear hr
    exact .idle hgood
  rw [if_neg hls] at h
  by_cases hpwd : s.mem.streq cmd (ascii "pwd") = true
  · rw [if_pos hpwd] at h
    obtain ⟨hlow, hp, hnear⟩ := hpath (Or.inr ((streq_iff hcmd (by decide)).mp hpwd))
    obtain ⟨r, hr, rfl⟩ := Option.map_eq_some_iff.mp h
    obtain ⟨r', P, hcall, hgood⟩ := hg.pwd_near hlow hp hnear
    obtain rfl := Option.some.inj (hcall.symm.trans hr)
    exact .idle hgood
  rw [if_neg hpwd] at h
  by_cases hcat : s.mem.streq cmd (ascii "cat") = true
  · rw [if_pos hcat] at h
    apply Next.needs hg h
    intro _ h
    obtain ⟨r, hr, rfl⟩ := Option.map_eq_some_iff.mp h
    exact .quiet hg (Ramfs.quiet_cat hr)
  rw [if_neg hcat] at h
  by_cases htouch : s.mem.streq cmd (ascii "touch") = true
  · rw [if_pos htouch] at h
    apply Next.needs hg h
    intro hne h
    obtain ⟨text, hgiven, hpasses⟩ := hargs.resolve_left hne
    obtain ⟨r, hr, rfl⟩ := Option.map_eq_some_iff.mp h
    cases hg.touch hk hpasses hr with
    | inl hgood => exact .idle (P := v.pool) hgood
    | inr hgood => exact ⟨_, hgood.2, rfl, .touch hgood.1⟩
  rw [if_neg htouch] at h
  by_cases hmkdir : s.mem.streq cmd (ascii "mkdir") = true
  · rw [if_pos hmkdir] at h
    apply Next.needs hg h
    intro hne h
    obtain ⟨text, hgiven, hpasses⟩ := hargs.resolve_left hne
    obtain ⟨r, hr, rfl⟩ := Option.map_eq_some_iff.mp h
    cases hg.mkdir hk hpasses hr with
    | inl hgood => exact .idle (P := v.pool) hgood
    | inr hgood => exact ⟨_, hgood.1, rfl, .mkdir ((streq_iff hcmd (by decide)).mp hmkdir) hgiven hgood.2⟩
  rw [if_neg hmkdir] at h
  by_cases hrm : s.mem.streq cmd (ascii "rm") = true
  · rw [if_pos hrm] at h
    apply Next.needs hg h
    intro hne h
    obtain ⟨text, hgiven, hpasses⟩ := hargs.resolve_left hne
    obtain ⟨r, hr, rfl⟩ := Option.map_eq_some_iff.mp h
    have hcall : s.mount.call L R (.rm d.addr args) = some (s.mount.withRamfs r, 0) := by
      dsimp only [Mount.call]
      rw [show s.mount.ramfs.ramfsRm L d.addr args = some r from hr]
      rfl
    obtain ⟨-, hgood, -⟩ := hg.rm hk hpasses.1 hne hcall
    exact ⟨_, hgood, rfl, .rm⟩
  rw [if_neg hrm] at h
  by_cases hhelp : s.mem.streq cmd (ascii "help") = true
  · rw [if_pos hhelp] at h
    obtain rfl := Option.some.inj h
    exact .quiet hg ⟨rfl, rfl⟩
  rw [if_neg hhelp] at h
  by_cases hcd : s.mem.streq cmd (ascii "cd") = true
  · rw [if_pos hcd] at h
    apply Next.needs hg h
    intro hne h
    obtain ⟨text, hgiven, hpasses⟩ := hargs.resolve_left hne
    obtain ⟨⟨r, dir⟩, hr, h⟩ := Option.map_eq_some_iff.mp h
    obtain ⟨r₁, dir₁, P, hcall, hgood, hdown, -⟩ := hg.cd hpasses hne
    obtain ⟨hr₁, hdir₁⟩ := Prod.mk.inj (Option.some.inj (hcall.symm.trans hr))
    rw [hr₁] at hgood
    rw [hdir₁] at hdown
    dsimp only at h
    by_cases hdir : dir ≠ 0
    · rw [if_pos hdir] at h
      obtain ⟨root, hroot, hroot', e, he, rfl, hn⟩ := hdown.resolve_left hdir
      subst h
      exact ⟨_, hgood, rfl, .cd hgiven hroot hroot' he hn (tokens_length_le _ _)⟩
    · rw [if_neg hdir] at h
      subst h
      exact .idle (hgood.quiet ⟨rfl, rfl⟩)
  rw [if_neg hcd] at h
  by_cases hcmd' : s.mem.streq cmd (ascii "run") = true
  · exact absurd ((streq_iff hcmd (by decide)).mp hcmd') hrun
  rw [if_neg hcmd'] at h
  split at h
  · obtain ⟨r, hr, rfl⟩ := Option.map_eq_some_iff.mp h
    exact .quiet hg (Ramfs.quiet_report hr)
  · obtain rfl := Option.some.inj h
    exact .quiet hg ⟨rfl, rfl⟩

/-- Static memory apart from the literals is nothing to the volume. -/
theorem good_static {m : Memory} (hg : s.mount.Good L R v)
    (hm : ∀ x, ¬ (L.Static x ∧ ¬ R.Byte x) → m.byte x = s.mem.byte x) :
    (s.withMem m).mount.Good L R v :=
  ⟨hg.settled.store fun x hx => hm x fun hx' => hx (Or.inl hx'.1), hg.table, hg.valid, hg.tree,
    hg.rodata.congr fun x _ hlit => hm x fun hx' => hx'.2 hlit⟩

/-- So is the buffer. -/
theorem good_buffer {cmdBuffer : Nat} {m : Memory} (hg : s.mount.Good L R v) (hbuf : CmdBuffer L R cmdBuffer)
    (hm : ∀ x, ¬ (cmdBuffer ≤ x ∧ x < cmdBuffer + cmdMaxLen) → m.byte x = s.mem.byte x) :
      (s.withMem m).mount.Good L R v :=
  good_static hg fun x hx => hm x fun hx' => hx (by
    obtain ⟨i, rfl⟩ := Nat.exists_eq_add_of_le hx'.1
    exact hbuf.2 i (by omega))

/-- A line with a space in it is cut there; the command finds the name and its arguments in
the buffer. -/
theorem handleCommand_cut (initElf : Ramfs → Nat → Option Ramfs) {cmdBuffer : Nat} {m : Memory}
    {text : List UInt8} (hg : s.mount.Good L R v)
    (hbuf : CmdBuffer L R cmdBuffer) (hname : 0x20 ∉ name)
    (hm : ∀ x, ¬ (cmdBuffer ≤ x ∧ x < cmdBuffer + cmdMaxLen) → m.byte x = s.mem.byte x)
    (hstr : IsStr m cmdBuffer (name ++ 0x20 :: text)) (hlen : (name ++ 0x20 :: text).length ≤ cmdMaxLen - 1) :
    ∃ m', (s.withMem m').mount.Good L R v ∧ IsStr m' cmdBuffer name ∧
      (s.withMem m').mount.Passes L (cmdBuffer + name.length + 1) text ∧
      (s.withMem m).handleCommand L R initElf cmdBuffer =
        (s.withMem m').perform L R initElf cmdBuffer (cmdBuffer + name.length + 1) := by
  have hmax : cmdMaxLen - 1 < cmdMaxLen ∧ cmdMaxLen < addressSpace := by decide
  rw [List.length_append, List.length_cons] at hlen
  have hroom := hstr.room
  rw [List.length_append, List.length_cons] at hroom
  obtain ⟨hcmd, hrest⟩ := hstr.cut
  have hg' := good_buffer (m := m.store8 (cmdBuffer + name.length) 0) (good_buffer hg hbuf hm) hbuf fun x hx => by
    rw [byte_store8, if_neg (by omega)]
    rfl
  refine ⟨m.store8 (cmdBuffer + name.length) 0, hg', hcmd, ⟨hrest, fun i hi => Or.inl ?_⟩, ?_⟩
  · rw [Nat.add_assoc, Nat.add_assoc]
    exact (hbuf.2 _ (by omega)).1
  · unfold handleCommand
    rw [show (s.withMem m).mem.findSpace addressSpace cmdBuffer = some (some (cmdBuffer + name.length)) from
      findSpace_some hstr hname (by omega), Option.bind_some]
    dsimp only
    rw [wrap_eq (by omega)]
    rfl

theorem Enters.cut {cmdBuffer : Nat} {text : List UInt8} (hg : s.mount.Good L R v) (hbuf : CmdBuffer L R cmdBuffer)
    (hname : 0x20 ∉ name) (h : Enters L R initElf cmdBuffer s (name ++ 0x20 :: text) s') :
    ∃ m, (s.withMem m).mount.Good L R v ∧ IsStr m cmdBuffer name ∧
      (s.withMem m).mount.Passes L (cmdBuffer + name.length + 1) text ∧
      (s.withMem m).perform L R initElf cmdBuffer (cmdBuffer + name.length + 1) = some s' := by
  obtain ⟨m, hm, hstr, hlen, h⟩ := h
  obtain ⟨m', hg', hcmd, hargs, hcut⟩ := handleCommand_cut initElf hg hbuf hname hm hstr hlen
  exact ⟨m', hg', hcmd, hargs, hcut.symm.trans h⟩

/-- What a line does. -/
theorem Enters.next {cmdBuffer : Nat} (hg : s.mount.Good L R v) (hbuf : CmdBuffer L R cmdBuffer)
    (hk : v.dirs[k]? = some d)
    (hcur : d.addr = s.currentDir) (hrun : nameOf line ≠ ascii "run")
    (hpath : nameOf line = ascii "ls" ∨ nameOf line = ascii "pwd" →
      R.slash < L.freeList ∧ v.Parented s.systemRoot ∧ v.Near s.systemRoot d)
    (h : Enters L R initElf cmdBuffer s line s') : Next L R s.systemRoot s.currentDir v k d (nameOf line)
      (argsOf line) s' := by
  by_cases hspace : 0x20 ∈ line
  · obtain ⟨args, hargs, hcut, hname⟩ := cut_line hspace
    rw [hcut] at h
    obtain ⟨m, hg₁, hcmd, hpasses, h⟩ := h.cut hg hbuf hname
    exact perform_next (s := s.withMem m) hg₁ hk hcur hcmd (Or.inr ⟨args, hargs, hpasses⟩) hrun hpath h
  · obtain ⟨m, hm, hstr, hlen, h⟩ := h
    have hall : nameOf line = line := List.takeWhile_eq_self_iff.mpr fun x hx => decide_eq_true fun he =>
      hspace (he ▸ hx)
    have hroom := hstr.room
    unfold handleCommand at h
    rw [show (s.withMem m).mem.findSpace addressSpace cmdBuffer = some none from findSpace_none hstr hspace (by omega),
      Option.bind_some] at h
    exact perform_next (s := s.withMem m) (good_buffer hg hbuf hm) hk hcur (hall.symm ▸ hstr) (Or.inl rfl) hrun hpath h

end Shell
end ShompOS
