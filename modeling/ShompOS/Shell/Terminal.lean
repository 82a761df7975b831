import ShompOS.Shell.Effects
import ShompOS.Shell.Keyboard

/-! What reaches the terminal.

`terminal_writestring` is told nothing about lengths: it sends what is there up to
the next 0. So does `ramfs_cat` with contents that no 0 ends, and `ramfs_write` with
a buffer, whatever its count, and the keyboard handler with a single `char` on its
stack. -/
namespace ShompOS
open Memory

namespace Memory
variable {m : Memory} {a len n fuel : Nat}

/-- The length is how far the first 0 is. -/
theorem strlenFrom_eq_some_iff (ha : a < addressSpace) {r : Nat} : m.strlenFrom fuel a len = some r ↔
    ∃ n, r = len + n ∧ n < fuel ∧ m.byte (wrap (a + n)) = 0 ∧ ∀ i, i < n → m.byte (wrap (a + i)) ≠ 0 := by
  induction fuel generalizing a len with
  | zero => exact ⟨fun h => (nomatch h), fun ⟨n, _, h, _⟩ => absurd h (Nat.not_lt_zero n)⟩
  | succ fuel ih =>
    have ha' : wrap (a + 0) = a := wrap_eq ha
    unfold strlenFrom
    by_cases hz : m.byte a = 0
    · rw [if_pos hz, Option.some.injEq]
      constructor
      · intro h
        exact ⟨0, h.symm, Nat.succ_pos fuel, ha'.symm ▸ hz, fun i hi => absurd hi (Nat.not_lt_zero i)⟩
      · rintro ⟨n, rfl, -, -, hbefore⟩
        cases n with
        | zero => rfl
        | succ n => exact absurd (ha'.symm ▸ hz) (hbefore 0 (Nat.succ_pos n))
    · have hnext : wrap (a + 1) < addressSpace := Nat.mod_lt _ (by decide)
      rw [if_neg hz, ih hnext]
      constructor
      · rintro ⟨n, rfl, hn, hstop, hbefore⟩
        rw [wrap_wrap_add] at hstop
        refine ⟨n + 1, by omega, Nat.succ_lt_succ hn, hstop, fun i hi => ?_⟩
        cases i with
        | zero => exact ha'.symm ▸ hz
        | succ i =>
          have hi' := hbefore i (Nat.lt_of_succ_lt_succ hi)
          rwa [wrap_wrap_add] at hi'
      · rintro ⟨n, rfl, hn, hstop, hbefore⟩
        cases n with
        | zero => exact absurd (ha' ▸ hstop) hz
        | succ n =>
          refine ⟨n, by omega, Nat.lt_of_succ_lt_succ hn, ?_, fun i hi => ?_⟩
          · rw [wrap_wrap_add]
            exact hstop
          · rw [wrap_wrap_add]
            exact hbefore (i + 1) (Nat.succ_lt_succ hi)

theorem strlen_eq_some_iff (ha : a < addressSpace) : m.strlen a = some n ↔
    n < addressSpace ∧ m.byte (wrap (a + n)) = 0 ∧ ∀ i, i < n → m.byte (wrap (a + i)) ≠ 0 := by
  unfold strlen
  rw [strlenFrom_eq_some_iff ha]
  constructor
  · rintro ⟨k, rfl, h⟩
    rw [Nat.zero_add]
    exact h
  · intro h
    exact ⟨n, (Nat.zero_add n).symm, h⟩

/-- What `terminal_writestring` reads: everything up to the 0, and the 0. -/
def writestringReads (m : Memory) (data : Nat) : Option (List Nat) :=
  (m.strlen data).map fun len => (List.range (len + 1)).map fun i => wrap (data + i)

end Memory

namespace Ramfs
variable {L : Layout} {s s' : Ramfs} {dir filename file buf count : Nat} {fd r : Int}

/-- The string that `ramfs_cat` prints before the newline is read here. -/
def catReads (s : Ramfs) (dir filename : Nat) : Option (List Nat) :=
  if dir = 0 ∨ filename = 0 then some []
  else (s.heap.mem.skipSpaces addressSpace filename).bind fun filename =>
    (Heap.searchName s.heap.mem (s.heap.word dir RamfsDir.files) filename (s.heap.word dir RamfsDir.fileCount) 0).bind
      fun found => s.heap.mem.writestringReads (match found with
        | some i => s.heap.word (s.heap.word (s.heap.word dir RamfsDir.files) i) RamfsFile.data
        | none => filename)

/-- `ramfs_cat` sends a file's bytes and a newline, and what it reads to do so is in the file. -/
def CatPrints (s : Ramfs) (dir filename file : Nat) : Prop :=
  ∃ s' reads, s.ramfsCat dir filename = some s' ∧ s.catReads dir filename = some reads ∧
    s'.terminal = s.terminal ++ s.heap.mem.bytesAt (s.heap.word file RamfsFile.data)
      (s.heap.word file RamfsFile.size) ++ ascii "\n" ∧
    ∀ x ∈ reads, s.heap.word file RamfsFile.data ≤ x ∧
      x < s.heap.word file RamfsFile.data + s.heap.word file RamfsFile.size

theorem report_eq_some {text : String} {name : Nat} (h : s.report text name = some s') :
    ∃ len, s.heap.mem.strlen name = some len ∧
      s'.terminal = s.terminal ++ ascii text ++
        ((List.range len).map fun i => s.heap.mem.byte (wrap (name + i))) ++ ascii "\n" := by
  obtain ⟨s₁, hs₁, rfl⟩ := Option.map_eq_some_iff.mp h
  obtain ⟨len, hlen, rfl⟩ := Option.map_eq_some_iff.mp hs₁
  exact ⟨len, hlen, rfl⟩

end Ramfs

/-! ### ramfs_cat -/

namespace Mount
variable {L : Layout} {R : Rodata} {s : Mount} {v : Volume} {dir filename i : Nat} {text : List UInt8}

/-- `ramfs_cat` never prints just a file: it reads on behind its last byte, or stops before. -/
theorem Good.not_catPrints (hg : s.Good L R v) (hdir : s.heap.InTree s.root dir)
    (hi : i < s.heap.word dir RamfsDir.fileCount)
    (hname : s.Passes L filename text) : ¬ s.ramfs.CatPrints dir filename (s.heap.fileAt dir i) := by
  rintro ⟨s', reads, hcat, hreads, hterm, hin⟩
  obtain ⟨d, hd, rfl⟩ := (hg.owns.inTree_iff hg.tree).mp hdir
  rw [hg.fileCount hd] at hi
  have hget := List.getElem?_eq_getElem hi
  have hf := List.getElem_mem hi
  generalize d.fileNodes[i] = f at hget hf
  have hat := hg.file hd hf
  have hcell : ∀ {g : FileNode}, g ∈ d.fileNodes → (g.data, Contents.bytes g.contents) ∈ v.cells ++
    heldCells s.held s.mem :=
    fun hg => List.mem_append_left _ (DirNode.mem_cells hd (FileNode.mem_cells hg (List.mem_of_getElem? (i := 2) rfl)))
  have hb := (hg.owns.bounds (hcell hf)).2.1
  have hpM := two_pow_pos' maxBlockScale
  rw [Contents.size_bytes] at hb
  rw [hg.fileAt hd hget, hat.data, hat.size] at hterm hin
  unfold Ramfs.ramfsCat at hcat
  unfold Ramfs.catReads at hreads
  by_cases hnull : d.addr = 0 ∨ filename = 0
  · rw [if_pos hnull] at hcat
    cases hcat
    have hlen := congrArg List.length hterm
    simp only [List.length_append] at hlen
    have hnl : (ascii "\n").length = 1 := rfl
    omega
  rw [if_neg hnull] at hcat hreads
  have hroom := hname.1.room
  obtain ⟨k, hk, hskip, -⟩ := skipSpaces_eq hname.1 (show text.length < addressSpace by omega)
  have hname' := hname.drop hk
  rw [hskip, Option.bind_some, hg.owns.searchFile (fun c hc => List.mem_append_left _ (DirNode.mem_cells hd hc))
    (hg.valid d hd)
    hname'.1, Option.bind_some] at hcat hreads
  cases hidx : d.fileIdx (text.drop k) with
  | some j =>
    rw [hidx] at hcat hreads
    obtain ⟨hj, -⟩ := List.findIdx?_eq_some_iff_getElem.mp hidx
    have hgetj := List.getElem?_eq_getElem hj
    have hfj := List.getElem_mem hj
    generalize d.fileNodes[j] = g at hgetj hfj
    have hfound : s.heap.word (s.heap.word (s.heap.word d.addr RamfsDir.files) j) RamfsFile.data = g.data := by
      rw [show s.heap.word (s.heap.word d.addr RamfsDir.files) j = g.addr from hg.fileAt hd hgetj]
      exact (hg.file hd hfj).data
    have hbg := (hg.owns.bounds (hcell hfj)).2.1
    rw [Contents.size_bytes] at hbg
    dsimp only at hcat hreads
    rw [hfound] at hcat hreads
    obtain ⟨len, hlen, hsent⟩ := Ramfs.report_eq_some hcat
    unfold writestringReads at hreads
    rw [hlen] at hreads
    cases hreads
    -- as many bytes are sent as the file has
    have hsame : len = f.contents.length := by
      have h := congrArg List.length (hsent.symm.trans hterm)
      simp only [List.length_append, List.length_map, List.length_range, length_bytesAt] at h
      have hnone : (ascii "").length = 0 := rfl
      omega
    by_cases hdata : g.data = f.data
    · have hlast := (hin (wrap (g.data + len))
        (List.mem_map.mpr ⟨len, List.mem_range.mpr (Nat.lt_succ_self len), rfl⟩)).2
      rw [wrap_eq (by omega)] at hlast
      omega
    · have hfirst := hin (wrap (g.data + 0)) (List.mem_map.mpr ⟨0, List.mem_range.mpr (Nat.succ_pos len), rfl⟩)
      rw [wrap_eq (by omega)] at hfirst
      have hsep := hg.owns.apart (hcell hfj) (hcell hf) hdata
      rw [Contents.size_bytes, Contents.size_bytes] at hsep
      omega
  | none =>
    rw [hidx] at hcat hreads
    dsimp only at hcat hreads
    obtain ⟨len, hlen, -⟩ := Ramfs.report_eq_some hcat
    unfold writestringReads at hreads
    rw [hlen] at hreads
    cases hreads
    -- the name is not in the file
    have hfirst := hin (wrap (filename + k + 0)) (List.mem_map.mpr ⟨0, List.mem_range.mpr (Nat.succ_pos len), rfl⟩)
    rw [wrap_eq (by omega)] at hfirst
    have hfresh : ∀ c ∈ heldCells s.held s.mem, c.1 ≠ f.data := by
      have hnodup := hg.owns.nodup
      rw [List.map_append] at hnodup
      intro c hc he
      exact (List.nodup_append.mp hnodup).2.2 f.data (List.mem_map.mpr ⟨_, DirNode.mem_cells hd (FileNode.mem_cells hf
        (List.mem_of_getElem? (i := 2) rfl)), rfl⟩) c.1 (List.mem_map_of_mem hc) he.symm
    have hout := hg.owns.lent_outside (List.subset_append_right _ _) (callers_iff_lent.mp (hname.2 k hk))
      (hcell hf) hfresh
    rw [Contents.size_bytes] at hout
    omega

theorem run_not_catPrints {tr : List (Mount × (FsCall × Int))} (hrun : Run (Fresh L R) (Step L R) tr s)
    (hcare : ∀ x ∈ tr, Careful x)
    (hdir : s.heap.InTree s.root dir) (hi : i < s.heap.word dir RamfsDir.fileCount) (hname : s.Passes L filename text) :
    ¬ s.ramfs.CatPrints dir filename (s.heap.fileAt dir i) := by
  obtain ⟨v, hg⟩ := (good_of_run hrun hcare).1
  exact hg.not_catPrints hdir hi hname

theorem run_not_catPrints_first : ∃ tr s text, Run (Fresh .kernelImage bootRodata) (Step .kernelImage bootRodata) tr s ∧
    0 < s.heap.word s.root RamfsDir.fileCount ∧ s.Passes .kernelImage 0x1050 text ∧
    ¬ s.ramfs.CatPrints s.root 0x1050 (s.heap.fileAt s.root 0) := by
  have hdec : rehearses (fun root => [.createFile root 0x1050 0x1060 1]) fun tr s =>
      (∀ x ∈ tr, x.1.KeepsOpen x.2.1 ∧ x.1.Bounded x.2.1) ∧ 0 < s.heap.word s.root RamfsDir.fileCount ∧
      (staticText .kernelImage s.mem 64 0x1050).isSome := by decide +kernel
  obtain ⟨tr, s, hrun, hdec⟩ := run_rehearses hdec
  obtain ⟨hkeeps, hcount, htext⟩ := of_decide_eq_true hdec
  obtain ⟨text, hpasses⟩ := passes_of_static htext
  exact ⟨tr, s, text, hrun, hcount, hpasses,
    run_not_catPrints hrun (careful_of_keeps hrun hkeeps) .root hcount hpasses⟩

/-- The byte behind a file of one byte is read. -/
theorem cat_reads_on : ¬ ∀ tr s filename text i,
    Run (Fresh .kernelImage bootRodata) (Step .kernelImage bootRodata) tr s →
    (∀ x ∈ tr, Careful x) → i < s.heap.word s.root RamfsDir.fileCount → s.Passes .kernelImage filename text →
    Heap.searchName s.mem (s.heap.word s.root RamfsDir.files) filename (s.heap.word s.root RamfsDir.fileCount) 0 =
      some (some i) →
    s.ramfs.CatPrints s.root filename (s.heap.fileAt s.root i) := by
  have hdec : rehearses (fun root => [.createFile root 0x1050 0x1060 1]) fun tr s =>
      (∀ x ∈ tr, x.1.KeepsOpen x.2.1 ∧ x.1.Bounded x.2.1) ∧ 0 < s.heap.word s.root RamfsDir.fileCount ∧
      (staticText .kernelImage s.mem 64 0x1050).isSome ∧
      Heap.searchName s.mem (s.heap.word s.root RamfsDir.files) 0x1050 (s.heap.word s.root RamfsDir.fileCount) 0 =
        some (some 0) ∧
      (s.ramfs.catReads s.root 0x1050).any fun reads => ∃ x ∈ reads,
        s.heap.word (s.heap.fileAt s.root 0) RamfsFile.data + s.heap.word
          (s.heap.fileAt s.root 0) RamfsFile.size ≤ x := by
    decide +kernel
  obtain ⟨tr, s, hrun, hdec⟩ := run_rehearses hdec
  obtain ⟨hkeeps, hcount, htext, hfound, hreads⟩ := of_decide_eq_true hdec
  obtain ⟨text, hpasses⟩ := passes_of_static htext
  obtain ⟨reads, hreads, hout⟩ := (Option.any_eq_true _ _).mp hreads
  obtain ⟨x, hx, hout⟩ := of_decide_eq_true hout
  intro h
  obtain ⟨s', reads', -, hreads', -, hin⟩ :=
    h tr s 0x1050 text 0 hrun (careful_of_keeps hrun hkeeps) hcount hpasses hfound
  rw [show s.ramfs.catReads s.root 0x1050 = some reads from hreads] at hreads'
  cases hreads'
  exact absurd (hin x hx).2 (Nat.not_lt.mpr hout)

end Mount

/-! ### ramfs_write -/

/-- Bytes with a 0 behind them and none among them. -/
def Memory.Ends (m : Memory) (buf count : Nat) : Prop :=
  m.byte (wrap (buf + count)) = 0 ∧ ∀ i, i < count → m.byte (wrap (buf + i)) ≠ 0

namespace Ramfs
variable {L : Layout} {s s' : Ramfs} {buf count entry : Nat} {fd r : Int}

/-- Just the first `count` bytes are sent, and that many are reported. -/
def WritesExactly (L : Layout) (s : Ramfs) (fd : Int) (buf count : Nat) : Prop :=
  ∃ s', s.ramfsWrite L fd buf count = some (s', (count : Int)) ∧
    s'.terminal = s.terminal ++ (List.range count).map fun i => s.heap.mem.byte (wrap (buf + i))

/-- What the keyboard handler does with a `char` on its stack that it has put into the line. -/
def echoKey (L : Layout) (s : Ramfs) (c : Nat) : Option Ramfs :=
  (s.ramfsWrite L stdinFileno c 1).bind fun (s, _) => (s.ramfsWrite L stdoutFileno c 1).map Prod.fst

/-- That character and no other is sent. -/
def EchoesExactly (L : Layout) (s : Ramfs) (c : Nat) : Prop :=
  ∃ s', s.echoKey L c = some s' ∧ s'.terminal = s.terminal ++ [s.heap.mem.byte c]

theorem writestring_terminal_iff (hbuf : buf < addressSpace) (hcount : count < addressSpace) :
    (∃ s', s.terminalWritestring buf = some s' ∧
      s'.terminal = s.terminal ++ (List.range count).map fun i => s.heap.mem.byte (wrap (buf + i))) ↔
      s.heap.mem.Ends buf count := by
  constructor
  · rintro ⟨s', hs', hterm⟩
    obtain ⟨len, hlen, rfl⟩ := Option.map_eq_some_iff.mp hs'
    have hsame := congrArg List.length (List.append_cancel_left hterm)
    rw [List.length_map, List.length_map, List.length_range, List.length_range] at hsame
    rw [hsame] at hlen
    exact ((strlen_eq_some_iff hbuf).mp hlen).2
  · intro h
    have hsent : s.terminalWritestring buf = some {s with
        terminal := s.terminal ++ (List.range count).map fun i => s.heap.mem.byte (wrap (buf + i))} := by
      unfold terminalWritestring
      rw [(strlen_eq_some_iff hbuf).mpr ⟨hcount, h⟩]
      rfl
    exact ⟨_, hsent, rfl⟩

theorem toSigned_eq_iff (h : count < addressSpace) : toSigned count = count ↔ count < 2 ^ 31 := by
  have hA : addressSpace = 2 ^ 32 := rfl
  unfold toSigned
  split <;> omega

theorem writesExactly_iff_ends (hfd : fd = stdoutFileno ∨ fd = stderrFileno) (hopen : s.fdEntry fd = some entry)
    (hbuf : buf < addressSpace) (hcount : count < addressSpace) :
    s.WritesExactly L fd buf count ↔ count < 2 ^ 31 ∧ s.heap.mem.Ends buf count := by
  unfold WritesExactly
  rw [ramfsWrite_console hfd hopen, ← toSigned_eq_iff hcount, ← writestring_terminal_iff hbuf hcount]
  constructor
  · rintro ⟨s', h, hterm⟩
    obtain ⟨s₁, hs₁, he⟩ := Option.map_eq_some_iff.mp h
    obtain ⟨rfl, hret⟩ := Prod.mk.inj he
    exact ⟨hret, s₁, hs₁, hterm⟩
  · rintro ⟨hret, s', hs', hterm⟩
    exact ⟨s', by rw [hs', Option.map_some, hret], hterm⟩

/-- To other descriptors nothing is sent to the terminal. -/
theorem ramfsWrite_silent (hfd : ¬ (fd = stdoutFileno ∨ fd = stderrFileno))
    (h : s.ramfsWrite L fd buf count = some (s', r)) :
    s'.terminal = s.terminal ∧ s'.fdTable = s.fdTable := by
  unfold ramfsWrite at h
  cases hentry : s.fdEntry fd with
  | none =>
    rw [hentry] at h
    cases h
    exact ⟨rfl, rfl⟩
  | some entry =>
    rw [hentry] at h
    dsimp only at h
    rw [if_neg hfd] at h
    by_cases hmode : s.heap.word entry RamfsFd.flags &&& (oWronly ||| oRdwr) = 0
    · rw [if_pos hmode] at h
      cases h
      exact ⟨rfl, rfl⟩
    rw [if_neg hmode] at h
    by_cases hfile : s.heap.word entry RamfsFd.file = 0
    · rw [if_pos hfile] at h
      cases h
      exact ⟨rfl, rfl⟩
    rw [if_neg hfile] at h
    obtain ⟨⟨h₁, ok⟩, -, he⟩ := Option.map_eq_some_iff.mp h
    cases ok <;>
    · cases he
      exact ⟨rfl, rfl⟩

end Ramfs

namespace Mount
variable {L : Layout} {R : Rodata} {s : Mount} {v : Volume} {c buf count entry : Nat} {fd : Int}

theorem Good.write_calm (hg : s.Good L R v) (hbuf : s.Buffer L buf count) (hl : s.Lively (.write fd buf count))
    (hb : s.Bounded (.write fd buf count)) (hterm : ¬ (fd = stdoutFileno ∨ fd = stderrFileno)) :
    ∃ s' r, s.call L R (.write fd buf count) = some (s', r) ∧ Calm L s s' := by
  cases hentry : s.ramfs.fdEntry fd with
  | none => exact ⟨s, -1, call_closed rfl hentry, .refl s⟩
  | some entry =>
    have hthrough : s.through (.write fd buf count) = some entry := through_write_iff.mpr ⟨hterm, hentry⟩
    obtain ⟨k, j, i, d, f, e, ho, rfl⟩ := hg.opens hentry (hl entry hthrough)
    by_cases hmode : e.flags &&& (oWronly ||| oRdwr) = 0
    · exact ⟨s, -1, hg.write_refused ho hterm hmode buf count, .refl s⟩
    · obtain ⟨s₁, gap, -, h1, -, h3⟩ := hg.write ho hterm hmode hbuf.lent (hg.room ho hb hthrough hmode)
      rw [length_bytesAt] at h1
      exact ⟨s₁, _, h1, h3⟩

/-- A key that stands for a character is echoed as that if the standard output is open and
a 0 happens to lie behind the character. -/
theorem Good.echoesExactly_iff (hg : s.Good L R v) (hkey : s.mem.byte c ≠ 0) (hstack : s.Buffer L c 2)
    (hl : s.Lively (.write stdinFileno c 1)) (hb : s.Bounded (.write stdinFileno c 1)) :
    s.ramfs.EchoesExactly L c ↔ (s.ramfs.fdEntry stdoutFileno).isSome ∧ s.mem.byte (c + 1) = 0 := by
  have hA : c + 2 < addressSpace := hstack.2
  obtain ⟨s₁, r, hcall, hcalm⟩ := hg.write_calm ⟨fun i hi => hstack.1 i (by omega), by omega⟩ hl hb (by decide)
  obtain ⟨⟨r₁, ret⟩, hwrite, he⟩ := Option.map_eq_some_iff.mp hcall
  cases he
  obtain ⟨hterm, htable⟩ := Ramfs.ramfsWrite_silent (by decide) hwrite
  have hopen : r₁.fdEntry stdoutFileno = s.ramfs.fdEntry stdoutFileno := by
    unfold Ramfs.fdEntry
    rw [htable]
  unfold Ramfs.EchoesExactly Ramfs.echoKey
  rw [hwrite, Option.bind_some]
  cases hentry : s.ramfs.fdEntry stdoutFileno with
  | none =>
    rw [hentry] at hopen
    refine ⟨fun h => ?_, fun h => absurd h.1 Bool.false_ne_true⟩
    obtain ⟨s', hs', hsent⟩ := h
    dsimp only at hs'
    rw [Ramfs.ramfsWrite_closed hopen] at hs'
    cases hs'
    have hlen := congrArg List.length (hterm.symm.trans hsent)
    rw [List.length_append] at hlen
    exact absurd hlen (Nat.ne_of_lt (Nat.lt_succ_self _))
  | some entry =>
    have hbyte : ∀ i, i < 2 → r₁.heap.mem.byte (wrap (c + i)) = s.mem.byte (c + i) := by
      intro i hi
      rw [wrap_eq (by omega)]
      exact hcalm.memory _ (hstack.1 i hi)
    have hone : (List.range 1).map (fun i => r₁.heap.mem.byte (wrap (c + i))) = [s.mem.byte c] :=
      congrArg (fun b => [b]) (hbyte 0 (by omega))
    have hends : r₁.heap.mem.Ends c 1 ↔ s.mem.byte (c + 1) = 0 := by
      unfold Memory.Ends
      rw [hbyte 1 (by omega)]
      refine and_iff_left fun i hi => ?_
      rw [hbyte i (by omega), Nat.lt_one_iff.mp hi]
      exact hkey
    have hfst : (Prod.fst ∘ fun r : Ramfs => (r, toSigned 1)) = id := rfl
    dsimp only
    rw [and_iff_right (Option.isSome_some (a := entry)), ← hends, ← Ramfs.writestring_terminal_iff (s := r₁)
      (by omega) (by decide),
      hone, hterm, Ramfs.ramfsWrite_console (Or.inl rfl) (hopen.trans hentry), Option.map_map, hfst, Option.map_id]
    rfl

end Mount

/-! ### The keyboard handler -/

namespace Shell
variable {σ : Type} {K : Console σ} {e : Editor σ} {i : Interrupt} {r : Handled σ} {keycode : UInt8}

theorem character_appends (h : (e.character K keycode).cmdPos = e.cmdPos + 1) :
    (signed (mapped e.keys keycode) ≥ 32 ∧ signed (mapped e.keys keycode) ≤ 126) ∧
      (e.character K keycode).cmdBuffer e.cmdPos = mapped e.keys keycode ∧
      (e.character K keycode).console = K.echo e.console (mapped e.keys keycode) := by
  unfold Editor.character at *
  by_cases hroom : e.cmdPos < cmdMaxLen - 1
  · by_cases hprints : signed (mapped e.keys keycode) ≥ 32 ∧ signed (mapped e.keys keycode) ≤ 126
    · simp only [if_pos hroom, if_pos hprints]
      exact ⟨hprints, Function.update_self .., rfl⟩
    · simp only [if_pos hroom, if_neg hprints] at h
      exact absurd h (Nat.ne_of_lt (Nat.lt_succ_self _))
  · simp only [if_neg hroom] at h
    exact absurd h (Nat.ne_of_lt (Nat.lt_succ_self _))

/-- A line gets longer by a character in one way only. -/
theorem interrupt_appends (h : e.interrupt K i = some r) (hpos : r.editor.cmdPos = e.cmdPos + 1) :
    r.editor = e.character K i.keycode := by
  have hsame : e.cmdPos ≠ e.cmdPos + 1 := Nat.ne_of_lt (Nat.lt_succ_self _)
  unfold Editor.interrupt at h
  dsimp only at h
  split at h
  · cases h
    exact absurd hpos hsame
  iterate 4
    split at h
    · cases h
      exact absurd hpos hsame
  split at h
  · cases h
    exact absurd hpos hsame
  split at h
  · obtain ⟨e', -, rfl⟩ := Option.map_eq_some_iff.mp h
    exact absurd hpos (Nat.succ_ne_zero _).symm
  split at h
  · cases h
    unfold Editor.backspace at hpos
    dsimp only at hpos
    split at hpos
    · dsimp only at hpos
      omega
    · exact absurd hpos hsame
  · cases h
    rfl

end Shell

/-- After the handler has put a key into the line, this character has been sent and no other. -/
def EchoesAppended (s : Ramfs) (e : Shell.Editor (Option Ramfs)) (r : Shell.Handled (Option Ramfs)) : Prop :=
  ∃ s', r.editor.console = some s' ∧ s'.terminal = s.terminal ++ [r.editor.cmdBuffer e.cmdPos]

/-- What is written to the console ends with the count, and a key is echoed as one
character, just if memory goes on with a 0. The character of the handler is at `stack`. -/
theorem console_iff (L : Layout) (R : Rodata) :
    (∀ (s : Ramfs) fd entry buf count, fd = stdoutFileno ∨ fd = stderrFileno → s.fdEntry fd = some entry →
      buf < addressSpace → count < addressSpace →
        (s.WritesExactly L fd buf count ↔ count < 2 ^ 31 ∧ s.heap.mem.Ends buf count)) ∧
    (∀ tr (s : Mount) (K : Shell.Console (Option Ramfs)) e i r stack,
      Run (Mount.Fresh L R) (Mount.Step L R) tr s → (∀ x ∈ tr, Mount.Careful x) →
      (∀ console c, K.echo console c = console.bind fun s => s.echoKey L stack) → e.console = some s.ramfs →
      s.mem.byte stack = Shell.mapped e.keys i.keycode → s.Buffer L stack 2 →
      s.Lively (.write stdinFileno stack 1) → s.Bounded (.write stdinFileno stack 1) →
      e.interrupt K i = some r → r.editor.cmdPos = e.cmdPos + 1 →
      (EchoesAppended s.ramfs e r ↔ (s.ramfs.fdEntry stdoutFileno).isSome ∧ s.mem.byte (stack + 1) = 0)) := by
  constructor
  · intro s fd entry buf count hfd hopen hbuf hcount
    exact Ramfs.writesExactly_iff_ends hfd hopen hbuf hcount
  · intro tr s K e i r stack hrun hcare hecho hconsole hchar hstack hl hb hcall hpos
    obtain ⟨v, hg⟩ := (Mount.good_of_run hrun hcare).1
    have hkey := Shell.interrupt_appends hcall hpos
    rw [hkey] at hpos
    obtain ⟨hprints, hput, hsent⟩ := Shell.character_appends hpos
    rw [← hg.echoesExactly_iff (fun hzero => ?_) hstack hl hb]
    · unfold EchoesAppended Ramfs.EchoesExactly
      rw [hkey, hput, hsent, hecho, hconsole, ← hchar]
      rfl
    · rw [← hchar, hzero] at hprints
      exact absurd hprints.1 (by decide)

/-- The keyboard handler with its character at `stack`, and nothing else. -/
def keyEcho (L : Layout) (stack : Nat) : Shell.Console (Option Ramfs) where
  newline := id
  prompt := id
  erase := id
  echo console _ := console.bind fun s => s.echoKey L stack
  currentDir _ := true
  command console _ _ := console

/-- The line is empty. -/
def emptyLine (s : Ramfs) : Shell.Editor (Option Ramfs) := ⟨⟨false, false, false, false⟩, fun _ => 0, 0, [], some s⟩

/-- Two files are open, so the second has the descriptor of the standard output. -/
def twoOpen (root : Nat) : List FsCall :=
  [.createFile root 0x1050 0x1060 1, .createFile root 0x1060 0x1050 1, .openFile root 0x1050 oRdwr,
    .openFile root 0x1060 oRdwr]

theorem console_iff_first : ∃ tr s r, Run (Mount.Fresh .kernelImage Mount.bootRodata)
    (Mount.Step .kernelImage Mount.bootRodata) tr s ∧
    s.ramfs.WritesExactly .kernelImage stdoutFileno 0x1050 1 ∧
    (emptyLine s.ramfs).interrupt (keyEcho .kernelImage 0x1050) ⟨1, 0x1E, 0⟩ = some r ∧
    EchoesAppended s.ramfs (emptyLine s.ramfs) r := by
  have hdec : Mount.rehearses twoOpen fun tr s =>
      (∀ x ∈ tr, x.1.KeepsOpen x.2.1 ∧ x.1.Bounded x.2.1) ∧ s.through (.seek 1 0 0) = some (s.ramfs.fdTable 1) ∧
      s.through (.write stdinFileno 0x1050 1) = some (s.ramfs.fdTable 0) ∧ s.position (s.ramfs.fdTable 0) = 0 ∧
      s.mem.byte 0x1050 = 0x61 ∧ s.mem.byte 0x1051 = 0 := by decide +kernel
  obtain ⟨tr, s, hrun, hdec⟩ := Mount.run_rehearses hdec
  obtain ⟨hkeeps, hopen, hstdin, hposition, ha, hend⟩ := of_decide_eq_true hdec
  obtain ⟨v, hg, hl⟩ := (Mount.fdsLinked_of_run hrun hkeeps).1
  have hstack : s.Buffer .kernelImage 0x1050 2 := by
    refine ⟨fun i hi => Or.inl ?_, by decide⟩
    have hi : i = 0 ∨ i = 1 := by omega
    cases hi with
    | inl hi => rw [hi]; decide
    | inr hi => rw [hi]; decide
  have hends : s.mem.Ends 0x1050 1 := ⟨hend,
    fun i hi => by rw [Nat.lt_one_iff.mp hi]; rw [show wrap (0x1050 + 0) = 0x1050 from rfl, ha]; decide⟩
  refine ⟨tr, s, ⟨Shell.Editor.character (keyEcho .kernelImage 0x1050) (emptyLine s.ramfs) 0x1E, none⟩,
    hrun, ?_, rfl, ?_⟩
  · exact ((console_iff .kernelImage Mount.bootRodata).1 s.ramfs _ _ _ _ (Or.inl rfl) hopen (by decide) (by decide)).mpr
      ⟨by decide, hends⟩
  · apply ((console_iff .kernelImage Mount.bootRodata).2 tr s (keyEcho .kernelImage 0x1050) (emptyLine s.ramfs)
      ⟨1, 0x1E, 0⟩ _ 0x1050 hrun
      (Mount.careful_of_keeps hrun hkeeps) (fun _ _ => rfl) rfl (ha.trans rfl) hstack (hg.lively hl _)
        (fun entry he _ => ?_) rfl rfl).mpr
    · exact ⟨Option.isSome_iff_exists.mpr ⟨_, hopen⟩, hend⟩
    · rw [hstdin] at he
      cases he
      rw [hposition]
      decide

/-- One byte of a longer string. -/
theorem console_sends_on : ¬ ∀ tr (s : Mount) fd entry buf count,
    Run (Mount.Fresh .kernelImage Mount.bootRodata) (Mount.Step .kernelImage Mount.bootRodata) tr s →
    fd = stdoutFileno ∨ fd = stderrFileno → s.ramfs.fdEntry fd = some entry → s.Buffer .kernelImage buf count →
    s.ramfs.WritesExactly .kernelImage fd buf count := by
  have hdec : Mount.rehearses twoOpen fun _ s => s.through (.seek 1 0 0) = some (s.ramfs.fdTable 1) ∧
      (s.ramfs.ramfsWrite .kernelImage stdoutFileno 0x1010 1).any fun r =>
        r.1.terminal.length ≠ s.ramfs.terminal.length + 1 := by decide +kernel
  obtain ⟨tr, s, hrun, hdec⟩ := Mount.run_rehearses hdec
  obtain ⟨hopen, hwrite⟩ := of_decide_eq_true hdec
  obtain ⟨⟨s₁, r⟩, hwrite, hmore⟩ := (Option.any_eq_true _ _).mp hwrite
  have hlen : s₁.terminal.length ≠ s.ramfs.terminal.length + 1 := of_decide_eq_true hmore
  intro h
  have hbuf : s.Buffer .kernelImage 0x1010 1 := by
    refine ⟨fun i hi => Or.inl ?_, by decide⟩
    rw [Nat.lt_one_iff.mp hi]
    decide
  obtain ⟨s', hs', hsent⟩ := h tr s stdoutFileno _ 0x1010 1 hrun (Or.inl rfl) hopen hbuf
  rw [show s.ramfs.ramfsWrite .kernelImage stdoutFileno 0x1010 1 = some (s₁, r) from hwrite] at hs'
  cases hs'
  rw [hsent, List.length_append, List.length_map, List.length_range] at hlen
  exact hlen rfl

end ShompOS
