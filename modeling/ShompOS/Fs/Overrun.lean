import ShompOS.Fs.Failures
import ShompOS.Heap.Routines

/-! Where `ramfs_write` stores.

The new size is computed with 32 bits, and so is too small when the write ends
beyond what 32 bits can count; the copy that follows is not any shorter. -/
namespace ShompOS
open Memory

/-- There is an allocated block at `p`, for `n` bytes or more. -/
def Heap.HasRoom (h : Heap) (p n : Nat) : Prop :=
  ∃ a, p = a + headerSize ∧ h.AllocatedBlock a ∧ n + headerSize ≤ 2 ^ h.mem.scale a

theorem Heap.HasRoom.mono {h : Heap} {p m n : Nat} (hroom : h.HasRoom p n) (hmn : m ≤ n) : h.HasRoom p m := by
  obtain ⟨a, ha, hblock, hn⟩ := hroom
  exact ⟨a, ha, hblock, by omega⟩

namespace Owns
variable {L : Layout} {S : Nat → UInt8} {P : Pool} {h : Heap} {cs G : List Cell} {p : Nat} {o : Contents}

theorem hasRoom (ho : Owns L S P h cs) (hc : (p, o) ∈ cs) : h.HasRoom p o.size := by
  obtain ⟨a, t, hp, hused, hle⟩ := ho.block _ hc
  refine ⟨a, hp, (ho.represents.allocatedBlock_iff a).mpr ⟨t, hused⟩, ?_⟩
  rw [(ho.represents.stands.laid.used hused).2.1]
  exact hle

/-- Bytes copied into a cell from anywhere. -/
theorem memcpyAny (ho : Owns L S P h cs) (k : Nat) {old : List UInt8} (hk : cs[k]? = some (p, .bytes old)) {d n : Nat}
    (hd : d + n ≤ old.length) (src : Nat) :
    ∃ new, new.length = old.length ∧ Owns L S P (h.memcpy (p + d) src n) (cs.set k (p, .bytes new)) := by
  have hup := (ho.bounds (List.mem_of_getElem? hk)).2.1
  have hpM := two_pow_pos' maxBlockScale
  rw [Contents.size_bytes] at hup
  obtain ⟨new, hlen, hat⟩ := Contents.exists_bytes (h.memcpy (p + d) src n).mem p old.length
  refine ⟨new, hlen, ho.update k hk ?_ (fun x hx => ?_) hat⟩
  · rw [Contents.size_bytes, Contents.size_bytes, hlen]
  · rw [Contents.size_bytes] at hx
    exact memcpy_outside _ _ _ (by omega) (by omega)

/-- The new data is stored into the block, if it is long enough. -/
theorem putData {file data fdEntry name position count : Nat} {u₀ u₁ u₃ : Nat} {old : List UInt8}
    (ho : Owns L S P h ((file, .words [name, data, old.length]) :: (data, .bytes old) ::
      (fdEntry, .words [u₀, u₁, position, u₃]) :: G)) (hlen : position + count ≤ old.length) (buf : Nat) :
    (∀ x ∈ memcpyStores count (wrap (h.word file RamfsFile.data + h.word fdEntry RamfsFd.position)),
      data ≤ x ∧ x < data + old.length) ∧
    ∃ new, new.length = old.length ∧ Owns L S P (Ramfs.putData h fdEntry file buf count)
      ((file, .words [name, data, new.length]) :: (data, .bytes new) ::
        (fdEntry, .words [u₀, u₁, position + count, u₃]) :: G) := by
  have hpM := two_pow_pos' maxBlockScale
  have hdata := ho.bounds (List.mem_of_getElem? (i := 1) rfl)
  rw [Contents.size_bytes] at hdata
  unfold Ramfs.putData
  rw [ho.word_eq (List.mem_of_getElem? (i := 0) rfl) (i := RamfsFile.data) rfl,
    ho.word_eq (List.mem_of_getElem? (i := 2) rfl) (i := RamfsFd.position) rfl, wrap_eq (by omega)]
  constructor
  · intro x hx
    obtain ⟨i, hi, rfl⟩ := (mem_memcpyStores (by omega)).mp hx
    rw [wrap_eq (by omega)]
    omega
  · obtain ⟨new, hnew, ho₁⟩ := ho.memcpyAny 1 rfl hlen buf
    refine ⟨new, hnew, ?_⟩
    dsimp only
    rw [ho₁.word_eq (List.mem_of_getElem? (i := 2) rfl) (i := RamfsFd.position) rfl, wrap_eq (by omega), hnew]
    exact ho₁.setWord 2 rfl (i := RamfsFd.position) (v := position + count) (Nat.le_add_left 3 1) (by omega)

end Owns

namespace Ramfs

/-- What the copies of `ramfs_write` store to, and the heap when it comes to the new data. -/
def writeStores (L : Layout) (s : Ramfs) (fd : Int) (count : Nat) : Option (Heap × List Nat) :=
  (s.fdEntry fd).bind fun fdEntry =>
    let file := s.heap.word fdEntry RamfsFd.file
    if s.heap.word fdEntry RamfsFd.flags &&& (oWronly ||| oRdwr) = 0 ∨ file = 0 then some (s.heap, [])
    else
      let h := toStart s.heap fdEntry
      (lengthen L h file (wrap (h.word fdEntry RamfsFd.position + count))).map fun (h, stored, ok) =>
        (h, if ok then stored ++ memcpyStores count
          (wrap (h.word file RamfsFile.data + h.word fdEntry RamfsFd.position)) else stored)

end Ramfs

/-- A copy that ends beyond 32 bits stores to the byte before the block. -/
theorem Memory.before_mem_memcpyStores {data position count : Nat} (hdata : 0 < data) (hspace : data < addressSpace)
    (hposition : position < addressSpace) (hover : addressSpace ≤ position + count) :
    data - 1 ∈ memcpyStores count (wrap (data + position)) := by
  apply (mem_memcpyStores (Nat.mod_lt _ (by decide))).mpr
  refine ⟨addressSpace - 1 - position, by omega, ?_⟩
  unfold wrap
  rw [Nat.mod_add_mod, show data + position + (addressSpace - 1 - position) = data - 1 + addressSpace by omega,
    Nat.add_mod_right, Nat.mod_eq_of_lt (by omega)]

namespace Mount
variable {L : Layout} {R : Rodata} {s : Mount} {v : Volume} {fd : Int} {buf count entry k j : Nat} {i : Fin maxFds}
  {d : DirNode} {f : FileNode} {e : OpenFd}

/-- All that a write through a descriptor copies is stored in the block of the file's
data, the block has room for the file afterwards, and a write that ends beyond what
32 bits can count fails. -/
def StaysInside (L : Layout) (R : Rodata) (s : Mount) (fd : Int) (entry buf count : Nat) : Prop :=
  ∃ s' r h stored, s.call L R (.write fd buf count) = some (s', r) ∧ s.ramfs.writeStores L fd count = some (h, stored) ∧
    (∀ x ∈ stored, h.word (s.fileOf entry) RamfsFile.data ≤ x ∧
      h.HasRoom (h.word (s.fileOf entry) RamfsFile.data) (x - h.word (s.fileOf entry) RamfsFile.data + 1)) ∧
    s'.heap.HasRoom (s'.heap.word (s.fileOf entry) RamfsFile.data) (s'.heap.word (s.fileOf entry) RamfsFile.size) ∧
    (addressSpace ≤ s.position entry + count → r = -1)

/-- The write ends within 32 bits, or it is refused, or there is no memory for the size that is left of it. -/
def EndsInside (L : Layout) (s : Mount) (entry count : Nat) : Prop :=
  s.position entry + count < addressSpace ∨ s.heap.word entry RamfsFd.flags &&& (oWronly ||| oRdwr) = 0 ∨
    (s.heap.word (s.fileOf entry) RamfsFile.size < wrap (s.position entry + count) ∧
      s.heap.served L [wrap (s.position entry + count)] = some [false])

/-- The first cells of an open file, when a write has moved the descriptor. -/
theorem Good.ownsStart (hg : s.Good L R v) (ho : v.Opens fd k j i d f e) :
    Owns L s.mem.byte v.pool (Ramfs.toStart s.heap e.addr) ((f.addr, .words [f.name, f.data, f.contents.length]) ::
      (f.data, .bytes f.contents) :: (e.addr, .words [i, e.file, e.start f, e.flags]) ::
        (f.name, .bytes (f.text ++ [0])) ::
        (v.restOfOpen k j i ++ heldCells s.held s.mem)) :=
  ((hg.ownsOpen ho).toStart ho.same).perm (open_front f {e with position := e.start f} i _)

theorem Good.fileOf_eq (hg : s.Good L R v) (ho : v.Opens fd k j i d f e) : s.fileOf e.addr = f.addr :=
  ((hg.ownsOpen ho).word_eq (List.mem_of_getElem? (i := 3) rfl) (i := RamfsFd.file) rfl).trans ho.same

theorem Good.size_eq (hg : s.Good L R v) (ho : v.Opens fd k j i d f e) :
    s.heap.word f.addr RamfsFile.size = f.contents.length :=
  (hg.ownsOpen ho).word_eq (List.mem_of_getElem? (i := 0) rfl) (i := RamfsFile.size) rfl

theorem Good.served_false (hg : s.Good L R v) (n : Nat) : s.heap.served L [n] = some [false] ↔
    (v.pool.allocate n).2 = 0 := by
  rw [hg.owns.represents.served]
  unfold Pool.served Pool.served
  simp

/-- The two results of `ramfs_write` in terms of its parts. -/
theorem Good.write_eq (hg : s.Good L R v) (ho : v.Opens fd k j i d f e)
    (hterm : ¬ (fd = stdoutFileno ∨ fd = stderrFileno))
    (hmode : e.flags &&& (oWronly ||| oRdwr) ≠ 0) (buf count : Nat) {r : Heap × List Nat × Bool}
    (hr : Ramfs.lengthen L (Ramfs.toStart s.heap e.addr) f.addr (wrap (e.start f + count)) = some r) :
    s.call L R (.write fd buf count) = some (if r.2.2 then
      (s.withHeap (Ramfs.putData r.1 e.addr f.addr buf count), toSigned count)
      else (s.withHeap r.1, -1)) ∧
    s.ramfs.writeStores L fd count = some (r.1, if r.2.2 then
      r.2.1 ++ memcpyStores count (wrap (r.1.word f.addr RamfsFile.data + r.1.word e.addr RamfsFd.position)) else r.2.1) := by
  obtain ⟨h, stored, ok⟩ := r
  have hptr : s.heap.word e.addr RamfsFd.file = f.addr := hg.fileOf_eq ho
  have hf0 := (hg.ownsOpen ho).ne_zero (List.mem_of_getElem? (i := 0) rfl)
  have hflags := hg.flags_eq ho.entry
  have hposition := (hg.ownsStart ho).word_eq (List.mem_of_getElem? (i := 2) rfl) (i := RamfsFd.position) rfl
  constructor
  · dsimp only [call]
    rw [Ramfs.ramfsWrite_eq (hg.fdEntry_eq ho) hterm (hflags.symm ▸ hmode) (hptr.symm ▸ hf0)]
    change (((Ramfs.lengthen L (Ramfs.toStart s.heap e.addr) (s.heap.word e.addr RamfsFd.file)
      (wrap ((Ramfs.toStart s.heap e.addr).word e.addr RamfsFd.position + count))).map _).map _) = _
    rw [hptr, hposition, hr]
    cases ok <;> rfl
  · unfold Ramfs.writeStores
    rw [hg.fdEntry_eq ho, Option.bind_some]
    change (if s.heap.word e.addr RamfsFd.flags &&& _ = 0 ∨ s.heap.word e.addr RamfsFd.file = 0 then _ else
      (Ramfs.lengthen L (Ramfs.toStart s.heap e.addr) (s.heap.word e.addr RamfsFd.file)
        (wrap ((Ramfs.toStart s.heap e.addr).word e.addr RamfsFd.position + count))).map _) = _
    rw [if_neg (by rw [hflags, hptr]; exact not_or.mpr ⟨hmode, hf0⟩), hptr, hposition, hr]
    rfl

/-- There is no memory for `n` bytes, or the file's block has room for them. -/
theorem Good.lengthened (hg : s.Good L R v) (ho : v.Opens fd k j i d f e) {n : Nat} (hn : n < addressSpace) :
    ((f.contents.length < n ∧ (v.pool.allocate n).2 = 0) ∧
      ∃ h, Ramfs.lengthen L (Ramfs.toStart s.heap e.addr) f.addr n = some (h, [], false) ∧
        Owns L s.mem.byte v.pool h ((f.addr, .words [f.name, f.data, f.contents.length]) ::
          (f.data, .bytes f.contents) ::
          (e.addr, .words [i, e.file, e.start f, e.flags]) :: (f.name, .bytes (f.text ++ [0])) ::
            (v.restOfOpen k j i ++ heldCells s.held s.mem))) ∨
    (¬ (f.contents.length < n ∧ (v.pool.allocate n).2 = 0) ∧
      ∃ h stored P data old, Ramfs.lengthen L (Ramfs.toStart s.heap e.addr) f.addr n = some (h, stored, true) ∧
        n ≤ old.length ∧ (∀ x ∈ stored, data ≤ x ∧ x < data + old.length) ∧
        Owns L s.mem.byte P h ((f.addr, .words [f.name, data, old.length]) :: (data, .bytes old) ::
          (e.addr, .words [i, e.file, e.start f, e.flags]) :: (f.name, .bytes (f.text ++ [0])) ::
            (v.restOfOpen k j i ++ heldCells s.held s.mem))) := by
  have ho₀ := hg.ownsStart ho
  by_cases hlong : n > f.contents.length
  · obtain ⟨hfull, hmoved⟩ := ho₀.lengthen hlong hn
    by_cases hzero : (v.pool.allocate n).2 = 0
    · exact Or.inl ⟨⟨hlong, hzero⟩, hfull hzero⟩
    · obtain ⟨h, junk, hjunk, hcall, ho₁⟩ := hmoved hzero
      have hlen : (f.contents ++ junk.drop f.contents.length).length = n := by
        rw [List.length_append, List.length_drop]
        omega
      have hdata := ho₁.bounds (List.mem_of_getElem? (i := 1) rfl)
      have hpM := two_pow_pos' maxBlockScale
      rw [Contents.size_bytes, hlen] at hdata
      refine Or.inr ⟨fun h => hzero h.2, h, _, _, _, _, hcall, Nat.le_of_eq hlen.symm,
        fun x hx => ?_, by rw [hlen]; exact ho₁⟩
      obtain ⟨l, hl, rfl⟩ := (mem_memcpyStores (by omega)).mp hx
      rw [wrap_eq (by omega), hlen]
      omega
  · have hsize := ho₀.word_eq (List.mem_of_getElem? (i := 0) rfl) (i := RamfsFile.size) rfl
    refine Or.inr ⟨fun h => hlong h.1, _, [], v.pool, f.data, f.contents, Ramfs.lengthen_short (hsize.symm ▸ hlong),
      Nat.le_of_not_lt hlong, fun x hx => absurd hx List.not_mem_nil, ho₀⟩

theorem Good.staysInside (hg : s.Good L R v) (ho : v.Opens fd k j i d f e)
    (hterm : ¬ (fd = stdoutFileno ∨ fd = stderrFileno))
    (hend : s.EndsInside L e.addr count) (buf : Nat) : s.StaysInside L R fd e.addr buf count := by
  unfold EndsInside at hend
  unfold StaysInside
  rw [hg.position_eq ho, hg.fileOf_eq ho, hg.size_eq ho, hg.flags_eq ho.entry, hg.served_false] at *
  have hn : wrap (e.start f + count) < addressSpace := Nat.mod_lt _ (by decide)
  by_cases hmode : e.flags &&& (oWronly ||| oRdwr) = 0
  · have ho₀ := hg.ownsOpen ho
    refine ⟨s, -1, s.heap, [], hg.write_refused ho hterm hmode buf count, ?_,
      fun x hx => absurd hx List.not_mem_nil, ?_, fun _ => rfl⟩
    · unfold Ramfs.writeStores
      rw [hg.fdEntry_eq ho, Option.bind_some]
      change (if s.heap.word e.addr RamfsFd.flags &&& _ = 0 ∨ _ then _ else _) = _
      rw [if_pos (Or.inl (by rw [hg.flags_eq ho.entry]; exact hmode))]
    · rw [ho₀.word_eq (List.mem_of_getElem? (i := 0) rfl) (i := RamfsFile.data) rfl, hg.size_eq ho]
      exact ho₀.hasRoom (List.mem_of_getElem? (i := 2) rfl)
  cases hg.lengthened ho hn with
  | inl h =>
    obtain ⟨-, h, hcall, ho₁⟩ := h
    obtain ⟨hwrite, hstores⟩ := hg.write_eq ho hterm hmode buf count hcall
    refine ⟨_, _, _, _, hwrite, hstores, fun x hx => absurd hx List.not_mem_nil, ?_, fun _ => rfl⟩
    change h.HasRoom (h.word f.addr RamfsFile.data) (h.word f.addr RamfsFile.size)
    rw [ho₁.word_eq (List.mem_of_getElem? (i := 0) rfl) (i := RamfsFile.data) rfl,
      ho₁.word_eq (List.mem_of_getElem? (i := 0) rfl) (i := RamfsFile.size) rfl]
    exact ho₁.hasRoom (List.mem_of_getElem? (i := 1) rfl)
  | inr h =>
    obtain ⟨hroom, h, stored, P, data, old, hcall, hlen, hstored, ho₁⟩ := h
    obtain ⟨hwrite, hstores⟩ := hg.write_eq ho hterm hmode buf count hcall
    have hfits : e.start f + count < addressSpace := by
      rcases hend with h | h | h
      · exact h
      · exact absurd h hmode
      · exact absurd h hroom
    rw [wrap_eq hfits] at hlen
    obtain ⟨hput, new, hnew, ho₂⟩ := ho₁.putData hlen buf
    have hdata := ho₁.word_eq (List.mem_of_getElem? (i := 0) rfl) (i := RamfsFile.data) rfl
    refine ⟨_, _, _, _, hwrite, hstores, fun x hx => ?_, ?_, fun h => absurd hfits (Nat.not_lt.mpr h)⟩
    · have hx : data ≤ x ∧ x < data + old.length := (List.mem_append.mp hx).elim (hstored x) (hput x)
      dsimp only
      rw [hdata]
      exact ⟨hx.1, (ho₁.hasRoom (List.mem_of_getElem? (i := 1) rfl)).mono (by rw [Contents.size_bytes]; omega)⟩
    · change (Ramfs.putData h e.addr f.addr buf count).HasRoom
        ((Ramfs.putData h e.addr f.addr buf count).word f.addr RamfsFile.data)
        ((Ramfs.putData h e.addr f.addr buf count).word f.addr RamfsFile.size)
      rw [ho₂.word_eq (List.mem_of_getElem? (i := 0) rfl) (i := RamfsFile.data) rfl,
        ho₂.word_eq (List.mem_of_getElem? (i := 0) rfl) (i := RamfsFile.size) rfl]
      exact ho₂.hasRoom (List.mem_of_getElem? (i := 1) rfl)

/-- Otherwise it stores to the header before the block. -/
theorem Good.not_staysInside (hg : s.Good L R v) (ho : v.Opens fd k j i d f e)
    (hterm : ¬ (fd = stdoutFileno ∨ fd = stderrFileno)) (hend : ¬ s.EndsInside L e.addr count) (buf : Nat) :
    ¬ s.StaysInside L R fd e.addr buf count := by
  have hstart : e.start f < addressSpace := by
    rw [← hg.position_eq ho]
    unfold position
    split <;> exact load32_lt ..
  unfold EndsInside at hend
  rw [hg.position_eq ho, hg.fileOf_eq ho, hg.size_eq ho, hg.flags_eq ho.entry, hg.served_false, not_or, not_or] at hend
  obtain ⟨hover, hmode, hroom⟩ := hend
  rintro ⟨s', r, h, stored, -, hstores, hin, -⟩
  have hn : wrap (e.start f + count) < addressSpace := Nat.mod_lt _ (by decide)
  cases hg.lengthened ho hn with
  | inl h => exact hroom h.1
  | inr h =>
    obtain ⟨-, h, copied, P, data, old, hcall, -, -, ho₁⟩ := h
    obtain ⟨-, hlog⟩ := hg.write_eq ho hterm hmode buf count hcall
    rw [hlog] at hstores
    cases hstores
    have hdata := ho₁.bounds (List.mem_of_getElem? (i := 1) rfl)
    have hpM := two_pow_pos' maxBlockScale
    have h9 : headerSize = 9 := rfl
    have hbefore : data - 1 ∈ memcpyStores count (wrap (data + e.start f)) :=
      before_mem_memcpyStores (by omega) (by omega) hstart (Nat.le_of_not_lt hover)
    rw [← ho₁.word_eq (List.mem_of_getElem? (i := 0) rfl) (i := RamfsFile.data) rfl] at hbefore
    have hword := ho₁.word_eq (List.mem_of_getElem? (i := 2) rfl) (i := RamfsFd.position) rfl
    rw [← hword] at hbefore
    have hle := (hin _ (List.mem_append_right _ hbefore)).1
    rw [hg.fileOf_eq ho, ho₁.word_eq (List.mem_of_getElem? (i := 0) rfl) (i := RamfsFile.data) rfl] at hle
    omega

theorem run_staysInside_iff {tr : List (Mount × (FsCall × Int))} (hrun : Run (Fresh L R) (Step L R) tr s)
    (hcare : ∀ x ∈ tr, Careful x) (hterm : ¬ (fd = stdoutFileno ∨ fd = stderrFileno))
    (hentry : s.ramfs.fdEntry fd = some entry)
    (hlinked : s.heap.Linked s.root (s.fileOf entry)) (buf : Nat) :
    s.StaysInside L R fd entry buf count ↔ s.EndsInside L entry count := by
  obtain ⟨v, hg⟩ := (good_of_run hrun hcare).1
  obtain ⟨k, j, i, d, f, e, ho, rfl⟩ := hg.opens hentry hlinked
  constructor
  · intro h
    by_contra hend
    exact hg.not_staysInside ho hterm hend buf h
  · intro hend
    exact hg.staysInside ho hterm hend buf

theorem run_staysInside_past_end : ∃ tr s entry,
    Run (Fresh .kernelImage bootRodata) (Step .kernelImage bootRodata) tr s ∧
    s.ramfs.fdEntry 0 = some entry ∧ s.position entry = 3 ∧ s.StaysInside .kernelImage bootRodata 0 entry 0x1010 4 := by
  have hdec : rehearses (fun root => [.createFile root 0x1050 0x1060 1, .openFile root 0x1050 oRdwr,
    .seek 0 3 seekSet])
      fun tr s => (∀ x ∈ tr, x.1.KeepsOpen x.2.1 ∧ x.1.Bounded x.2.1) ∧
        s.through (.seek 0 0 0) = some (s.ramfs.fdTable 0) ∧ s.position (s.ramfs.fdTable 0) = 3 := by decide +kernel
  obtain ⟨tr, s, hrun, hdec⟩ := run_rehearses hdec
  obtain ⟨hkeeps, hentry, hposition⟩ := of_decide_eq_true hdec
  obtain ⟨v, hg, hl⟩ := (fdsLinked_of_run hrun hkeeps).1
  refine ⟨tr, s, _, hrun, hentry, hposition, ?_⟩
  apply (run_staysInside_iff hrun (careful_of_keeps hrun hkeeps) (by decide) hentry
    (hg.lively hl (.seek 0 0 0) _ hentry) _).mpr
  exact Or.inl (by rw [hposition]; decide)

/-- The last position that `ramfs_seek` can reach, and a count with which the sum is 0. -/
theorem long_write_overruns : ¬ ∀ tr s fd entry buf count,
    Run (Fresh .kernelImage bootRodata) (Step .kernelImage bootRodata) tr s →
    (∀ x ∈ tr, Careful x) → ¬ (fd = stdoutFileno ∨ fd = stderrFileno) → s.ramfs.fdEntry fd = some entry →
    s.heap.Linked s.root (s.fileOf entry) → count < addressSpace →
      s.StaysInside .kernelImage bootRodata fd entry buf count := by
  have hdec : rehearses (fun root => [.createFile root 0x1050 0x1060 1, .openFile root 0x1050 oRdwr,
    .seek 0 0x7FFFFFFF seekSet])
      fun tr s => (∀ x ∈ tr, x.1.KeepsOpen x.2.1 ∧ x.1.Bounded x.2.1) ∧
        s.through (.seek 0 0 0) = some (s.ramfs.fdTable 0) ∧ s.position (s.ramfs.fdTable 0) = 0x7FFFFFFF ∧
        s.heap.word (s.ramfs.fdTable 0) RamfsFd.flags &&& (oWronly ||| oRdwr) ≠ 0 := by decide +kernel
  obtain ⟨tr, s, hrun, hdec⟩ := run_rehearses hdec
  obtain ⟨hkeeps, hentry, hposition, hmode⟩ := of_decide_eq_true hdec
  obtain ⟨v, hg, hl⟩ := (fdsLinked_of_run hrun hkeeps).1
  have hlinked := hg.lively hl (.seek 0 0 0) _ hentry
  obtain ⟨k, j, i, d, f, e, ho, he⟩ := hg.opens hentry hlinked
  intro h
  have hstays := h tr s 0 _ 0x1050 0x80000001 hrun (careful_of_keeps hrun hkeeps) (by decide) hentry hlinked (by decide)
  have hwraps : ¬ s.EndsInside .kernelImage (s.ramfs.fdTable 0) 0x80000001 := by
    unfold EndsInside
    rw [hposition]
    rintro (h | h | ⟨h, -⟩)
    · exact absurd h (by decide)
    · exact hmode h
    · exact absurd h (Nat.not_lt_zero _)
  rw [← he] at hstays hwraps
  exact hg.not_staysInside ho (by decide) hwraps _ hstays

end Mount
end ShompOS
