import ShompOS.Fs.Names
import ShompOS.Fs.Overrun
import ShompOS.Fs.Reads

/-! The same calls on two machines.

The machines differ in what is in free memory, and that is not to show in what is read
from files. It does when a write begins beyond the end of its file: the bytes between
are those of the block that the longer file is put in. -/
namespace ShompOS
open Memory

/-- A byte of a free block after its header, or one above the heap. -/
def Heap.FreeByte (h : Heap) (x : Nat) : Prop :=
  h.currentBrk ≤ x ∨ ∃ blocks a, Blocks h.mem heapLowerBound blocks h.currentBrk ∧ a ∈ blocks ∧ h.mem.isFree a = 1 ∧
    a + headerSize ≤ x ∧ x < a + 2 ^ h.mem.scale a

theorem Represents.freeByte_cases {L : Layout} {P : Pool} {h : Heap} {x : Nat} (hr : Represents L h P)
    (hx : h.FreeByte x) :
    P.brk ≤ x ∨ ∃ a t, a ∈ P.free t ∧ a + headerSize ≤ x ∧ x < a + 2 ^ t := by
  cases hx with
  | inl hx => exact Or.inl (hr.brk ▸ hx)
  | inr hx =>
    obtain ⟨blocks, a, hblocks, ha, hfree, hlo, hhi⟩ := hx
    obtain ⟨bs, hbs, hmem⟩ := hr.blocks
    rw [hblocks.unique hbs] at ha
    cases hr.block_cases ((hmem a).mp ha) with
    | inl h =>
      rw [h.1] at hfree
      cases hfree
    | inr h => exact Or.inr ⟨a, _, h.2, hlo, hhi⟩

namespace Owns
variable {L : Layout} {S : Nat → UInt8} {P : Pool} {h : Heap} {cs : List Cell} {m : Memory} {x : Nat}

/-- Free memory is in the heap or above it, and in no cell. -/
theorem freeByte_outside (ho : Owns L S P h cs) (hx : h.FreeByte x) :
    heapLowerBound ≤ x ∧ ∀ c ∈ cs, x < c.1 ∨ c.1 + c.2.size ≤ x := by
  have hv := ho.represents.stands.valid
  have h9 : headerSize = 9 := rfl
  cases ho.represents.freeByte_cases hx with
  | inl hbrk =>
    refine ⟨hv.tiling.ordered.trans hbrk, fun c hc => ?_⟩
    obtain ⟨a, t, hca, ha, hsize⟩ := ho.block c hc
    have hup := hv.tiling.upper (Or.inl ha)
    omega
  | inr hfree =>
    obtain ⟨b, u, hb, hlo, hhi⟩ := hfree
    have hlow := hv.tiling.lower (Or.inr hb)
    refine ⟨by omega, fun c hc => ?_⟩
    obtain ⟨a, t, hca, ha, hsize⟩ := ho.block c hc
    have hne : a ≠ b := fun he => hv.exclusive ha (he ▸ hb)
    have hsep := hv.tiling.separate (Or.inl ha) (Or.inr hb) hne
    omega

theorem freeByte_avoids (ho : Owns L S P h cs) : Avoids L h.FreeByte P := by
  intro x hx
  have hv := ho.represents.stands.valid
  have h9 : headerSize = 9 := rfl
  refine ⟨Layout.ListByte.not_of_le (ho.freeByte_outside hx).1, fun b u hb => ?_⟩
  have h16 := hv.sixteen_le hb
  cases ho.represents.freeByte_cases hx with
  | inl hbrk =>
    have hup := hv.tiling.upper hb
    omega
  | inr hfree =>
    obtain ⟨a, t, ha, hlo, hhi⟩ := hfree
    by_cases hab : a = b
    · omega
    · have hsep := hv.tiling.separate (Or.inr ha) hb hab
      omega

/-- What is in free memory is nothing to the owner of the cells. -/
theorem setFree (ho : Owns L S P h cs) (hm : ∀ x, ¬ h.FreeByte x → m.byte x = h.mem.byte x) :
    Owns L S P ⟨m, h.currentBrk⟩ cs := by
  refine ⟨⟨ho.represents.stands.congr ho.freeByte_avoids hm, ho.represents.brk⟩, ho.block, ho.used, ho.nodup,
    fun c hc => ?_, fun x hx => ?_⟩
  · have hpM := two_pow_pos' maxBlockScale
    have hup := (ho.bounds hc).2.1
    refine (ho.contents c hc).congr (by omega) fun x h1 h2 => hm x fun hfree => ?_
    have hout := (ho.freeByte_outside hfree).2 c hc
    omega
  · have hlow := hx.1
    rw [hm x fun hfree => Nat.not_le_of_lt hlow (ho.freeByte_outside hfree).1]
    exact ho.static x hx

end Owns

/-- The calls on what is in files. -/
def FsCall.onContents : FsCall → Bool
  | .createFile .. | .openFile .. | .seek .. | .write .. | .read .. | .store .. => true
  | .createDir .. | .deleteFile .. | .rm .. | .findDir .. | .close .. => false

namespace Mount
variable {L : Layout} {R : Rodata} {s s' s₁ t t' t₁ : Mount} {v w : Volume} {c : FsCall} {r r' : Int} {fd : Int}
  {buf count entry a n : Nat} {text : List UInt8}

/-- A buffer does not go past where the heap begins. -/
theorem Good.buffer_size (hg : s.Good L R v) (hb : s.Buffer L buf count) : count + heapLowerBound ≤ addressSpace := by
  have hroom := hb.2
  by_contra hlong
  have hlow : buf < heapLowerBound := by omega
  have hspace : heapLowerBound + heapLowerBound ≤ addressSpace := by decide
  have hin := hb.1 (heapLowerBound - buf) (by omega)
  rw [Nat.add_sub_cancel' (Nat.le_of_lt hlow)] at hin
  cases hin with
  | inl hstatic => exact Nat.lt_irrefl _ hstatic.1
  | inr hin =>
    obtain ⟨p, n, hp, hle, -⟩ := hin
    have hlower := (hg.owns.bounds (List.mem_append_right _ (heldCells_mem hp))).1
    have h9 : headerSize = 9 := rfl
    omega

/-- A read or a write that copies bytes does not begin beyond the end of its file, unless there
is no memory for what it would write; a path is looked up where directories have names. -/
def Within (L : Layout) (s : Mount) : FsCall → Prop
  | .openFile .. => s.heap.Named s.root
  | .read fd buf count => ∀ entry, s.through (.read fd buf count) = some entry →
    count = 0 ∨ (s.heap.word entry RamfsFd.flags &&& oRdonly = 0 ∧ s.heap.word entry RamfsFd.flags &&& oRdwr = 0) ∨
      s.heap.word entry RamfsFd.position ≤ s.heap.word (s.fileOf entry) RamfsFile.size
  | .write fd buf count => ∀ entry, s.through (.write fd buf count) = some entry →
    s.heap.word entry RamfsFd.flags &&& (oWronly ||| oRdwr) = 0 ∨
      s.position entry ≤ s.heap.word (s.fileOf entry) RamfsFile.size ∨
      (s.position entry + count < addressSpace ∧ s.heap.served L [s.position entry + count] = some [false])
  | _ => True

/-! ### Two mounts with one volume -/

structure Alike (L : Layout) (R : Rodata) (v : Volume) (s t : Mount) : Prop where
  good : s.Good L R v
  twin : t.Good L R v
  root : t.root = s.root
  held : t.held = s.held
  memory : ∀ x, Callers L s.held x → t.mem.byte x = s.mem.byte x

namespace Alike

theorem refl (hg : s.Good L R v) : Alike L R v s s := ⟨hg, hg, rfl, rfl, fun _ _ => rfl⟩

theorem passes (ha : Alike L R v s t) (h : s.Passes L a text) : t.Passes L a text := by
  refine ⟨h.1.congr fun x h1 h2 => ?_, fun i hi => ha.held ▸ h.2 i hi⟩
  obtain ⟨i, rfl⟩ := Nat.exists_eq_add_of_le h1
  exact ha.memory _ (h.2 i (by omega))

theorem buffer (ha : Alike L R v s t) (h : s.Buffer L a n) : t.Buffer L a n := ⟨fun i hi => ha.held ▸ h.1 i hi, h.2⟩

theorem lentBytes (ha : Alike L R v s t) (h : s.Buffer L a n) :
    LentBytes L (heldCells t.held t.mem) t.mem a (s.mem.bytesAt a n) := by
  rw [← Memory.bytesAt_congr fun i hi => ha.memory _ (h.1 i hi)]
  exact (ha.buffer h).lent

theorem fdEntry (ha : Alike L R v s t) (fd : Int) : t.ramfs.fdEntry fd = s.ramfs.fdEntry fd := by
  have htable : t.ramfs.fdTable = s.ramfs.fdTable := by
    funext i
    rw [ha.twin.table, ha.good.table]
  unfold Ramfs.fdEntry
  rw [htable]

/-- After calls that leave the callers' memory as it was. -/
theorem calm (ha : Alike L R v s t) (hs : s₁.Good L R w ∧ Calm L s s₁) (ht : t₁.Good L R w ∧ Calm L t t₁) :
    Alike L R w s₁ t₁ := by
  obtain ⟨hs, hcalm⟩ := hs
  obtain ⟨ht, hcalm'⟩ := ht
  refine ⟨hs, ht, ?_, ?_, fun x hx => ?_⟩
  · rw [hcalm'.root, hcalm.root, ha.root]
  · rw [hcalm'.held, hcalm.held, ha.held]
  · rw [hcalm.held] at hx
    rw [hcalm'.memory x (ha.held ▸ hx), hcalm.memory x hx, ha.memory x hx]

/-- Both calls return what they are known to return. -/
theorem did {x : Int} (ha : Alike L R w s₁ t₁) (hs : s.call L R c = some (s₁, x)) (ht : t.call L R c = some (t₁, x))
    (hcall : s.call L R c = some (s', r)) (hcall' : t.call L R c = some (t', r')) : r' = r ∧
      ∃ w, Alike L R w s' t' := by
  rw [hs] at hcall
  rw [ht] at hcall'
  cases hcall
  cases hcall'
  exact ⟨rfl, w, ha⟩

/-! ### One call -/

theorem step_createFile {dir name data size : Nat} (ha : Alike L R v s t)
    (hp : s.Permits L R (.createFile dir name data size))
    (hcall : s.call L R (.createFile dir name data size) = some (s', r))
    (hcall' : t.call L R (.createFile dir name data size) = some (t', r')) : r' = r ∧ ∃ w, Alike L R w s' t' := by
  by_cases hnull : (FsCall.createFile dir name data size).Null
  · exact ha.did (call_null hnull) (call_null hnull) hcall hcall'
  · obtain ⟨hdir, hname, hdata⟩ := hp
    obtain ⟨hdir0, hnull⟩ := not_or.mp hnull
    obtain ⟨hname0, hdata0⟩ := not_or.mp hnull
    obtain ⟨k, d, hk, rfl⟩ := (ha.good.dir hdir).resolve_left hdir0
    obtain ⟨text, hname⟩ := hname.resolve_left hname0
    have hbuf := hdata.resolve_left hdata0
    obtain ⟨s₁, h1, h2⟩ := ha.good.createFile hk hname hname0 hbuf.lent hdata0
    obtain ⟨t₁, h1', h2'⟩ := ha.twin.createFile hk (ha.passes hname) hname0 (ha.lentBytes hbuf) hdata0
    rw [length_bytesAt] at h1 h1'
    exact (ha.calm h2 h2').did h1 h1' hcall hcall'

/-- Where a path leads is up to the names of directories. -/
theorem step_openFile {root path flags : Nat} (ha : Alike L R v s t) (hp : s.Permits L R (.openFile root path flags))
    (hnamed : s.heap.Named s.root) (hcall : s.call L R (.openFile root path flags) = some (s', r))
    (hcall' : t.call L R (.openFile root path flags) = some (t', r')) : r' = r ∧ ∃ w, Alike L R w s' t' := by
  by_cases hnull : (FsCall.openFile root path flags).Null
  · exact ha.did (call_null hnull) (call_null hnull) hcall hcall'
  · obtain ⟨hroot, hpath, hflags⟩ := hp
    obtain ⟨hroot0, hpath0⟩ := not_or.mp hnull
    obtain ⟨k, d, hk, rfl⟩ := (ha.good.dir hroot).resolve_left hroot0
    obtain ⟨text, hpath⟩ := hpath.resolve_left hpath0
    have hd := List.mem_of_getElem? hk
    have hnamed := ha.good.named_iff.mp hnamed
    obtain ⟨s₁, found, h1, h2, h3, -, h4⟩ := ha.good.openFile hd hpath hpath0 hflags
    obtain ⟨t₁, found', h1', h2', h3', -, h4'⟩ := ha.twin.openFile hd (ha.passes hpath) hpath0 hflags
    rw [(h4' hnamed).trans (h4 hnamed).symm] at h1' h2'
    exact (ha.calm ⟨h2, h3⟩ ⟨h2', h3'⟩).did h1 h1' hcall hcall'

theorem step_seek {offset origin : Int} (ha : Alike L R v s t) (hl : s.Lively (.seek fd offset origin))
    (hcall : s.call L R (.seek fd offset origin) = some (s', r))
    (hcall' : t.call L R (.seek fd offset origin) = some (t', r')) :
    r' = r ∧ ∃ w, Alike L R w s' t' := by
  cases hentry : s.ramfs.fdEntry fd with
  | none => exact ha.did (call_closed rfl hentry) (call_closed rfl ((ha.fdEntry fd).trans hentry)) hcall hcall'
  | some entry =>
    obtain ⟨k, j, i, d, f, e, ho, rfl⟩ := ha.good.opens hentry (hl entry hentry)
    obtain ⟨s₁, h1, h2⟩ := ha.good.seek ho offset origin
    obtain ⟨t₁, h1', h2'⟩ := ha.twin.seek ho offset origin
    exact (ha.calm h2 h2').did h1 h1' hcall hcall'

theorem step_read (ha : Alike L R v s t) (hp : s.Permits L R (.read fd buf count)) (hl : s.Lively (.read fd buf count))
    (hin : s.Within L (.read fd buf count)) (hcall : s.call L R (.read fd buf count) = some (s', r))
    (hcall' : t.call L R (.read fd buf count) = some (t', r')) : r' = r ∧ ∃ w, Alike L R w s' t' := by
  cases hentry : s.ramfs.fdEntry fd with
  | none => exact ha.did (call_closed rfl hentry) (call_closed rfl ((ha.fdEntry fd).trans hentry)) hcall hcall'
  | some entry =>
    by_cases hstdin : fd = stdinFileno
    · subst hstdin
      exact ha.did (call_stdin hentry) (call_stdin ((ha.fdEntry stdinFileno).trans hentry)) hcall hcall'
    have hthrough : s.through (.read fd buf count) = some entry := through_read_iff.mpr ⟨hstdin, hentry⟩
    obtain ⟨k, j, i, d, f, e, ho, rfl⟩ := ha.good.opens hentry (hl entry hthrough)
    by_cases hmode : e.flags &&& oRdonly = 0 ∧ e.flags &&& oRdwr = 0
    · exact ha.did (ha.good.read_refused ho hstdin hmode buf count)
        (ha.twin.read_refused ho hstdin hmode buf count) hcall hcall'
    have hin := hin e.addr hthrough
    rw [ha.good.flags_eq ho.entry, ha.good.fileOf_eq ho, ha.good.size_eq ho, (ha.good.fdAt ho.entry).position] at hin
    have hsize := ha.good.size_lt (List.mem_of_getElem? ho.dir) (List.mem_of_getElem? ho.file)
    have hM : 2 ^ maxBlockScale < addressSpace := by decide
    obtain ⟨s₁, h1, h2, h3, h4, h5, h6⟩ := ha.good.read ho hstdin hmode hp.1 hp.2
    obtain ⟨t₁, h1', h2', h3', h4', h5', h6'⟩ := ha.twin.read ho hstdin hmode (ha.buffer hp.1) hp.2
    refine Alike.did ⟨h2, h2', ?_, ?_, fun x hx => ?_⟩ h1 h1' hcall hcall'
    · rw [h3', h3, ha.root]
    · rw [h4', h4, ha.held]
    · rw [h4] at hx
      by_cases hrange : buf ≤ x ∧ x < buf + e.readCount f count
      · -- what has been read is in the file
        obtain ⟨n, rfl⟩ := Nat.exists_eq_add_of_le hrange.1
        have hn : n < e.readCount f count := by omega
        have hle := e.readCount_le f count
        have hpos := (hin.resolve_left (by omega)).resolve_left hmode
        have hend : e.position + e.readCount f count ≤ f.contents.length := by
          rw [readCount_inside (by omega) hpos]
          omega
        exact Option.some.inj ((h6' hend n hn).symm.trans (h6 hend n hn))
      · rw [h5' x (ha.held ▸ hx) hrange, h5 x hx hrange, ha.memory x hx]

theorem step_write (ha : Alike L R v s t) (hp : s.Permits L R (.write fd buf count))
    (hl : s.Lively (.write fd buf count))
    (hin : s.Within L (.write fd buf count)) (hcall : s.call L R (.write fd buf count) = some (s', r))
    (hcall' : t.call L R (.write fd buf count) = some (t', r')) : r' = r ∧ ∃ w, Alike L R w s' t' := by
  cases hentry : s.ramfs.fdEntry fd with
  | none => exact ha.did (call_closed rfl hentry) (call_closed rfl ((ha.fdEntry fd).trans hentry)) hcall hcall'
  | some entry =>
    by_cases hterm : fd = stdoutFileno ∨ fd = stderrFileno
    · obtain ⟨rfl, q, rfl, hheap, htable⟩ := call_terminal hentry hterm hcall
      obtain ⟨rfl, q', rfl, hheap', htable'⟩ := call_terminal ((ha.fdEntry fd).trans hentry) hterm hcall'
      exact ⟨rfl, v, ha.calm (ha.good.congr hheap htable) (ha.twin.congr hheap' htable')⟩
    have hthrough : s.through (.write fd buf count) = some entry := through_write_iff.mpr ⟨hterm, hentry⟩
    obtain ⟨k, j, i, d, f, e, ho, rfl⟩ := ha.good.opens hentry (hl entry hthrough)
    by_cases hmode : e.flags &&& (oWronly ||| oRdwr) = 0
    · exact ha.did (ha.good.write_refused ho hterm hmode buf count)
        (ha.twin.write_refused ho hterm hmode buf count) hcall hcall'
    have hin := hin e.addr hthrough
    rw [ha.good.flags_eq ho.entry, ha.good.fileOf_eq ho, ha.good.size_eq ho, ha.good.position_eq ho,
      ha.good.served_false] at hin
    have hin := hin.resolve_left hmode
    have hsize := ha.good.size_lt (List.mem_of_getElem? ho.dir) (List.mem_of_getElem? ho.file)
    have hcount := ha.good.buffer_size hp
    have hM : 2 ^ maxBlockScale < heapLowerBound := by decide
    have hroom : e.start f + (s.mem.bytesAt buf count).length < addressSpace := by
      rw [length_bytesAt]
      omega
    obtain ⟨s₁, gap, hgap, h1, h2⟩ := ha.good.write ho hterm hmode (Buffer.lent hp) hroom
    obtain ⟨t₁, gap', hgap', h1', h2'⟩ := ha.twin.write ho hterm hmode (ha.lentBytes hp) hroom
    have hsame : f.write v.pool e gap' (s.mem.bytesAt buf count) = f.write v.pool e gap (s.mem.bytesAt buf count) := by
      by_cases hstart : e.start f ≤ f.contents.length
      · rw [Nat.sub_eq_zero_of_le hstart] at hgap hgap'
        rw [List.eq_nil_of_length_eq_zero hgap, List.eq_nil_of_length_eq_zero hgap']
      · -- there is no memory for the bytes between
        have hzero := (hin.resolve_left hstart).2
        have hlong : e.start f + (s.mem.bytesAt buf count).length > f.contents.length := by omega
        rw [← length_bytesAt s.mem buf count] at hzero
        rw [FileNode.write_full hlong hzero, FileNode.write_full hlong hzero]
    rw [hsame] at h1' h2'
    rw [length_bytesAt] at h1 h1'
    exact (ha.calm h2 h2').did h1 h1' hcall hcall'

theorem step_store {x b : Nat} (ha : Alike L R v s t) (hp : s.Permits L R (.store x b))
    (hcall : s.call L R (.store x b) = some (s', r)) (hcall' : t.call L R (.store x b) = some (t', r')) :
    r' = r ∧ ∃ w, Alike L R w s' t' := by
  obtain ⟨s₁, h1, h2, h3, h4, -⟩ := ha.good.store hp.1 hp.2 b
  obtain ⟨t₁, h1', h2', h3', h4', -⟩ := ha.twin.store (ha.held ▸ hp.1) hp.2 b
  refine Alike.did ⟨h2, h2', ?_, ?_, fun y hy => ?_⟩ h1 h1' hcall hcall'
  · rw [h3', h3, ha.root]
  · rw [h4', h4, ha.held]
  · cases h1
    cases h1'
    change (t.mem.store8 x b).byte y = (s.mem.store8 x b).byte y
    rw [byte_store8, byte_store8, ha.memory y hy]

theorem step (ha : Alike L R v s t) (hc : c.onContents) (hp : s.Permits L R c) (hl : s.Lively c) (hin : s.Within L c)
    (hcall : s.call L R c = some (s', r)) (hcall' : t.call L R c = some (t', r')) : r' = r ∧
      ∃ w, Alike L R w s' t' := by
  cases c with
  | createFile dir name data size => exact ha.step_createFile hp hcall hcall'
  | openFile root path flags => exact ha.step_openFile hp hin hcall hcall'
  | seek fd offset origin => exact ha.step_seek hl hcall hcall'
  | read fd buf count => exact ha.step_read hp hl hin hcall hcall'
  | write fd buf count => exact ha.step_write hp hl hin hcall hcall'
  | store x b => exact ha.step_store hp hcall hcall'
  | createDir parent name => cases hc
  | deleteFile dir name => cases hc
  | rm dir filename => cases hc
  | findDir root path => cases hc
  | close fd fdPtr => cases hc

end Alike

/-! ### Runs side by side -/

/-- A machine that a run has reached, and one that differs from it only in what is in free memory. -/
def Twins (L : Layout) (R : Rodata) (x : Mount × Mount) : Prop :=
  (∃ tr, Run (Fresh L R) (Step L R) tr x.1 ∧ ∀ y ∈ tr, Careful y) ∧
    ∃ m, x.2 = x.1.withHeap ⟨m, x.1.heap.currentBrk⟩ ∧ ∀ a, ¬ x.1.heap.FreeByte a → m.byte a = x.1.mem.byte a

/-- The same call on both. -/
def BothStep (L : Layout) (R : Rodata) (x : Mount × Mount) (c : FsCall) (y : Mount × Mount) : Prop :=
  c.onContents ∧ ∃ r r', Step L R x.1 (c, r) y.1 ∧ Step L R x.2 (c, r') y.2

theorem Good.alike {m : Memory} (hg : s.Good L R v) (hm : ∀ a, ¬ s.heap.FreeByte a → m.byte a = s.mem.byte a) :
    Alike L R v s (s.withHeap ⟨m, s.heap.currentBrk⟩) := by
  obtain ⟨h1, h2⟩ := hg.next (w := v) (r := {s.ramfs with heap := ⟨m, s.heap.currentBrk⟩})
    (hg.owns.setFree hm) hg.table hg.valid hg.tree
  exact ⟨hg, h1, h2.root, h2.held, h2.memory⟩

theorem alike_of_run {tr : List ((Mount × Mount) × FsCall)} (hrun : Run (Twins L R) (BothStep L R) tr (s, t))
    (hin : ∀ x ∈ tr, x.1.1.Lively x.2 ∧ x.1.1.Within L x.2) : ∃ v, Alike L R v s t := by
  refine (hrun.invariant_of (I := fun x => ∃ v, Alike L R v x.1 x.2) (C := fun x c => x.1.Lively c ∧ x.1.Within L c)
    (fun x hx => ?_) (fun x c y hx hC hstep => ?_) hin).1
  · obtain ⟨s, t⟩ := x
    obtain ⟨⟨tr, hrun, hcare⟩, m, he, hm⟩ := hx
    dsimp only at he
    subst he
    obtain ⟨v, hg⟩ := (good_of_run hrun hcare).1
    exact ⟨v, hg.alike hm⟩
  · obtain ⟨v, ha⟩ := hx
    obtain ⟨hc, r, r', hstep, hstep'⟩ := hstep
    exact (ha.step hc hstep.1 hC.1 hC.2 hstep.2 hstep'.2).2

theorem run_both {tr : List ((Mount × Mount) × FsCall)} {trs trt : List (Mount × (FsCall × Int))} {cs : List FsCall}
    (hrun : Run (Twins L R) (BothStep L R) tr (s, t)) (hcs : cs.all FsCall.onContents)
    (hs : s.replay L R cs = some (trs, s')) (ht : t.replay L R cs = some (trt, t')) :
    ∃ tr', Run (Twins L R) (BothStep L R) (tr ++ tr') (s', t') ∧ ∀ x ∈ tr', ∃ r, (x.1.1, (x.2, r)) ∈ trs := by
  induction cs generalizing s t tr trs trt with
  | nil =>
    cases hs
    cases ht
    exact ⟨[], by rwa [List.append_nil], fun x hx => absurd hx List.not_mem_nil⟩
  | cons c cs ih =>
    unfold replay Run.replay at hs ht
    split at hs
    · next hallows =>
      split at ht
      · next hallows' =>
        obtain ⟨⟨s₁, r⟩, hcall, hs⟩ := Option.bind_eq_some_iff.mp hs
        obtain ⟨⟨t₁, r'⟩, hcall', ht⟩ := Option.bind_eq_some_iff.mp ht
        obtain ⟨⟨trs', u⟩, hrest, he⟩ := Option.map_eq_some_iff.mp hs
        obtain ⟨⟨trt', u'⟩, hrest', he'⟩ := Option.map_eq_some_iff.mp ht
        cases he
        cases he'
        rw [List.all_cons, Bool.and_eq_true] at hcs
        have hstep : BothStep L R (s, t) c (s₁, t₁) :=
          ⟨hcs.1, r, r', ⟨permits_of_allows hallows, hcall⟩, permits_of_allows hallows', hcall'⟩
        obtain ⟨tr', hrun', hmem⟩ := ih (hrun.next hstep) hcs.2 hrest hrest'
        refine ⟨((s, t), c) :: tr', ?_, fun x hx => ?_⟩
        · rwa [List.append_assoc] at hrun'
        · cases List.mem_cons.mp hx with
          | inl he => exact ⟨r, he ▸ List.mem_cons_self ..⟩
          | inr hx => exact (hmem x hx).imp fun _ => List.mem_cons_of_mem _
      · cases ht
    · cases hs

/-! A booted machine, and one with a byte more in the free block that will hold a file. -/

def otherwiseBooted (s : Mount) : Mount := s.withHeap ⟨s.mem.store8 (heapLowerBound + 171) 7, s.heap.currentBrk⟩

theorem twins_of_booted (h : booted = some s) : Twins .kernelImage bootRodata (s, otherwiseBooted s) := by
  have hblocks : booted.any fun s =>
      Blocks s.mem heapLowerBound ([0, 64, 80, 96, 128, 256, 512, 1024, 2048, 4096, 8192, 16384].map
        (heapLowerBound + ·))
        s.heap.currentBrk ∧ s.mem.isFree (heapLowerBound + 128) = 1 ∧ s.mem.scale (heapLowerBound + 128) =
          7 := by decide +kernel
  rw [h, Option.any_some, decide_eq_true_eq] at hblocks
  obtain ⟨hblocks, hfree, hscale⟩ := hblocks
  refine ⟨⟨[], .start (fresh_of_booted h), fun x hx => absurd hx List.not_mem_nil⟩, _, rfl, fun a ha => ?_⟩
  rw [byte_store8]
  apply if_neg
  rintro rfl
  apply ha
  refine Or.inr ⟨_, heapLowerBound + 128, hblocks, List.mem_map.mpr ⟨128, by decide, rfl⟩, hfree, by decide, ?_⟩
  rw [hscale]
  decide

/-- Without subdirectories there is none without a name. -/
theorem within_of_flat (hflat : s.heap.word s.root RamfsDir.subdirCount = 0)
    (hin : ∀ entry ∈ s.through c, s.heap.word entry RamfsFd.position ≤ s.heap.word (s.fileOf entry) RamfsFile.size ∧
      s.position entry ≤ s.heap.word (s.fileOf entry) RamfsFile.size) : s.Within L c := by
  cases c with
  | openFile =>
    intro dir i hdir hi
    rw [inTree_root hflat hdir, hflat] at hi
    exact absurd hi (Nat.not_lt_zero _)
  | read => exact fun entry hentry => Or.inr (Or.inr (hin entry hentry).1)
  | write => exact fun entry hentry => Or.inr (Or.inl (hin entry hentry).2)
  | createFile | createDir | deleteFile | rm | findDir | seek | close | store => trivial

/-- Bytes of a file are the same on both machines, as long as no read or write begins beyond the
end of its file and directories have names. -/
theorem run_readsAgree {tr : List ((Mount × Mount) × FsCall)} (hrun : Run (Twins L R) (BothStep L R) tr (s, t))
    (hin : ∀ x ∈ tr, x.1.1.Lively x.2 ∧ x.1.1.Within L x.2) (hlively : s.Lively (.read fd buf count))
    (hrange : ∀ entry, s.through (.read fd buf count) = some entry →
      s.heap.word entry RamfsFd.position + count ≤ s.heap.word (s.fileOf entry) RamfsFile.size)
    (hstep : Step L R s (.read fd buf count, r) s') (hstep' : Step L R t (.read fd buf count, r') t') :
    r' = r ∧ ∀ i, i < count → t'.mem.byte (buf + i) = s'.mem.byte (buf + i) := by
  obtain ⟨v, ha⟩ := alike_of_run hrun hin
  have hwithin : s.Within L (.read fd buf count) := fun entry hentry =>
    Or.inr (Or.inr ((Nat.le_add_right _ _).trans (hrange entry hentry)))
  obtain ⟨hr, w, ha'⟩ := ha.step rfl hstep.1 hlively hwithin hstep.2 hstep'.2
  obtain ⟨-, -, -, hheld, -⟩ := ha.good.step hstep.1 hlively trivial hstep.2
  refine ⟨hr, fun i hi => ha'.memory _ ?_⟩
  rw [hheld]
  exact hstep.1.1.1 i hi

theorem run_readsAgree_appended : ∃ tr s t s' t' r,
    Run (Twins .kernelImage bootRodata) (BothStep .kernelImage bootRodata) tr (s, t) ∧
    t.mem.byte (heapLowerBound + 171) ≠ s.mem.byte (heapLowerBound + 171) ∧
    Step .kernelImage bootRodata s (.read 1 0x2000 2, 2) s' ∧ Step .kernelImage bootRodata t (.read 1 0x2000 2, r) t' ∧
    r = 2 ∧ ∀ i, i < 2 → t'.mem.byte (0x2000 + i) = s'.mem.byte (0x2000 + i) := by
  have hrun : booted.any fun s₀ =>
      let cs := [.createFile s₀.root 0x1050 0x1060 1, .openFile s₀.root 0x1050 oRdwr,
        .openFile s₀.root 0x1050 oRdwr, .write 0 0x1010 2]
      s₀.replays cs fun trs s =>
        (otherwiseBooted s₀).replays cs fun _ t =>
          s.answers (.read 1 0x2000 2) fun _ r =>
            t.answers (.read 1 0x2000 2) fun _ _ =>
              cs.all FsCall.onContents ∧ (∀ x ∈ trs, x.1.KeepsOpen x.2.1 ∧ x.1.Bounded x.2.1) ∧
              (∀ x ∈ trs, x.1.heap.word x.1.root RamfsDir.subdirCount = 0 ∧ ∀ entry ∈ x.1.through x.2.1,
                x.1.heap.word entry RamfsFd.position ≤ x.1.heap.word (x.1.fileOf entry) RamfsFile.size ∧
                  x.1.position entry ≤ x.1.heap.word (x.1.fileOf entry) RamfsFile.size) ∧
              t.mem.byte (heapLowerBound + 171) ≠ s.mem.byte (heapLowerBound + 171) ∧
              s.allows .kernelImage bootRodata (.read 1 0x2000 2) ∧
                t.allows .kernelImage bootRodata (.read 1 0x2000 2) ∧ r = 2 ∧
              ∀ entry ∈ s.through (.read 1 0x2000 2),
                s.heap.word entry RamfsFd.position + 2 ≤ s.heap.word
                  (s.fileOf entry) RamfsFile.size := by decide +kernel
  obtain ⟨s₀, hboot, hrun⟩ := (Option.any_eq_true _ _).mp hrun
  obtain ⟨trs, s, hs, hrun⟩ := replay_of_replays hrun
  obtain ⟨trt, t, ht, hrun⟩ := replay_of_replays hrun
  obtain ⟨s', r, hcall, hrun⟩ := call_of_answers hrun
  obtain ⟨t', r', hcall', hrun⟩ := call_of_answers hrun
  obtain ⟨hcs, hkeeps, hwithin, hother, hallows, hallows', rfl, hrange⟩ := of_decide_eq_true hrun
  obtain ⟨tr, hboth, hmem⟩ := run_both (.start (twins_of_booted hboot)) hcs hs ht
  have hsrun := run_replay (.start (fresh_of_booted hboot)) hs
  obtain ⟨v, hg, hl⟩ := (fdsLinked_of_run hsrun hkeeps).1
  have hagree := run_readsAgree hboth (fun x hx => ?_) (hg.lively hl _) hrange ⟨permits_of_allows hallows, hcall⟩
    ⟨permits_of_allows hallows', hcall'⟩
  · exact ⟨_, s, t, s', t', r', hboth, hother, ⟨permits_of_allows hallows, hcall⟩,
      ⟨permits_of_allows hallows', hcall'⟩, hagree⟩
  · obtain ⟨r, hx⟩ := hmem x hx
    exact ⟨(careful_of_keeps hsrun hkeeps _ hx).1, within_of_flat (hwithin _ hx).1 (hwithin _ hx).2⟩

/-- A write three bytes into a file of one leaves two bytes of the new block in between. -/
theorem gap_shows : ¬ ∀ tr s t s' t' fd buf count r r',
    Run (Twins .kernelImage bootRodata) (BothStep .kernelImage bootRodata) tr (s, t) →
    (∀ x ∈ tr, x.1.1.Lively x.2 ∧ x.1.1.Bounded x.2) → s.Lively (.read fd buf count) →
    (∀ entry, s.through (.read fd buf count) = some entry →
      s.heap.word entry RamfsFd.position + count ≤ s.heap.word (s.fileOf entry) RamfsFile.size) →
    Step .kernelImage bootRodata s (.read fd buf count, r) s' →
      Step .kernelImage bootRodata t (.read fd buf count, r') t' →
    ∀ i, i < count → t'.mem.byte (buf + i) = s'.mem.byte (buf + i) := by
  have hrun : booted.any fun s₀ =>
      let cs := [.createFile s₀.root 0x1050 0x1060 1, .openFile s₀.root 0x1050 oRdwr, .openFile s₀.root 0x1050 oRdwr,
        .seek 0 3 seekSet, .write 0 0x1060 1]
      s₀.replays cs fun trs s =>
        (otherwiseBooted s₀).replays cs fun _ t =>
          s.answers (.read 1 0x2000 4) fun s' _ =>
            t.answers (.read 1 0x2000 4) fun t' _ =>
              cs.all FsCall.onContents ∧ (∀ x ∈ trs, x.1.KeepsOpen x.2.1 ∧ x.1.Bounded x.2.1) ∧
              s.allows .kernelImage bootRodata (.read 1 0x2000 4) ∧
                t.allows .kernelImage bootRodata (.read 1 0x2000 4) ∧
              (∀ entry ∈ s.through (.read 1 0x2000 4),
                s.heap.word entry RamfsFd.position + 4 ≤ s.heap.word (s.fileOf entry) RamfsFile.size) ∧
              t'.mem.byte 0x2002 ≠ s'.mem.byte 0x2002 := by decide +kernel
  obtain ⟨s₀, hboot, hrun⟩ := (Option.any_eq_true _ _).mp hrun
  obtain ⟨trs, s, hs, hrun⟩ := replay_of_replays hrun
  obtain ⟨trt, t, ht, hrun⟩ := replay_of_replays hrun
  obtain ⟨s', r, hcall, hrun⟩ := call_of_answers hrun
  obtain ⟨t', r', hcall', hrun⟩ := call_of_answers hrun
  obtain ⟨hcs, hkeeps, hallows, hallows', hrange, hne⟩ := of_decide_eq_true hrun
  obtain ⟨tr, hboth, hmem⟩ := run_both (.start (twins_of_booted hboot)) hcs hs ht
  have hsrun := run_replay (.start (fresh_of_booted hboot)) hs
  obtain ⟨v, hg, hl⟩ := (fdsLinked_of_run hsrun hkeeps).1
  intro h
  refine hne (h _ s t s' t' 1 0x2000 4 r r' hboth (fun x hx => ?_) (hg.lively hl _) hrange
    ⟨permits_of_allows hallows, hcall⟩
    ⟨permits_of_allows hallows', hcall'⟩ 2 (by decide))
  obtain ⟨r, hx⟩ := hmem x hx
  exact careful_of_keeps hsrun hkeeps _ hx

end Mount
end ShompOS
