import ShompOS.Fs.Failures
import Mathlib.Data.Fintype.Card

/-! `fd_table` and `fd_count`.

Only `ramfs_open` and `ramfs_close` touch the two, and both of them do it together:
one takes the first place that is `NULL`, the other sets one to `NULL`. What a
descriptor is for and where it is are changed by nothing but the calls that are
given its number. -/
namespace ShompOS
open Memory

namespace Ramfs
variable {L : Layout} {R : Rodata} {s s' : Ramfs} {r : Int} {i : Fin maxFds}

/-- How many places of the table are not `NULL`. -/
def inUse (s : Ramfs) : Nat := (Finset.univ.filter fun i => s.fdTable i ≠ 0).card

def SameTable (s s' : Ramfs) : Prop := s'.fdTable = s.fdTable ∧ s'.fdCount = s.fdCount

/-- The first free place has been taken. -/
structure Takes (s s' : Ramfs) (i : Fin maxFds) : Prop where
  free : s.fdTable i = 0
  first : ∀ j, j < i → s.fdTable j ≠ 0
  taken : s'.fdTable i ≠ 0
  others : ∀ j, j ≠ i → s'.fdTable j = s.fdTable j
  count : s'.fdCount = s.fdCount + 1

/-- A place has been given up. -/
structure Gives (s s' : Ramfs) (i : Fin maxFds) : Prop where
  used : s.fdTable i ≠ 0
  given : s'.fdTable i = 0
  others : ∀ j, j ≠ i → s'.fdTable j = s.fdTable j
  count : s'.fdCount = s.fdCount - 1

/-- One place more is in use. -/
theorem inUse_insert (hfree : s.fdTable i = 0) (htaken : s'.fdTable i ≠ 0)
    (hothers : ∀ j, j ≠ i → s'.fdTable j = s.fdTable j) :
    s'.inUse = s.inUse + 1 := by
  have hset : (Finset.univ.filter fun j => s'.fdTable j ≠ 0) =
    insert i (Finset.univ.filter fun j => s.fdTable j ≠ 0) := by
    apply Finset.ext
    intro j
    rw [Finset.mem_insert, Finset.mem_filter, Finset.mem_filter]
    by_cases hj : j = i
    · subst hj
      exact iff_of_true ⟨Finset.mem_univ _, htaken⟩ (Or.inl rfl)
    · rw [hothers j hj]
      exact ⟨Or.inr, fun h => h.resolve_left hj⟩
  unfold inUse
  rw [hset]
  apply Finset.card_insert_of_notMem
  rw [Finset.mem_filter]
  exact fun hin => hin.2 hfree

/-- The counter counts the places in use. -/
def Counted (s : Ramfs) : Prop := s.fdCount = s.inUse

theorem Counted.same (hc : s.Counted) (h : SameTable s s') : s'.Counted := by
  unfold Counted inUse at *
  rw [h.1, h.2, hc]

theorem Counted.takes (hc : s.Counted) (h : Takes s s' i) : s'.Counted := by
  unfold Counted at *
  rw [h.count, inUse_insert h.free h.taken h.others, hc]
  rfl

theorem Counted.gives (hc : s.Counted) (h : Gives s s' i) : s'.Counted := by
  have hone := inUse_insert h.given h.used fun j hj => (h.others j hj).symm
  unfold Counted at *
  rw [h.count, hc, hone]
  omega

/-! ### Opening and closing -/

theorem openIn_table {dir filename pathCopy flags : Nat} (h : s.openIn L dir filename pathCopy flags = some (s', r)) :
    (SameTable s s' ∧ r = -1) ∨ ∃ i, Takes s s' i ∧ r = (i : Nat) := by
  unfold openIn at h
  obtain ⟨found, -, h⟩ := Option.bind_eq_some_iff.mp h
  split at h
  · next j fd hfind =>
    obtain ⟨⟨h₁, fdEntry⟩, -, h⟩ := Option.bind_eq_some_iff.mp h
    dsimp only at h
    split at h
    · obtain ⟨⟨h₂, n⟩, -, he⟩ := Option.map_eq_some_iff.mp h
      cases he
      exact Or.inl ⟨⟨rfl, rfl⟩, rfl⟩
    · next hne =>
      obtain ⟨⟨h₂, n⟩, -, he⟩ := Option.map_eq_some_iff.mp h
      cases he
      obtain ⟨hfree, n, hn, hget, hfirst⟩ := List.find?_eq_some_iff_getElem.mp hfind
      rw [List.getElem_finRange] at hget
      subst hget
      refine Or.inr ⟨_, ⟨of_decide_eq_true hfree, fun j hj => ?_, ?_,
        fun j hj => Function.update_of_ne hj _ _, rfl⟩, rfl⟩
      · have hlt := hfirst j hj
        rw [List.getElem_finRange] at hlt
        simpa using hlt
      · dsimp only
        rw [Function.update_self]
        exact hne
  · obtain ⟨⟨h₂, n⟩, -, he⟩ := Option.map_eq_some_iff.mp h
    cases he
    exact Or.inl ⟨⟨rfl, rfl⟩, rfl⟩

theorem ramfsOpen_table {root path flags : Nat} (h : s.ramfsOpen L R root path flags = some (s', r)) :
    (SameTable s s' ∧ (r = -1 ∨ ∃ a ∈ [R.devStdin, R.devStdout, R.devStderr], s.heap.mem.strcmp path a = some 0)) ∨
      ∃ i, Takes s s' i ∧ r = (i : Nat) := by
  have hin : ∀ (s₁ : Ramfs) {dir filename pathCopy}, s₁.fdTable = s.fdTable → s₁.fdCount = s.fdCount →
      s₁.openIn L dir filename pathCopy flags = some (s', r) →
      (SameTable s s' ∧ (r = -1 ∨ ∃ a ∈ [R.devStdin, R.devStdout, R.devStderr], s.heap.mem.strcmp path a = some 0)) ∨
        ∃ i, Takes s s' i ∧ r = (i : Nat) := by
    intro s₁ dir filename pathCopy htable hcount h
    cases openIn_table h with
    | inl h => exact Or.inl ⟨⟨h.1.1.trans htable, h.1.2.trans hcount⟩, Or.inl h.2⟩
    | inr h =>
      obtain ⟨i, ht, hr⟩ := h
      refine Or.inr ⟨i, ⟨htable ▸ ht.free, fun j hj => htable ▸ ht.first j hj, ht.taken, fun j hj => ?_, ?_⟩, hr⟩
      · rw [ht.others j hj, htable]
      · rw [ht.count, hcount]
  unfold ramfsOpen at h
  by_cases hnull : root = 0 ∨ path = 0 ∨ s.heap.mem.byte path = 0
  · rw [if_pos hnull] at h
    cases h
    exact Or.inl ⟨⟨rfl, rfl⟩, Or.inl rfl⟩
  rw [if_neg hnull] at h
  obtain ⟨d₀, hd₀, h⟩ := Option.bind_eq_some_iff.mp h
  by_cases h0 : d₀ = 0
  · rw [if_pos h0] at h
    cases h
    exact Or.inl ⟨⟨rfl, rfl⟩, Or.inr ⟨_, List.mem_cons_self .., h0 ▸ hd₀⟩⟩
  rw [if_neg h0] at h
  obtain ⟨d₁, hd₁, h⟩ := Option.bind_eq_some_iff.mp h
  by_cases h1 : d₁ = 0
  · rw [if_pos h1] at h
    cases h
    exact Or.inl ⟨⟨rfl, rfl⟩, Or.inr ⟨_, List.mem_of_getElem? (i := 1) rfl, h1 ▸ hd₁⟩⟩
  rw [if_neg h1] at h
  obtain ⟨d₂, hd₂, h⟩ := Option.bind_eq_some_iff.mp h
  by_cases h2 : d₂ = 0
  · rw [if_pos h2] at h
    cases h
    exact Or.inl ⟨⟨rfl, rfl⟩, Or.inr ⟨_, List.mem_of_getElem? (i := 2) rfl, h2 ▸ hd₂⟩⟩
  rw [if_neg h2] at h
  obtain ⟨⟨h₁, pathCopy⟩, -, h⟩ := Option.bind_eq_some_iff.mp h
  dsimp only at h
  by_cases hcopy : pathCopy = 0
  · rw [if_pos hcopy] at h
    cases h
    exact Or.inl ⟨⟨rfl, rfl⟩, Or.inl rfl⟩
  rw [if_neg hcopy] at h
  obtain ⟨lastSlash, -, h⟩ := Option.bind_eq_some_iff.mp h
  by_cases hslash : lastSlash = 0
  · rw [if_pos hslash] at h
    exact hin {s with heap := h₁} rfl rfl h
  rw [if_neg hslash] at h
  obtain ⟨len, -, h⟩ := Option.bind_eq_some_iff.mp h
  by_cases hlen : len > 0
  · rw [if_pos hlen] at h
    obtain ⟨⟨h₂, last, dir⟩, -, h⟩ := Option.bind_eq_some_iff.mp h
    dsimp only at h
    by_cases hdir : dir = 0
    · rw [if_pos hdir] at h
      obtain ⟨⟨h₃, n⟩, -, he⟩ := Option.map_eq_some_iff.mp h
      cases he
      exact Or.inl ⟨⟨rfl, rfl⟩, Or.inl rfl⟩
    · rw [if_neg hdir] at h
      exact hin {s with heap := h₂, last := last} rfl rfl h
  · rw [if_neg hlen] at h
    exact hin {s with heap := h₁.setByte lastSlash 0} rfl rfl h

theorem ramfsClose_table {fd : Int} {fdPtr : Nat} (h : s.ramfsClose L fd fdPtr = some (s', r)) :
    (SameTable s s' ∧ r = -1) ∨ ∃ i : Fin maxFds, Gives s s' i ∧ (i : Int) = fd ∧ r = 0 := by
  unfold ramfsClose at h
  split at h
  · next hfd =>
    split at h
    · cases h
      exact Or.inl ⟨⟨rfl, rfl⟩, rfl⟩
    · next hne =>
      obtain ⟨⟨h₁, n⟩, -, he⟩ := Option.map_eq_some_iff.mp h
      cases he
      refine Or.inr ⟨_, ⟨hne, ?_, fun j hj => Function.update_of_ne hj _ _, rfl⟩, ?_, rfl⟩
      · exact Function.update_self ..
      · dsimp only
        omega
  · cases h
    exact Or.inl ⟨⟨rfl, rfl⟩, rfl⟩

/-! ### The other calls -/

theorem terminalWritestring_table {data : Nat} (h : s.terminalWritestring data = some s') : SameTable s s' := by
  obtain ⟨len, -, rfl⟩ := Option.map_eq_some_iff.mp h
  exact ⟨rfl, rfl⟩

theorem ramfsRm_table {dir filename : Nat} (h : s.ramfsRm L dir filename = some s') : SameTable s s' := by
  unfold ramfsRm at h
  split at h
  · cases h
    exact ⟨rfl, rfl⟩
  obtain ⟨found, -, h⟩ := Option.bind_eq_some_iff.mp h
  cases found with
  | none =>
    obtain ⟨s₁, hs₁, rfl⟩ := Option.map_eq_some_iff.mp h
    have hsame := terminalWritestring_table hs₁
    exact ⟨hsame.1, hsame.2⟩
  | some j =>
    obtain ⟨h₁, -, h⟩ := Option.bind_eq_some_iff.mp h
    obtain ⟨s₁, hs₁, rfl⟩ := Option.map_eq_some_iff.mp h
    have hsame := terminalWritestring_table hs₁
    exact ⟨hsame.1, hsame.2⟩

theorem ramfsRead_table {handleKeyboardInterrupt : Ramfs → Option Ramfs} {fd : Int} {buf count : Nat}
    (hkey : ∀ s', handleKeyboardInterrupt s = some s' → SameTable s s')
    (h : s.ramfsRead handleKeyboardInterrupt fd buf count = some (s', r)) : SameTable s s' := by
  unfold ramfsRead at h
  cases hentry : s.fdEntry fd with
  | none =>
    rw [hentry] at h
    cases h
    exact ⟨rfl, rfl⟩
  | some fdEntry =>
    rw [hentry] at h
    dsimp only at h
    split at h
    · obtain ⟨s₁, hs₁, he⟩ := Option.map_eq_some_iff.mp h
      cases he
      exact hkey _ hs₁
    split at h
    · cases h
      exact ⟨rfl, rfl⟩
    split at h <;> cases h <;> exact ⟨rfl, rfl⟩

theorem ramfsWrite_table {fd : Int} {buf count : Nat} (h : s.ramfsWrite L fd buf count = some (s', r)) :
    SameTable s s' := by
  unfold ramfsWrite at h
  cases hentry : s.fdEntry fd with
  | none =>
    rw [hentry] at h
    cases h
    exact ⟨rfl, rfl⟩
  | some fdEntry =>
    rw [hentry] at h
    dsimp only at h
    by_cases hterm : fd = stdoutFileno ∨ fd = stderrFileno
    · rw [if_pos hterm] at h
      obtain ⟨s₁, hs₁, he⟩ := Option.map_eq_some_iff.mp h
      cases he
      exact terminalWritestring_table hs₁
    rw [if_neg hterm] at h
    split at h
    · cases h
      exact ⟨rfl, rfl⟩
    split at h
    · cases h
      exact ⟨rfl, rfl⟩
    obtain ⟨⟨h₁, ok⟩, -, he⟩ := Option.map_eq_some_iff.mp h
    cases ok <;> cases he <;> exact ⟨rfl, rfl⟩

theorem ramfsSeek_table (s : Ramfs) (fd offset origin : Int) : SameTable s (s.ramfsSeek fd offset origin).1 := by
  unfold ramfsSeek
  cases s.fdEntry fd with
  | none => exact ⟨rfl, rfl⟩
  | some fdEntry =>
    dsimp only
    repeat' split
    all_goals exact ⟨rfl, rfl⟩

end Ramfs

/-! ### What calls do to descriptors -/

/-- The descriptors that a call is not given stay what they are. -/
theorem Volume.Effect.fds_others {s : Mount} {v v' : Volume} {c : FsCall} {r : Int} {i : Fin maxFds} {e : OpenFd}
    (he : v.Effect s c r v') (hi : v.fds i = some e) (hc : c.fd ≠ some (i : Int)) : v'.fds i = some e := by
  have hopen : ∀ {fd k j n d f e₂ P g e'}, v.Opens fd k j n d f e₂ → some fd ≠ some (i : Int) →
      (v.withOpen k j n P g e').fds i = some e := by
    intro fd k j n d f e₂ P g e' ho hne
    have hin : i ≠ n := fun h => hne (by rw [h, ho.fd])
    exact (Function.update_of_ne hin _ _).trans hi
  cases he with
  | @openFile d path flags found text hd =>
    cases Volume.openPath_fds hd text flags found with
    | inl hf =>
      rw [hf.1]
      exact hi
    | inr hf =>
      obtain ⟨n, e', -, -, -, hn, -, hf⟩ := hf
      have hin : i ≠ n := fun h => by
        rw [← h, hi] at hn
        cases hn
      rw [hf, Function.update_of_ne hin]
      exact hi
  | read ho => exact hopen ho hc
  | write ho => exact hopen ho hc
  | seek ho => exact hopen ho hc
  | @close fd fdPtr n e' hn he' =>
    have hin : i ≠ n := fun h => hc (by rw [h, hn]; rfl)
    exact (Function.update_of_ne hin _ _).trans hi
  | _ => exact hi

namespace Mount
variable {L : Layout} {R : Rodata} {s s' : Mount} {v v' : Volume} {c : FsCall} {r : Int} {i : Fin maxFds} {e : OpenFd}

/-- A call leaves the table alone, or opens, or closes. -/
theorem call_table (h : s.call L R c = some (s', r)) : s.ramfs.SameTable s'.ramfs ∨
    (∃ i, s.ramfs.Takes s'.ramfs i ∧ r = (i : Nat) ∧ ∃ root path flags, c = .openFile root path flags) ∨
    ∃ (i : Fin maxFds) (fdPtr : Nat), s.ramfs.Gives s'.ramfs i ∧ c = .close i fdPtr := by
  cases c with
  | createFile dir name data size =>
    obtain ⟨⟨h₁, n⟩, -, he⟩ := Option.map_eq_some_iff.mp h
    cases he
    exact Or.inl ⟨rfl, rfl⟩
  | createDir parent name =>
    obtain ⟨⟨h₁, n⟩, -, he⟩ := Option.map_eq_some_iff.mp h
    cases he
    exact Or.inl ⟨rfl, rfl⟩
  | deleteFile dir name =>
    obtain ⟨h₁, -, he⟩ := Option.map_eq_some_iff.mp h
    cases he
    exact Or.inl ⟨rfl, rfl⟩
  | rm dir filename =>
    obtain ⟨r', hrm, he⟩ := Option.map_eq_some_iff.mp h
    cases he
    exact Or.inl (Ramfs.ramfsRm_table hrm)
  | findDir root path =>
    obtain ⟨⟨h₁, last, dir⟩, -, he⟩ := Option.map_eq_some_iff.mp h
    cases he
    exact Or.inl ⟨rfl, rfl⟩
  | openFile root path flags =>
    obtain ⟨⟨r', ret⟩, hopen, he⟩ := Option.map_eq_some_iff.mp h
    cases he
    cases Ramfs.ramfsOpen_table hopen with
    | inl h => exact Or.inl h.1
    | inr h =>
      obtain ⟨i, ht, hret⟩ := h
      exact Or.inr (Or.inl ⟨i, ht, hret, root, path, flags, rfl⟩)
  | read fd buf count =>
    obtain ⟨⟨r', ret⟩, hread, he⟩ := Option.map_eq_some_iff.mp h
    cases he
    exact Or.inl (Ramfs.ramfsRead_table (fun _ hkey => by cases hkey; exact ⟨rfl, rfl⟩) hread)
  | write fd buf count =>
    obtain ⟨⟨r', ret⟩, hwrite, he⟩ := Option.map_eq_some_iff.mp h
    cases he
    exact Or.inl (Ramfs.ramfsWrite_table hwrite)
  | seek fd offset origin =>
    cases h
    exact Or.inl (Ramfs.ramfsSeek_table ..)
  | close fd fdPtr =>
    obtain ⟨⟨r', ret⟩, hclose, he⟩ := Option.map_eq_some_iff.mp h
    cases he
    cases Ramfs.ramfsClose_table hclose with
    | inl h => exact Or.inl h.1
    | inr h =>
      obtain ⟨i, hg, hi, -⟩ := h
      exact Or.inr (Or.inr ⟨i, fdPtr, hg, by rw [hi]⟩)
  | store a b =>
    cases h
    exact Or.inl ⟨rfl, rfl⟩

theorem run_counted {tr : List (Mount × (FsCall × Int))} (hrun : Run (Fresh L R) (Step L R) tr s) :
    s.ramfs.Counted := by
  refine hrun.invariant (I := fun s => s.ramfs.Counted) (fun s hs => ?_) fun s x s' hc hstep => ?_
  · obtain ⟨before, r, h, -, -, -, -, -, -, he⟩ := hs
    rw [he]
    unfold Ramfs.Counted Ramfs.inUse Ramfs.ramfsInitFdSystem
    simp
  · rcases call_table hstep.2 with h | ⟨i, h, -⟩ | ⟨i, fdPtr, h, -⟩
    · exact hc.same h
    · exact hc.takes h
    · exact hc.gives h

/-! ### What holds of the table -/

/-- The counter is right, and every descriptor has its own number. -/
structure Descriptors (s : Mount) : Prop where
  count : s.ramfs.fdCount = s.ramfs.inUse
  fd : ∀ i, s.ramfs.fdTable i ≠ 0 → s.heap.word (s.ramfs.fdTable i) RamfsFd.fd = i

/-- What a call is to do to the table and to the descriptors. -/
structure TableKept (s : Mount) (x : FsCall × Int) (s' : Mount) : Prop where
  opened : ∀ root path flags, x.1 = .openFile root path flags → 0 ≤ x.2 →
    (∀ name ∈ ["/dev/stdin", "/dev/stdout", "/dev/stderr"], ¬ IsStr s.mem path (ascii name)) →
    ∃ i : Fin maxFds, x.2 = (i : Nat) ∧ s.ramfs.fdTable i = 0 ∧ (∀ j, j < i → s.ramfs.fdTable j ≠ 0) ∧
      s'.ramfs.fdTable i ≠ 0 ∧ s'.heap.word (s'.ramfs.fdTable i) RamfsFd.position = 0 ∧
      ∀ j, j ≠ i → s'.ramfs.fdTable j = s.ramfs.fdTable j
  refused : ∀ root path flags, x.1 = .openFile root path flags → x.2 < 0 → s'.ramfs.fdTable = s.ramfs.fdTable
  /-- Its place, its number, its file, its position and its flags. -/
  others : ∀ i : Fin maxFds, s.ramfs.fdTable i ≠ 0 → x.1.fd ≠ some (i : Int) → s'.ramfs.fdTable i = s.ramfs.fdTable i ∧
    ∀ k, k < 4 → s'.heap.word (s.ramfs.fdTable i) k = s.heap.word (s.ramfs.fdTable i) k

theorem Good.fd_of_table (hg : s.Good L R v) (hi : s.ramfs.fdTable i ≠ 0) : ∃ e, v.fds i = some e := by
  cases hfds : v.fds i with
  | none =>
    rw [hg.table i, hfds] at hi
    exact absurd rfl hi
  | some e => exact ⟨e, rfl⟩

/-- The words of a descriptor. -/
theorem Good.fd_word (hg : s.Good L R v) (hi : v.fds i = some e) {k w : Nat}
    (hk : [(i : Nat), e.file, e.position, e.flags][k]? = some w) : s.heap.word (s.ramfs.fdTable i) k = w := by
  rw [(hg.fdAt hi).table]
  exact hg.owns.word_eq (List.mem_append_left _ (OpenFd.mem_cells hi (List.mem_singleton_self _))) hk

theorem Good.fd_others (hg : s.Good L R v) (hg' : s'.Good L R v') (heff : v.Effect s c r v')
    (hi : s.ramfs.fdTable i ≠ 0)
    (hc : c.fd ≠ some (i : Int)) : s'.ramfs.fdTable i = s.ramfs.fdTable i ∧
      ∀ k, k < 4 → s'.heap.word (s.ramfs.fdTable i) k = s.heap.word (s.ramfs.fdTable i) k := by
  obtain ⟨e, he⟩ := hg.fd_of_table hi
  have he' := heff.fds_others he hc
  have htable : s'.ramfs.fdTable i = s.ramfs.fdTable i := by rw [(hg'.fdAt he').table, (hg.fdAt he).table]
  refine ⟨htable, fun k hk => ?_⟩
  obtain ⟨w, hw⟩ : ∃ w, [(i : Nat), e.file, e.position, e.flags][k]? = some w := ⟨_, List.getElem?_eq_getElem hk⟩
  rw [hg.fd_word he hw, ← htable]
  exact hg'.fd_word he' hw

/-- A new descriptor is at the start of its file. -/
theorem opened_position {root path flags : Nat}
    (heff : v.Effect s (.openFile root path flags) r v') (hi : v.fds i = none)
    (hi' : v'.fds i = some e) : e.position = 0 := by
  have hnew : ∀ {w : Volume}, w.fds = v.fds → w.fds i ≠ some e := fun hw h => by
    rw [hw, hi] at h
    cases h
  cases heff with
  | null => exact absurd hi' (hnew rfl)
  | deleteFile _ _ _ hc => cases hc with
    | inl hc => cases hc
    | inr hc => cases hc
  | @openFile d _ _ found text hd =>
    cases Volume.openPath_fds hd text flags found with
    | inl hf => exact absurd hi' (hnew hf.1)
    | inr hf =>
      obtain ⟨n, e', -, -, hpos, -, -, hf⟩ := hf
      by_cases hin : i = n
      · rw [hf, hin, Function.update_self, Option.some.injEq] at hi'
        rw [← hi', hpos]
      · rw [hf, Function.update_of_ne hin, hi] at hi'
        cases hi'
  | closed hn => cases hn

theorem Good.tableKept (hg : s.Good L R v) (hg' : s'.Good L R v') (heff : v.Effect s c r v') (hp : s.Permits L R c)
    (hcall : s.call L R c = some (s', r)) : s.TableKept (c, r) s' := by
  refine ⟨fun root path flags hc hr hdev => ?_, fun root path flags hc hr => ?_,
    fun i hi hc => hg.fd_others hg' heff hi hc⟩
  · dsimp only at hc hr
    subst hc
    have hpath0 : path ≠ 0 := fun h0 => by
      have hrefused : r = -1 := (Prod.mk.inj (Option.some.inj (hcall.symm.trans (call_null (Or.inr h0))))).2
      omega
    obtain ⟨⟨r', ret⟩, hopen, he⟩ := Option.map_eq_some_iff.mp hcall
    cases he
    cases Ramfs.ramfsOpen_table hopen with
    | inl h =>
      obtain ⟨a, ha, hcmp⟩ := h.2.resolve_left (by omega)
      obtain ⟨text, hpath⟩ := hp.2.1.resolve_left hpath0
      have hname : ∀ {lit : String}, Literal L s.mem a (ascii lit) → IsStr s.mem path (ascii lit) :=
        fun {lit} hlit => by
        obtain ⟨d, hd, hiff⟩ := strcmp_eq hpath.1 hlit.str
        rw [hcmp] at hd
        rw [← hiff.mp (Option.some.inj hd).symm]
        exact hpath.1
      simp only [List.mem_cons, List.not_mem_nil, or_false] at ha
      rcases ha with rfl | rfl | rfl
      · exact absurd (hname hg.rodata.devStdin) (hdev _ (List.mem_cons_self ..))
      · exact absurd (hname hg.rodata.devStdout) (hdev _ (List.mem_of_getElem? (i := 1) rfl))
      · exact absurd (hname hg.rodata.devStderr) (hdev _ (List.mem_of_getElem? (i := 2) rfl))
    | inr h =>
      obtain ⟨i, ht, hret⟩ := h
      obtain ⟨e, he⟩ := hg'.fd_of_table (i := i) ht.taken
      have hnone : v.fds i = none := (hg.table.eq_zero_iff hg.owns (List.subset_append_left _ _) i).mp ht.free
      refine ⟨i, hret, ht.free, ht.first, ht.taken, ?_, ht.others⟩
      rw [hg'.fd_word he (k := RamfsFd.position) rfl]
      exact opened_position heff hnone he
  · dsimp only at hc hr
    subst hc
    rcases call_table hcall with h | ⟨i, -, hret, -⟩ | ⟨i, fdPtr, -, hc⟩
    · exact h.1
    · omega
    · cases hc

/-- In a run that deletes no open file, and writes nothing past the end of the address
space, the table is right in every state and kept by every call. -/
theorem run_descriptors {tr : List (Mount × (FsCall × Int))} (hrun : Run (Fresh L R) (Step L R) tr s)
    (hkeeps : ∀ x ∈ tr, x.1.KeepsOpen x.2.1 ∧ x.1.Bounded x.2.1) :
    s.Descriptors ∧ ∀ x s', Step L R s x s' → s.Bounded x.1 → s.TableKept x s' := by
  obtain ⟨v, hg, hlinked⟩ := (fdsLinked_of_run hrun hkeeps).1
  refine ⟨⟨run_counted hrun, fun i hi => ?_⟩, fun x s' hstep hb => ?_⟩
  · obtain ⟨e, he⟩ := hg.fd_of_table hi
    exact hg.fd_word he rfl
  · obtain ⟨v', hg', -, -, heff⟩ := hg.step hstep.1 (hg.lively hlinked x.1) hb hstep.2
    exact hg.tableKept hg' heff hstep.1 hstep.2

/-- Two descriptors for one file. -/
theorem run_descriptors_two : ∃ tr s s', Run (Fresh .kernelImage bootRodata) (Step .kernelImage bootRodata) tr s ∧
    s.Descriptors ∧ s.ramfs.inUse = 2 ∧ Step .kernelImage bootRodata s (.seek 1 1 seekSet, 1) s' ∧
    s.TableKept (.seek 1 1 seekSet, 1) s' := by
  have hdec : rehearses (fun root => [.createFile root 0x1050 0x1060 1, .openFile root 0x1050 oRdwr,
      .openFile root 0x1050 oRdwr]) fun tr s =>
        s.answers (.seek 1 1 seekSet) fun _ r =>
        (∀ x ∈ tr, x.1.KeepsOpen x.2.1 ∧ x.1.Bounded x.2.1) ∧ s.ramfs.inUse = 2 ∧ r = 1 := by decide +kernel
  obtain ⟨tr, s, hrun, hdec⟩ := run_rehearses hdec
  obtain ⟨s', r, hcall, hdec⟩ := call_of_answers hdec
  obtain ⟨hkeeps, hinUse, rfl⟩ := of_decide_eq_true hdec
  obtain ⟨hsound, hkept⟩ := run_descriptors hrun hkeeps
  exact ⟨tr, s, s', hrun, hsound, hinUse, ⟨trivial, hcall⟩, hkept _ _ ⟨trivial, hcall⟩ trivial⟩

end Mount
end ShompOS
