import ShompOS.Fs.Steps

/-! Runs of a mounted file system.

A run starts when the root has been created on a heap that others have used before.
Without calls on files that are gone and without writes past the end of the address
space there is a volume in every state it reaches. -/
namespace ShompOS
open Memory

namespace Mount
variable {L : Layout} {R : Rodata} {s s' : Mount} {v : Volume}

/-- After `ramfs_init_fd_system` and a successful `ramfs_create_root`. -/
def Fresh (L : Layout) (R : Rodata) (s : Mount) : Prop :=
  ∃ (before : Session) (r : Ramfs) (h : Heap), Session.Reached L before ∧ before.live = s.held ∧ before.heap = r.heap ∧
    R.Holds L r.heap.mem ∧ r.heap.ramfsCreateRoot L R = some (h, s.root) ∧ s.root ≠ 0 ∧
    s.ramfs = {r.ramfsInitFdSystem with heap := h}

/-- A root without anything in it. -/
def emptyVolume (P : Pool) (root name : Nat) : Volume :=
    ⟨P, [⟨root, name, ascii "/", 0, 0, [], 0, []⟩], fun _ => none, []⟩

theorem emptyVolume_cells (P : Pool) (root name : Nat) :
    (emptyVolume P root name).cells = DirNode.cells ⟨root, name, ascii "/", 0, 0, [], 0, []⟩ := by
  have hfds : (List.finRange maxFds).flatMap (fdCells fun _ => none) = [] := List.flatMap_eq_nil_iff.mpr fun _ _ => rfl
  unfold Volume.cells emptyVolume
  rw [hfds, List.flatMap_cons, List.flatMap_nil, List.append_nil, List.append_nil, List.append_nil]

theorem settled_of_reached {before : Session} (h : Session.Reached L before) :
    ∃ P, Settled L before.live P before.heap [] := by
  obtain ⟨P, hg⟩ := Session.good_of_reached h
  refine ⟨P, hg.represents, fun c hc => ?_, fun a t ha => ?_, ?_, fun c hc => ?_, fun _ _ => rfl⟩
  · obtain ⟨⟨p, n⟩, hp, rfl⟩ := List.mem_map.mp hc
    obtain ⟨a, t, h1, h2, h3⟩ := hg.held hp
    refine ⟨a, t, h1, h2, ?_⟩
    rw [Contents.size_bytes, length_bytesAt]
    exact h3
  · obtain ⟨n, hn⟩ := hg.used ha
    exact ⟨_, heldCells_mem hn, rfl⟩
  · rw [List.nil_append]
    unfold heldCells
    rw [List.map_map]
    exact hg.distinct
  · obtain ⟨⟨p, n⟩, hp, rfl⟩ := List.mem_map.mp hc
    intro i b hi
    have hlt := (List.getElem?_eq_some_iff.mp hi).1
    rw [length_bytesAt] at hlt
    rw [bytesAt_getElem? _ _ hlt, Option.some.injEq] at hi
    exact hi

theorem good_of_fresh (h : Fresh L R s) : ∃ P name, s.Good L R (emptyVolume P s.root name) := by
  obtain ⟨before, r, h', hreached, hlive, hheap, hR, hcall, hroot, hs⟩ := h
  obtain ⟨P, hsettled⟩ := settled_of_reached hreached
  rw [hlive, hheap] at hsettled
  have ho : Owns L r.heap.mem.byte P r.heap (heldCells s.held r.heap.mem) := hsettled
  have hsome : (P.allocate RamfsDir.bytes).2 ≠ 0 := by
    intro hz
    obtain ⟨h₁, hcall₁, -⟩ := ho.allocate RamfsDir.bytes
    unfold Heap.ramfsCreateRoot at hcall
    rw [hcall₁, Option.bind_some] at hcall
    dsimp only at hcall
    rw [if_pos hz] at hcall
    exact hroot (Prod.mk.inj (Option.some.inj hcall)).2.symm
  obtain ⟨h₁, hcall₁, ho₁⟩ := ho.ramfsCreateRoot (R := R) (hR.slash.lent _) hsome
  rw [hcall] at hcall₁
  obtain ⟨rfl, hroot'⟩ := Prod.mk.inj (Option.some.inj hcall₁)
  refine ⟨((P.allocate RamfsDir.bytes).1.allocate 2).1, ((P.allocate RamfsDir.bytes).1.allocate 2).2, ?_, fun i => ?_,
    fun d hd => ?_, ?_, ?_⟩
  · rw [emptyVolume_cells, hroot']
    unfold heap
    rw [hs]
    exact ho₁.settled
  · rw [hs]
    rfl
  · rw [List.mem_singleton.mp hd]
    exact ⟨fun _ => rfl, fun _ => rfl, (by decide : (0 : UInt8) ∉ ascii "/"), fun f hf => nomatch hf⟩
  · exact isTree_singleton s.root
  · unfold mem
    rw [hs]
    exact hR.congr fun x hx _ => ho₁.static x hx

/-- The calls of a run that keep clear of files that are gone and of writes past the
end of the address space. -/
def Careful (x : Mount × (FsCall × Int)) : Prop := x.1.Lively x.2.1 ∧ x.1.Bounded x.2.1

theorem good_of_run {tr : List (Mount × (FsCall × Int))} (hrun : Run (Fresh L R) (Step L R) tr s)
    (hcare : ∀ x ∈ tr, Careful x) : (∃ v, s.Good L R v) ∧ ∀ x ∈ tr, ∃ v, x.1.Good L R v := by
  refine hrun.invariant_of (I := fun s => ∃ v, s.Good L R v) (C := fun s e => Careful (s, e)) (fun s hs => ?_)
    (fun s e s' hg hC hstep => ?_) hcare
  · obtain ⟨P, name, hg⟩ := good_of_fresh hs
    exact ⟨_, hg⟩
  · obtain ⟨v, hg⟩ := hg
    obtain ⟨v', hg', -⟩ := hg.step hstep.1 hC.1 hC.2 hstep.2
    exact ⟨v', hg'⟩

/-! ### Runs on a booted machine

On a heap that has just been set up calls are made one after another, with strings and
buffers in static memory and with the root for a directory. -/

section Rehearsal
variable (L R)

instance (x : Nat) : Decidable (L.Static x) := inferInstanceAs (Decidable (x < heapLowerBound ∧ ¬ (_ ∧ _)))

instance (x : Nat) : Decidable (R.Byte x) :=
  by
  unfold Rodata.Byte
  infer_instance

/-- The string at `a`, if it is one of fewer than `n` characters in static memory. -/
def staticText (m : Memory) : (n a : Nat) → Option (List UInt8)
  | 0, _ => none
  | n + 1, a =>
    if ¬ L.Static a then none
    else if m.byte a = 0 then some []
    else (staticText m n (a + 1)).map (m.byte a :: ·)

/-- The call is one of those that a caller may make. -/
def allows (s : Mount) : FsCall → Bool
  | .createFile dir name data size =>
    dir = s.root ∧ (staticText L s.mem 64 name).isSome ∧ (∀ i, i < size → L.Static (data + i)) ∧
      data + size < addressSpace
  | .createDir parent name => parent = s.root ∧ (staticText L s.mem 64 name).isSome
  | .deleteFile dir name => dir = s.root ∧ (staticText L s.mem 64 name).isSome
  | .rm dir filename => dir = s.root ∧ (staticText L s.mem 64 filename).isSome
  | .findDir root path => root = s.root ∧ (staticText L s.mem 64 path).isSome
  | .openFile root path flags => root = s.root ∧ (staticText L s.mem 64 path).isSome ∧ flags < addressSpace
  | .read _ buf count => (∀ i, i < count → L.Static (buf + i) ∧ ¬ R.Byte (buf + i)) ∧ buf + count < addressSpace
  | .write _ buf count => (∀ i, i < count → L.Static (buf + i)) ∧ buf + count < addressSpace
  | .seek .. => true
  | .close _ fdPtr => fdPtr = 0
  | .store a _ => L.Static a ∧ ¬ R.Byte a

/-- Calls one after another, as long as a caller may make them. -/
def replay (s : Mount) (cs : List FsCall) : Option (List (Mount × (FsCall × Int)) × Mount) :=
  Run.replay (call L R) (allows L R) s cs

variable {L R}

theorem staticText_passes {m : Memory} {n a : Nat} {text : List UInt8} (h : staticText L m n a = some text) :
    IsStr m a text ∧ ∀ i, i ≤ text.length → L.Static (a + i) := by
  induction n generalizing a text with
  | zero => cases h
  | succ n ih =>
    unfold staticText at h
    split at h
    · cases h
    · next hs =>
      have hs := not_not.mp hs
      have hlow := hs.1
      split at h
      · next h0 =>
        cases h
        refine ⟨⟨fun i c hi => (nomatch hi), h0, List.not_mem_nil, ?_⟩, fun i hi => ?_⟩
        · rw [List.length_nil]
          unfold heapLowerBound at hlow
          unfold addressSpace
          omega
        · rw [Nat.le_zero.mp hi]
          exact hs
      · next h0 =>
        obtain ⟨text, htext, rfl⟩ := Option.map_eq_some_iff.mp h
        obtain ⟨hstr, hstatic⟩ := ih htext
        have hroom := hstr.room
        refine ⟨⟨fun i c hi => ?_, ?_, ?_, ?_⟩, fun i hi => ?_⟩
        · cases i with
          | zero => exact Option.some.inj hi
          | succ i =>
            rw [← Nat.add_assoc, Nat.add_right_comm]
            exact hstr.chars i c hi
        · rw [List.length_cons, ← Nat.add_assoc, Nat.add_right_comm]
          exact hstr.stop
        · rw [List.mem_cons]
          exact fun hmem => hmem.elim (fun he => h0 he.symm) hstr.text
        · rw [List.length_cons]
          omega
        · cases i with
          | zero => exact hs
          | succ i =>
            rw [← Nat.add_assoc, Nat.add_right_comm]
            exact hstatic i (Nat.le_of_succ_le_succ hi)

theorem passes_of_static {a : Nat} (h : (staticText L s.mem 64 a).isSome) : ∃ text, s.Passes L a text := by
  obtain ⟨text, htext⟩ := Option.isSome_iff_exists.mp h
  obtain ⟨hstr, hstatic⟩ := staticText_passes htext
  exact ⟨text, hstr, fun i hi => Or.inl (hstatic i hi)⟩

theorem permits_of_allows {c : FsCall} (h : s.allows L R c) : s.Permits L R c := by
  have hroot : ∀ {dir}, dir = s.root → s.Dir dir := fun he => Or.inr (he ▸ .root)
  have hpasses : ∀ {a : Nat}, (staticText L s.mem 64 a).isSome → a = 0 ∨ ∃ text, s.Passes L a text := fun h =>
    Or.inr (passes_of_static h)
  have hstr : ∀ {a : Nat}, (staticText L s.mem 64 a).isSome → a = 0 ∨ ∃ text, IsStr s.mem a text := fun h =>
    Or.inr ((passes_of_static h).imp fun _ ht => ht.1)
  cases c with
  | createFile dir name data size =>
    obtain ⟨h1, h2, h3, h4⟩ := of_decide_eq_true h
    exact ⟨hroot h1, hpasses h2, Or.inr ⟨fun i hi => Or.inl (h3 i hi), h4⟩⟩
  | createDir parent name =>
    obtain ⟨h1, h2⟩ := of_decide_eq_true h
    exact ⟨hroot h1, hpasses h2⟩
  | deleteFile dir name =>
    obtain ⟨h1, h2⟩ := of_decide_eq_true h
    exact ⟨hroot h1, hstr h2⟩
  | rm dir filename =>
    obtain ⟨h1, h2⟩ := of_decide_eq_true h
    exact ⟨hroot h1, hstr h2⟩
  | findDir root path =>
    obtain ⟨h1, h2⟩ := of_decide_eq_true h
    exact ⟨hroot h1, hpasses h2⟩
  | openFile root path flags =>
    obtain ⟨h1, h2, h3⟩ := of_decide_eq_true h
    exact ⟨hroot h1, hpasses h2, h3⟩
  | read fd buf count =>
    obtain ⟨h1, h2⟩ := of_decide_eq_true h
    exact ⟨⟨fun i hi => Or.inl (h1 i hi).1, h2⟩, fun i hi => (h1 i hi).2⟩
  | write fd buf count =>
    obtain ⟨h1, h2⟩ := of_decide_eq_true h
    exact ⟨fun i hi => Or.inl (h1 i hi), h2⟩
  | seek fd offset origin => trivial
  | close fd fdPtr => exact Or.inl (of_decide_eq_true h)
  | store a b =>
    obtain ⟨h1, h2⟩ := of_decide_eq_true h
    exact ⟨Or.inl h1, h2⟩

theorem run_replay {init : Mount → Prop} {tr₀ tr : List (Mount × (FsCall × Int))} {cs : List FsCall}
    (hrun : Run init (Step L R) tr₀ s) (h : s.replay L R cs = some (tr, s')) : Run init (Step L R) (tr₀ ++ tr) s' :=
  (hrun.of_replay (fun _ _ _ _ hallows hcall => ⟨permits_of_allows hallows, hcall⟩) h).1

/-- An image with the literals of the source and three strings more. -/
def bootRodata : Rodata := ⟨0x1000, 0x1010, 0x1020, 0x1030, 0x1040, -2 ^ 31⟩

def bootText : List (Nat × List UInt8) :=
  [(0x1000, ascii "/"), (0x1010, ascii "/dev/stdin"), (0x1020, ascii "/dev/stdout"), (0x1030, ascii "/dev/stderr"),
    (0x1040, []), (0x1050, ascii "a"), (0x1060, ascii "b"), (0x1070, List.replicate 8 0xF0 ++ List.replicate 12 0xFF)]

def bootMemory : Memory where
  byte x := (bootText.find? fun t => t.1 ≤ x ∧ x < t.1 + t.2.length).elim 0 fun t => (t.2[x - t.1]?).getD 0
  stores := []

/-- After `init_heap`, `ramfs_init_fd_system` and `ramfs_create_root`. -/
def booted : Option Mount :=
  (Heap.initHeap .kernelImage bootMemory heapLowerBound).bind fun h =>
    (h.ramfsCreateRoot .kernelImage bootRodata).map fun (h', root) => ⟨⟨h', fun _ => 0, 0, 0, []⟩, root, []⟩

theorem fresh_of_booted (h : booted = some s) : Fresh .kernelImage bootRodata s := by
  obtain ⟨h₀, hinit, h⟩ := Option.bind_eq_some_iff.mp h
  obtain ⟨⟨h₁, root⟩, hcall, rfl⟩ := Option.map_eq_some_iff.mp h
  have hchecks : (Heap.initHeap .kernelImage bootMemory heapLowerBound).any (fun h =>
      bootText.all (fun t => staticText .kernelImage h.mem 64 t.1 = some t.2) ∧
        (h.ramfsCreateRoot .kernelImage bootRodata).any fun r => r.2 ≠ 0) := by decide +kernel
  rw [hinit, Option.any_some, decide_eq_true_eq, hcall, Option.any_some, decide_eq_true_eq, List.all_eq_true] at hchecks
  have hlit : ∀ {a text}, (a, text) ∈ bootText → a ≠ 0 → Literal .kernelImage h₀.mem a text :=
    fun {a text} hin hne => by
    obtain ⟨hstr, hstatic⟩ := staticText_passes (of_decide_eq_true (hchecks.1 _ hin))
    exact ⟨hne, hstr, hstatic⟩
  refine ⟨⟨h₀, []⟩, ⟨h₀, fun _ => 0, 0, 0, []⟩, h₁, ⟨[], .start ⟨rfl, bootMemory, hinit⟩⟩, rfl, rfl,
    ?_, hcall, hchecks.2, rfl⟩
  exact ⟨hlit (by decide) (by decide), hlit (by decide) (by decide), hlit (by decide) (by decide),
    hlit (by decide) (by decide), hlit (by decide) (by decide)⟩

/-- Calls on the booted machine; they may use the address of the root. -/
def rehearse (cs : Nat → List FsCall) : Option (List (Mount × (FsCall × Int)) × Mount) :=
  booted.bind fun s => s.replay .kernelImage bootRodata (cs s.root)

theorem run_rehearse {cs : Nat → List FsCall} {tr : List (Mount × (FsCall × Int))} (h : rehearse cs = some (tr, s)) :
    Run (Fresh .kernelImage bootRodata) (Step .kernelImage bootRodata) tr s := by
  obtain ⟨s₀, hboot, h⟩ := Option.bind_eq_some_iff.mp h
  exact run_replay (.start (fresh_of_booted hboot)) h

/-- The calls go through, to a trace and a machine as `p` asks. -/
def replays (s : Mount) (cs : List FsCall) (p : List (Mount × (FsCall × Int)) → Mount → Bool) : Bool :=
  (s.replay .kernelImage bootRodata cs).any fun x => p x.1 x.2

theorem replay_of_replays {cs : List FsCall} {p : List (Mount × (FsCall × Int)) → Mount → Bool}
    (h : s.replays cs p) : ∃ tr s', s.replay .kernelImage bootRodata cs = some (tr, s') ∧ p tr s' := by
  obtain ⟨⟨tr, s'⟩, hs, hp⟩ := (Option.any_eq_true _ _).mp h
  exact ⟨tr, s', hs, hp⟩

/-- The same of a booted machine. -/
def rehearses (cs : Nat → List FsCall) (p : List (Mount × (FsCall × Int)) → Mount → Bool) : Bool :=
  (rehearse cs).any fun x => p x.1 x.2

theorem run_rehearses {cs : Nat → List FsCall} {p : List (Mount × (FsCall × Int)) → Mount → Bool}
    (h : rehearses cs p) : ∃ tr s, Run (Fresh .kernelImage bootRodata) (Step .kernelImage bootRodata) tr s ∧
      p tr s := by
  obtain ⟨⟨tr, s⟩, hs, hp⟩ := (Option.any_eq_true _ _).mp h
  exact ⟨tr, s, run_rehearse hs, hp⟩

/-- The call returns, with a machine and an answer as `p` asks. -/
def answers (s : Mount) (c : FsCall) (p : Mount → Int → Bool) : Bool :=
  (s.call .kernelImage bootRodata c).any fun x => p x.1 x.2

theorem call_of_answers {c : FsCall} {p : Mount → Int → Bool} (h : s.answers c p) :
    ∃ s' r, s.call .kernelImage bootRodata c = some (s', r) ∧ p s' r := by
  obtain ⟨⟨s', r⟩, hcall, hp⟩ := (Option.any_eq_true _ _).mp h
  exact ⟨s', r, hcall, hp⟩

end Rehearsal

end Mount
end ShompOS
