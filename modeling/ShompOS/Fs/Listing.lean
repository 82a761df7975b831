import ShompOS.Fs.Names
import Mathlib.Logic.Function.Basic

/-! Directories are lists of named contents.

What the calls of a run make of the lists is said without memory, a file more at
the end or the first file of a name gone. After any run the array of a directory
and the records it points to are that list. -/
namespace ShompOS
open Memory

/-- The string at an address. -/
def Memory.strOf (m : Memory) (a : Nat) : List UInt8 := (m.strlen a).elim [] (m.bytesAt a)

theorem Memory.IsStr.strOf {m : Memory} {a : Nat} {text : List UInt8} (h : IsStr m a text) : m.strOf a = text := by
  unfold Memory.strOf
  rw [strlen_eq h, Option.elim_some]
  exact bytesAt_eq fun i c hi => h.chars i c hi

/-! ### The lists -/

/-- Names with contents, for each directory. -/
abbrev Listing := Nat → List (List UInt8 × List UInt8)

/-- The call is one that only directories matter to. -/
def FsCall.OnDirs : FsCall → Prop
  | .createFile .. | .createDir .. | .deleteFile .. | .rm .. | .findDir .. | .store .. => True
  | _ => False

instance : DecidablePred FsCall.OnDirs := fun c => by
  unfold FsCall.OnDirs
  split <;> infer_instance

namespace Mount

/-- A file less in a directory. -/
def unlist (s : Mount) (l : Listing) (dir name : Nat) : Listing :=
  if dir = 0 ∨ name = 0 then l else Function.update l dir ((l dir).eraseP fun x => x.1 = s.mem.strOf name)

/-- The lists after a call that returns. -/
def relist (s : Mount) (l : Listing) : FsCall × Int → Listing
  | (.createFile dir name data size, r) =>
    if r = 0 then l else Function.update l dir (l dir ++ [(s.mem.strOf name, s.mem.bytesAt data size)])
  | (.deleteFile dir name, _) => s.unlist l dir name
  | (.rm dir name, _) => s.unlist l dir name
  | _ => l

def listings (tr : List (Mount × (FsCall × Int))) : Listing := tr.foldl (fun l x => x.1.relist l x.2) fun _ => []

/-- In memory a directory is a list. -/
structure Lists (s : Mount) (dir : Nat) (entries : List (List UInt8 × List UInt8)) : Prop where
  count : s.heap.word dir RamfsDir.fileCount = entries.length
  entry : ∀ i x, entries[i]? = some x → s.heap.HasName (s.heap.fileAt dir i) x.1 ∧
    s.contents (s.heap.fileAt dir i) = x.2

variable {L : Layout} {R : Rodata} {s s' : Mount} {v : Volume} {c : FsCall} {r : Int} {l : Listing} {d : DirNode}

end Mount

/-! ### In a volume -/

def DirNode.entries (d : DirNode) : List (List UInt8 × List UInt8) := d.fileNodes.map fun f => (f.text, f.contents)

structure Volume.Listed (v : Volume) (l : Listing) : Prop where
  dirs : ∀ d ∈ v.dirs, l d.addr = d.entries
  others : ∀ a, a ∉ v.dirs.map DirNode.addr → l a = []

namespace DirNode

theorem createFile_addr (P : Pool) (d : DirNode) (text contents : List UInt8) :
    (d.createFile P text contents).2.1.addr = d.addr := by
  cases createFile_cases P d text contents with
  | inl h => rw [h.1]
  | inr h =>
    obtain ⟨f, files, -, -, -, -, he⟩ := h
    rw [he]

theorem deleteFile_addr (P : Pool) (d : DirNode) (text : List UInt8) : (d.deleteFile P text).2.addr = d.addr := by
  cases deleteFile_cases P d text with
  | inl h => rw [h.2]
  | inr h =>
    obtain ⟨i, f, -, -, he⟩ := h
    rw [he]
    rfl

theorem createFile_entries (P : Pool) (d : DirNode) (text contents : List UInt8) :
    (d.createFile P text contents).2.1.entries =
      if (d.createFile P text contents).2.2 = 0 then d.entries else d.entries ++ [(text, contents)] := by
  cases createFile_cases P d text contents with
  | inl h => rw [if_pos h.2, h.1]
  | inr h =>
    obtain ⟨f, files, hne, rfl, rfl, hret, he⟩ := h
    rw [if_neg (hret ▸ hne), he]
    exact List.map_append

theorem deleteFile_entries (P : Pool) (d : DirNode) (text : List UInt8) :
    (d.deleteFile P text).2.entries = d.entries.eraseP fun x => x.1 = text := by
  have hcomp : d.entries.eraseP (fun x => x.1 = text) =
      (d.fileNodes.eraseP fun f => f.text = text).map fun f => (f.text, f.contents) := List.eraseP_map
  rw [hcomp, List.eraseP_eq_eraseIdx]
  cases deleteFile_cases P d text with
  | inl h =>
    rw [h.2]
    unfold fileIdx at h
    rw [h.1]
    rfl
  | inr h =>
    obtain ⟨i, f, hidx, -, he⟩ := h
    rw [he]
    unfold fileIdx at hidx
    rw [hidx]
    rfl

end DirNode

namespace Volume
variable {v : Volume} {l : Listing} {k : Nat} {d d' e : DirNode}

/-- The directories besides the one that is put in place of `d`. -/
theorem mem_set (hv : (v.dirs.map DirNode.addr).Nodup) (hk : v.dirs[k]? = some d) (he : e ∈ v.dirs.set k d') :
    e = d' ∨ (e ∈ v.dirs ∧ e.addr ≠ d.addr) := by
  obtain ⟨j, hj⟩ := List.getElem?_of_mem he
  by_cases hjk : k = j
  · rw [← hjk, List.getElem?_set_self (List.getElem?_eq_some_iff.mp hk).1] at hj
    exact Or.inl (Option.some.inj hj).symm
  · rw [List.getElem?_set_ne hjk] at hj
    refine Or.inr ⟨List.mem_of_getElem? hj, fun haddr => hjk ?_⟩
    apply (List.getElem?_inj (by simpa using (List.getElem?_eq_some_iff.mp hk).1) hv).mp
    rw [List.getElem?_map, List.getElem?_map, hk, hj, Option.map_some, Option.map_some, haddr]

/-- One directory has another list. -/
theorem Listed.withDir (h : v.Listed l) (hv : (v.dirs.map DirNode.addr).Nodup) (hk : v.dirs[k]? = some d)
    (haddr : d'.addr = d.addr)
    (P : Pool) : (v.withDir k P d').Listed (Function.update l d.addr d'.entries) := by
  constructor
  · intro e he
    cases mem_set hv hk he with
    | inl he => rw [he, haddr, Function.update_self]
    | inr he => rw [Function.update_of_ne he.2, h.dirs e he.1]
  · intro a ha
    have hmap : (v.withDir k P d').dirs.map DirNode.addr = v.dirs.map DirNode.addr := by
      unfold Volume.withDir
      rw [List.map_set, haddr]
      apply set_same
      rw [List.getElem?_map, hk]
      rfl
    rw [hmap] at ha
    have hne : a ≠ d.addr := fun he => ha (he ▸ List.mem_map_of_mem (List.mem_of_getElem? hk))
    rw [Function.update_of_ne hne, h.others a ha]

end Volume

/-! ### Runs -/

namespace Mount
variable {L : Layout} {R : Rodata} {s s' : Mount} {v v' : Volume} {c : FsCall} {r : Int} {l : Listing} {d : DirNode}
  {tr : List (Mount × (FsCall × Int))}

theorem careful_of_onDirs (hc : c.OnDirs) : Careful (s, (c, r)) := by
  cases c with
  | read | write | seek | close | openFile => exact absurd hc not_false
  | _ => exact ⟨fun entry h => (nomatch h), trivial⟩

/-- A new directory has nothing in it. -/
theorem Good.listed_createDir {k : Nat} {text : List UInt8} (hg : s.Good L R v)
    (hg' : s'.Good L R (v.createDir k d text))
    (h : v.Listed l) (hk : v.dirs[k]? = some d) : (v.createDir k d text).Listed l := by
  have hv := hg.owns.dirs_nodup
  have hv' := hg'.owns.dirs_nodup
  have hdirs : ∀ x : DirNode, x.addr = d.addr → x.entries = d.entries → ∀ e ∈ v.dirs.set k x, l e.addr = e.entries := by
    intro x haddr hent e he
    cases Volume.mem_set hv hk he with
    | inl he => rw [he, haddr, hent, h.dirs d (List.mem_of_getElem? hk)]
    | inr he => exact h.dirs e he.1
  have haddrs : ∀ x : DirNode, x.addr = d.addr → (v.dirs.set k x).map DirNode.addr = v.dirs.map DirNode.addr := by
    intro x haddr
    rw [List.map_set, haddr]
    apply set_same
    rw [List.getElem?_map, hk]
    rfl
  unfold Volume.createDir at hv' ⊢
  cases DirNode.createDir_cases v.pool d text with
  | inl hsame =>
    rw [hsame.1, hsame.2, Option.toList_none, List.append_nil] at hv' ⊢
    refine ⟨hdirs d rfl rfl, fun a ha => h.others a ?_⟩
    rwa [haddrs d rfl] at ha
  | inr hnew =>
    obtain ⟨dir, name, subdirs, -, hnew, he⟩ := hnew
    rw [he, hnew, Option.toList_some] at hv' ⊢
    dsimp only at hv' ⊢
    have hmap := haddrs {d with subdirs := subdirs, subdirNodes := d.subdirNodes ++ [dir]} rfl
    rw [List.map_append, hmap, List.nodup_append] at hv'
    constructor
    · intro e he
      cases List.mem_append.mp he with
      | inl he => exact hdirs {d with subdirs := subdirs, subdirNodes := d.subdirNodes ++ [dir]} rfl rfl e he
      | inr he =>
        rw [List.mem_singleton.mp he]
        exact h.others dir fun hin => hv'.2.2 dir hin dir (List.mem_singleton_self _) rfl
    · intro a ha
      rw [List.map_append, hmap] at ha
      exact h.others a fun hin => ha (List.mem_append_left _ hin)

theorem Good.relist (hg : s.Good L R v) (h : v.Listed l) (hc : c.OnDirs) (hp : s.Permits L R c)
    (hcall : s.call L R c = some (s', r)) :
    ∃ v', s'.Good L R v' ∧ v'.Listed (s.relist l (c, r)) := by
  have hcare := careful_of_onDirs (s := s) (r := r) hc
  obtain ⟨v', hg', -, -, heff⟩ := hg.step hp hcare.1 hcare.2 hcall
  refine ⟨v', hg', ?_⟩
  have hv := hg.owns.dirs_nodup
  cases heff with
  | null hnull =>
    cases c with
    | createFile => exact h
    | deleteFile dir name =>
      unfold Mount.relist unlist
      dsimp only
      rw [if_pos (show dir = 0 ∨ name = 0 from hnull)]
      exact h
    | rm dir name =>
      unfold Mount.relist unlist
      dsimp only
      rw [if_pos (show dir = 0 ∨ name = 0 from hnull)]
      exact h
    | createDir | findDir => exact h
    | openFile => exact absurd hc not_false
    | _ => exact absurd hnull not_false
  | @createFile k d name data size text hk hd0 hname hdata hstr =>
    have hlist := h.withDir hv hk (d.createFile_addr v.pool text (s.mem.bytesAt data size))
      (d.createFile v.pool text (s.mem.bytesAt data size)).1
    rw [DirNode.createFile_entries] at hlist
    unfold Mount.relist
    dsimp only
    rw [hstr.strOf]
    by_cases h0 : (d.createFile v.pool text (s.mem.bytesAt data size)).2.2 = 0
    · rw [if_pos h0, ← h.dirs d (List.mem_of_getElem? hk), Function.update_eq_self] at hlist
      rw [if_pos (Int.natCast_eq_zero.mpr h0)]
      exact hlist
    · rw [if_neg h0, ← h.dirs d (List.mem_of_getElem? hk)] at hlist
      rw [if_neg fun hr => h0 (Int.natCast_eq_zero.mp hr)]
      exact hlist
  | createDir hk hd0 hname hstr => exact hg.listed_createDir hg' h hk
  | @deleteFile k d name text _ hk hd0 hname hc' hstr hdel =>
    have hlist := h.withDir hv hk (d.deleteFile_addr v.pool text) (d.deleteFile v.pool text).1
    rw [DirNode.deleteFile_entries, ← h.dirs d (List.mem_of_getElem? hk)] at hlist
    have hunlist : s.unlist l d.addr name = Function.update l d.addr ((l d.addr).eraseP fun x => x.1 = text) := by
      unfold unlist
      rw [if_neg fun h => h.elim hd0 hname, hstr.strOf]
    rw [← hunlist] at hlist
    cases hc' with
    | inl hc' =>
      rw [hc']
      exact hlist
    | inr hc' =>
      rw [hc']
      exact hlist
  | findDir => exact ⟨h.dirs, h.others⟩
  | store => exact h
  | openFile | stdin | terminal | readRefused | writeRefused | read | write | seek => exact absurd hc not_false
  | closed hfd =>
    cases c with
    | read | write | seek | close | openFile => exact absurd hc not_false
    | _ => cases hfd
  | close => exact absurd hc not_false

/-- A directory of the volume is its list in memory. -/
theorem Good.lists (hg : s.Good L R v) (hd : d ∈ v.dirs) : s.Lists d.addr d.entries := by
  constructor
  · rw [hg.fileCount hd]
    exact (List.length_map _).symm
  · intro i x hx
    obtain ⟨f, hf, rfl⟩ := Option.map_eq_some_iff.mp ((List.getElem?_map ..).symm.trans hx)
    rw [hg.fileAt hd hf]
    have hmem := List.mem_of_getElem? hf
    exact ⟨(hg.hasName_file hd hmem).mpr rfl, (hg.file hd hmem).contents⟩

theorem listed_of_run (h : Run (Fresh L R) (Step L R) tr s) (hdirs : ∀ x ∈ tr, x.2.1.OnDirs) :
    ∃ v, s.Good L R v ∧ v.Listed (listings tr) := by
  induction h with
  | start hf =>
    obtain ⟨P, name, hg⟩ := good_of_fresh hf
    refine ⟨_, hg, fun d hd => ?_, fun _ _ => rfl⟩
    rw [List.mem_singleton.mp hd]
    rfl
  | @next tr s e s' _ hstep ih =>
    obtain ⟨v, hg, hlist⟩ := ih fun x hx => hdirs x (List.mem_append_left _ hx)
    have hc := hdirs (s, e) (List.mem_append_right _ (List.mem_singleton_self _))
    obtain ⟨v', hg', hlist'⟩ := hg.relist hlist hc hstep.1 hstep.2
    refine ⟨v', hg', ?_⟩
    unfold listings at hlist' ⊢
    rw [List.foldl_append]
    exact hlist'

/-- After any calls on directories every directory's array represents the list that
the calls have made. -/
theorem run_lists (h : Run (Fresh L R) (Step L R) tr s) (hdirs : ∀ x ∈ tr, x.2.1.OnDirs) {dir : Nat}
    (hdir : s.heap.InTree s.root dir) : s.Lists dir (listings tr dir) := by
  obtain ⟨v, hg, hlist⟩ := listed_of_run h hdirs
  obtain ⟨d, hd, rfl⟩ := (hg.owns.inTree_iff hg.tree).mp hdir
  rw [hlist.dirs d hd]
  exact hg.lists hd

/-- Two files are created and the first is deleted. -/
theorem run_lists_two : ∃ tr s, Run (Fresh .kernelImage bootRodata) (Step .kernelImage bootRodata) tr s ∧
    s.Lists s.root [([0x62], [0xF0, 0xFF])] := by
  have hdec : rehearses (fun root => [.createFile root 0x1050 0x1070 4, .createFile root 0x1060 0x1077 2,
    .deleteFile root 0x1050])
      fun tr s => (∀ x ∈ tr, x.2.1.OnDirs) ∧ listings tr s.root = [([0x62], [0xF0, 0xFF])] := by decide +kernel
  obtain ⟨tr, s, hrun, hdec⟩ := run_rehearses hdec
  obtain ⟨hdirs, hlist⟩ := of_decide_eq_true hdec
  exact ⟨tr, s, hrun, hlist ▸ run_lists hrun hdirs .root⟩

end Mount
end ShompOS
