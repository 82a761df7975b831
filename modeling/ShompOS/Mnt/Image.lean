import ShompOS.Mnt.Stored
import ShompOS.Mnt.Symbols

/-! What `init_mnt` makes of the root.

The statements for a directory are run in the order of the tree, and each of them adds an
entry to the directory in its variable or, for want of memory, adds nothing; what would
be below a directory that did not come to be is lost too. A variable keeps its directory
while the statements for what is below it are run, since theirs are longer. -/
namespace ShompOS
open Memory

/-! ### In the kernel image -/

section Image
variable {L : Layout} {K : Linkage} {m : Memory}

/-- The files and the names below a directory are in the image. -/
structure Loaded (L : Layout) (K : Linkage) (m : Memory) (t : HostDir) (path : List UInt8) : Prop where
  file : ∀ f ∈ HostDir.files t path,
    Embedded L m (K.symbol (startSymbol (sed f.1))) (K.symbol (endSymbol (sed f.1))) f.2
  literal : ∀ line ∈ HostDir.body t path, ∀ name ∈ line.literal, Literal L m (K.literal name) name

variable {name : FileName} {contents path : List UInt8} {sub rest : HostDir}

theorem Loaded.afterFile (h : Loaded L K m (.file name contents rest) path) : Loaded L K m rest path :=
  ⟨fun f hf => h.file f (List.mem_cons_of_mem _ hf), fun line hline => h.literal line (List.mem_cons_of_mem _ hline)⟩

theorem Loaded.inDir (h : Loaded L K m (.dir name sub rest) path) : Loaded L K m sub (name.below path) :=
  ⟨fun f hf => h.file f (List.mem_append_left _ hf),
    fun line hline => h.literal line (List.mem_cons_of_mem _ (List.mem_append_left _ hline))⟩

theorem Loaded.afterDir (h : Loaded L K m (.dir name sub rest) path) : Loaded L K m rest path :=
  ⟨fun f hf => h.file f (List.mem_append_right _ hf),
    fun line hline => h.literal line (List.mem_cons_of_mem _ (List.mem_append_right _ hline))⟩

end Image

namespace Mount
variable {L : Layout} {R : Rodata} {K : Linkage} {s s₁ s' : Mount} {v : Volume} {m : Memory}
  {vars vars₁ vars' : List UInt8 → Nat} {lines lines' : List CLine} {tr tr' : List (Mount × (FsCall × Int))}

/-! ### Statements one after another -/

/-- The statements are run, whatever is behind them. -/
def Performs (L : Layout) (R : Rodata) (K : Linkage) (vars : List UInt8 → Nat) (s : Mount) (lines : List CLine)
    (tr : List (Mount × (FsCall × Int))) (vars' : List UInt8 → Nat) (s' : Mount) : Prop :=
  ∀ after, exec L R K vars s (lines ++ after) = (exec L R K vars' s' after).map fun (tr', u) => (tr ++ tr', u)

theorem performs_nil : Performs L R K vars s [] [] vars s := by
  intro after
  rw [List.nil_append]
  cases exec L R K vars s after <;> rfl

theorem Performs.append (h : Performs L R K vars s lines tr vars₁ s₁)
    (h' : Performs L R K vars₁ s₁ lines' tr' vars' s') :
    Performs L R K vars s (lines ++ lines') (tr ++ tr') vars' s' := by
  intro after
  rw [List.append_assoc, h, h', Option.map_map]
  apply congrArg (Option.map · _)
  funext x
  exact congrArg (·, x.2) (List.append_assoc ..).symm

theorem exec_createFile (vars : List UInt8 → Nat) (s : Mount) (dir name data stop start : List UInt8)
    (lines : List CLine) {c : FsCall} (hc : c = .createFile (vars dir) (K.literal name) (K.symbol data)
      (wrap (K.symbol stop + (addressSpace - K.symbol start)))) :
    exec L R K vars s (.createFile dir name data stop start :: lines) =
      (s.call L R c).bind fun x => (exec L R K vars x.1 lines).map fun y => ((s, (c, x.2)) :: y.1, y.2) := by
  rw [hc]
  rfl

theorem exec_createDir (vars : List UInt8 → Nat) (s : Mount) (new dir name : List UInt8) (lines : List CLine)
    {c : FsCall} (hc : c = .createDir (vars dir) (K.literal name)) :
    exec L R K vars s (.createDir new dir name :: lines) =
      (s.call L R c).bind fun x =>
        (exec L R K (Function.update vars new x.2.toNat) x.1 lines).map fun y => ((s, (c, x.2)) :: y.1, y.2) := by
  rw [hc]
  rfl

theorem Performs.createFile {dir name data stop start : List UInt8} {size : Nat} {r : Int}
    (hsize : wrap (K.symbol stop + (addressSpace - K.symbol start)) = size)
    (hcall : s.call L R (.createFile (vars dir) (K.literal name) (K.symbol data) size) = some (s₁, r))
    (h : Performs L R K vars s₁ lines tr vars' s') :
    Performs L R K vars s (.createFile dir name data stop start :: lines)
      ((s, (.createFile (vars dir) (K.literal name) (K.symbol data) size, r)) :: tr) vars' s' := by
  intro after
  rw [List.cons_append, exec_createFile vars s dir name data stop start (lines ++ after) (by rw [hsize]), hcall,
    Option.bind_some, h, Option.map_map]
  rfl

theorem Performs.createDir {new dir name : List UInt8} {r : Nat}
    (hcall : s.call L R (.createDir (vars dir) (K.literal name)) = some (s₁, (r : Int)))
    (h : Performs L R K (Function.update vars new r) s₁ lines tr vars' s') :
    Performs L R K vars s (.createDir new dir name :: lines)
      ((s, (.createDir (vars dir) (K.literal name), (r : Int))) :: tr) vars' s' := by
  intro after
  rw [List.cons_append, exec_createDir vars s new dir name (lines ++ after) rfl, hcall, Option.bind_some]
  dsimp only
  rw [Int.toNat_natCast, h, Option.map_map]
  rfl

/-! ### The statements for a directory -/

/-- The variables of a directory and of those above it are as before. -/
def KeepsVars (path : List UInt8) (vars vars' : List UInt8 → Nat) : Prop :=
  ∀ x, x.length ≤ path.length → vars' x = vars x

theorem keepsVars_update (path : List UInt8) (name : FileName) (vars : List UInt8 → Nat) (r : Nat) :
    KeepsVars path vars (Function.update vars (sed (name.below path)) r) := by
  intro x hx
  apply Function.update_of_ne
  intro he
  rw [he, sed_length] at hx
  exact absurd (name.below_length path) (Nat.not_lt.mpr hx)

theorem KeepsVars.trans {path : List UInt8} (h : KeepsVars path vars vars₁) (h' : KeepsVars path vars₁ vars') :
    KeepsVars path vars vars' :=
  fun x hx => (h' x hx).trans (h x hx)

theorem KeepsVars.above {path : List UInt8} {name : FileName} (h : KeepsVars (name.below path) vars vars') :
    KeepsVars path vars vars' :=
  fun x hx => h x (Nat.le_trans hx (Nat.le_of_lt (name.below_length path)))

theorem KeepsVars.dir {path : List UInt8} (h : KeepsVars path vars vars') : vars' (sed path) = vars (sed path) :=
  h _ (Nat.le_of_eq (sed_length path))

/-- Below a directory that is `NULL` nothing happens. -/
theorem performs_null (t : HostDir) (path : List UInt8) (s : Mount) (vars : List UInt8 → Nat)
    (hnull : vars (sed path) = 0) :
    ∃ tr vars', Performs L R K vars s (HostDir.body t path) tr vars' s ∧ KeepsVars path vars vars' := by
  induction t generalizing path vars with
  | empty => exact ⟨[], vars, performs_nil, fun _ _ => rfl⟩
  | file name contents rest ih =>
    obtain ⟨tr, vars', hrest, hkeeps⟩ := ih path vars hnull
    exact ⟨_, vars', hrest.createFile rfl (call_null (Or.inl hnull)), hkeeps⟩
  | dir name sub rest ihs ihr =>
    have hkeeps := keepsVars_update path name vars 0
    obtain ⟨tr₁, vars₁, hsub, hkeeps₁⟩ :=
      ihs (name.below path) (Function.update vars (sed (name.below path)) 0) (Function.update_self ..)
    have hkeeps₁ := hkeeps.trans hkeeps₁.above
    obtain ⟨tr₂, vars₂, hrest, hkeeps₂⟩ := ihr path vars₁ (hkeeps₁.dir.trans hnull)
    exact ⟨_, vars₂, (hsub.append hrest).createDir (call_null (Or.inl hnull)), hkeeps₁.trans hkeeps₂⟩

/-- The statements for a directory grow the tree in the store, as far as there is memory. -/
theorem Good.performs (t : HostDir) {path : List UInt8} (hload : Loaded L K m t path) (hg : s.Good L R v)
    (hm : ∀ x, L.Static x → s.mem.byte x = m.byte x) (vars : List UInt8 → Nat)
    (hdir : v.store (vars (sed path)) ≠ none) :
    ∃ tr vars' s' v' kept, Performs L R K vars s (HostDir.body t path) tr vars' s' ∧ s'.Good L R v' ∧ Calm L s s' ∧
      KeepsVars path vars vars' ∧
      FileTree.Grown v.store (vars (sed path)) (t.map FileName.text) v'.store kept ∧
      (kept ↔ ∀ x ∈ tr, x.1.Supplies L x.2.1) := by
  induction t generalizing path s v vars with
  | empty =>
    exact ⟨[], vars, s, v, True, performs_nil, hg, .refl s, fun _ _ => rfl, .empty, by simp⟩
  | file name contents rest ih =>
    obtain ⟨n, hnode⟩ := Option.ne_none_iff_exists'.mp hdir
    have hobject := (hload.file _ (List.mem_cons_self ..)).congr hm
    have hliteral := (hload.literal _ (List.mem_cons_self ..) _ rfl).congr hm
    obtain ⟨s₁, v₁, r, hcall, hg₁, hcalm, hcases⟩ := hg.createFile_store hnode hliteral hobject
    have hdir₁ : v₁.store (vars (sed path)) ≠ none := by
      rcases hcases with ⟨-, hstore⟩ | ⟨-, hstore⟩ <;> simp [hstore, hnode]
    obtain ⟨tr, vars', s', v', kept, hrest, hg', hcalm', hkeeps, hgrown, hkept⟩ :=
      ih hload.afterFile hg₁ (hcalm.image hm) vars hdir₁
    have hperforms := hrest.createFile hobject.size hcall
    cases hcases with
    | inl hlost =>
      obtain ⟨hsupplies, hstore⟩ := hlost
      rw [hstore] at hgrown
      refine ⟨_, vars', s', v', False, hperforms, hg', hcalm.trans hcalm', hkeeps, .fileLost hgrown, ?_⟩
      rw [List.forall_mem_cons]
      exact iff_of_false not_false fun h => hsupplies h.1
    | inr hmade =>
      obtain ⟨hsupplies, hstore⟩ := hmade
      rw [hstore] at hgrown
      refine ⟨_, vars', s', v', kept, hperforms, hg', hcalm.trans hcalm', hkeeps, .file hnode hgrown, ?_⟩
      rw [List.forall_mem_cons, hkept]
      exact (and_iff_right hsupplies).symm
  | dir name sub rest ihs ihr =>
    obtain ⟨n, hnode⟩ := Option.ne_none_iff_exists'.mp hdir
    have hliteral := (hload.literal _ (List.mem_cons_self ..) _ rfl).congr hm
    obtain ⟨s₁, v₁, r, hcall, hg₁, hcalm, hcases⟩ := hg.createDir_store hnode hliteral
    have hm₁ := hcalm.image hm
    have hkeeps := keepsVars_update path name vars r
    have hvar : Function.update vars (sed (name.below path)) r (sed (name.below path)) = r := Function.update_self ..
    cases hcases with
    | inl hlost =>
      -- all that is below it is lost as well
      obtain ⟨hnull, hsupplies, hstore⟩ := hlost
      obtain ⟨tr₁, vars₁, hsub, hkeeps₁⟩ := performs_null (L := L) (R := R) (K := K) sub (name.below path) s₁ _
        (hvar.trans hnull)
      have hkeeps₁ := hkeeps.trans hkeeps₁.above
      have hdir₁ : v₁.store (vars₁ (sed path)) ≠ none := by
        rw [hkeeps₁.dir, hstore]
        exact hdir
      obtain ⟨tr₂, vars', s', v', kept, hrest, hg', hcalm', hkeeps', hgrown, hkept⟩ :=
        ihr hload.afterDir hg₁ hm₁ vars₁ hdir₁
      rw [hkeeps₁.dir, hstore] at hgrown
      refine ⟨_, vars', s', v', False, (hsub.append hrest).createDir hcall, hg', hcalm.trans hcalm',
        hkeeps₁.trans hkeeps', .dirLost hgrown, ?_⟩
      rw [List.forall_mem_cons]
      exact iff_of_false not_false fun h => hsupplies h.1
    | inr hmade =>
      obtain ⟨name', hnew, hstore, hsupplies⟩ := hmade
      have hne : r ≠ vars (sed path) := fun he => hdir (he ▸ hnew)
      have hsub_dir : v₁.store (Function.update vars (sed (name.below path)) r (sed (name.below path))) ≠ none := by
        rw [hvar, hstore, FileTree.Store.addDir_new hne]
        exact Option.some_ne_none _
      obtain ⟨tr₁, vars₁, s₂, v₂, keptSub, hsub, hg₂, hcalm₂, hkeeps₁, hgrown₁, hkept₁⟩ :=
        ihs hload.inDir hg₁ hm₁ _ hsub_dir
      rw [hvar, hstore] at hgrown₁
      have hkeeps₁ := hkeeps.trans hkeeps₁.above
      have hdir₂ : v₂.store (vars₁ (sed path)) ≠ none := by
        rw [hkeeps₁.dir]
        exact ((FileTree.Store.later_addDir hnode hnew name').trans hgrown₁.later).ne_none hdir
      obtain ⟨tr₂, vars', s', v', keptRest, hrest, hg', hcalm', hkeeps', hgrown₂, hkept₂⟩ :=
        ihr hload.afterDir hg₂ (hcalm₂.image hm₁) vars₁ hdir₂
      rw [hkeeps₁.dir] at hgrown₂
      refine ⟨_, vars', s', v', _, (hsub.append hrest).createDir hcall, hg', (hcalm.trans hcalm₂).trans hcalm',
        hkeeps₁.trans hkeeps', .dir hnode hnew hgrown₁ hgrown₂, ?_⟩
      rw [List.forall_mem_cons, List.forall_mem_append, hsupplies, hkept₁, hkept₂]

end Mount
end ShompOS
