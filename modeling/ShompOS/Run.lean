import Mathlib.Data.List.Basic

/-! Runs of a system that takes one event at a time.

A run starts in an initial state and takes steps; its trace is the list of
states it left, each with the event it left by. What every step keeps holds at
the end of a run and in every state on the way; if the steps keep it only under
a condition on the state and the event, it holds in the runs that meet the
condition throughout. -/
namespace ShompOS

variable {σ ε : Type}

inductive Run (init : σ → Prop) (step : σ → ε → σ → Prop) : List (σ × ε) → σ → Prop
  | start {s} : init s → Run init step [] s
  | next {tr s e s'} : Run init step tr s → step s e s' → Run init step (tr ++ [(s, e)]) s'

namespace Run
variable {init : σ → Prop} {step : σ → ε → σ → Prop} {tr : List (σ × ε)} {s : σ}

/-- What holds at the start and is kept by the steps that meet `C` holds
throughout a run whose steps all meet `C`. -/
theorem invariant_of {I : σ → Prop} {C : σ → ε → Prop} (h : Run init step tr s)
    (h0 : ∀ s, init s → I s) (hs : ∀ s e s', I s → C s e → step s e s' → I s')
    (hC : ∀ x ∈ tr, C x.1 x.2) : I s ∧ ∀ x ∈ tr, I x.1 := by
  induction h with
  | start h => exact ⟨h0 _ h, fun x hx => (List.not_mem_nil hx).elim⟩
  | @next tr s e s' _ hstep ih =>
    obtain ⟨hI, hall⟩ := ih fun x hx => hC x (List.mem_append_left _ hx)
    refine ⟨hs s e s' hI (hC (s, e) (List.mem_append_right _ (List.mem_singleton_self _))) hstep,
      fun x hx => ?_⟩
    rcases List.mem_append.mp hx with hx | hx
    · exact hall x hx
    · rw [List.mem_singleton.mp hx]
      exact hI

theorem invariant {I : σ → Prop} (h : Run init step tr s) (h0 : ∀ s, init s → I s)
    (hs : ∀ s e s', I s → step s e s' → I s') : I s :=
  (h.invariant_of (C := fun _ _ => True) h0 (fun s e s' hI _ => hs s e s' hI) fun _ _ => trivial).1

/-- The start may be any that is allowed. -/
theorem mono {init' : σ → Prop} (h : Run init step tr s) (h0 : ∀ s, init s → init' s) : Run init' step tr s := by
  induction h with
  | start h => exact .start (h0 _ h)
  | next _ hstep ih => exact ih.next hstep

/-- A model that can follow every step follows the run, through the run's events. -/
theorem follows {τ : Type} {R : σ → τ → Prop} {model : τ → ε → τ} {t₀ : τ} (h : Run init step tr s)
    (h0 : ∀ s, init s → R s t₀) (hs : ∀ s t e s', R s t → step s e s' → R s' (model t e)) :
    R s (tr.foldl (fun t x => model t x.2) t₀) := by
  induction h with
  | start h => exact h0 _ h
  | next _ hstep ih =>
    rw [List.foldl_append]
    exact hs _ _ _ _ ih hstep

/-- Events that one after the other lead somewhere make a run. -/
theorem foldlM {f : σ → ε → Option σ} {es : List ε} {s' : σ} (h : Run init step tr s)
    (hf : ∀ s e s', e ∈ es → f s e = some s' → step s e s') (he : es.foldlM f s = some s') :
    ∃ tr', Run init step (tr ++ tr') s' ∧ tr'.map Prod.snd = es := by
  induction es generalizing s tr with
  | nil =>
    cases he
    exact ⟨[], by rwa [List.append_nil], rfl⟩
  | cons e es ih =>
    rw [List.foldlM_cons] at he
    obtain ⟨s₁, hs₁, he⟩ := Option.bind_eq_some_iff.mp he
    have hnext := h.next (hf s e s₁ (List.mem_cons_self ..) hs₁)
    obtain ⟨tr', hrun, hmap⟩ := ih hnext (fun s e s' hin => hf s e s' (List.mem_cons_of_mem _ hin)) he
    rw [List.append_assoc] at hrun
    exact ⟨(s, e) :: tr', hrun, congrArg (e :: ·) hmap⟩

/-- Calls one after the other, with what they return, as long as `p` lets them be made. -/
def replay {α β : Type} (f : σ → α → Option (σ × β)) (p : σ → α → Bool) (s : σ) :
    List α → Option (List (σ × (α × β)) × σ)
  | [] => some ([], s)
  | c :: cs =>
    if p s c then (f s c).bind fun x => (replay f p x.1 cs).map fun y => ((s, (c, x.2)) :: y.1, y.2) else none

/-- If each call that may be made is a step, they make a run. -/
theorem of_replay {α β : Type} {step : σ → α × β → σ → Prop} {f : σ → α → Option (σ × β)} {p : σ → α → Bool}
    {tr tr' : List (σ × (α × β))} {cs : List α} {s' : σ} (h : Run init step tr s)
    (hf : ∀ s c s' r, p s c → f s c = some (s', r) → step s (c, r) s') (he : replay f p s cs = some (tr', s')) :
    Run init step (tr ++ tr') s' ∧ (∀ x ∈ tr', p x.1 x.2.1) ∧ tr'.map (fun x => x.2.1) = cs := by
  induction cs generalizing s tr tr' with
  | nil =>
    cases he
    exact ⟨by rwa [List.append_nil], fun x hx => absurd hx List.not_mem_nil, rfl⟩
  | cons c cs ih =>
    unfold replay at he
    split at he
    · next hp =>
      obtain ⟨⟨s₁, r⟩, hcall, he⟩ := Option.bind_eq_some_iff.mp he
      obtain ⟨⟨tr₁, t⟩, hrest, he⟩ := Option.map_eq_some_iff.mp he
      cases he
      obtain ⟨hrun, hall, hcalls⟩ := ih (h.next (hf s c s₁ r hp hcall)) hrest
      rw [List.append_assoc] at hrun
      exact ⟨hrun, List.forall_mem_cons.mpr ⟨hp, hall⟩, congrArg (c :: ·) hcalls⟩
    · cases he

/-- The last step of a run, and the run before it. -/
theorem last {e : ε} {s' : σ} (h : Run init step (tr ++ [(s, e)]) s') :
    Run init step tr s ∧ step s e s' := by
  generalize htr : tr ++ [(s, e)] = tr' at h
  cases h with
  | start => exact absurd htr (List.append_ne_nil_of_right_ne_nil tr (List.cons_ne_nil _ _))
  | next hrun hstep =>
    obtain ⟨rfl, hx⟩ := List.append_inj' htr rfl
    cases hx
    exact ⟨hrun, hstep⟩

theorem of_nil (h : Run init step [] s) : init s := by
  generalize htr : ([] : List (σ × ε)) = tr at h
  cases h with
  | start h0 => exact h0
  | next => exact absurd htr.symm (List.append_ne_nil_of_right_ne_nil _ (List.cons_ne_nil _ _))

/-- A run goes on from the state that a part of it leads to. -/
theorem split {tr' : List (σ × ε)} (h : Run init step (tr ++ tr') s) :
    ∃ mid, Run init step tr mid ∧ Run (· = mid) step tr' s := by
  generalize htr : tr ++ tr' = full at h
  induction h generalizing tr' with
  | @start s h =>
    obtain ⟨rfl, rfl⟩ := List.append_eq_nil_iff.mp htr
    exact ⟨s, start h, start rfl⟩
  | @next full s e s' hrun hstep ih =>
    rcases List.eq_nil_or_concat tr' with rfl | ⟨before, x, rfl⟩
    · rw [List.append_nil] at htr
      subst htr
      exact ⟨s', hrun.next hstep, start rfl⟩
    · rw [List.concat_eq_append, ← List.append_assoc] at htr
      obtain ⟨hfull, hx⟩ := List.append_inj' htr rfl
      cases hx
      obtain ⟨mid, hpart, hrest⟩ := ih hfull
      rw [List.concat_eq_append]
      exact ⟨mid, hpart, hrest.next hstep⟩

/-- A run that starts somewhere leaves from there. -/
theorem head {s₀ : σ} {x : σ × ε} (h : Run (· = s₀) step (x :: tr) s) : x.1 = s₀ := by
  have hparts : Run (· = s₀) step ([] ++ [x] ++ tr) s := h
  obtain ⟨mid, hfirst, -⟩ := hparts.split
  exact hfirst.last.1.of_nil

/-- Every state a run leaves is itself reached, by the part of the run before it. -/
theorem visited (h : Run init step tr s) {x : σ × ε} (hx : x ∈ tr) :
    ∃ tr' s', Run init step tr' x.1 ∧ step x.1 x.2 s' ∧ tr' <+: tr := by
  induction h with
  | start => exact (List.not_mem_nil hx).elim
  | @next tr s e s' hrun hstep ih =>
    rcases List.mem_append.mp hx with hx | hx
    · obtain ⟨tr', s'', h1, h2, h3⟩ := ih hx
      exact ⟨tr', s'', h1, h2, h3.trans (List.prefix_append tr _)⟩
    · rw [List.mem_singleton.mp hx]
      exact ⟨tr, s', hrun, hstep, List.prefix_append tr _⟩

end Run
end ShompOS
