import Mathlib.Logic.Relation

/-! Code in memory, for any processor.

An operation changes the processor's state; which one is next is the address in it.
Operations that stand one after the other from an address on are executed one after the
other as long as none of them goes elsewhere (`steps_straight`), and one that does is a
step of its own (`Stands.step`). -/
namespace ShompOS

/-- States `σ` with an address in `α`, and operations `ω` on them. -/
structure Processor (σ ω α : Type) where
  /-- The operation, in a state whose address is already that of the next one. -/
  exec : ω → σ → σ
  pc : σ → α
  goto : α → σ → σ
  pc_goto : ∀ a s, pc (goto a s) = a
  goto_goto : ∀ a b s, goto a (goto b s) = goto a s
  goto_pc : ∀ s, goto (pc s) s = s

namespace Processor

/-- The processor with other operations. -/
def withOps {σ ω ω' α : Type} (M : Processor σ ω α) (exec : ω' → σ → σ) : Processor σ ω' α where
  exec := exec
  pc := M.pc
  goto := M.goto
  pc_goto := M.pc_goto
  goto_goto := M.goto_goto
  goto_pc := M.goto_pc

variable {σ ω α : Type} (M : Processor σ ω α) (text : α → Option (ω × α))

/-- The operations that stand one after the other from an address on; `text` has the
operation at an address and the address after it. -/
def Stands : α → List ω → Prop
  | _, [] => True
  | a, op :: rest => ∃ b, text a = some (op, b) ∧ Stands b rest

def Step (s s' : σ) : Prop := ∃ op next, text (M.pc s) = some (op, next) ∧ s' = M.exec op (M.goto next s)

abbrev Steps : σ → σ → Prop := Relation.ReflTransGen (M.Step text)

/-- Goes on with the next operation, and does the same wherever it stands. -/
def Straight (op : ω) : Prop := ∀ a s, M.exec op (M.goto a s) = M.goto a (M.exec op s)

/-- The operations on everything but the address. -/
def runOps (s : σ) (ops : List ω) : σ := ops.foldl (fun s op => M.exec op s) s

variable {M text} {s : σ}

theorem Stands.step {a : α} {op : ω} {rest : List ω} (h : Stands text a (op :: rest)) (s : σ) :
    ∃ b, Stands text b rest ∧ M.Step text (M.goto a s) (M.exec op (M.goto b s)) := by
  obtain ⟨b, hop, hrest⟩ := h
  refine ⟨b, hrest, op, b, ?_, ?_⟩
  · rw [M.pc_goto]
    exact hop
  · rw [M.goto_goto]

theorem steps_straight {ops rest : List ω} (h : ∀ op ∈ ops, M.Straight op) {a : α}
    (htext : Stands text a (ops ++ rest)) (s : σ) :
    ∃ b, Stands text b rest ∧ M.Steps text (M.goto a s) (M.goto b (M.runOps s ops)) := by
  induction ops generalizing a s with
  | nil => exact ⟨a, htext, .refl⟩
  | cons op ops ih =>
    obtain ⟨b, htext, hstep⟩ := Stands.step (M := M) htext s
    obtain ⟨c, hrest, hsteps⟩ := ih (fun op' hop' => h op' (List.mem_cons_of_mem _ hop')) htext (M.exec op s)
    rw [h op (List.mem_cons_self ..)] at hstep
    exact ⟨c, hrest, .head hstep hsteps⟩

/-- Straight code and then an operation that may go anywhere. -/
theorem steps_last {ops rest : List ω} {op : ω} (h : ∀ op ∈ ops, M.Straight op)
    (htext : Stands text (M.pc s) (ops ++ op :: rest)) :
    ∃ b, Stands text b rest ∧ M.Steps text s (M.exec op (M.goto b (M.runOps s ops))) := by
  obtain ⟨a, hlast, hsteps⟩ := steps_straight h htext s
  obtain ⟨b, hrest, hstep⟩ := hlast.step (M := M) (M.runOps s ops)
  rw [M.goto_pc] at hsteps
  exact ⟨b, hrest, hsteps.tail hstep⟩

end Processor
end ShompOS
