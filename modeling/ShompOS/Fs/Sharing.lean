import ShompOS.Fs.Steps
import ShompOS.Fs.Reading
import ShompOS.Heap.Lending

/-! A file system that is not alone on its heap.

What the others ask for, give back and write to their blocks is nothing to the volume
(`Good.lent`), and what the file system is called for writes to no block of theirs but
the buffer it is given (`Good.call_spares`). -/
namespace ShompOS
open Memory

/-- The bytes of the callers' memory that a call is to fill. -/
def FsCall.Fills : FsCall → Nat → Prop
  | .read _ buf count, x => buf ≤ x ∧ x < buf + count
  | .store a _, x => x = a
  | _, _ => False

namespace Mount
variable {L : Layout} {R : Rodata} {s s' : Mount} {v : Volume} {c : FsCall} {r : Int} {x : Nat}

/-- The mount with the heap as others leave it. -/
def withHeld (s : Mount) (h : Heap) (held : List (Nat × Nat)) : Mount := {s.withHeap h with held := held}

theorem Good.lent (hg : s.Good L R v) {P : Pool} {h : Heap} {held : List (Nat × Nat)} (hs : Settled L held P h v.cells)
    (hstatic : ∀ x, L.Static x → h.mem.byte x = s.mem.byte x) :
    (s.withHeld h held).Good L R {v with pool := P} :=
  ⟨hs, hg.table, hg.valid, hg.tree, hg.rodata.congr fun x hx _ => hstatic x hx⟩

/-- A call that returned what this one did left the callers' memory alone. -/
theorem Calm.spares {s₁ : Mount} {r₁ : Int} (hcalm : Calm L s s₁) (h : s.call L R c = some (s₁, r₁))
    (hcall : s.call L R c = some (s', r)) (hx : Callers L s.held x) : s'.mem.byte x = s.mem.byte x := by
  rw [h] at hcall
  cases hcall
  exact hcalm.memory x hx

end Mount
end ShompOS
