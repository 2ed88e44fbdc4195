import Parley.Proofs.Body.InStep
import Parley.Proofs.Conversation.Turn
import Parley.Proofs.Store.Copies

/-!
Nodes that are run on a copy of the variables. What comes out is what a run on the variables
themselves would have come to.
-/
namespace Parley

/-- A node comes to the same on two ways to hold variables that are in step, and leaves them in
step. -/
theorem Node.inStep_run {σ τ : Type} {rel : σ → τ → Prop} {here : Scope σ} {there : Scope τ}
    (inStep : here.InStep rel there) (n : Node) {s : σ} {t : τ} (related : rel s t)
    (random : RandomSource) :
    (n.run here s random).1 = (n.run there t random).1 ∧
      (n.run here s random).2.2 = (n.run there t random).2.2 ∧
        rel (n.run here s random).2.1 (n.run there t random).2.1 := by
  obtain ⟨same, paired⟩ := n.body.inStep_runFresh inStep true related random
  refine ⟨?_, paired.random, paired.vars⟩
  have results : (n.run here s random).1 =
      (n.body.runFresh here true s random).1.map fun () =>
        ⟨n.header, (n.body.runFresh here true s random).2.output⟩ := rfl
  rw [results, same, paired.output]
  rfl

namespace Talking

variable {c : Conversation} {store : LiveStore} {time : Option Instant}

end Talking
end Parley
