import SystemDev.Rdma.Message

/-!
# Work completions

Every work request that is posted to a queue pair ends in a work completion, which the
verbs layer adds to the completion queue. A received message stands in the receive buffer
when its completion is added; the completion carries it here.
-/

namespace SystemDev.Rdma

/-- `enum ib_wc_opcode`, as the handlers tell its members apart. -/
inductive WcOpcode (n : ℕ)
  | recv (byteLen : ℕ) (recvBuf : Message n)
  | send
  | rdmaRead
  | rdmaWrite
  | other

/-- What a handler reads of `struct ib_wc`. -/
structure Wc (n : ℕ) where
  wrId : ℕ
  status : ℕ
  opcode : WcOpcode n

/-- `IB_WC_SUCCESS`. -/
def wcSuccess : ℕ := 0

/-- The opcode is one of those the handlers know. -/
def WcOpcode.expected {n : ℕ} : WcOpcode n → Bool
  | .other => false
  | _ => true

/-- A completion without an error status and with an opcode that the handlers know. -/
def Wc.Good {n : ℕ} (wc : Wc n) : Prop := wc.status = wcSuccess ∧ wc.opcode.expected

instance {n : ℕ} (wc : Wc n) : Decidable wc.Good := inferInstanceAs (Decidable (_ ∧ _))

end SystemDev.Rdma
