import Lockstep.Replica
import Mathlib.Data.List.Basic

/-!
# Entries of the log

`Applies` lists what can come of an entry, each with the answer and the replica it leaves: it cannot
be read, comes too late, is above the limit, or is executed.

Which of them it is, and with what answer, depends on the state, the last index and the limit on
transactions, and on nothing else a replica keeps (`Agree.applyEncoded`).
-/

namespace Lockstep.Replica

variable {a b r : Replica} {index : UInt64} {payload : Bytes}

/-- The ways an entry can go: the answer and the replica it leaves. -/
inductive Applies (r : Replica) (index : UInt64) (payload : Bytes) :
    Except Error Applied × Replica → Prop
  | undecodable {e : Error} (h : Command.decode payload = .error e) :
    Applies r index payload (.error e, r.record .protocolViolation)
  | late {c : Command} (hd : Command.decode payload = .ok c) (h : index ≤ r.lastApplied) :
    Applies r index payload (.error (.applyOrder index r.lastApplied), r)
  | oversized {c : Command} (hd : Command.decode payload = .ok c) (hi : r.lastApplied < index)
    (h : r.isOversized c = true) :
    Applies r index payload (.ok ⟨index, .ok (.flag false)⟩, (r.record .oversized).advance index)
  | executed {c : Command} (hd : Command.decode payload = .ok c) (hi : r.lastApplied < index)
    (h : r.isOversized c = false) :
    Applies r index payload (.ok ⟨index, (r.state.execute c).1⟩, (r.execute c).2.advance index)

theorem applies_applyEncoded (r : Replica) (index : UInt64) (payload : Bytes) :
    Applies r index payload (r.applyEncoded index payload) := by
  unfold applyEncoded
  split
  · rename_i c hd
    unfold apply
    split_ifs with hi ho
    · exact .late hd hi
    · exact .oversized hd (UInt64.not_le.1 hi) ho
    · exact .executed hd (UInt64.not_le.1 hi) (Bool.eq_false_iff.2 ho)
  · rename_i e hd
    exact .undecodable hd

theorem Applies.config {x : Except Error Applied × Replica} (h : Applies r index payload x) :
    x.2.config = r.config := by
  cases h <;> rfl

/-- The replicas agree on all that the outcome of an entry depends on. -/
structure Agree (a b : Replica) : Prop where
  state : a.state = b.state
  lastApplied : a.lastApplied = b.lastApplied
  limit : a.config.maxTransactionUpdates = b.config.maxTransactionUpdates

theorem Agree.isOversized (h : Agree a b) (c : Command) : a.isOversized c = b.isOversized c := by
  simp only [Replica.isOversized, Config.transactionLimit, h.limit]

theorem Agree.apply (h : Agree a b) (index : UInt64) (c : Command) :
    (a.apply index c).1 = (b.apply index c).1 ∧ Agree (a.apply index c).2 (b.apply index c).2 := by
  unfold Replica.apply
  rw [← h.lastApplied, ← h.isOversized c]
  split_ifs
  · exact ⟨rfl, h⟩
  · exact ⟨rfl, h.state, rfl, h.limit⟩
  · simp only [execute, ← h.state]
    exact ⟨trivial, rfl, rfl, h.limit⟩

theorem Agree.applyEncoded (h : Agree a b) (index : UInt64) (payload : Bytes) :
    (a.applyEncoded index payload).1 = (b.applyEncoded index payload).1
      ∧ Agree (a.applyEncoded index payload).2 (b.applyEncoded index payload).2 := by
  unfold Replica.applyEncoded
  split
  · exact h.apply index _
  · exact ⟨rfl, h.state, h.lastApplied, h.limit⟩

end Lockstep.Replica
