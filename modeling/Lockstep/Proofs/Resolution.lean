import Lockstep.Proofs.Run

/-!
# Resolved transactions

A commit and a rollback both leave the transaction without a lock on any key it names, and only
another preparation takes keys for it again (`not_holds_after`). Until then there is nothing left to
resolve: a commit or a rollback that comes once more, however late, answers as the first one did and
leaves the state as it is (`resolved_for_good`).
-/

namespace Lockstep.State

variable {s : State} {id : UInt64} {txn : Transaction}

theorem commit_of_not_holds (h : ∀ p ∈ txn.places, ¬ s.locks.Holds txn.id p) :
    s.commit txn = s := by
  rw [commit_eq, Locks.settlements_of_not_holds h, Locks.releaseAll_of_not_holds h]
  rfl

theorem rollback_of_not_holds (h : ∀ p ∈ txn.places, ¬ s.locks.Holds txn.id p) :
    s.rollback txn = s := by
  rw [rollback_eq, Locks.releaseAll_of_not_holds h]

/-- Along a run that does not prepare the transaction, a key it does not hold stays so. -/
theorem not_holds_after {p : Place} : ∀ {cs : List Command} {s : State},
    (∀ e ∈ cs.zip (s.answers cs), ¬ e.1.Prepares id e.2) → ¬ s.locks.Holds id p →
      ¬ (s.after cs).locks.Holds id p
  | [], _, _, hp => hp
  | c :: cs, s, hcs, hp => by
    rw [answers, List.zip_cons_cons, List.forall_mem_cons] at hcs
    rw [after_cons]
    exact not_holds_after hcs.2 ((step_execute s c).not_holds_of_unprepared hcs.1 hp)

/-- After a commit or a rollback the transaction holds no key that it names. From then on, in every
run that does not prepare a transaction with its id, a further commit or rollback answers true and
changes nothing. -/
theorem resolved_for_good (s : State) (txn : Transaction) (c : Command)
    (hc : c = .commit txn ∨ c = .rollback txn) :
    let resolved := (s.execute c).2
    (∀ p ∈ txn.places, ¬ resolved.locks.Holds txn.id p)
      ∧ ∀ cs, (∀ e ∈ cs.zip (resolved.answers cs), ¬ e.1.Prepares txn.id e.2) →
        let later := resolved.after cs
        later.execute (.commit txn) = (.ok (.flag true), later)
          ∧ later.execute (.rollback txn) = (.ok (.flag true), later) := by
  intro resolved
  have hfree : ∀ p ∈ txn.places, ¬ resolved.locks.Holds txn.id p := by
    have hlocks : resolved.locks = s.locks.releaseAll txn.id txn.updates := by
      rcases hc with rfl | rfl
      · exact congrArg State.locks (commit_eq s txn)
      · exact congrArg State.locks (rollback_eq s txn)
    intro p hp
    rw [hlocks]
    exact Locks.not_holds_releaseAll hp
  refine ⟨hfree, fun cs hcs => ?_⟩
  intro later
  have hlater : ∀ p ∈ txn.places, ¬ later.locks.Holds txn.id p :=
    fun p hp => not_holds_after hcs (hfree p hp)
  exact ⟨congrArg (_, ·) (commit_of_not_holds hlater),
    congrArg (_, ·) (rollback_of_not_holds hlater)⟩

theorem resolved_for_good_reused :
    let txn : Transaction := ⟨1, [⟨"t", "k", .put ⟨[1]⟩⟩, ⟨"u", "j", .remove⟩,
      ⟨"t", "k", .put ⟨[2]⟩⟩]⟩
    let rival : Transaction := ⟨2, [⟨"t", "k", .putIfValue ⟨[3]⟩ ⟨[2]⟩⟩]⟩
    let again : Transaction := ⟨1, [⟨"t", "k", .remove⟩, ⟨"u", "j", .put ⟨[4]⟩⟩]⟩
    let s : State := (∅ : State).after [.prepare txn]
    let cs : List Command := [.prepareAndCommit again, .commit txn, .write "t" "k" (.put ⟨[2]⟩),
      .prepare rival, .prepare txn, .rollback again]
    let resolved := (s.execute (.commit txn)).2
    (∀ e ∈ cs.zip (resolved.answers cs), ¬ e.1.Prepares 1 e.2)
      ∧ resolved.tables.get? "t" "k" = some ⟨⟨[2]⟩, 1⟩
      ∧ (resolved.after cs).tables.nextVersion = 3
      ∧ (resolved.after cs).execute (.commit txn) = (.ok (.flag true), resolved.after cs) := by
  intro txn rival again s cs resolved
  have hanswers : resolved.answers cs = [.ok (.flag true), .ok (.flag true), .ok (.value none),
      .ok (.flag true), .ok (.flag false), .ok (.flag true)] := by decide
  have hcs : ∀ e ∈ cs.zip (resolved.answers cs), ¬ e.1.Prepares 1 e.2 := by
    rw [hanswers]
    simp [cs, Command.Prepares, rival]
  obtain ⟨-, hlater⟩ := resolved_for_good s txn (.commit txn) (.inl rfl)
  exact ⟨hcs, by decide, by decide, (hlater cs hcs).1⟩

end Lockstep.State
