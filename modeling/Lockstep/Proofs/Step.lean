import Lockstep.Proofs.Locks
import Lockstep.Proofs.Tables
import Lockstep.State.Execute

/-!
# What a command can do

A commit makes the writes that wait in the locks its transaction holds, one for each key, and lets
the keys go (`commit_eq`); a rollback only lets them go (`rollback_eq`). Preparing takes all keys
of the transaction or none (`verdict_eq_prepared`).

`Step` lists the ways a command can go, each with its answer and the state it leaves. Executing a
command takes one of them (`step_execute`), so what holds of every step holds of every command.
-/

namespace Lockstep

/-- The transaction a command is about. -/
def Command.transaction? : Command → Option Transaction
  | .prepare txn | .commit txn | .rollback txn | .prepareAndCommit txn => some txn
  | _ => none

namespace State

variable {s : State} {txn : Transaction}

theorem foldl_commitKey (id : UInt64) : ∀ (us : List Update) (s : State),
    us.foldl (commitKey id) s
      = { s with
          tables := s.tables.settleAll (s.locks.settlements id us)
          locks := s.locks.releaseAll id us }
  | [], s => rfl
  | u :: us, s => by
    rw [List.foldl_cons, foldl_commitKey id us, Locks.releaseAll_cons]
    by_cases h : s.locks.Holds id (u.table, u.key)
    · obtain ⟨w, hw⟩ := h
      have hr := Locks.release?_of_holds hw
      rw [Locks.settlements_cons_of_holds hw, Tables.settleAll_cons]
      simp only [commitKey, Locks.release, hr, Option.map_some, Option.getD_some]
    · have hr := Locks.release?_of_not_holds h
      rw [Locks.settlements_cons_of_not_holds h]
      simp only [commitKey, Locks.release, hr, Option.map_none, Option.getD_none]

theorem foldl_rollbackKey (id : UInt64) : ∀ (us : List Update) (s : State),
    us.foldl (rollbackKey id) s = { s with locks := s.locks.releaseAll id us }
  | [], s => rfl
  | u :: us, s => by
    rw [List.foldl_cons, foldl_rollbackKey id us, Locks.releaseAll_cons, rollbackKey, Locks.release]
    rcases s.locks.release? u.table u.key id with _ | ⟨w, l⟩ <;> rfl

theorem commit_eq (s : State) (txn : Transaction) : s.commit txn
    = { s with
        tables := s.tables.settleAll (s.locks.settlements txn.id txn.updates)
        locks := s.locks.releaseAll txn.id txn.updates } :=
  foldl_commitKey txn.id txn.updates s

theorem rollback_eq (s : State) (txn : Transaction) :
    s.rollback txn = { s with locks := s.locks.releaseAll txn.id txn.updates } :=
  foldl_rollbackKey txn.id txn.updates s

theorem lockAll_eq (s : State) (txn : Transaction) :
    s.lockAll txn = { s with locks := s.locks.lockAll txn.id txn.updates } := rfl

/-- A transaction is prepared if no key of it is held by another and every condition holds. -/
theorem verdict_eq_prepared : s.verdict txn = .prepared ↔
    (∀ p ∈ txn.places, ∀ lock, s.locks.get? p.1 p.2 = some lock → lock.owner = txn.id)
      ∧ ∀ u ∈ txn.updates, u.kind.holds (s.tables.get? u.table u.key) = true := by
  have hfree : (txn.updates.any fun u => s.locks.isLockedByAnother u.table u.key txn.id) = true ↔
      ¬ ∀ p ∈ txn.places, ∀ lock, s.locks.get? p.1 p.2 = some lock → lock.owner = txn.id := by
    rw [List.any_eq_true]
    constructor
    · rintro ⟨u, hu, h⟩ hall
      obtain ⟨lock, hl, hne⟩ := Locks.isLockedByAnother_iff.1 h
      exact hne (hall _ (Transaction.place_mem_places hu) lock hl)
    · intro h
      by_contra hnone
      refine h fun p hp lock hl => ?_
      obtain ⟨u, hu, rfl⟩ := Transaction.mem_places.1 hp
      by_contra hne
      exact hnone ⟨u, hu, Locks.isLockedByAnother_iff.2 ⟨lock, hl, hne⟩⟩
  unfold verdict
  split_ifs with h1 h2
  · simp only [false_iff]
    exact fun h => hfree.1 h1 h.1
  · rw [hfree, not_not] at h1
    exact iff_of_true rfl ⟨h1, List.all_eq_true.1 h2⟩
  · simp only [false_iff]
    exact fun h => h2 (List.all_eq_true.2 h.2)

theorem tryPrepare_of_prepared (h : s.verdict txn = .prepared) :
    s.tryPrepare txn = (.prepared, s.lockAll txn) := by
  rw [tryPrepare, h]

theorem tryPrepare_of_refused (h : s.verdict txn ≠ .prepared) :
    s.tryPrepare txn = (s.verdict txn, s) := by
  unfold tryPrepare
  split
  · rename_i hv
    exact absurd hv h
  · rfl

theorem prepareAndCommit_of_refused (h : s.verdict txn ≠ .prepared) :
    s.prepareAndCommit txn = (false, s) := by
  rw [prepareAndCommit, tryPrepare_of_refused h]
  rcases hv : s.verdict txn with _ | _ | _
  · exact absurd hv h
  · rfl
  · rfl

theorem settlements_lockAll (l : Locks) (txn : Transaction) :
    (l.lockAll txn.id txn.updates).settlements txn.id txn.updates = txn.settlements :=
  Locks.settlements_eq fun _ hp => Locks.get?_lockAll_of_mem hp

/-- Prepared and committed at once, a transaction makes its writes and no lock remains. -/
theorem prepareAndCommit_of_prepared (h : s.verdict txn = .prepared) :
    s.prepareAndCommit txn = (true, { s with
      tables := s.tables.settleAll txn.settlements
      locks := (s.locks.lockAll txn.id txn.updates).releaseAll txn.id txn.updates }) := by
  rw [prepareAndCommit, tryPrepare_of_prepared h]
  simp only [commit_eq, lockAll_eq, settlements_lockAll]

/-- The command and the operation go through the two phases each on its own, and come to the
same. -/
theorem execute_prepareAndCommit (s : State) (txn : Transaction) :
    s.execute (.prepareAndCommit txn)
      = (.ok (.flag (s.prepareAndCommit txn).1), (s.prepareAndCommit txn).2) := by
  simp only [execute, prepareAndCommit]
  rcases s.tryPrepare txn with ⟨_ | _ | _, s'⟩ <;> rfl

/-- The ways a command can go: its answer and the state it leaves. -/
inductive Step (s : State) : Command → Outcome Output × State → Prop
  | query (q : Query) : Step s (.query q) (.ok (s.answer q), s)
  | lockedWrite {t k : String} {w : KeyWrite} (h : s.locks.isLocked t k = true) :
    Step s (.write t k w) (.locked, s)
  | write {t k : String} {w : KeyWrite} (h : s.locks.get? t k = none) :
    Step s (.write t k w) (.ok (s.tables.write t k w).1,
      { s with tables := (s.tables.write t k w).2 })
  | lockedClear {t : String} (h : s.locks.hasLocks t = true) : Step s (.clear t) (.locked, s)
  | clear {t : String} (h : s.locks.hasLocks t = false) :
    Step s (.clear t) (.ok .unit, { s with tables := s.tables.clear t })
  | nextValue (name : String) : Step s (.nextValue name)
      (.ok (.counter (s.counters.next name).1), { s with counters := (s.counters.next name).2 })
  | currentValue (name : String) : Step s (.currentValue name)
      (.ok (.counter (s.counters.current name).1),
        { s with counters := (s.counters.current name).2 })
  | refusal {txn : Transaction} (h : s.verdict txn ≠ .prepared) :
    Step s (.prepare txn) (.ok (.flag false), s)
  | prepare {txn : Transaction} (h : s.verdict txn = .prepared) :
    Step s (.prepare txn)
      (.ok (.flag true), { s with locks := s.locks.lockAll txn.id txn.updates })
  | commit (txn : Transaction) : Step s (.commit txn) (.ok (.flag true), { s with
      tables := s.tables.settleAll (s.locks.settlements txn.id txn.updates)
      locks := s.locks.releaseAll txn.id txn.updates })
  | rollback (txn : Transaction) : Step s (.rollback txn)
      (.ok (.flag true), { s with locks := s.locks.releaseAll txn.id txn.updates })
  | refusedBatch {txn : Transaction} (h : s.verdict txn ≠ .prepared) :
    Step s (.prepareAndCommit txn) (.ok (.flag false), s)
  | batch {txn : Transaction} (h : s.verdict txn = .prepared) :
    Step s (.prepareAndCommit txn) (.ok (.flag true), { s with
      tables := s.tables.settleAll txn.settlements
      locks := (s.locks.lockAll txn.id txn.updates).releaseAll txn.id txn.updates })

theorem step_write (t k : String) (w : KeyWrite) : Step s (.write t k w) (s.write t k w) := by
  unfold State.write
  split_ifs with h
  · exact .lockedWrite h
  · exact .write (by simpa [Locks.isLocked] using h)

theorem step_clear (t : String) : Step s (.clear t) (s.clear t) := by
  unfold State.clear
  split_ifs with h
  · exact .lockedClear h
  · exact .clear (by simpa using h)

theorem step_execute (s : State) : ∀ c : Command, Step s c (s.execute c)
  | .query q => .query q
  | .write t k w => step_write t k w
  | .clear t => step_clear t
  | .nextValue name => .nextValue name
  | .currentValue name => .currentValue name
  | .prepare txn => by
    by_cases h : s.verdict txn = .prepared
    · simp only [execute, tryPrepare_of_prepared h]
      exact .prepare h
    · have hf : (s.verdict txn).isPrepared = false := by simpa [PrepareOutcome.isPrepared] using h
      simp only [execute, tryPrepare_of_refused h, hf]
      exact .refusal h
  | .commit txn => by
    simp only [execute, commit_eq]
    exact .commit txn
  | .rollback txn => by
    simp only [execute, rollback_eq]
    exact .rollback txn
  | .prepareAndCommit txn => by
    rw [execute_prepareAndCommit]
    by_cases h : s.verdict txn = .prepared
    · rw [prepareAndCommit_of_prepared h]
      exact .batch h
    · rw [prepareAndCommit_of_refused h]
      exact .refusedBatch h

end State

end Lockstep
