import Lockstep.Proofs.Preparation
import Lockstep.Proofs.Settling

/-!
# Transactions without locks

To prepare a transaction and commit it at once comes to the same as making its writes without any
locks (`Tables.batch`). Locks taken in between cancel out
(`Locks.Coherent.releaseAll_lockAll`), so what is left of the locks is what a commit or a rollback
would have left.
-/

namespace Lockstep

/-- Locks that a transaction takes and lets go again leave nothing behind, but those that it held
before are gone with them. -/
theorem Locks.Coherent.releaseAll_lockAll {l : Locks} (h : l.Coherent) {id : UInt64}
    {us : List Update}
    (hown : ∀ p ∈ places us, ∀ lock, l.get? p.1 p.2 = some lock → lock.owner = id) :
    (l.lockAll id us).releaseAll id us = l.releaseAll id us := by
  refine h.lockAll.releaseAll.ext h.releaseAll fun t k => ?_
  rw [get?_releaseAll_lockAll, get?_releaseAll]
  by_cases hp : (t, k) ∈ places us
  · rw [if_pos hp]
    rcases hl : l.get? t k with _ | ⟨owner, w⟩
    · exact (ite_self _).symm
    · obtain rfl := hown _ hp _ hl
      rw [if_pos ⟨hp, w, hl⟩]
  · rw [if_neg hp, if_neg fun hh => hp hh.1]

namespace State

variable {s : State} {txn : Transaction}

theorem prepareAndCommit_eq (hs : s.locks.Coherent) (txn : Transaction) :
    s.prepareAndCommit txn = if s.verdict txn = .prepared then
      (true, { s with
        tables := s.tables.batch txn, locks := s.locks.releaseAll txn.id txn.updates })
    else (false, s) := by
  split_ifs with hv
  · rw [prepareAndCommit_of_prepared hv, Tables.settleAll_settlements,
      hs.releaseAll_lockAll (verdict_eq_prepared.1 hv).1]
  · exact prepareAndCommit_of_refused hv

/-- A transaction that is prepared and committed at once goes through just if no other holds a key
it names and all its conditions are true of the entries there are, and if not, the state stays as it
was. If it does, the tables are those that come of making its last update to each key, one after
another and without any locks. The counters stay, and of the locks those are gone that the
transaction held on the keys it names, and no other. -/
theorem batch_without_locks (hs : Reachable s) (txn : Transaction) :
    let committed := (s.prepareAndCommit txn).1
    let next := (s.prepareAndCommit txn).2
    s.execute (.prepareAndCommit txn) = (.ok (.flag committed), next)
      ∧ (committed = true ↔ ¬ s.Contended txn ∧
        ∀ u ∈ txn.updates, u.kind.Permits (s.tables.get? u.table u.key))
      ∧ (committed = false → next = s)
      ∧ (committed = true →
        next.tables = s.tables.batch txn ∧ next.counters = s.counters
          ∧ (∀ p, next.locks.get? p.1 p.2
            = if p ∈ s.heldKeys txn then none else s.locks.get? p.1 p.2)
          ∧ next.locks.count + (s.heldKeys txn).length = s.locks.count
          ∧ ∀ t keys, next.locks.tables.get? t = some keys → keys ≠ ∅) := by
  intro committed next
  have hcommitted : committed = true ↔ s.verdict txn = .prepared := by
    simp only [committed, prepareAndCommit_eq hs.coherent]
    split_ifs with hv <;> simp [hv]
  refine ⟨execute_prepareAndCommit s txn, hcommitted.trans (verdict_exact s txn).2.2,
    fun hrefused => ?_, fun hdone => ?_⟩
  · have hv : s.verdict txn ≠ .prepared := fun hv => by
      rw [hcommitted.2 hv] at hrefused
      cases hrefused
    simp only [next, prepareAndCommit_of_refused hv]
  · have hnext : next = { s with
        tables := s.tables.batch txn, locks := s.locks.releaseAll txn.id txn.updates } := by
      simp only [next, prepareAndCommit_eq hs.coherent, if_pos (hcommitted.1 hdone)]
    rw [hnext]
    exact ⟨rfl, rfl, get?_releaseAll_places s txn, count_releaseAll_places hs.coherent txn,
      hs.coherent.releaseAll.listed⟩

theorem batch_without_locks_reprepared :
    let one : Transaction := ⟨1, [⟨"t", "j", .put ⟨[5]⟩⟩, ⟨"u", "k", .put ⟨[6]⟩⟩]⟩
    let s : State := (∅ : State).after [.write "t" "k" (.put ⟨[1]⟩), .prepare one]
    let txn : Transaction := ⟨1, [⟨"t", "k", .putIfVersion ⟨[2]⟩ 1⟩, ⟨"t", "j", .putIfAbsent ⟨[3]⟩⟩,
      ⟨"t", "k", .removeIfValue ⟨[1]⟩⟩, ⟨"v", "k", .removeIfVersion 4⟩, ⟨"t", "j", .put ⟨[7]⟩⟩]⟩
    let rival : Transaction := { txn with id := 2 }
    Reachable s ∧ (s.prepareAndCommit txn).1 = true
      ∧ (s.prepareAndCommit txn).2.tables
        = (((s.tables.remove "t" "k").2.put "t" "j" ⟨[7]⟩).2.remove "v" "k").2
      ∧ (s.prepareAndCommit txn).2.locks.count = 1
      ∧ s.prepareAndCommit rival = (false, s) := by
  intro one s txn rival
  have hs : Reachable s := ⟨∅, _, .empty, rfl⟩
  obtain ⟨-, hiff, -, hdone⟩ := batch_without_locks hs txn
  have hcommitted : (s.prepareAndCommit txn).1 = true :=
    hiff.2 ⟨by decide, possible_iff.2 (by decide)⟩
  obtain ⟨htables, -, -, hcount, -⟩ := hdone hcommitted
  have hheld : s.heldKeys txn = [("t", "j")] := by decide
  have hbefore : s.locks.count = 2 := by decide
  rw [hheld, hbefore] at hcount
  obtain ⟨-, hrival, hsame, -⟩ := batch_without_locks hs rival
  have hrefused : (s.prepareAndCommit rival).1 = false := by
    rw [Bool.eq_false_iff, Ne, hrival]
    exact fun h => h.1 (by decide)
  exact ⟨hs, hcommitted, htables, Nat.add_right_cancel hcount,
    Prod.ext hrefused (hsame hrefused)⟩

end State

end Lockstep
