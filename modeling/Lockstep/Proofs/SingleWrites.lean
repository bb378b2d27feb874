import Lockstep.Proofs.Batch
import Lockstep.Proofs.Listing

/-!
# Key writes and transactions of one update

The conditions of the key writes are stated twice: once where tables are written to, and once as
what an update of a transaction waits for. The two agree. A key write makes the write of the update
of its kind if the update's condition holds of the entry, and otherwise it only lists the table
(`Tables.snd_write`). So on a key that is not locked it comes to the same as a transaction of that
one update that is prepared and committed at once (`State.writes_agree_with_transactions`).

The two differ in what they answer: a conditional removal that finds no entry has not removed one,
but its condition holds. And they differ in what a failure leaves behind, for a transaction that is
refused does not list the table.
-/

namespace Lockstep

namespace KeyWrite

/-- The kind of update that makes the same write on the same condition. -/
def kind : KeyWrite → UpdateKind
  | put v => .put v
  | putIfAbsent v => .putIfAbsent v
  | remove => .remove
  | removeIfValue v => .removeIfValue v
  | removeIfVersion n => .removeIfVersion n
  | replaceValue old new => .putIfValue new old
  | replaceVersion old new => .putIfVersion new old

/-- A write with this answer has been made. -/
def TookEffect : KeyWrite → Output → Prop
  | put _, _ | remove, _ => True
  | putIfAbsent _, out => out = .value none
  | removeIfValue _, out | removeIfVersion _, out | replaceValue _ _, out
  | replaceVersion _ _, out => out = .flag true

def RemovesIf : KeyWrite → Prop
  | removeIfValue _ | removeIfVersion _ => True
  | put _ | putIfAbsent _ | remove | replaceValue _ _ | replaceVersion _ _ => False

end KeyWrite

/-- The transaction that makes a key write as its only update. -/
def Transaction.ofWrite (id : UInt64) (t k : String) (w : KeyWrite) : Transaction :=
  ⟨id, [⟨t, k, w.kind⟩]⟩

namespace Tables

variable {s : Tables} {t k : String}

theorem touch_of_contains (h : s.names.contains t = true) : s.touch t = s := by
  rw [contains_names, Option.isSome_iff_exists] at h
  obtain ⟨table, ht⟩ := h
  have hsame : s.tables.insert t (s.table t) = s.tables := OrdMap.insert_of_get? (by
    rw [Tables.table, ht]
    rfl)
  rw [touch, hsame]

theorem contains_names_touch (s : Tables) (t t' : String) :
    (s.touch t).names.contains t' = true ↔ s.names.contains t' = true ∨ t' = t := by
  have hlists := lists_insert s t (s.table t) s.nextVersion t'
  rwa [List.mem_singleton] at hlists

theorem remove_of_absent (h : s.get? t k = none) : (s.remove t k).2 = s.touch t := by
  rw [remove, OrdMap.erase_of_get?_eq_none h]
  rfl

theorem snd_putIfAbsent (s : Tables) (t k : String) (v : Value) : (s.putIfAbsent t k v).2
    = if (s.get? t k).isNone then (s.put t k v).2 else s.touch t := by
  unfold putIfAbsent
  rcases he : s.get? t k with _ | e
  · rfl
  · exact (touch_of_contains (contains_names_of_get? he)).symm

/-- A conditional removal that finds no entry to remove does what an unconditional one would. -/
theorem snd_removeIf (s : Tables) (t k : String) (p : Versioned → Bool) : (s.removeIf t k p).2
    = if (s.get? t k).all p then (s.remove t k).2 else s.touch t := by
  unfold removeIf
  rcases he : s.get? t k with _ | e
  · exact (remove_of_absent he).symm
  · simp only [Option.any_some, Option.all_some]
    split <;> rfl

theorem snd_replaceIf (s : Tables) (t k : String) (p : Versioned → Bool) (v : Value) :
    (s.replaceIf t k p v).2 = if (s.get? t k).any p then (s.put t k v).2 else s.touch t := by
  unfold replaceIf
  split <;> rfl

/-- A key write makes its write if the condition holds, and lists the table if not. -/
theorem snd_write (s : Tables) (t k : String) : ∀ w : KeyWrite, (s.write t k w).2
    = if w.kind.holds (s.get? t k) then s.make ⟨t, k, w.kind⟩ else s.touch t
  | .put _ | .remove => rfl
  | .putIfAbsent v => snd_putIfAbsent s t k v
  | .removeIfValue v => snd_removeIf s t k (·.value = v)
  | .removeIfVersion n => snd_removeIf s t k (·.version = n)
  | .replaceValue old new => snd_replaceIf s t k (·.value = old) new
  | .replaceVersion old new => snd_replaceIf s t k (·.version = old) new

/-- A key write takes effect just if its condition holds, unless there is nothing to remove. -/
theorem tookEffect_write (s : Tables) (t k : String) (w : KeyWrite) :
    w.kind.holds (s.get? t k) = true ↔
      w.TookEffect (s.write t k w).1 ∨ w.RemovesIf ∧ s.get? t k = none := by
  rcases he : s.get? t k with _ | e <;>
    cases w <;>
      simp [KeyWrite.kind, UpdateKind.holds, KeyWrite.TookEffect, KeyWrite.RemovesIf, write,
        removeIfValue, removeIfVersion, replaceValue, replaceVersion, he]

end Tables

namespace State

variable {s : State} {t k : String}

theorem verdict_ofWrite (hfree : s.locks.get? t k = none) (id : UInt64) (w : KeyWrite) :
    s.verdict (.ofWrite id t k w) = .prepared ↔ w.kind.holds (s.tables.get? t k) = true := by
  rw [verdict_eq_prepared]
  simp [Transaction.ofWrite, Transaction.places, places, Update.place, hfree]

theorem lastUpdates_ofWrite (id : UInt64) (w : KeyWrite) :
    (Transaction.ofWrite id t k w).lastUpdates = [⟨t, k, w.kind⟩] := by
  have hplaces : (Transaction.ofWrite id t k w).places = [(t, k)] := by
    simp [Transaction.ofWrite, Transaction.places, places, Update.place, List.eraseDups_cons]
  have hlast : (Transaction.ofWrite id t k w).lastUpdate? (t, k) = some ⟨t, k, w.kind⟩ := by
    simp [Transaction.lastUpdate?, Transaction.ofWrite, Update.place]
  rw [Transaction.lastUpdates, hplaces, List.filterMap_cons_some hlast, List.filterMap_nil]

/-- On a key that is free, a transaction of one update writes as it would to tables alone. -/
theorem prepareAndCommit_ofWrite (hs : s.locks.Coherent) (hfree : s.locks.get? t k = none)
    (id : UInt64) (w : KeyWrite) : s.prepareAndCommit (.ofWrite id t k w)
      = if w.kind.holds (s.tables.get? t k) then
          (true, { s with tables := s.tables.make ⟨t, k, w.kind⟩ })
        else (false, s) := by
  have hnone : ¬ s.locks.Holds id (t, k) := by
    rintro ⟨p, hp⟩
    rw [hfree] at hp
    cases hp
  have hlocks : s.locks.releaseAll id (Transaction.ofWrite id t k w).updates = s.locks :=
    Locks.release_of_not_holds hnone
  have htables : s.tables.batch (.ofWrite id t k w) = s.tables.make ⟨t, k, w.kind⟩ := by
    rw [Tables.batch, lastUpdates_ofWrite]
    rfl
  rw [prepareAndCommit_eq hs, htables, show (Transaction.ofWrite id t k w).id = id from rfl, hlocks]
  simp only [verdict_ofWrite hfree]

theorem execute_write_of_free (hfree : s.locks.get? t k = none) (w : KeyWrite) :
    s.execute (.write t k w)
      = (.ok (s.tables.write t k w).1, { s with tables := (s.tables.write t k w).2 }) := by
  have hfalse : s.locks.isLocked t k = false := by rw [Locks.isLocked, hfree]; rfl
  rw [execute, write, hfalse]
  rfl

/-- On a key that is not locked, a key write and the transaction of the one update of its kind, if
that is prepared and committed at once, come to the same. The transaction goes through just if the
key write takes effect, and else only if a conditional removal finds no entry. If it goes through,
both leave the same state in all its parts. If it does not, it leaves the state as it was, and all
that the key write does is to list the table. -/
theorem writes_agree_with_transactions (hs : Reachable s) (hfree : s.locks.get? t k = none)
    (w : KeyWrite) (id : UInt64) :
    let txn := Transaction.ofWrite id t k w
    let committed := (s.prepareAndCommit txn).1
    let next := (s.prepareAndCommit txn).2
    let single := (s.execute (.write t k w)).2
    s.execute (.prepareAndCommit txn) = (.ok (.flag committed), next)
      ∧ (∃ out, (s.execute (.write t k w)).1 = .ok out ∧ (committed = true ↔
        w.TookEffect out ∨ w.RemovesIf ∧ s.tables.get? t k = none))
      ∧ (committed = true → next = single)
      ∧ (committed = false → next = s
        ∧ single.counters = s.counters ∧ single.locks = s.locks
        ∧ single.tables.nextVersion = s.tables.nextVersion
        ∧ (∀ p : Place, single.tables.get? p.1 p.2 = s.tables.get? p.1 p.2)
        ∧ ∀ t', single.tables.names.contains t' = true ↔
          s.tables.names.contains t' = true ∨ t' = t) := by
  intro txn committed next single
  have hpair : s.prepareAndCommit txn = _ := prepareAndCommit_ofWrite hs.coherent hfree id w
  have hwrite : s.execute (.write t k w) = _ := execute_write_of_free hfree w
  have hsingle : single = { s with tables := (s.tables.write t k w).2 } := congrArg Prod.snd hwrite
  have hcommitted : committed = w.kind.holds (s.tables.get? t k) := by
    simp only [committed, hpair]
    split_ifs with h <;> simp [h]
  refine ⟨execute_prepareAndCommit s txn, ⟨_, congrArg Prod.fst hwrite, ?_⟩, fun h => ?_,
    fun h => ?_⟩
  · rw [hcommitted]
    exact Tables.tookEffect_write s.tables t k w
  · have hholds : w.kind.holds (s.tables.get? t k) = true := hcommitted.symm.trans h
    simp only [next, hpair, hsingle, Tables.snd_write, hholds, if_true]
  · have hfails : w.kind.holds (s.tables.get? t k) = false := hcommitted.symm.trans h
    have htouch : (s.tables.write t k w).2 = s.tables.touch t := by
      rw [Tables.snd_write, hfails]
      rfl
    have hnext : next = s := by
      simp only [next, hpair, hfails, Bool.false_eq_true, if_false]
    rw [hsingle, htouch]
    exact ⟨hnext, rfl, rfl, rfl, fun p => Tables.get?_touch s.tables t p.1 p.2,
      fun t' => Tables.contains_names_touch s.tables t t'⟩

theorem writes_agree_with_transactions_where_absent :
    let other : Transaction := ⟨9, [⟨"t", "j", .put ⟨[5]⟩⟩]⟩
    let s : State := (∅ : State).after [.write "t" "k" (.put ⟨[1]⟩), .prepare other]
    let replacing := Transaction.ofWrite 9 "t" "k" (.replaceVersion 1 ⟨[2]⟩)
    let removing := Transaction.ofWrite 9 "u" "k" (.removeIfValue ⟨[1]⟩)
    let failing := Transaction.ofWrite 9 "u" "k" (.replaceValue ⟨[1]⟩ ⟨[2]⟩)
    Reachable s ∧ s.locks.get? "t" "k" = none ∧ s.locks.get? "u" "k" = none
      ∧ (s.prepareAndCommit replacing).1 = true
      ∧ (s.prepareAndCommit replacing).2
        = (s.execute (.write "t" "k" (.replaceVersion 1 ⟨[2]⟩))).2
      ∧ (s.execute (.write "u" "k" (.removeIfValue ⟨[1]⟩))).1 = .ok (.flag false)
      ∧ (s.prepareAndCommit removing).1 = true
      ∧ (s.prepareAndCommit removing).2 = (s.execute (.write "u" "k" (.removeIfValue ⟨[1]⟩))).2
      ∧ s.prepareAndCommit failing = (false, s)
      ∧ (s.execute (.write "u" "k" (.replaceValue ⟨[1]⟩ ⟨[2]⟩))).2.tables.names.contains "u"
        = true := by
  intro other s replacing removing failing
  have hs : Reachable s := ⟨∅, _, .empty, rfl⟩
  have hk : s.locks.get? "t" "k" = none := by decide
  have hu : s.locks.get? "u" "k" = none := by decide
  obtain ⟨-, -, hreplaced, -⟩ := writes_agree_with_transactions hs hk (.replaceVersion 1 ⟨[2]⟩) 9
  obtain ⟨-, ⟨out, -, hiff⟩, hremoved, -⟩ :=
    writes_agree_with_transactions hs hu (.removeIfValue ⟨[1]⟩) 9
  obtain ⟨-, -, -, hfailed⟩ :=
    writes_agree_with_transactions hs hu (.replaceValue ⟨[1]⟩ ⟨[2]⟩) 9
  have hreplacing : (s.prepareAndCommit replacing).1 = true := by decide
  have hremoving : (s.prepareAndCommit removing).1 = true := hiff.2 (.inr ⟨trivial, by decide⟩)
  have hfailing : (s.prepareAndCommit failing).1 = false := by decide
  obtain ⟨hsame, -, -, -, -, hlisted⟩ := hfailed hfailing
  exact ⟨hs, hk, hu, hreplacing, hreplaced hreplacing, by decide, hremoving, hremoved hremoving,
    Prod.ext hfailing hsame, (hlisted "u").2 (.inr rfl)⟩

end State

end Lockstep
