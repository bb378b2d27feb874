import Lockstep.Proofs.Batch
import Lockstep.Proofs.Footprint

/-!
# Preparations that are rolled back

A transaction that is prepared lays locks over the state, and commands that do not name its keys go
on below them: each gets the answer it would get without the locks, and leaves the state it would
leave, with the locks over it (`execute_lockAll`). So a rollback that lifts them again leaves no
trace of the transaction, in the count of the locks and the tables listed with them as little as
anywhere else (`rolled_back_without_trace`).
-/

namespace Lockstep

/-- The command names no key of the transaction to write or to lock, and no table of one to
clear. -/
def Command.Avoids (txn : Transaction) (c : Command) : Prop :=
  ∀ p ∈ txn.places, ¬ c.MayWrite p ∧ ¬ c.MayLock p

namespace Locks

variable {l m : Locks} {t k : String} {id id' : UInt64} {us vs : List Update}

theorem holds_congr {p : Place} (h : l.get? p.1 p.2 = m.get? p.1 p.2) :
    l.Holds id p ↔ m.Holds id p := by
  rw [Holds, h, Holds]

theorem get?_lockAll_congr (h : l.get? t k = m.get? t k) :
    (l.lockAll id us).get? t k = (m.lockAll id us).get? t k := by
  rw [get?_lockAll, get?_lockAll, h]

theorem get?_releaseAll_congr (h : l.get? t k = m.get? t k) :
    (l.releaseAll id us).get? t k = (m.releaseAll id us).get? t k := by
  have hholds : l.Holds id (t, k) ↔ m.Holds id (t, k) := holds_congr h
  simp only [get?_releaseAll, hholds, h]

/-- What waits for a transaction is a matter of the locks on the keys it names. -/
theorem settlements_congr (h : ∀ p ∈ places us, l.get? p.1 p.2 = m.get? p.1 p.2) :
    l.settlements id us = m.settlements id us :=
  List.filterMap_congr fun p hp => by rw [waiting?, h p hp, waiting?]

theorem Coherent.hasLocks_lockAll (h : l.Coherent) (ht : ∀ p ∈ places us, p.1 ≠ t) :
    (l.lockAll id us).hasLocks t = l.hasLocks t := by
  have hsame : ∀ k, (l.lockAll id us).isLocked t k = l.isLocked t k := by
    intro k
    rw [isLocked, get?_lockAll_of_notMem fun hp => ht _ hp rfl, isLocked]
  rw [Bool.eq_iff_iff, h.lockAll.hasLocks_iff, h.hasLocks_iff]
  simp only [hsame]

/-- Two transactions without a common key may lock their keys in either order. -/
theorem Coherent.lockAll_comm (h : l.Coherent) (hdisjoint : ∀ p ∈ places us, p ∉ places vs) :
    (l.lockAll id us).lockAll id' vs = (l.lockAll id' vs).lockAll id us := by
  refine h.lockAll.lockAll.ext h.lockAll.lockAll fun t k => ?_
  by_cases hp : (t, k) ∈ places us
  · have hq : (t, k) ∉ places vs := hdisjoint _ hp
    rw [get?_lockAll_of_notMem hq, get?_lockAll_congr (get?_lockAll_of_notMem hq)]
  · rw [get?_lockAll_of_notMem hp, get?_lockAll_congr (get?_lockAll_of_notMem hp)]

/-- One transaction may lock its keys before or after another without a common key lets go. -/
theorem Coherent.releaseAll_lockAll_comm (h : l.Coherent)
    (hdisjoint : ∀ p ∈ places us, p ∉ places vs) :
    (l.lockAll id us).releaseAll id' vs = (l.releaseAll id' vs).lockAll id us := by
  refine h.lockAll.releaseAll.ext h.releaseAll.lockAll fun t k => ?_
  by_cases hp : (t, k) ∈ places us
  · have hq : (t, k) ∉ places vs := hdisjoint _ hp
    rw [get?_releaseAll_of_notMem hq, get?_lockAll_congr (get?_releaseAll_of_notMem hq)]
  · rw [get?_lockAll_of_notMem hp, get?_releaseAll_congr (get?_lockAll_of_notMem hp)]

end Locks

namespace State

variable {s s' : State} {txn other : Transaction}

theorem verdict_congr (htables : s.tables = s'.tables)
    (hlocks : ∀ p ∈ txn.places, s.locks.get? p.1 p.2 = s'.locks.get? p.1 p.2) :
    s.verdict txn = s'.verdict txn := by
  have hcontended : s.Contended txn ↔ s'.Contended txn :=
    exists_congr fun u => and_congr_right fun hu => exists_congr fun id => and_congr_right fun _ =>
      Locks.holds_congr (hlocks _ (Transaction.place_mem_places hu))
  have hpossible : s.Possible txn ↔ s'.Possible txn := by
    rw [Possible, htables, Possible]
  simp only [verdict_eq_ite, hcontended, hpossible]

/-- Under the locks of a transaction a command that avoids it does what it would do without them. -/
theorem execute_lockAll (hs : s.locks.Coherent) {c : Command} (hc : c.Avoids txn) :
    (s.lockAll txn).execute c = ((s.execute c).1, (s.execute c).2.lockAll txn) := by
  have hlocks : ∀ {p : Place}, p ∉ txn.places →
      (s.lockAll txn).locks.get? p.1 p.2 = s.locks.get? p.1 p.2 :=
    Locks.get?_lockAll_of_notMem
  have hdisjoint : ∀ {other : Transaction}, c.transaction? = some other →
      ∀ p ∈ txn.places, p ∉ other.places :=
    fun hother p hp hmem => (hc p hp).2 ⟨_, hother, hmem⟩
  have hnames : ∀ {other : Transaction}, c.transaction? = some other →
      ∀ p ∈ other.places, (s.lockAll txn).locks.get? p.1 p.2 = s.locks.get? p.1 p.2 :=
    fun hother p hp => hlocks fun hmem => hdisjoint hother p hmem hp
  have hrelease : ∀ {other : Transaction}, c.transaction? = some other →
      (s.lockAll txn).locks.releaseAll other.id other.updates
        = (s.locks.releaseAll other.id other.updates).lockAll txn.id txn.updates :=
    fun hother => hs.releaseAll_lockAll_comm (hdisjoint hother)
  cases c with
  | query q => cases q <;> rfl
  | nextValue | currentValue => rfl
  | write t k w =>
    have hfree : (s.lockAll txn).locks.isLocked t k = s.locks.isLocked t k :=
      congrArg Option.isSome (hlocks fun hp => (hc (t, k) hp).1 rfl)
    simp only [execute, write, hfree]
    split <;> rfl
  | clear t =>
    have hfree : (s.lockAll txn).locks.hasLocks t = s.locks.hasLocks t :=
      hs.hasLocks_lockAll fun p hp => (hc p hp).1
    simp only [execute, clear, hfree]
    split <;> rfl
  | prepare other =>
    have hv : (s.lockAll txn).verdict other = s.verdict other := verdict_congr rfl (hnames rfl)
    have hcomm : (s.lockAll txn).lockAll other = (s.lockAll other).lockAll txn :=
      congrArg (fun l => { s with locks := l }) (hs.lockAll_comm (hdisjoint rfl))
    simp only [execute, tryPrepare_eq, hv, hcomm]
    split <;> rfl
  | commit other =>
    have hsettle : (s.lockAll txn).locks.settlements other.id other.updates
        = s.locks.settlements other.id other.updates := Locks.settlements_congr (hnames rfl)
    simp only [execute, commit_eq, hsettle, hrelease rfl]
    rfl
  | rollback other =>
    simp only [execute, rollback_eq, hrelease rfl]
    rfl
  | prepareAndCommit other =>
    have hv : (s.lockAll txn).verdict other = s.verdict other := verdict_congr rfl (hnames rfl)
    have hcoherent : (s.lockAll txn).locks.Coherent := hs.lockAll
    simp only [execute_prepareAndCommit, prepareAndCommit_eq hs, prepareAndCommit_eq hcoherent, hv,
      hrelease rfl]
    split <;> rfl

theorem run_lockAll : ∀ (cs : List Command) (s : State), s.locks.Coherent →
    (∀ c ∈ cs, c.Avoids txn) → (s.lockAll txn).answers cs = s.answers cs
      ∧ (s.lockAll txn).after cs = (s.after cs).lockAll txn
  | [], s, _, _ => ⟨rfl, rfl⟩
  | c :: cs, s, hs, hcs => by
    obtain ⟨hanswers, hafter⟩ := run_lockAll cs (s.execute c).2
      ((step_execute s c).coherent hs) fun d hd => hcs d (List.mem_cons_of_mem c hd)
    have hc := execute_lockAll hs (hcs c List.mem_cons_self)
    rw [answers, after_cons, hc, hanswers, hafter]
    exact ⟨rfl, rfl⟩

/-- Locks that a transaction took on free keys are lifted without a trace. -/
theorem rollback_lockAll (hs : s.locks.Coherent)
    (hfree : ∀ p ∈ txn.places, s.locks.get? p.1 p.2 = none) :
    (s.lockAll txn).rollback txn = s := by
  have hown : ∀ p ∈ txn.places, ∀ lock, s.locks.get? p.1 p.2 = some lock → lock.owner = txn.id := by
    intro p hp lock hlock
    rw [hfree p hp] at hlock
    cases hlock
  have hnone : ∀ p ∈ txn.places, ¬ s.locks.Holds txn.id p := by
    rintro p hp ⟨w, hw⟩
    rw [hfree p hp] at hw
    cases hw
  rw [rollback_eq, lockAll_eq, hs.releaseAll_lockAll hown, Locks.releaseAll_of_not_holds hnone]

/-- A transaction that names free keys only and is prepared leaves no trace when it is rolled back:
at once the state is in all its parts what it was. In between any commands may run that do not name
its keys, but to look at them, and clear no table of theirs, whatever transactions they are about.
They get the answers, and after the rollback leave the state, that they would have without the
transaction. -/
theorem rolled_back_without_trace (hs : Reachable s) (txn : Transaction)
    (hfree : ∀ p ∈ txn.places, s.locks.get? p.1 p.2 = none)
    (hprepared : (s.tryPrepare txn).1 = .prepared) :
    let held := (s.tryPrepare txn).2
    held.rollback txn = s
      ∧ ∀ cs : List Command, (∀ c ∈ cs, c.Avoids txn) →
        held.answers cs = s.answers cs ∧ (held.after cs).rollback txn = s.after cs := by
  intro held
  have hheld : held = s.lockAll txn :=
    (snd_tryPrepare s txn).trans (if_pos ((fst_tryPrepare s txn).symm.trans hprepared))
  rw [hheld]
  refine ⟨rollback_lockAll hs.coherent hfree, fun cs hcs => ?_⟩
  obtain ⟨hanswers, hafter⟩ := run_lockAll cs s hs.coherent hcs
  have hfreeAfter : ∀ p ∈ txn.places, (s.after cs).locks.get? p.1 p.2 = none := by
    intro p hp
    have hkeep := view_after (fun s => s.locks.get? p.1 p.2)
      (fun s c => ((step_execute s c).keyRule p).eq_of_not_mayLock) cs s fun c hc => (hcs c hc p hp).2
    exact hkeep.trans (hfree p hp)
  rw [hafter]
  exact ⟨hanswers, rollback_lockAll (after_induction Step.coherent cs hs.coherent) hfreeAfter⟩

theorem rolled_back_without_trace_among_others :
    let txn : Transaction := ⟨1, [⟨"t", "k", .putIfAbsent ⟨[1]⟩⟩, ⟨"t", "j", .remove⟩,
      ⟨"t", "k", .put ⟨[2]⟩⟩]⟩
    let other : Transaction := ⟨2, [⟨"t", "i", .put ⟨[3]⟩⟩, ⟨"u", "k", .remove⟩]⟩
    let s : State := (∅ : State).after [.prepare ⟨3, [⟨"t", "h", .remove⟩]⟩]
    let cs : List Command := [.query (.get "t" "k"), .prepare other, .clear "u", .commit other,
      .write "t" "h" .remove, .nextValue "n", .prepareAndCommit { other with id := 1 }]
    let held := (s.tryPrepare txn).2
    Reachable s ∧ (∀ p ∈ txn.places, s.locks.get? p.1 p.2 = none)
      ∧ (s.tryPrepare txn).1 = .prepared ∧ (∀ c ∈ cs, c.Avoids txn)
      ∧ held.locks.count = 3 ∧ held.rollback txn = s
      ∧ held.answers cs = s.answers cs ∧ (held.after cs).rollback txn = s.after cs := by
  intro txn other s cs held
  have hs : Reachable s := ⟨∅, _, .empty, rfl⟩
  have hplaces : txn.places = [("t", "k"), ("t", "j")] := by decide
  have hfree : ∀ p ∈ txn.places, s.locks.get? p.1 p.2 = none := by
    rw [hplaces]
    decide
  have hprepared : (s.tryPrepare txn).1 = .prepared := by decide
  have hcs : ∀ c ∈ cs, c.Avoids txn := by
    simp [cs, other, Command.Avoids, hplaces, Command.MayWrite, Command.MayLock,
      Command.transaction?, Transaction.mem_places, Update.place]
  obtain ⟨hback, hrun⟩ := rolled_back_without_trace hs txn hfree hprepared
  exact ⟨hs, hfree, hprepared, hcs, by decide, hback, hrun cs hcs⟩

end State

end Lockstep
