import Lockstep.Proofs.Ownership

/-!
# What a command may touch

A command says by its arguments what it may touch: a key write one entry, a clear those of one
table, a commit the entries and locks of the keys its transaction names, a preparation or a rollback
their locks only, and a counter command its counter. All else is as it was before, after the command
and after any run of commands that do not name it; and a preparation that is refused touches nothing
at all (`footprint`).
-/

namespace Lockstep

namespace Command

/-- The command may change the entry of the key. -/
def MayWrite (p : Place) : Command → Prop
  | write t k _ => p = (t, k)
  | clear t => p.1 = t
  | commit txn | prepareAndCommit txn => p ∈ txn.places
  | _ => False

/-- The command may change the lock of the key. -/
def MayLock (p : Place) (c : Command) : Prop := ∃ txn, c.transaction? = some txn ∧ p ∈ txn.places

/-- The command is a query, is about a counter, or does no more with a transaction than to take or
free its keys. -/
def LeavesTables : Command → Prop
  | query _ | nextValue _ | currentValue _ | prepare _ | rollback _ => True
  | write _ _ _ | clear _ | commit _ | prepareAndCommit _ => False

def counter? : Command → Option String
  | nextValue name | currentValue name => some name
  | _ => none

variable {c : Command} {p : Place}

theorem KeyRule.eq_of_not_mayLock {answer : Outcome Output} {before after : Option Lock}
    (h : c.KeyRule answer p before after) (hc : ¬ c.MayLock p) : after = before := by
  cases c with
  | prepare txn | commit txn | rollback txn | prepareAndCommit txn =>
    have hp : p ∉ txn.places := fun hp => hc ⟨txn, rfl, hp⟩
    simpa [KeyRule, hp] using h
  | _ => exact h

end Command

namespace State

variable {s : State} {c : Command} {r : Outcome Output × State} {p : Place}

theorem Step.entry_eq (h : Step s c r) (hc : ¬ c.MayWrite p) :
    r.2.tables.get? p.1 p.2 = s.tables.get? p.1 p.2 := by
  cases h with
  | @write t k w hfree => exact Tables.get?_write_of_ne s.tables hc w
  | @clear t hfree =>
    simp only [Tables.get?_clear]
    exact if_neg hc
  | commit txn =>
    exact Tables.get?_settleAll_of_notMem fun hm => hc (Locks.place_mem_settlements hm).1
  | @batch txn hv =>
    exact Tables.get?_settleAll_of_notMem (by rwa [Transaction.map_place_settlements])
  | _ => rfl

theorem Step.tables_eq (h : Step s c r) (hc : c.LeavesTables) : r.2.tables = s.tables := by
  cases h with
  | write | clear | commit | batch => exact hc.elim
  | _ => rfl

theorem Step.counter_eq (h : Step s c r) {name : String} (hc : c.counter? ≠ some name) :
    r.2.counters.values.get? name = s.counters.values.get? name := by
  cases h with
  | nextValue other | currentValue other =>
    have hne : name ≠ other := fun he => hc (congrArg some he.symm)
    simp only [Counters.next, Counters.current, OrdMap.get?_insert]
    exact if_neg hne
  | _ => rfl

theorem Step.locks_eq (h : Step s c r) (hc : c.transaction? = none) : r.2.locks = s.locks := by
  cases h with
  | prepare | commit | rollback | batch => cases hc
  | _ => rfl

theorem Step.eq_of_refused (h : Step s c r) {txn : Transaction} (hc : c.prepares? = some txn)
    (hr : r.1 = .ok (.flag false)) : r.2 = s := by
  cases h with
  | refusal | refusedBatch => rfl
  | prepare | batch => cases hr
  | _ => cases hc

/-- What no command of a run changes is at the end what it was. -/
theorem view_after {α : Type} (view : State → α) {P : Command → Prop}
    (hstep : ∀ s c, P c → view (s.execute c).2 = view s) : ∀ (cs : List Command) (s : State),
      (∀ c ∈ cs, P c) → view (s.after cs) = view s
  | [], _, _ => rfl
  | c :: cs, s, h => by
    rw [after_cons, view_after view hstep cs _ fun d hd => h d (List.mem_cons_of_mem c hd)]
    exact hstep s c (h c List.mem_cons_self)

/-- A command changes no entry but those it names by a key write, a clear of their table, or a
commit of a transaction that names them, no counter but its own, and no lock but those its
transaction names. Queries, counter commands, preparations and rollbacks leave the tables with their
names and the last version as they are, only commands about a transaction change locks, and a
preparation that is answered false changes nothing. So a run leaves alone what none of its commands
names. -/
theorem footprint (s : State) :
    (∀ c, let next := (s.execute c).2
      (∀ p, next.tables.get? p.1 p.2 ≠ s.tables.get? p.1 p.2 → c.MayWrite p)
        ∧ (c.LeavesTables → next.tables = s.tables)
        ∧ (∀ name, next.counters.values.get? name ≠ s.counters.values.get? name →
          c = .nextValue name ∨ c = .currentValue name)
        ∧ (c.transaction? = none → next.locks = s.locks)
        ∧ (∀ p, next.locks.get? p.1 p.2 ≠ s.locks.get? p.1 p.2 → c.MayLock p)
        ∧ (∀ txn, c.prepares? = some txn → (s.execute c).1 = .ok (.flag false) → next = s))
      ∧ ∀ cs, let last := s.after cs
        (∀ p, (∀ c ∈ cs, ¬ c.MayWrite p) → last.tables.get? p.1 p.2 = s.tables.get? p.1 p.2)
          ∧ (∀ name, (∀ c ∈ cs, c.counter? ≠ some name) →
            last.counters.values.get? name = s.counters.values.get? name)
          ∧ ∀ p, (∀ c ∈ cs, ¬ c.MayLock p) → last.locks.get? p.1 p.2 = s.locks.get? p.1 p.2 := by
  have hentry : ∀ p s c, ¬ c.MayWrite p →
      (execute s c).2.tables.get? p.1 p.2 = s.tables.get? p.1 p.2 :=
    fun p s c => (step_execute s c).entry_eq
  have hcounter : ∀ name s c, c.counter? ≠ some name →
      (execute s c).2.counters.values.get? name = s.counters.values.get? name :=
    fun name s c => (step_execute s c).counter_eq
  have hlock : ∀ p s c, ¬ c.MayLock p →
      (execute s c).2.locks.get? p.1 p.2 = s.locks.get? p.1 p.2 :=
    fun p s c => ((step_execute s c).keyRule p).eq_of_not_mayLock
  constructor
  · intro c
    refine ⟨fun p => not_imp_comm.1 (hentry p s c), (step_execute s c).tables_eq,
      fun name hne => ?_, (step_execute s c).locks_eq, fun p => not_imp_comm.1 (hlock p s c),
      fun txn => (step_execute s c).eq_of_refused⟩
    have hname : c.counter? = some name := by
      by_contra hc
      exact hne (hcounter name s c hc)
    cases c with
    | nextValue | currentValue =>
      cases hname
      simp
    | _ => cases hname
  · intro cs
    exact ⟨fun p => view_after (fun s => s.tables.get? p.1 p.2) (hentry p) cs s,
      fun name => view_after (fun s => s.counters.values.get? name) (hcounter name) cs s,
      fun p => view_after (fun s => s.locks.get? p.1 p.2) (hlock p) cs s⟩

end State

end Lockstep
