import Lockstep.Proofs.Run

/-!
# Who holds a key

A key is free or held, and a command about no transaction leaves it as it is. Only a preparation
that succeeds takes the keys it names, and it finds each of them free or held by its own
transaction. Only a commit, a rollback, or a preparation that is committed at once lets keys go
(`Step.keyRule`). So a key never goes from one transaction to another without being free in
between, and as long as it is held no other transaction that names it is prepared
(`keys_change_hands_free`).
-/

namespace Lockstep

/-- The transaction that holds the key. -/
def Locks.holder? (l : Locks) (p : Place) : Option UInt64 := (l.get? p.1 p.2).map (·.owner)

/-- What a command with this answer makes of the lock of a key. -/
def Command.KeyRule (c : Command) (answer : Outcome Output) (p : Place)
    (before after : Option Lock) : Prop :=
  match c with
  | .prepare txn =>
    if answer = .ok (.flag true) ∧ p ∈ txn.places then
      (∀ lock ∈ before, lock.owner = txn.id)
        ∧ ∃ w, txn.pending? p = some w ∧ after = some ⟨txn.id, w⟩
    else after = before
  | .commit txn | .rollback txn =>
    if p ∈ txn.places ∧ before.map (·.owner) = some txn.id then after = none else after = before
  | .prepareAndCommit txn =>
    if answer = .ok (.flag true) ∧ p ∈ txn.places then
      (∀ lock ∈ before, lock.owner = txn.id) ∧ after = none
    else after = before
  | _ => after = before

/-- By the rule a lock stays, goes, or is taken anew by the transaction that holds it. -/
theorem Command.KeyRule.cases {c : Command} {answer : Outcome Output} {p : Place}
    {before after : Option Lock} (h : c.KeyRule answer p before after) :
    after = before ∨ after = none
      ∨ ∃ lock, after = some lock ∧ ∀ lock' ∈ before, lock'.owner = lock.owner := by
  cases c with
  | prepare txn =>
    simp only [KeyRule] at h
    split_ifs at h
    · obtain ⟨howner, w, -, hafter⟩ := h
      exact .inr (.inr ⟨_, hafter, howner⟩)
    · exact .inl h
  | commit txn | rollback txn =>
    simp only [KeyRule] at h
    split_ifs at h
    · exact .inr (.inl h)
    · exact .inl h
  | prepareAndCommit txn =>
    simp only [KeyRule] at h
    split_ifs at h
    · exact .inr (.inl h.2)
    · exact .inl h
  | _ => exact .inl h

namespace State

variable {s : State} {c : Command} {p : Place} {id : UInt64}

theorem holder?_eq_some {l : Locks} : l.holder? p = some id ↔ l.Holds id p := by
  rw [Locks.holder?, Option.map_eq_some_iff]
  constructor
  · rintro ⟨⟨owner, w⟩, h, rfl⟩
    exact ⟨w, h⟩
  · rintro ⟨w, h⟩
    exact ⟨_, h, rfl⟩

theorem Step.keyRule {r : Outcome Output × State} (h : Step s c r) (p : Place) :
    c.KeyRule r.1 p (s.locks.get? p.1 p.2) (r.2.locks.get? p.1 p.2) := by
  have hreleased : ∀ txn : Transaction,
      if p ∈ txn.places ∧ (s.locks.get? p.1 p.2).map (·.owner) = some txn.id then
        (s.locks.releaseAll txn.id txn.updates).get? p.1 p.2 = none
      else (s.locks.releaseAll txn.id txn.updates).get? p.1 p.2 = s.locks.get? p.1 p.2 := by
    intro txn
    rw [Locks.get?_releaseAll]
    split_ifs with hrule hheld hheld
    · rfl
    · exact absurd ⟨hrule.1, holder?_eq_some.1 hrule.2⟩ hheld
    · exact absurd ⟨hheld.1, holder?_eq_some.2 hheld.2⟩ hrule
    · rfl
  cases h with
  | refusal | refusedBatch => simp [Command.KeyRule]
  | @prepare txn hv =>
    by_cases hp : p ∈ txn.places
    · obtain ⟨w, hw⟩ := Transaction.exists_pending? hp
      refine (if_pos ⟨rfl, hp⟩).mpr ⟨(verdict_eq_prepared.1 hv).1 p hp, w, hw, ?_⟩
      exact (Locks.get?_lockAll_of_mem hp).trans (congrArg _ hw)
    · exact (if_neg fun h => hp h.2).mpr (Locks.get?_lockAll_of_notMem hp)
  | commit txn | rollback txn => exact hreleased txn
  | @batch txn hv =>
    by_cases hp : p ∈ txn.places
    · refine (if_pos ⟨rfl, hp⟩).mpr ⟨(verdict_eq_prepared.1 hv).1 p hp, ?_⟩
      simp only [Locks.get?_releaseAll_lockAll]
      exact if_pos hp
    · refine (if_neg fun h => hp h.2).mpr ?_
      simp only [Locks.get?_releaseAll_lockAll]
      exact if_neg hp
  | _ => exact rfl

/-- A held key stays with its holder or becomes free. -/
theorem holder?_execute (c : Command) (h : s.locks.holder? p = some id) :
    (s.execute c).2.locks.holder? p = some id ∨ (s.execute c).2.locks.holder? p = none := by
  obtain ⟨lock, hlock, rfl⟩ := Option.map_eq_some_iff.1 h
  rcases ((step_execute s c).keyRule p).cases with hsame | hfree | ⟨lock', hlock', howner⟩
  · left
    rw [Locks.holder?, hsame]
    exact h
  · right
    rw [Locks.holder?, hfree]
    rfl
  · left
    rw [Locks.holder?, hlock', howner lock hlock]
    rfl

/-- Between two holders a key was free. -/
theorem exists_free_between {id' : UInt64} (hne : id ≠ id') : ∀ {cs : List Command} {s : State},
    s.locks.holder? p = some id → (s.after cs).locks.holder? p = some id' →
      ∃ n < cs.length, (s.after (cs.take n)).locks.holder? p = none
  | [], s, h, h' => by
    rw [after_nil, h] at h'
    exact absurd (Option.some.inj h') hne
  | c :: cs, s, h, h' => by
    rw [after_cons] at h'
    rcases holder?_execute c h with hc | hc
    · obtain ⟨n, hn, hfree⟩ := exists_free_between hne hc h'
      exact ⟨n + 1, Nat.succ_lt_succ hn, hfree⟩
    · cases cs with
      | nil =>
        rw [after_nil, hc] at h'
        cases h'
      | cons d cs => exact ⟨1, Nat.succ_lt_succ (Nat.succ_pos _), hc⟩

theorem execute_of_refused {txn : Transaction} (h : s.verdict txn ≠ .prepared) :
    (s.execute (.prepare txn)).1 = .ok (.flag false)
      ∧ (s.execute (.prepareAndCommit txn)).1 = .ok (.flag false) := by
  have hf : (s.verdict txn).isPrepared = false := by simpa [PrepareOutcome.isPrepared] using h
  simp only [execute, tryPrepare_of_refused h, hf, Bool.false_eq_true, if_false, and_self]

/-- Each command treats the lock of each key by the rule. So over a run a key never goes from one
transaction to another without being free in between, and while it is held no other transaction
that names it is prepared. -/
theorem keys_change_hands_free (s : State) (p : Place) :
    (∀ c : Command, c.KeyRule (s.execute c).1 p (s.locks.get? p.1 p.2)
        ((s.execute c).2.locks.get? p.1 p.2))
      ∧ (∀ (cs : List Command) (id id' : UInt64), s.locks.holder? p = some id →
          (s.after cs).locks.holder? p = some id' → id ≠ id' →
            ∃ n < cs.length, (s.after (cs.take n)).locks.holder? p = none)
      ∧ ∀ (txn : Transaction) (id : UInt64), p ∈ txn.places → s.locks.holder? p = some id →
          id ≠ txn.id → (s.execute (.prepare txn)).1 = .ok (.flag false)
            ∧ (s.execute (.prepareAndCommit txn)).1 = .ok (.flag false) := by
  refine ⟨fun c => (step_execute s c).keyRule p,
    fun cs id id' h h' hne => exists_free_between hne h h',
    fun txn id hp hid hne => execute_of_refused fun hv => ?_⟩
  obtain ⟨lock, hlock, rfl⟩ := Option.map_eq_some_iff.1 hid
  exact hne ((verdict_eq_prepared.1 hv).1 p hp lock hlock)

theorem keys_change_hands_free_handed_on :
    let one : Transaction := ⟨1, [⟨"t", "k", .put ⟨[1]⟩⟩, ⟨"t", "k", .put ⟨[2]⟩⟩]⟩
    let two : Transaction := ⟨2, [⟨"u", "j", .remove⟩, ⟨"t", "k", .putIfAbsent ⟨[3]⟩⟩]⟩
    let s : State := (∅ : State).after [.prepare one]
    let cs : List Command := [.prepare two, .commit two, .rollback one, .prepare two]
    s.locks.holder? ("t", "k") = some 1 ∧ (s.after cs).locks.holder? ("t", "k") = some 2
      ∧ (s.execute (.prepare two)).1 = .ok (.flag false)
      ∧ ∃ n < cs.length, (s.after (cs.take n)).locks.holder? ("t", "k") = none := by
  intro one two s cs
  have hone : s.locks.holder? ("t", "k") = some 1 := by decide
  have htwo : (s.after cs).locks.holder? ("t", "k") = some 2 := by decide
  obtain ⟨-, hfree, hrefused⟩ := keys_change_hands_free s ("t", "k")
  exact ⟨hone, htwo, (hrefused two 1 (by decide) hone (by decide)).1,
    hfree cs 1 2 hone htwo (by decide)⟩

end State

end Lockstep
