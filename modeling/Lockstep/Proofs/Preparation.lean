import Lockstep.Proofs.Step

/-!
# What a preparation does

How an attempt to prepare a transaction ends is told by the state before it (`verdict_eq_ite`). A
key that another transaction holds counts first, then the conditions, each of them asked of the
entry as it was, whatever the other updates are. A refusal leaves the state alone. A preparation
that succeeds changes the locks only: each key named is held with the write that its last update
means, and there are as many more locks as keys were free (`prepared_all_or_nothing`).
-/

namespace Lockstep

/-- The condition of the kind is true of the entry. -/
def UpdateKind.Permits : UpdateKind → Option Versioned → Prop
  | put _, _ | remove, _ => True
  | putIfAbsent _, entry => entry = none
  | putIfVersion _ version, entry => ∃ e, entry = some e ∧ e.version = version
  | putIfValue _ current, entry => ∃ e, entry = some e ∧ e.value.bytes = current.bytes
  | removeIfVersion version, entry => ∀ e, entry = some e → e.version = version
  | removeIfValue current, entry => ∀ e, entry = some e → e.value.bytes = current.bytes

theorem Value.eq_iff_bytes {v w : Value} : v = w ↔ v.bytes = w.bytes :=
  ⟨congrArg bytes, fun h => by cases v; cases w; cases h; rfl⟩

theorem UpdateKind.holds_iff (kind : UpdateKind) (entry : Option Versioned) :
    kind.holds entry = true ↔ kind.Permits entry := by
  rcases entry with _ | e <;> cases kind <;> simp [holds, Permits, Value.eq_iff_bytes]

namespace Locks

variable {id : UInt64}

theorem count_lock (l : Locks) (t k : String) (w : PendingWrite) :
    (l.lock t k id w).count = l.count + if (l.get? t k).isNone then 1 else 0 := by
  rcases h : l.get? t k with _ | held <;> simp [lock, isLocked, h]

/-- Locking the keys of a transaction adds a lock for each that was free. Once a key is locked, an
update that names it again does not find it free. -/
theorem count_lockAll : ∀ {us : List Update} {l : Locks}, (lockAll id us l).count
    = l.count + ((places us).filter fun p => (l.get? p.1 p.2).isNone).length
  | [], l => rfl
  | u :: us, l => by
    have hfree : ∀ p : Place, ((l.lock u.table u.key id u.kind.pending).get? p.1 p.2).isNone
        = ((l.get? p.1 p.2).isNone && !p == u.place) := by
      intro p
      rw [get?_lock]
      by_cases hp : p = u.place
      · subst hp
        simp [Update.place]
      · rw [if_neg fun h => hp (Prod.ext h.1 h.2)]
        simp [hp]
    have ih : (lockAll id us (l.lock u.table u.key id u.kind.pending)).count = _ := count_lockAll
    rw [lockAll_cons, ih, count_lock, places_cons, List.filter_cons, List.filter_filter,
      List.filter_congr fun p _ => hfree p, Update.place]
    split_ifs
    · rw [List.length_cons]
      omega
    · rfl

end Locks

namespace State

variable {s : State} {txn : Transaction}

/-- Another transaction holds a key that this one names. -/
def Contended (s : State) (txn : Transaction) : Prop :=
  ∃ u ∈ txn.updates, ∃ id ≠ txn.id, s.locks.Holds id u.place

/-- Every condition of the transaction is true of the entry of its key. -/
def Possible (s : State) (txn : Transaction) : Prop :=
  ∀ u ∈ txn.updates, u.kind.Permits (s.tables.get? u.table u.key)

theorem contended_iff : s.Contended txn ↔
    (txn.updates.any fun u => s.locks.isLockedByAnother u.table u.key txn.id) = true := by
  rw [List.any_eq_true]
  refine exists_congr fun u => and_congr_right fun _ => ?_
  rw [Locks.isLockedByAnother_iff]
  constructor
  · rintro ⟨id, hne, w, hw⟩
    exact ⟨⟨id, w⟩, hw, hne⟩
  · rintro ⟨⟨id, w⟩, hw, hne⟩
    exact ⟨id, hne, w, hw⟩

theorem possible_iff : s.Possible txn ↔
    (txn.updates.all fun u => u.kind.holds (s.tables.get? u.table u.key)) = true := by
  rw [List.all_eq_true]
  exact forall₂_congr fun u _ => (u.kind.holds_iff _).symm

instance : Decidable (s.Contended txn) := decidable_of_iff _ contended_iff.symm

instance : Decidable (s.Possible txn) := decidable_of_iff _ possible_iff.symm

/-- How an attempt ends. -/
theorem verdict_eq_ite (s : State) (txn : Transaction) : s.verdict txn =
    if s.Contended txn then .conflict
    else if s.Possible txn then .prepared else .preconditionFailed := by
  simp only [contended_iff, possible_iff]
  rfl

theorem tryPrepare_eq (s : State) (txn : Transaction) : s.tryPrepare txn
    = (s.verdict txn, if s.verdict txn = .prepared then s.lockAll txn else s) := by
  by_cases hv : s.verdict txn = .prepared
  · rw [tryPrepare_of_prepared hv, if_pos hv, hv]
  · rw [tryPrepare_of_refused hv, if_neg hv]

theorem fst_tryPrepare (s : State) (txn : Transaction) : (s.tryPrepare txn).1 = s.verdict txn :=
  congrArg Prod.fst (tryPrepare_eq s txn)

theorem snd_tryPrepare (s : State) (txn : Transaction) : (s.tryPrepare txn).2
    = if s.verdict txn = .prepared then s.lockAll txn else s :=
  congrArg Prod.snd (tryPrepare_eq s txn)

theorem verdict_exact (s : State) (txn : Transaction) :
    (s.verdict txn = .conflict ↔ s.Contended txn)
      ∧ (s.verdict txn = .preconditionFailed ↔ ¬ s.Contended txn ∧ ¬ s.Possible txn)
      ∧ (s.verdict txn = .prepared ↔ ¬ s.Contended txn ∧ s.Possible txn) := by
  rw [verdict_eq_ite]
  split_ifs <;> simp [*]

/-- An attempt to prepare a transaction ends in a conflict just if a key it names is held by
another, whatever its conditions. Otherwise a condition has failed just if one of them is not true
of the entry there was before the attempt, and if none is, the transaction is prepared. Unless it is
prepared, the state stays as it was. If it is, tables, versions and counters stay, each key it names
is locked for it, with the value that the last update to the key means to put or to be removed, no
other lock changes, and there are as many more locks as keys it names were free. -/
theorem prepared_all_or_nothing (s : State) (txn : Transaction) :
    let outcome := (s.tryPrepare txn).1
    let next := (s.tryPrepare txn).2
    (outcome = .conflict ↔ s.Contended txn)
      ∧ (outcome = .preconditionFailed ↔ ¬ s.Contended txn ∧
        ∃ u ∈ txn.updates, ¬ u.kind.Permits (s.tables.get? u.table u.key))
      ∧ (outcome = .prepared ↔ ¬ s.Contended txn ∧
        ∀ u ∈ txn.updates, u.kind.Permits (s.tables.get? u.table u.key))
      ∧ (outcome ≠ .prepared → next = s)
      ∧ (outcome = .prepared →
        next.tables = s.tables ∧ next.counters = s.counters
          ∧ (∀ p ∈ txn.places, ∃ u, txn.lastUpdate? p = some u
            ∧ (∀ v, u.kind.value? = some v → next.locks.get? p.1 p.2 = some ⟨txn.id, .put v⟩)
            ∧ (u.kind.value? = none → next.locks.get? p.1 p.2 = some ⟨txn.id, .tombstone⟩))
          ∧ (∀ p ∉ txn.places, next.locks.get? p.1 p.2 = s.locks.get? p.1 p.2)
          ∧ next.locks.count
            = s.locks.count
              + (txn.places.filter fun p => (s.locks.get? p.1 p.2).isNone).length) := by
  intro outcome next
  have houtcome : outcome = s.verdict txn := fst_tryPrepare s txn
  have hnext : next = if s.verdict txn = .prepared then s.lockAll txn else s :=
    snd_tryPrepare s txn
  have hfails : (∃ u ∈ txn.updates, ¬ u.kind.Permits (s.tables.get? u.table u.key))
      ↔ ¬ s.Possible txn := by
    simp only [Possible, not_forall, exists_prop]
  obtain ⟨hconflict, hfailed, hprepared⟩ := verdict_exact s txn
  rw [houtcome, hnext, hfails]
  refine ⟨hconflict, hfailed, hprepared, fun hv => if_neg hv, fun hv => ?_⟩
  rw [if_pos hv]
  refine ⟨rfl, rfl, fun p hp => ?_, fun p hp => ?_, Locks.count_lockAll⟩
  · obtain ⟨u, hu⟩ := Transaction.exists_lastUpdate? hp
    exact ⟨u, hu, Locks.get?_of_lastUpdate? (Locks.get?_lockAll_of_mem hp) hu⟩
  · exact Locks.get?_lockAll_of_notMem hp

/-- Both updates to a key are asked of the entry as it was, and the last of them waits. -/
example :
    let s : State := ((∅ : State).write "t" "k" (.put ⟨[1]⟩)).2
    let txn : Transaction := ⟨7, [⟨"t", "k", .putIfVersion ⟨[2]⟩ 1⟩, ⟨"t", "j", .remove⟩,
      ⟨"t", "k", .removeIfValue ⟨[1]⟩⟩, ⟨"t", "j", .putIfAbsent ⟨[3]⟩⟩]⟩
    (s.tryPrepare txn).2.locks.get? "t" "k" = some ⟨7, .tombstone⟩
      ∧ (s.tryPrepare txn).2.locks.get? "t" "j" = some ⟨7, .put ⟨[3]⟩⟩ := by
  decide

end State

end Lockstep
