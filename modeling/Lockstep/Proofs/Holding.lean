import Lockstep.Proofs.Preparation
import Lockstep.Proofs.Run

/-!
# What a prepared transaction holds

From the moment it is prepared a transaction holds each of its keys, with the write of its last
update to the key, and all its conditions hold (`Holding`). No command about another transaction
changes that or an entry of these keys (`Step.holding`), so a commit finds the write that the last
update to each key means, once, and makes it over the entry that was checked
(`held_until_resolved`).
-/

namespace Lockstep.State

variable {s : State} {txn : Transaction}

/-- The transaction holds all its keys, each with the last write meant for it, and could still be
prepared. -/
structure Holding (s : State) (txn : Transaction) : Prop where
  locked : ∀ p ∈ txn.places, s.locks.get? p.1 p.2 = (txn.pending? p).map (Lock.mk txn.id)
  possible : ∀ u ∈ txn.updates, u.kind.holds (s.tables.get? u.table u.key) = true

theorem Holding.exists_pending (h : s.Holding txn) {p : Place} (hp : p ∈ txn.places) :
    ∃ w, txn.pending? p = some w ∧ s.locks.get? p.1 p.2 = some ⟨txn.id, w⟩ := by
  obtain ⟨w, hw⟩ := Transaction.exists_pending? hp
  exact ⟨w, hw, by rw [h.locked p hp, hw, Option.map_some]⟩

theorem Holding.settlements (h : s.Holding txn) :
    s.locks.settlements txn.id txn.updates = txn.settlements :=
  Locks.settlements_eq h.locked

theorem Holding.of_prepared (h : s.verdict txn = .prepared) : (s.lockAll txn).Holding txn where
  locked := fun _ hp => Locks.get?_lockAll_of_mem hp
  possible := (verdict_eq_prepared.1 h).2

theorem Holding.of_eq {s' : State} (h : s.Holding txn)
    (hlocks : ∀ p ∈ txn.places, s'.locks.get? p.1 p.2 = s.locks.get? p.1 p.2)
    (htables : ∀ p ∈ txn.places, s'.tables.get? p.1 p.2 = s.tables.get? p.1 p.2) :
    s'.Holding txn where
  locked := fun p hp => (hlocks p hp).trans (h.locked p hp)
  possible := fun u hu => by
    rw [htables _ (Transaction.place_mem_places hu)]
    exact h.possible u hu

theorem Step.holding {c : Command} {r : Outcome Output × State} (hstep : Step s c r)
    (hc : Spares txn.id c) (h : s.Holding txn) :
    r.2.Holding txn ∧ ∀ p ∈ txn.places, r.2.tables.get? p.1 p.2 = s.tables.get? p.1 p.2 := by
  have hkeeps : ∀ p ∈ txn.places, r.2.locks.get? p.1 p.2 = s.locks.get? p.1 p.2
      ∧ r.2.tables.get? p.1 p.2 = s.tables.get? p.1 p.2 := by
    intro p hp
    obtain ⟨w, -, hw⟩ := h.exists_pending hp
    rw [hw]
    exact hstep.keeps hc hw
  exact ⟨h.of_eq (fun p hp => (hkeeps p hp).1) fun p hp => (hkeeps p hp).2,
    fun p hp => (hkeeps p hp).2⟩

theorem holding_after : ∀ {cs : List Command} {s : State}, (∀ c ∈ cs, Spares txn.id c) →
    s.Holding txn → (s.after cs).Holding txn
      ∧ ∀ p ∈ txn.places, (s.after cs).tables.get? p.1 p.2 = s.tables.get? p.1 p.2
  | [], _, _, h => ⟨h, fun _ _ => rfl⟩
  | c :: cs, s, hcs, h => by
    obtain ⟨h1, htables⟩ := (step_execute s c).holding (hcs c List.mem_cons_self) h
    obtain ⟨h2, htables'⟩ := holding_after (fun d hd => hcs d (List.mem_cons_of_mem c hd)) h1
    exact ⟨h2, fun p hp => (htables' p hp).trans (htables p hp)⟩

/-- A commit makes the write of the last update to each key and frees the keys. -/
theorem Holding.commit (h : s.Holding txn) :
    (s.commit txn).tables = s.tables.batch txn
      ∧ ∀ p ∈ txn.places, (s.commit txn).locks.get? p.1 p.2 = none := by
  refine ⟨?_, fun p hp => ?_⟩
  · rw [commit_eq, h.settlements, Tables.settleAll_settlements]
  · obtain ⟨w, -, hw⟩ := h.exists_pending hp
    rw [commit_eq, Locks.get?_releaseAll]
    exact if_pos ⟨hp, w, hw⟩

/-- What a commit leaves at a key is what the last update to it means. -/
theorem Holding.value_commit (h : s.Holding txn) {p : Place} (hp : p ∈ txn.places) {u : Update}
    (hu : txn.lastUpdate? p = some u) :
    ((s.commit txn).tables.get? p.1 p.2).map (·.value) = u.kind.value? := by
  have hmem : (⟨p.1, p.2, u.kind.pending⟩ : Settlement) ∈ txn.settlements :=
    List.mem_filterMap.2 ⟨p, hp, by rw [Transaction.pending?_eq, hu]; rfl⟩
  have hnodup : (txn.settlements.map Settlement.place).Nodup := by
    rw [Transaction.map_place_settlements]
    exact nodup_places txn.updates
  rw [commit_eq, h.settlements, ← UpdateKind.value?_pending]
  exact Tables.value_settleAll hnodup hmem

/-- From its preparation on, as long as no command is about it, a transaction holds each of its
keys, the entries of these keys stay what they were, and its conditions stay true of them. What
waits in the lock of a key is what the last update to it means: the value to be put, or that the
entry is to go. A commit makes just these writes, one for each key, and so leaves that value or no
entry at the key, and frees it. -/
theorem held_until_resolved (s : State) (txn : Transaction) (cs : List Command)
    (hprep : (s.tryPrepare txn).1 = .prepared) (hcs : ∀ c ∈ cs, Spares txn.id c) (n : ℕ) :
    let held := (s.tryPrepare txn).2.after (cs.take n)
    (∀ p ∈ txn.places, held.tables.get? p.1 p.2 = s.tables.get? p.1 p.2)
      ∧ (∀ u ∈ txn.updates, u.kind.Permits (held.tables.get? u.table u.key))
      ∧ (∀ p ∈ txn.places, ∃ u, txn.lastUpdate? p = some u
        ∧ (∀ v, u.kind.value? = some v → held.locks.get? p.1 p.2 = some ⟨txn.id, .put v⟩
          ∧ ((held.commit txn).tables.get? p.1 p.2).map (·.value) = some v)
        ∧ (u.kind.value? = none → held.locks.get? p.1 p.2 = some ⟨txn.id, .tombstone⟩
          ∧ (held.commit txn).tables.get? p.1 p.2 = none))
      ∧ txn.places.Nodup ∧ txn.lastUpdates.map Update.place = txn.places
      ∧ held.locks.settlements txn.id txn.updates = txn.settlements
      ∧ (held.commit txn).tables = held.tables.batch txn
      ∧ ∀ p ∈ txn.places, (held.commit txn).locks.get? p.1 p.2 = none := by
  intro held
  have hv : s.verdict txn = .prepared := (fst_tryPrepare s txn).symm.trans hprep
  obtain ⟨h, htables⟩ : held.Holding txn
      ∧ ∀ p ∈ txn.places, held.tables.get? p.1 p.2 = s.tables.get? p.1 p.2 := by
    simp only [held, tryPrepare_of_prepared hv]
    exact holding_after (fun c hc => hcs c (List.mem_of_mem_take hc)) (Holding.of_prepared hv)
  refine ⟨htables, fun u hu => (u.kind.holds_iff _).1 (h.possible u hu), fun p hp => ?_,
    nodup_places txn.updates, Transaction.map_place_lastUpdates, h.settlements, h.commit⟩
  obtain ⟨u, hu⟩ := Transaction.exists_lastUpdate? hp
  obtain ⟨hput, hgone⟩ := Locks.get?_of_lastUpdate? (h.locked p hp) hu
  have hvalue := h.value_commit hp hu
  refine ⟨u, hu, fun v hv => ⟨hput v hv, hvalue.trans hv⟩, fun hnone => ⟨hgone hnone, ?_⟩⟩
  exact Option.map_eq_none_iff.1 (hvalue.trans hnone)

theorem held_against_others :
    let s : State := (∅ : State).after [.write "t" "k" (.put ⟨[1]⟩)]
    let txn : Transaction := ⟨7, [⟨"t", "k", .put ⟨[2]⟩⟩, ⟨"u", "k", .remove⟩,
      ⟨"t", "k", .removeIfVersion 1⟩, ⟨"u", "k", .putIfAbsent ⟨[4]⟩⟩]⟩
    let rival : Transaction := ⟨8, [⟨"t", "j", .put ⟨[3]⟩⟩, ⟨"t", "k", .remove⟩]⟩
    let cs : List Command := [.write "t" "k" .remove, .prepare rival, .clear "t", .commit rival]
    let held : State := (s.tryPrepare txn).2.after cs
    (s.tryPrepare txn).1 = .prepared ∧ (∀ c ∈ cs, Spares txn.id c)
      ∧ held.tables.get? "t" "k" = some ⟨⟨[1]⟩, 1⟩
      ∧ held.locks.get? "t" "k" = some ⟨7, .tombstone⟩
      ∧ (held.commit txn).tables.get? "t" "k" = none
      ∧ held.locks.get? "u" "k" = some ⟨7, .put ⟨[4]⟩⟩
      ∧ ((held.commit txn).tables.get? "u" "k").map (·.value) = some ⟨[4]⟩ := by
  intro s txn rival cs held
  have hprep : (s.tryPrepare txn).1 = .prepared := by decide
  have hcs : ∀ c ∈ cs, Spares txn.id c := by
    simp [cs, txn, rival, Spares, Command.transaction?]
  obtain ⟨htables, -, hwrites, -⟩ := held_until_resolved s txn cs hprep hcs 4
  have hremoved : ("t", "k") ∈ txn.places := by decide
  have hwritten : ("u", "k") ∈ txn.places := by decide
  have hremoval : txn.lastUpdate? ("t", "k") = some ⟨"t", "k", .removeIfVersion 1⟩ := by decide
  have hwrite : txn.lastUpdate? ("u", "k") = some ⟨"u", "k", .putIfAbsent ⟨[4]⟩⟩ := by decide
  obtain ⟨u, hu, -, hgone⟩ := hwrites ("t", "k") hremoved
  obtain ⟨v, hv, hput, -⟩ := hwrites ("u", "k") hwritten
  cases hremoval.symm.trans hu
  cases hwrite.symm.trans hv
  obtain ⟨hlock, hnone⟩ := hgone rfl
  obtain ⟨hlock', hvalue⟩ := hput _ rfl
  exact ⟨hprep, hcs, (htables _ hremoved).trans (by decide), hlock, hnone, hlock', hvalue⟩

end Lockstep.State
