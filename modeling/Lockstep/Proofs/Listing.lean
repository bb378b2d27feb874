import Lockstep.Proofs.Footprint

/-!
# Which tables are listed

A command lists the table of a key write or a clear that no lock stands in the way of, and the
tables of the writes it makes from locks; nothing takes a table off the list again
(`lists_execute`). So the tables listed after a run are those that its commands list, each in the
state it finds (`tables_listed`).

A removal that waited in a lock lists its table like a put, though no entry comes of it
(`table_listed_by_removal`).
-/

namespace Lockstep

namespace Tables

variable {s s' s'' : Tables} {t k : String} {ts us : List String}

/-- The tables listed in `s'` are those of `ts` and those listed in `s`. -/
def Lists (s : Tables) (ts : List String) (s' : Tables) : Prop :=
  ∀ t, s'.names.contains t = true ↔ s.names.contains t = true ∨ t ∈ ts

theorem lists_nil (s : Tables) : s.Lists [] s := fun t => by simp

theorem Lists.trans (h : s.Lists ts s') (h' : s'.Lists us s'') : s.Lists (ts ++ us) s'' := by
  intro t
  rw [h' t, h t, List.mem_append, or_assoc]

theorem contains_names (s : Tables) (t : String) :
    s.names.contains t = (s.tables.get? t).isSome :=
  OrdMap.contains_keySet s.tables t

theorem lists_insert (s : Tables) (t : String) (table : Table) (n : UInt64) :
    s.Lists [t] ⟨s.tables.insert t table, n⟩ := by
  intro t'
  rw [contains_names, contains_names, OrdMap.get?_insert, List.mem_singleton]
  split_ifs with h <;> simp [h]

theorem contains_names_of_get? {e : Versioned} (h : s.get? t k = some e) :
    s.names.contains t = true := by
  rw [contains_names]
  rw [get?, table] at h
  rcases ht : s.tables.get? t with _ | table
  · rw [ht] at h
    cases h
  · rfl

theorem lists_removeIf (s : Tables) (t k : String) (p : Versioned → Bool) :
    s.Lists [t] (s.removeIf t k p).2 := by
  unfold removeIf
  split <;> exact lists_insert s t _ _

theorem lists_replaceIf (s : Tables) (t k : String) (p : Versioned → Bool) (v : Value) :
    s.Lists [t] (s.replaceIf t k p v).2 := by
  unfold replaceIf
  split <;> exact lists_insert s t _ _

/-- A key write lists its table, whether or not its condition holds. Where an entry stands in its
way nothing is written, but then the table is listed already. -/
theorem lists_write (s : Tables) (t k : String) : ∀ w : KeyWrite,
    s.Lists [t] (s.write t k w).2
  | .put _ | .remove => lists_insert s t _ _
  | .putIfAbsent v => by
    simp only [write, putIfAbsent]
    rcases he : s.get? t k with _ | e
    · exact lists_insert s t _ _
    · intro t'
      have ht : s.names.contains t = true := contains_names_of_get? he
      simp only [List.mem_singleton]
      exact (or_iff_left_of_imp fun h => h ▸ ht).symm
  | .removeIfValue v => lists_removeIf s t k (·.value = v)
  | .removeIfVersion n => lists_removeIf s t k (·.version = n)
  | .replaceValue old new => lists_replaceIf s t k (·.value = old) new
  | .replaceVersion old new => lists_replaceIf s t k (·.version = old) new

theorem lists_settle (s : Tables) (t k : String) : ∀ w : PendingWrite,
    s.Lists [t] (s.settle t k w)
  | .put _ | .tombstone => lists_insert s t _ _

theorem lists_settleAll : ∀ (ws : List Settlement) (s : Tables),
    s.Lists (ws.map (·.table)) (s.settleAll ws)
  | [], s => lists_nil s
  | w :: ws, s => (lists_settle s w.table w.key w.pending).trans (lists_settleAll ws _)

end Tables

namespace State

/-- The table of a key write or a clear that no lock stands in the way of. -/
def written (s : State) (c : Command) : List String :=
  match c, (s.execute c).1 with
  | .write t _ _, .ok _ | .clear t, .ok _ => [t]
  | _, _ => []

/-- The writes a command makes that waited in locks, those of a transaction that is committed as
soon as it is prepared included. -/
def settled (s : State) (c : Command) : List Settlement :=
  match c with
  | .commit txn => s.locks.settlements txn.id txn.updates
  | .prepareAndCommit txn =>
    if (s.execute c).1 = .ok (.flag true) then
      (s.lockAll txn).locks.settlements txn.id txn.updates
    else []
  | _ => []

/-- The commands of a run, each with the state it finds. -/
def steps (s : State) : List Command → List (State × Command)
  | [] => []
  | c :: cs => (s, c) :: steps (s.execute c).2 cs

/-- The tables of the key writes and clears of a run that were not locked out, and of the puts it
made from locks. -/
def tablesNamed (s : State) (cs : List Command) : List String :=
  (s.steps cs).flatMap fun e =>
    e.1.written e.2 ++ ((e.1.settled e.2).filter Settlement.isPut).map (·.table)

/-- The tables of the removals that a run made from locks. -/
def tablesRemovedFrom (s : State) (cs : List Command) : List String :=
  (s.steps cs).flatMap fun e =>
    ((e.1.settled e.2).filter fun w => !w.isPut).map (·.table)

/-- The tables a run lists, one way or the other. -/
def tablesListed (s : State) (cs : List Command) : List String :=
  (s.steps cs).flatMap fun e => e.1.written e.2 ++ (e.1.settled e.2).map (·.table)

variable {s : State} {c : Command} {t : String}

theorem lists_execute (s : State) (c : Command) :
    s.tables.Lists (s.written c ++ (s.settled c).map (·.table)) (s.execute c).2.tables := by
  have hstep := step_execute s c
  unfold written settled
  generalize s.execute c = r at hstep ⊢
  cases hstep with
  | write h => exact Tables.lists_write s.tables _ _ _
  | clear h => exact Tables.lists_insert s.tables _ _ _
  | commit txn => exact Tables.lists_settleAll _ s.tables
  | @batch txn hv =>
    simp only [if_true, lockAll_eq, settlements_lockAll]
    exact Tables.lists_settleAll _ s.tables
  | _ => exact Tables.lists_nil s.tables

theorem lists_after : ∀ (cs : List Command) (s : State),
    s.tables.Lists (s.tablesListed cs) (s.after cs).tables
  | [], s => Tables.lists_nil s.tables
  | c :: cs, s => (lists_execute s c).trans (lists_after cs _)

theorem mem_tablesListed {cs : List Command} :
    t ∈ s.tablesListed cs ↔ t ∈ s.tablesNamed cs ∨ t ∈ s.tablesRemovedFrom cs := by
  simp only [tablesListed, tablesNamed, tablesRemovedFrom, List.mem_flatMap, List.mem_append,
    List.mem_map, List.mem_filter, ← exists_or, ← and_or_left]
  refine exists_congr fun e => and_congr_right fun _ => ?_
  rw [or_assoc, ← exists_or]
  refine or_congr_right (exists_congr fun w => ?_)
  cases w.isPut <;> simp

theorem contains_names_execute (h : s.tables.names.contains t = true) :
    (s.execute c).2.tables.names.contains t = true :=
  (lists_execute s c t).2 (.inl h)

/-- A run lists the tables of its key writes and clears that no lock stood in the way of, and those
of the writes it made from locks. These are the tables of the key writes, clears and puts alone just
if each table of a removal is among them. No command takes a table off the list; queries, counter
commands, preparations, rollbacks and refused transactions put none on it. -/
theorem tables_listed (cs : List Command) :
    let last := (∅ : State).after cs
    (∀ t, last.tables.names.contains t = true ↔ t ∈ tablesNamed ∅ cs ∨ t ∈ tablesRemovedFrom ∅ cs)
      ∧ ((∀ t, last.tables.names.contains t = true ↔ t ∈ tablesNamed ∅ cs)
        ↔ ∀ t ∈ tablesRemovedFrom ∅ cs, t ∈ tablesNamed ∅ cs)
      ∧ ∀ (s : State) (c : Command),
        (∀ t, s.tables.names.contains t = true → (s.execute c).2.tables.names.contains t = true)
          ∧ (c.LeavesTables → (s.execute c).2.tables.names = s.tables.names)
          ∧ ∀ txn, c.prepares? = some txn → (s.execute c).1 = .ok (.flag false) →
            (s.execute c).2.tables.names = s.tables.names := by
  intro last
  have hnone : ∀ t, (∅ : State).tables.names.contains t = false := fun _ => rfl
  have hlast : ∀ t, last.tables.names.contains t = true
      ↔ t ∈ tablesNamed ∅ cs ∨ t ∈ tablesRemovedFrom ∅ cs := by
    intro t
    rw [lists_after cs ∅ t, hnone, mem_tablesListed]
    simp
  refine ⟨hlast, ?_, fun s c => ⟨fun t => contains_names_execute, fun hc => ?_,
    fun txn hc hr => ?_⟩⟩
  · simp only [hlast]
    exact forall_congr' fun t => or_iff_left_iff_imp
  · rw [(step_execute s c).tables_eq hc]
  · rw [(step_execute s c).eq_of_refused hc hr]

/-- A table that was never written to is listed by a removal that finds nothing to remove. -/
theorem table_listed_by_removal :
    let txn : Transaction := ⟨1, [⟨"t", "k", .remove⟩]⟩
    let cs : List Command := [.prepare txn, .commit txn]
    ((∅ : State).after cs).tables.names.contains "t" = true ∧ "t" ∉ tablesNamed ∅ cs
      ∧ ¬ ∀ t, ((∅ : State).after cs).tables.names.contains t = true ↔ t ∈ tablesNamed ∅ cs := by
  intro txn cs
  have hlisted : ((∅ : State).after cs).tables.names.contains "t" = true := by decide
  have hnamed : "t" ∉ tablesNamed ∅ cs := by decide
  exact ⟨hlisted, hnamed, fun h => hnamed ((h "t").1 hlisted)⟩

end State

end Lockstep
