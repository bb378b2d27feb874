import Lockstep.Proofs.Adoption
import Lockstep.Proofs.Step

/-!
# Runs

A run executes commands one after another. It starts from the empty state or from one that was
taken up from a context, and the states it passes through are the reachable ones.

A key that a transaction holds is out of reach for everyone else: a command about another
transaction, or about none, leaves the lock and the entry of the key alone (`Step.keeps`). Only a
preparation takes keys for a transaction (`Step.not_holds_of_unprepared`). Locks stay tidy
(`Reachable.coherent`).
-/

namespace Lockstep

/-- With this answer the command has prepared a transaction with this id. -/
def Command.Prepares (id : UInt64) (c : Command) (answer : Outcome Output) : Prop :=
  ∃ txn, c = .prepare txn ∧ txn.id = id ∧ answer = .ok (.flag true)

namespace State

/-- The state that is left after the commands. -/
def after (s : State) (cs : List Command) : State := cs.foldl (fun s c => (s.execute c).2) s

def answers (s : State) : List Command → List (Outcome Output)
  | [] => []
  | c :: cs => (s.execute c).1 :: answers (s.execute c).2 cs

/-- A state that a run may start from. -/
inductive Start : State → Prop
  | empty : Start ∅
  | adopted {c : Context} {s : State} (h : ofContext c = .ok s) : Start s

/-- A state that some run passes through. -/
def Reachable (s : State) : Prop := ∃ s₀ cs, Start s₀ ∧ s = after s₀ cs

@[simp] theorem after_nil (s : State) : s.after [] = s := rfl

@[simp] theorem after_cons (s : State) (c : Command) (cs : List Command) :
    s.after (c :: cs) = (s.execute c).2.after cs := rfl

theorem after_concat (s : State) (cs : List Command) (c : Command) :
    s.after (cs ++ [c]) = ((s.after cs).execute c).2 := List.foldl_concat ..

variable {s s' : State} {c : Command} {o : Outcome Output} {id : UInt64}

theorem after_induction {P : State → Prop}
    (hstep : ∀ {s c r}, Step s c r → P s → P r.2) :
    ∀ {s : State} (cs : List Command), P s → P (s.after cs)
  | _, [], h => h
  | s, c :: cs, h => after_induction hstep cs (hstep (step_execute s c) h)

theorem Step.coherent {r : Outcome Output × State} (h : Step s c r) (hs : s.locks.Coherent) :
    r.2.locks.Coherent := by
  cases h with
  | prepare => exact hs.lockAll
  | commit | rollback => exact hs.releaseAll
  | batch => exact hs.lockAll.releaseAll
  | _ => exact hs

theorem Start.coherent (h : Start s) : s.locks.Coherent := by
  cases h with
  | empty => exact Locks.coherent_empty
  | adopted h =>
    rw [(ofContext_eq_ok.1 h).1]
    exact Locks.coherent_ofMap _

theorem Start.bounded (h : Start s) : s.tables.Bounded := by
  cases h with
  | empty => exact fun t k e he => by cases he
  | adopted h => exact (ofContext_eq_ok.1 h).2.2

theorem Reachable.coherent (h : Reachable s) : s.locks.Coherent := by
  obtain ⟨s₀, cs, h₀, rfl⟩ := h
  exact after_induction Step.coherent cs h₀.coherent

/-- The command is not about the transaction with this id. -/
def Spares (id : UInt64) (c : Command) : Prop := ∀ txn, c.transaction? = some txn → txn.id ≠ id

theorem not_mem_places_of_prepared {txn : Transaction} {p : Place}
    (h : s.verdict txn = .prepared) (hp : s.locks.Holds id p) (hne : txn.id ≠ id) :
    p ∉ txn.places := by
  intro hmem
  obtain ⟨w, hw⟩ := hp
  exact hne ((verdict_eq_prepared.1 h).1 p hmem _ hw).symm

theorem not_holds_of_ne {l : Locks} {p : Place} {id' : UInt64} (h : l.Holds id p)
    (hne : id' ≠ id) : ¬ l.Holds id' p := by
  rintro ⟨w', hw'⟩
  obtain ⟨w, hw⟩ := h
  rw [hw] at hw'
  cases hw'
  exact hne rfl

/-- A held key keeps its lock and its entry, unless the command is about the holder. -/
theorem Step.keeps {r : Outcome Output × State} (h : Step s c r) (hc : Spares id c) {t k : String}
    {w : PendingWrite} (hl : s.locks.get? t k = some ⟨id, w⟩) :
    r.2.locks.get? t k = some ⟨id, w⟩ ∧ r.2.tables.get? t k = s.tables.get? t k := by
  have hh : s.locks.Holds id (t, k) := ⟨w, hl⟩
  cases h with
  | query | lockedWrite | lockedClear | nextValue | currentValue | refusal | refusedBatch =>
    exact ⟨hl, rfl⟩
  | @write t' k' w' hfree =>
    refine ⟨hl, Tables.get?_write_of_ne _ (fun he => ?_) w'⟩
    cases he
    rw [hl] at hfree
    cases hfree
  | @clear t' hfree =>
    refine ⟨hl, ?_⟩
    simp only [Tables.get?_clear]
    rw [if_neg]
    rintro rfl
    rw [Locks.hasLocks_of_get? hl] at hfree
    cases hfree
  | @prepare txn hv =>
    have hp := not_mem_places_of_prepared hv hh (hc txn rfl)
    exact ⟨(Locks.get?_lockAll_of_notMem hp).trans hl, rfl⟩
  | commit txn =>
    have hn := not_holds_of_ne hh (hc txn rfl)
    exact ⟨(Locks.get?_releaseAll_of_not_holds hn).trans hl,
      Tables.get?_settleAll_of_notMem fun hm => hn (Locks.place_mem_settlements hm).2⟩
  | rollback txn =>
    have hn := not_holds_of_ne hh (hc txn rfl)
    exact ⟨(Locks.get?_releaseAll_of_not_holds hn).trans hl, rfl⟩
  | @batch txn hv =>
    have hp := not_mem_places_of_prepared hv hh (hc txn rfl)
    refine ⟨?_, Tables.get?_settleAll_of_notMem (by rwa [Transaction.map_place_settlements])⟩
    simp only [Locks.get?_releaseAll_lockAll]
    exact (if_neg hp).trans hl

/-- A key that the transaction does not hold stays so, unless the transaction is prepared. -/
theorem Step.not_holds_of_unprepared {r : Outcome Output × State} (h : Step s c r)
    (hc : ¬ c.Prepares id r.1) {p : Place} (hp : ¬ s.locks.Holds id p) :
    ¬ r.2.locks.Holds id p := by
  cases h with
  | @prepare txn hv =>
    rintro ⟨w, hw⟩
    simp only [Locks.get?_lockAll] at hw
    rcases hpend : pending? txn.updates (p.1, p.2) with _ | v
    · rw [hpend] at hw
      exact hp ⟨w, hw⟩
    · rw [hpend] at hw
      cases hw
      exact hc ⟨txn, rfl, rfl, rfl⟩
  | commit txn | rollback txn => exact fun hh => hp (Locks.holds_of_releaseAll hh).1
  | @batch txn hv =>
    rintro ⟨w, hw⟩
    simp only [Locks.get?_releaseAll_lockAll] at hw
    split at hw
    · cases hw
    · exact hp ⟨w, hw⟩
  | _ => exact hp

theorem Step.not_holds {r : Outcome Output × State} (h : Step s c r) (hc : Spares id c)
    {p : Place} (hp : ¬ s.locks.Holds id p) : ¬ r.2.locks.Holds id p := by
  refine h.not_holds_of_unprepared ?_ hp
  rintro ⟨txn, rfl, hid, -⟩
  exact hc txn rfl hid

end State

end Lockstep
