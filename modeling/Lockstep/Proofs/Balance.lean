import Lockstep.Proofs.Limit
import Mathlib.Data.List.Nodup

/-!
# The balance of the counters

A run is a list of exchanges, each a request with the state it found and the reply it got. Which
counters an exchange adds to can be told from the exchange and the limit (`Tally.counts`), and from
a replica's creation on each counter is the number of the exchanges it counts, modulo 2^64
(`Replica.counters_balance`).
-/

namespace Lockstep

/-- What the counters count. -/
inductive Tally where
  | entries
  | oversized
  | prepare
  | prepared
  | conflict
  | preconditionFailed
  | commit
  | rollback
  | locked
  | protocolViolation
  deriving DecidableEq

/-- Some key of the transaction is locked by another one. -/
def State.isContended (s : State) (txn : Transaction) : Bool :=
  txn.updates.any fun u => s.locks.isLockedByAnother u.table u.key txn.id

/-- A request of a run, with the state it found and the reply it got. -/
structure Exchange where
  before : State
  request : Request
  reply : Except Error Reply

/-- The command that was applied, and its answer. -/
def Exchange.applied? (x : Exchange) : Option (Command × Outcome Output) :=
  match x.reply with
  | .ok (.applied a) => x.request.entry?.map fun e => (e.2, a.outcome)
  | _ => none

namespace Tally

/-- The counter of the metrics. -/
def name : Tally → String
  | entries => Metrics.entriesTotal
  | oversized => Metrics.oversizedTotal
  | prepare => Metrics.prepareTotal
  | prepared => Metrics.preparedTotal
  | conflict => Metrics.conflictTotal
  | preconditionFailed => Metrics.preconditionFailedTotal
  | commit => Metrics.commitTotal
  | rollback => Metrics.rollbackTotal
  | locked => Metrics.lockedTotal
  | protocolViolation => Metrics.protocolViolationTotal

def all : List Tally :=
  [entries, oversized, prepare, prepared, conflict, preconditionFailed, commit, rollback, locked,
    protocolViolation]

theorem mem_all (t : Tally) : t ∈ all := by cases t <;> decide

theorem name_injective : Function.Injective name := by
  have hnodup : (all.map name).Nodup := by decide
  exact fun t u => List.inj_on_of_nodup_map hnodup (mem_all t) (mem_all u)

/-- A command that was applied to a state, with this answer, is among what is counted. -/
def countsCommand (limit : UInt64) (s : State) (c : Command) (answer : Outcome Output) :
    Tally → Bool
  | entries => true
  | oversized => c.exceeds limit
  | prepare => c.prepares?.isSome && !c.exceeds limit
  | prepared => c.prepares?.isSome && !c.exceeds limit && answer = .ok (.flag true)
  | conflict => c.prepares?.any s.isContended && !c.exceeds limit
  | preconditionFailed =>
    c.prepares?.any (!s.isContended ·) && !c.exceeds limit && answer = .ok (.flag false)
  | commit =>
    match c with
    | .commit _ => true
    | .prepareAndCommit _ => answer = .ok (.flag true)
    | _ => false
  | rollback => (c matches .rollback _)
  | locked => answer = .locked
  | protocolViolation => false

/-- The exchange is among what is counted. One that applied no command is counted only if its
payload could not be read. -/
def counts (limit : UInt64) (t : Tally) (x : Exchange) : Bool :=
  match x.applied? with
  | some (c, answer) => t.countsCommand limit x.before c answer
  | none => t = protocolViolation && x.request.isUnreadable

end Tally

/-! ## Events -/

/-- The counters an event adds one to. -/
def Event.tallies : Event → List Tally
  | applied _ => [.entries]
  | prepare .prepared => [.prepare, .prepared]
  | prepare .conflict => [.prepare, .conflict]
  | prepare .preconditionFailed => [.prepare, .preconditionFailed]
  | oversized => [.oversized]
  | commit => [.commit]
  | rollback => [.rollback]
  | locked => [.locked]
  | protocolViolation => [.protocolViolation]
  | state _ _ => []

namespace Metrics

theorem counter_inc (m : Metrics) (t u : Tally) :
    (m.inc t.name).counter u.name = m.counter u.name + .ofNat ([t].count u) := by
  rw [inc, add, counter, get?_change, List.count_singleton]
  by_cases h : u = t
  · subst h
    simp [counter]
  · have hne : u.name ≠ t.name := fun hn => h (Tally.name_injective hn)
    simp [hne, beq_eq_false_iff_ne.2 (Ne.symm h), counter]

theorem counter_foldl_inc (u : Tally) : ∀ (ts : List Tally) (m : Metrics),
    (ts.foldl (fun m t => m.inc t.name) m).counter u.name = m.counter u.name + .ofNat (ts.count u)
  | [], m => (UInt64.add_zero _).symm
  | t :: ts, m => by
    rw [List.foldl_cons, counter_foldl_inc u ts, counter_inc, UInt64.add_assoc, ← UInt64.ofNat_add,
      ← List.count_append, List.singleton_append]

theorem counters_record (m : Metrics) (e : Event) :
    (m.record e).counters = (e.tallies.foldl (fun m t => m.inc t.name) m).counters := by
  cases e with
  | prepare outcome => cases outcome <;> rfl
  | _ => rfl

theorem counter_record (m : Metrics) (e : Event) (t : Tally) :
    (m.record e).counter t.name = m.counter t.name + .ofNat (e.tallies.count t) := by
  rw [counter, counters_record]
  exact counter_foldl_inc t e.tallies m

theorem counter_foldl_record (t : Tally) : ∀ (es : List Event) (m : Metrics),
    (es.foldl record m).counter t.name
      = m.counter t.name + .ofNat ((es.flatMap Event.tallies).count t)
  | [], m => (UInt64.add_zero _).symm
  | e :: es, m => by
    rw [List.foldl_cons, counter_foldl_record t es, counter_record, UInt64.add_assoc,
      ← UInt64.ofNat_add, ← List.count_append, List.flatMap_cons]

end Metrics

/-- Each preparation is counted once more, by how it ended. -/
theorem Event.balance : ∀ es : List Event,
    (es.flatMap tallies).count .prepare = (es.flatMap tallies).count .prepared
      + (es.flatMap tallies).count .conflict + (es.flatMap tallies).count .preconditionFailed
  | [] => rfl
  | e :: es => by
    have he : e.tallies.count .prepare = e.tallies.count .prepared + e.tallies.count .conflict
        + e.tallies.count .preconditionFailed := by
      cases e with
      | prepare outcome => cases outcome <;> rfl
      | _ => rfl
    have ih := balance es
    simp only [List.flatMap_cons, List.count_append]
    omega

/-! ## One request -/

theorem State.isContended_eq (s : State) (txn : Transaction) :
    s.isContended txn = decide (s.verdict txn = .conflict) := by
  unfold verdict
  split_ifs with h hall
  · exact h
  · exact Bool.eq_false_iff.2 h
  · exact Bool.eq_false_iff.2 h

/-- Both preparations answer whether the transaction was prepared. -/
theorem State.execute_prepares (s : State) {c : Command} {txn : Transaction}
    (h : c.prepares? = some txn) : (s.execute c).1 = .ok (.flag (s.verdict txn).isPrepared) := by
  have hprepare : (s.execute (.prepare txn)).1 = .ok (.flag (s.verdict txn).isPrepared)
      ∧ (s.execute (.prepareAndCommit txn)).1 = .ok (.flag (s.verdict txn).isPrepared) := by
    rw [execute_prepareAndCommit]
    simp only [execute, tryPrepare, prepareAndCommit]
    rcases s.verdict txn with _ | _ | _ <;> exact ⟨rfl, rfl⟩
  cases c with
  | prepare => exact Option.some.inj h ▸ hprepare.1
  | prepareAndCommit => exact Option.some.inj h ▸ hprepare.2
  | _ => cases h

namespace Replica

variable {r : Replica} {q : Request} {limit : UInt64} {c : Command}

theorem flatMap_tallies_events (s : State) (c : Command) :
    (events s c).flatMap Event.tallies = (transactionEvents s c).flatMap Event.tallies
      ++ if (s.execute c).1.isLocked then [.locked] else [] := by
  rw [events, List.flatMap_append, List.flatMap_cons]
  split <;> rfl

/-- A command that is executed shows each event it counts for, and shows it once. For a preparation
the verdict alone says what is shown, what is answered and whether the keys are contended. -/
theorem count_events (s : State) (index : UInt64) (h : c.exceeds limit = false) (t : Tally) :
    ((events s c ++ [Event.applied index]).flatMap Event.tallies).count t
      = (t.countsCommand limit s c (s.execute c).1).toNat := by
  rw [List.flatMap_append, flatMap_tallies_events]
  unfold Tally.countsCommand
  rw [h]
  cases c with
  | prepare txn | prepareAndCommit txn =>
    rw [State.execute_prepares s rfl]
    simp only [transactionEvents, Command.prepares?, Option.any_some, State.isContended_eq]
    cases s.verdict txn <;> cases t <;> rfl
  | commit | rollback => cases t <;> rfl
  | _ => generalize (s.execute _).1 = answer; cases answer <;> cases t <;> rfl

/-- So does one that is above the limit, though it is not executed. -/
theorem count_oversized (s : State) (index : UInt64) (h : c.exceeds limit = true) (t : Tally) :
    ([Event.oversized, .applied index].flatMap Event.tallies).count t
      = (t.countsCommand limit s c (.ok (.flag false))).toNat := by
  unfold Tally.countsCommand
  simp only [h, Bool.not_true, Bool.and_false, Bool.false_and]
  cases c with
  | prepare | prepareAndCommit => cases t <;> rfl
  | _ => simp [Command.exceeds, Command.prepares?] at h

section Step

variable {x : Except Error Reply × Replica}

/-- A request adds to the counters what its exchange counts for. One that applied nothing and could
be read counts for nothing. -/
theorem Serves.counter (h : Serves r q x) (t : Tally) :
    x.2.metrics.counter t.name = r.metrics.counter t.name
      + .ofNat (t.counts r.config.maxTransactionUpdates ⟨r.state, q, x.1⟩).toNat := by
  have hsame (hq : q.isUnreadable = false) : r.metrics.counter t.name = r.metrics.counter t.name
      + .ofNat (decide (t = .protocolViolation) && q.isUnreadable).toNat := by
    rw [hq, Bool.and_false]
    exact (UInt64.add_zero _).symm
  simp only [Tally.counts, Exchange.applied?]
  cases h with
  | unreadable hq =>
    rw [hq]
    refine (Metrics.counter_record r.metrics .protocolViolation t).trans ?_
    cases t <;> rfl
  | late hq => exact hsame (Request.isUnreadable_of_entry hq)
  | @oversized _ index c hq _ ho =>
    rw [isOversized_eq] at ho
    simp only [hq, Option.map_some]
    rw [← count_oversized r.state index ho, ← Metrics.counter_foldl_record]
    rfl
  | @executed _ index c hq _ ho =>
    rw [isOversized_eq] at ho
    simp only [hq, Option.map_some]
    rw [← count_events r.state index ho, ← Metrics.counter_foldl_record, List.foldl_append]
    rfl
  | snapshot | refused | installed => exact hsame rfl

theorem Serves.balance (h : Serves r q x) :
    let n (t : Tally) := (t.counts r.config.maxTransactionUpdates ⟨r.state, q, x.1⟩).toNat
    n .prepare = n .prepared + n .conflict + n .preconditionFailed := by
  simp only [Tally.counts, Exchange.applied?]
  cases h with
  | @oversized _ index c hq _ ho =>
    rw [isOversized_eq] at ho
    simp only [hq, Option.map_some, ← count_oversized r.state index ho]
    exact Event.balance _
  | @executed _ index c hq _ ho =>
    rw [isOversized_eq] at ho
    simp only [hq, Option.map_some, ← count_events r.state index ho]
    exact Event.balance _
  | _ => rfl

theorem Serves.metrics_eq (h : Serves r q x) (hq : q = .snapshot ∨ (∃ bs, q = .install bs)
    ∨ ∃ i last, x.1 = .error (.applyOrder i last)) : x.2.metrics = r.metrics := by
  cases h with
  | late | snapshot | refused | installed => rfl
  | unreadable hread =>
    rcases hq with rfl | ⟨bs, rfl⟩ | ⟨i, last, h⟩
    · cases hread
    · cases hread
    · cases h
  | oversized hentry | executed hentry =>
    rcases hq with rfl | ⟨bs, rfl⟩ | ⟨i, last, h⟩
    · cases hentry
    · cases hentry
    · cases h

end Step

/-! ## Runs -/

/-- The requests of a run, each with the state it finds and the reply it gets. -/
def exchanges (r : Replica) : List Request → List Exchange
  | [] => []
  | q :: qs => ⟨r.state, q, (r.serve q).1⟩ :: (r.serve q).2.exchanges qs

theorem countP_exchanges (p : Exchange → Bool) (r : Replica) (q : Request) (qs : List Request) :
    (r.exchanges (q :: qs)).countP p = (p ⟨r.state, q, (r.serve q).1⟩).toNat
      + ((r.serve q).2.exchanges qs).countP p := by
  rw [exchanges, List.countP_cons, Nat.add_comm]
  cases p _ <;> rfl

theorem counter_serveAll (t : Tally) : ∀ (qs : List Request) (r : Replica),
    (r.serveAll qs).2.metrics.counter t.name = r.metrics.counter t.name
      + .ofNat ((r.exchanges qs).countP (t.counts r.config.maxTransactionUpdates))
  | [], _ => (UInt64.add_zero _).symm
  | q :: qs, r => by
    have ih := counter_serveAll t qs (r.serve q).2
    rw [config_serve, (serves_serve r q).counter t, UInt64.add_assoc, ← UInt64.ofNat_add,
      ← countP_exchanges] at ih
    exact ih

theorem countP_balance (limit : UInt64) : ∀ (qs : List Request) (r : Replica),
    r.config.maxTransactionUpdates = limit →
      let n (t : Tally) := (r.exchanges qs).countP (t.counts limit)
      n .prepare = n .prepared + n .conflict + n .preconditionFailed
  | [], _, _ => rfl
  | q :: qs, r, hr => by
    have ih := countP_balance limit qs (r.serve q).2 (by rw [config_serve, hr])
    have hq := (serves_serve r q).balance
    rw [hr] at hq
    simp only [countP_exchanges] at ih hq ⊢
    omega

/-- The ways a replica comes to be. -/
inductive Created : Replica → Prop
  | new (config : Config) : Created (new config)
  | ofState (config : Config) (s : State) (lastApplied : UInt64) :
    Created (ofState config s lastApplied)
  | ofSnapshot {config : Config} {s : Snapshot} {r : Replica} (h : ofSnapshot config s = .ok r) :
    Created r

/-- However a replica comes to be, it goes on from some state at some index. -/
theorem Created.exists_ofState (h : Created r) :
    ∃ config s lastApplied, r = Replica.ofState config s lastApplied := by
  cases h with
  | new config => exact ⟨config, ∅, 0, rfl⟩
  | ofState config s lastApplied => exact ⟨config, s, lastApplied, rfl⟩
  | @ofSnapshot config s _ h =>
    unfold Replica.ofSnapshot at h
    rcases hs : State.restore s with e | state
    · rw [hs] at h
      cases h
    · rw [hs] at h
      cases h
      exact ⟨config, state, s.lastApplied, rfl⟩

theorem Created.metrics_eq (h : Created r) : r.metrics = ∅ := by
  obtain ⟨config, s, lastApplied, rfl⟩ := h.exists_ofState
  rfl

/-- From a replica's creation on each counter stands at the number of the exchanges it counts,
modulo 2^64, and the preparations are those that were prepared, that met a lock of another
transaction, or that failed a condition. No entry that comes late and no snapshot, be it taken or
installed, changes the metrics. -/
theorem counters_balance (hr : Created r) (qs : List Request) :
    let m := (r.serveAll qs).2.metrics
    (∀ t : Tally, m.counter t.name
        = .ofNat ((r.exchanges qs).countP (t.counts r.config.maxTransactionUpdates)))
      ∧ m.counter Metrics.prepareTotal = m.counter Metrics.preparedTotal
        + m.counter Metrics.conflictTotal + m.counter Metrics.preconditionFailedTotal
      ∧ ∀ (r' : Replica) q, (q = .snapshot ∨ (∃ bs, q = .install bs)
          ∨ ∃ i last, (r'.serve q).1 = .error (.applyOrder i last)) →
        (r'.serve q).2.metrics = r'.metrics := by
  intro m
  have hcount (t : Tally) : m.counter t.name
      = .ofNat ((r.exchanges qs).countP (t.counts r.config.maxTransactionUpdates)) := by
    have h := counter_serveAll t qs r
    rw [hr.metrics_eq] at h
    exact h.trans (UInt64.zero_add _)
  have hbalance := congrArg UInt64.ofNat (countP_balance _ qs r rfl)
  simp only [UInt64.ofNat_add, ← hcount] at hbalance
  exact ⟨hcount, hbalance, fun r' q => (serves_serve r' q).metrics_eq⟩

theorem counters_balance_mixed :
    let s : Snapshot := ⟨5, ∅, ∅, .ofList [("t", .ofList [("k", ⟨7, .tombstone⟩)])], 3⟩
    let r := ofState { maxTransactionUpdates := 1 } s.state 5
    let one : Transaction := ⟨8, [⟨"u", "k", .putIfAbsent ⟨[1]⟩⟩]⟩
    let two : Transaction := ⟨9, [⟨"u", "j", .remove⟩, ⟨"u", "k", .remove⟩]⟩
    let m := (r.serveAll [.apply 6 (.write "t" "k" .remove), .apply 7 (.prepareAndCommit one),
      .apply 8 (.prepare one), .apply 9 (.prepare ⟨10, [⟨"t", "k", .remove⟩]⟩),
      .apply 10 (.prepareAndCommit two), .apply 10 (.commit two), .applyEncoded 11 [255],
      .snapshot, .apply 12 (.rollback two)]).2.metrics
    ofSnapshot { maxTransactionUpdates := 1 } s = .ok r
      ∧ m.counter Metrics.entriesTotal = 6 ∧ m.counter Metrics.prepareTotal = 3
      ∧ m.counter Metrics.oversizedTotal = 1 ∧ m.counter Metrics.protocolViolationTotal = 1
      ∧ m.counter Metrics.preparedTotal + m.counter Metrics.conflictTotal
        + m.counter Metrics.preconditionFailedTotal = 3 := by
  intro s r one two m
  have hr : ofSnapshot { maxTransactionUpdates := 1 } s = .ok r := by decide
  obtain ⟨hcount, hbalance, -⟩ := counters_balance (.ofSnapshot hr) _
  have hprepare : m.counter Metrics.prepareTotal = 3 := (hcount .prepare).trans (by decide)
  exact ⟨hr, (hcount .entries).trans (by decide), hprepare, (hcount .oversized).trans (by decide),
    (hcount .protocolViolation).trans (by decide), hbalance.symm.trans hprepare⟩

end Replica

end Lockstep
