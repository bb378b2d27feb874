import Lockstep.Proofs.LockViews
import Lockstep.Proofs.Requests
import Lockstep.Proofs.Run

/-!
# The gauges

The gauges are a second copy of what they are named for: the last version, the number of locked keys
and the last index (`Replica.GaugesTrue`). An entry that is executed sets all three, and one that is
above the limit changes no state and sets the last index, so what is true stays true
(`Serves.gaugesTrue`). Only a snapshot that is installed changes the state and leaves the gauges as
they were (`gauges_stale_after_install`); they lag behind until the next entry is executed
(`gauges_lag_behind_snapshots`).
-/

namespace Lockstep

namespace Request

/-- The snapshot that takes the place of the state, if one is installed. -/
def snapshot? : Request → Option Snapshot
  | install bs => (Snapshot.decode bs).toOption.filter fun s => s.Adoptable
  | _ => none

theorem snapshot?_eq_some {q : Request} {s : Snapshot} : q.snapshot? = some s ↔
    ∃ bs, q = install bs ∧ Snapshot.decode bs = .ok s ∧ s.Adoptable := by
  constructor
  · intro h
    rcases q with _ | _ | _ | bs
    · cases h
    · cases h
    · cases h
    · rw [snapshot?, Option.filter_eq_some_iff, decide_eq_true_eq] at h
      refine ⟨bs, rfl, ?_, h.2⟩
      rcases hd : Snapshot.decode bs with e | s'
      · rw [hd] at h
        cases h.1
      · rw [hd] at h
        exact congrArg _ (Option.some.inj h.1)
  · rintro ⟨bs, rfl, hd, ha⟩
    simp [snapshot?, hd, Except.toOption, ha]

end Request

/-- The number of keys that are locked. -/
noncomputable def State.lockedKeyCount (s : State) : ℕ :=
  {p : Place | s.locks.isLocked p.1 p.2 = true}.ncard

theorem Locks.Coherent.ncard_locked {l : Locks} (h : l.Coherent) :
    {p : Place | l.isLocked p.1 p.2 = true}.ncard = l.count := by
  rw [Set.ncard, h.encard_locked, ENat.toNat_natCast]

namespace Metrics

theorem gauge_set (m : Metrics) (s t : String) (n : UInt64) :
    (m.set s n).gauge t = if t = s then n else m.gauge t := by
  simp only [gauge, set, get?_change]
  split <;> rfl

theorem gauge_record_applied (m : Metrics) (index : UInt64) (name : String) :
    (m.record (.applied index)).gauge name = if name = lastIndex then index else m.gauge name :=
  gauge_set (m.inc entriesTotal) lastIndex name index

end Metrics

namespace Replica

variable {r : Replica} {q : Request}

/-- Each gauge shows what it is named for. -/
structure GaugesTrue (r : Replica) : Prop where
  nextVersion : r.metrics.gauge Metrics.nextVersion = r.state.tables.nextVersion
  lockedKeys : r.metrics.gauge Metrics.lockedKeys = .ofNat r.state.lockedKeyCount
  lastIndex : r.metrics.gauge Metrics.lastIndex = r.lastApplied

theorem gaugesTrue_new (config : Config) : (new config).GaugesTrue := by
  refine ⟨rfl, ?_, rfl⟩
  rw [State.lockedKeyCount]
  exact congrArg UInt64.ofNat Locks.coherent_empty.ncard_locked.symm

/-! ## One request -/

theorem gauges_transactionEvents (s : State) (m : Metrics) : ∀ c : Command,
    ((transactionEvents s c).foldl Metrics.record m).gauges = m.gauges
  | .prepareAndCommit txn => by
    simp only [transactionEvents]
    split <;> rfl
  | .prepare _ | .commit _ | .rollback _ | .query _ | .write _ _ _ | .clear _ | .nextValue _
  | .currentValue _ => rfl

/-- Of the events of a command only the state that it leaves shows in the gauges. -/
theorem gauges_execute (r : Replica) (c : Command) :
    (r.execute c).2.metrics.gauges
      = (r.metrics.record (.state (r.state.execute c).2.tables.nextVersion
          (.ofNat (r.state.execute c).2.locks.count))).gauges := by
  simp only [execute, events, List.foldl_append, List.foldl_cons]
  split
  all_goals
    simp only [List.foldl_cons, List.foldl_nil, Metrics.record, Metrics.inc, Metrics.add,
      Metrics.set, gauges_transactionEvents]

/-- An entry that is executed makes the gauges true, whatever they showed. -/
theorem gaugesTrue_executed (index : UInt64) (c : Command) (h : r.state.locks.Coherent) :
    ((r.execute c).2.advance index).GaugesTrue := by
  have hlocks := ((State.step_execute r.state c).coherent h).ncard_locked
  have hgauge : ∀ name, ((r.execute c).2.advance index).metrics.gauge name
      = if name = Metrics.lastIndex then index
        else if name = Metrics.lockedKeys then .ofNat (r.state.execute c).2.locks.count
        else if name = Metrics.nextVersion then (r.state.execute c).2.tables.nextVersion
        else r.metrics.gauge name := by
    intro name
    rw [advance, record, Metrics.gauge_record_applied, Metrics.gauge, gauges_execute,
      ← Metrics.gauge, Metrics.record, Metrics.gauge_set, Metrics.gauge_set]
  constructor
  · rw [hgauge]
    rfl
  · rw [hgauge, State.lockedKeyCount]
    exact congrArg UInt64.ofNat hlocks.symm
  · rw [hgauge]
    rfl

/-- A snapshot that is installed takes the place of the state and of the last index, and leaves the
gauges as they were. -/
theorem serve_of_snapshot? {s : Snapshot} (hq : q.snapshot? = some s) :
    r.serve q = (.ok .installed, r.adopt s) := by
  obtain ⟨bs, rfl, hd, ha⟩ := Request.snapshot?_eq_some.1 hq
  exact serve_install_of_adoptable hd ha

section Step

variable {x : Except Error Reply × Replica}

theorem Serves.coherent (h : Serves r q x) (hr : r.state.locks.Coherent) :
    x.2.state.locks.Coherent := by
  cases h with
  | executed => exact (State.step_execute r.state _).coherent hr
  | @installed _ s => exact Locks.coherent_ofMap s.locks
  | _ => exact hr

theorem Serves.lastIndex (h : Serves r q x) (hq : q.snapshot? = none)
    (hr : r.metrics.gauge Metrics.lastIndex = r.lastApplied) :
    x.2.metrics.gauge Metrics.lastIndex = x.2.lastApplied := by
  cases h with
  | unreadable | late | snapshot | refused => exact hr
  | oversized | executed => exact Metrics.gauge_record_applied _ _ _
  | installed hd ha =>
    rw [Request.snapshot?_eq_some.2 ⟨_, rfl, hd, ha⟩] at hq
    cases hq

/-- Gauges that are true stay so, unless a snapshot is installed. An entry above the limit leaves
the state what it was, and the gauges that tell of it. -/
theorem Serves.gaugesTrue (h : Serves r q x) (hq : q.snapshot? = none)
    (hlocks : r.state.locks.Coherent) (hr : r.GaugesTrue) : x.2.GaugesTrue := by
  have hindex := h.lastIndex hq hr.lastIndex
  cases h with
  | unreadable | late | snapshot | refused => exact ⟨hr.nextVersion, hr.lockedKeys, hindex⟩
  | oversized =>
    refine ⟨?_, ?_, hindex⟩
    · exact (Metrics.gauge_record_applied _ _ _).trans hr.nextVersion
    · exact (Metrics.gauge_record_applied _ _ _).trans hr.lockedKeys
  | executed => exact gaugesTrue_executed _ _ hlocks
  | installed hd ha =>
    rw [Request.snapshot?_eq_some.2 ⟨_, rfl, hd, ha⟩] at hq
    cases hq

/-- An entry that is applied is the one the gauge of the last index shows. -/
theorem Serves.lastIndex_of_applied (h : Serves r q x) {a : Applied} (hx : x.1 = .ok (.applied a)) :
    x.2.metrics.gauge Metrics.lastIndex = x.2.lastApplied := by
  cases h with
  | oversized | executed => exact Metrics.gauge_record_applied _ _ _
  | _ => cases hx

theorem Serves.gaugesTrue_of_executed (h : Serves r q x) {a : Applied}
    (hx : x.1 = .ok (.applied a)) (hlocks : r.state.locks.Coherent)
    (hsize : ∀ e ∈ q.entry?, r.isOversized e.2 = false) : x.2.GaugesTrue := by
  cases h with
  | oversized hq _ ho =>
    rw [hsize _ hq] at ho
    cases ho
  | executed => exact gaugesTrue_executed _ _ hlocks
  | _ => cases hx

end Step

/-! ## Runs -/

theorem coherent_serveAll (qs : List Request) (h : r.state.locks.Coherent) :
    (r.serveAll qs).2.state.locks.Coherent :=
  serveAll_induction (P := fun r => r.state.locks.Coherent) (A := fun _ => True)
    (fun {r q} _ => (serves_serve r q).coherent) qs (fun _ _ => trivial) h

section Onward

variable {qs : List Request}

theorem lastIndex_serveAll (hqs : ∀ q ∈ qs, q.snapshot? = none)
    (h : r.metrics.gauge Metrics.lastIndex = r.lastApplied) :
    (r.serveAll qs).2.metrics.gauge Metrics.lastIndex = (r.serveAll qs).2.lastApplied :=
  serveAll_induction (P := fun r => r.metrics.gauge Metrics.lastIndex = r.lastApplied)
    (fun {r q} hq => (serves_serve r q).lastIndex hq) qs hqs h

theorem gaugesTrue_serveAll (hqs : ∀ q ∈ qs, q.snapshot? = none) (hlocks : r.state.locks.Coherent)
    (h : r.GaugesTrue) : (r.serveAll qs).2.GaugesTrue :=
  (serveAll_induction (P := fun r => r.state.locks.Coherent ∧ r.GaugesTrue)
    (fun {r q} hq ⟨hl, hg⟩ =>
      ⟨(serves_serve r q).coherent hl, (serves_serve r q).gaugesTrue hq hl hg⟩)
    qs hqs ⟨hlocks, h⟩).2

end Onward

/-- From the beginning of the log on, the gauges are true as long as no snapshot is installed. A
snapshot that is installed leaves them as they were, so then they are true just if they agree with
the snapshot. Once an entry is applied the last index is true again, and once one is executed all
three are, until the next snapshot is installed. -/
theorem gauges_lag_behind_snapshots (config : Config) (qs : List Request) :
    let r := ((new config).serveAll qs).2
    ((∀ q ∈ qs, q.snapshot? = none) → r.GaugesTrue)
      ∧ (∀ ps, (∀ q ∈ ps, q.snapshot? = none) → r.GaugesTrue → (r.serveAll ps).2.GaugesTrue)
      ∧ (∀ q s, q.snapshot? = some s → ((r.serve q).2.GaugesTrue
          ↔ r.metrics.gauge Metrics.nextVersion = s.nextVersion
            ∧ r.metrics.gauge Metrics.lockedKeys = .ofNat s.state.lockedKeyCount
            ∧ r.metrics.gauge Metrics.lastIndex = s.lastApplied))
      ∧ ∀ q a ps, (r.serve q).1 = .ok (.applied a) → (∀ p ∈ ps, p.snapshot? = none) →
        let r' := ((r.serve q).2.serveAll ps).2
        r'.metrics.gauge Metrics.lastIndex = r'.lastApplied
          ∧ ((∀ e ∈ q.entry?, r.isOversized e.2 = false) → r'.GaugesTrue) := by
  intro r
  have hlocks : r.state.locks.Coherent := coherent_serveAll qs Locks.coherent_empty
  refine ⟨fun hqs => gaugesTrue_serveAll hqs Locks.coherent_empty (gaugesTrue_new config),
    fun ps hps h => gaugesTrue_serveAll hps hlocks h, fun q s hq => ?_, fun q a ps ha hps => ?_⟩
  · rw [serve_of_snapshot? hq]
    constructor
    · exact fun h => ⟨h.nextVersion, h.lockedKeys, h.lastIndex⟩
    · exact fun ⟨hversion, hkeys, hindex⟩ => ⟨hversion, hkeys, hindex⟩
  · have hserves := serves_serve r q
    exact ⟨lastIndex_serveAll hps (hserves.lastIndex_of_applied ha), fun hsize =>
      gaugesTrue_serveAll hps (hserves.coherent hlocks)
        (hserves.gaugesTrue_of_executed ha hlocks hsize)⟩

theorem gauges_lag_behind_snapshots_caught_up :
    let s : Snapshot := ⟨5, ∅, ∅, .ofList [("t", .ofList [("k", ⟨7, .tombstone⟩)])], 3⟩
    let r := (new {}).adopt s
    let ps : List Request := [.applyEncoded 6 [255], .snapshot, .apply 6 (.clear "t")]
    let r' := ((r.serve (.apply 6 (.clear "t"))).2.serveAll ps).2
    r.metrics.gauge Metrics.lastIndex = 0 ∧ r'.GaugesTrue
      ∧ r'.metrics.gauge Metrics.lastIndex = 6 ∧ r'.metrics.gauge Metrics.lockedKeys = 1 := by
  intro s r ps r'
  have hfits : Wire.fits s = true := by decide
  have hread : Snapshot.decode (Wire.encode s) = .ok s := by
    simpa using Snapshot.decode_encode hfits []
  have hinstalls : (Request.install (Wire.encode s)).snapshot? = some s :=
    Request.snapshot?_eq_some.2 ⟨_, rfl, hread, by decide⟩
  have hr : ((new {}).serveAll [.install (Wire.encode s)]).2 = r := by
    rw [serveAll_cons (serve_of_snapshot? hinstalls)]
    rfl
  have hlag := gauges_lag_behind_snapshots {} [.install (Wire.encode s)]
  rw [hr] at hlag
  obtain ⟨-, htrue⟩ := hlag.2.2.2 (.apply 6 (.clear "t")) ⟨6, .locked⟩ ps (by decide) (by decide)
  exact ⟨by decide, htrue (by decide), by decide, by decide⟩

/-- A replica that catches up by a snapshot shows gauges at zero, though the snapshot brings an
index, a version and a locked key. -/
theorem gauges_stale_after_install :
    let s : Snapshot := ⟨5, ∅, .ofList [("t", .ofList [("k", ⟨⟨[1]⟩, 3⟩)])],
      .ofList [("t", .ofList [("k", ⟨7, .tombstone⟩)])], 3⟩
    let r := ((new {}).serveAll [.install (Wire.encode s)]).2
    (r.state.tables.nextVersion = 3 ∧ r.metrics.gauge Metrics.nextVersion = 0)
      ∧ (r.state.locks.count = 1 ∧ r.metrics.gauge Metrics.lockedKeys = 0)
      ∧ (r.lastApplied = 5 ∧ r.metrics.gauge Metrics.lastIndex = 0)
      ∧ ¬ r.GaugesTrue := by
  intro s r
  have hfits : Wire.fits s = true := by decide
  have hread : Snapshot.decode (Wire.encode s) = .ok s := by
    simpa using Snapshot.decode_encode hfits []
  have hinstalls : (Request.install (Wire.encode s)).snapshot? = some s :=
    Request.snapshot?_eq_some.2 ⟨_, rfl, hread, by decide⟩
  have hr : r = (new {}).adopt s := by
    change ((new {}).serveAll _).2 = _
    rw [serveAll_cons (serve_of_snapshot? hinstalls)]
    rfl
  clear_value r
  subst hr
  refine ⟨⟨rfl, rfl⟩, ⟨by decide, rfl⟩, ⟨rfl, rfl⟩, fun h => ?_⟩
  have hindex : (0 : UInt64) = 5 := h.lastIndex
  revert hindex
  decide

end Replica

end Lockstep
