import Lockstep.Proofs.Accumulation
import Lockstep.Proofs.Adoption
import Lockstep.Proofs.Entries
import Lockstep.Proofs.SnapshotFormat
import Mathlib.Logic.Function.Iterate

/-!
# Requests

A replica is asked to apply an entry, to take a snapshot or to install one. `Serves` lists what can
come of a request, each with the reply and the replica it leaves.

Which requests fail, and how, depends on the bytes, the index and the last index alone, and one
that fails leaves the replica as it was, but for the count of the payloads that could not be read
(`Replica.failures_exact_and_atomic`). So a run might as well have gone without the requests that
failed in it (`Replica.serveAll_answered`).
-/

namespace Lockstep

/-- What a replica is asked. -/
inductive Request where
  /-- To apply an entry. -/
  | apply (index : UInt64) (c : Command)
  /-- To apply an entry in its written form. -/
  | applyEncoded (index : UInt64) (payload : Bytes)
  | snapshot
  | install (bs : Bytes)

/-- What a request gives that does not fail. -/
inductive Reply where
  | applied (a : Applied)
  | snapshot (s : Snapshot)
  | installed
  deriving DecidableEq

namespace Request

/-- The entry that is to be applied, if there is one and it can be read. -/
def entry? : Request → Option (UInt64 × Command)
  | apply index c => some (index, c)
  | applyEncoded index payload => (Command.decode payload).toOption.map (index, ·)
  | snapshot | install _ => none

/-- An entry is to be applied that cannot be read. -/
def isUnreadable : Request → Bool
  | applyEncoded _ payload => (Command.decode payload).toOption.isNone
  | _ => false

theorem isUnreadable_of_entry {q : Request} {index : UInt64} {c : Command}
    (h : q.entry? = some (index, c)) : q.isUnreadable = false := by
  cases q with
  | applyEncoded index payload =>
    obtain ⟨c, hc, -⟩ := Option.map_eq_some_iff.1 h
    rw [isUnreadable, hc]
    rfl
  | _ => rfl

end Request

theorem Command.decode_error {bs : Bytes} {e : Error} (h : decode bs = .error e) :
    ∃ reason, e = .protocolViolation reason := by
  unfold decode at h
  rcases hd : (Wire.decode bs : Except Wire.Fault Command) with f | c
  · rw [hd] at h
    exact ⟨_, (Except.error.inj h).symm⟩
  · rw [hd] at h
    cases h

namespace Metrics

/-- What the metrics list after an entry that could not be read. -/
theorem counters_record_protocolViolation (m : Metrics) (name : String) :
    (m.record .protocolViolation).counters.get? name
      = if name = protocolViolationTotal then some (m.counter name + 1)
        else m.counters.get? name := by
  rw [record, inc, add, get?_change]
  split
  · rename_i h
    rw [h]
    rfl
  · rfl

theorem add_right_comm (m : Metrics) (s t : String) (x y : UInt64) :
    (m.add s x).add t y = (m.add t y).add s x := by
  have hcounters : ((m.add s x).add t y).counters = ((m.add t y).add s x).counters := by
    refine OrdMap.ext_get? fun name => ?_
    simp only [add, get?_change]
    by_cases hst : s = t
    · subst hst
      have hsum (n : UInt64) : n + x + y = n + y + x := by
        rw [UInt64.add_assoc, UInt64.add_comm x, UInt64.add_assoc]
      by_cases hs : name = s <;> simp [hs, hsum]
    · by_cases hs : name = s <;> by_cases ht : name = t <;> simp_all [eq_comm]
  exact congrArg (Metrics.mk · m.gauges) hcounters

theorem record_protocolViolation_comm (m : Metrics) (e : Event) :
    (m.record .protocolViolation).record e = (m.record e).record .protocolViolation := by
  cases e with
  | applied index => exact congrArg (set · lastIndex index) (add_right_comm ..)
  | prepare outcome =>
    simp only [record, inc]
    rw [add_right_comm m, add_right_comm (m.add _ _)]
  | state => rfl
  | _ => exact add_right_comm ..

end Metrics

namespace Replica

variable {r r' : Replica} {q : Request}

/-- Does what is asked. -/
def serve (r : Replica) : Request → Except Error Reply × Replica
  | .apply index c => ((r.apply index c).1.map .applied, (r.apply index c).2)
  | .applyEncoded index payload =>
    ((r.applyEncoded index payload).1.map .applied, (r.applyEncoded index payload).2)
  | .snapshot => (.ok (.snapshot r.snapshot.1), r.snapshot.2)
  | .install bs => ((r.install bs).1.map fun _ => .installed, (r.install bs).2)

/-- Takes over a snapshot. -/
def adopt (r : Replica) (s : Snapshot) : Replica :=
  { r with state := s.state, lastApplied := s.lastApplied, sinceSnapshot := 0 }

/-- The ways a request can go: the reply and the replica it leaves. -/
inductive Serves (r : Replica) : Request → Except Error Reply × Replica → Prop
  | unreadable {q : Request} {reason : String} (hq : q.isUnreadable = true) :
    Serves r q (.error (.protocolViolation reason), r.record .protocolViolation)
  | late {q : Request} {index : UInt64} {c : Command} (hq : q.entry? = some (index, c))
    (h : index ≤ r.lastApplied) : Serves r q (.error (.applyOrder index r.lastApplied), r)
  | oversized {q : Request} {index : UInt64} {c : Command} (hq : q.entry? = some (index, c))
    (hi : r.lastApplied < index) (h : r.isOversized c = true) :
    Serves r q (.ok (.applied ⟨index, .ok (.flag false)⟩), (r.record .oversized).advance index)
  | executed {q : Request} {index : UInt64} {c : Command} (hq : q.entry? = some (index, c))
    (hi : r.lastApplied < index) (h : r.isOversized c = false) :
    Serves r q (.ok (.applied ⟨index, (r.state.execute c).1⟩), (r.execute c).2.advance index)
  | snapshot : Serves r .snapshot (.ok (.snapshot r.snapshot.1), r.snapshot.2)
  | refused {bs : Bytes} {reason : String}
    (h : ∀ s, Snapshot.decode bs = .ok s → ¬ s.Adoptable) :
    Serves r (.install bs) (.error (.snapshot reason), r)
  | installed {bs : Bytes} {s : Snapshot} (hd : Snapshot.decode bs = .ok s) (h : s.Adoptable) :
    Serves r (.install bs) (.ok .installed, r.adopt s)

theorem serves_apply {index : UInt64} {c : Command} (hq : q.entry? = some (index, c)) :
    Serves r q ((r.apply index c).1.map .applied, (r.apply index c).2) := by
  unfold apply
  split_ifs with hi ho
  · exact .late hq hi
  · exact .oversized hq (UInt64.not_le.1 hi) ho
  · exact .executed hq (UInt64.not_le.1 hi) (Bool.eq_false_iff.2 ho)

theorem install_of_adoptable {bs : Bytes} {s : Snapshot} (hd : Snapshot.decode bs = .ok s)
    (h : s.Adoptable) : r.install bs = (.ok (), r.adopt s) := by
  simp only [install, hd, State.restore_eq_ok.2 ⟨h, rfl⟩]
  rfl

/-- A snapshot that is of no use has changed nothing by the time that is found out. -/
theorem install_of_not_adoptable {bs : Bytes}
    (h : ∀ s, Snapshot.decode bs = .ok s → ¬ s.Adoptable) :
    ∃ reason, r.install bs = (.error (.snapshot reason), r) := by
  rcases hd : Snapshot.decode bs with e | s
  · have hunread : ∀ s, Snapshot.decode bs ≠ .ok s := by simp [hd]
    obtain ⟨reason, hreason⟩ := Snapshot.decode_eq_error hunread
    exact ⟨reason, by simp only [install, hreason]⟩
  · obtain ⟨reason, hs⟩ := State.restore_refused (h s hd)
    exact ⟨reason, by simp only [install, hd, hs]⟩

theorem serve_install_of_adoptable {bs : Bytes} {s : Snapshot} (hd : Snapshot.decode bs = .ok s)
    (h : s.Adoptable) : r.serve (.install bs) = (.ok .installed, r.adopt s) := by
  rw [serve, install_of_adoptable hd h]
  rfl

theorem serves_install (r : Replica) (bs : Bytes) :
    Serves r (.install bs) (r.serve (.install bs)) := by
  by_cases h : ∃ s, Snapshot.decode bs = .ok s ∧ s.Adoptable
  · obtain ⟨s, hd, ha⟩ := h
    rw [serve_install_of_adoptable hd ha]
    exact .installed hd ha
  · have hnone : ∀ s, Snapshot.decode bs = .ok s → ¬ s.Adoptable := fun s hd ha => h ⟨s, hd, ha⟩
    obtain ⟨reason, hr⟩ := install_of_not_adoptable (r := r) hnone
    rw [serve, hr]
    exact .refused hnone

theorem serves_serve (r : Replica) (q : Request) : Serves r q (r.serve q) := by
  cases q with
  | apply index c => exact serves_apply rfl
  | applyEncoded index payload =>
    simp only [serve, applyEncoded]
    rcases hd : Command.decode payload with e | c
    · obtain ⟨reason, rfl⟩ := Command.decode_error hd
      exact .unreadable (by rw [Request.isUnreadable, hd]; rfl)
    · exact serves_apply (by rw [Request.entry?, hd]; rfl)
  | snapshot => exact .snapshot
  | install bs => exact serves_install r bs

/-! ## Failed requests -/

theorem Serves.of_error {e : Error} (h : Serves r q (.error e, r')) :
    r' = if q.isUnreadable then r.record .protocolViolation else r := by
  cases h with
  | unreadable hq => rw [if_pos hq]
  | late hq => rw [Request.isUnreadable_of_entry hq]; rfl
  | refused => rfl

theorem Serves.of_ok {reply : Reply} (h : Serves r q (.ok reply, r')) : q.isUnreadable = false := by
  cases h with
  | oversized hq | executed hq => exact Request.isUnreadable_of_entry hq
  | _ => rfl

theorem applyEncoded_exact (r : Replica) (index : UInt64) (payload : Bytes) :
    ((∃ reason, (r.applyEncoded index payload).1 = .error (.protocolViolation reason))
        ↔ ∀ c, Command.decode payload ≠ .ok c)
      ∧ ((r.applyEncoded index payload).1 = .error (.applyOrder index r.lastApplied)
        ↔ (∃ c, Command.decode payload = .ok c) ∧ index ≤ r.lastApplied)
      ∧ ((∃ outcome, (r.applyEncoded index payload).1 = .ok ⟨index, outcome⟩)
        ↔ (∃ c, Command.decode payload = .ok c) ∧ r.lastApplied < index) := by
  have h := applies_applyEncoded r index payload
  generalize r.applyEncoded index payload = x at h ⊢
  cases h with
  | undecodable hd =>
    obtain ⟨reason, rfl⟩ := Command.decode_error hd
    simp [hd]
  | late hd hi => simp [hd, hi, UInt64.not_lt.2 hi]
  | oversized hd hi | executed hd hi => simp [hd, hi, UInt64.not_le.2 hi]

theorem install_exact (r : Replica) (bs : Bytes) :
    ((∃ reason, (r.install bs).1 = .error (.snapshot reason))
        ↔ (∀ s, Snapshot.decode bs ≠ .ok s) ∨ ∃ s, Snapshot.decode bs = .ok s
          ∧ (s.nextVersion.toNat + 1 = UInt64.size
            ∨ ∃ v ∈ Tables.versions s.tables, s.nextVersion < v))
      ∧ ∀ e, (r.install bs).1 = .error e →
        (∃ reason, e = .snapshot reason) ∧ (r.install bs).2 = r := by
  have hrefused {e : Error} (he : (r.install bs).1 = .error e) :
      ∀ s, Snapshot.decode bs = .ok s → ¬ s.Adoptable := by
    intro s hd ha
    rw [install_of_adoptable hd ha] at he
    cases he
  refine ⟨?_, fun e he => ?_⟩
  · have hiff : (∃ reason, (r.install bs).1 = .error (.snapshot reason))
        ↔ ∀ s, Snapshot.decode bs = .ok s → ¬ s.Adoptable :=
      ⟨fun ⟨_, he⟩ => hrefused he, fun h =>
        (install_of_not_adoptable h).imp fun _ hr => congrArg Prod.fst hr⟩
    rw [hiff]
    rcases Snapshot.decode bs with e | s
    · simp
    · simp [Snapshot.not_adoptable]
  · obtain ⟨reason, hr⟩ := install_of_not_adoptable (hrefused he)
    rw [hr] at he ⊢
    cases he
    exact ⟨⟨reason, rfl⟩, rfl⟩

/-- Just these requests fail: an entry that cannot be read, which violates the protocol at whatever
index; one that can be read, but not above the last index; and a snapshot that cannot be read, has
used up its versions or stores a version above the last one. Whatever fails leaves all as it was,
but for one more violation in the metrics if an entry could not be read. An entry that is applied
becomes the last, and a snapshot that is installed replaces all regions. -/
theorem failures_exact_and_atomic (r : Replica) :
    (∀ index payload,
      ((∃ reason, (r.applyEncoded index payload).1 = .error (.protocolViolation reason))
          ↔ ∀ c, Command.decode payload ≠ .ok c)
        ∧ ((r.applyEncoded index payload).1 = .error (.applyOrder index r.lastApplied)
          ↔ (∃ c, Command.decode payload = .ok c) ∧ index ≤ r.lastApplied)
        ∧ ((∃ outcome, (r.applyEncoded index payload).1 = .ok ⟨index, outcome⟩)
          ↔ (∃ c, Command.decode payload = .ok c) ∧ r.lastApplied < index))
      ∧ (∀ bs, ((∃ reason, (r.install bs).1 = .error (.snapshot reason))
          ↔ (∀ s, Snapshot.decode bs ≠ .ok s) ∨ ∃ s, Snapshot.decode bs = .ok s
            ∧ (s.nextVersion.toNat + 1 = UInt64.size
              ∨ ∃ v ∈ Tables.versions s.tables, s.nextVersion < v))
        ∧ ∀ e, (r.install bs).1 = .error e →
          (∃ reason, e = .snapshot reason) ∧ (r.install bs).2 = r)
      ∧ (∀ q e r', r.serve q = (.error e, r') →
        r'.config = r.config ∧ r'.state = r.state ∧ r'.lastApplied = r.lastApplied
          ∧ r'.sinceSnapshot = r.sinceSnapshot ∧ r'.metrics.gauges = r.metrics.gauges
          ∧ ∀ name, r'.metrics.counters.get? name
            = if q.isUnreadable ∧ name = Metrics.protocolViolationTotal
              then some (r.metrics.counter name + 1) else r.metrics.counters.get? name)
      ∧ (∀ q a r', r.serve q = (.ok (.applied a), r') →
        ∃ c, q.entry? = some (a.index, c) ∧ r'.lastApplied = a.index)
      ∧ ∀ bs r', r.install bs = (.ok (), r') → ∃ s, Snapshot.decode bs = .ok s
        ∧ r'.state.counters.values = s.counters ∧ r'.state.tables = ⟨s.tables, s.nextVersion⟩
        ∧ (∀ t, r'.state.locks.tables.get? t = (s.locks.get? t).filter fun keys => !keys.isEmpty)
        ∧ r'.state.locks.count = r'.state.locks.tables.total
        ∧ r'.lastApplied = s.lastApplied ∧ r'.sinceSnapshot = 0 := by
  refine ⟨applyEncoded_exact r, install_exact r, fun q e r' h => ?_, fun q a r' h => ?_,
    fun bs r' h => ?_⟩
  · obtain rfl := (h ▸ serves_serve r q : Serves r q (.error e, r')).of_error
    cases q.isUnreadable with
    | false => exact ⟨rfl, rfl, rfl, rfl, rfl, fun name => by simp⟩
    | true =>
      refine ⟨rfl, rfl, rfl, rfl, rfl, fun name => ?_⟩
      simp only [true_and]
      exact r.metrics.counters_record_protocolViolation name
  · have hs : Serves r q (.ok (.applied a), r') := h ▸ serves_serve r q
    cases hs with
    | oversized hq | executed hq => exact ⟨_, hq, rfl⟩
  · have hs : Serves r (.install bs) (.ok .installed, r') := by
      have hserves := serves_serve r (.install bs)
      rwa [serve, h] at hserves
    cases hs with
    | @installed _ s hd =>
      exact ⟨s, hd, rfl, rfl, fun t => OrdMap.get?_filter _ _ t, rfl, rfl, rfl⟩

theorem failures_exact_and_atomic_after_entry :
    let c : Command := .write "t" "k" (.put ⟨[1]⟩)
    let r : Replica := ((new {}).apply 5 c).2
    let used : Snapshot := ⟨9, ∅, ∅, ∅, 18446744073709551615⟩
    let behind : Snapshot := ⟨9, ∅, .ofList [("t", .ofList [("k", ⟨⟨[]⟩, 7⟩)])], ∅, 6⟩
    let good : Snapshot := ⟨2, ∅, ∅, .ofList [("t", ∅), ("u", .ofList [("k", ⟨7, .tombstone⟩)])], 6⟩
    (∃ reason, (r.applyEncoded 3 [255]).1 = .error (.protocolViolation reason))
      ∧ (r.applyEncoded 3 [255]).2.state = r.state
      ∧ (r.applyEncoded 3 [255]).2.metrics.counters.get? Metrics.protocolViolationTotal = some 1
      ∧ (r.applyEncoded 5 (Wire.encode c)).1 = .error (.applyOrder 5 5)
      ∧ (∃ outcome, (r.applyEncoded 6 (Wire.encode c)).1 = .ok ⟨6, outcome⟩)
      ∧ (∃ reason, (r.install (Wire.encode used)).1 = .error (.snapshot reason))
      ∧ (∃ reason, (r.install (Wire.encode behind)).1 = .error (.snapshot reason))
      ∧ (r.install (Wire.encode behind)).2 = r
      ∧ ∃ r', r.install (Wire.encode good) = (.ok (), r') ∧ r'.lastApplied = 2
        ∧ r'.sinceSnapshot = 0 ∧ r'.state.locks.tables.get? "t" = none := by
  intro c r used behind good
  obtain ⟨hentry, hinstall, hfailed, -, hinstalled⟩ := failures_exact_and_atomic r
  have hc : Command.decode (Wire.encode c) = .ok c := by decide
  have hused : Snapshot.decode (Wire.encode used) = .ok used := by decide
  have hbehind : Snapshot.decode (Wire.encode behind) = .ok behind := by decide
  have hgood : Snapshot.decode (Wire.encode good) = .ok good := by decide
  have hbad : ∀ c, Command.decode [255] ≠ .ok c := by
    intro c hc
    have hnone : (Command.decode [255]).toOption = none := by decide
    rw [hc] at hnone
    cases hnone
  obtain ⟨reason, hreason⟩ := (hentry 3 [255]).1.2 hbad
  have hserve : r.serve (.applyEncoded 3 [255])
      = (.error (.protocolViolation reason), (r.applyEncoded 3 [255]).2) := by
    rw [serve, hreason]
    rfl
  obtain ⟨-, hstate, -, -, -, hcounters⟩ := hfailed _ _ _ hserve
  have hr : r.install (Wire.encode good) = (.ok (), r.adopt good) :=
    install_of_adoptable hgood (by decide)
  obtain ⟨s, hs, -, -, hlocks, -, hlast, hsince⟩ := hinstalled _ _ hr
  rw [hgood] at hs
  obtain rfl := Except.ok.inj hs
  have hlate : ∃ reason, (r.install (Wire.encode behind)).1 = .error (.snapshot reason) :=
    (hinstall _).1.2 (.inr ⟨behind, hbehind, .inr ⟨7, by decide, by decide⟩⟩)
  refine ⟨⟨reason, hreason⟩, hstate, (hcounters _).trans (by decide),
    (hentry 5 _).2.1.2 ⟨⟨c, hc⟩, by decide⟩, (hentry 6 _).2.2.2 ⟨⟨c, hc⟩, by decide⟩,
    (hinstall _).1.2 (.inr ⟨used, hused, .inl (by decide)⟩), hlate, ?_, _, hr, hlast, hsince, ?_⟩
  · obtain ⟨_, hrefused⟩ := hlate
    exact ((hinstall _).2 _ hrefused).2
  · rw [hlocks]
    decide

/-! ## Runs -/

/-- Serves one request after another. -/
def serveAll (r : Replica) : List Request → List (Except Error Reply) × Replica
  | [] => ([], r)
  | q :: qs =>
    let (replies, r') := (r.serve q).2.serveAll qs
    ((r.serve q).1 :: replies, r')

/-- The requests of a run that do not fail in it. -/
def answered (r : Replica) : List Request → List Request
  | [] => []
  | q :: qs => (if (r.serve q).1.isOk then [q] else []) ++ (r.serve q).2.answered qs

/-- One more entry could not be read. -/
def misread (r : Replica) : Replica := r.record .protocolViolation

theorem record_misread (r : Replica) (e : Event) : r.misread.record e = (r.record e).misread :=
  congrArg (fun m => { r with metrics := m }) (r.metrics.record_protocolViolation_comm e)

theorem advance_misread (r : Replica) (index : UInt64) :
    r.misread.advance index = (r.advance index).misread :=
  record_misread { r with lastApplied := index, sinceSnapshot := r.sinceSnapshot + 1 } _

theorem execute_misread (r : Replica) (c : Command) :
    r.misread.execute c = ((r.execute c).1, (r.execute c).2.misread) := by
  have hmetrics : (events r.state c).foldl Metrics.record (r.metrics.record .protocolViolation)
      = ((events r.state c).foldl Metrics.record r.metrics).record .protocolViolation :=
    List.foldl_hom (Metrics.record · .protocolViolation) fun m e =>
      m.record_protocolViolation_comm e
  simp only [misread, record, execute, hmetrics]

theorem apply_misread (r : Replica) (index : UInt64) (c : Command) :
    r.misread.apply index c = ((r.apply index c).1, (r.apply index c).2.misread) := by
  have hlast : r.misread.lastApplied = r.lastApplied := rfl
  have hoversized : r.misread.isOversized c = r.isOversized c := rfl
  unfold apply
  rw [hlast, hoversized, record_misread, execute_misread]
  split_ifs
  · rfl
  · rw [advance_misread]
  · exact congrArg (Prod.mk _) (advance_misread ..)

theorem install_misread (r : Replica) (bs : Bytes) :
    r.misread.install bs = ((r.install bs).1, (r.install bs).2.misread) := by
  unfold install
  rcases Snapshot.decode bs with e | s
  · rfl
  · dsimp only
    rcases State.restore s with e | state <;> rfl

/-- What a replica answers and does has nothing to do with how many entries it could not read. -/
theorem serve_misread (r : Replica) (q : Request) :
    r.misread.serve q = ((r.serve q).1, (r.serve q).2.misread) := by
  cases q with
  | apply index c => simp only [serve, apply_misread]
  | applyEncoded index payload =>
    simp only [serve, applyEncoded]
    split
    · rw [apply_misread]
    · rfl
  | snapshot => rfl
  | install bs => simp only [serve, install_misread]

theorem serveAll_misread : ∀ (qs : List Request) (r : Replica),
    r.misread.serveAll qs = ((r.serveAll qs).1, (r.serveAll qs).2.misread)
  | [], _ => rfl
  | q :: qs, r => by
    simp only [serveAll, serve_misread, serveAll_misread qs]

theorem answered_misread : ∀ (qs : List Request) (r : Replica),
    r.misread.answered qs = r.answered qs
  | [], _ => rfl
  | q :: qs, r => by
    simp only [answered, serve_misread, answered_misread qs]

/-- What each request of a run keeps, the run keeps. -/
theorem serveAll_induction {P : Replica → Prop} {A : Request → Prop}
    (hstep : ∀ {r q}, A q → P r → P (r.serve q).2) : ∀ (qs : List Request) {r : Replica},
      (∀ q ∈ qs, A q) → P r → P (r.serveAll qs).2
  | [], _, _, h => h
  | q :: qs, _, hqs, h => by
    obtain ⟨hq, hqs⟩ := List.forall_mem_cons.1 hqs
    exact serveAll_induction hstep qs hqs (hstep hq h)

section Cons

variable {qs : List Request}

theorem serveAll_cons {x : Except Error Reply} (h : r.serve q = (x, r')) :
    r.serveAll (q :: qs) = (x :: (r'.serveAll qs).1, (r'.serveAll qs).2) := by
  rw [serveAll, h]

theorem answered_cons_ok {reply : Reply} (h : r.serve q = (.ok reply, r')) :
    r.answered (q :: qs) = q :: r'.answered qs := by
  rw [answered, h]
  rfl

theorem answered_cons_error {e : Error} (h : r.serve q = (.error e, r')) :
    r.answered (q :: qs) = r'.answered qs := by
  rw [answered, h]
  rfl

end Cons

/-- The requests that failed might as well not have been made: without them a run gives the replies
it gave, and ends with the same replica but for the count of what could not be read. -/
theorem serveAll_answered : ∀ (qs : List Request) (r : Replica),
    (r.serveAll (r.answered qs)).1 = (r.serveAll qs).1.filter Except.isOk
      ∧ misread^[qs.countP (·.isUnreadable)] (r.serveAll (r.answered qs)).2 = (r.serveAll qs).2
  | [], _ => ⟨rfl, rfl⟩
  | q :: qs, r => by
    have hserves := serves_serve r q
    rcases hq : r.serve q with ⟨e | reply, r'⟩ <;> rw [hq] at hserves
    · have hr' := hserves.of_error
      rw [answered_cons_error hq, serveAll_cons hq]
      cases hu : q.isUnreadable with
      | false =>
        obtain rfl : r' = r := by rw [hr', hu]; rfl
        rw [List.countP_cons_of_neg (by simp [hu])]
        exact serveAll_answered qs r'
      | true =>
        obtain rfl : r' = r.misread := by rw [hr', hu]; rfl
        obtain ⟨hreplies, hend⟩ := serveAll_answered qs r.misread
        rw [serveAll_misread (r.misread.answered qs)] at hreplies hend
        rw [List.countP_cons_of_pos hu, Function.iterate_succ_apply]
        exact ⟨hreplies, hend⟩
    · obtain ⟨hreplies, hend⟩ := serveAll_answered qs r'
      rw [answered_cons_ok hq, serveAll_cons hq, serveAll_cons hq,
        List.countP_cons_of_neg (by simp [hserves.of_ok])]
      exact ⟨congrArg (.ok reply :: ·) hreplies, hend⟩

end Replica

end Lockstep
