import Lockstep.Proofs.Locks
import Lockstep.Proofs.Tables
import Lockstep.Snapshot

/-!
# Taking up a stored state

Stored tables are taken over if the last version leaves room for another and no entry is above it
(`Tables.ofParts_eq_ok`), and a snapshot is restored if its tables can be (`State.restore_eq_ok`). A
state with tidy locks is the one that comes back from its own snapshot, if its versions are in order
and not used up (`State.restore_snapshot_eq_ok`).
-/

namespace Lockstep

namespace Tables

variable {s : Tables}

/-- No stored version is above the last one handed out. -/
def Bounded (s : Tables) : Prop := ∀ t k e, s.get? t k = some e → e.version ≤ s.nextVersion

theorem mem_versions {v : UInt64} :
    v ∈ versions s.tables ↔ ∃ t k e, s.get? t k = some e ∧ e.version = v :=
  OrdMap.mem_flatMap_values

theorem bounded_iff : s.Bounded ↔ ∀ v ∈ versions s.tables, v ≤ s.nextVersion := by
  constructor
  · intro h v hv
    obtain ⟨t, k, e, he, rfl⟩ := mem_versions.1 hv
    exact h t k e he
  · exact fun h t k e he => h _ (mem_versions.2 ⟨t, k, e, he, rfl⟩)

theorem foldl_max_le {n : UInt64} : ∀ {vs : List UInt64} {m : UInt64},
    vs.foldl (fun m n => if m < n then n else m) m ≤ n ↔ m ≤ n ∧ ∀ v ∈ vs, v ≤ n
  | [], m => by simp
  | v :: vs, m => by
    rw [List.foldl_cons, foldl_max_le, List.forall_mem_cons, ← and_assoc]
    refine and_congr_left fun _ => ?_
    split
    · rename_i h
      exact ⟨fun hv => ⟨UInt64.le_trans (UInt64.le_of_lt h) hv, hv⟩, And.right⟩
    · rename_i h
      exact ⟨fun hm => ⟨hm, UInt64.le_trans (UInt64.not_lt.1 h) hm⟩, And.left⟩

/-- Tables are taken over if the last version leaves room for another and no entry is above it. -/
theorem ofParts_eq_ok {tables : OrdMap String Table} {n : UInt64} :
    ofParts tables n = .ok s ↔
      s = ⟨tables, n⟩ ∧ n.toNat + 1 ≠ UInt64.size ∧ s.Bounded := by
  have hbounded : ¬ n < (versions tables).foldl (fun m n => if m < n then n else m) 0
      ↔ (⟨tables, n⟩ : Tables).Bounded := by
    rw [UInt64.not_lt, foldl_max_le, bounded_iff]
    exact ⟨And.right, fun h => ⟨UInt64.zero_le, h⟩⟩
  simp only [ofParts]
  split_ifs with h1 h2
  · simp [h1]
  · simp only [false_iff]
    rintro ⟨rfl, -, h⟩
    exact hbounded.2 h h2
  · rw [Except.ok.injEq, eq_comm]
    exact ⟨fun h => ⟨h, h1, h ▸ hbounded.1 h2⟩, And.left⟩

end Tables

namespace Snapshot

/-- The last version leaves room for another, and no stored version is above it. -/
def Adoptable (s : Snapshot) : Prop :=
  s.nextVersion.toNat + 1 ≠ UInt64.size ∧ ∀ v ∈ Tables.versions s.tables, v ≤ s.nextVersion

instance (s : Snapshot) : Decidable s.Adoptable :=
  have : Decidable (∀ v ∈ Tables.versions s.tables, v ≤ s.nextVersion) := List.decidableBAll _ _
  inferInstanceAs (Decidable (_ ∧ _))

theorem not_adoptable {s : Snapshot} : ¬ s.Adoptable ↔
    s.nextVersion.toNat + 1 = UInt64.size ∨ ∃ v ∈ Tables.versions s.tables, s.nextVersion < v := by
  simp only [Adoptable, not_and_or, not_not, not_forall, UInt64.not_le, exists_prop]

/-- The state that the regions make up. -/
def state (s : Snapshot) : State := ⟨⟨s.counters⟩, ⟨s.tables, s.nextVersion⟩, .ofMap s.locks⟩

end Snapshot

namespace State

variable {s s' : State}

theorem ofContext_eq_ok {c : Context} : ofContext c = .ok s ↔
    s = ⟨⟨c.counters.getD ∅⟩, ⟨c.tables.getD ∅, c.nextVersion.getD 0⟩, .ofMap (c.locks.getD ∅)⟩
      ∧ (c.nextVersion.getD 0).toNat + 1 ≠ UInt64.size ∧ s.tables.Bounded := by
  simp only [ofContext, bind, Except.bind, pure, Except.pure]
  rcases h : Tables.ofParts (c.tables.getD ∅) (c.nextVersion.getD 0) with f | tables
  · simp only [Except.mapError, reduceCtorEq, false_iff]
    rintro ⟨rfl, hn, hb⟩
    rw [Tables.ofParts_eq_ok.2 ⟨rfl, hn, hb⟩] at h
    cases h
  · obtain ⟨rfl, hn, hb⟩ := Tables.ofParts_eq_ok.1 h
    simp only [Except.mapError, Except.ok.injEq]
    constructor
    · rintro rfl
      exact ⟨rfl, hn, hb⟩
    · exact fun h => h.1.symm

theorem ofContext_error {c : Context} {e : Error} (h : ofContext c = .error e) :
    ∃ reason, e = .snapshot reason := by
  simp only [ofContext, bind, Except.bind] at h
  rcases ht : Tables.ofParts (c.tables.getD ∅) (c.nextVersion.getD 0) with f | tables
  · rw [ht] at h
    exact ⟨f.message, (Except.error.inj h).symm⟩
  · rw [ht] at h
    cases h

section Restore

variable {snapshot : Snapshot}

theorem restore_eq_ok : restore snapshot = .ok s ↔ snapshot.Adoptable ∧ s = snapshot.state := by
  rw [restore, ofContext_eq_ok, and_comm, Snapshot.Adoptable]
  exact and_congr_left fun hs => and_congr_right' (by rw [Tables.bounded_iff, hs]; rfl)

theorem restore_refused (h : ¬ snapshot.Adoptable) :
    ∃ reason, restore snapshot = .error (.snapshot reason) := by
  rcases hr : restore snapshot with e | s
  · obtain ⟨reason, rfl⟩ := ofContext_error hr
    exact ⟨reason, rfl⟩
  · exact absurd (restore_eq_ok.1 hr).1 h

end Restore

/-- A state with tidy locks comes back from its snapshot as it is, if at all. -/
theorem restore_snapshot_eq_ok (hs : s.locks.Coherent) (index : UInt64) :
    restore (s.snapshot index) = .ok s' ↔
      s' = s ∧ s.tables.nextVersion.toNat + 1 ≠ UInt64.size ∧ s.tables.Bounded := by
  have hstate : (s.snapshot index).state = s := congrArg (State.mk _ _) hs.ofMap_tables
  rw [restore_eq_ok, hstate, and_comm, Tables.bounded_iff]
  rfl

theorem restore_snapshot (hl : s.locks.Coherent) (ht : s.tables.Bounded)
    (hroom : s.tables.nextVersion.toNat + 1 ≠ UInt64.size) (index : UInt64) :
    restore (s.snapshot index) = .ok s :=
  (restore_snapshot_eq_ok hl index).2 ⟨rfl, hroom, ht⟩

end State

end Lockstep
