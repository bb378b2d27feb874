import Lockstep.Proofs.Listing
import Lockstep.Proofs.Undoing

/-!
# Transactions in either order

Each lock has one owner, so what two transactions with different ids hold is apart, whatever keys
they both name. Letting the keys of one go leaves what waits for the other
(`Locks.settlements_releaseAll`), and so a commit and a rollback may change places, and two
rollbacks. Two commits make the same writes between them, in a different order
(`State.commit_commit_eq`). Writes at different keys that are made in another order leave the same
values at the same keys and hand out the same versions, though not to the same keys
(`Tables.settleAll` under `List.Perm`).
-/

namespace Lockstep

namespace Locks

variable {l : Locks} {id id' : UInt64} {us vs : List Update}

theorem holds_releaseAll_of_ne (hne : id ≠ id') {p : Place} :
    (l.releaseAll id us).Holds id' p ↔ l.Holds id' p := by
  constructor
  · exact fun h => (holds_of_releaseAll h).1
  · intro h
    have hkeep : (l.releaseAll id us).get? p.1 p.2 = l.get? p.1 p.2 :=
      get?_releaseAll_of_not_holds (State.not_holds_of_ne h hne)
    exact (holds_congr hkeep).2 h

/-- What waits for a transaction is left by one with another id that lets its keys go. -/
theorem settlements_releaseAll (hne : id ≠ id') :
    (l.releaseAll id us).settlements id' vs = l.settlements id' vs := by
  refine List.filterMap_congr fun ⟨t, k⟩ _ => ?_
  by_cases h : l.Holds id' (t, k)
  · rw [waiting?, get?_releaseAll_of_not_holds (State.not_holds_of_ne h hne), waiting?]
  · rw [waiting?_eq_none h, waiting?_eq_none ((holds_releaseAll_of_ne hne).not.2 h)]

theorem Coherent.releaseAll_comm (h : l.Coherent) (hne : id ≠ id') :
    (l.releaseAll id us).releaseAll id' vs = (l.releaseAll id' vs).releaseAll id us := by
  refine h.releaseAll.releaseAll.ext h.releaseAll.releaseAll fun t k => ?_
  simp only [get?_releaseAll, holds_releaseAll_of_ne hne, holds_releaseAll_of_ne hne.symm]
  split_ifs <;> rfl

end Locks

namespace Tables

variable {s s' : Tables} {ws ws' : List Settlement} {p : Place}

/-- The versions found at the places of the puts are those handed out. -/
theorem Stamped.exists_version?_iff {ps : List Place} (h : s.Stamped ps s') {v : UInt64} :
    (∃ p ∈ ps, s'.version? p = some v) ↔ v ∈ following s.nextVersion ps.length := by
  have hmem : some v ∈ ps.map s'.version? ↔ v ∈ following s.nextVersion ps.length := by
    rw [h.versions, List.mem_map_of_injective (Option.some_injective _)]
  rw [← hmem, List.mem_map]

section Perm

variable (hperm : ws.Perm ws') (hnodup : (ws.map Settlement.place).Nodup)

include hperm hnodup

theorem nodup_of_perm : (ws'.map Settlement.place).Nodup := (hperm.map _).nodup_iff.1 hnodup

theorem value_settleAll_of_perm (p : Place) :
    ((s.settleAll ws).get? p.1 p.2).map (·.value)
      = ((s.settleAll ws').get? p.1 p.2).map (·.value) := by
  by_cases hp : p ∈ ws.map Settlement.place
  · obtain ⟨w, hw, rfl⟩ := List.mem_map.1 hp
    exact (value_settleAll hnodup hw).trans
      (value_settleAll (nodup_of_perm hperm hnodup) (hperm.mem_iff.1 hw)).symm
  · have hp' : p ∉ ws'.map Settlement.place := (hperm.map _).mem_iff.not.1 hp
    rw [get?_settleAll_of_notMem hp, get?_settleAll_of_notMem hp']

/-- Where nothing was put the entry is the same, version and all. -/
theorem get?_settleAll_of_perm (hput : p ∉ (ws.filter Settlement.isPut).map Settlement.place) :
    (s.settleAll ws).get? p.1 p.2 = (s.settleAll ws').get? p.1 p.2 := by
  by_cases hp : p ∈ ws.map Settlement.place
  · obtain ⟨w, hw, rfl⟩ := List.mem_map.1 hp
    have hremoval : w.isPut = false := by
      rw [Bool.eq_false_iff]
      exact fun h => hput (List.mem_map_of_mem (List.mem_filter.2 ⟨hw, h⟩))
    exact (get?_settleAll_of_tombstone hnodup hw hremoval).trans
      (get?_settleAll_of_tombstone (nodup_of_perm hperm hnodup) (hperm.mem_iff.1 hw) hremoval).symm
  · have hp' : p ∉ ws'.map Settlement.place := (hperm.map _).mem_iff.not.1 hp
    rw [get?_settleAll_of_notMem hp, get?_settleAll_of_notMem hp']

theorem nextVersion_settleAll_of_perm :
    (s.settleAll ws).nextVersion = (s.settleAll ws').nextVersion := by
  rw [(stamped_settleAll s hnodup).next,
    (stamped_settleAll s (nodup_of_perm hperm hnodup)).next, List.length_map, List.length_map,
    (hperm.filter _).length_eq]

omit hnodup in
theorem names_settleAll_of_perm : (s.settleAll ws).names = (s.settleAll ws').names := by
  refine OrdSet.ext_contains fun t => ?_
  rw [Bool.eq_iff_iff, lists_settleAll ws s t, lists_settleAll ws' s t, (hperm.map _).mem_iff]

/-- The puts hand out the same versions in any order. -/
theorem exists_version?_settleAll_of_perm {v : UInt64} :
    (∃ p ∈ (ws.filter Settlement.isPut).map Settlement.place,
        (s.settleAll ws).version? p = some v)
      ↔ ∃ p ∈ (ws'.filter Settlement.isPut).map Settlement.place,
        (s.settleAll ws').version? p = some v := by
  rw [(stamped_settleAll s hnodup).exists_version?_iff,
    (stamped_settleAll s (nodup_of_perm hperm hnodup)).exists_version?_iff, List.length_map,
    List.length_map, (hperm.filter _).length_eq]

end Perm

end Tables

namespace State

variable {s : State} {one two : Transaction}

theorem rollback_comm (hs : s.locks.Coherent) (hid : one.id ≠ two.id) :
    (s.rollback one).rollback two = (s.rollback two).rollback one := by
  simp only [rollback_eq, hs.releaseAll_comm hid]

theorem commit_rollback_comm (hs : s.locks.Coherent) (hid : one.id ≠ two.id) :
    (s.commit one).rollback two = (s.rollback two).commit one := by
  simp only [rollback_eq, commit_eq, hs.releaseAll_comm hid, Locks.settlements_releaseAll hid.symm]

/-- What waits for two transactions, one after the other. -/
def waitingFor (s : State) (one two : Transaction) : List Settlement :=
  s.locks.settlements one.id one.updates ++ s.locks.settlements two.id two.updates

theorem waitingFor_perm (s : State) (one two : Transaction) :
    (s.waitingFor one two).Perm (s.waitingFor two one) := List.perm_append_comm

theorem commit_commit_eq (hid : one.id ≠ two.id) : (s.commit one).commit two
    = { s with
        tables := s.tables.settleAll (s.waitingFor one two)
        locks := (s.locks.releaseAll one.id one.updates).releaseAll two.id two.updates } := by
  simp only [commit_eq, Locks.settlements_releaseAll hid, waitingFor, Tables.settleAll_append]

/-- What waits for two transactions with different ids waits at different keys. -/
theorem nodup_waitingFor (hid : one.id ≠ two.id) :
    ((s.waitingFor one two).map Settlement.place).Nodup := by
  rw [waitingFor, List.map_append]
  refine List.Nodup.append Locks.nodup_settlements Locks.nodup_settlements fun p hone htwo => ?_
  exact not_holds_of_ne (Locks.place_mem_settlements htwo).2 hid
    (Locks.place_mem_settlements hone).2

/-- The keys that the first commit puts values at, and then those of the second. -/
theorem map_place_puts_waitingFor (hid : one.id ≠ two.id) :
    ((s.waitingFor one two).filter Settlement.isPut).map Settlement.place
      = s.putKeys one ++ (s.commit one).putKeys two := by
  rw [waitingFor, List.filter_append, List.map_append, map_place_puts, ← map_place_puts _ two,
    commit_eq, Locks.settlements_releaseAll hid]

/-- A transaction is prepared or refused as it would be before another without a common key. -/
theorem verdict_tryPrepare (hdisjoint : ∀ p ∈ one.places, p ∉ two.places) :
    (s.tryPrepare one).2.verdict two = s.verdict two := by
  rw [snd_tryPrepare]
  split_ifs
  · exact verdict_congr rfl fun p hp => Locks.get?_lockAll_of_notMem fun hmem => hdisjoint p hmem hp
  · rfl

theorem tryPrepare_comm (hs : s.locks.Coherent) (hdisjoint : ∀ p ∈ one.places, p ∉ two.places) :
    ((s.tryPrepare one).2.tryPrepare two).2 = ((s.tryPrepare two).2.tryPrepare one).2 := by
  have hone : (s.tryPrepare two).2.verdict one = s.verdict one :=
    verdict_tryPrepare fun p hp hmem => hdisjoint p hmem hp
  have htwo : (s.tryPrepare one).2.verdict two = s.verdict two := verdict_tryPrepare hdisjoint
  have hcomm : (s.lockAll one).lockAll two = (s.lockAll two).lockAll one :=
    congrArg (fun l => { s with locks := l }) (hs.lockAll_comm hdisjoint)
  rw [snd_tryPrepare (s.tryPrepare one).2, snd_tryPrepare (s.tryPrepare two).2, hone, htwo,
    snd_tryPrepare, snd_tryPrepare]
  split_ifs
  · exact hcomm
  · rfl
  · rfl
  · rfl

/-- Of two transactions with different ids that name no common key, each is prepared or refused as
if it came first, and the state is the same in the end. Two rollbacks, or a commit and a rollback,
leave the same state in either order, whatever keys they name. So do two commits, but for the
versions: locks, counters, the last version and the tables listed are the same, the same keys have
entries with the same values, entries that were not put by the two are the same altogether, and the
versions that the two hand out are the same, if not at the same keys. -/
theorem independent_in_either_order (hs : Reachable s) (hid : one.id ≠ two.id) :
    ((∀ p ∈ one.places, p ∉ two.places) →
      ((s.tryPrepare two).2.tryPrepare one).1 = (s.tryPrepare one).1
        ∧ ((s.tryPrepare one).2.tryPrepare two).1 = (s.tryPrepare two).1
        ∧ ((s.tryPrepare one).2.tryPrepare two).2 = ((s.tryPrepare two).2.tryPrepare one).2)
      ∧ (s.rollback one).rollback two = (s.rollback two).rollback one
      ∧ (s.commit one).rollback two = (s.rollback two).commit one
      ∧ let left := (s.commit one).commit two
        let right := (s.commit two).commit one
        let leftPuts := s.putKeys one ++ (s.commit one).putKeys two
        let rightPuts := s.putKeys two ++ (s.commit two).putKeys one
        left.locks = right.locks ∧ left.counters = right.counters
          ∧ left.tables.nextVersion = right.tables.nextVersion
          ∧ left.tables.names = right.tables.names
          ∧ (∀ p : Place, (left.tables.get? p.1 p.2).map (·.value)
            = (right.tables.get? p.1 p.2).map (·.value))
          ∧ (∀ p, p ∉ leftPuts ∨ p ∉ rightPuts →
            left.tables.get? p.1 p.2 = right.tables.get? p.1 p.2)
          ∧ {v | ∃ p ∈ leftPuts, left.tables.version? p = some v}
            = {v | ∃ p ∈ rightPuts, right.tables.version? p = some v} := by
  refine ⟨fun hdisjoint => ⟨?_, ?_, tryPrepare_comm hs.coherent hdisjoint⟩,
    rollback_comm hs.coherent hid, commit_rollback_comm hs.coherent hid, ?_⟩
  · rw [tryPrepare_eq, tryPrepare_eq s one]
    exact verdict_tryPrepare fun p hp hmem => hdisjoint p hmem hp
  · rw [tryPrepare_eq, tryPrepare_eq s two]
    exact verdict_tryPrepare hdisjoint
  · intro left right leftPuts rightPuts
    have hnodup := nodup_waitingFor (s := s) hid
    have hperm := waitingFor_perm s one two
    have hleft : left = _ := commit_commit_eq hid
    have hright : right = _ := commit_commit_eq hid.symm
    have hleftPuts : leftPuts = _ := (map_place_puts_waitingFor hid).symm
    have hrightPuts : rightPuts = _ := (map_place_puts_waitingFor hid.symm).symm
    rw [hleft, hright, hleftPuts, hrightPuts]
    refine ⟨hs.coherent.releaseAll_comm hid, rfl,
      Tables.nextVersion_settleAll_of_perm hperm hnodup, Tables.names_settleAll_of_perm hperm,
      Tables.value_settleAll_of_perm hperm hnodup, fun p hp => ?_,
      Set.ext fun v => Tables.exists_version?_settleAll_of_perm hperm hnodup⟩
    have hsame := ((hperm.filter Settlement.isPut).map Settlement.place).mem_iff (a := p)
    exact Tables.get?_settleAll_of_perm hperm hnodup (hp.elim id hsame.not.2)

theorem independent_in_either_order_overlapping :
    let one : Transaction := ⟨1, [⟨"t", "k", .put ⟨[1]⟩⟩, ⟨"t", "j", .remove⟩]⟩
    let two : Transaction := ⟨2, [⟨"t", "i", .put ⟨[2]⟩⟩]⟩
    let s₀ : State := (∅ : State).after [.write "t" "j" (.put ⟨[3]⟩)]
    let s : State := s₀.after [.prepare one, .prepare two]
    let both : Transaction := ⟨1, [⟨"t", "i", .remove⟩, ⟨"t", "k", .remove⟩, ⟨"t", "j", .remove⟩]⟩
    let either : Transaction := { both with id := 2 }
    let left := (s.commit both).commit either
    let right := (s.commit either).commit both
    Reachable s₀ ∧ Reachable s ∧ both.id ≠ either.id ∧ (∀ p ∈ one.places, p ∉ two.places)
      ∧ ((s₀.tryPrepare one).2.tryPrepare two).2 = ((s₀.tryPrepare two).2.tryPrepare one).2
      ∧ (s.rollback both).rollback either = (s.rollback either).rollback both
      ∧ (s.commit both).rollback either = (s.rollback either).commit both
      ∧ left.locks = right.locks ∧ left.tables ≠ right.tables
      ∧ (left.tables.get? "t" "k").map (·.value) = (right.tables.get? "t" "k").map (·.value)
      ∧ {v | ∃ p ∈ s.putKeys both ++ (s.commit both).putKeys either,
          left.tables.version? p = some v}
        = {v | ∃ p ∈ s.putKeys either ++ (s.commit either).putKeys both,
          right.tables.version? p = some v} := by
  intro one two s₀ s both either left right
  have hs₀ : Reachable s₀ := ⟨∅, _, .empty, rfl⟩
  have hs : Reachable s := ⟨∅, [.write "t" "j" (.put ⟨[3]⟩), .prepare one, .prepare two], .empty, rfl⟩
  have hids : one.id ≠ two.id := by decide
  have hid : both.id ≠ either.id := by decide
  have hdisjoint : ∀ p ∈ one.places, p ∉ two.places := by decide
  obtain ⟨hprepared, -⟩ := independent_in_either_order hs₀ hids
  obtain ⟨-, hrollbacks, hmixed, hlocks, -, -, -, hvalues, -, hversions⟩ :=
    independent_in_either_order hs hid
  exact ⟨hs₀, hs, hid, hdisjoint, (hprepared hdisjoint).2.2, hrollbacks, hmixed, hlocks, by decide,
    hvalues ("t", "k"), hversions⟩

end State

end Lockstep
