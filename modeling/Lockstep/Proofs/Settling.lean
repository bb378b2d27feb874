import Lockstep.Proofs.LockViews
import Lockstep.Proofs.Versions

/-!
# What a commit does

A commit goes by the locks its transaction holds, not by its updates: of these only the keys count,
each the first time it is named (`heldKeys`). Where a put waits the value is stored, under the
versions that follow the last one, in the order of the keys (`get?_commit_of_putKeys`). Where a
removal waits the entry goes. The locks on these keys go, each taking one off the count
(`Locks.Coherent.count_releaseAll`), and everything else stays (`held_keys_settled`).
-/

namespace Lockstep

namespace Locks

variable {l : Locks} {id : UInt64}

theorem waiting?_eq_some {p : Place} {w : Settlement} :
    l.waiting? id p = some w ↔ w.place = p ∧ l.get? p.1 p.2 = some ⟨id, w.pending⟩ := by
  obtain ⟨t, k⟩ := p
  constructor
  · intro h
    by_cases hh : l.Holds id (t, k)
    · obtain ⟨v, hv⟩ := hh
      rw [waiting?_of_get? hv] at h
      cases h
      exact ⟨rfl, hv⟩
    · rw [waiting?_eq_none hh] at h
      cases h
  · rintro ⟨hp, h⟩
    cases hp
    exact waiting?_of_get? h

theorem get?_of_mem_settlements {us : List Update} {w : Settlement}
    (h : w ∈ l.settlements id us) : l.get? w.table w.key = some ⟨id, w.pending⟩ := by
  obtain ⟨p, -, hp⟩ := List.mem_filterMap.1 h
  obtain ⟨rfl, hl⟩ := waiting?_eq_some.1 hp
  exact hl

theorem Coherent.count_release (h : l.Coherent) {t k : String} :
    (l.release t k id).count + (if l.Holds id (t, k) then 1 else 0) = l.count := by
  by_cases hh : l.Holds id (t, k)
  · obtain ⟨w, hw⟩ := hh
    rw [if_pos ⟨w, hw⟩, release_of_holds hw]
    exact h.count_release? (release?_of_holds hw)
  · rw [if_neg hh, release_of_not_holds hh]
    rfl

/-- Of tidy locks one goes for each key that is let go. -/
theorem Coherent.count_releaseAll : ∀ {us : List Update} {l : Locks}, l.Coherent →
    (l.releaseAll id us).count + (l.settlements id us).length = l.count
  | [], l, _ => rfl
  | u :: us, l, h => by
    have ih : ((l.release u.table u.key id).releaseAll id us).count + _ = _ :=
      h.release.count_releaseAll
    have hcount : (l.release u.table u.key id).count + _ = _ := h.count_release
    rw [releaseAll_cons]
    by_cases hh : l.Holds id (u.table, u.key)
    · rw [if_pos hh] at hcount
      obtain ⟨w, hw⟩ := hh
      rw [settlements_cons_of_holds hw, List.length_cons]
      omega
    · rw [release_of_not_holds hh] at ih ⊢
      rw [settlements_cons_of_not_holds hh]
      exact ih

/-- Letting keys go is a matter of the keys named, not of what the updates are. -/
theorem releaseAll_eq_foldl (us : List Update) : releaseAll id us l
    = (us.map Update.place).foldl (fun l p => l.release p.1 p.2 id) l := by
  rw [List.foldl_map]
  rfl

end Locks

namespace Tables

variable {s : Tables} {ws : List Settlement}

/-- The puts among the writes take the versions that follow, in their order: each stands among them
where its version stands among those handed out. -/
theorem get?_settleAll_of_getElem? (hnodup : (ws.map Settlement.place).Nodup)
    (hfits : s.nextVersion.toNat + (ws.filter Settlement.isPut).length < UInt64.size)
    {i : ℕ} {w : Settlement} (hw : (ws.filter Settlement.isPut)[i]? = some w) :
    ∃ v n, w.pending = .put v ∧ (s.settleAll ws).get? w.table w.key = some ⟨v, n⟩
      ∧ n.toNat = s.nextVersion.toNat + (i + 1) := by
  have hmem : w ∈ ws := List.mem_of_mem_filter (List.mem_of_getElem? hw)
  have hput : w.isPut = true := (List.mem_filter.1 (List.mem_of_getElem? hw)).2
  obtain ⟨n, hn, hnum⟩ := exists_getElem?_following hfits (List.getElem?_eq_some_iff.1 hw).1
  have hversion : (s.settleAll ws).version? w.place = some n := by
    have h := congrArg (·[i]?) (stamped_settleAll s hnodup).versions
    simpa [hw, hn] using h
  have hvalue := value_settleAll (s := s) hnodup hmem
  obtain ⟨e, he, rfl⟩ := Option.map_eq_some_iff.1 hversion
  rw [Settlement.place] at he
  rw [he, Option.map_some] at hvalue
  rcases hp : w.pending with v | _
  · rw [hp] at hvalue
    cases hvalue
    exact ⟨e.value, e.version, rfl, he, hnum⟩
  · rw [Settlement.isPut, hp] at hput
    cases hput

theorem get?_settleAll_of_tombstone (hnodup : (ws.map Settlement.place).Nodup) {w : Settlement}
    (hw : w ∈ ws) (hput : w.isPut = false) : (s.settleAll ws).get? w.table w.key = none := by
  have hvalue := value_settleAll (s := s) hnodup hw
  rw [Option.not_isSome_iff_eq_none.1 (Bool.eq_false_iff.1 hput)] at hvalue
  exact Option.map_eq_none_iff.1 hvalue

end Tables

namespace State

/-- The keys that the transaction names and holds, in the order they are first named. -/
def heldKeys (s : State) (txn : Transaction) : List Place :=
  txn.places.filter fun p => s.locks.Holds txn.id p

/-- Those of them where a value waits to be put. -/
def putKeys (s : State) (txn : Transaction) : List Place :=
  (s.heldKeys txn).filter fun p =>
    (s.locks.get? p.1 p.2).any fun lock => lock.pending.value?.isSome

variable {s : State} {txn : Transaction}

theorem mem_heldKeys {p : Place} :
    p ∈ s.heldKeys txn ↔ p ∈ txn.places ∧ s.locks.Holds txn.id p := by
  rw [heldKeys, List.mem_filter, decide_eq_true_eq]

theorem map_place_settlements (s : State) (txn : Transaction) :
    (s.locks.settlements txn.id txn.updates).map Settlement.place = s.heldKeys txn :=
  Locks.map_place_settlements s.locks txn.id txn.updates

theorem map_place_puts (s : State) (txn : Transaction) :
    ((s.locks.settlements txn.id txn.updates).filter Settlement.isPut).map Settlement.place
      = s.putKeys txn := by
  rw [putKeys, ← map_place_settlements, List.filter_map]
  congr 1
  refine List.filter_congr fun w hw => ?_
  simp [Settlement.isPut, Settlement.place, Locks.get?_of_mem_settlements hw]

theorem length_puts (s : State) (txn : Transaction) :
    ((s.locks.settlements txn.id txn.updates).filter Settlement.isPut).length
      = (s.putKeys txn).length := by
  rw [← map_place_puts, List.length_map]

theorem get?_releaseAll_places (s : State) (txn : Transaction) (p : Place) :
    (s.locks.releaseAll txn.id txn.updates).get? p.1 p.2
      = if p ∈ s.heldKeys txn then none else s.locks.get? p.1 p.2 := by
  simp only [Locks.get?_releaseAll, mem_heldKeys]
  rfl

theorem count_releaseAll_places (hs : s.locks.Coherent) (txn : Transaction) :
    (s.locks.releaseAll txn.id txn.updates).count + (s.heldKeys txn).length = s.locks.count := by
  rw [← map_place_settlements, List.length_map]
  exact hs.count_releaseAll

/-- The values that wait for a commit are stored under the versions that follow, in the order of
their keys. -/
theorem get?_commit_of_putKeys
    (hfits : s.tables.nextVersion.toNat + (s.putKeys txn).length < UInt64.size)
    {i : ℕ} {p : Place} (hp : (s.putKeys txn)[i]? = some p) :
    ∃ v n, s.locks.get? p.1 p.2 = some ⟨txn.id, .put v⟩
      ∧ (s.commit txn).tables.get? p.1 p.2 = some ⟨v, n⟩
      ∧ n.toNat = s.tables.nextVersion.toNat + (i + 1) := by
  rw [← map_place_puts, List.getElem?_map, Option.map_eq_some_iff] at hp
  obtain ⟨w, hw, rfl⟩ := hp
  rw [← length_puts] at hfits
  obtain ⟨v, n, hv, he, hn⟩ := Tables.get?_settleAll_of_getElem? Locks.nodup_settlements hfits hw
  have hlock := Locks.get?_of_mem_settlements (List.mem_of_mem_filter (List.mem_of_getElem? hw))
  rw [commit_eq]
  exact ⟨v, n, hv ▸ hlock, he, hn⟩

/-- Where a removal waits for a commit there is no entry after it. -/
theorem get?_commit_of_heldKeys {p : Place} (hp : p ∈ s.heldKeys txn) (hput : p ∉ s.putKeys txn) :
    (s.commit txn).tables.get? p.1 p.2 = none := by
  rw [← map_place_settlements] at hp
  obtain ⟨w, hw, rfl⟩ := List.mem_map.1 hp
  have hremoval : w.isPut = false := by
    rw [Bool.eq_false_iff]
    intro hisPut
    rw [← map_place_puts] at hput
    exact hput (List.mem_map_of_mem (List.mem_filter.2 ⟨hw, hisPut⟩))
  rw [commit_eq]
  exact Tables.get?_settleAll_of_tombstone Locks.nodup_settlements hw hremoval

theorem get?_commit_of_notMem {p : Place} (hp : p ∉ s.heldKeys txn) :
    (s.commit txn).tables.get? p.1 p.2 = s.tables.get? p.1 p.2 := by
  rw [commit_eq]
  exact Tables.get?_settleAll_of_notMem (by rwa [map_place_settlements])

theorem toNat_nextVersion_commit
    (hfits : s.tables.nextVersion.toNat + (s.putKeys txn).length < UInt64.size) :
    (s.commit txn).tables.nextVersion.toNat
      = s.tables.nextVersion.toNat + (s.putKeys txn).length := by
  rw [← length_puts] at hfits ⊢
  have hnodup : ((s.locks.settlements txn.id txn.updates).map Settlement.place).Nodup :=
    Locks.nodup_settlements
  rw [commit_eq, (Tables.stamped_settleAll s.tables hnodup).next, List.length_map,
    toNat_add_ofNat hfits]

theorem commit_congr {other : Transaction} (hid : other.id = txn.id)
    (hplaces : other.updates.map Update.place = txn.updates.map Update.place) :
    s.commit other = s.commit txn := by
  rw [commit_eq, commit_eq, Locks.releaseAll_eq_foldl, Locks.releaseAll_eq_foldl,
    Locks.settlements, Locks.settlements, places, places, hid, hplaces]

/-- A commit goes through the keys that its transaction names and holds. The values that wait there
are stored under the versions that follow, one each and in the order of the keys; where a removal
waits the key has no entry any more. The other entries and the counters stay. The locks on these
keys go, and no other, and the count of locks goes down by as many. What the updates of the
transaction are does not matter, as long as they name the same keys in the same order. -/
theorem held_keys_settled (hs : Reachable s) (txn : Transaction)
    (hfits : s.tables.nextVersion.toNat + (s.putKeys txn).length < UInt64.size) :
    let next := s.commit txn
    (∀ i p, (s.putKeys txn)[i]? = some p → ∃ v n, s.locks.get? p.1 p.2 = some ⟨txn.id, .put v⟩
        ∧ next.tables.get? p.1 p.2 = some ⟨v, n⟩
        ∧ n.toNat = s.tables.nextVersion.toNat + (i + 1))
      ∧ (∀ p ∈ s.heldKeys txn, p ∉ s.putKeys txn → next.tables.get? p.1 p.2 = none)
      ∧ (∀ p ∉ s.heldKeys txn, next.tables.get? p.1 p.2 = s.tables.get? p.1 p.2)
      ∧ next.tables.nextVersion.toNat = s.tables.nextVersion.toNat + (s.putKeys txn).length
      ∧ (∀ p, next.locks.get? p.1 p.2
        = if p ∈ s.heldKeys txn then none else s.locks.get? p.1 p.2)
      ∧ next.locks.count + (s.heldKeys txn).length = s.locks.count
      ∧ next.counters = s.counters
      ∧ ∀ other : Transaction, other.id = txn.id →
        other.updates.map Update.place = txn.updates.map Update.place → s.commit other = next := by
  intro next
  have hlocks : next.locks = s.locks.releaseAll txn.id txn.updates :=
    congrArg State.locks (commit_eq s txn)
  have hcounters : next.counters = s.counters := by
    simp only [next, commit_eq]
  refine ⟨fun i p => get?_commit_of_putKeys hfits, fun p => get?_commit_of_heldKeys,
    fun p => get?_commit_of_notMem, toNat_nextVersion_commit hfits, ?_, ?_, hcounters,
    fun other => commit_congr⟩
  · rw [hlocks]
    exact get?_releaseAll_places s txn
  · rw [hlocks]
    exact count_releaseAll_places hs.coherent txn

theorem held_keys_settled_in_part :
    let one : Transaction := ⟨1, [⟨"t", "k", .put ⟨[5]⟩⟩, ⟨"t", "j", .remove⟩,
      ⟨"u", "k", .put ⟨[6]⟩⟩]⟩
    let two : Transaction := ⟨2, [⟨"v", "k", .put ⟨[7]⟩⟩]⟩
    let s : State := (∅ : State).after [.write "t" "j" (.put ⟨[1]⟩), .prepare one, .prepare two]
    let txn : Transaction := ⟨1, [⟨"u", "k", .remove⟩, ⟨"v", "k", .remove⟩, ⟨"t", "j", .remove⟩,
      ⟨"u", "k", .put ⟨[8]⟩⟩, ⟨"w", "k", .remove⟩, ⟨"t", "k", .removeIfVersion 9⟩]⟩
    Reachable s ∧ s.tables.nextVersion.toNat + (s.putKeys txn).length < UInt64.size
      ∧ s.heldKeys txn = [("u", "k"), ("t", "j"), ("t", "k")]
      ∧ s.putKeys txn = [("u", "k"), ("t", "k")]
      ∧ (∃ n : UInt64, (s.commit txn).tables.get? "t" "k" = some ⟨⟨[5]⟩, n⟩ ∧ n.toNat = 3)
      ∧ (s.commit txn).tables.get? "t" "j" = none
      ∧ (s.commit txn).locks.count = 1 := by
  intro one two s txn
  have hs : Reachable s := ⟨∅, _, .empty, rfl⟩
  have hheld : s.heldKeys txn = [("u", "k"), ("t", "j"), ("t", "k")] := by decide
  have hput : s.putKeys txn = [("u", "k"), ("t", "k")] := by decide
  have hnext : s.tables.nextVersion = 1 := by decide
  have hfits : s.tables.nextVersion.toNat + (s.putKeys txn).length < UInt64.size := by
    rw [hput, hnext]
    decide
  obtain ⟨hputs, hgone, -, -, -, hcount, -⟩ := held_keys_settled hs txn hfits
  obtain ⟨v, n, hlock, hentry, hn⟩ := hputs 1 ("t", "k") (by rw [hput]; rfl)
  have hwaits : s.locks.get? "t" "k" = some ⟨1, .put ⟨[5]⟩⟩ := by decide
  cases hwaits.symm.trans hlock
  rw [hnext] at hn
  have hbefore : s.locks.count = 4 := by decide
  rw [hheld, hbefore] at hcount
  exact ⟨hs, hfits, hheld, hput, ⟨n, hentry, hn⟩,
    hgone ("t", "j") (by rw [hheld]; decide) (by rw [hput]; decide), Nat.add_right_cancel hcount⟩

end State

end Lockstep
