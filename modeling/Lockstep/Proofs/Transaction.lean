import Mathlib.Data.List.Basic
import Lockstep.Transaction

/-!
# The keys of a transaction

A transaction may name a key more than once. Its places are its keys in the order they are first
named (`places`), each once (`nodup_places`). Of the updates to a place the last one says what is
written there (`pending?`), so a transaction comes down to one write for each place
(`settlements`).
-/

namespace Lockstep

abbrev Place := String × String

def Update.place (u : Update) : Place := (u.table, u.key)

/-- A write that is due at a key. -/
structure Settlement where
  table : String
  key : String
  pending : PendingWrite
  deriving DecidableEq

def Settlement.place (w : Settlement) : Place := (w.table, w.key)

/-- The value a write leaves at its key; a removal leaves none. -/
def PendingWrite.value? : PendingWrite → Option Value
  | put v => some v
  | tombstone => none

namespace UpdateKind

/-- The value that the kind means for its key; the removals mean none. -/
def value? : UpdateKind → Option Value
  | put v => some v
  | putIfAbsent v => some v
  | putIfVersion v _ => some v
  | putIfValue v _ => some v
  | remove => none
  | removeIfVersion _ => none
  | removeIfValue _ => none

variable {kind : UpdateKind}

theorem value?_pending : kind.pending.value? = kind.value? := by
  cases kind <;> rfl

theorem pending_of_value? {v : Value} (h : kind.value? = some v) : kind.pending = .put v := by
  cases kind <;> cases h <;> rfl

theorem pending_of_value?_eq_none (h : kind.value? = none) : kind.pending = .tombstone := by
  cases kind <;> first | rfl | cases h

end UpdateKind

def Settlement.isPut (w : Settlement) : Bool := w.pending.value?.isSome

section EraseDups

variable {α : Type} [BEq α] [LawfulBEq α]

/-- Equal elements pass a filter together, so it makes no difference when it is applied. -/
theorem eraseDups_filter (p : α → Bool) : ∀ l : List α,
    (l.filter p).eraseDups = l.eraseDups.filter p
  | [] => rfl
  | a :: l => by
    have ih := eraseDups_filter p (l.filter fun b => !b == a)
    have hcomm : (l.filter fun b => !b == a).filter p = (l.filter p).filter fun b => !b == a := by
      rw [List.filter_filter, List.filter_filter]
      exact List.filter_congr fun b _ => Bool.and_comm _ _
    rw [hcomm] at ih
    rw [List.filter_cons, List.eraseDups_cons, List.filter_cons]
    split
    · rw [List.eraseDups_cons, ih]
    · rename_i ha
      rw [← ih]
      congr 1
      refine (List.filter_eq_self.2 fun b hb => ?_).symm
      have hpb := (List.mem_filter.1 hb).2
      simp only [Bool.not_eq_true', beq_eq_false_iff_ne, ne_eq]
      rintro rfl
      exact ha hpb
  termination_by l => l.length
  decreasing_by exact Nat.lt_succ_of_le (List.length_filter_le _ _)

theorem eraseDups_cons_filter (a : α) (l : List α) :
    (a :: l).eraseDups = a :: l.eraseDups.filter fun b => !b == a := by
  rw [List.eraseDups_cons, eraseDups_filter]

theorem nodup_eraseDups : ∀ l : List α, l.eraseDups.Nodup
  | [] => .nil
  | a :: l => by
    rw [eraseDups_cons_filter]
    refine List.nodup_cons.2 ⟨fun h => ?_, (nodup_eraseDups l).filter _⟩
    simpa using (List.mem_filter.1 h).2

end EraseDups

/-- The places the updates name, in the order they are first named. -/
def places (us : List Update) : List Place := (us.map Update.place).eraseDups

/-- What the last of the updates to a place writes there. -/
def pending? (us : List Update) (p : Place) : Option PendingWrite :=
  (us.findRev? fun u => u.place = p).map (·.kind.pending)

theorem places_cons (u : Update) (us : List Update) :
    places (u :: us) = u.place :: (places us).filter fun p => !p == u.place :=
  eraseDups_cons_filter _ _

theorem mem_places {us : List Update} {p : Place} : p ∈ places us ↔ ∃ u ∈ us, u.place = p := by
  simp only [places, List.mem_eraseDups, List.mem_map]

theorem nodup_places (us : List Update) : (places us).Nodup := nodup_eraseDups _

theorem pending?_nil (p : Place) : pending? [] p = none := rfl

theorem pending?_cons (u : Update) (us : List Update) (p : Place) :
    pending? (u :: us) p
      = (pending? us p).or (if u.place = p then some u.kind.pending else none) := by
  simp only [pending?, List.findRev?]
  cases us.findRev? fun u => u.place = p with
  | none =>
    simp only [Option.map_none, Option.none_or, decide_eq_true_eq]
    split <;> rfl
  | some v => rfl

theorem isSome_pending? {p : Place} : ∀ {us : List Update},
    (pending? us p).isSome ↔ p ∈ places us
  | [] => by simp [pending?_nil, mem_places]
  | u :: us => by
    have ih : (pending? us p).isSome ↔ p ∈ places us := isSome_pending?
    rw [pending?_cons, Option.isSome_or, Bool.or_eq_true, ih, mem_places, mem_places]
    by_cases h : u.place = p <;> simp [h]

theorem exists_pending? {us : List Update} {p : Place} (hp : p ∈ places us) :
    ∃ w, pending? us p = some w := Option.isSome_iff_exists.1 (isSome_pending?.2 hp)

theorem pending?_eq_none {us : List Update} {p : Place} (hp : p ∉ places us) :
    pending? us p = none := by
  rw [← Option.not_isSome_iff_eq_none, isSome_pending?]
  exact hp

namespace Transaction

variable (txn : Transaction)

/-- The keys the transaction names, each once, in the order they are first named. -/
def places : List Place := Lockstep.places txn.updates

/-- The write the transaction means for a key: that of its last update to the key. -/
def pending? (p : Place) : Option PendingWrite := Lockstep.pending? txn.updates p

/-- The last of the transaction's updates to a key. -/
def lastUpdate? (p : Place) : Option Update := txn.updates.findRev? fun u => u.place = p

/-- For each key the transaction names the last update to it, in the order the keys are first
named. -/
def lastUpdates : List Update := txn.places.filterMap txn.lastUpdate?

/-- The writes the transaction comes down to, one for each of its keys. -/
def settlements : List Settlement :=
  txn.places.filterMap fun p => (txn.pending? p).map fun w => ⟨p.1, p.2, w⟩

variable {txn}

theorem mem_places {p : Place} : p ∈ txn.places ↔ ∃ u ∈ txn.updates, u.place = p :=
  Lockstep.mem_places

theorem place_mem_places {u : Update} (h : u ∈ txn.updates) : (u.table, u.key) ∈ txn.places :=
  mem_places.2 ⟨u, h, rfl⟩

theorem exists_pending? {p : Place} (hp : p ∈ txn.places) : ∃ w, txn.pending? p = some w :=
  Lockstep.exists_pending? hp

theorem pending?_eq (p : Place) : txn.pending? p = (txn.lastUpdate? p).map (·.kind.pending) := rfl

theorem exists_lastUpdate? {p : Place} (hp : p ∈ txn.places) : ∃ u, txn.lastUpdate? p = some u := by
  obtain ⟨w, hw⟩ := exists_pending? hp
  obtain ⟨u, hu, -⟩ := Option.map_eq_some_iff.1 hw
  exact ⟨u, hu⟩

theorem place_of_lastUpdate? {p : Place} {u : Update} (h : txn.lastUpdate? p = some u) :
    u.place = p := by
  rw [lastUpdate?, List.findRev?_eq_find?_reverse] at h
  have hfound := List.find?_some h
  exact of_decide_eq_true hfound

theorem map_place_settlements : txn.settlements.map Settlement.place = txn.places := by
  rw [settlements, List.map_filterMap, List.filterMap_eq_map_iff_forall_eq_some.2, List.map_id]
  intro p hp
  obtain ⟨w, hw⟩ := exists_pending? hp
  rw [hw]
  rfl

theorem settlements_eq_map : txn.settlements
    = txn.lastUpdates.map fun u => ⟨u.table, u.key, u.kind.pending⟩ := by
  rw [lastUpdates, List.map_filterMap, settlements]
  refine List.filterMap_congr fun p _ => ?_
  rw [pending?_eq]
  rcases hu : txn.lastUpdate? p with _ | u
  · rfl
  · obtain rfl := place_of_lastUpdate? hu
    rfl

theorem map_place_lastUpdates : txn.lastUpdates.map Update.place = txn.places := by
  rw [← map_place_settlements, settlements_eq_map, List.map_map]
  rfl

end Transaction

end Lockstep
