import Lockstep.Locks
import Lockstep.OrdMap.Lemmas
import Lockstep.Proofs.Transaction

/-!
# Locks by key

What each operation does to the lock of a key: a transaction that locks its keys leaves each of
them with the write of its last update there (`get?_lockAll`), and one that lets its keys go frees
just those it holds (`get?_releaseAll`). Every operation leaves the locks tidy (`Coherent`): no
table is listed without a locked key, and the count is the number of locked keys. Tidy locks are
known by the locks of their keys (`Coherent.eq_empty`) and survive being stored
(`Coherent.ofMap_tables`).
-/

namespace Lockstep.Locks

variable (l : Locks) (t k t' k' : String) (id : UInt64)

@[simp] theorem get?_empty : (∅ : Locks).get? t k = none := rfl

theorem get?_insert (keys : OrdMap String Lock) (n : Nat) :
    (⟨l.tables.insert t keys, n⟩ : Locks).get? t' k'
      = if t' = t then keys.get? k' else l.get? t' k' := by
  simp only [get?, table, OrdMap.get?_insert]
  split <;> rfl

theorem get?_lock (w : PendingWrite) : (l.lock t k id w).get? t' k'
    = if t' = t ∧ k' = k then some ⟨id, w⟩ else l.get? t' k' := by
  rw [lock, get?_insert, OrdMap.get?_insert]
  by_cases ht : t' = t
  · subst ht
    simp [get?]
  · simp [ht]

theorem get?_eraseTable (n : Nat) : (⟨l.tables.erase t, n⟩ : Locks).get? t' k'
    = if t' = t then none else l.get? t' k' := by
  simp only [get?, table, OrdMap.get?_erase]
  split <;> rfl

/-- With its last lock the table goes. -/
theorem get?_unlock : (l.unlock t k).get? t' k'
    = if t' = t ∧ k' = k then none else l.get? t' k' := by
  have herase : ∀ j, ((l.table t).erase k).get? j = if j = k then none else l.get? t j :=
    fun j => OrdMap.get?_erase _ k j
  by_cases ht : t' = t
  · subst ht
    by_cases hnil : ((l.table t').erase k).isEmpty = true
    · have hnone := herase k'
      rw [OrdMap.isEmpty_iff.1 hnil, OrdMap.get?_empty] at hnone
      simp only [unlock, hnil, if_true, get?_eraseTable, true_and]
      exact hnone
    · simp only [unlock, hnil, Bool.false_eq_true, if_false, get?_insert, if_true, herase, true_and]
  · simp only [unlock]
    split
    · simp [get?_eraseTable, ht]
    · simp [get?_insert, ht]

theorem isLocked_iff {l : Locks} {t k : String} :
    l.isLocked t k = true ↔ ∃ lock, l.get? t k = some lock := Option.isSome_iff_exists

theorem hasLocks_of_get? {l : Locks} {t k : String} {lock : Lock} (h : l.get? t k = some lock) :
    l.hasLocks t = true := by
  rcases hk : l.tables.get? t with _ | keys
  · rw [get?, table, hk] at h
    cases h
  · rw [hasLocks, OrdMap.contains, hk]
    rfl

def Holds (l : Locks) (id : UInt64) (p : Place) : Prop := ∃ w, l.get? p.1 p.2 = some ⟨id, w⟩

instance (l : Locks) (id : UInt64) (p : Place) : Decidable (l.Holds id p) :=
  decidable_of_iff ((l.get? p.1 p.2).any (·.owner = id)) <| by
    rcases h : l.get? p.1 p.2 with _ | ⟨owner, w⟩ <;> simp [Holds, h]

theorem isLockedByAnother_iff {l : Locks} {t k : String} {id : UInt64} :
    l.isLockedByAnother t k id = true ↔ ∃ lock, l.get? t k = some lock ∧ lock.owner ≠ id := by
  simp [isLockedByAnother, Option.any_eq_true]

/-! ## All keys of a transaction -/

def lockAll (us : List Update) (l : Locks) : Locks :=
  us.foldl (fun l u => l.lock u.table u.key id u.kind.pending) l

/-- Frees a key if the transaction holds it. -/
def release : Locks := ((l.release? t k id).map (·.2)).getD l

/-- Frees the keys that are named, as far as the transaction holds them. -/
def releaseAll (us : List Update) (l : Locks) : Locks :=
  us.foldl (fun l u => l.release u.table u.key id) l

/-- The write that waits for a key, if the transaction holds it. -/
def waiting? (p : Place) : Option Settlement :=
  (l.get? p.1 p.2).bind fun lock =>
    if lock.owner = id then some ⟨p.1, p.2, lock.pending⟩ else none

/-- The writes that wait in the locks the transaction holds on the keys that are named, each once,
in the order the keys are first named. -/
def settlements (us : List Update) : List Settlement := (places us).filterMap (l.waiting? id)

theorem lockAll_cons (u : Update) (us : List Update) :
    lockAll id (u :: us) l = lockAll id us (l.lock u.table u.key id u.kind.pending) := rfl

theorem releaseAll_cons (u : Update) (us : List Update) :
    releaseAll id (u :: us) l = releaseAll id us (l.release u.table u.key id) := rfl

variable {l t k t' k' id}

theorem release?_of_holds {w : PendingWrite} (h : l.get? t k = some ⟨id, w⟩) :
    l.release? t k id = some (w, l.unlock t k) := by
  simp [release?, h]

theorem release?_of_not_holds (h : ¬ l.Holds id (t, k)) : l.release? t k id = none := by
  unfold release?
  split
  · rename_i owner w hl
    rw [if_neg]
    rintro rfl
    exact h ⟨w, hl⟩
  · rfl

theorem release_of_holds {w : PendingWrite} (h : l.get? t k = some ⟨id, w⟩) :
    l.release t k id = l.unlock t k := by
  rw [release, release?_of_holds h]
  rfl

theorem release_of_not_holds (h : ¬ l.Holds id (t, k)) : l.release t k id = l := by
  rw [release, release?_of_not_holds h]
  rfl

theorem get?_release : (l.release t k id).get? t' k'
    = if (t', k') = (t, k) ∧ l.Holds id (t', k') then none else l.get? t' k' := by
  by_cases h : l.Holds id (t, k)
  · obtain ⟨w, hw⟩ := h
    rw [release_of_holds hw, get?_unlock]
    by_cases he : t' = t ∧ k' = k
    · obtain ⟨rfl, rfl⟩ := he
      simp [Holds, hw]
    · simp [Prod.ext_iff, he]
  · rw [release_of_not_holds h, if_neg]
    rintro ⟨he, hh⟩
    exact h (he ▸ hh)

theorem get?_lockAll : ∀ {us : List Update} {l : Locks}, (lockAll id us l).get? t k
    = ((pending? us (t, k)).map (Lock.mk id)).or (l.get? t k)
  | [], l => by simp [lockAll, pending?_nil]
  | u :: us, l => by
    have ih : (lockAll id us (l.lock u.table u.key id u.kind.pending)).get? t k = _ := get?_lockAll
    rw [lockAll_cons, ih, pending?_cons, get?_lock]
    rcases pending? us (t, k) with _ | w
    · by_cases h : u.table = t ∧ u.key = k
      · simp [Update.place, h.1, h.2]
      · have h' : ¬ (t = u.table ∧ k = u.key) := fun he => h ⟨he.1.symm, he.2.symm⟩
        simp [Update.place, h, h']
    · simp

theorem get?_lockAll_of_mem {us : List Update} {p : Place} (hp : p ∈ places us) :
    (lockAll id us l).get? p.1 p.2 = (pending? us p).map (Lock.mk id) := by
  obtain ⟨w, hw⟩ := exists_pending? hp
  rw [get?_lockAll, hw]
  rfl

theorem get?_lockAll_of_notMem {us : List Update} (hp : (t, k) ∉ places us) :
    (lockAll id us l).get? t k = l.get? t k := by
  rw [get?_lockAll, pending?_eq_none hp]
  rfl

theorem holds_release {p : Place} :
    (l.release t k id).Holds id p ↔ p ≠ (t, k) ∧ l.Holds id p := by
  constructor
  · rintro ⟨w, hw⟩
    rw [get?_release] at hw
    split at hw
    · cases hw
    · rename_i h
      exact ⟨fun he => h ⟨he, w, hw⟩, w, hw⟩
  · rintro ⟨hne, w, hw⟩
    exact ⟨w, by rw [get?_release, if_neg fun h => hne h.1, hw]⟩

theorem get?_releaseAll : ∀ {us : List Update} {l : Locks}, (releaseAll id us l).get? t k
    = if (t, k) ∈ places us ∧ l.Holds id (t, k) then none else l.get? t k
  | [], l => by simp [releaseAll, mem_places]
  | u :: us, l => by
    have ih : (releaseAll id us (l.release u.table u.key id)).get? t k = _ := get?_releaseAll
    rw [releaseAll_cons, ih, get?_release]
    simp only [holds_release]
    have hp : (t, k) ∈ places (u :: us) ↔ (t, k) = (u.table, u.key) ∨ (t, k) ∈ places us := by
      simp [mem_places, Update.place, eq_comm]
    simp only [hp]
    by_cases hu : (t, k) = (u.table, u.key) <;> simp [hu]

theorem get?_releaseAll_of_notMem {us : List Update} (hp : (t, k) ∉ places us) :
    (releaseAll id us l).get? t k = l.get? t k := by
  rw [get?_releaseAll, if_neg fun h => hp h.1]

theorem get?_releaseAll_of_not_holds {us : List Update} (h : ¬ l.Holds id (t, k)) :
    (releaseAll id us l).get? t k = l.get? t k := by
  rw [get?_releaseAll, if_neg fun hh => h hh.2]

theorem holds_of_releaseAll {us : List Update} {id' : UInt64} {p : Place}
    (h : (releaseAll id us l).Holds id' p) : l.Holds id' p ∧ ¬ (p ∈ places us ∧ l.Holds id p) := by
  obtain ⟨w, hw⟩ := h
  rw [get?_releaseAll] at hw
  split at hw
  · cases hw
  · rename_i hn
    exact ⟨⟨w, hw⟩, hn⟩

theorem not_holds_releaseAll {us : List Update} {p : Place} (hp : p ∈ places us) :
    ¬ (releaseAll id us l).Holds id p := by
  intro h
  obtain ⟨hh, hn⟩ := holds_of_releaseAll h
  exact hn ⟨hp, hh⟩

theorem releaseAll_of_not_holds : ∀ {us : List Update}, (∀ p ∈ places us, ¬ l.Holds id p) →
    releaseAll id us l = l
  | [], _ => rfl
  | u :: us, h => by
    have hu : ¬ l.Holds id (u.table, u.key) := h _ (mem_places.2 ⟨u, List.mem_cons_self, rfl⟩)
    have hus : ∀ p ∈ places us, ¬ l.Holds id p := fun p hp => by
      obtain ⟨v, hv, rfl⟩ := mem_places.1 hp
      exact h _ (mem_places.2 ⟨v, List.mem_cons_of_mem u hv, rfl⟩)
    rw [releaseAll_cons, release_of_not_holds hu]
    exact releaseAll_of_not_holds hus

theorem waiting?_eq_none (h : ¬ l.Holds id (t, k)) : l.waiting? id (t, k) = none := by
  rcases hl : l.get? t k with _ | ⟨owner, w⟩
  · simp [waiting?, hl]
  · have : owner ≠ id := by
      rintro rfl
      exact h ⟨w, hl⟩
    simp [waiting?, hl, this]

theorem waiting?_of_get? {w : PendingWrite} (h : l.get? t k = some ⟨id, w⟩) :
    l.waiting? id (t, k) = some ⟨t, k, w⟩ := by
  simp [waiting?, h]

theorem waiting?_release (p : Place) : (l.release t k id).waiting? id p
    = if p = (t, k) then none else l.waiting? id p := by
  obtain ⟨t', k'⟩ := p
  by_cases he : (t', k') = (t, k)
  · rw [if_pos he, waiting?_eq_none fun h => (holds_release.1 h).1 he]
  · simp only [waiting?, get?_release, he, false_and, if_false]

theorem settlements_cons_of_holds {u : Update} {us : List Update} {w : PendingWrite}
    (h : l.get? u.table u.key = some ⟨id, w⟩) :
    l.settlements id (u :: us)
      = ⟨u.table, u.key, w⟩ :: (l.release u.table u.key id).settlements id us := by
  rw [settlements, places_cons, Update.place, List.filterMap_cons_some (waiting?_of_get? h),
    List.filterMap_filter, settlements]
  congr 1
  refine List.filterMap_congr fun p _ => ?_
  rw [waiting?_release]
  by_cases hp : p = (u.table, u.key) <;> simp [hp]

theorem settlements_cons_of_not_holds {u : Update} {us : List Update}
    (h : ¬ l.Holds id (u.table, u.key)) : l.settlements id (u :: us) = l.settlements id us := by
  rw [settlements, places_cons, Update.place, List.filterMap_cons_none (waiting?_eq_none h),
    List.filterMap_filter, settlements]
  refine List.filterMap_congr fun p _ => ?_
  by_cases hp : p = (u.table, u.key)
  · simp [hp, waiting?_eq_none h]
  · simp [hp]

theorem settlements_of_not_holds {us : List Update} (h : ∀ p ∈ places us, ¬ l.Holds id p) :
    l.settlements id us = [] :=
  List.filterMap_eq_nil_iff.2 fun p hp => waiting?_eq_none (h p hp)

theorem get?_releaseAll_lockAll {us : List Update} :
    (releaseAll id us (lockAll id us l)).get? t k
      = if (t, k) ∈ places us then none else l.get? t k := by
  rw [get?_releaseAll, get?_lockAll]
  by_cases hp : (t, k) ∈ places us
  · obtain ⟨w, hw⟩ := exists_pending? hp
    have hh : (lockAll id us l).Holds id (t, k) := ⟨w, by rw [get?_lockAll_of_mem hp, hw]; rfl⟩
    rw [if_pos ⟨hp, hh⟩, if_pos hp]
  · simp [hp, pending?_eq_none hp]

theorem settlements_eq {us : List Update}
    (h : ∀ p ∈ places us, l.get? p.1 p.2 = (Lockstep.pending? us p).map (Lock.mk id)) :
    l.settlements id us
      = (places us).filterMap fun p => (Lockstep.pending? us p).map fun w => ⟨p.1, p.2, w⟩ := by
  refine List.filterMap_congr fun p hp => ?_
  obtain ⟨w, hw⟩ := exists_pending? hp
  have hl := h p hp
  rw [hw, Option.map_some] at hl
  rw [waiting?_of_get? hl, hw]
  rfl

/-- Where the write that a transaction means for a key waits, it is that of the kind of its last
update to the key. -/
theorem get?_of_lastUpdate? {txn : Transaction} {p : Place} {u : Update}
    (hl : l.get? p.1 p.2 = (txn.pending? p).map (Lock.mk txn.id))
    (hu : txn.lastUpdate? p = some u) :
    (∀ v, u.kind.value? = some v → l.get? p.1 p.2 = some ⟨txn.id, .put v⟩)
      ∧ (u.kind.value? = none → l.get? p.1 p.2 = some ⟨txn.id, .tombstone⟩) := by
  have hlock : l.get? p.1 p.2 = some ⟨txn.id, u.kind.pending⟩ := by
    rw [hl, Transaction.pending?_eq, hu]
    rfl
  constructor
  · intro v hv
    rw [hlock, UpdateKind.pending_of_value? hv]
  · intro hnone
    rw [hlock, UpdateKind.pending_of_value?_eq_none hnone]

/-- The writes that wait are due at the keys named that the transaction holds. -/
theorem map_place_settlements (l : Locks) (id : UInt64) (us : List Update) :
    (l.settlements id us).map Settlement.place = (places us).filter fun p => l.Holds id p := by
  rw [settlements, List.map_filterMap, ← List.filterMap_eq_filter]
  refine List.filterMap_congr fun ⟨t, k⟩ _ => ?_
  by_cases h : l.Holds id (t, k)
  · obtain ⟨w, hw⟩ := h
    rw [waiting?_of_get? hw]
    simp [Option.guard, Settlement.place, Holds, hw]
  · rw [waiting?_eq_none h]
    simp [Option.guard, h]

theorem place_mem_settlements {us : List Update} {p : Place}
    (h : p ∈ (l.settlements id us).map Settlement.place) : p ∈ places us ∧ l.Holds id p := by
  rw [map_place_settlements, List.mem_filter, decide_eq_true_eq] at h
  exact h

theorem nodup_settlements {us : List Update} :
    ((l.settlements id us).map Settlement.place).Nodup := by
  rw [map_place_settlements]
  exact (nodup_places us).filter _

/-! ## Tidy locks -/

/-- No table is listed without a locked key, and the count is the number of locked keys. -/
structure Coherent (l : Locks) : Prop where
  listed : ∀ t keys, l.tables.get? t = some keys → keys ≠ ∅
  counted : l.count = l.tables.total

theorem coherent_empty : Coherent ∅ where
  listed := fun t keys h => by cases h
  counted := rfl

theorem coherent_ofMap (tables : OrdMap String (OrdMap String Lock)) : (ofMap tables).Coherent where
  listed := fun t keys h => by
    rw [ofMap, OrdMap.get?_filter, Option.filter_eq_some_iff] at h
    rintro rfl
    exact absurd h.2 (by decide)
  counted := rfl

theorem Coherent.lock (h : l.Coherent) (w : PendingWrite) : (l.lock t k id w).Coherent where
  listed := fun t' keys hk => by
    simp only [Locks.lock, OrdMap.get?_insert] at hk
    split at hk
    · cases hk
      intro hnil
      have := OrdMap.get?_insert (l.table t) k (⟨id, w⟩ : Lock) k
      rw [hnil, OrdMap.get?_empty, if_pos rfl] at this
      cases this
    · exact h.listed t' keys hk
  counted := by
    have htotal := OrdMap.total_insert l.tables t ((l.table t).insert k ⟨id, w⟩)
    have hsize := OrdMap.size_insert (l.table t) k (⟨id, w⟩ : Lock)
    have hc := h.counted
    rw [← table] at htotal
    rw [OrdMap.contains, ← get?, ← isLocked] at hsize
    simp only [Locks.lock]
    by_cases hk : l.isLocked t k = true
    · rw [if_pos hk] at hsize ⊢
      omega
    · rw [if_neg hk] at hsize ⊢
      omega

theorem Coherent.unlock (h : l.Coherent) (hk : l.isLocked t k = true) :
    (l.unlock t k).Coherent := by
  have hsize := OrdMap.size_erase (l.table t) k
  have hc := h.counted
  rw [OrdMap.contains, ← get?, ← isLocked, hk, if_pos rfl] at hsize
  by_cases hnil : ((l.table t).erase k).isEmpty = true
  · have htotal := OrdMap.total_erase l.tables t
    rw [← table] at htotal
    rw [OrdMap.isEmpty_iff.1 hnil] at hsize
    have h0 : (∅ : OrdMap String Lock).size = 0 := rfl
    refine ⟨fun t' keys hg => ?_, ?_⟩
    · simp only [Locks.unlock, hnil, if_true, OrdMap.get?_erase] at hg
      split at hg
      · cases hg
      · exact h.listed t' keys hg
    · simp only [Locks.unlock, hnil, if_true]
      omega
  · have htotal := OrdMap.total_insert l.tables t ((l.table t).erase k)
    rw [← table] at htotal
    refine ⟨fun t' keys hg => ?_, ?_⟩
    · simp only [Locks.unlock, hnil, Bool.false_eq_true, if_false, OrdMap.get?_insert] at hg
      split at hg
      · cases hg
        exact fun he => hnil (OrdMap.isEmpty_iff.2 he)
      · exact h.listed t' keys hg
    · simp only [Locks.unlock, hnil, Bool.false_eq_true, if_false]
      omega

theorem Coherent.release (h : l.Coherent) : (l.release t k id).Coherent := by
  by_cases hh : l.Holds id (t, k)
  · obtain ⟨w, hw⟩ := hh
    rw [release_of_holds hw]
    exact h.unlock (isLocked_iff.2 ⟨_, hw⟩)
  · rwa [release_of_not_holds hh]

theorem Coherent.lockAll : ∀ {us : List Update} {l : Locks}, l.Coherent →
    (lockAll id us l).Coherent
  | [], _, h => h
  | _ :: _, _, h => by
    rw [lockAll_cons]
    exact Coherent.lockAll (h.lock _)

theorem Coherent.releaseAll : ∀ {us : List Update} {l : Locks}, l.Coherent →
    (releaseAll id us l).Coherent
  | [], _, h => h
  | _ :: _, _, h => by
    rw [releaseAll_cons]
    exact Coherent.releaseAll h.release

/-- Of tidy locks the locks of the keys tell all. -/
theorem Coherent.ext {m : Locks} (hl : l.Coherent) (hm : m.Coherent)
    (h : ∀ t k, l.get? t k = m.get? t k) : l = m := by
  have hmissing : ∀ {l m : Locks} {t keys}, l.tables.get? t = some keys → m.tables.get? t = none →
      (∀ k, l.get? t k = m.get? t k) → keys = ∅ := by
    intro l m t keys h1 h2 hk
    refine OrdMap.ext_get? fun k => ?_
    have := hk k
    rw [get?, get?, table, table, h1, h2] at this
    exact this
  have htables : l.tables = m.tables := by
    refine OrdMap.ext_get? fun t => ?_
    rcases h1 : l.tables.get? t with _ | keys <;> rcases h2 : m.tables.get? t with _ | keys'
    · rfl
    · exact absurd (hmissing h2 h1 fun k => (h t k).symm) (hm.listed t keys' h2)
    · exact absurd (hmissing h1 h2 (h t)) (hl.listed t keys h1)
    · congr 1
      refine OrdMap.ext_get? fun k => ?_
      have := h t k
      rwa [get?, get?, table, table, h1, h2] at this
  have hcount : l.count = m.count := by rw [hl.counted, hm.counted, htables]
  cases l
  cases m
  cases htables
  cases hcount
  rfl

theorem Coherent.eq_empty (h : l.Coherent) (hnone : ∀ t k, l.get? t k = none) : l = ∅ :=
  h.ext coherent_empty hnone

/-- Of tidy locks a table is listed just if some key of it is locked. -/
theorem Coherent.hasLocks_iff (h : l.Coherent) :
    l.hasLocks t = true ↔ ∃ k, l.isLocked t k = true := by
  constructor
  · intro ht
    obtain ⟨keys, hkeys⟩ := Option.isSome_iff_exists.1 ht
    obtain ⟨k, lock, hk⟩ := OrdMap.exists_get?_of_ne_empty (h.listed t keys hkeys)
    refine ⟨k, isLocked_iff.2 ⟨lock, ?_⟩⟩
    rw [get?, table, hkeys]
    exact hk
  · rintro ⟨k, hk⟩
    obtain ⟨lock, hl⟩ := isLocked_iff.1 hk
    exact hasLocks_of_get? hl

theorem Coherent.ofMap_tables (h : l.Coherent) : ofMap l.tables = l := by
  refine (coherent_ofMap l.tables).ext h fun t k => ?_
  simp only [get?, table, ofMap, OrdMap.get?_filter]
  rcases hk : l.tables.get? t with _ | keys
  · rfl
  · have : keys.isEmpty = false := by
      rw [← Bool.not_eq_true]
      exact fun he => h.listed t keys hk (OrdMap.isEmpty_iff.1 he)
    simp [Option.filter, this]

end Lockstep.Locks
