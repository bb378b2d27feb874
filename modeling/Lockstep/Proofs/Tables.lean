import Lockstep.OrdMap.Lemmas
import Lockstep.Proofs.Transaction
import Lockstep.State.Execute

/-!
# Entries by key

What each operation on tables does to the entry of a key: a write sets one entry, a removal takes
one away, a clear takes away those of one table, and a key write whose condition fails changes no
entry at all. The writes of a transaction are made one after another (`settleAll`); a key that none
of them is due at keeps its entry. They are those of its last update to each key
(`settleAll_settlements`).
-/

namespace Lockstep.Tables

def settleAll (s : Tables) (ws : List Settlement) : Tables :=
  ws.foldl (fun s w => s.settle w.table w.key w.pending) s

/-- Makes the write of an update, whatever its condition. -/
def make (s : Tables) (u : Update) : Tables :=
  match u.kind with
  | .put v | .putIfAbsent v | .putIfVersion v _ | .putIfValue v _ => (s.put u.table u.key v).2
  | .remove | .removeIfVersion _ | .removeIfValue _ => (s.remove u.table u.key).2

/-- Makes the write of the last update to each key, in the order the keys are first named. -/
def batch (s : Tables) (txn : Transaction) : Tables := txn.lastUpdates.foldl make s

variable (s : Tables) (t k t' k' : String)

@[simp] theorem get?_empty : (∅ : Tables).get? t k = none := rfl

theorem get?_insert (table : Table) (n : UInt64) :
    (⟨s.tables.insert t table, n⟩ : Tables).get? t' k'
      = if t' = t then table.get? k' else s.get? t' k' := by
  simp only [get?, Tables.table, OrdMap.get?_insert]
  split <;> rfl

@[simp] theorem fst_put (v : Value) : (s.put t k v).1 = s.get? t k := rfl

@[simp] theorem fst_putIfAbsent (v : Value) : (s.putIfAbsent t k v).1 = s.get? t k := by
  unfold putIfAbsent
  rcases he : s.get? t k with _ | e
  · exact he
  · rfl

@[simp] theorem fst_remove : (s.remove t k).1 = s.get? t k := rfl

@[simp] theorem fst_removeIf (p : Versioned → Bool) :
    (s.removeIf t k p).1 = (s.get? t k).any p := by
  unfold removeIf
  split_ifs with h <;> simp [h]

@[simp] theorem fst_replaceIf (p : Versioned → Bool) (v : Value) :
    (s.replaceIf t k p v).1 = (s.get? t k).any p := by
  unfold replaceIf
  split_ifs with h <;> simp [h]

theorem get?_put (v : Value) : (s.put t k v).2.get? t' k'
    = if t' = t ∧ k' = k then some ⟨v, s.nextVersion + 1⟩ else s.get? t' k' := by
  rw [put, get?_insert, OrdMap.get?_insert]
  by_cases ht : t' = t
  · subst ht
    simp [get?]
  · simp [ht]

theorem get?_remove : (s.remove t k).2.get? t' k'
    = if t' = t ∧ k' = k then none else s.get? t' k' := by
  rw [remove, get?_insert, OrdMap.get?_erase]
  by_cases ht : t' = t
  · subst ht
    simp [get?]
  · simp [ht]

@[simp] theorem get?_touch : (s.touch t).get? t' k' = s.get? t' k' := by
  rw [touch, get?_insert]
  split
  · rename_i ht
    rw [ht]
    rfl
  · rfl

theorem get?_clear : (s.clear t).get? t' k' = if t' = t then none else s.get? t' k' := by
  rw [clear, get?_insert]
  rfl

/-- A write that is due changes the entry of its own key only. -/
theorem get?_settle_of_ne {t k t' k' : String} (h : (t', k') ≠ (t, k)) (w : PendingWrite) :
    (s.settle t k w).get? t' k' = s.get? t' k' := by
  have hne : ¬ (t' = t ∧ k' = k) := fun he => h (by rw [he.1, he.2])
  cases w with
  | put v => rw [settle, get?_put, if_neg hne]
  | tombstone => rw [settle, get?_remove, if_neg hne]

variable {s t k t' k'}

theorem settleAll_cons (w : Settlement) (ws : List Settlement) :
    s.settleAll (w :: ws) = (s.settle w.table w.key w.pending).settleAll ws := rfl

theorem get?_settleAll_of_notMem : ∀ {ws : List Settlement} {s : Tables},
    (t, k) ∉ ws.map Settlement.place → (s.settleAll ws).get? t k = s.get? t k
  | [], _, _ => rfl
  | w :: ws, s, h => by
    rw [List.map_cons, List.mem_cons, not_or] at h
    rw [settleAll_cons, get?_settleAll_of_notMem h.2, get?_settle_of_ne s h.1]

theorem settleAll_append (ws ws' : List Settlement) :
    s.settleAll (ws ++ ws') = (s.settleAll ws).settleAll ws' := List.foldl_append

theorem get?_settle (w : PendingWrite) : (s.settle t k w).get? t k
    = w.value?.map fun v => ⟨v, s.nextVersion + 1⟩ := by
  cases w with
  | put v => rw [settle, get?_put, if_pos ⟨rfl, rfl⟩]; rfl
  | tombstone => rw [settle, get?_remove, if_pos ⟨rfl, rfl⟩]; rfl

/-- A write that no later one overrides leaves its value, under the version that was next. -/
theorem get?_settleAll {ws ws' : List Settlement} {w : Settlement}
    (h : w.place ∉ ws'.map Settlement.place) :
    (s.settleAll (ws ++ w :: ws')).get? w.table w.key
      = w.pending.value?.map fun v => ⟨v, (s.settleAll ws).nextVersion + 1⟩ := by
  rw [settleAll_append, settleAll_cons, get?_settleAll_of_notMem h, get?_settle]

theorem value_settleAll {ws : List Settlement} (hnodup : (ws.map Settlement.place).Nodup)
    {w : Settlement} (h : w ∈ ws) :
    ((s.settleAll ws).get? w.table w.key).map (·.value) = w.pending.value? := by
  obtain ⟨pre, post, rfl⟩ := List.append_of_mem h
  rw [List.map_append, List.map_cons, List.nodup_append] at hnodup
  rw [get?_settleAll (List.nodup_cons.1 hnodup.2.1).1, Option.map_map]
  exact Option.map_id'

theorem settle_pending (s : Tables) (u : Update) :
    s.settle u.table u.key u.kind.pending = s.make u := by
  unfold make
  cases u.kind <;> rfl

theorem settleAll_settlements (s : Tables) (txn : Transaction) :
    s.settleAll txn.settlements = s.batch txn := by
  rw [settleAll, Transaction.settlements_eq_map, List.foldl_map, batch]
  simp only [settle_pending]

/-! ## Key writes -/

theorem get?_removeIf_of_ne (s : Tables) (h : (t', k') ≠ (t, k)) (p : Versioned → Bool) :
    (s.removeIf t k p).2.get? t' k' = s.get? t' k' := by
  unfold removeIf
  split
  · exact get?_settle_of_ne s h .tombstone
  · exact get?_touch s t t' k'

theorem get?_replaceIf_of_ne (s : Tables) (h : (t', k') ≠ (t, k)) (p : Versioned → Bool)
    (v : Value) : (s.replaceIf t k p v).2.get? t' k' = s.get? t' k' := by
  unfold replaceIf
  split
  · exact get?_settle_of_ne s h (.put v)
  · exact get?_touch s t t' k'

theorem get?_write_of_ne (s : Tables) (h : (t', k') ≠ (t, k)) : ∀ w : KeyWrite,
    (s.write t k w).2.get? t' k' = s.get? t' k'
  | .put v => get?_settle_of_ne s h (.put v)
  | .putIfAbsent v => by
    simp only [write, putIfAbsent]
    split
    · rfl
    · exact get?_settle_of_ne s h (.put v)
  | .remove => get?_settle_of_ne s h .tombstone
  | .removeIfValue v => get?_removeIf_of_ne s h (·.value = v)
  | .removeIfVersion n => get?_removeIf_of_ne s h (·.version = n)
  | .replaceValue old new => get?_replaceIf_of_ne s h (·.value = old) new
  | .replaceVersion old new => get?_replaceIf_of_ne s h (·.version = old) new

end Lockstep.Tables
