import Lockstep.OrdMap.Count
import Lockstep.Proofs.Locks

/-!
# What can be told of the locks

Locks that were taken over, or that start out empty, stay tidy whatever is locked and released after
that, by whomever (`coherent_afterCalls`). So all that can be asked of them is told by the locks of
the keys: which tables have one, which keys, who holds them, and how many there are
(`views_agree`). The count in particular, which no operation takes afresh, is the number of the
locked keys.
-/

namespace Lockstep.Locks

/-- A change to the lock of one key. -/
inductive Call where
  | lock (table key : String) (id : UInt64) (pending : PendingWrite)
  | release (table key : String) (id : UInt64)
  deriving DecidableEq

def call (l : Locks) : Call → Locks
  | .lock t k id w => l.lock t k id w
  | .release t k id => l.release t k id

def afterCalls (l : Locks) (calls : List Call) : Locks := calls.foldl call l

theorem afterCalls_cons (l : Locks) (c : Call) (calls : List Call) :
    l.afterCalls (c :: calls) = (l.call c).afterCalls calls := rfl

variable {l : Locks} {t k : String} {id : UInt64}

theorem Coherent.call (h : l.Coherent) : ∀ c : Call, (l.call c).Coherent
  | .lock _ _ _ w => h.lock w
  | .release _ _ _ => h.release

theorem Coherent.afterCalls : ∀ {calls : List Call} {l : Locks}, l.Coherent →
    (l.afterCalls calls).Coherent
  | [], _, h => h
  | c :: _, _, h => by
    rw [afterCalls_cons]
    exact (h.call c).afterCalls

theorem coherent_afterCalls (given : Option (OrdMap String (OrdMap String Lock)))
    (calls : List Call) : ((given.elim ∅ ofMap).afterCalls calls).Coherent := by
  rcases given with _ | tables
  · exact coherent_empty.afterCalls
  · exact (coherent_ofMap tables).afterCalls

/-- The count of tidy locks is the number of the locked keys. -/
theorem Coherent.encard_locked (h : l.Coherent) :
    {p : Place | l.isLocked p.1 p.2 = true}.encard = l.count := by
  rw [h.counted]
  exact OrdMap.encard_pairs l.tables

theorem Coherent.eq_empty_of_free (h : l.Coherent) (hfree : ∀ t k, l.isLocked t k = false) :
    l = ∅ :=
  h.eq_empty fun t k => Option.not_isSome_iff_eq_none.1 (Bool.eq_false_iff.1 (hfree t k))

theorem Coherent.count_eq_zero (h : l.Coherent) :
    l.count = 0 ↔ ∀ t k, l.isLocked t k = false := by
  have hcount := h.encard_locked
  constructor
  · intro hzero t k
    rw [hzero, Nat.cast_zero, Set.encard_eq_zero] at hcount
    rw [← Bool.not_eq_true]
    exact fun hk => Set.notMem_empty (t, k) (hcount ▸ hk)
  · intro hfree
    rw [h.eq_empty_of_free hfree]
    rfl

theorem Coherent.isEmpty_iff (h : l.Coherent) :
    l.isEmpty = true ↔ ∀ t k, l.isLocked t k = false := by
  rw [isEmpty, OrdMap.isEmpty_iff]
  constructor
  · intro hnil t k
    rw [isLocked, get?, table, hnil]
    rfl
  · intro hfree
    rw [h.eq_empty_of_free hfree]
    rfl

theorem contains_lockedKeys : (l.lockedKeys t).contains k = l.isLocked t k :=
  OrdMap.contains_keySet _ k

theorem contains_owners : l.owners.contains id = true ↔ ∃ t k w, l.get? t k = some ⟨id, w⟩ := by
  rw [owners, OrdSet.contains_ofList, OrdMap.mem_flatMap_values]
  refine exists_congr fun t => exists_congr fun k => ?_
  constructor
  · rintro ⟨⟨_, w⟩, h, rfl⟩
    exact ⟨w, h⟩
  · exact fun ⟨w, h⟩ => ⟨⟨id, w⟩, h, rfl⟩

/-- The count of tidy locks, taken table by table. -/
theorem Coherent.finsum_size (h : l.Coherent) : ∑ᶠ t, (l.lockedKeys t).size = l.count := by
  have hsize : ∀ t, (l.lockedKeys t).size = (l.table t).size := fun t => List.length_map _
  simp only [hsize, h.counted]
  exact OrdMap.finsum_size l.tables

/-- A key that is released is one less, and there was one to take away. -/
theorem Coherent.count_release? (h : l.Coherent) {w : PendingWrite} {l' : Locks}
    (hr : l.release? t k id = some (w, l')) : l'.count + 1 = l.count := by
  have hh : l.Holds id (t, k) := by
    by_contra hn
    rw [release?_of_not_holds hn] at hr
    cases hr
  obtain ⟨v, hv⟩ := hh
  rw [release?_of_holds hv] at hr
  cases hr
  have hpos : l.count ≠ 0 := by
    intro hzero
    have hfree := h.count_eq_zero.1 hzero t k
    rw [isLocked, hv] at hfree
    cases hfree
  exact Nat.sub_one_add_one hpos

/-- Whatever locks were given at first, and whatever is locked and released after that: no table is
listed without a locked key, and the count that is kept along is the number of the locked keys. A
table has locks just if some key of it is locked, there are none at all just if the count is zero,
the locked keys of a table and the owners are those of the locks there are, the locked keys of the
tables add up to the count, and a release takes one from a count that is not zero. -/
theorem views_agree (given : Option (OrdMap String (OrdMap String Lock))) (calls : List Call) :
    let l := (given.elim ∅ ofMap).afterCalls calls
    (∀ t keys, l.tables.get? t = some keys → keys ≠ ∅)
      ∧ {p : Place | l.isLocked p.1 p.2 = true}.encard = l.count
      ∧ (∀ t, l.hasLocks t = true ↔ ∃ k, l.isLocked t k = true)
      ∧ (l.isEmpty = true ↔ l.count = 0)
      ∧ (l.count = 0 ↔ ∀ t k, l.isLocked t k = false)
      ∧ (∀ t k, (l.lockedKeys t).contains k = true ↔ l.isLocked t k = true)
      ∧ (∀ id, l.owners.contains id = true ↔ ∃ t k w, l.get? t k = some ⟨id, w⟩)
      ∧ ∑ᶠ t, (l.lockedKeys t).size = l.count
      ∧ ∀ t k id w l', l.release? t k id = some (w, l') → l'.count + 1 = l.count := by
  intro l
  have h : l.Coherent := coherent_afterCalls given calls
  exact ⟨h.listed, h.encard_locked, fun t => h.hasLocks_iff,
    h.isEmpty_iff.trans h.count_eq_zero.symm, h.count_eq_zero,
    fun t k => Bool.eq_iff_iff.1 contains_lockedKeys, fun id => contains_owners, h.finsum_size,
    fun t k id w l' hr => h.count_release? hr⟩

theorem views_agree_relocked :
    let given : OrdMap String (OrdMap String Lock) :=
      .ofList [("e", ∅), ("t", .ofList [("k", ⟨7, .put ⟨[1]⟩⟩)])]
    let calls : List Call := [.lock "u" "j" 8 .tombstone, .release "t" "k" 8,
      .lock "t" "k" 9 .tombstone, .release "u" "j" 8]
    let l := (ofMap given).afterCalls calls
    l.hasLocks "t" = true ∧ l.owners.contains 9 = true ∧ l.owners.contains 7 = false
      ∧ {p : Place | l.isLocked p.1 p.2 = true}.encard = 1 ∧ l.isEmpty = false
      ∧ ∃ l', l.release? "t" "k" 9 = some (.tombstone, l') ∧ l'.count = 0 := by
  intro given calls l
  have hheld : l.get? "t" "k" = some ⟨9, .tombstone⟩ := by decide
  have hcount : l.count = 1 := by decide
  obtain ⟨-, hsize, htable, hempty, -, -, howners, -, hrelease⟩ := views_agree (some given) calls
  have hr : l.release? "t" "k" 9 = some (.tombstone, l.unlock "t" "k") := release?_of_holds hheld
  refine ⟨(htable "t").2 ⟨"k", isLocked_iff.2 ⟨_, hheld⟩⟩, (howners 9).2 ⟨_, _, _, hheld⟩,
    by decide, hsize.trans (congrArg _ hcount), ?_, _, hr, ?_⟩
  · rw [Bool.eq_false_iff]
    intro he
    exact absurd (hcount.symm.trans (hempty.1 he)) (by decide)
  · have hone : (l.unlock "t" "k").count + 1 = 1 := (hrelease _ _ _ _ _ hr).trans hcount
    exact Nat.succ.inj hone

end Lockstep.Locks
