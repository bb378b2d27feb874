import Lockstep.Proofs.Requests

/-!
# The order of the log

An entry is applied only above the last index, which it becomes, and nothing but the installation
of a snapshot from before that index ever lowers it (`Serves.lastApplied_lt`). So the entries of a
run are applied in strictly ascending order as long as no such snapshot is installed, and an index
that comes again comes after the replica was taken back to before it
(`order_lost_only_by_rewinding`). Taken back it may be: a snapshot of any age can be installed, and
with the older state comes the older index (`applied_again_after_rewind`).
-/

namespace Lockstep

/-- A snapshot is installed that was taken before the entry at the index. -/
def Request.Rewinds (index : UInt64) : Request → Prop
  | install bs => ∃ s, Snapshot.decode bs = .ok s ∧ s.Adoptable ∧ s.lastApplied < index
  | _ => False

instance (index : UInt64) : ∀ q : Request, Decidable (q.Rewinds index)
  | .install bs =>
    match h : Snapshot.decode bs with
    | .ok s => decidable_of_iff (s.Adoptable ∧ s.lastApplied < index)
      ⟨fun hs => ⟨s, h, hs⟩, fun ⟨_, hd, hs⟩ => Except.ok.inj (h.symm.trans hd) ▸ hs⟩
    | .error _ => .isFalse fun ⟨_, hd, _⟩ => by simp [h] at hd
  | .apply _ _ | .applyEncoded _ _ | .snapshot => .isFalse id

/-- The index of the entry that was applied, if one was. -/
def appliedIndex? : Except Error Reply → Option UInt64
  | .ok (.applied a) => some a.index
  | _ => none

theorem Request.not_rewinds_of_entry {q : Request} {index i : UInt64} {c : Command}
    (h : q.entry? = some (i, c)) : ¬ q.Rewinds index := by
  cases q with
  | install bs => cases h
  | _ => exact id

theorem Request.not_rewinds_of_unreadable {q : Request} {index : UInt64}
    (h : q.isUnreadable = true) : ¬ q.Rewinds index := by
  cases q with
  | install bs => cases h
  | _ => exact id

namespace Replica

variable {r : Replica} {q : Request} {index : UInt64}

/-- No request of the run takes the replica back to before its last index. -/
def Onward (r : Replica) : List Request → Prop
  | [] => True
  | q :: qs => ¬ q.Rewinds r.lastApplied ∧ Onward (r.serve q).2 qs

instance decidableOnward : ∀ (qs : List Request) (r : Replica), Decidable (r.Onward qs)
  | [], _ => .isTrue trivial
  | q :: qs, r =>
    have := decidableOnward qs (r.serve q).2
    inferInstanceAs (Decidable (¬ q.Rewinds r.lastApplied ∧ _))

/-- The indices of the entries that a run applies, in the order it does so. -/
def applied (r : Replica) (qs : List Request) : List UInt64 :=
  (r.serveAll qs).1.filterMap appliedIndex?

/-! ## One request -/

section Step

variable {x : Except Error Reply × Replica}

/-- An entry is applied above the last index and becomes the last. -/
theorem Serves.of_applied (h : Serves r q x) {a : Applied} (hx : x.1 = .ok (.applied a)) :
    r.lastApplied < a.index ∧ x.2.lastApplied = a.index := by
  cases h with
  | oversized _ hi | executed _ hi =>
    cases hx
    exact ⟨hi, rfl⟩
  | _ => cases hx

/-- With a snapshot that is installed comes its index. -/
theorem Serves.of_installed (h : Serves r q x) (hx : x.1 = .ok .installed) :
    ∃ bs s, q = .install bs ∧ Snapshot.decode bs = .ok s ∧ s.Adoptable
      ∧ x.2.lastApplied = s.lastApplied := by
  cases h with
  | installed hd ha => exact ⟨_, _, rfl, hd, ha, rfl⟩
  | _ => cases hx

/-- The last index falls below another just if a snapshot from before that one is installed. -/
theorem Serves.lastApplied_lt (h : Serves r q x) (hindex : index ≤ r.lastApplied) :
    x.2.lastApplied < index ↔ q.Rewinds index := by
  have hkept : ¬ r.lastApplied < index := UInt64.not_lt.2 hindex
  cases h with
  | unreadable hq => exact iff_of_false hkept (Request.not_rewinds_of_unreadable hq)
  | late hq => exact iff_of_false hkept (Request.not_rewinds_of_entry hq)
  | oversized hq hi | executed hq hi =>
    exact iff_of_false (fun hlt => hkept (UInt64.lt_trans hi hlt))
      (Request.not_rewinds_of_entry hq)
  | snapshot => exact iff_of_false hkept id
  | refused hnone => exact iff_of_false hkept fun ⟨s, hd, ha, _⟩ => hnone s hd ha
  | @installed _ s hd ha =>
    constructor
    · exact fun hlt => ⟨s, hd, ha, hlt⟩
    · rintro ⟨s', hd', -, hlt⟩
      rw [hd] at hd'
      cases hd'
      exact hlt

end Step

theorem le_lastApplied_serve (hindex : index ≤ r.lastApplied) (h : ¬ q.Rewinds index) :
    index ≤ (r.serve q).2.lastApplied :=
  UInt64.not_lt.1 fun hlt => h (((serves_serve r q).lastApplied_lt hindex).1 hlt)

theorem applied_cons (r : Replica) (q : Request) (qs : List Request) :
    r.applied (q :: qs)
      = (appliedIndex? (r.serve q).1).toList ++ (r.serve q).2.applied qs := by
  rw [applied, serveAll, List.filterMap_cons]
  rcases appliedIndex? (r.serve q).1 with _ | i <;> rfl

theorem exists_of_appliedIndex? {x : Except Error Reply} {i : UInt64}
    (h : appliedIndex? x = some i) : ∃ a, x = .ok (.applied a) ∧ a.index = i := by
  unfold appliedIndex? at h
  split at h
  · rename_i a
    exact ⟨a, rfl, Option.some.inj h⟩
  · cases h

/-! ## Runs -/

/-- The indices that a run applies ascend from the last one before it. The rest of the run ascends
from the index that the first request leaves, which is no lower. -/
theorem Onward.pairwise_applied : ∀ {qs : List Request} {r : Replica}, r.Onward qs →
    (r.lastApplied :: r.applied qs).Pairwise (· < ·)
  | [], r, _ => List.pairwise_singleton _ _
  | q :: qs, r, ⟨hq, hqs⟩ => by
    have ih := Onward.pairwise_applied hqs
    obtain ⟨habove, hascending⟩ := List.pairwise_cons.1 ih
    have hle := le_lastApplied_serve (UInt64.le_refl _) hq
    have hall : ∀ i ∈ (r.serve q).2.applied qs, r.lastApplied < i :=
      fun i hi => UInt64.lt_of_le_of_lt hle (habove i hi)
    rw [applied_cons]
    rcases hx : appliedIndex? (r.serve q).1 with _ | i
    · exact List.pairwise_cons.2 ⟨hall, hascending⟩
    · obtain ⟨a, ha, rfl⟩ := exists_of_appliedIndex? hx
      obtain ⟨hlt, hlast⟩ := (serves_serve r q).of_applied ha
      rw [hlast] at ih
      refine List.pairwise_cons.2 ⟨fun i hi => ?_, ih⟩
      rcases List.mem_cons.1 hi with rfl | hi
      · exact hlt
      · exact hall i hi

theorem Onward.lastApplied_le : ∀ {qs : List Request} {r : Replica}, r.Onward qs →
    r.lastApplied ≤ (r.serveAll qs).2.lastApplied
  | [], _, _ => UInt64.le_refl _
  | _ :: _, _, ⟨hq, hqs⟩ =>
    UInt64.le_trans (le_lastApplied_serve (UInt64.le_refl _) hq) hqs.lastApplied_le

theorem Onward.take : ∀ (n : ℕ) {qs : List Request} {r : Replica}, r.Onward qs →
    r.Onward (qs.take n)
  | 0, _, _, _ => trivial
  | _ + 1, [], _, h => h
  | n + 1, _ :: _, _, ⟨hq, hqs⟩ => ⟨hq, hqs.take n⟩

/-- The last index never falls on the way. -/
theorem Onward.lastApplied_take_le : ∀ {m n : ℕ} {qs : List Request} {r : Replica}, r.Onward qs →
    m ≤ n → (r.serveAll (qs.take m)).2.lastApplied ≤ (r.serveAll (qs.take n)).2.lastApplied
  | 0, n, _, _, h, _ => (h.take n).lastApplied_le
  | _ + 1, _ + 1, [], _, _, _ => UInt64.le_refl _
  | _ + 1, _ + 1, _ :: _, _, ⟨_, hqs⟩, hmn => hqs.lastApplied_take_le (Nat.le_of_succ_le_succ hmn)

/-- An index at or below the last one is passed again only after a snapshot from before it was
installed. -/
theorem exists_rewinds : ∀ {qs : List Request} {r : Replica}, index ≤ r.lastApplied →
    (r.serveAll qs).2.lastApplied < index → ∃ q ∈ qs, q.Rewinds index
  | [], _, hle, hlt => absurd hlt (UInt64.not_lt.2 hle)
  | q :: qs, r, hle, hlt => by
    by_cases hq : q.Rewinds index
    · exact ⟨q, List.mem_cons_self, hq⟩
    · obtain ⟨p, hp, hrewinds⟩ := exists_rewinds (le_lastApplied_serve hle hq) hlt
      exact ⟨p, List.mem_cons_of_mem q hp, hrewinds⟩

/-- The last index falls with a request just if that installs a snapshot from before it. It is then
the index of the snapshot, as after any that is installed, and an entry is applied above the last
index only, which it becomes. So a run that installs no such snapshot applies entries in strictly
ascending order, and its last index never falls. In any run, of two entries that are applied the
later one has the greater index, unless a snapshot from before the later one was installed in
between. -/
theorem order_lost_only_by_rewinding (r : Replica) :
    (∀ q, (r.serve q).2.lastApplied < r.lastApplied ↔ q.Rewinds r.lastApplied)
      ∧ (∀ q, (r.serve q).1 = .ok .installed → ∃ bs s, q = .install bs
        ∧ Snapshot.decode bs = .ok s ∧ s.Adoptable ∧ (r.serve q).2.lastApplied = s.lastApplied)
      ∧ (∀ q a, (r.serve q).1 = .ok (.applied a) →
        r.lastApplied < a.index ∧ (r.serve q).2.lastApplied = a.index)
      ∧ (∀ qs, r.Onward qs → (r.lastApplied :: r.applied qs).Pairwise (· < ·)
        ∧ ∀ m n, m ≤ n →
          (r.serveAll (qs.take m)).2.lastApplied ≤ (r.serveAll (qs.take n)).2.lastApplied)
      ∧ ∀ q qs q' a a', (r.serve q).1 = .ok (.applied a) →
        (((r.serve q).2.serveAll qs).2.serve q').1 = .ok (.applied a') → a'.index ≤ a.index →
          ∃ p ∈ qs, p.Rewinds a'.index := by
  refine ⟨fun q => (serves_serve r q).lastApplied_lt (UInt64.le_refl _),
    fun q => (serves_serve r q).of_installed, fun q a => (serves_serve r q).of_applied,
    fun qs h => ⟨h.pairwise_applied, fun m n => h.lastApplied_take_le⟩,
    fun q qs q' a a' ha ha' hle => ?_⟩
  obtain ⟨-, hlast⟩ := (serves_serve r q).of_applied ha
  obtain ⟨hlt, -⟩ := (serves_serve _ q').of_applied ha'
  exact exists_rewinds (hlast ▸ hle) hlt

theorem order_lost_only_by_rewinding_installed :
    let c : Command := .nextValue "n"
    let r : Replica := new {}
    let newer : Snapshot := ⟨5, ∅, ∅, ∅, 0⟩
    let older : Snapshot := ⟨1, ∅, ∅, ∅, 0⟩
    let qs : List Request := [.apply 3 c, .snapshot, .install (Wire.encode newer), .apply 4 c,
      .applyEncoded 7 (Wire.encode c)]
    let back : List Request := [.snapshot, .install (Wire.encode older)]
    r.Onward qs ∧ r.applied qs = [3, 7] ∧ (r.lastApplied :: r.applied qs).Pairwise (· < ·)
      ∧ (r.serveAll (qs.take 2)).2.lastApplied ≤ (r.serveAll (qs.take 4)).2.lastApplied
      ∧ (r.serve (.install (Wire.encode newer))).2.lastApplied = 5
      ∧ ∃ p ∈ back, p.Rewinds 2 := by
  intro c r newer older qs back
  have honward : r.Onward qs := by decide
  obtain ⟨-, hinstalled, -, hrun, hagain⟩ := order_lost_only_by_rewinding r
  obtain ⟨hascending, hkept⟩ := hrun qs honward
  obtain ⟨bs, s, hq, hd, -, hlast⟩ := hinstalled (.install (Wire.encode newer)) (by decide)
  have hnewer : Snapshot.decode (Wire.encode newer) = .ok newer := by decide
  cases hq
  cases hnewer.symm.trans hd
  exact ⟨honward, by decide, hascending, hkept 2 4 (by decide), hlast,
    hagain (.apply 3 c) back (.apply 2 c) ⟨3, .ok (.counter 1)⟩ ⟨2, .ok (.counter 1)⟩
      (by decide) (by decide) (by decide)⟩

/-- A replica that installs its own snapshot of an earlier index applies the next entry again. -/
theorem applied_again_after_rewind :
    let c : Command := .nextValue "n"
    let r : Replica := new {}
    let older : Snapshot := (r.serve (.apply 1 c)).2.snapshot.1
    let qs : List Request :=
      [.apply 1 c, .apply 2 c, .install (Wire.encode older), .apply 2 c]
    r.applied qs = [1, 2, 2] ∧ ¬ (r.applied qs).Pairwise (· < ·)
      ∧ (r.serveAll (qs.take 3)).2.lastApplied < (r.serveAll (qs.take 2)).2.lastApplied := by
  decide

end Replica

end Lockstep
