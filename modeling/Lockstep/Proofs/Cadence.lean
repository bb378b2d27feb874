import Lockstep.Proofs.Balance
import Lockstep.Proofs.LogOrder
import Mathlib.Data.List.Induction
import Mathlib.Data.List.TakeWhile

/-!
# Snapshots that fall due

A replica counts the entries it applies from one snapshot to the next. Each of them also raises the
last index, and a snapshot that takes the last index back takes the count back to 0, so the count is
never above the last index and never wraps (`Serves.sinceSnapshot`). It is the number of entries
applied since the last snapshot, as the replies tell it (`unsaved`), and the next snapshot falls due
with the entry that makes this number the interval (`Replica.snapshots_fall_due`).
-/

namespace Lockstep

/-- An entry was applied. -/
def isApplied : Except Error Reply → Bool
  | .ok (.applied _) => true
  | _ => false

/-- A snapshot was taken or installed. -/
def isSnapshot : Except Error Reply → Bool
  | .ok (.snapshot _) | .ok .installed => true
  | _ => false

/-- How many entries were applied since the last snapshot, or in all if there was none. -/
def unsaved (replies : List (Except Error Reply)) : ℕ :=
  (replies.reverse.takeWhile fun x => !isSnapshot x).countP isApplied

theorem unsaved_concat (xs : List (Except Error Reply)) (x : Except Error Reply) :
    unsaved (xs ++ [x]) = if isSnapshot x then 0 else unsaved xs + (isApplied x).toNat := by
  rw [unsaved, List.reverse_append, List.reverse_singleton, List.singleton_append,
    List.takeWhile_cons]
  cases isSnapshot x with
  | true => rfl
  | false =>
    rw [Bool.not_false, if_pos rfl, List.countP_cons, if_neg Bool.false_ne_true, unsaved]
    cases isApplied x <;> rfl

theorem unsaved_of_none {xs : List (Except Error Reply)} (h : ∀ x ∈ xs, isSnapshot x = false) :
    unsaved xs = xs.countP isApplied := by
  have hall : ∀ x ∈ xs.reverse, (!isSnapshot x) = true := by
    intro x hx
    rw [h x (List.mem_reverse.1 hx), Bool.not_false]
  rw [unsaved, List.takeWhile_eq_self_iff.2 hall, List.countP_reverse]

theorem Config.interval_pos {c : Config} (h : c.validate = .ok ()) :
    0 < c.intervalEntries.toNat := by
  unfold validate at h
  split_ifs at h with _ hinterval
  exact Nat.pos_of_ne_zero fun h0 => hinterval (UInt64.toNat_inj.1 h0)

/-- A count that is not above an index does not wrap when a greater index is reached. -/
theorem count_below_index {n last index : UInt64} (hn : n ≤ last) (hi : last < index) :
    n.toNat + 1 < UInt64.size ∧ (n + 1).toNat = n.toNat + 1 ∧ n + 1 ≤ index := by
  rw [UInt64.le_iff_toNat_le] at hn
  rw [UInt64.lt_iff_toNat_lt] at hi
  have hbound : n.toNat + 1 < UInt64.size := by
    have := index.toNat_lt_size
    omega
  have hsucc : (n + 1).toNat = n.toNat + 1 := by
    rw [UInt64.toNat_add]
    exact Nat.mod_eq_of_lt hbound
  refine ⟨hbound, hsucc, ?_⟩
  rw [UInt64.le_iff_toNat_le, hsucc]
  omega

namespace Replica

variable {r : Replica} {q : Request}

theorem Created.sinceSnapshot_eq (h : Created r) : r.sinceSnapshot = 0 := by
  obtain ⟨config, s, lastApplied, rfl⟩ := h.exists_ofState
  rfl

theorem shouldSnapshot_iff (r : Replica) :
    r.shouldSnapshot = true ↔ r.config.intervalEntries.toNat ≤ r.sinceSnapshot.toNat := by
  rw [shouldSnapshot, decide_eq_true_eq, UInt64.le_iff_toNat_le]

/-- A request counts the entry that it applies, or starts again with a snapshot, and the count stays
at or below the last index. -/
theorem Serves.sinceSnapshot {x : Except Error Reply × Replica} (h : Serves r q x)
    (hr : r.sinceSnapshot ≤ r.lastApplied) :
    x.2.sinceSnapshot ≤ x.2.lastApplied
      ∧ x.2.sinceSnapshot.toNat
        = if isSnapshot x.1 then 0 else r.sinceSnapshot.toNat + (isApplied x.1).toNat := by
  cases h with
  | unreadable | late | refused => exact ⟨hr, rfl⟩
  | oversized _ hi | executed _ hi =>
    obtain ⟨-, hsucc, hle⟩ := count_below_index hr hi
    exact ⟨hle, hsucc⟩
  | snapshot | installed => exact ⟨UInt64.zero_le, rfl⟩

theorem sinceSnapshot_serve_of_snapshot (h : isSnapshot (r.serve q).1 = true) :
    (r.serve q).2.sinceSnapshot = 0 := by
  have hserves := serves_serve r q
  generalize r.serve q = x at h hserves ⊢
  cases hserves with
  | snapshot | installed => rfl
  | _ => cases h

/-- A snapshot falls due with the entry that makes the count the interval. -/
theorem falls_due_serve (hr : r.sinceSnapshot ≤ r.lastApplied)
    (hinterval : 0 < r.config.intervalEntries.toNat) (q : Request) :
    (r.shouldSnapshot = false ∧ (r.serve q).2.shouldSnapshot = true)
      ↔ isApplied (r.serve q).1 = true
        ∧ r.sinceSnapshot.toNat + 1 = r.config.intervalEntries.toNat := by
  rw [← Bool.not_eq_true, shouldSnapshot_iff, shouldSnapshot_iff, config_serve,
    ((serves_serve r q).sinceSnapshot hr).2]
  rcases (r.serve q).1 with e | a | s | _ <;>
    simp only [isSnapshot, isApplied, Bool.toNat_true, Bool.toNat_false, Bool.false_eq_true,
      if_true, if_false, true_and, false_and, iff_false] <;>
    omega

/-! ## Runs -/

theorem serveAll_concat (q : Request) : ∀ (qs : List Request) (r : Replica),
    r.serveAll (qs ++ [q])
      = ((r.serveAll qs).1 ++ [((r.serveAll qs).2.serve q).1], ((r.serveAll qs).2.serve q).2)
  | [], _ => rfl
  | p :: qs, r => by
    simp only [List.cons_append, serveAll, serveAll_concat q qs]

/-- The replica counts what is not saved yet, and its count and the last index go on from request to
request. -/
theorem sinceSnapshot_serveAll (h : r.sinceSnapshot = 0) (qs : List Request) :
    (r.serveAll qs).2.sinceSnapshot ≤ (r.serveAll qs).2.lastApplied
      ∧ (r.serveAll qs).2.sinceSnapshot.toNat = unsaved (r.serveAll qs).1 := by
  induction qs using List.reverseRecOn with
  | nil =>
    rw [serveAll, h]
    exact ⟨UInt64.zero_le, rfl⟩
  | append_singleton qs q ih =>
    obtain ⟨hle, hcount⟩ := ih
    rw [serveAll_concat, unsaved_concat, ← hcount]
    exact (serves_serve _ q).sinceSnapshot hle

/-- From a snapshot to the next, one is due once as many entries were applied as the interval. -/
theorem due_after_snapshot (hq : isSnapshot (r.serve q).1 = true) {ps : List Request}
    (hps : ∀ x ∈ ((r.serve q).2.serveAll ps).1, isSnapshot x = false) :
    ((r.serve q).2.serveAll ps).2.shouldSnapshot = true
      ↔ r.config.intervalEntries.toNat ≤ ((r.serve q).2.serveAll ps).1.countP isApplied := by
  have hcount := (sinceSnapshot_serveAll (sinceSnapshot_serve_of_snapshot hq) ps).2
  rw [shouldSnapshot_iff, config_serveAll, config_serve, hcount, unsaved_of_none hps]

/-- Whatever a replica was asked since it was created, it counts the entries that were applied since
the last snapshot; the count is not above the last index, so it never wraps. If its settings are
valid, no snapshot is due right after a snapshot was taken or installed, and one is due from the
entry on that makes the number of entries since then the interval. -/
theorem snapshots_fall_due (hr : Created r) (qs : List Request) :
    let now := (r.serveAll qs).2
    now.sinceSnapshot.toNat = unsaved (r.serveAll qs).1 ∧ now.sinceSnapshot ≤ now.lastApplied
      ∧ (∀ q a, (now.serve q).1 = .ok (.applied a) →
        now.sinceSnapshot.toNat + 1 < UInt64.size
          ∧ (now.serve q).2.sinceSnapshot.toNat = now.sinceSnapshot.toNat + 1)
      ∧ (r.config.validate = .ok () →
        (∀ q, (now.shouldSnapshot = false ∧ (now.serve q).2.shouldSnapshot = true)
          ↔ isApplied (now.serve q).1 = true
            ∧ unsaved (r.serveAll qs).1 + 1 = r.config.intervalEntries.toNat)
        ∧ ∀ q, isSnapshot (now.serve q).1 = true →
          (now.serve q).2.shouldSnapshot = false
            ∧ ∀ ps, (∀ x ∈ ((now.serve q).2.serveAll ps).1, isSnapshot x = false) →
              (((now.serve q).2.serveAll ps).2.shouldSnapshot = true
                ↔ r.config.intervalEntries.toNat
                  ≤ ((now.serve q).2.serveAll ps).1.countP isApplied)) := by
  intro now
  obtain ⟨hle, hcount⟩ := sinceSnapshot_serveAll hr.sinceSnapshot_eq qs
  have hconfig : now.config = r.config := config_serveAll qs r
  refine ⟨hcount, hle, fun q a ha => ?_,
    fun hvalid => ⟨fun q => ?_, fun q hq => ⟨?_, fun ps hps => ?_⟩⟩⟩
  · obtain ⟨hlt, -⟩ := (serves_serve now q).of_applied ha
    obtain ⟨hbound, -⟩ := count_below_index hle hlt
    refine ⟨hbound, ?_⟩
    rw [((serves_serve now q).sinceSnapshot hle).2, ha]
    rfl
  · have hdue := falls_due_serve hle (hconfig ▸ Config.interval_pos hvalid) q
    rwa [hcount, hconfig] at hdue
  · rw [← Bool.not_eq_true, shouldSnapshot_iff, config_serve, hconfig,
      sinceSnapshot_serve_of_snapshot hq]
    exact Nat.not_le.2 (Config.interval_pos hvalid)
  · exact hconfig ▸ due_after_snapshot hq hps

theorem snapshots_fall_due_taken_back :
    let c : Command := .nextValue "n"
    let large : Transaction := ⟨7, [⟨"t", "j", .remove⟩, ⟨"t", "k", .remove⟩]⟩
    let older : Snapshot := ⟨1, ∅, ∅, ∅, 0⟩
    let config : Config := { maxTransactionUpdates := 1, intervalEntries := 2 }
    let r := ofState config ∅ 18446744073709551613
    let qs : List Request := [.apply 18446744073709551614 c, .applyEncoded 3 [255],
      .install (Wire.encode older), .apply 1 c, .apply 5 (.prepare large)]
    let now := (r.serveAll qs).2
    let last : Request := .apply 18446744073709551615 c
    let ps : List Request := [.apply 4 c, .apply 6 c, .applyEncoded 7 (Wire.encode c)]
    Created r ∧ config.validate = .ok () ∧ now.sinceSnapshot.toNat = 1
      ∧ now.sinceSnapshot ≤ now.lastApplied
      ∧ now.sinceSnapshot.toNat + 1 < UInt64.size
      ∧ (now.shouldSnapshot = false ∧ (now.serve last).2.shouldSnapshot = true)
      ∧ (now.serve .snapshot).2.shouldSnapshot = false
      ∧ ((now.serve .snapshot).2.serveAll ps).2.shouldSnapshot = true := by
  intro c large older config r qs now last ps
  have hr : Created r := .ofState config ∅ _
  have hvalid : config.validate = .ok () := by decide
  obtain ⟨hcount, hle, happlied, hdue⟩ := snapshots_fall_due hr qs
  obtain ⟨hfalls, hagain⟩ := hdue hvalid
  obtain ⟨hnot, hps⟩ := hagain .snapshot rfl
  obtain ⟨hbound, -⟩ := happlied last ⟨18446744073709551615, .ok (.counter 1)⟩ (by decide)
  exact ⟨hr, hvalid, hcount.trans (by decide), hle, hbound, (hfalls last).2 (by decide), hnot,
    (hps ps (by decide)).2 (by decide)⟩

end Replica

end Lockstep
