import Lockstep.Proofs.Run
import Mathlib.Data.List.Nodup

/-!
# Versions

The puts of a run take the versions that follow the one it started at, one each and in order, and
nothing else moves the counter. So a version is never handed out twice, whatever is removed or
cleared meanwhile, and what a key holds grows younger with each write (`version_sequence`).

A command makes all its puts at different keys, so the versions it hands out can be read off the
entries it leaves (`stamped_execute`).
-/

namespace Lockstep

/-- The `n` versions that follow `v`. -/
def following (v : UInt64) : ℕ → List UInt64
  | 0 => []
  | n + 1 => (v + 1) :: following (v + 1) n

section Following

variable {v x : UInt64} {m n : ℕ}

@[simp] theorem length_following : ∀ {v : UInt64} {n : ℕ}, (following v n).length = n
  | _, 0 => rfl
  | _, _ + 1 => congrArg (· + 1) length_following

theorem toNat_add_ofNat (h : v.toNat + n < UInt64.size) :
    (v + .ofNat n).toNat = v.toNat + n := by
  rw [UInt64.toNat_add, UInt64.toNat_ofNat', Nat.add_mod_mod]
  exact Nat.mod_eq_of_lt h

theorem add_ofNat_add_one (v : UInt64) (n : ℕ) : v + 1 + .ofNat n = v + .ofNat (n + 1) := by
  rw [UInt64.ofNat_add, UInt64.add_assoc, UInt64.add_comm 1]
  rfl

theorem following_add : ∀ (v : UInt64) (m n : ℕ),
    following v (m + n) = following v m ++ following (v + .ofNat m) n
  | v, 0, n => by simp [following]
  | v, m + 1, n => by
    rw [Nat.add_right_comm, following, following, following_add (v + 1) m n, add_ofNat_add_one]
    rfl

theorem map_toNat_following : ∀ {v : UInt64} {n : ℕ}, v.toNat + n < UInt64.size →
    (following v n).map UInt64.toNat = List.range' (v.toNat + 1) n
  | _, 0, _ => rfl
  | v, n + 1, h => by
    have hv : (v + 1).toNat = v.toNat + 1 := toNat_add_ofNat (n := 1) (by omega)
    rw [following, List.map_cons, map_toNat_following (by omega), hv, List.range'_succ]

theorem exists_getElem?_following {i : ℕ} (h : v.toNat + n < UInt64.size) (hi : i < n) :
    ∃ x, (following v n)[i]? = some x ∧ x.toNat = v.toNat + (i + 1) := by
  have hrange : ((following v n)[i]?).map UInt64.toNat = some (v.toNat + (i + 1)) := by
    rw [← List.getElem?_map, map_toNat_following h, List.getElem?_range' hi]
    congr 1
    omega
  exact Option.map_eq_some_iff.1 hrange

theorem mem_following (h : v.toNat + n < UInt64.size) (hx : x ∈ following v n) :
    v.toNat < x.toNat ∧ x.toNat ≤ v.toNat + n := by
  have hmem := List.mem_map_of_mem (f := UInt64.toNat) hx
  rw [map_toNat_following h, List.mem_range'_1] at hmem
  omega

theorem pairwise_following (h : v.toNat + n < UInt64.size) :
    (following v n).Pairwise (· < ·) := by
  have : (List.range' (v.toNat + 1) n).Pairwise (· < ·) := List.pairwise_lt_range'
  rw [← map_toNat_following h, List.pairwise_map] at this
  exact this.imp UInt64.lt_iff_toNat_lt.2

end Following

/-- A write with this answer stored its value. -/
def KeyWrite.stores : KeyWrite → Output → Bool
  | put _, _ => true
  | putIfAbsent _, out => out = .value none
  | replaceValue _ _, out | replaceVersion _ _, out => out = .flag true
  | remove, _ | removeIfValue _, _ | removeIfVersion _, _ => false

namespace Tables

variable {s s' s'' : Tables} {ps qs : List Place} {t k : String}

def version? (s : Tables) (p : Place) : Option UInt64 := (s.get? p.1 p.2).map (·.version)

/-- No version is stored twice. -/
def Distinct (s : Tables) : Prop :=
  ∀ t k e t' k' e', s.get? t k = some e → s.get? t' k' = some e' → e.version = e'.version →
    (t, k) = (t', k')

/-- `s'` comes from `s` by a put at each of the places, numbered in their order. No other entry is
new. -/
structure Stamped (s : Tables) (ps : List Place) (s' : Tables) : Prop where
  versions : ps.map s'.version? = (following s.nextVersion ps.length).map some
  next : s'.nextVersion = s.nextVersion + .ofNat ps.length
  old : ∀ t k e, (t, k) ∉ ps → s'.get? t k = some e → s.get? t k = some e

theorem stamped_nil (hn : s'.nextVersion = s.nextVersion)
    (h : ∀ t k e, s'.get? t k = some e → s.get? t k = some e) : Stamped s [] s' where
  versions := rfl
  next := by simp [hn]
  old := fun t k e _ => h t k e

theorem stamped_put (s : Tables) (t k : String) (v : Value) :
    Stamped s [(t, k)] (s.put t k v).2 where
  versions := by simp [version?, get?_put, following]
  next := rfl
  old := fun t' k' e hne h =>
    (get?_settle_of_ne s (fun he => hne (he ▸ List.mem_singleton_self _)) (.put v)).symm.trans h

theorem stamped_remove (s : Tables) (t k : String) : Stamped s [] (s.remove t k).2 := by
  refine stamped_nil rfl fun t' k' e h => ?_
  rw [get?_remove] at h
  split at h
  · cases h
  · exact h

theorem stamped_touch (s : Tables) (t : String) : Stamped s [] (s.touch t) :=
  stamped_nil rfl fun t' k' e h => by rwa [get?_touch] at h

theorem stamped_clear (s : Tables) (t : String) : Stamped s [] (s.clear t) := by
  refine stamped_nil rfl fun t' k' e h => ?_
  rw [get?_clear] at h
  split at h
  · cases h
  · exact h

/-- Later puts at other places leave the numbers of the earlier ones readable. -/
theorem Stamped.trans (h : Stamped s ps s') (h' : Stamped s' qs s'')
    (hkeep : ∀ p ∈ ps, s''.version? p = s'.version? p) : Stamped s (ps ++ qs) s'' where
  versions := by
    rw [List.map_append, List.map_congr_left hkeep, h.versions, h'.versions, h.next,
      List.length_append, following_add, List.map_append]
  next := by
    rw [h'.next, h.next, List.length_append, UInt64.ofNat_add, UInt64.add_assoc]
  old := fun t k e hne he => by
    rw [List.mem_append, not_or] at hne
    exact h.old t k e hne.1 (h'.old t k e hne.2 he)

theorem stamped_settle (s : Tables) (w : Settlement) :
    Stamped s (([w].filter Settlement.isPut).map Settlement.place)
      (s.settle w.table w.key w.pending) := by
  obtain ⟨t, k, w⟩ := w
  cases w with
  | put v => exact stamped_put s t k v
  | tombstone => exact stamped_remove s t k

theorem stamped_settleAll : ∀ {ws : List Settlement} (s : Tables),
    (ws.map Settlement.place).Nodup →
      Stamped s ((ws.filter Settlement.isPut).map Settlement.place) (s.settleAll ws)
  | [], s, _ => stamped_nil rfl fun _ _ _ => id
  | w :: ws, s, h => by
    rw [List.map_cons, List.nodup_cons] at h
    have hw := stamped_settle s w
    have hws := stamped_settleAll (s.settle w.table w.key w.pending) h.2
    rw [List.filter_cons, settleAll_cons]
    have := hw.trans hws fun p hp => by
      obtain rfl : p = w.place := by
        obtain ⟨w', hw', rfl⟩ := List.mem_map.1 hp
        rw [List.mem_singleton.1 (List.mem_of_mem_filter hw')]
      exact congrArg (Option.map _) (get?_settleAll_of_notMem h.1)
    rw [← List.map_append, ← List.filter_append] at this
    simpa [List.filter_cons] using this

theorem stamped_removeIf (s : Tables) (t k : String) (p : Versioned → Bool) :
    Stamped s [] (s.removeIf t k p).2 := by
  unfold removeIf
  split
  · exact stamped_remove s t k
  · exact stamped_touch s t

theorem stamped_replaceIf (s : Tables) (t k : String) (p : Versioned → Bool) (v : Value) :
    Stamped s (if (s.replaceIf t k p v).1 then [(t, k)] else []) (s.replaceIf t k p v).2 := by
  unfold replaceIf
  split
  · exact stamped_put s t k v
  · exact stamped_touch s t

theorem stamped_write (s : Tables) (t k : String) : ∀ w : KeyWrite,
    Stamped s (if w.stores (s.write t k w).1 then [(t, k)] else []) (s.write t k w).2
  | .put v => stamped_put s t k v
  | .putIfAbsent v => by
    rcases h : s.get? t k with _ | e
    · have hw : s.write t k (.putIfAbsent v) = (.value none, (s.put t k v).2) := by
        simp [write, putIfAbsent, h, Prod.map]
      rw [hw]
      exact stamped_put s t k v
    · have hw : s.write t k (.putIfAbsent v) = (.value (some e), s) := by
        simp [write, putIfAbsent, h]
      rw [hw]
      exact stamped_nil rfl fun _ _ _ => id
  | .remove => stamped_remove s t k
  | .removeIfValue v => stamped_removeIf s t k (·.value = v)
  | .removeIfVersion n => stamped_removeIf s t k (·.version = n)
  | .replaceValue old new => by
    simpa [KeyWrite.stores, write, replaceValue] using
      stamped_replaceIf s t k (·.value = old) new
  | .replaceVersion old new => by
    simpa [KeyWrite.stores, write, replaceVersion] using
      stamped_replaceIf s t k (·.version = old) new

theorem Stamped.bounded (h : Stamped s ps s') (hs : s.Bounded)
    (hfits : s.nextVersion.toNat + ps.length < UInt64.size) : s'.Bounded := by
  have hnext : s'.nextVersion.toNat = s.nextVersion.toNat + ps.length := by
    rw [h.next, toNat_add_ofNat hfits]
  intro t k e he
  rw [UInt64.le_iff_toNat_le, hnext]
  by_cases hp : (t, k) ∈ ps
  · have hmem : some e.version ∈ ps.map s'.version? :=
      List.mem_map.2 ⟨_, hp, by rw [version?, he]; rfl⟩
    rw [h.versions, List.mem_map] at hmem
    obtain ⟨x, hx, hxe⟩ := hmem
    cases hxe
    exact (mem_following hfits hx).2
  · have := UInt64.le_iff_toNat_le.1 (hs t k e (h.old t k e hp he))
    omega

end Tables

namespace State

/-- The keys a command stores a value at, in the order it does so. A commit does so at each key
whose lock, held by the transaction, waits to put one. -/
def puts (s : State) (c : Command) : List Place :=
  let released (s : State) (txn : Transaction) :=
    ((s.locks.settlements txn.id txn.updates).filter Settlement.isPut).map Settlement.place
  match c, (s.execute c).1 with
  | .write t k w, .ok out => if w.stores out then [(t, k)] else []
  | .commit txn, _ => released s txn
  | .prepareAndCommit txn, out => if out = .ok (.flag true) then released (s.lockAll txn) txn else []
  | _, _ => []

/-- The puts of a run, each with the version found at its key right after the command. -/
def writes (s : State) : List Command → List (Place × Option UInt64)
  | [] => []
  | c :: cs =>
    let after := (s.execute c).2
    ((s.puts c).map fun p => (p, after.tables.version? p)) ++ writes after cs

variable {s : State}

theorem stamped_execute (s : State) (c : Command) :
    s.tables.Stamped (s.puts c) (s.execute c).2.tables := by
  have hsame : s.tables.Stamped [] s.tables := Tables.stamped_nil rfl fun _ _ _ => id
  have hstep := step_execute s c
  unfold puts
  generalize s.execute c = r at hstep ⊢
  cases hstep with
  | write h => exact Tables.stamped_write s.tables _ _ _
  | clear h => exact Tables.stamped_clear s.tables _
  | commit txn => exact Tables.stamped_settleAll s.tables Locks.nodup_settlements
  | @batch txn hv =>
    simp only [if_true, lockAll_eq, settlements_lockAll]
    refine Tables.stamped_settleAll s.tables ?_
    rw [Transaction.map_place_settlements]
    exact nodup_places txn.updates
  | _ => exact hsame

/-- The versions of a run's puts follow each other from the one it starts at, and so does the
counter. -/
theorem run_writes : ∀ (s : State) (cs : List Command),
    (s.writes cs).map Prod.snd
        = (following s.tables.nextVersion (s.writes cs).length).map some
      ∧ (s.after cs).tables.nextVersion
        = s.tables.nextVersion + .ofNat (s.writes cs).length
  | s, [] => ⟨rfl, by simp [writes]⟩
  | s, c :: cs => by
    have hc := stamped_execute s c
    obtain ⟨hv, hn⟩ := run_writes (s.execute c).2 cs
    rw [hc.next] at hv hn
    rw [writes, List.length_append, List.length_map, after_cons, UInt64.ofNat_add,
      ← UInt64.add_assoc]
    refine ⟨?_, hn⟩
    rw [List.map_append, List.map_map, following_add, List.map_append, ← hv, ← hc.versions]
    rfl

/-- What is stored at the end of a run was written by it, or was there before. -/
theorem mem_writes_or_get? {t k : String} {e : Versioned} : ∀ (s : State) (cs : List Command),
    (s.after cs).tables.get? t k = some e →
      ((t, k), some e.version) ∈ s.writes cs ∨ s.tables.get? t k = some e
  | _, [], h => .inr h
  | s, c :: cs, h => by
    rw [writes, List.mem_append]
    rcases mem_writes_or_get? (s.execute c).2 cs h with h | h
    · exact .inl (.inr h)
    · by_cases hp : (t, k) ∈ s.puts c
      · refine .inl (.inl (List.mem_map.2 ⟨_, hp, ?_⟩))
        rw [Tables.version?, h]
        rfl
      · exact .inr ((stamped_execute s c).old t k e hp h)

/-! ## As long as the counter is not exhausted -/

section Fits

variable {s : State} {cs : List Command}
  (hfits : s.tables.nextVersion.toNat + (s.writes cs).length < UInt64.size)

include hfits

theorem toNat_nextVersion_after : (s.after cs).tables.nextVersion.toNat
    = s.tables.nextVersion.toNat + (s.writes cs).length := by
  rw [(run_writes s cs).2, toNat_add_ofNat hfits]

theorem mem_writes {w : Place × Option UInt64} {v : UInt64} (hw : w ∈ s.writes cs)
    (hv : v ∈ w.2) : s.tables.nextVersion.toNat < v.toNat
      ∧ v.toNat ≤ s.tables.nextVersion.toNat + (s.writes cs).length := by
  have hmem : some v ∈ (s.writes cs).map Prod.snd := List.mem_map.2 ⟨w, hw, hv⟩
  rw [(run_writes s cs).1, List.mem_map] at hmem
  obtain ⟨x, hx, hxv⟩ := hmem
  cases hxv
  exact mem_following hfits hx

theorem map_toNat_writes : (s.writes cs).map (fun w => w.2.map UInt64.toNat)
    = (List.range' (s.tables.nextVersion.toNat + 1) (s.writes cs).length).map some := by
  have h := congrArg (List.map (Option.map UInt64.toNat)) (run_writes s cs).1
  rw [List.map_map, List.map_map] at h
  rw [← map_toNat_following hfits, List.map_map]
  exact h

theorem nodup_writes : ((s.writes cs).map Prod.snd).Nodup := by
  rw [(run_writes s cs).1]
  exact List.Nodup.map (fun _ _ => Option.some.inj)
    ((pairwise_following hfits).imp UInt64.ne_of_lt)

theorem pairwise_writes (p : Place) :
    (((s.writes cs).filter (·.1 = p)).filterMap Prod.snd).Pairwise (· < ·) := by
  have hall := congrArg (List.filterMap id) (run_writes s cs).1
  rw [List.filterMap_map, List.filterMap_map] at hall
  have hpairwise : ((s.writes cs).filterMap Prod.snd).Pairwise (· < ·) :=
    (hall.trans List.filterMap_some) ▸ pairwise_following hfits
  exact hpairwise.sublist (List.filter_sublist.filterMap _)

/-- Versions that were told apart stay so: of two entries both are new, or both are old, or the new
one has the greater version. -/
theorem distinct_after (hbounded : s.tables.Bounded) (hs : s.tables.Distinct) :
    (s.after cs).tables.Distinct := by
  have hold : ∀ {t k e}, s.tables.get? t k = some e →
      e.version.toNat ≤ s.tables.nextVersion.toNat :=
    fun he => UInt64.le_iff_toNat_le.1 (hbounded _ _ _ he)
  intro t k e t' k' e' he he' hv
  rcases mem_writes_or_get? s cs he with h | h <;> rcases mem_writes_or_get? s cs he' with h' | h'
  · exact congrArg Prod.fst
      (List.inj_on_of_nodup_map (nodup_writes hfits) h h' (congrArg some hv))
  · have := (mem_writes hfits h rfl).1
    have := hold h'
    rw [hv] at *
    omega
  · have := (mem_writes hfits h' rfl).1
    have := hold h
    rw [hv] at *
    omega
  · exact hs t k e t' k' e' h h' hv

end Fits

/-- While the counter is not exhausted, the puts of a run take the versions that follow the one it
started at, one each and in order, and nothing else moves the counter. So no stored version is above
the counter, each new version is above all versions there were at the start, none is handed out
twice, those written to one key ascend, and versions that were told apart stay so. -/
theorem version_sequence {s : State} (hstart : Start s) (cs : List Command)
    (hfits : s.tables.nextVersion.toNat + (s.writes cs).length < UInt64.size) :
    let n₀ := s.tables.nextVersion.toNat
    let log := s.writes cs
    let last := s.after cs
    log.map (fun w => w.2.map UInt64.toNat) = (List.range' (n₀ + 1) log.length).map some
      ∧ last.tables.nextVersion.toNat = n₀ + log.length
      ∧ last.tables.Bounded
      ∧ (∀ t k e, s.tables.get? t k = some e → ∀ w ∈ log, ∀ v ∈ w.2, e.version < v)
      ∧ (log.map Prod.snd).Nodup
      ∧ (∀ p, ((log.filter (·.1 = p)).filterMap Prod.snd).Pairwise (· < ·))
      ∧ (s.tables.Distinct → last.tables.Distinct) := by
  intro n₀ log last
  have hlast : last.tables.nextVersion.toNat = n₀ + log.length := toNat_nextVersion_after hfits
  have hold : ∀ {t k e}, s.tables.get? t k = some e → e.version.toNat ≤ n₀ :=
    fun he => UInt64.le_iff_toNat_le.1 (hstart.bounded _ _ _ he)
  refine ⟨map_toNat_writes hfits, hlast, fun t k e he => ?_, fun t k e he w hw v hv => ?_,
    nodup_writes hfits, pairwise_writes hfits, distinct_after hfits hstart.bounded⟩
  · rw [UInt64.le_iff_toNat_le, hlast]
    rcases mem_writes_or_get? s cs he with h | h
    · exact (mem_writes hfits h rfl).2
    · exact Nat.le_add_right_of_le (hold h)
  · have := hold he
    have := (mem_writes hfits hw hv).1
    rw [UInt64.lt_iff_toNat_lt]
    omega

theorem version_sequence_resumed :
    let c : Context := ⟨none, some (.ofList [("t", .ofList [("k", ⟨⟨[1]⟩, 4⟩)])]), none, some 5⟩
    let s : State := ⟨∅, ⟨.ofList [("t", .ofList [("k", ⟨⟨[1]⟩, 4⟩)])], 5⟩, ∅⟩
    let txn : Transaction := ⟨1, [⟨"t", "j", .put ⟨[2]⟩⟩, ⟨"u", "k", .putIfAbsent ⟨[3]⟩⟩,
      ⟨"t", "j", .put ⟨[4]⟩⟩, ⟨"t", "k", .remove⟩]⟩
    let cs : List Command := [.write "u" "j" (.put ⟨[5]⟩), .prepare txn, .clear "t", .commit txn,
      .write "t" "k" (.putIfAbsent ⟨[6]⟩), .write "t" "k" (.replaceVersion 4 ⟨[7]⟩)]
    ofContext c = .ok s ∧ s.tables.nextVersion.toNat + (s.writes cs).length < UInt64.size
      ∧ (s.writes cs).map Prod.fst = [("u", "j"), ("t", "j"), ("u", "k"), ("t", "k")]
      ∧ (s.writes cs).map (fun w => w.2.map UInt64.toNat) = [some 6, some 7, some 8, some 9]
      ∧ (s.after cs).tables.nextVersion.toNat = 9 := by
  intro c s txn cs
  have hstart : ofContext c = .ok s := rfl
  have hplaces : (s.writes cs).map Prod.fst
      = [("u", "j"), ("t", "j"), ("u", "k"), ("t", "k")] := by decide
  have hlength : (s.writes cs).length = 4 := by
    rw [← List.length_map (f := Prod.fst), hplaces]
    rfl
  have hfits : s.tables.nextVersion.toNat + (s.writes cs).length < UInt64.size := by
    rw [hlength]
    decide
  obtain ⟨hlog, hlast, -⟩ := version_sequence (.adopted hstart) cs hfits
  rw [hlength] at hlog hlast
  exact ⟨hstart, hfits, hplaces, hlog, hlast⟩

end State

end Lockstep
