import Lockstep.Proofs.Run

/-!
# What a lock stands in the way of

A lock stands in the way of a write to its key, whoever holds it and whatever the write asks of the
entry, and of a clear of its table (`Command.Blocked`). The answer is `locked` to such a command and
to no other, and the command then leaves the state as it was (`locked_exactly_when_held`).

A clear only looks whether its table is listed with the locks. That this is so just when a key of it
is held is a matter of how the locks came about, so the law is one of reachable states.
-/

namespace Lockstep

/-- A lock stands in the command's way. -/
def Command.Blocked (l : Locks) : Command → Prop
  | write t k _ => ∃ id, l.Holds id (t, k)
  | clear t => ∃ k id, l.Holds id (t, k)
  | _ => False

namespace Locks

variable {l : Locks} {t k : String}

theorem isLocked_iff_holds : l.isLocked t k = true ↔ ∃ id, l.Holds id (t, k) :=
  isLocked_iff.trans ⟨fun ⟨⟨id, w⟩, h⟩ => ⟨id, w, h⟩, fun ⟨_, _, h⟩ => ⟨_, h⟩⟩

theorem Coherent.hasLocks_iff_holds (h : l.Coherent) :
    l.hasLocks t = true ↔ ∃ k id, l.Holds id (t, k) :=
  h.hasLocks_iff.trans (exists_congr fun _ => isLocked_iff_holds)

end Locks

namespace State

variable {s : State} {c : Command} {r : Outcome Output × State}

/-- A clear is stopped by its table, in tidy locks just if that has a held key. -/
theorem Step.locked_iff (h : Step s c r) (hs : s.locks.Coherent) :
    r.1 = .locked ↔ c.Blocked s.locks := by
  cases h with
  | lockedWrite hl => exact iff_of_true rfl (Locks.isLocked_iff_holds.1 hl)
  | write hfree =>
    refine iff_of_false nofun fun ⟨id, w, hw⟩ => ?_
    rw [hfree] at hw
    cases hw
  | lockedClear hl => exact iff_of_true rfl (hs.hasLocks_iff_holds.1 hl)
  | clear hfree =>
    refine iff_of_false nofun fun hheld => ?_
    rw [hs.hasLocks_iff_holds.2 hheld] at hfree
    cases hfree
  | _ => exact iff_of_false nofun id

theorem Step.eq_of_locked (h : Step s c r) (hr : r.1 = .locked) : r.2 = s := by
  cases h with
  | lockedWrite | lockedClear => rfl
  | _ => cases hr

/-- In a reachable state just these commands are answered `locked`: a write to a key that some
transaction holds, and a clear of a table some key of which is held. They leave the state as it
was. -/
theorem locked_exactly_when_held (h : Reachable s) (c : Command) :
    ((s.execute c).1 = .locked ↔
        (∃ t k w, c = .write t k w ∧ ∃ id, s.locks.Holds id (t, k))
          ∨ ∃ t, c = .clear t ∧ ∃ k id, s.locks.Holds id (t, k))
      ∧ ((s.execute c).1 = .locked → (s.execute c).2 = s) := by
  refine ⟨((step_execute s c).locked_iff h.coherent).trans ?_, (step_execute s c).eq_of_locked⟩
  cases c <;> simp [Command.Blocked]

theorem locked_exactly_when_held_adopted :
    let given : OrdMap String (OrdMap String Lock) :=
      .ofList [("e", ∅), ("t", .ofList [("k", ⟨7, .put ⟨[1]⟩⟩)])]
    let s₀ : State := ⟨∅, ∅, .ofMap given⟩
    let s : State := s₀.after [.prepare ⟨8, [⟨"u", "j", .remove⟩]⟩]
    Reachable s ∧ s.execute (.write "t" "k" (.removeIfVersion 3)) = (.locked, s)
      ∧ s.execute (.clear "u") = (.locked, s) ∧ (s.execute (.clear "e")).1 ≠ .locked := by
  intro given s₀ s
  have hstart : ofContext { locks := some given } = .ok s₀ := rfl
  have h : Reachable s := ⟨s₀, _, .adopted hstart, rfl⟩
  have hlaw := locked_exactly_when_held h
  have hwrite : (s.execute (.write "t" "k" (.removeIfVersion 3))).1 = .locked :=
    (hlaw _).1.2 (.inl ⟨"t", "k", _, rfl, 7, .put ⟨[1]⟩, by decide⟩)
  have hclear : (s.execute (.clear "u")).1 = .locked :=
    (hlaw _).1.2 (.inr ⟨"u", rfl, "j", 8, .tombstone, by decide⟩)
  refine ⟨h, Prod.ext hwrite ((hlaw _).2 hwrite), Prod.ext hclear ((hlaw _).2 hclear), ?_⟩
  rw [Ne, (hlaw _).1]
  rintro (⟨t, k, w, hc, -⟩ | ⟨t, hc, k, id, w, hw⟩)
  · cases hc
  · cases hc
    rw [show s.locks.get? "e" k = none from rfl] at hw
    cases hw

end State

end Lockstep
