import Lockstep.Proofs.Requests
import Lockstep.Proofs.Step

/-!
# The limit on transactions

A limit refuses the preparation of a transaction above it, and does nothing else: a run under a
limit is the run without one on the entries that are left if those above the limit are struck out
(`limit_refuses_preparations_only`). A commit or a rollback is never above it, so a lock that was
taken under another limit can be released under this one.
-/

namespace Lockstep

/-- The command would prepare a transaction with more updates than the limit. A limit of 0 is
none. -/
def Command.exceeds (limit : UInt64) (c : Command) : Bool :=
  limit ≠ 0 && c.prepares?.any fun txn => limit.toNat < txn.size

theorem Command.exceeds_of_unlimited (c : Command) : c.exceeds 0 = false := rfl

namespace Replica

variable {a b r : Replica} {i limit : UInt64} {c : Command} {es : List (UInt64 × Command)}

/-- The requests to apply some entries one after another. -/
def requests (es : List (UInt64 × Command)) : List Request := es.map fun e => .apply e.1 e.2

/-- The entries ascend from the last index. -/
def Ahead (r : Replica) (es : List (UInt64 × Command)) : Prop :=
  (r.lastApplied :: es.map (·.1)).Pairwise (· < ·)

instance (r : Replica) (es : List (UInt64 × Command)) : Decidable (r.Ahead es) :=
  inferInstanceAs (Decidable (List.Pairwise _ _))

theorem isOversized_eq (r : Replica) (c : Command) :
    r.isOversized c = c.exceeds r.config.maxTransactionUpdates := by
  rw [isOversized, Config.transactionLimit, Command.exceeds]
  by_cases h : r.config.maxTransactionUpdates = 0
  · simp [h]
  · rcases c.prepares? with _ | txn <;> simp [h]

/-! ## One entry -/

theorem serve_oversized (hi : r.lastApplied < i) (h : r.isOversized c = true) :
    r.serve (.apply i c)
      = (.ok (.applied ⟨i, .ok (.flag false)⟩), (r.record .oversized).advance i) := by
  rw [serve, apply, if_neg (UInt64.not_le.2 hi), if_pos h]
  rfl

theorem serve_executed (hi : r.lastApplied < i) (h : r.isOversized c = false) :
    r.serve (.apply i c)
      = (.ok (.applied ⟨i, (r.state.execute c).1⟩), (r.execute c).2.advance i) := by
  rw [serve, apply, if_neg (UInt64.not_le.2 hi), if_neg (Bool.eq_false_iff.1 h)]
  rfl

theorem lastApplied_serve_apply (hi : r.lastApplied < i) :
    (r.serve (.apply i c)).2.lastApplied = i := by
  rcases h : r.isOversized c with _ | _
  · rw [serve_executed hi h]
    rfl
  · rw [serve_oversized hi h]
    rfl

theorem ahead_cons :
    r.Ahead ((i, c) :: es) ↔ r.lastApplied < i ∧ (r.serve (.apply i c)).2.Ahead es := by
  simp only [Ahead, List.map_cons, List.pairwise_cons (l := i :: _), List.forall_mem_cons]
  constructor
  · rintro ⟨⟨hi, -⟩, hes⟩
    rw [lastApplied_serve_apply hi]
    exact ⟨hi, hes⟩
  · rintro ⟨hi, hes⟩
    rw [lastApplied_serve_apply hi] at hes
    exact ⟨⟨hi, fun j hj => UInt64.lt_trans hi ((List.pairwise_cons.1 hes).1 j hj)⟩, hes⟩

/-! ## Runs -/

/-- The entries that are still to come are ahead of the replica that gets to them. -/
theorem Ahead.after {back : List (UInt64 × Command)} : ∀ {front : List (UInt64 × Command)}
    {r : Replica}, r.Ahead (front ++ back) → (r.serveAll (requests front)).2.Ahead back
  | [], _, h => h
  | (i, c) :: front, r, h => by
    have hfront : (r.serve (.apply i c)).2.Ahead (front ++ back) := (ahead_cons.1 h).2
    exact hfront.after

theorem config_serve (r : Replica) (q : Request) : (r.serve q).2.config = r.config := by
  have h := serves_serve r q
  generalize r.serve q = x at h ⊢
  cases h <;> rfl

theorem config_serveAll (qs : List Request) (r : Replica) :
    (r.serveAll qs).2.config = r.config :=
  serveAll_induction (P := fun r' => r'.config = r.config) (A := fun _ => True)
    (fun {r' q} _ h => (config_serve r' q).trans h) qs (fun _ _ => trivial) rfl

/-- The second replica has no limit, goes on from the same state, and is no further in the log. -/
structure Unlimited (limit : UInt64) (a b : Replica) : Prop where
  limited : a.config.maxTransactionUpdates = limit
  unlimited : b.config.maxTransactionUpdates = 0
  state : b.state = a.state
  behind : b.lastApplied ≤ a.lastApplied

theorem Unlimited.oversized (h : Unlimited limit a b) (hi : a.lastApplied < i)
    (hc : c.exceeds limit = true) :
    (a.serve (.apply i c)).1 = .ok (.applied ⟨i, .ok (.flag false)⟩)
      ∧ Unlimited limit (a.serve (.apply i c)).2 b := by
  rw [serve_oversized hi (by rw [isOversized_eq, h.limited, hc])]
  exact ⟨rfl, h.limited, h.unlimited, h.state,
    UInt64.le_of_lt (UInt64.lt_of_le_of_lt h.behind hi)⟩

theorem Unlimited.executed (h : Unlimited limit a b) (hi : a.lastApplied < i)
    (hc : c.exceeds limit = false) :
    (b.serve (.apply i c)).1 = (a.serve (.apply i c)).1
      ∧ Unlimited limit (a.serve (.apply i c)).2 (b.serve (.apply i c)).2 := by
  have hb : b.isOversized c = false := by
    rw [isOversized_eq, h.unlimited, Command.exceeds_of_unlimited]
  rw [serve_executed hi (by rw [isOversized_eq, h.limited, hc]),
    serve_executed (UInt64.lt_of_le_of_lt h.behind hi) hb]
  exact ⟨by rw [h.state], h.limited, h.unlimited, congrArg (fun s => (State.execute s c).2) h.state,
    UInt64.le_refl i⟩

/-- The entries that are not above the limit. -/
def within (limit : UInt64) (es : List (UInt64 × Command)) : List (UInt64 × Command) :=
  es.filter fun e => !e.2.exceeds limit

/-- The replies to the entries that are not above the limit. -/
def repliesWithin (limit : UInt64) (es : List (UInt64 × Command))
    (replies : List (Except Error Reply)) : List (Except Error Reply) :=
  ((es.zip replies).filter fun x => !x.1.2.exceeds limit).map (·.2)

theorem Unlimited.serveAll : ∀ {es : List (UInt64 × Command)} {a b : Replica},
    Unlimited limit a b → a.Ahead es →
      repliesWithin limit es (a.serveAll (requests es)).1
          = (b.serveAll (requests (within limit es))).1
        ∧ Unlimited limit (a.serveAll (requests es)).2
          (b.serveAll (requests (within limit es))).2
  | [], _, _, h, _ => ⟨rfl, h⟩
  | (i, c) :: es, a, b, h, hes => by
    obtain ⟨hi, hes⟩ := ahead_cons.1 hes
    rcases hc : c.exceeds limit with _ | _
    · obtain ⟨hreply, h'⟩ := h.executed hi hc
      obtain ⟨ih, hend⟩ := h'.serveAll hes
      simp only [requests, within, repliesWithin, List.map_cons, Replica.serveAll,
        List.zip_cons_cons, List.filter_cons, hc, Bool.not_false, if_true, hreply] at ih hend ⊢
      exact ⟨congrArg _ ih, hend⟩
    · obtain ⟨-, h'⟩ := h.oversized hi hc
      obtain ⟨ih, hend⟩ := h'.serveAll hes
      simp only [requests, within, repliesWithin, List.map_cons, Replica.serveAll,
        List.zip_cons_cons, List.filter_cons, hc, Bool.not_true, Bool.false_eq_true,
        if_false] at ih hend ⊢
      exact ⟨ih, hend⟩

/-- A commit or a rollback is executed whatever the limit, and frees the keys that its transaction
holds and names. -/
theorem serve_resolution {txn : Transaction} (hi : r.lastApplied < i)
    (hc : c = .commit txn ∨ c = .rollback txn) :
    (r.serve (.apply i c)).1 = .ok (.applied ⟨i, .ok (.flag true)⟩)
      ∧ (r.serve (.apply i c)).2.state = (r.state.execute c).2
      ∧ ∀ p ∈ txn.places, r.state.locks.Holds txn.id p →
        (r.serve (.apply i c)).2.state.locks.get? p.1 p.2 = none := by
  have hsize : r.isOversized c = false := by
    rw [isOversized]
    rcases hc with rfl | rfl <;> rcases r.config.transactionLimit with _ | _ <;> rfl
  have hlocks : (r.state.execute c).2.locks = r.state.locks.releaseAll txn.id txn.updates := by
    rcases hc with rfl | rfl
    · exact congrArg State.locks (State.commit_eq r.state txn)
    · exact congrArg State.locks (State.rollback_eq r.state txn)
  have hanswer : (r.state.execute c).1 = .ok (.flag true) := by rcases hc with rfl | rfl <;> rfl
  rw [serve_executed hi hsize, hanswer]
  refine ⟨rfl, rfl, fun p hp hh => ?_⟩
  rw [show ((r.execute c).2.advance i).state = (r.state.execute c).2 from rfl, hlocks,
    Locks.get?_releaseAll]
  exact if_pos ⟨hp, hh⟩

/-- Under a limit each preparation of a transaction above it is answered false, takes up its index
and leaves the state as it is. The other entries are answered as without a limit on the log that has
only them, and the state at the end is the same. A commit or a rollback is executed in full under
every limit, so that all keys are free that its transaction held. -/
theorem limit_refuses_preparations_only (ha : a.config.maxTransactionUpdates = limit)
    (hb : b.config.maxTransactionUpdates = 0) (hstate : b.state = a.state)
    (hlast : b.lastApplied = a.lastApplied) (hes : a.Ahead es) :
    (∀ front i c back, es = front ++ (i, c) :: back → c.exceeds limit = true →
        let r := (a.serveAll (requests front)).2
        (r.serve (.apply i c)).1 = .ok (.applied ⟨i, .ok (.flag false)⟩)
          ∧ (r.serve (.apply i c)).2.lastApplied = i
          ∧ (r.serve (.apply i c)).2.state = r.state)
      ∧ repliesWithin limit es (a.serveAll (requests es)).1
        = (b.serveAll (requests (within limit es))).1
      ∧ (a.serveAll (requests es)).2.state = (b.serveAll (requests (within limit es))).2.state
      ∧ ∀ (r : Replica) i txn c, r.lastApplied < i → c = .commit txn ∨ c = .rollback txn →
        (r.serve (.apply i c)).1 = .ok (.applied ⟨i, .ok (.flag true)⟩)
          ∧ (r.serve (.apply i c)).2.state = (r.state.execute c).2
          ∧ ∀ p ∈ txn.places, r.state.locks.Holds txn.id p →
            (r.serve (.apply i c)).2.state.locks.get? p.1 p.2 = none := by
  have h : Unlimited limit a b := ⟨ha, hb, hstate, hlast ▸ UInt64.le_refl _⟩
  obtain ⟨hreplies, hend⟩ := h.serveAll hes
  refine ⟨?_, hreplies, hend.state.symm, fun r i txn c hi hc => serve_resolution hi hc⟩
  rintro front i c back rfl hc r
  have hi : r.lastApplied < i := (ahead_cons.1 hes.after).1
  have hr : r.config.maxTransactionUpdates = limit := by rw [config_serveAll, ha]
  rw [serve_oversized hi (by rw [isOversized_eq, hr, hc])]
  exact ⟨rfl, rfl, rfl⟩

theorem limit_refuses_preparations_only_lowered :
    let held : Transaction := ⟨7, [⟨"t", "j", .put ⟨[1]⟩⟩, ⟨"t", "k", .remove⟩]⟩
    let more : Transaction := ⟨8, [⟨"u", "j", .put ⟨[2]⟩⟩, ⟨"u", "k", .put ⟨[3]⟩⟩]⟩
    let one : Transaction := ⟨9, [⟨"u", "j", .putIfAbsent ⟨[4]⟩⟩]⟩
    let s : State := ((∅ : State).execute (.prepare held)).2
    let a : Replica := ofState { maxTransactionUpdates := 1 } s 3
    let b : Replica := ofState {} s 3
    let es : List (UInt64 × Command) := [(4, .prepare more), (6, .prepareAndCommit one),
      (7, .prepareAndCommit more), (8, .commit held), (9, .rollback more)]
    let small : List (UInt64 × Command) :=
      [(6, .prepareAndCommit one), (8, .commit held), (9, .rollback more)]
    a.Ahead es ∧ s.locks.Holds 7 ("t", "k")
      ∧ repliesWithin 1 es (a.serveAll (requests es)).1
        = (b.serveAll (requests small)).1
      ∧ (a.serveAll (requests es)).2.state = (b.serveAll (requests small)).2.state
      ∧ (a.serve (.apply 4 (.prepare more))).1 = .ok (.applied ⟨4, .ok (.flag false)⟩)
      ∧ (a.serve (.apply 5 (.rollback held))).2.state.locks.get? "t" "k" = none := by
  intro held more one s a b es small
  have hahead : a.Ahead es := by decide
  have hheld : s.locks.Holds 7 ("t", "k") := by decide
  have ha : a.config.maxTransactionUpdates = 1 := rfl
  obtain ⟨hrefused, hreplies, hstate, hfreed⟩ :=
    limit_refuses_preparations_only (b := b) ha rfl rfl rfl hahead
  obtain ⟨-, -, hfree⟩ := hfreed a 5 held _ (by decide) (.inr rfl)
  exact ⟨hahead, hheld, hreplies, hstate, (hrefused [] 4 (.prepare more) _ rfl rfl).1,
    hfree ("t", "k") (by decide) hheld⟩

end Replica

end Lockstep
