import Lockstep.Proofs.Holding

/-!
# Serial histories

A run in which transactions are prepared, committed and rolled back in between each other comes to
the same as one without locks, in which each transaction is executed whole at its commit
(`serializable`).

The serial run goes through the states of the first one, less their locks (`unlocked`). For this
each transaction must hold all its keys, with its conditions true, or none of them. That is so if
commands with one id are about one transaction (`Step.settled`).
-/

namespace Lockstep.State

def unlocked (s : State) : State := { s with locks := ∅ }

/-- The transaction holds a key of its own. -/
def HoldsSome (s : State) (txn : Transaction) : Prop := ∃ p ∈ txn.places, s.locks.Holds txn.id p

instance (s : State) (txn : Transaction) : Decidable (s.HoldsSome txn) :=
  inferInstanceAs (Decidable (∃ p ∈ txn.places, s.locks.Holds txn.id p))

/-- What a command comes to in the serial history, with the answer it must get there. A transaction
takes effect where it is committed, and what had no effect is left out. -/
def serialize (s : State) (c : Command) : Option (Command × Outcome Output) :=
  match c with
  | .prepare _ | .rollback _ => none
  | .commit txn =>
    if s.HoldsSome txn then some (.prepareAndCommit txn, .ok (.flag true)) else none
  | .prepareAndCommit _ =>
    if (s.execute c).1 = .ok (.flag false) then none else some (c, (s.execute c).1)
  | _ => if (s.execute c).1 = .locked then none else some (c, (s.execute c).1)

def serial (s : State) : List Command → List (Command × Outcome Output)
  | [] => []
  | c :: cs => (s.serialize c).toList ++ serial (s.execute c).2 cs

variable {s : State} {c : Command} {txn : Transaction}

/-! ## All keys or none -/

/-- The transaction holds all its keys, or none. -/
def Settled (s : State) (txn : Transaction) : Prop := s.Holding txn ∨ ¬ s.HoldsSome txn

theorem Settled.holding (h : s.Settled txn) (hsome : s.HoldsSome txn) : s.Holding txn :=
  h.resolve_right (not_not_intro hsome)

theorem Step.settled {r : Outcome Output × State} (hstep : Step s c r)
    (hsame : ∀ other, c.transaction? = some other → other.id = txn.id → other = txn)
    (h : s.Settled txn) : r.2.Settled txn := by
  by_cases hc : Spares txn.id c
  · rcases h with h | h
    · exact .inl (hstep.holding hc h).1
    · exact .inr fun ⟨p, hp, hh⟩ => hstep.not_holds hc (fun hh => h ⟨p, hp, hh⟩) hh
  · have hown : c.transaction? = some txn := by
      by_contra hne
      refine hc fun other ho hid => hne ?_
      rw [← hsame other ho hid, ho]
    cases hstep with
    | refusal | refusedBatch => exact h
    | prepare hv =>
      cases hown
      exact .inl (.of_prepared hv)
    | commit | rollback =>
      cases hown
      exact .inr fun ⟨p, hp, hh⟩ => Locks.not_holds_releaseAll hp hh
    | batch =>
      cases hown
      exact .inr fun ⟨p, hp, hh⟩ => Locks.not_holds_releaseAll hp hh
    | _ => cases hown

/-! ## The serial run -/

theorem execute_query_unlocked (q : Query) :
    s.unlocked.execute (.query q) = (.ok (s.answer q), s.unlocked) := by
  cases q <;> rfl

/-- Without locks only the conditions of a transaction decide, and it leaves none behind. -/
theorem execute_batch_unlocked
    (h : ∀ u ∈ txn.updates, u.kind.holds (s.tables.get? u.table u.key) = true) :
    s.unlocked.execute (.prepareAndCommit txn)
      = (.ok (.flag true), { s.unlocked with tables := s.tables.settleAll txn.settlements }) := by
  have hv : s.unlocked.verdict txn = .prepared :=
    verdict_eq_prepared.2 ⟨fun p _ lock hl => (by cases hl), h⟩
  have hlocks : ((∅ : Locks).lockAll txn.id txn.updates).releaseAll txn.id txn.updates = ∅ := by
    refine Locks.Coherent.eq_empty Locks.coherent_empty.lockAll.releaseAll fun t k => ?_
    rw [Locks.get?_releaseAll_lockAll]
    exact ite_self _
  rw [execute_prepareAndCommit, prepareAndCommit_of_prepared hv,
    show s.unlocked.locks = ∅ from rfl, hlocks]
  rfl

/-- A command leaves no trace but in the locks, or its part in the serial history gets its answer
and does the same. -/
theorem serialize_spec (h : ∀ txn, c.transaction? = some txn → s.Settled txn) :
    match s.serialize c with
    | none => (s.execute c).2.unlocked = s.unlocked
    | some (d, o) => s.unlocked.execute d = (o, (s.execute c).2.unlocked) := by
  have hstep := step_execute s c
  unfold serialize
  generalize s.execute c = r at hstep ⊢
  cases hstep with
  | query q => exact execute_query_unlocked q
  | lockedWrite | lockedClear => rfl
  | write | clear | nextValue | currentValue => rfl
  | refusal | prepare | rollback => rfl
  | commit txn =>
    by_cases hsome : s.HoldsSome txn
    · have hh := (h txn rfl).holding hsome
      simp only [if_pos hsome, execute_batch_unlocked hh.possible, hh.settlements]
      rfl
    · have hnil : s.locks.settlements txn.id txn.updates = [] :=
        Locks.settlements_of_not_holds fun p hp hh => hsome ⟨p, hp, hh⟩
      simp only [if_neg hsome, hnil]
      rfl
  | refusedBatch => rfl
  | @batch txn hv => exact execute_batch_unlocked (verdict_eq_prepared.1 hv).2

theorem ne_locked_of_serialize {e : Command × Outcome Output} (h : s.serialize c = some e) :
    e.2 ≠ .locked ∧ ∀ txn, e.1 = .prepareAndCommit txn → e.2 = .ok (.flag true) := by
  have hstep := step_execute s c
  unfold serialize at h
  generalize s.execute c = r at hstep h
  cases hstep with
  | commit txn =>
    simp only at h
    split at h
    · cases h
      exact ⟨nofun, fun _ _ => rfl⟩
    · cases h
  | batch hv =>
    cases h
    exact ⟨nofun, fun _ _ => rfl⟩
  | _ =>
    cases h <;> exact ⟨nofun, nofun⟩

theorem forall_serial {P : Command × Outcome Output → Prop}
    (h : ∀ s c e, serialize s c = some e → P e) : ∀ (cs : List Command) (s : State),
      ∀ e ∈ s.serial cs, P e
  | [], _, e, he => by cases he
  | c :: cs, s, e, he => by
    rcases List.mem_append.1 he with he | he
    · exact h s c e (Option.mem_toList.1 he)
    · exact forall_serial h cs _ e he

theorem run_serial {txns : List Transaction}
    (hsame : ∀ txn ∈ txns, ∀ other ∈ txns, other.id = txn.id → other = txn) :
    ∀ (cs : List Command) (s : State), (∀ c ∈ cs, ∀ txn, c.transaction? = some txn → txn ∈ txns) →
      (∀ txn ∈ txns, s.Settled txn) →
      s.unlocked.answers ((s.serial cs).map Prod.fst) = (s.serial cs).map Prod.snd
        ∧ s.unlocked.after ((s.serial cs).map Prod.fst) = (s.after cs).unlocked
  | [], s, _, _ => ⟨rfl, rfl⟩
  | c :: cs, s, hcs, hs => by
    have hc := hcs c List.mem_cons_self
    have hspec := serialize_spec fun txn ht => hs txn (hc txn ht)
    obtain ⟨ha, hz⟩ := run_serial hsame cs (s.execute c).2
      (fun d hd => hcs d (List.mem_cons_of_mem c hd)) fun txn ht =>
        (step_execute s c).settled (fun other ho => hsame txn ht other (hc other ho)) (hs txn ht)
    rw [serial]
    rcases hser : s.serialize c with _ | ⟨d, o⟩
    · rw [hser] at hspec
      simp only at hspec
      rw [hspec] at ha hz
      exact ⟨ha, hz⟩
    · rw [hser] at hspec
      simp only at hspec
      simp only [Option.toList_some, List.cons_append, List.nil_append, List.map_cons, answers,
        after_cons, hspec, ha, hz, and_self]

/-- If commands with one id are about one transaction, a run from the empty state comes to the same
as its serial history. There nothing is locked, every transaction is committed, and each command
gets the answer it had; the tables, their versions and the counters are the same in the end. -/
theorem serializable (cs : List Command)
    (hsame : ∀ c ∈ cs, ∀ d ∈ cs, ∀ txn other, c.transaction? = some txn →
      d.transaction? = some other → other.id = txn.id → other.updates = txn.updates) :
    let history := serial ∅ cs
    let serialRun := history.map Prod.fst
    answers ∅ serialRun = history.map Prod.snd
      ∧ (∀ e ∈ history, e.2 ≠ .locked)
      ∧ (∀ e ∈ history, ∀ txn, e.1 = .prepareAndCommit txn → e.2 = .ok (.flag true))
      ∧ (after ∅ serialRun).tables = (after ∅ cs).tables
      ∧ (after ∅ serialRun).counters = (after ∅ cs).counters := by
  intro history serialRun
  have hone : ∀ txn ∈ cs.filterMap Command.transaction?,
      ∀ other ∈ cs.filterMap Command.transaction?, other.id = txn.id → other = txn := by
    intro txn ht other ho hid
    obtain ⟨c, hc, hct⟩ := List.mem_filterMap.1 ht
    obtain ⟨d, hd, hdo⟩ := List.mem_filterMap.1 ho
    have hupd := hsame c hc d hd txn other hct hdo hid
    cases txn
    cases other
    cases hid
    cases hupd
    rfl
  have hmem : ∀ c ∈ cs, ∀ txn, c.transaction? = some txn → txn ∈ cs.filterMap Command.transaction? :=
    fun c hc txn ht => List.mem_filterMap.2 ⟨c, hc, ht⟩
  have hfree : ∀ txn ∈ cs.filterMap Command.transaction?, (∅ : State).Settled txn :=
    fun txn _ => .inr fun ⟨p, _, w, hw⟩ => by cases hw
  obtain ⟨ha, hz⟩ := run_serial hone cs ∅ hmem hfree
  have hz' : after ∅ serialRun = (after ∅ cs).unlocked := hz
  have hfacts := forall_serial (fun _ _ _ => ne_locked_of_serialize) cs ∅
  refine ⟨ha, fun e he => (hfacts e he).1, fun e he => (hfacts e he).2, ?_, ?_⟩
  · rw [hz']
    rfl
  · rw [hz']
    rfl

theorem serializable_interleaved :
    let one : Transaction := ⟨1, [⟨"t", "k", .putIfAbsent ⟨[1]⟩⟩, ⟨"t", "j", .put ⟨[2]⟩⟩]⟩
    let two : Transaction := ⟨2, [⟨"t", "k", .remove⟩, ⟨"u", "k", .put ⟨[3]⟩⟩]⟩
    let cs : List Command := [.prepare one, .prepare two, .write "t" "j" .remove,
      .write "u" "k" (.put ⟨[4]⟩), .commit one, .prepare two, .commit one, .commit two]
    (∀ c ∈ cs, ∀ d ∈ cs, ∀ txn other, c.transaction? = some txn → d.transaction? = some other →
        other.id = txn.id → other.updates = txn.updates)
      ∧ (after ∅ cs).tables = (after ∅ [.write "u" "k" (.put ⟨[4]⟩), .prepareAndCommit one,
        .prepareAndCommit two]).tables := by
  intro one two cs
  have hsame : ∀ c ∈ cs, ∀ d ∈ cs, ∀ txn other, c.transaction? = some txn →
      d.transaction? = some other → other.id = txn.id → other.updates = txn.updates := by
    have hmem : ∀ c ∈ cs, ∀ txn, c.transaction? = some txn → txn = one ∨ txn = two := by
      simp [cs, Command.transaction?]
    intro c hc d hd txn other ht ho hid
    rcases hmem c hc txn ht with rfl | rfl <;> rcases hmem d hd other ho with rfl | rfl
    · rfl
    · exact absurd hid (by decide)
    · exact absurd hid (by decide)
    · rfl
  have hserial : (serial ∅ cs).map Prod.fst = [.write "u" "k" (.put ⟨[4]⟩), .prepareAndCommit one,
      .prepareAndCommit two] := by decide
  obtain ⟨-, -, -, htables, -⟩ := serializable cs hsame
  rw [hserial] at htables
  exact ⟨hsame, htables.symm⟩

end Lockstep.State
