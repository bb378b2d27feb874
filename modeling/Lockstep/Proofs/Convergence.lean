import Lockstep.Proofs.Entries
import Lockstep.Proofs.RoundTrip
import Lockstep.Proofs.Versions

/-!
# Replicas in step

Two replicas that apply the same entries give the same answers and go through the same states, even
if the second is now and then replaced by one that took up a snapshot of the first
(`replicas_converge`).

Replicas stay in step as long as they agree on what an answer depends on. A snapshot carries that
from one to the other, for the states a replica goes through can be taken up again
(`Sound.applies`).
-/

namespace Lockstep.Replica

variable {a b : Replica} {config : Config}

/-- The state can be taken up again once its version counter leaves room for that. -/
structure Sound (s : State) : Prop where
  coherent : s.locks.Coherent
  bounded : s.tables.Bounded

/-- A command that the entry has executed does not exhaust the version counter. -/
def HasRoom (r : Replica) (index : UInt64) (payload : Bytes) : Prop :=
  ∀ c ∈ (Command.decode payload).toOption, r.lastApplied < index → r.isOversized c = false →
    r.state.tables.nextVersion.toNat + (r.state.puts c).length < UInt64.size

instance (r : Replica) (index : UInt64) (payload : Bytes) : Decidable (r.HasRoom index payload) :=
  inferInstanceAs (Decidable (∀ c ∈ (Command.decode payload).toOption, _))

theorem Sound.applies {index : UInt64} {payload : Bytes} {x : Except Error Applied × Replica}
    (hs : Sound a.state) (h : Applies a index payload x) (hroom : a.HasRoom index payload) :
    Sound x.2.state := by
  cases h with
  | @executed c hd hi ho =>
    have hfits := hroom c (by rw [hd]; rfl) hi ho
    exact ⟨(State.step_execute a.state c).coherent hs.coherent,
      (State.stamped_execute a.state c).bounded hs.bounded hfits⟩
  | _ => exact hs

/-- Another version can be handed out, and the lengths in the state fit in eight bytes, as those of
all that a machine holds do. -/
def Restorable (r : Replica) : Prop :=
  r.state.tables.nextVersion.toNat + 1 < UInt64.size ∧ Wire.LawfulWire.fits r.snapshot.1 = true

instance (r : Replica) : Decidable r.Restorable := inferInstanceAs (Decidable (_ ∧ _))

theorem restore_decoded (h : Sound a.state) (hr : a.Restorable) :
    Snapshot.decode (Wire.encode a.snapshot.1) = .ok a.snapshot.1
      ∧ State.restore a.snapshot.1 = .ok a.state := by
  have hdecode := Snapshot.decode_encode hr.2 []
  rw [List.append_nil] at hdecode
  exact ⟨hdecode, State.restore_snapshot h.coherent h.bounded (Nat.ne_of_lt hr.1) a.lastApplied⟩

inductive Move where
  /-- Both apply an entry. -/
  | entry (index : UInt64) (payload : Bytes)
  | snapshotFirst
  | snapshotSecond
  /-- A new replica that starts from a snapshot of the first replaces the second. -/
  | rebuild
  /-- Another replica that installs a snapshot of the first replaces the second. -/
  | install (other : Replica)

namespace Move

/-- What becomes of the first replica. -/
def first (a : Replica) : Move → Replica
  | entry index payload => (a.applyEncoded index payload).2
  | snapshotSecond => a
  | snapshotFirst | rebuild | install _ => a.snapshot.2

/-- What becomes of the second replica. A new one gets the configuration. -/
def second (config : Config) (a b : Replica) : Move → Except Error Replica
  | entry index payload => .ok (b.applyEncoded index payload).2
  | snapshotFirst => .ok b
  | snapshotSecond => .ok b.snapshot.2
  | rebuild => do ofSnapshot config (← Snapshot.decode (Wire.encode a.snapshot.1))
  | install other =>
    let (result, b) := other.install (Wire.encode a.snapshot.1)
    result.map fun _ => b

def answers (a b : Replica) : Move → Option (Except Error Applied × Except Error Applied)
  | entry index payload => some ((a.applyEncoded index payload).1, (b.applyEncoded index payload).1)
  | _ => none

/-- What is asked of a move, in view of the first replica. -/
def Fair (config : Config) (a : Replica) : Move → Prop
  | entry index payload => a.HasRoom index payload
  | snapshotFirst | snapshotSecond => True
  | rebuild => a.Restorable
  | install other => other.config = config ∧ a.Restorable

instance (config : Config) (a : Replica) : ∀ m : Move, Decidable (m.Fair config a)
  | entry index payload => inferInstanceAs (Decidable (a.HasRoom index payload))
  | snapshotFirst | snapshotSecond => .isTrue trivial
  | rebuild => inferInstanceAs (Decidable a.Restorable)
  | install other => inferInstanceAs (Decidable (other.config = config ∧ a.Restorable))

end Move

/-- All moves are fair where they are made. -/
def Fair (config : Config) (a : Replica) : List Move → Prop
  | [] => True
  | m :: ms => m.Fair config a ∧ Fair config (m.first a) ms

instance decidableFair (config : Config) :
    ∀ (ms : List Move) (a : Replica), Decidable (Fair config a ms)
  | [], _ => .isTrue trivial
  | m :: ms, a =>
    have := decidableFair config ms (m.first a)
    inferInstanceAs (Decidable (m.Fair config a ∧ Fair config (m.first a) ms))

/-- The two replicas after the moves, with their answers to the entries. -/
def sideBySide (config : Config) (a b : Replica) : List Move →
    Except Error (List (Except Error Applied × Except Error Applied) × Replica × Replica)
  | [] => .ok ([], a, b)
  | m :: ms => do
    let b' ← m.second config a b
    let (log, ends) ← sideBySide config (m.first a) b' ms
    return ((m.answers a b).toList ++ log, ends)

/-- The first replica's state can be taken up, and the second, which has the given configuration,
agrees with the first. -/
structure InStep (config : Config) (a b : Replica) : Prop where
  sound : Sound a.state
  agree : Agree a b
  config : b.config = config

theorem InStep.snapshotFirst (h : InStep config a b) : InStep config a.snapshot.2 b :=
  ⟨h.sound, ⟨h.agree.state, h.agree.lastApplied, h.agree.limit⟩, h.config⟩

theorem InStep.move (h : InStep config a b) {m : Move} (hm : m.Fair config a) :
    ∃ b', m.second config a b = .ok b' ∧ (∀ x ∈ m.answers a b, x.1 = x.2)
      ∧ InStep config (m.first a) b' := by
  cases m with
  | entry index payload =>
    obtain ⟨hanswer, hagree⟩ := h.agree.applyEncoded index payload
    refine ⟨_, rfl, fun x hx => ?_, h.sound.applies (applies_applyEncoded a index payload) hm,
      hagree, (applies_applyEncoded b index payload).config.trans h.config⟩
    cases hx
    exact hanswer
  | snapshotFirst => exact ⟨_, rfl, fun _ hx => (by cases hx), h.snapshotFirst⟩
  | snapshotSecond =>
    exact ⟨_, rfl, fun _ hx => (by cases hx), h.sound,
      ⟨h.agree.state, h.agree.lastApplied, h.agree.limit⟩, h.config⟩
  | rebuild =>
    obtain ⟨hdecode, hrestore⟩ := restore_decoded h.sound hm
    refine ⟨ofState config a.state a.lastApplied, ?_, fun _ hx => (by cases hx), h.sound,
      ⟨rfl, rfl, ?_⟩, rfl⟩
    · simp only [Move.second, hdecode, bind, Except.bind, ofSnapshot, hrestore]
      rfl
    · exact h.agree.limit.trans (congrArg _ h.config)
  | install other =>
    obtain ⟨hother, hr⟩ := hm
    obtain ⟨hdecode, hrestore⟩ := restore_decoded h.sound hr
    refine ⟨{ other with
      state := a.state, lastApplied := a.lastApplied, sinceSnapshot := 0 }, ?_,
      fun _ hx => (by cases hx), h.sound, ⟨rfl, rfl, ?_⟩, hother⟩
    · simp only [Move.second, install, hdecode, hrestore]
      rfl
    · exact h.agree.limit.trans (congrArg _ (h.config.trans hother.symm))

theorem InStep.sideBySide : ∀ {ms : List Move} {a b : Replica}, InStep config a b →
    Fair config a ms → ∃ log a' b', sideBySide config a b ms = .ok (log, a', b')
      ∧ (∀ x ∈ log, x.1 = x.2) ∧ InStep config a' b'
  | [], a, b, h, _ => ⟨[], a, b, rfl, nofun, h⟩
  | m :: ms, a, b, h, hm => by
    obtain ⟨b', hb, hanswers, h'⟩ := h.move hm.1
    obtain ⟨log, a'', b'', hrun, hlog, h''⟩ := h'.sideBySide hm.2
    refine ⟨(m.answers a b).toList ++ log, a'', b'', ?_, fun x hx => ?_, h''⟩
    · rw [Replica.sideBySide, hb]
      simp only [bind, Except.bind, hrun]
      rfl
    · rcases List.mem_append.1 hx with hx | hx
      · exact hanswers x (Option.mem_toList.1 hx)
      · exact hlog x hx

theorem inStep_new (config config' : Config)
    (hlimit : config'.maxTransactionUpdates = config.maxTransactionUpdates) :
    InStep config' (new config) (new config') where
  sound := ⟨State.Start.empty.coherent, State.Start.empty.bounded⟩
  agree := ⟨rfl, rfl, hlimit.symm⟩
  config := rfl

theorem Fair.take : ∀ (n : ℕ) {ms : List Move} {a : Replica}, Fair config a ms →
    Fair config a (ms.take n)
  | 0, _, _, _ => trivial
  | _ + 1, [], _, h => h
  | n + 1, _ :: _, _, h => ⟨h.1, h.2.take n⟩

/-- Two replicas with one limit on transactions, from the beginning of the log on: as long as the
version counter is not exhausted, all snapshots are taken up, both answer every entry alike, and
after each move their states and their last indices are the same. -/
theorem replicas_converge (config config' : Config)
    (hlimit : config'.maxTransactionUpdates = config.maxTransactionUpdates) (moves : List Move)
    (hfair : Fair config' (new config) moves) (n : ℕ) :
    ∃ log a b, sideBySide config' (new config) (new config') (moves.take n) = .ok (log, a, b)
      ∧ (∀ x ∈ log, x.1 = x.2) ∧ a.state = b.state ∧ a.lastApplied = b.lastApplied := by
  obtain ⟨log, a, b, hrun, hlog, h⟩ := (inStep_new config config' hlimit).sideBySide
    (hfair.take n)
  exact ⟨log, a, b, hrun, hlog, h.agree.state, h.agree.lastApplied⟩

theorem replicas_converge_restored :
    let config : Config := { maxTransactionUpdates := 2 }
    let config' : Config := { config with partitionId := "other", intervalEntries := 1 }
    let txn : Transaction := ⟨7, [⟨"t", "j", .put ⟨[2]⟩⟩, ⟨"t", "k", .removeIfVersion 1⟩]⟩
    let spare : Replica := ⟨config', ∅, ∅, 90, 5⟩
    let moves : List Move := [.entry 1 (Wire.encode (Command.write "t" "k" (.put ⟨[1]⟩))),
      .entry 3 (Wire.encode (Command.prepare txn)), .snapshotSecond, .entry 3 [255],
      .install spare, .entry 2 (Wire.encode (Command.clear "t")),
      .entry 5 (Wire.encode (Command.clear "t")), .rebuild,
      .entry 6 (Wire.encode (Command.commit txn))]
    Fair config' (new config) moves
      ∧ ∃ log a b, sideBySide config' (new config) (new config') moves = .ok (log, a, b)
        ∧ (∀ x ∈ log, x.1 = x.2) ∧ a.state = b.state ∧ a.lastApplied = b.lastApplied := by
  intro config config' txn spare moves
  have hfair : Fair config' (new config) moves := by decide
  exact ⟨hfair, replicas_converge config config' rfl moves hfair 9⟩

end Lockstep.Replica
