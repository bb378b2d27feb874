import Lockstep.Proofs.Footprint
import Lockstep.Proofs.KeyOrder

/-!
# Counters over runs

A counter goes up by one with each command that asks for its next value, and no other command moves
it (`Step.value_eq`). So whatever else a run does, a counter stands at the value it had at the start
and the number of these commands so far, wrapped to what fits in it, and that is what the run
answers. The counters listed are those there were and those that were named, be it by a read
(`counters_count`).
-/

namespace Lockstep

namespace State

/-- Where a counter would stand after the commands if nothing wrapped. -/
def tally (start : OrdMap String Int64) (cs : List Command) (name : String) : Int :=
  ((start.get? name).getD 0).toInt + cs.count (.nextValue name)

/-- States to start from, and the counters they start with. -/
inductive StartsWith : State → OrdMap String Int64 → Prop
  | empty : StartsWith ∅ ∅
  | adopted {c : Context} {s : State} (h : ofContext c = .ok s) :
    StartsWith s (c.counters.getD ∅)

variable {s : State} {c : Command} {r : Outcome Output × State} {name : String}

theorem StartsWith.values_eq {start : OrdMap String Int64} (h : StartsWith s start) :
    s.counters.values = start := by
  cases h with
  | empty => rfl
  | adopted h => rw [(ofContext_eq_ok.1 h).1]

/-! ## One command -/

theorem Step.value_eq (h : Step s c r) (name : String) : r.2.counters.value name
    = s.counters.value name + if c = .nextValue name then 1 else 0 := by
  cases h with
  | nextValue other =>
    simp only [Counters.value, Counters.next, OrdMap.get?_insert, Command.nextValue.injEq]
    by_cases hn : name = other
    · rw [if_pos hn, if_pos hn.symm, hn]
      rfl
    · rw [if_neg hn, if_neg (Ne.symm hn), Int64.add_zero]
  | currentValue other =>
    simp only [Counters.value, Counters.current, OrdMap.get?_insert, reduceCtorEq, if_false,
      Int64.add_zero]
    split_ifs with hn
    · rw [hn]
      rfl
    · rfl
  | _ => exact (Int64.add_zero _).symm

theorem Step.contains_counter (h : Step s c r) (name : String) :
    r.2.counters.values.contains name = true ↔
      s.counters.values.contains name = true ∨ c.counter? = some name := by
  cases h with
  | nextValue other | currentValue other =>
    simp only [Counters.next, Counters.current, OrdMap.contains, OrdMap.get?_insert,
      Command.counter?, Option.some.injEq]
    split_ifs with hn
    · simp [hn]
    · simp [Ne.symm hn]
  | _ => exact (or_iff_left (by simp [Command.counter?])).symm

/-! ## Runs -/

theorem value_after (name : String) : ∀ (cs : List Command) (s : State),
    (s.after cs).counters.value name
      = s.counters.value name + Int64.ofInt (cs.count (.nextValue name))
  | [], s => (Int64.add_zero _).symm
  | c :: cs, s => by
    rw [after_cons, value_after name cs, (step_execute s c).value_eq, List.count_cons,
      Int.natCast_add, Int64.ofInt_add, Int64.add_assoc, Int64.add_comm (Int64.ofInt _)]
    simp only [beq_iff_eq]
    split_ifs <;> rfl

theorem contains_counter_after (name : String) : ∀ (cs : List Command) (s : State),
    (s.after cs).counters.values.contains name = true ↔
      s.counters.values.contains name = true ∨ ∃ c ∈ cs, c.counter? = some name
  | [], s => by simp
  | c :: cs, s => by
    rw [after_cons, contains_counter_after name cs, (step_execute s c).contains_counter,
      List.exists_mem_cons_iff, or_assoc]

theorem toInt_value_after (s : State) (cs : List Command) (name : String) :
    ((s.after cs).counters.value name).toInt = (tally s.counters.values cs name).bmod Int64.size := by
  rw [value_after, Int64.toInt_add, Int64.toInt_ofInt]
  exact Int.add_bmod_bmod

theorem getElem?_answers : ∀ (cs : List Command) (s : State) (i : Nat),
    (s.answers cs)[i]? = cs[i]?.map fun c => ((s.after (cs.take i)).execute c).1
  | [], _, _ => rfl
  | _ :: _, _, 0 => rfl
  | c :: cs, s, i + 1 => getElem?_answers cs (s.execute c).2 i

theorem answer_at {cs : List Command} {i : Nat} (h : cs[i]? = some c) :
    (s.answers cs)[i]? = some ((s.after (cs.take i)).execute c).1 := by
  rw [getElem?_answers, h]
  rfl

/-- The new value that a command answers with is the one the counter has after it. -/
theorem toInt_next (s : State) (cs : List Command) (name : String) :
    ((s.after cs).counters.next name).1.toInt
      = (tally s.counters.values (cs ++ [.nextValue name]) name).bmod Int64.size := by
  rw [← toInt_value_after, after_concat, (step_execute _ _).value_eq, if_pos rfl]
  rfl

theorem mem_entries_after (s : State) (cs : List Command) (name : String) (x : Int64) :
    (name, x) ∈ (s.after cs).counters.values.entries ↔
      (s.counters.values.contains name = true ∨ ∃ c ∈ cs, c.counter? = some name)
        ∧ x.toInt = (tally s.counters.values cs name).bmod Int64.size := by
  rw [OrdMap.mem_entries_iff, ← contains_counter_after, ← toInt_value_after, Int64.toInt_inj,
    Counters.value, OrdMap.contains]
  rcases (s.after cs).counters.values.get? name with _ | y
  · simp
  · simp [eq_comm]

/-- In a run from counters there are at the start, the next value of a counter is what it started
with and the number of times its next value was asked for, this time included; its current value is
the same without this time. Both are wrapped to signed numbers of 64 bits, and nothing else that the
run does matters to them. At any time the counters listed are those there were at the start and
those that were named, in the order of the bytes of their names and with these values. -/
theorem counters_count {start : OrdMap String Int64} (h : StartsWith s start) (cs : List Command)
    (i : Nat) :
    let listed := (s.after (cs.take i)).counters.values
    (∀ name, cs[i]? = some (.nextValue name) →
      ∃ x, (s.answers cs)[i]? = some (.ok (.counter x))
        ∧ x.toInt = (tally start (cs.take (i + 1)) name).bmod Int64.size)
      ∧ (∀ name, cs[i]? = some (.currentValue name) →
        ∃ x, (s.answers cs)[i]? = some (.ok (.counter x))
          ∧ x.toInt = (tally start (cs.take i) name).bmod Int64.size)
      ∧ (cs[i]? = some (.query .counters) →
        (s.answers cs)[i]? = some (.ok (.counters listed)))
      ∧ (listed.entries.Pairwise fun a b => Text.utf8 a.1 < Text.utf8 b.1)
      ∧ ∀ name x, (name, x) ∈ listed.entries ↔
        (start.contains name = true ∨ ∃ c ∈ cs.take i, c.counter? = some name)
          ∧ x.toInt = (tally start (cs.take i) name).bmod Int64.size := by
  intro listed
  obtain rfl := h.values_eq
  refine ⟨fun name hc => ⟨_, answer_at hc, ?_⟩, fun name hc => ⟨_, answer_at hc, ?_⟩,
    answer_at, OrdMap.entries_pairwise_utf8 _, mem_entries_after s _⟩
  · rw [List.take_add_one, hc]
    exact toInt_next s _ name
  · exact toInt_value_after s _ name

theorem counters_count_wrapping :
    let c : Context := { counters := some (.ofList [("m", 9223372036854775807)]) }
    let s : State := ⟨⟨.ofList [("m", 9223372036854775807)]⟩, ∅, ∅⟩
    let txn : Transaction := ⟨7, [⟨"m", "k", .put ⟨[1]⟩⟩]⟩
    let cs : List Command := [.nextValue "m", .prepare txn, .nextValue "a", .clear "m",
      .nextValue "m", .currentValue "z", .commit txn, .query .counters]
    ofContext c = .ok s
      ∧ (s.answers cs)[0]? = some (.ok (.counter (-9223372036854775808)))
      ∧ (s.answers cs)[4]? = some (.ok (.counter (-9223372036854775807)))
      ∧ (s.answers cs)[5]? = some (.ok (.counter 0))
      ∧ (s.after (cs.take 7)).counters.values.entries
        = [("a", 1), ("m", -9223372036854775807), ("z", 0)] := by
  intro c s txn cs
  have hs : ofContext c = .ok s := by decide
  have hstart : StartsWith s (c.counters.getD ∅) := .adopted hs
  obtain ⟨hfirst, -⟩ := counters_count hstart cs 0
  obtain ⟨hsecond, -⟩ := counters_count hstart cs 4
  obtain ⟨-, hread, -⟩ := counters_count hstart cs 5
  obtain ⟨x, hx, hmin⟩ := hfirst "m" rfl
  obtain ⟨y, hy, hnext⟩ := hsecond "m" rfl
  obtain ⟨z, hz, hzero⟩ := hread "z" rfl
  obtain rfl : x = -9223372036854775808 := Int64.toInt_inj.1 (hmin.trans (by decide))
  obtain rfl : y = -9223372036854775807 := Int64.toInt_inj.1 (hnext.trans (by decide))
  obtain rfl : z = 0 := Int64.toInt_inj.1 (hzero.trans (by decide))
  exact ⟨hs, hx, hy, hz, by decide⟩

end State

end Lockstep
