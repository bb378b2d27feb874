import Lockstep.Metrics.Basic
import Lockstep.Proofs.KeyOrder

/-!
# What metrics add up to

Metrics are what the calls on them come to: a counter is the sum of what was added under its name,
modulo 2^64, and a gauge is what its name was last set to (`Metrics.counter_after`,
`Metrics.gauge_after`). A call finds an entry for its name or makes one first, and comes to the same
either way (`Metrics.add_eq`, `Metrics.add_of_contains`). So the text of the metrics can be told
from the calls alone: it lists the names that were used, with these values
(`Metrics.told_by_calls`).
-/

namespace Lockstep

namespace Metrics

/-- A call on metrics. -/
inductive Call where
  | inc (name : String)
  | add (name : String) (n : UInt64)
  | set (name : String) (n : UInt64)
  deriving DecidableEq

namespace Call

/-- What the call adds under the name, if it does. -/
def added? (name : String) : Call → Option UInt64
  | inc t => if t = name then some 1 else none
  | add t n => if t = name then some n else none
  | set _ _ => none

/-- What the call sets the name to, if it does. -/
def set? (name : String) : Call → Option UInt64
  | set t n => if t = name then some n else none
  | inc _ | add _ _ => none

def isSet : Call → Bool
  | set _ _ => true
  | inc _ | add _ _ => false

end Call

def call (m : Metrics) : Call → Metrics
  | .inc name => m.inc name
  | .add name n => m.add name n
  | .set name n => m.set name n

def after (m : Metrics) (calls : List Call) : Metrics := calls.foldl call m

/-- All that the calls add under a name, in their order. -/
def additions (name : String) (calls : List Call) : List UInt64 :=
  calls.filterMap (Call.added? name)

/-- All that the calls set a name to, in their order. -/
def settings (name : String) (calls : List Call) : List UInt64 :=
  calls.filterMap (Call.set? name)

/-- The sum of all that the calls add under a name. -/
def total (name : String) (calls : List Call) : ℕ :=
  (additions name calls).foldr (fun n sum => n.toNat + sum) 0

theorem additions_cons (name : String) (c : Call) (calls : List Call) :
    additions name (c :: calls) = (c.added? name).toList ++ additions name calls := by
  rw [additions, List.filterMap_cons]
  rcases c.added? name with _ | n <;> rfl

theorem settings_cons (name : String) (c : Call) (calls : List Call) :
    settings name (c :: calls) = (c.set? name).toList ++ settings name calls := by
  rw [settings, List.filterMap_cons]
  rcases c.set? name with _ | n <;> rfl

theorem total_cons (name : String) (c : Call) (calls : List Call) :
    total name (c :: calls) = ((c.added? name).getD 0).toNat + total name calls := by
  rw [total, additions_cons]
  rcases c.added? name with _ | n
  · exact (Nat.zero_add _).symm
  · rfl

/-! ## One call -/

section Change

variable (values : OrdMap String UInt64) (name : String) (f : UInt64 → UInt64)

/-- A change comes to the same by the entry that is there or by one that is made for it. -/
theorem change_eq : change values name f = (values.insertIfNew name 0).modify name f := by
  unfold change
  split_ifs with h
  · rw [OrdMap.insertIfNew, if_pos h]
  · rfl

theorem get?_change (t : String) : (change values name f).get? t
    = if t = name then some (f ((values.get? name).getD 0)) else values.get? t := by
  rw [change_eq, OrdMap.modify_insertIfNew, OrdMap.get?_insert]

end Change

/-- To add is to change the entry for the name, which is made at 0 if there is none. -/
theorem add_eq (m : Metrics) (name : String) (n : UInt64) : m.add name n
    = { m with counters := (m.counters.insertIfNew name 0).modify name (· + n) } := by
  rw [add, change_eq]

theorem set_eq (m : Metrics) (name : String) (n : UInt64) : m.set name n
    = { m with gauges := (m.gauges.insertIfNew name 0).modify name fun _ => n } := by
  rw [set, change_eq]

/-- An entry that is there is changed where it stands. -/
theorem add_of_contains {m : Metrics} {name : String} (h : m.counters.contains name = true)
    (n : UInt64) : m.add name n = { m with counters := m.counters.modify name (· + n) } := by
  rw [add, change, if_pos h]

theorem set_of_contains {m : Metrics} {name : String} (h : m.gauges.contains name = true)
    (n : UInt64) : m.set name n = { m with gauges := m.gauges.modify name fun _ => n } := by
  rw [set, change, if_pos h]

section Step

variable (m : Metrics) (c : Call) (name : String)

theorem get?_counters_call : (m.call c).counters.get? name
    = ((c.added? name).map (m.counter name + ·)).or (m.counters.get? name) := by
  cases c with
  | set t n => rfl
  | inc t | add t n =>
    simp only [call, inc, add, get?_change, Call.added?]
    by_cases h : name = t
    · subst h
      simp [counter]
    · simp [h, Ne.symm h]

theorem get?_gauges_call :
    (m.call c).gauges.get? name = (c.set? name).or (m.gauges.get? name) := by
  cases c with
  | inc t | add t n => rfl
  | set t n =>
    simp only [call, set, get?_change, Call.set?]
    by_cases h : name = t
    · subst h
      simp
    · simp [h, Ne.symm h]

theorem counter_call : (m.call c).counter name = m.counter name + (c.added? name).getD 0 := by
  rw [counter, get?_counters_call]
  rcases c.added? name with _ | n
  · exact (UInt64.add_zero _).symm
  · rfl

theorem gauge_call : (m.call c).gauge name = (c.set? name).getD (m.gauge name) := by
  rw [gauge, get?_gauges_call]
  rcases c.set? name with _ | n <;> rfl

theorem contains_counters_call : (m.call c).counters.contains name
    = (m.counters.contains name || (c.added? name).isSome) := by
  rw [OrdMap.contains, get?_counters_call, Option.isSome_or, Option.isSome_map, Bool.or_comm]
  rfl

theorem contains_gauges_call : (m.call c).gauges.contains name
    = (m.gauges.contains name || (c.set? name).isSome) := by
  rw [OrdMap.contains, get?_gauges_call, Option.isSome_or, Bool.or_comm]
  rfl

end Step

/-! ## Runs -/

theorem counter_after (name : String) : ∀ (calls : List Call) (m : Metrics),
    (m.after calls).counter name = m.counter name + .ofNat (total name calls)
  | [], m => (UInt64.add_zero _).symm
  | c :: calls, m => by
    refine (counter_after name calls (m.call c)).trans ?_
    rw [counter_call, total_cons, UInt64.ofNat_add, UInt64.ofNat_toNat, UInt64.add_assoc]

theorem toNat_counter_after (name : String) (calls : List Call) :
    ((after ∅ calls).counter name).toNat = total name calls % UInt64.size := by
  have hsum : (after ∅ calls).counter name = .ofNat (total name calls) :=
    (counter_after name calls ∅).trans (UInt64.zero_add _)
  rw [hsum]
  exact UInt64.toNat_ofNat'

theorem gauge_after (name : String) : ∀ (calls : List Call) (m : Metrics),
    (m.after calls).gauge name = (settings name calls).getLast?.getD (m.gauge name)
  | [], m => rfl
  | c :: calls, m => by
    refine (gauge_after name calls (m.call c)).trans ?_
    rw [gauge_call, settings_cons, List.getLast?_append]
    rcases (settings name calls).getLast? with _ | v
    · rcases c.set? name with _ | n <;> rfl
    · rfl

theorem contains_counters_after (name : String) : ∀ (calls : List Call) (m : Metrics),
    (m.after calls).counters.contains name = true
      ↔ m.counters.contains name = true ∨ additions name calls ≠ []
  | [], m => by simp [after, additions]
  | c :: calls, m => by
    refine (contains_counters_after name calls (m.call c)).trans ?_
    rw [contains_counters_call, additions_cons]
    rcases c.added? name with _ | n <;> simp

theorem contains_gauges_after (name : String) : ∀ (calls : List Call) (m : Metrics),
    (m.after calls).gauges.contains name = true
      ↔ m.gauges.contains name = true ∨ settings name calls ≠ []
  | [], m => by simp [after, settings]
  | c :: calls, m => by
    refine (contains_gauges_after name calls (m.call c)).trans ?_
    rw [contains_gauges_call, settings_cons]
    rcases c.set? name with _ | n <;> simp

/-- The counters of a run are those of its additions alone. -/
theorem counters_after_filter : ∀ (calls : List Call) (m m' : Metrics), m.counters = m'.counters →
    (m.after calls).counters = (m'.after (calls.filter fun c => !c.isSet)).counters
  | [], _, _, h => h
  | .set t n :: calls, m, m', h => counters_after_filter calls (m.set t n) m' h
  | .inc t :: calls, m, m', h => by
    refine counters_after_filter calls (m.inc t) (m'.inc t) ?_
    simp only [inc, add, h]
  | .add t n :: calls, m, m', h => by
    refine counters_after_filter calls (m.add t n) (m'.add t n) ?_
    simp only [add, h]

/-- The gauges of a run are those of its settings alone. -/
theorem gauges_after_filter : ∀ (calls : List Call) (m m' : Metrics), m.gauges = m'.gauges →
    (m.after calls).gauges = (m'.after (calls.filter Call.isSet)).gauges
  | [], _, _, h => h
  | .inc t :: calls, m, m', h => gauges_after_filter calls (m.inc t) m' h
  | .add t n :: calls, m, m', h => gauges_after_filter calls (m.add t n) m' h
  | .set t n :: calls, m, m', h => by
    refine gauges_after_filter calls (m.set t n) (m'.set t n) ?_
    simp only [set, h]

/-! ## The text -/

theorem text_eq (m : Metrics) : m.text
    = String.join (m.counters.keys.map fun n => family "counter" (n, m.counter n))
      ++ String.join (m.gauges.keys.map fun n => family "gauge" (n, m.gauge n)) := by
  have hcounters := m.counters.entries_eq_map_keys m.counter fun n a h => by
    rw [counter, h, Option.getD_some]
  have hgauges := m.gauges.entries_eq_map_keys m.gauge fun n a h => by
    rw [gauge, h, Option.getD_some]
  rw [text, hcounters, hgauges, List.map_map, List.map_map]
  rfl

/-- Whatever calls are made on new metrics, a counter is the sum of what they add under its name,
modulo 2^64, and a gauge is what they last set it to, or 0. Counters and gauges have nothing to do
with each other, and a call comes to the same by the entry that is there or by one that is made for
it at 0. The text is two lines for each counter that was named, if only to add 0, and then for each
gauge that was set, both in the order of the bytes of the names, which are shown with an underscore
for each point. -/
theorem told_by_calls (calls : List Call) :
    let m := after ∅ calls
    let shown (name : String) := String.ofList (name.toList.map fun c => if c = '.' then '_' else c)
    let lines (type name : String) (value : ℕ) := "# TYPE " ++ shown name ++ " " ++ type ++ "\n"
      ++ shown name ++ " " ++ toString value ++ "\n"
    (∀ name, (m.counter name).toNat = total name calls % UInt64.size
        ∧ m.gauge name = (settings name calls).getLast?.getD 0)
      ∧ (m.counters = (after ∅ (calls.filter fun c => !c.isSet)).counters
        ∧ m.gauges = (after ∅ (calls.filter Call.isSet)).gauges)
      ∧ (∀ (m : Metrics) name n,
        m.add name n = { m with counters := (m.counters.insertIfNew name 0).modify name (· + n) }
          ∧ m.set name n = { m with gauges := (m.gauges.insertIfNew name 0).modify name fun _ => n }
          ∧ (m.counters.contains name = true →
            m.add name n = { m with counters := m.counters.modify name (· + n) })
          ∧ (m.gauges.contains name = true →
            m.set name n = { m with gauges := m.gauges.modify name fun _ => n }))
      ∧ ∃ counters gauges : List String,
        (counters.Pairwise fun s t => Text.utf8 s < Text.utf8 t)
          ∧ (∀ name, name ∈ counters ↔ additions name calls ≠ [])
          ∧ (gauges.Pairwise fun s t => Text.utf8 s < Text.utf8 t)
          ∧ (∀ name, name ∈ gauges ↔ settings name calls ≠ [])
          ∧ m.text
            = String.join (counters.map fun name =>
                lines "counter" name (total name calls % UInt64.size))
              ++ String.join (gauges.map fun name =>
                lines "gauge" name ((settings name calls).getLast?.getD 0).toNat) := by
  intro m shown lines
  have hcounter (name : String) := toNat_counter_after name calls
  have hgauge (name : String) : m.gauge name = (settings name calls).getLast?.getD 0 :=
    gauge_after name calls ∅
  refine ⟨fun name => ⟨hcounter name, hgauge name⟩,
    ⟨counters_after_filter calls ∅ ∅ rfl, gauges_after_filter calls ∅ ∅ rfl⟩,
    fun m name n => ⟨m.add_eq name n, m.set_eq name n, fun h => add_of_contains h n,
      fun h => set_of_contains h n⟩,
    m.counters.keys, m.gauges.keys, m.counters.keys_pairwise_utf8, fun name => ?_,
    m.gauges.keys_pairwise_utf8, fun name => ?_, ?_⟩
  · rw [OrdMap.mem_keys, contains_counters_after]
    exact or_iff_right Bool.false_ne_true
  · rw [OrdMap.mem_keys, contains_gauges_after]
    exact or_iff_right Bool.false_ne_true
  · simp only [text_eq, ← hcounter, ← hgauge]
    rfl

theorem told_by_calls_wrapping :
    let calls : List Call := [.inc "a.b", .set "a.b" 5, .add "z" 0, .add "a.b" 18446744073709551615,
      .inc "a.b", .set "a.b" 7]
    let m := after ∅ calls
    (m.counter "a.b").toNat = 1 ∧ m.gauge "a.b" = 7
      ∧ m.counters.contains "z" = true
      ∧ m.add "z" 2 = { m with counters := m.counters.modify "z" (· + 2) }
      ∧ m.gauges.contains "a.b" = true
      ∧ m.set "a.b" 2 = { m with gauges := m.gauges.modify "a.b" fun _ => 2 }
      ∧ m.text = "# TYPE a_b counter\na_b 1\n# TYPE z counter\nz 0\n# TYPE a_b gauge\na_b 7\n" := by
  intro calls m
  obtain ⟨hvalues, -, hpaths, -⟩ := told_by_calls calls
  obtain ⟨hcounter, hgauge⟩ := hvalues "a.b"
  obtain ⟨-, -, hadd, -⟩ := hpaths m "z" 2
  obtain ⟨-, -, -, hset⟩ := hpaths m "a.b" 2
  have hcounters : m.counters.contains "z" = true := by decide
  have hgauges : m.gauges.contains "a.b" = true := by decide
  exact ⟨hcounter.trans (by decide), hgauge.trans (by decide), hcounters, hadd hcounters, hgauges,
    hset hgauges, by decide⟩

end Metrics

end Lockstep
