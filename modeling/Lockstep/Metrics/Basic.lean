import Lockstep.OrdMap.Basic

/-!
# Metrics

Counters, which only add up and wrap at 2^64, and gauges, which hold what was last set. The two
have names of their own: a counter and a gauge of one name are apart. A name is listed once it has
been used, be it to add 0.
-/

namespace Lockstep

structure Metrics where
  counters : OrdMap String UInt64
  gauges : OrdMap String UInt64
  deriving DecidableEq, Inhabited

namespace Metrics

instance : EmptyCollection Metrics := ⟨⟨∅, ∅⟩⟩

/-- A counter never added to stands at 0. -/
def counter (m : Metrics) (name : String) : UInt64 := (m.counters.get? name).getD 0

/-- A gauge never set stands at 0. -/
def gauge (m : Metrics) (name : String) : UInt64 := (m.gauges.get? name).getD 0

/-- Changes the value of a name where it stands. A name that is new is listed at 0 first. -/
def change (values : OrdMap String UInt64) (name : String) (f : UInt64 → UInt64) :
    OrdMap String UInt64 :=
  if values.contains name then values.modify name f
  else (values.insertIfNew name 0).modify name f

def add (m : Metrics) (name : String) (n : UInt64) : Metrics :=
  { m with counters := change m.counters name (· + n) }

def inc (m : Metrics) (name : String) : Metrics := m.add name 1

def set (m : Metrics) (name : String) (n : UInt64) : Metrics :=
  { m with gauges := change m.gauges name fun _ => n }

/-- A name as it is exported, with an underscore for each point. -/
def exportedName (name : String) : String :=
  String.ofList (name.toList.map fun c => if c = '.' then '_' else c)

/-- The lines of one metric: its type and its value. -/
def family (type : String) (metric : String × UInt64) : String :=
  let name := exportedName metric.1
  "# TYPE " ++ name ++ " " ++ type ++ "\n" ++ name ++ " " ++ toString metric.2.toNat ++ "\n"

/-- All counters, then all gauges, each by name. -/
def text (m : Metrics) : String :=
  String.join (m.counters.entries.map (family "counter"))
    ++ String.join (m.gauges.entries.map (family "gauge"))

end Metrics

end Lockstep
