import Lockstep.OrdMap.Count
import Lockstep.Proofs.Adoption
import Lockstep.Proofs.KeyOrder
import Lockstep.Proofs.Listing
import Lockstep.Proofs.Preparation

/-!
# Tables as one flat map

Apart from how they are kept, tables are a partial map from keys to entries, a set of names and a
number (`Flat`). Each write to tables, and each clear, is a change to these three that can be told
without maps of maps (`Flat.call`), and answers what it would there (`Tables.call_flat`), so whole
runs can be told by it.

All that can be read of tables is read off the flat map: the listing of a table has just its
entries, in the order of the bytes of their keys, and all other readings agree with the listing
(`Tables.flat_map_kept`).
-/

namespace Lockstep

/-- Entries by key, the tables listed, and the last version handed out. -/
@[ext]
structure Flat where
  entry : Place → Option Versioned
  listed : Set String
  nextVersion : UInt64

/-- A write to tables: to one key, or a clear of all keys of a table. -/
inductive Tables.Call where
  | write (table key : String) (w : KeyWrite)
  | clear (table : String)
  deriving DecidableEq

namespace Flat

instance : EmptyCollection Flat := ⟨⟨fun _ => none, ∅, 0⟩⟩

/-- The flat map of stored tables. -/
def ofParts (tables : OrdMap String Table) (n : UInt64) : Flat where
  entry p := (tables.get? p.1).bind (·.get? p.2)
  listed := {t | tables.contains t = true}
  nextVersion := n

variable (f : Flat)

def touch (t : String) : Flat := { f with listed := insert t f.listed }

def put (p : Place) (v : Value) : Flat where
  entry := Function.update f.entry p (some ⟨v, f.nextVersion + 1⟩)
  listed := insert p.1 f.listed
  nextVersion := f.nextVersion + 1

def remove (p : Place) : Flat :=
  { f with entry := Function.update f.entry p none, listed := insert p.1 f.listed }

def clear (t : String) : Flat :=
  { f with entry := fun p => if p.1 = t then none else f.entry p, listed := insert t f.listed }

/-- The change is made if there is an entry and it passes the test, and is told whether it was. -/
def changeIf (p : Place) (passes : Versioned → Bool) (change : Flat → Flat) : Output × Flat :=
  match f.entry p with
  | some e => if passes e then (.flag true, change f) else (.flag false, f.touch p.1)
  | none => (.flag false, f.touch p.1)

def write (p : Place) : KeyWrite → Output × Flat
  | .put v => (.value (f.entry p), f.put p v)
  | .putIfAbsent v =>
    match f.entry p with
    | some e => (.value (some e), f)
    | none => (.value none, f.put p v)
  | .remove => (.value (f.entry p), f.remove p)
  | .removeIfValue v => f.changeIf p (·.value.bytes = v.bytes) (·.remove p)
  | .removeIfVersion n => f.changeIf p (·.version = n) (·.remove p)
  | .replaceValue old new => f.changeIf p (·.value.bytes = old.bytes) (·.put p new)
  | .replaceVersion old new => f.changeIf p (·.version = old) (·.put p new)

def call : Tables.Call → Output × Flat
  | .write t k w => f.write (t, k) w
  | .clear t => (.unit, f.clear t)

def after (f : Flat) (calls : List Tables.Call) : Flat := calls.foldl (fun f c => (f.call c).2) f

def answers (f : Flat) : List Tables.Call → List Output
  | [] => []
  | c :: calls => (f.call c).1 :: answers (f.call c).2 calls

end Flat

namespace Tables

def call (s : Tables) : Call → Output × Tables
  | .write t k w => s.write t k w
  | .clear t => (.unit, s.clear t)

def after (s : Tables) (calls : List Call) : Tables := calls.foldl (fun s c => (s.call c).2) s

def answers (s : Tables) : List Call → List Output
  | [] => []
  | c :: calls => (s.call c).1 :: answers (s.call c).2 calls

/-- The tables as a flat map. -/
def flat (s : Tables) : Flat where
  entry p := s.get? p.1 p.2
  listed := {t | s.names.contains t = true}
  nextVersion := s.nextVersion

/-- Tables to start from, and the flat map of what is in them. -/
inductive StartsWith : Tables → Flat → Prop
  | empty : StartsWith ∅ ∅
  | taken {tables : OrdMap String Table} {n : UInt64} {s : Tables}
    (h : ofParts tables n = .ok s) : StartsWith s (.ofParts tables n)

variable {s : Tables} {t k : String}

theorem StartsWith.flat_eq {f : Flat} (h : StartsWith s f) : s.flat = f := by
  cases h with
  | empty => exact Flat.ext rfl (Set.eq_empty_of_forall_notMem fun t => Bool.false_ne_true) rfl
  | @taken tables n _ h =>
    obtain ⟨rfl, -, -⟩ := ofParts_eq_ok.1 h
    refine Flat.ext (funext fun p => ?_) (Set.ext fun t => ?_) rfl
    · simp only [flat, Flat.ofParts, get?, Tables.table]
      rcases tables.get? p.1 with _ | table <;> rfl
    · exact Bool.eq_iff_iff.1 (OrdMap.contains_keySet tables t)

theorem listed_insert (s : Tables) (t : String) (table : Table) (n : UInt64) :
    (⟨s.tables.insert t table, n⟩ : Tables).flat.listed = insert t s.flat.listed := by
  ext t'
  refine (lists_insert s t table n t').trans ?_
  rw [List.mem_singleton, or_comm]
  rfl

theorem flat_touch (s : Tables) (t : String) : (s.touch t).flat = s.flat.touch t :=
  Flat.ext (funext fun p => get?_touch s t p.1 p.2) (listed_insert s t _ _) rfl

theorem flat_put (s : Tables) (t k : String) (v : Value) :
    (s.put t k v).2.flat = s.flat.put (t, k) v := by
  refine Flat.ext (funext fun p => ?_) (listed_insert s t _ _) rfl
  simp only [flat, get?_put, Flat.put, Function.update_apply, Prod.ext_iff]

theorem flat_remove (s : Tables) (t k : String) :
    (s.remove t k).2.flat = s.flat.remove (t, k) := by
  refine Flat.ext (funext fun p => ?_) (listed_insert s t _ _) rfl
  simp only [flat, get?_remove, Flat.remove, Function.update_apply, Prod.ext_iff]

theorem flat_clear (s : Tables) (t : String) : (s.clear t).flat = s.flat.clear t := by
  refine Flat.ext (funext fun p => ?_) (listed_insert s t _ _) rfl
  exact get?_clear s t p.1 p.2

/-- A conditional change is the same change on the flat map if the unconditional ones agree. -/
theorem flat_changeIf {made : Tables} {change : Flat → Flat} (p : Versioned → Bool)
    (h : made.flat = change s.flat) :
    (if (s.get? t k).any p then (true, made) else (false, s.touch t)).map Output.flag flat
      = s.flat.changeIf (t, k) p change := by
  have hentry : s.flat.entry (t, k) = s.get? t k := rfl
  rw [Flat.changeIf, hentry, ← h, ← flat_touch]
  rcases s.get? t k with _ | e
  · rfl
  · exact apply_ite (Prod.map Output.flag flat) ..

theorem flat_removeIf (s : Tables) (t k : String) (p : Versioned → Bool) :
    (s.removeIf t k p).map Output.flag flat = s.flat.changeIf (t, k) p (·.remove (t, k)) :=
  flat_changeIf p (flat_remove s t k)

theorem flat_replaceIf (s : Tables) (t k : String) (p : Versioned → Bool) (v : Value) :
    (s.replaceIf t k p v).map Output.flag flat = s.flat.changeIf (t, k) p (·.put (t, k) v) :=
  flat_changeIf p (flat_put s t k v)

theorem flat_putIfAbsent (s : Tables) (t k : String) (v : Value) :
    (s.putIfAbsent t k v).map Output.value flat = s.flat.write (t, k) (.putIfAbsent v) := by
  have hentry : s.flat.entry (t, k) = s.get? t k := rfl
  simp only [Flat.write, hentry, ← flat_put, putIfAbsent]
  rcases he : s.get? t k with _ | e
  · exact congrArg (fun e => (Output.value e, (s.put t k v).2.flat)) he
  · rfl

theorem write_flat (s : Tables) (t k : String) : ∀ w : KeyWrite,
    (s.write t k w).map id flat = s.flat.write (t, k) w
  | .put v => Prod.ext rfl (flat_put s t k v)
  | .putIfAbsent v => flat_putIfAbsent s t k v
  | .remove => Prod.ext rfl (flat_remove s t k)
  | .removeIfValue v => by
    simp only [Flat.write, ← Value.eq_iff_bytes]
    exact flat_removeIf s t k (·.value = v)
  | .removeIfVersion n => flat_removeIf s t k (·.version = n)
  | .replaceValue old new => by
    simp only [Flat.write, ← Value.eq_iff_bytes]
    exact flat_replaceIf s t k (·.value = old) new
  | .replaceVersion old new => flat_replaceIf s t k (·.version = old) new

/-- A call answers what the same call on the flat map does, and leaves what it leaves. -/
theorem call_flat (s : Tables) : ∀ c : Call, (s.call c).map id flat = s.flat.call c
  | .write t k w => write_flat s t k w
  | .clear t => Prod.ext rfl (flat_clear s t)

theorem fst_call_flat (s : Tables) (c : Call) : (s.call c).1 = (s.flat.call c).1 :=
  congrArg Prod.fst (call_flat s c)

theorem snd_call_flat (s : Tables) (c : Call) : (s.call c).2.flat = (s.flat.call c).2 :=
  congrArg Prod.snd (call_flat s c)

theorem after_flat : ∀ (calls : List Call) (s : Tables),
    (s.after calls).flat = s.flat.after calls
  | [], _ => rfl
  | c :: calls, s => by
    rw [after, List.foldl_cons, Flat.after, List.foldl_cons, ← snd_call_flat]
    exact after_flat calls (s.call c).2

theorem answers_flat : ∀ (calls : List Call) (s : Tables),
    s.answers calls = s.flat.answers calls
  | [], _ => rfl
  | c :: calls, s => by
    rw [answers, Flat.answers, fst_call_flat, ← snd_call_flat, answers_flat calls]

/-! ## Readings -/

theorem containsValue_iff {v : Value} :
    s.containsValue t v = true ↔ ∃ e ∈ s.entries t, e.2.value.bytes = v.bytes := by
  simp only [containsValue, OrdMap.values, List.any_map, List.any_eq_true, Function.comp_apply,
    decide_eq_true_eq, Value.eq_iff_bytes]
  rfl

theorem keys_keySet (s : Tables) (t : String) :
    (s.keySet t).keys = (s.entries t).map Prod.fst := by
  rw [keySet, OrdMap.keys, OrdMap.keySet, OrdMap.map, List.map_map]
  rfl

/-- The readings of a table are those of a list of its entries. -/
structure ListedAs (s : Tables) (t : String) (es : List (String × Versioned)) : Prop where
  entries : s.entries t = es
  keySet : (s.keySet t).keys = es.map Prod.fst
  values : s.values t = es.map Prod.snd
  size : s.size t = es.length
  isEmpty : s.isEmpty t = true ↔ es = []
  containsKey : ∀ k, s.containsKey t k = true ↔ k ∈ es.map Prod.fst
  containsValue : ∀ v : Value, s.containsValue t v = true ↔ ∃ e ∈ es, e.2.value.bytes = v.bytes

theorem listedAs_entries (s : Tables) (t : String) : s.ListedAs t (s.entries t) where
  entries := rfl
  keySet := keys_keySet s t
  values := rfl
  size := rfl
  isEmpty := List.isEmpty_iff
  containsKey _ := OrdMap.mem_keys.symm
  containsValue _ := containsValue_iff

/-- Tables that start out empty, or that were taken over, and a flat map of what is in them stay
alike through any writes and clears: all calls are answered alike, and after them the same entries
are found, the same tables are listed and the same version was the last handed out. The listing of a
table has the entries found in it, each once and in the order of the bytes of their keys, and all
other readings of the table are those of the listing. The count of keys is the number of keys that
have an entry, and the sizes of the tables add up to it. -/
theorem flat_map_kept {f : Flat} (h : StartsWith s f) (calls : List Call) :
    let last := s.after calls
    let flat := f.after calls
    s.answers calls = f.answers calls
      ∧ (∀ t k, last.get? t k = flat.entry (t, k))
      ∧ (∀ t, last.names.contains t = true ↔ t ∈ flat.listed)
      ∧ (last.names.keys.Pairwise fun t t' => Text.utf8 t < Text.utf8 t')
      ∧ last.nextVersion = flat.nextVersion
      ∧ (∀ t, ∃ es, last.ListedAs t es
        ∧ (es.Pairwise fun a b => Text.utf8 a.1 < Text.utf8 b.1)
        ∧ ∀ k e, (k, e) ∈ es ↔ flat.entry (t, k) = some e)
      ∧ {p : Place | (flat.entry p).isSome = true}.encard = last.keyCount
      ∧ ∑ᶠ t, last.size t = last.keyCount := by
  intro last flat
  obtain rfl := h.flat_eq
  have hflat : last.flat = flat := after_flat calls s
  have hget : ∀ t k, last.get? t k = flat.entry (t, k) := fun t k =>
    congrFun (congrArg Flat.entry hflat) (t, k)
  refine ⟨answers_flat calls s, hget, fun t => ?_, OrdMap.keys_pairwise_utf8 _,
    congrArg Flat.nextVersion hflat, fun t => ⟨_, listedAs_entries last t,
      OrdMap.entries_pairwise_utf8 _, fun k e => ?_⟩, ?_, OrdMap.finsum_size last.tables⟩
  · exact hflat ▸ Iff.rfl
  · rw [← hget]
    exact OrdMap.mem_entries_iff
  · simp only [← hget]
    exact OrdMap.encard_pairs last.tables

theorem flat_map_kept_adopted :
    let tables : OrdMap String Table := .ofList [("e", ∅), ("t", .ofList [("k", ⟨⟨[1]⟩, 3⟩)])]
    let s : Tables := ⟨tables, 5⟩
    let calls : List Call := [.write "t" "k" (.replaceVersion 2 ⟨[9]⟩),
      .write "u" "k" (.removeIfValue ⟨[1]⟩), .write "t" "é" (.putIfAbsent ⟨[2]⟩),
      .write "t" "k" (.replaceValue ⟨[1]⟩ ⟨[3]⟩), .clear "e"]
    let last := s.after calls
    StartsWith s (.ofParts tables 5)
      ∧ s.answers calls = [.flag false, .flag false, .value none, .flag true, .unit]
      ∧ last.get? "t" "é" = some ⟨⟨[2]⟩, 6⟩ ∧ last.get? "t" "k" = some ⟨⟨[3]⟩, 7⟩
      ∧ last.names.contains "u" = true
      ∧ last.entries "t" = [("k", ⟨⟨[3]⟩, 7⟩), ("é", ⟨⟨[2]⟩, 6⟩)] ∧ last.keyCount = 2 := by
  intro tables s calls last
  have hs : StartsWith s (.ofParts tables 5) := .taken (by decide)
  obtain ⟨hanswers, hget, hlisted, -, -, hes, -, -⟩ := flat_map_kept hs calls
  have hu : "u" ∈ ((Flat.ofParts tables 5).after calls).listed := .inr (.inr (.inr (.inl rfl)))
  exact ⟨hs, hanswers.trans (by decide), (hget _ _).trans (by decide),
    (hget _ _).trans (by decide), (hlisted "u").2 hu, by decide, by decide⟩

end Tables

end Lockstep
