/-!
# Finite maps in key order

A map is the list of its entries in strictly ascending key order, so two maps with the same
bindings are equal, and every listing of a map is in key order without sorting. A set of keys is
a map to `Unit`.
-/

namespace Lockstep

/-- A finite map, held as its entries in strictly ascending key order. -/
structure OrdMap (κ α : Type) [Ord κ] where
  entries : List (κ × α)
  ascending : entries.Pairwise fun a b => compare a.1 b.1 = .lt
  deriving DecidableEq

/-- A finite set of keys in ascending order. -/
abbrev OrdSet (κ : Type) [Ord κ] := OrdMap κ Unit

namespace OrdMap

variable {κ μ α β : Type} [Ord κ] [Ord μ]

instance : EmptyCollection (OrdMap κ α) := ⟨⟨[], .nil⟩⟩

instance : Inhabited (OrdMap κ α) := ⟨∅⟩

/-- The value bound to `k` in a list of entries, the first if there are several. -/
def lookup (k : κ) : List (κ × α) → Option α
  | [] => none
  | (l, a) :: es => if compare k l = .eq then some a else lookup k es

def get? (m : OrdMap κ α) (k : κ) : Option α := lookup k m.entries

def contains (m : OrdMap κ α) (k : κ) : Bool := (m.get? k).isSome

def size (m : OrdMap κ α) : Nat := m.entries.length

def isEmpty (m : OrdMap κ α) : Bool := m.entries.isEmpty

def keys (m : OrdMap κ α) : List κ := m.entries.map (·.1)

def values (m : OrdMap κ α) : List α := m.entries.map (·.2)

/-- The number of entries in all the maps of a map. -/
def total (m : OrdMap κ (OrdMap μ α)) : Nat := m.values.foldr (fun inner n => inner.size + n) 0

def filter (p : κ → α → Bool) (m : OrdMap κ α) : OrdMap κ α :=
  ⟨m.entries.filter fun e => p e.1 e.2, m.ascending.filter _⟩

def erase (m : OrdMap κ α) (k : κ) : OrdMap κ α := m.filter fun l _ => compare k l != .eq

def map (f : α → β) (m : OrdMap κ α) : OrdMap κ β :=
  ⟨m.entries.map fun e => (e.1, f e.2), List.pairwise_map.2 m.ascending⟩

def keySet (m : OrdMap κ α) : OrdSet κ := m.map fun _ => ()

/-- Places an entry by its key, in the stead of an entry with the same key. -/
def insertEntry (k : κ) (a : α) : List (κ × α) → List (κ × α)
  | [] => [(k, a)]
  | (l, b) :: es =>
    match compare k l with
    | .lt => (k, a) :: (l, b) :: es
    | .eq => (k, a) :: es
    | .gt => (l, b) :: insertEntry k a es

theorem mem_insertEntry {k : κ} {a : α} {e : κ × α} :
    ∀ {es : List (κ × α)}, e ∈ insertEntry k a es → e = (k, a) ∨ e ∈ es
  | [], h => by simpa [insertEntry] using h
  | (l, b) :: es, h => by
    simp only [insertEntry] at h
    split at h
    · simpa using h
    · rcases List.mem_cons.1 h with h | h
      · exact .inl h
      · exact .inr (List.mem_cons_of_mem _ h)
    · rcases List.mem_cons.1 h with h | h
      · exact .inr (h ▸ List.mem_cons_self)
      · exact (mem_insertEntry h).imp_right (List.mem_cons_of_mem _)

variable [Std.TransOrd κ] [Std.LawfulEqOrd κ]

theorem insertEntry_ascending (k : κ) (a : α) :
    ∀ {es : List (κ × α)}, (es.Pairwise fun a b => compare a.1 b.1 = .lt) →
      (insertEntry k a es).Pairwise fun a b => compare a.1 b.1 = .lt
  | [], _ => by simp [insertEntry]
  | (l, b) :: es, h => by
    obtain ⟨hl, hes⟩ := List.pairwise_cons.1 h
    simp only [insertEntry]
    split
    · rename_i hk
      refine List.pairwise_cons.2 ⟨fun e he => ?_, h⟩
      rcases List.mem_cons.1 he with rfl | he
      · exact hk
      · exact Std.TransCmp.lt_trans hk (hl e he)
    · rename_i hk
      obtain rfl := Std.LawfulEqOrd.eq_of_compare hk
      exact List.pairwise_cons.2 ⟨hl, hes⟩
    · rename_i hk
      refine List.pairwise_cons.2 ⟨fun e he => ?_, insertEntry_ascending k a hes⟩
      rcases mem_insertEntry he with rfl | he
      · exact Std.OrientedCmp.gt_iff_lt.1 hk
      · exact hl e he

/-- Binds `k` to `a`, whatever it was bound to. -/
def insert (m : OrdMap κ α) (k : κ) (a : α) : OrdMap κ α :=
  ⟨insertEntry k a m.entries, insertEntry_ascending k a m.ascending⟩

/-- Changes what a key is bound to, if it is bound. -/
def modify (m : OrdMap κ α) (k : κ) (f : α → α) : OrdMap κ α :=
  match m.get? k with
  | some a => m.insert k (f a)
  | none => m

/-- Binds a key that is not bound. -/
def insertIfNew (m : OrdMap κ α) (k : κ) (a : α) : OrdMap κ α :=
  if m.contains k then m else m.insert k a

/-- The map of a list of bindings inserted one after another: the last of a repeated key wins. -/
def ofList (es : List (κ × α)) : OrdMap κ α := es.foldl (fun m e => m.insert e.1 e.2) ∅

end OrdMap

namespace OrdSet

variable {κ : Type} [Ord κ] [Std.TransOrd κ] [Std.LawfulEqOrd κ]

/-- The members of a list, each once. -/
def ofList (ks : List κ) : OrdSet κ := OrdMap.ofList (ks.map fun k => (k, ()))

end OrdSet

end Lockstep
