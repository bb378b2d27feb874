import Lockstep.OrdMap.Basic

/-!
# What each map operation does to the look-up

A map is known by its look-up `get?`: two maps that answer alike are equal (`ext_get?`), an entry
is listed exactly where the look-up finds it (`mem_entries_iff`), and each operation has one
equation through it.
-/

namespace Lockstep.OrdMap

open Std (TransOrd LawfulEqOrd)

variable {κ α β : Type} [Ord κ]

theorem ext {m n : OrdMap κ α} (h : m.entries = n.entries) : m = n := by
  cases m; cases n; cases h; rfl

@[simp] theorem entries_empty : (∅ : OrdMap κ α).entries = [] := rfl

@[simp] theorem get?_empty (k : κ) : (∅ : OrdMap κ α).get? k = none := rfl

theorem isEmpty_iff {m : OrdMap κ α} : m.isEmpty = true ↔ m = ∅ :=
  ⟨fun h => ext (List.isEmpty_iff.1 h), fun h => h ▸ rfl⟩

theorem lookup_map (f : α → β) (k : κ) : ∀ es : List (κ × α),
    lookup k (es.map fun e => (e.1, f e.2)) = (lookup k es).map f
  | [] => rfl
  | (l, a) :: es => by
    simp only [List.map_cons, lookup]
    split
    · rfl
    · exact lookup_map f k es

@[simp] theorem get?_map (f : α → β) (m : OrdMap κ α) (k : κ) :
    (m.map f).get? k = (m.get? k).map f :=
  lookup_map f k m.entries

@[simp] theorem contains_keySet (m : OrdMap κ α) (k : κ) :
    m.keySet.contains k = m.contains k := by
  simp [keySet, contains]

theorem isEmpty_map (f : α → β) (m : OrdMap κ α) : (m.map f).isEmpty = m.isEmpty :=
  List.isEmpty_map

theorem keySet_map (f : α → β) (m : OrdMap κ α) : (m.map f).keySet = m.keySet :=
  ext (List.map_map ..)

theorem values_map (f : α → β) (m : OrdMap κ α) : (m.map f).values = m.values.map f := by
  simp only [values, map, List.map_map, Function.comp_def]

variable [LawfulEqOrd κ]

theorem mem_of_lookup {k : κ} {a : α} :
    ∀ {es : List (κ × α)}, lookup k es = some a → (k, a) ∈ es
  | (l, b) :: es, h => by
    simp only [lookup] at h
    split at h
    · rename_i hk
      obtain rfl := Std.compare_eq_iff_eq.1 hk
      cases h
      exact List.mem_cons_self
    · exact List.mem_cons_of_mem _ (mem_of_lookup h)

theorem lookup_of_mem {k : κ} {a : α} :
    ∀ {es : List (κ × α)}, (es.Pairwise fun a b => compare a.1 b.1 = .lt) → (k, a) ∈ es →
      lookup k es = some a
  | (l, b) :: es, hp, h => by
    obtain ⟨hl, hes⟩ := List.pairwise_cons.1 hp
    simp only [lookup]
    rcases List.mem_cons.1 h with h | h
    · cases h
      rw [if_pos (Std.compare_self)]
    · have hlk : compare l k = .lt := hl _ h
      rw [if_neg, lookup_of_mem hes h]
      intro hk
      obtain rfl := Std.compare_eq_iff_eq.1 hk
      rw [Std.compare_self] at hlk
      cases hlk

/-- The look-up finds exactly the listed entries. -/
theorem mem_entries_iff {m : OrdMap κ α} {k : κ} {a : α} :
    (k, a) ∈ m.entries ↔ m.get? k = some a :=
  ⟨lookup_of_mem m.ascending, mem_of_lookup⟩

theorem lookup_eq_none_of_lt {k : κ} {es : List (κ × α)}
    (h : ∀ e ∈ es, compare k e.1 = .lt) : lookup k es = none := by
  rcases hl : lookup k es with _ | a
  · rfl
  · have := h _ (mem_of_lookup hl)
    rw [Std.compare_self] at this
    cases this

theorem lookup_insertEntry [DecidableEq κ] (k : κ) (a : α) (j : κ) :
    ∀ es : List (κ × α), lookup j (insertEntry k a es) = if j = k then some a else lookup j es
  | [] => by simp [insertEntry, lookup]
  | (l, b) :: es => by
    simp only [insertEntry]
    split
    · simp [lookup]
    · rename_i hk
      obtain rfl := Std.compare_eq_iff_eq.1 hk
      simp only [lookup, Std.compare_eq_iff_eq]
      split <;> rfl
    · rename_i hk
      simp only [lookup, Std.compare_eq_iff_eq, lookup_insertEntry k a j es]
      split
      · rename_i hj
        subst hj
        rw [if_neg]
        rintro rfl
        rw [Std.compare_self] at hk
        cases hk
      · rfl

theorem isSome_lookup {k : κ} : ∀ {es : List (κ × α)},
    (lookup k es).isSome = true ↔ k ∈ es.map (·.1)
  | [] => by simp [lookup]
  | (l, a) :: es => by
    rw [lookup, List.map_cons, List.mem_cons, ← isSome_lookup]
    split
    · rename_i hk
      exact iff_of_true rfl (.inl (Std.compare_eq_iff_eq.1 hk))
    · rename_i hk
      exact (or_iff_right fun h => hk (Std.compare_eq_iff_eq.2 h)).symm

theorem mem_keys {m : OrdMap κ α} {k : κ} : k ∈ m.keys ↔ m.contains k = true :=
  isSome_lookup.symm

theorem entries_eq_map_keys (m : OrdMap κ α) (f : κ → α) (h : ∀ k a, m.get? k = some a → f k = a) :
    m.entries = m.keys.map fun k => (k, f k) := by
  have hentry : ∀ e ∈ m.entries, id e = (e.1, f e.1) := by
    intro e he
    rw [h e.1 e.2 (mem_entries_iff.1 he), id]
  rw [keys, List.map_map]
  exact (List.map_id _).symm.trans (List.map_congr_left hentry)

theorem nodup_keys (m : OrdMap κ α) : m.keys.Nodup := by
  refine List.pairwise_map.2 (m.ascending.imp fun h he => ?_)
  rw [he, Std.compare_self] at h
  cases h

variable [TransOrd κ]

theorem entries_eq_of_lookup :
    ∀ {es fs : List (κ × α)}, (es.Pairwise fun a b => compare a.1 b.1 = .lt) →
      (fs.Pairwise fun a b => compare a.1 b.1 = .lt) → (∀ k, lookup k es = lookup k fs) → es = fs
  | [], [], _, _, _ => rfl
  | [], (k, a) :: fs, _, _, h => by
    have := h k
    simp [lookup] at this
  | (k, a) :: es, [], _, _, h => by
    have := h k
    simp [lookup] at this
  | (k, a) :: es, (l, b) :: fs, he, hf, h => by
    obtain ⟨hk, hes⟩ := List.pairwise_cons.1 he
    obtain ⟨hl, hfs⟩ := List.pairwise_cons.1 hf
    have hkl : compare k l = .eq := by
      rcases hc : compare k l with _ | _ | _
      · have := h k
        rw [lookup_of_mem he List.mem_cons_self, lookup_eq_none_of_lt] at this
        · cases this
        · intro e hm
          rcases List.mem_cons.1 hm with rfl | hm
          · exact hc
          · exact Std.TransCmp.lt_trans hc (hl e hm)
      · rfl
      · have := h l
        rw [lookup_of_mem hf List.mem_cons_self, lookup_eq_none_of_lt] at this
        · cases this
        · intro e hm
          have hc' := Std.OrientedCmp.gt_iff_lt.1 hc
          rcases List.mem_cons.1 hm with rfl | hm
          · exact hc'
          · exact Std.TransCmp.lt_trans hc' (hk e hm)
    obtain rfl := Std.compare_eq_iff_eq.1 hkl
    have hab := h k
    simp only [lookup, hkl, if_pos, Option.some.injEq] at hab
    obtain rfl := hab
    congr 1
    refine entries_eq_of_lookup hes hfs fun j => ?_
    by_cases hj : compare j k = .eq
    · obtain rfl := Std.compare_eq_iff_eq.1 hj
      rw [lookup_eq_none_of_lt hk, lookup_eq_none_of_lt hl]
    · simpa [lookup, hj] using h j

/-- Maps that answer alike are equal. -/
theorem ext_get? {m n : OrdMap κ α} (h : ∀ k, m.get? k = n.get? k) : m = n :=
  ext (entries_eq_of_lookup m.ascending n.ascending h)

theorem exists_get?_of_ne_empty {m : OrdMap κ α} (h : m ≠ ∅) : ∃ k a, m.get? k = some a := by
  obtain ⟨k, hk⟩ := Classical.not_forall.1 fun hnone => h (ext_get? (n := ∅) hnone)
  exact ⟨k, Option.ne_none_iff_exists'.1 hk⟩

theorem get?_insert [DecidableEq κ] (m : OrdMap κ α) (k : κ) (a : α) (j : κ) :
    (m.insert k a).get? j = if j = k then some a else m.get? j :=
  lookup_insertEntry k a j m.entries

omit [TransOrd κ] in
theorem get?_filter (p : κ → α → Bool) (m : OrdMap κ α) (k : κ) :
    (m.filter p).get? k = (m.get? k).filter (p k) := by
  rcases h : (m.filter p).get? k with _ | a
  · rcases hk : m.get? k with _ | a
    · rfl
    · have hm := mem_entries_iff.2 hk
      rcases hp : p k a with _ | _
      · simp [Option.filter, hp]
      · have := mem_entries_iff.1
          (show (k, a) ∈ (m.filter p).entries from List.mem_filter.2 ⟨hm, hp⟩)
        rw [h] at this
        cases this
  · have hm := List.mem_filter.1 (mem_entries_iff.2 h)
    have hp : p k a = true := hm.2
    rw [mem_entries_iff.1 hm.1]
    simp [Option.filter, hp]

omit [TransOrd κ] in
theorem get?_erase [DecidableEq κ] (m : OrdMap κ α) (k j : κ) :
    (m.erase k).get? j = if j = k then none else m.get? j := by
  rw [erase, get?_filter]
  by_cases h : j = k
  · subst h
    rcases m.get? j with _ | a <;> simp [Option.filter]
  · have hc : compare k j ≠ .eq := fun hc => h (Std.compare_eq_iff_eq.1 hc).symm
    rcases m.get? j with _ | a <;> simp [Option.filter, h, hc]

theorem insert_of_get? [DecidableEq κ] {m : OrdMap κ α} {k : κ} {a : α} (h : m.get? k = some a) :
    m.insert k a = m := by
  refine ext_get? fun j => ?_
  rw [get?_insert]
  split
  · rename_i hj
    rw [hj, h]
  · rfl

theorem insert_insert [DecidableEq κ] (m : OrdMap κ α) (k : κ) (a b : α) :
    (m.insert k a).insert k b = m.insert k b := by
  refine ext_get? fun j => ?_
  simp only [get?_insert]
  split <;> rfl

theorem modify_of_contains {m : OrdMap κ α} {k : κ} (h : m.contains k = true) (f : α → α) (a : α) :
    m.modify k f = m.insert k (f ((m.get? k).getD a)) := by
  obtain ⟨b, hb⟩ := Option.isSome_iff_exists.1 h
  rw [modify, hb]
  rfl

/-- To change a key after it was bound is to change it from what it was bound to, or from the value
that was to be its first. -/
theorem modify_insertIfNew [DecidableEq κ] (m : OrdMap κ α) (k : κ) (a : α) (f : α → α) :
    (m.insertIfNew k a).modify k f = m.insert k (f ((m.get? k).getD a)) := by
  unfold insertIfNew
  split
  · rename_i h
    exact modify_of_contains h f a
  · rename_i h
    have hk : m.get? k = none := by simpa [contains] using h
    rw [modify, get?_insert, if_pos rfl, hk]
    exact insert_insert m k a (f a)

theorem erase_of_get?_eq_none [DecidableEq κ] {m : OrdMap κ α} {k : κ} (h : m.get? k = none) :
    m.erase k = m := by
  refine ext_get? fun j => ?_
  rw [get?_erase]
  split
  · rename_i hj
    rw [hj, h]
  · rfl

theorem map_insert [DecidableEq κ] (f : α → β) (m : OrdMap κ α) (k : κ) (a : α) :
    (m.insert k a).map f = (m.map f).insert k (f a) := by
  refine ext_get? fun j => ?_
  rw [get?_map, get?_insert, get?_insert, get?_map]
  exact apply_ite (Option.map f) ..

theorem map_erase [DecidableEq κ] (f : α → β) (m : OrdMap κ α) (k : κ) :
    (m.erase k).map f = (m.map f).erase k := by
  refine ext_get? fun j => ?_
  rw [get?_map, get?_erase, get?_erase, get?_map]
  exact apply_ite (Option.map f) ..

theorem get?_foldl_insert [DecidableEq κ] (j : κ) : ∀ (es : List (κ × α)) (m : OrdMap κ α),
    (es.foldl (fun m e => m.insert e.1 e.2) m).get? j = (lookup j es.reverse).or (m.get? j)
  | [], m => by simp [lookup]
  | (k, a) :: es, m => by
    have happ : ∀ fs : List (κ × α), lookup j (fs ++ [(k, a)])
        = (lookup j fs).or (if j = k then some a else none) := by
      intro fs
      induction fs with
      | nil => simp [lookup]
      | cons f fs ih =>
        simp only [List.cons_append, lookup, ih]
        split <;> simp
    rw [List.foldl_cons, get?_foldl_insert j es, get?_insert, List.reverse_cons, happ]
    rcases lookup j es.reverse with _ | b
    · split <;> simp
    · simp

/-- In a map built from a list the last binding of a key counts. -/
theorem get?_ofList [DecidableEq κ] (es : List (κ × α)) (k : κ) :
    (ofList es).get? k = lookup k es.reverse := by
  rw [ofList, get?_foldl_insert]
  simp

/-- A map is what its own entries build. -/
theorem ofList_entries [DecidableEq κ] (m : OrdMap κ α) : ofList m.entries = m := by
  refine ext_get? fun k => ?_
  rw [get?_ofList]
  rcases h : m.get? k with _ | a
  · rcases hl : lookup k m.entries.reverse with _ | b
    · rfl
    · have := mem_entries_iff.1 (List.mem_reverse.1 (mem_of_lookup hl))
      rw [h] at this
      cases this
  · rcases hl : lookup k m.entries.reverse with _ | b
    · have hmem := List.mem_reverse.2 (mem_entries_iff.2 h)
      have hne : ∀ es : List (κ × α), (k, a) ∈ es → lookup k es ≠ none := by
        intro es
        induction es with
        | nil => simp
        | cons e es ih =>
          intro he
          simp only [lookup]
          split
          · simp
          · rename_i hk
            rcases List.mem_cons.1 he with he | he
            · subst he
              exact absurd (Std.compare_self) hk
            · exact ih he
      exact absurd hl (hne _ hmem)
    · have := mem_entries_iff.1 (List.mem_reverse.1 (mem_of_lookup hl))
      rw [h] at this
      exact this.symm

theorem length_insertEntry (k : κ) (a : α) :
    ∀ {es : List (κ × α)}, (es.Pairwise fun a b => compare a.1 b.1 = .lt) →
      (insertEntry k a es).length = es.length + if (lookup k es).isSome then 0 else 1
  | [], _ => rfl
  | (l, b) :: es, h => by
    obtain ⟨hl, hes⟩ := List.pairwise_cons.1 h
    simp only [insertEntry]
    split
    · rename_i hk
      have : lookup k ((l, b) :: es) = none := lookup_eq_none_of_lt fun e he => by
        rcases List.mem_cons.1 he with rfl | he
        · exact hk
        · exact Std.TransCmp.lt_trans hk (hl e he)
      simp [this]
    · rename_i hk
      simp [lookup, hk]
    · rename_i hk
      have hne : compare k l ≠ .eq := by rw [hk]; decide
      simp only [List.length_cons, length_insertEntry k a hes, lookup, hne, if_false]
      omega

theorem size_insert (m : OrdMap κ α) (k : κ) (a : α) :
    (m.insert k a).size = m.size + if m.contains k then 0 else 1 :=
  length_insertEntry k a m.ascending

theorem size_foldl_insert_le : ∀ (es : List (κ × α)) (m : OrdMap κ α),
    (es.foldl (fun m e => m.insert e.1 e.2) m).size ≤ m.size + es.length
  | [], m => Nat.le_refl _
  | (k, a) :: es, m => by
    have ih := size_foldl_insert_le es (m.insert k a)
    have hinsert := size_insert m k a
    simp only [List.foldl_cons, List.length_cons]
    split at hinsert <;> omega

theorem size_ofList_le (es : List (κ × α)) : (ofList es).size ≤ es.length := by
  have h := size_foldl_insert_le es ∅
  rwa [show (∅ : OrdMap κ α).size = 0 from rfl, Nat.zero_add] at h

/-- All bindings of a map built from a list are in the list. -/
theorem mem_of_mem_ofList [DecidableEq κ] {es : List (κ × α)} {e : κ × α}
    (h : e ∈ (ofList es).entries) : e ∈ es := by
  have hget := mem_entries_iff.1 h
  rw [get?_ofList] at hget
  exact List.mem_reverse.1 (mem_of_lookup hget)

omit [TransOrd κ] in
theorem length_filter_ne (k : κ) : ∀ {es : List (κ × α)},
    (es.Pairwise fun a b => compare a.1 b.1 = .lt) →
      (es.filter fun e => compare k e.1 != .eq).length + (if (lookup k es).isSome then 1 else 0)
        = es.length
  | [], _ => rfl
  | (l, b) :: es, h => by
    obtain ⟨hl, hes⟩ := List.pairwise_cons.1 h
    have ih := length_filter_ne k hes
    by_cases hk : compare k l = .eq
    · obtain rfl := Std.compare_eq_iff_eq.1 hk
      rw [lookup_eq_none_of_lt hl] at ih
      simpa [List.filter_cons, lookup, hk] using ih
    · have hb : (compare k l != .eq) = true := by simpa using hk
      simp only [List.filter_cons, lookup, hk, hb, if_true, if_false, List.length_cons]
      omega

omit [TransOrd κ] in
theorem size_erase (m : OrdMap κ α) (k : κ) :
    (m.erase k).size + (if m.contains k then 1 else 0) = m.size :=
  length_filter_ne k m.ascending

section Total

variable {κ μ α : Type} [Ord κ] [Ord μ]

theorem total_eq (m : OrdMap κ (OrdMap μ α)) :
    m.total = m.entries.foldr (fun e n => e.2.size + n) 0 := by
  rw [total, values, List.foldr_map]

variable [LawfulEqOrd κ]

theorem foldr_size_filter (k : κ) : ∀ {es : List (κ × OrdMap μ α)},
    (es.Pairwise fun a b => compare a.1 b.1 = .lt) →
      (es.filter fun e => compare k e.1 != .eq).foldr (fun e n => e.2.size + n) 0
        + ((lookup k es).getD ∅).size = es.foldr (fun e n => e.2.size + n) 0
  | [], _ => rfl
  | (l, b) :: es, h => by
    obtain ⟨hl, hes⟩ := List.pairwise_cons.1 h
    have ih := foldr_size_filter k hes
    by_cases hk : compare k l = .eq
    · obtain rfl := Std.compare_eq_iff_eq.1 hk
      rw [lookup_eq_none_of_lt hl] at ih
      simp only [List.filter_cons, lookup, hk, List.foldr_cons, bne_self_eq_false,
        Bool.false_eq_true, if_false, if_true, Option.getD_some, Option.getD_none] at ih ⊢
      have : (∅ : OrdMap μ α).size = 0 := rfl
      omega
    · have hb : (compare k l != .eq) = true := by simpa using hk
      simp only [List.filter_cons, lookup, hk, hb, List.foldr_cons, if_true, if_false]
      omega

/-- Taking a binding away takes its map's entries from the total. -/
theorem total_erase (m : OrdMap κ (OrdMap μ α)) (k : κ) :
    (m.erase k).total + ((m.get? k).getD ∅).size = m.total := by
  rw [total_eq, total_eq]
  exact foldr_size_filter k m.ascending

variable [TransOrd κ]

theorem foldr_size_insertEntry (k : κ) (inner : OrdMap μ α) : ∀ {es : List (κ × OrdMap μ α)},
    (es.Pairwise fun a b => compare a.1 b.1 = .lt) →
      (insertEntry k inner es).foldr (fun e n => e.2.size + n) 0 + ((lookup k es).getD ∅).size
        = es.foldr (fun e n => e.2.size + n) 0 + inner.size
  | [], _ => by simp [insertEntry, lookup]; rfl
  | (l, b) :: es, h => by
    obtain ⟨hl, hes⟩ := List.pairwise_cons.1 h
    have hnil : (∅ : OrdMap μ α).size = 0 := rfl
    simp only [insertEntry]
    split
    · rename_i hk
      have hnone : lookup k ((l, b) :: es) = none := lookup_eq_none_of_lt fun e he => by
        rcases List.mem_cons.1 he with rfl | he
        · exact hk
        · exact Std.TransCmp.lt_trans hk (hl e he)
      simp only [hnone, List.foldr_cons, Option.getD_none]
      omega
    · rename_i hk
      simp only [lookup, hk, if_true, List.foldr_cons, Option.getD_some]
      omega
    · rename_i hk
      have ih := foldr_size_insertEntry k inner hes
      have hne : compare k l ≠ .eq := by rw [hk]; decide
      simp only [lookup, hne, if_false, List.foldr_cons]
      omega

/-- Binding a map puts its entries in the stead of those of the map that was bound. -/
theorem total_insert (m : OrdMap κ (OrdMap μ α)) (k : κ) (inner : OrdMap μ α) :
    (m.insert k inner).total + ((m.get? k).getD ∅).size = m.total + inner.size := by
  rw [total_eq, total_eq]
  exact foldr_size_insertEntry k inner m.ascending

end Total

section Pairs

variable {κ μ α : Type} [Ord κ] [Ord μ]

/-- The keys of a map of maps, each with a key of the map bound to it. -/
def pairs (m : OrdMap κ (OrdMap μ α)) : List (κ × μ) :=
  m.entries.flatMap fun e => e.2.keys.map (e.1, ·)

omit [Ord κ] in
theorem length_flatMap_keys : ∀ es : List (κ × OrdMap μ α),
    (es.flatMap fun e => e.2.keys.map (e.1, ·)).length = es.foldr (fun e n => e.2.size + n) 0
  | [] => rfl
  | e :: es => by
    rw [List.flatMap_cons, List.length_append, length_flatMap_keys es, List.length_map, keys,
      List.length_map]
    rfl

theorem length_pairs (m : OrdMap κ (OrdMap μ α)) : m.pairs.length = m.total := by
  rw [total_eq]
  exact length_flatMap_keys m.entries

variable [LawfulEqOrd κ] [LawfulEqOrd μ]

omit [LawfulEqOrd κ] [LawfulEqOrd μ] in
/-- What a map of maps binds to a pair of keys is bound in a map that it has. -/
theorem get?_getD_eq_some {m : OrdMap κ (OrdMap μ α)} {k : κ} {j : μ} {a : α} :
    ((m.get? k).getD ∅).get? j = some a
      ↔ ∃ inner, m.get? k = some inner ∧ inner.get? j = some a := by
  rcases m.get? k with _ | inner <;> simp

theorem mem_flatMap_values {β : Type} {m : OrdMap κ (OrdMap μ α)} {f : α → β} {b : β} :
    b ∈ m.values.flatMap (fun inner => inner.values.map f)
      ↔ ∃ k j a, ((m.get? k).getD ∅).get? j = some a ∧ f a = b := by
  simp only [values, List.mem_flatMap, List.mem_map, get?_getD_eq_some]
  constructor
  · rintro ⟨_, ⟨⟨k, inner⟩, hk, rfl⟩, _, ⟨⟨j, a⟩, hj, rfl⟩, rfl⟩
    exact ⟨k, j, a, ⟨inner, mem_entries_iff.1 hk, mem_entries_iff.1 hj⟩, rfl⟩
  · rintro ⟨k, j, a, ⟨inner, hk, hj⟩, rfl⟩
    exact ⟨inner, ⟨(k, inner), mem_entries_iff.2 hk, rfl⟩, a,
      ⟨(j, a), mem_entries_iff.2 hj, rfl⟩, rfl⟩

theorem mem_pairs {m : OrdMap κ (OrdMap μ α)} {p : κ × μ} :
    p ∈ m.pairs ↔ (((m.get? p.1).getD ∅).get? p.2).isSome = true := by
  simp only [pairs, List.mem_flatMap, List.mem_map, mem_keys]
  rw [Option.isSome_iff_exists]
  simp only [get?_getD_eq_some]
  constructor
  · rintro ⟨⟨k, inner⟩, he, j, hj, rfl⟩
    obtain ⟨a, ha⟩ := Option.isSome_iff_exists.1 hj
    exact ⟨a, inner, mem_entries_iff.1 he, ha⟩
  · rintro ⟨a, inner, hk, ha⟩
    exact ⟨(p.1, inner), mem_entries_iff.2 hk, p.2, Option.isSome_iff_exists.2 ⟨a, ha⟩, rfl⟩

/-- Pairs from one inner map differ in the second key, pairs from two of them in the first. -/
theorem nodup_pairs (m : OrdMap κ (OrdMap μ α)) : m.pairs.Nodup := by
  refine List.pairwise_flatMap.2 ⟨fun e _ => ?_, m.ascending.imp fun h p hp q hq he => ?_⟩
  · exact List.pairwise_map.2 (e.2.nodup_keys.imp fun hne he => hne (Prod.mk.inj he).2)
  · obtain ⟨j, -, rfl⟩ := List.mem_map.1 hp
    obtain ⟨j', -, rfl⟩ := List.mem_map.1 hq
    rw [(Prod.mk.inj he).1, Std.compare_self] at h
    cases h

end Pairs

end Lockstep.OrdMap

namespace Lockstep.OrdSet

open Std (TransOrd LawfulEqOrd)

variable {κ : Type} [Ord κ] [TransOrd κ] [LawfulEqOrd κ] [DecidableEq κ]

omit [DecidableEq κ] in
/-- Sets with the same members are equal. -/
theorem ext_contains {m n : OrdSet κ} (h : ∀ k, m.contains k = n.contains k) : m = n := by
  refine OrdMap.ext_get? fun k => ?_
  have hk := h k
  rcases hm : m.get? k with _ | _ <;> rcases hn : n.get? k with _ | _ <;>
    simp [OrdMap.contains, hm, hn] at hk ⊢

theorem contains_ofList {ks : List κ} {k : κ} : (ofList ks).contains k = true ↔ k ∈ ks := by
  rw [OrdMap.contains, ofList, OrdMap.get?_ofList, OrdMap.isSome_lookup, List.map_reverse,
    List.mem_reverse]
  simp

end Lockstep.OrdSet
