import Lockstep.Proofs.Canonical

/-!
# The written forms of a snapshot

A snapshot can be spelled in many ways, for the entries of its maps may come in any order and more
than once. An image is one such spelling, with lists in the stead of maps; it comes to a snapshot
if its entries are bound one after another (`Image.collapse`). To read a snapshot is to read an
image and collapse it (`parse_snapshot`), so a snapshot is read from just the bytes that begin
with an image of it (`Snapshot.snapshots_read_exactly`). Of a name that is bound more than once the
last binding counts, and the image that is written is the shortest.
-/

namespace Lockstep

open Wire

/-- A snapshot as it is spelled: each map is a list of bindings. -/
structure Image where
  lastApplied : UInt64
  counters : List (String × Int64)
  tables : List (String × List (String × Versioned))
  locks : List (String × List (String × Lock))
  nextVersion : UInt64

namespace Image

/-- The map of maps that a list of lists of bindings comes to. -/
def collapseAll {α : Type} (es : List (String × List (String × α))) :
    OrdMap String (OrdMap String α) :=
  .ofList (es.map (Prod.map id OrdMap.ofList))

/-- The snapshot that is left when all bindings are made one after another. -/
def collapse (image : Image) : Snapshot where
  lastApplied := image.lastApplied
  counters := .ofList image.counters
  tables := collapseAll image.tables
  locks := collapseAll image.locks
  nextVersion := image.nextVersion

/-- The last list of bindings of a name counts, as a whole. -/
theorem get?_collapseAll {α : Type} (es : List (String × List (String × α))) (name : String) :
    (collapseAll es).get? name = (OrdMap.lookup name es.reverse).map OrdMap.ofList := by
  rw [collapseAll, OrdMap.get?_ofList, ← List.map_reverse]
  exact OrdMap.lookup_map OrdMap.ofList name es.reverse

instance : Wire Image where
  encode i :=
    encode i.lastApplied ++ encode i.counters ++ encode i.tables ++ encode i.locks
      ++ encode i.nextVersion
  parse := do return ⟨← parse, ← parse, ← parse, ← parse, ← parse⟩

end Image

namespace Wire

variable {κ α β γ : Type}

/-! ## Readers of maps -/

theorem many_map (g : α → β) (p : Reader α) : ∀ n : ℕ, many (g <$> p) n = List.map g <$> many p n
  | 0 => by simp [many]
  | n + 1 => by simp [many, many_map g p n]

theorem parse_list_of_map [Wire α] [Wire β] {g : α → β} (h : (parse : Reader β) = g <$> parse) :
    (parse : Reader (List β)) = List.map g <$> parse := by
  simp only [parse]
  rw [h]
  simp [many_map]

theorem parse_pair_of_map [Wire α] [Wire β] [Wire γ] {g : β → γ}
    (h : (parse : Reader γ) = g <$> parse) :
    (parse : Reader (α × γ)) = Prod.map id g <$> (parse : Reader (α × β)) := by
  simp only [parse]
  rw [h]
  simp

theorem parse_ordMap [Ord κ] [Std.TransOrd κ] [Std.LawfulEqOrd κ] [Wire κ] [Wire α] :
    (parse : Reader (OrdMap κ α)) = OrdMap.ofList <$> parse := rfl

theorem parse_nested [Wire α] :
    (parse : Reader (OrdMap String (OrdMap String α))) = Image.collapseAll <$> parse := by
  rw [parse_ordMap, parse_list_of_map (parse_pair_of_map parse_ordMap), Functor.map_map]
  rfl

theorem map_eq_ok {p : Reader α} {g : α → β} {bs rest : Bytes} {b : β} :
    (g <$> p) bs = .ok (b, rest) ↔ ∃ a, p bs = .ok (a, rest) ∧ g a = b := by
  simp only [Functor.map, StateT.map, bind, Except.bind]
  rcases p bs with f | ⟨a, rest'⟩
  · simp
  · simp [pure, Except.pure, and_comm]

theorem parse_snapshot : (parse : Reader Snapshot) = Image.collapse <$> parse := by
  change (do return Snapshot.mk (← parse) (← parse) (← parse) (← parse) (← parse))
    = Image.collapse <$> (do return Image.mk (← parse) (← parse) (← parse) (← parse) (← parse))
  rw [parse_ordMap, parse_nested, parse_nested]
  simp [Image.collapse]

/-! ## What an image is spelled by -/

instance : LawfulWire Image where
  fits i := fits (i.counters, i.tables, i.locks)
  reads := fun {i} h => by
    obtain ⟨hc, h⟩ := fits_pair.1 h
    obtain ⟨ht, hl⟩ := fits_pair.1 h
    simp only [encode, parse, List.append_assoc]
    exact (reads (a := i.lastApplied) rfl).bind <| (reads hc).bind <| (reads ht).bind <|
      (reads hl).bind <| (reads (a := i.nextVersion) rfl).map
        (Image.mk i.lastApplied i.counters i.tables i.locks)

instance : Canonical Image where
  takes := takes_field fun _ _ => takes₄ fun _ _ _ _ h => ⟨by
    obtain ⟨hc, h⟩ := fits_pair.1 h
    obtain ⟨ht, h⟩ := fits_pair.1 h
    exact fits_pair.2 ⟨hc, fits_pair.2 ⟨ht, (fits_pair.1 h).1⟩⟩, rfl⟩

end Wire

namespace Image

variable {α : Type}

/-- Each binding of a map of maps once and in order. -/
def spell (m : OrdMap String (OrdMap String α)) : List (String × List (String × α)) :=
  m.entries.map (Prod.map id OrdMap.entries)

theorem encode_spell [Wire α] (m : OrdMap String (OrdMap String α)) :
    encode (spell m) = encode m := by
  rw [encode_list, spell, List.length_map, List.flatMap_map]
  rfl

theorem fits_spell [Wire α] [LawfulWire α] {m : OrdMap String (OrdMap String α)}
    (h : fits m = true) : fits (spell m) = true := by
  rw [fits_list, spell, List.length_map, List.all_map]
  exact fits_list.1 h

end Image

namespace Snapshot

/-- The image that is written. -/
def image (s : Snapshot) : Image where
  lastApplied := s.lastApplied
  counters := s.counters.entries
  tables := Image.spell s.tables
  locks := Image.spell s.locks
  nextVersion := s.nextVersion

variable {s : Snapshot}

theorem encode_image (s : Snapshot) : encode s.image = encode s := by
  change encode s.lastApplied ++ encode s.counters.entries ++ encode (Image.spell s.tables)
    ++ encode (Image.spell s.locks) ++ encode s.nextVersion = _
  rw [Image.encode_spell, Image.encode_spell]
  rfl

theorem fits_image (h : fits s = true) : fits s.image = true := by
  obtain ⟨h, hl⟩ := Bool.and_eq_true_iff.1 h
  obtain ⟨hc, ht⟩ := Bool.and_eq_true_iff.1 h
  exact fits_pair.2 ⟨hc, fits_pair.2 ⟨Image.fits_spell ht, Image.fits_spell hl⟩⟩

/-- To read a snapshot is to read an image of it. -/
theorem parse_eq_ok {bs rest : Bytes} : parse bs = .ok (s, rest) ↔
    ∃ image : Image, fits image = true ∧ bs = encode image ++ rest ∧ image.collapse = s := by
  rw [parse_snapshot, map_eq_ok]
  simp only [parse_eq_ok_iff, and_assoc]

end Snapshot

/-! ## What is read fits -/

theorem fits_ofList {κ α : Type} [Ord κ] [Std.TransOrd κ] [Std.LawfulEqOrd κ] [DecidableEq κ]
    [Wire κ] [Wire α] [LawfulWire κ] [LawfulWire α] {es : List (κ × α)} (h : fits es = true) :
    fits (OrdMap.ofList es) = true := by
  obtain ⟨hlength, hall⟩ := fits_list.1 h
  refine fits_list.2 ⟨Nat.lt_of_le_of_lt (OrdMap.size_ofList_le es) hlength, ?_⟩
  rw [List.all_eq_true] at hall ⊢
  exact fun e he => hall e (OrdMap.mem_of_mem_ofList he)

theorem Image.fits_collapseAll {α : Type} [Wire α] [LawfulWire α]
    {es : List (String × List (String × α))} (h : fits es = true) :
    fits (collapseAll es) = true := by
  obtain ⟨hlength, hall⟩ := fits_list.1 h
  refine fits_ofList (fits_list.2 ⟨by rwa [List.length_map], ?_⟩)
  rw [List.all_map, List.all_eq_true]
  rw [List.all_eq_true] at hall
  intro e he
  obtain ⟨hk, hinner⟩ := fits_pair.1 (hall e he)
  exact fits_pair.2 ⟨hk, fits_ofList hinner⟩

theorem Image.fits_collapse {image : Image} (h : fits image = true) :
    fits image.collapse = true := by
  obtain ⟨hc, h⟩ := fits_pair.1 h
  obtain ⟨ht, hl⟩ := fits_pair.1 h
  exact Bool.and_eq_true_iff.2 ⟨Bool.and_eq_true_iff.2 ⟨fits_ofList hc, fits_collapseAll ht⟩,
    fits_collapseAll hl⟩

/-! ## The shortest image -/

section Length

variable {κ α β : Type} [Ord κ] [Wire κ] [Wire α]

theorem length_insertEntry_le (k : κ) (a : α) : ∀ es : List (κ × α),
    ((OrdMap.insertEntry k a es).flatMap encode).length
      ≤ (encode (k, a)).length + (es.flatMap encode).length
  | [] => by simp [OrdMap.insertEntry]
  | (l, b) :: es => by
    have ih := length_insertEntry_le k a es
    simp only [OrdMap.insertEntry]
    split <;> simp only [List.flatMap_cons, List.length_append] at ih ⊢ <;> omega

variable [Std.TransOrd κ] [Std.LawfulEqOrd κ]

theorem length_foldl_insert_le : ∀ (es : List (κ × α)) (m : OrdMap κ α),
    ((es.foldl (fun m e => m.insert e.1 e.2) m).entries.flatMap encode).length
      ≤ (m.entries.flatMap encode).length + (es.flatMap encode).length
  | [], m => by simp
  | (k, a) :: es, m => by
    have ih := length_foldl_insert_le es (m.insert k a)
    have hinsert : ((m.insert k a).entries.flatMap encode).length ≤ _ :=
      length_insertEntry_le k a m.entries
    simp only [List.foldl_cons, List.flatMap_cons, List.length_append]
    omega

theorem length_encode_list (as : List α) :
    (encode as).length = 8 + (as.flatMap encode).length := by
  rw [encode_list, List.length_append]
  exact congrArg (· + _) (length_littleEndian 8 _)

/-- A map is written no longer than a list of bindings it comes from. -/
theorem length_encode_ofList_le (es : List (κ × α)) :
    (encode (OrdMap.ofList es)).length ≤ (encode es).length := by
  have h := length_foldl_insert_le es ∅
  change (encode (OrdMap.ofList es).entries).length ≤ _
  rw [length_encode_list, length_encode_list, OrdMap.ofList]
  simpa using h

end Length

namespace Image

theorem length_encode_map_le {α : Type} [Wire α] : ∀ es : List (String × List (String × α)),
    ((es.map (Prod.map id OrdMap.ofList)).flatMap encode).length ≤ (es.flatMap encode).length
  | [] => Nat.le_refl 0
  | (k, inner) :: es => by
    have ih := length_encode_map_le es
    have hinner := length_encode_ofList_le inner
    simp only [List.map_cons, List.flatMap_cons, List.length_append, Prod.map, id, encode_pair]
    omega

theorem length_encode_collapseAll_le {α : Type} [Wire α] (es : List (String × List (String × α))) :
    (encode (collapseAll es)).length ≤ (encode es).length := by
  have hmap := length_encode_map_le es
  have hcollapse := length_encode_ofList_le (es.map (Prod.map id (OrdMap.ofList (α := α))))
  rw [length_encode_list] at hcollapse ⊢
  rw [collapseAll]
  omega

/-- What an image comes to is written no longer than the image. -/
theorem length_encode_collapse_le (image : Image) :
    (encode image.collapse).length ≤ (encode image).length := by
  have hc := length_encode_ofList_le image.counters
  have ht := length_encode_collapseAll_le image.tables
  have hl := length_encode_collapseAll_le image.locks
  change (encode image.lastApplied ++ encode (OrdMap.ofList image.counters)
    ++ encode (collapseAll image.tables) ++ encode (collapseAll image.locks)
    ++ encode image.nextVersion).length ≤ (encode image.lastApplied ++ encode image.counters
    ++ encode image.tables ++ encode image.locks ++ encode image.nextVersion).length
  simp only [List.length_append]
  omega

end Image

namespace Snapshot

theorem decode_eq_ok_iff {bs : Bytes} {s : Snapshot} :
    decode bs = .ok s ↔ ∃ rest, parse bs = .ok (s, rest) := by
  rw [← decode_eq_ok, decode]
  cases (Wire.decode bs : Except Fault Snapshot) with
  | error f => simp [Except.mapError]
  | ok d => simp [Except.mapError]

/-- Bytes that are not read are refused as a snapshot. -/
theorem decode_eq_error {bs : Bytes} (h : ∀ s, decode bs ≠ .ok s) :
    ∃ reason, decode bs = .error (.snapshot reason) := by
  rw [decode] at h ⊢
  cases hd : (Wire.decode bs : Except Fault Snapshot) with
  | error f => exact ⟨_, rfl⟩
  | ok s => exact absurd (by rw [hd]; rfl) (h s)

/-- A snapshot is read from just the bytes that begin with an image of it, where the last binding of
a name counts. So whatever follows it, what was written is read; bytes that break off within a
written snapshot are refused; and what is read is written no longer than the bytes it was read
from. -/
theorem snapshots_read_exactly :
    (∀ bs s, decode bs = .ok s ↔
        ∃ image : Image, fits image = true ∧ encode image <+: bs ∧ image.collapse = s)
      ∧ (∀ (image : Image) name,
          image.collapse.counters.get? name = OrdMap.lookup name image.counters.reverse
            ∧ image.collapse.tables.get? name
              = (OrdMap.lookup name image.tables.reverse).map OrdMap.ofList
            ∧ image.collapse.locks.get? name
              = (OrdMap.lookup name image.locks.reverse).map OrdMap.ofList)
      ∧ (∀ (s : Snapshot) rest, fits s = true → decode (encode s ++ rest) = .ok s)
      ∧ (∀ (s : Snapshot) bs, fits s = true → bs <+: encode s → bs ≠ encode s →
          ∃ reason, decode bs = .error (.snapshot reason))
      ∧ ∀ bs s, decode bs = .ok s → fits s = true
          ∧ ∃ taken rest, bs = taken ++ rest ∧ parse bs = .ok (s, rest)
            ∧ (encode s).length ≤ taken.length := by
  have hexact : ∀ bs s, decode bs = .ok s ↔
      ∃ image : Image, fits image = true ∧ encode image <+: bs ∧ image.collapse = s := by
    intro bs s
    rw [decode_eq_ok_iff]
    simp only [parse_eq_ok]
    constructor
    · rintro ⟨rest, image, hfits, rfl, rfl⟩
      exact ⟨image, hfits, List.prefix_append _ _, rfl⟩
    · rintro ⟨image, hfits, ⟨rest, rfl⟩, rfl⟩
      exact ⟨rest, image, hfits, rfl, rfl⟩
  refine ⟨hexact, fun image name => ⟨OrdMap.get?_ofList _ _, Image.get?_collapseAll _ _,
    Image.get?_collapseAll _ _⟩, fun s rest h => decode_encode h rest,
    fun s bs h hbs hne => ?_, fun bs s h => ?_⟩
  · refine decode_eq_error fun s' hs' => ?_
    obtain ⟨image, hfits, himage, -⟩ := (hexact bs s').1 hs'
    rw [← encode_image] at hbs hne
    obtain rfl := eq_of_prefix hfits (fits_image h) (himage.trans hbs)
    exact hne (hbs.eq_of_length_le himage.length_le)
  · obtain ⟨rest, hparse⟩ := decode_eq_ok_iff.1 h
    obtain ⟨image, hfits, rfl, rfl⟩ := parse_eq_ok.1 hparse
    exact ⟨Image.fits_collapse hfits, encode image, rest, rfl, hparse,
      image.length_encode_collapse_le⟩

theorem snapshots_read_exactly_repeated :
    let image : Image := ⟨5, [("n", 1), ("m", -2), ("n", 3)],
      [("u", []), ("t", [("k", ⟨⟨[1]⟩, 2⟩)]), ("t", [("j", ⟨⟨[3]⟩, 4⟩), ("j", ⟨⟨[]⟩, 1⟩)])],
      [("t", [("k", ⟨7, .tombstone⟩)])], 4⟩
    let s : Snapshot := ⟨5, .ofList [("m", -2), ("n", 3)],
      .ofList [("t", .ofList [("j", ⟨⟨[]⟩, 1⟩)]), ("u", ∅)],
      .ofList [("t", .ofList [("k", ⟨7, .tombstone⟩)])], 4⟩
    decode (encode image ++ [255]) = .ok s ∧ decode (encode s ++ [255]) = .ok s
      ∧ (∃ reason, decode ((encode s).take 30) = .error (.snapshot reason))
      ∧ (encode s).length < (encode image).length := by
  intro image s
  obtain ⟨hexact, -, hround, hcut, hlength⟩ := snapshots_read_exactly
  have hread : decode (encode image ++ [255]) = .ok s :=
    (hexact _ _).2 ⟨image, by decide, List.prefix_append _ _, by decide⟩
  have hfits := (hlength _ _ hread).1
  exact ⟨hread, hround s [255] hfits, hcut s _ hfits (List.take_prefix _ _) (by decide +kernel),
    by decide +kernel⟩

end Snapshot

end Lockstep
