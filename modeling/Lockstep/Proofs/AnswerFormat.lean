import Lockstep.Proofs.SnapshotFormat

/-!
# The written forms of an answer

An answer is spelled as it is written, but that the names of a set and the bindings of a map may
come in any order and more than once (`Output.Spelling`). So an answer that was read is read again
from what is written for it, where each name stands once and in order
(`Applied.answers_read_exactly`).
-/

namespace Lockstep

namespace Wire

variable {κ α β : Type}

/-- A field is spelled after what was spelled before it. -/
theorem Spells.field [Wire α] {R : Bytes → α → Prop} (h : Spells R) {make : α → β}
    {before : Bytes} {Q : Bytes → β → Prop}
    (hmake : ∀ {bs a}, R bs a → Q (before ++ bs) (make a)) :
    Takes before (do return make (← parse)) Q := by
  intro bs rest b hb
  obtain ⟨a, ha, rfl⟩ := map_eq_ok.1 hb
  obtain ⟨taken, rfl, hR⟩ := h.parse_eq_ok.1 ha
  exact ⟨taken, rfl, hmake hR⟩

/-! ## Small forms -/

theorem takes_byte (before : Bytes) : Takes before byte fun bs b => bs = before ++ [b]
  | _ :: _, _, _, rfl => ⟨[_], rfl, rfl⟩

instance : LawfulWire Unit where
  fits _ := true
  reads _ := .pure ()

instance : Canonical Unit where
  takes := Takes.pure ⟨rfl, rfl⟩

instance : LawfulWire Bool where
  fits _ := true
  reads := fun {b} _ rest => by cases b <;> rfl

instance : Canonical Bool where
  takes := (takes_byte []).bind fun {bs b} hbs => by
    subst hbs
    split
    · exact Takes.pure ⟨rfl, rfl⟩
    · exact Takes.pure ⟨rfl, rfl⟩
    · exact takes_throw _

instance [Wire α] [LawfulWire α] : LawfulWire (Option α) where
  fits o := o.all fits
  reads := fun {o} h => by
    cases o with
    | none => exact fun rest => rfl
    | some a => exact ((reads h).map some : _)

instance [Wire α] [LawfulWire α] [Canonical α] : Canonical (Option α) where
  takes := (takes_byte []).bind fun {bs b} hbs => by
    subst hbs
    split
    · exact Takes.pure ⟨rfl, rfl⟩
    · exact takes₁ fun a h => ⟨h, rfl⟩
    · exact takes_throw _

/-! ## Maps and sets -/

section Maps

theorem encode_units [Wire κ] (ks : List κ) : encode (ks.map (·, ())) = encode ks := by
  have hmember : (fun k : κ => encode (k, ())) = encode := by
    funext k
    exact List.append_nil (encode k)
  rw [encode_list, encode_list, List.length_map, List.flatMap_map, hmember]

theorem fits_units [Wire κ] [LawfulWire κ] (ks : List κ) : fits (ks.map (·, ())) = fits ks := by
  have hmember : fits ∘ (fun k : κ => (k, ())) = fits := by
    funext k
    exact Bool.and_true (fits k)
  rw [Bool.eq_iff_iff, fits_list, fits_list, List.length_map, List.all_map, hmember]

variable [Ord κ] [Std.TransOrd κ] [Std.LawfulEqOrd κ] [Wire κ] [LawfulWire κ] [Canonical κ]

/-- A map is spelled by any bindings that come to it. -/
theorem spells_ordMap [Wire α] [LawfulWire α] [Canonical α] :
    Spells fun bs (m : OrdMap κ α) =>
      ∃ es : List (κ × α), fits es = true ∧ bs = encode es ∧ OrdMap.ofList es = m where
  takes := takes₁ fun es h => ⟨es, h, rfl, rfl⟩
  reads := by
    rintro _ _ ⟨es, h, rfl, rfl⟩
    exact (reads h).map OrdMap.ofList

/-- A set is spelled by any list of its members. -/
theorem spells_ordSet : Spells fun bs (set : OrdSet κ) =>
    ∃ ks : List κ, fits ks = true ∧ bs = encode ks ∧ OrdSet.ofList ks = set where
  takes := takes₁ fun es h => by
    obtain ⟨ks, rfl⟩ : ∃ ks : List κ, ks.map (·, ()) = es := ⟨es.map (·.1), by
      rw [List.map_map]
      exact List.map_id es⟩
    rw [fits_units] at h
    exact ⟨ks, h, encode_units ks, rfl⟩
  reads := by
    rintro _ _ ⟨ks, h, rfl, rfl⟩
    rw [← fits_units] at h
    rw [← encode_units]
    exact (reads h).map OrdMap.ofList

end Maps

end Wire

open Wire

/-! ## Answers -/

namespace Output

/-- The lengths in the output fit in eight bytes. -/
def fits : Output → Bool
  | unit | flag _ | count _ | counter _ => true
  | value e => Wire.fits e
  | keys ks | tableNames ks => Wire.fits ks
  | values vs => Wire.fits vs
  | entries es => Wire.fits es
  | counters cs => Wire.fits cs

theorem reads : ∀ {o : Output}, o.fits = true → Reads parse (encode o) o
  | unit, _ => reads_oneOf rfl (.pure _)
  | flag _, _ => reads_oneOf rfl ((Wire.reads rfl).map flag)
  | count _, _ => reads_oneOf rfl ((Wire.reads rfl).map count)
  | value _, h => reads_oneOf rfl ((Wire.reads h).map value)
  | keys _, h => reads_oneOf rfl ((Wire.reads h).map keys)
  | values _, h => reads_oneOf rfl ((Wire.reads h).map values)
  | entries _, h => reads_oneOf rfl ((Wire.reads h).map entries)
  | counter _, _ => reads_oneOf rfl ((Wire.reads rfl).map counter)
  | tableNames _, h => reads_oneOf rfl ((Wire.reads h).map tableNames)
  | counters _, h => reads_oneOf rfl ((Wire.reads h).map counters)

instance : LawfulWire Output where
  fits := fits
  reads := reads

/-- The ways an output can be spelled: as it is written, or with the names of a set or the bindings
of the counters listed in any way. -/
inductive Spelling : Bytes → Output → Prop
  | written {o : Output} (h : Wire.fits o = true) : Spelling (encode o) o
  | keys (ks : List String) (h : Wire.fits ks = true) :
    Spelling (tag 4 ++ encode ks) (.keys (.ofList ks))
  | tableNames (ts : List String) (h : Wire.fits ts = true) :
    Spelling (tag 8 ++ encode ts) (.tableNames (.ofList ts))
  | counters (cs : List (String × Int64)) (h : Wire.fits cs = true) :
    Spelling (tag 9 ++ encode cs) (.counters (.ofList cs))

/-- The forms of an output are gone through in the order of their numbers. -/
theorem takes_spelling : Takes [] parse Spelling := by
  refine takes_oneOf ?_
  simp only [List.zipIdx, List.forall_mem_cons]
  refine ⟨Takes.pure (.written (o := .unit) rfl), takes₁ fun b _ => .written (o := .flag b) rfl,
    takes₁ fun n _ => .written (o := .count n) rfl, takes₁ fun e h => .written (o := .value e) h,
    spells_ordSet.field ?keys, takes₁ fun vs h => .written (o := .values vs) h,
    takes₁ fun es h => .written (o := .entries es) h,
    takes₁ fun n _ => .written (o := .counter n) rfl, spells_ordSet.field ?tableNames,
    spells_ordMap.field ?counters, List.forall_mem_nil _⟩
  case keys =>
    rintro _ _ ⟨ks, h, rfl, rfl⟩
    exact .keys ks h
  case tableNames =>
    rintro _ _ ⟨ts, h, rfl, rfl⟩
    exact .tableNames ts h
  case counters =>
    rintro _ _ ⟨cs, h, rfl, rfl⟩
    exact .counters cs h

theorem spells : Spells Spelling := by
  refine ⟨takes_spelling, fun h => ?_⟩
  cases h with
  | written h => exact reads h
  | keys ks h => exact reads_oneOf rfl ((spells_ordSet.reads ⟨ks, h, rfl, rfl⟩).map Output.keys)
  | tableNames ts h =>
    exact reads_oneOf rfl ((spells_ordSet.reads ⟨ts, h, rfl, rfl⟩).map Output.tableNames)
  | counters cs h =>
    exact reads_oneOf rfl ((spells_ordMap.reads ⟨cs, h, rfl, rfl⟩).map Output.counters)

theorem Spelling.fits {bs : Bytes} {o : Output} (h : Spelling bs o) : Wire.fits o = true := by
  cases h with
  | written h => exact h
  | keys ks h | tableNames ks h => exact fits_ofList ((fits_units ks).trans h)
  | counters cs h => exact fits_ofList h

end Output

namespace Outcome

variable {α : Type} [Wire α]

instance [LawfulWire α] : LawfulWire (Outcome α) where
  fits o := o.value?.all Wire.fits
  reads := fun {o} h => by
    cases o with
    | ok a => exact reads_oneOf rfl ((Wire.reads h).map ok)
    | locked => exact reads_oneOf rfl (.pure _)

inductive Spelling (R : Bytes → α → Prop) : Bytes → Outcome α → Prop
  | ok {bs : Bytes} {a : α} (h : R bs a) : Spelling R (tag 0 ++ bs) (.ok a)
  | locked : Spelling R (tag 1) .locked

theorem spells {R : Bytes → α → Prop} (h : Spells R) : Spells (Spelling R) := by
  refine ⟨takes_oneOf ?_, fun ho => ?_⟩
  · simp only [List.zipIdx, List.forall_mem_cons]
    exact ⟨h.field .ok, Takes.pure .locked, List.forall_mem_nil _⟩
  · cases ho with
    | ok ha => exact reads_oneOf rfl ((h.reads ha).map ok)
    | locked => exact reads_oneOf rfl (.pure _)

end Outcome

namespace Applied

instance : LawfulWire Applied where
  fits r := Wire.fits r.outcome
  reads := fun {r} h =>
    (Wire.reads (a := r.index) rfl).bind ((Wire.reads h).map (Applied.mk r.index))

def Spelling (bs : Bytes) (r : Applied) : Prop :=
  ∃ taken, bs = encode r.index ++ taken ∧ Outcome.Spelling Output.Spelling taken r.outcome

theorem spells : Spells Spelling where
  takes := takes_field fun _ _ => (Outcome.spells Output.spells).field fun h => ⟨_, rfl, h⟩
  reads := by
    rintro _ r ⟨taken, rfl, h⟩
    exact (Wire.reads (a := r.index) rfl).bind
      (((Outcome.spells Output.spells).reads h).map (Applied.mk r.index))

variable {r : Applied} {bs : Bytes}

theorem spelling_encode (h : Wire.fits r = true) : Spelling (encode r) r := by
  obtain ⟨index, _ | _⟩ := r
  · exact ⟨_, rfl, .ok (.written h)⟩
  · exact ⟨_, rfl, .locked⟩

theorem Spelling.fits (h : Spelling bs r) : Wire.fits r = true := by
  obtain ⟨index, outcome⟩ := r
  obtain ⟨taken, -, ho⟩ := h
  cases ho with
  | ok ho => exact ho.fits
  | locked => rfl

/-- What is written is read, whatever follows it, and nothing is read off a part of it. Bytes are
read as an answer just if they begin with a spelling of it, and then the answer is read again from
what is written for it: the names of a set and of the counters are those that were spelled, each
once and in order, and of a name that was bound more than once the last binding counts. -/
theorem answers_read_exactly :
    (∀ (r : Applied) rest, Wire.fits r = true → decode (encode r ++ rest) = .ok r)
      ∧ (∀ (r : Applied) bs, Wire.fits r = true → bs <+: encode r → bs ≠ encode r →
          ∃ f, (decode bs : Except Fault Applied) = .error f)
      ∧ (∀ bs (r : Applied), decode bs = .ok r ↔ ∃ taken, taken <+: bs ∧ Spelling taken r)
      ∧ (∀ bs (r : Applied), decode bs = .ok r →
          Wire.fits r = true ∧ ∀ rest, decode (encode r ++ rest) = .ok r)
      ∧ (∀ ks : List String, (OrdSet.ofList ks).keys.Pairwise (compare · · = .lt)
          ∧ ∀ k, k ∈ (OrdSet.ofList ks).keys ↔ k ∈ ks)
      ∧ ∀ cs : List (String × Int64), (OrdMap.ofList cs).keys.Pairwise (compare · · = .lt)
          ∧ ∀ name, (OrdMap.ofList cs).get? name = OrdMap.lookup name cs.reverse := by
  have hround (r : Applied) (rest : Bytes) (h : Wire.fits r = true) :
      decode (encode r ++ rest) = .ok r := decode_encode_append h rest
  refine ⟨hround, fun r bs h => spells.decode_of_proper_prefix (spelling_encode h),
    fun bs r => spells.decode_eq_ok, fun bs r h => ?_, fun ks => ⟨?_, fun k => ?_⟩, fun cs => ⟨?_,
    fun name => OrdMap.get?_ofList cs name⟩⟩
  · obtain ⟨taken, -, htaken⟩ := spells.decode_eq_ok.1 h
    exact ⟨htaken.fits, fun rest => hround r rest htaken.fits⟩
  · exact List.pairwise_map.2 (OrdSet.ofList ks).ascending
  · exact OrdMap.mem_keys.trans OrdSet.contains_ofList
  · exact List.pairwise_map.2 (OrdMap.ofList cs).ascending

theorem answers_read_exactly_repeated :
    let bs : Bytes := encode (4 : UInt64) ++ (tag 0 ++ (tag 9
      ++ encode ([("n", 1), ("m", -2), ("n", 3)] : List (String × Int64))))
    let r : Applied := ⟨4, .ok (.counters (.ofList [("m", -2), ("n", 3)]))⟩
    decode (bs ++ [255]) = .ok r ∧ decode (encode r ++ [255]) = .ok r
      ∧ ∃ f, (decode ((encode r).take 30) : Except Fault Applied) = .error f := by
  intro bs r
  obtain ⟨hround, hcut, hexact, hagain, -⟩ := answers_read_exactly
  have hspelling : Spelling bs ⟨4, .ok (.counters (.ofList [("n", 1), ("m", -2), ("n", 3)]))⟩ :=
    ⟨_, rfl, .ok (.counters _ (by decide))⟩
  have hread : decode (bs ++ [255]) = .ok r :=
    (hexact _ _).2 ⟨bs, List.prefix_append _ _, hspelling⟩
  obtain ⟨hfits, hrest⟩ := hagain _ _ hread
  exact ⟨hread, hrest [255], hcut r _ hfits (List.take_prefix _ _) (by decide +kernel)⟩

end Applied

end Lockstep
