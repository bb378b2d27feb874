import Lockstep.Proofs.RoundTrip
import Lockstep.Wire.Command

/-!
# The parts of a written form

A written form is put together from parts: numbers, alternatives, blocks of bytes and texts
(`Part`). A reader follows the parts if it takes them off one by one, and if it stops with the
right fault as soon as other bytes stand where a part is due (`Follows`). Readers run one after
another follow their parts in order (`Follows.bind`), up to a whole transaction.
-/

namespace Lockstep

theorem Text.utf8_of_ofUtf8 {bs : Bytes} {s : String} (h : Text.ofUtf8 bs = .ok s) :
    Text.utf8 s = bs := by
  unfold Text.ofUtf8 at h
  split at h
  · rename_i s' hs
    cases h
    unfold String.fromUTF8? at hs
    split at hs
    · cases hs
      simp [Text.utf8, String.fromUTF8, String.toUTF8_eq_toByteArray]
    · cases hs
  · cases h

theorem Text.ofUtf8_eq_error {bs : Bytes} (h : ∀ s, Text.utf8 s ≠ bs) :
    Text.ofUtf8 bs = .error (Text.Utf8.fault 0 bs) := by
  rcases hs : Text.ofUtf8 bs with f | s
  · unfold Text.ofUtf8 at hs
    split at hs
    · cases hs
    · exact hs.symm
  · exact absurd (Text.utf8_of_ofUtf8 hs) (h s)

namespace Wire

inductive Part where
  | number (n : UInt64)
  /-- An alternative, by its number among so many. -/
  | variant (variants : ℕ) (n : UInt32)
  | block (bs : Bytes)
  | text (s : String)

namespace Part

def bytes : Part → Bytes
  | number n => encode n
  | variant _ n => tag n
  | block bs => encodeBlock bs
  | text s => encode s

/-- The width of the integer a part begins with. -/
def lead : Part → ℕ
  | variant _ _ => 4
  | number _ | block _ | text _ => 8

/-- The bytes are no part of this kind, and the fault says why. -/
inductive Broken : Part → Bytes → Fault → Prop
  | cut {part : Part} {bs : Bytes} (h : bs.length < part.lead) : Broken part bs .endOfInput
  | unknown {variants : ℕ} {n m : UInt32} {rest : Bytes} (h : variants ≤ m.toNat) :
    Broken (variant variants n) (tag m ++ rest) (.unknownVariant m variants)
  | blockPastEnd {bs rest : Bytes} {n : UInt64} (h : rest.length < n.toNat) :
    Broken (block bs) (encode n ++ rest) .pastEnd
  | textPastEnd {s : String} {rest : Bytes} {n : UInt64} (h : rest.length < n.toNat) :
    Broken (text s) (encode n ++ rest) .pastEnd
  | noText {s : String} {bs rest : Bytes} (hfits : fitsLength bs.length = true)
    (h : ∀ s', Text.utf8 s' ≠ bs) :
    Broken (text s) (encodeBlock bs ++ rest) (.text (Text.Utf8.fault 0 bs))

end Part

def bytes (ps : List Part) : Bytes := ps.flatMap Part.bytes

/-- After some of the parts the bytes go on with what is no part of the kind that is due. -/
inductive Broken : List Part → Bytes → Fault → Prop
  | here {part : Part} {ps : List Part} {bs : Bytes} {f : Fault} (h : part.Broken bs f) :
    Broken (part :: ps) bs f
  | later {part : Part} {ps : List Part} {bs : Bytes} {f : Fault} (h : Broken ps bs f) :
    Broken (part :: ps) (part.bytes ++ bs) f

variable {α β : Type}

theorem encode_pair [Wire α] [Wire β] (a : α) (b : β) : encode (a, b) = encode a ++ encode b := rfl

theorem fits_pair [Wire α] [Wire β] [LawfulWire α] [LawfulWire β] {p : α × β} :
    fits p = true ↔ fits p.1 = true ∧ fits p.2 = true := Bool.and_eq_true_iff

theorem encode_list [Wire α] (as : List α) :
    encode as = encode (UInt64.ofNat as.length) ++ as.flatMap encode := rfl

theorem fits_list [Wire α] [LawfulWire α] {as : List α} :
    fits as = true ↔ as.length < UInt64.size ∧ as.all fits = true := by
  rw [← decide_eq_true_iff (p := as.length < UInt64.size)]
  exact Bool.and_eq_true_iff

theorem bytes_cons (part : Part) (ps : List Part) :
    bytes (part :: ps) = part.bytes ++ bytes ps := List.flatMap_cons

theorem bytes_append (ps qs : List Part) : bytes (ps ++ qs) = bytes ps ++ bytes qs :=
  List.flatMap_append

theorem Broken.after {part : Part} {back : List Part} {bs : Bytes} {f : Fault}
    (h : part.Broken bs f) : ∀ front : List Part,
      Broken (front ++ part :: back) (bytes front ++ bs) f
  | [] => .here h
  | first :: front => by
    rw [bytes_cons, List.append_assoc]
    exact .later (Broken.after h front)

theorem Broken.of_append {qs : List Part} {f : Fault} : ∀ {ps : List Part} {bs : Bytes},
    Broken (ps ++ qs) bs f → Broken ps bs f ∨ ∃ cs, bs = bytes ps ++ cs ∧ Broken qs cs f
  | [], bs, h => .inr ⟨bs, rfl, h⟩
  | part :: ps, _, .here h => .inl (.here h)
  | part :: ps, _, .later h => by
    rcases Broken.of_append h with hps | ⟨cs, rfl, hqs⟩
    · exact .inl (.later hps)
    · exact .inr ⟨cs, (List.append_assoc _ _ _).symm, hqs⟩

/-- The reader takes the parts off the front for the value, and where they are broken it stops
with the fault. -/
structure Follows (p : Reader α) (ps : List Part) (a : α) : Prop where
  reads : Reads p (bytes ps) a
  stops {bs : Bytes} {f : Fault} : Broken ps bs f → p bs = .error f

theorem bind_of_ok {p : Reader α} {g : α → Reader β} {bs rest : Bytes} {a : α}
    (h : p bs = .ok (a, rest)) : (p >>= g) bs = g a rest := by
  simp only [Bind.bind, StateT.bind, h]
  rfl

theorem bind_of_error {p : Reader α} {g : α → Reader β} {bs : Bytes} {f : Fault}
    (h : p bs = .error f) : (p >>= g) bs = .error f := by
  simp only [Bind.bind, StateT.bind, h]
  rfl

theorem Follows.pure (a : α) : Follows (pure a) [] a where
  reads := .pure a
  stops := nofun

theorem Follows.bind {p : Reader α} {g : α → Reader β} {ps qs : List Part} {a : α} {b : β}
    (h : Follows p ps a) (h' : Follows (g a) qs b) : Follows (p >>= g) (ps ++ qs) b where
  reads := by
    rw [bytes_append]
    exact h.reads.bind h'.reads
  stops := fun hbroken => by
    rcases hbroken.of_append with hps | ⟨cs, rfl, hqs⟩
    · exact bind_of_error (h.stops hps)
    · rw [bind_of_ok (h.reads cs)]
      exact h'.stops hqs

theorem Follows.map {p : Reader α} {ps : List Part} {a : α} (h : Follows p ps a) (g : α → β) :
    Follows (p >>= fun a => Pure.pure (g a)) ps (g a) := by
  have := h.bind (g := fun a => Pure.pure (g a)) (.pure (g a))
  rwa [List.append_nil] at this

theorem Broken.of_singleton {part : Part} {bs : Bytes} {f : Fault} (h : Broken [part] bs f) :
    part.Broken bs f := by
  cases h with
  | here h => exact h
  | later h => cases h

/-! ## Readers of one part -/

theorem parse_of_cut {bs : Bytes} (h : bs.length < 8) :
    (parse : Reader UInt64) bs = .error .endOfInput :=
  bind_of_error (if_pos h)

theorem parse_variant_of_cut {bs : Bytes} (h : bs.length < 4) :
    (parse : Reader UInt32) bs = .error .endOfInput :=
  bind_of_error (if_pos h)

theorem block_of_pastEnd {n : UInt64} {rest : Bytes} (h : rest.length < n.toNat) :
    block (encode n ++ rest) = .error .pastEnd := by
  rw [block, bind_of_ok (reads (a := n) rfl rest)]
  exact if_pos h

theorem follows_number (n : UInt64) : Follows parse [.number n] n where
  reads := by simpa [bytes, Part.bytes] using reads (a := n) rfl
  stops := fun hbroken => by
    cases hbroken.of_singleton with
    | cut h => exact parse_of_cut h

theorem follows_block {bs : Bytes} (h : fitsLength bs.length = true) :
    Follows block [.block bs] bs where
  reads := by simpa [bytes, Part.bytes] using reads_block h
  stops := fun hbroken => by
    cases hbroken.of_singleton with
    | cut h => exact bind_of_error (parse_of_cut h)
    | blockPastEnd h => exact block_of_pastEnd h

theorem follows_text {s : String} (h : fits s = true) : Follows parse [.text s] s where
  reads := by simpa [bytes, Part.bytes] using reads h
  stops := fun hbroken => by
    cases hbroken.of_singleton with
    | cut h => exact bind_of_error (bind_of_error (parse_of_cut h))
    | textPastEnd h => exact bind_of_error (block_of_pastEnd h)
    | @noText _ bs rest hfits hno =>
      refine (bind_of_ok (reads_block hfits rest)).trans ?_
      simp only [Text.ofUtf8_eq_error hno]
      rfl

/-- The alternative is read by its form among all forms. -/
theorem follows_oneOf {forms : List (Reader α)} {form : Reader α} {n : UInt32} {ps : List Part}
    {a : α} (hform : forms[n.toNat]? = some form) (h : Follows form ps a) :
    Follows (oneOf forms) (.variant forms.length n :: ps) a where
  reads := reads_oneOf hform h.reads
  stops := fun hbroken => by
    cases hbroken with
    | here hpart =>
      cases hpart with
      | cut h => exact bind_of_error (parse_variant_of_cut h)
      | @unknown _ _ m rest h =>
        refine (bind_of_ok (reads (a := m) rfl rest)).trans ?_
        rw [List.getElem?_eq_none h]
        rfl
    | @later _ _ bs _ hps =>
      refine (bind_of_ok (reads (a := n) rfl bs)).trans ?_
      rw [hform]
      exact h.stops hps

/-- A written form that is put together from parts. -/
class Parted (α : Type) [Wire α] [LawfulWire α] where
  parts : α → List Part
  bytes_parts (a : α) : bytes (parts a) = encode a
  follows {a : α} : fits a = true → Follows parse (parts a) a

export Parted (parts bytes_parts follows)

instance : Parted UInt64 where
  parts n := [.number n]
  bytes_parts _ := List.append_nil _
  follows := fun {n} _ => follows_number n

instance : Parted String where
  parts s := [.text s]
  bytes_parts _ := List.append_nil _
  follows h := follows_text h

instance : Parted Value where
  parts v := [.block v.bytes]
  bytes_parts _ := List.append_nil _
  follows h := (follows_block h).map Value.mk

instance [Wire α] [Wire β] [LawfulWire α] [LawfulWire β] [Parted α] [Parted β] :
    Parted (α × β) where
  parts p := parts p.1 ++ parts p.2
  bytes_parts p := by
    rw [bytes_append, bytes_parts, bytes_parts]
    rfl
  follows := fun {p} h => by
    obtain ⟨ha, hb⟩ := fits_pair.1 h
    exact (follows ha).bind ((follows hb).map fun b => (p.1, b))

theorem bytes_flatMap_parts [Wire α] [LawfulWire α] [Parted α] : ∀ as : List α,
    bytes (as.flatMap parts) = as.flatMap encode
  | [] => rfl
  | a :: as => by
    rw [List.flatMap_cons, List.flatMap_cons, bytes_append, bytes_parts, bytes_flatMap_parts as]

theorem follows_many [Wire α] [LawfulWire α] [Parted α] : ∀ {as : List α}, as.all fits = true →
    Follows (many parse as.length) (as.flatMap parts) as
  | [], _ => .pure []
  | a :: as, h => by
    rw [List.all_cons, Bool.and_eq_true] at h
    exact (follows h.1).bind ((follows_many h.2).map fun as => a :: as)

instance [Wire α] [LawfulWire α] [Parted α] : Parted (List α) where
  parts as := .number (UInt64.ofNat as.length) :: as.flatMap parts
  bytes_parts as := by
    rw [bytes_cons, bytes_flatMap_parts]
    rfl
  follows := fun {as} h => by
    obtain ⟨hlength, hall⟩ := fits_list.1 h
    have hn : (UInt64.ofNat as.length).toNat = as.length := UInt64.toNat_ofNat_of_lt' hlength
    refine (follows_number (UInt64.ofNat as.length)).bind ?_
    rw [hn]
    exact follows_many hall

section Fields

variable {γ δ ε : Type} [Wire α] [Wire β] [Wire γ] [Wire δ] [LawfulWire α] [LawfulWire β]
  [LawfulWire γ] [LawfulWire δ] [Parted α] [Parted β] [Parted γ] [Parted δ]
  {a : α} {b : β} {c : γ} {d : δ}

theorem follows₁ (make : α → ε) (h : fits a = true) :
    Follows (do return make (← parse)) (parts a) (make a) :=
  (follows h).map make

theorem follows₂ (make : α → β → ε) (h : fits (a, b) = true) :
    Follows (do return make (← parse) (← parse)) (parts (a, b)) (make a b) :=
  have h := fits_pair.1 h
  (follows h.1).bind (follows₁ (make a) h.2)

theorem follows₃ (make : α → β → γ → ε) (h : fits (a, b, c) = true) :
    Follows (do return make (← parse) (← parse) (← parse)) (parts (a, b, c)) (make a b c) :=
  have h := fits_pair.1 h
  (follows h.1).bind (follows₂ (make a) h.2)

theorem follows₄ (make : α → β → γ → δ → ε) (h : fits (a, b, c, d) = true) :
    Follows (do return make (← parse) (← parse) (← parse) (← parse)) (parts (a, b, c, d))
      (make a b c d) :=
  have h := fits_pair.1 h
  (follows h.1).bind (follows₃ (make a) h.2)

end Fields

end Wire

open Wire

namespace UpdateKind

def fits : UpdateKind → Bool
  | put v | putIfAbsent v | removeIfValue v => Wire.fits v
  | putIfVersion v n => Wire.fits (v, n)
  | putIfValue v current => Wire.fits (v, current)
  | remove | removeIfVersion _ => true

def parts : UpdateKind → List Part
  | put v => .variant 7 0 :: Wire.parts v
  | putIfAbsent v => .variant 7 1 :: Wire.parts v
  | putIfVersion v n => .variant 7 2 :: Wire.parts (v, n)
  | putIfValue v current => .variant 7 3 :: Wire.parts (v, current)
  | remove => [.variant 7 4]
  | removeIfVersion n => .variant 7 5 :: Wire.parts n
  | removeIfValue current => .variant 7 6 :: Wire.parts current

theorem follows : ∀ {kind : UpdateKind}, kind.fits = true → Follows parse kind.parts kind
  | put _, h => follows_oneOf rfl (follows₁ put h)
  | putIfAbsent _, h => follows_oneOf rfl (follows₁ putIfAbsent h)
  | putIfVersion _ _, h => follows_oneOf rfl (follows₂ putIfVersion h)
  | putIfValue _ _, h => follows_oneOf rfl (follows₂ putIfValue h)
  | remove, _ => follows_oneOf rfl (.pure remove)
  | removeIfVersion _, _ => follows_oneOf rfl (follows₁ removeIfVersion rfl)
  | removeIfValue _, h => follows_oneOf rfl (follows₁ removeIfValue h)

theorem bytes_parts (kind : UpdateKind) : bytes kind.parts = encode kind := by
  cases kind <;>
    simp only [parts, bytes_cons, Wire.bytes_parts, Part.bytes, encode_pair, ← List.append_assoc] <;>
    rfl

end UpdateKind

instance : LawfulWire UpdateKind where
  fits := UpdateKind.fits
  reads := fun {kind} h => UpdateKind.bytes_parts kind ▸ (UpdateKind.follows h).reads

instance : Parted UpdateKind where
  parts := UpdateKind.parts
  bytes_parts := UpdateKind.bytes_parts
  follows := UpdateKind.follows

instance : LawfulWire Update where
  fits u := fits (u.table, u.key, u.kind)
  reads := fun {u} h => by
    have := (follows₃ Update.mk h).reads
    rwa [bytes_parts, encode_pair, encode_pair, ← List.append_assoc] at this

instance : Parted Update where
  parts u := parts (u.table, u.key, u.kind)
  bytes_parts u := by
    rw [bytes_parts, encode_pair, encode_pair, ← List.append_assoc]
    rfl
  follows h := follows₃ Update.mk h

instance : LawfulWire Transaction where
  fits txn := fits txn.updates
  reads := fun {txn} h => (reads (a := txn.id) rfl).bind ((reads h).map (Transaction.mk txn.id))

instance : Parted Transaction where
  parts txn := parts (txn.id, txn.updates)
  bytes_parts txn := bytes_parts (txn.id, txn.updates)
  follows h := follows₂ Transaction.mk h

end Lockstep
