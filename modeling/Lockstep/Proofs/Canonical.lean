import Lockstep.Proofs.Parts

/-!
# What was read is what is written

A form is known if it is known which bytes are spellings of which values, so that a value is read
just off its spellings (`Spells`). Then bytes are read as a value just if they begin with a spelling
of it, and bytes that end within a spelling are refused (`Spells.decode_of_proper_prefix`).

A form is canonical if a value has no spelling but its own written form: what a reader took off the
front for a value is what writing the value gives (`Canonical`). Then a value is read from just
the bytes its written form is a front of (`decode_eq_ok_iff`), and no written form is a front of
another (`eq_of_prefix`).
-/

namespace Lockstep

namespace Wire

variable {α β γ δ ε : Type}

/-- Whatever the reader takes off the front of some bytes for a value, together with what was taken
before, is related to the value. -/
def Takes (before : Bytes) (p : Reader α) (R : Bytes → α → Prop) : Prop :=
  ∀ (bs rest : Bytes) (a : α), p bs = .ok (a, rest) →
    ∃ taken, bs = taken ++ rest ∧ R (before ++ taken) a

variable {before : Bytes} {R : Bytes → α → Prop}

theorem Takes.pure {a : α} (h : R before a) : Takes before (pure a) R := by
  intro bs rest b hb
  cases hb
  exact ⟨[], rfl, by rwa [List.append_nil]⟩

theorem takes_throw (f : Fault) : Takes before (throw f) R := by
  intro bs rest b hb
  cases hb

theorem Takes.bind {p : Reader β} {f : β → Reader α} {Q : Bytes → β → Prop}
    (h : Takes before p Q) (h' : ∀ {bs b}, Q bs b → Takes bs (f b) R) :
    Takes before (p >>= f) R := by
  intro bs rest a ha
  simp only [Bind.bind, StateT.bind] at ha
  rcases hp : p bs with e | ⟨b, mid⟩
  · rw [hp] at ha
    cases ha
  · rw [hp] at ha
    obtain ⟨taken, rfl, hQ⟩ := h _ _ _ hp
    obtain ⟨taken', rfl, hR⟩ := h' hQ _ _ _ ha
    exact ⟨taken ++ taken', (List.append_assoc _ _ _).symm, by rwa [← List.append_assoc]⟩

theorem decode_eq_ok [Wire α] {bs : Bytes} {a : α} :
    decode bs = .ok a ↔ ∃ rest, parse bs = .ok (a, rest) := by
  rw [decode]
  rcases (parse : Reader α) bs with f | ⟨b, rest⟩ <;> constructor
  · intro h
    cases h
  · rintro ⟨_, h⟩
    cases h
  · intro h
    cases h
    exact ⟨rest, rfl⟩
  · rintro ⟨_, h⟩
    cases h
    rfl

/-- Just these bytes are read as these values. -/
structure Spells [Wire α] (R : Bytes → α → Prop) : Prop where
  takes : Takes [] parse R
  reads {bs : Bytes} {a : α} : R bs a → Reads parse bs a

section Spells

variable [Wire α] {R : Bytes → α → Prop} {bs taken rest : Bytes} {a : α}

theorem Spells.parse_eq_ok (h : Spells R) :
    parse bs = .ok (a, rest) ↔ ∃ taken, bs = taken ++ rest ∧ R taken a := by
  constructor
  · exact h.takes bs rest a
  · rintro ⟨taken, rfl, hR⟩
    exact h.reads hR rest

theorem Spells.decode_eq_ok (h : Spells R) :
    decode bs = .ok a ↔ ∃ taken, taken <+: bs ∧ R taken a := by
  simp only [Wire.decode_eq_ok, h.parse_eq_ok]
  constructor
  · rintro ⟨rest, taken, rfl, hR⟩
    exact ⟨taken, List.prefix_append _ _, hR⟩
  · rintro ⟨taken, ⟨rest, rfl⟩, hR⟩
    exact ⟨rest, taken, rfl, hR⟩

/-- No spelling is a front of another. -/
theorem Spells.eq_of_prefix (h : Spells R) {b : α} (ha : R bs a) (hb : R taken b)
    (hfront : bs <+: taken) : bs = taken := by
  obtain ⟨rest, rfl⟩ := hfront
  have hshort := h.reads ha rest
  have hlong := h.reads hb []
  rw [List.append_nil, hshort] at hlong
  obtain ⟨-, rfl⟩ := Prod.mk.inj (Except.ok.inj hlong)
  rw [List.append_nil]

theorem Spells.decode_of_proper_prefix (h : Spells R) (ha : R taken a) (hbs : bs <+: taken)
    (hne : bs ≠ taken) : ∃ f, (decode bs : Except Fault α) = .error f := by
  rcases hb : (decode bs : Except Fault α) with f | b
  · exact ⟨f, rfl⟩
  · obtain ⟨front, hfront, hR⟩ := h.decode_eq_ok.1 hb
    obtain rfl := h.eq_of_prefix hR ha (hfront.trans hbs)
    exact absurd (hbs.eq_of_length_le hfront.length_le) hne

end Spells

/-- A written form that is the only one of its value. -/
class Canonical (α : Type) [Wire α] [LawfulWire α] : Prop where
  takes : Takes [] (parse : Reader α) fun bs a => fits a = true ∧ bs = encode a

section Canonical

variable [Wire α] [LawfulWire α] [Canonical α]

/-- The only spelling of a value is its written form. -/
theorem spells_encode : Spells fun bs (a : α) => fits a = true ∧ bs = encode a where
  takes := Canonical.takes
  reads := by
    rintro _ a ⟨h, rfl⟩
    exact reads h

theorem parse_eq_ok_iff {bs rest : Bytes} {a : α} :
    parse bs = .ok (a, rest) ↔ fits a = true ∧ bs = encode a ++ rest := by
  rw [spells_encode.parse_eq_ok]
  constructor
  · rintro ⟨taken, rfl, hfits, rfl⟩
    exact ⟨hfits, rfl⟩
  · rintro ⟨hfits, rfl⟩
    exact ⟨_, rfl, hfits, rfl⟩

theorem decode_eq_ok_iff {bs : Bytes} {a : α} (h : fits a = true) :
    decode bs = .ok a ↔ encode a <+: bs := by
  rw [decode_eq_ok]
  simp only [parse_eq_ok_iff, h, true_and]
  exact ⟨fun ⟨rest, h⟩ => ⟨rest, h.symm⟩, fun ⟨rest, h⟩ => ⟨rest, h.symm⟩⟩

theorem fits_of_decode {bs : Bytes} {a : α} (h : decode bs = .ok a) : fits a = true := by
  obtain ⟨rest, hparse⟩ := decode_eq_ok.1 h
  exact (parse_eq_ok_iff.1 hparse).1

theorem eq_of_prefix {a b : α} (ha : fits a = true) (hb : fits b = true)
    (h : encode a <+: encode b) : a = b := by
  have hdecode := (decode_eq_ok_iff hb).2 (List.prefix_refl _)
  rw [(decode_eq_ok_iff ha).2 h] at hdecode
  exact Except.ok.inj hdecode

theorem decode_of_proper_prefix {bs : Bytes} {a : α} (ha : fits a = true) (h : bs <+: encode a)
    (hne : bs ≠ encode a) : ∃ f, (decode bs : Except Fault α) = .error f :=
  spells_encode.decode_of_proper_prefix ⟨ha, rfl⟩ h hne

end Canonical

/-! ## Fields -/

section Fields

variable [Wire β] [Wire γ] [Wire δ] [Wire ε] [LawfulWire β] [LawfulWire γ] [LawfulWire δ]
  [LawfulWire ε] [Canonical β] [Canonical γ] [Canonical δ] [Canonical ε]

theorem takes_field {f : β → Reader α}
    (h : ∀ b, fits b = true → Takes (before ++ encode b) (f b) R) :
    Takes before (do f (← parse)) R := by
  have hfield : Takes before (parse : Reader β) fun bs b =>
      fits b = true ∧ bs = before ++ encode b := by
    intro bs rest b hb
    obtain ⟨hfits, rfl⟩ := parse_eq_ok_iff.1 hb
    exact ⟨encode b, rfl, hfits, rfl⟩
  refine hfield.bind ?_
  rintro _ b ⟨hb, rfl⟩
  exact h b hb

theorem takes₁ {make : β → α} (h : ∀ b, fits b = true → R (before ++ encode b) (make b)) :
    Takes before (do return make (← parse)) R :=
  takes_field fun b hb => Takes.pure (h b hb)

theorem takes₂ {make : β → γ → α}
    (h : ∀ b c, fits (b, c) = true → R (before ++ encode b ++ encode c) (make b c)) :
    Takes before (do return make (← parse) (← parse)) R :=
  takes_field fun b hb => takes₁ fun c hc => h b c (fits_pair.2 ⟨hb, hc⟩)

theorem takes₃ {make : β → γ → δ → α} (h : ∀ b c d, fits (b, c, d) = true →
      R (before ++ encode b ++ encode c ++ encode d) (make b c d)) :
    Takes before (do return make (← parse) (← parse) (← parse)) R :=
  takes_field fun b hb => takes₂ fun c d h' => h b c d (fits_pair.2 ⟨hb, h'⟩)

theorem takes₄ {make : β → γ → δ → ε → α} (h : ∀ b c d e, fits (b, c, d, e) = true →
      R (before ++ encode b ++ encode c ++ encode d ++ encode e) (make b c d e)) :
    Takes before (do return make (← parse) (← parse) (← parse) (← parse)) R :=
  takes_field fun b hb => takes₃ fun c d e h' => h b c d e (fits_pair.2 ⟨hb, h'⟩)

end Fields

/-! ## Instances -/

theorem littleEndian_ofLittleEndian : ∀ bs : Bytes,
    littleEndian bs.length (ofLittleEndian bs) = bs
  | [] => rfl
  | b :: bs => by
    have hb := b.toNat_lt
    have hmod : (b.toNat + 256 * ofLittleEndian bs) % 256 = b.toNat := by omega
    have hdiv : (b.toNat + 256 * ofLittleEndian bs) / 256 = ofLittleEndian bs := by omega
    rw [ofLittleEndian, List.length_cons, littleEndian, hmod, hdiv, littleEndian_ofLittleEndian bs,
      UInt8.ofNat_toNat]

theorem ofLittleEndian_lt : ∀ bs : Bytes, ofLittleEndian bs < 256 ^ bs.length
  | [] => Nat.one_pos
  | b :: bs => by
    have hb := b.toNat_lt
    have ih := ofLittleEndian_lt bs
    rw [ofLittleEndian, List.length_cons, Nat.pow_succ]
    omega

theorem takes_take (before : Bytes) (n : ℕ) (short : Fault) :
    Takes before (take n short) fun bs taken => bs = before ++ taken ∧ taken.length = n := by
  intro bs rest taken h
  unfold take at h
  split at h
  · cases h
  · rename_i hn
    cases h
    exact ⟨bs.take n, (List.take_append_drop n bs).symm, rfl,
      List.length_take_of_le (Nat.not_lt.1 hn)⟩

theorem takes_number (width : ℕ) (short : Fault) : Takes [] (take width short) fun bs taken =>
    ofLittleEndian taken < 256 ^ width ∧ bs = littleEndian width (ofLittleEndian taken) := by
  intro bs rest taken h
  obtain ⟨taken', rfl, rfl, rfl⟩ := takes_take [] width short bs rest taken h
  exact ⟨taken', rfl, ofLittleEndian_lt _, (littleEndian_ofLittleEndian _).symm⟩

instance : Canonical UInt32 where
  takes := (takes_number 4 _).bind fun ⟨hlt, hbs⟩ => Takes.pure
    ⟨rfl, hbs.trans (congrArg (littleEndian 4) (UInt32.toNat_ofNat_of_lt' hlt).symm)⟩

instance : Canonical UInt64 where
  takes := (takes_number 8 _).bind fun ⟨hlt, hbs⟩ => Takes.pure
    ⟨rfl, hbs.trans (congrArg (littleEndian 8) (UInt64.toNat_ofNat_of_lt' hlt).symm)⟩

instance : Canonical Int64 where
  takes := takes₁ fun _ _ => ⟨rfl, rfl⟩

theorem takes_block : Takes before block fun bs b =>
    fitsLength b.length = true ∧ bs = before ++ encodeBlock b := by
  refine takes_field fun n _ bs rest b h => ?_
  obtain ⟨_, rfl, rfl, hlen⟩ := takes_take [] n.toNat .pastEnd bs rest b h
  refine ⟨_, rfl, decide_eq_true (hlen ▸ n.toNat_lt), ?_⟩
  rw [encodeBlock, hlen, UInt64.ofNat_toNat, List.append_assoc]
  rfl

instance : Canonical String where
  takes := takes_block.bind fun {_ b} ⟨hfits, hbs⟩ => by
    split
    · rename_i s hs
      obtain rfl := Text.utf8_of_ofUtf8 hs
      exact Takes.pure ⟨hfits, hbs⟩
    · exact takes_throw _

instance [Wire α] [Wire β] [LawfulWire α] [LawfulWire β] [Canonical α] [Canonical β] :
    Canonical (α × β) where
  takes := takes₂ fun _ _ h => ⟨h, rfl⟩

theorem takes_many [Wire α] [LawfulWire α] [Canonical α] : ∀ (n : ℕ) (before : Bytes),
    Takes before (many (parse : Reader α) n) fun bs as =>
      as.length = n ∧ as.all fits = true ∧ bs = before ++ as.flatMap encode
  | 0, before => Takes.pure ⟨rfl, rfl, (List.append_nil before).symm⟩
  | n + 1, before => takes_field fun a ha =>
    (takes_many n (before ++ encode a)).bind fun {bs as} ⟨hlen, has, hbs⟩ =>
      Takes.pure ⟨congrArg (· + 1) hlen, by rw [List.all_cons, ha, has]; rfl, by
        rw [hbs, List.flatMap_cons, List.append_assoc]⟩

instance [Wire α] [LawfulWire α] [Canonical α] : Canonical (List α) where
  takes := takes_field fun n _ bs rest as h => by
    obtain ⟨taken, rfl, hlen, has, hbs⟩ := takes_many n.toNat (encode n) bs rest as h
    refine ⟨taken, rfl, fits_list.2 ⟨hlen ▸ n.toNat_lt, has⟩, ?_⟩
    rw [encode_list, hlen, UInt64.ofNat_toNat]
    exact hbs

theorem takes_oneOf {forms : List (Reader α)}
    (h : ∀ form ∈ forms.zipIdx, Takes (tag (.ofNat form.2)) form.1 R) :
    Takes [] (oneOf forms) R := by
  refine takes_field fun n _ => ?_
  split
  · rename_i form hform
    have := h (form, n.toNat) (List.mk_mem_zipIdx_iff_getElem?.2 hform)
    rwa [UInt32.ofNat_toNat] at this
  · exact takes_throw _

end Wire

open Wire

instance : Canonical Value where
  takes := takes_block.bind fun ⟨hfits, hbs⟩ => Takes.pure ⟨hfits, hbs⟩

instance : Canonical Versioned where
  takes := takes₂ fun _ _ h => ⟨(fits_pair.1 h).1, rfl⟩

instance : Canonical PendingWrite where
  takes := takes_oneOf <| by
    simp only [List.zipIdx, List.forall_mem_cons]
    exact ⟨takes₁ fun _ h => ⟨h, rfl⟩, Takes.pure ⟨rfl, rfl⟩, nofun⟩

instance : Canonical Lock where
  takes := takes₂ fun _ _ h => ⟨(fits_pair.1 h).2, rfl⟩

instance : Canonical UpdateKind where
  takes := takes_oneOf <| by
    simp only [List.zipIdx, List.forall_mem_cons]
    exact ⟨takes₁ fun _ h => ⟨h, rfl⟩, takes₁ fun _ h => ⟨h, rfl⟩, takes₂ fun _ _ h => ⟨h, rfl⟩,
      takes₂ fun _ _ h => ⟨h, rfl⟩, Takes.pure ⟨rfl, rfl⟩, takes₁ fun _ h => ⟨h, rfl⟩,
      takes₁ fun _ h => ⟨h, rfl⟩, nofun⟩

instance : Canonical Update where
  takes := takes₃ fun _ _ _ h => ⟨h, rfl⟩

instance : Canonical Transaction where
  takes := takes₂ fun _ _ h => ⟨(fits_pair.1 h).2, rfl⟩

end Lockstep
