import Lockstep.Proofs.Canonical

/-!
# The written form of a command

A command is read from just the bytes its written form is a front of, so it has one written form,
and none is a front of another. An entry that breaks off within a command, or goes on with what is
no part of one, breaks the protocol (`Command.commands_read_exactly`).
-/

namespace Lockstep

open Wire

namespace Command

/-- The lengths in the command fit in eight bytes, as those of all that a machine holds do. -/
def fits : Command → Bool
  | query .tableNames | query .counters => true
  | query (.size t) | query (.isEmpty t) | query (.keySet t) | query (.values t)
  | query (.entries t) | clear t | nextValue t | currentValue t => Wire.fits t
  | query (.containsKey t k) | query (.get t k) | write t k .remove => Wire.fits (t, k)
  | query (.containsValue t v) => Wire.fits (t, v)
  | write t k (.put v) | write t k (.putIfAbsent v) | write t k (.removeIfValue v) =>
    Wire.fits (t, k, v)
  | write t k (.removeIfVersion n) => Wire.fits (t, k, n)
  | write t k (.replaceValue old new) => Wire.fits (t, k, old, new)
  | write t k (.replaceVersion old new) => Wire.fits (t, k, old, new)
  | prepare txn | commit txn | rollback txn | prepareAndCommit txn => Wire.fits txn

/-- The number of the command among all commands, and its fields. -/
def parts : Command → List Part
  | query .tableNames => [.variant 24 0]
  | query .counters => [.variant 24 1]
  | query (.size t) => .variant 24 2 :: Wire.parts t
  | query (.isEmpty t) => .variant 24 3 :: Wire.parts t
  | query (.containsKey t k) => .variant 24 4 :: Wire.parts (t, k)
  | query (.containsValue t v) => .variant 24 5 :: Wire.parts (t, v)
  | query (.get t k) => .variant 24 6 :: Wire.parts (t, k)
  | query (.keySet t) => .variant 24 7 :: Wire.parts t
  | query (.values t) => .variant 24 8 :: Wire.parts t
  | query (.entries t) => .variant 24 9 :: Wire.parts t
  | write t k (.put v) => .variant 24 10 :: Wire.parts (t, k, v)
  | write t k (.putIfAbsent v) => .variant 24 11 :: Wire.parts (t, k, v)
  | write t k .remove => .variant 24 12 :: Wire.parts (t, k)
  | write t k (.removeIfValue v) => .variant 24 13 :: Wire.parts (t, k, v)
  | write t k (.removeIfVersion n) => .variant 24 14 :: Wire.parts (t, k, n)
  | write t k (.replaceValue old new) => .variant 24 15 :: Wire.parts (t, k, old, new)
  | write t k (.replaceVersion old new) => .variant 24 16 :: Wire.parts (t, k, old, new)
  | clear t => .variant 24 17 :: Wire.parts t
  | nextValue name => .variant 24 18 :: Wire.parts name
  | currentValue name => .variant 24 19 :: Wire.parts name
  | prepare txn => .variant 24 20 :: Wire.parts txn
  | commit txn => .variant 24 21 :: Wire.parts txn
  | rollback txn => .variant 24 22 :: Wire.parts txn
  | prepareAndCommit txn => .variant 24 23 :: Wire.parts txn

theorem follows : ∀ {c : Command}, c.fits = true → Follows parse c.parts c
  | query .tableNames, _ => follows_oneOf rfl (.pure _)
  | query .counters, _ => follows_oneOf rfl (.pure _)
  | query (.size _), h => follows_oneOf rfl (follows₁ _ h)
  | query (.isEmpty _), h => follows_oneOf rfl (follows₁ _ h)
  | query (.containsKey _ _), h => follows_oneOf rfl (follows₂ _ h)
  | query (.containsValue _ _), h => follows_oneOf rfl (follows₂ _ h)
  | query (.get _ _), h => follows_oneOf rfl (follows₂ _ h)
  | query (.keySet _), h => follows_oneOf rfl (follows₁ _ h)
  | query (.values _), h => follows_oneOf rfl (follows₁ _ h)
  | query (.entries _), h => follows_oneOf rfl (follows₁ _ h)
  | write _ _ (.put _), h => follows_oneOf rfl (follows₃ _ h)
  | write _ _ (.putIfAbsent _), h => follows_oneOf rfl (follows₃ _ h)
  | write _ _ .remove, h => follows_oneOf rfl (follows₂ _ h)
  | write _ _ (.removeIfValue _), h => follows_oneOf rfl (follows₃ _ h)
  | write _ _ (.removeIfVersion _), h => follows_oneOf rfl (follows₃ _ h)
  | write _ _ (.replaceValue _ _), h => follows_oneOf rfl (follows₄ _ h)
  | write _ _ (.replaceVersion _ _), h => follows_oneOf rfl (follows₄ _ h)
  | clear _, h => follows_oneOf rfl (follows₁ _ h)
  | nextValue _, h => follows_oneOf rfl (follows₁ _ h)
  | currentValue _, h => follows_oneOf rfl (follows₁ _ h)
  | prepare _, h => follows_oneOf rfl (follows₁ _ h)
  | commit _, h => follows_oneOf rfl (follows₁ _ h)
  | rollback _, h => follows_oneOf rfl (follows₁ _ h)
  | prepareAndCommit _, h => follows_oneOf rfl (follows₁ _ h)

theorem bytes_parts (c : Command) : bytes c.parts = encode c := by
  rcases c with (_ | _) | ⟨_, _, _ | _⟩ | _ <;>
    simp only [parts, bytes_cons, Wire.bytes_parts, Part.bytes, encode_pair, ← List.append_assoc] <;>
    rfl

end Command

instance : LawfulWire Command where
  fits := Command.fits
  reads := fun {c} h => Command.bytes_parts c ▸ (Command.follows h).reads

instance : Parted Command where
  parts := Command.parts
  bytes_parts := Command.bytes_parts
  follows := Command.follows

/-- The forms of a command are gone through in the order of their numbers. -/
instance : Canonical Command where
  takes := takes_oneOf <| by
    simp only [List.zipIdx, List.forall_mem_cons]
    exact ⟨Takes.pure ⟨rfl, rfl⟩, Takes.pure ⟨rfl, rfl⟩,
      takes₁ fun _ h => ⟨h, rfl⟩, takes₁ fun _ h => ⟨h, rfl⟩,
      takes₂ fun _ _ h => ⟨h, rfl⟩, takes₂ fun _ _ h => ⟨h, rfl⟩, takes₂ fun _ _ h => ⟨h, rfl⟩,
      takes₁ fun _ h => ⟨h, rfl⟩, takes₁ fun _ h => ⟨h, rfl⟩, takes₁ fun _ h => ⟨h, rfl⟩,
      takes₃ fun _ _ _ h => ⟨h, rfl⟩, takes₃ fun _ _ _ h => ⟨h, rfl⟩,
      takes₂ fun _ _ h => ⟨h, rfl⟩,
      takes₃ fun _ _ _ h => ⟨h, rfl⟩, takes₃ fun _ _ _ h => ⟨h, rfl⟩,
      takes₄ fun _ _ _ _ h => ⟨h, rfl⟩, takes₄ fun _ _ _ _ h => ⟨h, rfl⟩,
      takes₁ fun _ h => ⟨h, rfl⟩, takes₁ fun _ h => ⟨h, rfl⟩, takes₁ fun _ h => ⟨h, rfl⟩,
      takes₁ fun _ h => ⟨h, rfl⟩, takes₁ fun _ h => ⟨h, rfl⟩, takes₁ fun _ h => ⟨h, rfl⟩,
      takes₁ fun _ h => ⟨h, rfl⟩, nofun⟩

namespace Command

theorem decode_eq_ok {bs : Bytes} {c : Command} : decode bs = .ok c ↔ Wire.decode bs = .ok c := by
  rw [decode]
  cases (Wire.decode bs : Except Fault Command) with
  | error f => exact ⟨nofun, nofun⟩
  | ok d => simp [Except.mapError]

theorem decode_of_error {bs : Bytes} {f : Fault}
    (h : (Wire.decode bs : Except Fault Command) = .error f) :
    decode bs = .error (.protocolViolation ("undecodable command: " ++ f.message)) := by
  rw [decode, h]
  rfl

/-- A command is read from just the bytes its written form is a front of, and the lengths in what
is read always fit. So whatever follows it, what was written is read; no written form is a front
of another; and bytes that break off within a command, or go on with what is no part of one,
violate the protocol. -/
theorem commands_read_exactly (c : Command) (h : Wire.fits c = true) :
    (∀ bs, decode bs = .ok c ↔ encode c <+: bs)
      ∧ (∀ bs d, decode bs = .ok d → Wire.fits d = true)
      ∧ (∀ rest, decode (encode c ++ rest) = .ok c)
      ∧ (∀ d : Command, Wire.fits d = true → encode c <+: encode d → c = d)
      ∧ (∀ bs, bs <+: encode c → bs ≠ encode c →
          ∃ reason, decode bs = .error (.protocolViolation reason))
      ∧ ∀ bs f, Broken c.parts bs f →
          decode bs = .error (.protocolViolation ("undecodable command: " ++ f.message)) := by
  have hexact : ∀ bs, decode bs = .ok c ↔ encode c <+: bs :=
    fun bs => decode_eq_ok.trans (decode_eq_ok_iff h)
  refine ⟨hexact, fun bs d hd => fits_of_decode (decode_eq_ok.1 hd),
    fun rest => (hexact _).2 (List.prefix_append _ _), fun d hd hcd => eq_of_prefix h hd hcd,
    fun bs hbs hne => ?_, fun bs f hbroken => ?_⟩
  · obtain ⟨f, hf⟩ := decode_of_proper_prefix h hbs hne
    exact ⟨_, decode_of_error hf⟩
  · refine decode_of_error ?_
    rw [Wire.decode, (follows h).stops hbroken]
    rfl

theorem commands_read_exactly_prepare :
    let c : Command := prepare ⟨7, [⟨"t", "k", .put ⟨[1, 2]⟩⟩, ⟨"t", "é", .removeIfVersion 3⟩]⟩
    Wire.fits c = true ∧ decode (encode c ++ [255]) = .ok c
      ∧ (∃ reason, decode ((encode c).take 40) = .error (.protocolViolation reason))
      ∧ decode (bytes (c.parts.take 9) ++ (tag 9 ++ [0]))
        = .error (.protocolViolation
          ("undecodable command: " ++ (Fault.unknownVariant 9 7).message))
      ∧ decode (bytes (c.parts.take 8) ++ (encodeBlock [195] ++ [40]))
        = .error (.protocolViolation
          ("undecodable command: " ++ (Fault.text (.incomplete 0)).message)) := by
  intro c
  have hfits : Wire.fits c = true := by decide
  have hkind : Broken c.parts (bytes (c.parts.take 9) ++ (tag 9 ++ [0])) (.unknownVariant 9 7) :=
    Broken.after (.unknown (by decide)) (c.parts.take 9)
  have hname : Broken c.parts (bytes (c.parts.take 8) ++ (encodeBlock [195] ++ [40]))
      (.text (.incomplete 0)) := by
    have hno : ∀ s, Text.utf8 s ≠ [195] := by
      intro s hs
      have hrefused : (Text.ofUtf8 [195]).toOption = none := by decide
      rw [← hs, Text.ofUtf8_utf8] at hrefused
      cases hrefused
    have hfault : Text.Utf8.fault 0 [195] = .incomplete 0 := by cbv
    rw [← hfault]
    exact Broken.after (.noText rfl hno) (c.parts.take 8)
  obtain ⟨-, -, hrest, -, hcut, hbroken⟩ := commands_read_exactly c hfits
  exact ⟨hfits, hrest [255], hcut _ (List.take_prefix _ _) (by decide), hbroken _ _ hkind,
    hbroken _ _ hname⟩

end Command

end Lockstep
