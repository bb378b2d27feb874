import Lockstep.OrdMap.Lemmas
import Lockstep.Snapshot
import Mathlib.Algebra.Group.Nat.Defs
import Mathlib.Data.List.Basic

/-!
# Reading what was written

A reader takes its own part off the front of the bytes, whatever follows it (`Reads`). Readers run
one after another take their parts in order (`Reads.bind`), so a record is read back if its fields
are. All that is stored is read back, as long as its lengths fit in eight bytes (`LawfulWire`), up
to a whole snapshot (`Snapshot.decode_encode`).
-/

namespace Lockstep

theorem Text.ofUtf8_utf8 (s : String) : Text.ofUtf8 (Text.utf8 s) = .ok s := by
  have h : (⟨(Text.utf8 s).toArray⟩ : ByteArray) = s.toUTF8 := rfl
  rw [Text.ofUtf8, h, String.fromUTF8?, String.toUTF8_eq_toByteArray, dif_pos s.isValidUTF8]
  rfl

namespace Wire

variable {κ α β : Type}

/-- The reader takes the bytes off the front for the value, whatever follows. -/
def Reads (p : Reader α) (bs : Bytes) (a : α) : Prop := ∀ rest, p (bs ++ rest) = .ok (a, rest)

theorem Reads.pure (a : α) : Reads (pure a) [] a := fun _ => rfl

theorem Reads.bind {p : Reader α} {f : α → Reader β} {bs cs : Bytes} {a : α} {b : β}
    (h : Reads p bs a) (h' : Reads (f a) cs b) : Reads (p >>= f) (bs ++ cs) b := by
  intro rest
  have hp := h (cs ++ rest)
  rw [← List.append_assoc] at hp
  simp only [Bind.bind, StateT.bind, hp]
  exact h' rest

theorem Reads.map {p : Reader α} {bs : Bytes} {a : α} (h : Reads p bs a) (f : α → β) :
    Reads (p >>= fun a => Pure.pure (f a)) bs (f a) := by
  have := h.bind (f := fun a => Pure.pure (f a)) (Reads.pure (f a))
  rwa [List.append_nil] at this

theorem reads_take (bs : Bytes) (short : Fault) : Reads (take bs.length short) bs bs := by
  intro rest
  simp [take]

theorem length_littleEndian : ∀ (width n : ℕ), (littleEndian width n).length = width
  | 0, _ => rfl
  | width + 1, n => congrArg (· + 1) (length_littleEndian width (n / 256))

theorem ofLittleEndian_littleEndian : ∀ {width n : ℕ}, n < 256 ^ width →
    ofLittleEndian (littleEndian width n) = n
  | 0, n, h => by
    rw [Nat.pow_zero, Nat.lt_one_iff] at h
    rw [h]
    rfl
  | width + 1, n, h => by
    have ih : ofLittleEndian (littleEndian width (n / 256)) = n / 256 :=
      ofLittleEndian_littleEndian (Nat.div_lt_of_lt_mul (by rwa [Nat.pow_succ'] at h))
    rw [littleEndian, ofLittleEndian, ih, UInt8.toNat_ofNat', Nat.mod_mod_of_dvd _ (by decide)]
    exact Nat.mod_add_div n 256

/-- A written form that is read back, as long as the lengths in it fit in eight bytes. -/
class LawfulWire (α : Type) [Wire α] where
  fits : α → Bool
  reads {a : α} : fits a = true → Reads parse (encode a) a

export LawfulWire (fits reads)

def fitsLength (n : ℕ) : Bool := n < UInt64.size

instance : LawfulWire UInt32 where
  fits _ := true
  reads := fun {n} _ => by
    have h := (reads_take (littleEndian 4 n.toNat) .endOfInput).map fun bs =>
      UInt32.ofNat (ofLittleEndian bs)
    rw [length_littleEndian, ofLittleEndian_littleEndian n.toNat_lt, UInt32.ofNat_toNat] at h
    exact h

instance : LawfulWire UInt64 where
  fits _ := true
  reads := fun {n} _ => by
    have h := (reads_take (littleEndian 8 n.toNat) .endOfInput).map fun bs =>
      UInt64.ofNat (ofLittleEndian bs)
    rw [length_littleEndian, ofLittleEndian_littleEndian n.toNat_lt, UInt64.ofNat_toNat] at h
    exact h

instance : LawfulWire Int64 where
  fits _ := true
  reads := fun {n} _ => (reads (a := n.toUInt64) rfl).map UInt64.toInt64

theorem reads_block {bs : Bytes} (h : fitsLength bs.length = true) :
    Reads block (encodeBlock bs) bs := by
  have hn : (UInt64.ofNat bs.length).toNat = bs.length :=
    UInt64.toNat_ofNat_of_lt' (of_decide_eq_true h)
  refine (reads (a := UInt64.ofNat bs.length) rfl).bind ?_
  rw [hn]
  exact reads_take bs .pastEnd

instance : LawfulWire String where
  fits s := fitsLength (Text.utf8 s).length
  reads := fun {s} h => by
    rw [← List.append_nil (encode s)]
    refine (reads_block h).bind ?_
    simp only [Text.ofUtf8_utf8]
    exact .pure s

instance [Wire α] [Wire β] [LawfulWire α] [LawfulWire β] : LawfulWire (α × β) where
  fits p := fits p.1 && fits p.2
  reads := fun {p} h => by
    rw [Bool.and_eq_true] at h
    exact (reads h.1).bind ((reads h.2).map fun b => (p.1, b))

theorem reads_many [Wire α] [LawfulWire α] : ∀ {as : List α}, as.all fits = true →
    Reads (many parse as.length) (as.flatMap encode) as
  | [], _ => .pure []
  | a :: as, h => by
    rw [List.all_cons, Bool.and_eq_true] at h
    exact (reads h.1).bind ((reads_many h.2).map fun as => a :: as)

instance [Wire α] [LawfulWire α] : LawfulWire (List α) where
  fits as := fitsLength as.length && as.all fits
  reads := fun {as} h => by
    rw [Bool.and_eq_true] at h
    have hn : (UInt64.ofNat as.length).toNat = as.length :=
      UInt64.toNat_ofNat_of_lt' (of_decide_eq_true h.1)
    refine (reads (a := UInt64.ofNat as.length) rfl).bind ?_
    rw [hn]
    exact reads_many h.2

instance [Ord κ] [Std.TransOrd κ] [Std.LawfulEqOrd κ] [DecidableEq κ] [Wire κ] [Wire α]
    [LawfulWire κ] [LawfulWire α] : LawfulWire (OrdMap κ α) where
  fits m := fits m.entries
  reads := fun {m} h => by
    have := (reads h).map OrdMap.ofList
    rwa [OrdMap.ofList_entries] at this

theorem reads_oneOf {forms : List (Reader α)} {form : Reader α} {n : UInt32} {bs : Bytes} {a : α}
    (hform : forms[n.toNat]? = some form) (h : Reads form bs a) :
    Reads (oneOf forms) (tag n ++ bs) a := by
  refine (reads (a := n) rfl).bind ?_
  rw [hform]
  exact h

theorem decode_encode_append [Wire α] [LawfulWire α] {a : α} (h : fits a = true) (rest : Bytes) :
    decode (encode a ++ rest) = .ok a := by
  rw [decode, reads h rest]
  rfl

end Wire

open Wire

instance : LawfulWire Value where
  fits v := fitsLength v.bytes.length
  reads := fun h => (reads_block h).map Value.mk

instance : LawfulWire Versioned where
  fits e := fits e.value
  reads := fun {e} h => (reads h).bind ((reads (a := e.version) rfl).map (Versioned.mk e.value))

instance : LawfulWire PendingWrite where
  fits
    | .put v => fits v
    | .tombstone => true
  reads := fun {w} h => by
    cases w with
    | put v => exact reads_oneOf rfl ((reads h).map PendingWrite.put)
    | tombstone => exact reads_oneOf rfl (.pure _)

instance : LawfulWire Lock where
  fits l := fits l.pending
  reads := fun {l} h => (reads (a := l.owner) rfl).bind ((reads h).map (Lock.mk l.owner))

instance : LawfulWire Snapshot where
  fits s := fits s.counters && fits s.tables && fits s.locks
  reads := fun {s} h => by
    simp only [Bool.and_eq_true] at h
    obtain ⟨⟨hc, ht⟩, hl⟩ := h
    simp only [encode, parse, List.append_assoc]
    exact (reads (a := s.lastApplied) rfl).bind <| (reads hc).bind <| (reads ht).bind <|
      (reads hl).bind <| (reads (a := s.nextVersion) rfl).map
        (Snapshot.mk s.lastApplied s.counters s.tables s.locks)

theorem Snapshot.decode_encode {s : Snapshot} (h : fits s = true) (rest : Bytes) :
    Snapshot.decode (encode s ++ rest) = .ok s := by
  rw [Snapshot.decode, decode_encode_append h]
  rfl

end Lockstep
