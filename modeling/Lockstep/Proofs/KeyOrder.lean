import Lockstep.OrdMap.Lemmas
import Lockstep.Text.Utf8
import Mathlib.Data.String.Basic

/-!
# The order of names

Maps from texts are in the order of the texts' characters. That is the order of their bytes in UTF-8
(`Text.compare_eq_lt_iff`): of two characters the one with the greater number differs from the
other in some byte of its encoding, and is greater there. So whatever a map lists comes in byte
order.
-/

namespace Lockstep

namespace Text

theorem utf8_eq_flatMap (s : String) : utf8 s = s.toList.flatMap String.utf8EncodeChar := by
  rw [utf8, String.toUTF8_eq_toByteArray, ← String.utf8Encode_toList, List.utf8Encode]
  exact List.toList_data_toByteArray

/-- The encodings of two characters differ, and the first byte that differs decides. The bytes show
the code points by their digits to the base 64, greatest first. -/
theorem utf8EncodeChar_append_lt {c d : Char} (h : c < d) (bs bs' : List UInt8) :
    String.utf8EncodeChar c ++ bs < String.utf8EncodeChar d ++ bs' := by
  have hlt : c.val.toNat < d.val.toNat := h
  have hvalid : d.val.toNat < 1114112 := by
    rcases d.valid with hd | hd <;> omega
  have hthird : ∀ n, n / 4096 = n / 64 / 64 := by omega
  have hfourth : ∀ n, n / 262144 = n / 64 / 64 / 64 := by omega
  unfold String.utf8EncodeChar
  simp only [hthird, hfourth]
  generalize c.val.toNat = m at *
  generalize d.val.toNat = n at *
  split_ifs <;>
    simp only [List.cons_append, List.nil_append, List.cons_lt_cons_iff, UInt8.lt_iff_toNat_lt,
      UInt8.toNat_ofNat', ← UInt8.toNat_inj] <;>
    omega

theorem flatMap_utf8EncodeChar_lt : ∀ {cs ds : List Char}, cs < ds →
    cs.flatMap String.utf8EncodeChar < ds.flatMap String.utf8EncodeChar
  | _, [], h => absurd h (List.not_lt_nil _)
  | [], d :: ds, _ => by
    rw [List.flatMap_cons, List.flatMap_nil]
    rcases hd : String.utf8EncodeChar d with _ | ⟨b, bs⟩
    · exact absurd hd String.utf8EncodeChar_ne_nil
    · exact List.nil_lt_cons b _
  | c :: cs, d :: ds, h => by
    rw [List.flatMap_cons, List.flatMap_cons]
    rcases List.cons_lt_cons_iff.1 h with hlt | ⟨rfl, hlt⟩
    · exact utf8EncodeChar_append_lt hlt _ _
    · exact List.append_left_lt (flatMap_utf8EncodeChar_lt hlt)

theorem utf8_lt_utf8 {s t : String} (h : s < t) : utf8 s < utf8 t := by
  rw [utf8_eq_flatMap, utf8_eq_flatMap]
  exact flatMap_utf8EncodeChar_lt (String.lt_iff.1 h)

/-- Texts are in the order of their bytes. -/
theorem compare_eq_lt_iff {s t : String} : compare s t = .lt ↔ utf8 s < utf8 t := by
  rw [compare_lt_iff_lt]
  refine ⟨utf8_lt_utf8, fun h => ?_⟩
  rcases lt_trichotomy s t with hst | rfl | hts
  · exact hst
  · exact absurd h (List.lt_irrefl _)
  · exact absurd h (List.lt_asymm (utf8_lt_utf8 hts))

end Text

/-- A map from texts lists its entries in the order of the bytes of their keys. -/
theorem OrdMap.entries_pairwise_utf8 {α : Type} (m : OrdMap String α) :
    m.entries.Pairwise fun a b => Text.utf8 a.1 < Text.utf8 b.1 :=
  m.ascending.imp Text.compare_eq_lt_iff.1

theorem OrdMap.keys_pairwise_utf8 {α : Type} (m : OrdMap String α) :
    m.keys.Pairwise fun s t => Text.utf8 s < Text.utf8 t :=
  List.pairwise_map.2 m.entries_pairwise_utf8

end Lockstep
