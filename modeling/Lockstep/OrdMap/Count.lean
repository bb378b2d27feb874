import Lockstep.OrdMap.Lemmas
import Mathlib.Algebra.BigOperators.Finprod
import Mathlib.Data.Set.Card

/-!
# The number of entries in a map of maps

The total of a map of maps is the number of pairs of keys that something is bound to
(`encard_pairs`), and the sum of the sizes of its maps (`finsum_size`).
-/

namespace Lockstep.OrdMap

open Std (TransOrd LawfulEqOrd)

variable {κ μ α : Type} [Ord κ] [LawfulEqOrd κ] [DecidableEq κ]

theorem encard_pairs [Ord μ] [LawfulEqOrd μ] [DecidableEq μ] (m : OrdMap κ (OrdMap μ α)) :
    {p : κ × μ | (((m.get? p.1).getD ∅).get? p.2).isSome = true}.encard = m.total := by
  have hset : {p : κ × μ | (((m.get? p.1).getD ∅).get? p.2).isSome = true}
      = ↑m.pairs.toFinset := by
    ext p
    rw [Finset.mem_coe, List.mem_toFinset, mem_pairs]
    rfl
  rw [hset, Set.encard_coe_eq_coe_finsetCard, List.toFinset_card_of_nodup m.nodup_pairs,
    length_pairs]

theorem finsum_size [Ord μ] (m : OrdMap κ (OrdMap μ α)) :
    ∑ᶠ k, ((m.get? k).getD ∅).size = m.total := by
  have hsupport : Function.support (fun k => ((m.get? k).getD ∅).size) ⊆ ↑m.keys.toFinset := by
    intro k hk
    by_contra hmem
    have hnone : m.get? k = none := by
      rw [← Option.not_isSome_iff_eq_none]
      exact fun hs => hmem (List.mem_toFinset.2 (mem_keys.2 hs))
    refine hk ?_
    simp only [hnone]
    rfl
  have hsizes : ∀ e ∈ m.entries, ((m.get? e.1).getD ∅).size = e.2.size := by
    intro e he
    rw [mem_entries_iff.1 he]
    rfl
  rw [finsum_eq_sum_of_support_subset _ hsupport, List.sum_toFinset _ m.nodup_keys, keys,
    List.map_map, Function.comp_def, List.map_congr_left hsizes, total_eq, List.sum_eq_foldr,
    List.foldr_map]

end Lockstep.OrdMap
