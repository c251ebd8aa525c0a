/-
# Ballots

Ballots arrive one after the other, and some of them count. Those who cast one that counts
are a set: a second ballot of the same voter adds nobody, and no ballot takes a voter away.
-/
import Mathlib

namespace Tidefs.Ballots

open List

variable {β ι : Type*} [DecidableEq ι] (counts : β → Bool) (who : β → ι)

/-- Those who cast a ballot that counts. -/
def voters (ballots : List β) : Finset ι := ((ballots.filter counts).map who).toFinset

theorem voters_append (ballots : List β) (ballot : β) : voters counts who (ballots ++ [ballot]) =
      if counts ballot then insert (who ballot) (voters counts who ballots) else voters counts who ballots := by
  unfold voters
  rw [filter_append, map_append, toFinset_append]
  split_ifs with hcounts
  · rw [filter_cons_of_pos hcounts, Finset.union_comm]
    simp
  · rw [filter_cons_of_neg hcounts]
    simp

theorem voters_subset_append (ballots : List β) (ballot : β) :
    voters counts who ballots ⊆ voters counts who (ballots ++ [ballot]) := by
  rw [voters_append]
  split_ifs
  · exact Finset.subset_insert _ _
  · exact Finset.Subset.refl _

end Tidefs.Ballots
