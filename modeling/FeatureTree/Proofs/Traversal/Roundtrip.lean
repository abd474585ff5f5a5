import FeatureTree.Proofs.Traversal.Printed
import FeatureTree.Proofs.Traversal.Range

/-!
# Which plans are their canonical text

Reading the canonical text of a plan gives the plan back exactly if the plan is
canonical and its positions are numbers of 64 bits (`ofString_toString_iff`).

That such a plan is read back is what its text was matched for. For the other
direction nothing is known of the plan but that it is the result of reading some
text. That settles all conditions that are about one part, as no reading breaks
them. How operands are grouped is settled by the plan that differs in nothing
else: both have the same text, and the one grouped to the left is read from it.
-/

namespace FeatureTree.Traversal.Plan

variable {p : Plan}

theorem readable_of_ofString {text : String} (h : ofString text = .ok p) : p.Readable := by
  rw [ofString] at h
  split at h
  · next plan hread =>
      cases h
      exact readable_of_read hread
  · cases h

/-- The text of a plan that was read is read as the plan that is grouped to the left. -/
theorem ofString_toString_regroup {text : String} (h : ofString text = .ok p) :
    ofString p.toString = .ok p.regroup := by
  have hreadable : p.regroup.Readable := readable_regroup (readable_of_ofString h)
  have hregroup : ofString p.regroup.toString = .ok p.regroup :=
    ofString_toString hreadable (grouped_regroup p)
  rwa [toString_regroup] at hregroup

/-- A plan that is read back from its text is grouped to the left. -/
theorem grouped_of_ofString_toString (h : ofString p.toString = .ok p) : p.Grouped := by
  have hregroup := ofString_toString_regroup h
  rw [h] at hregroup
  injection hregroup with hsame
  rw [hsame]
  exact grouped_regroup p

/-- The text of a plan is read as the plan itself, if and only if the plan is
canonical and no position is too large. -/
theorem ofString_toString_iff (p : Plan) :
    ofString (toString p) = .ok p ↔ p.IsCanonical ∧ p.Fits := by
  rw [isCanonical_iff]
  constructor
  · intro h
    exact ⟨readable_of_ofString h, grouped_of_ofString_toString h⟩
  · rintro ⟨hreadable, hgrouped⟩
    exact ofString_toString hreadable hgrouped

end FeatureTree.Traversal.Plan
