import FeatureTree.Proofs.Grammar.Depth
import FeatureTree.Proofs.Language.Trivia

/-!
# The grammars of the languages are ranked

In none of the grammars does a rule lead back to itself before a character is
taken, so the depth that `parse` passes is never reached. This is decided rule
by rule.
-/

namespace FeatureTree

theorem Java.Rule.mem_all (r : Rule) : r ∈ all := by cases r <;> decide

theorem Java.ranked : Java.grammar.Ranked :=
  Grammar.ranked_of_isRanked trivia_local.toLawful Rule.mem_all (by decide +kernel)

theorem CSharp.Rule.mem_all (r : Rule) : r ∈ all := by cases r <;> decide

theorem CSharp.ranked : CSharp.grammar.Ranked :=
  Grammar.ranked_of_isRanked trivia_local.toLawful Rule.mem_all (by decide +kernel)

theorem C.Rule.mem_all (r : Rule) : r ∈ all := by cases r <;> decide

theorem C.ranked : C.grammar.Ranked :=
  Grammar.ranked_of_isRanked trivia_local.toLawful Rule.mem_all (by decide +kernel)

end FeatureTree
