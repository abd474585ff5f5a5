import FeatureTree.Node.OfForest
import FeatureTree.Proofs.Grammar.Nesting

/-!
# The children of a node

A node has its children from the records inside it, and a rule that is looked through hands on
what is recorded inside it. So the children of a kind are the nodes of the records that are to be
of this kind, in their order (`contribute_nodesOf`). Identifiers are the exception, since they
are made from names.
-/

namespace FeatureTree.SnippetGrammar

variable {R : Type} {g : SnippetGrammar R} {total : Nat} {kind k : Kind} {f f' : Forest R}
  {d : Draft} {s t : List Char}

/-- The nodes of a kind that are recorded, each with its text and the records inside it. -/
def nodesOf (g : SnippetGrammar R) (kind : Kind) : Forest R → List (List Char × List Char × Forest R)
  | .nil => []
  | .cons r before after inner next =>
    (match g.role r with
      | .node k => if k = kind then [(before, after, inner)] else []
      | .transparent => g.nodesOf kind inner
      | _ => []) ++ g.nodesOf kind next

@[simp] theorem nodesOf_append (f f' : Forest R) :
    g.nodesOf kind (f ++ f') = g.nodesOf kind f ++ g.nodesOf kind f' := by
  induction f with
  | nil => rfl
  | cons r before after inner next _ ih => simp [nodesOf, ih]

/-- A name adds an identifier or no child. -/
theorem filter_addName (hk : k ≠ .identifier) (name : String) (span : Span) :
    (d.addName kind name span).children.filter (·.kind == k) = d.children.filter (·.kind == k) := by
  have hidentifier : [Node.leaf .identifier (some name) span].filter (·.kind == k) = [] :=
    List.filter_eq_nil_iff.2 fun c hc heq => hk (by
      rw [List.mem_singleton.1 hc] at heq
      exact (beq_iff_eq.1 heq).symm)
  rw [Draft.addName]
  cases d.name with
  | some _ => rfl
  | none =>
      dsimp only
      split
      · rw [Draft.addChild, List.filter_append, hidentifier, List.append_nil]
      · rfl

theorem contribute_nodesOf (hk : k ≠ .identifier) :
    (g.contribute total kind f d).children.filter (·.kind == k) =
      d.children.filter (·.kind == k) ++
        (g.nodesOf k f).map fun m => g.nodeOf total k m.1 m.2.1 m.2.2 := by
  induction f generalizing d with
  | nil => rw [contribute, nodesOf, List.map_nil, List.append_nil]
  | cons r before after inner next ihInner ihNext =>
      rw [contribute, ihNext, nodesOf, List.map_append, ← List.append_assoc]
      congr 1
      cases hrole : g.role r with
      | node k' =>
          dsimp only
          rw [Draft.addChild, List.filter_append]
          congr 1
          by_cases hkind : k' = k
          · subst hkind
            rw [if_pos rfl]
            exact List.filter_cons_of_pos (beq_self_eq_true k')
          · rw [if_neg hkind]
            exact List.filter_cons_of_neg fun heq => hkind (beq_iff_eq.1 heq)
      | name =>
          rw [List.map_nil, List.append_nil]
          exact filter_addName hk _ _
      | transparent => exact ihInner
      | fallbackName | body | hidden => exact (List.append_nil _).symm

theorem within_nodesOf (hf : f.Within s t) {m : List Char × List Char × Forest R}
    (hm : m ∈ g.nodesOf k f) : m.1 <:+ s ∧ m.2.2.Within m.1 m.2.1 := by
  induction f generalizing s t with
  | nil => cases hm
  | cons r before after inner next ihInner ihNext =>
      obtain ⟨hbefore, hinner, hnext⟩ := hf
      rw [nodesOf, List.mem_append] at hm
      rcases hm with hm | hm
      · cases hrole : g.role r with
        | node k' =>
            rw [hrole] at hm
            dsimp only at hm
            split at hm
            · obtain rfl := List.mem_singleton.1 hm
              exact ⟨hbefore, hinner⟩
            · cases hm
        | transparent =>
            rw [hrole] at hm
            obtain ⟨hfirst, hsecond⟩ := ihInner hinner hm
            exact ⟨hfirst.trans hbefore, hsecond⟩
        | body | name | fallbackName | hidden => rw [hrole] at hm; cases hm
      · obtain ⟨hfirst, hsecond⟩ := ihNext hnext hm
        exact ⟨hfirst.trans (hinner.suffix.trans hbefore), hsecond⟩

end FeatureTree.SnippetGrammar
