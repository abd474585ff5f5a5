import FeatureTree.Yaml.Node.OfTokens
import FeatureTree.Yaml.Printer

/-!
# Plain values

A value is plain if all its texts and names are words: letters, digits, dashes
and underscores, a letter or digit first. Written as they are, such words are
plain scalars wherever they stand.

A plain value has a node that says the same (`nodeOf`), and the tokens of that
node in block style (`tokensOf`). A list under a name has no tokens for its
start and end, as it is not indented.
-/

namespace FeatureTree.Yaml

/-- A word of letters, digits, dashes and underscores, with a letter or digit in
front. -/
def IsWord (text : String) : Prop :=
  text.toList.head?.any Char.isAlphanum = true ∧ text.toList.all isWordChar = true

instance (text : String) : Decidable (IsWord text) := instDecidableAnd

theorem isWord_toString (n : Nat) : IsWord (toString n) := by
  have hdigit : ∀ c ∈ (toString n).toList, c.isDigit = true := by
    rw [Nat.toString_eq_repr, Nat.toList_repr]
    exact fun c hc => Nat.isDigit_of_mem_toDigits (by decide) (by decide) hc
  have halnum : ∀ c ∈ (toString n).toList, c.isAlphanum = true := by
    intro c hc
    rw [Char.isAlphanum, hdigit c hc, Bool.or_true]
  obtain ⟨c, s, hcs⟩ := List.exists_cons_of_ne_nil (Nat.toDigits_ne_nil (n := n) (b := 10))
  rw [← Nat.toList_repr, ← Nat.toString_eq_repr] at hcs
  refine ⟨?_, List.all_eq_true.2 fun c hc => by rw [isWordChar, halnum c hc]; rfl⟩
  rw [hcs]
  exact halnum c (by rw [hcs]; exact List.mem_cons_self)

mutual

/-- All texts and names of a value are words, and the names are not too long. -/
def IsPlain : Value → Prop
  | .null | .bool _ | .nat _ => True
  | .number t | .text t => IsWord t
  | .list items => ArePlain items
  | .map entries => ArePlainEntries entries

def ArePlain : List Value → Prop
  | [] => True
  | v :: vs => IsPlain v ∧ ArePlain vs

def ArePlainEntries : List (String × Value) → Prop
  | [] => True
  | (k, v) :: es =>
    IsWord k ∧ k.toList.length ≤ KeyStart.maxLength ∧ IsPlain v ∧ ArePlainEntries es

end

mutual

/-- The node that says what a value says. -/
def nodeOf : Value → Node
  | .list items => .list .none (nodesOf items)
  | .map entries => .map .none (entryNodesOf entries)
  | v => .scalar .none .plain (scalarText v)

def nodesOf : List Value → List Node
  | [] => []
  | v :: vs => nodeOf v :: nodesOf vs

def entryNodesOf : List (String × Value) → List (Node × Node)
  | [] => []
  | (k, v) :: es => (.scalar .none .plain k, nodeOf v) :: entryNodesOf es

end

/-- The tokens of a scalar, or of a list or map without entries. -/
def inlineTokens : Value → List Token
  | .list _ => [.openList, .closeList]
  | .map _ => [.openMap, .closeMap]
  | v => [.scalar .plain (scalarText v)]

mutual

/-- The tokens of a value in block style. -/
def tokensOf : Value → List Token
  | .list (v :: vs) => .listStart :: .item :: (tokensOf v ++ itemTokens vs) ++ [.blockEnd]
  | .map ((k, v) :: es) =>
    .mapStart :: .key :: .scalar .plain k :: .value :: (tokensUnder v ++ entryTokens es) ++
      [.blockEnd]
  | v => inlineTokens v

/-- The tokens of a value under a name. -/
def tokensUnder : Value → List Token
  | .list (v :: vs) => .item :: (tokensOf v ++ itemTokens vs)
  | .map ((k, v) :: es) =>
    .mapStart :: .key :: .scalar .plain k :: .value :: (tokensUnder v ++ entryTokens es) ++
      [.blockEnd]
  | v => inlineTokens v

/-- The tokens of the items of a list. -/
def itemTokens : List Value → List Token
  | [] => []
  | v :: vs => .item :: (tokensOf v ++ itemTokens vs)

/-- The tokens of the entries of a map. -/
def entryTokens : List (String × Value) → List Token
  | [] => []
  | (k, v) :: es => .key :: .scalar .plain k :: .value :: (tokensUnder v ++ entryTokens es)

end

end FeatureTree.Yaml
