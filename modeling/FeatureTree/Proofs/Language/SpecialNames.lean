import FeatureTree.Proofs.Grammar.Spelled
import FeatureTree.Proofs.Language.CSharpMembers
import FeatureTree.Proofs.Node.Identifiers

/-!
# The names of special members in C#

A finalizer, an operator and a conversion are named by a sign or a word and by what stands behind
it, and blanks may stand in between. The name is one token, so the blanks are in it. They are
taken up to the first character that is none, and what ends the name is read from there, whatever
the blanks are (`leaves_nameRule_iff`).

In front of the name stand parts that are hidden, so it is the first name that the member
records (`head_named`).
-/

namespace FeatureTree

namespace CSharp

open Grammar SnippetGrammar

variable {s t u : List Char} {f : Forest Rule} {l : Layout}

/-- The members whose names are more than a word. -/
inductive Special
  | finalizer | operator | conversion
  deriving DecidableEq, Repr

namespace Special

variable {k : Special}

/-- The rule of the member. -/
def declaration : Special → Rule
  | .finalizer => .destructorDeclaration
  | .operator => .operatorDeclaration
  | .conversion => .conversionDeclaration

/-- The rules of what stands in front of its name. -/
def parts : Special → List Rule
  | .finalizer => [.modifiers]
  | .operator => [.modifiers, .returnType]
  | .conversion => [.modifiers, .conversionKind]

/-- The rule of its name. -/
def nameRule : Special → Rule
  | .finalizer => .destructorName
  | .operator => .operatorName
  | .conversion => .conversionName

/-- What the name begins with. -/
def front : Special → List Char
  | .finalizer => "~".toList
  | .operator | .conversion => "operator".toList

/-- The blanks that the name is spelled with. -/
def spacing : Special → List Char
  | .finalizer => []
  | .operator | .conversion => [' ']

/-- The blanks that may be written there. -/
def Allows (k : Special) (gap : List Char) : Prop :=
  (∀ c ∈ gap, c ∈ Text.spaces) ∧ (k = .conversion → gap ≠ [])

instance (k : Special) (gap : List Char) : Decidable (k.Allows gap) :=
  inferInstanceAs (Decidable (_ ∧ _))

/-- The expression for these blanks. -/
def blanks : Special → Expr Rule
  | .finalizer | .operator => .star Lexical.ws
  | .conversion => .plus Lexical.ws

/-- What the name ends with: a name, a symbol, or the words of a type. -/
def target : Special → Expr Rule
  | .finalizer => .rule .identifier
  | .operator => .rule .overloadableOp
  | .conversion => .both Rule.typeWord (.star (.seq [.plus Lexical.ws, Rule.typeWord]))

theorem body_nameRule (k : Special) :
    grammar.body k.nameRule = .both (.text k.front) (.both k.blanks k.target) := by
  cases k <;> rfl

theorem leaves_blanks_iff : grammar.leaves k.blanks s = some t ↔
    ∃ gap, s = gap ++ t ∧ k.Allows gap ∧ ∀ c ∈ t.head?, c ∉ Text.spaces := by
  cases k with
  | finalizer | operator =>
      show grammar.leaves (.star Lexical.ws) s = some t ↔ _
      simp only [leaves_spaces_iff ranked, Allows, reduceCtorEq, false_implies, and_true]
  | conversion =>
      show grammar.leaves (.plus Lexical.ws) s = some t ↔ _
      simp only [leaves_some_spaces_iff ranked, Allows, true_implies, and_assoc]

theorem typeWord_none {c : Char} (hc : c ∈ Text.spaces) (s : List Char) :
    grammar.leaves (.rule .typeWord) (c :: s) = none := by
  have htakes : grammar.TakesChar (.butNot (.either "(" Lexical.ws)) _ :=
    ((takesChar_text '(').either takesChar_ws).butNot
  have hnone : grammar.leaves (.butNot (.either "(" Lexical.ws)) (c :: s) = none := by
    rw [leaves, htakes]
    refine Option.map_eq_none_iff.2 (if_neg ?_)
    simp only [takesChar_ws_iff.2 hc, Bool.or_true, Bool.not_true, Bool.false_eq_true,
      not_false_eq_true]
  rw [leaves_rule ranked rfl]
  show grammar.leaves (.both (.butNot (.either "(" Lexical.ws)) _) _ = _
  rw [leaves_both, hnone, Option.bind_none]

/-- What the name ends with does not begin with a blank. -/
theorem target_none {c : Char} (hc : c ∈ Text.spaces) (s : List Char) :
    grammar.leaves k.target (c :: s) = none := by
  cases k with
  | finalizer =>
      have hbegins : ∀ c ∈ Text.spaces,
          Expr.begins (grammar.firsts 2) (.rule .identifier) c = false := by decide
      exact leaves_none_of_begins ranked (hbegins c hc)
  | operator =>
      have hbegins : ∀ c ∈ Text.spaces,
          Expr.begins (grammar.firsts 2) (.rule .overloadableOp) c = false := by decide
      exact leaves_none_of_begins ranked (hbegins c hc)
  | conversion =>
      show grammar.leaves (.both Rule.typeWord _) _ = _
      rw [leaves_both, typeWord_none hc, Option.bind_none]

/-- What the name ends with is a piece of the text. -/
theorem target_taken (h : grammar.leaves k.target s = some t) :
    ∃ c w, s = c :: w ++ t ∧ c ∉ Text.spaces := by
  obtain ⟨f, hmatch⟩ := leaves_eq_some_iff.1 h
  obtain ⟨w, rfl⟩ := matchExpr_suffix ranked hmatch
  have hconsumes : k.target.consumes grammar.consuming = true := by cases k <;> rfl
  have hlt := matchExpr_lt ranked hconsumes hmatch
  cases w with
  | nil => exact absurd hlt (Nat.lt_irrefl _)
  | cons c w =>
      refine ⟨c, w, rfl, fun hc => ?_⟩
      rw [List.cons_append, target_none hc] at h
      cases h

/-- A name is read whatever the blanks in it are. -/
theorem leaves_nameRule_iff : grammar.leaves (.rule k.nameRule) s = some t ↔
    ∃ gap u, s = k.front ++ (gap ++ u) ∧ k.Allows gap ∧ grammar.leaves k.target u = some t := by
  have hlayout : grammar.layout k.nameRule = .token := by cases k <;> rfl
  rw [leaves_rule ranked hlayout, body_nameRule, leaves_both, leaves_text, Option.bind_eq_some_iff]
  simp only [leaves_both, Option.bind_eq_some_iff, leaves_blanks_iff, Text.after?_eq_some_iff]
  constructor
  · rintro ⟨_, rfl, u, ⟨gap, rfl, hallows, -⟩, htarget⟩
    exact ⟨gap, u, rfl, hallows, htarget⟩
  · rintro ⟨gap, u, rfl, hallows, htarget⟩
    obtain ⟨c, w, rfl, hc⟩ := target_taken htarget
    refine ⟨_, rfl, _, ⟨gap, rfl, hallows, ?_⟩, htarget⟩
    rintro _ ⟨⟩
    exact hc

/-- The name with these blanks. -/
def spell (k : Special) (gap target : List Char) : List Char := k.front ++ (gap ++ target)

theorem spell_append (k : Special) (gap target post : List Char) :
    k.spell gap target ++ post = k.front ++ (gap ++ (target ++ post)) := by
  simp only [spell, List.append_assoc]

theorem spell_inj {gap gap' target : List Char} :
    k.spell gap target = k.spell gap' target ↔ gap = gap' := by
  simp only [spell, List.append_cancel_left_eq, List.append_cancel_right_eq]

/-- The text is the end of a name, in front of the rest. -/
def IsTarget (k : Special) (target post : List Char) : Prop :=
  grammar.leaves k.target (target ++ post) = some post

/-- With any blanks the name is read up to the same place. -/
theorem IsTarget.leaves {gap target post : List Char} (h : k.IsTarget target post)
    (hgap : k.Allows gap) :
    grammar.leaves (.rule k.nameRule) (k.spell gap target ++ post) = some post :=
  leaves_nameRule_iff.2 ⟨gap, target ++ post, spell_append .., hgap, h⟩

/-- A name is told from the text that it stands at the front of. -/
theorem IsTarget.unique {gap gap' target target' post post' : List Char}
    (h : k.IsTarget target post) (h' : k.IsTarget target' post') (hgap : k.Allows gap)
    (hgap' : k.Allows gap') (heq : k.spell gap target ++ post = k.spell gap' target' ++ post') :
    gap = gap' ∧ target = target' ∧ post = post' := by
  have hhead : ∀ {target post}, k.IsTarget target post →
      ∀ c ∈ (target ++ post).head?, decide (c ∈ Text.spaces) = false := by
    intro target post h c hc
    obtain ⟨d, w, hw, hd⟩ := target_taken h
    rw [hw] at hc
    cases hc
    exact decide_eq_false hd
  rw [spell_append, spell_append] at heq
  obtain ⟨hgaps, hrests⟩ := run_unique (List.append_cancel_left heq)
    (fun c hc => decide_eq_true (hgap.1 c hc)) (fun c hc => decide_eq_true (hgap'.1 c hc))
    (hhead h) (hhead h')
  have hleaves : grammar.leaves k.target (target ++ post) = some post := h
  rw [hrests, show grammar.leaves k.target (target' ++ post') = some post' from h'] at hleaves
  cases hleaves
  exact ⟨hgaps, List.append_cancel_right hrests, rfl⟩

theorem body_declaration (k : Special) :
    ∃ e, grammar.body k.declaration =
      k.parts.foldr (fun q => .both (.rule q)) (.both (.rule k.nameRule) e) := by
  cases k <;> exact ⟨_, rfl⟩

/-- The first name that is recorded inside a special member is its own. -/
theorem named_declaration {before after : List Char} {inner : Forest Rule}
    (h : grammar.Matched k.declaration before after inner) :
    ∃ gap target post more, k.Allows gap ∧ k.IsTarget target post ∧
      k.spell gap target ++ post <:+ before ∧
      grammar.named inner = (k.nameRule, k.spell gap target ++ post, post) :: more := by
  obtain ⟨l, hmatch⟩ := h
  obtain ⟨inner', hbody, hrecord⟩ := (matchRule_eq_some_iff ranked).1 hmatch
  have hlayout : grammar.layout k.declaration = .spaced := by cases k <;> rfl
  rw [record, hlayout] at hrecord
  split at hrecord
  · next hl =>
      cases hrecord
      rw [hlayout] at hbody
      obtain ⟨e, heq⟩ := body_declaration k
      rw [heq] at hbody
      obtain ⟨_, post, more, hsuffix, hleaves, hnamed⟩ := head_named ranked
        (by cases k <;> decide) (by cases k <;> rfl) (by cases k <;> rfl) hl hbody
      obtain ⟨gap, u, rfl, hgap, htarget⟩ := leaves_nameRule_iff.1 hleaves
      obtain ⟨f, htaken⟩ := leaves_eq_some_iff.1 htarget
      obtain ⟨target, rfl⟩ := matchExpr_suffix ranked htaken
      rw [← spell_append] at hsuffix hnamed
      exact ⟨gap, target, post, more, hgap, htarget, hsuffix, hnamed⟩
  · cases hrecord

end Special

end CSharp

end FeatureTree
