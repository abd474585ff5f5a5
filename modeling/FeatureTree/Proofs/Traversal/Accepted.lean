import FeatureTree.Proofs.Grammar.Calls
import FeatureTree.Proofs.Traversal.Printed
import FeatureTree.Proofs.Traversal.Answers
import FeatureTree.Proofs.Traversal.Range

/-!
# What is accepted is written

If an expression is matched, then the words that the match took are an expression, and the
match is read as what they stand for, or rejected at the first of them that has a fault
(`Reads`). Each rule takes a row of words off the text in front of which it is tried; blanks
between the parts of a rule are no words, so the rows of the parts are put one after the
other.

That a token is as long as it can be is where the order of alternatives comes in: `.` is
tried only where `..` fails, and `/` only where `//` does.
-/

namespace FeatureTree.Traversal

variable {s t u w : List Char} {l : Layout} {e : Expr Rule} {f inner : Forest Rule} {r : Rule}
  {ws us : List Word} {v : Option Predicate}

theorem body_of_match (hr : (l.around r.layout).records = true)
    (h : grammar.matchExpr (.rule r) l s = some (t, f)) :
    ∃ inner, grammar.matchExpr r.body (l.inside r.layout) s = some (t, inner) ∧
      f = .cons r s t inner .nil := by
  obtain ⟨inner, hbody, rfl⟩ := (Grammar.matchRule_eq_some_iff ranked).1 h
  exact ⟨inner, hbody, if_pos hr⟩

theorem length_between_le (h : grammar.matchExpr e l s = some (t, f)) :
    (grammar.between .spaced t).length ≤ s.length :=
  Nat.le_trans (Trivia.skip_suffix trivia_lawful t).length_le
    (Grammar.matchExpr_suffix ranked h).length_le

/-! ## Tokens -/

/-- A sign that is no part of a longer one, where it is matched. -/
theorem lexes_of_text {text : String} (hsign : text ∈ signs ∧ text ≠ "/" ∧ text ≠ ".")
    (h : grammar.matchExpr (.text text.toList) l s = some (t, f)) :
    Lexes s [.sign text] t ∧ f = .nil := by
  obtain ⟨rfl, rfl⟩ := Grammar.matchExpr_text_iff.1 h
  obtain ⟨hmem, hslash, hdot⟩ := hsign
  exact ⟨lexes_sign hmem (fun h => absurd h hslash) (fun h => absurd h hdot), rfl⟩

theorem takesChar_butNot (d : Char) : grammar.TakesChar (Expr.butNot (.text [d])) (· != d) :=
  (Grammar.takesChar_text d).butNot

theorem name_of_match (h : grammar.matchExpr Rule.name .token s = some (t, f)) :
    ∃ w, s = w ++ t ∧ IsName w ∧ StopsName t := by
  obtain ⟨u, f₁, f₂, hfirst, hmore, -⟩ := Grammar.matchExpr_both_iff.1 h
  obtain ⟨c, rfl, hc, -⟩ := Grammar.eval_char_eq_some.1 hfirst
  obtain ⟨w, hw, hall, hstop⟩ := Grammar.chars_of_star ranked takesChar_nameChar rfl hmore
  exact ⟨c :: w, congrArg (c :: ·) hw, ⟨c, w, rfl, hc, List.all_eq_true.2 hall⟩, hstop⟩

theorem digits_of_match
    (h : grammar.matchExpr (.plus (.char Char.isDigit)) .token s = some (t, f)) :
    ∃ w, s = w ++ t ∧ w ≠ [] ∧ (∀ c ∈ w, c.isDigit = true) ∧ ∀ c ∈ t.head?, c.isDigit = false := by
  obtain ⟨u, f₁, f₂, hfirst, hmore, -⟩ := Grammar.matchExpr_both_iff.1 h
  obtain ⟨c, rfl, hc, -⟩ := Grammar.eval_char_eq_some.1 hfirst
  obtain ⟨w, hw, hall, hstop⟩ := Grammar.chars_of_star ranked (Grammar.takesChar_char _) rfl hmore
  exact ⟨c :: w, congrArg (c :: ·) hw, by simp, List.forall_mem_cons.2 ⟨hc, hall⟩, hstop⟩

/-- A word of a list, where it is matched. -/
theorem lexes_of_word {words : List String} (hwords : ∀ word ∈ words, IsName word.toList)
    (h : grammar.matchExpr (Lexical.word Rule.nameChar words) .token s = some (t, f)) :
    ∃ word ∈ words, Lexes s [.name word] t ∧ wordOf s t = word := by
  obtain ⟨word, hword, rfl, ht⟩ := Grammar.word_of_match takesChar_nameChar h
  have hlexes := lexes_name (hwords word hword) ht
  rw [wordOf_append]
  rw [String.ofList_toList] at hlexes ⊢
  exact ⟨word, hword, hlexes, rfl⟩

theorem axis_of_mem_axisWords {word : String} (h : word ∈ Rule.axisWords) :
    ∃ axis : Axis, axis.name = word := by
  obtain ⟨axis, -, hname⟩ : ∃ axis ∈ Axis.all, axis.name = word := by
    revert word
    decide
  exact ⟨axis, hname⟩

theorem isName_axis (axis : Axis) : IsName axis.name.toList := by
  cases axis <;> exact ⟨_, _, rfl, rfl, rfl⟩

theorem lexes_of_axis (h : grammar.matchExpr (.rule .axis) .spaced s = some (t, f)) :
    ∃ inner, ∃ axis : Axis, f = .cons .axis s t inner .nil ∧ wordOf s t = axis.name ∧
      Lexes s [.name axis.name] t := by
  obtain ⟨inner, hbody, rfl⟩ := body_of_match rfl h
  have hwords : ∀ word ∈ Rule.axisWords, IsName word.toList := by
    intro word hword
    obtain ⟨axis, rfl⟩ := axis_of_mem_axisWords hword
    exact isName_axis axis
  obtain ⟨word, hword, hlexes, htaken⟩ := lexes_of_word hwords hbody
  obtain ⟨axis, rfl⟩ := axis_of_mem_axisWords hword
  exact ⟨inner, axis, rfl, htaken, hlexes⟩

/-- A word that joins operands, where it is matched. -/
theorem lexes_of_joint (word : String) (hword : IsName word.toList)
    (hr : r.layout = .token ∧ r.body = Lexical.word Rule.nameChar [word])
    (h : grammar.matchExpr (.rule r) .spaced s = some (t, f)) :
    ∃ inner, f = .cons r s t inner .nil ∧ Lexes s [.name word] t := by
  obtain ⟨inner, hbody, rfl⟩ := body_of_match (by rw [hr.1]; rfl) h
  rw [hr.1, hr.2] at hbody
  obtain ⟨_, hmem, hlexes, -⟩ := lexes_of_word (List.forall_mem_singleton.2 hword) hbody
  rw [List.mem_singleton.1 hmem] at hlexes
  exact ⟨inner, rfl, hlexes⟩

/-! ## Operands -/

theorem reads_of_position (h : grammar.matchExpr (.rule .position) .spaced s = some (t, f)) :
    ∃ inner ws v, f = .cons .position s t inner .nil ∧ Predicate.Written .atom ws v ∧
      Reads s t ws v (readPosition · s t) := by
  obtain ⟨inner, hbody, rfl⟩ := body_of_match rfl h
  obtain ⟨w, rfl, hne, hdigits, hstop⟩ := digits_of_match hbody
  exact ⟨inner, _, _, rfl, .position _, reads_position hne hdigits hstop⟩

theorem reads_of_attribute (h : grammar.matchExpr (.rule .attributeName) .spaced s = some (t, f)) :
    ∃ inner name, f = .cons .attributeName s t inner .nil ∧
      Reads s t [.attribute name] (Attribute.ofWord? name) (readAttribute · s t) := by
  obtain ⟨inner, hbody, rfl⟩ := body_of_match rfl h
  obtain ⟨w, rfl, hw, hstop⟩ := name_of_match hbody
  exact ⟨inner, _, rfl, reads_attribute hw hstop⟩

theorem reads_of_attributeTest
    (h : grammar.matchExpr (.rule .attributeTest) .spaced s = some (t, f)) :
    ∃ inner ws v, f = .cons .attributeTest s t inner .nil ∧ Predicate.Written .atom ws v ∧
      ∀ atom : Nat → Span, Reads s t ws v fun total => readHas total (atom total) inner := by
  obtain ⟨inner, hbody, rfl⟩ := body_of_match rfl h
  obtain ⟨u, f₁, f₂, hsign, hname, rfl⟩ := Grammar.matchExpr_both_iff.1 hbody
  obtain ⟨hat, rfl⟩ := lexes_of_text (by decide) hsign
  obtain ⟨_, name, rfl, hreads⟩ := reads_of_attribute hname
  exact ⟨_, _, _, rfl, .has name, fun _ => .fixed_cons hat (hreads.map Predicate.has).leading⟩

theorem symbol_of_comparator (h : grammar.matchExpr (.rule .comparator) .spaced s = some (t, f)) :
    ∃ inner, f = .cons .comparator s t inner .nil ∧
      ∃ comparison : Comparison, Lexes s [.sign comparison.symbol] t ∧
        (if wordOf s t == "!=" then Comparison.notEqual else .equal) = comparison := by
  obtain ⟨inner, hbody, rfl⟩ := body_of_match rfl h
  refine ⟨inner, rfl, ?_⟩
  have hsymbol : ∃ comparison : Comparison, Lexes s [.sign comparison.symbol] t ∧
      s = comparison.symbol.toList ++ t := by
    obtain hnot | ⟨-, hequal⟩ := Grammar.matchExpr_either_iff.1 hbody
    · obtain ⟨_, htext, -⟩ := body_of_match rfl hnot
      exact ⟨.notEqual, (lexes_of_text (by decide) htext).1, (Grammar.matchExpr_text_iff.1 htext).1⟩
    · obtain ⟨_, htext, -⟩ := body_of_match rfl hequal
      exact ⟨.equal, (lexes_of_text (by decide) htext).1, (Grammar.matchExpr_text_iff.1 htext).1⟩
  obtain ⟨comparison, hlexes, rfl⟩ := hsymbol
  exact ⟨comparison, hlexes, wordOf_symbol comparison t⟩

/-- A literal between its quotes, where it is matched. -/
theorem spells_of_quoted {d : Char} (hd : d = '\'' ∨ d = '"')
    (hr : r.layout = .token ∧ r.body = .star (Expr.butNot (.text [d])))
    (h : grammar.matchExpr (.both (.text [d]) (.both (.rule r) (.text [d]))) .joined s =
      some (t, f)) :
    ∃ piece, s = piece ++ t ∧ Token.Spells (.literal (insideOf f)) piece ∧ Longest piece t := by
  obtain ⟨u, f₁, f₂, hopen, hrest, rfl⟩ := Grammar.matchExpr_both_iff.1 h
  obtain ⟨v, f₃, f₄, hinside, hclose, rfl⟩ := Grammar.matchExpr_both_iff.1 hrest
  obtain ⟨rfl, rfl⟩ := Grammar.matchExpr_text_iff.1 hopen
  obtain ⟨hv, rfl⟩ := Grammar.matchExpr_text_iff.1 hclose
  obtain ⟨inner, hbody, rfl⟩ := body_of_match (by rw [hr.1]; rfl) hinside
  rw [hr.1, hr.2] at hbody
  obtain ⟨w, hw, hall, -⟩ := Grammar.chars_of_star ranked (takesChar_butNot d) rfl hbody
  rw [show grammar.between .joined v = v from rfl] at hv
  rw [show grammar.between .joined u = u from rfl] at hw
  subst hv hw
  show ∃ piece, _ = piece ++ t ∧
    Token.Spells (.literal (wordOf (w ++ ([d] ++ t)) ([d] ++ t))) piece ∧ Longest piece t
  have hmem : d ∉ (String.ofList w).toList := by
    rw [String.toList_ofList]
    exact fun hmem => by simpa using hall d hmem
  rw [wordOf_append]
  refine ⟨_, ?_, .literal hd hmem, longest_literal hd hmem⟩
  rw [String.toList_ofList]
  simp

theorem reads_of_literal (h : grammar.matchExpr (.rule .literal) .spaced s = some (t, f)) :
    ∃ inner, f = .cons .literal s t inner .nil ∧ ∀ asked comparison,
      Reads s t [.value (Attribute.word asked) (insideOf inner)]
        (compared? comparison (insideOf inner) asked) (fun total =>
          if asked == .kind && (Kind.ofName? (insideOf inner)).isNone then
            .error (.unknownKind (insideOf inner), spanOf total s t)
          else .ok (.compare asked comparison (insideOf inner))) := by
  obtain ⟨inner, hbody, rfl⟩ := body_of_match rfl h
  have hpiece : ∃ piece, s = piece ++ t ∧ Token.Spells (.literal (insideOf inner)) piece ∧
      Longest piece t := by
    obtain hsingle | ⟨-, hdouble⟩ := Grammar.matchExpr_either_iff.1 hbody
    · exact spells_of_quoted (.inl rfl) ⟨rfl, rfl⟩ hsingle
    · exact spells_of_quoted (.inr rfl) ⟨rfl, rfl⟩ hdouble
  obtain ⟨piece, rfl, hspells, hlongest⟩ := hpiece
  exact ⟨inner, rfl, fun asked comparison => reads_value asked comparison hspells hlongest⟩

theorem reads_of_comparison
    (h : grammar.matchExpr (.rule .comparison) .spaced s = some (t, f)) :
    ∃ inner ws v, f = .cons .comparison s t inner .nil ∧ Predicate.Written .atom ws v ∧
      ∀ atom : Nat → Span, Reads s t ws v fun total => readComparison total (atom total) inner := by
  obtain ⟨inner, hbody, rfl⟩ := body_of_match rfl h
  obtain ⟨u, f₁, f₂, hsign, hrest, rfl⟩ := Grammar.matchExpr_both_iff.1 hbody
  obtain ⟨v, f₃, f₄, hname, hright, rfl⟩ := Grammar.matchExpr_both_iff.1 hrest
  obtain ⟨x, f₅, f₆, hcomparator, hliteral, rfl⟩ := Grammar.matchExpr_both_iff.1 hright
  obtain ⟨hat, rfl⟩ := lexes_of_text (by decide) hsign
  obtain ⟨_, name, rfl, hattribute⟩ := reads_of_attribute hname
  obtain ⟨_, rfl, comparison, hsymbol, hcomparison⟩ := symbol_of_comparator hcomparator
  obtain ⟨inside, rfl, hvalue⟩ := reads_of_literal hliteral
  have hfront := hattribute.fixed_snoc hsymbol.leading
  have hreads := hfront.bind [.value name (insideOf inside)]
    (hvalue .name comparison).lexes.leading fun asked hasked => by
      rw [← attribute_ofWord?_iff.1 hasked]
      exact (hvalue asked comparison).leading
  refine ⟨_, _, _, rfl, .compare name comparison (insideOf inside), fun atom => ?_⟩
  refine (hreads.leading.fixed_cons hat).congr fun total => ?_
  simp only [Forest.cons_append, Forest.nil_append]
  rw [readComparison_eq, hcomparison]

/-! ## Predicates -/

/-- The match of operands of `or` in front of the text is read as what its words stand for. -/
def OrAccepted (s : List Char) : Prop :=
  ∀ t f, grammar.matchExpr (.rule .orExpr) .spaced s = some (t, f) →
    ∃ inner ws v, f = .cons .orExpr s t inner .nil ∧ Predicate.Written .or ws v ∧
      Reads s t ws v (readOr · none inner)

/-- The same for operands of `and`. -/
def AndAccepted (s : List Char) : Prop :=
  ∀ t f, grammar.matchExpr (.rule .andExpr) .spaced s = some (t, f) →
    ∃ inner ws v, f = .cons .andExpr s t inner .nil ∧ Predicate.Written .and ws v ∧
      Reads s t ws v (readAnd · none inner)

/-- The same for one operand. -/
def AtomAccepted (s : List Char) : Prop :=
  ∀ t f, grammar.matchExpr (.rule .atom) .spaced s = some (t, f) →
    ∃ inner ws v, f = .cons .atom s t inner .nil ∧ Predicate.Written .atom ws v ∧
      ∀ atom : Nat → Span, Reads s t ws v fun total => readAtom total (atom total) inner

/-- Parentheses take a character, so what is in them may be assumed. -/
theorem atomAccepted (hor : ∀ v, v.length < s.length → OrAccepted v) : AtomAccepted s := by
  intro t f h
  obtain ⟨inner, hbody, rfl⟩ := body_of_match rfl h
  obtain hposition | ⟨-, hbody⟩ := Grammar.matchExpr_either_iff.1 hbody
  · obtain ⟨_, ws, v, rfl, hws, hreads⟩ := reads_of_position hposition
    exact ⟨_, ws, v, rfl, hws, fun _ => hreads⟩
  obtain hcomparison | ⟨-, hbody⟩ := Grammar.matchExpr_either_iff.1 hbody
  · obtain ⟨_, ws, v, rfl, hws, hreads⟩ := reads_of_comparison hcomparison
    exact ⟨_, ws, v, rfl, hws, hreads⟩
  obtain htest | ⟨-, hbody⟩ := Grammar.matchExpr_either_iff.1 hbody
  · obtain ⟨_, ws, v, rfl, hws, hreads⟩ := reads_of_attributeTest htest
    exact ⟨_, ws, v, rfl, hws, hreads⟩
  obtain ⟨u, f₁, f₂, hopen, hrest, rfl⟩ := Grammar.matchExpr_both_iff.1 hbody
  obtain ⟨v, f₃, f₄, horExpr, hclose, rfl⟩ := Grammar.matchExpr_both_iff.1 hrest
  have hlt : (grammar.between .spaced u).length < s.length :=
    Nat.lt_of_le_of_lt (Trivia.skip_suffix trivia_lawful u).length_le
      (Grammar.matchExpr_lt ranked rfl hopen)
  obtain ⟨hleft, rfl⟩ := lexes_of_text (by decide) hopen
  obtain ⟨hright, rfl⟩ := lexes_of_text (by decide) hclose
  obtain ⟨_, ws, _, rfl, hws, hreads⟩ := hor _ hlt v f₃ horExpr
  exact ⟨_, _, _, rfl, .group hws, fun _ =>
    .fixed_cons hleft (hreads.fixed_snoc hright.leading).leading⟩

/-- What a round of a row of operands is: one more operand, and the word in front of it. -/
def RoundAccepted (reader : Nat → Option Predicate → Forest Rule → Reading Predicate)
    (level : Level) (join : Predicate → Predicate → Predicate) (e : Expr Rule) (s : List Char) :
    Prop :=
  ∀ t f, grammar.matchExpr e .spaced s = some (t, f) → ∃ us v operand, Reads s t us v operand ∧
    (∀ ws v', Predicate.Written level ws v' →
      Predicate.Written level (ws ++ us) (v'.bind fun p => v.map (join p))) ∧
    ∀ total left rest, reader total (some left) (f ++ rest) =
      operand total >>= fun q => reader total (some (join left q)) rest

variable {reader : Nat → Option Predicate → Forest Rule → Reading Predicate} {level : Level}
  {join : Predicate → Predicate → Predicate} {left : Nat → Reading Predicate}

theorem reads_of_rounds (hend : ∀ total q, reader total (some q) .nil = .ok q)
    (h : grammar.Rounds e .spaced s t f)
    (hround : ∀ v, v.length ≤ s.length → RoundAccepted reader level join e v)
    (hws : Predicate.Written level ws v) (hleft : Reads u s ws v left) :
    ∃ us v', Predicate.Written level us v' ∧
      Reads u t us v' (fun total => left total >>= fun p => reader total (some p) f) := by
  induction h generalizing ws v left with
  | none s =>
      refine ⟨ws, v, hws, hleft.congr fun total => ?_⟩
      simp only [hend]
      cases left total <;> rfl
  | @more s x t f fs hmatch _ ih =>
      have hskip := (Trivia.skip_suffix trivia_lawful s).length_le
      have hx := (Grammar.matchExpr_suffix ranked hmatch).length_le
      obtain ⟨us, v', operand, hus, hjoin, hreader⟩ := hround _ hskip x f hmatch
      obtain ⟨ws', v'', hws', hreads⟩ :=
        ih (fun y hy => hround y (Nat.le_trans hy (Nat.le_trans hx hskip))) (hjoin ws v hws)
          (hleft.both join hus.leading)
      refine ⟨ws', v'', hws', hreads.congr fun total => ?_⟩
      simp only [hreader, Reads.bind_both]

theorem roundAccepted_and (h : ∀ v, v.length ≤ s.length → AtomAccepted v) :
    RoundAccepted readAnd .and .and andRound s := by
  intro t f hmatch
  obtain ⟨u, f₁, f₂, hword, hoperand, rfl⟩ := Grammar.matchExpr_both_iff.1 hmatch
  obtain ⟨_, us, v, rfl, hus, hreads⟩ := h _ (length_between_le hword) t f₂ hoperand
  obtain ⟨_, rfl, hand⟩ := lexes_of_joint "and" ⟨_, _, rfl, rfl, rfl⟩ ⟨rfl, rfl⟩ hword
  have hatom := (hreads fun total => spanOf total (grammar.between .spaced u) t).leading
  exact ⟨_, _, _, hatom.fixed_cons hand, fun ws v' hws => .and hws hus, fun _ _ _ => rfl⟩

theorem roundAccepted_or (h : ∀ v, v.length ≤ s.length → AndAccepted v) :
    RoundAccepted readOr .or .or orRound s := by
  intro t f hmatch
  obtain ⟨u, f₁, f₂, hword, hoperand, rfl⟩ := Grammar.matchExpr_both_iff.1 hmatch
  obtain ⟨_, us, v, rfl, hus, hreads⟩ := h _ (length_between_le hword) t f₂ hoperand
  obtain ⟨_, rfl, hor⟩ := lexes_of_joint "or" ⟨_, _, rfl, rfl, rfl⟩ ⟨rfl, rfl⟩ hword
  exact ⟨_, _, _, hreads.leading.fixed_cons hor, fun ws v' hws => .or hws hus, fun _ _ _ => rfl⟩

theorem andAccepted (hatom : ∀ v, v.length ≤ s.length → AtomAccepted v) : AndAccepted s := by
  intro t f h
  obtain ⟨inner, hbody, rfl⟩ := body_of_match rfl h
  obtain ⟨u, f₁, f₂, hfirst, hmore, rfl⟩ := Grammar.matchExpr_both_iff.1 hbody
  have hu := length_between_le hfirst
  obtain ⟨hrounds, -⟩ :=
    (Grammar.matchExpr_star_iff ranked rfl (Grammar.between_between ranked)).1 hmore
  obtain ⟨inside, ws, v, rfl, hws, hreads⟩ := hatom s (Nat.le_refl _) u f₁ hfirst
  have hround : ∀ v, v.length ≤ (grammar.between .spaced u).length →
      RoundAccepted readAnd .and .and andRound v :=
    fun v hv => roundAccepted_and fun x hx => hatom x (Nat.le_trans hx (Nat.le_trans hv hu))
  have hleft := hreads fun total => spanOf total s u
  obtain ⟨us, v', hus, hall⟩ := reads_of_rounds (fun _ _ => rfl) hrounds hround (.atom hws)
    (hleft.trailing (lexes_skip u))
  exact ⟨_, us, v', rfl, hus, hall⟩

theorem orAccepted_of_and (hand : ∀ v, v.length ≤ s.length → AndAccepted v) : OrAccepted s := by
  intro t f h
  obtain ⟨inner, hbody, rfl⟩ := body_of_match rfl h
  obtain ⟨u, f₁, f₂, hfirst, hmore, rfl⟩ := Grammar.matchExpr_both_iff.1 hbody
  have hu := length_between_le hfirst
  obtain ⟨hrounds, -⟩ :=
    (Grammar.matchExpr_star_iff ranked rfl (Grammar.between_between ranked)).1 hmore
  obtain ⟨inside, ws, v, rfl, hws, hreads⟩ := hand s (Nat.le_refl _) u f₁ hfirst
  have hround : ∀ v, v.length ≤ (grammar.between .spaced u).length →
      RoundAccepted readOr .or .or orRound v :=
    fun v hv => roundAccepted_or fun x hx => hand x (Nat.le_trans hx (Nat.le_trans hv hu))
  obtain ⟨us, v', hus, hall⟩ := reads_of_rounds (fun _ _ => rfl) hrounds hround (.ands hws)
    (hreads.trailing (lexes_skip u))
  exact ⟨_, us, v', rfl, hus, hall⟩

/-- By induction on the length of the text: what is in parentheses is shorter. -/
theorem orAccepted (s : List Char) : OrAccepted s := by
  generalize hn : s.length = n
  induction n using Nat.strongRecOn generalizing s with
  | ind n ih =>
      have hatom : ∀ v, v.length ≤ s.length → AtomAccepted v := fun v hv =>
        atomAccepted fun x hx => ih x.length (by omega) x rfl
      exact orAccepted_of_and fun v hv => andAccepted fun x hx => hatom x (Nat.le_trans hx hv)

/-! ## Steps -/

theorem reads_of_predicate (h : grammar.matchExpr (.rule .predicate) .spaced s = some (t, f)) :
    ∃ before after inside next ws v,
      f = .cons .predicate s t (.cons .orExpr before after inside next) .nil ∧
        Predicate.Written .or ws v ∧
        Reads s t (.fixed (.sign "[") :: (ws ++ [.fixed (.sign "]")])) v
          (readOr · none inside) := by
  obtain ⟨_, hbody, rfl⟩ := body_of_match rfl h
  obtain ⟨u, f₁, f₂, hopen, hrest, rfl⟩ := Grammar.matchExpr_both_iff.1 hbody
  obtain ⟨v, f₃, f₄, horExpr, hclose, rfl⟩ := Grammar.matchExpr_both_iff.1 hrest
  obtain ⟨hleft, rfl⟩ := lexes_of_text (by decide) hopen
  obtain ⟨hright, rfl⟩ := lexes_of_text (by decide) hclose
  obtain ⟨inside, ws, v', rfl, hws, hreads⟩ := orAccepted _ v f₃ horExpr
  exact ⟨_, _, inside, _, ws, v', rfl, hws,
    .fixed_cons hleft (hreads.fixed_snoc hright.leading).leading⟩

theorem reads_of_predicateRounds (h : grammar.Rounds (.rule .predicate) .spaced s t f) :
    ∃ ws vs, WrittenPredicates ws vs ∧ Reads s t ws vs (readPredicates · f) := by
  induction h with
  | none s => exact ⟨[], _, .nil, .pure (.nil s) []⟩
  | @more s u t f fs hround _ ih =>
      obtain ⟨_, _, inside, _, ws, v, rfl, hws, hreads⟩ := reads_of_predicate hround
      obtain ⟨us, vs, hus, hrest⟩ := ih
      have hboth := hreads.leading.both List.cons hrest
      rw [List.cons_append, List.append_assoc] at hboth
      exact ⟨_, _, .cons hws hus, hboth⟩

theorem reads_of_nodeTest (h : grammar.matchExpr (.rule .nodeTest) .spaced s = some (t, f)) :
    ∃ inner test v, f = .cons .nodeTest s t inner .nil ∧ WrittenTest test v ∧
      Reads s t [test] v (readTest · inner) := by
  obtain ⟨inner, hbody, rfl⟩ := body_of_match rfl h
  obtain hwildcard | ⟨-, hkind⟩ := Grammar.matchExpr_either_iff.1 hbody
  · obtain ⟨_, htext, rfl⟩ := body_of_match rfl hwildcard
    exact ⟨_, _, _, rfl, .any, .fixed (lexes_of_text (by decide) htext).1 _⟩
  · obtain ⟨_, hname, rfl⟩ := body_of_match rfl hkind
    obtain ⟨w, rfl, hw, hstop⟩ := name_of_match hname
    exact ⟨_, _, _, rfl, .kind (String.ofList w), (reads_kind hw hstop).map NodeTest.kind⟩

/-- The match of a test and of the predicates behind it. -/
theorem reads_of_found
    (h : grammar.matchExpr (.both (.rule .nodeTest) (.star (.rule .predicate))) .spaced s =
      some (t, f)) :
    (∃ before after inner next, f = .cons .nodeTest before after inner next) ∧
      ∃ test v ws vs, WrittenTest test v ∧ WrittenPredicates ws vs ∧
        ∀ axis, Reads s t (test :: ws) (v.bind fun test => vs.map (⟨axis, test, ·⟩))
          (readFound · axis f) := by
  obtain ⟨u, f₁, f₂, htest, hmore, rfl⟩ := Grammar.matchExpr_both_iff.1 h
  obtain ⟨inner, test, v, rfl, hv, hreads⟩ := reads_of_nodeTest htest
  obtain ⟨hrounds, -⟩ :=
    (Grammar.matchExpr_star_iff ranked rfl (Grammar.between_between ranked)).1 hmore
  obtain ⟨ws, vs, hws, hpredicates⟩ := reads_of_predicateRounds hrounds
  exact ⟨⟨_, _, inner, _, rfl⟩, test, v, ws, vs, hv, hws, fun axis =>
    hreads.both (fun test ps => Step.mk axis test ps) hpredicates.leading⟩

theorem reads_of_axisStep (h : grammar.matchExpr (.rule .axisStep) .spaced s = some (t, f)) :
    ∃ ws v explicit, Step.Written ws v explicit ∧
      Reads s t ws (v.map (·, explicit)) (readStep · f) := by
  obtain ⟨inner, hbody, rfl⟩ := body_of_match rfl h
  obtain ⟨u, f₁, f₂, haxis, hfound, rfl⟩ := Grammar.matchExpr_both_iff.1 hbody
  obtain ⟨⟨_, _, _, _, rfl⟩, test, v, ws, vs, hv, hws, hreads⟩ := reads_of_found hfound
  obtain hnamed | ⟨-, rfl, rfl⟩ := Grammar.matchExpr_opt_iff.1 haxis
  · obtain ⟨x, f₃, f₄, hword, hcolons, rfl⟩ := Grammar.matchExpr_both_iff.1 hnamed
    obtain ⟨_, axis, rfl, htaken, hname⟩ := lexes_of_axis hword
    obtain ⟨hsign, rfl⟩ := lexes_of_text (by decide) hcolons
    have hstep := (((hreads axis).map (·, true)).leading.fixed_cons hsign).leading.fixed_cons hname
    have hofName : Axis.ofName? axis.name = some axis := axis_ofName?_iff.2 rfl
    refine ⟨_, _, _, .along axis hv hws, hstep.congr fun total => ?_⟩
    simp only [Forest.cons_append, Forest.nil_append, readStep, htaken, hofName]
  · exact ⟨_, _, _, .child hv hws, ((hreads .child).map (·, false)).leading⟩

theorem reads_of_step (h : grammar.matchExpr (.rule .step) .spaced s = some (t, f)) :
    ∃ inner ws v explicit, f = .cons .step s t inner .nil ∧ Step.Written ws v explicit ∧
      Reads s t ws (v.map (·, explicit)) (readStep · inner) := by
  obtain ⟨inner, hbody, rfl⟩ := body_of_match rfl h
  obtain hparent | ⟨hnone, hbody⟩ := Grammar.matchExpr_either_iff.1 hbody
  · obtain ⟨_, htext, rfl⟩ := body_of_match rfl hparent
    exact ⟨_, _, _, _, rfl, .parent, .fixed (lexes_of_text (by decide) htext).1 _⟩
  obtain hself | ⟨-, haxis⟩ := Grammar.matchExpr_either_iff.1 hbody
  · obtain ⟨_, htext, rfl⟩ := body_of_match rfl hself
    obtain ⟨rfl, -⟩ := Grammar.matchExpr_text_iff.1 htext
    -- Two dots would have been matched as such.
    have hdot : '.' ∉ t.head? := by
      intro hmem
      obtain ⟨t, rfl⟩ : ∃ t', t = '.' :: t' := List.head?_eq_some_iff.1 hmem
      have htwo : grammar.matchExpr (.rule .parentStep) .spaced (".".toList ++ '.' :: t) = _ :=
        matchExpr_rule rfl (Grammar.matchExpr_text "..".toList t)
      cases hnone.symm.trans htwo
    have hlexes : Lexes (".".toList ++ t) [.sign "."] t :=
      lexes_sign (by decide) (fun h => absurd h (by decide)) (fun _ => hdot)
    exact ⟨_, _, _, _, rfl, .self, .fixed hlexes _⟩
  · obtain ⟨ws, v, explicit, hws, hreads⟩ := reads_of_axisStep haxis
    exact ⟨inner, ws, v, explicit, rfl, hws, hreads⟩

/-! ## Paths -/

theorem lexes_of_separator (h : grammar.matchExpr Rule.separator .spaced s = some (t, f)) :
    ∃ deep, Lexes s [separatorToken deep] t ∧ ∀ rest, anchorOf (f ++ rest) = .root ∧
      ∀ total last, readSteps total last (f ++ rest) = readSteps total deep rest := by
  obtain hdeep | ⟨hnone, hchild⟩ := Grammar.matchExpr_either_iff.1 h
  · obtain ⟨_, htext, rfl⟩ := body_of_match rfl hdeep
    exact ⟨true, (lexes_of_text (by decide) htext).1, fun _ => ⟨rfl, fun _ _ => rfl⟩⟩
  · obtain ⟨_, htext, rfl⟩ := body_of_match rfl hchild
    obtain ⟨rfl, -⟩ := Grammar.matchExpr_text_iff.1 htext
    -- Two slashes would have been matched as such.
    have hslash : '/' ∉ t.head? := by
      intro hmem
      obtain ⟨t, rfl⟩ : ∃ t', t = '/' :: t' := List.head?_eq_some_iff.1 hmem
      have htwo : grammar.matchExpr (.rule .descendantSep) .spaced ("/".toList ++ '/' :: t) = _ :=
        matchExpr_rule rfl (Grammar.matchExpr_text "//".toList t)
      cases hnone.symm.trans htwo
    exact ⟨false, lexes_sign (by decide) (fun _ => hslash) (fun h => absurd h (by decide)),
      fun _ => ⟨rfl, fun _ _ => rfl⟩⟩

/-- The steps of a path whose first step has been read: each round puts one more separator
and step behind them. -/
theorem reads_of_stepRounds {rest : Forest Rule}
    (hend : ∀ total, readSteps total false rest = .ok [])
    (h : grammar.Rounds stepRound .spaced s t f) {explicit : Bool} {v : Option Step}
    {first : Nat → Reading (Step × Bool)} (hws : Step.Written ws v explicit)
    (hfirst : Reads u s ws (v.map (·, explicit)) first) (deep : Bool) :
    ∃ us vs, WrittenPath deep us vs ∧ Reads u t us vs (fun total => do
      let (step, explicit) ← first total
      let steps ← readSteps total false (f ++ rest)
      return expandStep deep step explicit ++ steps) := by
  induction h generalizing u ws deep explicit v first with
  | none s =>
      have hsteps := hfirst.map fun step => expandStep deep step.1 step.2
      rw [Option.map_map] at hsteps
      refine ⟨_, _, .last hws, hsteps.congr fun total => ?_⟩
      simp only [Forest.nil_append, hend]
      cases first total with
      | error _ => rfl
      | ok step => exact congrArg Except.ok (List.append_nil _)
  | @more s x t f fs hround _ ih =>
      obtain ⟨y, f₁, f₂, hseparator, hstep, rfl⟩ := Grammar.matchExpr_both_iff.1 hround
      obtain ⟨deep', hsign, hreader⟩ := lexes_of_separator hseparator
      obtain ⟨inner, us, v', explicit', rfl, hus, hreads⟩ := reads_of_step hstep
      obtain ⟨ws', vs, hws', hrest⟩ := ih hus hreads deep'
      have hboth := hfirst.both (fun step steps => expandStep deep step.1 step.2 ++ steps)
        (hrest.leading.fixed_cons hsign).leading
      rw [Option.bind_map] at hboth
      refine ⟨_, _, .more hws hws', hboth.congr fun total => ?_⟩
      rw [Forest.append_assoc, Forest.append_assoc, (hreader _).2]
      rfl

/-- The path behind a leading separator, if there is one. -/
theorem reads_of_path (deep : Bool)
    (h : grammar.matchExpr
      (.both (.rule .step) (.both (.star stepRound) (.rule .endOfExpression))) .spaced s =
        some (t, f)) :
    anchorOf f = .context ∧
      ∃ ws vs, WrittenPath deep ws vs ∧ Reads s [] ws vs (readSteps · deep f) := by
  obtain ⟨u, f₁, f₂, hstep, hrest, rfl⟩ := Grammar.matchExpr_both_iff.1 h
  obtain ⟨v, f₃, f₄, hmore, hend, rfl⟩ := Grammar.matchExpr_both_iff.1 hrest
  obtain ⟨hrounds, -⟩ :=
    (Grammar.matchExpr_star_iff ranked rfl (Grammar.between_between ranked)).1 hmore
  obtain ⟨inner, ws, v', explicit, rfl, hws, hreads⟩ := reads_of_step hstep
  obtain ⟨last, hany, rfl⟩ := body_of_match rfl hend
  obtain ⟨hnone, rfl, -⟩ := Grammar.matchExpr_notAhead_iff.1 hany
  have hlast (before after : List Char) : ∀ total,
      readSteps total false (.cons .endOfExpression before after last .nil) = .ok [] :=
    fun _ => rfl
  obtain ⟨us, vs, hus, hpath⟩ :=
    reads_of_stepRounds (hlast _ _) hrounds hws (hreads.trailing (lexes_skip u)) deep
  have hnil : grammar.between .spaced v = [] := by
    cases hv : grammar.between .spaced v with
    | nil => rfl
    | cons c v => rw [hv] at hnone; cases hnone
  exact ⟨rfl, us, vs, hus, hpath.trailing (hnil ▸ lexes_skip v)⟩

/-- An expression that is matched is read as what its words stand for, or rejected at the
first of them that has a fault. -/
theorem reads_of_parse (h : grammar.parse .expression s = some (t, f)) :
    ∃ ws v, Plan.Written ws v ∧ Reads s [] ws v (readPlan · f) := by
  obtain ⟨inner, hbody, rfl⟩ := body_of_match rfl h
  obtain ⟨u, f₁, f₂, hstart, hrest, rfl⟩ := Grammar.matchExpr_both_iff.1 hbody
  obtain ⟨v, f₃, f₄, hopt, hpath, rfl⟩ := Grammar.matchExpr_both_iff.1 hrest
  obtain ⟨hu, rfl⟩ := Grammar.matchExpr_text_iff.1 hstart
  rw [show u = s from hu.symm] at hopt
  obtain hseparator | ⟨-, rfl, rfl⟩ := Grammar.matchExpr_opt_iff.1 hopt
  · obtain ⟨deep, hsign, hreader⟩ := lexes_of_separator hseparator
    obtain ⟨-, ws, vs, hws, hreads⟩ := reads_of_path deep hpath
    have hplan := (hreads.map (Plan.mk .root)).leading.fixed_cons hsign
    refine ⟨_, _, .root hws, hplan.leading.congr fun total => ?_⟩
    rw [Forest.nil_append, readPlan, (hreader f₄).1, (hreader f₄).2]
  · obtain ⟨hanchor, ws, vs, hws, hreads⟩ := reads_of_path false hpath
    have hplan := (hreads.map (Plan.mk .context)).leading
    refine ⟨_, _, .context hws, hplan.leading.congr fun total => ?_⟩
    rw [Forest.nil_append, Forest.nil_append, readPlan, hanchor]

/-- What an expression is read as is derived from its tokens. -/
theorem derives_of_read {plan : Plan} (h : read s = .ok plan) :
    ∃ ts, Lexes s ts [] ∧ plan.Derives ts := by
  rw [read] at h
  split at h
  · next t f hparse =>
      obtain ⟨ws, v, hws, hreads⟩ := reads_of_parse hparse
      have hanswer := hreads.answers (Text.byteLength s)
      simp only [h] at hanswer
      cases hanswer with
      | ok _ hv => exact ⟨_, hreads.lexes, Plan.derives_iff_written.2 ⟨ws, rfl, hv ▸ hws⟩⟩
  · cases h

end FeatureTree.Traversal
