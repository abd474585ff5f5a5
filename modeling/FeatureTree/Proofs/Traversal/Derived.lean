import FeatureTree.Proofs.Traversal.Accepted

/-!
# What is written is accepted

If the words of an expression are written as the grammar says, then the expression is
matched, and read as what the words stand for or rejected at the first of them that has a
fault. A rule is tried behind the blanks in front of its first token, and what it leaves is
known up to blanks only: a repetition may or may not have dropped those in front of the
token at which it stopped.

A token says itself where it ends (`Longest`), so what follows a part matters only where
the grammar could go on instead: an attribute test could become a comparison, a row of
operands could have one more (`Stops`), and a name in front of two colons would be an axis.
-/

namespace FeatureTree.Traversal

variable {c : Char} {s t u : List Char} {r : Rule} {token : Token} {ts : List Token}
  {ws us : List Word} {v v' : Option Predicate}

theorem Lexes.between_eq (h : Lexes s [] t) :
    grammar.between .spaced s = grammar.between .spaced t := h.skip_eq

/-! ## What follows -/

/-- The rule does not match behind the blanks. -/
def Stops (r : Rule) (t : List Char) : Prop :=
  grammar.matchExpr (.rule r) .spaced (grammar.between .spaced t) = none

theorem Stops.congr (h : Stops r t) (hu : grammar.between .spaced u = grammar.between .spaced t) :
    Stops r u := by
  rwa [Stops, hu]

theorem stops_comparator (ht : grammar.between .spaced t = c :: u) (hnot : c ≠ '!')
    (heq : c ≠ '=') : Stops .comparator t := by
  rw [Stops, ht]
  exact matchExpr_comparator_none hnot heq u

theorem stops_kwAnd (ht : grammar.between .spaced t = c :: u) (hc : c ≠ 'a') :
    Stops .kwAnd t := by
  rw [Stops, ht]
  exact matchExpr_token_none rfl (Grammar.matchExpr_both_none (Grammar.matchExpr_text_ne hc _ u))

theorem stops_kwOr (ht : grammar.between .spaced t = c :: u) (hc : c ≠ 'o') : Stops .kwOr t := by
  rw [Stops, ht]
  exact matchExpr_token_none rfl (Grammar.matchExpr_both_none (Grammar.matchExpr_text_ne hc _ u))

/-! ## Operands -/

/-- The words are matched as one operand of `and`, and read. -/
def AtomReads (ws : List Word) (v : Option Predicate) : Prop :=
  ∀ s t, Lexes s (tokensOf ws) t → Stops .comparator t → ∃ u inner,
    grammar.matchExpr (.rule .atom) .spaced (grammar.between .spaced s) =
        some (u, .cons .atom (grammar.between .spaced s) u inner .nil) ∧
      grammar.between .spaced u = grammar.between .spaced t ∧
      ∀ atom : Nat → Span, Reads s t ws v fun total => readAtom total (atom total) inner

/-- The words are matched as operands of `and`, one after the other, and read. -/
def AndReads (ws : List Word) (v : Option Predicate) : Prop :=
  ∀ s t, Lexes s (tokensOf ws) t → Stops .comparator t → ∃ x u f h operands,
    grammar.matchExpr (.rule .atom) .spaced (grammar.between .spaced s) = some (x, f) ∧
      grammar.Rounds andRound .spaced (grammar.between .spaced x) u h ∧
      grammar.between .spaced u = grammar.between .spaced t ∧ Reads s t ws v operands ∧
      ∀ total rest, readAnd total none (f ++ (h ++ rest)) =
        operands total >>= fun p => readAnd total (some p) rest

/-- The words are matched as operands of `or`, one after the other, and read. -/
def OrReads (ws : List Word) (v : Option Predicate) : Prop :=
  ∀ s t, Lexes s (tokensOf ws) t → Stops .comparator t → Stops .kwAnd t → ∃ x u f h operands,
    grammar.matchExpr (.rule .andExpr) .spaced (grammar.between .spaced s) = some (x, f) ∧
      grammar.Rounds orRound .spaced (grammar.between .spaced x) u h ∧
      grammar.between .spaced u = grammar.between .spaced t ∧ Reads s t ws v operands ∧
      ∀ total rest, readOr total none (f ++ (h ++ rest)) =
        operands total >>= fun p => readOr total (some p) rest

theorem atomReads_position (digits : String) :
    AtomReads [.position digits] (positionOf? digits) := by
  intro s t h _
  obtain ⟨x, hs, hne, hdigits, hstop, hx⟩ := h.digits_cons
  have hreads := reads_position hne hdigits hstop
  rw [String.ofList_toList] at hreads
  rw [hs]
  exact ⟨x, _, atom_position (match_digits hne hdigits hstop), hx.between_eq,
    fun _ => (hreads.skip hs).trailing hx⟩

theorem reads_attributeName {name : String} (hs : grammar.between .spaced s = name.toList ++ t)
    (hname : IsName name.toList) (hstops : StopsName t) :
    Reads s t [.attribute name] (Attribute.ofWord? name)
      (readAttribute · (grammar.between .spaced s) t) := by
  have hreads := reads_attribute hname hstops
  rw [String.ofList_toList] at hreads
  rw [hs]
  exact hreads.skip hs

theorem atomReads_has (name : String) :
    AtomReads [.fixed (.sign "@"), .attribute name]
      ((Attribute.ofWord? name).map .has) := by
  intro s t h ht
  obtain ⟨x, hs, hat, -, -, h⟩ := h.sign_cons
  obtain ⟨y, hx, -, hname, hstops, hy⟩ := h.name_cons
  have hmatch : grammar.matchExpr (.rule .attributeName) .spaced (grammar.between .spaced x) = _ :=
    hx ▸ match_named ⟨rfl, rfl⟩ hname hstops
  -- The match of a comparison breaks off behind the name.
  have hcomparison : grammar.matchExpr (.rule .comparison) .spaced ('@' :: x) = none := by
    refine matchExpr_rule_none rfl ?_
    refine Grammar.matchExpr_both_none_right (matchExpr_sign '@' _) ?_
    refine Grammar.matchExpr_both_none_right hmatch ?_
    exact Grammar.matchExpr_both_none (ht.congr hy.between_eq)
  have htest : grammar.matchExpr (.rule .attributeTest) .spaced ('@' :: x) = some (y, _) :=
    matchExpr_rule rfl (Grammar.matchExpr_both (f := .nil) (matchExpr_sign '@' _) hmatch)
  rw [hs]
  refine ⟨y, _, atom_attributeTest rfl hcomparison htest, hy.between_eq, fun _ => ?_⟩
  have hreads := (reads_attributeName hx hname hstops).map Predicate.has
  exact (hreads.fixed_cons hat).trailing hy

theorem atomReads_compare (name : String) (comparison : Comparison) (text : String) :
    AtomReads
      [.fixed (.sign "@"), .attribute name, .fixed (.sign comparison.symbol), .value name text]
      ((Attribute.ofWord? name).bind (compared? comparison text)) := by
  intro s t h _
  obtain ⟨s₁, hs, hat, -, -, h⟩ := h.sign_cons
  obtain ⟨s₂, hs₁, -, hname, hstops, h⟩ := h.name_cons
  obtain ⟨s₃, hs₂, hsymbol, -, -, h⟩ := h.sign_cons
  obtain ⟨quote, s₄, hs₃, hquote, hvalue, hs₄⟩ := h.literal_cons
  have hmatch : grammar.matchExpr (.rule .attributeName) .spaced (grammar.between .spaced s₁) = _ :=
    hs₁ ▸ match_named ⟨rfl, rfl⟩ hname hstops
  obtain ⟨_, hcomparator⟩ := match_comparator comparison s₃
  obtain ⟨r, hliteral⟩ := match_quotedText hquote hvalue s₄
  rw [← hs₂] at hcomparator
  rw [← hs₃] at hliteral
  have hbody := Grammar.matchExpr_both (matchExpr_sign '@' s₁)
    (Grammar.matchExpr_both hmatch (Grammar.matchExpr_both hcomparator hliteral))
  rw [hs]
  refine ⟨s₄, _, atom_comparison rfl (matchExpr_rule rfl hbody), hs₄.between_eq, fun atom => ?_⟩
  have htext : wordOf (text.toList ++ quote :: s₄) (quote :: s₄) = text := by
    rw [wordOf_append, String.ofList_toList]
  have hreadValue (asked : Attribute) :=
    reads_value asked comparison (.literal hquote hvalue) (longest_literal (s := s₄) hquote hvalue)
  simp only [List.cons_append, List.append_assoc, List.nil_append] at hreadValue
  have hfront := (reads_attributeName hs₁ hname hstops).fixed_snoc hsymbol
  have hreads := hfront.bind [.value name text] ((hreadValue .name).skip hs₃).lexes
    fun asked hasked => by
      rw [← attribute_ofWord?_iff.1 hasked]
      exact (hreadValue asked).skip hs₃
  refine ((hreads.fixed_cons hat).trailing hs₄).congr fun total => ?_
  simp only [Forest.cons_append, Forest.nil_append, readAtom]
  rw [readComparison_eq, insideOf, htext, hs₂, wordOf_symbol, ← hs₃]

theorem AtomReads.andReads (h : AtomReads ws v) : AndReads ws v := by
  intro s t hs ht
  obtain ⟨u, inner, hmatch, hu, hreads⟩ := h s t hs ht
  refine ⟨u, _, _, _, _, hmatch, .none _, ?_, hreads (spanOf · (grammar.between .spaced s) u),
    fun total rest => ?_⟩
  · rw [Grammar.between_between ranked, hu]
  · rfl

/-- A word that joins operands. -/
theorem match_joint {word : String} (hword : IsName word.toList)
    (hr : r.layout = .token ∧ r.body = Lexical.word Rule.nameChar [word]) (ht : StopsName t) :
    grammar.matchExpr (.rule r) .spaced (word.toList ++ t) =
      some (t, .cons r (word.toList ++ t) t .nil .nil) := by
  refine match_word hr (List.mem_singleton_self word) (List.forall_mem_singleton.2 ?_) (by simp) ht
  obtain ⟨c, w, heq, hc, hw⟩ := hword
  rw [heq]
  exact List.forall_mem_cons.2 ⟨by simp [isNameChar, Char.isAlphanum, hc], List.all_eq_true.1 hw⟩

theorem AndReads.and (hl : AndReads ws v) (hr : AtomReads us v') :
    AndReads (ws ++ .fixed (.name "and") :: us) (v.bind fun p => v'.map (.and p)) := by
  intro s t hs ht
  rw [tokensOf_append] at hs
  obtain ⟨x, hx, hus⟩ := hs.split
  obtain ⟨y, hword, hand, hname, hstops, hus⟩ := hus.name_cons
  obtain ⟨x', u, f, h, operands, hmatch, hrounds, hu, hreads, hread⟩ :=
    hl s x hx (stops_comparator hword (by decide) (by decide))
  obtain ⟨z, inner, hatom, hz, hreadAtom⟩ := hr y t hus ht
  have hround := Grammar.matchExpr_both (match_joint hname (r := .kwAnd) ⟨rfl, rfl⟩ hstops) hatom
  rw [← hword, ← hu] at hround
  have hboth := hreads.both Predicate.and
    ((hreadAtom (spanOf · (grammar.between .spaced y) z)).fixed_cons hand)
  refine ⟨x', z, f, _, _, hmatch, hrounds.snoc hround, hz, hboth, fun total rest => ?_⟩
  rw [Forest.append_assoc, hread, Reads.bind_both]
  rfl

theorem AndReads.andExpr (h : AndReads ws v) (hs : Lexes s (tokensOf ws) t)
    (ht : Stops .comparator t) (hand : Stops .kwAnd t) :
    ∃ u inner, grammar.matchExpr (.rule .andExpr) .spaced (grammar.between .spaced s) =
        some (u, .cons .andExpr (grammar.between .spaced s) u inner .nil) ∧
      grammar.between .spaced u = grammar.between .spaced t ∧
      Reads s t ws v (readAnd · none inner) := by
  obtain ⟨x, u, f, fs, operands, hmatch, hrounds, hu, hreads, hread⟩ := h s t hs ht
  have hstar := Grammar.matchExpr_star ranked rfl (Grammar.between_between ranked) hrounds
    (Grammar.matchExpr_both_none (hand.congr hu))
  refine ⟨u, f ++ fs, matchExpr_rule rfl (Grammar.matchExpr_both hmatch hstar), hu,
    hreads.congr fun total => ?_⟩
  rw [← Forest.append_nil fs, hread]
  cases operands total <;> rfl

theorem AndReads.orReads (h : AndReads ws v) : OrReads ws v := by
  intro s t hs ht hand
  obtain ⟨u, inner, hmatch, hu, hreads⟩ := h.andExpr hs ht hand
  refine ⟨u, _, _, _, _, hmatch, .none _, ?_, hreads, fun total rest => ?_⟩
  · rw [Grammar.between_between ranked, hu]
  · rfl

theorem OrReads.or (hl : OrReads ws v) (hr : AndReads us v') :
    OrReads (ws ++ .fixed (.name "or") :: us) (v.bind fun p => v'.map (.or p)) := by
  intro s t hs ht hand
  rw [tokensOf_append] at hs
  obtain ⟨x, hx, hus⟩ := hs.split
  obtain ⟨y, hword, hor, hname, hstops, hus⟩ := hus.name_cons
  obtain ⟨x', u, f, h, operands, hmatch, hrounds, hu, hreads, hread⟩ :=
    hl s x hx (stops_comparator hword (by decide) (by decide)) (stops_kwAnd hword (by decide))
  obtain ⟨z, inner, handExpr, hz, hreadAnd⟩ := hr.andExpr hus ht hand
  have hround := Grammar.matchExpr_both (match_joint hname (r := .kwOr) ⟨rfl, rfl⟩ hstops) handExpr
  rw [← hword, ← hu] at hround
  have hboth := hreads.both Predicate.or (hreadAnd.fixed_cons hor)
  refine ⟨x', z, f, _, _, hmatch, hrounds.snoc hround, hz, hboth, fun total rest => ?_⟩
  rw [Forest.append_assoc, hread, Reads.bind_both]
  rfl

/-- Operands of `or` in front of a bracket that closes. -/
theorem OrReads.orExpr (h : OrReads ws v) (hs : Lexes s (tokensOf ws) t)
    (ht : grammar.between .spaced t = c :: u) (hc : c = ')' ∨ c = ']') :
    ∃ x inner, grammar.matchExpr (.rule .orExpr) .spaced (grammar.between .spaced s) =
        some (x, .cons .orExpr (grammar.between .spaced s) x inner .nil) ∧
      grammar.between .spaced x = c :: u ∧ Reads s t ws v (readOr · none inner) := by
  have hchar : c ≠ '!' ∧ c ≠ '=' ∧ c ≠ 'a' ∧ c ≠ 'o' := by obtain rfl | rfl := hc <;> decide
  obtain ⟨hnot, heq, ha, ho⟩ := hchar
  obtain ⟨y, x, f, fs, operands, hmatch, hrounds, hx, hreads, hread⟩ :=
    h s t hs (stops_comparator ht hnot heq) (stops_kwAnd ht ha)
  have hstar := Grammar.matchExpr_star ranked rfl (Grammar.between_between ranked) hrounds
    (Grammar.matchExpr_both_none ((stops_kwOr ht ho).congr hx))
  refine ⟨x, f ++ fs, matchExpr_rule rfl (Grammar.matchExpr_both hmatch hstar), hx.trans ht,
    hreads.congr fun total => ?_⟩
  rw [← Forest.append_nil fs, hread]
  cases operands total <;> rfl

/-- Operands of `or` between brackets. -/
theorem OrReads.bracketed {left right : String} {d : Char} (h : OrReads ws v)
    (hright : right.toList = [d]) (hd : d = ')' ∨ d = ']')
    (hs : Lexes s (.sign left :: (tokensOf ws ++ .sign right :: ts)) t) :
    ∃ x y z inner, grammar.between .spaced s = left.toList ++ x ∧
      grammar.matchExpr (.rule .orExpr) .spaced (grammar.between .spaced x) =
        some (y, .cons .orExpr (grammar.between .spaced x) y inner .nil) ∧
      grammar.matchExpr (.text [d]) .spaced (grammar.between .spaced y) = some (z, .nil) ∧
      Lexes z ts t ∧
      Reads s z (.fixed (.sign left) :: (ws ++ [.fixed (.sign right)])) v
        (readOr · none inner) := by
  obtain ⟨x, hopen, hleft, -, -, hx⟩ := hs.sign_cons
  obtain ⟨y, hy, hclose⟩ := hx.split
  obtain ⟨z, hend, hsign, -, -, hz⟩ := hclose.sign_cons
  rw [hright] at hend
  obtain ⟨y', inner, hmatch, hy', hreads⟩ := h.orExpr hy hend hd
  refine ⟨x, y', z, inner, hopen, hmatch, ?_, hz, .fixed_cons hleft (hreads.fixed_snoc hsign)⟩
  rw [hy']
  exact matchExpr_sign d z

/-- Operands of `or` in parentheses are one operand. -/
theorem OrReads.atomReads (h : OrReads ws v) :
    AtomReads (.fixed (.sign "(") :: (ws ++ [.fixed (.sign ")")])) v := by
  intro s t hs _
  rw [tokensOf_cons, tokensOf_append] at hs
  obtain ⟨x, y, z, inner, hopen, hmatch, hend, hz, hreads⟩ := h.bracketed rfl (.inl rfl) hs
  have hparens := Grammar.matchExpr_both (matchExpr_sign '(' x)
    (Grammar.matchExpr_both hmatch hend)
  have hcomparison : grammar.matchExpr (.rule .comparison) .spaced ('(' :: x) = none :=
    matchExpr_rule_none rfl (Grammar.matchExpr_both_none rfl)
  have htest : grammar.matchExpr (.rule .attributeTest) .spaced ('(' :: x) = none :=
    matchExpr_rule_none rfl (Grammar.matchExpr_both_none rfl)
  have hbody := (Grammar.matchExpr_right (matchExpr_position_none rfl _)).trans
    ((Grammar.matchExpr_right hcomparison).trans ((Grammar.matchExpr_right htest).trans hparens))
  rw [hopen]
  exact ⟨z, _, matchExpr_rule rfl hbody, hz.between_eq, fun _ => hreads.trailing hz⟩

/-- What the words of a level are matched as. -/
def LevelReads : Level → List Word → Option Predicate → Prop
  | .atom => AtomReads
  | .and => AndReads
  | .or => OrReads

theorem reads_of_written {level : Level} (h : Predicate.Written level ws v) :
    LevelReads level ws v := by
  induction h with
  | position digits => exact atomReads_position digits
  | has name => exact atomReads_has name
  | compare name comparison text => exact atomReads_compare name comparison text
  | group _ ih => exact OrReads.atomReads ih
  | atom _ ih => exact AtomReads.andReads ih
  | and _ _ ihl ihr => exact AndReads.and ihl ihr
  | ands _ ih => exact AndReads.orReads ih
  | or _ _ ihl ihr => exact OrReads.or ihl ihr

/-! ## Steps -/

theorem rounds_of_predicates {vs : Option (List Predicate)} (h : WrittenPredicates ws vs)
    (hs : Lexes s (tokensOf ws) t) :
    ∃ u f, grammar.Rounds (.rule .predicate) .spaced s u f ∧
      grammar.between .spaced u = grammar.between .spaced t ∧
      Reads s t ws vs (readPredicates · f) := by
  induction h generalizing s with
  | nil => exact ⟨s, .nil, .none s, hs.between_eq, .pure hs []⟩
  | @cons ws us v vs h _ ih =>
      rw [tokensOf_cons, tokensOf_append] at hs
      obtain ⟨x, y, z, inner, hopen, hmatch, hend, hz, hreads⟩ :=
        OrReads.bracketed (reads_of_written h) rfl (.inr rfl) hs
      obtain ⟨u, f, hrounds, hu, hrest⟩ := ih hz
      have hround : grammar.matchExpr (.rule .predicate) .spaced ('[' :: x) = some (z, _) :=
        matchExpr_rule rfl
          (Grammar.matchExpr_both (matchExpr_sign '[' x) (Grammar.matchExpr_both hmatch hend))
      rw [← show grammar.between .spaced s = '[' :: x from hopen] at hround
      have hboth := hreads.both List.cons hrest
      rw [List.cons_append, List.append_assoc] at hboth
      exact ⟨u, _, .more hround hrounds, hu, hboth⟩

theorem match_test {test : Word} {v : Option NodeTest} (htest : WrittenTest test v)
    (h : Lexes s (test.token :: ts) t) :
    ∃ u inner, grammar.matchExpr (.rule .nodeTest) .spaced (grammar.between .spaced s) =
        some (u, .cons .nodeTest (grammar.between .spaced s) u inner .nil) ∧
      Lexes u ts t ∧ Reads s u [test] v (readTest · inner) := by
  cases htest with
  | any =>
      obtain ⟨u, hs, hsign, -, -, hu⟩ := h.sign_cons
      obtain ⟨inner, hmatch, hread⟩ := match_anyTest u
      rw [hs]
      exact ⟨u, inner, hmatch, hu, (Reads.fixed hsign NodeTest.any).congr hread⟩
  | kind name =>
      obtain ⟨u, hs, -, hname, hstops, hu⟩ := h.name_cons
      have hreads := reads_kind hname hstops
      rw [String.ofList_toList] at hreads
      rw [hs]
      exact ⟨u, _, match_nameTest hname hstops, hu, (hreads.skip hs).map NodeTest.kind⟩

theorem test_head {test : Word} {v : Option NodeTest} (htest : WrittenTest test v)
    (h : Lexes s (test.token :: ts) t) :
    ∃ c u, grammar.between .spaced s = c :: u ∧ (c = '*' ∨ c.isAlpha = true) := by
  cases htest with
  | any =>
      obtain ⟨u, hs, -⟩ := h.sign_cons
      exact ⟨_, u, hs, .inl rfl⟩
  | kind name =>
      obtain ⟨u, hs, -, ⟨c, w, hw, hc, -⟩, -⟩ := h.name_cons
      rw [hw] at hs
      exact ⟨c, _, hs, .inr hc⟩

/-- A test in front of a text is no dots. -/
theorem test_noDots {test : Word} {v : Option NodeTest} (htest : WrittenTest test v)
    (h : Lexes s (test.token :: ts) t) : Stops .parentStep s ∧ Stops .selfStep s := by
  obtain ⟨c, u, hs, hc⟩ := test_head htest h
  have hdot : c ≠ '.' := by
    rintro rfl
    obtain hc | hc := hc <;> cases hc
  rw [Stops, Stops, hs]
  exact ⟨matchExpr_rule_none rfl (Grammar.matchExpr_text_ne hdot ['.'] u),
    matchExpr_rule_none rfl (Grammar.matchExpr_text_ne hdot [] u)⟩

/-- No two colons stand behind the blanks. -/
def NoColons (t : List Char) : Prop :=
  grammar.matchExpr (.text "::".toList) .spaced (grammar.between .spaced t) = none

/-- Predicates do not begin with two colons. -/
theorem noColons_of_predicates {vs : Option (List Predicate)} (h : WrittenPredicates ws vs)
    (hs : Lexes s (tokensOf ws) t) (ht : NoColons t) : NoColons s := by
  cases h with
  | nil => rwa [NoColons, hs.between_eq]
  | cons =>
      obtain ⟨u, hopen, -⟩ := hs.sign_cons
      rw [NoColons, hopen]
      exact Grammar.matchExpr_text_ne (by decide) [':'] u

/-- The words behind a test do not make it the name of an axis. -/
theorem axis_none {vs : Option (List Predicate)} (h : WrittenPredicates ws vs)
    (hs : Lexes s (token :: tokensOf ws) t) (ht : NoColons t) :
    grammar.matchExpr (.both (.rule .axis) (.text "::".toList)) .spaced
      (grammar.between .spaced s) = none := by
  cases haxis : grammar.matchExpr (.rule .axis) .spaced (grammar.between .spaced s) with
  | none => exact Grammar.matchExpr_both_none haxis
  | some result =>
      obtain ⟨x, f⟩ := result
      obtain ⟨_, axis, -, -, hname⟩ := lexes_of_axis haxis
      obtain ⟨y, hx, hy⟩ := hs.first_unique hname.leading
      refine Grammar.matchExpr_both_none_right haxis ?_
      rw [show grammar.between .spaced x = grammar.between .spaced y from hx]
      exact noColons_of_predicates h hy ht

theorem match_found {test : Word} {v : Option NodeTest} {vs : Option (List Predicate)}
    (htest : WrittenTest test v) (h : WrittenPredicates ws vs)
    (hs : Lexes s (test.token :: tokensOf ws) t) (ht : Stops .predicate t) :
    ∃ u x inner f, grammar.matchExpr (.both (.rule .nodeTest) (.star (.rule .predicate))) .spaced
        (grammar.between .spaced s) =
          some (u, .cons .nodeTest (grammar.between .spaced s) x inner f) ∧
      grammar.between .spaced u = grammar.between .spaced t ∧
      ∀ axis before, Reads s t (test :: ws) (v.bind fun test => vs.map (⟨axis, test, ·⟩))
        (readFound · axis (.cons .nodeTest before x inner f)) := by
  obtain ⟨x, inner, hmatch, hx, hreadTest⟩ := match_test htest hs
  obtain ⟨y, f, hrounds, hy, hreads⟩ := rounds_of_predicates h hx
  obtain ⟨u, hrounds, hu⟩ := hrounds.skip ranked
  have hstar := Grammar.matchExpr_star ranked rfl (Grammar.between_between ranked) hrounds
    (ht.congr (hu.trans hy))
  exact ⟨u, x, inner, f, Grammar.matchExpr_both hmatch hstar, hu.trans hy, fun axis _ =>
    hreadTest.both (fun test ps => Step.mk axis test ps) hreads⟩

theorem double_none {d : Char} (h : d ∉ s.head?) :
    grammar.matchExpr (.text [d, d]) .spaced (d :: s) = none := by
  refine Grammar.matchExpr_text_none fun u hu => h ?_
  obtain ⟨-, rfl⟩ := List.cons.inj hu
  rfl

/-- The words of a step are matched, and read. -/
theorem match_writtenStep {v : Option Step} {explicit : Bool} (h : Step.Written ws v explicit)
    (hs : Lexes s (tokensOf ws) t) (ht : Stops .predicate t) (hcolons : NoColons t) :
    ∃ u inner, grammar.matchExpr (.rule .step) .spaced (grammar.between .spaced s) =
        some (u, .cons .step (grammar.between .spaced s) u inner .nil) ∧
      grammar.between .spaced u = grammar.between .spaced t ∧
      Reads s t ws (v.map (·, explicit)) (readStep · inner) := by
  cases h with
  | parent =>
      obtain ⟨x, hdots, hsign, -, -, hx⟩ := hs.sign_cons
      have hmatch : grammar.matchExpr (.rule .parentStep) .spaced ("..".toList ++ x) = _ :=
        matchExpr_rule rfl (Grammar.matchExpr_text "..".toList x)
      rw [hdots]
      exact ⟨x, _, matchExpr_rule rfl (Grammar.matchExpr_left hmatch), hx.between_eq,
        (Reads.fixed hsign (Step.plain .parent .any, true)).trailing hx⟩
  | self =>
      obtain ⟨x, hdot, hsign, -, hnext, hx⟩ := hs.sign_cons
      have hparent : grammar.matchExpr (.rule .parentStep) .spaced ('.' :: x) = none :=
        matchExpr_rule_none rfl (double_none (hnext rfl))
      have hmatch : grammar.matchExpr (.rule .selfStep) .spaced ('.' :: x) = _ :=
        matchExpr_rule rfl (Grammar.matchExpr_text ".".toList x)
      have hbody : grammar.matchExpr Rule.step.body .spaced ('.' :: x) = _ :=
        (Grammar.matchExpr_right hparent).trans (Grammar.matchExpr_left hmatch)
      rw [hdot]
      exact ⟨x, _, matchExpr_rule rfl hbody, hx.between_eq,
        (Reads.fixed hsign (Step.plain .self .any, true)).trailing hx⟩
  | along axis htest hps =>
      obtain ⟨x, hname, haxis, -, hstops, hx⟩ := hs.name_cons
      obtain ⟨y, hsign, hcolons, -, -, hy⟩ := hx.sign_cons
      obtain ⟨u, z, inner, f, hfound, hu, hreads⟩ := match_found htest hps hy ht
      have hmatchColons : grammar.matchExpr (.text "::".toList) .spaced
          (grammar.between .spaced x) = some (y, .nil) := by
        rw [hsign]
        exact Grammar.matchExpr_text _ y
      have hmatchAxis := Grammar.matchExpr_both (match_axis axis hstops) hmatchColons
      have hmatch : grammar.matchExpr (.rule .axisStep) .spaced (axis.name.toList ++ x) = _ :=
        matchExpr_rule rfl (Grammar.matchExpr_both (Grammar.matchExpr_opt hmatchAxis) hfound)
      have hdots : grammar.matchExpr (.rule .parentStep) .spaced (axis.name.toList ++ x) = none ∧
          grammar.matchExpr (.rule .selfStep) .spaced (axis.name.toList ++ x) = none := by
        cases axis <;> exact ⟨matchExpr_rule_none rfl rfl, matchExpr_rule_none rfl rfl⟩
      have hbody := (Grammar.matchExpr_right hdots.1).trans
        ((Grammar.matchExpr_right hdots.2).trans hmatch)
      have hword : Axis.ofName? (wordOf (axis.name.toList ++ x) x) = some axis := by
        rw [wordOf_append, String.ofList_toList]
        exact axis_ofName?_iff.2 rfl
      have hstep := (((hreads axis (grammar.between .spaced y)).map (·, true)).fixed_cons
        hcolons).fixed_cons haxis
      rw [hname]
      refine ⟨u, _, matchExpr_rule rfl hbody, hu, hstep.congr fun total => ?_⟩
      simp only [Forest.cons_append, Forest.nil_append, readStep, hword]
  | child htest hps =>
      obtain ⟨hparent, hself⟩ := test_noDots htest hs
      obtain ⟨u, z, inner, f, hfound, hu, hreads⟩ := match_found htest hps hs ht
      have hnone := Grammar.matchExpr_opt_none (axis_none hps hs hcolons)
      rw [← Grammar.between_between ranked] at hfound
      have hmatch : grammar.matchExpr (.rule .axisStep) .spaced (grammar.between .spaced s) = _ :=
        matchExpr_rule rfl (Grammar.matchExpr_both hnone hfound)
      have hbody := (Grammar.matchExpr_right hparent).trans
        ((Grammar.matchExpr_right hself).trans hmatch)
      exact ⟨u, _, matchExpr_rule rfl hbody, hu, (hreads .child _).map (·, false)⟩

/-! ## Paths -/

theorem match_separatorToken {deep : Bool} (h : Lexes s (separatorToken deep :: ts) t) :
    ∃ u f, grammar.matchExpr Rule.separator .spaced (grammar.between .spaced s) = some (u, f) ∧
      Lexes s [separatorToken deep] u ∧ Lexes u ts t ∧ ∀ rest, anchorOf (f ++ rest) = .root ∧
        ∀ total last, readSteps total last (f ++ rest) = readSteps total deep rest := by
  obtain ⟨u, hs, hsign, hslash, -, hu⟩ := h.sign_cons
  rw [hs]
  cases deep with
  | true =>
      have hmatch : grammar.matchExpr (.rule .descendantSep) .spaced ("//".toList ++ u) = _ :=
        matchExpr_rule rfl (Grammar.matchExpr_text "//".toList u)
      exact ⟨u, _, Grammar.matchExpr_left hmatch, hsign, hu, fun _ => ⟨rfl, fun _ _ => rfl⟩⟩
  | false =>
      have hdeep : grammar.matchExpr (.rule .descendantSep) .spaced ('/' :: u) = none :=
        matchExpr_rule_none rfl (double_none (hslash rfl))
      have hmatch : grammar.matchExpr (.rule .childSep) .spaced ('/' :: u) = _ :=
        matchExpr_rule rfl (Grammar.matchExpr_text "/".toList u)
      exact ⟨u, _, (Grammar.matchExpr_right hdeep).trans hmatch, hsign, hu,
        fun _ => ⟨rfl, fun _ _ => rfl⟩⟩

theorem separator_none (h : ∀ d ∈ s.head?, d ≠ '/') :
    grammar.matchExpr Rule.separator .spaced s = none := by
  cases s with
  | nil => rfl
  | cons d s =>
      have hd := h d rfl
      have hdeep := matchExpr_rule_none (r := .descendantSep) rfl
        (Grammar.matchExpr_text_ne hd ['/'] s)
      have hchild := matchExpr_rule_none (r := .childSep) rfl (Grammar.matchExpr_text_ne hd [] s)
      exact (Grammar.matchExpr_right hdeep).trans hchild

/-- A step does not begin with a separator. -/
theorem step_head {v : Option Step} {explicit : Bool} (h : Step.Written ws v explicit)
    (hs : Lexes s (tokensOf ws ++ ts) t) : ∀ d ∈ (grammar.between .spaced s).head?, d ≠ '/' := by
  cases h with
  | parent | self =>
      obtain ⟨u, hu, -⟩ := hs.sign_cons
      rw [hu]
      rintro d hd rfl
      cases hd
  | along axis =>
      obtain ⟨u, hu, -⟩ := hs.name_cons
      rw [hu]
      rintro d hd rfl
      cases axis <;> cases hd
  | child htest =>
      obtain ⟨c, u, hu, hc⟩ := test_head htest hs
      rw [hu]
      rintro d hd rfl
      cases hd
      obtain hc | hc := hc <;> cases hc

theorem stops_predicate (h : ∀ d ∈ (grammar.between .spaced t).head?, d ≠ '[') :
    Stops .predicate t := by
  rw [Stops]
  cases ht : grammar.between .spaced t with
  | nil => exact matchExpr_rule_none rfl rfl
  | cons d u =>
      have hd := h d (by rw [ht]; rfl)
      exact matchExpr_rule_none rfl (Grammar.matchExpr_both_none (Grammar.matchExpr_text_ne hd _ u))

/-- A separator is neither a bracket nor two colons. -/
theorem separator_head {deep : Bool} (h : Lexes s (separatorToken deep :: ts) t) :
    Stops .predicate s ∧ NoColons s := by
  obtain ⟨u, hu, -⟩ := h.sign_cons
  have hslash : ∃ u, grammar.between .spaced s = '/' :: u := by
    rw [hu]
    cases deep <;> exact ⟨_, rfl⟩
  obtain ⟨u, hu⟩ := hslash
  refine ⟨stops_predicate fun d hd => ?_, ?_⟩
  · rw [hu] at hd
    cases hd
    decide
  · rw [NoColons, hu]
    exact Grammar.matchExpr_text_ne (by decide) [':'] u

/-- The words of a path are matched as a step and rounds of further ones, and read. -/
theorem rounds_of_path {deep : Bool} {vs : Option (List Step)} (h : WrittenPath deep ws vs)
    (hs : Lexes s (tokensOf ws) []) :
    (∀ d ∈ (grammar.between .spaced s).head?, d ≠ '/') ∧ ∃ x u inner f,
      grammar.matchExpr (.rule .step) .spaced (grammar.between .spaced s) =
          some (x, .cons .step (grammar.between .spaced s) x inner .nil) ∧
        grammar.Rounds stepRound .spaced x u f ∧ grammar.between .spaced u = [] ∧
        ∀ before rest, (∀ total, readSteps total false rest = .ok []) →
          Reads s [] ws vs (readSteps · deep (.cons .step before x inner (f ++ rest))) := by
  induction h generalizing s with
  | @last deep ws v explicit h =>
      obtain ⟨x, inner, hmatch, hx, hreads⟩ := match_writtenStep h hs
        (stops_predicate fun d hd => by cases hd) rfl
      have hsteps := hreads.map fun step => expandStep deep step.1 step.2
      rw [Option.map_map] at hsteps
      rw [← List.append_nil (tokensOf ws)] at hs
      refine ⟨step_head h hs, x, x, inner, .nil, hmatch, .none x, hx, fun before rest hrest => ?_⟩
      refine hsteps.congr fun total => ?_
      rw [Forest.nil_append, readSteps, hrest]
      cases readStep total inner with
      | error _ => rfl
      | ok step => exact congrArg Except.ok (List.append_nil _)
  | @more deep deep' ws us v explicit vs h _ ih =>
      rw [tokensOf_append, tokensOf_cons] at hs
      obtain ⟨t, ht, hus⟩ := hs.split
      obtain ⟨w, g, hseparator, hsign, hus', hreadSeparator⟩ := match_separatorToken hus
      obtain ⟨-, y, u, inner', f, hmatch', hrounds, hu, hrest⟩ := ih hus'
      obtain ⟨hbracket, hcolons⟩ := separator_head hus
      obtain ⟨x, inner, hmatch, hx, hreads⟩ := match_writtenStep h ht hbracket hcolons
      rw [← hx] at hseparator
      have hround := Grammar.matchExpr_both hseparator hmatch'
      refine ⟨step_head h hs, x, u, inner, _, hmatch, .more hround hrounds, hu,
        fun before rest hend => ?_⟩
      have hboth := hreads.both (fun step steps => expandStep deep step.1 step.2 ++ steps)
        ((hrest (grammar.between .spaced w) rest hend).fixed_cons hsign)
      rw [Option.bind_map] at hboth
      refine hboth.congr fun total => ?_
      rw [readSteps, Forest.append_assoc, Forest.append_assoc, (hreadSeparator _).2]
      rfl

theorem match_writtenPath {deep : Bool} {vs : Option (List Step)} (h : WrittenPath deep ws vs)
    (hs : Lexes s (tokensOf ws) []) :
    ∃ x inner f, grammar.matchExpr
        (.both (.rule .step) (.both (.star stepRound) (.rule .endOfExpression))) .spaced
        (grammar.between .spaced s) =
          some ([], .cons .step (grammar.between .spaced s) x inner f) ∧
      ∀ before, Reads s [] ws vs (readSteps · deep (.cons .step before x inner f)) := by
  obtain ⟨-, x, u, inner, f, hmatch, hrounds, hu, hreads⟩ := rounds_of_path h hs
  obtain ⟨u', hrounds, hu'⟩ := hrounds.skip ranked
  rw [hu] at hu'
  have hend : grammar.matchExpr (.rule .endOfExpression) .spaced (grammar.between .spaced u') =
      some ([], .cons .endOfExpression [] [] .nil .nil) := by
    rw [hu']
    exact matchExpr_rule rfl rfl
  have hstop : grammar.matchExpr stepRound .spaced (grammar.between .spaced u') = none := by
    rw [hu']
    exact Grammar.matchExpr_both_none rfl
  have hstar := Grammar.matchExpr_star ranked rfl (Grammar.between_between ranked) hrounds hstop
  exact ⟨x, inner, _, Grammar.matchExpr_both hmatch (Grammar.matchExpr_both hstar hend),
    fun before => hreads before _ fun _ => rfl⟩

/-- An expression is matched if its words are written as the grammar says, and read as what
they stand for or rejected at the first of them that has a fault. -/
theorem parse_of_written {plan : Option Plan} (h : Plan.Written ws plan)
    (hs : Lexes s (tokensOf ws) []) :
    ∃ f, grammar.parse .expression s = some ([], f) ∧ Reads s [] ws plan (readPlan · f) := by
  have hstart : grammar.matchExpr Expr.start .spaced s = some (s, .nil) := rfl
  cases h with
  | context hpath =>
      obtain ⟨x, inner, f, hmatch, hreads⟩ := match_writtenPath hpath hs
      have hnone := Grammar.matchExpr_opt_none (separator_none (rounds_of_path hpath hs).1)
      rw [← Grammar.between_between ranked] at hmatch
      have hbody := Grammar.matchExpr_both hstart (Grammar.matchExpr_both hnone hmatch)
      exact ⟨_, matchExpr_rule rfl hbody, (hreads _).map (Plan.mk .context)⟩
  | root hpath =>
      obtain ⟨w, g, hseparator, hsign, hs', hreadSeparator⟩ := match_separatorToken hs
      obtain ⟨x, inner, f, hmatch, hreads⟩ := match_writtenPath hpath hs'
      have hbody := Grammar.matchExpr_both hstart
        (Grammar.matchExpr_both (Grammar.matchExpr_opt hseparator) hmatch)
      have hplan := ((hreads (grammar.between .spaced w)).map (Plan.mk .root)).fixed_cons hsign
      refine ⟨_, matchExpr_rule rfl hbody, hplan.congr fun total => ?_⟩
      rw [Forest.nil_append, readPlan, (hreadSeparator _).1, (hreadSeparator _).2]

/-- Expressions whose tokens derive a plan are read as that plan. -/
theorem read_of_derives {plan : Plan} (h : plan.Derives ts) (hs : Lexes s ts []) :
    read s = .ok plan := by
  obtain ⟨ws, rfl, hws⟩ := Plan.derives_iff_written.1 h
  obtain ⟨f, hparse, hreads⟩ := parse_of_written hws hs
  rw [read, hparse]
  exact hreads.eq_ok _

/-- The expressions that are accepted are those whose tokens derive a plan, and they stand
for that plan. -/
theorem Plan.ofString_eq_ok_iff (expression : String) (plan : Plan) :
    Plan.ofString expression = .ok plan ↔
      ∃ ts, Lexes expression.toList ts [] ∧ plan.Derives ts := by
  rw [Plan.ofString]
  constructor
  · intro h
    split at h
    · next hread =>
        cases h
        exact derives_of_read hread
    · cases h
  · rintro ⟨ts, hlexes, hderives⟩
    rw [read_of_derives hderives hlexes]

end FeatureTree.Traversal
