import FeatureTree.Proofs.Traversal.Atoms

/-!
# Predicates of canonical texts

`and` and `or` are matched as an operand and then rounds of a word and another
operand, and read by joining each operand to those on its left. A predicate
whose operands are grouped to the left is taken apart the same way: `AndMatches`
and `OrMatches` say how far a match has come behind the last operand, so that one
more operand can be put behind it.

A match may or may not take the blank behind an operand, which is why the places
between two rounds are compared only up to blanks.
-/

namespace FeatureTree.Traversal

variable {p left right : Predicate} {t : List Char}

/-- A further operand of `and`. -/
def andRound : Expr Rule := .both (.rule .kwAnd) (.rule .atom)

/-- A further operand of `or`. -/
def orRound : Expr Rule := .both (.rule .kwOr) (.rule .andExpr)

/-- The operands of `and` are matched one after the other, and read back. -/
def AndMatches (p : Predicate) : Prop :=
  ∀ t, AfterAtom t → ∃ s u f h,
    grammar.matchExpr (.rule .atom) .spaced (p.operand ++ t) = some (s, f) ∧
      grammar.Rounds andRound .spaced (grammar.between .spaced s) u h ∧
      grammar.between .spaced u = grammar.between .spaced t ∧
      ∀ total rest, readAnd total none (f ++ (h ++ rest)) = readAnd total (some p) rest

/-- The operands of `or` are matched one after the other, and read back. -/
def OrMatches (p : Predicate) : Prop :=
  ∀ t, AfterAnds t → ∃ s u f h,
    grammar.matchExpr (.rule .andExpr) .spaced (p.text ++ t) = some (s, f) ∧
      grammar.Rounds orRound .spaced (grammar.between .spaced s) u h ∧
      grammar.between .spaced u = grammar.between .spaced t ∧
      ∀ total rest, readOr total none (f ++ (h ++ rest)) = readOr total (some p) rest

theorem AtomMatches.andMatches (h : AtomMatches p) : AndMatches p := by
  intro t ht
  obtain ⟨inner, hmatch, hread⟩ := h t ht
  refine ⟨t, _, _, _, hmatch, .none _, Grammar.between_between ranked, fun total rest => ?_⟩
  rw [Forest.nil_append, Forest.cons_append, Forest.nil_append, readAnd, hread]
  rfl

/-! ## Operands of `and` -/

theorem match_kwAnd (u : List Char) :
    grammar.matchExpr (.rule .kwAnd) .spaced ('a' :: 'n' :: 'd' :: ' ' :: u) =
      some (' ' :: u, .cons .kwAnd ('a' :: 'n' :: 'd' :: ' ' :: u) (' ' :: u) .nil .nil) :=
  matchExpr_token rfl (by simp) rfl

theorem between_space_operand (p : Predicate) (t : List Char) :
    grammar.between .spaced (' ' :: (p.operand ++ t)) = p.operand ++ t :=
  (skip_space _).trans (p.between_operand t)

theorem AndMatches.and (hl : AndMatches left) (hr : AtomMatches right) :
    AndMatches (.and left right) := by
  intro t ht
  have hand : AfterAtom (' ' :: 'a' :: 'n' :: 'd' :: ' ' :: (right.operand ++ t)) :=
    .inr ⟨_, rfl⟩
  obtain ⟨s, u, f, h, hmatch, hrounds, hu, hread⟩ := hl _ hand
  obtain ⟨inner, hatom, hreadAtom⟩ := hr t ht
  have hbetween : grammar.between .spaced u =
      'a' :: 'n' :: 'd' :: ' ' :: (right.operand ++ t) :=
    hu.trans (between_space_ink rfl _)
  rw [← between_space_operand] at hatom
  have hround := Grammar.matchExpr_both (match_kwAnd _) hatom
  rw [← hbetween] at hround
  refine ⟨s, t, f, _, ?_, hrounds.snoc hround, rfl, fun total rest => ?_⟩
  · rw [Predicate.operand_of_not_or rfl, Predicate.text_and, List.append_assoc]
    exact hmatch
  · rw [Forest.append_assoc, hread]
    simp only [Forest.cons_append, Forest.nil_append, readAnd, hreadAtom]
    rfl

/-- No further operand of `and` comes behind the last. -/
theorem AfterAnds.no_andRound (ht : AfterAnds t) :
    grammar.matchExpr andRound .spaced (grammar.between .spaced t) = none := by
  refine Grammar.matchExpr_both_none ?_
  show grammar.matchExpr _ _ (trivia.skip t) = none
  obtain ⟨u, rfl | rfl⟩ | ⟨u, rfl⟩ := ht
  · rw [skip_ink rfl]
    exact matchExpr_token_none rfl rfl
  · rw [skip_ink rfl]
    exact matchExpr_token_none rfl rfl
  · rw [skip_space_ink rfl]
    exact matchExpr_token_none rfl rfl

theorem AndMatches.andExpr (h : AndMatches p) (ht : AfterAnds t) :
    ∃ u inner, grammar.matchExpr (.rule .andExpr) .spaced (p.operand ++ t) =
        some (u, .cons .andExpr (p.operand ++ t) u inner .nil) ∧
      grammar.between .spaced u = grammar.between .spaced t ∧
      ∀ total, readAnd total none inner = .ok p := by
  obtain ⟨s, u, f, fs, hmatch, hrounds, hu, hread⟩ := h t (.inl ht)
  have hstop : grammar.matchExpr andRound .spaced (grammar.between .spaced u) = none :=
    hu ▸ ht.no_andRound
  have hstar := Grammar.matchExpr_star ranked rfl (Grammar.between_between ranked) hrounds hstop
  refine ⟨u, f ++ fs, matchExpr_rule rfl (Grammar.matchExpr_both hmatch hstar), hu, ?_⟩
  intro total
  rw [← Forest.append_nil fs, hread]
  rfl

/-! ## Operands of `or` -/

theorem AndMatches.orMatches (h : AndMatches p) (hp : p.isOr = false) : OrMatches p := by
  intro t ht
  obtain ⟨u, inner, hmatch, hu, hread⟩ := h.andExpr ht
  rw [Predicate.operand_of_not_or hp] at hmatch
  refine ⟨u, _, _, _, hmatch, .none _, (Grammar.between_between ranked).trans hu,
    fun total rest => ?_⟩
  rw [Forest.nil_append, Forest.cons_append, Forest.nil_append, readOr, hread]
  rfl

theorem match_kwOr (u : List Char) :
    grammar.matchExpr (.rule .kwOr) .spaced ('o' :: 'r' :: ' ' :: u) =
      some (' ' :: u, .cons .kwOr ('o' :: 'r' :: ' ' :: u) (' ' :: u) .nil .nil) :=
  matchExpr_token rfl (by simp) rfl

theorem OrMatches.or (hl : OrMatches left) (hr : AndMatches right) (hright : right.isOr = false) :
    OrMatches (.or left right) := by
  intro t ht
  have hor : AfterAnds (' ' :: 'o' :: 'r' :: ' ' :: (right.operand ++ t)) := .inr ⟨_, rfl⟩
  obtain ⟨s, u, f, h, hmatch, hrounds, hu, hread⟩ := hl _ hor
  obtain ⟨v, inner, handExpr, hv, hreadAnd⟩ := hr.andExpr ht
  have hbetween : grammar.between .spaced u = 'o' :: 'r' :: ' ' :: (right.operand ++ t) :=
    hu.trans (between_space_ink rfl _)
  rw [← between_space_operand] at handExpr
  have hround := Grammar.matchExpr_both (match_kwOr _) handExpr
  rw [← hbetween] at hround
  refine ⟨s, v, f, _, ?_, hrounds.snoc hround, hv, fun total rest => ?_⟩
  · rw [Predicate.text_or, List.append_assoc, ← Predicate.operand_of_not_or hright]
    exact hmatch
  · rw [Forest.append_assoc, hread]
    simp only [Forest.cons_append, Forest.nil_append, readOr, hreadAnd]
    rfl

theorem OrMatches.orExpr (h : OrMatches p) (ht : Closes t) :
    ∃ u inner, grammar.matchExpr (.rule .orExpr) .spaced (p.text ++ t) =
        some (u, .cons .orExpr (p.text ++ t) u inner .nil) ∧
      grammar.between .spaced u = t ∧ ∀ total, readOr total none inner = .ok p := by
  obtain ⟨s, u, f, fs, hmatch, hrounds, hu, hread⟩ := h t (.inl ht)
  have hskip : grammar.between .spaced t = t := ht.skip
  rw [hskip] at hu
  have hstop : grammar.matchExpr orRound .spaced (grammar.between .spaced u) = none := by
    rw [hu]
    obtain ⟨v, rfl | rfl⟩ := ht <;>
      exact Grammar.matchExpr_both_none (matchExpr_token_none rfl rfl)
  have hstar := Grammar.matchExpr_star ranked rfl (Grammar.between_between ranked) hrounds hstop
  refine ⟨u, f ++ fs, matchExpr_rule rfl (Grammar.matchExpr_both hmatch hstar), hu, ?_⟩
  intro total
  rw [← Forest.append_nil fs, hread]
  rfl

/-- An `or` in parentheses is one operand. -/
theorem OrMatches.atomMatches (h : OrMatches p) (hp : p.isOr = true) : AtomMatches p := by
  intro t _
  obtain ⟨u, inner, hmatch, hu, hread⟩ := h.orExpr (t := ')' :: t) ⟨t, .inr rfl⟩
  have htext : p.operand ++ t = '(' :: (p.text ++ ')' :: t) := by
    rw [Predicate.operand_of_or hp, List.cons_append, List.append_assoc]
    rfl
  have hclose : grammar.matchExpr (.text [')']) .spaced (grammar.between .spaced u) =
      some (t, .nil) := by
    rw [hu]
    exact matchExpr_sign ')' t
  rw [← p.between_text] at hmatch
  have hparens := Grammar.matchExpr_both (matchExpr_sign '(' _)
    (Grammar.matchExpr_both hmatch hclose)
  have hcomparison : grammar.matchExpr (.rule .comparison) .spaced ('(' :: (p.text ++ ')' :: t)) =
      none := matchExpr_rule_none rfl (Grammar.matchExpr_both_none rfl)
  have htest : grammar.matchExpr (.rule .attributeTest) .spaced ('(' :: (p.text ++ ')' :: t)) =
      none := matchExpr_rule_none rfl (Grammar.matchExpr_both_none rfl)
  have hbody := (Grammar.matchExpr_right (matchExpr_position_none rfl _)).trans
    ((Grammar.matchExpr_right hcomparison).trans ((Grammar.matchExpr_right htest).trans hparens))
  rw [htext]
  exact ⟨_, matchExpr_rule rfl hbody, fun total _ => hread total⟩

/-! ## All predicates -/

/-- A predicate that can be read and is grouped to the left is matched and read
back, as operands of `and` and of `or` and, if it is no `and`, as one operand. -/
theorem matches_predicate (hreadable : p.Readable) (hgrouped : p.Grouped) :
    AndMatches p ∧ OrMatches p ∧ (p.isAnd = false → AtomMatches p) := by
  have hatom : ∀ {q : Predicate}, q.isOr = false → AtomMatches q →
      AndMatches q ∧ OrMatches q ∧ (q.isAnd = false → AtomMatches q) :=
    fun hq h => ⟨h.andMatches, h.andMatches.orMatches hq, fun _ => h⟩
  induction p with
  | position n => exact hatom rfl (atomMatches_position (hreadable _ List.mem_cons_self))
  | has asked => exact hatom rfl (atomMatches_has asked)
  | compare asked comparison value =>
      exact hatom rfl (atomMatches_compare (hreadable _ List.mem_cons_self))
  | and left right ihl ihr =>
      obtain ⟨-, hreadl, hreadr⟩ := Predicate.forall_parts_and.1 hreadable
      obtain ⟨hright, hgroupl, hgroupr⟩ := Predicate.forall_parts_and.1 hgrouped
      have hand := (ihl hreadl hgroupl).1.and ((ihr hreadr hgroupr).2.2 hright)
      exact ⟨hand, hand.orMatches rfl, fun h => nomatch h⟩
  | or left right ihl ihr =>
      obtain ⟨-, hreadl, hreadr⟩ := Predicate.forall_parts_or.1 hreadable
      obtain ⟨hright, hgroupl, hgroupr⟩ := Predicate.forall_parts_or.1 hgrouped
      have hor := (ihl hreadl hgroupl).2.1.or (ihr hreadr hgroupr).1 hright
      exact ⟨(hor.atomMatches rfl).andMatches, hor, fun _ => hor.atomMatches rfl⟩

end FeatureTree.Traversal
