import FeatureTree.Proofs.Traversal.Predicates

/-!
# Canonical texts are read back

The text of a plan whose predicates can be read and are grouped to the left, is
matched step by step and read as the plan itself (`ofString_toString`).
-/

namespace FeatureTree.Traversal

variable {t : List Char}

/-- What follows a step: the next one, or nothing. -/
def AfterStep (t : List Char) : Prop := t = [] ∨ ∃ u, t = '/' :: u

theorem AfterStep.between (ht : AfterStep t) : grammar.between .spaced t = t := by
  obtain rfl | ⟨u, rfl⟩ := ht
  · rfl
  · exact between_ink rfl u

theorem AfterStep.no_predicate (ht : AfterStep t) :
    grammar.matchExpr (.rule .predicate) .spaced t = none := by
  obtain rfl | ⟨u, rfl⟩ := ht <;> exact matchExpr_rule_none rfl (Grammar.matchExpr_both_none rfl)

/-! ## Predicates -/

/-- The predicates of a step, each in its brackets. -/
def predicatesText (ps : List Predicate) : List Char := ps.flatMap fun p => '[' :: (p.text ++ [']'])

theorem predicatesText_cons (p : Predicate) (ps : List Predicate) (t : List Char) :
    predicatesText (p :: ps) ++ t = '[' :: (p.text ++ ']' :: (predicatesText ps ++ t)) := by
  rw [predicatesText, List.flatMap_cons, ← predicatesText, List.append_assoc, List.cons_append,
    List.append_assoc]
  rfl

theorem between_predicatesText (ps : List Predicate) (ht : AfterStep t) :
    grammar.between .spaced (predicatesText ps ++ t) = predicatesText ps ++ t := by
  cases ps with
  | nil => exact ht.between
  | cons p ps =>
      rw [predicatesText_cons]
      exact between_ink rfl _

theorem match_predicate {p : Predicate} (h : OrMatches p) (t : List Char) :
    ∃ u inner, grammar.matchExpr (.rule .predicate) .spaced ('[' :: (p.text ++ ']' :: t)) =
        some (t, .cons .predicate ('[' :: (p.text ++ ']' :: t)) t
          (.cons .orExpr (p.text ++ ']' :: t) u inner .nil) .nil) ∧
      ∀ total, readOr total none inner = .ok p := by
  obtain ⟨u, inner, hmatch, hu, hread⟩ := h.orExpr (t := ']' :: t) ⟨t, .inl rfl⟩
  have hclose : grammar.matchExpr (.text [']']) .spaced (grammar.between .spaced u) =
      some (t, .nil) := by
    rw [hu]
    exact matchExpr_sign ']' t
  have hbody : grammar.matchExpr (.both (.rule .orExpr) (.text [']'])) .spaced
      (grammar.between .spaced (p.text ++ ']' :: t)) =
        some (t, .cons .orExpr (p.text ++ ']' :: t) u inner .nil) := by
    rw [p.between_text]
    exact Grammar.matchExpr_both hmatch hclose
  exact ⟨u, inner, matchExpr_rule rfl (Grammar.matchExpr_both (matchExpr_sign '[' _) hbody), hread⟩

theorem rounds_predicates {ps : List Predicate} (h : ∀ p ∈ ps, OrMatches p) (t : List Char) :
    ∃ f, grammar.Rounds (.rule .predicate) .spaced (predicatesText ps ++ t) t f ∧
      ∀ total, readPredicates total f = .ok ps := by
  induction ps with
  | nil => exact ⟨.nil, .none t, fun _ => rfl⟩
  | cons p ps ih =>
      obtain ⟨f, hrounds, hread⟩ := ih fun q hq => h q (List.mem_cons_of_mem p hq)
      obtain ⟨u, inner, hmatch, hreadOr⟩ :=
        match_predicate (h p List.mem_cons_self) (predicatesText ps ++ t)
      have hink := between_ink (l := .spaced) (c := '[') rfl
        (p.text ++ ']' :: (predicatesText ps ++ t))
      have hround := (congrArg (grammar.matchExpr (.rule .predicate) .spaced) hink).trans hmatch
      rw [predicatesText_cons]
      refine ⟨_, .more hround hrounds, fun total => ?_⟩
      rw [Forest.cons_append, Forest.nil_append, readPredicates, hreadOr, hread]
      rfl

theorem match_predicates {ps : List Predicate} (h : ∀ p ∈ ps, OrMatches p) (ht : AfterStep t) :
    ∃ f, grammar.matchExpr (.star (.rule .predicate)) .spaced (predicatesText ps ++ t) =
        some (t, f) ∧ ∀ total, readPredicates total f = .ok ps := by
  obtain ⟨f, hrounds, hread⟩ := rounds_predicates h t
  refine ⟨f, Grammar.matchExpr_star ranked rfl (between_predicatesText ps ht) hrounds ?_, hread⟩
  rw [ht.between]
  exact ht.no_predicate

theorem stopsName_predicatesText (ps : List Predicate) (ht : AfterStep t) :
    StopsName (predicatesText ps ++ t) := by
  cases ps with
  | nil =>
      intro c hc
      obtain rfl | ⟨u, rfl⟩ := ht
      · cases hc
      · cases hc
        rfl
  | cons p ps =>
      rw [predicatesText_cons]
      intro c hc
      cases hc
      rfl

/-! ## Steps -/

theorem match_anyTest (t : List Char) :
    ∃ inner, grammar.matchExpr (.rule .nodeTest) .spaced ('*' :: t) =
        some (t, .cons .nodeTest ('*' :: t) t inner .nil) ∧
      ∀ total, readTest total inner = .ok .any := by
  have hwildcard : grammar.matchExpr (.rule .wildcard) .spaced ('*' :: t) =
      some (t, .cons .wildcard ('*' :: t) t .nil .nil) :=
    matchExpr_rule rfl (matchExpr_sign '*' t)
  exact ⟨_, matchExpr_rule rfl (Grammar.matchExpr_left hwildcard), fun _ => rfl⟩

theorem match_nameTest {w : List Char} (hw : IsName w) (ht : StopsName t) :
    grammar.matchExpr (.rule .nodeTest) .spaced (w ++ t) =
      some (t, .cons .nodeTest (w ++ t) t (.cons .kindName (w ++ t) t .nil .nil) .nil) := by
  have hnot : grammar.matchExpr (.rule .wildcard) .spaced (w ++ t) = none := by
    obtain ⟨c, cs, rfl, hc, -⟩ := hw
    have hstar : c ≠ '*' := by
      rintro rfl
      cases hc
    exact matchExpr_rule_none rfl (Grammar.matchExpr_text_ne hstar [] _)
  exact matchExpr_rule rfl
    ((Grammar.matchExpr_right hnot).trans (match_named ⟨rfl, rfl⟩ hw ht))

theorem match_kindTest (k : Kind) (ht : StopsName t) :
    ∃ inner, grammar.matchExpr (.rule .nodeTest) .spaced (k.name.toList ++ t) =
        some (t, .cons .nodeTest (k.name.toList ++ t) t inner .nil) ∧
      ∀ total, readTest total inner = .ok (.kind k) := by
  refine ⟨_, match_nameTest (isName_kind k) ht, fun total => ?_⟩
  have hword : wordOf (k.name.toList ++ t) t = k.name := by
    rw [wordOf, Forest.taken_append, String.ofList_toList]
  rw [readTest, readKind, hword, show Kind.ofName? k.name = some k by cases k <;> rfl]
  rfl

theorem match_nodeTest (test : NodeTest) (ht : StopsName t) :
    ∃ inner, grammar.matchExpr (.rule .nodeTest) .spaced ((toString test).toList ++ t) =
        some (t, .cons .nodeTest ((toString test).toList ++ t) t inner .nil) ∧
      ∀ total, readTest total inner = .ok test := by
  cases test with
  | any => exact match_anyTest t
  | kind k => exact match_kindTest k ht

theorem between_test (test : NodeTest) (t : List Char) :
    grammar.between .spaced ((toString test).toList ++ t) = (toString test).toList ++ t := by
  cases test with
  | any => exact between_ink rfl _
  | kind k => cases k <;> exact between_ink rfl _

/-- The characters of a step's text. -/
def Step.text (s : Step) : List Char :=
  s.axis.name.toList ++ ':' :: ':' :: ((toString s.test).toList ++ predicatesText s.predicates)

theorem Step.text_eq (s : Step) : s.text = s.toString.toList := by
  have hbracket : ∀ p : Predicate,
      ("[" ++ p.toString ++ "]").toList = '[' :: (p.text ++ [']']) := by
    intro p
    rw [String.toList_append, String.toList_append]
    rfl
  rw [Step.toString]
  simp only [String.toList_append, String.toList_join, List.flatMap_map, hbracket,
    List.append_assoc]
  rfl

theorem match_axisStep {s : Step} (h : ∀ p ∈ s.predicates, OrMatches p) (ht : AfterStep t) :
    ∃ inner, grammar.matchExpr (.rule .axisStep) .spaced (s.text ++ t) =
        some (t, .cons .axisStep (s.text ++ t) t inner .nil) ∧
      ∀ total, readStep total (.cons .axisStep (s.text ++ t) t inner .nil) = .ok (s, true) := by
  obtain ⟨axis, test, ps⟩ := s
  obtain ⟨f, hpredicates, hreadPredicates⟩ := match_predicates h ht
  obtain ⟨inner, htest, hreadTest⟩ := match_nodeTest test (stopsName_predicatesText ps ht)
  rw [← between_predicatesText ps ht] at hpredicates
  have hfound := Grammar.matchExpr_both htest hpredicates
  rw [← between_test test] at hfound
  have hcolons : grammar.matchExpr (.text [':', ':']) .spaced
      (grammar.between .spaced
        (':' :: ':' :: ((toString test).toList ++ (predicatesText ps ++ t)))) =
        some ((toString test).toList ++ (predicatesText ps ++ t), .nil) := by
    rw [between_ink rfl]
    exact Grammar.matchExpr_text [':', ':'] _
  have hstops : StopsName
      (':' :: ':' :: ((toString test).toList ++ (predicatesText ps ++ t))) := by
    intro c hc
    cases hc
    rfl
  have haxis := Grammar.matchExpr_opt (Grammar.matchExpr_both (match_axis axis hstops) hcolons)
  have hbody := Grammar.matchExpr_both haxis hfound
  have htext : (⟨axis, test, ps⟩ : Step).text ++ t = axis.name.toList ++
      ':' :: ':' :: ((toString test).toList ++ (predicatesText ps ++ t)) := by
    simp only [Step.text, List.append_assoc, List.cons_append]
  rw [htext]
  refine ⟨_, matchExpr_rule rfl hbody, fun total => ?_⟩
  have hword : ∀ u, wordOf (axis.name.toList ++ u) u = axis.name := by
    intro u
    rw [wordOf, Forest.taken_append, String.ofList_toList]
  simp only [Forest.cons_append, Forest.nil_append, readStep, hword,
    show Axis.ofName? axis.name = some axis by cases axis <;> rfl, readFound, hreadTest,
    hreadPredicates]
  rfl

theorem match_step {s : Step} (h : ∀ p ∈ s.predicates, OrMatches p) (ht : AfterStep t) :
    ∃ inner, grammar.matchExpr (.rule .step) .spaced (s.text ++ t) =
        some (t, .cons .step (s.text ++ t) t inner .nil) ∧
      ∀ total, readStep total inner = .ok (s, true) := by
  obtain ⟨inner, hmatch, hread⟩ := match_axisStep h ht
  have hparent : grammar.matchExpr (.rule .parentStep) .spaced (s.text ++ t) = none := by
    rw [Step.text]
    cases s.axis <;> exact matchExpr_rule_none rfl rfl
  have hself : grammar.matchExpr (.rule .selfStep) .spaced (s.text ++ t) = none := by
    rw [Step.text]
    cases s.axis <;> exact matchExpr_rule_none rfl rfl
  have hbody := (Grammar.matchExpr_right hparent).trans
    ((Grammar.matchExpr_right hself).trans hmatch)
  exact ⟨_, matchExpr_rule rfl hbody, hread⟩

theorem between_step (s : Step) (t : List Char) :
    grammar.between .spaced (s.text ++ t) = s.text ++ t := by
  rw [Step.text]
  cases s.axis <;> exact between_ink rfl _

/-! ## Plans -/

/-- The steps behind the first, each with its separator. -/
def moreText (ss : List Step) : List Char := ss.flatMap fun s => '/' :: s.text

theorem afterStep_moreText (ss : List Step) : AfterStep (moreText ss) := by
  cases ss with
  | nil => exact .inl rfl
  | cons s ss => exact .inr ⟨_, rfl⟩

theorem intercalate_steps (s : Step) (ss : List Step) :
    ("/".intercalate ((s :: ss).map Step.toString)).toList = s.text ++ moreText ss := by
  rw [String.toList_intercalate]
  induction ss generalizing s with
  | nil =>
      rw [s.text_eq]
      show s.toString.toList ++ [] = s.toString.toList ++ []
      rfl
  | cons r ss ih =>
      have hr := ih r
      simp only [List.map_cons] at hr ⊢
      rw [List.intercalate_cons_cons, hr, ← s.text_eq, List.append_assoc]
      rfl

/-- A further step. -/
def stepRound : Expr Rule := .both Rule.separator (.rule .step)

theorem match_separator (s : Step) (t : List Char) :
    grammar.matchExpr Rule.separator .spaced ('/' :: (s.text ++ t)) =
      some (s.text ++ t, .cons .childSep ('/' :: (s.text ++ t)) (s.text ++ t) .nil .nil) := by
  have hdeep : grammar.matchExpr (.rule .descendantSep) .spaced ('/' :: (s.text ++ t)) = none := by
    rw [Step.text]
    cases s.axis <;> exact matchExpr_rule_none rfl rfl
  exact (Grammar.matchExpr_right hdeep).trans (matchExpr_rule rfl (matchExpr_sign '/' _))

theorem no_separator (s : Step) (t : List Char) :
    grammar.matchExpr Rule.separator .spaced (s.text ++ t) = none := by
  have hdeep : grammar.matchExpr (.rule .descendantSep) .spaced (s.text ++ t) = none := by
    rw [Step.text]
    cases s.axis <;> exact matchExpr_rule_none rfl rfl
  have hchild : grammar.matchExpr (.rule .childSep) .spaced (s.text ++ t) = none := by
    rw [Step.text]
    cases s.axis <;> exact matchExpr_rule_none rfl rfl
  exact (Grammar.matchExpr_right hdeep).trans hchild

theorem rounds_steps {ss : List Step} (h : ∀ s ∈ ss, ∀ p ∈ s.predicates, OrMatches p) :
    ∃ f, grammar.Rounds stepRound .spaced (moreText ss) [] f ∧
      ∀ total rest, readSteps total false rest = .ok [] →
        readSteps total false (f ++ rest) = .ok ss := by
  induction ss with
  | nil => exact ⟨.nil, .none [], fun _ _ hrest => hrest⟩
  | cons s ss ih =>
      obtain ⟨f, hrounds, hread⟩ := ih fun r hr => h r (List.mem_cons_of_mem s hr)
      obtain ⟨inner, hstep, hreadStep⟩ :=
        match_step (h s List.mem_cons_self) (afterStep_moreText ss)
      rw [← between_step] at hstep
      have hround := Grammar.matchExpr_both (match_separator s _) hstep
      have hink : grammar.between .spaced ('/' :: (s.text ++ moreText ss)) =
          '/' :: (s.text ++ moreText ss) := between_ink rfl _
      rw [← hink] at hround
      refine ⟨_, .more hround hrounds, fun total rest hrest => ?_⟩
      simp only [Forest.cons_append, Forest.nil_append, readSteps, hreadStep,
        hread total rest hrest]
      rfl

theorem match_path {s : Step} {ss : List Step}
    (h : ∀ r ∈ s :: ss, ∀ p ∈ r.predicates, OrMatches p) :
    ∃ before after inner f,
      grammar.matchExpr
          (.both (.rule .step) (.both (.star stepRound) (.rule .endOfExpression))) .spaced
          (s.text ++ moreText ss) = some ([], .cons .step before after inner f) ∧
        ∀ total, readSteps total false (.cons .step before after inner f) = .ok (s :: ss) := by
  obtain ⟨inner, hstep, hreadStep⟩ := match_step (h s List.mem_cons_self) (afterStep_moreText ss)
  obtain ⟨f, hrounds, hread⟩ := rounds_steps fun r hr => h r (List.mem_cons_of_mem s hr)
  have hmore := (afterStep_moreText ss).between
  have hend : grammar.matchExpr (.rule .endOfExpression) .spaced (grammar.between .spaced []) =
      some ([], .cons .endOfExpression [] [] .nil .nil) := matchExpr_rule rfl rfl
  have hstar := Grammar.matchExpr_star ranked rfl hmore hrounds
    (Grammar.matchExpr_both_none rfl)
  rw [← hmore] at hstar
  refine ⟨_, _, inner, f ++ .cons .endOfExpression [] [] .nil .nil,
    Grammar.matchExpr_both hstep (Grammar.matchExpr_both hstar hend), fun total => ?_⟩
  rw [readSteps, hreadStep, hread total _ rfl]
  rfl

theorem read_of_match {s : List Char} {f : Forest Rule} {plan : Plan}
    (h : grammar.matchExpr Rule.expression.body .spaced s = some ([], f))
    (hplan : ∀ total, readPlan total (.cons .expression s [] f .nil) = .ok plan) :
    read s = .ok plan := by
  have hparse : grammar.parse .expression s = some ([], .cons .expression s [] f .nil) :=
    matchExpr_rule rfl h
  rw [read, hparse]
  exact hplan _

/-- The text of a plan that can be read and is grouped to the left is read as
the plan. -/
theorem ofString_toString {p : Plan} (hreadable : p.Readable) (hgrouped : p.Grouped) :
    Plan.ofString p.toString = .ok p := by
  obtain ⟨anchor, steps⟩ := p
  obtain ⟨hsteps, hreadable⟩ := hreadable
  obtain ⟨s, ss, rfl⟩ := List.exists_cons_of_ne_nil hsteps
  have hmatches : ∀ r ∈ s :: ss, ∀ q ∈ r.predicates, OrMatches q := fun r hr q hq =>
    (matches_predicate (hreadable r hr q hq) (hgrouped r hr q hq)).2.1
  obtain ⟨before, after, inner, f, hpath, hread⟩ := match_path hmatches
  rw [← between_step] at hpath
  have hstart : ∀ u, grammar.matchExpr Expr.start .spaced u = some (u, .nil) := fun u => rfl
  suffices hplan : read (Plan.toString ⟨anchor, s :: ss⟩).toList = .ok ⟨anchor, s :: ss⟩ by
    rw [Plan.ofString, hplan]
  rw [Plan.toString, String.toList_append, intercalate_steps]
  cases anchor with
  | root =>
      have hopt := Grammar.matchExpr_opt (match_separator s (moreText ss))
      have hink : grammar.between .spaced ('/' :: (s.text ++ moreText ss)) =
          '/' :: (s.text ++ moreText ss) := between_ink rfl _
      rw [← hink] at hopt
      have hbody := Grammar.matchExpr_both (hstart _) (Grammar.matchExpr_both hopt hpath)
      have hslash : "/".toList ++ (s.text ++ moreText ss) = '/' :: (s.text ++ moreText ss) := rfl
      show read ("/".toList ++ (s.text ++ moreText ss)) = _
      rw [hslash]
      refine read_of_match hbody fun total => ?_
      simp only [Forest.nil_append, Forest.cons_append, readPlan]
      rw [readSteps, hread]
      rfl
  | context =>
      have hopt := Grammar.matchExpr_opt_none (no_separator s (moreText ss))
      have hrest := Grammar.matchExpr_both hopt hpath
      rw [← between_step] at hrest
      have hbody := Grammar.matchExpr_both (hstart _) hrest
      show read (s.text ++ moreText ss) = _
      refine read_of_match hbody fun total => ?_
      simp only [Forest.nil_append, readPlan, hread]
      rfl

end FeatureTree.Traversal
