import FeatureTree.Proofs.Grammar.Records
import FeatureTree.Proofs.Traversal.Canonical
import FeatureTree.Traversal.Reader

/-!
# What expressions can stand for

Not every plan can be read from an expression: whatever the expression, the plan
has a step, its positions are numbers of 64 bits from one on, texts do not hold
both quotes, and `@kind` is compared with kinds (`readable_of_read`).

Most of this is checked by the reader. That a text lacks the quote around it is
not: it follows from the records of the literals, of which the grammar makes sure
(`Recorded`).
-/

namespace FeatureTree

namespace Traversal

/-! ## The records of literals -/

section UpTo

variable {skip : List Char → List Char} {call : Rule → Layout → Grammar.Matcher Rule}
  {s t : List Char} {f : Forest Rule} {c : Char}

theorem eval_butNot
    (h : Grammar.eval skip call (Expr.butNot (.text [c])) .token s = some (t, f)) :
    ∃ d, s = d :: t ∧ d ≠ c := by
  obtain ⟨u, f₁, f₂, hahead, hany, -⟩ := Grammar.eval_both_eq_some.1 h
  obtain ⟨hnone, rfl, -⟩ := Grammar.eval_notAhead_eq_some.1 hahead
  obtain ⟨d, hu, -, -⟩ := Grammar.eval_char_eq_some.1 hany
  refine ⟨d, hu, ?_⟩
  rintro rfl
  have htext : Grammar.eval skip call (.text [d]) .token u = some (t, .nil) :=
    Grammar.eval_text_eq_some.2 ⟨hu, rfl⟩
  rw [hnone] at htext
  cases htext

theorem eval_upTo
    (h : Grammar.eval skip call (.star (Expr.butNot (.text [c]))) .token s = some (t, f)) :
    ∃ w, s = w ++ t ∧ c ∉ w := by
  have hmany : ∀ bound u, ∃ w,
      u = w ++ (Grammar.many (fun u => Grammar.eval skip call (Expr.butNot (.text [c])) .token
        (Grammar.gap skip .token u)) bound u).1 ∧ c ∉ w := by
    intro bound
    induction bound with
    | nil => exact fun u => ⟨[], rfl, by simp⟩
    | cons b bound ih =>
        intro u
        rw [Grammar.many]
        split
        · exact ⟨[], rfl, by simp⟩
        · next u' f' hround =>
            obtain ⟨d, rfl, hd⟩ := eval_butNot hround
            obtain ⟨w, hw, hc⟩ := ih u'
            exact ⟨d :: w, by rw [List.cons_append, ← hw], by simp [hc, Ne.symm hd]⟩
  obtain ⟨-, rfl, -⟩ | ⟨u, f₁, f₂, hround, hrounds, -⟩ := Grammar.eval_star_eq_some.1 h
  · exact ⟨[], rfl, by simp⟩
  · obtain ⟨d, rfl, hd⟩ := eval_butNot hround
    obtain ⟨w, hw, hc⟩ := hmany u u
    rw [hrounds] at hw
    exact ⟨d :: w, by rw [List.cons_append, ← hw], by simp [hc, Ne.symm hd]⟩

end UpTo

/-- The rule is the inside of a literal. -/
def IsInside (r : Rule) : Prop := r = .singleInner ∨ r = .doubleInner

/-- What is known of the records of a match: the text of a literal is recorded
inside it and lacks the quote around it. -/
def Recorded (r : Rule) (before after : List Char) (inner : Forest Rule) : Prop :=
  match r with
  | .singleInner => '\'' ∉ Forest.taken before after
  | .doubleInner => '"' ∉ Forest.taken before after
  | .literal => ∃ r b a i n, inner = .cons r b a i n ∧ IsInside r
  | _ => True

theorem recorded_literal {d : Nat} {s t : List Char} {f : Forest Rule}
    (h : Grammar.eval grammar.trivia.skip (grammar.run d) Rule.literal.body .joined s =
      some (t, f)) : ∃ r b a i n, f = .cons r b a i n ∧ IsInside r := by
  have hquoted : ∀ {r : Rule} {word : List Char}, r.layout = .token →
      Grammar.eval grammar.trivia.skip (grammar.run d)
          (.both (.text word) (.both (.rule r) (.text word))) .joined s = some (t, f) →
        ∃ b a i n, f = .cons r b a i n := by
    intro r word hr hbody
    obtain ⟨u, f₁, f₂, hopen, hrest, rfl⟩ := Grammar.eval_both_eq_some.1 hbody
    obtain ⟨v, f₃, f₄, hrule, -, rfl⟩ := Grammar.eval_both_eq_some.1 hrest
    obtain ⟨-, rfl⟩ := Grammar.eval_text_eq_some.1 hopen
    have hrecords : (Layout.joined.around (grammar.layout r)).records = true := by
      rw [show grammar.layout r = .token from hr]
      rfl
    obtain ⟨-, i, -, rfl, -⟩ := Grammar.run_eq_cons hrule hrecords
    exact ⟨_, _, i, _, rfl⟩
  obtain hsingle | ⟨-, hdouble⟩ := Grammar.eval_either_eq_some.1 h
  · obtain ⟨b, a, i, n, rfl⟩ := hquoted (r := .singleInner) rfl hsingle
    exact ⟨_, b, a, i, n, rfl, .inl rfl⟩
  · obtain ⟨b, a, i, n, rfl⟩ := hquoted (r := .doubleInner) rfl hdouble
    exact ⟨_, b, a, i, n, rfl, .inr rfl⟩

theorem run_recorded {d : Nat} {r : Rule} {s t : List Char} {f : Forest Rule}
    (h : grammar.run d r .spaced s = some (t, f)) : f.All Recorded := by
  refine Grammar.run_all (fun _ => True) (fun _ _ _ => trivial) ?_ trivial h
  intro d r l s t f _ _ heval _
  cases r with
  | singleInner | doubleInner =>
      obtain ⟨w, rfl, hw⟩ := eval_upTo heval
      show _ ∉ Forest.taken (w ++ t) t
      rwa [Forest.taken_append]
  | literal => exact recorded_literal heval
  | _ => trivial

/-! ## Predicates -/

theorem Reading.bind_eq_ok {α β : Type} {x : Reading α} {next : α → Reading β} {b : β} :
    (x >>= next) = .ok b ↔ ∃ a, x = .ok a ∧ next a = .ok b := by
  cases x with
  | error e =>
      constructor
      · intro h
        cases h
      · rintro ⟨a, ha, -⟩
        cases ha
  | ok a =>
      constructor
      · exact fun h => ⟨a, rfl, h⟩
      · rintro ⟨a', ha, h⟩
        cases ha
        exact h

variable {total : Nat} {before after : List Char} {f : Forest Rule} {p : Predicate}

theorem readable_of_readPosition (h : readPosition total before after = .ok p) : p.Readable := by
  simp only [readPosition] at h
  split at h
  · cases h
  · split at h
    · cases h
    · next hfits hzero =>
        cases h
        exact List.forall_mem_singleton.2 ⟨Nat.pos_of_ne_zero hzero, Nat.le_of_not_lt hfits⟩

theorem readable_of_readHas {atom : Span} (h : readHas total atom f = .ok p) : p.Readable := by
  induction f using readHas.induct with
  | case1 => cases h
  | case2 before after inner next =>
      obtain ⟨asked, -, hp⟩ := Reading.bind_eq_ok.1 h
      cases hp
      exact List.forall_mem_singleton.2 trivial
  | case3 rule before after inner next hrule ih =>
      rw [readHas] at h
      · exact ih h
      · exact hrule

theorem quotes_of_recorded {r : Rule} {inner : Forest Rule} (hr : IsInside r)
    (h : Recorded r before after inner) :
    ¬ ('\'' ∈ (wordOf before after).toList ∧ '"' ∈ (wordOf before after).toList) := by
  rw [wordOf, String.toList_ofList]
  obtain rfl | rfl := hr
  · exact fun hboth => h hboth.1
  · exact fun hboth => h hboth.2

/-- The literal of a comparison lacks the quote around it. -/
theorem quotes_of_readParts {parts found : ComparisonParts} (hf : f.All Recorded)
    (hparts : ∀ v ∈ parts.value, ¬ ('\'' ∈ v.1.toList ∧ '"' ∈ v.1.toList))
    (h : readParts total parts f = .ok found) :
    ∀ v ∈ found.value, ¬ ('\'' ∈ v.1.toList ∧ '"' ∈ v.1.toList) := by
  induction parts, f using readParts.induct total with
  | case1 parts =>
      cases h
      exact hparts
  | case2 parts before after inner next ih =>
      obtain ⟨asked, -, hrest⟩ := Reading.bind_eq_ok.1 h
      exact ih asked hf.2.2 hparts hrest
  | case3 parts before after inner next comparison ih => exact ih hf.2.2 hparts h
  | case4 parts before after inner next ih =>
      refine ih hf.2.2 (fun v hv => ?_) h
      cases hv
      obtain ⟨r, b, a, i, n, rfl, hr⟩ := hf.1
      exact quotes_of_recorded hr hf.2.1.1
  | case5 parts rule before after inner next hattribute hcomparator hliteral ih =>
      rw [readParts] at h
      · exact ih hf.2.2 hparts h
      · exact hattribute
      · exact hcomparator
      · exact hliteral

theorem readable_of_readComparison {atom : Span} (hf : f.All Recorded)
    (h : readComparison total atom f = .ok p) : p.Readable := by
  obtain ⟨parts, hparts, hvalue⟩ := Reading.bind_eq_ok.1 h
  have hquotes := quotes_of_readParts hf (by simp) hparts
  split at hvalue
  · next asked value place _ hliteral =>
      split at hvalue
      · cases hvalue
      · next hkind =>
          cases hvalue
          refine List.forall_mem_singleton.2 ⟨hquotes _ hliteral, ?_⟩
          rintro rfl
          simpa [Option.isSome_iff_ne_none] using hkind
  · cases hvalue

theorem readable_joinLeft_and {left : Option Predicate} (hleft : ∀ q ∈ left, q.Readable)
    (h : p.Readable) : (joinLeft .and left p).Readable := by
  cases left with
  | none => exact h
  | some q => exact Predicate.forall_parts_and.2 ⟨trivial, hleft q rfl, h⟩

theorem readable_joinLeft_or {left : Option Predicate} (hleft : ∀ q ∈ left, q.Readable)
    (h : p.Readable) : (joinLeft .or left p).Readable := by
  cases left with
  | none => exact h
  | some q => exact Predicate.forall_parts_or.2 ⟨trivial, hleft q rfl, h⟩

theorem readable_of_finished {left : Option Predicate} (hleft : ∀ q ∈ left, q.Readable)
    (h : finished total left = .ok p) : p.Readable := by
  cases left with
  | none => cases h
  | some q =>
      cases h
      exact hleft p rfl

/-- What is read from operands can be read from a text again. -/
def ReadsReadable (reader : Option Predicate → Forest Rule → Reading Predicate)
    (left : Option Predicate) (f : Forest Rule) : Prop :=
  f.All Recorded → (∀ q ∈ left, q.Readable) → ∀ p, reader left f = .ok p → p.Readable

theorem readsReadable (total : Nat) :
    (∀ left f, ReadsReadable (readOr total) left f) ∧
      (∀ left f, ReadsReadable (readAnd total) left f) ∧
      ∀ atom f, ReadsReadable (fun _ => readAtom total atom) none f := by
  refine readOr.mutual_induct total _ _ _ ?or_nil ?or_operand ?or_word ?and_nil ?and_operand
    ?and_word ?nothing ?position ?comparison ?attributeTest ?parentheses ?other
  case or_nil | and_nil =>
    intro left _ hleft p h
    exact readable_of_finished hleft h
  case or_operand =>
    intro left before after inner next ihand ihnext hf hleft p h
    obtain ⟨-, hinner, hnext⟩ := hf
    obtain ⟨q, hq, hrest⟩ := Reading.bind_eq_ok.1 h
    have hreadable : q.Readable := ihand hinner (by simp) q hq
    refine ihnext q hnext (fun r hr => ?_) p hrest
    cases hr
    exact readable_joinLeft_or hleft hreadable
  case and_operand =>
    intro left before after inner next ihatom ihnext hf hleft p h
    obtain ⟨-, hinner, hnext⟩ := hf
    obtain ⟨q, hq, hrest⟩ := Reading.bind_eq_ok.1 h
    have hreadable : q.Readable := ihatom hinner (by simp) q hq
    refine ihnext q hnext (fun r hr => ?_) p hrest
    cases hr
    exact readable_joinLeft_and hleft hreadable
  case or_word =>
    intro left rule before after inner next hrule ihnext hf hleft p h
    rw [readOr] at h
    · exact ihnext hf.2.2 hleft p h
    · exact hrule
  case and_word =>
    intro left rule before after inner next hrule ihnext hf hleft p h
    rw [readAnd] at h
    · exact ihnext hf.2.2 hleft p h
    · exact hrule
  case nothing =>
    intro atom _ _ p h
    cases h
  case position =>
    intro atom before after inner next _ _ p h
    exact readable_of_readPosition h
  case comparison =>
    intro atom before after inner next hf _ p h
    exact readable_of_readComparison hf.2.1 h
  case attributeTest =>
    intro atom before after inner next _ _ p h
    exact readable_of_readHas h
  case parentheses =>
    intro atom before after inner next ihor hf hleft p h
    exact ihor hf.2.1 hleft p h
  case other =>
    intro atom rule before after inner next hposition hcomparison hattribute hor _ _ p h
    simp only at h
    rw [readAtom] at h
    · cases h
    · exact hposition
    · exact hcomparison
    · exact hattribute
    · exact hor

/-! ## Steps -/

theorem readable_of_readPredicates {ps : List Predicate} (hf : f.All Recorded)
    (h : readPredicates total f = .ok ps) : ∀ p ∈ ps, p.Readable := by
  induction f using readPredicates.induct generalizing ps with
  | case1 before after before' after' inner next' next ih =>
      obtain ⟨-, ⟨-, hinner, -⟩, hnext⟩ := hf
      obtain ⟨p, hp, hmore⟩ := Reading.bind_eq_ok.1 h
      obtain ⟨qs, hqs, heq⟩ := Reading.bind_eq_ok.1 hmore
      cases heq
      have hreadable : p.Readable := (readsReadable total).1 none inner hinner (by simp) p hp
      exact List.forall_mem_cons.2 ⟨hreadable, ih hnext hqs⟩
  | case2 f hnone =>
      rw [readPredicates] at h
      · cases h
        simp
      · exact hnone

/-- All predicates of a step can be read. -/
def Step.Readable (s : Step) : Prop := ∀ p ∈ s.predicates, p.Readable

theorem Step.readable_plain (axis : Axis) (test : NodeTest) : (plain axis test).Readable := by
  intro p hp
  cases hp

theorem readable_of_readFound {axis : Axis} {s : Step} (hf : f.All Recorded)
    (h : readFound total axis f = .ok s) : s.Readable := by
  rw [readFound.eq_def] at h
  split at h
  · obtain ⟨test, -, hrest⟩ := Reading.bind_eq_ok.1 h
    obtain ⟨ps, hps, heq⟩ := Reading.bind_eq_ok.1 hrest
    cases heq
    exact readable_of_readPredicates hf.2.2 hps
  · obtain ⟨ps, hps, heq⟩ := Reading.bind_eq_ok.1 h
    cases heq
    exact readable_of_readPredicates hf hps

theorem readable_of_readStep {s : Step} {explicit : Bool} (hf : f.All Recorded)
    (h : readStep total f = .ok (s, explicit)) : s.Readable := by
  rw [readStep.eq_def] at h
  split at h
  · cases h
  · cases h
    exact Step.readable_plain _ _
  · cases h
    exact Step.readable_plain _ _
  · split at h
    · obtain ⟨found, hfound, heq⟩ := Reading.bind_eq_ok.1 h
      cases heq
      exact readable_of_readFound hf.2.1.2.2 hfound
    · cases h
  · obtain ⟨found, hfound, heq⟩ := Reading.bind_eq_ok.1 h
    cases heq
    exact readable_of_readFound hf.2.1 hfound

theorem readable_expandStep {s : Step} (h : s.Readable) (deep explicit : Bool) :
    ∀ r ∈ expandStep deep s explicit, r.Readable := by
  cases deep <;> cases explicit
  · exact List.forall_mem_singleton.2 h
  · exact List.forall_mem_singleton.2 h
  · exact List.forall_mem_singleton.2 h
  · exact List.forall_mem_cons.2 ⟨Step.readable_plain _ _, List.forall_mem_singleton.2 h⟩

theorem expandStep_ne_nil (s : Step) (deep explicit : Bool) : expandStep deep s explicit ≠ [] := by
  cases deep <;> cases explicit <;> exact List.cons_ne_nil _ _

theorem readable_of_readSteps {deep : Bool} {steps : List Step} (hf : f.All Recorded)
    (h : readSteps total deep f = .ok steps) : ∀ s ∈ steps, s.Readable := by
  induction deep, f using readSteps.induct generalizing steps with
  | case1 deep =>
      cases h
      simp
  | case2 deep before after inner next ih | case3 deep before after inner next ih =>
      exact ih hf.2.2 h
  | case4 deep before after inner next ih =>
      obtain ⟨⟨s, explicit⟩, hstep, hrest⟩ := Reading.bind_eq_ok.1 h
      obtain ⟨more, hmore, heq⟩ := Reading.bind_eq_ok.1 hrest
      cases heq
      have hs : s.Readable := readable_of_readStep hf.2.1 hstep
      exact List.forall_mem_append.2 ⟨readable_expandStep hs deep explicit, ih hf.2.2 hmore⟩
  | case5 deep rule before after inner next hdescendant hchild hstep ih =>
      rw [readSteps] at h
      · exact ih hf.2.2 h
      · exact hdescendant
      · exact hchild
      · exact hstep

theorem readSteps_step_ne_nil {deep : Bool} {steps : List Step} {next inner : Forest Rule}
    (h : readSteps total deep (.cons .step before after inner next) = .ok steps) :
    steps ≠ [] := by
  obtain ⟨⟨s, explicit⟩, -, hrest⟩ := Reading.bind_eq_ok.1 h
  obtain ⟨more, -, heq⟩ := Reading.bind_eq_ok.1 hrest
  cases heq
  exact List.append_ne_nil_of_left_ne_nil (expandStep_ne_nil s deep explicit) more

theorem readSteps_ne_nil {deep : Bool} {steps : List Step} {front next inner : Forest Rule}
    (h : readSteps total deep (front ++ .cons .step before after inner next) = .ok steps) :
    steps ≠ [] := by
  induction front generalizing deep steps with
  | nil => exact readSteps_step_ne_nil h
  | cons r b a i n _ ih =>
      by_cases hr : r = .step
      · subst hr
        exact readSteps_step_ne_nil h
      · rw [Forest.cons_append, readSteps.eq_def] at h
        split at h
        · next heq => cases heq
        · next heq =>
            cases heq
            exact ih h
        · next heq =>
            cases heq
            exact ih h
        · next heq =>
            cases heq
            exact absurd rfl hr
        · next heq =>
            cases heq
            exact ih h

/-! ## Plans -/

theorem parse_expression {s rest : List Char} {f : Forest Rule}
    (h : grammar.parse .expression s = some (rest, f)) :
    ∃ front before after inner next, f = .cons .expression s rest
      (front ++ .cons .step before after inner next) .nil := by
  obtain ⟨d, inside, -, rfl, hbody⟩ := Grammar.run_eq_cons h rfl
  obtain ⟨u, f₁, f', -, hopt, rfl⟩ := Grammar.eval_both_eq_some.1 hbody
  obtain ⟨v, f₂, f'', -, hpath, rfl⟩ := Grammar.eval_both_eq_some.1 hopt
  obtain ⟨w, f₃, f₄, hstep, -, rfl⟩ := Grammar.eval_both_eq_some.1 hpath
  obtain ⟨d', inner, -, rfl, -⟩ := Grammar.run_eq_cons hstep rfl
  rw [Forest.cons_append, ← Forest.append_assoc]
  exact ⟨_, _, _, _, _, rfl⟩

/-- The text of a plan that was read from an expression can be read. -/
theorem readable_of_read {s : List Char} {plan : Plan} (h : read s = .ok plan) :
    plan.Readable := by
  rw [read] at h
  split at h
  · next rest f hparse =>
      have hrecorded := run_recorded hparse
      obtain ⟨front, before, after, inner, next, rfl⟩ := parse_expression hparse
      obtain ⟨steps, hsteps, heq⟩ := Reading.bind_eq_ok.1 h
      cases heq
      exact ⟨readSteps_ne_nil hsteps, readable_of_readSteps hrecorded.2.1 hsteps⟩
  · cases h

end Traversal

end FeatureTree
