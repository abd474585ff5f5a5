import FeatureTree.Grammar.Role
import FeatureTree.Proofs.Grammar.Records

/-!
# What a rule can contribute

A record contributes to the node around it: children, a name, a body. What
comes in which order is decided by the grammar alone, whatever the text, so it
can be read off the bodies of the rules.

The reading follows states. A `Tracker` says which contribution is allowed in
which state and what state comes next; an expression takes a set of states to
the states it can end in (`Expr.track`), and the answer is `none` where some
match might contribute what is not allowed. Rules that are looked through are
not followed into their bodies, since they may call themselves. They come with
a `Summary` instead, and a grammar is `Summarized` if each body keeps to the
summary of its rule. `run_accepts` and `eval_leads` then say that the matches
contribute what was read.
-/

namespace FeatureTree

/-- What a record says to the node around it. -/
inductive Contribution
  | child (kind : Kind)
  | name
  | fallback
  | body
  deriving DecidableEq, Repr

/-- The state after a contribution, if it is allowed in the state before. -/
abbrev Tracker (σ : Type) := σ → Contribution → Option σ

namespace Tracker

variable {σ : Type}

/-- Starting in any of some states, contributions are allowed one after the
other and lead to one of some other states. -/
def Leads (step : Tracker σ) (qs : List σ) (cs : List Contribution) (qs' : List σ) : Prop :=
  ∀ q ∈ qs, ∃ q' ∈ qs', cs.foldlM step q = some q'

variable {step : Tracker σ} {qs qs₁ qs₂ : List σ} {cs ds : List Contribution}

theorem leads_nil (h : qs ⊆ qs₁) : step.Leads qs [] qs₁ := fun q hq => ⟨q, h hq, rfl⟩

theorem Leads.append (h₁ : step.Leads qs cs qs₁) (h₂ : step.Leads qs₁ ds qs₂) :
    step.Leads qs (cs ++ ds) qs₂ := by
  intro q hq
  obtain ⟨q₁, hq₁, hcs⟩ := h₁ q hq
  obtain ⟨q₂, hq₂, hds⟩ := h₂ q₁ hq₁
  refine ⟨q₂, hq₂, ?_⟩
  rw [List.foldlM_append, hcs]
  exact hds

theorem Leads.mono {qs' qs₁' : List σ} (h : step.Leads qs cs qs₁) (hqs : qs' ⊆ qs)
    (hqs₁ : qs₁ ⊆ qs₁') : step.Leads qs' cs qs₁' := by
  intro q hq
  obtain ⟨q₁, hq₁, hcs⟩ := h q (hqs hq)
  exact ⟨q₁, hqs₁ hq₁, hcs⟩

/-- The states after one of some contributions, if each is allowed in each
state. -/
def stepAll (step : Tracker σ) (cs : List Contribution) (qs : List σ) : Option (List σ) :=
  if qs.all fun q => cs.all fun c => (step q c).isSome then
    some (qs.flatMap fun q => cs.filterMap (step q))
  else none

theorem leads_stepAll {c : Contribution} (hc : c ∈ cs) (h : step.stepAll cs qs = some qs₁) :
    step.Leads qs [c] qs₁ := by
  intro q hq
  rw [stepAll] at h
  split at h
  · next hall =>
      cases h
      obtain ⟨q', hq'⟩ := Option.isSome_iff_exists.1
        (List.all_eq_true.1 (List.all_eq_true.1 hall q hq) c hc)
      refine ⟨q', List.mem_flatMap.2 ⟨q, hq, List.mem_filterMap.2 ⟨c, hc, hq'⟩⟩, ?_⟩
      simp [hq']
  · cases h

variable [DecidableEq σ]

/-- Adds the states that a reading leads to, again and again. -/
def widen (read : List σ → Option (List σ)) : Nat → List σ → Option (List σ)
  | 0, qs => some qs
  | n + 1, qs => (read qs).bind fun qs' => widen read n (qs ++ qs').eraseDups

/-- The states after any number of readings. Three rounds reach all of them in
the trackers here; if they do not, there is no answer. -/
def closure (read : List σ → Option (List σ)) (qs : List σ) : Option (List σ) :=
  (widen read 3 qs).bind fun qs₁ =>
    (read qs₁).bind fun qs₂ => if qs₂ ⊆ qs₁ then some qs₁ else none

theorem subset_of_widen {read : List σ → Option (List σ)} {n : Nat}
    (h : widen read n qs = some qs₁) : qs ⊆ qs₁ := by
  induction n generalizing qs with
  | zero => cases h; exact List.Subset.refl _
  | succ n ih =>
      obtain ⟨qs', -, hwiden⟩ := Option.bind_eq_some_iff.1 h
      intro q hq
      exact ih hwiden (by simp [hq])

/-- A closure contains the states it starts with, and no reading leads out of
it. -/
theorem closure_spec {read : List σ → Option (List σ)} (h : closure read qs = some qs₁) :
    qs ⊆ qs₁ ∧ ∃ qs₂, read qs₁ = some qs₂ ∧ qs₂ ⊆ qs₁ := by
  obtain ⟨qs', hwiden, hread⟩ := Option.bind_eq_some_iff.1 h
  obtain ⟨qs₂, hqs₂, hsub⟩ := Option.bind_eq_some_iff.1 hread
  split at hsub
  · next hsubset =>
      cases hsub
      exact ⟨subset_of_widen hwiden, qs₂, hqs₂, hsubset⟩
  · cases hsub

end Tracker

/-- What the matches of a rule contribute. -/
inductive Summary
  /-- One of these. -/
  | one (allowed : List Contribution)
  /-- Any number of these. -/
  | many (allowed : List Contribution)
  deriving Repr

namespace Summary

/-- The contributions are as the summary says. -/
def Accepts : Summary → List Contribution → Prop
  | .one allowed, cs => ∃ c ∈ allowed, cs = [c]
  | .many allowed, cs => ∀ c ∈ cs, c ∈ allowed

/-- Whether a contribution has been met, as far as the summary allows it. -/
def tracker : Summary → Tracker Bool
  | .one allowed, seen, c => if c ∈ allowed ∧ seen = false then some true else none
  | .many allowed, _, c => if c ∈ allowed then some true else none

/-- Contributions may end here. -/
def isDone : Summary → Bool → Bool
  | .one _, seen => seen
  | .many _, _ => true

/-- The states after what the summary says. -/
def track {σ : Type} [DecidableEq σ] (step : Tracker σ) : Summary → List σ → Option (List σ)
  | .one allowed, qs => step.stepAll allowed qs
  | .many allowed, qs => Tracker.closure (step.stepAll allowed) qs

theorem allowed_of_foldlM_many {allowed cs : List Contribution} {seen seen' : Bool}
    (h : cs.foldlM (Summary.many allowed).tracker seen = some seen') :
    ∀ c ∈ cs, c ∈ allowed := by
  induction cs generalizing seen with
  | nil => intro c hc; cases hc
  | cons c cs ih =>
      rw [List.foldlM_cons] at h
      obtain ⟨q, hq, hrest⟩ := Option.bind_eq_some_iff.1 h
      rw [tracker] at hq
      split at hq
      · next hmem =>
          intro d hd
          rcases List.mem_cons.1 hd with rfl | hd
          · exact hmem
          · exact ih hrest d hd
      · cases hq

/-- Contributions that the tracker of a summary reads to the end are as the
summary says. -/
theorem accepts_of_foldlM {s : Summary} {cs : List Contribution} {seen : Bool}
    (h : cs.foldlM s.tracker false = some seen) (hdone : s.isDone seen = true) :
    s.Accepts cs := by
  cases s with
  | many allowed => exact allowed_of_foldlM_many h
  | one allowed =>
      cases cs with
      | nil => cases h; cases hdone
      | cons c cs =>
          rw [List.foldlM_cons] at h
          obtain ⟨q, hq, hrest⟩ := Option.bind_eq_some_iff.1 h
          rw [tracker] at hq
          split at hq
          · next hmem =>
              cases hq
              -- A second contribution would be refused.
              cases cs with
              | nil => exact ⟨c, hmem.1, rfl⟩
              | cons d cs =>
                  rw [List.foldlM_cons] at hrest
                  obtain ⟨q, hq, -⟩ := Option.bind_eq_some_iff.1 hrest
                  simp [tracker] at hq
          · cases hq

/-- What a summary accepts leads to the states that were read off it. -/
theorem leads_of_accepts {σ : Type} [DecidableEq σ] {step : Tracker σ} {s : Summary}
    {cs : List Contribution} {qs qs' : List σ} (hs : s.Accepts cs)
    (h : s.track step qs = some qs') : step.Leads qs cs qs' := by
  cases s with
  | one allowed =>
      obtain ⟨c, hc, rfl⟩ := hs
      exact Tracker.leads_stepAll hc h
  | many allowed =>
      obtain ⟨hqs, qs₂, hread, hqs₂⟩ := Tracker.closure_spec h
      refine Tracker.Leads.mono ?_ hqs (List.Subset.refl qs')
      induction cs with
      | nil => exact Tracker.leads_nil (List.Subset.refl qs')
      | cons c cs ih =>
          have hc : step.Leads qs' [c] qs' :=
            (Tracker.leads_stepAll (hs c (by simp)) hread).mono (List.Subset.refl qs') hqs₂
          exact hc.append (ih fun d hd => hs d (by simp [hd]))

end Summary

namespace Expr

variable {R σ : Type} [DecidableEq σ]

/-- The states that the matches of an expression can end in, where `rule` says
so of the rules. -/
def track (rule : R → List σ → Option (List σ)) : Expr R → List σ → Option (List σ)
  | .text _, qs | .char _, qs | .ahead _, qs | .notAhead _, qs => some qs
  | .rule r, qs => rule r qs
  | .both a b, qs => (a.track rule qs).bind (b.track rule)
  | .either a b, qs => (a.track rule qs).bind fun qs₁ => (b.track rule qs).map (qs₁ ++ ·)
  | .opt a, qs => (a.track rule qs).map (qs ++ ·)
  | .star a, qs => Tracker.closure (a.track rule) qs

end Expr

namespace SnippetGrammar

variable {R : Type} (g : SnippetGrammar R)

/-- What a sequence of records contributes to the node around it, in order. -/
def contributions : Forest R → List Contribution
  | .nil => []
  | .cons r _ _ inner next =>
    (match g.role r with
      | .node kind => [.child kind]
      | .name => [.name]
      | .fallbackName => [.fallback]
      | .body => [.body]
      | .transparent => contributions inner
      | .hidden => []) ++ contributions next

@[simp] theorem contributions_append (f f' : Forest R) :
    g.contributions (f ++ f') = g.contributions f ++ g.contributions f' := by
  induction f with
  | nil => rfl
  | cons r before after inner next _ ih => simp [contributions, ih]

/-- What the matches of a rule contribute, given summaries of the rules that
are looked through. -/
def summaryOf (summary : R → Summary) (r : R) : Summary :=
  match g.role r with
  | .node kind => .one [.child kind]
  | .name => .one [.name]
  | .fallbackName => .one [.fallback]
  | .body => .one [.body]
  | .transparent => if g.layout r = .token then .many [] else summary r
  | .hidden => .many []

/-- Read off the body of a rule, every match of it goes from a state to one that
is done. -/
def bodyEnds {σ : Type} [DecidableEq σ] (summary : R → Summary) (step : Tracker σ) (start : σ)
    (done : σ → Bool) (r : R) : Bool :=
  ((g.body r).track (fun r' => (g.summaryOf summary r').track step) [start]).any (·.all done)

/-- The rules that are looked through contribute what their summaries say. -/
structure Summarized (summary : R → Summary) : Prop where
  layout : ∀ r, g.layout r ≠ .joined
  body : ∀ r, g.role r = .transparent → g.layout r = .spaced →
    g.bodyEnds summary (summary r).tracker false (summary r).isDone r = true

variable {g} {summary : R → Summary}

section Expressions

variable {σ : Type} {step : Tracker σ} {rule : R → List σ → Option (List σ)}
  {skip : List Char → List Char} {call : R → Layout → Grammar.Matcher R}

theorem many_leads {next : Grammar.Matcher R} {qs : List σ}
    (hnext : ∀ s s' f, next s = some (s', f) → step.Leads qs (g.contributions f) qs)
    {bound s t : List Char} {f : Forest R} (h : Grammar.many next bound s = (t, f)) :
    step.Leads qs (g.contributions f) qs := by
  induction bound generalizing s f with
  | nil =>
      cases h
      exact Tracker.leads_nil (List.Subset.refl qs)
  | cons b bound ih =>
      rw [Grammar.many] at h
      split at h
      · cases h
        exact Tracker.leads_nil (List.Subset.refl qs)
      · next s' f' hs =>
          cases h
          rw [contributions_append]
          exact (hnext s s' f' hs).append (ih rfl)

/-- The matches of an expression contribute what was read off it, if those of
the rules do. -/
theorem eval_leads [DecidableEq σ]
    (hcall : ∀ r s s' f qs qs', call r .spaced s = some (s', f) → rule r qs = some qs' →
      step.Leads qs (g.contributions f) qs')
    {e : Expr R} {qs qs' : List σ} (he : e.track rule qs = some qs') {s rest : List Char}
    {f : Forest R} (h : Grammar.eval skip call e .spaced s = some (rest, f)) :
    step.Leads qs (g.contributions f) qs' := by
  induction e generalizing qs qs' s rest f with
  | text word =>
      cases he
      obtain ⟨-, rfl⟩ := Grammar.eval_text_eq_some.1 h
      exact Tracker.leads_nil (List.Subset.refl _)
  | char accepts =>
      cases he
      obtain ⟨c, -, -, rfl⟩ := Grammar.eval_char_eq_some.1 h
      exact Tracker.leads_nil (List.Subset.refl _)
  | rule r => exact hcall r s rest f qs qs' h he
  | both a b iha ihb =>
      obtain ⟨qs₁, hqs₁, hqs'⟩ := Option.bind_eq_some_iff.1 he
      obtain ⟨u, f₁, f₂, ha, hb, rfl⟩ := Grammar.eval_both_eq_some.1 h
      rw [contributions_append]
      exact (iha hqs₁ ha).append (ihb hqs' hb)
  | either a b iha ihb =>
      obtain ⟨qs₁, hqs₁, hqs'⟩ := Option.bind_eq_some_iff.1 he
      obtain ⟨qs₂, hqs₂, rfl⟩ := Option.map_eq_some_iff.1 hqs'
      obtain ha | ⟨-, hb⟩ := Grammar.eval_either_eq_some.1 h
      · exact (iha hqs₁ ha).mono (List.Subset.refl qs) (List.subset_append_left qs₁ qs₂)
      · exact (ihb hqs₂ hb).mono (List.Subset.refl qs) (List.subset_append_right qs₁ qs₂)
  | opt a iha =>
      obtain ⟨qs₁, hqs₁, rfl⟩ := Option.map_eq_some_iff.1 he
      obtain ha | ⟨-, -, rfl⟩ := Grammar.eval_opt_eq_some.1 h
      · exact (iha hqs₁ ha).mono (List.Subset.refl qs) (List.subset_append_right qs qs₁)
      · exact Tracker.leads_nil (List.subset_append_left qs qs₁)
  | star a iha =>
      obtain ⟨hqs, qs₂, hread, hqs₂⟩ := Tracker.closure_spec he
      have hround : ∀ {t rest f}, Grammar.eval skip call a .spaced t = some (rest, f) →
          step.Leads qs' (g.contributions f) qs' :=
        fun ht => (iha hread ht).mono (List.Subset.refl qs') hqs₂
      obtain ⟨-, -, rfl⟩ | ⟨u, f₁, f₂, ha, hmany, rfl⟩ := Grammar.eval_star_eq_some.1 h
      · exact Tracker.leads_nil hqs
      · have hrounds := many_leads (fun _ _ _ ht => hround ht) hmany
        rw [contributions_append]
        exact ((hround ha).append hrounds).mono hqs (List.Subset.refl qs')
  | ahead a _ =>
      cases he
      obtain ⟨-, -, rfl⟩ := Grammar.eval_ahead_eq_some.1 h
      exact Tracker.leads_nil (List.Subset.refl _)
  | notAhead a _ =>
      cases he
      obtain ⟨-, -, rfl⟩ := Grammar.eval_notAhead_eq_some.1 h
      exact Tracker.leads_nil (List.Subset.refl _)

end Expressions

/-- If the rules contribute what their summaries say, the contributions of a
body are read to a state that is done. -/
theorem eval_ends {call : R → Layout → Grammar.Matcher R} {skip : List Char → List Char}
    (hcall : ∀ r s s' f, call r .spaced s = some (s', f) →
      (g.summaryOf summary r).Accepts (g.contributions f))
    {σ : Type} [DecidableEq σ] {step : Tracker σ} {start : σ} {done : σ → Bool} {r : R}
    (hr : g.bodyEnds summary step start done r = true) {s rest : List Char} {f : Forest R}
    (h : Grammar.eval skip call (g.body r) .spaced s = some (rest, f)) :
    ∃ q, (g.contributions f).foldlM step start = some q ∧ done q = true := by
  rw [bodyEnds] at hr
  cases htrack : (g.body r).track (fun r' => (g.summaryOf summary r').track step) [start] with
  | none => rw [htrack] at hr; cases hr
  | some qs =>
      rw [htrack, Option.any_some, List.all_eq_true] at hr
      have hleads := eval_leads (fun r s s' f qs qs' hf hqs =>
        Summary.leads_of_accepts (hcall r s s' f hf) hqs) htrack h
      obtain ⟨q, hq, hfold⟩ := hleads start (List.mem_singleton.2 rfl)
      exact ⟨q, hfold, hr q hq⟩

/-- A rule contributes what its role or its summary says. -/
theorem run_accepts (hg : g.Summarized summary) {d : Nat} {r : R} {s rest : List Char}
    {f : Forest R} (h : g.run d r .spaced s = some (rest, f)) :
    (g.summaryOf summary r).Accepts (g.contributions f) := by
  induction d generalizing r s rest f with
  | zero => cases h
  | succ d ih =>
      have hlayout := hg.layout r
      have hrecords : (Layout.spaced.around (g.layout r)).records = true := by
        cases hl : g.layout r with
        | joined => exact absurd hl hlayout
        | spaced | token => rfl
      obtain ⟨n, inner, hn, rfl, heval⟩ := Grammar.run_eq_cons h hrecords
      cases hn
      rw [contributions, contributions, List.append_nil, summaryOf]
      cases hrole : g.role r with
      | node kind => exact ⟨_, List.mem_singleton.2 rfl, rfl⟩
      | name | fallbackName | body => exact ⟨_, List.mem_singleton.2 rfl, rfl⟩
      | hidden => intro c hc; cases hc
      | transparent =>
          dsimp only
          split
          · next hl =>
              rw [hl] at heval
              rw [Grammar.eval_token hg.layout heval]
              intro c hc
              cases hc
          · next hl =>
              have hspaced : g.layout r = .spaced := by
                cases hr : g.layout r with
                | spaced => rfl
                | joined => exact absurd hr hlayout
                | token => exact absurd hr hl
              rw [hspaced] at heval
              obtain ⟨seen, hfold, hdone⟩ :=
                eval_ends (fun _ _ _ _ hcall => ih hcall) (hg.body r hrole hspaced) heval
              exact Summary.accepts_of_foldlM hfold hdone

theorem body_ends (hg : g.Summarized summary) {σ : Type} [DecidableEq σ] {step : Tracker σ}
    {start : σ} {done : σ → Bool} {r : R}
    (hr : g.bodyEnds summary step start done r = true) {d : Nat} {s rest : List Char}
    {f : Forest R}
    (h : Grammar.eval g.trivia.skip (g.run d) (g.body r) .spaced s = some (rest, f)) :
    ∃ q, (g.contributions f).foldlM step start = some q ∧ done q = true :=
  eval_ends (fun _ _ _ _ hcall => run_accepts hg hcall) hr h

end SnippetGrammar

end FeatureTree
