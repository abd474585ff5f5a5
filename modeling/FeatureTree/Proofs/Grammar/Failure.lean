import FeatureTree.Grammar.Failure
import FeatureTree.Proofs.Grammar.Rest
import FeatureTree.Proofs.Node.Order

/-!
# What the report of a failed match says

The report comes from a second match that keeps a record (`trace`, `runTrace`).
It is the same match as the first: it leaves the same text, and it fails where
the first one fails. Its record only ever moves on, from one place at which a
rule was tried to a later one (`Follows`). So the place that is reported lies in
the text, between two characters of it (`mismatch_offset`).

The sentence of a report ends in the name of a rule behind one of two words
(`Mismatch.message_ends`), whatever the rules are.
-/

namespace FeatureTree

namespace Furthest

variable {R : Type} {s u : List Char} {f f₁ f₂ : Furthest R}

/-- The record stays where it is, or moves on to a place in `s`. -/
def Moves (s : List Char) (f f' : Furthest R) : Prop :=
  f'.rest = f.rest ∨ f'.rest <:+ s ∧ f'.rest.length < f.rest.length

theorem Moves.refl (s : List Char) (f : Furthest R) : f.Moves s f := .inl rfl

theorem Moves.trans (h₁ : f.Moves s f₁) (hu : u <:+ s) (h₂ : f₁.Moves u f₂) : f.Moves s f₂ := by
  rcases h₂ with h₂ | ⟨hsuffix, hlt⟩
  · rwa [Moves, h₂]
  · refine .inr ⟨hsuffix.trans hu, ?_⟩
    rcases h₁ with h₁ | ⟨-, hlt₁⟩
    · rwa [← h₁]
    · exact Nat.lt_trans hlt hlt₁

/-- A rule that was tried no further than the record has come leaves it there. -/
theorem enter_rest_of_le (h : f₁.rest.length ≤ s.length) (r : R) (negated : Bool) :
    (f.enter f₁ r negated s).rest = f₁.rest := by
  rw [enter]
  split
  · rfl
  · rw [if_neg (Nat.not_lt.2 h)]
    split
    · dsimp only
      split <;> rfl
    · rfl

/-- A rule that was tried where the record is or further takes it there. -/
theorem enter_rest_of_suffix (h : s <:+ f.rest) (r : R) (negated : Bool) :
    (f.enter f r negated s).rest = s := by
  by_cases hlen : f.rest.length ≤ s.length
  · rw [enter_rest_of_le hlen, h.eq_of_length_le hlen]
  · rw [enter, if_neg (Nat.succ_ne_self _).symm, if_pos (Nat.not_le.1 hlen)]
    split <;> rfl

/-- A rule is entered at the place where it was tried. -/
theorem Moves.enter (h : f.Moves s f₁) (r : R) (negated : Bool) :
    f.Moves s (f.enter f₁ r negated s) := by
  refine h.trans (List.suffix_refl s) ?_
  by_cases hlen : f₁.rest.length ≤ s.length
  · exact .inl (enter_rest_of_le hlen r negated)
  · rw [Furthest.enter]
    split
    · exact .refl s f₁
    · rw [if_pos (Nat.not_le.1 hlen)]
      refine .inr ?_
      split <;> exact ⟨List.suffix_refl s, Nat.not_le.1 hlen⟩

end Furthest

namespace Grammar

variable {R : Type}

/-- A match that keeps the record is the match that does not: both fail, or both
leave the same text. The record moves on in the text that is matched. -/
def Follows (tracer : Tracer R) (step : Matcher R) : Prop :=
  ∀ s f,
    (∃ f', tracer s f = (none, f') ∧ step s = none ∧ Furthest.Moves s f f') ∨
      ∃ s' g f', tracer s f = (some s', f') ∧ step s = some (s', g) ∧ Furthest.Moves s f f'

/-- The rounds of a repetition are the same. The attempt that ends it is on record
too. -/
theorem traceMany_follows {tracer : Tracer R} {step : Matcher R} (h : Follows tracer step)
    (hstep : ∀ s s' g, step s = some (s', g) → s' <:+ s) (bound : List Char) :
    Follows (traceMany tracer bound) fun s => some (many step bound s) := by
  intro s f
  refine .inr ?_
  induction bound generalizing s f with
  | nil =>
      obtain ⟨f', htrace, -, hmoves⟩ | ⟨u, g, f', htrace, -, hmoves⟩ := h s f
      · exact ⟨s, .nil, f', by rw [traceMany, htrace], rfl, hmoves⟩
      · exact ⟨s, .nil, f', by rw [traceMany, htrace], rfl, hmoves⟩
  | cons b bound ih =>
      obtain ⟨f', htrace, hnone, hmoves⟩ | ⟨u, g, f', htrace, hsome, hmoves⟩ := h s f
      · exact ⟨s, .nil, f', by rw [traceMany, htrace], by simp only [many, hnone], hmoves⟩
      · obtain ⟨s', g', f'', htrace', hmany, hmoves'⟩ := ih u f'
        refine ⟨s', g ++ g', f'', by rw [traceMany, htrace, ← htrace'], ?_,
          hmoves.trans (hstep s u g hsome) hmoves'⟩
        simp only [many, hsome, Option.some.inj hmany]

section Expressions

variable {skip : List Char → List Char} {call : R → Layout → Matcher R}
  {traced : R → Layout → Bool → Tracer R} {a b : Expr R} {l : Layout} {negated : Bool}
  {s : List Char} {f : Furthest R}

/-! What the record is of an expression, from the records of its parts. -/

theorem trace_both : trace skip traced (.both a b) l negated s f =
    match trace skip traced a l negated s f with
    | (none, f) => (none, f)
    | (some s, f) => trace skip traced b l negated (gap skip l s) f := rfl

theorem trace_either : trace skip traced (.either a b) l negated s f =
    match trace skip traced a l negated s f with
    | (none, f) => trace skip traced b l negated s f
    | found => found := rfl

theorem trace_opt : trace skip traced (.opt a) l negated s f =
    match trace skip traced a l negated s f with
    | (none, f) => (some s, f)
    | found => found := rfl

theorem trace_star : trace skip traced (.star a) l negated s f =
    match trace skip traced a l negated s f with
    | (none, f) => (some s, f)
    | (some s, f) =>
      traceMany (fun t => trace skip traced a l negated (gap skip l t)) s s f := rfl

theorem trace_ahead : trace skip traced (.ahead a) l negated s f =
    match trace skip traced a l negated s f with
    | (none, f) => (none, f)
    | (some _, f) => (some s, f) := rfl

theorem trace_notAhead : trace skip traced (.notAhead a) l negated s f =
    match trace skip traced a l (!negated) s f with
    | (none, f) => (some s, f)
    | (some _, f) => (none, f) := rfl

theorem follows_text (word : List Char) :
    Follows (trace skip traced (.text word) l negated) (eval skip call (.text word) l) := by
  intro s f
  rw [trace, eval]
  cases hword : Text.after? word s with
  | none => exact .inl ⟨f, rfl, rfl, .refl s f⟩
  | some s' => exact .inr ⟨s', .nil, f, rfl, rfl, .refl s f⟩

theorem follows_char (accepts : Char → Bool) :
    Follows (trace skip traced (.char accepts) l negated) (eval skip call (.char accepts) l) := by
  intro s f
  cases s with
  | nil => exact .inl ⟨f, rfl, rfl, .refl [] f⟩
  | cons c s =>
      rw [trace, eval]
      split
      · exact .inr ⟨s, .nil, f, rfl, rfl, .refl _ f⟩
      · exact .inl ⟨f, rfl, rfl, .refl _ f⟩

/-- The second of two begins behind the gap, in what the first one leaves. -/
theorem follows_both
    (hsuffix : ∀ s u g, eval skip call a l s = some (u, g) → gap skip l u <:+ s)
    (ha : Follows (trace skip traced a l negated) (eval skip call a l))
    (hb : Follows (trace skip traced b l negated) (eval skip call b l)) :
    Follows (trace skip traced (.both a b) l negated) (eval skip call (.both a b) l) := by
  intro s f
  obtain ⟨f', htrace, hnone, hmoves⟩ | ⟨u, g, f', htrace, hsome, hmoves⟩ := ha s f
  · exact .inl ⟨f', by rw [trace_both, htrace], by rw [eval, hnone], hmoves⟩
  · have hu := hsuffix s u g hsome
    obtain ⟨f'', htrace', hnone, hmoves'⟩ | ⟨s', g', f'', htrace', hsome', hmoves'⟩ :=
      hb (gap skip l u) f'
    · exact .inl ⟨f'', by rw [trace_both, htrace, ← htrace'], by simp only [eval, hsome, hnone],
        hmoves.trans hu hmoves'⟩
    · exact .inr ⟨s', g ++ g', f'', by rw [trace_both, htrace, ← htrace'],
        by simp only [eval, hsome, hsome'], hmoves.trans hu hmoves'⟩

/-- The second alternative is tried on the same text, with the record of the first. -/
theorem follows_either (ha : Follows (trace skip traced a l negated) (eval skip call a l))
    (hb : Follows (trace skip traced b l negated) (eval skip call b l)) :
    Follows (trace skip traced (.either a b) l negated) (eval skip call (.either a b) l) := by
  intro s f
  obtain ⟨f', htrace, hnone, hmoves⟩ | ⟨u, g, f', htrace, hsome, hmoves⟩ := ha s f
  · rw [trace_either, htrace, eval, hnone]
    obtain ⟨f'', htrace', hnone, hmoves'⟩ | ⟨s', g', f'', htrace', hsome', hmoves'⟩ := hb s f'
    · exact .inl ⟨f'', htrace', hnone, hmoves.trans (List.suffix_refl s) hmoves'⟩
    · exact .inr ⟨s', g', f'', htrace', hsome', hmoves.trans (List.suffix_refl s) hmoves'⟩
  · exact .inr ⟨u, g, f', by rw [trace_either, htrace], by rw [eval, hsome], hmoves⟩

theorem follows_opt (ha : Follows (trace skip traced a l negated) (eval skip call a l)) :
    Follows (trace skip traced (.opt a) l negated) (eval skip call (.opt a) l) := by
  intro s f
  obtain ⟨f', htrace, hnone, hmoves⟩ | ⟨u, g, f', htrace, hsome, hmoves⟩ := ha s f
  · exact .inr ⟨s, .nil, f', by rw [trace_opt, htrace], by rw [eval, hnone], hmoves⟩
  · exact .inr ⟨u, g, f', by rw [trace_opt, htrace], by rw [eval, hsome], hmoves⟩

/-- A round of a repetition begins behind the gap, and the record moves on in the text in
front of it. -/
theorem follows_round (hskip : ∀ s, skip s <:+ s)
    (ha : Follows (trace skip traced a l negated) (eval skip call a l)) :
    Follows (fun t => trace skip traced a l negated (gap skip l t))
      (fun t => eval skip call a l (gap skip l t)) := by
  intro s f
  obtain ⟨f', htrace, hnone, hmoves⟩ | ⟨u, g, f', htrace, hsome, hmoves⟩ := ha (gap skip l s) f
  · have hbehind := (Furthest.Moves.refl s f).trans (gap_suffix hskip l s) hmoves
    exact .inl ⟨f', htrace, hnone, hbehind⟩
  · have hbehind := (Furthest.Moves.refl s f).trans (gap_suffix hskip l s) hmoves
    exact .inr ⟨u, g, f', htrace, hsome, hbehind⟩

theorem follows_star (hskip : ∀ s, skip s <:+ s)
    (hsuffix : ∀ s u g, eval skip call a l s = some (u, g) → u <:+ s)
    (ha : Follows (trace skip traced a l negated) (eval skip call a l)) :
    Follows (trace skip traced (.star a) l negated) (eval skip call (.star a) l) := by
  have hrounds := traceMany_follows (follows_round hskip ha) fun s u g h =>
    (hsuffix _ u g h).trans (gap_suffix hskip l s)
  intro s f
  obtain ⟨f', htrace, hnone, hmoves⟩ | ⟨u, g, f', htrace, hsome, hmoves⟩ := ha s f
  · exact .inr ⟨s, .nil, f', by rw [trace_star, htrace], by rw [eval, hnone], hmoves⟩
  · obtain ⟨-, -, hnone, -⟩ | ⟨s', g', f'', htrace', hmany, hmoves'⟩ := hrounds u u f'
    · cases hnone
    · refine .inr ⟨s', g ++ g', f'', by rw [trace_star, htrace, ← htrace'], ?_,
        hmoves.trans (hsuffix s u g hsome) hmoves'⟩
      simp only [eval, hsome, Option.some.inj hmany]

theorem follows_ahead (ha : Follows (trace skip traced a l negated) (eval skip call a l)) :
    Follows (trace skip traced (.ahead a) l negated) (eval skip call (.ahead a) l) := by
  intro s f
  obtain ⟨f', htrace, hnone, hmoves⟩ | ⟨u, g, f', htrace, hsome, hmoves⟩ := ha s f
  · exact .inl ⟨f', by rw [trace_ahead, htrace], by rw [eval, hnone], hmoves⟩
  · exact .inr ⟨s, .nil, f', by rw [trace_ahead, htrace], by rw [eval, hsome], hmoves⟩

/-- What must not stand ahead is traced the other way round. -/
theorem follows_notAhead (ha : Follows (trace skip traced a l (!negated)) (eval skip call a l)) :
    Follows (trace skip traced (.notAhead a) l negated) (eval skip call (.notAhead a) l) := by
  intro s f
  obtain ⟨f', htrace, hnone, hmoves⟩ | ⟨u, g, f', htrace, hsome, hmoves⟩ := ha s f
  · exact .inr ⟨s, .nil, f', by rw [trace_notAhead, htrace], by rw [eval, hnone], hmoves⟩
  · exact .inl ⟨f', by rw [trace_notAhead, htrace], by rw [eval, hsome], hmoves⟩

/-- An expression is matched the same with and without the record, if rules are. -/
theorem trace_follows (hskip : ∀ s, skip s <:+ s)
    (hsuffix : ∀ r l s s' f, call r l s = some (s', f) → s' <:+ s)
    (hcall : ∀ r l negated, Follows (traced r l negated) (call r l)) (e : Expr R) (l : Layout)
    (negated : Bool) : Follows (trace skip traced e l negated) (eval skip call e l) := by
  have hleaves : ∀ a s u g, eval skip call a l s = some (u, g) → u <:+ s :=
    fun a s u g h => eval_suffix hskip hsuffix h
  induction e generalizing negated with
  | text word => exact follows_text word
  | char accepts => exact follows_char accepts
  | rule r => exact hcall r l negated
  | both a b iha ihb =>
      exact follows_both (fun s u g h => (gap_suffix hskip l u).trans (hleaves a s u g h))
        (iha negated) (ihb negated)
  | either a b iha ihb => exact follows_either (iha negated) (ihb negated)
  | opt a iha => exact follows_opt (iha negated)
  | star a iha => exact follows_star hskip (hleaves a) (iha negated)
  | ahead a iha => exact follows_ahead (iha negated)
  | notAhead a iha => exact follows_notAhead (iha (!negated))

end Expressions

variable {g : Grammar R}

/-- A rule is matched the same with and without the record. -/
theorem runTrace_follows (hg : g.Ranked) (d : Nat) (r : R) (l : Layout) (negated : Bool) :
    Follows (g.runTrace d r l negated) (g.run d r l) := by
  induction d generalizing r l negated with
  | zero => exact fun s f => .inl ⟨f, rfl, rfl, .refl s f⟩
  | succ d ih =>
      intro s f
      have hbody := trace_follows (Trivia.skip_suffix hg.lawful)
        (fun _ _ _ _ _ h => (run_rest hg h).1) ih (g.body r) (l.inside (g.layout r)) negated
      obtain ⟨f', htrace, hnone, hmoves⟩ | ⟨u, g', f', htrace, hsome, hmoves⟩ := hbody s f
      · have hrun : g.run (d + 1) r l s = none := by rw [run, hnone]
        rw [runTrace, htrace]
        dsimp only
        split
        · exact .inl ⟨_, rfl, hrun, hmoves.enter r negated⟩
        · exact .inl ⟨f', rfl, hrun, hmoves⟩
      · have hrun : g.run (d + 1) r l s = some (u, g.record r l s u g') :=
          run_eq_some.2 ⟨d, g', rfl, hsome, rfl⟩
        rw [runTrace, htrace]
        dsimp only
        split
        · exact .inr ⟨u, _, _, rfl, hrun, hmoves.enter r negated⟩
        · exact .inr ⟨u, _, f', rfl, hrun, hmoves⟩

/-- The furthest place lies in the text. -/
theorem furthest_suffix (hg : g.Ranked) (entry : R) (s : List Char) :
    (g.furthest entry s).rest <:+ s := by
  have hmoves : ∀ f' : Furthest R, Furthest.Moves s ⟨s, [], []⟩ f' → f'.rest <:+ s := by
    rintro f' (hrest | ⟨hrest, -⟩)
    · exact hrest ▸ List.suffix_refl s
    · exact hrest
  rw [furthest]
  obtain ⟨f', htrace, -, h⟩ | ⟨u, g', f', htrace, -, h⟩ :=
    runTrace_follows hg (g.depth s) entry .spaced false s ⟨s, [], []⟩
  · rw [htrace]
    exact hmoves f' h
  · rw [htrace]
    exact hmoves f' h

/-- The report points between two characters of the text. -/
theorem mismatch_offset [BEq R] (hg : g.Ranked) (label : R → String) (entry : R)
    (s : List Char) : ∃ rest, rest <:+ s ∧ (g.mismatch label entry s).offset = Text.offset s rest :=
  ⟨_, furthest_suffix hg entry s, rfl⟩

end Grammar

namespace Mismatch

theorem suffix_append (s t : String) : t.toList <:+ (s ++ t).toList := by
  rw [String.toList_append]
  exact List.suffix_append s.toList t.toList

theorem intercalate_concat (sep : List Char) (words : List (List Char)) (last : List Char) :
    last <:+ sep.intercalate (words ++ [last]) := by
  induction words with
  | nil => exact ⟨[], (List.intercalate_singleton ..).symm⟩
  | cons word words ih =>
      obtain ⟨next, rest, hrest⟩ :=
        List.exists_cons_of_ne_nil
          (List.append_ne_nil_of_right_ne_nil words (List.cons_ne_nil last []))
      rw [List.cons_append, hrest, List.intercalate_cons_cons, ← hrest]
      exact ih.trans (List.suffix_append _ _)

/-- Names in a row are a single name, or end in one behind `or`. -/
theorem enumerate_ends {names : List String} (h : names ≠ []) :
    ∃ name ∈ names, enumerate names = name ∨
      ("or " ++ name).toList <:+ (enumerate names).toList := by
  match names with
  | [a] => exact ⟨a, List.mem_singleton.2 rfl, .inl rfl⟩
  | [a, b] =>
      refine ⟨b, by simp, .inr ?_⟩
      rw [enumerate, String.append_assoc]
      exact ⟨(a ++ " ").toList, by simp⟩
  | a :: b :: c :: names =>
      obtain ⟨last, hlast⟩ := Option.isSome_iff_exists.1
        (show (a :: b :: c :: names).getLast?.isSome = true by simp)
      refine ⟨last, List.mem_of_getLast? hlast, .inr ?_⟩
      rw [enumerate, hlast, Option.getD_some, String.toList_intercalate, List.map_append]
      · exact intercalate_concat _ _ _
      all_goals simp

/-- What a sentence about some names can end in. -/
def endings (names : List String) : List (List Char) :=
  "unknown parsing error".toList ::
    names.flatMap fun name => ["ed ".toList ++ name.toList, "or ".toList ++ name.toList]

theorem mem_endings {names : List String} {name : String} (h : name ∈ names) :
    "ed ".toList ++ name.toList ∈ endings names ∧
      "or ".toList ++ name.toList ∈ endings names := by
  refine ⟨List.mem_cons_of_mem _ (List.mem_flatMap.2 ⟨name, h, ?_⟩),
    List.mem_cons_of_mem _ (List.mem_flatMap.2 ⟨name, h, ?_⟩)⟩
  · exact List.mem_cons_self
  · exact List.mem_cons_of_mem _ List.mem_cons_self

/-- The sentence ends in one of some names, behind a word that announces it. -/
def EndsIn (names : List String) (sentence : String) : Prop :=
  ∃ ending ∈ endings names, ending <:+ sentence.toList

theorem EndsIn.behind {names : List String} {sentence : String} (h : EndsIn names sentence)
    (front : String) : EndsIn names (front ++ sentence) := by
  obtain ⟨ending, hending, hends⟩ := h
  exact ⟨ending, hending, hends.trans (suffix_append front sentence)⟩

theorem EndsIn.mono {names names' : List String} {sentence : String} (h : EndsIn names sentence)
    (hsub : names ⊆ names') : EndsIn names' sentence := by
  obtain ⟨ending, hending, hends⟩ := h
  refine ⟨ending, ?_, hends⟩
  rcases List.mem_cons.1 hending with rfl | hending
  · exact List.mem_cons_self
  · obtain ⟨name, hname, hmem⟩ := List.mem_flatMap.1 hending
    exact List.mem_cons_of_mem _ (List.mem_flatMap.2 ⟨name, hsub hname, hmem⟩)

theorem EndsIn.enumerate {names : List String} (h : names ≠ []) :
    EndsIn names ("ed " ++ Mismatch.enumerate names) := by
  obtain ⟨name, hname, heq | hends⟩ := enumerate_ends h
  · exact ⟨_, (mem_endings hname).1, [], by rw [heq, String.toList_append, List.nil_append]⟩
  · rw [String.toList_append] at hends
    exact ⟨_, (mem_endings hname).2, hends.trans (suffix_append _ _)⟩

/-- The sentence of a report ends in the name of a rule that was tried, if any
was. -/
theorem message_ends (m : Mismatch) : EndsIn (m.unexpected ++ m.expected) m.message := by
  obtain ⟨offset, expected, unexpected⟩ := m
  -- Both words that announce names end alike.
  have hannounce : ∀ {names : List String}, names ≠ [] →
      EndsIn names ("expected " ++ Mismatch.enumerate names) ∧
        EndsIn names ("unexpected " ++ Mismatch.enumerate names) := by
    intro names h
    have hends := EndsIn.enumerate h
    constructor
    · have hexpected := hends.behind "expect"
      rwa [← String.append_assoc] at hexpected
    · have hunexpected := hends.behind "unexpect"
      rwa [← String.append_assoc] at hunexpected
  match unexpected, expected with
  | [], [] => exact ⟨_, List.mem_cons_self, List.suffix_refl _⟩
  | [], e :: expected => exact (hannounce (List.cons_ne_nil e expected)).1
  | u :: unexpected, [] =>
      rw [List.append_nil]
      exact (hannounce (List.cons_ne_nil u unexpected)).2
  | u :: unexpected, e :: expected =>
      have hassoc : ∀ a b : String, a ++ "; expected " ++ b = a ++ "; " ++ ("expected " ++ b) := by
        intro a b
        rw [← String.append_assoc, (String.append_assoc : a ++ "; " ++ "expected " = _)]
        rfl
      have hends := (hannounce (List.cons_ne_nil e expected)).1.behind
        ("unexpected " ++ Mismatch.enumerate (u :: unexpected) ++ "; ")
      rw [← hassoc] at hends
      exact hends.mono (List.subset_append_right _ _)

end Mismatch

namespace Grammar

variable {R : Type} [BEq R] {g : Grammar R}

/-- The sentence of a report ends in the name of a rule of the grammar, if any was
tried. -/
theorem mismatch_message (label : R → String) (entry : R) (s : List Char) :
    Mismatch.EndsIn (g.rules.map label) (g.mismatch label entry s).message := by
  refine (Mismatch.message_ends _).mono (List.append_subset.2 ⟨?_, ?_⟩) <;>
    exact List.map_subset label fun _ hr => (List.mem_filter.1 hr).1

end Grammar

end FeatureTree
