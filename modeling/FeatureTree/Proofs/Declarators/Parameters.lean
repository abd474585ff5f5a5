import FeatureTree.Proofs.Declarators.Outline

/-!
# Lists of parameters

A parameter is written as its type, brackets and its name, and a list of them with commas in
between and parentheses around. In Java and C# the list is read by one and the same expression,
so what has to be known of a language is only that it reads one parameter (`ReadsParameters`).

The method that is made of such a list is written with one blank wherever a blank is needed, and
with a blank behind each comma.
-/

namespace FeatureTree

open scoped Tokens

/-- The parameters of a list, by their names. -/
def Outline.ofParameters (names : List (List Char)) : Outline := ⟨[], names.map some, []⟩

/-- A name, parameters and a block. -/
def Outline.ofMember (name : List Char) (parameters : List (List Char)) (block : List Char) : Outline :=
  ⟨[name], parameters.map some, [block]⟩

theorem Outline.ofMember_eq (name : List Char) (parameters : List (List Char)) (block : List Char) :
    ofMember name parameters block =
      ⟨[name], [], []⟩ ++ (ofParameters parameters ++ ⟨[], [], [block]⟩) := by
  simp [ofMember, ofParameters, append_def]

/-- A parameter: its type is the type of integers or a name, with brackets behind it. -/
structure Parameter (isName : List Char → Bool) where
  type : List Char
  isType : type = "int".toList ∨ isName type = true
  ranks : Nat
  name : { w : List Char // isName w = true }

/-- The tokens of so many brackets. -/
def rankTokens : Nat → List (List Char)
  | 0 => []
  | n + 1 => ['['] :: [']'] :: rankTokens n

/-- So many brackets. -/
def rankText : Nat → List Char
  | 0 => []
  | n + 1 => '[' :: ']' :: rankText n

namespace Parameter

variable {isName : List Char → Bool}

/-- The tokens of a parameter. -/
def tokens (p : Parameter isName) : List (List Char) :=
  (p.type :: rankTokens p.ranks) ++ [p.name.1]

/-- The parameter as it is written. -/
def text (p : Parameter isName) : List Char := p.type ++ (rankText p.ranks ++ ' ' :: p.name.1)

end Parameter

/-- The tokens behind the first parameter. -/
def moreParameters {α : Type} (spell : α → List (List Char)) (ps : List α) : List (List Char) :=
  ps.flatMap fun p => [','] :: spell p

/-- The tokens between the parentheses. -/
def parameterTokens {α : Type} (spell : α → List (List Char)) : List α → List (List Char)
  | [] => []
  | p :: ps => spell p ++ moreParameters spell ps

/-- The tokens of a list of parameters with its parentheses. -/
def listTokens {α : Type} (spell : α → List (List Char)) (ps : List α) : List (List Char) :=
  ['('] :: (parameterTokens spell ps ++ [[')']])

/-- Behind a parameter stands a comma or a parenthesis. -/
theorem moreParameters_follows {α : Type} (spell : α → List (List Char)) (ps : List α)
    (rest : List (List Char)) :
    ∃ c ∈ [',', ')'], ∃ more, moreParameters spell ps ++ [')'] :: rest = [c] :: more := by
  cases ps with
  | nil => exact ⟨')', by decide, rest, rfl⟩
  | cons q qs => exact ⟨',', by decide, _, rfl⟩

/-! ## Reading -/

namespace SnippetGrammar

open Grammar

variable {R α : Type} {g : SnippetGrammar R} {isWordChar : Char → Bool} {parameter : R}
  {rest : List (List Char)} {spell : α → List (List Char)} {name : α → List Char}

theorem isToken_comma : IsToken [','] := ⟨',', [], rfl, by decide⟩

theorem isToken_close : IsToken [')'] := ⟨')', [], rfl, by decide⟩

/-- Parameters with commas between them in parentheses. -/
def parameterList (parameter : R) : Expr R :=
  .seq ["(", .opt (.seq [.rule parameter, .star (.seq [",", .rule parameter])]), ")"]

/-- A parameter ends in front of a comma or of the parenthesis that closes the list. -/
def ReadsParameters (g : SnippetGrammar R) (isWordChar : Char → Bool) (parameter : R)
    (spell : α → List (List Char)) (name : α → List Char) : Prop :=
  ∀ p, ∀ c ∈ [',', ')'], ∀ rest,
    g.Reads isWordChar (.rule parameter) (spell p) (.ofParameters [name p]) ([c] :: rest)

variable (hg : g.Spaced) (hp : g.ReadsParameters isWordChar parameter spell name)

include hg hp

/-- The rounds behind the first parameter. -/
theorem ReadsParameters.rounds (ps : List α) (rest : List (List Char)) :
    ∀ ⦃s s' : List Char⦄, Spelled isWordChar (moreParameters spell ps ++ [')'] :: rest) s →
      g.between .spaced s' = g.between .spaced s →
      ∃ t u f, Spelled isWordChar ([')'] :: rest) t ∧
        g.Rounds (.seq [",", .rule parameter]) .spaced s' u f ∧
        g.between .spaced u = g.between .spaced t ∧ g.outline f = .ofParameters (ps.map name) := by
  induction ps with
  | nil => exact fun s s' hs hsame => ⟨s, s', .nil, hs, .none s', hsame, rfl⟩
  | cons p ps ih =>
      intro s s' hs hsame
      obtain ⟨c, hc, more, hmore⟩ := moreParameters_follows spell ps rest
      have hround : g.Reads isWordChar (.seq [",", .rule parameter]) ([[',']] ++ spell p)
          (.empty ++ .ofParameters [name p]) ([c] :: more) :=
        Reads.both ((takes_text hg isToken_comma).reads hg fun _ hr => nomatch hr) (hp p c hc more)
      have htokens : moreParameters spell (p :: ps) ++ [')'] :: rest =
          ([[',']] ++ spell p) ++ [c] :: more := by
        rw [← hmore, moreParameters, List.flatMap_cons, List.append_assoc]
        rfl
      rw [htokens] at hs
      obtain ⟨t, u, f, ht, hmatch, hbetween, hf⟩ := hround hs
      rw [← hmore] at ht
      obtain ⟨t', u', f', ht', hrounds, hbetween', hf'⟩ := ih ht hbetween
      refine ⟨t', u', f ++ f', ht', .more (by rw [hsame]; exact hmatch) hrounds, hbetween', ?_⟩
      rw [outline_append, hf, hf']
      rfl

/-- A list of parameters is read in order. -/
theorem ReadsParameters.list
    (hclose : ∀ rest, g.Refuses isWordChar (.rule parameter) ([')'] :: rest)) (ps : List α) :
    g.Reads isWordChar (parameterList parameter) (listTokens spell ps)
      (.ofParameters (ps.map name)) rest := by
  have hopen : g.Reads isWordChar (.text ['(']) [['(']] .empty
      ((parameterTokens spell ps ++ [[')']]) ++ rest) :=
    (takes_text hg ⟨'(', [], rfl, by decide⟩).reads hg fun _ hr => nomatch hr
  have hend : g.Reads isWordChar (.text [')']) [[')']] .empty rest :=
    (takes_text hg isToken_close).reads hg fun _ hr => nomatch hr
  have hmiddle : g.Reads isWordChar (.opt (.seq [.rule parameter,
      .star (.seq [",", .rule parameter])])) (parameterTokens spell ps)
      (.ofParameters (ps.map name)) ([[')']] ++ rest) := by
    cases ps with
    | nil => exact Refuses.reads_opt hg (hclose rest).both
    | cons p ps =>
        obtain ⟨c, hc, more, hmore⟩ := moreParameters_follows spell ps rest
        have hmany : g.Reads isWordChar (.star (.seq [",", .rule parameter]))
            (moreParameters spell ps) (.ofParameters (ps.map name)) ([')'] :: rest) := by
          intro s hs
          obtain ⟨t, u, f, ht, hrounds, hsame, hf⟩ :=
            ReadsParameters.rounds hg hp ps rest hs (between_between hg.ranked)
          have hstop : g.Refuses isWordChar (.seq [",", .rule parameter]) ([')'] :: rest) :=
            (refuses_text hg isToken_close (by decide) []).both
          exact ⟨t, u, f, ht, matchExpr_star hg.ranked rfl (between_between hg.ranked) hrounds
            (by rw [hsame]; exact hstop ht), hsame, hf⟩
        have hfirst := hp p c hc more
        rw [← hmore] at hfirst
        exact (hfirst.both hmany).opt
  have hlist := hopen.both (hmiddle.both hend)
  rwa [Outline.append_empty, Outline.empty_append] at hlist

end SnippetGrammar

/-! ## Writing -/

/-- A block with a blank in it. -/
def emptyBlock : List Char := ['\x7b', ' ', '\x7d']

/-- A modifier, a result, a name, parameters in parentheses and a block. -/
def memberText {isName : List Char → Bool} (modifier result name : List Char)
    (ps : List (Parameter isName)) (block : List Char) : List Char :=
  modifier ++ ' ' :: (result ++ ' ' :: (name ++ '(' ::
    ([',', ' '].intercalate (ps.map Parameter.text) ++ ')' :: ' ' :: block)))

/-- The tokens of these parts. The block is one token. -/
def memberTokens {isName : List Char → Bool} (modifier result name : List Char)
    (ps : List (Parameter isName)) (block : List Char) : List (List Char) :=
  [modifier, result, name] ++ (listTokens Parameter.tokens ps ++ [block])

theorem memberText_append {isName : List Char → Bool} (modifier result name : List Char)
    (ps : List (Parameter isName)) (block trail : List Char) :
    memberText modifier result name ps (block ++ trail) =
      memberText modifier result name ps block ++ trail := by
  simp only [memberText, List.append_assoc, List.cons_append]

section Spelling

variable {isName : List Char → Bool} {isWordChar : Char → Bool} {tokens : List (List Char)}
  {gap s lead : List Char} {c : Char}
  (hsigns : ∀ c ∈ " ()[],".toList, isWordChar c = false)

include hsigns

theorem spelled_ranks (hs : Spelled isWordChar tokens s) (n : Nat) :
    Spelled isWordChar (rankTokens n ++ tokens) (rankText n ++ s) := by
  induction n with
  | zero => exact hs
  | succ n ih =>
      exact .cons_sign [] nofun (hsigns '[' (by decide))
        (.cons_sign [] nofun (hsigns ']' (by decide)) ih)

theorem spelled_parameter (p : Parameter isName) (hgap : ∀ c ∈ gap, c ∈ Text.spaces)
    (hc : isWordChar c = false) (hs : Spelled isWordChar tokens (c :: s)) :
    Spelled isWordChar (p.tokens ++ tokens) (gap ++ (p.text ++ c :: s)) := by
  have hname : Spelled isWordChar (p.name.1 :: tokens) (' ' :: (p.name.1 ++ c :: s)) :=
    .cons_before [' '] (by decide) hc hs
  have hranks := spelled_ranks hsigns hname p.ranks
  have hsign : ∃ d v, rankText p.ranks ++ ' ' :: (p.name.1 ++ c :: s) = d :: v ∧
      isWordChar d = false := by
    cases p.ranks with
    | zero => exact ⟨' ', _, rfl, hsigns ' ' (by decide)⟩
    | succ n => exact ⟨'[', _, rfl, hsigns '[' (by decide)⟩
  obtain ⟨d, v, hv, hd⟩ := hsign
  have htext : p.text ++ c :: s = p.type ++ (rankText p.ranks ++ ' ' :: (p.name.1 ++ c :: s)) := by
    simp [Parameter.text]
  have htokens : p.tokens ++ tokens = p.type :: (rankTokens p.ranks ++ p.name.1 :: tokens) := by
    simp [Parameter.tokens]
  rw [htext, htokens, hv]
  rw [hv] at hranks
  exact .cons_before gap hgap hd hranks

/-- The parameters between the parentheses, with a blank behind each comma. -/
theorem spelled_parameters (hs : Spelled isWordChar tokens s) (ps : List (Parameter isName)) :
    Spelled isWordChar (parameterTokens Parameter.tokens ps ++ [')'] :: tokens)
      ([',', ' '].intercalate (ps.map Parameter.text) ++ ')' :: s) := by
  have hclose : Spelled isWordChar ([')'] :: tokens) (')' :: s) :=
    .cons_sign [] nofun (hsigns ')' (by decide)) hs
  -- All parameters but the first stand behind a blank.
  have hmore : ∀ (ps : List (Parameter isName)) (p : Parameter isName) (gap : List Char),
      (∀ c ∈ gap, c ∈ Text.spaces) →
      Spelled isWordChar (p.tokens ++ (moreParameters Parameter.tokens ps ++ [')'] :: tokens))
        (gap ++ ([',', ' '].intercalate ((p :: ps).map Parameter.text) ++ ')' :: s)) := by
    intro ps
    induction ps with
    | nil =>
        intro p gap hgap
        rw [List.map_cons, List.map_nil, List.intercalate_singleton]
        exact spelled_parameter hsigns p hgap (hsigns ')' (by decide)) hclose
    | cons q qs ih =>
        intro p gap hgap
        have hcomma : Spelled isWordChar ([','] :: (q.tokens ++ (moreParameters Parameter.tokens qs ++
            [')'] :: tokens))) (',' :: (' ' :: ([',', ' '].intercalate
              ((q :: qs).map Parameter.text) ++ ')' :: s))) :=
          .cons_sign [] nofun (hsigns ',' (by decide)) (ih q [' '] (by decide))
        have htext : [',', ' '].intercalate ((p :: q :: qs).map Parameter.text) ++ ')' :: s =
            p.text ++ ',' :: (' ' :: ([',', ' '].intercalate
              ((q :: qs).map Parameter.text) ++ ')' :: s)) := by
          rw [List.map_cons, List.map_cons, List.intercalate_cons_cons, ← List.map_cons]
          simp
        have htokens : moreParameters Parameter.tokens (q :: qs) ++ [')'] :: tokens =
            [','] :: (q.tokens ++ (moreParameters Parameter.tokens qs ++ [')'] :: tokens)) := by
          rw [moreParameters, List.flatMap_cons, moreParameters]
          simp
        rw [htext, htokens]
        exact spelled_parameter hsigns p hgap (hsigns ',' (by decide)) hcomma
  cases ps with
  | nil => exact hclose
  | cons p ps =>
      rw [parameterTokens, List.append_assoc]
      exact hmore ps p [] nofun

theorem spelled_member (modifier result name block : List Char) (ps : List (Parameter isName))
    (hlead : ∀ c ∈ lead, c ∈ Text.spaces) :
    Spelled isWordChar (memberTokens modifier result name ps block)
      (lead ++ memberText modifier result name ps block) := by
  have hblock : Spelled isWordChar [block] (' ' :: block) := by
    have hlast : Spelled isWordChar [block] ([' '] ++ (block ++ [])) :=
      .cons (by decide) (fun _ _ d hd => absurd hd (Option.not_mem_none d)) .nil
    rwa [List.append_nil] at hlast
  have hlist : Spelled isWordChar (listTokens Parameter.tokens ps ++ [block])
      ('(' :: ([',', ' '].intercalate (ps.map Parameter.text) ++ ')' :: ' ' :: block)) := by
    rw [listTokens, List.cons_append, List.append_assoc]
    exact .cons_sign [] nofun (hsigns '(' (by decide)) (spelled_parameters hsigns hblock ps)
  exact .cons_before lead hlead (hsigns ' ' (by decide))
    (.cons_before [' '] (by decide) (hsigns ' ' (by decide))
      (.cons_before [' '] (by decide) (hsigns '(' (by decide)) hlist))

end Spelling

end FeatureTree
