import FeatureTree.Proofs.Declarators.Lists

/-!
# Type arguments inside an initializer

Angle brackets are no groups, so at each comma between type arguments the boundary looks for a
declarator. What it looks for is a name and one of three signs. Behind the last argument there is
the angle bracket, so the comma in front of it is passed over (`isInitializer_comma`). Behind the
others there is a comma, so each of them looks like a declarator, and with three arguments or more
the initializer ends in front of the second one.

The arguments from there on are then read as declarators without values (`takes_arguments`), and
the list of declarators ends in front of the angle bracket, where there should be its semicolon
(`match_none_of_arguments`).
-/

namespace FeatureTree

open scoped Tokens

/-- The type arguments behind the first one, each behind its comma. -/
def moreArguments (args : List (List Char)) : List Char := args.flatMap (", ".toList ++ ·)

/-- A new object of a class with type arguments. -/
def creation (w arg : List Char) (args : List (List Char)) : List Char :=
  "new ".toList ++ (w ++ '<' :: (arg ++ (moreArguments args ++ ">()".toList)))

/-- The text means nothing to an initializer. -/
def Unmarked (w : List Char) : Prop :=
  ∀ c ∈ w, isPlain c = true ∧ c ∉ [',', ';', '"', '\'', '/', '#', '\\']

namespace Unmarked

variable {v w : List Char}

theorem append (hv : Unmarked v) (hw : Unmarked w) : Unmarked (v ++ w) :=
  List.forall_mem_append.2 ⟨hv, hw⟩

theorem balanced (hw : Unmarked w) : Balanced false w :=
  .of_plain fun c hc =>
    ⟨(hw c hc).1, .inr fun hmem => (hw c hc).2 (List.mem_append_left ['"', '\'', '/', '#', '\\'] hmem)⟩

theorem clear (hw : Unmarked w) : ∀ c ∈ w, c ∉ ['"', '\'', '/', '#', '\\'] :=
  fun c hc hmem => (hw c hc).2 (List.mem_append_right [',', ';'] hmem)

/-- Characters of a class are unmarked if no mark is in the class. -/
theorem of_class (p : Char → Bool)
    (h : ∀ d ∈ ['(', ')', '[', ']', '\x7b', '\x7d', '"', '\'', ',', ';', '/', '#', '\\'], p d = false)
    (hw : ∀ c ∈ w, p c = true) : Unmarked w := by
  refine fun c hc => ⟨isPlain_of_class p (fun d hd => h d ?_) (hw c hc),
    Grammar.not_mem_of_class p (fun d hd => h d ?_) (hw c hc)⟩
  · exact List.mem_append_left [',', ';', '/', '#', '\\'] hd
  · simp only [List.mem_cons, List.not_mem_nil, or_false] at hd ⊢
    tauto

end Unmarked

section Creations

variable {w v : List Char}

/-- The end of a creation behind the last of its type arguments. -/
theorem balanced_end (hw : Unmarked w) :
    Balanced false (w ++ ">()".toList) ∧ (∀ c ∈ w ++ ">()".toList, c ∉ ['"', '\'', '/', '#', '\\']) ∧
      ∀ c ∈ (w ++ ">()".toList).getLast?, Text.isBlank c = false := by
  have hend : Balanced false ('>' :: '(' :: ([] ++ ')' :: [])) :=
    .char (by decide) (.inr (by decide)) (.group .paren .nil .nil)
  refine ⟨hw.balanced.append hend, List.forall_mem_append.2 ⟨hw.clear, by decide⟩, ?_⟩
  intro c hc
  rw [List.getLast?_append] at hc
  obtain rfl : ')' = c := Option.some.inj hc
  decide

/-- The beginning of a creation up to its first type argument is unmarked. -/
theorem unmarked_begin {arg : List Char} (hw : Unmarked w) (harg : Unmarked arg) :
    Unmarked ("new ".toList ++ (w ++ '<' :: arg)) := by
  have hnew : Unmarked "new ".toList := by
    intro c hc
    revert c
    decide
  exact hnew.append (hw.append (List.forall_mem_cons.2 ⟨by decide, harg⟩))

end Creations

namespace SnippetGrammar

open Grammar

variable {R : Type} {g : SnippetGrammar R} {isWordChar : Char → Bool} {group : Bracket → R}
  {piece boundary initPiece init declarator : R} {head front : Expr R} {literals : List R}
  {isName : List Char → Bool} {fronts rest : List (List Char)} {args : List (List Char)}
  {arg s v w x y z : List Char}

/-- A text goes on over a comma behind which the boundary sees nothing. -/
theorem ReadsValues.isInitializer_comma
    (hr : g.ReadsValues group piece literals boundary initPiece) (hv : IsValue v)
    (hw : Balanced false w) (hclear : ∀ c ∈ w, c ∉ ['"', '\'', '/', '#', '\\'])
    (hne : w ≠ []) (hlast : ∀ c ∈ w.getLast?, Text.isBlank c = false)
    (hnone : ∀ s, g.leaves (.rule boundary) (',' :: (w ++ s)) = none) :
    g.IsInitializer boundary initPiece (v ++ ',' :: w) := by
  have hinit := hr.isInitializer hv
  have hsign : ∀ c ∈ ['/', '#', '\\'], c ≠ ',' ∧ c ∈ ['"', '\'', '/', '#', '\\'] := by decide
  refine ⟨?_, List.forall_mem_append.2 ⟨hinit.clear, List.forall_mem_cons.2 ⟨by decide, ?_⟩⟩, ?_, ?_⟩
  · obtain ⟨c, u, rfl, hc⟩ := hinit.isToken
    exact ⟨c, _, rfl, hc⟩
  · exact fun c hc hmem => hclear c hc (hsign c hmem).2
  · rwa [List.getLast?_append_cons, List.getLast?_cons_of_ne_nil hne]
  · intro s hs
    have hcomma : g.leaves (initializerRound boundary initPiece) (',' :: (w ++ s)) =
        some (w ++ s) := by
      rw [leaves_round_of_not_atEnd, hr.leaves_initPiece, hr.leaves_piece_sign (by decide)]
      · rfl
      · rintro (⟨u, hu⟩ | hend)
        · cases hu
        · rw [hnone s] at hend
          cases hend
    have hcalm : IsCalm (',' :: (w ++ s)) := by
      rintro _ ⟨⟩
      decide
    rw [List.append_assoc, List.cons_append, hinit.leaves _ hcalm,
      leaves_star_of_some hr.ranked hr.consumes_round hcomma]
    refine hr.leaves_pieces hw (fun c hc hmem => hclear c hc ?_) hs hr.consumes_round ?_
    · exact List.mem_append_left ['#', '\\'] hmem
    · rintro c s (hinside | hfree)
      · cases hinside
      · exact hr.leaves_round hfree s

/-- Names are declared as they are written. As text of an initializer they are unmarked, and the
boundary sees no declarator in one with an angle bracket behind it. -/
structure ReadsNames (g : SnippetGrammar R) (isWordChar : Char → Bool) (piece boundary : R)
    (head : Expr R) (isName : List Char → Bool) : Prop where
  spelling : g.Spelling isWordChar piece boundary head
    (fun w : { w : List Char // isName w = true } => [w.1]) (·.1) fun _ => true
  isToken : ∀ {w}, isName w = true → IsToken w
  solid : ∀ {w}, isName w = true → ∀ c ∈ w, Text.isBlank c = false
  unmarked : ∀ {w}, isName w = true → Unmarked w
  takes_angle : ∀ {w}, isName w = true → ∀ z rest,
    g.Takes isWordChar head [w] [w] (('>' :: z) :: rest)
  boundary_angle : ∀ {w}, isName w = true → ∀ s,
    g.leaves (.rule boundary) (',' :: ' ' :: (w ++ '>' :: s)) = none

namespace ReadsNames

variable (hn : g.ReadsNames isWordChar piece boundary head isName)

include hn

theorem isValue_begin (hw : isName w = true) (harg : isName arg = true) :
    IsValue ("new ".toList ++ (w ++ '<' :: arg)) := by
  have hunmarked := unmarked_begin (hn.unmarked hw) (hn.unmarked harg)
  refine ⟨hunmarked.balanced, hunmarked.clear, List.cons_ne_nil 'n' _, by rintro _ ⟨⟩; rfl, ?_⟩
  intro c hc
  rw [List.getLast?_append_of_ne_nil _ (by simp), List.getLast?_append_cons] at hc
  rcases List.mem_cons.1 (List.mem_of_getLast? hc) with rfl | hmem
  · rfl
  · exact hn.solid harg c hmem

/-- With one or two type arguments a creation is an initializer. -/
theorem isInitializer_creation (hr : g.ReadsValues group piece literals boundary initPiece)
    (hw : isName w = true) (harg : isName arg = true) (hargs : ∀ b ∈ args, isName b = true)
    (hlen : args.length ≤ 1) : g.IsInitializer boundary initPiece (creation w arg args) := by
  match args with
  | [] =>
      obtain ⟨hbalanced, hclear, hlast⟩ :=
        balanced_end (unmarked_begin (hn.unmarked hw) (hn.unmarked harg))
      have hcreation : creation w arg [] = ("new ".toList ++ (w ++ '<' :: arg)) ++ ">()".toList := by
        simp [creation, moreArguments]
      rw [hcreation]
      refine hr.isInitializer ⟨hbalanced, hclear, List.cons_ne_nil 'n' _, ?_, hlast⟩
      rintro _ ⟨⟩
      rfl
  | [b] =>
      have hb := hargs b (List.mem_singleton_self b)
      have hblank : Unmarked [' '] := by
        intro c hc
        revert c
        decide
      obtain ⟨hbalanced, hclear, hlast⟩ := balanced_end (hblank.append (hn.unmarked hb))
      have hcreation : creation w arg [b] =
          ("new ".toList ++ (w ++ '<' :: arg)) ++ ',' :: ([' '] ++ b ++ ">()".toList) := by
        simp [creation, moreArguments]
      rw [hcreation]
      refine hr.isInitializer_comma (hn.isValue_begin hw harg) hbalanced hclear
        (List.cons_ne_nil ' ' _) hlast fun s => ?_
      rw [List.append_assoc, List.append_assoc]
      exact hn.boundary_angle hb _
  | _ :: _ :: _ => simp at hlen

end ReadsNames

namespace ReadsDeclarators

variable (hr : g.ReadsDeclarators group piece literals boundary initPiece init declarator head)

include hr

/-- A name is a declarator without a value if no equals sign follows it. -/
theorem takes_declarator {token : List Char} (htoken : IsToken token)
    (hw : g.Takes isWordChar head [w] [w] (token :: rest)) (hne : ∀ c ∈ token.head?, c ≠ '=') :
    g.Takes isWordChar (.rule declarator) [w] [] (token :: rest) := by
  have hvalue : g.Refuses isWordChar "=" (token :: rest) := refuses_text hr.spaced htoken hne []
  have hbody : g.Takes isWordChar (.both head (valuePart init)) [w] [w] (token :: rest) :=
    hw.both (hvalue.both.opt hr.spaced)
  have hbody' : g.Takes isWordChar (g.body declarator) [w] [w] (token :: rest) := by
    intro s hs
    rw [hr.body_declarator]
    exact hbody hs
  exact hbody'.node hr.spaced hr.layout_declarator hr.role_declarator

variable (hn : g.ReadsNames isWordChar piece boundary head isName)

include hn

/-- With one or two type arguments both names are declared, the first with the creation. -/
theorem match_creation (hfront : g.Takes isWordChar front fronts []
      (x :: ['='] :: creation w arg args :: [[','], y, [';']]))
    (hquiet : ∀ ⦃s t f⦄, g.matchExpr front .spaced s = some (t, f) → g.declared f = [])
    (hx : isName x = true) (hy : isName y = true) (hw : isName w = true) (harg : isName arg = true)
    (hargs : ∀ b ∈ args, isName b = true) (hlen : args.length ≤ 1)
    (hs : Spelled isWordChar (fronts ++ (x :: ['='] :: creation w arg args :: [[','], y, [';']])) s) :
    ∃ f, g.matchExpr (.both front (.seq [.rule declarator, .star (more declarator), ";"])) .spaced
        (g.between .spaced s) = some ([], f) ∧
      g.views f = [(some x, some (creation w arg args)), (some y, none)] := by
  have hinit := hn.isInitializer_creation hr.toReadsValues hw harg hargs hlen
  obtain ⟨t, u, f, ht, hmatch, hsame, -, -⟩ := hfront hs
  obtain ⟨t', ht', hdeclares⟩ := hr.declares_value_before (hn.spelling.heads ⟨x, hx⟩) hinit (.inl rfl) ht
  obtain ⟨z, hz, hrest⟩ := hr.between_sign (by decide) ht'
  have hend : g.AtEnd boundary (g.between .spaced t') := by
    rw [hz]
    exact .inr (hn.spelling.sees ⟨y, hy⟩ rfl (c := ';') (by decide) hrest)
  obtain ⟨value, hfirst, hvalue⟩ := hdeclares _ (hr.reaches_of_atEnd true hend)
  let d : Declarator { w : List Char // isName w = true } := ⟨⟨y, hy⟩, none⟩
  have hlast : Spelled isWordChar (Declarator.moreTokens (fun w => [w.1]) [d]) t' := ht'
  obtain ⟨_, views, rfl, hcontinues, ⟨-, hviews⟩, -⟩ := hr.continues hn.spelling hlast false
  obtain ⟨f', hmatch', hviews'⟩ := match_list hr.ranked hfirst hcontinues
  refine ⟨f ++ f', matchExpr_both hmatch (by rw [hsame]; exact hmatch'), ?_⟩
  rw [views_append, hviews', SnippetGrammar.views, hquiet hmatch, hviews fun _ _ => rfl, hvalue rfl]
  rfl

/-- Type arguments are taken as declarators. -/
theorem takes_arguments (hargs : ∀ b ∈ args, isName b = true) :
    g.TakesRounds isWordChar (more declarator) (('>' :: z) :: rest)
      (args.flatMap fun b => [[','], b]) := by
  induction args with
  | nil => exact .stop
  | cons b args ih =>
      obtain ⟨hb, hargs⟩ := List.forall_mem_cons.1 hargs
      have hcomma : g.Takes isWordChar "," [[',']] [] ([b] ++ (args.flatMap (fun b => [[','], b]) ++
          ('>' :: z) :: rest)) := takes_text hr.spaced (isToken_sign (by decide))
      have hdeclarator : g.Takes isWordChar (.rule declarator) [b] []
          (args.flatMap (fun b => [[','], b]) ++ ('>' :: z) :: rest) := by
        cases args with
        | nil =>
            exact hr.takes_declarator ⟨'>', z, rfl, by decide⟩ (hn.takes_angle hb z rest)
              (by rintro _ ⟨⟩; decide)
        | cons b' args =>
            exact hr.takes_declarator (isToken_sign (by decide))
              (hn.spelling.heads ⟨b, hb⟩ ',' (by decide) _) (by rintro _ ⟨⟩; decide)
      exact .round (hcomma.both hdeclarator) (ih hargs)

/-- With three type arguments or more the declaration is not matched. -/
theorem match_none_of_arguments
    (hfront : g.Takes isWordChar front fronts [] (x :: ['='] :: ("new ".toList ++ (w ++ '<' :: arg)) ::
      (args.flatMap (fun b => [[','], b]) ++ [ '>' :: z])))
    (hx : isName x = true) (hw : isName w = true) (harg : isName arg = true)
    (hargs : ∀ b ∈ args, isName b = true) (hlen : 1 < args.length)
    (hs : Spelled isWordChar (fronts ++ (x :: ['='] :: ("new ".toList ++ (w ++ '<' :: arg)) ::
      (args.flatMap (fun b => [[','], b]) ++ [ '>' :: z]))) s) :
    g.matchExpr (.both front (.seq [.rule declarator, .star (more declarator), ";"])) .spaced
      (g.between .spaced s) = none := by
  have hinit := hr.isInitializer (hn.isValue_begin hw harg)
  obtain ⟨b, b', more, rfl⟩ : ∃ b b' more, args = b :: b' :: more := by
    match args with
    | b :: b' :: more => exact ⟨b, b', more, rfl⟩
    | [] | [_] => simp at hlen
  have hangle : IsToken ('>' :: z) := ⟨'>', z, rfl, by decide⟩
  obtain ⟨t, u, f, ht, hmatch, hsame, -, -⟩ := hfront hs
  obtain ⟨t', ht', hdeclares⟩ := hr.declares_value_before (hn.spelling.heads ⟨x, hx⟩) hinit (.inl rfl) ht
  have hend : g.AtEnd boundary (g.between .spaced t') := by
    obtain ⟨y, hy, hrest⟩ := hr.between_sign (by decide) ht'
    rw [hy]
    exact .inr (hn.spelling.sees ⟨b, hargs b List.mem_cons_self⟩ rfl (c := ',') (by decide) hrest)
  obtain ⟨value, ⟨inner, hfirst, -⟩, -⟩ := hdeclares _ (hr.reaches_of_atEnd true hend)
  have hmore : g.Takes isWordChar (.star (SnippetGrammar.more declarator))
      ((b :: b' :: more).flatMap fun b => [[','], b]) [] [ '>' :: z] :=
    (hr.takes_arguments hn hargs).star hr.spaced rfl
      (refuses_text hr.spaced hangle (by rintro _ ⟨⟩; decide) []).both
  have hnone := hmore.refuses (refuses_text hr.spaced hangle (d := ';') (by rintro _ ⟨⟩; decide) []) ht'
  refine matchExpr_both_none_right hmatch ?_
  rw [hsame]
  refine matchExpr_both_none_right hfirst ?_
  rw [between_between hr.ranked]
  exact hnone

end ReadsDeclarators

end SnippetGrammar

end FeatureTree
