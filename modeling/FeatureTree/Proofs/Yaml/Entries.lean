import FeatureTree.Proofs.Yaml.Lines

/-!
# Scanning items, names and values

An item of a list begins with a dash and a blank, an entry of a map with a word
and a colon. What follows stands on the same line or on the ones behind it; a
value that stands on the same line is a word or a pair of brackets.
-/

namespace FeatureTree.Yaml

section Words

variable {text : String} {w s : List Char} {k : Cursor} {fuel margin n : Nat}

theorem IsWord.exists_cons (h : IsWord text) :
    ∃ c w, text.toList = c :: w ∧ c.isAlphanum = true := by
  cases htext : text.toList with
  | nil =>
      have hhead := h.1
      rw [htext] at hhead
      cases hhead
  | cons c w =>
      have hhead := h.1
      rw [htext] at hhead
      exact ⟨c, w, rfl, hhead⟩

theorem IsWord.isContent (h : IsWord text) : IsContent (text.toList ++ s) := by
  obtain ⟨c, w, htext, hc⟩ := h.exists_cons
  rw [htext]
  exact isContent_alphanum hc

/-- A word ends in front of whatever ends a scalar. -/
theorem wordLength_append (hw : w.all isWordChar = true)
    (hs : ∀ n, wordLength false n s = some n) (n : Nat) :
    wordLength false n (w ++ s) = some (n + w.length) := by
  induction w generalizing n with
  | nil => exact hs n
  | cons c w ih =>
      rw [List.all_cons, Bool.and_eq_true] at hw
      obtain ⟨hc, hw⟩ := hw
      have hne := fun d hd => ne_of_kind (d := d) hc hd
      rw [List.cons_append, wordLength]
      simp (disch := decide) [isBlank, isBreak, hne, ih hw, Nat.add_comm, Nat.add_left_comm]

/-- A plain scalar begins with a word, and whatever is taken behind it. -/
theorem plainWords_word (hword : IsWord text) (hrest : k.rest = text.toList ++ s)
    (hs : ∀ n, wordLength false n s = some n) :
    k.atMarker = false ∧ k.at? '#' = false ∧ wordLength false 0 k.rest = some text.toList.length ∧
      text.toList ≠ [] ∧ (k.skip text.toList.length).rest = s ∧
      k.rest.take text.toList.length = text.toList := by
  obtain ⟨c, w, htext, hc⟩ := hword.exists_cons
  refine ⟨IsContent.atMarker (hrest ▸ hword.isContent), ?_, ?_, ?_, ?_, ?_⟩
  · rw [Cursor.at?, hrest, htext]
    simpa using ne_of_kind hc rfl
  · rw [hrest, wordLength_append hword.2 hs, Nat.zero_add]
  · rw [htext]
    exact List.cons_ne_nil _ _
  · rw [Cursor.skip, hrest, List.drop_left]
  · rw [hrest, List.take_left]

/-- A word in front of a colon ends there. -/
theorem takePlain_key (hword : IsWord text) (hrest : k.rest = text.toList ++ ':' :: s)
    (hs : isBlankNext s = true) (hfuel : 0 < fuel) :
    takePlain fuel false margin k = some (text, false, k.skip text.toList.length) := by
  obtain ⟨fuel, rfl⟩ : ∃ f, fuel = f + 1 := ⟨fuel - 1, by omega⟩
  have hstop : ∀ n, wordLength false n (':' :: s) = some n := by
    intro n
    simp [wordLength, isBlank, isBreak, hs]
  obtain ⟨hmarker, hsharp, hlength, hne, hskip, htake⟩ := plainWords_word hword hrest hstop
  rw [takePlain]
  suffices hwords : plainWords false margin (fuel + 1) [] ⟨[], []⟩ k =
      some (text.toList, false, k.skip text.toList.length) by
    rw [hwords]
    simp
  generalize text.toList = w at *
  rw [plainWords, hmarker, hsharp, hlength]
  simp [hne, htake, hskip, Gap.text, isBlankNext, isBlank, isBreak]

/-- A word at the end of a line ends there, if the next line does not belong to it. -/
theorem takePlain_value {t : List Char} (hword : IsWord text) (ht : IsContent t)
    (hrest : k.rest = text.toList ++ '\n' :: (List.replicate n ' ' ++ t))
    (hends : n < margin ∨ t = []) (hfuel : 1 < fuel) :
    ∃ k', takePlain fuel false margin k = some (text, true, k') ∧ k'.column = n ∧ k'.rest = t := by
  obtain ⟨fuel, rfl⟩ : ∃ f, fuel = f + 2 := ⟨fuel - 2, by omega⟩
  have hstop : ∀ m, wordLength false m ('\n' :: (List.replicate n ' ' ++ t)) = some m := by
    intro m
    simp [wordLength, isBlank, isBreak]
  obtain ⟨hmarker, hsharp, hlength, hne, hskip, htake⟩ := plainWords_word hword hrest hstop
  generalize hk' : k.skip text.toList.length = k' at *
  let next : Cursor := ⟨k'.toPlace.down 1, List.replicate n ' ' ++ t⟩
  have hnext : (next.skip n).rest = t := skip_margin rfl
  have hcolumn : (next.skip n).column = n := Nat.zero_add n
  have hgap : takeGap (fuel + 1) margin k' = some (⟨[], [['\n']]⟩, next.skip n) := by
    have hblanks : k'.span isBlank = ([], k') := by
      rw [Cursor.span, hskip, List.takeWhile_cons_of_neg (by simp [isBlank])]
      rfl
    have hbreak : k'.break? = some (['\n'], next) := by
      rw [Cursor.break?, hskip]
      rfl
    have hmargin : next.span isBlank = (List.replicate n ' ', next.skip n) :=
      ht.span_margin rfl rfl fun _ h => h
    have hlast : takeBreaks margin fuel (next.skip n) = some ([], next.skip n) := by
      cases fuel with
      | zero => rfl
      | succ fuel => rw [takeBreaks, IsContent.break? (hnext ▸ ht)]
    rw [takeGap, hblanks]
    simp only [takeBreaks, hbreak, hmargin, hlast]
    simp
  refine ⟨next.skip n, ?_, hcolumn, hnext⟩
  rw [takePlain]
  suffices hwords : plainWords false margin (fuel + 2) [] ⟨[], []⟩ k =
      some (text.toList, true, next.skip n) by
    rw [hwords]
    simp
  generalize text.toList = w at *
  rw [plainWords, hmarker, hsharp, hlength]
  simp [hne, htake, hk', hskip, Gap.text, isBlankNext, isBlank, isBreak, hgap, hcolumn]
  split
  · rfl
  · next hmargin =>
      have ht : t = [] := hends.resolve_left hmargin
      subst ht
      rw [plainWords, IsContent.atMarker (hnext ▸ ht), Cursor.at?, hnext]
      simp [wordLength, Gap.isBroken]

end Words

namespace Scanner

variable {s s' : Scanner} {allowed : Bool} {tokens : List Token} {columns : List Nat}
  {column n : Nat} {rest t : List Char}

/-! ## What the first character begins -/

section FirstCharacter

variable {c : Char} (hmarker : s.cursor.atMarker = false)

include hmarker

theorem takeToken_plain (h : s.cursor.rest = c :: rest) (hc : c.isAlphanum = true) :
    s.takeToken = s.takePlainScalar := by
  have hne := fun d hd => ne_of_kind (d := d) hc hd
  have hstarts : startsPlain s.inFlow s.cursor.rest = true := by
    rw [h, startsPlain]
    · have htick : c.toNat ≠ 96 := by
        intro hcode
        exact hne (Char.ofNat 96) rfl (by rw [← hcode, Char.ofNat_toNat])
      simp [isBlank, isBreak, isFlowMark, hne, htick]
    · exact hne _ rfl
  rw [takeToken, h]
  simp [hne, hmarker, ← h, hstarts]

theorem takeToken_item (h : s.cursor.rest = '-' :: ' ' :: rest) : s.takeToken = s.takeItem := by
  rw [takeToken, h]
  simp [hmarker, isBlankNext, isBlank]

theorem takeToken_value (h : s.cursor.rest = ':' :: rest) (hrest : isBlankNext rest = true) :
    s.takeToken = s.takeValue := by
  rw [takeToken, h]
  simp [hmarker, hrest]

theorem takeToken_openList (h : s.cursor.rest = '[' :: rest) :
    s.takeToken = s.openBracket .openList := by
  rw [takeToken, h]
  simp [hmarker]

theorem takeToken_closeList (h : s.cursor.rest = ']' :: rest) :
    s.takeToken = s.closeBracket .closeList := by
  rw [takeToken, h]
  simp [hmarker]

theorem takeToken_openMap (h : s.cursor.rest = '\x7b' :: rest) :
    s.takeToken = s.openBracket .openMap := by
  rw [takeToken, h]
  simp [hmarker]

theorem takeToken_closeMap (h : s.cursor.rest = '\x7d' :: rest) :
    s.takeToken = s.closeBracket .closeMap := by
  rw [takeToken, h]
  simp [hmarker]

end FirstCharacter

/-! ## Items and entries -/

theorem At.item (h : At s true tokens columns column ('-' :: ' ' :: rest)) (hrest : IsContent rest)
    (hcolumns : ∀ c ∈ columns.head?, c ≤ column) :
    ∃ s', Leads s s' ∧
      At s' true (tokens ++ (opening .listStart column columns).1 ++ [Token.item])
        (opening .listStart column columns).2 (column + 2) rest := by
  have hindent := indent_eq h.outer (h.columns ▸ hcolumns) tokens []
    (by rw [h.tokens, List.append_nil]) .listStart
  have hsize : s.tokens.size = tokens.length := by rw [← h.tokens, Array.length_toList]
  let next : Scanner :=
    { s with
      tokens := (tokens ++ (opening .listStart column columns).1 ++ [Token.item]).toArray
      columns := (opening .listStart column columns).2
      keyStart := none
      keyAllowed := true
      cursor := s.cursor.skip 1 }
  have htake : s.takeToken = some next := by
    rw [takeToken_item (h.atMarker isContent_item) h.rest, takeItem, h.allowed, indentHere,
      h.column, hsize, hindent, h.columns, dropKeyStart_eq (by exact h.keyStart)]
    simp [next, allowKey, pushChar, pushTo, push]
  have hbehind : (s.cursor.skip 1).rest = List.replicate 1 ' ' ++ rest := by
    rw [Cursor.skip, h.rest]
    rfl
  have hlength : (s.cursor.skip 1).rest.length < s.cursor.rest.length := by
    rw [hbehind, h.rest]
    simp
  have hfuel := h.fuel
  have hnext : At next true _ _ (column + 1) (List.replicate 1 ' ' ++ rest) :=
    ⟨rfl, rfl, rfl, congrArg (· + 1) h.column, hbehind, h.outer, rfl, by dsimp only [next]; omega⟩
  obtain ⟨s', hleads, hs'⟩ := hnext.skip hrest
  exact ⟨s', (h.leads_of_take isContent_item hcolumns htake hlength).trans hleads, hs'⟩

theorem takePlainScalar_eq {start : Option KeyStart} {text : String} {broken : Bool} {k : Cursor}
    (hsave : s.saveKeyStart = some { s with keyStart := start })
    (hplain : takePlain s.fuel s.inFlow s.margin s.cursor = some (text, broken, k)) :
    s.takePlainScalar = some
      { s with
        tokens := s.tokens.push (.scalar .plain text)
        keyStart := start
        keyAllowed := broken
        cursor := k } := by
  rw [takePlainScalar, hsave]
  change (takePlain s.fuel s.inFlow s.margin s.cursor).bind _ = _
  rw [hplain]
  rfl

theorem At.saveKeyStart (h : At s true tokens columns column rest) :
    s.saveKeyStart = some
      { s with
        keyStart := some ⟨s.cursor.toPlace, tokens.length, columns.head? == some column⟩ } := by
  have hsize : s.tokens.size = tokens.length := by rw [← h.tokens, Array.length_toList]
  rw [Scanner.saveKeyStart, if_pos h.allowed, dropKeyStart_eq h.keyStart]
  simp [inFlow, h.outer, h.columns, h.column, hsize]

/-- The scanner stands at the colon behind a name, which begins at a column and has turned out to
be a key. -/
structure BehindName (s : Scanner) (tokens : List Token) (columns : List Nat) (column : Nat)
    (name : Token) (rest : List Char) : Prop where
  keyStart : ∃ start, s.keyStart = some start ∧ start.place.column = column ∧
    start.before = tokens.length ∧ start.isStale s.cursor.toPlace = false
  tokens : s.tokens.toList = tokens ++ [name]
  columns : s.columns = columns
  column : column ≤ s.cursor.column
  rest : s.cursor.rest = ':' :: rest
  outer : s.outer = []
  fuel : s.cursor.rest.length < s.fuel

theorem At.name {text : String} (h : At s true tokens columns column (text.toList ++ ':' :: rest))
    (hword : IsWord text) (hlength : text.toList.length ≤ KeyStart.maxLength)
    (hrest : isBlankNext rest = true) (hcolumns : ∀ c ∈ columns.head?, c ≤ column) :
    ∃ s', Leads s s' ∧ BehindName s' tokens columns column (.scalar .plain text) rest := by
  let start : KeyStart := ⟨s.cursor.toPlace, tokens.length, columns.head? == some column⟩
  let next : Scanner :=
    { s with
      tokens := s.tokens.push (.scalar .plain text)
      keyStart := some start
      keyAllowed := false
      cursor := s.cursor.skip text.toList.length }
  have htake : s.takeToken = some next := by
    obtain ⟨c, w, htext, hc⟩ := hword.exists_cons
    have hfirst : s.cursor.rest = c :: (w ++ ':' :: rest) := by rw [h.rest, htext]; rfl
    have hflow : s.inFlow = false := by rw [inFlow, h.outer]; rfl
    rw [takeToken_plain (h.atMarker hword.isContent) hfirst hc]
    refine takePlainScalar_eq h.saveKeyStart ?_
    rw [hflow]
    exact takePlain_key hword h.rest hrest (Nat.zero_lt_of_lt h.fuel)
  have hcolon : next.cursor.rest = ':' :: rest := by
    change s.cursor.rest.drop text.toList.length = _
    rw [h.rest, List.drop_left]
  have hstale : start.isStale next.cursor.toPlace = false := by
    simp [KeyStart.isStale, start, next, Cursor.skip, Place.right]
    simpa using hlength
  have hpos : 0 < text.toList.length := by
    obtain ⟨c, w, htext, -⟩ := hword.exists_cons
    rw [htext]
    exact Nat.succ_pos _
  have hshorter : next.cursor.rest.length < s.cursor.rest.length := by
    rw [hcolon, h.rest, List.length_append]
    omega
  refine ⟨next, h.leads_of_take hword.isContent hcolumns htake hshorter, ?_⟩
  exact ⟨⟨start, rfl, h.column, rfl, hstale⟩, by rw [← h.tokens, Array.toList_push], h.columns,
    by rw [← h.column]; exact Nat.le_add_right .., hcolon, h.outer, Nat.lt_trans hshorter h.fuel⟩

/-- Behind the colon stands the token of a value, and the tokens of the map and the key have been
put in front of the name. -/
theorem BehindName.colon {name : Token} (h : BehindName s tokens columns column name rest)
    (hrest : isBlankNext rest = true) (hcolumns : ∀ c ∈ columns.head?, c ≤ column) :
    ∃ s', Leads s s' ∧
      At s' false (tokens ++ (opening .mapStart column columns).1 ++ [Token.key, name, .value])
        (opening .mapStart column columns).2 (s.cursor.column + 1) rest := by
  obtain ⟨start, hstart, hcolumn, hbefore, hstale⟩ := h.keyStart
  let next : Scanner :=
    { s with
      tokens :=
        (tokens ++ (opening .mapStart column columns).1 ++ [Token.key, name, .value]).toArray
      columns := (opening .mapStart column columns).2
      keyStart := none
      keyAllowed := false
      cursor := s.cursor.skip 1 }
  have hcontent : IsContent s.cursor.rest := by
    rw [h.rest]
    exact isContent_sign rfl
  have hinsert := insert_eq h.tokens Token.key
  have htake : s.takeToken = some next := by
    rw [takeToken_value hcontent.atMarker h.rest hrest, takeValue, hstart, Option.any_some, hstale]
    simp only [Bool.false_eq_true, if_false, Option.bind_eq_bind, Option.bind_some, hstart,
      hinsert, hcolumn, hbefore]
    rw [indent_eq (by exact h.outer) (by exact h.columns ▸ hcolumns) tokens [Token.key, name] rfl]
    simp [next, h.columns, allowKey, pushChar, pushTo, push]
  have hnext : next.cursor.rest = rest := by
    simp [next, Cursor.skip, h.rest]
  have hshorter : next.cursor.rest.length < s.cursor.rest.length := by
    rw [hnext, h.rest]
    exact Nat.lt_succ_self _
  have hleft : ∀ c ∈ s.columns.head?, c ≤ s.cursor.column := by
    intro c hc
    exact Nat.le_trans (hcolumns c (h.columns ▸ hc)) h.column
  exact ⟨next, leads_of_take hcontent h.fuel hleft htake hshorter,
    ⟨rfl, rfl, rfl, rfl, hnext, h.outer, rfl, Nat.lt_trans hshorter h.fuel⟩⟩

/-! ## Values on the same line -/

/-- Where no key can begin, none is required. -/
theorem At.saveKeyStart_value (h : At s allowed tokens columns column rest)
    (hkey : allowed = true → columns.head? ≠ some column) :
    ∃ start, s.saveKeyStart = some { s with keyStart := start } ∧
      start.any (·.required) = false := by
  cases allowed with
  | true => exact ⟨_, h.saveKeyStart, by simp [hkey]⟩
  | false =>
      refine ⟨s.keyStart, ?_, h.keyStart⟩
      rw [Scanner.saveKeyStart, if_neg (by simp [h.allowed])]

/-- The scanner stands behind a bracket, in the line in which it was opened. No key that may have
begun in front of the bracket is required. -/
structure InBrackets (s : Scanner) (tokens : List Token) (columns : List Nat) (column : Nat)
    (rest : List Char) : Prop where
  tokens : s.tokens.toList = tokens
  columns : s.columns = columns
  column : s.cursor.column = column
  rest : s.cursor.rest = rest
  outer : ∃ start, s.outer = [start] ∧ start.any (·.required) = false
  keyStart : s.keyStart = none
  fuel : s.cursor.rest.length < s.fuel

section Brackets

variable {o c : Char} {opens closes : Token}

theorem At.openBracket (ho : signs.contains o = true)
    (hopens : ∀ {s : Scanner} {rest}, s.cursor.atMarker = false → s.cursor.rest = o :: rest →
      s.takeToken = s.openBracket opens)
    (hkey : allowed = true → columns.head? ≠ some column)
    (hcolumns : ∀ c ∈ columns.head?, c ≤ column)
    (h : At s allowed tokens columns column (o :: rest)) :
    ∃ s', Leads s s' ∧ InBrackets s' (tokens ++ [opens]) columns (column + 1) rest := by
  obtain ⟨start, hsave, hstart⟩ := h.saveKeyStart_value hkey
  have htake : s.takeToken = some
      { s with
        tokens := s.tokens.push opens
        keyStart := none
        outer := [start]
        keyAllowed := true
        cursor := s.cursor.skip 1 } := by
    rw [hopens (h.atMarker (isContent_sign ho)) h.rest, Scanner.openBracket, hsave]
    simp [allowKey, pushChar, pushTo, push, h.outer]
  have hrest : (s.cursor.skip 1).rest = rest := by
    rw [Cursor.skip, h.rest]
    rfl
  have hshorter : (s.cursor.skip 1).rest.length < s.cursor.rest.length := by
    rw [hrest, h.rest]
    exact Nat.lt_succ_self _
  exact ⟨_, h.leads_of_take (isContent_sign ho) hcolumns htake hshorter,
    ⟨by rw [← h.tokens, Array.toList_push], h.columns, congrArg (· + 1) h.column, hrest,
      ⟨start, rfl, hstart⟩, rfl, Nat.lt_trans hshorter h.fuel⟩⟩

theorem InBrackets.closeBracket (hc : signs.contains c = true)
    (hcloses : ∀ {s : Scanner} {rest}, s.cursor.atMarker = false → s.cursor.rest = c :: rest →
      s.takeToken = s.closeBracket closes)
    (hcolumns : ∀ c ∈ columns.head?, c ≤ column)
    (h : InBrackets s tokens columns column (c :: rest)) :
    ∃ s', Leads s s' ∧ At s' false (tokens ++ [closes]) columns (column + 1) rest := by
  obtain ⟨start, houter, hstart⟩ := h.outer
  have hcontent : IsContent s.cursor.rest := by
    rw [h.rest]
    exact isContent_sign hc
  have htake : s.takeToken = some
      { s with
        tokens := s.tokens.push closes
        keyStart := start
        outer := []
        keyAllowed := false
        cursor := s.cursor.skip 1 } := by
    rw [hcloses hcontent.atMarker h.rest, Scanner.closeBracket,
      dropKeyStart_eq (by rw [h.keyStart]; rfl)]
    simp [allowKey, pushChar, pushTo, push, houter]
  have hrest : (s.cursor.skip 1).rest = rest := by
    rw [Cursor.skip, h.rest]
    rfl
  have hshorter : (s.cursor.skip 1).rest.length < s.cursor.rest.length := by
    rw [hrest, h.rest]
    exact Nat.lt_succ_self _
  have hleft : ∀ c ∈ s.columns.head?, c ≤ s.cursor.column := by rwa [h.columns, h.column]
  exact ⟨_, leads_of_take hcontent h.fuel hleft htake hshorter,
    ⟨rfl, by rw [← h.tokens, Array.toList_push], h.columns, congrArg (· + 1) h.column, hrest, rfl,
      hstart, Nat.lt_trans hshorter h.fuel⟩⟩

end Brackets

variable (hkey : allowed = true → columns.head? ≠ some column)
  (hcolumns : ∀ c ∈ columns.head?, c ≤ column) (ht : IsContent t)

include hkey hcolumns ht

theorem At.word {text : String} (hword : IsWord text)
    (h : At s allowed tokens columns column
      (text.toList ++ '\n' :: (List.replicate n ' ' ++ t)))
    (hends : (∃ c ∈ columns.head?, n ≤ c) ∨ t = []) :
    ∃ s', Leads s s' ∧ At s' true (tokens ++ [.scalar .plain text]) columns n t := by
  obtain ⟨start, hsave, hstart⟩ := h.saveKeyStart_value hkey
  have hlines : 1 < s.fuel := by
    have hfuel := h.fuel
    rw [h.rest, List.length_append, List.length_cons] at hfuel
    omega
  have hflow : s.inFlow = false := by rw [inFlow, h.outer]; rfl
  have hmargin : n < s.margin ∨ t = [] := by
    refine hends.imp_left ?_
    rintro ⟨c, hc, hle⟩
    rw [Scanner.margin, h.columns, hc]
    exact Nat.lt_succ_of_le hle
  obtain ⟨k, hplain, hcolumn, hrest⟩ := takePlain_value hword ht h.rest hmargin hlines
  have htake : s.takeToken = some
      { s with
        tokens := s.tokens.push (.scalar .plain text)
        keyStart := start
        keyAllowed := true
        cursor := k } := by
    obtain ⟨c, w, htext, hc⟩ := hword.exists_cons
    have hfirst : s.cursor.rest = c :: (w ++ '\n' :: (List.replicate n ' ' ++ t)) := by
      rw [h.rest, htext]
      rfl
    rw [takeToken_plain (h.atMarker hword.isContent) hfirst hc]
    exact takePlainScalar_eq hsave (by rw [hflow, hplain])
  have hshorter : k.rest.length < s.cursor.rest.length := by
    rw [hrest, h.rest, List.length_append, List.length_cons, List.length_append]
    omega
  exact ⟨_, h.leads_of_take hword.isContent hcolumns htake hshorter,
    ⟨rfl, by rw [← h.tokens, Array.toList_push], h.columns, hcolumn, hrest, h.outer, hstart,
      Nat.lt_trans hshorter h.fuel⟩⟩

/-- Two brackets with nothing between them. -/
theorem At.brackets {o c : Char} {opens closes : Token} (ho : signs.contains o = true)
    (hc : signs.contains c = true)
    (hopens : ∀ {s : Scanner} {rest}, s.cursor.atMarker = false → s.cursor.rest = o :: rest →
      s.takeToken = s.openBracket opens)
    (hcloses : ∀ {s : Scanner} {rest}, s.cursor.atMarker = false → s.cursor.rest = c :: rest →
      s.takeToken = s.closeBracket closes)
    (h : At s allowed tokens columns column (o :: c :: '\n' :: (List.replicate n ' ' ++ t))) :
    ∃ s', Leads s s' ∧ At s' true (tokens ++ [opens, closes]) columns n t := by
  obtain ⟨s₁, hopened, h₁⟩ := h.openBracket ho hopens hkey hcolumns
  obtain ⟨s₂, hclosed, h₂⟩ := h₁.closeBracket hc hcloses fun c hc =>
    Nat.le_succ_of_le (hcolumns c hc)
  obtain ⟨s₃, hbehind, h₃⟩ := h₂.newline ht
  rw [List.append_assoc] at h₃
  exact ⟨s₃, (hopened.trans hclosed).trans hbehind, h₃⟩

/-- A value that stands on the same line ends with it. -/
theorem At.inline {v : Value} (hplain : IsPlain v)
    (h : At s allowed tokens columns column
      ((scalarText v).toList ++ '\n' :: (List.replicate n ' ' ++ t)))
    (hends : (∃ c ∈ columns.head?, n ≤ c) ∨ t = []) :
    ∃ s', Leads s s' ∧ At s' true (tokens ++ inlineTokens v) columns n t := by
  cases v with
  | list items =>
      exact At.brackets hkey hcolumns ht rfl rfl takeToken_openList takeToken_closeList
        (by simpa [scalarText] using h)
  | map entries =>
      exact At.brackets hkey hcolumns ht rfl rfl takeToken_openMap takeToken_closeMap
        (by simpa [scalarText] using h)
  | null => exact h.word hkey hcolumns ht (by decide) hends
  | bool b => exact h.word hkey hcolumns ht (by cases b <;> decide) hends
  | nat n => exact h.word hkey hcolumns ht (isWord_toString n) hends
  | number text => exact h.word hkey hcolumns ht hplain hends
  | text text => exact h.word hkey hcolumns ht hplain hends

end Scanner

end FeatureTree.Yaml
