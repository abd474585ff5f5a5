import FeatureTree.Proofs.Yaml.Entries
import FeatureTree.Proofs.Yaml.Readable

/-!
# The tokens of a printed value

A scanner goes over a printed value from one place to the next (`Takes`). What
comes behind the value is a line that does not belong to it, or nothing
(`Ends`); in front of that line all lists and maps of the value have ended.
That is the invariant of an induction over values, in which a value under a
name, the items of a list and the entries of a map go along.
-/

namespace FeatureTree.Yaml

/-- A place where a scanner can stand: whether a key may begin, the columns of the open lists and
maps, its own column, and the text that is left. -/
structure Spot where
  allowed : Bool
  columns : List Nat
  column : Nat
  rest : List Char

/-- From one place on, the scanner takes some tokens and stands at the other. -/
def Takes (a : Spot) (taken : List Token) (b : Spot) : Prop :=
  ∀ (s : Scanner) (tokens : List Token), s.At a.allowed tokens a.columns a.column a.rest →
    ∃ s' : Scanner, s.Leads s' ∧ s'.At b.allowed (tokens ++ taken) b.columns b.column b.rest

/-- The line behind a value in front of which its lists and maps end. -/
structure Ends (columns : List Nat) (n : Nat) (t : List Char) : Prop where
  content : IsContent t
  outside : (∃ c ∈ columns.head?, n ≤ c) ∨ t = []

section

variable {a b c : Spot} {first last taken : List Token} {columns : List Nat}
  {column n : Nat} {t : List Char}

theorem Takes.refl (a : Spot) : Takes a [] a := by
  intro s tokens h
  exact ⟨s, .refl s, by rwa [List.append_nil]⟩

theorem Takes.trans (h : Takes a first b) (h' : Takes b last c) : Takes a (first ++ last) c := by
  intro s tokens hs
  obtain ⟨s', hleads, hs'⟩ := h s tokens hs
  obtain ⟨s'', hleads', hs''⟩ := h' s' (tokens ++ first) hs'
  exact ⟨s'', hleads.trans hleads', by rwa [← List.append_assoc]⟩

theorem takes_newline (allowed : Bool) (columns : List Nat) (column n : Nat) (ht : IsContent t) :
    Takes ⟨allowed, columns, column, '\n' :: (List.replicate n ' ' ++ t)⟩ []
      ⟨true, columns, n, t⟩ := by
  intro s tokens h
  rw [List.append_nil]
  exact h.newline ht

theorem takes_close {d : Nat} (hd : ∀ c ∈ columns.head?, c < d) (h : Ends columns n t) :
    Takes ⟨true, d :: columns, n, t⟩ [.blockEnd] ⟨true, columns, n, t⟩ := by
  intro s tokens hs
  refine hs.close h.content (h.outside.imp_left ?_)
  rintro ⟨c, hc, hle⟩
  exact Nat.lt_of_le_of_lt hle (hd c hc)

theorem Ends.inside (h : Ends columns n t) (hcolumns : ∀ c ∈ columns.head?, c < column) :
    Ends (column :: columns) n t := by
  refine ⟨h.content, h.outside.imp_left ?_⟩
  rintro ⟨c, hc, hle⟩
  exact ⟨column, rfl, Nat.le_of_lt (Nat.lt_of_le_of_lt hle (hcolumns c hc))⟩

end

/-! ## Lists and maps, given what is known of their parts -/

open Scanner (At opening opening_of_lt opening_self opening_columns)

/-- A value that begins right of the innermost list or map leads to its tokens. -/
def Printed (v : Value) : Prop :=
  ∀ ⦃column columns n t⦄, (∀ c ∈ columns.head?, c < column) → Ends columns n t →
    Takes ⟨true, columns, column, (printAt column v).toList ++ (List.replicate n ' ' ++ t)⟩
      (tokensOf v) ⟨true, columns, n, t⟩

/-- So does a value behind a name. -/
def PrintedUnder (v : Value) : Prop :=
  ∀ ⦃column columns n t⦄ (c : Nat), column ≤ c → Ends (column :: columns) n t →
    Takes ⟨false, column :: columns, c,
        (printUnder column v).toList ++ (List.replicate n ' ' ++ t)⟩
      (tokensUnder v) ⟨true, column :: columns, n, t⟩

/-- So do lines that belong to an open list or map. The first of them, or else the line behind
them, ends what comes before. -/
def PrintedLines (lines : Nat → String) (taken : List Token) : Prop :=
  ∀ ⦃column columns n t⦄, Ends (column :: columns) n t →
    ∃ n' t', (lines column).toList ++ (List.replicate n ' ' ++ t) = List.replicate n' ' ' ++ t' ∧
      Ends (column :: columns) n' t' ∧
      Takes ⟨true, column :: columns, n', t'⟩ taken ⟨true, column :: columns, n, t⟩

section Parts

variable {columns : List Nat} {column n : Nat} {t : List Char} {k : String} {v : Value}
  {vs : List Value} {es : List (String × Value)}

theorem isContent_scalarText (h : IsPlain v) : IsContent ((scalarText v).toList ++ t) := by
  cases v with
  | null => exact (show IsWord "null" by decide).isContent
  | bool b => exact (show IsWord _ by cases b <;> decide).isContent
  | nat n => exact (isWord_toString n).isContent
  | number text => exact IsWord.isContent h
  | text text => exact IsWord.isContent h
  | list items => simpa [scalarText] using isContent_sign rfl
  | map entries => simpa [scalarText] using isContent_sign rfl

/-- What a value of either form is written as on its line. -/
theorem printAt_cases (column : Nat) (v : Value) :
    (∃ w ws, v = .list (w :: ws)) ∨ (∃ k w es, v = .map ((k, w) :: es)) ∨
      (printAt column v = scalarText v ++ "\n" ∧
        printUnder column v = " " ++ scalarText v ++ "\n" ∧
        tokensOf v = inlineTokens v ∧ tokensUnder v = inlineTokens v) := by
  cases v with
  | list items =>
      cases items with
      | cons w ws => exact .inl ⟨w, ws, rfl⟩
      | nil => exact .inr (.inr ⟨rfl, rfl, rfl, rfl⟩)
  | map entries =>
      cases entries with
      | cons e es => exact .inr (.inl ⟨e.1, e.2, es, rfl⟩)
      | nil => exact .inr (.inr ⟨rfl, rfl, rfl, rfl⟩)
  | null | bool | nat | number | text => exact .inr (.inr ⟨rfl, rfl, rfl, rfl⟩)

theorem isContent_printAt (h : IsPlain v) : IsContent ((printAt column v).toList ++ t) := by
  rcases printAt_cases column v with ⟨w, ws, rfl⟩ | ⟨k, w, es, rfl⟩ | ⟨hprint, -⟩
  · simpa [printAt] using isContent_item
  · rw [printAt]
    simpa using h.1.isContent
  · rw [hprint]
    simpa using isContent_scalarText h

theorem isBlankNext_printUnder (column : Nat) (v : Value) (t : List Char) :
    isBlankNext ((printUnder column v).toList ++ t) = true := by
  rcases printAt_cases column v with ⟨w, ws, rfl⟩ | ⟨k, w, es, rfl⟩ | ⟨-, hprint, -⟩
  · simp [printUnder, isBlankNext, isBreak]
  · simp [printUnder, isBlankNext, isBreak]
  · rw [hprint]
    simp [isBlankNext, isBlank]

/-- The items of a list, of which the first one has begun its line. -/
theorem takes_items (column : Nat) (columns : List Nat) (n : Nat) (t : List Char)
    (hplain : IsPlain v) (hv : Printed v)
    (hvs : PrintedLines (printItems · vs) (itemTokens vs))
    (hcolumns : ∀ c ∈ columns.head?, c ≤ column)
    (h : Ends (opening .listStart column columns).2 n t) :
    Takes ⟨true, columns, column,
        ("- " ++ printAt (column + 2) v ++ printItems column vs).toList ++
          (List.replicate n ' ' ++ t)⟩
      ((opening .listStart column columns).1 ++ itemTokens (v :: vs))
      ⟨true, (opening .listStart column columns).2, n, t⟩ := by
  obtain ⟨outer, houter⟩ := opening_columns .listStart column columns
  rw [houter] at h ⊢
  obtain ⟨n', t', htext, hends, hitems⟩ := hvs h
  have hdash : Takes ⟨true, columns, column, '-' :: ' ' :: ((printAt (column + 2) v).toList ++
        (List.replicate n' ' ' ++ t'))⟩
      ((opening .listStart column columns).1 ++ [.item])
      ⟨true, column :: outer, column + 2, (printAt (column + 2) v).toList ++
        (List.replicate n' ' ' ++ t')⟩ := by
    intro s tokens hs
    obtain ⟨s', hleads, hs'⟩ := hs.item (isContent_printAt hplain) hcolumns
    rw [houter, List.append_assoc] at hs'
    exact ⟨s', hleads, hs'⟩
  have hinside : ∀ c ∈ (column :: outer).head?, c < column + 2 := by simp
  have hall := (hdash.trans (hv hinside hends)).trans hitems
  simpa [htext, itemTokens] using hall

/-- The entries of a map, of which the first one has begun its line. -/
theorem takes_entries (column : Nat) (columns : List Nat) (n : Nat) (t : List Char)
    (hk : IsWord k) (hlength : k.toList.length ≤ KeyStart.maxLength)
    (hv : PrintedUnder v) (hes : PrintedLines (printEntries · es) (entryTokens es))
    (hcolumns : ∀ c ∈ columns.head?, c ≤ column)
    (h : Ends (opening .mapStart column columns).2 n t) :
    Takes ⟨true, columns, column,
        (k ++ ":" ++ printUnder column v ++ printEntries column es).toList ++
          (List.replicate n ' ' ++ t)⟩
      ((opening .mapStart column columns).1 ++ entryTokens ((k, v) :: es))
      ⟨true, (opening .mapStart column columns).2, n, t⟩ := by
  obtain ⟨outer, houter⟩ := opening_columns .mapStart column columns
  rw [houter] at h ⊢
  obtain ⟨n', t', htext, hends, hentries⟩ := hes h
  have hblank := isBlankNext_printUnder column v (List.replicate n' ' ' ++ t')
  intro s tokens hs
  have hs : s.At true tokens columns column
      (k.toList ++ ':' :: ((printUnder column v).toList ++ (List.replicate n' ' ' ++ t'))) := by
    simpa [← htext] using hs
  obtain ⟨s₁, hname, hs₁⟩ := hs.name hk hlength hblank hcolumns
  obtain ⟨s₂, hcolon, hs₂⟩ := hs₁.colon hblank hcolumns
  rw [houter] at hs₂
  have hright : column ≤ s₁.cursor.column + 1 := Nat.le_succ_of_le hs₁.column
  obtain ⟨s₃, hvalue, hs₃⟩ := hv _ hright hends _ _ hs₂
  obtain ⟨s₄, hlast, hs₄⟩ := hentries _ _ hs₃
  exact ⟨s₄, ((hname.trans hcolon).trans hvalue).trans hlast, by simpa [entryTokens] using hs₄⟩

theorem printed_list (hplain : IsPlain v) (hv : Printed v)
    (hvs : PrintedLines (printItems · vs) (itemTokens vs)) : Printed (.list (v :: vs)) := by
  intro column columns n t hcolumns h
  have hlt := opening_of_lt .listStart hcolumns
  have hitems := takes_items column columns n t hplain hv hvs
    (fun c hc => Nat.le_of_lt (hcolumns c hc)) (by rw [hlt]; exact h.inside hcolumns)
  rw [hlt] at hitems
  have hall := hitems.trans (takes_close hcolumns h)
  simpa [printAt, tokensOf, itemTokens] using hall

theorem printed_map (hk : IsWord k) (hlength : k.toList.length ≤ KeyStart.maxLength)
    (hv : PrintedUnder v) (hes : PrintedLines (printEntries · es) (entryTokens es)) :
    Printed (.map ((k, v) :: es)) := by
  intro column columns n t hcolumns h
  have hlt := opening_of_lt .mapStart hcolumns
  have hentries := takes_entries column columns n t hk hlength hv hes
    (fun c hc => Nat.le_of_lt (hcolumns c hc)) (by rw [hlt]; exact h.inside hcolumns)
  rw [hlt] at hentries
  have hall := hentries.trans (takes_close hcolumns h)
  simpa [printAt, tokensOf, entryTokens] using hall

/-- A list under a name is not indented. -/
theorem printedUnder_list (hplain : IsPlain v) (hv : Printed v)
    (hvs : PrintedLines (printItems · vs) (itemTokens vs)) : PrintedUnder (.list (v :: vs)) := by
  intro column columns n t c hc h
  have hself : opening .listStart column (column :: columns) = ([], column :: columns) :=
    opening_self _
  have hitems := takes_items column (column :: columns) n t hplain hv hvs (by simp)
    (by rwa [hself])
  rw [hself] at hitems
  have hline := takes_newline false (column :: columns) c column
    (t := ("- " ++ printAt (column + 2) v ++ printItems column vs).toList ++
      (List.replicate n ' ' ++ t)) (by simpa using isContent_item)
  simpa [printUnder, margin, tokensUnder, itemTokens] using hline.trans hitems

/-- A map under a name is indented. -/
theorem printedUnder_map (h : Printed (.map ((k, v) :: es))) (hk : IsWord k) :
    PrintedUnder (.map ((k, v) :: es)) := by
  intro column columns n t c hc hends
  have hright : ∀ d ∈ (column :: columns).head?, d < column + 2 := by simp
  have hline := takes_newline false (column :: columns) c (column + 2)
    (t := (printAt (column + 2) (.map ((k, v) :: es))).toList ++ (List.replicate n ' ' ++ t))
    (by rw [printAt]; simpa using hk.isContent)
  have hall := hline.trans (h hright hends)
  simpa [printUnder, printAt, margin, tokensUnder, tokensOf] using hall

theorem printedLines_nil {lines : Nat → String} (h : ∀ column, lines column = "") :
    PrintedLines lines [] := by
  intro column columns n t hends
  exact ⟨n, t, by rw [h]; rfl, hends, .refl _⟩

theorem printedLines_items (hplain : IsPlain v) (hv : Printed v)
    (hvs : PrintedLines (printItems · vs) (itemTokens vs)) :
    PrintedLines (printItems · (v :: vs)) (itemTokens (v :: vs)) := by
  intro column columns n t h
  have hself : opening .listStart column (column :: columns) = ([], column :: columns) :=
    opening_self _
  have hitems := takes_items column (column :: columns) n t hplain hv hvs (by simp)
    (by rwa [hself])
  rw [hself] at hitems
  refine ⟨column, _, ?_, ⟨?_, .inl ⟨column, rfl, Nat.le_refl _⟩⟩, hitems⟩
  · simp [printItems, margin]
  · simpa using isContent_item

theorem printedLines_entries (hk : IsWord k) (hlength : k.toList.length ≤ KeyStart.maxLength)
    (hv : PrintedUnder v) (hes : PrintedLines (printEntries · es) (entryTokens es)) :
    PrintedLines (printEntries · ((k, v) :: es)) (entryTokens ((k, v) :: es)) := by
  intro column columns n t h
  have hself : opening .mapStart column (column :: columns) = ([], column :: columns) :=
    opening_self _
  have hentries := takes_entries column (column :: columns) n t hk hlength hv hes (by simp)
    (by rwa [hself])
  rw [hself] at hentries
  refine ⟨column, _, ?_, ⟨?_, .inl ⟨column, rfl, Nat.le_refl _⟩⟩, hentries⟩
  · simp [printEntries, margin]
  · simpa using hk.isContent

/-- A value that stands on the line of its name or dash. -/
theorem printed_inline (hplain : IsPlain v)
    (hprint : ∀ column, printAt column v = scalarText v ++ "\n" ∧
      printUnder column v = " " ++ scalarText v ++ "\n")
    (htokens : tokensOf v = inlineTokens v) (hunder : tokensUnder v = inlineTokens v) :
    Printed v ∧ PrintedUnder v := by
  constructor
  · intro column columns n t hcolumns h s tokens hs
    rw [(hprint column).1] at hs
    rw [htokens]
    refine At.inline (fun _ hhead => ?_) (fun c hc => Nat.le_of_lt (hcolumns c hc)) h.content hplain
      (by simpa using hs) h.outside
    exact Nat.lt_irrefl _ (hcolumns column hhead)
  · intro column columns n t c hc h s tokens hs
    rw [(hprint column).2] at hs
    rw [hunder]
    have hblank : s.At false tokens (column :: columns) c
        (List.replicate 1 ' ' ++
          ((scalarText v).toList ++ '\n' :: (List.replicate n ' ' ++ t))) := by
      simpa using hs
    obtain ⟨s₁, hskip, hs₁⟩ := hblank.skip (isContent_scalarText hplain)
    obtain ⟨s₂, hleads, hs₂⟩ :=
      At.inline (fun h => by cases h) (by simp; omega) h.content hplain hs₁ h.outside
    exact ⟨s₂, hskip.trans hleads, hs₂⟩

end Parts

/-! ## All values -/

mutual

theorem printed : (v : Value) → IsPlain v → Printed v ∧ PrintedUnder v
  | .list (v :: vs), h => by
    have hv := (printed v h.1).1
    have hvs := printedItems vs h.2
    exact ⟨printed_list h.1 hv hvs, printedUnder_list h.1 hv hvs⟩
  | .map ((k, v) :: es), h => by
    obtain ⟨hk, hlength, hplain, hplains⟩ := h
    have hmap := printed_map hk hlength (printed v hplain).2 (printedEntries es hplains)
    exact ⟨hmap, printedUnder_map hmap hk⟩
  | .list [], h => printed_inline h (fun _ => ⟨rfl, rfl⟩) rfl rfl
  | .map [], h => printed_inline h (fun _ => ⟨rfl, rfl⟩) rfl rfl
  | .null, h => printed_inline h (fun _ => ⟨rfl, rfl⟩) rfl rfl
  | .bool _, h => printed_inline h (fun _ => ⟨rfl, rfl⟩) rfl rfl
  | .nat _, h => printed_inline h (fun _ => ⟨rfl, rfl⟩) rfl rfl
  | .number _, h => printed_inline h (fun _ => ⟨rfl, rfl⟩) rfl rfl
  | .text _, h => printed_inline h (fun _ => ⟨rfl, rfl⟩) rfl rfl

theorem printedItems : (vs : List Value) → ArePlain vs →
    PrintedLines (printItems · vs) (itemTokens vs)
  | [], _ => printedLines_nil fun _ => rfl
  | v :: vs, h => printedLines_items h.1 (printed v h.1).1 (printedItems vs h.2)

theorem printedEntries : (es : List (String × Value)) → ArePlainEntries es →
    PrintedLines (printEntries · es) (entryTokens es)
  | [], _ => printedLines_nil fun _ => rfl
  | (_, v) :: es, h =>
      printedLines_entries h.1 h.2.1 (printed v h.2.2.1).2 (printedEntries es h.2.2.2)

end

/-! ## The whole text -/

/-- The text of a plain value has the tokens of the value. -/
theorem scan_print {v : Value} (h : IsPlain v) :
    Token.scan (print v).toList = some (tokensOf v) := by
  have hreadable : (print v).toList.all isPrintable = true := (readable_print v h 0).1
  have hstart : (Scanner.start (print v).toList).At true [] [] 0 ((print v).toList ++ []) :=
    ⟨rfl, rfl, rfl, rfl, (List.append_nil _).symm, rfl, rfl, Nat.lt_succ_self _⟩
  have hends : Ends [] 0 [] := ⟨trivial, .inr rfl⟩
  obtain ⟨s, ⟨n, hn, hrun⟩, hs⟩ := (printed v h).1 (by simp) hends _ _ hstart
  have hfuel : (print v).toList.length + 1 = n + ((print v).toList.length - n + 1) := by
    have hlength : (Scanner.start (print v).toList).cursor.rest = (print v).toList := rfl
    rw [hlength] at hn
    omega
  have hleave : s.leaveDocument.map (·.tokens) = some s.tokens := by
    rw [Scanner.leaveDocument, Scanner.closeAll, Scanner.closeWhile_eq hs.outer, hs.columns,
      Scanner.dropKeyStart_eq (by exact hs.keyStart)]
    simp [Scanner.allowKey]
  rw [Token.scan, hreadable, hfuel, hrun, hs.run_end, hleave]
  exact congrArg some hs.tokens

end FeatureTree.Yaml
