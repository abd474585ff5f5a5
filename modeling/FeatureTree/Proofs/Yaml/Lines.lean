import FeatureTree.Proofs.Yaml.Plain

/-!
# Scanning line by line

Between two lines of a text in block style, what the scanner knows comes down to
the tokens so far, the columns of the open lists and maps, and the column at
which the next line begins (`Scanner.At`). How many lines it has seen, and where a
key may have begun that was none, makes no difference any more.

Each lemma takes the scanner over one piece of a line. A scanner that stands in
front of blanks or line ends is as good as one behind them, as tokens are only
taken behind them (`run_congr`).
-/

namespace FeatureTree.Yaml

theorem ne_of_kind {kind : Char → Bool} {c d : Char} (hc : kind c = true) (hd : kind d = false) :
    c ≠ d := by
  rintro rfl
  rw [hc] at hd
  cases hd

/-- Something that a token can be taken from, or the end of the text: no blank, line end,
comment, marker or byte order mark. -/
def IsContent : List Char → Prop
  | [] => True
  | c :: s => (isBlank c || isBreak c || c == '#' || c == '\ufeff' || c == '.') = false ∧
      (c = '-' → s.head? = some ' ')

theorem Cursor.skip_zero (k : Cursor) : k.skip 0 = k := rfl

section Content

variable {c : Char} {s : List Char} {k : Cursor} {n : Nat}

theorem IsContent.head (h : IsContent (c :: s)) :
    isBlank c = false ∧ isBreak c = false ∧ c ≠ '#' ∧ c ≠ '\ufeff' ∧ c ≠ '.' := by
  obtain ⟨hc, -⟩ := h
  simp only [Bool.or_eq_false_iff, beq_eq_false_iff_ne] at hc
  obtain ⟨⟨⟨⟨hblank, hbreak⟩, hsharp⟩, hmark⟩, hdot⟩ := hc
  exact ⟨hblank, hbreak, hsharp, hmark, hdot⟩

theorem isContent_alphanum (h : c.isAlphanum = true) : IsContent (c :: s) := by
  have hne := fun d hd => ne_of_kind (d := d) h hd
  refine ⟨?_, fun hc => absurd hc (hne _ rfl)⟩
  simp [isBlank, isBreak, hne]

theorem isContent_item : IsContent ('-' :: ' ' :: s) := ⟨rfl, fun _ => rfl⟩

/-- The colon of an entry, and the brackets of a list or map without entries. -/
def signs : List Char := [':', '[', ']', '\x7b', '\x7d']

theorem isContent_sign (h : signs.contains c = true) : IsContent (c :: s) := by
  simp only [signs, List.contains_cons, List.contains_nil, Bool.or_false, Bool.or_eq_true,
    beq_iff_eq] at h
  rcases h with rfl | rfl | rfl | rfl | rfl <;> exact ⟨rfl, fun hc => absurd hc (by decide)⟩

theorem IsContent.atMarker (h : IsContent k.rest) : k.atMarker = false := by
  rw [Cursor.atMarker, Cursor.isMarker, Cursor.isMarker]
  cases hrest : k.rest with
  | nil => simp
  | cons c s =>
      have hcontent : IsContent (c :: s) := hrest ▸ h
      have hdot := hcontent.head.2.2.2.2
      have hdash := hcontent.2
      cases s with
      | nil => simp
      | cons d s =>
          by_cases hc : c = '-'
          · have hd := hdash hc
            simp at hd
            simp [hc, hd]
          · simp [hc, hdot]

theorem IsContent.break? (h : IsContent k.rest) : k.break? = none := by
  rw [Cursor.break?]
  cases hrest : k.rest with
  | nil => rfl
  | cons c s =>
      have hbreak := (hrest ▸ h : IsContent (c :: s)).head.2.1
      split
      · next hr => cases hr; cases hbreak
      · next hr => cases hr; rw [hbreak]; rfl
      · rfl

/-- A run over blanks ends at the content of the line. -/
theorem IsContent.span_margin {t : List Char} (h : IsContent t)
    (hrest : k.rest = List.replicate n ' ' ++ t) {kind : Char → Bool} (hspace : kind ' ' = true)
    (hkind : ∀ c, isBlank c = false → kind c = false) :
    k.span kind = (List.replicate n ' ', k.skip n) := by
  have hrun : k.rest.takeWhile kind = List.replicate n ' ' := by
    rw [hrest, List.takeWhile_append_of_pos fun c hc => by rw [List.eq_of_mem_replicate hc, hspace]]
    cases t with
    | nil => rw [List.takeWhile_nil, List.append_nil]
    | cons c t => rw [List.takeWhile_cons_of_neg (by simp [hkind c h.head.1]), List.append_nil]
  rw [Cursor.span, hrun, List.length_replicate]

theorem skip_margin {t : List Char} (hrest : k.rest = List.replicate n ' ' ++ t) :
    (k.skip n).rest = t := by
  rw [Cursor.skip, hrest, List.drop_left' (List.length_replicate ..)]

/-- Behind a margin nothing else is dropped. -/
theorem skipLines_margin {t : List Char} (h : IsContent t)
    (hrest : k.rest = List.replicate n ' ' ++ t) (flow : Bool) {fuel : Nat} (hfuel : 0 < fuel)
    (allowed : Bool) : Scanner.skipLines flow fuel allowed k = (allowed, k.skip n) := by
  obtain ⟨fuel, rfl⟩ : ∃ f, fuel = f + 1 := ⟨fuel - 1, by omega⟩
  have hmark : (k.column == 0 && k.at? '\ufeff') = false := by
    rw [Cursor.at?, hrest]
    cases n with
    | succ n => simp [List.replicate_succ]
    | zero =>
        cases t with
        | nil => simp
        | cons c t => simp [h.head.2.2.2.1]
  have ht : IsContent (k.skip n).rest := by rwa [skip_margin hrest]
  have hcomment : (k.skip n).skipComment = k.skip n := by
    rw [Cursor.skipComment, Cursor.at?, skip_margin hrest]
    cases t with
    | nil => simp
    | cons c t => simp [h.head.2.2.1]
  rw [Scanner.skipLines]
  simp only [hmark, Bool.false_eq_true, if_false]
  rw [h.span_margin hrest (by simp) (by simp [isBlank]; grind)]
  simp only [hcomment, ht.break?]

/-- The end of a line and the margin of the next one are dropped, and a key may begin. -/
theorem skipLines_newline {t : List Char} (h : IsContent t)
    (hrest : k.rest = '\n' :: (List.replicate n ' ' ++ t)) {fuel : Nat} (hfuel : 1 < fuel)
    (allowed : Bool) :
    ∃ k', Scanner.skipLines false fuel allowed k = (true, k') ∧ k'.column = n ∧ k'.rest = t := by
  obtain ⟨fuel, rfl⟩ : ∃ f, fuel = f + 1 := ⟨fuel - 1, by omega⟩
  let next : Cursor := ⟨k.toPlace.down 1, List.replicate n ' ' ++ t⟩
  refine ⟨next.skip n, ?_, ?_, skip_margin rfl⟩
  · rw [Scanner.skipLines]
    have hspan : ∀ kind : Char → Bool, kind '\n' = false → k.span kind = ([], k) := by
      intro kind hkind
      rw [Cursor.span, hrest, List.takeWhile_cons_of_neg (by simp [hkind])]
      rfl
    have hmark : k.at? '\ufeff' = false := by rw [Cursor.at?, hrest]; rfl
    have hcomment : k.skipComment = k := by rw [Cursor.skipComment, Cursor.at?, hrest]; rfl
    have hbreak : k.break? = some (['\n'], next) := by rw [Cursor.break?, hrest]; rfl
    rw [hmark, Bool.and_false]
    simp only [Bool.false_eq_true, if_false]
    rw [hspan _ (by simp)]
    simp only [hcomment, hbreak, Bool.not_false, Bool.or_true]
    exact skipLines_margin h rfl false (by omega) true
  · exact Nat.zero_add n

end Content

namespace Scanner

variable {s s' : Scanner} {allowed : Bool} {tokens : List Token} {columns : List Nat}
  {column n : Nat} {rest t : List Char}

/-- Whatever tokens the first state leads to, the second one leads to, and no token is taken
from less than one character. -/
def Leads (s s' : Scanner) : Prop :=
  ∃ n, n + s'.cursor.rest.length ≤ s.cursor.rest.length ∧ ∀ fuel, run (n + fuel) s = run fuel s'

theorem Leads.refl (s : Scanner) : Leads s s := ⟨0, by omega, fun fuel => by rw [Nat.zero_add]⟩

theorem Leads.trans {s'' : Scanner} (h : Leads s s') (h' : Leads s' s'') : Leads s s'' := by
  obtain ⟨m, hm, hrun⟩ := h
  obtain ⟨n, hn, hrun'⟩ := h'
  refine ⟨m + n, by omega, fun fuel => ?_⟩
  rw [Nat.add_assoc, hrun, hrun']

/-- Only what stands at the next token counts. -/
theorem run_congr (h : s.toToken = s'.toToken) (fuel : Nat) : run fuel s = run fuel s' := by
  cases fuel with
  | zero => rfl
  | succ fuel => rw [run, run, h]

theorem leads_of_toToken (h : s.toToken = s'.toToken)
    (hrest : s'.cursor.rest.length ≤ s.cursor.rest.length) : Leads s s' :=
  ⟨0, by omega, fun fuel => by rw [Nat.zero_add, run_congr h]⟩

theorem leads_of_takeToken (hrest : s.toToken.cursor.rest ≠ [])
    (h : s.toToken.takeToken = some s')
    (hlength : s'.cursor.rest.length < s.cursor.rest.length) : Leads s s' := by
  refine ⟨1, by omega, fun fuel => ?_⟩
  rw [Nat.add_comm, run]
  simp [hrest, h]

/-- What is known of a scanner in front of a text outside brackets: whether a key may begin,
the tokens so far, the columns of the open lists and maps, and its own column. Where a key may
have begun, none is asked for. -/
structure At (s : Scanner) (allowed : Bool) (tokens : List Token) (columns : List Nat)
    (column : Nat) (rest : List Char) : Prop where
  allowed : s.keyAllowed = allowed
  tokens : s.tokens.toList = tokens
  columns : s.columns = columns
  column : s.cursor.column = column
  rest : s.cursor.rest = rest
  outer : s.outer = []
  keyStart : s.keyStart.any (·.required) = false
  fuel : s.cursor.rest.length < s.fuel

theorem closeTo_of_le (h : ∀ c ∈ s.columns.head?, c ≤ column) : s.closeTo column = s := by
  rw [closeTo, closeWhile]
  have hnone : s.columns.takeWhile (column < ·) = [] := by
    cases hcolumns : s.columns with
    | nil => rfl
    | cons c columns =>
        have hc := h c (by rw [hcolumns]; rfl)
        exact List.takeWhile_cons_of_neg (by simp; omega)
  split
  · rfl
  · rw [hnone]
    simp

theorem closeWhile_eq (houter : s.outer = []) (kind : Nat → Bool) :
    s.closeWhile kind =
      { s with
        columns := s.columns.drop (s.columns.takeWhile kind).length
        tokens := s.tokens ++ Array.replicate (s.columns.takeWhile kind).length .blockEnd } := by
  rw [closeWhile, if_neg (by simp [inFlow, houter])]

/-- The innermost list or map ends first. -/
theorem closeWhile_cons {c : Nat} {kind : Nat → Bool} (houter : s.outer = [])
    (hcolumns : s.columns = c :: columns) (hc : kind c = true) :
    s.closeWhile kind =
      { s with columns := columns, tokens := s.tokens.push .blockEnd }.closeWhile kind := by
  rw [closeWhile_eq houter, closeWhile_eq (by exact houter), hcolumns,
    List.takeWhile_cons_of_pos hc]
  simp [Array.replicate_succ', -Array.append_singleton]

/-- Where all lists and maps end, it makes no difference that some of them have ended before. -/
theorem closeAll_closeTo (houter : s.outer = []) : (s.closeTo column).closeAll = s.closeAll := by
  have hlength : (s.columns.takeWhile (column < ·)).length ≤ s.columns.length :=
    (List.takeWhile_prefix _).length_le
  have hall : ∀ columns : List Nat, columns.takeWhile (fun _ => true) = columns := by
    intro columns
    induction columns with
    | nil => rfl
    | cons c columns ih => rw [List.takeWhile_cons_of_pos rfl, ih]
  rw [closeTo, closeWhile_eq houter, closeAll, closeWhile_eq (by exact houter), closeAll,
    closeWhile_eq houter]
  simp only [hall]
  simp [hlength]

theorem toToken_eq (hrest : IsContent s.cursor.rest) (hfuel : s.cursor.rest.length < s.fuel) :
    s.toToken = s.closeTo s.cursor.column := by
  have hskip := skipLines_margin (n := 0) hrest rfl s.inFlow (Nat.zero_lt_of_lt hfuel) s.keyAllowed
  rw [toToken, hskip, Cursor.skip_zero]

/-- What stands right of the innermost list or map is taken as it is. -/
theorem leads_of_take (hrest : IsContent s.cursor.rest) (hfuel : s.cursor.rest.length < s.fuel)
    (hcolumns : ∀ c ∈ s.columns.head?, c ≤ s.cursor.column) (htake : s.takeToken = some s')
    (hlength : s'.cursor.rest.length < s.cursor.rest.length) : Leads s s' := by
  have htoken : s.toToken = s := by rw [toToken_eq hrest hfuel, closeTo_of_le hcolumns]
  refine leads_of_takeToken ?_ ?_ hlength
  · rw [htoken]
    exact List.ne_nil_of_length_pos (Nat.zero_lt_of_lt hlength)
  · rw [htoken, htake]

theorem At.toToken_eq (h : At s allowed tokens columns column rest) (hrest : IsContent rest) :
    s.toToken = s.closeTo column := by
  rw [Scanner.toToken_eq (by rwa [h.rest]) h.fuel, h.column]

theorem At.leads_of_take (h : At s allowed tokens columns column rest) (hrest : IsContent rest)
    (hcolumns : ∀ c ∈ columns.head?, c ≤ column) (htake : s.takeToken = some s')
    (hlength : s'.cursor.rest.length < s.cursor.rest.length) : Leads s s' := by
  refine Scanner.leads_of_take (by rwa [h.rest]) h.fuel ?_ htake hlength
  rwa [h.columns, h.column]

theorem At.atMarker (h : At s allowed tokens columns column rest) (hrest : IsContent rest) :
    s.cursor.atMarker = false :=
  IsContent.atMarker (by rwa [h.rest])

theorem dropKeyStart_eq (h : s.keyStart.any (·.required) = false) :
    s.dropKeyStart = some { s with keyStart := none } := by
  rw [dropKeyStart, if_neg (by simp [h])]

/-! ## Blanks, line ends, and the end of lists and maps -/

theorem At.skip (h : At s allowed tokens columns column (List.replicate n ' ' ++ t))
    (ht : IsContent t) :
    ∃ s', Leads s s' ∧ At s' allowed tokens columns (column + n) t := by
  have hrest : (s.cursor.skip n).rest = t := skip_margin h.rest
  have hlength : t.length ≤ s.cursor.rest.length := by
    rw [h.rest, List.length_append]
    omega
  have hfuel := h.fuel
  have hskip : At { s with cursor := s.cursor.skip n } allowed tokens columns (column + n) t :=
    ⟨h.allowed, h.tokens, h.columns, by rw [← h.column]; rfl, hrest, h.outer, h.keyStart,
      by dsimp only; rw [hrest]; omega⟩
  refine ⟨_, leads_of_toToken ?_ ?_, hskip⟩
  · rw [hskip.toToken_eq ht, Scanner.toToken,
      skipLines_margin ht h.rest s.inFlow (by omega) s.keyAllowed, ← hskip.column]
  · dsimp only
    rw [hrest]
    exact hlength

theorem At.newline (h : At s allowed tokens columns column ('\n' :: (List.replicate n ' ' ++ t)))
    (ht : IsContent t) : ∃ s', Leads s s' ∧ At s' true tokens columns n t := by
  have hflow : s.inFlow = false := by rw [inFlow, h.outer]; rfl
  have hlength : t.length < s.cursor.rest.length := by
    rw [h.rest, List.length_cons, List.length_append]
    omega
  have hfuel := h.fuel
  have hlines : 1 < s.fuel := by omega
  obtain ⟨k, hskip, hcolumn, hrest⟩ := skipLines_newline ht h.rest hlines s.keyAllowed
  have hnext : At { s with keyAllowed := true, cursor := k } true tokens columns n t :=
    ⟨rfl, h.tokens, h.columns, hcolumn, hrest, h.outer, h.keyStart,
      by dsimp only; rw [hrest]; omega⟩
  refine ⟨_, leads_of_toToken ?_ ?_, hnext⟩
  · rw [hnext.toToken_eq ht, Scanner.toToken, hflow, hskip, ← hcolumn]
  · dsimp only
    rw [hrest]
    omega

/-- At the end of the text all lists and maps end. -/
theorem At.run_end (h : At s allowed tokens columns column []) (fuel : Nat) :
    run (fuel + 1) s = s.leaveDocument.map (·.tokens) := by
  have hrest : (s.closeTo column).cursor.rest = [] := by
    rw [closeTo, closeWhile_eq h.outer]
    exact h.rest
  rw [run, h.toToken_eq trivial]
  simp only [hrest, leaveDocument, closeAll_closeTo h.outer]
  cases s.closeAll.dropKeyStart <;> rfl

/-- A list or map ends in front of a line that does not belong to it, and at the end of the
text. -/
theorem At.close {c : Nat} (h : At s true tokens (c :: columns) column rest)
    (hrest : IsContent rest) (hends : column < c ∨ rest = []) :
    ∃ s', Leads s s' ∧ At s' true (tokens ++ [.blockEnd]) columns column rest := by
  have hnext : At { s with columns := columns, tokens := s.tokens.push .blockEnd } true
      (tokens ++ [.blockEnd]) columns column rest :=
    ⟨h.allowed, by simp [h.tokens], rfl, h.column, h.rest, h.outer, h.keyStart, h.fuel⟩
  refine ⟨_, ?_, hnext⟩
  rcases hends with hlt | rfl
  · refine leads_of_toToken ?_ (Nat.le_refl _)
    rw [h.toToken_eq hrest, hnext.toToken_eq hrest]
    exact closeWhile_cons h.outer h.columns (by simp [hlt])
  · refine ⟨0, Nat.le_of_eq (Nat.zero_add _), fun fuel => ?_⟩
    rw [Nat.zero_add]
    cases fuel with
    | zero => rfl
    | succ fuel =>
        rw [h.run_end, hnext.run_end, leaveDocument, leaveDocument, closeAll, closeAll,
          closeWhile_cons h.outer h.columns rfl]

/-! ## Lists and maps begin -/

/-- What it takes to have a list or map at a column: nothing if one is open there, and
otherwise its start. -/
def opening (start : Token) (column : Nat) (columns : List Nat) : List Token × List Nat :=
  if columns.head? = some column then ([], columns) else ([start], column :: columns)

theorem opening_of_lt (start : Token) (h : ∀ c ∈ columns.head?, c < column) :
    opening start column columns = ([start], column :: columns) := by
  rw [opening, if_neg]
  intro heq
  exact Nat.lt_irrefl column (h column heq)

theorem opening_self (start : Token) :
    opening start column (column :: columns) = ([], column :: columns) := by
  rw [opening, List.head?_cons, if_pos rfl]

theorem opening_columns (start : Token) (column : Nat) (columns : List Nat) :
    ∃ outer, (opening start column columns).2 = column :: outer := by
  rw [opening]
  split
  · next h =>
      obtain ⟨outer, rfl⟩ := List.head?_eq_some_iff.1 h
      exact ⟨outer, rfl⟩
  · exact ⟨columns, rfl⟩

theorem eq_toArray {xs : Array Token} {first : List Token} (h : xs.toList = first) :
    xs = first.toArray := by
  rw [← h]

theorem insert_eq {first last : List Token} (h : s.tokens.toList = first ++ last) (t : Token) :
    s.insert first.length t = { s with tokens := (first ++ t :: last).toArray } := by
  have happend : s.tokens = first.toArray ++ last.toArray := by
    rw [eq_toArray h, List.append_toArray]
  have hinsert := tokens_insert s first.toArray last.toArray t happend
  rw [List.size_toArray] at hinsert
  have htokens : (s.insert first.length t).tokens = (first ++ t :: last).toArray := by
    rw [hinsert]
    simp
  rw [← htokens]
  rfl

theorem indent_eq (houter : s.outer = []) (hcolumns : ∀ c ∈ s.columns.head?, c ≤ column)
    (first last : List Token) (h : s.tokens.toList = first ++ last) (start : Token) :
    s.indent column first.length start =
      { s with
        tokens := (first ++ (opening start column s.columns).1 ++ last).toArray
        columns := (opening start column s.columns).2 } := by
  obtain ⟨fuel, cursor, tokens, columns, keyStart, outer, keyAllowed⟩ := s
  dsimp only at houter hcolumns h
  subst houter
  cases columns with
  | nil =>
      rw [indent, if_neg (by simp [inFlow, margin]), insert_eq h, opening, if_neg (by simp)]
      simp
  | cons c columns =>
      have hc : c ≤ column := hcolumns c rfl
      rw [indent, opening]
      by_cases heq : c = column
      · rw [if_pos (by simp [inFlow, margin, heq]), if_pos (by simp [heq]), eq_toArray h]
        simp
      · have hlt : ¬ column < c + 1 := by omega
        rw [if_neg (by simp [inFlow, margin, hlt]), insert_eq h, if_neg (by simp [heq])]
        simp

end Scanner

end FeatureTree.Yaml
