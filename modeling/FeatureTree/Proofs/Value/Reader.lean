import FeatureTree.Proofs.Value.Spelling

/-!
# Reading JSON texts

A reader of JSON texts is any function that finds the value that a text spells, in whatever
layout (`JsonReader`). Nothing is asked of it about texts that spell no value, nor about numbers
of more than 64 bits. There is one (`JsonReader.byBrackets`), so what is said of all of them is
said of something: it goes through the text once, enters brackets one inside the other, and
reads the parts of lists and of maps by the same loop (`parts?`).

A value is read in front of any text that goes on with no digit, as a number would not end
there (`value?_spells`); in a list or map a comma or a bracket stands behind each part.
-/

namespace FeatureTree.Value

/-- A reader of JSON texts. -/
structure JsonReader where
  read : String → Option Value
  /-- It finds the value that a text spells, if the numbers fit into 64 bits. -/
  read_of_spells : ∀ v text, v.NumbersIn (· ≤ maxNat) → Spells v text.toList →
    read text = some v

namespace Json

/-- The number of a hexadecimal digit. -/
def hexValue? (c : Char) : Option Nat :=
  if '0' ≤ c && c ≤ '9' then some (c.toNat - 48)
  else if 'a' ≤ c && c ≤ 'f' then some (c.toNat - 87)
  else if 'A' ≤ c && c ≤ 'F' then some (c.toNat - 55)
  else none

/-- The character of four hexadecimal digits, if there is one. -/
def hexChar? (a b c d : Char) : Option Char := do
  let n := ((← hexValue? a) * 16 + (← hexValue? b)) * 256 + (← hexValue? c) * 16 + (← hexValue? d)
  if n.isValidChar then some (Char.ofNat n) else none

/-- The character that stands for one behind a backslash. -/
def unescape? : Char → Option Char
  | '"' => some '"'
  | '\\' => some '\\'
  | '/' => some '/'
  | 'n' => some '\n'
  | 'r' => some '\r'
  | 't' => some '\t'
  | 'b' => some '\x08'
  | 'f' => some '\x0c'
  | _ => none

/-- Reads characters up to a quote. -/
def quoted? : List Char → Option (List Char × List Char)
  | [] => none
  | '"' :: s => some ([], s)
  | '\\' :: 'u' :: a :: b :: c :: d :: s => do
    let char ← hexChar? a b c d
    (quoted? s).map fun (cs, s) => (char :: cs, s)
  | '\\' :: e :: s => do
    let char ← unescape? e
    (quoted? s).map fun (cs, s) => (char :: cs, s)
  | c :: s => if c.toNat < 32 then none else (quoted? s).map fun (cs, s) => (c :: cs, s)

/-- Reads a text in quotes. -/
def text? : List Char → Option (String × List Char)
  | '"' :: s => (quoted? s).map fun (cs, s) => (String.ofList cs, s)
  | _ => none

/-- Reads a natural number, which has no zero in front. -/
def nat? (s : List Char) : Option (Nat × List Char) :=
  match s.takeWhile Char.isDigit with
  | [] => none
  | '0' :: _ :: _ => none
  | digits => some (Nat.ofDigitChars 10 digits 0, s.dropWhile Char.isDigit)

/-- Reads what has no parts. -/
def scalar? : List Char → Option (Value × List Char)
  | '"' :: s => (quoted? s).map fun (cs, s) => (.text (String.ofList cs), s)
  | 'n' :: 'u' :: 'l' :: 'l' :: s => some (.null, s)
  | 't' :: 'r' :: 'u' :: 'e' :: s => some (.bool true, s)
  | 'f' :: 'a' :: 'l' :: 's' :: 'e' :: s => some (.bool false, s)
  | s => (nat? s).map fun (n, s) => (.nat n, s)

/-- Reads parts with commas between them, up to a bracket that closes. -/
def parts? {α : Type} (part? : List Char → Option (α × List Char)) (close : Char) :
    Nat → List Char → Option (List α × List Char)
  | 0, _ => none
  | n + 1, s => do
    let (a, s) ← part? s
    match s.dropWhile isBlank with
    | ',' :: s => (parts? part? close n s).map fun (as, s) => (a :: as, s)
    | c :: s => if c = close then some ([a], s) else none
    | [] => none

/-- Reads what stands in brackets, the first of which is open. -/
def bracketed? {α : Type} (part? : List Char → Option (α × List Char)) (close : Char)
    (s : List Char) : Option (List α × List Char) :=
  match s.dropWhile isBlank with
  | c :: rest => if c = close then some ([], rest) else parts? part? close s.length s
  | [] => none

/-- Reads a name, a colon, and what stands behind it. -/
def named? {α : Type} (part? : List Char → Option (α × List Char)) (s : List Char) :
    Option ((String × α) × List Char) := do
  let (name, s) ← text? (s.dropWhile isBlank)
  match s.dropWhile isBlank with
  | ':' :: s => (part? s).map fun (a, s) => ((name, a), s)
  | _ => none

/-- Reads a value of at most so many levels. -/
def value? : Nat → List Char → Option (Value × List Char)
  | 0, _ => none
  | n + 1, s =>
    match s.dropWhile isBlank with
    | '[' :: s => (bracketed? (value? n) ']' s).map fun (vs, s) => (.list vs, s)
    | '\x7b' :: s => (bracketed? (named? (value? n)) '\x7d' s).map fun (es, s) => (.map es, s)
    | s => scalar? s

/-- Reads a text as a value, with nothing but blanks behind it. -/
def read (text : String) : Option Value := do
  let (v, rest) ← value? (text.length + 1) text.toList
  if rest.all isBlank then some v else none

/-! ## Characters and scalars -/

theorem hexValue?_hexDigit : ∀ n < 16, hexValue? (hexDigit n) = some n := by decide

/-- A character in quotes is read back as itself. -/
theorem quoted?_escapeChar (c : Char) (t : List Char) :
    quoted? (escapeChar c ++ t) = (quoted? t).map fun (cs, s) => (c :: cs, s) := by
  unfold escapeChar
  split
  case h_8 hquote hbackslash _ _ _ _ _ =>
    split
    · next hsmall =>
        have hhigh := hexValue?_hexDigit (c.toNat / 16) (by omega)
        have hlow := hexValue?_hexDigit (c.toNat % 16) (by omega)
        have hzero : hexValue? '0' = some 0 := rfl
        have hchar : hexChar? '0' '0' (hexDigit (c.toNat / 16)) (hexDigit (c.toNat % 16)) =
            some c := by
          have hcode : c.toNat / 16 * 16 + c.toNat % 16 = c.toNat := by omega
          have hvalid : c.toNat.isValidChar := c.valid
          simp [hexChar?, hzero, hhigh, hlow, hcode, hvalid, Char.ofNat_toNat]
        show (hexChar? '0' '0' _ _).bind _ = _
        rw [hchar]
        rfl
    · next hlarge =>
        show quoted? (c :: t) = _
        rw [quoted?, if_neg hlarge]
        · exact hquote
        · exact fun _ _ _ _ _ h _ => hbackslash h
        · exact fun _ _ h _ => hbackslash h
  all_goals rfl

theorem quoted?_flatMap (s rest : List Char) :
    quoted? (s.flatMap escapeChar ++ '"' :: rest) = some (s, rest) := by
  induction s with
  | nil => rfl
  | cons c s ih =>
      rw [List.flatMap_cons, List.append_assoc, quoted?_escapeChar, ih]
      rfl

theorem text?_quoted (s : String) (rest : List Char) :
    text? ((quoted s).toList ++ rest) = some (s, rest) := by
  have hquoted : (quoted s).toList ++ rest =
      '"' :: (s.toList.flatMap escapeChar ++ '"' :: rest) := by
    simp [quoted]
  rw [hquoted, text?, quoted?_flatMap]
  exact congrArg (fun t => some (t, rest)) String.ofList_toList

/-- The text does not go on with a digit. -/
def NoDigit (s : List Char) : Prop := ∀ c ∈ s.head?, c.isDigit = false

/-- A number is written with a digit in front. -/
theorem exists_digit_cons (n : Nat) : ∃ d ds, n.repr.toList = d :: ds ∧ d.isDigit = true := by
  rw [Nat.toList_repr]
  obtain ⟨d, ds, hds⟩ := List.exists_cons_of_ne_nil (Nat.toDigits_ne_nil (n := n) (b := 10))
  exact ⟨d, ds, hds, Nat.isDigit_of_mem_toDigits (by decide) (by decide) (hds ▸ List.mem_cons_self)⟩

theorem nat?_repr (n : Nat) {rest : List Char} (hrest : NoDigit rest) :
    nat? (n.repr.toList ++ rest) = some (n, rest) := by
  have hdigits : ∀ c ∈ Nat.toDigits 10 n, c.isDigit = true :=
    fun c hc => Nat.isDigit_of_mem_toDigits (by decide) (by decide) hc
  have htake : (Nat.toDigits 10 n ++ rest).takeWhile Char.isDigit = Nat.toDigits 10 n := by
    rw [List.takeWhile_append_of_pos hdigits]
    cases rest with
    | nil => exact List.append_nil _
    | cons c rest =>
        rw [List.takeWhile_cons_of_neg (by simp [hrest c rfl]), List.append_nil]
  have hdrop : (Nat.toDigits 10 n ++ rest).dropWhile Char.isDigit = rest := by
    rw [List.dropWhile_append_of_pos hdigits]
    cases rest with
    | nil => rfl
    | cons c rest => rw [List.dropWhile_cons_of_neg (by simp [hrest c rfl])]
  rw [Nat.toList_repr, nat?, htake, hdrop]
  split
  · next hnil => exact absurd hnil Nat.toDigits_ne_nil
  · next d ds hzero =>
      by_cases hn : n = 0
      · subst hn
        cases hzero
      · have hhead := Text.head_toDigits (Nat.pos_of_ne_zero hn)
        rw [hzero] at hhead
        exact absurd rfl hhead
  · rw [Nat.ofDigitChars_ten_toDigits]

theorem scalar?_scalarText {v : Value} (hv : v.depth = 0)
    (hs : Spells v (scalarText v).toList) {rest : List Char} (hrest : NoDigit rest) :
    scalar? ((scalarText v).toList ++ rest) = some (v, rest) := by
  match v with
  | .null => rfl
  | .bool true => rfl
  | .bool false => rfl
  | .number _ => exact hs.elim
  | .list _ => cases hv
  | .map _ => cases hv
  | .text s =>
      have hquoted : (scalarText (.text s)).toList ++ rest =
          '"' :: (s.toList.flatMap escapeChar ++ '"' :: rest) := by
        simp [scalarText, quoted]
      rw [hquoted, scalar?, quoted?_flatMap]
      exact congrArg (fun t => some (Value.text t, rest)) String.ofList_toList
  | .nat n =>
      obtain ⟨d, ds, hds, hd⟩ := exists_digit_cons n
      have hnat := nat?_repr n hrest
      rw [hds] at hnat
      show scalar? (n.repr.toList ++ rest) = _
      rw [hds, scalar?, hnat]
      · rfl
      -- no other scalar begins with a digit
      all_goals
        intro s h
        injection h with h
        subst h
        cases hd

/-! ## Parts of lists and maps -/

theorem dropWhile_blank {b s : List Char} (hb : Blank b) {c : Char} (hc : isBlank c = false) :
    (b ++ c :: s).dropWhile isBlank = c :: s := by
  rw [List.dropWhile_append_of_pos hb, List.dropWhile_cons_of_neg (by simp [hc])]

/-- A bracket that closes. -/
def IsCloser (c : Char) : Prop := c = ']' ∨ c = '\x7d'

instance : DecidablePred IsCloser := fun c => inferInstanceAs (Decidable (c = ']' ∨ c = '\x7d'))

/-- A comma or a bracket that closes, which stand behind a part. -/
def IsSign (c : Char) : Prop := c = ',' ∨ IsCloser c

theorem IsSign.not_blank {c : Char} (h : IsSign c) : isBlank c = false := by
  obtain rfl | rfl | rfl := h <;> rfl

theorem noDigit_blank_sign {b rest : List Char} (hb : Blank b) {c : Char} (hc : IsSign c) :
    NoDigit (b ++ c :: rest) := by
  cases b with
  | nil =>
      rintro _ ⟨⟩
      obtain rfl | rfl | rfl := hc <;> rfl
  | cons d b =>
      rintro _ ⟨⟩
      have hd := hb d List.mem_cons_self
      simp only [isBlank, Bool.or_eq_true, beq_iff_eq] at hd
      obtain ((rfl | rfl) | rfl) | rfl := hd <;> rfl

/-- A reader reads the texts of a kind as a part. They begin with no bracket that closes. -/
structure IsPart {α : Type} (part? : List Char → Option (α × List Char))
    (P : List Char → Prop) (a : α) : Prop where
  begins : ∀ s rest, P s →
    ∃ c t, (s ++ rest).dropWhile isBlank = c :: t ∧ ¬ IsCloser c
  reads : ∀ s rest c, P s → IsSign c →
    ∃ after, Blank after ∧ part? (s ++ c :: rest) = some (a, after ++ c :: rest)

/-- A text spells parts, with commas between them. -/
def SpellsParts {α : Type} (P : α → List Char → Prop) : List α → List Char → Prop
  | [], t => Blank t
  | [a], t => P a t
  | a :: b :: as, t => ∃ first rest, t = first ++ ',' :: rest ∧ P a first ∧
      SpellsParts P (b :: as) rest

section Parts

variable {α : Type} {part? : List Char → Option (α × List Char)} {P : α → List Char → Prop}
  {a : α} {as : List α} {s t after rest : List Char} {close : Char}

theorem parts?_last (hread : part? s = some (a, after ++ close :: rest)) (hafter : Blank after)
    (hclose : IsCloser close) (n : Nat) :
    parts? part? close (n + 1) s = some ([a], rest) := by
  rw [parts?, hread]
  obtain rfl | rfl := hclose
  all_goals
    simp only [Option.bind_eq_bind, Option.bind_some, dropWhile_blank hafter (c := ']') rfl,
      dropWhile_blank hafter (c := '\x7d') rfl]
    rfl

theorem parts?_more (hread : part? s = some (a, after ++ ',' :: rest)) (hafter : Blank after)
    (n : Nat) : parts? part? close (n + 1) s =
      (parts? part? close n rest).map fun (as, s) => (a :: as, s) := by
  rw [parts?, hread]
  simp only [Option.bind_eq_bind, Option.bind_some, dropWhile_blank hafter (c := ',') rfl]

theorem SpellsParts.length_le (ht : SpellsParts P as t) : as.length ≤ t.length + 1 := by
  induction as generalizing t with
  | nil => exact Nat.zero_le _
  | cons a as ih =>
      cases as with
      | nil => exact Nat.le_add_left 1 _
      | cons b as =>
          obtain ⟨first, rest, rfl, -, hrest⟩ := ht
          have hlength := ih hrest
          simp only [List.length_append, List.length_cons] at hlength ⊢
          omega

/-- Every part is spelled by a piece of the text. -/
theorem SpellsParts.piece (ht : SpellsParts P as t) (ha : a ∈ as) :
    ∃ s, P a s ∧ s.length ≤ t.length := by
  induction as generalizing t with
  | nil => cases ha
  | cons b as ih =>
      cases as with
      | nil =>
          obtain rfl := List.mem_singleton.1 ha
          exact ⟨t, ht, Nat.le_refl _⟩
      | cons c as =>
          obtain ⟨first, rest, rfl, hfirst, hrest⟩ := ht
          simp only [List.length_append, List.length_cons]
          obtain rfl | ha := List.mem_cons.1 ha
          · exact ⟨first, hfirst, by omega⟩
          · obtain ⟨s, hs, hle⟩ := ih hrest ha
            exact ⟨s, hs, by omega⟩

theorem IsPart.parts_begin (ha : IsPart part? (P a) a) (ht : SpellsParts P (a :: as) t)
    (rest : List Char) : ∃ c u, (t ++ rest).dropWhile isBlank = c :: u ∧ ¬ IsCloser c := by
  cases as with
  | nil => exact ha.begins t rest ht
  | cons b as =>
      obtain ⟨first, more, rfl, hfirst, -⟩ := ht
      rw [List.append_assoc]
      exact ha.begins first _ hfirst

/-- By induction on the parts: behind each of them but the last one stands a comma. -/
theorem parts?_of_spells (hparts : ∀ a ∈ as, IsPart part? (P a) a) (hne : as ≠ [])
    (hclose : IsCloser close) (ht : SpellsParts P as t) {n : Nat}
    (hn : as.length ≤ n) : parts? part? close n (t ++ close :: rest) = some (as, rest) := by
  induction as generalizing t n with
  | nil => exact absurd rfl hne
  | cons a as ih =>
      obtain ⟨n, rfl⟩ : ∃ m, n = m + 1 :=
        Nat.exists_eq_succ_of_ne_zero (Nat.ne_of_gt (Nat.lt_of_lt_of_le (Nat.succ_pos _) hn))
      obtain ⟨ha, has⟩ := List.forall_mem_cons.1 hparts
      cases as with
      | nil =>
          obtain ⟨after, hafter, hread⟩ := ha.reads t rest close ht (.inr hclose)
          exact parts?_last hread hafter hclose n
      | cons b as =>
          obtain ⟨first, more, rfl, hfirst, hmore⟩ := ht
          obtain ⟨after, hafter, hread⟩ :=
            ha.reads first (more ++ close :: rest) ',' hfirst (.inl rfl)
          rw [List.append_assoc, List.cons_append, parts?_more hread hafter,
            ih has (List.cons_ne_nil b as) hmore (Nat.le_of_succ_le_succ hn)]
          rfl

/-- The first part tells a list or map that is not empty from one that is. -/
theorem bracketed?_of_spells (hparts : ∀ a ∈ as, IsPart part? (P a) a)
    (hclose : IsCloser close) (ht : SpellsParts P as t) :
    bracketed? part? close (t ++ close :: rest) = some (as, rest) := by
  cases as with
  | nil =>
      rw [bracketed?, dropWhile_blank ht (IsSign.not_blank (.inr hclose))]
      exact if_pos rfl
  | cons a as =>
      obtain ⟨c, u, hdrop, hopen⟩ :=
        (hparts a List.mem_cons_self).parts_begin ht (close :: rest)
      have hother : c ≠ close := fun heq => hopen (heq ▸ hclose)
      have hlength : (a :: as).length ≤ (t ++ close :: rest).length := by
        have hle := SpellsParts.length_le ht
        simp only [List.length_append, List.length_cons] at hle ⊢
        omega
      rw [bracketed?, hdrop]
      show (if c = close then _ else parts? part? close _ _) = _
      rw [if_neg hother]
      exact parts?_of_spells hparts (List.cons_ne_nil a as) hclose ht hlength

/-- An entry is a part if its value is one. -/
theorem isPart_entry (name : String) {P : List Char → Prop} (h : IsPart part? (Padded P) a) :
    IsPart (named? part?) (SpellsEntry name P) (name, a) where
  begins := by
    rintro _ rest ⟨_, second, rfl, ⟨before, _, after, rfl, hbefore, rfl, hafter⟩, hsecond⟩
    refine ⟨'"', name.toList.flatMap escapeChar ++ '"' :: (after ++ ':' :: (second ++ rest)), ?_,
      by decide⟩
    rw [← dropWhile_blank hbefore (c := '"') rfl]
    simp [quoted]
  reads := by
    rintro _ rest c ⟨_, second, rfl, ⟨before, _, after, rfl, hbefore, rfl, hafter⟩, hsecond⟩ hc
    obtain ⟨behind, hbehind, hread⟩ := h.reads second rest c hsecond hc
    refine ⟨behind, hbehind, ?_⟩
    have hdrop : (((before ++ ((quoted name).toList ++ after)) ++ ':' :: second) ++
        c :: rest).dropWhile isBlank =
          (quoted name).toList ++ (after ++ ':' :: (second ++ c :: rest)) := by
      have hquote := dropWhile_blank (s := name.toList.flatMap escapeChar ++ '"' ::
        (after ++ ':' :: (second ++ c :: rest))) hbefore (c := '"') rfl
      simpa [quoted] using hquote
    rw [named?, hdrop, text?_quoted]
    simp only [Option.bind_eq_bind, Option.bind_some, dropWhile_blank hafter (c := ':') rfl, hread]
    rfl

end Parts

theorem spellsItems_iff {vs : List Value} {t : List Char} :
    SpellsItems vs t ↔ SpellsParts (fun v => Padded fun s => Spells v s) vs t := by
  induction vs generalizing t with
  | nil => exact Iff.rfl
  | cons v vs ih =>
      cases vs with
      | nil => exact Iff.rfl
      | cons w vs => simp only [SpellsItems, SpellsParts, ih]

theorem spellsEntries_iff {es : List (String × Value)} {t : List Char} :
    SpellsEntries es t ↔
      SpellsParts (fun e => SpellsEntry e.1 fun s => Spells e.2 s) es t := by
  induction es generalizing t with
  | nil => exact Iff.rfl
  | cons e es ih =>
      obtain ⟨name, v⟩ := e
      cases es with
      | nil => exact Iff.rfl
      | cons e es => simp only [SpellsEntries, SpellsParts, ih]

/-! ## Values -/

theorem isDigit_not_blank {c : Char} (hc : c.isDigit = true) : isBlank c = false := by
  cases hblank : isBlank c with
  | false => rfl
  | true =>
      simp only [isBlank, Bool.or_eq_true, beq_iff_eq] at hblank
      obtain ((rfl | rfl) | rfl) | rfl := hblank <;> cases hc

/-- A scalar begins with no blank and with no bracket. -/
theorem scalarText_begins (v : Value) (hv : v.depth = 0)
    (hs : Spells v (scalarText v).toList) :
    ∃ c t, (scalarText v).toList = c :: t ∧ isBlank c = false ∧
      c ≠ '[' ∧ c ≠ '\x7b' ∧ ¬ IsCloser c := by
  match v with
  | .null => exact ⟨_, _, rfl, by decide⟩
  | .bool true => exact ⟨_, _, rfl, by decide⟩
  | .bool false => exact ⟨_, _, rfl, by decide⟩
  | .number _ => exact hs.elim
  | .text s =>
      refine ⟨'"', s.toList.flatMap escapeChar ++ ['"'], ?_, by decide⟩
      simp [scalarText, quoted]
  | .nat n =>
      obtain ⟨d, ds, hds, hd⟩ := exists_digit_cons n
      refine ⟨d, ds, hds, isDigit_not_blank hd, ?_, ?_, ?_⟩
      · rintro rfl
        cases hd
      · rintro rfl
        cases hd
      · rintro (rfl | rfl) <;> cases hd
  | .list _ => cases hv
  | .map _ => cases hv

/-- The text of a value begins with no blank and with no bracket that closes. -/
theorem begins_of_spells {v : Value} {s : List Char} (h : Spells v s) :
    ∃ c t, s = c :: t ∧ isBlank c = false ∧ ¬ IsCloser c := by
  have hscalar (hv : v.depth = 0) (htext : s = (scalarText v).toList) :
      ∃ c t, s = c :: t ∧ isBlank c = false ∧ ¬ IsCloser c := by
    subst htext
    obtain ⟨c, t, hbegins, hblank, -, -, hopen⟩ := scalarText_begins v hv h
    exact ⟨c, t, hbegins, hblank, hopen⟩
  match v with
  | .null | .bool _ | .nat _ | .text _ => exact hscalar rfl h
  | .number _ => exact h.elim
  | .list _ =>
      obtain ⟨body, rfl, -⟩ := h
      exact ⟨_, _, rfl, by decide⟩
  | .map _ =>
      obtain ⟨body, rfl, -⟩ := h
      exact ⟨_, _, rfl, by decide⟩

/-- So many levels are enough to read the value from its texts. -/
def Reads (n : Nat) (v : Value) : Prop :=
  ∀ b s rest, Blank b → Spells v s → NoDigit rest → value? n (b ++ (s ++ rest)) = some (v, rest)

theorem Reads.isPart {n : Nat} {v : Value} (h : Reads n v) :
    IsPart (value? n) (Padded fun s => Spells v s) v where
  begins := by
    rintro _ rest ⟨before, s, after, rfl, hbefore, hs, -⟩
    obtain ⟨c, t, rfl, hblank, hopen⟩ := begins_of_spells hs
    refine ⟨c, t ++ (after ++ rest), ?_, hopen⟩
    have hdrop := dropWhile_blank (s := t ++ (after ++ rest)) hbefore hblank
    simpa using hdrop
  reads := by
    rintro _ rest c ⟨before, s, after, rfl, hbefore, hs, hafter⟩ hc
    refine ⟨after, hafter, ?_⟩
    rw [← h before s (after ++ c :: rest) hbefore hs (noDigit_blank_sign hafter hc)]
    simp

theorem reads_scalar (v : Value) (n : Nat) (hv : v.depth = 0)
    (htext : ∀ s, Spells v s → s = (scalarText v).toList) : Reads (n + 1) v := by
  intro b s rest hb hs hrest
  obtain rfl := htext s hs
  have hscalar := scalar?_scalarText hv hs hrest
  obtain ⟨c, t, hbegins, hblank, hlist, hmap, -⟩ := scalarText_begins v hv hs
  rw [hbegins, List.cons_append] at hscalar ⊢
  rw [value?, dropWhile_blank hb hblank]
  split
  · next h => exact absurd (List.cons.inj h).1 hlist
  · next h => exact absurd (List.cons.inj h).1 hmap
  · exact hscalar

theorem reads_list {vs : List Value} {n : Nat} (h : ∀ v ∈ vs, Reads n v) :
    Reads (n + 1) (.list vs) := by
  rintro b _ rest hb ⟨body, rfl, hbody⟩ -
  have hparts : bracketed? (value? n) ']' (body ++ ']' :: rest) = some (vs, rest) :=
    bracketed?_of_spells (fun v hv => (h v hv).isPart) (.inl rfl) (spellsItems_iff.1 hbody)
  have hopen := dropWhile_blank (s := body ++ ']' :: rest) hb (c := '[') rfl
  rw [List.cons_append, List.append_assoc, List.singleton_append, value?, hopen]
  show (bracketed? (value? n) ']' _).map _ = _
  rw [hparts]
  rfl

theorem reads_map {es : List (String × Value)} {n : Nat} (h : ∀ e ∈ es, Reads n e.2) :
    Reads (n + 1) (.map es) := by
  rintro b _ rest hb ⟨body, rfl, hbody⟩ -
  have hparts : bracketed? (named? (value? n)) '\x7d' (body ++ '\x7d' :: rest) =
      some (es, rest) :=
    bracketed?_of_spells (fun e he => isPart_entry e.1 (h e he).isPart) (.inr rfl)
      (spellsEntries_iff.1 hbody)
  have hopen := dropWhile_blank (s := body ++ '\x7d' :: rest) hb (c := '\x7b') rfl
  rw [List.cons_append, List.append_assoc, List.singleton_append, value?, hopen]
  show (bracketed? (named? (value? n)) '\x7d' _).map _ = _
  rw [hparts]
  rfl

mutual

/-- By induction on the value: its parts are read with one level less. -/
theorem value?_spells (v : Value) {n : Nat} (hn : v.depth < n) : Reads n v := by
  obtain ⟨n, rfl⟩ := Nat.exists_eq_succ_of_ne_zero (Nat.ne_of_gt (Nat.zero_lt_of_lt hn))
  have hle : v.depth ≤ n := Nat.le_of_lt_succ hn
  match v with
  | .null => exact reads_scalar .null n rfl fun _ h => h
  | .bool b => exact reads_scalar (.bool b) n rfl fun _ h => h
  | .nat i => exact reads_scalar (.nat i) n rfl fun _ h => h
  | .text s => exact reads_scalar (.text s) n rfl fun _ h => h
  | .number _ => exact fun _ _ _ _ hs => hs.elim
  | .list vs => exact reads_list (items_spells vs hle)
  | .map es => exact reads_map (entries_spells es hle)

theorem items_spells (vs : List Value) {n : Nat} (hn : depthItems vs < n) :
    ∀ v ∈ vs, Reads n v := by
  match vs with
  | [] => exact nofun
  | v :: vs =>
      obtain ⟨hv, hvs⟩ := Nat.max_lt.1 hn
      exact List.forall_mem_cons.2 ⟨value?_spells v hv, items_spells vs hvs⟩

theorem entries_spells (es : List (String × Value)) {n : Nat} (hn : depthEntries es < n) :
    ∀ e ∈ es, Reads n e.2 := by
  match es with
  | [] => exact nofun
  | (_, v) :: es =>
      obtain ⟨hv, hes⟩ := Nat.max_lt.1 hn
      exact List.forall_mem_cons.2 ⟨value?_spells v hv, entries_spells es hes⟩

end

theorem piece_of_spellsEntry {name : String} {P : List Char → Prop} {t : List Char}
    (h : SpellsEntry name P t) : ∃ s, P s ∧ s.length ≤ t.length := by
  obtain ⟨first, _, rfl, -, before, s, after, rfl, -, hs, -⟩ := h
  simp only [List.length_append, List.length_cons]
  exact ⟨s, hs, by omega⟩

mutual

/-- A text has a character for each level, so its length is levels enough. -/
theorem depth_le_length (v : Value) {s : List Char} (hs : Spells v s) : v.depth ≤ s.length := by
  match v with
  | .null | .bool _ | .nat _ | .text _ | .number _ => exact Nat.zero_le _
  | .list vs =>
      obtain ⟨body, rfl, hbody⟩ := hs
      have hle := depthItems_le_length vs (t := body) fun v hv => by
        obtain ⟨_, ⟨before, s, after, rfl, -, hs, -⟩, hle⟩ := (spellsItems_iff.1 hbody).piece hv
        simp only [List.length_append] at hle
        exact ⟨s, hs, by omega⟩
      rw [depth, List.length_cons, List.length_append]
      omega
  | .map es =>
      obtain ⟨body, rfl, hbody⟩ := hs
      have hle := depthEntries_le_length es (t := body) fun e he => by
        obtain ⟨_, hentry, hle⟩ := (spellsEntries_iff.1 hbody).piece he
        obtain ⟨s, hs, hle'⟩ := piece_of_spellsEntry hentry
        exact ⟨s, hs, Nat.le_trans hle' hle⟩
      rw [depth, List.length_cons, List.length_append]
      omega

theorem depthItems_le_length (vs : List Value) {t : List Char}
    (h : ∀ v ∈ vs, ∃ s, Spells v s ∧ s.length ≤ t.length) : depthItems vs ≤ t.length := by
  match vs with
  | [] => exact Nat.zero_le _
  | v :: vs =>
      obtain ⟨⟨s, hs, hle⟩, hvs⟩ := List.forall_mem_cons.1 h
      exact Nat.max_le.2 ⟨Nat.le_trans (depth_le_length v hs) hle, depthItems_le_length vs hvs⟩

theorem depthEntries_le_length (es : List (String × Value)) {t : List Char}
    (h : ∀ e ∈ es, ∃ s, Spells e.2 s ∧ s.length ≤ t.length) : depthEntries es ≤ t.length := by
  match es with
  | [] => exact Nat.zero_le _
  | (_, v) :: es =>
      obtain ⟨⟨s, hs, hle⟩, hes⟩ := List.forall_mem_cons.1 h
      exact Nat.max_le.2 ⟨Nat.le_trans (depth_le_length v hs) hle, depthEntries_le_length es hes⟩

end

theorem read_of_spells (v : Value) (text : String) (h : Spells v text.toList) :
    read text = some v := by
  have hdepth : v.depth < text.length + 1 := by
    have hle := depth_le_length v h
    rw [String.length_toList] at hle
    exact Nat.lt_succ_of_le hle
  have hread := value?_spells v hdepth [] text.toList [] blank_nil h nofun
  rw [List.nil_append, List.append_nil] at hread
  rw [read, hread]
  rfl

end Json

end FeatureTree.Value
