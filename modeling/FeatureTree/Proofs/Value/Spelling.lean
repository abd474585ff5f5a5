import FeatureTree.Proofs.Text.Lines
import FeatureTree.Value.Json

/-!
# JSON texts of a value

A value is spelled in many ways: blanks and line ends may stand around every part of a list or a
map (`Spells`). The two layouts that are written are among them, the one on one line and the one
over several lines, for every value whose numbers are natural ones.

In the layout over several lines every item and entry is on a line of its own, and so is the
bracket that closes a list or map that is not empty (`lineEnds_pretty`). A text in quotes takes
no more than that, as its line ends are escaped.
-/

namespace FeatureTree.Value

mutual

/-- All numbers in the value are natural ones with a property. -/
def NumbersIn (P : Nat → Prop) : Value → Prop
  | .nat n => P n
  | .number _ => False
  | .list items => ItemsIn P items
  | .map entries => EntriesIn P entries
  | _ => True

/-- All numbers in the items are natural ones with a property. -/
def ItemsIn (P : Nat → Prop) : List Value → Prop
  | [] => True
  | v :: vs => NumbersIn P v ∧ ItemsIn P vs

/-- All numbers in the entries are natural ones with a property. -/
def EntriesIn (P : Nat → Prop) : List (String × Value) → Prop
  | [] => True
  | (_, v) :: es => NumbersIn P v ∧ EntriesIn P es

end

variable {P : Nat → Prop}

theorem itemsIn_iff {vs : List Value} : ItemsIn P vs ↔ ∀ v ∈ vs, v.NumbersIn P := by
  induction vs with
  | nil => exact ⟨fun _ => nofun, fun _ => trivial⟩
  | cons v vs ih => rw [ItemsIn, ih, List.forall_mem_cons]

theorem entriesIn_iff {es : List (String × Value)} :
    EntriesIn P es ↔ ∀ e ∈ es, e.2.NumbersIn P := by
  induction es with
  | nil => exact ⟨fun _ => nofun, fun _ => trivial⟩
  | cons e es ih => rw [EntriesIn, ih, List.forall_mem_cons]

/-! ## Spellings -/

/-- The characters that may stand between the parts of a text. -/
def isBlank (c : Char) : Bool := c == ' ' || c == '\n' || c == '\r' || c == '\t'

/-- A text of blanks. -/
def Blank (s : List Char) : Prop := ∀ c ∈ s, isBlank c = true

/-- A text of a kind with blanks around it. -/
def Padded (P : List Char → Prop) (t : List Char) : Prop :=
  ∃ before s after, t = before ++ (s ++ after) ∧ Blank before ∧ P s ∧ Blank after

/-- A name in quotes, a colon, and a text of a kind. -/
def SpellsEntry (name : String) (P : List Char → Prop) (t : List Char) : Prop :=
  ∃ first second, t = first ++ ':' :: second ∧ Padded (· = (quoted name).toList) first ∧
    Padded P second

mutual

/-- A text spells a value. -/
def Spells : Value → List Char → Prop
  | .list items, t => ∃ body, t = '[' :: (body ++ [']']) ∧ SpellsItems items body
  | .map entries, t => ∃ body, t = '\x7b' :: (body ++ ['\x7d']) ∧ SpellsEntries entries body
  | .number _, _ => False
  | v, t => t = (scalarText v).toList

/-- A text spells the items of a list, with commas between them. -/
def SpellsItems : List Value → List Char → Prop
  | [], t => Blank t
  | [v], t => Padded (fun s => Spells v s) t
  | v :: w :: vs, t => ∃ first rest, t = first ++ ',' :: rest ∧
      Padded (fun s => Spells v s) first ∧ SpellsItems (w :: vs) rest

/-- A text spells the entries of a map, with commas between them. -/
def SpellsEntries : List (String × Value) → List Char → Prop
  | [], t => Blank t
  | [(k, v)], t => SpellsEntry k (fun s => Spells v s) t
  | (k, v) :: e :: es, t => ∃ first rest, t = first ++ ',' :: rest ∧
      SpellsEntry k (fun s => Spells v s) first ∧ SpellsEntries (e :: es) rest

end

theorem blank_nil : Blank [] := nofun

theorem Blank.append {s t : List Char} (hs : Blank s) (ht : Blank t) : Blank (s ++ t) :=
  List.forall_mem_append.2 ⟨hs, ht⟩

theorem padded_self {P : List Char → Prop} {s : List Char} (h : P s) : Padded P s :=
  ⟨[], s, [], (List.append_nil s).symm, blank_nil, h, blank_nil⟩

theorem Padded.append {P : List Char → Prop} {t b : List Char} (h : Padded P t) (hb : Blank b) :
    Padded P (t ++ b) := by
  obtain ⟨before, s, after, rfl, hbefore, hs, hafter⟩ := h
  exact ⟨before, s, after ++ b, by simp only [List.append_assoc], hbefore, hs, hafter.append hb⟩

theorem Padded.prepend {P : List Char → Prop} {t b : List Char} (hb : Blank b) (h : Padded P t) :
    Padded P (b ++ t) := by
  obtain ⟨before, s, after, rfl, hbefore, hs, hafter⟩ := h
  exact ⟨b ++ before, s, after, by simp only [List.append_assoc], hb.append hbefore, hs, hafter⟩

/-! ## The layout on one line -/

mutual

theorem spells_compact (v : Value) (h : v.NumbersIn P) : Spells v v.compact.toList := by
  match v with
  | .null | .bool _ | .nat _ | .text _ => rw [compact, Spells] <;> simp
  | .number _ => exact h.elim
  | .list items =>
      rw [compact, Spells]
      exact ⟨_, by simp, spellsItems_compactItems items h⟩
  | .map entries =>
      rw [compact, Spells]
      exact ⟨_, by simp, spellsEntries_compactEntries entries h⟩

theorem spellsItems_compactItems (vs : List Value) (h : ItemsIn P vs) :
    SpellsItems vs (compactItems vs).toList := by
  match vs with
  | [] => exact blank_nil
  | [v] => exact padded_self (spells_compact v h.1)
  | v :: w :: vs =>
      exact ⟨_, _, by simp [compactItems], padded_self (spells_compact v h.1),
        spellsItems_compactItems (w :: vs) h.2⟩

theorem spellsEntries_compactEntries (es : List (String × Value)) (h : EntriesIn P es) :
    SpellsEntries es (compactEntries es).toList := by
  match es with
  | [] => exact blank_nil
  | [(k, v)] =>
      exact ⟨_, _, by simp [compactEntries], padded_self rfl, padded_self (spells_compact v h.1)⟩
  | (k, v) :: e :: es =>
      refine ⟨(quoted k ++ ":" ++ compact v).toList, _, by simp [compactEntries], ?_,
        spellsEntries_compactEntries (e :: es) h.2⟩
      exact ⟨_, _, by simp, padded_self rfl, padded_self (spells_compact v h.1)⟩

end

/-! ## The layout over several lines -/

theorem blank_newLine (level : Nat) : Blank (newLine level).toList := by
  intro c hc
  rw [newLine, String.toList_append, List.mem_append] at hc
  obtain hc | hc := hc
  · obtain rfl : c = '\n' := by simpa using hc
    rfl
  · rw [String.toList_ofList] at hc
    obtain rfl := List.eq_of_mem_replicate hc
    rfl

mutual

theorem spells_prettyAt (level : Nat) (v : Value) (h : v.NumbersIn P) :
    Spells v (v.prettyAt level).toList := by
  match v with
  | .null | .bool _ | .nat _ | .text _ => rw [prettyAt, Spells] <;> simp
  | .number _ => exact h.elim
  | .list [] => exact ⟨[], by rw [prettyAt] <;> simp [scalarText], blank_nil⟩
  | .map [] => exact ⟨[], by rw [prettyAt] <;> simp [scalarText], blank_nil⟩
  | .list (v :: vs) =>
      rw [prettyAt, Spells]
      exact ⟨_, by simp, spellsItems_prettyItems (level + 1) (v :: vs) h (blank_newLine level)⟩
  | .map (e :: es) =>
      rw [prettyAt, Spells]
      exact ⟨_, by simp, spellsEntries_prettyEntries (level + 1) (e :: es) h (blank_newLine level)⟩

theorem spellsItems_prettyItems (level : Nat) (vs : List Value) (h : ItemsIn P vs)
    {b : List Char} (hb : Blank b) : SpellsItems vs ((prettyItems level vs).toList ++ b) := by
  match vs with
  | [] => exact hb
  | [v] =>
      have hv := (padded_self (spells_prettyAt level v h.1)).append hb
      have hline := hv.prepend (blank_newLine level)
      simpa [prettyItems, SpellsItems, List.append_assoc] using hline
  | v :: w :: vs =>
      have hv := (padded_self (spells_prettyAt level v h.1)).prepend (blank_newLine level)
      exact ⟨_, _, by simp [prettyItems], hv, spellsItems_prettyItems level (w :: vs) h.2 hb⟩

theorem spellsEntries_prettyEntries (level : Nat) (es : List (String × Value))
    (h : EntriesIn P es) {b : List Char} (hb : Blank b) :
    SpellsEntries es ((prettyEntries level es).toList ++ b) := by
  have hblank : Blank [' '] := by
    intro c hc
    obtain rfl := List.mem_singleton.1 hc
    rfl
  match es with
  | [] => exact hb
  | [(k, v)] =>
      have hkey := (padded_self (P := (· = (quoted k).toList)) rfl).prepend (blank_newLine level)
      have hv := ((padded_self (spells_prettyAt level v h.1)).prepend hblank).append hb
      exact ⟨_, _, by simp [prettyEntries], hkey, hv⟩
  | (k, v) :: e :: es =>
      have hkey := (padded_self (P := (· = (quoted k).toList)) rfl).prepend (blank_newLine level)
      have hv := (padded_self (spells_prettyAt level v h.1)).prepend hblank
      exact ⟨_, _, by simp [prettyEntries], ⟨_, _, rfl, hkey, hv⟩,
        spellsEntries_prettyEntries level (e :: es) h.2 hb⟩

end

theorem spells_pretty (v : Value) (h : v.NumbersIn P) : Spells v v.pretty.toList :=
  spells_prettyAt 0 v h

/-! ## Ends of lines -/

open Text (lineEnds lineEnds_append lineEnds_repr lineEnds_eq_zero_iff)

mutual

/-- How many lines a value takes: one for a scalar and for what is empty, and otherwise those of
its parts and one for each of its brackets. -/
def lines : Value → Nat
  | .list (v :: vs) => linesItems (v :: vs) + 2
  | .map (e :: es) => linesEntries (e :: es) + 2
  | _ => 1

/-- How many lines the items of a list take. -/
def linesItems : List Value → Nat
  | [] => 0
  | v :: vs => lines v + linesItems vs

/-- How many lines the entries of a map take. -/
def linesEntries : List (String × Value) → Nat
  | [] => 0
  | (_, v) :: es => lines v + linesEntries es

end

theorem linesEntries_append (es fs : List (String × Value)) :
    linesEntries (es ++ fs) = linesEntries es + linesEntries fs := by
  induction es with
  | nil => exact (Nat.zero_add _).symm
  | cons e es ih => rw [List.cons_append, linesEntries, linesEntries, ih, Nat.add_assoc]

theorem lineEnds_newLine (level : Nat) : lineEnds (newLine level) = 1 := by
  have hend : lineEnds "\n" = 1 := rfl
  have hblanks : lineEnds (String.ofList (List.replicate (2 * level) ' ')) = 0 := by
    rw [lineEnds_eq_zero_iff, String.toList_ofList]
    intro h
    cases List.eq_of_mem_replicate h
  rw [newLine, lineEnds_append, hend, hblanks]

theorem hexDigit_ne_newLine : ∀ n < 16, hexDigit n ≠ '\n' := by decide

/-- A character in quotes is no line end, as that one is escaped. -/
theorem newLine_notMem_escapeChar (c : Char) : '\n' ∉ escapeChar c := by
  unfold escapeChar
  split
  case h_8 hline _ _ _ _ =>
    split
    · next hsmall =>
        have hhigh := hexDigit_ne_newLine (c.toNat / 16) (by omega)
        have hlow := hexDigit_ne_newLine (c.toNat % 16) (by omega)
        simp [hhigh.symm, hlow.symm]
    · exact fun h => hline (List.mem_singleton.1 h).symm
  all_goals decide

/-- In quotes there are no line ends. -/
theorem lineEnds_quoted (s : String) : lineEnds (quoted s) = 0 := by
  have hquote : lineEnds "\"" = 0 := rfl
  rw [quoted, lineEnds_append, lineEnds_append, hquote, Nat.zero_add, Nat.add_zero,
    lineEnds_eq_zero_iff, String.toList_ofList, List.mem_flatMap]
  rintro ⟨c, -, hc⟩
  exact newLine_notMem_escapeChar c hc

theorem lineEnds_scalarText (v : Value) (h : v.NumbersIn P) : lineEnds (scalarText v) = 0 := by
  match v with
  | .null => rfl
  | .bool true => rfl
  | .bool false => rfl
  | .nat n => exact lineEnds_repr n
  | .number _ => exact h.elim
  | .text s => exact lineEnds_quoted s
  | .list _ => exact (rfl : lineEnds "[]" = 0)
  | .map _ => exact (rfl : lineEnds "\x7b\x7d" = 0)

mutual

/-- All line ends are those that the layout puts between the lines. -/
theorem lineEnds_prettyAt (level : Nat) (v : Value) (h : v.NumbersIn P) :
    lineEnds (v.prettyAt level) + 1 = v.lines := by
  have hscalar := lineEnds_scalarText v h
  match v with
  | .null | .bool _ | .nat _ | .text _ | .list [] | .map [] =>
      rw [prettyAt, hscalar, lines] <;> simp
  | .number _ => exact h.elim
  | .list (v :: vs) =>
      have hopen : lineEnds "[" = 0 := rfl
      have hclose : lineEnds "]" = 0 := rfl
      rw [prettyAt, lines]
      simp [hopen, hclose, lineEnds_newLine, lineEnds_prettyItems (level + 1) (v :: vs) h]
  | .map (e :: es) =>
      have hopen : lineEnds "\x7b" = 0 := rfl
      have hclose : lineEnds "\x7d" = 0 := rfl
      rw [prettyAt, lines]
      simp [hopen, hclose, lineEnds_newLine, lineEnds_prettyEntries (level + 1) (e :: es) h]

theorem lineEnds_prettyItems (level : Nat) (vs : List Value) (h : ItemsIn P vs) :
    lineEnds (prettyItems level vs) = linesItems vs := by
  match vs with
  | [] => rfl
  | [v] =>
      rw [prettyItems, linesItems, linesItems, lineEnds_append, lineEnds_newLine,
        ← lineEnds_prettyAt level v h.1, Nat.add_comm]
  | v :: w :: vs =>
      have hcomma : lineEnds "," = 0 := rfl
      rw [prettyItems, linesItems, ← lineEnds_prettyAt level v h.1,
        ← lineEnds_prettyItems level (w :: vs) h.2]
      simp [hcomma, lineEnds_newLine, Nat.add_comm]

theorem lineEnds_prettyEntries (level : Nat) (es : List (String × Value))
    (h : EntriesIn P es) : lineEnds (prettyEntries level es) = linesEntries es := by
  have hcolon : lineEnds ": " = 0 := rfl
  match es with
  | [] => rfl
  | [(k, v)] =>
      rw [prettyEntries, linesEntries, linesEntries, ← lineEnds_prettyAt level v h.1]
      simp [hcolon, lineEnds_newLine, lineEnds_quoted, Nat.add_comm]
  | (k, v) :: e :: es =>
      have hcomma : lineEnds "," = 0 := rfl
      rw [prettyEntries, linesEntries, ← lineEnds_prettyAt level v h.1,
        ← lineEnds_prettyEntries level (e :: es) h.2]
      simp [hcolon, hcomma, lineEnds_newLine, lineEnds_quoted, Nat.add_comm]

end

/-- A value over several lines takes the lines of its parts and of its brackets. -/
theorem lineEnds_pretty (v : Value) (h : v.NumbersIn P) : lineEnds v.pretty + 1 = v.lines :=
  lineEnds_prettyAt 0 v h

end FeatureTree.Value
