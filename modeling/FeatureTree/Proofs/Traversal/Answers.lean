import FeatureTree.Proofs.Traversal.Atoms
import FeatureTree.Proofs.Traversal.Written

/-!
# Readers and the words they come by

A reader comes by the words of what it reads from left to right. It ends at the first word
with a fault, and with the place of just that word, or else with what the words stand for
(`Answers`). Readers are put together from readers, and so are their answers: what comes
first is read first (`Reads.bind`), and words with no fault may stand around it
(`Reads.behind`, `Reads.before`).

Only four readers look at a word themselves. One looks for a kind, one for an attribute, one
at a position, and one at the literal of a comparison.
-/

namespace FeatureTree.Traversal

variable {α β γ : Type} {s t u w : List Char} {ws us : List Word} {v : Option α}
  {r : Nat → Reading α}

/-- What can be answered about an expression of `total` bytes where the words stand between
two places. -/
inductive Answers (s t : List Char) (ws : List Word) (v : Option α) (total : Nat) :
    Reading α → Prop
  | ok {a : α} (hmeant : AllMeant ws) (hv : v = some a) : Answers s t ws v total (.ok a)
  | error {front back : List Word} {word : Word} {fault : Fault} {piece after : List Char}
      (hv : v = none) (hws : ws = front ++ word :: back) (hfront : AllMeant front)
      (hfault : word.fault? = some fault) (hbefore : Lexes s (tokensOf front) (piece ++ after))
      (hpiece : word.token.Spells piece) (hlongest : Longest piece after)
      (hafter : Lexes after (tokensOf back) t) :
      Answers s t ws v total (.error (fault, spanOf total (piece ++ after) after))

/-- The words stand between two places, and the reader answers what it has to. -/
structure Reads (s t : List Char) (ws : List Word) (v : Option α) (r : Nat → Reading α) :
    Prop where
  lexes : Lexes s (tokensOf ws) t
  answers : ∀ total, Answers s t ws v total (r total)

theorem AllMeant.append (h : AllMeant ws) (h' : AllMeant us) : AllMeant (ws ++ us) :=
  List.forall_mem_append.2 ⟨h, h'⟩

theorem allMeant_fixed (token : Token) : AllMeant [.fixed token] :=
  List.forall_mem_singleton.2 rfl

namespace Reads

theorem congr {r' : Nat → Reading α} (h : Reads s t ws v r) (hr : ∀ total, r' total = r total) :
    Reads s t ws v r' := by
  rwa [show r' = r from funext hr]

/-- Words with no fault in front of what is read. -/
theorem behind (us : List Word) (hus : Lexes s (tokensOf us) u) (hmeant : AllMeant us)
    (h : Reads u t ws v r) : Reads s t (us ++ ws) v r where
  lexes := by simpa using hus.append h.lexes
  answers total := by
    have hr := h.answers total
    generalize r total = x at hr ⊢
    cases hr with
    | ok hws hv => exact .ok (hmeant.append hws) hv
    | error hv hws hfront hfault hbefore hpiece hlongest hafter =>
        exact .error hv (by rw [hws, List.append_assoc]) (hmeant.append hfront) hfault
          (by simpa using hus.append hbefore) hpiece hlongest hafter

/-- Words with no fault behind what is read. -/
theorem before (us : List Word) (h : Reads s u ws v r) (hus : Lexes u (tokensOf us) t)
    (hmeant : AllMeant us) : Reads s t (ws ++ us) v r where
  lexes := by simpa using h.lexes.append hus
  answers total := by
    have hr := h.answers total
    generalize r total = x at hr ⊢
    cases hr with
    | ok hws hv => exact .ok (hws.append hmeant) hv
    | error hv hws hfront hfault hbefore hpiece hlongest hafter =>
        exact .error hv (by rw [hws, List.append_assoc]; rfl) hfront hfault hbefore hpiece
          hlongest (by simpa using hafter.append hus)

theorem skip (hs : grammar.between .spaced s = u) (h : Reads u t ws v r) : Reads s t ws v r :=
  h.behind [] (hs ▸ lexes_skip s) nofun

theorem leading (h : Reads (grammar.between .spaced s) t ws v r) : Reads s t ws v r :=
  h.skip rfl

theorem trailing (h : Reads s t ws v r) (ht : Lexes t [] u) : Reads s u ws v r := by
  simpa using h.before [] ht nofun

theorem fixed_cons {token : Token} (htoken : Lexes s [token] u) (h : Reads u t ws v r) :
    Reads s t (.fixed token :: ws) v r :=
  h.behind [.fixed token] htoken (allMeant_fixed token)

theorem fixed_snoc {token : Token} (h : Reads s u ws v r) (htoken : Lexes u [token] t) :
    Reads s t (ws ++ [.fixed token]) v r :=
  h.before [.fixed token] htoken (allMeant_fixed token)

theorem pure (hs : Lexes s [] t) (a : α) : Reads s t [] (some a) (fun _ => .ok a) :=
  ⟨hs, fun _ => .ok nofun rfl⟩

/-- A fixed word says what it is read as. -/
theorem fixed {token : Token} (hs : Lexes s [token] t) (a : α) :
    Reads s t [.fixed token] (some a) (fun _ => .ok a) :=
  ⟨hs, fun _ => .ok (allMeant_fixed token) rfl⟩

/-- What comes first is read first, and a fault in it is the answer. -/
theorem bind (us : List Word) {v' : α → Option β} {next : Nat → α → Reading β}
    (h : Reads s u ws v r) (hus : Lexes u (tokensOf us) t)
    (hnext : ∀ a, v = some a → Reads u t us (v' a) (next · a)) :
    Reads s t (ws ++ us) (v.bind v') (fun total => r total >>= next total) where
  lexes := by simpa using h.lexes.append hus
  answers total := by
    have hr := h.answers total
    generalize r total = x at hr ⊢
    cases hr with
    | @ok a hws hv =>
        subst hv
        have hr' := (hnext a rfl).answers total
        show Answers s t (ws ++ us) (v' a) total (next total a)
        generalize next total a = y at hr' ⊢
        cases hr' with
        | ok hmeant hv' => exact .ok (hws.append hmeant) hv'
        | error hv' hus' hfront hfault hbefore hpiece hlongest hafter =>
            exact .error hv' (by rw [hus', List.append_assoc]) (hws.append hfront) hfault
              (by simpa using h.lexes.append hbefore) hpiece hlongest hafter
    | error hv hws hfront hfault hbefore hpiece hlongest hafter =>
        subst hv
        exact .error rfl (by rw [hws, List.append_assoc]; rfl) hfront hfault hbefore hpiece
          hlongest (by simpa using hafter.append hus)

theorem map (f : α → β) (h : Reads s t ws v r) :
    Reads s t ws (v.map f) (fun total => do return f (← r total)) := by
  have hmap := h.bind [] (.nil t) fun a _ => pure (.nil t) (f a)
  rw [List.append_nil] at hmap
  cases v <;> exact hmap

/-- Two readers, one after the other. -/
theorem both {v' : Option β} {r' : Nat → Reading β} (f : α → β → γ) (h : Reads s u ws v r)
    (h' : Reads u t us v' r') :
    Reads s t (ws ++ us) (v.bind fun a => v'.map (f a))
      (fun total => do return f (← r total) (← r' total)) :=
  h.bind us h'.lexes fun a _ => h'.map (f a)

/-- What goes on with the results of two readers goes on with each of them. -/
theorem bind_both {δ : Type} (f : α → β → γ) (x : Reading α) (y : Reading β)
    (next : γ → Reading δ) :
    (do return f (← x) (← y)) >>= next = x >>= fun a => y >>= fun b => next (f a b) := by
  cases x with
  | error _ => rfl
  | ok a => cases y <;> rfl

/-- A reader that looks at a word itself. -/
theorem word {word : Word} (hpiece : word.token.Spells w) (hlongest : Longest w t)
    (h : ∀ total, (word.fault? = none ∧ ∃ a, v = some a ∧ r total = .ok a) ∨
      ∃ fault, word.fault? = some fault ∧ v = none ∧
        r total = .error (fault, spanOf total (w ++ t) t)) :
    Reads (w ++ t) t [word] v r where
  lexes := .token hpiece hlongest (.nil t)
  answers total := by
    rcases h total with ⟨hfault, a, hv, hr⟩ | ⟨fault, hfault, hv, hr⟩
    · rw [hr]
      exact .ok (List.forall_mem_singleton.2 hfault) hv
    · rw [hr]
      exact .error hv (List.nil_append [word]).symm nofun hfault (.nil _) hpiece hlongest (.nil t)

/-- Words that stand for something have no fault. -/
theorem eq_ok {a : α} (h : Reads s t ws (some a) r) (total : Nat) : r total = .ok a := by
  have hr := h.answers total
  generalize r total = x at hr ⊢
  cases hr with
  | ok _ hv => rw [Option.some.inj hv]
  | error hv => cases hv

end Reads

/-! ## Readers of a word -/

theorem reads_position (hne : w ≠ []) (hdigits : ∀ c ∈ w, c.isDigit = true)
    (hstop : ∀ c ∈ t.head?, c.isDigit = false) :
    Reads (w ++ t) t [.position (String.ofList w)] (positionOf? (String.ofList w))
      (readPosition · (w ++ t) t) := by
  refine .word (spells_digits hne hdigits) ((longest_digits hne hdigits).2 hstop) fun total => ?_
  simp only [Word.fault?, positionOf?, readPosition, Forest.taken_append, String.toList_ofList,
    numberOf_eq]
  generalize Nat.ofDigitChars 10 w 0 = n
  have hmax : Value.maxNat < n ↔ 2 ^ 64 ≤ n := Nat.lt_iff_add_one_le
  by_cases hlarge : 2 ^ 64 ≤ n
  · rw [if_pos hlarge, if_pos (hmax.2 hlarge)]
    exact .inr ⟨_, rfl, if_neg fun h => Nat.not_lt.2 hlarge h.2, rfl⟩
  · rw [if_neg hlarge, if_neg (hlarge ∘ hmax.1)]
    by_cases hzero : n = 0
    · rw [if_pos hzero, if_pos hzero]
      exact .inr ⟨_, rfl, if_neg fun h => Nat.ne_of_gt h.1 hzero, rfl⟩
    · rw [if_neg hzero, if_neg hzero,
        if_pos ⟨Nat.pos_of_ne_zero hzero, Nat.lt_of_not_le hlarge⟩]
      exact .inl ⟨rfl, _, rfl, rfl⟩

theorem reads_kind (hw : IsName w) (ht : StopsName t) :
    Reads (w ++ t) t [.kind (String.ofList w)] (Kind.ofName? (String.ofList w))
      (readKind · (w ++ t) t) := by
  refine .word (spells_name hw) ((longest_name hw).2 ht) fun total => ?_
  rw [readKind, wordOf_append, Word.fault?]
  cases hkind : Kind.ofName? (String.ofList w) with
  | none => exact .inr ⟨_, if_neg (Kind.ofName?_eq_none_iff.1 hkind), rfl, rfl⟩
  | some k =>
      have hmem : ∃ k ∈ Kind.all, k.name = String.ofList w :=
        ⟨k, k.mem_all, kind_ofName?_iff.1 hkind⟩
      exact .inl ⟨if_pos hmem, k, rfl, rfl⟩

theorem reads_attribute (hw : IsName w) (ht : StopsName t) :
    Reads (w ++ t) t [.attribute (String.ofList w)] (Attribute.ofWord? (String.ofList w))
      (readAttribute · (w ++ t) t) := by
  refine .word (spells_name hw) ((longest_name hw).2 ht) fun total => ?_
  rw [readAttribute, wordOf_append, Word.fault?]
  cases hasked : Attribute.ofWord? (String.ofList w) with
  | none =>
      refine .inr ⟨_, if_neg ?_, rfl, rfl⟩
      rintro (h | h) <;> rw [h] at hasked <;> cases hasked
  | some asked =>
      refine .inl ⟨if_pos ?_, asked, rfl, rfl⟩
      rw [← attribute_ofWord?_iff.1 hasked]
      cases asked
      · exact .inl rfl
      · exact .inr rfl

theorem reads_value (asked : Attribute) (comparison : Comparison) {text : String}
    (hpiece : Token.Spells (.literal text) w) (hlongest : Longest w t) :
    Reads (w ++ t) t [.value asked.word text] (compared? comparison text asked) (fun total =>
      if asked == .kind && (Kind.ofName? text).isNone then
        .error (.unknownKind text, spanOf total (w ++ t) t)
      else .ok (.compare asked comparison text)) := by
  refine .word hpiece hlongest fun total => ?_
  rw [compared?, Word.fault?]
  have hword : asked.word = "kind" ↔ asked = .kind := by cases asked <;> decide
  cases hkind : Kind.ofName? text with
  | none =>
      have hno := Kind.ofName?_eq_none_iff.1 hkind
      cases asked with
      | name => exact .inl ⟨if_neg fun h => absurd h.1 (by decide), _, rfl, rfl⟩
      | kind => exact .inr ⟨_, if_pos ⟨rfl, hno⟩, rfl, rfl⟩
  | some k =>
      have hmem : ¬ ¬ ∃ k ∈ Kind.all, k.name = text := by
        rw [← Kind.ofName?_eq_none_iff, hkind]
        exact Option.some_ne_none k
      refine .inl ⟨if_neg fun h => hmem h.2, _, if_neg fun h => Option.some_ne_none k h.2, ?_⟩
      rw [Option.isNone_some, Bool.and_false]
      rfl

end FeatureTree.Traversal
