import FeatureTree.Proofs.Grammar.Trim

/-!
# One piece of a text for another

A blank between two tokens gives way to a comment, and everything should be read as
before. What stands behind the two pieces is the same, so there is nothing to show once
a reader is there. In front of them the two texts look alike up to the piece, and the
question is whether a reader that begins there notices the difference.

It does if something that it reads reaches over the piece, as a string does that is not
closed in front of it. So an exchange comes with the *places* in front of the piece at
which something may begin, and `Closed` asks that literals, blanks and comments are read
alike at each of them, and that there is a place behind whatever is read. `Rest` is the
relation that readers keep: both are at the same place, or both are past the piece.
-/

namespace FeatureTree

/-- A piece of a text, and one to stand in its place. What is in front of it is known by its
ends: those are places at which something may be read. -/
structure Exchange where
  old : List Char
  new : List Char
  /-- The text behind the piece. -/
  behind : List Char
  /-- Something may be read where this stands in front of the piece. -/
  Place : List Char → Prop

namespace Exchange

variable {x : Exchange} {t : Trivia} {drop literal? : List Char → Option (List Char)}
  {isWordChar : Char → Bool} {s s' u u' y : List Char}

/-- The text from a place on. -/
def source (x : Exchange) (y : List Char) : List Char := y ++ (x.old ++ x.behind)

/-- The text from a place on, with the new piece in it. -/
def target (x : Exchange) (y : List Char) : List Char := y ++ (x.new ++ x.behind)

/-- What is left of the two texts: they are at the same place, or at the same end of what
stands behind the pieces. -/
inductive Rest (x : Exchange) : List Char → List Char → Prop
  | front {y : List Char} (hy : x.Place y) : Rest x (x.source y) (x.target y)
  | behind {u : List Char} (hu : u <:+ x.behind) : Rest x u u

/-- Both readers fail, or they leave rests that belong together. -/
inductive Alike (x : Exchange) : Option (List Char) → Option (List Char) → Prop
  | none : Alike x none none
  | some {u u' : List Char} (h : x.Rest u u') : Alike x (some u) (some u')

theorem Alike.elim {o o' : Option (List Char)} (h : x.Alike o o') :
    o = .none ∧ o' = .none ∨ ∃ u u', o = .some u ∧ o' = .some u' ∧ x.Rest u u' := by
  cases h with
  | none => exact .inl ⟨rfl, rfl⟩
  | some hrest => exact .inr ⟨_, _, rfl, rfl, hrest⟩

/-- The reader reads alike at every place in front of the piece. -/
def Reads (x : Exchange) (drop : List Char → Option (List Char)) : Prop :=
  ∀ y, x.Place y → y ≠ [] → x.Alike (drop (x.source y)) (drop (x.target y))

/-- Where something is read at a place, there is another place behind it. Literals, blanks and
comments are read alike; other characters, and those of words, are read one by one. -/
structure Closed (x : Exchange) (literal? : List Char → Option (List Char)) (t : Trivia)
    (isWordChar : Char → Bool) : Prop where
  literal : x.Reads literal?
  blank : x.Reads t.blank
  comment : x.Reads t.comment
  char : ∀ {c y}, x.Place (c :: y) →
    literal? (x.source (c :: y)) = none ∨ isWordChar c = true → x.Place y

/-- Either piece is one that is dropped as a blank or comment. -/
structure Drops (x : Exchange) (t : Trivia) : Prop where
  source : t.piece? (x.source []) = some x.behind
  target : t.piece? (x.target []) = some x.behind

theorem length_lt_of_source {y y' : List Char} (h : (x.source y').length < (x.source y).length) :
    y'.length < y.length := by
  simp only [source, List.length_append] at h
  omega

theorem append_source {w p : List Char} (h : w ++ x.source y = x.source p) : w ++ y = p := by
  rw [source, source, ← List.append_assoc] at h
  exact List.append_cancel_right h

/-- Behind the pieces the texts are the same. -/
theorem Rest.eq_of_behind (hold : x.old ≠ []) (h : x.Rest s s') (hs : s <:+ x.behind) :
    s' = s := by
  cases h with
  | behind _ => rfl
  | @front y hy =>
      have hlen := hs.length_le
      have := List.length_pos_iff.2 hold
      simp only [source, List.length_append] at hlen
      omega

theorem Reads.or {f g : List Char → Option (List Char)} (hf : x.Reads f) (hg : x.Reads g) :
    x.Reads fun s => (f s).or (g s) := by
  intro y hy hne
  have halike := hf y hy hne
  dsimp only
  generalize f (x.source y) = o, f (x.target y) = o' at halike
  cases halike with
  | none => exact hg y hy hne
  | some hrest => exact .some hrest

/-- Dropping blanks and comments leads to rests that belong together. -/
theorem Rest.skip (ht : t.Lawful) (hpiece : x.Reads t.piece?) (hx : x.Drops t)
    (h : x.Rest s s') : x.Rest (t.skip s) (t.skip s') := by
  cases h with
  | behind hu => exact .behind ((Trivia.skip_suffix ht _).trans hu)
  | @front y hy =>
      -- On what stands in front of the piece: whatever is dropped there leaves less of it.
      generalize hn : y.length = n
      induction n using Nat.strongRecOn generalizing y with
      | ind n ih =>
          by_cases hne : y = []
          · subst hne
            rw [Trivia.skip_of_piece ht hx.source, Trivia.skip_of_piece ht hx.target]
            exact .behind (Trivia.skip_suffix ht _)
          · obtain ⟨hsource, htarget⟩ | ⟨u, u', hsource, htarget, hrest⟩ :=
              (hpiece y hy hne).elim
            · rw [Trivia.skip_of_none hsource, Trivia.skip_of_none htarget]
              exact .front hy
            · rw [Trivia.skip_of_piece ht hsource, Trivia.skip_of_piece ht htarget]
              cases hrest with
              | behind hu => exact .behind ((Trivia.skip_suffix ht _).trans hu)
              | @front y' hy' =>
                  have hlt := length_lt_of_source (ht.piece _ _ hsource).2
                  exact ih y'.length (by omega) hy' rfl

theorem Closed.piece (hx : x.Closed literal? t isWordChar) : x.Reads t.piece? := by
  rw [Trivia.piece?_eq_or]
  exact hx.blank.or hx.comment

/-- A word is read alike if each of its characters leads from place to place, and the pieces
do not begin with such a character. -/
theorem Rest.after? {word : List Char} {single : Char → Bool}
    (hnext : ∀ {c y}, x.Place (c :: y) → single c = true → x.Place y)
    (hold : ∀ c ∈ (x.source []).head?, single c = false)
    (hnew : ∀ c ∈ (x.target []).head?, single c = false)
    (hword : word.all single = true) (h : x.Rest s s') :
    x.Alike (Text.after? word s) (Text.after? word s') := by
  cases h with
  | behind hu =>
      cases hafter : Text.after? word s with
      | none => exact .none
      | some u =>
          obtain rfl := Text.after?_eq_some_iff.1 hafter
          exact .some (.behind ((List.suffix_append word u).trans hu))
  | @front y hy =>
      have hstop : ∀ {w ws z}, single w = true → (∀ c ∈ z.head?, single c = false) →
          Text.after? (w :: ws) z = none := by
        intro w ws z hw hz
        cases z with
        | nil => rfl
        | cons c z =>
            rw [Text.after?, if_neg]
            rintro rfl
            rw [hz w rfl] at hw
            cases hw
      induction word generalizing y with
      | nil => exact .some (.front hy)
      | cons w ws ih =>
          rw [List.all_cons, Bool.and_eq_true] at hword
          cases y with
          | nil => rw [hstop hword.1 hold, hstop hword.1 hnew]; exact .none
          | cons c y =>
              show x.Alike (if w = c then _ else _) (if w = c then _ else _)
              split
              · next hc => exact ih hword.2 (hnext hy (hc ▸ hword.1))
              · exact .none

end Exchange

end FeatureTree
