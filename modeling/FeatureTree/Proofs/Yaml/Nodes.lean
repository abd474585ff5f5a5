import FeatureTree.Proofs.Yaml.Printed

/-!
# The node of a printed value

The tokens of a value are read as the node of the value, whatever follows them;
only a list that is not indented must not be followed by a further item. Calls
nest at most twice as deeply as there are tokens.
-/

namespace FeatureTree.Yaml

namespace TokenStream

@[simp] theorem tokens_goTo (s : TokenStream) (tokens : List Token) :
    (s.goTo tokens).tokens = tokens := rfl

@[simp] theorem goTo_goTo (s : TokenStream) (first last : List Token) :
    (s.goTo first).goTo last = s.goTo last := rfl

end TokenStream

/-- The tokens of a value are read as its node. -/
def Reads (v : Value) : Prop :=
  ∀ ⦃fuel : Nat⦄ ⦃s : TokenStream⦄ ⦃rest : List Token⦄ (unindented : Bool),
    2 * (tokensOf v).length ≤ fuel →
    readNode fuel true unindented (s.goTo (tokensOf v ++ rest)) = some (nodeOf v, s.goTo rest)

/-- So are those of a value under a name. -/
def ReadsUnder (v : Value) : Prop :=
  ∀ ⦃fuel : Nat⦄ ⦃s : TokenStream⦄ ⦃rest : List Token⦄,
    rest.head? ≠ some Token.item → 2 * (tokensUnder v).length + 1 < fuel →
    readNode fuel true true (s.goTo (tokensUnder v ++ rest)) = some (nodeOf v, s.goTo rest)

/-- The items of a list are read up to its end. -/
def ReadsItems (vs : List Value) : Prop :=
  ∀ ⦃fuel : Nat⦄ ⦃s : TokenStream⦄ ⦃rest : List Token⦄, 2 * (itemTokens vs).length < fuel →
    readItems fuel (s.goTo (itemTokens vs ++ .blockEnd :: rest)) = some (nodesOf vs, s.goTo rest)

/-- Where a list is not indented, its items are read up to what is no item. -/
def ReadsUnindented (vs : List Value) : Prop :=
  ∀ ⦃fuel : Nat⦄ ⦃s : TokenStream⦄ ⦃rest : List Token⦄,
    rest.head? ≠ some Token.item → 2 * (itemTokens vs).length < fuel →
    readUnindented fuel (s.goTo (itemTokens vs ++ rest)) = some (nodesOf vs, s.goTo rest)

/-- The entries of a map are read up to its end. -/
def ReadsEntries (es : List (String × Value)) : Prop :=
  ∀ ⦃fuel : Nat⦄ ⦃s : TokenStream⦄ ⦃rest : List Token⦄, 2 * (entryTokens es).length < fuel →
    readEntries fuel (s.goTo (entryTokens es ++ .blockEnd :: rest)) =
      some (entryNodesOf es, s.goTo rest)

/-! ## What one token leads to -/

section Steps

variable {fuel : Nat} {unindented : Bool} {s : TokenStream} {rest : List Token}

theorem readUnless_succ (ends : List Token) : readUnless (fuel + 1) ends unindented s =
    if s.isNext ends then some (.empty .none, s) else readNode fuel true unindented s := rfl

theorem readItems_item : readItems (fuel + 1) (s.goTo (.item :: rest)) = (do
    let (n, s) ← readUnless fuel [.item, .blockEnd] false (s.goTo rest)
    let (ns, s) ← readItems fuel s
    return (n :: ns, s)) := rfl

theorem readItems_blockEnd :
    readItems (fuel + 1) (s.goTo (.blockEnd :: rest)) = some ([], s.goTo rest) := rfl

theorem readUnindented_item : readUnindented (fuel + 1) (s.goTo (.item :: rest)) = (do
    let (n, s) ← readUnless fuel [.item, .key, .value, .blockEnd] false (s.goTo rest)
    let (ns, s) ← readUnindented fuel s
    return (n :: ns, s)) := rfl

theorem readUnindented_end (h : rest.head? ≠ some Token.item) :
    readUnindented (fuel + 1) (s.goTo rest) = some ([], s.goTo rest) := by
  cases rest with
  | nil => rfl
  | cons t rest => cases t <;> first | rfl | exact absurd rfl h

theorem readEntries_key : readEntries (fuel + 1) (s.goTo (.key :: rest)) = (do
    let (k, s) ← readUnless fuel [.key, .value, .blockEnd] true (s.goTo rest)
    let (v, s) ← match s.tokens with
      | .value :: rest => readUnless fuel [.key, .value, .blockEnd] true (s.goTo rest)
      | _ => some (.empty .none, s)
    let (es, s) ← readEntries fuel s
    return ((k, v) :: es, s)) := rfl

theorem readEntries_blockEnd :
    readEntries (fuel + 1) (s.goTo (.blockEnd :: rest)) = some ([], s.goTo rest) := rfl

theorem readNode_item : readNode (fuel + 1) true true (s.goTo (.item :: rest)) =
    (readUnindented fuel (s.goTo (.item :: rest))).map fun r => (.list .none r.1, r.2) := by
  show (readUnindented fuel (s.goTo (.item :: rest)) >>= fun r => _) = _
  cases readUnindented fuel (s.goTo (.item :: rest)) <;> rfl

theorem readNode_scalar (style : ScalarStyle) (text : String) :
    readNode (fuel + 1) true unindented (s.goTo (.scalar style text :: rest)) =
      some (.ofScalar .none style text, s.goTo rest) := rfl

theorem readNode_listStart : readNode (fuel + 1) true unindented (s.goTo (.listStart :: rest)) =
    (readItems fuel (s.goTo rest)).map fun r => (.list .none r.1, r.2) := by
  show (readItems fuel (s.goTo rest) >>= fun r => _) = _
  cases readItems fuel (s.goTo rest) <;> rfl

theorem readNode_mapStart : readNode (fuel + 1) true unindented (s.goTo (.mapStart :: rest)) =
    (readEntries fuel (s.goTo rest)).map fun r => (.map .none r.1, r.2) := by
  show (readEntries fuel (s.goTo rest) >>= fun r => _) = _
  cases readEntries fuel (s.goTo rest) <;> rfl

theorem readNode_emptyList :
    readNode (fuel + 2) true unindented (s.goTo (.openList :: .closeList :: rest)) =
      some (.list .none [], s.goTo rest) := rfl

theorem readNode_emptyMap :
    readNode (fuel + 2) true unindented (s.goTo (.openMap :: .closeMap :: rest)) =
      some (.map .none [], s.goTo rest) := rfl

end Steps

section Parts

variable {v : Value} {vs : List Value} {k : String} {es : List (String × Value)} {fuel : Nat}
  {s : TokenStream} {rest : List Token}

/-- The first token of a value neither says that none is written nor belongs to the surroundings
of a document. -/
theorem tokensOf_head (v : Value) : ∃ t ts, tokensOf v = t :: ts ∧
    [Token.item, .key, .value, .blockEnd].contains t = false ∧ t.isOutside = false := by
  cases v with
  | list items => cases items <;> exact ⟨_, _, rfl, rfl, rfl⟩
  | map entries => cases entries <;> exact ⟨_, _, rfl, rfl, rfl⟩
  | null | bool | nat | number | text => exact ⟨_, _, rfl, rfl, rfl⟩

theorem tokensUnder_head (v : Value) : ∃ t ts, tokensUnder v = t :: ts ∧
    [Token.key, .value, .blockEnd].contains t = false := by
  cases v with
  | list items => cases items <;> exact ⟨_, _, rfl, rfl⟩
  | map entries => cases entries <;> exact ⟨_, _, rfl, rfl⟩
  | null | bool | nat | number | text => exact ⟨_, _, rfl, rfl⟩

theorem readUnless_item (hv : Reads v) (rest : List Token) {ends : List Token}
    (hends : ends ⊆ [.item, .key, .value, .blockEnd]) (h : 2 * (tokensOf v).length < fuel) :
    readUnless fuel ends false (s.goTo (tokensOf v ++ rest)) = some (nodeOf v, s.goTo rest) := by
  obtain ⟨fuel, rfl⟩ : ∃ f, fuel = f + 1 := ⟨fuel - 1, by omega⟩
  obtain ⟨t, ts, htokens, hhead, -⟩ := tokensOf_head v
  have hnext : (s.goTo (tokensOf v ++ rest)).isNext ends = false := by
    have ht : t ∉ ends := by
      intro hmem
      rw [List.contains_iff_mem.2 (hends hmem)] at hhead
      cases hhead
    simp [TokenStream.isNext, htokens, ht]
  rw [readUnless_succ, hnext, if_neg (by simp)]
  exact hv false (by omega)

theorem readUnless_value (hv : ReadsUnder v) (hrest : rest.head? ≠ some Token.item)
    (h : 2 * (tokensUnder v).length + 2 < fuel) :
    readUnless fuel [.key, .value, .blockEnd] true (s.goTo (tokensUnder v ++ rest)) =
      some (nodeOf v, s.goTo rest) := by
  obtain ⟨fuel, rfl⟩ : ∃ f, fuel = f + 1 := ⟨fuel - 1, by omega⟩
  obtain ⟨t, ts, htokens, hhead⟩ := tokensUnder_head v
  have hnext : (s.goTo (tokensUnder v ++ rest)).isNext [.key, .value, .blockEnd] = false := by
    rw [TokenStream.isNext, TokenStream.tokens_goTo, htokens]
    exact hhead
  rw [readUnless_succ, hnext, if_neg (by simp)]
  exact hv hrest (by omega)

/-! ## Lists -/

theorem readsItems_nil : ReadsItems [] := by
  intro fuel s rest h
  obtain ⟨fuel, rfl⟩ : ∃ f, fuel = f + 1 := ⟨fuel - 1, by omega⟩
  exact readItems_blockEnd

theorem readsItems_cons (hv : Reads v) (hvs : ReadsItems vs) : ReadsItems (v :: vs) := by
  intro fuel s rest h
  simp only [itemTokens, List.length_cons, List.length_append] at h
  obtain ⟨fuel, rfl⟩ : ∃ f, fuel = f + 1 := ⟨fuel - 1, by omega⟩
  have hitem : readUnless fuel [.item, .blockEnd] false
      (s.goTo (tokensOf v ++ (itemTokens vs ++ .blockEnd :: rest))) =
        some (nodeOf v, s.goTo (itemTokens vs ++ .blockEnd :: rest)) :=
    readUnless_item hv _ (by simp) (by omega)
  have hitems : readItems fuel (s.goTo (itemTokens vs ++ .blockEnd :: rest)) =
      some (nodesOf vs, s.goTo rest) := hvs (by omega)
  rw [itemTokens, List.cons_append, List.append_assoc, readItems_item]
  simp [hitem, hitems, nodesOf]

theorem readsUnindented_nil : ReadsUnindented [] := by
  intro fuel s rest hrest h
  obtain ⟨fuel, rfl⟩ : ∃ f, fuel = f + 1 := ⟨fuel - 1, by omega⟩
  exact readUnindented_end hrest

theorem readsUnindented_cons (hv : Reads v) (hvs : ReadsUnindented vs) :
    ReadsUnindented (v :: vs) := by
  intro fuel s rest hrest h
  simp only [itemTokens, List.length_cons, List.length_append] at h
  obtain ⟨fuel, rfl⟩ : ∃ f, fuel = f + 1 := ⟨fuel - 1, by omega⟩
  have hitem : readUnless fuel [.item, .key, .value, .blockEnd] false
      (s.goTo (tokensOf v ++ (itemTokens vs ++ rest))) =
        some (nodeOf v, s.goTo (itemTokens vs ++ rest)) :=
    readUnless_item hv _ (by simp) (by omega)
  have hitems : readUnindented fuel (s.goTo (itemTokens vs ++ rest)) =
      some (nodesOf vs, s.goTo rest) := hvs hrest (by omega)
  rw [itemTokens, List.cons_append, List.append_assoc, readUnindented_item]
  simp [hitem, hitems, nodesOf]

theorem reads_list (hvs : ReadsItems (v :: vs)) : Reads (.list (v :: vs)) := by
  intro fuel s rest unindented h
  simp only [tokensOf, List.length_cons, List.length_append] at h
  obtain ⟨fuel, rfl⟩ : ∃ f, fuel = f + 1 := ⟨fuel - 1, by omega⟩
  have hitems : readItems fuel (s.goTo (itemTokens (v :: vs) ++ .blockEnd :: rest)) =
      some (nodesOf (v :: vs), s.goTo rest) := by
    refine hvs ?_
    simp only [itemTokens, List.length_cons, List.length_append]
    omega
  have htokens : tokensOf (.list (v :: vs)) ++ rest =
      .listStart :: (itemTokens (v :: vs) ++ .blockEnd :: rest) := by
    simp [tokensOf, itemTokens]
  rw [htokens, readNode_listStart, hitems, nodeOf]
  rfl

theorem readsUnder_list (hvs : ReadsUnindented (v :: vs)) : ReadsUnder (.list (v :: vs)) := by
  intro fuel s rest hrest h
  obtain ⟨fuel, rfl⟩ : ∃ f, fuel = f + 1 := ⟨fuel - 1, by omega⟩
  have htokens : tokensUnder (.list (v :: vs)) = itemTokens (v :: vs) := rfl
  rw [htokens] at h ⊢
  have hitems : readUnindented fuel (s.goTo (itemTokens (v :: vs) ++ rest)) =
      some (nodesOf (v :: vs), s.goTo rest) := hvs hrest (by omega)
  have hhead : itemTokens (v :: vs) ++ rest = .item :: (tokensOf v ++ (itemTokens vs ++ rest)) := by
    rw [itemTokens, List.cons_append, List.append_assoc]
  rw [hhead] at hitems ⊢
  rw [readNode_item, hitems, nodeOf]
  rfl

/-! ## Maps -/

theorem readsEntries_nil : ReadsEntries [] := by
  intro fuel s rest h
  obtain ⟨fuel, rfl⟩ : ∃ f, fuel = f + 1 := ⟨fuel - 1, by omega⟩
  exact readEntries_blockEnd

theorem readsEntries_cons (hv : ReadsUnder v) (hes : ReadsEntries es) :
    ReadsEntries ((k, v) :: es) := by
  intro fuel s rest h
  simp only [entryTokens, List.length_cons, List.length_append] at h
  obtain ⟨fuel, rfl⟩ : ∃ f, fuel = f + 3 := ⟨fuel - 3, by omega⟩
  have hbehind : (entryTokens es ++ .blockEnd :: rest).head? ≠ some Token.item := by
    cases es with
    | nil => simp [entryTokens]
    | cons e es => simp [entryTokens]
  have hkey : ∀ rest, readUnless (fuel + 2) [.key, .value, .blockEnd] true
      (s.goTo (.scalar .plain k :: rest)) = some (.scalar .none .plain k, s.goTo rest) := by
    intro rest
    exact readNode_scalar .plain k
  have hvalue : readUnless (fuel + 2) [.key, .value, .blockEnd] true
      (s.goTo (tokensUnder v ++ (entryTokens es ++ .blockEnd :: rest))) =
        some (nodeOf v, s.goTo (entryTokens es ++ .blockEnd :: rest)) :=
    readUnless_value hv hbehind (by omega)
  have hentries : readEntries (fuel + 2) (s.goTo (entryTokens es ++ .blockEnd :: rest)) =
      some (entryNodesOf es, s.goTo rest) := hes (by omega)
  have htokens : entryTokens ((k, v) :: es) ++ .blockEnd :: rest =
      .key :: .scalar .plain k :: .value ::
        (tokensUnder v ++ (entryTokens es ++ .blockEnd :: rest)) := by
    simp [entryTokens]
  rw [htokens, readEntries_key, hkey]
  simp [hvalue, hentries, entryNodesOf]

theorem reads_map (hes : ReadsEntries ((k, v) :: es)) : Reads (.map ((k, v) :: es)) := by
  intro fuel s rest unindented h
  simp only [tokensOf, List.length_cons, List.length_append] at h
  obtain ⟨fuel, rfl⟩ : ∃ f, fuel = f + 1 := ⟨fuel - 1, by omega⟩
  have hentries : readEntries fuel (s.goTo (entryTokens ((k, v) :: es) ++ .blockEnd :: rest)) =
      some (entryNodesOf ((k, v) :: es), s.goTo rest) := by
    refine hes ?_
    simp only [entryTokens, List.length_cons, List.length_append]
    omega
  have htokens : tokensOf (.map ((k, v) :: es)) ++ rest =
      .mapStart :: (entryTokens ((k, v) :: es) ++ .blockEnd :: rest) := by
    simp [tokensOf, entryTokens]
  rw [htokens, readNode_mapStart, hentries, nodeOf]
  rfl

/-! ## Values with the same tokens under a name -/

theorem Reads.under (h : Reads v) (htokens : tokensUnder v = tokensOf v) : ReadsUnder v := by
  intro fuel s rest hrest hfuel
  rw [htokens] at hfuel ⊢
  exact h true (by omega)

theorem reads_scalar {text : String} (htokens : tokensOf v = [.scalar .plain text])
    (hnode : nodeOf v = .scalar .none .plain text) : Reads v := by
  intro fuel s rest unindented hfuel
  rw [htokens] at hfuel ⊢
  obtain ⟨fuel, rfl⟩ : ∃ f, fuel = f + 1 := ⟨fuel - 1, by simp at hfuel; omega⟩
  rw [hnode]
  exact readNode_scalar .plain text

theorem reads_emptyList : Reads (.list []) := by
  intro fuel s rest unindented hfuel
  obtain ⟨fuel, rfl⟩ : ∃ f, fuel = f + 2 :=
    ⟨fuel - 2, by simp [tokensOf, inlineTokens] at hfuel; omega⟩
  exact readNode_emptyList

theorem reads_emptyMap : Reads (.map []) := by
  intro fuel s rest unindented hfuel
  obtain ⟨fuel, rfl⟩ : ∃ f, fuel = f + 2 :=
    ⟨fuel - 2, by simp [tokensOf, inlineTokens] at hfuel; omega⟩
  exact readNode_emptyMap

end Parts

/-! ## All values -/

mutual

theorem reads : (v : Value) → Reads v ∧ ReadsUnder v
  | .list (v :: vs) => by
    have hv := (reads v).1
    obtain ⟨hitems, hunindented⟩ := readsItems vs
    exact ⟨reads_list (readsItems_cons hv hitems),
      readsUnder_list (readsUnindented_cons hv hunindented)⟩
  | .map ((k, v) :: es) => by
    have hmap := reads_map (readsEntries_cons (k := k) (reads v).2 (readsEntries es))
    exact ⟨hmap, hmap.under rfl⟩
  | .list [] => ⟨reads_emptyList, reads_emptyList.under rfl⟩
  | .map [] => ⟨reads_emptyMap, reads_emptyMap.under rfl⟩
  | .null => ⟨reads_scalar rfl rfl, (reads_scalar rfl rfl).under rfl⟩
  | .bool _ => ⟨reads_scalar rfl rfl, (reads_scalar rfl rfl).under rfl⟩
  | .nat _ => ⟨reads_scalar rfl rfl, (reads_scalar rfl rfl).under rfl⟩
  | .number _ => ⟨reads_scalar rfl rfl, (reads_scalar rfl rfl).under rfl⟩
  | .text _ => ⟨reads_scalar rfl rfl, (reads_scalar rfl rfl).under rfl⟩

theorem readsItems : (vs : List Value) → ReadsItems vs ∧ ReadsUnindented vs
  | [] => ⟨readsItems_nil, readsUnindented_nil⟩
  | v :: vs => by
    have hv := (reads v).1
    obtain ⟨hitems, hunindented⟩ := readsItems vs
    exact ⟨readsItems_cons hv hitems, readsUnindented_cons hv hunindented⟩

theorem readsEntries : (es : List (String × Value)) → ReadsEntries es
  | [] => readsEntries_nil
  | (_, v) :: es => readsEntries_cons (reads v).2 (readsEntries es)

end

/-- Without directives and markers, a document is its node. -/
theorem readRoot_eq {t : Token} {ts : List Token} (h : t.isOutside = false) :
    readRoot (t :: ts) =
      readNode (3 * (t :: ts).length + 3) true false ⟨t :: ts, defaultHandles, []⟩ := by
  cases t <;> first | rfl | cases h

/-- The text of a plain value is read as the node of the value. -/
theorem Node.ofText?_print {v : Value} (h : IsPlain v) :
    Node.ofText? (print v) = some (some (nodeOf v)) := by
  obtain ⟨t, ts, htokens, -, houtside⟩ := tokensOf_head v
  let s : TokenStream := ⟨tokensOf v, defaultHandles, []⟩
  have hread : readNode (3 * (tokensOf v).length + 3) true false s =
      some (nodeOf v, s.goTo []) := by
    have hfuel : 2 * (tokensOf v).length ≤ 3 * (tokensOf v).length + 3 := by omega
    have hall : readNode _ true false (s.goTo (tokensOf v ++ [])) = some (nodeOf v, s.goTo []) :=
      (reads v).1 false hfuel
    rwa [List.append_nil] at hall
  have hroot : readRoot (tokensOf v) = some (nodeOf v, s.goTo []) := by
    rw [htokens, readRoot_eq houtside, ← htokens]
    exact hread
  rw [Node.ofText?, scan_print h]
  simp only [Option.bind_eq_bind, Option.bind_some, hroot]
  simp [htokens]

end FeatureTree.Yaml
