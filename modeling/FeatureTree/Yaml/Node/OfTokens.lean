import FeatureTree.Yaml.Node
import FeatureTree.Yaml.Token.Scanner

/-!
# Nodes from tokens

A text holds at most one document. A document is a node; in front of it there
may be directives, if a marker follows them, and behind it markers of its end.

Keys, values and items that are not written are empty scalars. An item inside
brackets can be a single entry of a map. A list under a key need not be
indented; then it has no tokens for its start and end, and its dashes stand
where the next key could stand.
-/

namespace FeatureTree.Yaml

/-- The tokens that are left, and what was said before them. -/
structure TokenStream where
  tokens : List Token
  /-- What each handle stands for. -/
  handles : List (String × List UInt8)
  /-- The numbers of the anchors by their names. -/
  anchors : List (String × Nat)

namespace TokenStream

/-- The stream after a token. -/
def goTo (s : TokenStream) (rest : List Token) : TokenStream := { s with tokens := rest }

/-- The next token is one of those given. -/
def isNext (s : TokenStream) (tokens : List Token) : Bool := s.tokens.head?.any tokens.contains

/-- Numbers an anchor. The number is how many names of anchors there are, so one
that is used again leaves its number to the next anchor. -/
def declare (s : TokenStream) (name : String) : Nat × TokenStream :=
  let number := s.anchors.length
  (number, { s with anchors := (name, number) :: s.anchors.filter (·.1 != name) })

/-- The number of the last anchor of a name. -/
def number? (s : TokenStream) (name : String) : Option Nat :=
  (s.anchors.find? (·.1 == name)).map (·.2)

/-- The tag that a handle and octets make. -/
def tag? (s : TokenStream) (handle : String) (octets : List UInt8) : Option Tag :=
  if handle.isEmpty then some ⟨octets⟩
  else (s.handles.find? (·.1 == handle)).map fun h => ⟨h.2 ++ octets⟩

/-- Takes what stands in front of a node: an anchor and a tag, in either
order. -/
def takeMarks (s : TokenStream) : Option (Marks × TokenStream) :=
  match s.tokens with
  | .anchor name :: .tag handle octets :: rest
  | .tag handle octets :: .anchor name :: rest => do
    let tag ← s.tag? handle octets
    let (number, s) := s.declare name
    return (⟨some number, some tag⟩, s.goTo rest)
  | .anchor name :: rest =>
    let (number, s) := s.declare name
    some (⟨some number, none⟩, s.goTo rest)
  | .tag handle octets :: rest => do
    let tag ← s.tag? handle octets
    return (⟨none, some tag⟩, s.goTo rest)
  | _ => some (.none, s)

end TokenStream

open TokenStream

/-- A scalar with its marks. The tag that stands for no sort in particular is as
good as none. -/
def Node.ofScalar (marks : Marks) (style : ScalarStyle) (text : String) : Node :=
  .scalar { marks with tag := marks.tag.filter (· != Tag.unspecific) } style text

mutual

/-- Reads a node. `block` says that it can be in block style, and `unindented`
that the items of a list may follow without its start. The fuel bounds how
deeply calls nest. -/
def readNode (fuel : Nat) (block unindented : Bool) (s : TokenStream) :
    Option (Node × TokenStream) :=
  match fuel with
  | 0 => none
  | fuel + 1 =>
    match s.tokens with
    | .alias name :: rest => do return (.alias (← s.number? name), s.goTo rest)
    | _ => do
      let (marks, s) ← s.takeMarks
      match s.tokens, block, unindented with
      | .item :: _, _, true => do
        let (items, s) ← readUnindented fuel s
        return (.list marks items, s)
      | .scalar style text :: rest, _, _ => return (.ofScalar marks style text, s.goTo rest)
      | .openList :: rest, _, _ => do
        let (items, s) ← readListEntries fuel true (s.goTo rest)
        return (.list marks items, s)
      | .openMap :: rest, _, _ => do
        let (entries, s) ← readMapEntries fuel true (s.goTo rest)
        return (.map marks entries, s)
      | .listStart :: rest, true, _ => do
        let (items, s) ← readItems fuel (s.goTo rest)
        return (.list marks items, s)
      | .mapStart :: rest, true, _ => do
        let (entries, s) ← readEntries fuel (s.goTo rest)
        return (.map marks entries, s)
      | _, _, _ => if marks = .none then none else return (.empty marks, s)

/-- Reads a node in block style, unless one of the given tokens says that none
is written. -/
def readUnless (fuel : Nat) (ends : List Token) (unindented : Bool) (s : TokenStream) :
    Option (Node × TokenStream) :=
  match fuel with
  | 0 => none
  | fuel + 1 =>
    if s.isNext ends then some (.empty .none, s) else readNode fuel true unindented s

/-- Reads the items of a list in block style, and its end. -/
def readItems (fuel : Nat) (s : TokenStream) : Option (List Node × TokenStream) :=
  match fuel with
  | 0 => none
  | fuel + 1 =>
    match s.tokens with
    | .item :: rest => do
      let (n, s) ← readUnless fuel [.item, .blockEnd] false (s.goTo rest)
      let (ns, s) ← readItems fuel s
      return (n :: ns, s)
    | .blockEnd :: rest => some ([], s.goTo rest)
    | _ => none

/-- Reads the items of a list that is not indented. -/
def readUnindented (fuel : Nat) (s : TokenStream) : Option (List Node × TokenStream) :=
  match fuel with
  | 0 => none
  | fuel + 1 =>
    match s.tokens with
    | .item :: rest => do
      let (n, s) ← readUnless fuel [.item, .key, .value, .blockEnd] false (s.goTo rest)
      let (ns, s) ← readUnindented fuel s
      return (n :: ns, s)
    | _ => some ([], s)

/-- Reads the entries of a map in block style, and its end. -/
def readEntries (fuel : Nat) (s : TokenStream) : Option (List (Node × Node) × TokenStream) :=
  match fuel with
  | 0 => none
  | fuel + 1 =>
    match s.tokens with
    | .key :: rest => do
      let (k, s) ← readUnless fuel [.key, .value, .blockEnd] true (s.goTo rest)
      let (v, s) ← match s.tokens with
        | .value :: rest => readUnless fuel [.key, .value, .blockEnd] true (s.goTo rest)
        | _ => some (.empty .none, s)
      let (es, s) ← readEntries fuel s
      return ((k, v) :: es, s)
    | .blockEnd :: rest => some ([], s.goTo rest)
    | _ => none

/-- Reads the rest of a list in brackets; `first` says that no item came
before. -/
def readListEntries (fuel : Nat) (first : Bool) (s : TokenStream) :
    Option (List Node × TokenStream) :=
  match fuel with
  | 0 => none
  | fuel + 1 =>
    match s.tokens, first with
    | .closeList :: rest, _ | .comma :: .closeList :: rest, false => some ([], s.goTo rest)
    | .comma :: rest, false => do
      let (n, s) ← readListEntry fuel (s.goTo rest)
      let (ns, s) ← readListEntries fuel false s
      return (n :: ns, s)
    | _, false => none
    | _, true => do
      let (n, s) ← readListEntry fuel s
      let (ns, s) ← readListEntries fuel false s
      return (n :: ns, s)

/-- Reads an item of a list in brackets, which can be a single entry of a map.
If such an entry has no key, the token in its place is passed over. -/
def readListEntry (fuel : Nat) (s : TokenStream) : Option (Node × TokenStream) :=
  match fuel with
  | 0 => none
  | fuel + 1 =>
    match s.tokens with
    | .key :: rest => do
      let s := s.goTo rest
      let (k, s) ←
        if s.isNext [.value, .comma, .closeList] then
          some (.empty .none, s.goTo (s.tokens.drop 1))
        else readNode fuel false false s
      let (v, s) ← readFlowValue fuel .closeList s
      return (.map .none [(k, v)], s)
    | _ => readNode fuel false false s

/-- Reads the rest of a map in brackets; `first` says that no entry came
before. -/
def readMapEntries (fuel : Nat) (first : Bool) (s : TokenStream) :
    Option (List (Node × Node) × TokenStream) :=
  match fuel with
  | 0 => none
  | fuel + 1 =>
    match s.tokens, first with
    | .closeMap :: rest, _ | .comma :: .closeMap :: rest, false => some ([], s.goTo rest)
    | .comma :: rest, false => do
      let (e, s) ← readMapEntry fuel (s.goTo rest)
      let (es, s) ← readMapEntries fuel false s
      return (e :: es, s)
    | _, false => none
    | _, true => do
      let (e, s) ← readMapEntry fuel s
      let (es, s) ← readMapEntries fuel false s
      return (e :: es, s)

/-- Reads an entry of a map in brackets. -/
def readMapEntry (fuel : Nat) (s : TokenStream) : Option ((Node × Node) × TokenStream) :=
  match fuel with
  | 0 => none
  | fuel + 1 =>
    match s.tokens with
    | .key :: rest => do
      let s := s.goTo rest
      let (k, s) ←
        if s.isNext [.value, .comma, .closeMap] then some (.empty .none, s)
        else readNode fuel false false s
      let (v, s) ← readFlowValue fuel .closeMap s
      return ((k, v), s)
    | _ => do
      let (k, s) ← readNode fuel false false s
      return ((k, .empty .none), s)

/-- Reads the value of an entry inside brackets that end with a given token. -/
def readFlowValue (fuel : Nat) (close : Token) (s : TokenStream) :
    Option (Node × TokenStream) :=
  match fuel with
  | 0 => none
  | fuel + 1 =>
    match s.tokens with
    | .value :: rest =>
      let s := s.goTo rest
      if s.isNext [.comma, close] then some (.empty .none, s) else readNode fuel false false s
    | _ => some (.empty .none, s)

end

/-- The handles that need no directive. -/
def defaultHandles : List (String × List UInt8) :=
  [("!", Tag.unspecific.octets), ("!!", (Tag.core "").octets)]

/-- Takes the directives before a document. The version may be told once, and
each handle as well. -/
def takeDirectives : Bool → List (String × List UInt8) → List Token →
    Option (List (String × List UInt8) × List Token)
  | versioned, handles, .version major minor :: rest =>
    if versioned || major != 1 || (minor != 1 && minor != 2) then none
    else takeDirectives true handles rest
  | versioned, handles, .handle name start :: rest =>
    if handles.any (·.1 == name) then none
    else takeDirectives versioned (handles ++ [(name, start)]) rest
  | _, handles, tokens => some (handles, tokens)

/-- A token that belongs to the surroundings of a document. -/
def Token.isOutside : Token → Bool
  | .version _ _ | .handle _ _ | .documentStart | .documentEnd => true
  | _ => false

/-- Reads the node of a document, which need not be written after a marker. -/
def readRoot (tokens : List Token) : Option (Node × TokenStream) :=
  let fuel := 3 * tokens.length + 3
  match tokens with
  | .version _ _ :: _ | .handle _ _ :: _ | .documentStart :: _ => do
    let (handles, tokens) ← takeDirectives false [] tokens
    let s : TokenStream := ⟨tokens.drop 1, handles ++ defaultHandles, []⟩
    if tokens.head? != some .documentStart then none
    else if s.tokens.head?.all Token.isOutside then return (.empty .none, s)
    else readNode fuel true false s
  | _ => readNode fuel true false ⟨tokens, defaultHandles, []⟩

/-- The root of the only document of a text. There may be nothing in the text;
then it has no root. -/
def Node.ofText? (text : String) : Option (Option Node) := do
  let tokens ← Token.scan text.toList
  if tokens.isEmpty then return none
  let (n, s) ← readRoot tokens
  if s.tokens.all (· == .documentEnd) then return some n else none

end FeatureTree.Yaml
