import FeatureTree.Yaml.Token
import FeatureTree.Yaml.Cursor

/-!
# YAML tags and directives

A tag says of what sort a node is. It is written as a whole between angles, or
with a handle, for which the directives before a document say what it stands
for. Octets that cannot be written as they are follow a percent sign, as two
hexadecimal digits. A tag ends before an octet of value zero.
-/

namespace FeatureTree.Yaml

open Cursor

/-- A tag, as octets. -/
structure Tag where
  octets : List UInt8
  deriving DecidableEq, Repr

namespace Tag

/-- The tag that a text names. -/
def ofString (text : String) : Tag := ⟨text.toUTF8.toList⟩

/-- What the handle of two exclamation marks stands for by default. -/
def coreStart : String := "tag:yaml.org,2002:"

/-- A tag of the format's own sorts. -/
def core (name : String) : Tag := ofString (coreStart ++ name)

/-- The tag that stands for no sort in particular. -/
def unspecific : Tag := ofString "!"

/-- The name of a tag that starts with an exclamation mark. -/
def name? (t : Tag) : Option String :=
  match t.octets with
  | 33 :: name => String.fromUTF8? ⟨name.toArray⟩
  | _ => none

end Tag

/-- The octets of ASCII characters. -/
def octetsOf (cs : List Char) : List UInt8 := cs.map fun c => UInt8.ofNat c.toNat

/-- The octets before the first one of value zero. -/
def beforeZero (octets : List UInt8) : List UInt8 := octets.takeWhile (· != 0)

/-- A character of a tag that stands for itself. Between angles and in
directives a few more do. -/
def isTagChar (whole : Bool) (c : Char) : Bool :=
  isWordChar c ||
    [';', '/', '?', ':', '@', '&', '=', '+', '$', '.', '!', '~', '*', '\'', '(', ')'].contains c ||
    (whole && [',', '[', ']'].contains c)

/-- The octet that a percent sign and two digits write. -/
def percentOctet? : List Char → Option Nat
  | '%' :: a :: b :: _ => do return 16 * (← digit? a) + (← digit? b)
  | _ => none

/-- How many octets a character takes whose first octet is given. -/
def octetCount? (first : Nat) : Option Nat :=
  if first < 0x80 then some 1
  else if 0xc0 ≤ first && first < 0xe0 then some 2
  else if 0xe0 ≤ first && first < 0xf0 then some 3
  else if 0xf0 ≤ first && first < 0xf8 then some 4
  else none

/-- Takes octets of a tag, where `missing` further ones belong to the character
that was begun. The fuel bounds the number of octets. -/
def takeOctets (whole : Bool) : Nat → Nat → Cursor → Option (List UInt8 × Cursor)
  | 0, _, _ => none
  | fuel + 1, missing, k =>
    match k.rest with
    | '%' :: _ => do
      let n ← percentOctet? k.rest
      let missing ←
        if missing = 0 then (octetCount? n).map (· - 1)
        else if 0x80 ≤ n && n < 0xc0 then some (missing - 1)
        else none
      let (octets, k) ← takeOctets whole fuel missing (k.skip 3)
      return (UInt8.ofNat n :: octets, k)
    | c :: _ =>
      if missing != 0 then none
      else if isTagChar whole c then do
        let (octets, k) ← takeOctets whole fuel 0 (k.skip 1)
        return (UInt8.ofNat c.toNat :: octets, k)
      else some ([], k)
    | [] => if missing = 0 then some ([], k) else none

/-- Takes octets of a tag, at least one. -/
def takeTagText (fuel : Nat) (whole : Bool) (k : Cursor) : Option (List UInt8 × Cursor) := do
  let (octets, k) ← takeOctets whole fuel 0 k
  if octets.isEmpty then none else return (octets, k)

/-- Takes a tag, from its exclamation mark on. The fuel bounds its length. -/
def takeTagParts (fuel : Nat) (k : Cursor) : Option (Token × Cursor) :=
  match k.rest with
  | '!' :: '<' :: _ => do
    let (octets, k) ← takeTagText fuel true (k.skip 2)
    if k.at? '>' then return (.tag "" (beforeZero octets), k.skip 1) else none
  | _ => do
    let (name, after) := (k.skip 1).span isWordChar
    if after.at? '!' then
      let (octets, k) ← takeTagText fuel false (after.skip 1)
      return (.tag ("!" ++ String.ofList name ++ "!") (beforeZero octets), k)
    else
      let (octets, k) ← takeOctets false fuel 0 after
      match beforeZero (octetsOf name ++ octets) with
      | [] => return (.tag "" Tag.unspecific.octets, k)
      | octets => return (.tag "!" octets, k)

/-- Takes a tag, which is followed by a blank, by a line end, or inside brackets
by a comma. The fuel bounds its length. -/
def takeTag (fuel : Nat) (flow : Bool) (k : Cursor) : Option (Token × Cursor) := do
  let (t, k) ← takeTagParts fuel k
  if isBlankNext k.rest || (flow && k.at? ',') then return (t, k) else none

/-- Takes the number of a version, of at most nine digits. -/
def takeVersionNumber (k : Cursor) : Option (Nat × Cursor) := do
  let (digits, k) := k.span Char.isDigit
  if 9 < digits.length then none
  return (← numberIn? 10 digits, k)

/-- Takes the two numbers of a version. -/
def takeVersion (k : Cursor) : Option (Token × Cursor) := do
  let (major, k) ← takeVersionNumber k.skipBlanks
  if !k.at? '.' then none
  let (minor, k) ← takeVersionNumber (k.skip 1)
  return (.version major minor, k)

/-- Takes a handle and what it stands for. -/
def takeHandle (fuel : Nat) (k : Cursor) : Option (Token × Cursor) := do
  let k := k.skipBlanks
  if !k.at? '!' then none
  let (name, k) := (k.skip 1).span isWordChar
  if !k.at? '!' && !name.isEmpty then none
  let (last, k) := if k.at? '!' then ("!", k.skip 1) else ("", k)
  if !k.rest.head?.any isBlank then none
  let (octets, k) ← takeTagText fuel true k.skipBlanks
  if !isBlankNext k.rest then none
  return (.handle ("!" ++ String.ofList name ++ last) (beforeZero octets), k)

/-- Takes the line of a directive, from its percent sign on. The fuel bounds its
length. -/
def takeDirective (fuel : Nat) (k : Cursor) : Option (Token × Cursor) := do
  let (name, k) := (k.skip 1).span isWordChar
  if !isBlankNext k.rest then none
  let (t, k) ← match String.ofList name with
    | "YAML" => takeVersion k
    | "TAG" => takeHandle fuel k
    | _ => none
  return (t, ← k.lineEnd?)

/-- Takes the name of an anchor or alias, from its sign on. -/
def takeName (k : Cursor) : Option (String × Cursor) :=
  let (name, k) := (k.skip 1).span isWordChar
  let ends := k.rest.head?.any fun c =>
    ['?', ':', ',', ']', '\x7d', '%', '@'].contains c || c.toNat == 96
  if name.isEmpty || !(isBlankNext k.rest || ends) then none else some (String.ofList name, k)

end FeatureTree.Yaml
