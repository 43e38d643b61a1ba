import AudioProject.Markup.Reference

/-
  Tags: a name, then attributes, each a key and a quoted value. Attributes are read in order up
  to the first fault; a key has at least one character, whatever it is, and may not come twice.
-/

namespace AudioProject.Markup

structure Attributes where
  /-- Keys with their values as they are written. -/
  list : List (List Char × List Char)
  /-- What is wrong behind the last of them. -/
  fault : Option AttributeFault
  deriving DecidableEq, Repr

namespace Attributes

/-- What was read of an attribute. Characters are kept in reverse. -/
inductive Mode where
  | between
  | key (start : Nat) (acc : List Char)
  /-- At blanks after a key. -/
  | spaced (start : Nat) (key : List Char)
  /-- After the `=`. -/
  | equals (key : List Char)
  | value (key : List Char) (quote : Char) (acc : List Char)

/-- Puts an attribute in front. -/
def cons (key value : List Char) (as : Attributes) : Attributes :=
  { as with list := (key, value) :: as.list }

def ofFault (e : AttributeFault) : Attributes := ⟨[], some e⟩

/-- The attributes in `cs`, which begins at byte `position` of the tag. `seen` has the keys so
far, and where they stand. -/
def readFrom (m : Mode) (seen : List (List Char × Nat)) (position : Nat) :
    List Char → Attributes
  | [] =>
    match m with
    | .between => ⟨[], none⟩
    | .key _ _ => ofFault (.noEquals position)
    | .spaced _ _ => ofFault (.noEquals position)
    | .equals _ => ofFault (.noValue position)
    | .value _ q _ => ofFault (.unclosedValue position q)
  | c :: cs =>
    let next := position + c.utf8Size
    let equals (start : Nat) (key : List Char) : Attributes :=
      match seen.find? (·.1 = key) with
      | some first => ofFault (.duplicate start first.2)
      | none => readFrom (.equals key) (seen ++ [(key, start)]) next cs
    match m with
    | .between =>
      if isMarkupBlank c then readFrom .between seen next cs
      else readFrom (.key position [c]) seen next cs
    | .key start acc =>
      if c = '=' then equals start acc.reverse
      else if isMarkupBlank c then readFrom (.spaced start acc.reverse) seen next cs
      else readFrom (.key start (c :: acc)) seen next cs
    | .spaced start key =>
      if isMarkupBlank c then readFrom m seen next cs
      else if c = '=' then equals start key
      else ofFault (.noEquals position)
    | .equals key =>
      if isMarkupBlank c then readFrom m seen next cs
      else if c = '"' ∨ c = '\'' then readFrom (.value key c []) seen next cs
      else ofFault (.unquotedValue position)
    | .value key q acc =>
      if c = q then cons key acc.reverse (readFrom .between seen next cs)
      else readFrom (.value key q (c :: acc)) seen next cs

end Attributes

structure Tag where
  name : List Char
  attributes : Attributes
  deriving DecidableEq, Repr

namespace Tag

/-- The name ends at the first blank. -/
def ofContent (content : List Char) : Tag :=
  let name := content.takeWhile fun c => !isMarkupBlank c
  { name
    attributes := Attributes.readFrom .between [] (byteLength name) (content.drop name.length) }

/-- The value of an attribute with its references resolved. Faults behind it are not seen. -/
def value? (t : Tag) (key : List Char) : Except Fault (Option (List Char)) :=
  match t.attributes.list.find? (·.1 = key) with
  | some (_, raw) =>
    match unescape raw with
    | .ok v => .ok (some v)
    | .error e => .error (.badReference e)
  | none =>
    match t.attributes.fault with
    | some e => .error (.badAttribute e)
    | none => .ok none

end Tag

end AudioProject.Markup
