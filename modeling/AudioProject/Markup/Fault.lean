import AudioProject.Text.Quoted

/-
  What can be wrong with markup text, from the outside in: its constructs, the attributes of a
  tag, the references in character data. Offsets count bytes of UTF-8.
-/

namespace AudioProject.Markup

/-- What was being read when the text ended, or turned out to be something else. -/
inductive Construct where
  | bang
  | cdata
  | comment
  | doctype
  | instruction
  | element
  deriving DecidableEq, Repr

/-- Ranges begin at the ampersand, or behind it for an unknown name. -/
inductive ReferenceFault where
  | null (first last : Nat)
  | unknown (first last : Nat) (name : String)
  | unterminated (first last : Nat)
  | tooManyHexDigits
  | tooManyDigits
  | notHexDigit (c : Char)
  | notDigit (c : Char)
  | notCodePoint (n : Nat)
  deriving DecidableEq, Repr

/-- Offsets count from the first character of the tag's name. -/
inductive AttributeFault where
  | noEquals (offset : Nat)
  | noValue (offset : Nat)
  | unquotedValue (offset : Nat)
  | unclosedValue (offset : Nat) (quote : Char)
  | duplicate (offset first : Nat)
  deriving DecidableEq, Repr

inductive Fault where
  | unfinished (what : Construct)
  | badBang (c : Char)
  | emptyDoctype
  | mismatch (expected found : String)
  | badAttribute (e : AttributeFault)
  | badReference (e : ReferenceFault)
  deriving DecidableEq, Repr

open Text

def Construct.name : Construct → String
  | bang => "Bang"
  | cdata => "CData"
  | comment => "Comment"
  | doctype => "DOCTYPE"
  | instruction => "XmlDecl"
  | element => "Element"

namespace ReferenceFault

def atRange (first last : Nat) (what : String) : String :=
  "Error while escaping character at range " ++ toString first ++ ".." ++ toString last ++ ": " ++
    what

def message : ReferenceFault → String
  | null a b => atRange a b "Null character entity not allowed"
  | unknown a b name => atRange a b ("Unrecognized escape symbol: " ++ quoted name)
  | unterminated a b => atRange a b "Cannot find ';' after '&'"
  | tooManyHexDigits => "Cannot convert hexadecimal to utf8"
  | tooManyDigits => "Cannot convert decimal to utf8"
  | notHexDigit c => "'" ++ c.toString ++ "' is not a valid hexadecimal character"
  | notDigit c => "'" ++ c.toString ++ "' is not a valid decimal character"
  | notCodePoint n => "'" ++ toString n ++ "' is not a valid codepoint"

end ReferenceFault

namespace AttributeFault

def atOffset (n : Nat) (what : String) : String := "position " ++ toString n ++ ": " ++ what

def message : AttributeFault → String
  | noEquals n => atOffset n "attribute key must be directly followed by `=` or space"
  | noValue n => atOffset n "`=` must be followed by an attribute value"
  | unquotedValue n => atOffset n "attribute value must be enclosed in `\"` or `'`"
  | unclosedValue n q =>
    atOffset n ("missing closing quote `" ++ q.toString ++ "` in attribute value")
  | duplicate n first =>
    atOffset n ("duplicated attribute, previous declaration at position " ++ toString first)

end AttributeFault

def Fault.message : Fault → String
  | unfinished what => "Unexpected EOF during reading " ++ what.name
  | badBang c =>
    "Only Comment (`--`), CDATA (`[CDATA[`) and DOCTYPE (`DOCTYPE`) nodes can start with a '!', " ++
      "but symbol `" ++ c.toString ++ "` found"
  | emptyDoctype => "DOCTYPE declaration must not be empty"
  | mismatch expected found => "Expecting </" ++ expected ++ "> found </" ++ found ++ ">"
  | badAttribute e => "error while parsing attribute: " ++ e.message
  | badReference e => e.message

end AudioProject.Markup
