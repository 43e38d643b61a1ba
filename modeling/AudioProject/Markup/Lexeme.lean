import AudioProject.Markup.Bytes
import AudioProject.Markup.Fault

/-
  Markup text cut into character data, tags and CDATA sections. Each character is looked at
  once, in a mode that says what is open. Comments, instructions and document types leave no
  lexeme. A fault is always the last lexeme.

  A lexeme stands at the offset of its first character.
-/

namespace AudioProject.Markup

inductive Lexeme where
  | text (raw : List Char)
  /-- What stands between `<` and `>`. -/
  | tag (content : List Char)
  /-- What stands between `</` and `>`. -/
  | close (content : List Char)
  | cdata (content : List Char)
  | fault (e : Fault)
  deriving DecidableEq, Repr

/-- What is open. Characters that have been read are kept in reverse. -/
inductive Mode where
  | data (acc : List Char)
  /-- After `<`. -/
  | angle
  | tag (quote : Option Char) (acc : List Char)
  | close (acc : List Char)
  | instruction (acc : List Char)
  /-- After `<!`. -/
  | bang
  /-- After `<!-`. -/
  | dash
  /-- In a comment, after `dashes` hyphens, which count up to two. -/
  | comment (dashes : Nat)
  /-- Before the rest of a keyword, in any case of letters. -/
  | keyword (what : Construct) (left : List Char)
  | cdata (acc : List Char)
  /-- Inside `depth` further angles; `named` once something but blanks has been read. -/
  | doctype (depth : Nat) (named : Bool)

namespace Mode

/-- The mode after the keyword of `what`. -/
def afterKeyword : Construct → Mode
  | .cdata => .cdata []
  | _ => .doctype 0 false

/-- What the end of the text means. -/
def atEnd (start : Nat) : Mode → List (Nat × Lexeme)
  | data [] => []
  | data acc => [(start, .text acc.reverse)]
  | angle => []
  | tag _ _ => [(start, .fault (.unfinished .element))]
  | close acc => [(start, .close acc.reverse)]
  | instruction acc =>
    if 2 ≤ acc.length ∧ acc.head? = some '?' then []
    else [(start, .fault (.unfinished .instruction))]
  | bang => [(start, .fault (.unfinished .bang))]
  | dash => [(start, .fault (.unfinished .comment))]
  | comment _ => [(start, .fault (.unfinished .comment))]
  | keyword what _ => [(start, .fault (.unfinished what))]
  | cdata _ => [(start, .fault (.unfinished .cdata))]
  | doctype _ _ => [(start, .fault (.unfinished .doctype))]

/-- The mode after the quotes that may open or close at `c`. -/
def quoteAfter (quote : Option Char) (c : Char) : Option Char :=
  match quote with
  | none => if c = '"' ∨ c = '\'' then some c else none
  | some q => if c = q then none else some q

end Mode

/-- What one character does: it leads to another mode, or ends a construct. -/
inductive Move where
  | stay (m : Mode)
  /-- Ends character data before a `<`. -/
  | endText (raw : List Char)
  /-- Ends a construct that leaves `x`. -/
  | endWith (x : Lexeme)
  /-- Ends a construct that leaves nothing. -/
  | skip
  | fail (e : Fault)

/-- What `c` does in a mode. -/
def Mode.move (c : Char) : Mode → Move
  | data [] => .stay (if c = '<' then .angle else .data [c])
  | data acc => if c = '<' then .endText acc.reverse else .stay (.data (c :: acc))
  | angle =>
    if c = '!' then .stay .bang
    else if c = '/' then .stay (.close [])
    else if c = '?' then .stay (.instruction [])
    else if c = '>' then .endWith (.tag [])
    else .stay (.tag (quoteAfter none c) [c])
  | tag quote acc =>
    if c = '>' ∧ quote = none then .endWith (.tag acc.reverse)
    else .stay (.tag (quoteAfter quote c) (c :: acc))
  | close acc => if c = '>' then .endWith (.close acc.reverse) else .stay (.close (c :: acc))
  | instruction acc =>
    if c = '>' then
      if 2 ≤ acc.length ∧ acc.head? = some '?' then .skip
      else .fail (.unfinished .instruction)
    else .stay (.instruction (c :: acc))
  | bang =>
    if c = '[' then .stay (.keyword .cdata "CDATA[".toList)
    else if c = '-' then .stay .dash
    else if c = 'D' ∨ c = 'd' then .stay (.keyword .doctype "OCTYPE".toList)
    else .fail (.badBang (firstByte c))
  | dash => if c = '-' then .stay (.comment 0) else .fail (.unfinished .comment)
  | comment dashes =>
    if c = '-' then .stay (.comment (min 2 (dashes + 1)))
    else if c = '>' ∧ dashes = 2 then .skip
    else .stay (.comment 0)
  | keyword what left =>
    match left with
    | [] => .fail (.unfinished what)
    | k :: ks =>
      if c.toUpper = k then .stay (if ks = [] then afterKeyword what else .keyword what ks)
      else .fail (.unfinished what)
  | cdata acc =>
    match c, acc with
    | '>', ']' :: ']' :: acc => .endWith (.cdata acc.reverse)
    | c, acc => .stay (.cdata (c :: acc))
  | doctype depth named =>
    if c = '<' then .stay (.doctype (depth + 1) true)
    else if c = '>' then
      match depth with
      | 0 => if named then .skip else .fail .emptyDoctype
      | d + 1 => .stay (.doctype d named)
    else .stay (.doctype depth (named || !isMarkupBlank c))

/-- The lexemes of `cs`, which begins at byte `position`; what is open began at `start`. -/
def lexFrom (m : Mode) (start position : Nat) : List Char → List (Nat × Lexeme)
  | [] => m.atEnd start
  | c :: cs =>
    let next := position + c.utf8Size
    match m.move c with
    | .stay m => lexFrom m start next cs
    | .endText raw => (start, .text raw) :: lexFrom .angle position next cs
    | .endWith x => (start, x) :: lexFrom (.data []) next next cs
    | .skip => lexFrom (.data []) next next cs
    | .fail e => [(start, .fault e)]

def lexemes (cs : List Char) : List (Nat × Lexeme) := lexFrom (.data []) 0 0 cs

end AudioProject.Markup
