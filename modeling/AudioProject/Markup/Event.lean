import AudioProject.Markup.Lexeme
import AudioProject.Markup.Tag

/-
  Markup as a sequence of events. Each end tag has the name of the innermost start tag that is
  still open; elements that are open at the end of the text are not a fault.
-/

namespace AudioProject.Markup

inductive Event where
  | start (tag : Tag)
  | empty (tag : Tag)
  | finish (name : List Char)
  | text (raw : List Char)
  | cdata (content : List Char)
  | fault (e : Fault)
  deriving DecidableEq, Repr

/-- The name in an end tag: blanks at its end do not count, unless there is nothing else. -/
def closingName (content : List Char) : List Char :=
  let name := (content.reverse.dropWhile isMarkupBlank).reverse
  if name = [] then content else name

/-- The events of a sequence of lexemes, inside the elements named by `opened`, innermost first. -/
def eventsFrom (opened : List (List Char)) : List (Nat × Lexeme) → List (Nat × Event)
  | [] => []
  | (p, .text raw) :: xs => (p, .text raw) :: eventsFrom opened xs
  | (p, .cdata content) :: xs => (p, .cdata content) :: eventsFrom opened xs
  | (p, .fault e) :: _ => [(p, .fault e)]
  | (p, .tag content) :: xs =>
    if content.getLast? = some '/' then
      (p, .empty (Tag.ofContent content.dropLast)) :: eventsFrom opened xs
    else
      let tag := Tag.ofContent content
      (p, .start tag) :: eventsFrom (tag.name :: opened) xs
  | (p, .close content) :: xs =>
    let name := closingName content
    match opened with
    | [] => [(p, .fault (.mismatch "" (String.ofList content)))]
    | top :: rest =>
      if name = top then (p, .finish name) :: eventsFrom rest xs
      else [(p, .fault (.mismatch (String.ofList top) (String.ofList name)))]

/-- A byte order mark in front is not part of the text. -/
def withoutMark : List Char → List Char
  | '\ufeff' :: cs => cs
  | cs => cs

/-- The events of a text and the bytes they stand at. -/
def events (cs : List Char) : List (Nat × Event) := eventsFrom [] (lexemes (withoutMark cs))

end AudioProject.Markup
