/-
  JSON values. Members of an object keep their order, and numbers keep the text they have.
-/

namespace AudioProject

inductive Json where
  | null
  | bool (b : Bool)
  | num (text : String)
  | str (s : String)
  | arr (items : List Json)
  | obj (members : List (String × Json))

namespace Json

def str? : Json → Option String
  | str s => some s
  | _ => none

def arr? : Json → Option (List Json)
  | arr xs => some xs
  | _ => none

def obj? : Json → Option (List (String × Json))
  | obj ms => some ms
  | _ => none

/-- The first member of that name. -/
def member? (key : String) (j : Json) : Option Json :=
  match j with
  | obj ms => (ms.find? (·.1 = key)).map Prod.snd
  | _ => none

/-- The values of a record. A record is an object with these keys, each at most once and others
ignored, or an array with a value for each key. -/
def record? (keys : List String) : Json → Option (List (Option Json))
  | obj ms =>
    if keys.all fun k => (ms.filter (·.1 = k)).length ≤ 1 then
      some (keys.map fun k => (ms.find? (·.1 = k)).map Prod.snd)
    else none
  | arr xs => if xs.length = keys.length then some (xs.map some) else none
  | _ => none

end Json

end AudioProject
