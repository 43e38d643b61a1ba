/-
  Command lines as lists of words: options with two hyphens or one, values behind an equals sign
  or in the next word, and positional words. A value is looked at when the next word is no part
  of it, so the first word that is wrong, or asks for help, decides how the reading ends.
-/

namespace AudioProject.Command

/-- Why a command line is not carried out. -/
inductive Stop where
  | usage
  /-- Help was asked for, or the version. -/
  | help
  deriving DecidableEq, Repr

/-- What an option does. -/
inductive Effect where
  | help
  | flag
  /-- Takes a value that `accepts` does not refuse, once or any number of times. -/
  | value (repeats : Bool) (accepts : String → Bool)

/-- What a word can stand for: an option, or a positional word of that name. -/
structure Slot where
  name : String
  short? : Option Char := none
  effect : Effect

/-- The words that a command takes. -/
structure Grammar where
  options : List Slot
  /-- The positional words, all of which have to come. -/
  positionals : List Slot := []
  /-- The names of options that have to come. -/
  required : List String := []

/-- The flags and the values found so far. -/
structure Matches where
  flags : List String := []
  values : List (String × String) := []
  deriving DecidableEq, Repr

namespace Matches

def has (m : Matches) (name : String) : Bool := name ∈ m.flags

def all (m : Matches) (name : String) : List String :=
  m.values.filterMap fun v => if v.1 = name then some v.2 else none

def first? (m : Matches) (name : String) : Option String := (m.all name).head?

end Matches

structure State where
  found : Matches := {}
  /-- An option whose value has not been looked at, and the value if it is there. -/
  pending? : Option (Slot × Option String) := none
  positionals : List Slot
  /-- After two hyphens alone every word is positional. -/
  isTrailing : Bool := false

namespace State

/-- Adds a value, if the option takes it. -/
def addValue (s : State) (o : Slot) (value : String) : Except Stop State :=
  match o.effect with
  | .value repeats accepts =>
    if !accepts value || (!repeats && (s.found.first? o.name).isSome) then .error .usage
    else .ok { s with found := { s.found with values := s.found.values ++ [(o.name, value)] } }
  | _ => .error .usage

/-- Looks at the value of the pending option. -/
def settle (s : State) : Except Stop State :=
  match s.pending? with
  | none => .ok s
  | some (_, none) => .error .usage
  | some (o, some value) => { s with pending? := none }.addValue o value

/-- Carries out a flag, which comes once. -/
def addFlag (s : State) (o : Slot) : Except Stop State := do
  let s ← s.settle
  match o.effect with
  | .help => throw .help
  | .flag =>
    if s.found.has o.name then throw .usage
    return { s with found := { s.found with flags := s.found.flags ++ [o.name] } }
  | .value _ _ => throw .usage

/-- An option with two hyphens, and the text behind its equals sign. -/
def long (x : Grammar) (s : State) (name : String) (value? : Option String) : Except Stop State :=
  match x.options.find? (·.name = name) with
  | none => .error .usage
  | some o =>
    match o.effect, value? with
    | .value _ _, some value => do (← s.settle).addValue o value
    | .value _ _, none => do return { ← s.settle with pending? := some (o, none) }
    | _, some _ => .error .usage
    | _, none => s.addFlag o

/-- Letters behind one hyphen, a flag each. -/
def short (x : Grammar) (s : State) : List Char → Except Stop State
  | [] => .ok s
  | c :: cs =>
    match x.options.find? (·.short? = some c) with
    | none => .error .usage
    | some o => do
      let s ← s.addFlag o
      short x s cs

def positional (s : State) (word : String) : Except Stop State := do
  match s.positionals with
  | [] => throw .usage
  | o :: os => return { ← s.settle with pending? := some (o, some word), positionals := os }

/-- The name of a long option, and the text behind the equals sign. -/
def splitLong (cs : List Char) : String × Option String :=
  (String.ofList (cs.takeWhile (· ≠ '=')),
    match cs.dropWhile (· ≠ '=') with
    | [] => none
    | _ :: value => some (String.ofList value))

/-- Whether an option is waiting for its value. -/
def isWaiting (s : State) : Bool :=
  match s.pending? with
  | some (_, none) => true
  | _ => false

/-- A word that is no option: the value of the option that waits for one, or positional. -/
def plain (s : State) (word : String) : Except Stop State :=
  match s.pending? with
  | some (o, none) => .ok { s with pending? := some (o, some word) }
  | _ => s.positional word

def step (x : Grammar) (s : State) (word : String) : Except Stop State :=
  if s.isTrailing then s.positional word
  else
    match word.toList with
    | ['-', '-'] => .ok { s with isTrailing := true }
    | '-' :: '-' :: cs => let (name, value?) := splitLong cs; s.long x name value?
    | '-' :: c :: cs => s.short x (c :: cs)
    | _ => s.plain word

/-- What was found, when all that has to come has come. -/
def finish (x : Grammar) (s : State) : Except Stop Matches := do
  let s ← s.settle
  let isMissing := x.required.any fun name => (s.found.first? name).isNone
  if !s.positionals.isEmpty || isMissing then throw .usage
  return s.found

end State

def Grammar.start (x : Grammar) : State := { positionals := x.positionals }

/-- Reads all words. -/
def Grammar.read (x : Grammar) (words : List String) : Except Stop Matches := do
  (← words.foldlM (State.step x) x.start).finish x

/-- Reads words up to one that `isName` knows, which is not the value of an option. -/
def State.readUntil (x : Grammar) (isName : String → Bool) (s : State) :
    List String → Except Stop (State × Option (String × List String))
  | [] => .ok (s, none)
  | word :: words =>
    if !s.isWaiting && !s.isTrailing && isName word then .ok (s, some (word, words))
    else do
      let s ← s.step x word
      s.readUntil x isName words

end AudioProject.Command
