import AudioProject.Text.Blank

/-
  Moments in universal time and their RFC 3339 text. Reading is relaxed: blanks may stand around
  the parts of a date and a time, a blank may stand for the `T`, and a year may have a sign and
  more than four digits. A sixtieth second is kept as a nanosecond count of a billion or more.
-/

namespace AudioProject

open Text

structure Instant where
  /-- Seconds since the start of 1970. -/
  seconds : Int
  nanos : Nat
  deriving DecidableEq, Repr

namespace Instant

/-! ## Days and dates -/

def isLeapYear (y : Int) : Bool := y % 4 = 0 && (y % 100 ≠ 0 || y % 400 = 0)

def daysInMonth (y : Int) (m : Nat) : Nat :=
  if m = 2 then (if isLeapYear y then 29 else 28)
  else if m = 4 ∨ m = 6 ∨ m = 9 ∨ m = 11 then 30
  else 31

/-- The years that a date can have. -/
def minYear : Int := -262143

def maxYear : Int := 262142

/-- Days since the start of 1970. Years are counted from March, so that a leap day comes last;
four centuries have 146097 days. -/
def daysOfDate (y : Int) (m d : Nat) : Int :=
  let y := if m ≤ 2 then y - 1 else y
  let era := y / 400
  let yearOfEra := y % 400
  let month := (m + 9) % 12
  let dayOfYear := (153 * month + 2) / 5 + d - 1
  era * 146097 + (yearOfEra * 365 + yearOfEra / 4 - yearOfEra / 100 + dayOfYear) - 719468

/-- Year, month and day of a day number. -/
def dateOfDays (days : Int) : Int × Nat × Nat :=
  let z := days + 719468
  let era := z / 146097
  let dayOfEra := (z % 146097).toNat
  let yearOfEra := (dayOfEra - dayOfEra / 1460 + dayOfEra / 36524 - dayOfEra / 146096) / 365
  let dayOfYear := dayOfEra - (365 * yearOfEra + yearOfEra / 4 - yearOfEra / 100)
  let month := (5 * dayOfYear + 2) / 153
  let day := dayOfYear - (153 * month + 2) / 5 + 1
  let m := if month < 10 then month + 3 else month - 9
  let y := era * 400 + yearOfEra
  (if m ≤ 2 then y + 1 else y, m, day)

/-! ## Reading -/

/-- At least one digit and at most `max`, with what follows them. -/
def digits? (max : Nat) (cs : List Char) : Option (Nat × List Char) :=
  let ds := (cs.take max).takeWhile Char.isDigit
  if ds.isEmpty then none
  else some (ds.foldl (fun n c => 10 * n + (c.toNat - '0'.toNat)) 0, cs.drop ds.length)

/-- A number after blanks. -/
def field? (cs : List Char) : Option (Nat × List Char) := digits? 2 (trimStart cs)

/-- A year: with a sign it has any number of digits, without one at most four. -/
def year? (cs : List Char) : Option (Int × List Char) :=
  match trimStart cs with
  | '-' :: cs => (digits? cs.length cs).map fun (n, r) => (-(n : Int), r)
  | '+' :: cs => (digits? cs.length cs).map fun (n, r) => ((n : Int), r)
  | cs => (digits? 4 cs).map fun (n, r) => ((n : Int), r)

/-- The character `c` after blanks. -/
def mark? (c : Char) (cs : List Char) : Option (List Char) :=
  match trimStart cs with
  | [] => none
  | d :: cs => if c = d then some cs else none

/-- The digits after a decimal point, of which the first nine count. -/
def fraction? (cs : List Char) : Option (Nat × List Char) :=
  match cs with
  | '.' :: cs => do
    let (n, r) ← digits? 9 cs
    some (n * Nat.pow 10 (9 - (cs.length - r.length)), r.dropWhile Char.isDigit)
  | cs => some (0, cs)

/-- Hours and minutes of an offset, in seconds. -/
def clock? (cs : List Char) : Option (Nat × List Char) :=
  match cs with
  | a :: b :: cs =>
    if a.isDigit ∧ b.isDigit then
      match cs.dropWhile fun c => c = ':' || isBlank c with
      | c :: d :: cs =>
        if c.isDigit ∧ c ≤ '5' ∧ d.isDigit then
          let v (c : Char) : Nat := c.toNat - '0'.toNat
          some ((v a * 10 + v b) * 3600 + (v c * 10 + v d) * 60, cs)
        else none
      | _ => none
    else none
  | _ => none

/-- The offset from universal time, in seconds. -/
def offset? (cs : List Char) : Option (Int × List Char) :=
  if (cs.take 3).map Char.toUpper = ['U', 'T', 'C'] then some (0, cs.drop 3)
  else
    match cs with
    | [] => none
    | c :: cs =>
      if c = 'Z' ∨ c = 'z' then some (0, cs)
      else if c = '+' then (clock? cs).map fun (n, r) => ((n : Int), r)
      else if c = '-' ∨ c = '\u2212' then (clock? cs).map fun (n, r) => (-(n : Int), r)
      else none

def ofString? (s : String) : Option Instant := do
  let (y, cs) ← year? s.toList
  let cs ← mark? '-' cs
  let (mo, cs) ← field? cs
  let cs ← mark? '-' cs
  let (d, cs) ← field? cs
  let cs ← match cs with
    | c :: cs => if c = 't' ∨ c = 'T' ∨ c = ' ' then some cs else none
    | [] => none
  let (h, cs) ← field? cs
  let cs ← mark? ':' cs
  let (mi, cs) ← field? cs
  let cs ← mark? ':' cs
  let (sec, cs) ← field? cs
  let (nanos, cs) ← fraction? cs
  let (offset, cs) ← offset? (trimStart cs)
  guard (trimStart cs).isEmpty
  guard (minYear ≤ y && y ≤ maxYear)
  guard (1 ≤ mo && mo ≤ 12 && 1 ≤ d && d ≤ daysInMonth y mo)
  guard (h ≤ 23 && mi ≤ 59 && sec ≤ 60 && offset.natAbs < 86400)
  let seconds := daysOfDate y mo d * 86400 + (h * 3600 + mi * 60 + min sec 59 : Nat) - offset
  let year := (dateOfDays (seconds / 86400)).1
  guard (minYear ≤ year && year ≤ maxYear)
  some ⟨seconds, if sec = 60 then nanos + 1000000000 else nanos⟩

/-! ## Writing -/

/-- `n` in decimal, with zeros in front up to `width`. -/
def padded (width n : Nat) : String :=
  let ds := Nat.toDigits 10 n
  String.ofList (List.replicate (width - ds.length) '0' ++ ds)

/-- Outside the years 0 to 9999 a sign stands in front. -/
def yearText (y : Int) : String :=
  if 0 ≤ y ∧ y ≤ 9999 then padded 4 y.toNat
  else (if y < 0 then "-" else "+") ++ padded 4 y.natAbs

/-- None, three, six or nine digits, the fewest that lose nothing. -/
def fractionText (n : Nat) : String :=
  if n = 0 then ""
  else if n % 1000000 = 0 then "." ++ padded 3 (n / 1000000)
  else if n % 1000 = 0 then "." ++ padded 6 (n / 1000)
  else "." ++ padded 9 n

/-- Date and time without an offset. -/
def dateTime (t : Instant) : String :=
  let (y, mo, d) := dateOfDays (t.seconds / 86400)
  let s := (t.seconds % 86400).toNat
  let extra := t.nanos / 1000000000
  yearText y ++ "-" ++ padded 2 mo ++ "-" ++ padded 2 d ++ "T" ++ padded 2 (s / 3600) ++ ":" ++
    padded 2 (s / 60 % 60) ++ ":" ++ padded 2 (s % 60 + extra) ++
    fractionText (t.nanos % 1000000000)

/-- The text for readers. -/
def display (t : Instant) : String := t.dateTime ++ "+00:00"

/-- The text in stored data. -/
def stored (t : Instant) : String := t.dateTime ++ "Z"

end Instant

end AudioProject
