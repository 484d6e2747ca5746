import QuerySheet.Text.Digit

/-!
# Dates and times of a settings file

A date, a time, or both with or without an offset. `Datetime.parse?` reads one and checks its
ranges; a time may leave its seconds out, and has no fraction then. `Datetime.text` writes it in
its normal form: seconds always, a `T` between date and time, `Z` for an offset given as such, and
no zeros at the end of a fraction of a second.
-/

namespace QuerySheet.Toml

structure Day where
  year : Nat
  month : Nat
  day : Nat
  deriving DecidableEq, Repr

structure Clock where
  hour : Nat
  minute : Nat
  second : Nat
  nanosecond : Nat
  deriving DecidableEq, Repr

inductive Offset where
  | zulu
  | minutes (n : Int)
  deriving DecidableEq, Repr

structure Datetime where
  day : Option Day
  clock : Option Clock
  offset : Option Offset
  deriving DecidableEq, Repr

namespace Datetime

/-! ## 1. Reading -/

/-- Two digits. -/
def two? (a b : Char) : Option Nat :=
  if a.isDigit && b.isDigit then some (Digit.number [a, b]) else none

def daysIn (year month : Nat) : Nat :=
  match month with
  | 2 => if year % 4 = 0 ∧ (year % 100 ≠ 0 ∨ year % 400 = 0) then 29 else 28
  | 4 | 6 | 9 | 11 => 30
  | _ => 31

def day? : List Char → Option (Day × List Char)
  | y :: e :: a :: r :: '-' :: m :: n :: '-' :: d :: t :: rest => do
    let century ← two? y e
    let year ← two? a r
    let month ← two? m n
    let day ← two? d t
    let year := 100 * century + year
    if month < 1 ∨ 12 < month ∨ day < 1 ∨ daysIn year month < day then none
    return (⟨year, month, day⟩, rest)
  | _ => none

/-- A fraction of a second: its first nine digits count. -/
def fraction? : List Char → Option (Nat × List Char)
  | '.' :: cs =>
    let ds := cs.takeWhile Char.isDigit
    if ds.isEmpty then none
    else some (Digit.number ((ds ++ List.replicate 9 '0').take 9), cs.dropWhile Char.isDigit)
  | cs => some (0, cs)

/-- The seconds after a minute, with their fraction; where there are none, both are zero. -/
def seconds? : List Char → Option ((Nat × Nat) × List Char)
  | ':' :: s :: t :: rest => do
    let second ← two? s t
    let (nanosecond, rest) ← fraction? rest
    return ((second, nanosecond), rest)
  | cs => some ((0, 0), cs)

/-- A leap second is admitted. -/
def clock? : List Char → Option (Clock × List Char)
  | h :: o :: ':' :: m :: n :: rest => do
    let hour ← two? h o
    let minute ← two? m n
    let ((second, nanosecond), rest) ← seconds? rest
    if 23 < hour ∨ 59 < minute ∨ 60 < second then none
    return (⟨hour, minute, second, nanosecond⟩, rest)
  | _ => none

/-- The offset at the end of a text. -/
def offset? : List Char → Option (Option Offset)
  | [] => some none
  | ['Z'] | ['z'] => some (some .zulu)
  | [sign, h, o, ':', m, n] => do
    let hours ← two? h o
    let minutes ← two? m n
    if 23 < hours ∨ 59 < minutes then none
    let total : Int := 60 * hours + minutes
    match sign with
    | '+' => return some (.minutes total)
    | '-' => return some (.minutes (-total))
    | _ => none
  | _ => none

def ofChars? (cs : List Char) : Option Datetime :=
  match day? cs with
  | some (day, []) => some ⟨some day, none, none⟩
  | some (day, separator :: rest) => do
    if separator ≠ 'T' ∧ separator ≠ 't' ∧ separator ≠ ' ' then none
    let (clock, rest) ← clock? rest
    return ⟨some day, some clock, ← offset? rest⟩
  | none => do
    match ← clock? cs with
    | (clock, []) => return ⟨none, some clock, none⟩
    | _ => none

def parse? (text : String) : Option Datetime := ofChars? text.toList

/-! ## 2. Writing -/

/-- A number with zeros in front up to a width. -/
def padded (width n : Nat) : String :=
  let ds := toString n
  String.ofList (List.replicate (width - ds.length) '0') ++ ds

def Day.text (d : Day) : String :=
  padded 4 d.year ++ "-" ++ padded 2 d.month ++ "-" ++ padded 2 d.day

def Clock.text (c : Clock) : String :=
  let seconds := padded 2 c.hour ++ ":" ++ padded 2 c.minute ++ ":" ++ padded 2 c.second
  if c.nanosecond = 0 then seconds
  else
    let ds := (padded 9 c.nanosecond).toList.reverse.dropWhile (· = '0')
    seconds ++ "." ++ String.ofList ds.reverse

def Offset.text : Offset → String
  | .zulu => "Z"
  | .minutes n =>
    (if n < 0 then "-" else "+") ++ padded 2 (n.natAbs / 60) ++ ":" ++ padded 2 (n.natAbs % 60)

def text (d : Datetime) : String :=
  d.day.elim "" Day.text ++ (if d.day.isSome && d.clock.isSome then "T" else "") ++
    d.clock.elim "" Clock.text ++ d.offset.elim "" Offset.text

end Datetime

end QuerySheet.Toml
