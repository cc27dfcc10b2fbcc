import DesignTokens.Number.Literal

/-!
# Dates

A date has a year of four digits, a month and a day, and may have a time of day with a fraction of a second
and an offset from universal time. Two times of day with an offset are the same if they are the same instant.

* `read?_nil` — no text is no date.
* `isSame_self` — a date is the same as itself.
-/

namespace DesignTokens

/-- A time of day. -/
structure Clock where
  hour : Nat
  minute : Nat
  second : Nat
  microsecond : Nat
  /-- Minutes ahead of universal time, if that is known. -/
  offset : Option Int
  deriving DecidableEq, Repr

structure Timestamp where
  year : Nat
  month : Nat
  day : Nat
  clock : Option Clock
  deriving DecidableEq, Repr

namespace Timestamp

/-- A number of at least `least` and at most `most` digits, as many as there are, and the rest. -/
def digits? (least most : Nat) (cs : List Char) : Option (Nat × List Char) :=
  let run := (cs.take most).takeWhile Char.isDigit
  if run.length < least then none
  else some (Number.Literal.ofDigits 10 (Number.Literal.decimalValues run), cs.drop run.length)

/-- What follows a character. -/
def after? (c : Char) : List Char → Option (List Char)
  | d :: rest => if c = d then some rest else none
  | [] => none

def isGap (c : Char) : Bool := c == ' ' || c == '\t'

/-- What follows the mark between a date and its time. -/
def afterGap? : List Char → Option (List Char)
  | c :: rest =>
    if c = 'T' ∨ c = 't' then some rest else if isGap c then some (rest.dropWhile isGap) else none
  | [] => none

/-- A fraction of a second in millionths, and the rest. -/
def fraction (cs : List Char) : Nat × List Char :=
  match cs with
  | '.' :: rest =>
    let run := rest.takeWhile Char.isDigit
    let six := (run ++ List.replicate 6 '0').take 6
    (Number.Literal.ofDigits 10 (Number.Literal.decimalValues six), rest.drop run.length)
  | _ => (0, cs)

/-- An offset at the end of a text. -/
def offset? (cs : List Char) : Option (Option Int) :=
  match cs with
  | [] => some none
  | _ =>
    match cs.dropWhile isGap with
    | ['Z'] => some (some 0)
    | sign :: rest =>
      if sign = '+' ∨ sign = '-' then do
        let (hours, rest) ← digits? 1 2 rest
        let (minutes, rest) ← if rest.isEmpty then some (0, []) else (after? ':' rest).bind (digits? 2 2)
        if rest.isEmpty then some (some (Number.negateIf (sign = '-') (hours * 60 + minutes))) else none
      else none
    | [] => none

def clock? (cs : List Char) : Option Clock := do
  let (hour, cs) ← digits? 1 2 cs
  let (minute, cs) ← (after? ':' cs).bind (digits? 2 2)
  let (second, cs) ← (after? ':' cs).bind (digits? 2 2)
  let (microsecond, cs) := fraction cs
  let offset ← offset? cs
  return { hour, minute, second, microsecond, offset }

/-- The date that a text has the form of. -/
def read? (cs : List Char) : Option Timestamp := do
  let (year, cs) ← digits? 4 4 cs
  let (month, cs) ← (after? '-' cs).bind (digits? 1 2)
  let (day, cs) ← (after? '-' cs).bind (digits? 1 2)
  let clock ← if cs.isEmpty then some none else ((afterGap? cs).bind clock?).map some
  return { year, month, day, clock }

/-- Whether plain text is a date: with all digits of its month and day, or with a time. -/
def isPlain (cs : List Char) : Bool :=
  match read? cs with
  | some t => t.clock.isSome || cs.length == "0000-00-00".length
  | none => false

theorem read?_nil : read? [] = none := rfl

def isLeapYear (year : Nat) : Bool := year % 4 == 0 && (year % 100 != 0 || year % 400 == 0)

def daysInMonth (year month : Nat) : Nat :=
  if month = 2 then (if isLeapYear year then 29 else 28)
  else if [4, 6, 9, 11].contains month then 30 else 31

def Clock.isValid (c : Clock) : Bool :=
  c.hour < 24 && c.minute < 60 && c.second < 60 && c.offset.all fun minutes => minutes.natAbs < 24 * 60

/-- Whether there is such a day and such a time. -/
def isValid (t : Timestamp) : Bool :=
  1 ≤ t.year && 1 ≤ t.month && t.month ≤ 12 && 1 ≤ t.day && t.day ≤ daysInMonth t.year t.month &&
    t.clock.all Clock.isValid

/-! ### Comparison -/

/-- The days from the first day of the year 0 to the first day of a year. -/
def daysBeforeYear (year : Nat) : Nat :=
  let past := year - 1
  if year = 0 then 0 else 366 + past * 365 + past / 4 - past / 100 + past / 400

/-- The days from the first day of the year 0 to a date. -/
def dayNumber (t : Timestamp) : Nat :=
  daysBeforeYear t.year + ((List.range t.month).drop 1).foldl (fun days m => days + daysInMonth t.year m) 0 + t.day

/-- The millionths of a second from a fixed instant to a time of day on a date, as its offset has it. -/
def instant (t : Timestamp) (c : Clock) : Int :=
  let minutes : Int := (t.dayNumber * 24 + c.hour) * 60 + c.minute - c.offset.getD 0
  (minutes * 60 + c.second) * 1000000 + c.microsecond

/-- Whether two dates are the same. A date without a time of day is no instant, and a time of day without an
offset is none that could be compared with one that has an offset. -/
def isSame (s t : Timestamp) : Bool :=
  match s.clock, t.clock with
  | none, none => s.year == t.year && s.month == t.month && s.day == t.day
  | some c, some d => c.offset.isSome == d.offset.isSome && s.instant c == t.instant d
  | _, _ => false

theorem isSame_self (t : Timestamp) : t.isSame t = true := by
  unfold isSame
  cases t.clock <;> simp

/-! ### Names in reports -/

/-- The text that names an offset in a report: a whole number of days, which is negative for an offset
behind universal time, and seconds. -/
def offsetText (minutes : Int) : String :=
  if minutes = 0 then "datetime.timezone.utc"
  else
    let seconds := "seconds=" ++ toString ((minutes.emod 1440) * 60)
    "datetime.timezone(datetime.timedelta(" ++ (if minutes < 0 then "days=-1, " ++ seconds else seconds) ++ "))"

/-- The text that names a date in a report. Seconds and their fractions are left out if they are zero. -/
def text (t : Timestamp) : String :=
  let numbers (ns : List Nat) : String := ", ".intercalate (ns.map toString)
  let date := [t.year, t.month, t.day]
  match t.clock with
  | none => "datetime.date(" ++ numbers date ++ ")"
  | some c =>
    let seconds :=
      if c.microsecond ≠ 0 then [c.second, c.microsecond] else if c.second ≠ 0 then [c.second] else []
    let zone := c.offset.elim "" fun minutes => ", tzinfo=" ++ offsetText minutes
    "datetime.datetime(" ++ numbers (date ++ [c.hour, c.minute] ++ seconds) ++ zone ++ ")"

end Timestamp

end DesignTokens
