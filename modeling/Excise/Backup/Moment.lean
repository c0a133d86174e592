import Excise.Backup.Store

/-!
# Moments

A moment is a date and a time of day. Backups are dated by its text (`Moment.text`), and their ids
begin with its stamp (`Moment.stamp`). `Host.ofMoment` supplies ids and times from one moment and a
number that tells the ids of one run from those of another.
-/

namespace Excise

/-- A date and a time of day. -/
structure Moment where
  year : Nat
  month : Nat
  day : Nat
  hour : Nat
  minute : Nat
  second : Nat
  microsecond : Nat
deriving DecidableEq

namespace Moment

/-- A number in decimal with zeros in front, up to so many digits. -/
def padded (width n : Nat) : String :=
  let digits := Nat.toDigits 10 n
  String.ofList (List.replicate (width - digits.length) '0' ++ digits)

variable (m : Moment)

/-- The date and the time as digits. -/
def stamp : String :=
  padded 4 m.year ++ padded 2 m.month ++ padded 2 m.day ++ "_" ++
    padded 2 m.hour ++ padded 2 m.minute ++ padded 2 m.second

/-- The date and the time, with microseconds unless there are none. -/
def text : String :=
  let date := String.intercalate "-" [padded 4 m.year, padded 2 m.month, padded 2 m.day]
  let time := String.intercalate ":" [padded 2 m.hour, padded 2 m.minute, padded 2 m.second]
  let fraction := if m.microsecond = 0 then "" else "." ++ padded 6 m.microsecond
  date ++ "T" ++ time ++ fraction

end Moment

/-- Files with a supply of ids and times. The ids of a run count up from a number, in six
hexadecimal digits after the stamp. -/
def Host.ofMoment (files : FileSystem) (m : Moment) (seed : Nat) : Host where
  files := files
  newId n := m.stamp ++ "_" ++ String.ofList (Text.hexDigits 6 (seed + n))
  newTime _ := m.text
  idsMade := 0
  timesTaken := 0

end Excise
