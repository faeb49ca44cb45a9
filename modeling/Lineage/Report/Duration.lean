/-! # Durations

A duration in words, rounded to one unit. -/

namespace Lineage.Report

/-- The units and their lengths in milliseconds, the longest first. -/
def timeUnits : List (Nat × String) :=
  [(31536000000, "year"), (604800000, "week"), (86400000, "day"), (3600000, "hour"),
    (60000, "minute"),
   (1000, "second")]

/-- The first unit of which the duration is at least one and a half, up to half of the next unit; if
    there is none, the last. -/
def unitFor (duration : Nat) : List (Nat × String) → Nat × String
  | (length, name) :: (next, nextName) :: rest =>
    if length + length / 2 ≤ duration + next / 2 then (length, name)
    else unitFor duration ((next, nextName) :: rest)
  | [unit] => unit
  | [] => (1000, "second")

/-- A duration given in milliseconds. Of a unit other than a second there are at least two. -/
def duration (milliseconds : Nat) : String :=
  let (length, name) := unitFor milliseconds timeUnits
  let rounded := (milliseconds + length / 2) / length
  let count := if length == 1000 then rounded else max rounded 2
  s!"{count} {name}" ++ if count == 1 then "" else "s"

end Lineage.Report
