/-! # Scalars

Which words are numbers, truth values or dates. -/

namespace Lineage.Toml

/-- Digits, where an underscore may stand between two of them. -/
def isDigitRun (isDigit : Char → Bool) : List Char → Bool
  | [] => false
  | [c] => isDigit c
  | c :: '_' :: rest => isDigit c && isDigitRun isDigit rest
  | c :: rest => isDigit c && isDigitRun isDigit rest

/-- The word without its sign. -/
def unsigned : List Char → List Char
  | '+' :: rest => rest
  | '-' :: rest => rest
  | cs => cs

/-- Decimal digits without a leading zero. -/
def isWhole (cs : List Char) : Bool :=
  isDigitRun Char.isDigit cs && (cs == ['0'] || cs.head? != some '0')

/-- The number that digits stand for. -/
def digitsValue (base : Nat) (cs : List Char) : Nat :=
  cs.foldl (fun value c =>
    if c == '_' then value
    else value * base +
      (if c.isDigit then c.toNat - '0'.toNat else c.toLower.toNat - 'a'.toNat + 10)) 0

/-- A decimal number in the range of 64 bits. -/
def isDecimal (cs : List Char) : Bool :=
  isWhole (unsigned cs) &&
    digitsValue 10 (unsigned cs) < (if cs.head? == some '-' then Nat.pow 2 63 + 1 else Nat.pow 2 63)

/-- A number in base 16, 8 or 2. -/
def isBased : List Char → Bool
  | '0' :: 'x' :: rest =>
    isDigitRun (fun c => c.isDigit || ('a' ≤ c.toLower && c.toLower ≤ 'f')) rest && digitsValue 16
      rest < Nat.pow 2 63
  | '0' :: 'o' :: rest =>
    isDigitRun (fun c => '0' ≤ c && c ≤ '7') rest && digitsValue 8 rest < Nat.pow 2 63
  | '0' :: 'b' :: rest =>
    isDigitRun (fun c => c == '0' || c == '1') rest && digitsValue 2 rest < Nat.pow 2 63
  | _ => false

/-- What may follow the whole part of a number: a fraction, an exponent, or both. -/
def isFractional (cs : List Char) : Bool :=
  let isExponent (rest : List Char) := isDigitRun Char.isDigit (unsigned rest)
  match cs with
  | '.' :: rest =>
    let (fraction, exponent) := rest.span fun c => c.isDigit || c == '_'
    isDigitRun Char.isDigit fraction && (exponent.isEmpty ||
      ((exponent.head? == some 'e' || exponent.head? == some 'E') && isExponent exponent.tail))
  | c :: rest => (c == 'e' || c == 'E') && isExponent rest
  | [] => false

/-- The least number that is rounded to infinity. -/
def infinityBound : Nat := Nat.pow 2 1024 - Nat.pow 2 970

/-- The digits times a power of ten stay below infinity. A number has far more or far fewer than the
    309 digits of `infinityBound`, or else it is small enough to be computed. -/
def isFinite (digits : List Char) (exponent : Int) : Bool :=
  let digits := digits.dropWhile (· == '0')
  let size := digits.length + exponent
  if digits.isEmpty || size < 300 then true
  else if size > 320 then false
  else
    digitsValue 10 digits * Nat.pow 10 exponent.toNat < infinityBound * Nat.pow 10 (-exponent).toNat

/-- The number that an exponent stands for. -/
def exponentValue : List Char → Int
  | '-' :: rest => - digitsValue 10 rest
  | cs => digitsValue 10 (unsigned cs)

/-- A number as written, without its sign, stays below infinity. -/
def isFiniteReal (cs : List Char) : Bool :=
  let cs := cs.filter (· != '_')
  let (whole, rest) := cs.span Char.isDigit
  let (fraction, rest) := match rest with
    | '.' :: rest => rest.span Char.isDigit
    | rest => ([], rest)
  isFinite (whole ++ fraction) (exponentValue rest.tail - fraction.length)

/-- A number with a fraction or an exponent, an infinity, or no number at all. No positive number is
    so large that it is rounded to infinity. -/
def isReal (cs : List Char) : Bool :=
  let body := unsigned cs
  let (whole, rest) := body.span fun c => c.isDigit || c == '_'
  body == "inf".toList || body == "nan".toList ||
    (isWhole whole && isFractional rest && (cs.head? == some '-' || isFiniteReal body))

/-- Two digits that stand for a number within bounds. -/
def isPair (low high : Nat) (a b : Char) : Bool :=
  a.isDigit && b.isDigit && low ≤ digitsValue 10 [a, b] && digitsValue 10 [a, b] ≤ high

def isLeapYear (year : Nat) : Bool :=
  year % 4 == 0 && (year % 100 != 0 || year % 400 == 0)

/-- The number of days in a month. -/
def daysIn (year month : Nat) : Nat :=
  if month == 2 then if isLeapYear year then 29 else 28
  else if [4, 6, 9, 11].contains month then 30
  else 31

/-- A day of the calendar. -/
def isDate : List Char → Bool
  | [a, b, c, d, '-', e, f, '-', g, h] =>
    [a, b, c, d].all Char.isDigit && isPair 1 12 e f &&
      isPair 1 (daysIn (digitsValue 10 [a, b, c, d]) (digitsValue 10 [e, f])) g h
  | _ => false

/-- What may follow a time of day that belongs to a date. -/
def isOffset : List Char → Bool
  | [] => true
  | [c] => c == 'Z' || c == 'z'
  | [s, a, b, ':', c, d] => (s == '+' || s == '-') && isPair 0 23 a b && isPair 0 59 c d
  | _ => false

/-- A time of day; `isRest` tells what may follow it. -/
def isTime (isRest : List Char → Bool) : List Char → Bool
  | a :: b :: ':' :: c :: d :: ':' :: e :: f :: rest =>
    isPair 0 23 a b && isPair 0 59 c d && isPair 0 60 e f &&
      (match rest with
        | '.' :: digits =>
          let (fraction, rest) := digits.span Char.isDigit
          !fraction.isEmpty && isRest rest
        | rest => isRest rest)
  | _ => false

/-- A date, a time, or both. -/
def isMoment (cs : List Char) : Bool :=
  isDate cs || isTime List.isEmpty cs ||
    (isDate (cs.take 10) && [some 'T', some 't', some ' '].contains cs[10]? &&
      isTime isOffset (cs.drop 11))

/-- The word is a number, a truth value or a date. -/
def isScalar (cs : List Char) : Bool :=
  cs == "true".toList || cs == "false".toList || isDecimal cs || isBased cs || isReal cs
    || isMoment cs

end Lineage.Toml
