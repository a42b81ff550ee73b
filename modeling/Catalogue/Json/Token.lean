import Catalogue.Json.Basic

/-!
# JSON tokens

A JSON text is cut into brackets, commas, colons and scalars. A string or a number may be well
formed and still denote nothing; it is then kept as a token that no typed reader accepts.

## Numbers

The digits that fit 64 bits are read as one integer, later digits only move the power of ten, and
the integer is then multiplied or divided by that power in binary64 arithmetic. An integer literal
that fits 64 bits stays an integer, except `-0`.

## Termination

`tokens` recurses on the characters that are left: `scan_length` and `number?_length` say that a
scanner hands back no more than it was given.
-/

namespace Catalogue.Json

open Catalogue.Text
open Catalogue.Number

/-- A piece of JSON text. -/
inductive Token where
  | openArray
  | closeArray
  | openObject
  | closeObject
  | comma
  | colon
  /-- A string; `none` when it holds half of a surrogate pair. -/
  | text (s : Option String)
  | scalar (v : Json)

/-! ## Strings -/

/-- A character of a string, or one half of a surrogate pair. -/
inductive Unit16 where
  | char (c : Char)
  | half (code : Nat)

/-- The value of a hexadecimal digit in either case. -/
def hexDigit? (c : Char) : Option Nat :=
  if isDigit c then some (digitValue c)
  else if 'a' ≤ c && c ≤ 'f' then some (c.toNat - 'a'.toNat + 10)
  else if 'A' ≤ c && c ≤ 'F' then some (c.toNat - 'A'.toNat + 10)
  else none

/-- The number written by four hexadecimal digits. -/
def hex4? (a b c d : Char) : Option Nat := do
  return (((← hexDigit? a) * 16 + (← hexDigit? b)) * 16 + (← hexDigit? c)) * 16 + (← hexDigit? d)

/-- The unit with a given 16-bit code. -/
def unit (code : Nat) : Unit16 :=
  if 0xD800 ≤ code && code ≤ 0xDFFF then .half code else .char (Char.ofNat code)

/-- The character that stands for a letter after a backslash. -/
def escaped? (c : Char) : Option Char :=
  match c with
  | '"' => some '"'
  | '\\' => some '\\'
  | '/' => some '/'
  | 'b' => some '\x08'
  | 'f' => some '\x0c'
  | 'n' => some '\n'
  | 'r' => some '\r'
  | 't' => some '\t'
  | _ => none

/-- Takes the units of a string up to its closing quote. -/
def scan : List Char → Option (List Unit16 × List Char)
  | [] => none
  | '"' :: rest => some ([], rest)
  | '\\' :: 'u' :: a :: b :: c :: d :: rest => do
    let code ← hex4? a b c d
    let (units, rest) ← scan rest
    return (unit code :: units, rest)
  | '\\' :: c :: rest => do
    let e ← escaped? c
    let (units, rest) ← scan rest
    return (.char e :: units, rest)
  | c :: rest =>
    if c.toNat < 0x20 || c == '\\' then none
    else do
      let (units, rest) ← scan rest
      return (.char c :: units, rest)

theorem scan_length (cs : List Char) :
    ∀ p : List Unit16 × List Char, scan cs = some p → p.2.length ≤ cs.length := by
  fun_induction scan cs with
  | case1 => simp
  | case2 rest => intro p h; simp only [Option.some.injEq] at h; subst h; simp
  | case3 a b c d rest ih =>
    intro p h
    simp only [Option.bind_eq_bind, Option.bind_eq_some_iff] at h
    obtain ⟨_, _, q, hq, h⟩ := h
    have := ih q hq
    simp only [pure, Option.some.injEq] at h
    subst h
    simp only [List.length_cons]
    omega
  | case4 c rest _ ih =>
    intro p h
    simp only [Option.bind_eq_bind, Option.bind_eq_some_iff] at h
    obtain ⟨_, _, q, hq, h⟩ := h
    have := ih q hq
    simp only [pure, Option.some.injEq] at h
    subst h
    simp only [List.length_cons]
    omega
  | case5 => simp
  | case6 c rest _ _ _ _ ih =>
    intro p h
    simp only [Option.bind_eq_bind, Option.bind_eq_some_iff] at h
    obtain ⟨q, hq, h⟩ := h
    have := ih q hq
    simp only [pure, Option.some.injEq] at h
    subst h
    simp only [List.length_cons]
    omega

/-- Joins the halves of surrogate pairs; a half without its partner denotes nothing. -/
def joinPairs : List Unit16 → Option (List Char)
  | [] => some []
  | .char c :: rest => (joinPairs rest).map (c :: ·)
  | .half high :: .half low :: rest =>
    if high < 0xDC00 && 0xDC00 ≤ low then
      (joinPairs rest).map (Char.ofNat (0x10000 + (high - 0xD800) * 0x400 + (low - 0xDC00)) :: ·)
    else none
  | .half _ :: _ => none

/-! ## Numbers -/

/-- The greatest 64-bit number. -/
def greatest : Nat := 0xFFFFFFFFFFFFFFFF

/-- Takes integer digits while they fit 64 bits; returns the value and the digits left over. -/
def significand (value : Nat) : List Char → Nat × List Char
  | [] => (value, [])
  | d :: rest =>
    let next := 10 * value + digitValue d
    if greatest < next then (value, d :: rest) else significand next rest

/-- `value · 10 ^ exponent` by one multiplication or division at a time; `none` out of range. -/
def scale? (value : Float) (exponent : Int) : Option Float :=
  if exponent < -308 then
    if value == 0.0 then some value else scale? (value / nearestFloat 1 308) (exponent + 308)
  else if exponent < 0 then some (value / nearestFloat 1 (-exponent))
  else if 308 < exponent then (if value == 0.0 then some value else none)
  else
    let scaled := value * nearestFloat 1 exponent
    if scaled.isFinite then some scaled else none
termination_by (-exponent).toNat

/-- The integer given by digits without point and exponent, when it fits 64 bits. -/
def fitting? (negative : Bool) (whole : List Char) : Option Int :=
  match significand 0 whole with
  | (value, []) =>
    if negative then
      if 0 < value && value ≤ 0x8000000000000000 then some (-(value : Int)) else none
    else some value
  | _ => none

/-- The float given by the digits before and after the point and the exponent. -/
def scaled? (negative : Bool) (whole fraction : List Char) (exponent : Int) : Option Float :=
  let (value, skipped) := significand 0 whole
  let (value, dropped) := significand value fraction
  let shift := Int.ofNat skipped.length - Int.ofNat (fraction.length - dropped.length) + exponent
  (scale? (nearestFloat value 0) shift).map fun x => if negative then -x else x

/-- The value of a number literal. -/
def literal (negative : Bool) (whole fraction : List Char) (exponent : Option Int) : Json :=
  match (if fraction.isEmpty && exponent.isNone then fitting? negative whole else none) with
  | some n => .integer n
  | none =>
    match scaled? negative whole fraction (exponent.getD 0) with
    | some x => .float x
    | none => .unreadable

/-- Takes the digits before the point: `0` alone, or digits that do not start with it. -/
def wholeDigits? : List Char → Option (List Char × List Char)
  | '0' :: rest => some (['0'], rest)
  | cs =>
    let ds := cs.takeWhile isDigit
    if ds.isEmpty then none else some (ds, cs.dropWhile isDigit)

/-- Takes a point and the digits after it, or nothing. -/
def fractionDigits? : List Char → Option (List Char × List Char)
  | '.' :: rest =>
    let ds := rest.takeWhile isDigit
    if ds.isEmpty then none else some (ds, rest.dropWhile isDigit)
  | cs => some ([], cs)

/-- Takes the digits of an exponent after its sign. -/
def exponentDigits? (negative : Bool) (cs : List Char) : Option (Option Int × List Char) :=
  let ds := cs.takeWhile isDigit
  if ds.isEmpty then none
  else
    let n : Int := digitsValue ds
    some (some (if negative then -n else n), cs.dropWhile isDigit)

/-- Takes an exponent, or nothing. -/
def exponentPart? : List Char → Option (Option Int × List Char)
  | c :: rest =>
    if c == 'e' || c == 'E' then
      match rest with
      | '-' :: r => exponentDigits? true r
      | '+' :: r => exponentDigits? false r
      | r => exponentDigits? false r
    else some (none, c :: rest)
  | [] => some (none, [])

/-- Takes a number without its sign. -/
def unsignedNumber? (negative : Bool) (cs : List Char) : Option (Json × List Char) := do
  let (whole, cs) ← wholeDigits? cs
  let (fraction, cs) ← fractionDigits? cs
  let (exponent, cs) ← exponentPart? cs
  return (literal negative whole fraction exponent, cs)

/-- Takes a number. -/
def number? : List Char → Option (Json × List Char)
  | '-' :: rest => unsignedNumber? true rest
  | cs => unsignedNumber? false cs

/-! ## Scanners hand back no more than they were given -/

theorem length_dropWhile_le (p : Char → Bool) (cs : List Char) :
    (cs.dropWhile p).length ≤ cs.length := (List.dropWhile_suffix p).length_le

theorem length_dropWhile_lt (p : Char → Bool) {cs : List Char}
    (h : (cs.takeWhile p).isEmpty = false) : (cs.dropWhile p).length < cs.length := by
  cases cs with
  | nil => simp at h
  | cons c rest =>
    by_cases hc : p c
    · have := length_dropWhile_le p rest
      simp only [List.dropWhile_cons, hc, if_true, List.length_cons]
      omega
    · simp [hc] at h

theorem wholeDigits?_length {cs : List Char} {p : List Char × List Char}
    (h : wholeDigits? cs = some p) : p.2.length < cs.length := by
  unfold wholeDigits? at h
  split at h
  · simp only [Option.some.injEq] at h
    subst h
    simp
  · simp only at h
    split at h
    · simp at h
    · next hne =>
      simp only [Option.some.injEq] at h
      subst h
      exact length_dropWhile_lt _ (by simpa using hne)

theorem fractionDigits?_length {cs : List Char} {p : List Char × List Char}
    (h : fractionDigits? cs = some p) : p.2.length ≤ cs.length := by
  unfold fractionDigits? at h
  split at h
  · next rest =>
    simp only at h
    split at h
    · simp at h
    · simp only [Option.some.injEq] at h
      subst h
      have := length_dropWhile_le isDigit rest
      simp only [List.length_cons]
      omega
  · simp only [Option.some.injEq] at h
    subst h
    simp

theorem exponentDigits?_length {negative : Bool} {cs : List Char} {p : Option Int × List Char}
    (h : exponentDigits? negative cs = some p) : p.2.length ≤ cs.length := by
  unfold exponentDigits? at h
  simp only at h
  split at h
  · simp at h
  · simp only [Option.some.injEq] at h
    subst h
    exact length_dropWhile_le _ _

theorem exponentPart?_length {cs : List Char} {p : Option Int × List Char}
    (h : exponentPart? cs = some p) : p.2.length ≤ cs.length := by
  unfold exponentPart? at h
  split at h
  · next c rest =>
    split at h
    · split at h <;> (have hlen := exponentDigits?_length h; simp_all; try omega)
    · simp only [Option.some.injEq] at h
      subst h
      simp
  · simp only [Option.some.injEq] at h
    subst h
    simp

theorem unsignedNumber?_length {negative : Bool} {cs : List Char} {p : Json × List Char}
    (h : unsignedNumber? negative cs = some p) : p.2.length < cs.length := by
  unfold unsignedNumber? at h
  simp only [Option.bind_eq_bind, Option.bind_eq_some_iff] at h
  obtain ⟨w, hw, f, hf, e, he, h⟩ := h
  simp only [pure, Option.some.injEq] at h
  subst h
  have := wholeDigits?_length hw
  have := fractionDigits?_length hf
  have := exponentPart?_length he
  simp only
  omega

theorem number?_length {cs : List Char} {p : Json × List Char} (h : number? cs = some p) :
    p.2.length < cs.length := by
  unfold number? at h
  split at h
  · have := unsignedNumber?_length h
    simp only [List.length_cons]
    omega
  · exact unsignedNumber?_length h

/-! ## Tokens -/

/-- The white space of JSON. -/
def isSpace (c : Char) : Bool := c == ' ' || c == '\t' || c == '\n' || c == '\r'

/-- Takes the letters of a fixed word. -/
def word? (word : List Char) (v : Json) (cs : List Char) : Option (Token × List Char) :=
  if word.isPrefixOf cs then some (.scalar v, cs.drop word.length) else none

/-- Takes one token that starts with `c`. -/
def token? (c : Char) (rest : List Char) : Option (Token × List Char) :=
  match c with
  | '[' => some (.openArray, rest)
  | ']' => some (.closeArray, rest)
  | '{' => some (.openObject, rest)
  | '}' => some (.closeObject, rest)
  | ',' => some (.comma, rest)
  | ':' => some (.colon, rest)
  | '"' => (scan rest).map fun (units, r) => (.text ((joinPairs units).map String.ofList), r)
  | 't' => word? ['r', 'u', 'e'] (.bool true) rest
  | 'f' => word? ['a', 'l', 's', 'e'] (.bool false) rest
  | 'n' => word? ['u', 'l', 'l'] .null rest
  | _ => (number? (c :: rest)).map fun (v, r) => (.scalar v, r)

theorem word?_length {word : List Char} {v : Json} {cs : List Char} {p : Token × List Char}
    (h : word? word v cs = some p) : p.2.length ≤ cs.length := by
  unfold word? at h
  split at h
  · simp only [Option.some.injEq] at h
    subst h
    simp
  · simp at h

theorem token?_length {c : Char} {rest : List Char} {p : Token × List Char}
    (h : token? c rest = some p) : p.2.length ≤ rest.length := by
  unfold token? at h
  split at h
  case h_7 =>
    simp only [Option.map_eq_some_iff] at h
    obtain ⟨q, hq, h⟩ := h
    subst h
    exact scan_length rest q hq
  case h_8 => exact word?_length h
  case h_9 => exact word?_length h
  case h_10 => exact word?_length h
  case h_11 =>
    simp only [Option.map_eq_some_iff] at h
    obtain ⟨q, hq, h⟩ := h
    subst h
    have := number?_length hq
    simp only [List.length_cons] at this ⊢
    omega
  all_goals
    simp only [Option.some.injEq] at h
    subst h
    simp

/-- Cuts a whole text into tokens. -/
def tokens : List Char → Option (List Token)
  | [] => some []
  | c :: rest =>
    if isSpace c then tokens rest
    else
      match _h : token? c rest with
      | none => none
      | some (t, rest') => (tokens rest').map (t :: ·)
termination_by cs => cs.length
decreasing_by
  · simp
  · have := token?_length _h
    simp only [List.length_cons] at *
    omega

end Catalogue.Json
