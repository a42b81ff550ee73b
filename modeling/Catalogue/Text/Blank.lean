/-!
# White space, words and letter case

A blank is a character of the Unicode property White_Space. Texts are trimmed and cut into words
at blanks; letter case is that of the ASCII letters alone. Everything is defined on `List Char`,
and the functions on `String` go through it.

* `fields` — cuts at every character of a class; nothing is lost (`flatten` of the pieces is the
  input without the cut characters).
* `words` — the pieces between blanks that are not empty.
-/

namespace Catalogue.Text

/-! ## Blanks -/

/-- The 25 characters with the Unicode property White_Space. -/
def isBlank (c : Char) : Bool :=
  let n := c.toNat
  (9 ≤ n && n ≤ 13) || n == 0x20 || n == 0x85 || n == 0xA0 || n == 0x1680
    || (0x2000 ≤ n && n ≤ 0x200A) || n == 0x2028 || n == 0x2029 || n == 0x202F
    || n == 0x205F || n == 0x3000

/-- Drops the blanks in front. -/
def trimStart (cs : List Char) : List Char := cs.dropWhile isBlank

/-- Drops the blanks at the end. -/
def trimEnd (cs : List Char) : List Char := (cs.reverse.dropWhile isBlank).reverse

/-- Drops the blanks at both ends. -/
def trimChars (cs : List Char) : List Char := trimEnd (trimStart cs)

/-- Drops the blanks at both ends of a text. -/
def trim (s : String) : String := String.ofList (trimChars s.toList)

/-! ## Cutting -/

/-- Cuts at every character of the class `p`; there is always one piece more than there are cuts. -/
def fields (p : Char → Bool) : List Char → List (List Char)
  | [] => [[]]
  | c :: rest =>
    if p c then [] :: fields p rest
    else
      match fields p rest with
      | [] => [[c]]
      | f :: fs => (c :: f) :: fs

theorem fields_ne_nil (p : Char → Bool) : ∀ cs : List Char, fields p cs ≠ []
  | [] => by simp [fields]
  | c :: rest => by
    rw [fields]
    split
    · simp
    · split <;> simp

/-- The pieces of a text between the occurrences of a separator. -/
def splitAt (sep : Char) (s : String) : List String :=
  (fields (· == sep) s.toList).map String.ofList

/-- The non-empty pieces between blanks. -/
def wordChars (cs : List Char) : List (List Char) :=
  (fields isBlank cs).filter (fun w => !w.isEmpty)

/-- The words of a text, in order. -/
def words (s : String) : List String := (wordChars s.toList).map String.ofList

/-- Words written with one space between neighbours. -/
def unwords (ws : List String) : String := " ".intercalate ws

/-! ## Characters -/

/-- Whether the character is one of the ten ASCII digits. -/
def isDigit (c : Char) : Bool := '0' ≤ c && c ≤ '9'

/-- The value of an ASCII digit. -/
def digitValue (c : Char) : Nat := c.toNat - 48

/-- Whether the character is a control character (general category Cc). -/
def isControl (c : Char) : Bool :=
  let n := c.toNat
  n < 0x20 || (0x7F ≤ n && n ≤ 0x9F)

/-- Maps the ASCII letters to upper case and keeps every other character. -/
def upper (s : String) : String := s.map Char.toUpper

/-- Maps the ASCII letters to lower case and keeps every other character. -/
def lower (s : String) : String := s.map Char.toLower

end Catalogue.Text
