/-!
Blank characters, trimming, lines and searches in text.
-/
namespace ApiSurface

/-- The characters with the Unicode property White_Space. -/
def isBlank (c : Char) : Bool :=
  let n := c.toNat
  (9 ≤ n && n ≤ 13) || n == 0x20 || n == 0x85 || n == 0xA0 || n == 0x1680 ||
    (0x2000 ≤ n && n ≤ 0x200A) || n == 0x2028 || n == 0x2029 || n == 0x202F || n == 0x205F ||
    n == 0x3000

/-- Blank characters at the front removed. -/
def trimLeft (cs : List Char) : List Char := cs.dropWhile isBlank

/-- Blank characters at the end removed. -/
def trimRight (cs : List Char) : List Char := (cs.reverse.dropWhile isBlank).reverse

/-- Blank characters at both ends removed. -/
def trim (cs : List Char) : List Char := trimRight (trimLeft cs)

/-- The pieces of a text between occurrences of `sep`; always one more than there are of those. -/
def piecesAt (sep : Char) : List Char → List (List Char)
  | [] => [[]]
  | c :: cs =>
    if c = sep then [] :: piecesAt sep cs
    else match piecesAt sep cs with
      | [] => [[c]]
      | l :: ls => (c :: l) :: ls

/-- A carriage return at the very end removed. -/
def dropFinalReturn (l : List Char) : List Char :=
  if l.getLast? = some '\r' then l.dropLast else l

/-- Lines as a reader counts them: each ended by a line feed, or by a carriage return and a line
feed; text after the last line feed is a line only if it is not empty. -/
def linesOf (cs : List Char) : List (List Char) :=
  let pieces := piecesAt '\n' cs
  let ended := pieces.dropLast.map dropFinalReturn
  match pieces.getLast? with
  | none | some [] => ended
  | some l => ended ++ [l]

/-- Lines joined by line feeds. -/
def joinLines (ls : List (List Char)) : List Char := ['\n'].intercalate ls

/-- Whether `pat` occurs in the text. -/
def containsText (pat : List Char) : List Char → Bool
  | [] => pat.isEmpty
  | c :: cs => pat.isPrefixOf (c :: cs) || containsText pat cs

/-- The text after `pat`, when it starts with it. -/
def afterStart? (pat cs : List Char) : Option (List Char) :=
  if pat.isPrefixOf cs then some (cs.drop pat.length) else none

/-- Every character that core counts as blank has the property. -/
theorem isBlank_of_isWhitespace {c : Char} (h : c.isWhitespace = true) : isBlank c = true := by
  simp only [Char.isWhitespace, Bool.or_eq_true, decide_eq_true_eq] at h
  rcases h with ((h | h) | h) | h <;> subst h <;> decide

theorem piecesAt_ne_nil (sep : Char) (cs : List Char) : piecesAt sep cs ≠ [] := by
  cases cs with
  | nil => simp [piecesAt]
  | cons c cs => simp only [piecesAt]; split; · simp
                 split <;> simp

end ApiSurface
