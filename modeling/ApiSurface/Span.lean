import ApiSurface.Text.Bytes
/-!
Half-open byte ranges into a source text, and the line and column of a byte offset.
-/
namespace ApiSurface

/-- The byte range `[start, stop)` of a source text. -/
structure Span where
  start : Nat
  stop : Nat
  deriving DecidableEq, Repr, Inhabited

namespace Span

/-- The smallest range that covers both. -/
def cover (s t : Span) : Span := ⟨min s.start t.start, max s.stop t.stop⟩

/-- The number of bytes in the range; a range that ends before it starts has none. -/
def length (s : Span) : Nat := s.stop - s.start

/-- A range that does not end after its start holds nothing. -/
def isEmpty (s : Span) : Bool := s.stop ≤ s.start

/-- The covered text; empty when the range leaves the source or cuts a character. -/
def text (s : Span) (source : List Char) : String :=
  String.ofList ((sliceBytes source s.start s.stop).getD [])

end Span

/-- The byte offsets at which the lines of a text start. -/
def lineStarts (source : List Char) : List Nat :=
  0 :: go source 0
where
  /-- Line starts after the offset `at_`, which is where the given text begins. -/
  go : List Char → Nat → List Nat
    | [], _ => []
    | c :: cs, at_ =>
      let next := at_ + c.utf8Size
      if c = '\n' then next :: go cs next else go cs next

/-- One-based line and column, in bytes, of an offset. -/
def lineColumn (source : List Char) (offset : Nat) : Nat × Nat :=
  let before := (lineStarts source).takeWhile (· ≤ offset)
  (before.length, offset - before.getLastD 0 + 1)

end ApiSurface
