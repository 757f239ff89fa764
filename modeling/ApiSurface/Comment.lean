import ApiSurface.Span
import ApiSurface.Text.Blank
/-!
Comments and the documentation written in them. Comments are no part of the syntax tree: the lexer
records each one it passes, and documentation is looked up among those before a node.
-/
namespace ApiSurface

/-- A comment of a source text. -/
structure Comment where
  span : Span
  /-- Written between `/*` and `*/`. -/
  multiLine : Bool
  /-- A line break follows it (for a line comment: the text does not end with it). -/
  trailingBreak : Bool
  deriving DecidableEq, Repr, Inhabited

namespace Comment

/-- The comment as written; empty for an empty or impossible range. -/
def written (c : Comment) (source : List Char) : List Char :=
  if c.span.start < c.span.stop then
    (sliceBytes source c.span.start c.span.stop).getD []
  else []

/-- A written comment opens documentation: two stars, not three, and more than the empty block. -/
def opensDoc (text : List Char) : Bool :=
  "/**".toList.isPrefixOf text && !"/***".toList.isPrefixOf text && text != "/**/".toList

/-- Whether the comment is documentation. -/
def isDoc (c : Comment) (source : List Char) : Bool :=
  c.multiLine && opensDoc (c.written source)

/-- A line inside a documentation comment without its margin: a star and one blank after it. -/
def withoutMargin (line : List Char) : List Char :=
  trimRight <| match trimLeft line with
    | '*' :: ' ' :: rest => rest
    | '*' :: rest => rest
    | rest => rest

/-- What a written documentation comment says. Text that is not closed as one is kept whole. -/
def contentOf (text : List Char) : List Char :=
  if "/**".toList.isPrefixOf text && "*/".toList.isSuffixOf text && 5 ≤ byteLength text then
    let inner := (text.drop 3).dropLast.dropLast
    trim (joinLines ((linesOf inner).map withoutMargin))
  else text

/-- What the comment says. -/
def content (c : Comment) (source : List Char) : String :=
  String.ofList (contentOf (c.written source))

end Comment

/-- The number of leading elements that satisfy `p`, by bisection: the elements that satisfy it
come first. -/
def partitionPoint {α : Type} (p : α → Bool) (xs : Array α) : Nat :=
  if xs.isEmpty then 0 else go 0 xs.size
where
  /-- Bisects the `size` elements from `base` on. -/
  go (base size : Nat) : Nat :=
    if h : 1 < size then
      let half := size / 2
      let mid := base + half
      go (if (xs[mid]?).any p then mid else base) (size - half)
    else if (xs[base]?).any p then base + 1 else base
  termination_by size
  decreasing_by omega

/-- Comments from one on, without those that start where the one kept before them does. -/
def distinctFrom (c : Comment) : List Comment → List Comment
  | [] => [c]
  | d :: ds => if d.span.start = c.span.start then distinctFrom c ds else c :: distinctFrom d ds

/-- Comments without those that start where the one kept before them does. -/
def distinctComments : List Comment → List Comment
  | [] => []
  | c :: cs => distinctFrom c cs

/-- The documentation comment closest to `pos` among those from `triviaStart` on that end before
it. Comments come in the order of the text. -/
def leadingDoc (comments : Array Comment) (triviaStart pos : Nat) (source : List Char) :
    Option Comment :=
  let before := comments.take (partitionPoint (fun c => c.span.stop ≤ pos) comments)
  (before.toList.reverse.takeWhile (fun c => triviaStart ≤ c.span.start)).find? (·.isDoc source)

/-- The tag that marks the documentation of a package. -/
def packageTag : List Char := "@packageDocumentation".toList

/-- The tag that marks the documentation of a module. -/
def moduleTag : List Char := "@module".toList

/-- The documentation of a whole file: its first comment, if only blanks stand before it, it is
documentation, and it is tagged so, or a blank line parts it from what follows, or no statement
follows. The lines that hold the tags are left out. -/
def fileDoc (comments : List Comment) (firstStatement : Option Nat) (source : List Char) :
    Option String :=
  match comments with
  | [] => none
  | first :: others =>
    let before := (sliceBytes source 0 first.span.start).getD []
    if !(trim before).isEmpty || !first.isDoc source then none
    else
      let content := Comment.contentOf (first.written source)
      let tagged := containsText packageTag content || containsText moduleTag content
      let detached := match firstStatement with
        | none => true
        | some statement =>
          let next := match others with
            | [] => statement
            | second :: _ => min second.span.start statement
          2 ≤ ((sliceBytes source first.span.stop next).getD []).count '\n'
      if tagged || detached then
        let kept := (linesOf content).filter fun line =>
          let line := trim line
          line != packageTag && !moduleTag.isPrefixOf line
        some (String.ofList (trim (joinLines kept)))
      else none

end ApiSurface
