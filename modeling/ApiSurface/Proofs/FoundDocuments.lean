import ApiSurface.Grammar.Parse
import Mathlib.Data.Nat.Notation
import Mathlib.Tactic.Common
/-!
Where documentation comes from: what stands before a node is looked up among the comments that were
scanned, and the first comment of a file may be the documentation of the file instead.
-/
namespace ApiSurface

/-- A blank line parts the first comment from what follows, or no statement follows. -/
def isDetached (first : Comment) (others : List Comment) (firstStatement : Option ℕ)
    (text : List Char) : Bool :=
  match firstStatement with
  | none => true
  | some statement =>
    let next := match others with
      | [] => statement
      | second :: _ => min second.span.start statement
    2 ≤ ((sliceBytes text first.span.stop next).getD []).count '\n'

theorem fileDoc_cons (first : Comment) (others : List Comment) (firstStatement : Option ℕ)
    (text : List Char) : fileDoc (first :: others) firstStatement text =
      if !(trim ((sliceBytes text 0 first.span.start).getD [])).isEmpty || !first.isDoc text then
        none
      else
        let content := Comment.contentOf (first.written text)
        if containsText packageTag content || containsText moduleTag content ||
            isDetached first others firstStatement text then
          some (String.ofList (trim (joinLines ((linesOf content).filter fun line =>
            trim line != packageTag && !moduleTag.isPrefixOf (trim line)))))
        else none := rfl

theorem toList_take {α : Type} (xs : Array α) (n : ℕ) : (xs.take n).toList = xs.toList.take n := by
  simp

theorem mem_of_leadingDoc {cs : Array Comment} {start p : ℕ} {text : List Char} {c : Comment}
    (h : leadingDoc cs start p text = some c) : c ∈ cs.toList ∧ c.isDoc text = true := by
  unfold leadingDoc at h
  dsimp only at h
  rw [toList_take] at h
  refine ⟨?_, List.find?_some (p := fun k : Comment => k.isDoc text) h⟩
  have hmem := List.mem_of_find?_eq_some h
  have hmem := (List.takeWhile_prefix _).subset hmem
  exact List.mem_of_mem_take (List.mem_reverse.mp hmem)

/-- The documentation of what starts at the current token. -/
def ParseState.doc (s : ParseState) (text : List Char) : Option String :=
  (leadingDoc s.lexer.comments s.lastEnd s.pos text).bind fun c =>
    if (s.lexer.comments[0]?.any (·.span.start == c.span.start) &&
        !s.firstStatement.any (· < s.pos)) && (fileDoc [c] (some s.pos) text).isSome then none
    else some (c.content text)

theorem Parse.leadingDocHere_run (c : Setting) (s : ParseState) :
    leadingDocHere c s = (s.doc c.text, s) := by
  have hread {β : Type} (f : Setting → Parse β) : (read >>= f) c s = f c c s := rfl
  have hget {β : Type} (f : ParseState → Parse β) : (get >>= f) c s = f s c s := rfl
  unfold leadingDocHere ParseState.doc
  rw [hread, hget]
  dsimp only
  cases leadingDoc s.lexer.comments s.lastEnd s.pos c.text with
  | none => rfl
  | some k =>
    dsimp only [Option.bind_some]
    split <;> rfl

end ApiSurface
