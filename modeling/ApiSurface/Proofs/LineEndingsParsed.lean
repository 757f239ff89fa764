import ApiSurface.Proofs.PairedProductions
import ApiSurface.Proofs.ReturnedDocuments
/-!
Parsing does not depend on the line ends of a text: with a carriage return before every line feed,
the same is parsed, each part at its place.
-/
namespace ApiSurface

/-- Readers at the same token of a text and of the text with carriage returns. -/
structure Reading.Alike (text : List Char) (r r' : Reading) : Prop where
  lexer : r.lexer.Alike text r'.lexer
  token : r.lexer.token.Alike (returned text) r'.lexer.token
  behind : r.lexer.IsBehind (Lexer.ofText text).pos
  behind' : r'.lexer.IsBehind (Lexer.ofText (withReturns text)).pos
  /-- Before the first token, scanning may start behind a carriage return that has no match. -/
  lastEnd : SamePlace text r.lastEnd r'.lastEnd ∨ r.lastEnd = (Lexer.ofText text).pos ∧
    r'.lastEnd = (Lexer.ofText (withReturns text)).pos
  firstStatement : Option.Rel (returned text).start r.firstStatement r'.firstStatement

namespace Reading.Alike

variable {text : List Char} {r r' : Reading}

theorem next (h : r.Alike text r') (hreturn : '\r' ∉ text) : r.next.Alike text r'.next := by
  obtain ⟨hlexer, htoken⟩ := h.lexer.scan hreturn (Nat.le_trans h.behind.pos (Lexer.le_scan_start _))
    (Nat.le_trans h.behind'.pos (Lexer.le_scan_start _))
  exact ⟨hlexer, htoken, h.behind.scan, h.behind'.scan, Or.inl h.lexer.place.place, h.firstStatement⟩

theorem atStatement (h : r.Alike text r') : r.atStatement.Alike text r'.atStatement := by
  refine ⟨h.lexer, h.token, h.behind, h.behind', h.lastEnd, ?_⟩
  have hfirst := h.firstStatement
  unfold Reading.atStatement
  generalize r.firstStatement = p at hfirst ⊢
  generalize r'.firstStatement = p' at hfirst ⊢
  cases hfirst with
  | none => exact .some h.token.span.start
  | some hp => exact .some hp

/-- What starts behind the last token does so in both texts. -/
theorem lastEnd_le_iff (h : r.Alike text r') {p p' : ℕ} (hp : (returned text).start p p') :
    r.lastEnd ≤ p ↔ r'.lastEnd ≤ p' := by
  rcases h.lastEnd with hlast | ⟨hlast, hlast'⟩
  · exact hlast.le_iff hp.1
  · rw [hlast, hlast']
    exact iff_of_true hp.2.1 hp.2.2

end Reading.Alike

/-- The same documentation stands before the same token. -/
theorem leadingDocHere_withReturns {text : List Char} (hreturn : '\r' ∉ text) (name : String)
    {s s' : ParseState} (h : s.reading.Alike text s'.reading)
    (hkind : s.current.kind ≠ .endOfFile) :
    (Parse.leadingDocHere ⟨name, withReturns text⟩ s').1 =
      (Parse.leadingDocHere ⟨name, text⟩ s).1 := by
  have hpos : (returned text).start s.pos s'.pos := h.token.span.start
  have hcomments : List.Forall₂ (fun c c' => c.Alike text c' ∧
      (s.lastEnd ≤ c.span.start ↔ s'.lastEnd ≤ c'.span.start)) s.lexer.comments.toList
        s'.lexer.comments.toList :=
    forall₂_of_mem (fun c c' hc hfirst hfirst' =>
        ⟨hc, h.lastEnd_le_iff ⟨hc.start, hfirst, hfirst'⟩⟩)
      h.lexer.comments h.behind.comments h.behind'.comments
  have hlead := leadingDoc_withReturns hcomments hpos.1
  have hmem {c : Comment} (hc : leadingDoc s.lexer.comments s.lastEnd s.pos text = some c) :=
    mem_of_leadingDoc hc
  rw [Parse.leadingDocHere_run, Parse.leadingDocHere_run]
  unfold ParseState.doc
  dsimp only
  generalize hfound : leadingDoc s.lexer.comments s.lastEnd s.pos text = found at hlead
  generalize leadingDoc s'.lexer.comments s'.lastEnd s'.pos (withReturns text) = found' at hlead
  cases hlead with
  | none => rfl
  | @some c c' hc =>
    obtain ⟨hc', hdoc⟩ := hmem hfound
    have hfirst : (s'.lexer.comments[0]?.any (·.span.start == c'.span.start)) =
        (s.lexer.comments[0]?.any (·.span.start == c.span.start)) := by
      rw [← Array.getElem?_toList, ← Array.getElem?_toList]
      refine (any_eq_of_rel (fun k k' hk => ?_) (forall₂_getElem? h.lexer.comments 0)).symm
      rw [Bool.eq_iff_iff, beq_iff_eq, beq_iff_eq]
      exact hk.start.eq_iff hc.start
    have hstatement : s'.firstStatement.any (· < s'.pos) = s.firstStatement.any (· < s.pos) := by
      refine (any_eq_of_rel (fun q q' hq => decide_eq_decide.mpr ?_) h.firstStatement).symm
      rw [← Nat.not_le, ← Nat.not_le, hpos.1.le_iff hq.1]
    have hfile := fileDoc_withReturns hreturn (.cons hc .nil) (.some hpos.1)
    dsimp only [Option.bind_some]
    rw [hfirst, hstatement, hfile, hc.content hreturn hdoc (h.lexer.closed hkind c hc')]

/-- Two parsers that go side by side through a text and the text with carriage returns. -/
def returnedPairing {text : List Char} (hreturn : '\r' ∉ text) (name : String) :
    Pairing ⟨name, text⟩ ⟨name, withReturns text⟩ where
  toLikeness := returned text
  reads := Reading.Alike text
  stop_of_start h := h.1
  le_iff := SamePlace.le_iff
  token h := h.token
  lastEnd {r r' p p'} h hp := by
    rcases h.lastEnd with hlast | ⟨hlast, hlast'⟩
    · exact hlast.max hp.1
    · rw [hlast, hlast', Nat.max_eq_right hp.2.1, Nat.max_eq_right hp.2.2]
      exact hp.1
  length_le h := by
    rw [h.lexer.rest]
    exact withReturns.length_le _
  next h := h.next hreturn
  atStatement h := h.atStatement
  documents h hkind := leadingDocHere_withReturns hreturn name h hkind
  fragment {s s'} h := by
    have hslice := h.start.1.sliceBytes h.stop
    show String.ofList ((sliceBytes (withReturns text) s'.start s'.stop).getD []) =
      String.ofList (withReturns (String.ofList ((sliceBytes text s.start s.stop).getD [])).toList)
    rw [hslice, String.toList_ofList]
    cases sliceBytes text s.start s.stop <;> rfl
  modules b b' := b' = b
  modules_self _ := rfl

theorem start_withReturns {text : List Char} (hreturn : '\r' ∉ text) :
    Reading.Alike text (ParseState.start text).reading
      (ParseState.start (withReturns text)).reading := by
  obtain ⟨hlexer, htoken⟩ := Lexer.scan_ofText_withReturns hreturn
  have hbehind (text : List Char) : (Lexer.ofText text).scan.IsBehind (Lexer.ofText text).pos :=
    Lexer.IsBehind.scan ⟨Nat.le_refl _, nofun⟩
  exact ⟨hlexer, htoken, hbehind text, hbehind (withReturns text), Or.inr ⟨rfl, rfl⟩, .none⟩

namespace SourceFile

/-- The line ends of a text do not matter. With a carriage return before every line feed, parsing
finds the same statements and the same declarations, with the same names, modifiers, values and
documentation, the same documentation of the file, and a module or none; only the places are those in
the text with carriage returns, and so are the parts of the text that are kept as written. -/
theorem parse_withReturns (name : String) {text : List Char} (hreturn : '\r' ∉ text) :
    List.Forall₂ (Statement.Alike (returned text)) (parse name text).statements
        (parse name (withReturns text)).statements ∧
      List.Forall₂ (Declaration.Alike (returned text)) (parse name text).declarations.toList
        (parse name (withReturns text)).declarations.toList ∧
      (parse name (withReturns text)).doc = (parse name text).doc ∧
      (parse name (withReturns text)).isModule = (parse name text).isModule := by
  obtain ⟨hstates, hstatements⟩ := statementsOf_alike (returnedPairing hreturn name)
    (withReturns.length_le text) (start_withReturns hreturn)
  refine ⟨hstatements, hstates.declarations, ?_, hstates.isModule⟩
  have hreading : Reading.Alike text (statementsOf name text).2.reading
      (statementsOf name (withReturns text)).2.reading := hstates.reading
  -- each comment is recorded once
  have hdistinct (text : List Char) : distinctComments
      (statementsOf name text).2.lexer.comments.toList =
        (statementsOf name text).2.lexer.comments.toList := by
    rw [statementsOf_comments]
    exact distinctComments_eq (lex_lossless text).comments_start
  have hfirst : Option.Rel (SamePlace text) (statementsOf name text).2.firstStatement
      (statementsOf name (withReturns text)).2.firstStatement := by
    have hfirst := hreading.firstStatement
    revert hfirst
    show Option.Rel (returned text).start (statementsOf name text).2.firstStatement
      (statementsOf name (withReturns text)).2.firstStatement → _
    generalize (statementsOf name text).2.firstStatement = p
    generalize (statementsOf name (withReturns text)).2.firstStatement = p'
    intro hfirst
    cases hfirst with
    | none => exact .none
    | some hp => exact .some hp.1
  show fileDoc (distinctComments (statementsOf name (withReturns text)).2.lexer.comments.toList)
      (statementsOf name (withReturns text)).2.firstStatement (withReturns text) =
    fileDoc (distinctComments (statementsOf name text).2.lexer.comments.toList)
      (statementsOf name text).2.firstStatement text
  rw [hdistinct, hdistinct]
  exact fileDoc_withReturns hreturn hreading.lexer.comments hfirst

/-- Documentation over two lines, and an alias on the third. -/
theorem parse_withReturns_alias :
    withReturns "/** A\n * B */\ntype A = 1".toList = "/** A\r\n * B */\r\ntype A = 1".toList ∧
      '\r' ∉ "/** A\n * B */\ntype A = 1".toList ∧
      List.Forall₂ (Declaration.Alike (returned "/** A\n * B */\ntype A = 1".toList))
        (parse "a.ts" "/** A\n * B */\ntype A = 1".toList).declarations.toList
        (parse "a.ts" (withReturns "/** A\n * B */\ntype A = 1".toList)).declarations.toList :=
  have hreturn : '\r' ∉ "/** A\n * B */\ntype A = 1".toList := by decide
  ⟨by decide, hreturn, (parse_withReturns "a.ts" hreturn).2.1⟩

end SourceFile

end ApiSurface
