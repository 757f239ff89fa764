import ApiSurface.Proofs.AlikeInference
import ApiSurface.Proofs.DocumentedNodes
import ApiSurface.Proofs.FirstStatements
import ApiSurface.Proofs.MovedTexts
/-!
Expressions that are exported by default. They are read as the initializer of a constant is: the
same is found in both, and the same type is inferred. Only an expression that begins with what could
be modifiers of a declaration is read from behind those.
-/
namespace ApiSurface

theorem Token.Alike.opensModifiers {L : Likeness} {t t' u u' : Token} (h : t.Alike L t')
    (hu : u.Alike L u') : t'.opensModifiers u' = t.opensModifiers u := by
  have hwords : t'.isWord = t.isWord := funext h.isWord
  unfold Token.opensModifiers
  rw [hwords, hu.kind, hu.afterBreak, hu.isWord]

/-- Whether an expression, between a blank and a semicolon, begins with what would be read as
modifiers of a declaration. -/
def opensWithModifiers (e : List Char) : Bool :=
  let first := Lexer.scan { (default : Lexer) with rest := ' ' :: e ++ [';'] }
  first.token.opensModifiers first.scan.token

/-! ### The two files -/

/-- A file with a constant. -/
def constantText (e : List Char) : List Char := "const v = ".toList ++ e ++ [';']

/-- A file with an expression that is exported by default. -/
def defaultExportText (e : List Char) : List Char := "export default ".toList ++ e ++ [';']

namespace SourceFile

open Parse Productions

/-- The name and the initializer of the constant that the first statement of a file declares, if it
is one and its type is not written down. -/
def firstConstant? (f : SourceFile) : Option (String × Expr) := do
  let .declaration i ← f.statements.head? | none
  let d ← f.declaration? i
  let .variable .const none (some initial) := d.shape | none
  return (d.name.text, initial)

theorem firstConstant?_eq_some {f : SourceFile} {name : String} {initial : Expr} :
    f.firstConstant? = some (name, initial) ↔ ∃ i, .declaration i ∈ f.statements.head? ∧
      ∃ d, f.declaration? i = some d ∧ d.IsConstant name initial := by
  unfold firstConstant?
  constructor
  · intro h
    obtain ⟨x, hx, h⟩ := Option.bind_eq_some_iff.mp h
    split at h
    · next i =>
      obtain ⟨d, hd, h⟩ := Option.bind_eq_some_iff.mp h
      split at h
      · next initial' hshape =>
        cases h
        exact ⟨i, hx, d, hd, rfl, hshape⟩
      · cases h
    · cases h
  · rintro ⟨i, hi, d, hd, rfl, hshape⟩
    rw [Option.mem_def.mp hi]
    simp [hd, hshape]

theorem noted_ordered (text : List Char) : (ParseState.start text).noted.Ordered :=
  (ParseState.start_tidy text).ordered.of_eq rfl

/-- What holds of the statement at the start of a text holds of the first one of the file. -/
theorem statementsOf_yields (name : String) {text : List Char}
    (hword : (ParseState.start text).noted.current.kind = .identifier)
    {T : Statement → ParseState → Prop} (hT : ∀ x s s' listed, T x s → s.Lists s' listed → T x s')
    (h : Yields (ofDepth (text.length + 1)).statement ⟨name, text⟩ (ParseState.start text).noted
      fun statements s' => ∃ x ∈ statements.head?, T x s') :
    ∃ x ∈ (parse name text).statements.head?, T x (statementsOf name text).2 := by
  show ∃ x ∈ (statementsOf name text).1.head?, T x (statementsOf name text).2
  have hfirst : (ParseState.start text).noted.firstStatement = some (ParseState.start text).pos := rfl
  rw [statementsOf_noted name (ne_end_of_word hword)]
  exact statementList_yields (ofDepth_growing _) (noted_ordered text) (ne_end_of_word hword)
    hfirst hT h

theorem firstConstant?_of_yields (name : String) {text : List Char}
    (hword : (ParseState.start text).noted.current.kind = .identifier) {word : String}
    {initial : Expr} (h : Yields (ofDepth (text.length + 1)).statement ⟨name, text⟩ (ParseState.start text).noted
      fun statements s' => ∃ i, .declaration i ∈ statements.head? ∧
        Holds (·.IsConstant word initial) i s') :
    (parse name text).firstConstant? = some (word, initial) := by
  obtain ⟨_, hx, i, rfl, hd⟩ := statementsOf_yields name hword
    (T := fun x s' => ∃ i, x = .declaration i ∧ Holds (·.IsConstant word initial) i s')
    (fun x s s' listed ⟨i, hx, hd⟩ hlists => ⟨i, hx, hd.lists hlists⟩)
    (h.mono fun statements s' ⟨i, hi, hd⟩ => ⟨_, hi, i, rfl, hd⟩)
  exact firstConstant?_eq_some.mpr ⟨i, hx, hd⟩

theorem firstConstant?_tells {name : String} {text : List Char} {word : String} {initial : Expr}
    (h : (parse name text).firstConstant? = some (word, initial))
    (hword : (ParseState.start text).noted.current.kind = .identifier) {P : Declaration → Prop}
    (hfirst : Yields (ofDepth (text.length + 1)).statement ⟨name, text⟩
      (ParseState.start text).noted fun statements s' => ∃ x ∈ statements.head?, Tells P x s') :
    ∃ d, P d ∧ d.IsConstant word initial := by
  obtain ⟨i, hi, d, hd, hconst⟩ := firstConstant?_eq_some.mp h
  obtain ⟨x, hx, htells⟩ := statementsOf_yields name hword (T := Tells P)
    (fun _ _ _ _ => Tells.lists) hfirst
  obtain ⟨d', hd', hP⟩ := htells i (Option.mem_unique hx hi)
  obtain rfl : d' = d := Option.some.inj (hd'.symm.trans hd)
  exact ⟨d', hP, hconst⟩

/-- The state in which the initializer of the constant starts. -/
def initializerOf (e : List Char) : ParseState :=
  next (next (next (ParseState.start (constantText e)).noted))

/-- The state in which the expression starts that is exported by default. -/
def exportedOf (e : List Char) : ParseState :=
  next (next (ParseState.start (defaultExportText e)).noted)

/-! The tokens before the expression do not depend on it. -/

section

variable (e : List Char)

theorem constant_first : (ParseState.start (constantText e)).noted.lexer =
    ⟨" v = ".toList ++ e ++ [';'], ⟨.identifier, ⟨0, 5⟩, "const", false, false⟩, #[], #[]⟩ := rfl

theorem constant_second : (next (ParseState.start (constantText e)).noted).lexer =
    ⟨" = ".toList ++ e ++ [';'], ⟨.identifier, ⟨6, 7⟩, "v", false, false⟩, #[], #[]⟩ := rfl

theorem constant_third : (next (next (ParseState.start (constantText e)).noted)).lexer =
    ⟨' ' :: e ++ [';'], ⟨.equals, ⟨8, 9⟩, "", false, false⟩, #[], #[]⟩ := rfl

theorem default_first : (ParseState.start (defaultExportText e)).noted.lexer =
    ⟨" default ".toList ++ e ++ [';'], ⟨.identifier, ⟨0, 6⟩, "export", false, false⟩, #[], #[]⟩ :=
  rfl

theorem default_second : (next (ParseState.start (defaultExportText e)).noted).lexer =
    ⟨' ' :: e ++ [';'], ⟨.identifier, ⟨7, 14⟩, "default", false, false⟩, #[], #[]⟩ := rfl

end

/-! ### The expressions -/

theorem constant_starts (name : String) (e : List Char) :
    (parse name (constantText e)).firstConstant? = some ("v",
      ((ofDepth ((constantText e).length + 1)).expression ⟨name, constantText e⟩
        (initializerOf e)).1) := by
  have hfirst := congrArg Lexer.token (constant_first e)
  have hsecond := congrArg Lexer.token (constant_second e)
  have hthird := congrArg Lexer.token (constant_third e)
  exact firstConstant?_of_yields name (congrArg Token.kind hfirst)
    (constant_yields (noted_ordered _) (congrArg Token.kind hfirst) (congrArg Token.value hfirst)
      (congrArg Token.kind hsecond) (congrArg Token.value hsecond) (by decide)
      (congrArg Token.kind hthird))

theorem default_starts {name : String} {e : List Char} (hplain : opensWithModifiers e = false)
    {initial : Expr}
    (h : (parse name (defaultExportText e)).firstConstant? = some ("default", initial)) :
    ∃ isModule stalled, initial =
      ((ofDepth ((defaultExportText e).length + 1)).expression ⟨name, defaultExportText e⟩
        { exportedOf e with isModule, stalled }).1 := by
  have hfirst := congrArg Lexer.token (default_first e)
  have hsecond := congrArg Lexer.token (default_second e)
  have hbefore : Lexer.Moved 0 14 { (default : Lexer) with rest := ' ' :: e ++ [';'] }
      (next (ParseState.start (defaultExportText e)).noted).lexer := by
    rw [default_second e]
    exact ⟨rfl, .start 0 14, .nil⟩
  obtain ⟨hbehind, hone⟩ := hbefore.scan
  obtain ⟨d, hinitial, hconst⟩ := firstConstant?_tells h (congrArg Token.kind hfirst)
    (export_yields (congrArg Token.kind hfirst) (congrArg Token.value hfirst)
      (congrArg Token.kind hsecond) (congrArg Token.value hsecond)
      ((hone.opensModifiers hbehind.scan.2).trans hplain))
  exact hinitial "default" initial hconst

/-- The expressions start at tokens that go together. -/
theorem initializer_moved (e : List Char) :
    Reading.Moved 9 14 (initializerOf e).reading (exportedOf e).reading := by
  have hbefore : Lexer.Moved 9 14 (next (next (ParseState.start (constantText e)).noted)).lexer
      (next (ParseState.start (defaultExportText e)).noted).lexer := by
    rw [constant_third e, default_second e]
    exact ⟨rfl, .start 9 14, .nil⟩
  obtain ⟨hlexer, htoken⟩ := hbefore.scan
  exact ⟨hlexer, htoken, hbefore.pos, rfl, rfl⟩

/-- What is read from where two texts go on alike is alike. -/
theorem expression_moved (name : String) {lead lead' : List Char} (hlead : lead ≠ [])
    (hlead' : lead' ≠ []) (hlength : lead.length ≤ lead'.length) (rest : List Char)
    {s s' : ParseState} (hs : s.Ordered) (hahead : s.ahead ≤ (lead ++ rest).length)
    (hstalled : s.stalled = false) (h : (movedPairing name hlead hlead' rest).States s s') :
    ((ofDepth ((lead ++ rest).length + 1)).expression ⟨name, lead ++ rest⟩ s).1.Alike
      (moved (byteLength lead) (byteLength lead'))
      ((ofDepth ((lead' ++ rest).length + 1)).expression ⟨name, lead' ++ rest⟩ s').1 := by
  let P := movedPairing name hlead hlead' rest
  have hdepth : (lead ++ rest).length + 1 ≤ (lead' ++ rest).length + 1 := by
    rw [List.length_append, List.length_append]
    omega
  have hpaired : Productions.Paired P (ofDepth ((lead ++ rest).length + 1))
      (ofDepth ((lead' ++ rest).length + 1)) := paired_ofDepth P hdepth
  -- the depth is enough for all that is left
  have hsteady : Productions.Steady (ofDepth ((lead ++ rest).length + 1))
      ((lead ++ rest).length + 1) := inferInstance
  have hgoes := hsteady.expression.goesOn (c := ⟨name, lead ++ rest⟩)
    ⟨hs, Nat.succ_le_succ hahead, nofun⟩
  exact (hpaired.expression.goes s s' h trivial (hgoes.stalled.trans hstalled)).2

/-- What is found in both files at the expression is alike. -/
theorem expression_alike (name : String) (e : List Char) (isModule stalled : Bool) :
    ((ofDepth ((constantText e).length + 1)).expression ⟨name, constantText e⟩
      (initializerOf e)).1.Alike (moved 9 14)
      ((ofDepth ((defaultExportText e).length + 1)).expression ⟨name, defaultExportText e⟩
        { exportedOf e with isModule, stalled }).1 := by
  have hpasses := ((ParseState.next_passes (noted_ordered (constantText e))).trans
    (ParseState.next_passes (ParseState.next_ordered _))).trans
      (ParseState.next_passes (ParseState.next_ordered _))
  have hahead : (initializerOf e).ahead ≤ (constantText e).length :=
    Nat.le_trans hpasses.ahead_le (ParseState.start_ahead_le (constantText e))
  -- both texts end in the same way
  have htext : constantText e = "const v =".toList ++ (' ' :: e ++ [';']) := rfl
  have htext' : defaultExportText e = "export default".toList ++ (' ' :: e ++ [';']) := rfl
  -- each by itself: to compare the two states would be to scan both texts
  have hcontext : (initializerOf e).context = ⟨false, 0, none⟩ := rfl
  have hcontext' : (exportedOf e).context = ⟨false, 0, none⟩ := rfl
  have hlead : "const v =".toList ≠ [] := by decide
  have hlead' : "export default".toList ≠ [] := by decide
  have hstates : (movedPairing name hlead hlead' (' ' :: e ++ [';'])).States (initializerOf e)
      (exportedOf e) :=
    ⟨initializer_moved e, .nil, .nil, trivial, hcontext'.trans hcontext.symm⟩
  have halike := expression_moved name hlead hlead' (by decide) _ hpasses.ordered
    (htext ▸ hahead) rfl (movedPairing_marked hstates isModule stalled)
  rw [← htext, ← htext'] at halike
  exact halike

/-- An expression that is exported by default is read as the initializer of a constant is, and so
the same type is inferred for both, unless it begins with what could be modifiers of a
declaration. -/
theorem parse_default_expression (name : String) {e : List Char}
    (hplain : opensWithModifiers e = false) :
    ∃ initial, (parse name (constantText e)).firstConstant? = some ("v", initial) ∧
      ∀ initial', (parse name (defaultExportText e)).firstConstant? = some ("default", initial') →
        initial.Alike (moved 9 14) initial' ∧
          (inferVariable .const none (some initial)).Alike (moved 9 14)
            (inferVariable .const none (some initial')) := by
  refine ⟨_, constant_starts name e, fun initial' h => ?_⟩
  obtain ⟨isModule, stalled, rfl⟩ := default_starts hplain h
  have halike := expression_alike name e isModule stalled
  exact ⟨halike, inferVariable_alike (fun _ _ => Eq.symm) halike .const⟩

/-- An arrow function. -/
theorem default_arrow_alike : opensWithModifiers "x => 1".toList = false ∧ ∃ initial initial',
    (parse "a.ts" (constantText "x => 1".toList)).firstConstant? = some ("v", initial) ∧
      (parse "a.ts" (defaultExportText "x => 1".toList)).firstConstant? =
          some ("default", initial') ∧
        initial.Alike (moved 9 14) initial' ∧
          (inferVariable .const none (some initial)).Alike (moved 9 14)
            (inferVariable .const none (some initial')) := by
  have hplain : opensWithModifiers "x => 1".toList = false := by decide +kernel
  have hdefault : (parse "a.ts" (defaultExportText "x => 1".toList)).firstConstant?.map (·.1) =
      some "default" := by decide +kernel
  obtain ⟨initial, hconst, halike⟩ := parse_default_expression "a.ts" hplain
  obtain ⟨⟨_, initial'⟩, hfirst, rfl⟩ := Option.map_eq_some_iff.mp hdefault
  exact ⟨hplain, initial, initial', hconst, hfirst, halike initial' hfirst⟩

/-- Whether an expression is a function that is marked as asynchronous. -/
def isAsyncFunction (e : Expr) : Bool :=
  match e.shape with
  | .function _ _ _ isAsync => isAsync
  | _ => false

theorem isAsyncFunction_alike {L : Likeness} {e e' : Expr} (h : e.Alike L e') :
    isAsyncFunction e' = isAsyncFunction e := by
  obtain ⟨-, hshape⟩ := h
  cases hshape <;> rfl

/-- The word `async` before an arrow function is read as a modifier of a declaration, and the
function that is exported is not asynchronous. -/
theorem default_async_not_alike : ∃ initial initial',
    (parse "a.ts" (constantText "async x => 1".toList)).firstConstant? = some ("v", initial) ∧
      (parse "a.ts" (defaultExportText "async x => 1".toList)).firstConstant? =
          some ("default", initial') ∧ ∀ L, ¬ initial.Alike L initial' := by
  have hconst : (parse "a.ts" (constantText "async x => 1".toList)).firstConstant?.map
      (fun x => (x.1, isAsyncFunction x.2)) = some ("v", true) := by decide +kernel
  have hdefault : (parse "a.ts" (defaultExportText "async x => 1".toList)).firstConstant?.map
      (fun x => (x.1, isAsyncFunction x.2)) = some ("default", false) := by decide +kernel
  obtain ⟨⟨word, initial⟩, hfirst, hasync⟩ := Option.map_eq_some_iff.mp hconst
  obtain ⟨⟨word', initial'⟩, hfirst', hplain⟩ := Option.map_eq_some_iff.mp hdefault
  obtain ⟨rfl, hasync⟩ := Prod.mk.inj hasync
  obtain ⟨rfl, hplain⟩ := Prod.mk.inj hplain
  refine ⟨initial, initial', hfirst, hfirst', fun L halike => ?_⟩
  exact Bool.false_ne_true (hplain.symm.trans ((isAsyncFunction_alike halike).trans hasync))

end SourceFile

end ApiSurface
