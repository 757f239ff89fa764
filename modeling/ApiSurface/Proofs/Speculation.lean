import ApiSurface.Proofs.LosslessScanning
import ApiSurface.Proofs.ParserProgress
/-!
Speculation leaves no trace. What a parser looks ahead to, or tries and gives up, changes nothing
that going back to a checkpoint does not restore, so the state is the one before. The lexer of a
parser is then at all times one that has only scanned on, and it records each comment once.
-/
namespace ApiSurface

/-! ### What productions do to a state -/

/-- A table has the entries of another one, some of them completed, and maybe more. -/
def TableKeeps (table table' : Array Declaration) : Prop :=
  ∀ (i : ℕ) (d : Declaration), table[i]? = some d →
    ∃ span shape, table'[i]? = some { d with span, shape }

namespace TableKeeps

variable {table table' table'' : Array Declaration}

theorem refl (table : Array Declaration) : TableKeeps table table :=
  fun _ d hd => ⟨d.span, d.shape, hd⟩

theorem trans (h : TableKeeps table table') (h' : TableKeeps table' table'') :
    TableKeeps table table'' := by
  intro i d hd
  obtain ⟨_, _, hd'⟩ := h i d hd
  obtain ⟨span, shape, hd''⟩ := h' i _ hd'
  exact ⟨span, shape, hd''⟩

theorem push (table : Array Declaration) (d : Declaration) : TableKeeps table (table.push d) := by
  intro i e he
  have hlt := (Array.getElem?_eq_some_iff.mp he).1
  exact ⟨e.span, e.shape, by rw [Array.getElem?_push, if_neg (Nat.ne_of_lt hlt), he]⟩

theorem complete (table : Array Declaration) (i : ℕ) (span : Span) (shape : DeclarationShape) :
    TableKeeps table (table.modify i ({ · with span, shape })) := by
  intro j e he
  rw [Array.getElem?_modify, he]
  split
  · exact ⟨span, shape, rfl⟩
  · exact ⟨e.span, e.shape, rfl⟩

end TableKeeps

namespace ParseState

/-- What parsers do to a state. -/
inductive Runs : ParseState → ParseState → Prop
  | walks {s s' : ParseState} : Walks s s' → Runs s s'
  | trans {s s' s'' : ParseState} : Runs s s' → Runs s' s'' → Runs s s''
  /-- They enter declarations into the table, and complete them. -/
  | declares (s : ParseState) (declarations : Array Declaration) :
      TableKeeps s.declarations declarations → Runs s { s with declarations }
  /-- They note that the file is a module. -/
  | marks (s : ParseState) (isModule : Bool) : Runs s { s with isModule }
  /-- They note where the first statement starts. -/
  | notes (s : ParseState) (start : ℕ) :
      Runs s { s with firstStatement := s.firstStatement.or (some start) }
  /-- They go on in another context, and leave it again. -/
  | within {s s' : ParseState} (k : ParseContext) : Runs { s with context := k } s' →
      Runs s { s' with context := s.context }

variable {s s' : ParseState}

/-- However parsing goes on, its lexer scans on, and nothing strays. -/
theorem Runs.scans (h : s.Runs s') : s'.strayed = s.strayed ∧ s'.context = s.context ∧
    ∃ k, s'.lexer = Lexer.scan^[k] s.lexer := by
  induction h with
  | walks h =>
    have hextends := h.extends
    exact ⟨hextends.strayed, hextends.context, hextends.scans⟩
  | trans _ _ ih ih' =>
    obtain ⟨hstrayed, hcontext, k, hk⟩ := ih
    obtain ⟨hstrayed', hcontext', k', hk'⟩ := ih'
    exact ⟨hstrayed'.trans hstrayed, hcontext'.trans hcontext, k' + k,
      by rw [hk', hk, Function.iterate_add_apply]⟩
  | declares s | marks s | notes s => exact ⟨rfl, rfl, 0, rfl⟩
  | within k _ ih => exact ⟨ih.1, rfl, ih.2.2⟩

/-- A parser that has stalled stays so. -/
theorem Runs.stalled (h : s.Runs s') : s.stalled = true → s'.stalled = true := by
  induction h with
  | walks h => exact h.stalled
  | trans _ _ ih ih' => exact ih' ∘ ih
  | declares s | marks s | notes s => exact id
  | within k _ ih => exact ih

/-- However parsing goes on, the entries of the table stay. -/
theorem Runs.keeps (h : s.Runs s') : TableKeeps s.declarations s'.declarations := by
  induction h with
  | walks h => exact h.extends.declarations ▸ .refl _
  | trans _ _ ih ih' => exact ih.trans ih'
  | declares s declarations h => exact h
  | marks s | notes s => exact .refl _
  | within k _ ih => exact ih

end ParseState

namespace Parse

variable {α β σ : Type}

/-- A parser that does to a state what parsers do. -/
class Running (p : Parse α) : Prop where
  runs : ∀ (c : Setting) (s : ParseState), s.Runs (p c s).2

namespace Running

open ParseState (Runs)

instance (priority := low) (p : Parse α) [hp : Quiet p] : Running p :=
  ⟨fun c s => .walks (hp.walks c s)⟩

theorem bind {p : Parse α} {f : α → Parse β} (hp : Running p) (hf : ∀ a, Running (f a)) :
    Running (p >>= f) := ⟨fun c s => (hp.runs c s).trans ((hf _).runs c _)⟩

instance (p : Parse α) (f : α → Parse β) [hp : Running p] [hf : ∀ a, Running (f a)] :
    Running (p >>= f) := bind hp hf

/-- What comes after something optional. -/
instance (priority := low) (p : Parse (Option α)) (f : Option α → Parse β) [hp : Running p]
    [hsome : ∀ a, Running (f (some a))] [hnone : Running (f none)] : Running (p >>= f) :=
  bind hp fun
    | some a => hsome a
    | none => hnone

instance (c : Prop) [Decidable c] (p q : Parse α) [hp : Running p] [hq : Running q] :
    Running (if c then p else q) := by split <;> assumption

instance (step : σ → Parse (σ × Bool)) (x : σ) [hstep : Running (step x)] :
    Running (stepOn step x) := by
  unfold stepOn
  infer_instance

theorem iterateFrom {step : σ → Parse (σ × Bool)} (hstep : ∀ x, Running (step x)) (cs : List Char)
    (x : σ) : Running (iterateFrom step cs x) := by
  induction cs generalizing x with
  | nil =>
    unfold Parse.iterateFrom
    infer_instance
  | cons c cs ih =>
    unfold Parse.iterateFrom
    infer_instance

instance (step : σ → Parse (σ × Bool)) (x : σ) [hstep : ∀ x, Running (step x)] :
    Running (iterate step x) :=
  bind inferInstance fun s => iterateFrom hstep (' ' :: s.rest) x

instance (step : Parse (List α × Bool)) [Running step] : Running (collect step) := by
  unfold collect gather
  infer_instance

instance (i : DeclIndex) (p : Parse α) [hp : Running p] : Running (inBodyOf i p) := by
  refine ⟨fun c s => ?_⟩
  have hruns := hp.runs c (s.inBody i)
  have hcontext : ((p c (s.inBody i)).2.outOf s).context = s.context := by
    rw [ParseState.outOf, hruns.scans.2.1]
    rfl
  have hout : (inBodyOf i p c s).2 = { (p c (s.inBody i)).2 with context := s.context } :=
    congrArg (fun context => { (p c (s.inBody i)).2 with context }) hcontext
  rw [hout]
  exact .within _ hruns

instance (name : Ident) (span : Span) (modifiers : Modifiers) (doc : Option String)
    (shape : DeclarationShape) : Running (declare name span modifiers doc shape) :=
  ⟨fun _ s => .declares s _ (.push s.declarations _)⟩

instance (i : DeclIndex) (span : Span) (shape : DeclarationShape) :
    Running (complete i span shape) :=
  ⟨fun _ s => .declares s _ (.complete s.declarations i span shape)⟩

instance (start : ℕ) : Running (modify fun s =>
    { s with firstStatement := s.firstStatement.or (some start) } : Parse Unit) :=
  ⟨fun _ s => .notes s start⟩

end Running

end Parse

namespace Productions

open Parse

/-- Bodies and modules within themselves do to a state what parsers do. -/
class Running (g : Productions) : Prop where
  statements : Parse.Running g.statements
  module : ∀ (start : ℕ) (doc : Option String) (modifiers : Modifiers),
    Parse.Running (g.module start doc modifiers)

namespace Running

open Parse.Running (bind)

variable (g : Productions) [hquiet : Quiet g] [hg : Running g] (start : ℕ) (doc : Option String)
  (modifiers : Modifiers)

-- a production of many parts has an instance of many parts
set_option synthInstance.maxSize 10000

instance : Parse.Running g.statements := hg.statements

instance : Parse.Running (g.module start doc modifiers) := hg.module start doc modifiers

/-! ### Declarations -/

instance (name : Ident) (naming : ModuleNaming) :
    Parse.Running (g.moduleBody start doc modifiers name naming) := by
  unfold moduleBody
  infer_instance

instance : Parse.Running (g.moduleProduction start doc modifiers) := by
  unfold moduleProduction
  infer_instance

instance : Parse.Running g.enumMember := by
  unfold enumMember
  infer_instance

instance : Parse.Running (g.enumDeclaration start doc modifiers) := by
  unfold enumDeclaration
  infer_instance

instance : Parse.Running (g.functionDeclaration start doc modifiers) := by
  unfold functionDeclaration
  infer_instance

instance (kind : VariableKind) : Parse.Running (g.declarator kind doc modifiers) := by
  unfold declarator
  infer_instance

instance : Parse.Running (g.variableStatement doc modifiers) := by
  unfold variableStatement
  infer_instance

instance : Parse.Running (g.typeAlias start doc modifiers) := by
  unfold typeAlias
  infer_instance

instance : Parse.Running (g.interfaceDeclaration start doc modifiers) := by
  unfold interfaceDeclaration
  infer_instance

instance : Parse.Running (g.classDeclaration start doc modifiers) := by
  unfold classDeclaration
  infer_instance

instance : Parse.Running (g.declaration? start doc modifiers) := by
  unfold declaration?
  dsimp only
  refine bind inferInstance fun isWord => ?_
  split
  · infer_instance
  · refine bind inferInstance fun t => ?_
    split <;> infer_instance

/-! ### Statements -/

instance : Parse.Running markModule := by
  unfold markModule
  have hmark : Parse.Running (modify ({ · with isModule := true }) : Parse Unit) :=
    ⟨fun _ s => .marks s true⟩
  infer_instance

instance (isExport : Bool) : Parse.Running (importStatement start isExport) := by
  unfold importStatement
  infer_instance

instance (keyword : Span) : Parse.Running (g.exportDefault start doc keyword) := by
  unfold exportDefault
  infer_instance

instance (keyword : Span) : Parse.Running (g.exportStatement start doc keyword) := by
  unfold exportStatement
  dsimp only
  repeat' first | infer_instance | refine bind inferInstance fun _ => ?_ | split

instance : Parse.Running g.statement := by
  unfold statement
  dsimp only
  infer_instance

instance (inBody : Bool) : Parse.Running (g.statementStep inBody) := by
  unfold statementStep
  dsimp only
  infer_instance

instance (inBody : Bool) : Parse.Running (g.statementList inBody) := by
  unfold statementList
  infer_instance

end Running

instance : Running exhausted where
  statements := by
    unfold exhausted beyond
    infer_instance
  module start doc modifiers := by
    unfold exhausted beyond
    infer_instance

instance (g : Productions) [Quiet g] [Running g] : Running (around g) where
  statements := inferInstanceAs (Parse.Running (g.statementList true))
  module start doc modifiers :=
    inferInstanceAs (Parse.Running (g.moduleProduction start doc modifiers))

instance (n : ℕ) : Running (ofDepth n) := by
  induction n with
  | zero => exact inferInstanceAs (Running exhausted)
  | succ n ih => exact inferInstanceAs (Running (around (ofDepth n)))

end Productions

/-! ### Recorded comments -/

theorem Tiled.comment_wide {pos : ℕ} {cs : List Char} {ts : List Token} {ks : List Comment}
    (h : Tiled pos cs ts ks) : ∀ k ∈ ks, k.span.start < k.span.stop := by
  induction h with
  | blank hblank hrest ih => exact ih
  | comment hk hrest ih =>
    refine List.forall_mem_cons.mpr ⟨?_, ih⟩
    rw [hk.text]
    refine Nat.lt_add_of_pos_right (byteLength_pos ?_)
    cases hk <;> exact List.cons_ne_nil _ _
  | token htext hstart hkind hspan hrest ih => exact ih
  | unfinished htext hstart ht hspan he hend => exact nofun
  | done he hend => exact nofun

/-- Scanning a text records each comment once, in the order of the text. -/
theorem Lexed.Lossless.comments_start {text : List Char} {x : Lexed} (h : x.Lossless text) :
    x.comments.toList.Pairwise fun c d => c.span.start < d.span.start := by
  obtain ⟨lead, rest, -, -, -, htiled⟩ := h.tiled
  exact h.apart.comments.imp_of_mem fun hc _ hle =>
    Nat.lt_of_lt_of_le (htiled.comment_wide _ hc) hle

theorem distinctComments_eq {cs : List Comment}
    (h : cs.Pairwise fun c d => c.span.start < d.span.start) : distinctComments cs = cs := by
  have hfrom (c : Comment) (cs : List Comment)
      (h : (c :: cs).Pairwise fun c d => c.span.start < d.span.start) :
      distinctFrom c cs = c :: cs := by
    induction cs generalizing c with
    | nil => rfl
    | cons d ds ih =>
      have hlt : c.span.start < d.span.start := List.rel_of_pairwise_cons h List.mem_cons_self
      rw [distinctFrom, if_neg (Nat.ne_of_gt hlt), ih d h.of_cons]
  cases cs with
  | nil => rfl
  | cons c cs => exact hfrom c cs h

/-! ### Whole files -/

namespace SourceFile

theorem statementsOf_runs (name : String) (text : List Char) :
    (ParseState.start text).Runs (statementsOf name text).2 :=
  Parse.Running.runs (p := (Productions.ofDepth (text.length + 1)).statementList false)
    ⟨name, text⟩ (ParseState.start text)

/-- However often a parser goes back, its lexer has recorded what scanning the text once does. -/
theorem statementsOf_comments (name : String) (text : List Char) :
    (statementsOf name text).2.lexer.comments = (lex text).comments := by
  obtain ⟨-, -, k, hk⟩ := (statementsOf_runs name text).scans
  obtain ⟨-, hend, -⟩ := statementsOf_progresses name text
  have hscan : (statementsOf name text).2.lexer = Lexer.scan^[k] (Lexer.ofText text).scan := hk
  rw [ParseState.current, hscan] at hend
  rw [hscan]
  exact (Lexer.iterate_scan_of_end (text.length + 1) k (.ofText text)
    (Nat.lt_succ_of_le (Lexer.ofText_rest_le text)) hend).1

theorem parse_comments (name : String) (text : List Char) :
    (parse name text).comments = (lex text).comments := by
  show (distinctComments (statementsOf name text).2.lexer.comments.toList).toArray = _
  rw [statementsOf_comments, distinctComments_eq (lex_lossless text).comments_start,
    Array.toArray_toList]

/-- Speculation leaves no trace. A parser has `strayed` once it looked ahead, or gave up what it
tried, and going back to the checkpoint led to a state that differs from the one before; this never
happens. For a lexer, a checkpoint undoes any number of scans. So a file has each comment of its text
once, as if it were scanned once from its start to its end. -/
theorem speculation_leaves_no_trace (name : String) (text : List Char) :
    ¬ (statementsOf name text).2.strayed ∧
      (∀ (l : Lexer) (k : ℕ), (Lexer.scan^[k] l).restore l.save = l) ∧
      (parse name text).comments = (lex text).comments ∧
      (parse name text).comments.toList.Pairwise fun c d => c.span.start < d.span.start := by
  have hsorted := (lex_lossless text).comments_start
  have hcomments := parse_comments name text
  refine ⟨?_, fun l k => Lexer.restore_iterate_scan k l, hcomments, hcomments ▸ hsorted⟩
  rw [(statementsOf_runs name text).scans.1]
  exact not_false

end SourceFile

end ApiSurface
