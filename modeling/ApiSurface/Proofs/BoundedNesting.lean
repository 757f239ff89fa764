import ApiSurface.Proofs.DeclarationForest
import ApiSurface.Proofs.ParsedTypeTerms
import ApiSurface.Proofs.ShallowDeclarations
/-!
How deeply a file is nested. The parser counts the whole types and expressions that are open, but no
operators, suffixes and assertions, and no bodies. So the nesting is bounded where few of those follow
each other, and by nothing where they may go on.
-/
namespace ApiSurface

namespace SourceFile

/-- Some steps into a file lead somewhere: into the bodies around a declaration, and from there into a
tree of it. -/
inductive Way (f : SourceFile) : List Inset → Prop where
  | declared {i : DeclIndex} {d : Declaration} : f.declaration? i = some d →
      f.Way (.replicate (f.enclosing i).tail.length .body)
  | inside {i : DeclIndex} {d : Declaration} {a b : Subtree} {is : List Inset} :
      f.declaration? i = some d → a ∈ subtrees d.shape → a.Reaches is b →
        f.Way (.replicate (f.enclosing i).tail.length .body ++ is)

/-! ### Counted levels -/

/-- The trees of all declarations of a file fit into the levels that the parser admits, and one more for
what a class or an interface builds on. -/
theorem parse_fits (name : String) (text : List Char) :
    ∀ d ∈ (parse name text).declarations, AllFit (Parse.maxDepth + 1) d.shape := by
  have hstart : (ParseState.start text).IsShallow := by
    refine ⟨rfl, fun d hd => ?_⟩
    exact absurd hd (Array.not_mem_empty d)
  have hlist : Parse.Holding ((Productions.ofDepth (text.length + 1)).statementList false) :=
    inferInstance
  exact (hlist.holds ⟨name, text⟩ (.start text) hstart).fits

/-- Behind some bodies, the steps to parts are as many in a row as in a tree. -/
theorem count_part_le_of_bodies {k : ℕ} {is : List Inset} (hno : .body ∉ is)
    (h : ∀ run, run <:+: is → .whole ∉ run → run.count .part ≤ 4) :
    ∀ run, run <:+: List.replicate k .body ++ is → .whole ∉ run → run.count .part ≤ 4 := by
  intro run hrun hwhole
  -- without the steps into bodies, a row is one in the tree
  have hfiltered : run.filter (· ≠ .body) <:+: is := by
    have hin := hrun.filter (· ≠ .body)
    rw [List.filter_append, List.filter_replicate_of_neg (by decide), List.nil_append] at hin
    have hself : is.filter (· ≠ .body) = is :=
      List.filter_eq_self.mpr fun i hi => decide_eq_true (ne_of_mem_of_not_mem hi hno)
    rwa [hself] at hin
  calc run.count .part = (run.filter (· ≠ .body)).count .part := by
        rw [List.count_filter (by decide)]
    _ ≤ 4 := h _ hfiltered fun hmem => hwhole (List.mem_of_mem_filter hmem)

/-- On the way to anything in a file at most as many whole types and expressions are entered as the
parser admits, and one. If no more than `r` operators, suffixes, assertions and bodies follow each other
on it without one of those in between, the way is not much longer. -/
theorem parse_nesting_bounded (name : String) (text : List Char) {is : List Inset} {r : ℕ}
    (hway : (parse name text).Way is)
    (hloose : ∀ run, run <:+: is → .whole ∉ run → run.countP Inset.isLoose ≤ r) :
    is.count .whole ≤ Parse.maxDepth + 1 ∧ is.length < (Parse.maxDepth + 2) * (r + 5) := by
  -- the steps into bodies lead to nothing whole
  have hnone (k : ℕ) : (List.replicate k Inset.body).count .whole = 0 := by
    rw [List.count_replicate, if_neg (by decide)]
  cases hway with
  | @declared i d hd =>
    have hwhole := (hnone ((parse name text).enclosing i).tail.length).trans_le
      (Nat.zero_le (Parse.maxDepth + 1))
    refine ⟨hwhole, length_lt_of_counts hwhole (fun run hrun _ => ?_) hloose⟩
    rw [List.count_eq_zero.mpr fun hmem => ?_]
    · exact Nat.zero_le 4
    · exact absurd (List.eq_of_mem_replicate (hrun.subset hmem)) (by decide)
  | @inside i d a b is hd ha hreach =>
    have hfits : a.Fits (Parse.maxDepth + 1) :=
      parse_fits name text d (Array.mem_of_getElem? hd) a ha
    have hwhole := (hfits is b hreach).1
    rw [← Nat.zero_add (is.count .whole), ← hnone ((parse name text).enclosing i).tail.length,
      ← List.count_append] at hwhole
    refine ⟨hwhole, length_lt_of_counts hwhole ?_ hloose⟩
    exact count_part_le_of_bodies hreach.body_notMem fun run => hfits.count_part_le hreach

/-! ### Uncounted levels -/

/-- The keys of the keys of … a type. -/
def keysOf : ℕ → TypeTerm
  | 0 => .keyword "string"
  | n + 1 => .operator .keyof (keysOf n)

theorem keysOf_fits (n : ℕ) : (keysOf n).Fits 0 := by
  induction n with
  | zero =>
    have hkeyword : "string" ∈ Productions.keywordTypes := by decide
    exact .flat hkeyword (List.forall_mem_nil _) rfl
  | succ n ih =>
    have hrank : 4 ≤ (keysOf n).rank := by
      cases n with
      | zero => decide
      | succ n => exact Nat.le_refl 4
    exact .flat ⟨by decide, hrank⟩ (List.forall_mem_singleton.mpr ih) rfl

/-- Each operator is a step. -/
theorem keysOf_reaches {n : ℕ} {t : TypeExpr} (h : (keysOf n).Shows t) :
    ∃ b, (Subtree.type t).Reaches (.replicate n .operand) b := by
  induction n generalizing t with
  | zero => exact ⟨_, .here _⟩
  | succ n ih =>
    cases h with
    | operator h =>
      obtain ⟨b, hb⟩ := ih h
      exact ⟨b, .operand List.mem_cons_self hb⟩

theorem keysOf_spells (n : ℕ) :
    Spells ((keysOf n).aliasPieces "A") (spaced ((keysOf n).aliasPieces "A")) := by
  have htype : IsName "type" := by simp [IsName, startsName, continuesName]
  have hname : IsName "A" := by simp [IsName, startsName]
  have hgrouped : Grouped ((keysOf n).aliasPieces "A") :=
    .word htype (.word hname
      (.sign (by decide) ((keysOf_fits n).grouped.append (.sign (by decide) .nil))))
  exact spells_spaced hgrouped.writable

/-- In a file with an alias of such a type, a way leads to the innermost key. -/
theorem keysOf_way (name : String) {text : List Char} {n : ℕ}
    (h : Spells ((keysOf n).aliasPieces "A") text) :
    (parse name text).Way (.replicate n .operand) := by
  have hread := (Productions.ReadsTypes.ofDepth (text.length + 1)).statementList
    ⟨0, keysOf_fits n, by decide⟩ rfl rfl (Nat.le_succ_of_le h.length_le) ⟨name, text⟩
    (.start text) (ParseState.start_at h) rfl
  obtain ⟨⟨-, d, hdeclarations, hshows⟩, -⟩ := hread
  have hd : (parse name text).declaration? 0 = some d := by
    have hall : (parse name text).declarations = #[d] := hdeclarations
    rw [declaration?, hall]
    rfl
  obtain ⟨type, hshape, htype⟩ := hshows.shape
  obtain ⟨b, hb⟩ := keysOf_reaches htype
  have hway := Way.inside hd (a := .type type) (by rw [hshape]; exact List.mem_cons_self) hb
  rwa [enclosing_eq hd, hshows.parent] at hway

/-- A file with a type behind an operator. -/
theorem one_key_bounded :
    (parse "a.ts" " type A = keyof string ;".toList).Way [.operand] ∧
      [Inset.operand].length < (Parse.maxDepth + 2) * (1 + 5) := by
  have hway := keysOf_way "a.ts" (keysOf_spells 1)
  have htext : spaced ((keysOf 1).aliasPieces "A") = " type A = keyof string ;".toList := by
    simp [keysOf, spaced, TypeTerm.aliasPieces, TypeTerm.pieces, Piece.text, TypeOperator.word,
      TokenKind.spelling?]
  rw [htext] at hway
  exact ⟨hway, (parse_nesting_bounded _ _ hway fun run hrun _ =>
    List.countP_le_length.trans hrun.length_le).2⟩

/-- Operators in front of each other are not counted, so no bound holds for all files. -/
theorem keys_nest_unbounded :
    ¬ ∃ bound : ℕ, ∀ (name : String) (text : List Char) (is : List Inset),
      (parse name text).Way is → is.length ≤ bound := by
  rintro ⟨bound, hbound⟩
  -- one operator more than the bound admits
  have hle := hbound "a.ts" _ _ (keysOf_way "a.ts" (keysOf_spells (bound + 1)))
  rw [List.length_replicate] at hle
  exact absurd hle (Nat.not_succ_le_self bound)

end SourceFile

end ApiSurface
