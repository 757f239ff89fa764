import ApiSurface.Program
import ApiSurface.Proofs.GrownTables
/-!
The declarations of a file form a forest: each stands in the statements at the top or in the body of
one other declaration, its parent, which comes before it in the table. So every way up from a
declaration ends at the top.
-/
namespace ApiSurface.SourceFile

/-- The declarations of a file form a forest, in which the roots are those at the top and the
children of a module or an enum are those in its body. -/
structure IsForest (f : SourceFile) : Prop where
  /-- All lists of declarations together hold each index of the table exactly once, and no other. -/
  once : (f.topLevel ++ f.declarations.toList.flatMap Declaration.children).Perm
    (List.range f.declarations.size)
  /-- The declarations without a parent are those at the top. -/
  root : ∀ (i : DeclIndex) (d : Declaration), f.declaration? i = some d →
    (d.parent = none ↔ i ∈ f.topLevel)
  /-- The parent of a declaration is the one whose body lists it. -/
  child : ∀ (i : DeclIndex) (d : Declaration), f.declaration? i = some d → ∀ j,
    d.parent = some j ↔ ∃ e, f.declaration? j = some e ∧ i ∈ e.children
  /-- A parent comes before its children. -/
  older : ∀ (i : DeclIndex) (d : Declaration), f.declaration? i = some d → ∀ j,
    d.parent = some j → j < i

/-- The way from a declaration up to one at the top, from parent to parent, each of which is
found. -/
inductive Climbs (f : SourceFile) : DeclIndex → List DeclIndex → Prop
  | root {i : DeclIndex} {d : Declaration} : f.declaration? i = some d → d.parent = none →
      Climbs f i [i]
  | child {i j : DeclIndex} {d : Declaration} {above : List DeclIndex} :
      f.declaration? i = some d → d.parent = some j → Climbs f j above → Climbs f i (i :: above)

variable {f : SourceFile}

theorem enclosing_eq {i : DeclIndex} {d : Declaration} (hd : f.declaration? i = some d) :
    f.enclosing i = i :: d.parent.elim [] fun j => if j < i then f.enclosing j else [] := by
  rw [enclosing, hd, Option.bind_some]
  cases d.parent with
  | none => rfl
  | some j => rfl

namespace IsForest

/-- The declarations around one are all that lie on the way up from it, and the way ends. -/
theorem climbs (h : f.IsForest) (i : DeclIndex) (hi : i < f.declarations.size) :
    f.Climbs i (f.enclosing i) := by
  induction i using Nat.strong_induction_on with
  | _ i ih =>
    have hd : f.declaration? i = some f.declarations[i] := Array.getElem?_eq_getElem hi
    rw [enclosing_eq hd]
    cases hparent : f.declarations[i].parent with
    | none => exact .root hd hparent
    | some j =>
      have hlt := h.older i _ hd j hparent
      rw [Option.elim, if_pos hlt]
      exact .child hd hparent (ih j hlt (Nat.lt_trans hlt hi))

/-- All on the way up from a declaration come before it, and are found. -/
theorem of_mem_climbs (h : f.IsForest) {i : DeclIndex} {above : List DeclIndex}
    (hclimbs : f.Climbs i above) {j : DeclIndex} (hj : j ∈ above) :
    j ≤ i ∧ ∃ d, f.declaration? j = some d := by
  induction hclimbs with
  | root hd hparent =>
    rw [List.mem_singleton.mp hj]
    exact ⟨Nat.le_refl _, _, hd⟩
  | child hd hparent habove ih =>
    rcases List.mem_cons.mp hj with rfl | hj
    · exact ⟨Nat.le_refl _, _, hd⟩
    · exact ⟨Nat.le_trans (ih hj).1 (Nat.le_of_lt (h.older _ _ hd _ hparent)), (ih hj).2⟩

theorem of_mem_around (h : f.IsForest) {i : DeclIndex} {above : List DeclIndex}
    (hclimbs : f.Climbs i above) {j : DeclIndex} (hj : j ∈ above.tail) :
    j < i ∧ ∃ d, f.declaration? j = some d := by
  cases hclimbs with
  | root hd hparent => exact absurd hj List.not_mem_nil
  | child hd hparent habove =>
    have hfound := h.of_mem_climbs habove hj
    exact ⟨Nat.lt_of_le_of_lt hfound.1 (h.older _ _ hd _ hparent), hfound.2⟩

/-- The scope of a declaration is the file, or a module that comes before it. -/
theorem scope_found (h : f.IsForest) (i : DeclIndex) (hi : i < f.declarations.size)
    (file : FileIndex) : f.scopeOf file i = .file file ∨
      ∃ j d, f.scopeOf file i = .declaration file j ∧ j < i ∧ f.declaration? j = some d ∧
        d.naming?.isSome := by
  unfold scopeOf
  cases hfind : (f.enclosing i).tail.find? fun j =>
      ((f.declaration? j).bind (·.naming?)).isSome with
  | none => exact Or.inl rfl
  | some j =>
    obtain ⟨hlt, d, hd⟩ := h.of_mem_around (h.climbs i hi) (List.mem_of_find?_eq_some hfind)
    have hmodule := List.find?_some hfind
    rw [hd] at hmodule
    exact Or.inr ⟨j, d, rfl, hlt, hd, hmodule⟩

/-- A table that parsing grew from nothing, with the statements that list its roots. -/
theorem of_grows {s s' : ParseState} (hs : s.declarations = #[])
    (h : s.Grows s' none f.topLevel) (hf : f.declarations = s'.declarations) : f.IsForest := by
  obtain ⟨new, h⟩ := h
  have hsize : s.declarations.size = 0 := congrArg Array.size hs
  have hnew : s'.declarations.toList = new := by
    rw [h.table, hs]
    rfl
  have hall := h.once
  rw [hsize, ← hnew, Array.length_toList, ← List.range_eq_range', ← hf] at hall
  -- the lists hold no other entries than what parsing says of their parents
  have hroot {i : DeclIndex} {d : Declaration} (hd : f.declaration? i = some d)
      (hi : i ∈ f.topLevel) : d.parent = none := by
    obtain ⟨e, he, hparent⟩ := h.own i hi
    rw [declaration?, hf, he] at hd
    exact Option.some.inj hd ▸ hparent
  have hchild {i j : DeclIndex} {d e : Declaration} (hd : f.declaration? i = some d)
      (he : f.declaration? j = some e) (hi : i ∈ e.children) : j < i ∧ d.parent = some j := by
    rw [declaration?, hf] at hd he
    obtain ⟨hlt, d', hd', hparent⟩ := h.inner j e (hsize ▸ Nat.zero_le j) he i hi
    exact ⟨hlt, Option.some.inj (hd'.symm.trans hd) ▸ hparent⟩
  -- and each entry is in one of them
  have hlisted {i : DeclIndex} {d : Declaration} (hd : f.declaration? i = some d) :
      i ∈ f.topLevel ∨ ∃ j e, f.declaration? j = some e ∧ i ∈ e.children := by
    have hmem := hall.symm.subset (List.mem_range.mpr (Array.getElem?_eq_some_iff.mp hd).1)
    refine (List.mem_append.mp hmem).imp_right fun hmem => ?_
    obtain ⟨e, he, hi⟩ := List.mem_flatMap.mp hmem
    obtain ⟨j, hj⟩ := List.mem_iff_getElem?.mp he
    rw [Array.getElem?_toList] at hj
    exact ⟨j, e, hj, hi⟩
  have hparent (i : DeclIndex) (d : Declaration) (hd : f.declaration? i = some d)
      (j : DeclIndex) (hj : d.parent = some j) :
      ∃ e, f.declaration? j = some e ∧ i ∈ e.children := by
    rcases hlisted hd with hi | ⟨k, e, he, hi⟩
    · rw [hroot hd hi] at hj
      cases hj
    · obtain rfl : k = j := Option.some.inj ((hchild hd he hi).2.symm.trans hj)
      exact ⟨e, he, hi⟩
  constructor
  case once => exact hall
  case root =>
    refine fun i d hd => ⟨fun hnone => ?_, hroot hd⟩
    rcases hlisted hd with hi | ⟨j, e, he, hi⟩
    · exact hi
    · rw [(hchild hd he hi).2] at hnone
      cases hnone
  case child =>
    exact fun i d hd j => ⟨hparent i d hd j, fun ⟨e, he, hi⟩ => (hchild hd he hi).2⟩
  case older =>
    intro i d hd j hj
    obtain ⟨e, he, hi⟩ := hparent i d hd j hj
    exact (hchild hd he hi).1

end IsForest

/-- Whatever the text, the declarations of its file form a forest. From each of them the ways up
that names and scopes are looked up on end, and lead over declarations of the file only. -/
theorem parse_forest (name : String) (text : List Char) :
    (parse name text).IsForest ∧
      ∀ i : Fin (parse name text).declarations.size,
        (parse name text).Climbs i ((parse name text).enclosing i) ∧
          ∀ file, (parse name text).scopeOf file i = .file file ∨
            ∃ j d, (parse name text).scopeOf file i = .declaration file j ∧ j < i ∧
              (parse name text).declaration? j = some d ∧ d.naming?.isSome := by
  have hforest : (parse name text).IsForest := by
    have hgrows : (ParseState.start text).Lists (statementsOf name text).2
        (declaredIn (statementsOf name text).1) :=
      Productions.statementList_grows (Productions.ofDepth_growing (text.length + 1))
        (ParseState.next_ordered _) false
    exact .of_grows rfl hgrows rfl
  exact ⟨hforest, fun i => ⟨hforest.climbs i i.isLt, hforest.scope_found i i.isLt⟩⟩

/-- In a dotted module each part is the child of the one before, and in them stand an enum, its
member and a constant. -/
example : (parse "a.ts" "namespace A.B \x7b enum E \x7b X \x7d let y \x7d".toList).declarations.map
    (·.parent) = #[none, some 0, some 1, some 2, some 1] := by
  decide +kernel

end ApiSurface.SourceFile
