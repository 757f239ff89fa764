import ApiSurface.Proofs.CarriedDocuments
import ApiSurface.Proofs.Occurrences
import ApiSurface.Proofs.PairedProductions
import ApiSurface.Proofs.StatedDeclarations
/-!
The nodes of a file that may be documented: declarations that statements make, and members of types,
classes and enums. What leads such a node documents either the node or the file, but for two
arrangements of comments before the first statement.
-/
namespace ApiSurface

/-! ### Members in trees that are alike -/

section Trees

variable {L : Likeness}

/-- The documentation of a member goes together with that of another one. -/
def Likeness.Judges (L : Likeness) (m : TypeMember) : Prop :=
  ∃ p doc, L.doc m.span.start p m.doc doc

/-- So does that of all members of object types among some types. -/
def Likeness.JudgesMembers (L : Likeness) (os : List (Standing × TypeExpr)) : Prop :=
  ∀ o ∈ os, ∀ members, o.2.shape = .object members → ∀ m ∈ members, L.Judges m

theorem Likeness.JudgesMembers.nil : L.JudgesMembers [] := nofun

theorem Likeness.JudgesMembers.append {os os' : List (Standing × TypeExpr)}
    (h : L.JudgesMembers os) (h' : L.JudgesMembers os') : L.JudgesMembers (os ++ os') :=
  fun o ho => (List.mem_append.mp ho).elim (h o) (h' o)

theorem Likeness.judges_of_forall₂ {members members' : List TypeMember}
    (h : List.Forall₂ (TypeMember.Alike L) members members') : ∀ m ∈ members, L.Judges m := by
  induction h with
  | nil => exact nofun
  | cons hm _ ih =>
    refine List.forall_mem_cons.mpr ⟨?_, ih⟩
    cases hm with
    | mk _ hdoc _ => exact ⟨_, _, hdoc⟩

open Likeness.JudgesMembers (nil append)

-- one case for each form, as in the trees themselves
mutual

theorem TypeExpr.Alike.judges (s : Standing) : (t : TypeExpr) → {t' : TypeExpr} →
    t.Alike L t' → L.JudgesMembers (t.occurrences s)
  | ⟨_, shape⟩, _, .mk _ hshape =>
    List.forall_mem_cons.mpr ⟨by
      rintro members rfl
      cases hshape with
      | object h => exact Likeness.judges_of_forall₂ h, hshape.judges s shape⟩
termination_by structural t => t

theorem TypeShape.Alike.judges (s : Standing) : (t : TypeShape) → {t' : TypeShape} →
    t.Alike L t' → L.JudgesMembers (t.occurrences s)
  | .reference _ args, _, .reference _ h => judgesMembers_all s args h
  | .query _ args, _, .query _ h => judgesMembers_all s args h
  | .moduleType _ _ args _, _, .moduleType _ _ _ h => judgesMembers_all s args h
  | .union args, _, .union h => judgesMembers_all s args h
  | .intersection args, _, .intersection h => judgesMembers_all s args h
  | .array inner, _, .array h => h.judges s inner
  | .parenthesized inner, _, .parenthesized h => h.judges s inner
  | .operator _ inner, _, .operator _ h => h.judges s inner
  | .infer _ bound, _, .infer _ h => judgesMembers_option s bound h
  | .predicate _ _ bound, _, .predicate _ _ h => judgesMembers_option s bound h
  | .tuple items, _, .tuple h => judgesMembers_items s items h
  | .object members, _, .object h => judgesMembers_members s members h
  | .indexed object index, _, .indexed ho hi => (ho.judges s object).append (hi.judges s index)
  | .conditional check bound whenTrue whenFalse, _, .conditional hc hb ht hf =>
    (((hc.judges s check).append (hb.judges s bound)).append
      (judgesMembers_option s whenTrue ht)).append (judgesMembers_option s whenFalse hf)
  | .mapped _ _ keys rename _ value, _, .mapped _ _ _ hk hr hv =>
    ((hk.judges s keys).append (judgesMembers_option s rename hr)).append
      (judgesMembers_option s value hv)
  | .function signature, _, .function h => h.judges s signature
  | .constructor signature _, _, .constructor _ h => h.judges s signature
  | .keyword _, _, .keyword _ => nil
  | .literal _, _, .literal _ => nil
  | .template, _, .template => nil
  | .unsupported, _, .unsupported => nil
termination_by structural t => t

theorem judgesMembers_all (s : Standing) : (ts : List TypeExpr) → {ts' : List TypeExpr} →
    List.Forall₂ (TypeExpr.Alike L) ts ts' → L.JudgesMembers (occurrencesInAll s ts)
  | [], _, .nil => nil
  | t :: ts, _, .cons h hs => (h.judges s t).append (judgesMembers_all s ts hs)
termination_by structural ts => ts

theorem judgesMembers_option (s : Standing) : (t : Option TypeExpr) →
    {t' : Option TypeExpr} → Option.Rel (TypeExpr.Alike L) t t' →
      L.JudgesMembers (occurrencesInOption s t)
  | none, _, .none => nil
  | some t, _, .some h => h.judges s t
termination_by structural t => t

theorem judgesMembers_items (s : Standing) : (items : List TupleItem) →
    {items' : List TupleItem} → List.Forall₂ (TupleItem.Alike L) items items' →
      L.JudgesMembers (occurrencesInItems s items)
  | [], _, .nil => nil
  | ⟨_, _, _, _, t⟩ :: items, _, .cons (.mk _ _ _ _ h) hs =>
    (h.judges s t).append (judgesMembers_items s items hs)
termination_by structural items => items

theorem judgesMembers_members (s : Standing) : (members : List TypeMember) →
    {members' : List TypeMember} → List.Forall₂ (TypeMember.Alike L) members members' →
      L.JudgesMembers (occurrencesInMembers s members)
  | [], _, .nil => nil
  | ⟨_, _, shape⟩ :: members, _, .cons (.mk _ _ h) hs =>
    (h.judges s shape).append (judgesMembers_members s members hs)
termination_by structural members => members

theorem TypeMemberShape.Alike.judges (s : Standing) : (m : TypeMemberShape) →
    {m' : TypeMemberShape} → m.Alike L m' → L.JudgesMembers (m.occurrences s)
  | .property _ _ _ type, _, .property _ _ _ h => judgesMembers_option s type h
  | .getter _ type, _, .getter _ h => judgesMembers_option s type h
  | .index params type _, _, .index _ hp ht =>
    (judgesMembers_params .key params hp).append (judgesMembers_option s type ht)
  | .method _ _ signature, _, .method _ _ h => h.judges s signature
  | .call signature, _, .call h => h.judges s signature
  | .construct signature, _, .construct h => h.judges s signature
  | .setter _ none, _, .setter _ .none => nil
  | .setter _ (some ⟨_, _, _, _, _, type, initial⟩), _, .setter _ (.some (.mk _ _ _ _ _ ht hx)) =>
    (judgesMembers_option s type ht).append (judgesMembers_initial initial hx)
termination_by structural m => m

theorem Signature.Alike.judges (s : Standing) : (x : Signature) → {x' : Signature} →
    x.Alike L x' → L.JudgesMembers (x.occurrences s)
  | ⟨typeParams, params, returns⟩, _, .mk ht hp hr =>
    ((judgesMembers_typeParams s typeParams ht).append
      (judgesMembers_params s params hp)).append (judgesMembers_option s returns hr)
termination_by structural x => x

theorem judgesMembers_typeParams (s : Standing) : (params : List TypeParam) →
    {params' : List TypeParam} → List.Forall₂ (TypeParam.Alike L) params params' →
      L.JudgesMembers (occurrencesInTypeParams s params)
  | [], _, .nil => nil
  | ⟨_, bound, fallback⟩ :: params, _, .cons (.mk _ hb hf) hs =>
    ((judgesMembers_option s bound hb).append
      (judgesMembers_option s fallback hf)).append (judgesMembers_typeParams s params hs)
termination_by structural params => params

theorem judgesMembers_params (s : Standing) : (params : List Param) →
    {params' : List Param} → List.Forall₂ (Param.Alike L) params params' →
      L.JudgesMembers (occurrencesInParams s params)
  | [], _, .nil => nil
  | ⟨_, _, _, _, _, type, initial⟩ :: params, _, .cons (.mk _ _ _ _ _ ht hx) hs =>
    ((judgesMembers_option s type ht).append (judgesMembers_initial initial hx)).append
      (judgesMembers_params s params hs)
termination_by structural params => params

theorem judgesMembers_initial : (x : Option Expr) → {x' : Option Expr} →
    Option.Rel (Expr.Alike L) x x' → L.JudgesMembers (occurrencesInInitial x)
  | none, _, .none => nil
  | some x, _, .some h => h.judges x
termination_by structural x => x

theorem Expr.Alike.judges : (x : Expr) → {x' : Expr} → x.Alike L x' →
    L.JudgesMembers x.occurrences
  | ⟨_, shape⟩, _, .mk _ h => h.judges shape
termination_by structural x => x

theorem ExprShape.Alike.judges : (x : ExprShape) → {x' : ExprShape} → x.Alike L x' →
    L.JudgesMembers x.occurrences
  | .array items, _, .array h => judgesMembers_exprs items h
  | .object items, _, .object h => judgesMembers_objectItems items h
  | .asserted value type, _, .asserted hv ht =>
    (hv.judges value).append (ht.judges .initializer type)
  | .asConst value, _, .asConst h => h.judges value
  | .unary _ value, _, .unary _ h => h.judges value
  | .function signature _ result _, _, .function _ hs _ hr =>
    (hs.judges .initializer signature).append (judgesMembers_initial result hr)
  | .string _, _, .string _ => nil
  | .number _, _, .number _ => nil
  | .bigInt _, _, .bigInt _ => nil
  | .template _, _, .template _ => nil
  | .true, _, .true => nil
  | .false, _, .false => nil
  | .null, _, .null => nil
  | .entity _, _, .entity _ => nil
  | .new _, _, .new _ => nil
  | .unknown, _, .unknown => nil
termination_by structural x => x

theorem judgesMembers_exprs : (xs : List Expr) → {xs' : List Expr} →
    List.Forall₂ (Expr.Alike L) xs xs' → L.JudgesMembers (occurrencesInExprs xs)
  | [], _, .nil => nil
  | x :: xs, _, .cons h hs => (h.judges x).append (judgesMembers_exprs xs hs)
termination_by structural xs => xs

theorem judgesMembers_objectItems : (items : List ObjectItem) → {items' : List ObjectItem} →
    List.Forall₂ (ObjectItem.Alike L) items items' →
      L.JudgesMembers (occurrencesInObjectItems items)
  | [], _, .nil => nil
  | .property _ value :: items, _, .cons (.property _ h) hs =>
    (h.judges value).append (judgesMembers_objectItems items hs)
  | .method _ signature :: items, _, .cons (.method _ h) hs =>
    (h.judges .initializer signature).append (judgesMembers_objectItems items hs)
  | .shorthand _ :: items, _, .cons (.shorthand _) hs => judgesMembers_objectItems items hs
  | .spread _ :: items, _, .cons (.spread _) hs => judgesMembers_objectItems items hs
termination_by structural items => items

end

theorem ClassMemberShape.Alike.judges {m m' : ClassMemberShape} (h : m.Alike L m') :
    L.JudgesMembers m.occurrences := by
  cases h with
  | property _ _ ht hx => exact (judgesMembers_option .outer _ ht).append (judgesMembers_initial _ hx)
  | getter _ ht => exact judgesMembers_option .outer _ ht
  | index hp ht =>
    exact (judgesMembers_params .key _ hp).append (judgesMembers_option .outer _ ht)
  | method _ _ h => exact h.judges .outer _
  | constructor h => exact h.judges .outer _
  | setter _ h =>
    cases h with
    | none => exact nil
    | some h => exact judgesMembers_params .outer _ (.cons h .nil)
  | unknown => exact nil

theorem judgesMembers_classMembers {members members' : List ClassMember}
    (h : List.Forall₂ (ClassMember.Alike L) members members') :
    L.JudgesMembers (members.flatMap (·.shape.occurrences)) := by
  induction h with
  | nil => exact nil
  | cons h _ ih =>
    rw [List.flatMap_cons]
    exact h.shape.judges.append ih

/-- In declarations that are alike, the documentation of the members of object types goes together. -/
theorem Declaration.Alike.judges {d d' : Declaration} (h : d.Alike L d') :
    L.JudgesMembers d.occurrences := by
  have hshape := h.shape
  unfold Declaration.occurrences
  generalize d.shape = shape, d'.shape = shape' at hshape
  cases hshape with
  | function h => exact h.judges .outer _
  | «variable» _ ht hx =>
    exact (judgesMembers_option .outer _ ht).append (judgesMembers_initial _ hx)
  | typeAlias hp ht => exact (judgesMembers_typeParams .outer _ hp).append (ht.judges .outer _)
  | interface hp hts hm =>
    exact ((judgesMembers_typeParams .outer _ hp).append
      (judgesMembers_all .outer _ hts)).append (judgesMembers_members .outer _ hm)
  | «class» hp ht hts hm =>
    exact (((judgesMembers_typeParams .outer _ hp).append
      (judgesMembers_option .outer _ ht)).append (judgesMembers_all .outer _ hts)).append
        (judgesMembers_classMembers hm)
  | enumMember hx => exact judgesMembers_initial _ hx
  | «enum» _ => exact nil
  | module _ _ => exact nil

end Trees

/-! ### A text along with itself -/

/-- A file goes together with itself. What goes together at a place is what is judged there. -/
def SourceFile.likeness (f : SourceFile) : Likeness where
  start := Eq
  stop := Eq
  doc p _ doc _ := f.Documents p doc
  written _ _ := True

/-- The end of a token is not before its start. -/
theorem Lexer.scan_span_le (l : Lexer) : l.scan.token.span.start ≤ l.scan.token.span.stop := by
  unfold scan
  dsimp only
  split
  · exact Nat.le_refl _
  · exact Nat.le_add_right _ _

theorem Reading.Stands.next {text : List Char} {r : Reading} (h : r.Stands text) :
    r.next.Stands text := by
  obtain ⟨⟨k, hlexer, -⟩, hfirst⟩ := h
  refine ⟨⟨k + 1, ?_, congrArg Lexer.pos hlexer⟩, hfirst⟩
  rw [Function.iterate_succ_apply', ← hlexer]
  rfl

theorem Reading.Stands.atStatement {text : List Char} {r : Reading} (h : r.Stands text) :
    r.atStatement.Stands text := by
  refine ⟨h.scans, ?_⟩
  rw [Reading.atStatement, h.first]
  rfl

/-- A reader goes along with itself. -/
def Pairing.itself (name : String) (text : List Char) : Pairing ⟨name, text⟩ ⟨name, text⟩ where
  toLikeness := (SourceFile.parse name text).likeness
  reads r r' := r = r' ∧ r.Stands text
  stop_of_start h := h
  le_iff h h' := by
    cases h
    cases h'
    rfl
  token := by
    rintro r _ ⟨rfl, ⟨k, hlexer, -⟩, -⟩
    refine ⟨rfl, ⟨rfl, rfl, ?_⟩, fun _ => rfl, rfl, rfl⟩
    rw [hlexer, Function.iterate_succ_apply']
    exact Lexer.scan_span_le _
  lastEnd := by
    rintro r _ p _ ⟨rfl, -⟩ rfl
    rfl
  length_le h := h.1 ▸ Nat.le_refl _
  next h := ⟨congrArg Reading.next h.1, h.2.next⟩
  atStatement h := ⟨congrArg Reading.atStatement h.1, h.2.atStatement⟩
  documents := by
    intro s s' h hkind
    rw [Parse.leadingDocHere_run]
    exact ParseState.documents name h.2 hkind
  fragment _ := trivial
  modules := Eq
  modules_self _ := rfl

namespace SourceFile

variable (name : String) {text : List Char}

/-- A file at whose first token the text ends declares nothing. -/
theorem statementsOf_of_end (hend : (Lexer.ofText text).scan.token.kind = .endOfFile) :
    (statementsOf name text).1 = [] ∧ (statementsOf name text).2.declarations = #[] := by
  have hlist : Parse.Yields ((Productions.ofDepth (text.length + 1)).statementList false)
      ⟨name, text⟩ (ParseState.start text) fun statements s =>
        statements = [] ∧ s.declarations = #[] := by
    refine Parse.collect_yields
      (I := fun statements s => statements = [] ∧ s.declarations = #[] ∧
        s.current.kind = .endOfFile)
      (fun statements s h => ?_) (fun _ _ h => h) (fun _ _ h => h) ⟨rfl, rfl, hend⟩
    obtain ⟨rfl, hnone, hkind⟩ := h
    unfold Productions.statementStep
    refine .isAt ?_
    rw [if_pos (beq_iff_eq.mpr hkind)]
    exact .pure ⟨⟨rfl, hnone⟩, fun h => absurd h Bool.false_ne_true⟩
  exact hlist

/-- In a file, what goes together with itself is what is judged. -/
theorem declarations_alike (text : List Char) : ∀ d ∈ (parse name text).declarations,
    d.Alike (parse name text).likeness d := by
  show ∀ d ∈ (statementsOf name text).2.declarations, _
  by_cases hend : (Lexer.ofText text).scan.token.kind = .endOfFile
  · rw [(statementsOf_of_end name hend).2]
    exact fun d hd => absurd hd (Array.not_mem_empty d)
  · have hdepth := Productions.paired_ofDepth (Pairing.itself name text) (Nat.le_refl (text.length + 1))
    have hlist : Parse.Paired (Pairing.itself name text)
        ((Productions.ofDepth (text.length + 1)).statementList false)
        ((Productions.ofDepth (text.length + 1)).statementList false) := inferInstance
    have hstalled := (statementsOf_progresses name text).1
    rw [statementsOf_noted name hend] at hstalled ⊢
    have hstart := ParseState.start_noted_stands text
    have hstates := (hlist.goes (ParseState.start text).noted (ParseState.start text).noted
      ⟨⟨rfl, hstart⟩, .nil, .nil, rfl, rfl⟩ trivial hstalled).1
    exact fun d hd => List.forall₂_same.mp hstates.declarations d (Array.mem_toList_iff.mpr hd)

/-! ### Nodes -/

/-- At a place a node starts that may be documented, and has some documentation. -/
inductive Node (f : SourceFile) : ℕ → Option String → Prop
  /-- A declaration starts where the statement does that makes it. -/
  | declaration {p : ℕ} {i : DeclIndex} {d : Declaration} :
      StatedAt ⟨f.name, f.text⟩ f.declarations p i → f.declarations[i]? = some d →
        Node f p d.doc
  | enumMember {d : Declaration} {initial : Option Expr} : d ∈ f.declarations →
      d.shape = .enumMember initial → Node f d.span.start d.doc
  | classMember {d : Declaration} {typeParams : List TypeParam} {base : Option TypeExpr}
      {implemented : List TypeExpr} {members : List ClassMember} {m : ClassMember} :
      d ∈ f.declarations → d.shape = .class typeParams base implemented members → m ∈ members →
        Node f m.span.start m.doc
  | interfaceMember {d : Declaration} {typeParams : List TypeParam} {bases : List TypeExpr}
      {members : List TypeMember} {m : TypeMember} : d ∈ f.declarations →
      d.shape = .interface typeParams bases members → m ∈ members → Node f m.span.start m.doc
  /-- A member of an object type, wherever in a declaration the type stands. -/
  | typeMember {d : Declaration} {standing : Standing} {t : TypeExpr} {members : List TypeMember}
      {m : TypeMember} : d ∈ f.declarations → (standing, t) ∈ d.occurrences →
      t.shape = .object members → m ∈ members → Node f m.span.start m.doc

/-- What a statement declares is documented by what leads the statement. -/
theorem documents_of_stated {p : ℕ} {i : DeclIndex} {d : Declaration}
    (h : StatedAt ⟨name, text⟩ (parse name text).declarations p i)
    (hd : (parse name text).declarations[i]? = some d) : (parse name text).Documents p d.doc := by
  obtain ⟨n, s, hs, hkind, rfl, hi, hkeeps⟩ := h
  obtain ⟨e, he, hdoc⟩ := (Productions.ofDepth n).statement_carries ⟨name, text⟩ s i hi
  obtain ⟨span, shape, hkept⟩ := hkeeps i e he
  obtain rfl := Option.some.inj (hd.symm.trans hkept)
  show (parse name text).Documents s.pos e.doc
  rw [hdoc]
  exact ParseState.documents name hs hkind

theorem documents_of_node {p : ℕ} {doc : Option String} (h : (parse name text).Node p doc) :
    (parse name text).Documents p doc := by
  have hall := declarations_alike name text
  cases h with
  | declaration hstated hd => exact documents_of_stated name hstated hd
  | enumMember hd hshape => exact (hall _ hd).doc _ hshape
  | classMember hd hshape hm =>
    have halike := (hall _ hd).shape
    rw [hshape] at halike
    cases halike with
    | «class» _ _ _ hmembers => exact (List.forall₂_same.mp hmembers _ hm).doc
  | interfaceMember hd hshape hm =>
    have halike := (hall _ hd).shape
    rw [hshape] at halike
    cases halike with
    | interface _ _ hmembers =>
      obtain ⟨_, _, hdoc⟩ := Likeness.judges_of_forall₂ hmembers _ hm
      exact hdoc
  | typeMember hd ht hshape hm =>
    obtain ⟨_, _, hdoc⟩ := (hall _ hd).judges _ ht _ hshape _ hm
    exact hdoc

/-- The declarations in the statements of a file, and in the bodies of its modules, come from
statements, or from what stands behind a dot. -/
theorem statements_sourced (text : List Char) :
    (∀ i ∈ declaredIn (parse name text).statements,
        ∃ p, StatedAt ⟨name, text⟩ (parse name text).declarations p i) ∧
      Sourced ⟨name, text⟩ (parse name text).declarations := by
  show (∀ i ∈ declaredIn (statementsOf name text).1,
      ∃ p, StatedAt ⟨name, text⟩ (statementsOf name text).2.declarations p i) ∧
    Sourced ⟨name, text⟩ (statementsOf name text).2.declarations
  by_cases hend : (Lexer.ofText text).scan.token.kind = .endOfFile
  · obtain ⟨hnone, htable⟩ := statementsOf_of_end name hend
    rw [hnone, htable]
    exact ⟨fun i hi => absurd hi List.not_mem_nil, fun d hd => absurd hd (Array.not_mem_empty d)⟩
  · have hstart : (ParseState.start text).noted.IsSourced ⟨name, text⟩ :=
      ⟨ParseState.start_noted_stands text, fun d hd => absurd hd (Array.not_mem_empty d)⟩
    have hlist : Parse.Sourcing ((Productions.ofDepth (text.length + 1)).statementList false) :=
      inferInstance
    rw [statementsOf_noted name hend]
    exact ⟨Productions.Sourcing.statementList_stated _ false _ _ hstart,
      (hlist.sourced _ _ hstart).sourced⟩

/-- Each declaration in the statements of a file, or in the body of a module, comes from a statement,
unless it is a part of a dotted name behind the first. For it, and for every member of a type, a class
or an enum, what leads it documents either it or the file, and not both; this fails in two
arrangements of comments, and in no other. -/
theorem parse_documents (name : String) (text : List Char) :
    let f := parse name text
    (∀ i ∈ declaredIn f.statements, ∃ p, StatedAt ⟨name, text⟩ f.declarations p i) ∧
      Sourced ⟨name, text⟩ f.declarations ∧ ∀ p doc, f.Node p doc → f.Documents p doc := by
  obtain ⟨hstated, hsourced⟩ := statements_sourced name text
  exact ⟨hstated, hsourced, fun p doc h => documents_of_node name h⟩

/-! ### Documentation that is lost -/

/-- A text in which the first comment documents nothing: a blank line parts it from the statement, but
not from the comment behind it. -/
def lostDocument : List Char := "/** A */\n// x\n\nexport const v = 1;".toList

/-- What stays of an entry of a table when it is completed. -/
def keptParts (d : Declaration) : Ident × Modifiers × Option String × Option DeclIndex :=
  (d.name, d.modifiers, d.doc, d.parent)

theorem tableKeeps_of_kept {table table' : Array Declaration}
    (h : table.toList.map keptParts = table'.toList.map keptParts) : TableKeeps table table' := by
  intro i d hd
  have hkept := congrArg (·[i]?) h
  rw [List.getElem?_map, List.getElem?_map, Array.getElem?_toList, Array.getElem?_toList, hd] at hkept
  obtain ⟨d', hd', heq⟩ := Option.map_eq_some_iff.mp hkept.symm
  obtain ⟨name, span, modifiers, doc, shape, parent⟩ := d
  obtain ⟨name', span', modifiers', doc', shape', parent'⟩ := d'
  obtain ⟨rfl, rfl, rfl, rfl⟩ : name' = name ∧ modifiers' = modifiers ∧ doc' = doc ∧
      parent' = parent := by simpa [keptParts] using heq
  exact ⟨span', shape', hd'⟩

theorem lostDocument_leads : (parse "a.ts" lostDocument).Leads ⟨⟨0, 8⟩, true, true⟩ 15 := by
  have hcomments : (parse "a.ts" lostDocument).comments =
      #[⟨⟨0, 8⟩, true, true⟩, ⟨⟨9, 13⟩, false, true⟩] := by decide +kernel
  refine ⟨by simp [hcomments], by decide +kernel, by decide, by decide +kernel, ?_⟩
  intro d hd hdoc _
  rw [hcomments] at hd
  have hall : d = ⟨⟨0, 8⟩, true, true⟩ ∨ d = ⟨⟨9, 13⟩, false, true⟩ := by simpa using hd
  rcases hall with rfl | rfl
  · exact Nat.le_refl _
  · exact absurd hdoc (by decide +kernel)

theorem lostDocument_node : (parse "a.ts" lostDocument).Node 15 none := by
  have hstated : StatedAt ⟨"a.ts", lostDocument⟩ (parse "a.ts" lostDocument).declarations 15 0 :=
    ⟨lostDocument.length + 1, (ParseState.start lostDocument).noted,
      ParseState.start_noted_stands lostDocument, by decide +kernel, by decide +kernel,
      by decide +kernel, tableKeeps_of_kept (by decide +kernel)⟩
  have hdoc : ((parse "a.ts" lostDocument).declarations[0]?).map (·.doc) = some none := by
    decide +kernel
  obtain ⟨d, hd, hnone⟩ := Option.map_eq_some_iff.mp hdoc
  exact hnone ▸ .declaration hstated hd

/-- The comment before the only statement is used for neither the statement nor the file. -/
theorem parse_loses_document : ∃ c p doc, (parse "a.ts" lostDocument).Leads c p ∧
    (parse "a.ts" lostDocument).Node p doc ∧
      ¬ (parse "a.ts" lostDocument).DocumentsOnce c p doc := by
  refine ⟨_, _, _, lostDocument_leads, lostDocument_node, ?_⟩
  have hdoc : (parse "a.ts" lostDocument).doc = none := by decide +kernel
  rintro (⟨hnode, -⟩ | ⟨-, ⟨-, hfile⟩, -⟩)
  · cases hnode
  · rw [hdoc] at hfile
    cases hfile

-- behind a space that is read as a name, a tagged comment documents the statement and the file
example : (parse "a.ts" "\xa0\n/** @module A */\nexport const v = 1;".toList).doc.isSome = true ∧
    ((parse "a.ts" "\xa0\n/** @module A */\nexport const v = 1;".toList).declarations.map
      (·.doc.isSome)) = #[true] := by decide +kernel

end SourceFile

end ApiSurface
