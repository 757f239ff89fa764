import ApiSurface.Proofs.ParsedFiles
/-!
How parsing grows the table of declarations. What a production enters is a forest of its own: the
new declarations that it gives back belong to the body it stands in, and each other one is named in
the body of exactly one of them, which is its parent and stands before it.
-/
namespace ApiSurface

/-- The declarations among some statements. -/
def declaredIn (statements : List Statement) : List DeclIndex :=
  statements.filterMap fun
    | .declaration i => some i
    | _ => none

theorem declaredIn_append (statements others : List Statement) :
    declaredIn (statements ++ others) = declaredIn statements ++ declaredIn others :=
  List.filterMap_append

theorem declaredIn_declarations (indices : List DeclIndex) :
    declaredIn (indices.map .declaration) = indices := by
  rw [declaredIn, List.filterMap_map]
  exact List.filterMap_some

/-- The declarations in the body of a module or the list of an enum. -/
def Declaration.children (d : Declaration) : List DeclIndex :=
  match d.shape with
  | .enum members => members
  | .module _ (some statements) => declaredIn statements
  | _ => []

theorem Declaration.children_module (d : Declaration) (span : Span) (naming : ModuleNaming)
    (body : Option (List Statement)) :
    ({ d with span, shape := .module naming body } : Declaration).children =
      (body.map declaredIn).getD [] := by
  cases body <;> rfl

theorem Declaration.children_of_leaf {d : Declaration} (h : d.shape.IsLeaf) : d.children = [] := by
  unfold children
  split
  · next members hshape =>
    rw [hshape] at h
    exact h.elim
  · next naming statements hshape =>
    rw [hshape] at h
    exact h.elim
  · rfl

namespace ParseState

/-- From one state to another, the declarations `new` were entered. Those that are listed belong to
`parent`, and each of the others is named by one of the new ones, its parent. -/
structure Enters (s s' : ParseState) (parent : Option DeclIndex) (listed : List DeclIndex)
    (new : List Declaration) : Prop where
  ordered : s'.Ordered
  table : s'.declarations.toList = s.declarations.toList ++ new
  once : (listed ++ new.flatMap Declaration.children).Perm
    (List.range' s.declarations.size new.length)
  own : ∀ i ∈ listed, ∃ d, s'.declarations[i]? = some d ∧ d.parent = parent
  inner : ∀ (j : DeclIndex) (e : Declaration), s.declarations.size ≤ j →
    s'.declarations[j]? = some e → ∀ i ∈ e.children,
      j < i ∧ ∃ d, s'.declarations[i]? = some d ∧ d.parent = some j
  context : s'.context = s.context

/-- From one state to another, declarations were entered, of which the listed ones belong to
`parent`. -/
def Grows (s s' : ParseState) (parent : Option DeclIndex) (listed : List DeclIndex) : Prop :=
  ∃ new, s.Enters s' parent listed new

/-- From one state to another, declarations were entered, of which the listed ones belong to the
body that the parser stands in. -/
def Lists (s s' : ParseState) (listed : List DeclIndex) : Prop :=
  s.Grows s' s.context.parent listed

variable {s s₁ s' : ParseState} {parent : Option DeclIndex} {listed more : List DeclIndex}
  {new : List Declaration}

theorem Enters.kept (h : s.Enters s' parent listed new) {i : DeclIndex} {d : Declaration}
    (hd : s.declarations[i]? = some d) : s'.declarations[i]? = some d := by
  rw [← Array.getElem?_toList] at hd ⊢
  rw [h.table, List.getElem?_append_left (List.getElem?_eq_some_iff.mp hd).1, hd]

theorem Enters.size (h : s.Enters s' parent listed new) :
    s'.declarations.size = s.declarations.size + new.length := by
  rw [← Array.length_toList, h.table, List.length_append, Array.length_toList]

theorem Grows.ordered (h : s.Grows s' parent listed) : s'.Ordered :=
  let ⟨_, h⟩ := h
  h.ordered

theorem Grows.context (h : s.Grows s' parent listed) : s'.context = s.context :=
  let ⟨_, h⟩ := h
  h.context

theorem Passes.grows (h : s.Passes s') (parent : Option DeclIndex) : s.Grows s' parent [] := by
  refine ⟨[], h.ordered, by rw [h.declarations, List.append_nil], .nil, nofun, fun j e hle he => ?_,
    h.context⟩
  rw [h.declarations, Array.getElem?_eq_none hle] at he
  cases he

theorem Passes.lists (h : s.Passes s') : s.Lists s' [] := h.grows _

theorem Grows.append (h : s.Grows s₁ parent listed) (h' : s₁.Grows s' parent more) :
    s.Grows s' parent (listed ++ more) := by
  obtain ⟨new, h⟩ := h
  obtain ⟨others, h'⟩ := h'
  refine ⟨new ++ others, ?_⟩
  constructor
  case ordered => exact h'.ordered
  case table => rw [h'.table, h.table, List.append_assoc]
  case once =>
    have hrange : List.range' s.declarations.size (new ++ others).length =
        List.range' s.declarations.size new.length ++
          List.range' s₁.declarations.size others.length := by
      rw [h.size, List.length_append, List.range'_append_1]
    rw [hrange, List.flatMap_append]
    refine .trans ?_ (h.once.append h'.once)
    simp only [List.append_assoc]
    refine .append_left listed ?_
    rw [← List.append_assoc, ← List.append_assoc]
    exact .append_right _ List.perm_append_comm
  case own =>
    intro i hi
    rcases List.mem_append.mp hi with hi | hi
    · obtain ⟨d, hd, hparent⟩ := h.own i hi
      exact ⟨d, h'.kept hd, hparent⟩
    · exact h'.own i hi
  case inner =>
    intro j e hle he i hi
    rcases Nat.lt_or_ge j s₁.declarations.size with hlt | hge
    -- what the first part entered is still there
    · have he₁ := Array.getElem?_eq_getElem hlt
      rw [h'.kept he₁, ← he₁] at he
      obtain ⟨hji, d, hd, hparent⟩ := h.inner j e hle he i hi
      exact ⟨hji, d, h'.kept hd, hparent⟩
    · exact h'.inner j e hge he i hi
  case context => exact h'.context.trans h.context

theorem Grows.after (h : s₁.Grows s' parent listed) (hs : s.Passes s₁) :
    s.Grows s' parent listed := (hs.grows parent).append h

theorem Grows.andThen (h : s.Grows s₁ parent listed) (hs : s₁.Passes s') :
    s.Grows s' parent listed := by
  have hall := h.append (hs.grows parent)
  rwa [List.append_nil] at hall

theorem Lists.append (h : s.Lists s₁ listed) (h' : s₁.Lists s' more) :
    s.Lists s' (listed ++ more) := by
  unfold Lists at h'
  rw [h.context] at h'
  exact Grows.append h h'

theorem Lists.after (h : s₁.Lists s' listed) (hs : s.Passes s₁) : s.Lists s' listed :=
  hs.lists.append h

theorem Lists.andThen (h : s.Lists s₁ listed) (hs : s₁.Passes s') : s.Lists s' listed :=
  Grows.andThen h hs

theorem Lists.stall (h : s.Lists s' listed) : s.Lists { s' with stalled := true } listed :=
  h.andThen (.stall h.ordered)

/-- Behind a body, what was listed in it belongs to its declaration. -/
theorem Lists.outOf {i : DeclIndex} (h : (s.inBody i).Lists s' listed) :
    s.Grows (s'.outOf s) (some i) listed := by
  obtain ⟨new, h⟩ := h
  refine ⟨new, h.ordered.of_eq rfl, h.table, h.once, h.own, h.inner, ?_⟩
  rw [ParseState.outOf, h.context]
  rfl

/-- The state with one more declaration in the table. -/
def entered (s : ParseState) (d : Declaration) : ParseState :=
  { s with declarations := s.declarations.push d }

/-- A declaration that is entered before what is declared in it, and completed after that. -/
theorem grows_body {d : Declaration}
    (h : (s.entered d).Grows s' (some s.declarations.size) listed)
    (change : Declaration → Declaration) (hparent : (change d).parent = parent)
    (hchildren : (change d).children = listed) :
    s.Grows { s' with declarations := s'.declarations.modify s.declarations.size change } parent
      [s.declarations.size] := by
  obtain ⟨new, h⟩ := h
  let k := s.declarations.size
  have htable : s'.declarations.toList = s.declarations.toList ++ d :: new := by
    rw [h.table, entered, Array.toList_push, List.append_assoc, List.singleton_append]
  have hd : s'.declarations[k]? = some d := h.kept Array.getElem?_push_size
  have hsize : (s.entered d).declarations.size = k + 1 := Array.size_push ..
  -- only the entry of the declaration itself changes
  have hsame {i : DeclIndex} (hi : k < i) :
      (s'.declarations.modify k change)[i]? = s'.declarations[i]? := by
    rw [Array.getElem?_modify, if_neg (Nat.ne_of_lt hi)]
  have hself : (s'.declarations.modify k change)[k]? = some (change d) := by
    rw [Array.getElem?_modify, if_pos rfl, hd, Option.map_some]
  have hlater {i : DeclIndex} (hi : i ∈ listed) : k < i := by
    have hrange := h.once.subset (List.mem_append_left _ hi)
    rw [List.mem_range'_1, hsize] at hrange
    exact hrange.1
  refine ⟨change d :: new, ?_⟩
  constructor
  case ordered => exact h.ordered.of_eq rfl
  case context => exact h.context
  case table =>
    have hlt : s.declarations.size < (s.declarations.toList ++ d :: new).length := by simp
    rw [Array.toList_modify, htable, List.modify_eq_take_cons_drop hlt]
    simp [List.drop_append]
  case once =>
    have hwithin := h.once
    rw [hsize] at hwithin
    rw [List.flatMap_cons, hchildren, List.singleton_append, List.length_cons, List.range'_succ]
    exact hwithin.cons k
  case own =>
    intro i hi
    rw [List.mem_singleton.mp hi]
    exact ⟨change d, hself, hparent⟩
  case inner =>
    intro j e hle he i hi
    rcases Nat.eq_or_lt_of_le hle with rfl | hlt
    · obtain rfl := Option.some.inj (hself.symm.trans he)
      rw [hchildren] at hi
      rw [hsame (hlater hi)]
      exact ⟨hlater hi, h.own i hi⟩
    · rw [hsame hlt] at he
      obtain ⟨hji, hparent⟩ := h.inner j e (hsize ▸ hlt) he i hi
      rw [hsame (Nat.lt_trans hlt hji)]
      exact ⟨hji, hparent⟩

/-- A declaration that nothing is declared in. -/
theorem grows_leaf {d : Declaration} (hs : s.Ordered) (hd : d.children = []) :
    s.Grows (s.entered d) d.parent [s.declarations.size] := by
  refine ⟨[d], hs.of_eq rfl, Array.toList_push .., ?_, fun i hi => ?_, fun j e hle he => ?_, rfl⟩
  · rw [List.flatMap_singleton, hd]
    exact .refl _
  · rw [List.mem_singleton.mp hi]
    exact ⟨d, Array.getElem?_push_size, rfl⟩
  · have hlt : j < (s.declarations.push d).size := (Array.getElem?_eq_some_iff.mp he).1
    rw [Array.size_push] at hlt
    obtain rfl : j = s.declarations.size := Nat.le_antisymm (Nat.le_of_lt_succ hlt) hle
    obtain rfl := Option.some.inj (Array.getElem?_push_size.symm.trans he)
    rw [hd]
    exact nofun

end ParseState

namespace Parse

variable {β : Type} {c : Setting} {s s₁ : ParseState} {name : Ident} {span : Span}
  {modifiers : Modifiers} {doc : Option String} {shape : DeclarationShape}

theorem Yields.declare {f : DeclIndex → Parse β} {Q : β → ParseState → Prop} (hs : s.Ordered)
    (h : ∀ (d : Declaration) (s' : ParseState), d.parent = s.context.parent → s' = s.entered d →
      s'.Ordered → Yields (f s.declarations.size) c s' Q) :
    Yields (declare name span modifiers doc shape >>= f) c s Q :=
  h ⟨name, span, modifiers, doc, shape, s.context.parent⟩ _ rfl rfl (hs.of_eq rfl)

/-- A declaration that nothing is declared in. -/
theorem declare_grows (hs : s.Passes s₁) (hleaf : shape.IsLeaf) :
    Yields (declare name span modifiers doc shape) c s₁ fun i s' => s.Lists s' [i] :=
  have hlists : s₁.Lists (declare name span modifiers doc shape c s₁).2 [s₁.declarations.size] :=
    ParseState.grows_leaf hs.ordered (Declaration.children_of_leaf hleaf)
  hlists.after hs

/-- A declaration that is completed after what is declared in it. -/
theorem complete_grows {s₂ s₃ : ParseState} {d : Declaration} {listed : List DeclIndex}
    (hs : s.Passes s₁) (hparent : d.parent = s₁.context.parent) (hopen : s₂ = s₁.entered d)
    (h : s₂.Grows s₃ (some s₁.declarations.size) listed)
    (hchildren : ({ d with span, shape } : Declaration).children = listed) :
    Yields (complete s₁.declarations.size span shape) c s₃ fun _ s' =>
      s.Lists s' [s₁.declarations.size] := by
  subst hopen
  have hlists : s₁.Lists (complete s₁.declarations.size span shape c s₃).2
      [s₁.declarations.size] :=
    ParseState.grows_body h (fun e => { e with span, shape }) hparent hchildren
  exact hlists.after hs

end Parse

namespace Productions

open Parse ParseState

/-- What statements and modules within themselves enter belongs to the body that they stand in. -/
structure Growing (g : Productions) : Prop where
  statements : ∀ (c : Setting) (s : ParseState), s.Ordered →
    Yields g.statements c s fun statements s' => s.Lists s' (declaredIn statements)
  module : ∀ (c : Setting) (s : ParseState) (start : ℕ) (doc : Option String)
    (modifiers : Modifiers), s.Ordered →
    Yields (g.module start doc modifiers) c s fun i s' => s.Lists s' [i]

variable {g : Productions} {c : Setting} {s s₁ : ParseState}

/-! ### Modules -/

theorem moduleBody_grows (hg : g.Growing) (hs : s.Passes s₁) (start : ℕ) (doc : Option String)
    (modifiers : Modifiers) (name : Ident) (naming : ModuleNaming) :
    Yields (g.moduleBody start doc modifiers name naming) c s₁ fun i s' =>
      s.Lists s' [i] := by
  unfold moduleBody
  refine .declare hs.ordered fun d s₂ hparent hopen h₂ => ?_
  extract_lets tail
  -- both branches go on to complete the declaration
  have htail {body : Option (List Statement)} {s' : ParseState}
      (h : s₂.Grows s' (some s₁.declarations.size) ((body.map declaredIn).getD [])) :
      Yields (tail body) c s' fun i s' => s.Lists s' [i] := by
    refine .bind (Passing.yields h.ordered) fun span s₃ h₃ => ?_
    refine .bind (complete_grows hs hparent hopen (h.andThen h₃) ?_) fun _ s₄ h₄ => .pure h₄
    exact Declaration.children_module d span naming body
  refine .bind (Passing.yields h₂) fun isOpen s₃ h₃ => ?_
  split
  · refine .inBodyOf (hg.statements _ _ (h₃.ordered.of_eq rfl)) fun statements s₄ h₄ => ?_
    have h₄ := h₄.outOf
    exact .bind (Passing.yields h₄.ordered) fun _ s₅ h₅ => htail ((h₄.after h₃).andThen h₅)
  · exact .pass h₃ fun _ s₄ h₄ => htail (h₄.grows _)

theorem moduleProduction_grows (hg : g.Growing) (hs : s.Passes s₁) (start : ℕ)
    (doc : Option String) (modifiers : Modifiers) :
    Yields (g.moduleProduction start doc modifiers) c s₁ fun i s' => s.Lists s' [i] := by
  unfold moduleProduction
  refine .isAt ?_
  split
  · exact .pass hs fun name s₂ h₂ => moduleBody_grows hg h₂ start doc modifiers name .string
  · refine .pass hs fun name s₂ h₂ => .isAt ?_
    split
    · refine .declare h₂.ordered fun d s₃ hparent hopen h₃ => .pass (.refl h₃) fun _ s₄ h₄ => ?_
      extract_lets inner
      refine .look fun position => ?_
      refine .inBodyOf (hg.module _ _ position none inner (h₄.ordered.of_eq rfl)) fun j s₅ h₅ => ?_
      have h₅ := h₅.outOf
      refine .bind (Passing.yields h₅.ordered) fun span s₆ h₆ => ?_
      -- the module around has the one within for its whole body
      refine .bind (complete_grows h₂ hparent hopen ((h₅.after h₄).andThen h₆) ?_)
        fun _ s₇ h₇ => .pure h₇
      exact Declaration.children_module d span .identifier (some [.declaration j])
    · exact moduleBody_grows hg h₂ start doc modifiers name .identifier

/-! ### Enums -/

variable [Quiet g]

theorem enumMember_grows (hs : s.Ordered) :
    Yields g.enumMember c s fun r s' => s.Lists s' r.1 := by
  unfold enumMember
  refine .isAtAny ?_
  split
  · exact .pure (Passes.refl hs).lists
  · refine .pass (.refl hs) fun doc s₁ h₁ => .pass h₁ fun start s₂ h₂ => .isAtAny ?_
    split
    · refine .pass h₂ fun name s₃ h₃ => .pass h₃ fun initial s₄ h₄ => .pass h₄ fun span s₅ h₅ => ?_
      refine .bind (declare_grows h₅ (by trivial)) fun i s₆ h₆ => ?_
      exact .bind (Passing.yields h₆.ordered) fun more s₇ h₇ => .pure (h₆.andThen h₇)
    · exact .pass h₂ fun _ s₃ h₃ => .pass h₃ fun _ s₄ h₄ => .pure h₄.lists

theorem enumDeclaration_grows (hs : s.Ordered) (start : ℕ) (doc : Option String)
    (modifiers : Modifiers) :
    Yields (g.enumDeclaration start doc modifiers) c s fun i s' => s.Lists s' [i] := by
  unfold enumDeclaration
  refine .pass (.refl hs) fun _ s₁ h₁ => .pass h₁ fun name s₂ h₂ =>
    .declare h₂.ordered fun d s₃ hparent hopen h₃ => ?_
  let s₀ := s₃.inBody s₂.declarations.size
  refine .inBodyOf (P := fun members s' => s₀.Lists s' members) ?_ fun members s₄ h₄ => ?_
  · refine .bind (Passing.yields (h₃.of_eq rfl)) fun isOpen s₄ h₄ => ?_
    split
    · refine .bind (collect_yields (I := fun members s' => s₀.Lists s' members)
        (R := fun members s' => s₀.Lists s' members) (fun members s' h => ?_)
        (fun _ _ h => h.stall) (fun _ _ h => h.stall) h₄.lists)
        fun members s₅ h₅ => .bind (Passing.yields h₅.ordered) fun _ s₆ h₆ => .pure (h₅.andThen h₆)
      exact (enumMember_grows h.ordered).mono fun r s'' hr => ⟨h.append hr, fun _ => h.append hr⟩
    · exact .pure h₄.lists
  · have h₄ := h₄.outOf
    refine .bind (Passing.yields h₄.ordered) fun span s₅ h₅ => ?_
    exact .bind (complete_grows h₂ hparent hopen (h₄.andThen h₅) rfl) fun _ s₆ h₆ => .pure h₆

/-! ### Other declarations -/

/-- The name of a function or class after its keyword, or the keyword in its place. -/
theorem name_or_keyword_grows {tail : Ident → Parse DeclIndex} {Q : DeclIndex → ParseState → Prop}
    (hs : s.Passes s₁)
    (htail : ∀ (name : Ident) (s' : ParseState), s.Passes s' → Yields (tail name) c s' Q)
    (named : Bool) (modifiers : Modifiers) (keyword : Ident) :
    Yields (if named = true then do
        let name ← identifier
        tail name
      else if (!modifiers.contains .default) = true then do
        let _ ← identifier
        tail keyword
      else tail keyword) c s₁ Q := by
  split
  · exact .pass hs fun name s₂ h₂ => htail name s₂ h₂
  · split
    · exact .pass hs fun _ s₂ h₂ => htail keyword s₂ h₂
    · exact htail keyword s₁ hs

theorem functionDeclaration_grows (hs : s.Ordered) (start : ℕ) (doc : Option String)
    (modifiers : Modifiers) :
    Yields (g.functionDeclaration start doc modifiers) c s fun i s' => s.Lists s' [i] := by
  unfold functionDeclaration
  refine .current (.pass (.refl hs) fun _ s₁ h₁ => .pass h₁ fun _ s₂ h₂ =>
    .pass h₂ fun named s₃ h₃ => ?_)
  refine name_or_keyword_grows h₃ (fun name s₄ h₄ => ?_) named modifiers _
  exact .pass h₄ fun signature s₅ h₅ => .pass h₅ fun body s₆ h₆ => .pass h₆ fun span s₇ h₇ =>
    declare_grows h₇ (by trivial)

theorem declarator_grows (hs : s.Ordered) (kind : VariableKind) (doc : Option String)
    (modifiers : Modifiers) :
    Yields (g.declarator kind doc modifiers) c s fun is s' => s.Lists s' is := by
  unfold declarator
  refine .pass (.refl hs) fun _ s₁ h₁ => ?_
  split
  · exact .pass h₁ fun _ s₂ h₂ => .pass h₂ fun _ s₃ h₃ => .pass h₃ fun _ s₄ h₄ =>
      .pure h₄.lists
  · refine .pass h₁ fun name s₂ h₂ => .pass h₂ fun _ s₃ h₃ => .pass h₃ fun type s₄ h₄ =>
      .pass h₄ fun initial s₅ h₅ => .pass h₅ fun span s₆ h₆ => ?_
    exact .bind (declare_grows h₆ (by trivial)) fun i s' h => .pure h

theorem variableStatement_grows (hs : s.Ordered) (doc : Option String) (modifiers : Modifiers) :
    Yields (g.variableStatement doc modifiers) c s fun is s' => s.Lists s' is := by
  unfold variableStatement
  refine .current (.pass (.refl hs) fun _ s₁ h₁ => ?_)
  refine .bind (collect_yields (I := fun is s' => s.Lists s' is)
    (R := fun is s' => s.Lists s' is) (fun is s' h => ?_) (fun _ _ h => h.stall)
    (fun _ _ h => h.stall) h₁.lists)
    fun is s₂ h₂ => .bind (Passing.yields h₂.ordered) fun _ s₃ h₃ => .pure (h₂.andThen h₃)
  refine .bind (declarator_grows h.ordered _ doc modifiers) fun new s₂ hnew => ?_
  refine .bind (Passing.yields hnew.ordered) fun more s₃ h₃ => .pure ?_
  have hall := (h.append hnew).andThen h₃
  exact ⟨hall, fun _ => hall⟩

theorem typeAlias_grows (hs : s.Ordered) (start : ℕ) (doc : Option String)
    (modifiers : Modifiers) :
    Yields (g.typeAlias start doc modifiers) c s fun i s' => s.Lists s' [i] := by
  unfold typeAlias
  exact .pass (.refl hs) fun _ s₁ h₁ => .pass h₁ fun name s₂ h₂ =>
    .pass h₂ fun typeParams s₃ h₃ => .pass h₃ fun _ s₄ h₄ => .pass h₄ fun type s₅ h₅ =>
      .pass h₅ fun _ s₆ h₆ => .pass h₆ fun span s₇ h₇ => declare_grows h₇ (by trivial)

theorem interfaceDeclaration_grows (hs : s.Ordered) (start : ℕ) (doc : Option String)
    (modifiers : Modifiers) :
    Yields (g.interfaceDeclaration start doc modifiers) c s fun i s' =>
      s.Lists s' [i] := by
  unfold interfaceDeclaration
  exact .pass (.refl hs) fun _ s₁ h₁ => .pass h₁ fun name s₂ h₂ =>
    .pass h₂ fun typeParams s₃ h₃ => .pass h₃ fun extends_ s₄ h₄ => .pass h₄ fun members s₅ h₅ =>
      .pass h₅ fun span s₆ h₆ => declare_grows h₆ (by trivial)

theorem classDeclaration_grows (hs : s.Ordered) (start : ℕ) (doc : Option String)
    (modifiers : Modifiers) :
    Yields (g.classDeclaration start doc modifiers) c s fun i s' => s.Lists s' [i] := by
  unfold classDeclaration
  refine .current (.pass (.refl hs) fun _ s₁ h₁ => .pass h₁ fun isWord s₂ h₂ =>
    .pass h₂ fun isHeritage s₃ h₃ => ?_)
  refine name_or_keyword_grows h₃ (fun name s₄ h₄ => ?_) (isWord && !isHeritage) modifiers _
  refine .pass h₄ fun typeParams s₅ h₅ => ?_
  refine .bind (P := fun _ s' => s.Passes s') ?_ fun heritage s₆ h₆ => ?_
  · refine h₅.trans ((Quiet.iterate (fun heritage => ?_) (none, []) |>.walks c _).passes h₅.ordered)
    dsimp only
    infer_instance
  · exact .pass h₆ fun members s₇ h₇ => .pass h₇ fun span s₈ h₈ => declare_grows h₈ (by trivial)

theorem declaration_grows (hg : g.Growing) (hs : s.Passes s₁) (start : ℕ) (doc : Option String)
    (modifiers : Modifiers) :
    Yields (g.declaration? start doc modifiers) c s₁ fun found s' =>
      s.Lists s' (declaredIn (found.getD [])) := by
  unfold declaration?
  extract_lets one declared
  have hone {p : Parse DeclIndex} {s₂ : ParseState}
      (h : Yields p c s₂ fun i s' => s.Lists s' [i]) :
      Yields (one p) c s₂ fun found s' => s.Lists s' (declaredIn (found.getD [])) :=
    .bind h fun i s' hi => .pure hi
  have hself {p : Parse DeclIndex} (h : Yields p c s₁ fun i s' => s₁.Lists s' [i]) :
      Yields (one p) c s₁ fun found s' => s.Lists s' (declaredIn (found.getD [])) :=
    hone (h.mono fun i s' hi => hi.after hs)
  have hnone {s₂ : ParseState} (h : s.Passes s₂) : Yields (pure none) c s₂ fun found s' =>
      s.Lists s' (declaredIn (found.getD [])) := .pure h.lists
  have hvariables : Yields declared c s₁ fun found s' =>
      s.Lists s' (declaredIn (found.getD [])) := by
    refine .bind (variableStatement_grows hs.ordered doc modifiers) fun is s' h => .pure ?_
    rw [Option.getD_some, declaredIn_declarations]
    exact h.after hs
  have hmodule : Yields (do
      if ← isBeforeModuleName then
        advance
        one (g.moduleProduction start doc modifiers)
      else return none) c s₁ fun found s' =>
      s.Lists s' (declaredIn (found.getD [])) := by
    refine .pass hs fun isName s₂ h₂ => ?_
    split
    · exact .pass h₂ fun _ s₃ h₃ => hone (moduleProduction_grows hg h₃ start doc modifiers)
    · exact hnone h₂
  refine .isAt ?_
  split
  · exact hnone hs
  -- one case a keyword, in the order of the production
  · refine .current ?_
    split
    · exact hself (functionDeclaration_grows hs.ordered start doc modifiers)
    · exact hvariables
    · exact hvariables
    · refine .look fun t => ?_
      split
      · exact hvariables
      · exact hnone hs
    · refine .look fun isName => ?_
      split
      · exact hself (typeAlias_grows hs.ordered start doc modifiers)
      · exact hnone hs
    · refine .look fun isName => ?_
      split
      · exact hself (interfaceDeclaration_grows hs.ordered start doc modifiers)
      · exact hnone hs
    · exact hself (classDeclaration_grows hs.ordered start doc modifiers)
    · refine .look fun isName => ?_
      split
      · exact hself (enumDeclaration_grows hs.ordered start doc modifiers)
      · exact hnone hs
    · exact hmodule
    · exact hmodule
    · refine .pass hs fun isBlock s₂ h₂ => ?_
      split
      · exact .pass h₂ fun name s₃ h₃ => hone (moduleBody_grows hg h₃ start doc modifiers name .global)
      · exact hnone h₂
    · exact hnone hs

/-! ### Statements -/

/-- A statement that is no declaration. -/
theorem undeclaring_lists {p : Parse Statement} [Passing p] [hp : Undeclaring p]
    (hs : s.Passes s₁) : Yields p c s₁ fun statement s' => s.Lists s' (declaredIn [statement]) := by
  have hnone : declaredIn [(p c s₁).1] = [] := by
    cases hstatement : (p c s₁).1 with
    | declaration i => exact absurd hstatement (hp.ne c s₁ i)
    | _ => rfl
  show s.Lists (p c s₁).2 (declaredIn [(p c s₁).1])
  rw [hnone]
  exact (hs.trans (Passing.passes c s₁ hs.ordered)).lists

theorem undeclaring_grows {p : Parse Statement} [Passing p] [hp : Undeclaring p]
    (hs : s.Passes s₁) : Yields (do return [← p]) c s₁ fun statements s' =>
      s.Lists s' (declaredIn statements) :=
  (undeclaring_lists hs).bind fun _ _ h => .pure h

theorem exportDefault_grows (hs : s.Passes s₁) (start : ℕ) (doc : Option String) (keyword : Span) :
    Yields (do return [← g.exportDefault start doc keyword]) c s₁ fun statements s' =>
      s.Lists s' (declaredIn statements) := by
  unfold exportDefault
  refine .bind (P := fun statement s' => s.Lists s' (declaredIn [statement])) ?_
    fun statement s₂ h₂ => .pure h₂
  refine .pass hs fun isWhole s₂ h₂ => ?_
  split
  · exact undeclaring_lists h₂
  · refine .pass h₂ fun initial s₃ h₃ => .pass h₃ fun _ s₄ h₄ => .pass h₄ fun span s₅ h₅ => ?_
    exact .bind (declare_grows h₅ (by trivial)) fun i s' h => .pure h

theorem exportStatement_grows (hg : g.Growing) (hs : s.Passes s₁) (start : ℕ) (doc : Option String)
    (keyword : Span) : Yields (g.exportStatement start doc keyword) c s₁ fun statements s' =>
      s.Lists s' (declaredIn statements) := by
  unfold exportStatement
  refine .pass hs fun isAll s₂ h₂ => ?_
  split
  · exact undeclaring_grows h₂
  refine .pass h₂ fun isEquals s₃ h₃ => ?_
  split
  · refine .pass h₃ fun isWhole s₄ h₄ => ?_
    split
    · exact undeclaring_grows h₄
    · exact .pass h₄ fun _ s₅ h₅ => undeclaring_grows h₅
  refine .pass h₃ fun isAs s₄ h₄ => .pass h₄ fun isNamespace s₅ h₅ => ?_
  split
  · exact undeclaring_grows h₅
  refine .pass h₅ fun isImport s₆ h₆ => ?_
  split
  · exact undeclaring_grows h₆
  refine .pass h₆ fun isType s₇ h₇ => .pass h₇ fun isList s₈ h₈ => ?_
  extract_lets typeOnly tail
  have htail {s' : ParseState} (h : s.Passes s') : Yields (tail ()) c s' fun statements s' =>
      s.Lists s' (declaredIn statements) := by
    refine .pass h fun isList s₁ h₁ => ?_
    split
    · exact undeclaring_grows h₁
    refine .pass h₁ fun isDefault s₂ h₂ => ?_
    split
    · refine .current (.pass h₂ fun _ s₃ h₃ => .pass h₃ fun found s₄ h₄ =>
        .pass h₄ fun isDeclaration s₅ h₅ => ?_)
      split
      · refine .bind (declaration_grows hg h₅ start doc _) fun declared s₆ h₆ => ?_
        cases declared with
        | some statements => exact .pure h₆
        | none =>
          exact (exportDefault_grows (.refl h₆.ordered) start doc _).mono
            fun statements s₇ h₇ => h₆.append h₇
      · exact exportDefault_grows h₅ start doc _
    · refine .pass h₂ fun found s₃ h₃ => ?_
      refine .bind (declaration_grows hg h₃ start doc _) fun declared s₄ h₄ => ?_
      cases declared with
      | some statements => exact .pure h₄
      | none =>
        exact .pass (.refl h₄.ordered) fun _ s₅ h₅ => (undeclaring_grows h₅).mono
          fun statements s₆ h₆ => h₄.append h₆
  split
  · exact .pass h₈ fun _ s₉ h₉ => htail h₉
  · exact htail h₈

theorem statement_grows (hg : g.Growing) (hs : s.Passes s₁) :
    Yields g.statement c s₁ fun statements s' =>
      s.Lists s' (declaredIn statements) := by
  unfold statement
  refine .pass hs fun doc s₂ h₂ => .pass h₂ fun start s₃ h₃ => .pass h₃ fun isNone s₄ h₄ => ?_
  split
  · exact .pure h₄.lists
  refine .pass h₄ fun isDecorated s₅ h₅ => ?_
  extract_lets tail
  have htail {s' : ParseState} (h : s.Passes s') : Yields (tail ()) c s' fun statements s' =>
      s.Lists s' (declaredIn statements) := by
    refine .pass h fun isImport s₁ h₁ => .pass h₁ fun after s₂ h₂ => ?_
    split
    · exact undeclaring_grows h₂
    refine .pass h₂ fun isExport s₃ h₃ => ?_
    split
    · exact .current (.pass h₃ fun _ s₄ h₄ => .pass h₄ fun _ s₅ h₅ =>
        exportStatement_grows hg h₅ start doc _)
    · refine .pass h₃ fun found s₄ h₄ => ?_
      refine .bind (declaration_grows hg h₄ start doc found) fun declared s₅ h₅ => ?_
      cases declared with
      | some statements => exact .pure h₅
      | none =>
        exact (undeclaring_grows (.refl h₅.ordered)).mono fun statements s₆ h₆ => h₅.append h₆
  split
  · exact .pass h₅ fun _ s₆ h₆ => htail h₆
  · exact htail h₅

theorem statementStep_grows (hg : g.Growing) (hs : s.Ordered) (inBody : Bool) :
    Yields (g.statementStep inBody) c s fun r s' =>
      s.Lists s' (declaredIn r.1) := by
  unfold statementStep
  refine .pass (.refl hs) fun isEnd s₁ h₁ => ?_
  split
  · split
    · exact .pass h₁ fun _ s₂ h₂ => .pure h₂.lists
    · exact .pure h₁.lists
  refine .pass h₁ fun isClosed s₂ h₂ => ?_
  split
  · exact .pure h₂.lists
  refine .pass h₂ fun start s₃ h₃ => ?_
  extract_lets tail
  have htail {s' : ParseState} (h : s.Passes s') : Yields (tail ()) c s' fun r s' =>
      s.Lists s' (declaredIn r.1) := by
    refine .bind (statement_grows hg h) fun statements s₄ h₄ => ?_
    refine .pass (.refl h₄.ordered) fun after s₅ h₅ => .pass h₅ fun isEnd s₆ h₆ => ?_
    split
    · exact .pass h₆ fun _ s₇ h₇ => .pass h₇ fun _ s₈ h₈ => .pure (h₄.andThen h₈)
    · exact .pure (h₄.andThen h₆)
  split
  · refine .bind (P := fun _ s' => s.Passes s') ?_ fun _ s₄ h₄ => htail h₄
    exact h₃.trans (.of_eq h₃.ordered rfl rfl rfl)
  · exact htail h₃

theorem statementList_grows (hg : g.Growing) (hs : s.Ordered) (inBody : Bool) :
    Yields (g.statementList inBody) c s fun statements s' =>
      s.Lists s' (declaredIn statements) := by
  refine collect_yields (I := fun statements s' => s.Lists s' (declaredIn statements))
    (fun statements s₁ h => ?_) (fun _ _ h => h.stall) (fun _ _ h => h.stall)
    (Passes.refl hs).lists
  refine (statementStep_grows hg h.ordered inBody).mono fun r s₂ hr => ?_
  rw [declaredIn_append]
  exact ⟨h.append hr, fun _ => h.append hr⟩

/-- However deep statements and modules stand within each other, what they enter belongs to the
body that they stand in. -/
theorem ofDepth_growing (n : ℕ) : (ofDepth n).Growing := by
  induction n with
  | zero =>
    exact ⟨fun c s hs => (Passes.stall hs).lists, fun c s start doc modifiers hs =>
      (grows_leaf (Passes.stall hs).ordered rfl).after (.stall hs)⟩
  | succ n ih =>
    exact ⟨fun c s hs => statementList_grows ih hs true,
      fun c s start doc modifiers hs => moduleProduction_grows ih (.refl hs) start doc modifiers⟩

end Productions

end ApiSurface
