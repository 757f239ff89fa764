import ApiSurface.Proofs.ClassMembers
/-!
Overloads in classes. A class leaves out the bodies behind overloads by counting methods of one name,
where functions look at the list of all that are declared; the two keep the same but in one case.
-/
namespace ApiSurface

section Overloads

/-- A method of a name on a side of the class. -/
def ClassMember.isMethodOf (m : ClassMember) (name : String) (isStatic : Bool) : Bool :=
  m.isMethod && m.hasModifier .static == isStatic && m.name?.map (·.text) == some name

/-- A documented method of a name on a side of the class. -/
def DocClassMember.isMethodOf (x : DocClassMember) (name : String) (isStatic : Bool) : Bool :=
  x.isStatic == isStatic &&
    match x.member with
    | .method n .. => n == name
    | _ => false

/-- What a class keeps of a group of overloads: it leaves out bodies if with the private ones there are
two or more. -/
def keptOverloads {α : Type} (hasBody : α → Bool) (count : ℕ) (group : List α) : List α :=
  group.filter fun x => !(decide (1 < count) && hasBody x)

theorem keptOverloads_eq_nil_iff {α : Type} (hasBody : α → Bool) (group : List α) (count : ℕ) :
    keptOverloads hasBody count group = [] ↔
      group = [] ∨ 2 ≤ count ∧ ∀ x ∈ group, hasBody x = true := by
  rw [keptOverloads, List.filter_eq_nil_iff]
  simp only [Bool.not_eq_true', Bool.and_eq_false_iff, not_or, Bool.not_eq_false, decide_eq_true_eq]
  constructor
  · intro h
    cases group with
    | nil => exact Or.inl rfl
    | cons x group => exact Or.inr ⟨(h x List.mem_cons_self).1, fun y hy => (h y hy).2⟩
  · rintro (rfl | ⟨hcount, hall⟩)
    · exact fun x hx => absurd hx List.not_mem_nil
    · exact fun x hx => ⟨hcount, hall x hx⟩

/-- This is what overloads keep, unless there are two or more and all of the group have bodies. -/
theorem keptOverloads_eq_iff {α : Type} (hasBody : α → Bool) {group : List α} {count : ℕ}
    (hle : group.length ≤ count) : keptOverloads hasBody count group = overloads hasBody group ↔
      count < 2 ∨ group = [] ∨ ∃ x ∈ group, hasBody x = false := by
  unfold keptOverloads
  unfold overloads
  rcases Nat.lt_or_ge 1 count with hmany | hfew
  · have hfilter : group.filter (fun x => !(decide (1 < count) && hasBody x)) =
        group.filter (!hasBody ·) := by simp [hmany]
    rw [hfilter]
    by_cases hall : ∀ x ∈ group, hasBody x = true
    · have hnone : group.filter (!hasBody ·) = [] := by simpa using hall
      have hevery : group.all hasBody = true := List.all_eq_true.mpr hall
      rw [hnone, hevery, Bool.or_true, if_pos rfl]
      constructor
      · exact fun h => Or.inr (Or.inl h.symm)
      · rintro (h | h | ⟨x, hx, hbody⟩)
        · omega
        · exact h.symm
        · exact absurd (hall x hx) (ne_true_of_eq_false hbody)
    · have hsome : ∃ x ∈ group, hasBody x = false := by simpa using hall
      refine iff_of_true ?_ (Or.inr (Or.inr hsome))
      obtain ⟨x, hx, hbody⟩ := hsome
      have hevery : group.all hasBody = false := by
        rw [Bool.eq_false_iff, Ne, List.all_eq_true]
        exact fun h => absurd (h x hx) (ne_true_of_eq_false hbody)
      rw [hevery, Bool.or_false]
      split
      · next hshort =>
        -- a group of one, which has no body
        have hlength : group.length = 1 := by
          have hpos := List.length_pos_of_mem hx
          have hlt := of_decide_eq_true hshort
          omega
        obtain ⟨y, rfl⟩ := List.length_eq_one_iff.mp hlength
        obtain rfl := List.mem_singleton.mp hx
        simp [hbody]
      · rfl
  · have hshort : group.length < 2 := by omega
    have hfilter : group.filter (fun x => !(decide (1 < count) && hasBody x)) = group := by
      simp [Nat.not_lt_of_le hfew]
    rw [hfilter, decide_eq_true hshort, Bool.true_or, if_pos rfl]
    exact iff_of_true rfl (Or.inl (by omega))

end Overloads

namespace Describe

variable {by_ : Depth} {ctx : Context} {all : List ClassMember}

theorem ShowsMember.isMethodOf {m : ClassMember} {x : DocClassMember}
    (h : ShowsMember by_ ctx all m x) (name : String) (isStatic : Bool) :
    x.isMethodOf name isStatic = m.isMethodOf name isStatic := by
  have hmayBe := h.mayBe
  unfold ClassMember.MayBe at hmayBe
  unfold DocClassMember.isMethodOf ClassMember.isMethodOf ClassMember.isMethod ClassMember.name?
  rw [h.isStatic]
  cases hshape : m.shape with
  | property n optional t initial =>
    rw [hshape] at hmayBe
    obtain ⟨readonly, t, hx⟩ := hmayBe
    simp [hx]
  | method n optional f body =>
    rw [hshape] at hmayBe
    obtain ⟨s, hx⟩ := hmayBe
    simp [hx]
  | getter n t body =>
    rw [hshape] at hmayBe
    obtain ⟨t, hx⟩ := hmayBe
    simp [hx]
  | setter n q =>
    rw [hshape] at hmayBe
    obtain ⟨t, hx⟩ := hmayBe
    simp [hx]
  | index params t =>
    rw [hshape] at hmayBe
    obtain ⟨keyName, keyType, readonly, t, hx⟩ := hmayBe
    simp [hx]
  | constructor | unknown =>
    rw [hshape] at hmayBe
    exact hmayBe.elim

/-- The methods of a name that are shown are those that are kept of all that are not private. -/
theorem shown_methods (name : String) (isStatic : Bool) :
    (all.filter fun m => m.isShown all && !m.isConstructor).filter (·.isMethodOf name isStatic) =
      keptOverloads (·.hasBody) (all.countP (·.isMethodOf name isStatic))
        (all.filter fun m => !m.isPrivate && m.isMethodOf name isStatic) := by
  rw [keptOverloads, List.filter_filter, List.filter_filter]
  refine List.filter_congr fun m _ => ?_
  cases hmethod : m.isMethodOf name isStatic with
  | false => rw [Bool.false_and, Bool.and_false, Bool.and_false]
  | true =>
    simp only [ClassMember.isMethodOf, Bool.and_eq_true, beq_iff_eq] at hmethod
    obtain ⟨⟨hmethod, hside⟩, hname⟩ := hmethod
    -- the methods that share the name of this one are those of the group
    have hshares : (fun n : ClassMember => n.isMethod && n.sharesName m) =
        (·.isMethodOf name isStatic) := by
      funext n
      rw [ClassMember.sharesName, ClassMember.sameSide, hside, hname, ClassMember.isMethodOf,
        Bool.and_assoc]
    have hover : m.isPassedOver all =
        (decide (1 < all.countP (·.isMethodOf name isStatic)) && m.hasBody) := by
      unfold ClassMember.isPassedOver
      rw [← hshares]
      unfold ClassMember.isMethod at hmethod
      cases hshape : m.shape with
      | method => rfl
      | property | constructor | getter | setter | index | unknown =>
        rw [hshape] at hmethod
        cases hmethod
    have hconstructor : m.isConstructor = false := by
      unfold ClassMember.isMethod at hmethod
      unfold ClassMember.isConstructor
      cases hshape : m.shape with
      | constructor =>
        rw [hshape] at hmethod
        cases hmethod
      | property | method | getter | setter | index | unknown => rfl
    rw [ClassMember.isShown, hover, hconstructor, Bool.not_false, Bool.true_and, Bool.and_true,
      Bool.and_true, Bool.and_comm]

theorem shown_constructors : (all.filter fun m => m.isShown all && m.isConstructor) =
    keptOverloads (·.hasBody) (all.countP ClassMember.isConstructor)
      (all.filter fun m => !m.isPrivate && m.isConstructor) := by
  rw [keptOverloads, List.filter_filter]
  refine List.filter_congr fun m _ => ?_
  cases hconstructor : m.isConstructor with
  | false => rw [Bool.and_false, Bool.and_false, Bool.and_false]
  | true =>
    have hover : m.isPassedOver all =
        (decide (1 < all.countP ClassMember.isConstructor) && m.hasBody) := by
      unfold ClassMember.isPassedOver
      unfold ClassMember.isConstructor at hconstructor
      cases hshape : m.shape with
      | constructor => rfl
      | property | method | getter | setter | index | unknown =>
        rw [hshape] at hconstructor
        cases hconstructor
    rw [ClassMember.isShown, hover, Bool.and_true, Bool.and_true, Bool.and_comm]

/-- Properties of constructors are no methods. -/
theorem ShowsProperties.not_method {ps : List Param} {properties : Table String DocClassMember}
    (h : ShowsProperties by_ ctx ps properties) (name : String) (isStatic : Bool) :
    (properties.map (·.2)).filter (·.isMethodOf name isStatic) = [] := by
  unfold ShowsProperties at h
  generalize (ps.map (·.name.text)).eraseDups = names at h
  induction h with
  | nil => rfl
  | cons hentry _ ih =>
    obtain ⟨-, p, -, t, -, hx⟩ := hentry
    rw [List.map_cons, List.filter_cons_of_neg, ih]
    rw [hx]
    simp [DocClassMember.isMethodOf]

/-- Of the methods that share a name on one side of a class and are not private, and of the
constructors that are not private, a class shows what overloads keep, except where all of a group have
bodies while there are, with the private ones, two or more: then it shows none of the group. -/
theorem class_overloads_shown {d : Located} {typeParams : List TypeParam} {base : Option TypeExpr}
    {implemented : List TypeExpr} (hd : d.declaration.shape = .class typeParams base implemented all)
    {s s' : Describing} {params : List DocTypeParam} {parent : Option DocType}
    {interfaces : List DocType} {constructors : List DocSignature} {members : List DocClassMember}
    {hasPrivate isAbstract : Bool} (h : (single by_ d).runAt ctx s =
      (.ok (.class params parent interfaces constructors members hasPrivate isAbstract), s')) :
    (∀ name isStatic,
      let count := all.countP (·.isMethodOf name isStatic)
      let group := all.filter fun m => !m.isPrivate && m.isMethodOf name isStatic
      let kept := keptOverloads (·.hasBody) count group
      List.Forall₂ (ShowsMember by_ (context ctx d) all) kept
          (members.filter (·.isMethodOf name isStatic)) ∧
        (kept = overloads (·.hasBody) group ↔
          count < 2 ∨ group = [] ∨ ∃ m ∈ group, m.hasBody = false) ∧
        (kept = [] ↔ group = [] ∨ 2 ≤ count ∧ ∀ m ∈ group, m.hasBody = true)) ∧
      let count := all.countP ClassMember.isConstructor
      let group := all.filter fun m => !m.isPrivate && m.isConstructor
      let kept := keptOverloads (·.hasBody) count group
      List.Forall₂ (ShowsConstructor by_ (context ctx d)) kept constructors ∧
        (kept = overloads (·.hasBody) group ↔
          count < 2 ∨ group = [] ∨ ∃ m ∈ group, m.hasBody = false) ∧
        (kept = [] ↔ group = [] ∨ 2 ≤ count ∧ ∀ m ∈ group, m.hasBody = true) := by
  obtain ⟨_, _, _, parts, hparts, hshape⟩ := single_shows hd ⟨s, s', h⟩
  injection hshape with _ _ _ hconstructors hmembers
  have hcount (p : ClassMember → Bool) :
      (all.filter fun m => !m.isPrivate && p m).length ≤ all.countP p := by
    rw [← List.countP_eq_length_filter]
    exact List.countP_mono_left fun m _ hm => (Bool.and_eq_true_iff.mp hm).2
  refine ⟨fun name isStatic => ⟨?_, keptOverloads_eq_iff _ (hcount _),
    keptOverloads_eq_nil_iff _ _ _⟩, ?_, keptOverloads_eq_iff _ (hcount _),
    keptOverloads_eq_nil_iff _ _ _⟩
  · have hsame : ∀ ⦃m x⦄, ShowsMember by_ (context ctx d) all m x →
        (m.isMethodOf name isStatic = true ↔ x.isMethodOf name isStatic = true) := by
      intro m x hx
      rw [hx.isMethodOf]
    have hfilter := List.rel_filter hsame hparts.members
    rw [shown_methods] at hfilter
    rw [hmembers, ClassParts.allMembers, List.filter_append, hparts.properties.not_method,
      List.nil_append]
    exact hfilter
  · rw [← shown_constructors, hconstructors]
    exact hparts.constructors

/-- A method without parameters, with a body or without. -/
def plainMethod (body : Option FunctionBody) : ClassMember :=
  ⟨default, none, [], .method (.ident ⟨"f", default⟩) false ⟨[], [], none⟩ body⟩

/-- An overload and the body behind it. -/
def overloadedMethod : List ClassMember := [plainMethod none, plainMethod (some default)]

theorem overloadedMethod_shown :
    let all := overloadedMethod
    let x : DocClassMember :=
      ⟨.method "f" none false (.mk none [] [] (.intrinsic "any") false), false, false, false⟩
    (∀ name isStatic,
      let count := all.countP (·.isMethodOf name isStatic)
      let group := all.filter fun m => !m.isPrivate && m.isMethodOf name isStatic
      let kept := keptOverloads (·.hasBody) count group
      List.Forall₂ (ShowsMember (.ofLimit 1) (context default (classOf all)) all) kept
          ([x].filter (·.isMethodOf name isStatic)) ∧
        (kept = overloads (·.hasBody) group ↔
          count < 2 ∨ group = [] ∨ ∃ m ∈ group, m.hasBody = false) ∧
        (kept = [] ↔ group = [] ∨ 2 ≤ count ∧ ∀ m ∈ group, m.hasBody = true)) ∧
      let count := all.countP ClassMember.isConstructor
      let group := all.filter fun m => !m.isPrivate && m.isConstructor
      let kept := keptOverloads (·.hasBody) count group
      List.Forall₂ (ShowsConstructor (.ofLimit 1) (context default (classOf all))) kept [] ∧
        (kept = overloads (·.hasBody) group ↔
          count < 2 ∨ group = [] ∨ ∃ m ∈ group, m.hasBody = false) ∧
        (kept = [] ↔ group = [] ∨ 2 ≤ count ∧ ∀ m ∈ group, m.hasBody = true) := by
  have hrun : (single (.ofLimit 1) (classOf overloadedMethod)).runAt default default =
      (.ok (.class [] none [] [] [⟨.method "f" none false (.mk none [] [] (.intrinsic "any") false),
        false, false, false⟩] false false), default) := rfl
  exact class_overloads_shown rfl hrun

/-- A method that is declared twice, each time with a body. Overloads keep both, and a class none. -/
theorem implemented_twice_lost :
    let all := [plainMethod (some default), plainMethod (some default)]
    overloads (·.hasBody) (all.filter fun m => !m.isPrivate && m.isMethodOf "f" false) = all ∧
      (single (.ofLimit 1) (classOf all)).runAt default default =
        (.ok (.class [] none [] [] [] false false), default) := ⟨rfl, rfl⟩

end Describe

end ApiSurface
