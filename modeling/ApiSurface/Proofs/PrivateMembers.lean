import ApiSurface.Proofs.ClassMembers
/-!
Leaving private members out of a class. A private member is never described, but it is counted where
another one asks what stands beside it: so a class without it is described alike exactly if the answers
stay the same.
-/
namespace ApiSurface

/-! ### Classes without some private members -/

/-- Some of the members that are private are left out. -/
inductive Hiding : List ClassMember → List ClassMember → Prop where
  | nil : Hiding [] []
  | keep {all rest : List ClassMember} (m : ClassMember) (h : Hiding all rest) :
      Hiding (m :: all) (m :: rest)
  | leaveOut {all rest : List ClassMember} {m : ClassMember} (hm : m.isPrivate = true)
      (h : Hiding all rest) : Hiding (m :: all) rest

namespace Hiding

variable {all rest : List ClassMember}

theorem sublist (h : Hiding all rest) : rest.Sublist all := by
  induction h with
  | nil => exact .slnil
  | keep m _ ih => exact ih.cons_cons m
  | leaveOut _ _ ih => exact ih.cons _

/-- The members that are not private stay the same. -/
theorem filter_public (h : Hiding all rest) :
    rest.filter (!·.isPrivate) = all.filter (!·.isPrivate) := by
  induction h with
  | nil => rfl
  | keep m _ ih => rw [List.filter_cons, List.filter_cons, ih]
  | leaveOut hm _ ih => rw [List.filter_cons_of_neg (by simp [hm]), ih]

theorem publicProperties (h : Hiding all rest) :
    ClassMember.publicProperties rest = ClassMember.publicProperties all := by
  rw [ClassMember.publicProperties, h.filter_public, ClassMember.publicProperties]

end Hiding

namespace ClassMember

/-- What a member asks of those beside it has the same answers among others. -/
def SeesAlike (all rest : List ClassMember) (m : ClassMember) : Prop :=
  m.isPassedOver rest = m.isPassedOver all ∧
    (m.isGetter = true → m.isWritten rest = m.isWritten all)

/-- Who is passed over for some members is passed over for more. -/
theorem isPassedOver_mono {all rest : List ClassMember} (h : rest.Sublist all) {m : ClassMember}
    (hm : m.isPassedOver rest = true) : m.isPassedOver all = true := by
  unfold isPassedOver at hm ⊢
  cases hshape : m.shape with
  | method name optional s body =>
    simp only [hshape, Bool.and_eq_true, decide_eq_true_eq] at hm ⊢
    exact ⟨hm.1.trans_le h.countP_le, hm.2⟩
  | constructor s body =>
    simp only [hshape, Bool.and_eq_true, decide_eq_true_eq] at hm ⊢
    exact ⟨hm.1.trans_le h.countP_le, hm.2⟩
  | setter name p =>
    simp only [hshape, List.any_eq_true] at hm ⊢
    obtain ⟨n, hn, hgetter⟩ := hm
    exact ⟨n, h.subset hn, hgetter⟩
  | unknown => rfl
  | property | getter | index => simp [hshape] at hm

end ClassMember

namespace ClassParts

/-- All but whether there are private members. -/
def shown (c : ClassParts) : ClassParts := { c with hasPrivate := false }

theorem shown_eq_iff {c c' : ClassParts} : c.shown = c'.shown ↔
    c.constructors = c'.constructors ∧ c.parameters = c'.parameters ∧ c.members = c'.members := by
  simp [shown]

end ClassParts

/-- All but whether there are private members. -/
def DocShape.shown : DocShape → DocShape
  | .class params parent interfaces constructors members _ isAbstract =>
    .class params parent interfaces constructors members false isAbstract
  | shape => shape

theorem DocShape.of_shown {shape : DocShape} {params : List DocTypeParam} {parent : Option DocType}
    {interfaces : List DocType} {constructors : List DocSignature} {members : List DocClassMember}
    {hasPrivate isAbstract : Bool} (h : shape.shown =
      .class params parent interfaces constructors members hasPrivate isAbstract) :
    ∃ hasPrivate',
      shape = .class params parent interfaces constructors members hasPrivate' isAbstract := by
  cases shape with
  | «class» params' parent' interfaces' constructors' members' hasPrivate' isAbstract' =>
    injection h
    simp_all
  | _ => cases h

/-- A class with other members. -/
def Located.withMembers (d : Located) (members : List ClassMember) : Located :=
  match d.declaration.shape with
  | .class typeParams base implemented _ =>
    { d with declaration := { d.declaration with shape := .class typeParams base implemented members } }
  | _ => d

namespace Describe

/-! ### Steps that come to the same but for the note of private members -/

/-- Two steps come to the same, from wherever they are taken, but for whether there are private
members. -/
def Alike (x y : Describe ClassParts) : Prop := ClassParts.shown <$> x = ClassParts.shown <$> y

namespace Alike

variable {x y : Describe ClassParts} {f g : ClassParts → Describe ClassParts}

theorem pure {c c' : ClassParts} (h : c.shown = c'.shown) :
    Alike (Pure.pure c) (Pure.pure c') := by
  unfold Alike
  rw [map_pure, map_pure, h]

theorem bind_left {α : Type} (x : Describe α) {f g : α → Describe ClassParts}
    (h : ∀ a, Alike (f a) (g a)) : Alike (x >>= f) (x >>= g) := by
  unfold Alike
  rw [map_bind, map_bind]
  exact bind_congr h

/-- What does not look at the note of private members goes on from the rest. -/
theorem bind_shown {β : Type} {f : ClassParts → Describe β} (hf : ∀ c, f c.shown = f c)
    (x : Describe ClassParts) : x >>= f = (ClassParts.shown <$> x) >>= f := by
  rw [bind_map_left]
  exact bind_congr fun c => (hf c).symm

/-- The second steps go on alike from what is the same but for the note. -/
theorem bind (hx : Alike x y) (hf : ∀ c c', c.shown = c'.shown → Alike (f c) (g c')) :
    Alike (x >>= f) (y >>= g) := by
  have hright (c : ClassParts) : ClassParts.shown <$> g c.shown = ClassParts.shown <$> g c :=
    (hf c c.shown rfl).symm.trans (hf c c rfl)
  unfold Alike
  rw [map_bind, map_bind]
  calc (x >>= fun c => ClassParts.shown <$> f c)
      = x >>= fun c => ClassParts.shown <$> g c := bind_congr fun c => hf c c rfl
    _ = (ClassParts.shown <$> x) >>= fun c => ClassParts.shown <$> g c := bind_shown hright x
    _ = (ClassParts.shown <$> y) >>= fun c => ClassParts.shown <$> g c := by rw [hx]
    _ = y >>= fun c => ClassParts.shown <$> g c := (bind_shown hright y).symm

theorem foldlM {α : Type} {f g : ClassParts → α → Describe ClassParts} {l : List α}
    (h : ∀ a ∈ l, ∀ c c', c.shown = c'.shown → Alike (f c a) (g c' a)) {c c' : ClassParts}
    (hc : c.shown = c'.shown) : Alike (l.foldlM f c) (l.foldlM g c') := by
  induction l generalizing c c' with
  | nil => exact .pure hc
  | cons a l ih =>
    rw [List.foldlM_cons, List.foldlM_cons]
    exact (h a List.mem_cons_self c c' hc).bind fun _ _ hc =>
      ih (fun b hb => h b (List.mem_cons_of_mem a hb)) hc

end Alike

section Steps

variable {type : TypeExpr → Describe DocType} {inferred : InferredType → Describe DocType}
  {all rest : List ClassMember} {m : ClassMember}

theorem parameterProperty_alike (p : Param) {c c' : ClassParts} (hc : c.shown = c'.shown) :
    Alike (parameterProperty inferred c p) (parameterProperty inferred c' p) := by
  obtain ⟨hconstructors, hparameters, hmembers⟩ := ClassParts.shown_eq_iff.mp hc
  unfold parameterProperty
  rw [hparameters]
  split
  · exact .pure hc
  split
  · exact .pure (ClassParts.shown_eq_iff.mpr ⟨hconstructors, rfl, hmembers⟩)
  split
  · exact .pure hc
  · exact .bind_left _ fun t => .pure (ClassParts.shown_eq_iff.mpr ⟨hconstructors, rfl, hmembers⟩)

/-- A member is described alike among members that look alike to it. -/
theorem classMember_alike (h : m.SeesAlike all rest) :
    classMember type inferred all m = classMember type inferred rest m := by
  obtain ⟨hover, hwritten⟩ := h
  unfold ClassMember.isPassedOver ClassMember.hasBody at hover
  unfold ClassMember.isGetter ClassMember.isWritten at hwritten
  unfold classMember
  cases hshape : m.shape with
  | method name optional s body =>
    simp only [hshape] at hover ⊢
    rw [hover]
  | getter name t body =>
    simp only [hshape] at hwritten ⊢
    rw [hwritten trivial]
  | setter name p =>
    simp only [hshape] at hover ⊢
    rw [hover]
  | property | index | constructor | unknown => rfl

/-- One more member adds the same, if the members beside it look alike to it. -/
theorem classPart_alike (h : m.isPrivate = false → m.SeesAlike all rest) {c c' : ClassParts}
    (hc : c.shown = c'.shown) :
    Alike (classPart type inferred all c m) (classPart type inferred rest c' m) := by
  unfold classPart
  split
  · exact .pure (ClassParts.shown_eq_iff.mpr (ClassParts.shown_eq_iff.mp hc))
  next hpublic =>
  have hsees := h (Bool.eq_false_iff.mpr hpublic)
  have hmember : classMember type inferred all m = classMember type inferred rest m :=
    classMember_alike hsees
  have hover := hsees.1
  unfold ClassMember.isPassedOver ClassMember.hasBody at hover
  cases hshape : m.shape with
  | constructor s body =>
    simp only [hshape] at hover ⊢
    refine (Alike.foldlM (fun p _ _ _ => parameterProperty_alike p) hc).bind fun c c' hc => ?_
    obtain ⟨hconstructors, hparameters, hmembers⟩ := ClassParts.shown_eq_iff.mp hc
    rw [hover, hconstructors]
    split
    · exact .pure hc
    · exact .bind_left _ fun s => .pure (ClassParts.shown_eq_iff.mpr ⟨rfl, hparameters, hmembers⟩)
  | property | method | getter | setter | index | unknown =>
    obtain ⟨hconstructors, hparameters, hmembers⟩ := ClassParts.shown_eq_iff.mp hc
    simp only
    rw [hmember, hmembers]
    refine .bind_left _ fun r => ?_
    cases r with
    | none => exact .pure hc
    | some member => exact .pure (ClassParts.shown_eq_iff.mpr ⟨hconstructors, hparameters, rfl⟩)

/-- All members add the same when some private ones are left out, if to the others the members beside
them look alike. -/
theorem classParts_alike {before after : List ClassMember} (h : Hiding before after)
    (hsees : ∀ m ∈ after, m.isPrivate = false → m.SeesAlike all rest) {c c' : ClassParts}
    (hc : c.shown = c'.shown) :
    Alike (before.foldlM (classPart type inferred all) c)
      (after.foldlM (classPart type inferred rest) c') := by
  induction h generalizing c c' with
  | nil => exact .pure hc
  | keep m _ ih =>
    rw [List.foldlM_cons, List.foldlM_cons]
    exact (classPart_alike (hsees m List.mem_cons_self) hc).bind fun _ _ hc =>
      ih (fun n hn => hsees n (List.mem_cons_of_mem m hn)) hc
  | leaveOut hm _ ih =>
    rw [List.foldlM_cons]
    unfold classPart
    rw [if_pos hm, pure_bind]
    exact ih hsees hc

end Steps

section Runs

variable {by_ : Depth} {ctx : Context} {all rest : List ClassMember} {d : Located}
  {typeParams : List TypeParam} {base : Option TypeExpr} {implemented : List TypeExpr}

theorem runAt_map {α β : Type} (f : α → β) (x : Describe α) (ctx : Context) (s : Describing) :
    (f <$> x).runAt ctx s = ((x.runAt ctx s).1.map f, (x.runAt ctx s).2) := by
  rw [map_eq_pure_bind, runAt_bind]
  rcases x.runAt ctx s with ⟨r, s'⟩
  cases r <;> rfl

theorem map_inDeclaration {α β : Type} (f : α → β) (file : FileIndex) (i : DeclIndex)
    (names : List String) (x : Describe α) :
    f <$> inDeclaration file i names x = inDeclaration file i names (f <$> x) := by
  unfold inDeclaration
  rw [map_bind]
  rfl

/-- A class without some private members is described alike, wherever it is described. -/
theorem single_alike (h : Hiding all rest)
    (hd : d.declaration.shape = .class typeParams base implemented all)
    (hsees : ∀ m ∈ rest, m.isPrivate = false → m.SeesAlike all rest) :
    DocShape.shown <$> single by_ (d.withMembers rest) = DocShape.shown <$> single by_ d := by
  have hparts : ClassParts.shown <$> classParts by_.type by_.inferred all =
      ClassParts.shown <$> classParts by_.type by_.inferred rest := classParts_alike h hsees rfl
  unfold Located.withMembers single
  simp only [hd, map_inDeclaration, map_bind, map_pure]
  congr 1
  refine bind_congr fun params => bind_congr fun parent => bind_congr fun interfaces => ?_
  rw [Alike.bind_shown (fun _ => rfl), ← hparts, ← Alike.bind_shown (fun _ => rfl)]

/-- Two tests that keep the same of a list agree on it. -/
theorem filter_agree {α : Type} {p q : α → Bool} {l : List α} (h : l.filter p = l.filter q) :
    ∀ a ∈ l, p a = q a := by
  intro a ha
  have hiff : a ∈ l.filter p ↔ a ∈ l.filter q := by rw [h]
  rw [List.mem_filter, List.mem_filter] at hiff
  exact Bool.eq_iff_iff.mpr (and_congr_right_iff.mp hiff ha)

/-- What two lists are related to in two ways each of one of them is related to in both. -/
theorem related_both {α β : Type} {R S : α → β → Prop} {l : List α} {bs : List β}
    (hR : List.Forall₂ R l bs) (hS : List.Forall₂ S l bs) : ∀ a ∈ l, ∃ b, R a b ∧ S a b := by
  induction hR with
  | nil => exact fun a ha => absurd ha List.not_mem_nil
  | cons hab _ ih =>
    obtain ⟨hab', hS⟩ := List.forall₂_cons.mp hS
    intro a ha
    rcases List.mem_cons.mp ha with rfl | ha
    · exact ⟨_, hab, hab'⟩
    · exact ih hS a ha

/-- A getter is shown as a property that is readonly unless it is written. -/
theorem ShowsMember.getter {m : ClassMember} {x : DocClassMember} (h : ShowsMember by_ ctx all m x)
    (hm : m.isGetter = true) :
    ∃ name t, x.member = .property name m.doc false (!m.isWritten all) t := by
  have hmayBe := h.mayBe
  unfold ClassMember.MayBe at hmayBe
  unfold ClassMember.isGetter at hm
  cases hshape : m.shape with
  | getter name t body =>
    rw [hshape] at hmayBe
    obtain ⟨t, hx⟩ := hmayBe
    exact ⟨name.text, t, hx⟩
  | property | method | constructor | setter | index | unknown => simp [hshape] at hm

/-- Of the members of a kind that are not private, those are shown that are not passed over. -/
theorem filter_isShown (all : List ClassMember) (p : ClassMember → Bool) :
    (all.filter fun m => m.isShown all && p m) =
      (all.filter (!·.isPrivate)).filter fun m => !m.isPassedOver all && p m := by
  rw [List.filter_filter]
  refine List.filter_congr fun m _ => ?_
  rw [ClassMember.isShown, Bool.and_assoc, Bool.and_comm]

/-- When as many members of a kind are shown without some private ones, they are the same, as members
are only passed over for more others. -/
theorem isPassedOver_of_length (h : Hiding all rest) {p : ClassMember → Bool}
    (hlength : (rest.filter fun m => m.isShown rest && p m).length =
      (all.filter fun m => m.isShown all && p m).length) :
    (rest.filter fun m => m.isShown rest && p m) = (all.filter fun m => m.isShown all && p m) ∧
    ∀ m ∈ rest, m.isPrivate = false → p m = true → m.isPassedOver rest = m.isPassedOver all := by
  rw [filter_isShown, filter_isShown, h.filter_public] at hlength
  -- without the private ones no fewer are shown, so if they are as many they are the same
  have hsublist : ((all.filter (!·.isPrivate)).filter fun m => !m.isPassedOver all && p m).Sublist
      ((all.filter (!·.isPrivate)).filter fun m => !m.isPassedOver rest && p m) := by
    refine List.monotone_filter_right _ fun m hm => ?_
    simp only [Bool.and_eq_true, Bool.not_eq_true'] at hm ⊢
    refine ⟨Bool.eq_false_of_not_eq_true fun hover => ?_, hm.2⟩
    exact absurd (ClassMember.isPassedOver_mono h.sublist hover) (ne_true_of_eq_false hm.1)
  have hsame := hsublist.eq_of_length hlength.symm
  refine ⟨by rw [filter_isShown, filter_isShown, h.filter_public, hsame], fun m hm hpublic hp => ?_⟩
  have hmem : m ∈ all.filter (!·.isPrivate) := by
    rw [← h.filter_public]
    exact List.mem_filter.mpr ⟨hm, by simp [hpublic]⟩
  have hagree := filter_agree hsame m hmem
  rw [hp, Bool.and_true, Bool.and_true] at hagree
  exact (Bool.not_inj hagree).symm

/-- Two classes that show the same, where one is without some private members. -/
theorem seesAlike_of_shown (h : Hiding all rest) {c c' : ClassParts}
    (hall : ShowsParts by_ ctx all all c) (hrest : ShowsParts by_ ctx rest rest c')
    (hconstructors : c'.constructors = c.constructors) (hmembers : c'.allMembers = c.allMembers) :
    ∀ m ∈ rest, m.isPrivate = false → m.SeesAlike all rest := by
  -- the properties of constructors are as many in both, so the other members begin at one place
  have hkeys : c'.parameters.keys = c.parameters.keys := by
    rw [hall.properties.keys, hrest.properties.keys, h.publicProperties]
  have hcount : (c'.parameters.map (·.2)).length = (c.parameters.map (·.2)).length := by
    simpa [Table.keys] using congrArg List.length hkeys
  have hordinary : c'.members = c.members := (List.append_inj hmembers hcount).2
  obtain ⟨-, hover⟩ := isPassedOver_of_length h (p := ClassMember.isConstructor)
    (by rw [hall.constructors.length_eq, hrest.constructors.length_eq, hconstructors])
  obtain ⟨hsame, hover'⟩ := isPassedOver_of_length h (p := fun m => !m.isConstructor)
    (by rw [hall.members.length_eq, hrest.members.length_eq, hordinary])
  have hboth := hrest.members
  rw [hsame, hordinary] at hboth
  intro m hm hpublic
  refine ⟨?_, fun hgetter => ?_⟩
  · cases hconstructor : m.isConstructor with
    | true => exact hover m hm hpublic hconstructor
    | false => exact hover' m hm hpublic (by rw [hconstructor]; rfl)
  · have hshown : m ∈ all.filter fun m => m.isShown all && !m.isConstructor := by
      rw [← hsame]
      refine List.mem_filter.mpr ⟨hm, ?_⟩
      unfold ClassMember.isGetter at hgetter
      unfold ClassMember.isShown ClassMember.isPassedOver ClassMember.isConstructor
      cases hshape : m.shape with
      | getter => simp [hpublic]
      | property | method | constructor | setter | index | unknown => simp [hshape] at hgetter
    obtain ⟨x, hx, hx'⟩ := related_both hall.members hboth m hshown
    obtain ⟨name, t, hread⟩ := hx.getter hgetter
    obtain ⟨name', t', hread'⟩ := hx'.getter hgetter
    rw [hread] at hread'
    injection hread' with _ _ _ hreadonly
    exact (Bool.not_inj hreadonly).symm

/-- When private members are left out, a class is described alike, but for the note that there are
some, from wherever it is described, if what the other members ask of those beside them keeps its
answers. If the class is described successfully, it shows the same constructors and members exactly
then. -/
theorem private_members_hidden (h : Hiding all rest)
    (hd : d.declaration.shape = .class typeParams base implemented all) :
    ((∀ m ∈ rest, m.isPrivate = false → m.SeesAlike all rest) → ∀ s,
      (DocShape.shown <$> single by_ (d.withMembers rest)).runAt ctx s =
        (DocShape.shown <$> single by_ d).runAt ctx s) ∧
    ∀ s s' params parent interfaces constructors members hasPrivate isAbstract,
      (single by_ d).runAt ctx s =
        (.ok (.class params parent interfaces constructors members hasPrivate isAbstract), s') →
      ((∃ params' parent' interfaces' hasPrivate' isAbstract' s'',
        (single by_ (d.withMembers rest)).runAt ctx s = (.ok (.class params' parent' interfaces'
          constructors members hasPrivate' isAbstract'), s'')) ↔
        ∀ m ∈ rest, m.isPrivate = false → m.SeesAlike all rest) := by
  have hd' : (d.withMembers rest).declaration.shape = .class typeParams base implemented rest := by
    unfold Located.withMembers
    rw [hd]
  have hplace : context ctx (d.withMembers rest) = context ctx d := by
    unfold Located.withMembers
    rw [hd]
    rfl
  refine ⟨fun hsees s => by rw [single_alike h hd hsees], ?_⟩
  intro s s' params parent interfaces constructors members hasPrivate isAbstract hrun
  refine ⟨?_, fun hsees => ?_⟩
  · rintro ⟨_, _, _, _, _, _, hrun'⟩
    obtain ⟨_, _, _, parts, hparts, hshape⟩ := single_shows hd ⟨_, _, hrun⟩
    obtain ⟨_, _, _, parts', hparts', hshape'⟩ := single_shows hd' ⟨_, _, hrun'⟩
    injection hshape with _ _ _ hconstructors hmembers
    injection hshape' with _ _ _ hconstructors' hmembers'
    rw [hplace] at hparts'
    exact seesAlike_of_shown h hparts hparts' (hconstructors'.symm.trans hconstructors)
      (hmembers'.symm.trans hmembers)
  · have hshown : (DocShape.shown <$> single by_ (d.withMembers rest)).runAt ctx s =
        (DocShape.shown <$> single by_ d).runAt ctx s := by rw [single_alike h hd hsees]
    rw [runAt_map, runAt_map, hrun] at hshown
    rcases hrun' : (single by_ (d.withMembers rest)).runAt ctx s with ⟨r, s''⟩
    rw [hrun'] at hshown
    have hresult := congrArg Prod.fst hshown
    cases r with
    | error e => cases hresult
    | ok shape =>
      obtain ⟨hasPrivate', rfl⟩ := DocShape.of_shown (Except.ok.inj hresult)
      exact ⟨_, _, _, hasPrivate', _, s'', rfl⟩

end Runs

/-- A field. -/
def plainField (modifiers : Modifiers) : ClassMember :=
  ⟨default, none, modifiers, .property (.ident ⟨"y", default⟩) false none none⟩

theorem private_field_left_out :
    let all := [pointConstructor [], plainField [.privateAccess]]
    let rest := [pointConstructor []]
    let s : DocSignature := .mk none [] [.mk "x" (.intrinsic "number") false false]
      (.intrinsic "any") true
    (DocShape.shown <$> single (.ofLimit 1) ((classOf all).withMembers rest)).runAt default default =
        (DocShape.shown <$> single (.ofLimit 1) (classOf all)).runAt default default ∧
      ((∃ params' parent' interfaces' hasPrivate' isAbstract' s'',
        (single (.ofLimit 1) ((classOf all).withMembers rest)).runAt default default =
          (.ok (.class params' parent' interfaces' [s] [pointProperty] hasPrivate' isAbstract'), s'')) ↔
        ∀ m ∈ rest, m.isPrivate = false → m.SeesAlike all rest) := by
  have h : Hiding [pointConstructor [], plainField [.privateAccess]] [pointConstructor []] :=
    .keep _ (.leaveOut rfl .nil)
  have hsees : ∀ m ∈ [pointConstructor []], m.isPrivate = false →
      m.SeesAlike [pointConstructor [], plainField [.privateAccess]] [pointConstructor []] := by
    intro m hm _
    obtain rfl := List.mem_singleton.mp hm
    exact ⟨rfl, fun _ => rfl⟩
  have hrun : (single (.ofLimit 1) (classOf [pointConstructor [], plainField [.privateAccess]])).runAt
      default default = (.ok (.class [] none [] [.mk none [] [.mk "x" (.intrinsic "number") false false]
        (.intrinsic "any") true] [pointProperty] true false), default) := rfl
  exact ⟨(private_members_hidden h rfl).1 hsees default,
    (private_members_hidden h rfl).2 _ _ _ _ _ _ _ _ _ hrun⟩

/-- A member that reads a property. -/
def plainGetter : ClassMember :=
  ⟨default, none, [], .getter (.ident ⟨"y", default⟩) none none⟩

/-- A private member that writes it. -/
def privateSetter : ClassMember :=
  ⟨default, none, [.privateAccess], .setter (.ident ⟨"y", default⟩) none⟩

/-- A property that is read is shown as one that can be written, for it has a private setter. Without
the setter it is readonly. -/
theorem private_setter_seen :
    Hiding [plainGetter, privateSetter] [plainGetter] ∧
      (single (.ofLimit 1) (classOf [plainGetter, privateSetter])).runAt default default =
        (.ok (.class [] none [] [] [⟨.property "y" none false false (.intrinsic "any"), false, false,
          false⟩] true false), default) ∧
      (single (.ofLimit 1) ((classOf [plainGetter, privateSetter]).withMembers [plainGetter])).runAt
          default default =
        (.ok (.class [] none [] [] [⟨.property "y" none false true (.intrinsic "any"), false, false,
          false⟩] false false), default) :=
  ⟨.keep _ (.leaveOut rfl .nil), rfl, rfl⟩

end Describe

end ApiSurface
