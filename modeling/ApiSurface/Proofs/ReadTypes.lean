import ApiSurface.Document.Decoding
import ApiSurface.Proofs.ReadRecords
/-!
Types that are read back from the JSON that was written for them.
-/
namespace ApiSurface

open Json (obj arr str bool tagged flag present text? listOf? Restores)

/-! ### The numbers in a type -/

mutual

/-- The numbers in a type, and likewise in the parts of types. -/
def DocType.numbers : DocType → List Float
  | .reference _ _ args => typesNumbers args
  | .array _ item => item.numbers
  | .union types => typesNumbers types
  | .intersection types => typesNumbers types
  | .infer _ bound => typeNumbers? bound
  | .paren inner => inner.numbers
  | .tuple _ items => tupleItemsNumbers items
  | .object members => membersNumbers members
  | .indexed object index => object.numbers ++ index.numbers
  | .conditional check bound whenTrue whenFalse =>
    check.numbers ++ bound.numbers ++ whenTrue.numbers ++ whenFalse.numbers
  | .number value => [value]
  | .keyof operand => operand.numbers
  | .mapped _ keys rename _ _ value => keys.numbers ++ typeNumbers? rename ++ typeNumbers? value
  | .signature signature => signature.numbers
  | .predicate _ _ type => typeNumbers? type
  | .intrinsic _ | .typeof .. | .typeParameter _ | .string _ | .bigInt _ | .raw _ => []

def typeNumbers? : Option DocType → List Float
  | none => []
  | some t => t.numbers

def typesNumbers : List DocType → List Float
  | [] => []
  | t :: types => t.numbers ++ typesNumbers types

def tupleItemsNumbers : List DocTupleItem → List Float
  | [] => []
  | ⟨_, _, type⟩ :: items => type.numbers ++ tupleItemsNumbers items

def DocMember.numbers : DocMember → List Float
  | .property _ _ _ _ type => type.numbers
  | .index _ _ keyType _ type => keyType.numbers ++ type.numbers
  | .method _ _ _ signature => signature.numbers
  | .call _ signature => signature.numbers
  | .constructor _ signature => signature.numbers
  | .unknown _ => []

def membersNumbers : List DocMember → List Float
  | [] => []
  | m :: members => m.numbers ++ membersNumbers members

def DocSignature.numbers : DocSignature → List Float
  | ⟨_, typeParams, params, returns, _⟩ =>
    typeParamsNumbers typeParams ++ paramsNumbers params ++ returns.numbers

def typeParamsNumbers : List DocTypeParam → List Float
  | [] => []
  | ⟨_, bound, fallback⟩ :: params =>
    typeNumbers? bound ++ typeNumbers? fallback ++ typeParamsNumbers params

def paramsNumbers : List DocParam → List Float
  | [] => []
  | ⟨_, type, _, _⟩ :: params => type.numbers ++ paramsNumbers params

end

section

variable {α β : Type}

theorem eq_map_of_cons {f : α → β} {g : List α → List β} (hnil : g [] = [])
    (hcons : ∀ x xs, g (x :: xs) = f x :: g xs) (xs : List α) : g xs = xs.map f := by
  induction xs with
  | nil => exact hnil
  | cons x xs ih => rw [hcons, ih, List.map_cons]

theorem eq_flatMap_of_cons {f : α → List β} {g : List α → List β} (hnil : g [] = [])
    (hcons : ∀ x xs, g (x :: xs) = f x ++ g xs) (xs : List α) : g xs = xs.flatMap f := by
  induction xs with
  | nil => exact hnil
  | cons x xs ih => rw [hcons, ih, List.flatMap_cons]

end

/-- The numbers in an element of a tuple. -/
def DocTupleItem.numbers : DocTupleItem → List Float
  | ⟨_, _, type⟩ => type.numbers

/-- The numbers in a type parameter. -/
def DocTypeParam.numbers : DocTypeParam → List Float
  | ⟨_, bound, fallback⟩ => typeNumbers? bound ++ typeNumbers? fallback

/-- The numbers in a parameter. -/
def DocParam.numbers : DocParam → List Float
  | ⟨_, type, _, _⟩ => type.numbers

theorem typesNumbers_eq (types : List DocType) :
    typesNumbers types = types.flatMap DocType.numbers :=
  eq_flatMap_of_cons rfl (fun _ _ => rfl) types

theorem tupleItemsNumbers_eq (items : List DocTupleItem) :
    tupleItemsNumbers items = items.flatMap DocTupleItem.numbers :=
  eq_flatMap_of_cons rfl (fun ⟨_, _, _⟩ _ => rfl) items

theorem membersNumbers_eq (members : List DocMember) :
    membersNumbers members = members.flatMap DocMember.numbers :=
  eq_flatMap_of_cons rfl (fun _ _ => rfl) members

theorem typeParamsNumbers_eq (params : List DocTypeParam) :
    typeParamsNumbers params = params.flatMap DocTypeParam.numbers :=
  eq_flatMap_of_cons rfl (fun ⟨_, _, _⟩ _ => rfl) params

theorem paramsNumbers_eq (params : List DocParam) :
    paramsNumbers params = params.flatMap DocParam.numbers :=
  eq_flatMap_of_cons rfl (fun ⟨_, _, _, _⟩ _ => rfl) params

/-! ### The parts of a type as JSON -/

/-- An element of a tuple as JSON. -/
def DocTupleItem.toJson : DocTupleItem → Json
  | ⟨form, label, type⟩ =>
    obj ([("kind", str form.word)] ++ present "label" str label ++ [("type", type.toJson)])

/-- A member of an object as JSON. -/
def DocMember.toJson (m : DocMember) : Json := obj m.fields

/-- A type parameter as JSON. -/
def DocTypeParam.toJson : DocTypeParam → Json
  | ⟨name, bound, fallback⟩ =>
    obj [("name", str name), ("constraint", typeJson? bound), ("default", typeJson? fallback)]

/-- A parameter as JSON. -/
def DocParam.toJson : DocParam → Json
  | ⟨name, type, optional, rest⟩ =>
    obj ([("name", str name), ("type", type.toJson)] ++ flag "optional" optional ++
      flag "rest" rest)

theorem typeJson?_eq (o : Option DocType) : typeJson? o = Json.option DocType.toJson o := by
  cases o <;> rfl

theorem typesJson_eq (types : List DocType) : typesJson types = types.map DocType.toJson :=
  eq_map_of_cons rfl (fun _ _ => rfl) types

theorem tupleItemsJson_eq (items : List DocTupleItem) :
    tupleItemsJson items = items.map DocTupleItem.toJson :=
  eq_map_of_cons rfl (fun ⟨_, _, _⟩ _ => rfl) items

theorem membersJson_eq (members : List DocMember) :
    membersJson members = members.map DocMember.toJson :=
  eq_map_of_cons rfl (fun _ _ => rfl) members

theorem typeParamsJson_eq (params : List DocTypeParam) :
    typeParamsJson params = params.map DocTypeParam.toJson :=
  eq_map_of_cons rfl (fun ⟨_, _, _⟩ _ => rfl) params

theorem paramsJson_eq (params : List DocParam) : paramsJson params = params.map DocParam.toJson :=
  eq_map_of_cons rfl (fun ⟨_, _, _, _⟩ _ => rfl) params

theorem DocType.toJson_ne_null (t : DocType) : t.toJson ≠ .null := by
  cases t <;> nofun

@[simp] theorem DocTupleForm.ofJson?_word (form : DocTupleForm) :
    ofJson? (str form.word) = some form := by
  cases form <;> rfl

theorem orNull?_modifier (m : Option MappedModifier) :
    Json.orNull? MappedModifier.ofJson? (.option (str ·.word) m) = some m := by
  refine Json.orNull?_option fun m _ => ⟨Json.noConfusion, ?_⟩
  cases m <;> rfl

/-! ### Reading a type -/

section

variable {read : Json → Option DocType} {n : ℕ}

/-- A type that may be absent is read back. -/
theorem orNull?_typeJson? (h : Restores n DocType.toJson DocType.numbers read) {o : Option DocType}
    (hx : Legible (typeNumbers? o)) (hn : (typeJson? o).depth ≤ n) :
    Json.orNull? read (typeJson? o) = some o := by
  rw [typeJson?_eq]
  refine Json.orNull?_option fun t ht => ⟨t.toJson_ne_null, ?_⟩
  obtain rfl := Option.mem_def.mp ht
  exact h t hx hn

attribute [local simp] legible_append Json.depth Json.depthFields Json.depthAll Json.record?
  Json.Record.required Json.Record.withDefault Json.Record.optional List.lookup_cons
  Json.Record.nullable_object Json.orNull?_text? Json.form? Json.wordOrPlace? Json.str?
  Json.bool? flag present

theorem DocTupleItem.restores (h : Restores n DocType.toJson DocType.numbers read) :
    Restores (n + 1) toJson numbers (ofJson? read) := by
  rintro ⟨form, label, type⟩ hx hn
  have htype : read type.toJson = some type := by
    refine h type hx ?_
    simp only [toJson, Json.depth, Json.depthFields_append, Json.depthFields] at hn
    omega
  cases label <;> simp [toJson, ofJson?, htype]

theorem DocTypeParam.restores (h : Restores n DocType.toJson DocType.numbers read) :
    Restores (n + 1) toJson numbers (ofJson? read) := by
  rintro ⟨name, bound, fallback⟩ hx hn
  obtain ⟨hbound, hfallback⟩ := legible_append.mp hx
  simp only [toJson, Json.depth, Json.depthFields] at hn
  simp [toJson, ofJson?, orNull?_typeJson? h hbound (by omega),
    orNull?_typeJson? h hfallback (by omega)]

theorem DocParam.restores (h : Restores n DocType.toJson DocType.numbers read) :
    Restores (n + 1) toJson numbers (ofJson? read) := by
  rintro ⟨name, type, optional, rest⟩ hx hn
  have htype : read type.toJson = some type := by
    refine h type hx ?_
    simp only [toJson, Json.depth, Json.depthFields_append, Json.depthFields] at hn
    omega
  cases optional <;> cases rest <;> simp [toJson, ofJson?, htype]

theorem DocSignature.restores (h : Restores n DocType.toJson DocType.numbers read) :
    Restores (n + 1) toJson numbers (ofJson? read) := by
  rintro ⟨docs, typeParams, params, returns, isConstructor⟩ hx hn
  rw [numbers, typeParamsNumbers_eq, paramsNumbers_eq] at hx
  obtain ⟨⟨htypeParams, hparams⟩, hreturns⟩ : _ ∧ _ := by simpa only [legible_append] using hx
  simp only [toJson, fields, typeParamsJson_eq, paramsJson_eq, Json.depth, Json.depthFields_append,
    Json.depthFields] at hn
  have htypeParams := (DocTypeParam.restores h).list typeParams htypeParams (by
    simp only [Json.list, Json.depth]; omega)
  have hparams := (DocParam.restores h).list params hparams (by
    simp only [Json.list, Json.depth]; omega)
  have hreturns := h returns hreturns (by omega)
  simp only [Json.list] at htypeParams hparams
  cases docs <;> cases isConstructor <;>
    simp [toJson, fields, ofJson?, typeParamsJson_eq, paramsJson_eq, htypeParams, hparams, hreturns]

theorem DocMember.restores (h : Restores n DocType.toJson DocType.numbers read) :
    Restores (n + 1) toJson numbers (ofJson? read) := by
  intro m hx hn
  have hsignature (s : DocSignature) (hs : Legible s.numbers)
      (hdepth : Json.depthFields s.fields + 1 ≤ n) :
      DocSignature.ofJson? read (obj s.fields) = some s :=
    DocSignature.restores h s hs (Nat.le_succ_of_le hdepth)
  simp only [toJson, Json.depth] at hn
  cases m with
  | property name docs optional readonly type =>
    simp only [fields, Json.depth, Json.depthFields] at hn
    have htype := h type hx (by omega)
    simp [toJson, fields, ofJson?, htype]
  | index docs keyName keyType readonly type =>
    obtain ⟨hkeyType, htype⟩ := legible_append.mp hx
    simp only [fields, Json.depth, Json.depthFields] at hn
    have hkeyType := h keyType hkeyType (by omega)
    have htype := h type htype (by omega)
    simp [toJson, fields, ofJson?, hkeyType, htype]
  | method name docs optional signature =>
    simp only [fields, Json.depth, Json.depthFields] at hn
    have hs := hsignature signature hx (by omega)
    simp [toJson, fields, ofJson?, hs]
  | call docs signature =>
    simp only [fields, Json.depth, Json.depthFields] at hn
    have hs := hsignature signature hx (by omega)
    simp [toJson, fields, ofJson?, hs]
  | constructor docs signature =>
    simp only [fields, Json.depth, Json.depthFields] at hn
    have hs := hsignature signature hx (by omega)
    simp [toJson, fields, ofJson?, hs]
  | unknown content => simp [toJson, fields, ofJson?]

theorem DocSignature.fields_kind (s : DocSignature) : s.fields.all (·.1 != "kind") = true := by
  obtain ⟨docs, typeParams, params, returns, isConstructor⟩ := s
  cases docs <;> cases isConstructor <;> simp [fields]

namespace DocType

@[local simp] theorem ofJsonWithin?_tagged (n : ℕ) (kind : String) {fields : List (String × Json)}
    (h : fields.all (·.1 != "kind") = true) :
    ofJsonWithin? (n + 1) (tagged kind fields) = ofRecord? (ofJsonWithin? n) kind (obj fields) := by
  show ((tagged kind fields).form?.bind fun p => _) = _
  rw [Json.form?_tagged kind h]
  rfl

theorem restores_succ (h : Restores n toJson numbers (ofJsonWithin? n)) :
    Restores (n + 1) toJson numbers (ofJsonWithin? (n + 1)) := by
  have htypes (types : List DocType) (hx : Legible (typesNumbers types))
      (hn : Json.depthAll (typesJson types) + 1 ≤ n) :
      listOf? (ofJsonWithin? n) (arr (typesJson types)) = some types := by
    rw [typesNumbers_eq] at hx
    rw [typesJson_eq] at hn ⊢
    exact h.list types hx hn
  intro t hx hn
  cases t with
  | intrinsic | typeof | typeParameter | string | bigInt | raw =>
    simp [toJson, ofRecord?]
  | reference id name args =>
    simp only [toJson, tagged, Json.depth, Json.depthFields] at hn
    have hargs := htypes args hx (by omega)
    simp [toJson, ofRecord?, hargs]
  | array readonly item =>
    simp only [toJson, tagged, Json.depth, Json.depthFields] at hn
    have hitem := h item hx (by omega)
    simp [toJson, ofRecord?, hitem]
  | union types =>
    simp only [toJson, tagged, Json.depth, Json.depthFields] at hn
    have htypes := htypes types hx (by omega)
    simp [toJson, ofRecord?, htypes]
  | intersection types =>
    simp only [toJson, tagged, Json.depth, Json.depthFields] at hn
    have htypes := htypes types hx (by omega)
    simp [toJson, ofRecord?, htypes]
  | infer name bound =>
    simp only [toJson, tagged, Json.depth, Json.depthFields] at hn
    have hbound := orNull?_typeJson? h (o := bound) hx (by omega)
    simp [toJson, ofRecord?, hbound]
  | paren inner =>
    simp only [toJson, tagged, Json.depth, Json.depthFields] at hn
    have hinner := h inner hx (by omega)
    simp [toJson, ofRecord?, hinner]
  | tuple readonly items =>
    rw [numbers, tupleItemsNumbers_eq] at hx
    simp only [toJson, tupleItemsJson_eq, tagged, Json.depth, Json.depthFields] at hn
    have hitems := (DocTupleItem.restores h).list items hx (by
      simp only [Json.list, Json.depth]; omega)
    rw [toJson, tupleItemsJson_eq, ofJsonWithin?_tagged _ _ (by simp)]
    rw [Json.list] at hitems
    simp [ofRecord?, hitems]
  | object members =>
    rw [numbers, membersNumbers_eq] at hx
    simp only [toJson, membersJson_eq, tagged, Json.depth, Json.depthFields] at hn
    have hmembers := (DocMember.restores h).list members hx (by
      simp only [Json.list, Json.depth]; omega)
    rw [toJson, membersJson_eq, ofJsonWithin?_tagged _ _ (by simp)]
    rw [Json.list] at hmembers
    simp [ofRecord?, hmembers]
  | indexed object index =>
    obtain ⟨hobject, hindex⟩ := legible_append.mp hx
    simp only [toJson, tagged, Json.depth, Json.depthFields] at hn
    have hobject := h object hobject (by omega)
    have hindex := h index hindex (by omega)
    simp [toJson, ofRecord?, hobject, hindex]
  | conditional check bound whenTrue whenFalse =>
    obtain ⟨⟨⟨hcheck, hbound⟩, htrue⟩, hfalse⟩ :
        ((Legible _ ∧ Legible _) ∧ Legible _) ∧ Legible _ := by
      simpa only [numbers, legible_append] using hx
    simp only [toJson, tagged, Json.depth, Json.depthFields] at hn
    have hcheck := h check hcheck (by omega)
    have hbound := h bound hbound (by omega)
    have htrue := h whenTrue htrue (by omega)
    have hfalse := h whenFalse hfalse (by omega)
    simp [toJson, ofRecord?, hcheck, hbound, htrue, hfalse]
  | number value =>
    have hvalue := float?_numberJson hx
    simp [toJson, ofRecord?, hvalue]
  | keyof operand =>
    simp only [toJson, tagged, Json.depth, Json.depthFields] at hn
    have hoperand := h operand hx (by omega)
    simp [toJson, ofRecord?, hoperand]
  | mapped param keys rename readonly optional value =>
    obtain ⟨⟨hkeys, hrename⟩, hvalue⟩ : (Legible _ ∧ Legible _) ∧ Legible _ := by
      simpa only [numbers, legible_append] using hx
    simp only [toJson, tagged, Json.depth, Json.depthFields] at hn
    have hkeys := h keys hkeys (by omega)
    have hrename := orNull?_typeJson? h hrename (by omega)
    have hvalue := orNull?_typeJson? h hvalue (by omega)
    simp [toJson, ofRecord?, hkeys, hrename, hvalue, orNull?_modifier]
  | signature signature =>
    simp only [toJson, tagged, Json.depth, Json.depthFields] at hn
    have hs := DocSignature.restores h signature hx (by
      simp only [DocSignature.toJson, Json.depth]; omega)
    rw [toJson, ofJsonWithin?_tagged _ _ signature.fields_kind]
    rw [DocSignature.toJson] at hs
    simp [ofRecord?, hs]
  | predicate asserts param type =>
    simp only [toJson, tagged, Json.depth, Json.depthFields] at hn
    have htype := orNull?_typeJson? h (o := type) hx (by omega)
    simp [toJson, ofRecord?, htype]

/-- A type is read back, however deep it nests. -/
theorem restores_within (n : ℕ) : Restores n toJson numbers (ofJsonWithin? n) := by
  induction n with
  | zero =>
    intro t hx hn
    cases t <;> simp [toJson, tagged] at hn
  | succ n ih => exact restores_succ ih

theorem restores (n : ℕ) : Restores n toJson numbers ofJson? := by
  intro t hx _
  exact restores_within _ t hx (Nat.le_succ _)

end DocType

end

/-! ### Values that can be kept -/

/-- Whether a written number has a value. -/
def isReadable (text : String) : Bool := (Json.numberValue? text).isSome

theorem isWhole_numberJson {x : Float} (h : Legible [x]) :
    (numberJson x).isWhole isReadable = true := by
  obtain ⟨hfinite, hread⟩ := h x List.mem_cons_self
  rw [numberJson, Json.ofFloat, if_pos hfinite, Json.isWhole, isReadable, hread, Option.isSome_some]

theorem isWhole_text? (s : Option String) : (text? s).isWhole isReadable = true := by
  cases s <;> rfl

section

attribute [local simp] Json.isWhole Json.areWhole Json.haveWhole isWhole_text? tagged flag present

mutual

theorem DocType.isWhole_toJson : ∀ t : DocType,
    Legible t.numbers → t.toJson.isWhole isReadable = true
  | .reference _ _ args, h => by simp [DocType.toJson, typesJson_isWhole args h]
  | .array _ item, h => by simp [DocType.toJson, item.isWhole_toJson h]
  | .union types, h => by simp [DocType.toJson, typesJson_isWhole types h]
  | .intersection types, h => by simp [DocType.toJson, typesJson_isWhole types h]
  | .infer _ bound, h => by simp [DocType.toJson, typeJson?_isWhole bound h]
  | .paren inner, h => by simp [DocType.toJson, inner.isWhole_toJson h]
  | .tuple _ items, h => by simp [DocType.toJson, tupleItemsJson_isWhole items h]
  | .object members, h => by simp [DocType.toJson, membersJson_isWhole members h]
  | .indexed object index, h => by
    obtain ⟨ho, hi⟩ := legible_append.mp h
    simp [DocType.toJson, object.isWhole_toJson ho, index.isWhole_toJson hi]
  | .conditional check bound whenTrue whenFalse, h => by
    simp only [DocType.numbers, legible_append] at h
    obtain ⟨⟨⟨hc, hb⟩, ht⟩, hf⟩ := h
    simp [DocType.toJson, check.isWhole_toJson hc, bound.isWhole_toJson hb,
      whenTrue.isWhole_toJson ht, whenFalse.isWhole_toJson hf]
  | .number value, h => by simp [DocType.toJson, isWhole_numberJson h]
  | .keyof operand, h => by simp [DocType.toJson, operand.isWhole_toJson h]
  | .mapped _ keys rename readonly optional value, h => by
    simp only [DocType.numbers, legible_append] at h
    obtain ⟨⟨hk, hr⟩, hv⟩ := h
    cases readonly <;> cases optional <;>
      simp [DocType.toJson, Json.option, keys.isWhole_toJson hk, typeJson?_isWhole rename hr,
        typeJson?_isWhole value hv]
  | .signature signature, h => by simp [DocType.toJson, signature.isWhole_fields h]
  | .predicate _ _ type, h => by simp [DocType.toJson, typeJson?_isWhole type h]
  | .intrinsic _, _ | .typeof .., _ | .typeParameter _, _ | .string _, _ | .bigInt _, _
  | .raw _, _ => by simp [DocType.toJson]

theorem typeJson?_isWhole : ∀ o : Option DocType,
    Legible (typeNumbers? o) → (typeJson? o).isWhole isReadable = true
  | none, _ => by simp [typeJson?]
  | some t, h => by simp [typeJson?, t.isWhole_toJson h]

theorem typesJson_isWhole : ∀ types : List DocType,
    Legible (typesNumbers types) →
      Json.areWhole isReadable (typesJson types) = true
  | [], _ => by simp [typesJson]
  | t :: types, h => by
    obtain ⟨ht, htypes⟩ := legible_append.mp h
    simp [typesJson, t.isWhole_toJson ht, typesJson_isWhole types htypes]

theorem tupleItemsJson_isWhole : ∀ items : List DocTupleItem,
    Legible (tupleItemsNumbers items) →
      Json.areWhole isReadable (tupleItemsJson items) = true
  | [], _ => by simp [tupleItemsJson]
  | ⟨_, label, type⟩ :: items, h => by
    obtain ⟨htype, hitems⟩ := legible_append.mp h
    cases label <;>
      simp [tupleItemsJson, type.isWhole_toJson htype, tupleItemsJson_isWhole items hitems]

theorem DocMember.isWhole_fields : ∀ m : DocMember,
    Legible m.numbers → Json.haveWhole isReadable m.fields = true
  | .property _ _ _ _ type, h => by simp [DocMember.fields, type.isWhole_toJson h]
  | .index _ _ keyType _ type, h => by
    obtain ⟨hk, ht⟩ := legible_append.mp h
    simp [DocMember.fields, keyType.isWhole_toJson hk, type.isWhole_toJson ht]
  | .method _ _ _ signature, h => by simp [DocMember.fields, signature.isWhole_fields h]
  | .call _ signature, h => by simp [DocMember.fields, signature.isWhole_fields h]
  | .constructor _ signature, h => by simp [DocMember.fields, signature.isWhole_fields h]
  | .unknown _, _ => by simp [DocMember.fields]

theorem membersJson_isWhole : ∀ members : List DocMember,
    Legible (membersNumbers members) →
      Json.areWhole isReadable (membersJson members) = true
  | [], _ => by simp [membersJson]
  | m :: members, h => by
    obtain ⟨hm, hmembers⟩ := legible_append.mp h
    simp [membersJson, m.isWhole_fields hm, membersJson_isWhole members hmembers]

theorem DocSignature.isWhole_fields : ∀ s : DocSignature,
    Legible s.numbers → Json.haveWhole isReadable s.fields = true
  | ⟨docs, typeParams, params, returns, isConstructor⟩, h => by
    simp only [DocSignature.numbers, legible_append] at h
    obtain ⟨⟨ht, hp⟩, hr⟩ := h
    cases docs <;> cases isConstructor <;>
      simp [DocSignature.fields, typeParamsJson_isWhole typeParams ht,
        paramsJson_isWhole params hp, returns.isWhole_toJson hr]

theorem typeParamsJson_isWhole : ∀ params : List DocTypeParam,
    Legible (typeParamsNumbers params) →
      Json.areWhole isReadable (typeParamsJson params) = true
  | [], _ => by simp [typeParamsJson]
  | ⟨_, bound, fallback⟩ :: params, h => by
    simp only [typeParamsNumbers, legible_append] at h
    obtain ⟨⟨hb, hf⟩, hp⟩ := h
    simp [typeParamsJson, typeJson?_isWhole bound hb, typeJson?_isWhole fallback hf,
      typeParamsJson_isWhole params hp]

theorem paramsJson_isWhole : ∀ params : List DocParam,
    Legible (paramsNumbers params) →
      Json.areWhole isReadable (paramsJson params) = true
  | [], _ => by simp [paramsJson]
  | ⟨_, type, optional, rest⟩ :: params, h => by
    obtain ⟨ht, hp⟩ := legible_append.mp h
    cases optional <;> cases rest <;>
      simp [paramsJson, type.isWhole_toJson ht, paramsJson_isWhole params hp]

end

end

end ApiSurface
