import ApiSurface.Extraction.Types
/-!
The names of symbols that occur in a documented symbol, at any depth of its types.
-/
namespace ApiSurface

mutual

/-- The symbols that a type names, and likewise for the parts of types. -/
def DocType.ids : DocType → List SymbolId
  | .reference id _ args => id :: typesIds args
  | .typeof id _ => [id]
  | .array _ item => item.ids
  | .union types => typesIds types
  | .intersection types => typesIds types
  | .infer _ bound => typeIds? bound
  | .paren inner => inner.ids
  | .tuple _ items => tupleItemsIds items
  | .object members => membersIds members
  | .indexed object index => object.ids ++ index.ids
  | .conditional check bound whenTrue whenFalse =>
    check.ids ++ bound.ids ++ whenTrue.ids ++ whenFalse.ids
  | .keyof operand => operand.ids
  | .mapped _ keys rename _ _ value => keys.ids ++ typeIds? rename ++ typeIds? value
  | .signature signature => signature.ids
  | .predicate _ _ type => typeIds? type
  | .intrinsic _ | .typeParameter _ | .string _ | .number _ | .bigInt _ | .raw _ => []

def typeIds? : Option DocType → List SymbolId
  | none => []
  | some t => t.ids

def typesIds : List DocType → List SymbolId
  | [] => []
  | t :: types => t.ids ++ typesIds types

def DocTupleItem.ids : DocTupleItem → List SymbolId
  | .mk _ _ type => type.ids

def tupleItemsIds : List DocTupleItem → List SymbolId
  | [] => []
  | i :: items => i.ids ++ tupleItemsIds items

def DocMember.ids : DocMember → List SymbolId
  | .property _ _ _ _ type => type.ids
  | .index _ _ keyType _ type => keyType.ids ++ type.ids
  | .method _ _ _ signature => signature.ids
  | .call _ signature => signature.ids
  | .constructor _ signature => signature.ids
  | .unknown _ => []

def membersIds : List DocMember → List SymbolId
  | [] => []
  | m :: members => m.ids ++ membersIds members

def DocSignature.ids : DocSignature → List SymbolId
  | .mk _ typeParams params returns _ => typeParamsIds typeParams ++ paramsIds params ++ returns.ids

def DocTypeParam.ids : DocTypeParam → List SymbolId
  | .mk _ bound fallback => typeIds? bound ++ typeIds? fallback

def typeParamsIds : List DocTypeParam → List SymbolId
  | [] => []
  | p :: params => p.ids ++ typeParamsIds params

def DocParam.ids : DocParam → List SymbolId
  | .mk _ type _ _ => type.ids

def paramsIds : List DocParam → List SymbolId
  | [] => []
  | p :: params => p.ids ++ paramsIds params

end

@[simp] theorem typesIds_eq (types : List DocType) :
    typesIds types = types.flatMap DocType.ids := by
  induction types with
  | nil => rfl
  | cons t types ih => rw [typesIds, ih, List.flatMap_cons]

@[simp] theorem tupleItemsIds_eq (items : List DocTupleItem) :
    tupleItemsIds items = items.flatMap DocTupleItem.ids := by
  induction items with
  | nil => rfl
  | cons i items ih => rw [tupleItemsIds, ih, List.flatMap_cons]

@[simp] theorem membersIds_eq (members : List DocMember) :
    membersIds members = members.flatMap DocMember.ids := by
  induction members with
  | nil => rfl
  | cons m members ih => rw [membersIds, ih, List.flatMap_cons]

@[simp] theorem typeParamsIds_eq (params : List DocTypeParam) :
    typeParamsIds params = params.flatMap DocTypeParam.ids := by
  induction params with
  | nil => rfl
  | cons p params ih => rw [typeParamsIds, ih, List.flatMap_cons]

@[simp] theorem paramsIds_eq (params : List DocParam) :
    paramsIds params = params.flatMap DocParam.ids := by
  induction params with
  | nil => rfl
  | cons p params ih => rw [paramsIds, ih, List.flatMap_cons]

/-- Leaving out `undefined` leaves no other name in. -/
theorem DocType.ids_withoutUndefined {t : DocType} {id : SymbolId}
    (h : id ∈ t.withoutUndefined.ids) : id ∈ t.ids := by
  unfold withoutUndefined at h
  split at h
  · next types =>
    have ids_union (types : List DocType) :
        (DocType.union types).ids = types.flatMap DocType.ids := by
      rw [DocType.ids, typesIds_eq]
    split at h
    · exact h
    · have hkept (t : DocType)
          (ht : t ∈ types.filter fun t => !t.isIntrinsic "undefined") (hid : id ∈ t.ids) :
          id ∈ (DocType.union types).ids := by
        rw [ids_union]
        exact List.mem_flatMap.mpr ⟨t, (List.mem_filter.mp ht).1, hid⟩
      split at h
      · next t heq => exact hkept t (by rw [heq]; exact List.mem_singleton_self t) h
      · rw [ids_union] at h
        obtain ⟨t, ht, hid⟩ := List.mem_flatMap.mp h
        exact hkept t ht hid
  · exact h

theorem DocType.ids_ofProperty {optional : Bool} {t : DocType} {id : SymbolId}
    (h : id ∈ (t.ofProperty optional).ids) : id ∈ t.ids := by
  cases optional
  · exact h
  · exact DocType.ids_withoutUndefined h

/-- What is left out as `undefined` names nothing. -/
theorem DocType.ids_of_isIntrinsic {t : DocType} {name : String}
    (h : t.isIntrinsic name = true) : t.ids = [] := by
  cases t with
  | intrinsic => rfl
  | _ => cases h

theorem DocType.ids_subset_withoutUndefined {t : DocType} {id : SymbolId} (h : id ∈ t.ids) :
    id ∈ t.withoutUndefined.ids := by
  unfold withoutUndefined
  split
  · next types =>
    split
    · exact h
    · simp only [DocType.ids, typesIds_eq] at h
      obtain ⟨t, ht, hid⟩ := List.mem_flatMap.mp h
      have hkept : t ∈ types.filter fun t => !t.isIntrinsic "undefined" := by
        refine List.mem_filter.mpr ⟨ht, ?_⟩
        rw [Bool.not_eq_true', ← Bool.not_eq_true]
        exact fun hundefined => absurd hid (by rw [ids_of_isIntrinsic hundefined]; simp)
      split
      · next only heq =>
        rw [heq, List.mem_singleton] at hkept
        exact hkept ▸ hid
      · simp only [DocType.ids, typesIds_eq]
        exact List.mem_flatMap.mpr ⟨t, hkept, hid⟩
  · exact h

theorem DocType.ids_subset_ofProperty (optional : Bool) {t : DocType} {id : SymbolId}
    (h : id ∈ t.ids) : id ∈ (t.ofProperty optional).ids := by
  cases optional
  · exact h
  · exact DocType.ids_subset_withoutUndefined h

def DocClassMember.ids (m : DocClassMember) : List SymbolId := m.member.ids

/-- The symbols that what is shown of a symbol names: types, exports, and members of an enum. -/
def DocShape.ids : DocShape → List SymbolId
  | .function signatures => signatures.flatMap DocSignature.ids
  | .module exports => exports.map (·.2)
  | .variable _ type => type.ids
  | .typeAlias typeParams type => typeParams.flatMap DocTypeParam.ids ++ type.ids
  | .interface typeParams bases members =>
    typeParams.flatMap DocTypeParam.ids ++ bases.flatMap DocType.ids ++
      members.flatMap DocMember.ids
  | .class typeParams base interfaces constructors members _ _ =>
    typeParams.flatMap DocTypeParam.ids ++ typeIds? base ++ interfaces.flatMap DocType.ids ++
      constructors.flatMap DocSignature.ids ++ members.flatMap DocClassMember.ids
  | .enum _ members => members
  | .enumMember _ | .unknown _ _ => []

/-- The symbols that a documented symbol names. -/
def DocSymbol.ids (s : DocSymbol) : List SymbolId := s.shape.ids

end ApiSurface
