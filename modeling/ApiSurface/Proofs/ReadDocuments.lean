import Mathlib.Data.List.Sort
import ApiSurface.Proofs.ReadTypes
import ApiSurface.Proofs.Tables
/-!
Documents that are read back from the JSON that was written for them.
-/
namespace ApiSurface

open Json (obj arr str bool tagged flag present text? listOf? Restores)

/-! ### Tables -/

namespace Table

/-- The keys stand in order, each once. -/
def IsSorted {α : Type} (t : Table String α) : Prop := t.keys.Pairwise (· < ·)

variable {α : Type}

theorem IsSorted.nodup {t : Table String α} (h : t.IsSorted) : t.keys.Nodup := by
  refine List.Pairwise.imp (fun {a b} hlt => ?_) h
  rintro rfl
  exact String.lt_irrefl a hlt

theorem IsSorted.sorted_eq {t : Table String α} (h : t.IsSorted) : t.sorted = t := by
  refine List.mergeSort_of_pairwise ?_
  exact (List.pairwise_map.mp h).imp fun hlt =>
    decide_eq_true (String.not_lt.mp (String.lt_asymm hlt))

theorem foldl_insert (s t : Table String α) (hd : (s ++ t).keys.Nodup) :
    t.foldl (fun s e => s.insert e.1 e.2) s = s ++ t := by
  induction t generalizing s with
  | nil => rw [List.append_nil, List.foldl_nil]
  | cons e t ih =>
    have hsplit : s ++ e :: t = s ++ [e] ++ t := by simp
    have hfresh : e.1 ∉ s.keys := by
      intro hmem
      rw [keys, List.map_append, List.nodup_append] at hd
      exact hd.2.2 _ hmem _ List.mem_cons_self rfl
    rw [List.foldl_cons, insert_of_not_mem hfresh, hsplit]
    exact ih (s ++ [e]) (hsplit ▸ hd)

end Table

namespace Json

variable {α : Type} {f : α → Json} {read : Json → Option α}

theorem table?_ofTable {t : Table String α} (hd : t.keys.Nodup)
    (h : ∀ e ∈ t, read (f e.2) = some e.2) : (ofTable f t).table? read = some t := by
  have hentries : (t.map fun e => (e.1, f e.2)).mapM
      (fun e => (e.1, ·) <$> read e.2) = some t := by
    clear hd
    induction t with
    | nil => rfl
    | cons e t ih =>
      obtain ⟨he, ht⟩ := List.forall_mem_cons.mp h
      rw [List.map_cons, List.mapM_cons, ih ht]
      simp [he]
  show ((t.map fun e => (e.1, f e.2)).mapM _ >>= fun entries => _) = some t
  rw [hentries]
  exact congrArg some (Table.foldl_insert [] t hd)

end Json

theorem tableOf?_ofTable {α : Type} {f : α → Json} {read : Json → Option α} {t : Table String α}
    (hs : t.IsSorted) (h : ∀ e ∈ t, read (f e.2) = some e.2) :
    tableOf? read (.ofTable f t) = some t := by
  rw [tableOf?, Json.table?_ofTable hs.nodup h, Option.map_some, hs.sorted_eq]

/-! ### Symbols -/

/-- The names of what only members of classes have. -/
def memberFlags : List String := ["static", "protected", "abstract"]

theorem DocMember.fields_flags (m : DocMember) :
    m.fields.all (fun f => !memberFlags.contains f.1) = true := by
  cases m <;> simp [fields, memberFlags]

theorem DocClassMember.ofJson?_toJson {m : DocClassMember} (hx : Legible m.member.numbers) :
    ofJson? DocType.ofJson? m.toJson = some m := by
  have hmember : DocMember.ofJson? DocType.ofJson? (obj m.member.fields) = some m.member :=
    DocMember.restores (DocType.restores _) m.member hx (Nat.le_succ _)
  obtain ⟨member, isStatic, isProtected, isAbstract⟩ := m
  let flags := flag "static" isStatic ++ flag "protected" isProtected ++ flag "abstract" isAbstract
  have hjson : toJson ⟨member, isStatic, isProtected, isAbstract⟩ = obj (member.fields ++ flags) := by
    simp only [toJson, flags, List.append_assoc]
  have hall := List.all_eq_true.mp member.fields_flags
  have hrest : (member.fields ++ flags).filter (fun f => !memberFlags.contains f.1) =
      member.fields := by
    rw [List.filter_append, List.filter_eq_self.mpr hall, List.append_right_eq_self]
    cases isStatic <;> cases isProtected <;> cases isAbstract <;> simp [flags, flag, memberFlags]
  have hrecord : (obj (member.fields ++ flags)).record? memberFlags = some ⟨flags, false⟩ := by
    have hnone : member.fields.filter (memberFlags.contains ·.1) = [] :=
      List.filter_eq_nil_iff.mpr fun f hf => by simpa using hall f hf
    simp only [Json.record?, List.filter_append, hnone, List.nil_append]
    cases isStatic <;> cases isProtected <;> cases isAbstract <;> simp [flags, flag, memberFlags]
  rw [hjson]
  show ((obj (member.fields ++ flags)).record? memberFlags).bind (fun r =>
    (DocMember.ofJson? DocType.ofJson? 
      (obj ((member.fields ++ flags).filter fun f => !memberFlags.contains f.1))).bind _) = _
  rw [hrecord, hrest, hmember]
  cases isStatic <;> cases isProtected <;> cases isAbstract <;>
    simp [flags, flag, Json.Record.withDefault, List.lookup_cons, Json.bool?]

theorem DocClassMember.isWhole_toJson {m : DocClassMember} (hx : Legible m.member.numbers) :
    m.toJson.isWhole isReadable = true := by
  obtain ⟨member, isStatic, isProtected, isAbstract⟩ := m
  have hmember := member.isWhole_fields hx
  cases isStatic <;> cases isProtected <;> cases isAbstract <;>
    simp [toJson, flag, Json.isWhole, Json.haveWhole_append, Json.haveWhole, hmember]

theorem VariableKind.ofJson?_word (kind : VariableKind) : ofJson? (str kind.word) = some kind := by
  cases kind <;> rfl

namespace EnumValue

/-- The numbers in the value of an enum member. -/
def numbers : EnumValue → List Float
  | .number value => [value]
  | .string _ => []

/-- A string is never taken for a number, and no value for an absent one. -/
theorem ofJson?_toJson {v : EnumValue} (hx : Legible v.numbers) :
    v.toJson ≠ .null ∧ ofJson? v.toJson = some v := by
  cases v with
  | string value => exact ⟨Json.noConfusion, rfl⟩
  | number value =>
    have hread := float?_numberJson hx
    have hnumber : numberJson value = .num (numberText value) := if_pos (hx value (by simp [numbers])).1
    rw [hnumber] at hread
    rw [toJson, hnumber]
    refine ⟨Json.noConfusion, ?_⟩
    rw [ofJson?, hread, Option.map_some]
    exact fun _ => Json.noConfusion

end EnumValue

namespace DocShape

/-- The numbers in what a symbol is. -/
def numbers : DocShape → List Float
  | .function signatures => signatures.flatMap DocSignature.numbers
  | .variable _ type => type.numbers
  | .typeAlias typeParams type => typeParamsNumbers typeParams ++ type.numbers
  | .interface typeParams bases members =>
    typeParamsNumbers typeParams ++ typesNumbers bases ++ membersNumbers members
  | .class typeParams base interfaces constructors members _ _ =>
    typeParamsNumbers typeParams ++ typeNumbers? base ++ typesNumbers interfaces ++
      constructors.flatMap DocSignature.numbers ++ members.flatMap (·.member.numbers)
  | .enumMember value => value.elim [] EnumValue.numbers
  | .module _ | .enum .. | .unknown .. => []

/-- The exports of a module have distinct names. -/
def IsTable : DocShape → Prop
  | .module exports => exports.keys.Nodup
  | _ => True

end DocShape

/-- Text is read back. -/
theorem listOf?_str (xs : List String) : listOf? Json.str? (.list str xs) = some xs :=
  have hstr (n : ℕ) : Restores n str (fun _ => []) Json.str? := fun _ _ _ => rfl
  (hstr _).list xs (legible_flatMap.mpr fun _ _ => legible_nil) (Nat.le_refl _)

section

variable {types : List DocType} {params : List DocTypeParam} {members : List DocMember}
  {signatures : List DocSignature} {classMembers : List DocClassMember}

theorem listOf?_types (hx : Legible (typesNumbers types)) :
    listOf? DocType.ofJson? (arr (typesJson types)) = some types := by
  rw [typesNumbers_eq] at hx
  rw [typesJson_eq]
  exact (DocType.restores _).list types hx (Nat.le_refl _)

theorem listOf?_typeParams (hx : Legible (typeParamsNumbers params)) :
    listOf? (DocTypeParam.ofJson? DocType.ofJson?) (arr (typeParamsJson params)) = some params := by
  rw [typeParamsNumbers_eq] at hx
  rw [typeParamsJson_eq]
  exact (DocTypeParam.restores (DocType.restores _)).list params hx (Nat.le_succ _)

theorem listOf?_members (hx : Legible (membersNumbers members)) :
    listOf? (DocMember.ofJson? DocType.ofJson?) (arr (membersJson members)) = some members := by
  rw [membersNumbers_eq] at hx
  rw [membersJson_eq]
  exact (DocMember.restores (DocType.restores _)).list members hx (Nat.le_succ _)

theorem listOf?_signatures (hx : Legible (signatures.flatMap DocSignature.numbers)) :
    listOf? (DocSignature.ofJson? DocType.ofJson?) (.list DocSignature.toJson signatures) =
      some signatures :=
  (DocSignature.restores (DocType.restores _)).list signatures hx (Nat.le_succ _)

theorem listOf?_classMembers (hx : Legible (classMembers.flatMap (·.member.numbers))) :
    listOf? (DocClassMember.ofJson? DocType.ofJson?)
      (.list DocClassMember.toJson classMembers) = some classMembers :=
  have h (n : ℕ) : Restores n DocClassMember.toJson (·.member.numbers)
      (DocClassMember.ofJson? DocType.ofJson?) := fun _ hx _ => DocClassMember.ofJson?_toJson hx
  (h _).list classMembers hx (Nat.le_refl _)

end

section

attribute [local simp] Json.record? Json.Record.required Json.Record.withDefault
  Json.Record.optional List.lookup_cons Json.Record.nullable_object Json.orNull?_text? Json.str?
  Json.bool? present

namespace DocSymbol

theorem ofRecord?_fields {s : DocSymbol} (ht : s.shape.IsTable) (hx : Legible s.shape.numbers) :
    ofRecord? s.shape.kindName
      (obj ([("name", str s.name), ("docs", text? s.docs)] ++ s.shape.fields)) = some s := by
  have htype (t : DocType) (hx : Legible t.numbers) : DocType.ofJson? t.toJson = some t :=
    DocType.restores _ t hx (Nat.le_refl _)
  obtain ⟨name, docs, shape⟩ := s
  cases shape with
  | function signatures =>
    simp [DocShape.kindName, DocShape.fields, ofRecord?, listOf?_signatures hx]
  | module exports =>
    have hexports : Json.table? Json.str? (.ofTable str exports) = some exports :=
      Json.table?_ofTable ht fun _ _ => rfl
    simp [DocShape.kindName, DocShape.fields, ofRecord?, hexports]
  | «variable» kind type =>
    simp [DocShape.kindName, DocShape.fields, ofRecord?, kind.ofJson?_word, htype type hx]
  | typeAlias typeParams type =>
    obtain ⟨hparams, hx⟩ := legible_append.mp hx
    simp [DocShape.kindName, DocShape.fields, ofRecord?, listOf?_typeParams hparams, htype type hx]
  | interface typeParams bases members =>
    simp only [DocShape.numbers, legible_append] at hx
    obtain ⟨⟨hparams, hbases⟩, hmembers⟩ := hx
    simp [DocShape.kindName, DocShape.fields, ofRecord?, listOf?_typeParams hparams,
      listOf?_types hbases, listOf?_members hmembers]
  | «class» typeParams base interfaces constructors members hasPrivateMembers isAbstract =>
    simp only [DocShape.numbers, legible_append] at hx
    obtain ⟨⟨⟨⟨hparams, hbase⟩, hinterfaces⟩, hconstructors⟩, hmembers⟩ := hx
    have hbase := orNull?_typeJson? (DocType.restores _) hbase (Nat.le_refl _)
    simp [DocShape.kindName, DocShape.fields, ofRecord?, listOf?_typeParams hparams, hbase,
      listOf?_types hinterfaces, listOf?_signatures hconstructors, listOf?_classMembers hmembers]
  | enum isConst members =>
    simp [DocShape.kindName, DocShape.fields, ofRecord?, listOf?_str]
  | enumMember value =>
    have hvalue : Json.orNull? EnumValue.ofJson? (.option EnumValue.toJson value) = some value := by
      refine Json.orNull?_option fun v hv => EnumValue.ofJson?_toJson ?_
      obtain rfl := Option.mem_def.mp hv
      exact hx
    simp [DocShape.kindName, DocShape.fields, ofRecord?, hvalue]
  | unknown content error => simp [DocShape.kindName, DocShape.fields, ofRecord?]

end DocSymbol

theorem ExportLocation.ofJson?_toJson (l : ExportLocation) : ofJson? l.toJson = some l := by
  simp [toJson, ofJson?]

theorem ExternalLink.ofJson?_toJson (l : ExternalLink) : ofJson? l.toJson = some l := by
  simp [toJson, ofJson?]

end

section

attribute [local simp] Json.isWhole Json.haveWhole isWhole_text?

theorem isWhole_list_of {α : Type} {f : α → Json} {numbers : α → List Float} {xs : List α}
    (h : ∀ x, Legible (numbers x) → (f x).isWhole isReadable = true)
    (hx : Legible (xs.flatMap numbers)) : (Json.list f xs).isWhole isReadable = true :=
  Json.isWhole_list fun x hmem => h x (legible_flatMap.mp hx x hmem)

theorem isWhole_texts (xs : List String) : (Json.list str xs).isWhole isReadable = true :=
  Json.isWhole_list fun _ _ => rfl

theorem DocShape.isWhole_fields {s : DocShape} (hx : Legible s.numbers) :
    Json.haveWhole isReadable s.fields = true := by
  cases s with
  | function signatures =>
    have hsignatures := isWhole_list_of (f := DocSignature.toJson)
      (fun s hs => s.isWhole_fields hs) hx
    simp [fields, hsignatures]
  | module exports =>
    have hexports : (Json.ofTable str exports).isWhole isReadable = true :=
      Json.isWhole_ofTable fun _ _ => rfl
    simp [fields, hexports]
  | «variable» kind type => simp [fields, type.isWhole_toJson hx]
  | typeAlias typeParams type =>
    obtain ⟨hparams, hx⟩ := legible_append.mp hx
    simp [fields, typeParamsJson_isWhole typeParams hparams, type.isWhole_toJson hx]
  | interface typeParams bases members =>
    simp only [numbers, legible_append] at hx
    obtain ⟨⟨hparams, hbases⟩, hmembers⟩ := hx
    simp [fields, typeParamsJson_isWhole typeParams hparams, typesJson_isWhole bases hbases,
      membersJson_isWhole members hmembers]
  | «class» typeParams base interfaces constructors members hasPrivateMembers isAbstract =>
    simp only [numbers, legible_append] at hx
    obtain ⟨⟨⟨⟨hparams, hbase⟩, hinterfaces⟩, hconstructors⟩, hmembers⟩ := hx
    have hconstructors := isWhole_list_of (f := DocSignature.toJson)
      (fun s hs => s.isWhole_fields hs) hconstructors
    have hmembers := isWhole_list_of (f := DocClassMember.toJson)
      (fun _ hm => DocClassMember.isWhole_toJson hm) hmembers
    simp [fields, typeParamsJson_isWhole typeParams hparams, typeJson?_isWhole base hbase,
      typesJson_isWhole interfaces hinterfaces, hconstructors, hmembers]
  | enum isConst members => simp [fields, isWhole_texts]
  | enumMember value =>
    rcases value with _ | ⟨_ | value⟩
    · rfl
    · rfl
    · simp [fields, Json.option, EnumValue.toJson, isWhole_numberJson hx]
  | unknown content error => rfl

theorem DocShape.fields_kind (s : DocShape) : s.fields.all (·.1 != "kind") = true := by
  cases s <;> simp [fields]

theorem DocSymbol.ofJson?_toJson {s : DocSymbol} (ht : s.shape.IsTable)
    (hx : Legible s.shape.numbers) : ofJson? s.toJson = some s := by
  have hwhole : s.toJson.isWhole isReadable = true := by
    simp [toJson, tagged, DocShape.isWhole_fields hx]
  have hkind := s.shape.fields_kind
  have hform : s.toJson.form? = some (str s.shape.kindName,
      obj ([("name", str s.name), ("docs", text? s.docs)] ++ s.shape.fields)) :=
    Json.form?_tagged _ (by simpa using hkind)
  unfold ofJson?
  rw [show (fun text => (Json.numberValue? text).isSome) = isReadable from rfl, hwhole, hform]
  exact ofRecord?_fields ht hx

end

/-! ### Documents -/

namespace Document

/-- The numbers in a document. -/
def numbers (d : Document) : List Float := d.symbols.flatMap (·.2.shape.numbers)

/-- Each table has its keys in order, and modules export each name once. -/
structure IsSorted (d : Document) : Prop where
  symbols : d.symbols.IsSorted
  exports : ∀ e ∈ d.symbols, e.2.shape.IsTable
  references : d.references.IsSorted
  locations : d.locations.IsSorted
  identifiers : d.identifiers.IsSorted
  inner : d.inner.IsSorted
  externals : d.externals.IsSorted

section

attribute [local simp] Json.record? Json.Record.required Json.Record.optional_eq List.lookup_cons
  Json.str? present

theorem ofJsonBy?_toJson {symbol : Json → Option DocSymbol} {d : Document} (hs : d.IsSorted)
    (hsymbol : ∀ e ∈ d.symbols, symbol e.2.toJson = some e.2) :
    ofJsonBy? symbol d.toJson = some d := by
  have hsymbols : tableOf? symbol (.ofTable DocSymbol.toJson d.symbols) = some d.symbols :=
    tableOf?_ofTable hs.symbols hsymbol
  have hreferences : tableOf? (listOf? Json.str?) (.ofTable (.list str) d.references) =
      some d.references := tableOf?_ofTable hs.references fun e _ => listOf?_str e.2
  have hlocations : tableOf? ExportLocation.ofJson? (.ofTable ExportLocation.toJson d.locations) =
      some d.locations := tableOf?_ofTable hs.locations fun e _ => e.2.ofJson?_toJson
  have hidentifiers : tableOf? Json.str? (.ofTable str d.identifiers) = some d.identifiers :=
    tableOf?_ofTable hs.identifiers fun _ _ => rfl
  have hinner : tableOf? (listOf? Json.str?) (.ofTable (.list str) d.inner) =
      some d.inner := tableOf?_ofTable hs.inner fun e _ => listOf?_str e.2
  have hexternals : tableOf? ExternalLink.ofJson? (.ofTable ExternalLink.toJson d.externals) =
      some d.externals := tableOf?_ofTable hs.externals fun e _ => e.2.ofJson?_toJson
  obtain ⟨packageName, currentVersion, versions, roots, symbols, references, locations, identifiers,
    inner, externals⟩ := d
  have hroots := listOf?_str roots
  cases versions with
  | none =>
    simp [ofJsonBy?, toJson, hroots, hsymbols, hreferences, hlocations, hidentifiers, hinner,
      hexternals]
  | some versions =>
    have hversions : Json.orNull? (listOf? Json.str?) (.list str versions) = some (some versions) :=
      congrArg (Option.map some) (listOf?_str versions)
    simp [ofJsonBy?, toJson, hversions, hroots, hsymbols, hreferences, hlocations, hidentifiers,
      hinner, hexternals]

end

/-- A document is read back from its JSON. Its numbers are finite, and the text of each number is
read back as that number. -/
theorem reads_back {d : Document} (hs : d.IsSorted) (hfinite : ∀ x ∈ d.numbers, x.isFinite = true)
    (htext : ∀ x ∈ d.numbers, Json.numberValue? (numberText x) = some x) :
    ofJson? d.toJson = some d := by
  have hx : Legible d.numbers := fun x h => ⟨hfinite x h, htext x h⟩
  exact ofJsonBy?_toJson hs fun e he =>
    DocSymbol.ofJson?_toJson (hs.exports e he) (legible_flatMap.mp hx e he)

/-- An alias for a number or a word, exported by a module under its name. -/
def ratio : Document where
  packageName := "pkg"
  currentVersion := "1.0.0"
  versions := some ["1.0.0"]
  roots := ["index.ts:0"]
  symbols := [("index.ts:0", ⟨"index", none, .module [("Ratio", "index.ts:7")]⟩),
    ("index.ts:7", ⟨"Ratio", some "A ratio.", .typeAlias [] (.union [.number 1.5, .string "auto"])⟩)]
  references := []
  locations := [("index.ts:7", ⟨"Ratio", "index.ts:0"⟩)]
  identifiers := [("index.ts:0", "index"), ("index.ts:7", "Ratio")]
  inner := []
  externals := []

theorem reads_back_ratio : ratio.IsSorted ∧ ofJson? ratio.toJson = some ratio := by
  have hs : ratio.IsSorted := by
    have hkeys : ["index.ts:0", "index.ts:7"].Pairwise (· < ·) := by decide
    constructor
    case symbols => exact hkeys
    case exports => simp [ratio, DocShape.IsTable, Table.keys]
    case identifiers => exact hkeys
    all_goals simp [ratio, Table.IsSorted, Table.keys]
  have hnumbers : ratio.numbers = [1.5] := rfl
  refine ⟨hs, reads_back hs ?_ ?_⟩
  · rw [hnumbers]
    decide
  · rw [hnumbers]
    decide +kernel

/-- The text of a document is read back where it is read as the JSON it was written from, and where
its symbols do not nest too deep for the text of a document. -/
theorem ofText?_text {d : Document} (hs : d.IsSorted) (hx : Legible d.numbers)
    (hjson : Json.read? d.text = some d.toJson)
    (hnesting : ∀ e ∈ d.symbols, e.2.toJson.depth ≤ symbolNesting) :
    ofText? d.text = some d := by
  show (Json.read? d.text).bind (ofJsonBy? _) = some d
  rw [hjson]
  refine ofJsonBy?_toJson hs fun e he => ?_
  rw [if_pos (hnesting e he)]
  exact DocSymbol.ofJson?_toJson (hs.exports e he) (legible_flatMap.mp hx e he)

end Document

end ApiSurface
