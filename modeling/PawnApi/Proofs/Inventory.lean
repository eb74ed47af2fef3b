/-
  PawnApi.Proofs.Inventory

  Reading the inventory back.

  Each record of the inventory has a reader that looks its fields up by name. The word
  under `type` decides the shape of an entry, a list of tags that is left out is empty, and
  null is a missing default or parent. Every reader undoes its writer, so the text of an
  inventory is read as the entries it was rendered from (`inventory_read_back`).
-/
import PawnApi.Entry.Json
import PawnApi.Proofs.JsonReader

namespace PawnApi

namespace Json

/-! ## Fields -/

/-- The field of an object with a given name. -/
def field? (name : String) : Json → Option Json
  | obj fields => fields.lookup name
  | _ => none

def string? : Json → Option String
  | str s => some s
  | _ => none

/-- A string, or null for none. -/
def optional? : Json → Option (Option String)
  | null => some none
  | str s => some (some s)
  | _ => none

/-- The items of an array, each read by `read`. -/
def list? {α : Type} (read : Json → Option α) : Json → Option (List α)
  | arr items => items.mapM read
  | _ => none

/-- A list of strings that may be left out when it is empty. -/
def stringsUnlessEmpty? (name : String) (j : Json) : Option (List String) :=
  match j.field? name with
  | some v => v.list? string?
  | none => some []

theorem list?_map {α : Type} {read : Json → Option α} {write : α → Json}
    (h : ∀ x, read (write x) = some x) (xs : List α) :
    list? read (.arr (xs.map write)) = some xs := by
  rw [list?]
  induction xs with
  | nil => rfl
  | cons x xs ih => simp [h, ih]

@[simp] theorem list?_strings (ss : List String) : list? string? (strings ss) = some ss := by
  have h : ∀ s, string? (.str s) = some s := fun _ => rfl
  exact list?_map h ss

@[simp] theorem optional?_optional (o : Option String) : optional? (optional o) = some o := by
  cases o <;> rfl

theorem lookup_unlessEmpty_of_ne {name other : String} (h : name ≠ other) (ss : List String) :
    (unlessEmpty other ss).lookup name = none := by
  rw [unlessEmpty]
  split
  · rfl
  · rw [List.lookup_cons, beq_eq_false_iff_ne.2 h]
    rfl

/-- A list of strings is read back whether it was left out or not. -/
theorem stringsUnlessEmpty?_obj {name : String} {lead more : List (String × Json)}
    (hlead : lead.lookup name = none) (hmore : more.lookup name = none) (ss : List String) :
    stringsUnlessEmpty? name (.obj (lead ++ (unlessEmpty name ss ++ more))) = some ss := by
  have hfield : field? name (.obj (lead ++ (unlessEmpty name ss ++ more)))
      = (unlessEmpty name ss).lookup name := by
    rw [field?, List.lookup_append, List.lookup_append, hlead, hmore, Option.none_or,
      Option.or_none]
  rw [stringsUnlessEmpty?, hfield, unlessEmpty]
  cases ss with
  | nil => rfl
  | cons s ss =>
    simp only [List.isEmpty_cons, Bool.false_eq_true, if_false, List.lookup_cons, beq_self_eq_true]
    exact list?_strings (s :: ss)

end Json

/-! ## Records -/

def Doc.ParamTag.ofJson? (j : Json) : Option Doc.ParamTag := do
  let name ← (← j.field? "name").string?
  let description ← (← j.field? "description").string?
  return ⟨name, description⟩

def Doc.Tags.ofJson? (j : Json) : Option Doc.Tags := do
  let param ← (← j.field? "param").list? Doc.ParamTag.ofJson?
  let error ← (← j.field? "error").list? Json.string?
  let note ← (← j.field? "note").list? Json.string?
  let returns ← (← j.field? "return").string?
  let deprecated ← j.stringsUnlessEmpty? "deprecated"
  let see ← j.stringsUnlessEmpty? "see"
  let author ← j.stringsUnlessEmpty? "author"
  return { param, error, note, returns, deprecated, see, author }

def Param.ofJson? (j : Json) : Option Param := do
  let name ← (← j.field? "name").string?
  let type ← (← j.field? "type").string?
  let default ← (← j.field? "default").optional?
  let description ← (← j.field? "description").string?
  return { name, type, default, description }

def Method.ofJson? (j : Json) : Option Method := do
  let name ← (← j.field? "name").string?
  let kind ← FunctionKind.ofKeyword? (← (← j.field? "type").string?)
  let returnType ← (← j.field? "return_type").string?
  let params ← (← j.field? "params").list? Param.ofJson?
  let fullDeclaration ← (← j.field? "full_declaration").string?
  return { name, kind, returnType, params, fullDeclaration }

def Property.ofJson? (j : Json) : Option Property := do
  let name ← (← j.field? "name").string?
  let type ← (← j.field? "type").string?
  return { name, type }

@[simp] theorem Doc.ParamTag.ofJson?_toJson (p : Doc.ParamTag) : ofJson? p.toJson = some p := rfl

@[simp] theorem Param.ofJson?_toJson (p : Param) : ofJson? p.toJson = some p := by
  have hdefault : Json.optional? (Json.optional p.default) = some p.default :=
    Json.optional?_optional p.default
  show (Json.optional? (Json.optional p.default)).bind _ = _
  rw [hdefault]
  rfl

@[simp] theorem Property.ofJson?_toJson (p : Property) : ofJson? p.toJson = some p := rfl

@[simp] theorem Method.ofJson?_toJson (m : Method) : ofJson? m.toJson = some m := by
  have hkind := FunctionKind.ofKeyword?_keyword m.kind
  have hparams := Json.list?_map Param.ofJson?_toJson m.params
  show (FunctionKind.ofKeyword? m.kind.keyword).bind _ = _
  rw [hkind, Option.bind_some]
  show (Json.list? Param.ofJson? (.arr (m.params.map Param.toJson))).bind _ = _
  rw [hparams]
  rfl

/-- The fields of the tags that are always there. -/
def Doc.Tags.commonFields (t : Doc.Tags) : List (String × Json) :=
  [("param", .arr (t.param.map Doc.ParamTag.toJson)), ("error", Json.strings t.error),
    ("note", Json.strings t.note), ("return", .str t.returns)]

/-- The lists that may be left out are read back past the fields around them. -/
theorem Doc.Tags.stringsUnlessEmpty?_toJson (t : Doc.Tags) :
    t.toJson.stringsUnlessEmpty? "deprecated" = some t.deprecated ∧
      t.toJson.stringsUnlessEmpty? "see" = some t.see ∧
      t.toJson.stringsUnlessEmpty? "author" = some t.author := by
  have hne : ∀ {n m : String}, n ≠ m → ∀ ss, (Json.unlessEmpty m ss).lookup n = none :=
    Json.lookup_unlessEmpty_of_ne
  refine ⟨?_, ?_, ?_⟩
  · have hmore : (Json.unlessEmpty "see" t.see ++ Json.unlessEmpty "author" t.author).lookup
        "deprecated" = none := by
      rw [List.lookup_append, hne (by decide), hne (by decide)]
      rfl
    rw [toJson, List.append_assoc, List.append_assoc]
    exact Json.stringsUnlessEmpty?_obj rfl hmore t.deprecated
  · have hlead : (t.commonFields ++ Json.unlessEmpty "deprecated" t.deprecated).lookup "see"
        = none := by
      rw [List.lookup_append, hne (by decide)]
      rfl
    rw [toJson, List.append_assoc]
    exact Json.stringsUnlessEmpty?_obj hlead (hne (by decide) _) t.see
  · have hlead : (t.commonFields ++ Json.unlessEmpty "deprecated" t.deprecated ++
        Json.unlessEmpty "see" t.see).lookup "author" = none := by
      rw [List.lookup_append, List.lookup_append, hne (by decide), hne (by decide)]
      rfl
    rw [toJson, ← List.append_nil (Json.unlessEmpty "author" t.author)]
    exact Json.stringsUnlessEmpty?_obj hlead rfl t.author

@[simp] theorem Doc.Tags.ofJson?_toJson (t : Doc.Tags) : ofJson? t.toJson = some t := by
  have hparam := Json.list?_map Doc.ParamTag.ofJson?_toJson t.param
  obtain ⟨hdeprecated, hsee, hauthor⟩ := t.stringsUnlessEmpty?_toJson
  -- field by field, in the order of the reader
  show (Json.list? Doc.ParamTag.ofJson? (.arr (t.param.map Doc.ParamTag.toJson))).bind _ = _
  rw [hparam, Option.bind_some]
  show (Json.list? Json.string? (Json.strings t.error)).bind _ = _
  rw [Json.list?_strings, Option.bind_some]
  show (Json.list? Json.string? (Json.strings t.note)).bind _ = _
  rw [Json.list?_strings, Option.bind_some]
  show (t.toJson.stringsUnlessEmpty? "deprecated").bind _ = _
  rw [hdeprecated, Option.bind_some]
  show (t.toJson.stringsUnlessEmpty? "see").bind _ = _
  rw [hsee, Option.bind_some]
  show (t.toJson.stringsUnlessEmpty? "author").bind _ = _
  rw [hauthor]
  rfl

namespace Entry

/-- The shape of an entry that is filed under a word. -/
def shape? (type : String) (j : Json) : Option Shape :=
  match FunctionKind.ofKeyword? type with
  | some kind => do
    let returnType ← (← j.field? "return_type").string?
    let params ← (← j.field? "params").list? Param.ofJson?
    return .function kind returnType params
  | none =>
    if type = "methodmap" then do
      let inherits ← (← j.field? "inherits").optional?
      let methods ← (← j.field? "methods").list? Method.ofJson?
      let properties ← (← j.field? "properties").list? Property.ofJson?
      return .methodmap inherits methods properties
    else if type = "typedef" then do
      let returnType ← (← j.field? "return_type").string?
      let params ← (← j.field? "params").list? Param.ofJson?
      return .typedef returnType params
    else none

def ofJson? (j : Json) : Option Entry := do
  let type ← (← j.field? "type").string?
  let name ← (← j.field? "name").string?
  let shape ← shape? type j
  let comment ← (← j.field? "comment").string?
  let tags ← Doc.Tags.ofJson? (← j.field? "tags")
  let fullDeclaration ← (← j.field? "full_declaration").string?
  let sourceFile ← (← j.field? "source_file").string?
  return { name, shape, comment, tags, fullDeclaration, sourceFile }

/-- The entries of an inventory given as text. -/
def readAll? (text : String) : Option (List Entry) :=
  (Json.ofText? text.toList).bind (Json.list? ofJson?)

theorem shape?_toJson (e : Entry) : shape? e.typeName e.toJson = some e.shape := by
  obtain ⟨name, shape, comment, tags, fullDeclaration, sourceFile⟩ := e
  cases shape with
  | function kind returnType params =>
    have hkind := FunctionKind.ofKeyword?_keyword kind
    have hparams := Json.list?_map Param.ofJson?_toJson params
    simp only [shape?, typeName, hkind]
    show (Json.list? Param.ofJson? (.arr (params.map Param.toJson))).bind _ = _
    rw [hparams]
    rfl
  | methodmap inherits methods properties =>
    have hinherits := Json.optional?_optional inherits
    have hmethods := Json.list?_map Method.ofJson?_toJson methods
    have hproperties := Json.list?_map Property.ofJson?_toJson properties
    -- `methodmap` is no keyword of a function, so its own fields are looked up
    show (Json.optional? (Json.optional inherits)).bind _ = _
    rw [hinherits, Option.bind_some]
    show (Json.list? Method.ofJson? (.arr (methods.map Method.toJson))).bind _ = _
    rw [hmethods, Option.bind_some]
    show (Json.list? Property.ofJson? (.arr (properties.map Property.toJson))).bind _ = _
    rw [hproperties]
    rfl
  | typedef returnType params =>
    have hparams := Json.list?_map Param.ofJson?_toJson params
    show (Json.list? Param.ofJson? (.arr (params.map Param.toJson))).bind _ = _
    rw [hparams]
    rfl

/-- The fields that every entry has. -/
theorem field?_toJson (e : Entry) :
    e.toJson.field? "type" = some (.str e.typeName) ∧
      e.toJson.field? "name" = some (.str e.name) ∧
      e.toJson.field? "comment" = some (.str e.comment) ∧
      e.toJson.field? "tags" = some e.tags.toJson ∧
      e.toJson.field? "full_declaration" = some (.str e.fullDeclaration) ∧
      e.toJson.field? "source_file" = some (.str e.sourceFile) := by
  obtain ⟨name, shape, comment, tags, fullDeclaration, sourceFile⟩ := e
  cases shape <;> exact ⟨rfl, rfl, rfl, rfl, rfl, rfl⟩

theorem ofJson?_toJson (e : Entry) : ofJson? e.toJson = some e := by
  obtain ⟨htype, hname, hcomment, htags, hwritten, hfile⟩ := e.field?_toJson
  simp only [ofJson?, htype, hname, hcomment, htags, hwritten, hfile, Json.string?,
    e.shape?_toJson, Doc.Tags.ofJson?_toJson, Option.bind_eq_bind, Option.bind_some,
    Option.pure_def]

/-! ## The whole inventory -/

theorem toList_renderAll (pretty : Bool) (es : List Entry) :
    (renderAll pretty es).toList
      = if pretty then (inventory es).indented 0 else (inventory es).compact := by
  rw [renderAll, Json.render, String.toList_ofList]

theorem spells_renderAll (pretty : Bool) (es : List Entry) :
    (inventory es).Spells (renderAll pretty es).toList := by
  rw [toList_renderAll]
  cases pretty with
  | true => exact Json.spells_indented (inventory es) 0
  | false => exact Json.spells_compact (inventory es)

theorem readAll?_renderAll (pretty : Bool) (es : List Entry) :
    readAll? (renderAll pretty es) = some es := by
  rw [readAll?, Json.ofText?_of_spells (spells_renderAll pretty es), Option.bind_some]
  exact Json.list?_map ofJson?_toJson es

/-- **Reading back.** The text of an inventory spells a JSON array and is read as the entries
    that it was rendered from, so no other entries are rendered as the same text. The two
    renderings differ in the blanks outside strings, and the compact one is on one line. -/
theorem inventory_read_back (pretty : Bool) (es : List Entry) :
    (∃ items, (Json.arr items).Spells (renderAll pretty es).toList) ∧
      readAll? (renderAll pretty es) = some es ∧
      (∀ es', renderAll pretty es' = renderAll pretty es → es' = es) ∧
      Json.withoutBlanks .outside (renderAll true es).toList = (renderAll false es).toList ∧
      '\n' ∉ (renderAll false es).toList := by
  refine ⟨⟨es.map toJson, spells_renderAll pretty es⟩, readAll?_renderAll pretty es, ?_, ?_, ?_⟩
  · intro es' h
    have hread := readAll?_renderAll pretty es'
    rw [h, readAll?_renderAll, Option.some.injEq] at hread
    exact hread.symm
  · rw [toList_renderAll, toList_renderAll]
    exact Json.withoutBlanks_indented (inventory es) 0
  · rw [toList_renderAll]
    exact Json.newline_not_mem_compact (inventory es)

end Entry

end PawnApi
