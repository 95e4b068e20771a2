import BluespecDocs.Encoding

/-!
Declarations and their parts, decoded from JSON. Fields are found by their keys, in whatever order they stand, and
keys that are not asked for are passed over. Every form decodes to what it is the form of.
-/

namespace BluespecDocs

namespace Json

variable {α : Type}

/-- The value of a field of an object. -/
def get? (key : String) : Json → Option Json
  | object fields => fields.lookup key
  | _ => none

/-- Decodes a field of an object. -/
def field? (key : String) (decode : Json → Option α) (json : Json) : Option α := (json.get? key).bind decode

def nat? : Json → Option Nat
  | nat n => some n
  | _ => none

def str? : Json → Option String
  | str s => some s
  | _ => none

def bool? : Json → Option Bool
  | bool b => some b
  | _ => none

/-- Decodes a value that may be missing. -/
def nullable? (decode : Json → Option α) : Json → Option (Option α)
  | null => some none
  | json => (decode json).map some

/-- Decodes a list of values. -/
def items? (decode : Json → Option α) : Json → Option (List α)
  | list items => items.mapM decode
  | _ => none

mutual

/-- How many values lie inside one another, the outermost and the innermost counted. -/
def depth : Json → Nat
  | list items => depthOfItems items + 1
  | object fields => depthOfFields fields + 1
  | _ => 1

def depthOfItems : List Json → Nat
  | [] => 0
  | item :: items => max (depth item) (depthOfItems items)

def depthOfFields : List (String × Json) → Nat
  | [] => 0
  | (_, value) :: fields => max (depth value) (depthOfFields fields)

end

/-- Decodes a value with at most `n` levels, given how to decode one from what lies inside it. -/
def decodeTo? (step : (Json → Option α) → Json → Option α) : Nat → Json → Option α
  | 0, _ => none
  | n + 1, json => step (decodeTo? step n) json

@[simp]
theorem get_object_nil (key : String) : (object []).get? key = none := rfl

@[simp]
theorem get_object_cons (key key' : String) (value : Json) (fields : List (String × Json)) :
    (object ((key', value) :: fields)).get? key = if key = key' then some value else (object fields).get? key := by
  simp only [get?, List.lookup_cons]
  by_cases h : key = key'
  · simp [h]
  · simp [h, beq_eq_false_iff_ne.mpr h]

@[simp]
theorem nat_nat (n : Nat) : (nat n).nat? = some n := rfl

@[simp]
theorem str_str (s : String) : (str s).str? = some s := rfl

@[simp]
theorem bool_bool (b : Bool) : (bool b).bool? = some b := rfl

section Views

-- What is decoded may be less than what was encoded: a view of it.
variable {β : Type} {decode : Json → Option α} {encode : β → Json} {view : β → α}

theorem nullable_view (h : ∀ b, decode (encode b) = some (view b)) (hnull : decode null = none) (o : Option β) :
    nullable? decode (orNull encode o) = some (o.map view) := by
  cases o with
  | none => rfl
  | some b =>
      have hne : encode b ≠ null := by
        intro heq
        have hsome := h b
        rw [heq, hnull] at hsome
        cases hsome
      rw [orNull, nullable?, h]
      · rfl
      · exact hne

theorem items_view (h : ∀ b, decode (encode b) = some (view b)) (bs : List β) :
    items? decode (listOf encode bs) = some (bs.map view) := by
  rw [listOf, items?]
  induction bs with
  | nil => rfl
  | cons b bs ih => simp [h, ih]

end Views

variable {decode : Json → Option α} {encode : α → Json}

theorem nullable_orNull (h : ∀ a, decode (encode a) = some a) (hnull : decode null = none) (o : Option α) :
    nullable? decode (orNull encode o) = some o :=
  (nullable_view h hnull o).trans (congrArg some Option.map_id')

theorem items_listOf (h : ∀ a, decode (encode a) = some a) (as : List α) :
    items? decode (listOf encode as) = some as :=
  (items_view h as).trans (congrArg some (List.map_id'' (fun _ => rfl) as))

end Json

open Json (field? nullable? items? nullable_orNull items_listOf)

namespace Span

def ofJson? (json : Json) : Option Span :=
  return ⟨← json.field? "start" Json.nat?, ← json.field? "end" Json.nat?⟩

@[simp]
theorem ofJson_toJson (span : Span) : ofJson? span.toJson = some span := by
  simp [ofJson?, toJson, field?]

end Span

namespace LetterCase

def ofJson? : Json → Option LetterCase
  | .str "capitalized" => some capitalized
  | .str "lowercase" => some lowercase
  | _ => none

@[simp]
theorem ofJson_toJson (letterCase : LetterCase) : ofJson? letterCase.toJson = some letterCase := by
  cases letterCase <;> rfl

end LetterCase

namespace Identifier

def ofJson? (json : Json) : Option Identifier :=
  return ⟨← json.field? "name" Json.str?, ← json.field? "case" LetterCase.ofJson?⟩

@[simp]
theorem ofJson_toJson (ident : Identifier) : ofJson? ident.toJson = some ident := by
  simp [ofJson?, toJson, field?]

end Identifier

namespace Base

def ofJson? : Json → Option Base
  | .str "decimal" => some decimal
  | .str "hex" => some hex
  | .str "octal" => some octal
  | .str "binary" => some binary
  | _ => none

@[simp]
theorem ofJson_toJson (base : Base) : ofJson? base.toJson = some base := by
  cases base <;> rfl

end Base

namespace IntLiteral

def ofJson? (json : Json) : Option IntLiteral := do
  match ← json.field? "form" Json.str? with
  | "plain" => return plain (← json.field? "digits" Json.str?)
  | "based" =>
    return based (← json.field? "width" (nullable? Json.nat?)) (← json.field? "base" Base.ofJson?)
      (← json.field? "digits" Json.str?)
  | "fill" => return fill (← json.field? "ones" Json.bool?)
  | _ => none

@[simp]
theorem ofJson_toJson (literal : IntLiteral) : ofJson? literal.toJson = some literal := by
  cases literal <;> simp [ofJson?, toJson, field?, nullable_orNull Json.nat_nat rfl]

end IntLiteral

namespace TypeExpr

/-- Decodes a type, given how to decode those inside it. -/
def decodeStep? (inner : Json → Option TypeExpr) (json : Json) : Option TypeExpr := do
  match ← json.field? "form" Json.str? with
  | "named" =>
    return named (← json.field? "package" (nullable? Identifier.ofJson?))
      (← json.field? "name" Identifier.ofJson?) (← json.field? "type_args" (items? inner))
  | "function" =>
    return function (← json.field? "return_type" inner) (← json.field? "name" Identifier.ofJson?)
      (← json.field? "params" (items? inner))
  | "numeric" => return numeric (← json.field? "literal" IntLiteral.ofJson?)
  | _ => none

def ofJson? (json : Json) : Option TypeExpr := Json.decodeTo? decodeStep? json.depth json

mutual

theorem decodeTo_toJson : (t : TypeExpr) → (n : Nat) → t.toJson.depth ≤ n →
    Json.decodeTo? decodeStep? n t.toJson = some t
  | named package name args, n, hn => by
      simp only [toJson, Json.depth, Json.depthOfFields] at hn
      obtain ⟨n, rfl⟩ : ∃ m, n = m + 1 := ⟨n - 1, by omega⟩
      have hargs := decodeTo_toJsons args n (by omega)
      simp [Json.decodeTo?, decodeStep?, toJson, field?, items?, nullable_orNull Identifier.ofJson_toJson rfl, hargs]
  | function result name params, n, hn => by
      simp only [toJson, Json.depth, Json.depthOfFields] at hn
      obtain ⟨n, rfl⟩ : ∃ m, n = m + 1 := ⟨n - 1, by omega⟩
      have hresult := decodeTo_toJson result n (by omega)
      have hparams := decodeTo_toJsons params n (by omega)
      simp [Json.decodeTo?, decodeStep?, toJson, field?, items?, hresult, hparams]
  | numeric literal, n, hn => by
      simp only [toJson, Json.depth] at hn
      obtain ⟨n, rfl⟩ : ∃ m, n = m + 1 := ⟨n - 1, by omega⟩
      simp [Json.decodeTo?, decodeStep?, toJson, field?]

theorem decodeTo_toJsons : (ts : List TypeExpr) → (n : Nat) → Json.depthOfItems (toJsons ts) ≤ n →
    (toJsons ts).mapM (Json.decodeTo? decodeStep? n) = some ts
  | [], n, _ => by
      rw [toJsons]
      rfl
  | t :: ts, n, hn => by
      simp only [toJsons, Json.depthOfItems] at hn
      have ht := decodeTo_toJson t n (by omega)
      have hts := decodeTo_toJsons ts n (by omega)
      simp [toJsons, ht, hts]

end

@[simp]
theorem ofJson_toJson (t : TypeExpr) : ofJson? t.toJson = some t := decodeTo_toJson t _ (Nat.le_refl _)

end TypeExpr

namespace TypeFormal

def ofJson? (json : Json) : Option TypeFormal :=
  return ⟨← json.field? "numeric" Json.bool?, ← json.field? "name" Identifier.ofJson?⟩

@[simp]
theorem ofJson_toJson (formal : TypeFormal) : ofJson? formal.toJson = some formal := by
  simp [ofJson?, toJson, field?]

end TypeFormal

namespace TypeDependency

def ofJson? (json : Json) : Option TypeDependency :=
  return ⟨← json.field? "determining" (items? Identifier.ofJson?),
    ← json.field? "determined" (items? Identifier.ofJson?)⟩

@[simp]
theorem ofJson_toJson (dependency : TypeDependency) : ofJson? dependency.toJson = some dependency := by
  simp [ofJson?, toJson, field?, items_listOf Identifier.ofJson_toJson]

end TypeDependency

namespace EnumElement

def ofJson? (json : Json) : Option EnumElement :=
  return ⟨← json.field? "name" Identifier.ofJson?, ← json.field? "value" (nullable? IntLiteral.ofJson?)⟩

@[simp]
theorem ofJson_toJson (element : EnumElement) : ofJson? element.toJson = some element := by
  simp [ofJson?, toJson, field?, nullable_orNull IntLiteral.ofJson_toJson rfl]

end EnumElement

namespace Member

/-- Decodes a member, given how to decode those inside it. -/
def decodeStep? (inner : Json → Option Member) (json : Json) : Option Member := do
  match ← json.field? "form" Json.str? with
  | "field" => return field (← json.field? "ty" TypeExpr.ofJson?) (← json.field? "name" Identifier.ofJson?)
  | "struct" => return struct (← json.field? "members" (items? inner)) (← json.field? "tag" Identifier.ofJson?)
  | "union" => return union (← json.field? "members" (items? inner)) (← json.field? "tag" Identifier.ofJson?)
  | _ => none

def ofJson? (json : Json) : Option Member := Json.decodeTo? decodeStep? json.depth json

mutual

theorem decodeTo_toJson : (m : Member) → (n : Nat) → m.toJson.depth ≤ n →
    Json.decodeTo? decodeStep? n m.toJson = some m
  | field type name, n, hn => by
      simp only [toJson, Json.depth] at hn
      obtain ⟨n, rfl⟩ : ∃ m, n = m + 1 := ⟨n - 1, by omega⟩
      simp [Json.decodeTo?, decodeStep?, toJson, field?]
  | struct members tag, n, hn => by
      simp only [toJson, Json.depth, Json.depthOfFields] at hn
      obtain ⟨n, rfl⟩ : ∃ m, n = m + 1 := ⟨n - 1, by omega⟩
      have hmembers := decodeTo_toJsons members n (by omega)
      simp [Json.decodeTo?, decodeStep?, toJson, field?, items?, hmembers]
  | union members tag, n, hn => by
      simp only [toJson, Json.depth, Json.depthOfFields] at hn
      obtain ⟨n, rfl⟩ : ∃ m, n = m + 1 := ⟨n - 1, by omega⟩
      have hmembers := decodeTo_toJsons members n (by omega)
      simp [Json.decodeTo?, decodeStep?, toJson, field?, items?, hmembers]

theorem decodeTo_toJsons : (ms : List Member) → (n : Nat) → Json.depthOfItems (toJsons ms) ≤ n →
    (toJsons ms).mapM (Json.decodeTo? decodeStep? n) = some ms
  | [], n, _ => by
      rw [toJsons]
      rfl
  | m :: ms, n, hn => by
      simp only [toJsons, Json.depthOfItems] at hn
      have hm := decodeTo_toJson m n (by omega)
      have hms := decodeTo_toJsons ms n (by omega)
      simp [toJsons, hm, hms]

end

@[simp]
theorem ofJson_toJson (m : Member) : ofJson? m.toJson = some m := decodeTo_toJson m _ (Nat.le_refl _)

end Member

namespace TypedefBody

def ofJson? (json : Json) : Option TypedefBody := do
  match ← json.field? "form" Json.str? with
  | "alias" => return synonym (← json.field? "ty" TypeExpr.ofJson?)
  | "enum" => return enum (← json.field? "elements" (items? EnumElement.ofJson?))
  | "struct" => return struct (← json.field? "members" (items? Member.ofJson?))
  | "tagged_union" => return taggedUnion (← json.field? "members" (items? Member.ofJson?))
  | _ => none

@[simp]
theorem ofJson_toJson (body : TypedefBody) : ofJson? body.toJson = some body := by
  cases body <;>
    simp [ofJson?, toJson, field?, items_listOf EnumElement.ofJson_toJson, items_listOf Member.ofJson_toJson]

end TypedefBody

namespace FunctionHeader

def paramOfJson? : Json → Option (TypeExpr × Option Identifier)
  | .list [type, name] => return (← TypeExpr.ofJson? type, ← nullable? Identifier.ofJson? name)
  | _ => none

theorem paramOfJson_paramToJson (param : TypeExpr × Option Identifier) :
    paramOfJson? (paramToJson param) = some param := by
  simp [paramOfJson?, paramToJson, nullable_orNull Identifier.ofJson_toJson rfl]

def ofJson? (json : Json) : Option FunctionHeader :=
  return ⟨← json.field? "name" Identifier.ofJson?, ← json.field? "return_type" (nullable? TypeExpr.ofJson?),
    ← json.field? "params" (items? paramOfJson?), ← json.field? "provisos" (items? TypeExpr.ofJson?)⟩

theorem ofJson_fields (h : FunctionHeader) (others : List (String × Json)) :
    ofJson? (.object (h.fields ++ others)) = some h := by
  simp [ofJson?, fields, field?, nullable_orNull TypeExpr.ofJson_toJson rfl, items_listOf paramOfJson_paramToJson,
    items_listOf TypeExpr.ofJson_toJson]

end FunctionHeader

namespace Function

/-- Decodes a function, given how to decode those inside it. -/
def decodeStep? (inner : Json → Option Function) (json : Json) : Option Function :=
  return ⟨← FunctionHeader.ofJson? json, ← json.field? "span" Span.ofJson?,
    ← json.field? "nested" (items? inner)⟩

def ofJson? (json : Json) : Option Function := Json.decodeTo? decodeStep? json.depth json

/-- The kind of a construct is not a field of a function. -/
theorem decodeStep_kind (inner : Json → Option Function) (kind : Json) (fields : List (String × Json)) :
    decodeStep? inner (.object (("kind", kind) :: fields)) = decodeStep? inner (.object fields) := by
  simp [decodeStep?, FunctionHeader.ofJson?, field?]

theorem decodeStep_fields {inner : Json → Option Function} {f : Function}
    (h : (toJsons f.nested).mapM inner = some f.nested) : decodeStep? inner (.object f.fields) = some f := by
  obtain ⟨header, span, nested⟩ := f
  rw [decodeStep?, fields, FunctionHeader.ofJson_fields]
  simp [FunctionHeader.fields, field?, items?, h]

mutual

theorem decodeTo_fields : (f : Function) → (n : Nat) → Json.depthOfFields f.fields ≤ n →
    Json.decodeTo? decodeStep? (n + 1) (.object f.fields) = some f
  | ⟨header, span, nested⟩, n, hn => by
      simp only [fields, FunctionHeader.fields, List.cons_append, List.nil_append, Json.depth,
        Json.depthOfFields] at hn
      exact decodeStep_fields (decodeTo_toJsons nested n (by omega))

theorem decodeTo_toJsons : (fs : List Function) → (n : Nat) → Json.depthOfItems (toJsons fs) ≤ n →
    (toJsons fs).mapM (Json.decodeTo? decodeStep? n) = some fs
  | [], n, _ => by
      rw [toJsons]
      rfl
  | f :: fs, n, hn => by
      simp only [toJsons, Json.depthOfItems, Json.depth] at hn
      obtain ⟨n, rfl⟩ : ∃ m, n = m + 1 := ⟨n - 1, by omega⟩
      have hf := decodeTo_fields f n (by omega)
      have hfs := decodeTo_toJsons fs (n + 1) (by omega)
      simp [toJsons, hf, hfs]

end

theorem ofJson_fields (kind : Json) (f : Function) : ofJson? (.object (("kind", kind) :: f.fields)) = some f := by
  rw [ofJson?, Json.depth, Json.decodeTo?, decodeStep_kind]
  exact decodeTo_fields f _ (by simp only [Json.depthOfFields]; omega)

end Function

namespace Construct

def ofJson? (json : Json) : Option Construct := do
  match ← json.field? "kind" Json.str? with
  | "package" => return ofPackage ⟨← json.field? "name" Identifier.ofJson?⟩
  | "typedef" =>
    return ofTypedef ⟨← json.field? "name" Identifier.ofJson?,
      ← json.field? "formals" (nullable? (items? TypeFormal.ofJson?)), ← json.field? "body" TypedefBody.ofJson?,
      ← json.field? "deriving" (items? Identifier.ofJson?)⟩
  | "interface" =>
    return ofInterface ⟨← json.field? "name" Identifier.ofJson?,
      ← json.field? "formals" (nullable? (items? TypeFormal.ofJson?))⟩
  | "typeclass" =>
    return ofTypeclass ⟨← json.field? "name" Identifier.ofJson?, ← json.field? "formals" (items? TypeFormal.ofJson?),
      ← json.field? "provisos" (items? TypeExpr.ofJson?),
      ← json.field? "dependencies" (items? TypeDependency.ofJson?)⟩
  | "instance" =>
    return ofInstance ⟨← json.field? "name" Identifier.ofJson?, ← json.field? "type_args" (items? TypeExpr.ofJson?),
      ← json.field? "provisos" (items? TypeExpr.ofJson?)⟩
  | "module" =>
    return ofModule ⟨← json.field? "name" Identifier.ofJson?,
      ← json.field? "context" (nullable? TypeExpr.ofJson?)⟩
  | "function" => return ofFunction (← Function.ofJson? json)
  | _ => none

theorem ofJson_toJson (construct : Construct) : ofJson? construct.toJson = some construct := by
  cases construct with
  | ofPackage p => simp [ofJson?, toJson, fields, keyword, field?, Package.fields]
  | ofTypedef t =>
      simp [ofJson?, toJson, fields, keyword, field?, Typedef.fields,
        nullable_orNull (items_listOf TypeFormal.ofJson_toJson) rfl, items_listOf Identifier.ofJson_toJson]
  | ofInterface i =>
      simp [ofJson?, toJson, fields, keyword, field?, Interface.fields,
        nullable_orNull (items_listOf TypeFormal.ofJson_toJson) rfl]
  | ofTypeclass t =>
      simp [ofJson?, toJson, fields, keyword, field?, Typeclass.fields, items_listOf TypeFormal.ofJson_toJson,
        items_listOf TypeExpr.ofJson_toJson, items_listOf TypeDependency.ofJson_toJson]
  | ofInstance i =>
      simp [ofJson?, toJson, fields, keyword, field?, Instance.fields, items_listOf TypeExpr.ofJson_toJson]
  | ofModule m =>
      simp [ofJson?, toJson, fields, keyword, field?, Module.fields, nullable_orNull TypeExpr.ofJson_toJson rfl]
  | ofFunction f => simp [ofJson?, toJson, fields, keyword, field?, Function.ofJson_fields]

end Construct

end BluespecDocs
