import BluespecDocs.Encoding

/-!
No object in the form of a document has the same key twice, so that it makes no difference which of the fields with
a key a reader takes.
-/

namespace BluespecDocs

namespace Json

mutual

/-- Whether no object has the same key twice. -/
def KeysDistinct : Json → Prop
  | list items => ItemsDistinct items
  | object fields => (fields.map Prod.fst).Nodup ∧ FieldsDistinct fields
  | _ => True

def ItemsDistinct : List Json → Prop
  | [] => True
  | item :: items => KeysDistinct item ∧ ItemsDistinct items

def FieldsDistinct : List (String × Json) → Prop
  | [] => True
  | (_, value) :: fields => KeysDistinct value ∧ FieldsDistinct fields

end

theorem keysDistinct_nat (n : Nat) : (nat n).KeysDistinct := trivial

theorem keysDistinct_str (s : String) : (str s).KeysDistinct := trivial

variable {α : Type} {encode : α → Json}

theorem keysDistinct_orNull (h : ∀ a, (encode a).KeysDistinct) (o : Option α) :
    (orNull encode o).KeysDistinct := by
  cases o with
  | none => trivial
  | some a => exact h a

theorem itemsDistinct_iff {items : List Json} : ItemsDistinct items ↔ ∀ item ∈ items, item.KeysDistinct := by
  induction items with
  | nil => simp [ItemsDistinct]
  | cons item items ih => rw [ItemsDistinct, ih, List.forall_mem_cons]

theorem keysDistinct_listOf (h : ∀ a, (encode a).KeysDistinct) (as : List α) :
    (listOf encode as).KeysDistinct := by
  rw [listOf, KeysDistinct, itemsDistinct_iff, List.forall_mem_map]
  exact fun a _ => h a

end Json

open Json (KeysDistinct ItemsDistinct FieldsDistinct keysDistinct_orNull keysDistinct_listOf)

@[simp]
theorem Span.keysDistinct_toJson (span : Span) : span.toJson.KeysDistinct := by
  simp [toJson, KeysDistinct, FieldsDistinct]

@[simp]
theorem LetterCase.keysDistinct_toJson (letterCase : LetterCase) : letterCase.toJson.KeysDistinct := by
  cases letterCase <;> simp [toJson, KeysDistinct]

@[simp]
theorem Identifier.keysDistinct_toJson (ident : Identifier) : ident.toJson.KeysDistinct := by
  simp [toJson, KeysDistinct, FieldsDistinct]

@[simp]
theorem Base.keysDistinct_toJson (base : Base) : base.toJson.KeysDistinct := by
  cases base <;> simp [toJson, KeysDistinct]

@[simp]
theorem IntLiteral.keysDistinct_toJson (literal : IntLiteral) : literal.toJson.KeysDistinct := by
  cases literal with
  | based width base digits =>
      simp [toJson, KeysDistinct, FieldsDistinct, keysDistinct_orNull Json.keysDistinct_nat]
  | plain digits => simp [toJson, KeysDistinct, FieldsDistinct]
  | fill ones => simp [toJson, KeysDistinct, FieldsDistinct]

namespace TypeExpr

mutual

theorem keysDistinct_toJson : (t : TypeExpr) → t.toJson.KeysDistinct
  | named package name args => by
      simp [toJson, KeysDistinct, FieldsDistinct, keysDistinct_orNull Identifier.keysDistinct_toJson,
        itemsDistinct_toJsons args]
  | function result name params => by
      simp [toJson, KeysDistinct, FieldsDistinct, keysDistinct_toJson result, itemsDistinct_toJsons params]
  | numeric literal => by simp [toJson, KeysDistinct, FieldsDistinct]

theorem itemsDistinct_toJsons : (ts : List TypeExpr) → ItemsDistinct (toJsons ts)
  | [] => by simp [toJsons, ItemsDistinct]
  | t :: ts => by simp [toJsons, ItemsDistinct, keysDistinct_toJson t, itemsDistinct_toJsons ts]

end

end TypeExpr

@[simp]
theorem TypeFormal.keysDistinct_toJson (formal : TypeFormal) : formal.toJson.KeysDistinct := by
  simp [toJson, KeysDistinct, FieldsDistinct]

theorem TypeDependency.keysDistinct_toJson (dependency : TypeDependency) : dependency.toJson.KeysDistinct := by
  simp [toJson, KeysDistinct, FieldsDistinct, keysDistinct_listOf Identifier.keysDistinct_toJson]

theorem EnumElement.keysDistinct_toJson (element : EnumElement) : element.toJson.KeysDistinct := by
  simp [toJson, KeysDistinct, FieldsDistinct, keysDistinct_orNull IntLiteral.keysDistinct_toJson]

namespace Member

mutual

theorem keysDistinct_toJson : (m : Member) → m.toJson.KeysDistinct
  | field type name => by simp [toJson, KeysDistinct, FieldsDistinct, type.keysDistinct_toJson]
  | struct members tag => by simp [toJson, KeysDistinct, FieldsDistinct, itemsDistinct_toJsons members]
  | union members tag => by simp [toJson, KeysDistinct, FieldsDistinct, itemsDistinct_toJsons members]

theorem itemsDistinct_toJsons : (ms : List Member) → ItemsDistinct (toJsons ms)
  | [] => by simp [toJsons, ItemsDistinct]
  | m :: ms => by simp [toJsons, ItemsDistinct, keysDistinct_toJson m, itemsDistinct_toJsons ms]

end

end Member

@[simp]
theorem TypedefBody.keysDistinct_toJson (body : TypedefBody) : body.toJson.KeysDistinct := by
  cases body with
  | synonym type => simp [toJson, KeysDistinct, FieldsDistinct, type.keysDistinct_toJson]
  | enum elements =>
      simp [toJson, KeysDistinct, FieldsDistinct, keysDistinct_listOf EnumElement.keysDistinct_toJson]
  | struct members => simp [toJson, KeysDistinct, FieldsDistinct, keysDistinct_listOf Member.keysDistinct_toJson]
  | taggedUnion members =>
      simp [toJson, KeysDistinct, FieldsDistinct, keysDistinct_listOf Member.keysDistinct_toJson]

theorem FunctionHeader.keysDistinct_paramToJson (param : TypeExpr × Option Identifier) :
    (paramToJson param).KeysDistinct := by
  simp [paramToJson, KeysDistinct, ItemsDistinct, param.1.keysDistinct_toJson,
    keysDistinct_orNull Identifier.keysDistinct_toJson]

namespace Function

/-- The keys of a function and of the construct that it is. -/
theorem nodup_keys (f : Function) : ("kind" :: f.fields.map Prod.fst).Nodup := by
  obtain ⟨header, span, nested⟩ := f
  simp [fields, FunctionHeader.fields]

mutual

theorem fieldsDistinct_fields : (f : Function) → FieldsDistinct f.fields
  | ⟨header, span, nested⟩ => by
      simp [fields, FunctionHeader.fields, KeysDistinct, FieldsDistinct,
        keysDistinct_orNull TypeExpr.keysDistinct_toJson,
        keysDistinct_listOf FunctionHeader.keysDistinct_paramToJson,
        keysDistinct_listOf TypeExpr.keysDistinct_toJson, itemsDistinct_toJsons nested]

theorem itemsDistinct_toJsons : (fs : List Function) → ItemsDistinct (toJsons fs)
  | [] => by simp [toJsons, ItemsDistinct]
  | f :: fs => by
      have hkeys := (List.nodup_cons.mp f.nodup_keys).2
      simp [toJsons, ItemsDistinct, KeysDistinct, hkeys, fieldsDistinct_fields f, itemsDistinct_toJsons fs]

end

end Function

namespace Construct

theorem keysDistinct_toJson (construct : Construct) : construct.toJson.KeysDistinct := by
  cases construct with
  | ofPackage p => simp [toJson, fields, KeysDistinct, FieldsDistinct, Package.fields]
  | ofTypedef t =>
      simp [toJson, fields, KeysDistinct, FieldsDistinct, Typedef.fields,
        keysDistinct_orNull (keysDistinct_listOf TypeFormal.keysDistinct_toJson),
        keysDistinct_listOf Identifier.keysDistinct_toJson]
  | ofInterface i =>
      simp [toJson, fields, KeysDistinct, FieldsDistinct, Interface.fields,
        keysDistinct_orNull (keysDistinct_listOf TypeFormal.keysDistinct_toJson)]
  | ofTypeclass t =>
      simp [toJson, fields, KeysDistinct, FieldsDistinct, Typeclass.fields,
        keysDistinct_listOf TypeFormal.keysDistinct_toJson, keysDistinct_listOf TypeExpr.keysDistinct_toJson,
        keysDistinct_listOf TypeDependency.keysDistinct_toJson]
  | ofInstance i =>
      simp [toJson, fields, KeysDistinct, FieldsDistinct, Instance.fields,
        keysDistinct_listOf TypeExpr.keysDistinct_toJson]
  | ofModule m =>
      simp [toJson, fields, KeysDistinct, FieldsDistinct, Module.fields,
        keysDistinct_orNull TypeExpr.keysDistinct_toJson]
  | ofFunction f =>
      exact ⟨f.nodup_keys, trivial, f.fieldsDistinct_fields⟩

end Construct

theorem Export.keysDistinct_toJson (statement : Export) : statement.toJson.KeysDistinct := by
  simp [toJson, KeysDistinct, FieldsDistinct]

end BluespecDocs
