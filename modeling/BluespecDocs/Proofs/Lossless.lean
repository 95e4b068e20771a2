import BluespecDocs.Proofs.DistinctKeys
import BluespecDocs.Proofs.JsonDecoding
import BluespecDocs.Proofs.JsonReading
import BluespecDocs.Proofs.Rendering

/-!
The JSON text of a document can be read back: as JSON, then as a record of all that a document shows of its source.
Constructs come back whole, so that two of them never have the same form.
-/

namespace BluespecDocs

namespace Text

theorem exists_dropWhile_newline (cs : List Char) :
    ∃ n, cs = List.replicate n '\n' ++ cs.dropWhile (· == '\n') := by
  refine ⟨(cs.takeWhile (· == '\n')).length, ?_⟩
  have hnewlines : cs.takeWhile (· == '\n') = List.replicate (cs.takeWhile (· == '\n')).length '\n' :=
    List.eq_replicate_of_mem fun c hc => beq_iff_eq.mp (List.all_eq_true.mp List.all_takeWhile c hc)
  rw [← hnewlines, List.takeWhile_append_dropWhile]

theorem head_dropWhile_newline (cs : List Char) : (cs.dropWhile (· == '\n')).head? ≠ some '\n' := by
  intro hhead
  have hnot := List.head?_dropWhile_not (· == '\n') cs
  rw [hhead] at hnot
  exact absurd hnot (by decide)

/-- Trimming takes newlines away at both ends, and all of them. -/
theorem exists_trimNewlines (cs : List Char) :
    (∃ m n, cs = List.replicate m '\n' ++ trimNewlines cs ++ List.replicate n '\n') ∧
    (trimNewlines cs).head? ≠ some '\n' ∧ (trimNewlines cs).getLast? ≠ some '\n' := by
  obtain ⟨m, hm⟩ := exists_dropWhile_newline cs
  obtain ⟨n, hn⟩ := exists_dropWhile_newline (cs.dropWhile (· == '\n')).reverse
  have hend : cs.dropWhile (· == '\n') = trimNewlines cs ++ List.replicate n '\n' := by
    have hreverse := congrArg List.reverse hn
    rwa [List.reverse_reverse, List.reverse_append, List.reverse_replicate] at hreverse
  refine ⟨⟨m, n, ?_⟩, ?_, ?_⟩
  · rw [List.append_assoc, ← hend]
    exact hm
  · intro hhead
    apply head_dropWhile_newline cs
    rw [hend, List.head?_append, hhead]
    rfl
  · rw [trimNewlines, dropEndWhile, List.getLast?_reverse]
    exact head_dropWhile_newline _

theorem all_trimNewlines (cs : List Char) : (trimNewlines cs).all isWhitespace = cs.all isWhitespace := by
  obtain ⟨⟨m, n, hcs⟩, -⟩ := exists_trimNewlines cs
  have hnewlines (k : Nat) : (List.replicate k '\n').all isWhitespace = true := by
    rw [List.all_eq_true]
    intro c hc
    rw [List.eq_of_mem_replicate hc]
    decide
  conv_rhs => rw [hcs, List.all_append, List.all_append, hnewlines, hnewlines, Bool.true_and, Bool.and_true]

end Text

/-- How documentation is shown: not at all where it is missing or blank, and otherwise as it is but without newlines
at either end. -/
structure DocShown (doc shown : Option String) : Prop where
  blank : shown = none ↔ ∀ text ∈ doc, ∀ c ∈ text.toList, Text.isWhitespace c = true
  trimmed : ∀ s ∈ shown, ∃ text ∈ doc, s.toList.head? ≠ some '\n' ∧ s.toList.getLast? ≠ some '\n' ∧
    ∃ m n, text.toList = List.replicate m '\n' ++ s.toList ++ List.replicate n '\n'

theorem Declaration.docShown_shownDoc (doc : Option String) : DocShown doc (shownDoc doc) := by
  cases doc with
  | none => exact ⟨by simp [shownDoc], by simp [shownDoc]⟩
  | some text =>
      obtain ⟨⟨m, n, htext⟩, hhead, hlast⟩ := Text.exists_trimNewlines text.toList
      have hall := Text.all_trimNewlines text.toList
      cases hblank : text.toList.all Text.isWhitespace with
      | true =>
          rw [hblank] at hall
          have hshown : shownDoc (some text) = none := if_pos hall
          rw [hshown]
          refine ⟨⟨fun _ => ?_, fun _ => rfl⟩, by simp⟩
          rintro _ ⟨⟩
          exact List.all_eq_true.mp hblank
      | false =>
          rw [hblank] at hall
          have hshown : shownDoc (some text) = some (String.ofList (Text.trimNewlines text.toList)) :=
            if_neg (by rw [hall]; exact Bool.false_ne_true)
          rw [hshown]
          refine ⟨⟨fun h => (by cases h), fun h => ?_⟩, ?_⟩
          · rw [List.all_eq_true.mpr (h text rfl)] at hblank
            cases hblank
          · rintro _ ⟨⟩
            rw [String.toList_ofList]
            exact ⟨text, rfl, hhead, hlast, m, n, htext⟩

/-- What a document shows of a declaration. The names of nested functions may be missing. -/
structure DeclarationView where
  kind : String
  name : String
  line : Nat
  span : Span
  hasParameters : Bool
  doc : Option String
  source : String
  nested : Option (List String)
  detail : Construct

/-- What a document shows of itself. -/
structure DocumentView where
  path : String
  package : Option String
  imports : List String
  exports : List (String × Bool)
  declarations : List DeclarationView

open Json (KeysDistinct FieldsDistinct field? items? keysDistinct_listOf keysDistinct_orNull nullable?
  nullable_orNull)

namespace DeclarationView

def ofJson? (json : Json) : Option DeclarationView := do
  let nested ← match json.get? "nested" with
    | none => some none
    | some names => (items? Json.str? names).map some
  return ⟨← json.field? "kind" Json.str?, ← json.field? "name" Json.str?, ← json.field? "line" Json.nat?,
    ← json.field? "span" Span.ofJson?, ← json.field? "has_parameters" Json.bool?,
    ← json.field? "doc" (nullable? Json.str?), ← json.field? "source" Json.str?, nested,
    ← json.field? "detail" Construct.ofJson?⟩

/-- A view shows a declaration of a source text. -/
structure Shows (source : String) (d : Declaration) (view : DeclarationView) : Prop where
  kind : view.kind = d.construct.keyword
  name : view.name = d.construct.name.name
  line : view.line = d.line
  span : view.span = d.span
  hasParameters : view.hasParameters = d.hasParameters
  doc : DocShown d.doc view.doc
  source : d.span.slice? source = some view.source
  nested : view.nested = if d.construct.nestedFunctions = [] then none
    else some (d.construct.nestedFunctions.map (·.name.name))
  detail : view.detail = d.construct

/-- The view that the form of a declaration decodes to. -/
def of (d : Declaration) (piece : String) : DeclarationView where
  kind := d.construct.keyword
  name := d.construct.name.name
  line := d.line
  span := d.span
  hasParameters := d.hasParameters
  doc := Declaration.shownDoc d.doc
  source := piece
  nested := if d.construct.nestedFunctions = [] then none
    else some (d.construct.nestedFunctions.map (·.name.name))
  detail := d.construct

theorem shows_of {d : Declaration} {source piece : String} (h : d.span.slice? source = some piece) :
    Shows source d (of d piece) :=
  ⟨rfl, rfl, rfl, rfl, rfl, Declaration.docShown_shownDoc d.doc, h, rfl, rfl⟩

theorem exists_ofJson {d : Declaration} {source : String} {form : Json} (h : d.toJson? source = some form) :
    ∃ view, ofJson? form = some view ∧ Shows source d view := by
  obtain ⟨piece, hpiece, hform⟩ := Option.bind_eq_some_iff.mp h
  obtain rfl := Option.some.inj hform
  refine ⟨of d piece, ?_, shows_of hpiece⟩
  cases hnested : d.construct.nestedFunctions with
  | nil =>
      simp [ofJson?, of, hnested, field?, nullable_orNull Json.str_str rfl, Construct.ofJson_toJson]
  | cons f fs =>
      have hnames : items? Json.str? (.list ((f :: fs).map fun f => Json.str f.name.name)) =
          some ((f :: fs).map (·.name.name)) := Json.items_view (fun f : Function => Json.str_str f.name.name) _
      rw [List.map_cons] at hnames
      simp [ofJson?, of, hnested, hnames, field?, nullable_orNull Json.str_str rfl, Construct.ofJson_toJson]

theorem keysDistinct {d : Declaration} {source : String} {form : Json} (h : d.toJson? source = some form) :
    form.KeysDistinct := by
  obtain ⟨piece, hpiece, hform⟩ := Option.bind_eq_some_iff.mp h
  obtain rfl := Option.some.inj hform
  have hnames : Json.ItemsDistinct (d.construct.nestedFunctions.map fun f => .str f.name.name) :=
    keysDistinct_listOf (fun f : Function => Json.keysDistinct_str f.name.name) _
  have hdoc := keysDistinct_orNull Json.keysDistinct_str (Declaration.shownDoc d.doc)
  split
  · simp [KeysDistinct, FieldsDistinct, hdoc, d.construct.keysDistinct_toJson]
  · simp [KeysDistinct, FieldsDistinct, hnames, hdoc, d.construct.keysDistinct_toJson]

end DeclarationView

namespace DocumentView

def exportOfJson? (json : Json) : Option (String × Bool) :=
  return (← json.field? "name" Json.str?, ← json.field? "with_members" Json.bool?)

theorem exportOfJson_toJson (statement : Export) :
    exportOfJson? statement.toJson = some (statement.name.name, statement.withMembers) := by
  simp [exportOfJson?, Export.toJson, field?]

def ofJson? (json : Json) : Option DocumentView :=
  return ⟨← json.field? "path" Json.str?, ← json.field? "package" (nullable? Json.str?),
    ← json.field? "imports" (items? Json.str?), ← json.field? "exports" (items? exportOfJson?),
    ← json.field? "declarations" (items? DeclarationView.ofJson?)⟩

/-- A view shows the document of a source text. -/
structure Shows (source : String) (doc : Document) (view : DocumentView) : Prop where
  path : view.path = doc.path
  package : view.package = doc.package.map (·.name)
  imports : view.imports = doc.imports.map (·.package.name)
  exports : view.exports = doc.exports.map fun statement => (statement.name.name, statement.withMembers)
  declarations : List.Forall₂ (DeclarationView.Shows source) doc.declarations view.declarations

variable {source : String} {doc : Document}

theorem exists_declarations {ds : List Declaration} {forms : List Json}
    (h : List.Forall₂ (fun d form => d.toJson? source = some form) ds forms) :
    ∃ views, forms.mapM DeclarationView.ofJson? = some views ∧
      List.Forall₂ (DeclarationView.Shows source) ds views := by
  induction h with
  | nil => exact ⟨[], rfl, .nil⟩
  | @cons d form ds forms hform _ ih =>
      obtain ⟨view, hview, hshows⟩ := DeclarationView.exists_ofJson hform
      obtain ⟨views, hviews, hall⟩ := ih
      exact ⟨view :: views, by rw [List.mapM_cons, hview, hviews]; rfl, .cons hshows hall⟩

theorem exists_ofJson (h : ∀ d ∈ doc.declarations, (d.span.slice? source).isSome) :
    ∃ value view, doc.toJson? source = some value ∧ value.KeysDistinct ∧ ofJson? value = some view ∧
      Shows source doc view := by
  obtain ⟨forms, hforms, hmapM⟩ := exists_mapM fun d hd => Declaration.isSome_toJson (h d hd)
  obtain ⟨views, hviews, hshows⟩ := exists_declarations hforms
  have hpackage := Json.nullable_view (fun p : Identifier => Json.str_str p.name) rfl doc.package
  have himports : items? Json.str? (.list (doc.imports.map fun i => .str i.package.name)) =
      some (doc.imports.map (·.package.name)) :=
    Json.items_view (fun i : Import => Json.str_str i.package.name) doc.imports
  have hexports := Json.items_view exportOfJson_toJson doc.exports
  have hdeclarations : items? DeclarationView.ofJson? (.list forms) = some views := hviews
  refine ⟨_, ⟨doc.path, doc.package.map (·.name), doc.imports.map (·.package.name),
    doc.exports.map fun statement => (statement.name.name, statement.withMembers), views⟩,
    by rw [Document.toJson?, hmapM]; rfl, ?_, ?_, rfl, rfl, rfl, rfl, hshows⟩
  · have hforms : Json.ItemsDistinct forms := Json.itemsDistinct_iff.mpr fun form hform => by
      obtain ⟨d, hd, -⟩ := exists_of_mem_forall₂ hforms.flip hform
      exact DeclarationView.keysDistinct hd
    have hpackage := keysDistinct_orNull (fun p : Identifier => Json.keysDistinct_str p.name) doc.package
    have himports : Json.ItemsDistinct (doc.imports.map fun i => .str i.package.name) :=
      keysDistinct_listOf (fun i : Import => Json.keysDistinct_str i.package.name) doc.imports
    have hexports := keysDistinct_listOf Export.keysDistinct_toJson doc.exports
    simp [KeysDistinct, FieldsDistinct, hpackage, himports, hexports, hforms]
  · simp [ofJson?, field?, hpackage, himports, hexports, hdeclarations]

end DocumentView

/-- The JSON text of a document is JSON without repeated keys, and what the document shows of its source can be
read off it. No two constructs have the same text. -/
theorem Document.json_lossless (settings : Settings) (hformat : settings.format = .json) (source : String)
    (doc : Document) (h : ∀ d ∈ doc.declarations, (d.span.slice? source).isSome) :
    (∃ text value view, doc.render? settings source = some text ∧ Json.parse? text = some value ∧
      value.KeysDistinct ∧ DocumentView.ofJson? value = some view ∧ DocumentView.Shows source doc view) ∧
    ∀ c c' : Construct, c.toJson.render = c'.toJson.render → c = c' := by
  constructor
  · obtain ⟨value, view, hvalue, hkeys, hview, hshows⟩ := DocumentView.exists_ofJson h
    refine ⟨value.render, value, view, ?_, Json.parse_render value, hkeys, hview, hshows⟩
    rw [render?, hformat]
    exact congrArg (Option.map Json.render) hvalue
  · intro c c' htext
    have hform : some c.toJson = some c'.toJson := by
      rw [← Json.parse_render, htext, Json.parse_render]
    have hconstruct := congrArg (Option.bind · Construct.ofJson?) hform
    simpa [Construct.ofJson_toJson] using hconstruct

/-- A path and documentation with quotes, backslashes and characters beyond ASCII, of a function with another one
inside it. -/
theorem Document.json_lossless_nested :
    (∀ d ∈ (ofSource "/// \"\\π\nfunction f; function g; endfunction endfunction" "\"\\\x01π").declarations,
      (d.span.slice? "/// \"\\π\nfunction f; function g; endfunction endfunction").isSome) ∧
    ∃ text value view v, (ofSource "/// \"\\π\nfunction f; function g; endfunction endfunction"
        "\"\\\x01π").render? { format := .json }
        "/// \"\\π\nfunction f; function g; endfunction endfunction" = some text ∧
      Json.parse? text = some value ∧ value.KeysDistinct ∧ DocumentView.ofJson? value = some view ∧
      view.path = "\"\\\x01π" ∧ view.declarations = [v] ∧ v.nested = some ["g"] := by
  have hspans : ∀ d ∈ (ofSource "/// \"\\π\nfunction f; function g; endfunction endfunction"
      "\"\\\x01π").declarations,
      (d.span.slice? "/// \"\\π\nfunction f; function g; endfunction endfunction").isSome := by decide +kernel
  have hnames : (ofSource "/// \"\\π\nfunction f; function g; endfunction endfunction"
      "\"\\\x01π").declarations.map (fun d => d.construct.nestedFunctions.map (·.name.name)) = [["g"]] := by
    decide +kernel
  obtain ⟨text, value, view, htext, hvalue, hkeys, hview, hshows⟩ :=
    (json_lossless { format := .json } rfl _ _ hspans).1
  obtain ⟨d, hd, hnested⟩ := List.map_eq_singleton_iff.mp hnames
  have hdeclarations := hshows.declarations
  rw [hd] at hdeclarations
  obtain ⟨v, vs, hv, hnone, hviews⟩ := List.forall₂_cons_left_iff.mp hdeclarations
  obtain rfl := List.forall₂_nil_left_iff.mp hnone
  refine ⟨hspans, text, value, view, v, htext, hvalue, hkeys, hview, hshows.path, hviews, ?_⟩
  rw [hv.nested, hnested, if_neg]
  intro hnil
  rw [hnil] at hnested
  cases hnested

end BluespecDocs
