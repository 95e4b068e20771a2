import BluespecDocs.Markdown
import Mathlib.Data.List.Forall2

/-!
The written forms of a document are made declaration by declaration. Each exists where the spans of all
declarations cut something out of the source.
-/

namespace BluespecDocs

variable {α β : Type}

theorem exists_mapM {make : α → Option β} {as : List α} (h : ∀ a ∈ as, (make a).isSome) :
    ∃ bs, List.Forall₂ (fun a b => make a = some b) as bs ∧ as.mapM make = some bs := by
  induction as with
  | nil => exact ⟨[], .nil, rfl⟩
  | cons a as ih =>
      obtain ⟨b, hb⟩ := Option.isSome_iff_exists.mp (h a List.mem_cons_self)
      obtain ⟨bs, hbs, hrest⟩ := ih fun a ha => h a (List.mem_cons_of_mem _ ha)
      exact ⟨b :: bs, .cons hb hbs, by rw [List.mapM_cons, hb, hrest]; rfl⟩

theorem exists_of_mem_forall₂ {R : α → β → Prop} {as : List α} {bs : List β} (h : List.Forall₂ R as bs)
    {a : α} (ha : a ∈ as) : ∃ b, R a b ∧ b ∈ bs := by
  induction h with
  | nil => cases ha
  | @cons c b as bs hb _ ih =>
      rcases List.mem_cons.mp ha with rfl | ha
      · exact ⟨b, hb, List.mem_cons_self⟩
      · obtain ⟨b', hb', hmem⟩ := ih ha
        exact ⟨b', hb', List.mem_cons_of_mem b hmem⟩

namespace Declaration

variable {source : String} {d : Declaration}

theorem isSome_markdown (h : (d.span.slice? source).isSome) (settings : RenderSettings) (path : String) :
    (d.markdown? settings path source).isSome := by
  obtain ⟨piece, hpiece⟩ := Option.isSome_iff_exists.mp h
  rw [markdown?, hpiece]
  split <;> rfl

theorem isSome_toJson (h : (d.span.slice? source).isSome) : (d.toJson? source).isSome := by
  obtain ⟨piece, hpiece⟩ := Option.isSome_iff_exists.mp h
  rw [toJson?, hpiece]
  rfl

end Declaration

namespace Document

variable {source : String} {doc : Document}

/-- In Markdown a document is its entries one behind the other. -/
theorem exists_markdown (settings : RenderSettings)
    (h : ∀ d ∈ doc.declarations, (d.span.slice? source).isSome) :
    ∃ entries, List.Forall₂ (fun d entry => d.markdown? settings doc.path source = some entry)
        doc.declarations entries ∧ doc.markdown? settings source = some (String.join entries) := by
  obtain ⟨entries, hentries, hmapM⟩ := exists_mapM fun d hd =>
    Declaration.isSome_markdown (h d hd) settings doc.path
  exact ⟨entries, hentries, by rw [markdown?, hmapM]; rfl⟩

/-- The entry of a declaration among those of the others. -/
theorem exists_markdown_split (settings : RenderSettings)
    (h : ∀ d ∈ doc.declarations, (d.span.slice? source).isSome) {d : Declaration} (hd : d ∈ doc.declarations)
    {entry : String} (hentry : d.markdown? settings doc.path source = some entry) :
    ∃ earlier later, doc.markdown? settings source = some (earlier ++ entry ++ later) := by
  obtain ⟨entries, hentries, hmarkdown⟩ := exists_markdown settings h
  obtain ⟨other, hother, hmem⟩ := exists_of_mem_forall₂ hentries hd
  obtain rfl := Option.some.inj (hentry.symm.trans hother)
  obtain ⟨earlier, later, rfl⟩ := List.append_of_mem hmem
  refine ⟨String.join earlier, String.join later, ?_⟩
  rw [hmarkdown, String.join_append, String.join_cons, String.append_assoc]

theorem isSome_toJson (h : ∀ d ∈ doc.declarations, (d.span.slice? source).isSome) :
    (doc.toJson? source).isSome := by
  obtain ⟨forms, -, hmapM⟩ := exists_mapM fun d hd => Declaration.isSome_toJson (h d hd)
  rw [toJson?, hmapM]
  rfl

theorem isSome_render (settings : Settings) (h : ∀ d ∈ doc.declarations, (d.span.slice? source).isSome) :
    (doc.render? settings source).isSome := by
  rw [render?]
  split
  · obtain ⟨entries, -, htext⟩ := exists_markdown settings.render h
    rw [htext]
    rfl
  · rw [Option.isSome_map]
    exact isSome_toJson h

end Document

end BluespecDocs
