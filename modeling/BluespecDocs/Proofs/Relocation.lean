import BluespecDocs.Proofs.BlockRules

/-!
Moving tokens to other offsets. Rules look at the kind and the text of tokens and hand on their places, so
on moved tokens a rule reads the same construct, moved in the same way. The texts of comments may change with
the places, since no rule looks at them.
-/

namespace BluespecDocs

open Rule

variable {α β : Type}

namespace Span

/-- A span with both ends moved. -/
def mapOffsets (move : Nat → Nat) (span : Span) : Span := ⟨move span.start, move span.stop⟩

end Span

namespace Token

/-- A token with its place moved. -/
def mapOffsets (move : Nat → Nat) (t : Token) : Token := { t with span := t.span.mapOffsets move }

/-- A change of tokens that moves their places and that no rule notices otherwise. -/
structure Recasts (g : Token → Token) (move : Nat → Nat) : Prop where
  alike : ∀ t : Token, t.Alike (g t)
  span_eq : ∀ t : Token, (g t).span = t.span.mapOffsets move

theorem recasts_mapOffsets (move : Nat → Nat) : Recasts (mapOffsets move) move :=
  ⟨fun _ => ⟨rfl, fun _ => rfl⟩, fun _ => rfl⟩

end Token

namespace Function

mutual

/-- A function with its place and those of all functions inside it moved. -/
def mapOffsets (move : Nat → Nat) : Function → Function
  | ⟨header, span, nested⟩ => ⟨header, span.mapOffsets move, mapOffsetsAll move nested⟩

/-- Functions with their places and those of all functions inside them moved. -/
def mapOffsetsAll (move : Nat → Nat) : List Function → List Function
  | [] => []
  | f :: fs => mapOffsets move f :: mapOffsetsAll move fs

end

theorem mapOffsetsAll_eq_map (move : Nat → Nat) (fs : List Function) :
    mapOffsetsAll move fs = fs.map (mapOffsets move) := by
  induction fs with
  | nil => rfl
  | cons f fs ih => rw [mapOffsetsAll, ih, List.map_cons]

theorem mapOffsets_mk (move : Nat → Nat) (header : FunctionHeader) (span : Span) (nested : List Function) :
    mapOffsets move ⟨header, span, nested⟩ =
      ⟨header, span.mapOffsets move, nested.map (mapOffsets move)⟩ := by
  rw [mapOffsets, mapOffsetsAll_eq_map]

end Function

namespace Construct

/-- A construct with the places of all functions in it moved. -/
def mapOffsets (move : Nat → Nat) : Construct → Construct
  | ofFunction f => ofFunction (f.mapOffsets move)
  | c => c

theorem hasParameters_mapOffsets (move : Nat → Nat) (c : Construct) :
    (c.mapOffsets move).hasParameters = c.hasParameters := by
  cases c <;> rfl

end Construct

namespace Rule

/-- The same tokens, each changed by `g`. -/
def Recast (g : Token → Token) (ts ts' : List Token) : Prop := ts' = ts.map g

variable {g : Token → Token} {move : Nat → Nat}

theorem lockstep_recast (hg : Token.Recasts g move) : Lockstep (fun _ => true) (Recast g) (Recast g) := by
  rintro ts _ rfl
  cases ts with
  | nil => exact Or.inl ⟨rfl, rfl⟩
  | cons t us => exact Or.inr ⟨t, us, g t, us.map g, rfl, rfl, hg.alike t, fun _ => rfl⟩

theorem spanRead_map (hg : Token.Recasts g move) {ts us : List Token} (hsuffix : us <:+ ts)
    (hlength : us.length < ts.length) :
    spanRead (ts.map g) (us.map g) = (spanRead ts us).mapOffsets move := by
  obtain ⟨q, rfl⟩ := hsuffix
  have hq : q ≠ [] := by
    rintro rfl
    exact Nat.lt_irrefl _ hlength
  rw [List.map_append, spanRead_append hq, spanRead_append (fun h => hq (List.map_eq_nil_iff.mp h)),
    List.head_map, List.getLast_map, hg.span_eq, hg.span_eq]
  rfl

theorem Parallel.eq_map {change : α → β} {r : Rule α} {q : Rule β}
    (h : Parallel (Recast g) (Recast g) (fun a b => b = change a) r q) (ts : List Token) :
    q (ts.map g) = (r ts).map fun found => (change found.1, found.2.map g) := by
  rcases h.cases (show Recast g ts _ from rfl) with ⟨hr, hq⟩ | ⟨a, us, b, us', hr, hq, hab, hus⟩
  · rw [hr, hq]
    rfl
  · rw [hr, hq, hab, hus]
    rfl

theorem spanned_recast (hg : Token.Recasts g move) {r : Rule α} (hr : Shrinks r)
    (h : Parallel (Recast g) (Recast g) Eq r r) :
    Parallel (Recast g) (Recast g) (fun x y => x.1 = y.1 ∧ y.2 = x.2.mapOffsets move)
      (spanned r) (spanned r) := by
  refine h.spanned (W := fun span span' => span' = span.mapOffsets move) hr ?_
  rintro ts _ us _ rfl rfl hsuffix hlength
  exact spanRead_map hg hsuffix hlength

end Rule

variable {g : Token → Token} {move : Nat → Nat}

namespace Function

theorem rule_recast (hg : Token.Recasts g move) :
    Parallel (Recast g) (Recast g) (fun f f' => f' = f.mapOffsets move) rule rule := by
  have hall := lockstep_recast hg
  refine descends.recursive_parallel descends fun r q hs hs' hnested => ?_
  refine level_parallel (mapOffsets_mk move) hall hall ?_ hs hs' hnested
  rintro ts _ us _ rfl rfl hsuffix hlength
  exact spanRead_map hg hsuffix hlength

end Function

namespace Construct

theorem rule_recast (hg : Token.Recasts g move) :
    Parallel (Recast g) (Recast g) (fun c c' => c' = c.mapOffsets move) rule rule := by
  have hall := lockstep_recast hg
  have htype : Lockstep Token.isTypePart (Recast g) (Recast g) := hall.mono fun _ _ => rfl
  have hend : Lockstep (Token.isMark .semicolon) (Recast g) (Recast g) := hall.mono fun _ _ => rfl
  have hlabel := Identifier.capitalized_parallel htype
  refine Parallel.orElse ((Package.rule_parallel htype hend).bind_eq fun _ => parallel_pure rfl) ?_
  refine Parallel.orElse ((Typedef.rule_parallel hall).bind_eq fun _ => parallel_pure rfl) ?_
  refine Parallel.orElse ((Parallel.block hall (Interface.header_parallel htype hend) _ hlabel).bind_eq
    fun _ => parallel_pure rfl) ?_
  refine Parallel.orElse ((Parallel.block hall (Typeclass.header_parallel htype hend) _ hlabel).bind_eq
    fun _ => parallel_pure rfl) ?_
  refine Parallel.orElse ((Parallel.block hall (Instance.header_parallel htype hend) _ hlabel).bind_eq
    fun _ => parallel_pure rfl) ?_
  refine Parallel.orElse ((Parallel.block hall (Module.header_parallel hall) _
    (Identifier.lowercase_parallel htype)).bind_eq fun _ => parallel_pure rfl) ?_
  refine (Function.rule_recast hg).bind fun f f' hf => parallel_pure ?_
  rw [hf]
  rfl

/-- On moved tokens the rule for constructs reads the moved construct. -/
theorem rule_map (move : Nat → Nat) (ts : List Token) :
    rule (ts.map (Token.mapOffsets move)) =
      (rule ts).map fun found => (found.1.mapOffsets move, found.2.map (Token.mapOffsets move)) :=
  (rule_recast (Token.recasts_mapOffsets move)).eq_map ts

end Construct

namespace Import

/-- An import with its place moved. -/
def mapOffsets (move : Nat → Nat) (i : Import) : Import := { i with span := i.span.mapOffsets move }

theorem rule_recast (hg : Token.Recasts g move) :
    Parallel (Recast g) (Recast g) (fun i i' => i' = i.mapOffsets move) rule rule := by
  have hall := lockstep_recast hg
  have htype : Lockstep Token.isTypePart (Recast g) (Recast g) := hall.mono fun _ _ => rfl
  have hmark (m : Mark) : Parallel (Recast g) (Recast g) Eq (mark m) (mark m) :=
    parallel_mark hall m fun _ _ => rfl
  refine (spanned_recast hg words_shrinks ?_).bind ?_
  · exact (typePart_keyword_parallel htype _).bind_eq fun _ =>
      (Identifier.capitalized_parallel htype).bind_eq fun _ => (hmark _).bind_eq fun _ =>
        (hmark _).bind_eq fun _ => (hmark _).bind_eq fun _ => parallel_pure rfl
  · rintro ⟨package, span⟩ ⟨_, _⟩ ⟨rfl, rfl⟩
    exact parallel_pure rfl

end Import

namespace Export

/-- An export with its place moved. -/
def mapOffsets (move : Nat → Nat) (e : Export) : Export := { e with span := e.span.mapOffsets move }

theorem rule_recast (hg : Token.Recasts g move) :
    Parallel (Recast g) (Recast g) (fun e e' => e' = e.mapOffsets move) rule rule := by
  have hall := lockstep_recast hg
  have htype : Lockstep Token.isTypePart (Recast g) (Recast g) := hall.mono fun _ _ => rfl
  have hmark (m : Mark) : Parallel (Recast g) (Recast g) Eq (mark m) (mark m) :=
    parallel_mark hall m fun _ _ => rfl
  have hmembers : Parallel (Recast g) (Recast g) Eq members members :=
    (hmark _).bind_eq fun _ => (hmark _).bind_eq fun _ => (hmark _).bind_eq fun _ => parallel_pure rfl
  refine (spanned_recast hg words_shrinks ?_).bind ?_
  · exact (typePart_keyword_parallel htype _).bind_eq fun _ =>
      (Identifier.any_parallel htype).bind_eq fun _ => hmembers.optional.bind_eq fun _ =>
        (hmark _).bind_eq fun _ => parallel_pure rfl
  · rintro ⟨⟨name, withMembers⟩, span⟩ ⟨⟨_, _⟩, _⟩ ⟨hread, rfl⟩
    cases hread
    exact parallel_pure rfl

end Export

namespace Statement

/-- A statement with its place moved. -/
def mapOffsets (move : Nat → Nat) : Statement → Statement
  | ofImport i => ofImport (i.mapOffsets move)
  | ofExport e => ofExport (e.mapOffsets move)

theorem rule_recast (hg : Token.Recasts g move) :
    Parallel (Recast g) (Recast g) (fun s s' => s' = s.mapOffsets move) rule rule := by
  refine Parallel.orElse ((Import.rule_recast hg).bind fun i i' hi => parallel_pure ?_)
    ((Export.rule_recast hg).bind fun e e' he => parallel_pure ?_)
  · rw [hi]
    rfl
  · rw [he]
    rfl

end Statement

end BluespecDocs
