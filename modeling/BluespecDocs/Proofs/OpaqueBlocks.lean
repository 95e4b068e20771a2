import BluespecDocs.Proofs.DeclarationCut

/-!
Interfaces, type classes, instances and modules keep nothing of their bodies. What such a block gives is read off its
header, which reads the same tokens the same way wherever they stand. The body only has to hold no closing word.
-/

namespace BluespecDocs

open Rule

variable {α : Type}

namespace Rule

/-- The rule reads what `header` reads, and behind it all up to and with the first word `closing` and its label, a
name of the case `wanted`. -/
structure IsOpaqueBlock (header : Rule α) (closing : String) (wanted : LetterCase) (r : Rule α) : Prop where
  applies_iff : ∀ ts, (r ts).isSome ↔
    ∃ start us a, ts = start ++ us ∧ header ts = some (a, us) ∧ ∃ t ∈ us, t.isWord closing = true
  ends : ∀ ts a vs, r ts = some (a, vs) → ∃ start body word tail, ts = start ++ (body ++ word :: tail) ∧
    header ts = some (a, body ++ word :: tail) ∧ (∀ t ∈ body, t.isWord closing = false) ∧
    word.isWord closing = true ∧ vs = Token.afterLabel wanted tail
  any_body : ∀ start us a, header (start ++ us) = some (a, us) → ∀ body word tail,
    (∀ t ∈ body, t.isWord closing = false) → word.isWord closing = true →
    r (start ++ (body ++ word :: tail)) = some (a, Token.afterLabel wanted tail)

theorem isOpaqueBlock_block {header : Rule α} (hkeeps : Keeps header) (h : ReadsAnywhere header) (closing : String)
    (wanted : LetterCase) : IsOpaqueBlock header closing wanted
      (block header closing (TokenReader.rule (Identifier.ofTokenIn wanted))) where
  applies_iff ts := by
    rw [Option.isSome_iff_exists]
    constructor
    · rintro ⟨⟨a, vs⟩, hr⟩
      obtain ⟨body, word, tail, hheader, -, hword, -⟩ := block_eq_some.mp hr
      obtain ⟨start, hstart⟩ := hkeeps _ _ _ hheader
      exact ⟨start, _, a, hstart.symm, hheader, word, List.mem_append_right body List.mem_cons_self, hword⟩
    · rintro ⟨start, us, a, -, hheader, hclosing⟩
      obtain ⟨word, hfirst⟩ := Option.isSome_iff_exists.mp (List.find?_isSome.mpr hclosing)
      obtain ⟨hword, body, tail, rfl, hbody⟩ := List.find?_eq_some_iff_append.mp hfirst
      exact ⟨_, block_eq_some.mpr ⟨body, word, tail, hheader, fun t ht => by simpa using hbody t ht, hword, rfl⟩⟩
  ends ts a vs hr := by
    obtain ⟨body, word, tail, hheader, hend⟩ := block_eq_some.mp hr
    obtain ⟨start, hstart⟩ := hkeeps _ _ _ hheader
    exact ⟨start, body, word, tail, hstart.symm, hheader, hend⟩
  any_body start us a hheader body word tail hbody hword :=
    block_eq_some.mpr ⟨body, word, tail, h (m := []) hheader _, hbody, hword, rfl⟩

end Rule

/-- Of an interface, a type class, an instance or a module the header alone is read, and all behind it up to the first
closing word is passed over. -/
theorem blocks_are_opaque :
    IsOpaqueBlock Interface.header "endinterface" .capitalized Interface.rule ∧
    IsOpaqueBlock Typeclass.header "endtypeclass" .capitalized Typeclass.rule ∧
    IsOpaqueBlock Instance.header "endinstance" .capitalized Instance.rule ∧
    IsOpaqueBlock Module.header "endmodule" .lowercase Module.rule :=
  ⟨isOpaqueBlock_block Interface.header_shrinks.keeps Interface.header_readsAnywhere _ _,
    isOpaqueBlock_block Typeclass.header_shrinks.keeps Typeclass.header_readsAnywhere _ _,
    isOpaqueBlock_block Instance.header_shrinks.keeps Instance.header_readsAnywhere _ _,
    isOpaqueBlock_block Module.header_shrinks.keeps Module.header_readsAnywhere _ _⟩

end BluespecDocs
