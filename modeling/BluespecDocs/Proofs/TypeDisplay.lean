import BluespecDocs.Proofs.LiteralDisplay
import BluespecDocs.Proofs.PlainTokens
import BluespecDocs.Proofs.ShownTypes

/-!
The written form of a type and the tokens of it. Each name, mark and literal in it comes out as one token, so the
tokens are those of a written tree with the same value.
-/

namespace BluespecDocs

open Grammar (mem_one_mul mem_one_kstar)
open Lexeme (BreaksOff breaksOff_nil breaksOff_cons)
open Rule Token

theorem AnyNameLeaf.text_eq (x : AnyNameLeaf) : x.token.text = x.value.name :=
  Identifier.name_of_ofToken (TokenReader.eq_ok_of_toOption x.reads)

theorem TypeNameLeaf.text_eq (x : TypeNameLeaf) : x.token.text = x.value.name :=
  Identifier.name_of_ofToken x.ofToken_eq.1

theorem NameLeaf.text_eq {wanted : LetterCase} (x : NameLeaf wanted) : x.token.text = x.value.name :=
  Identifier.name_of_ofToken x.ofToken_eq.1

namespace Token

/-- All tokens have texts of their kinds. -/
def Spelled (ts : List Token) : Prop := ∀ t ∈ ts, t.text.toList ∈ t.kind.language

theorem Spelled.append {ts us : List Token} (h : Spelled (ts ++ us)) : Spelled ts ∧ Spelled us :=
  List.forall_mem_append.mp h

theorem Spelled.cons {t : Token} {us : List Token} (h : Spelled (t :: us)) :
    t.text.toList ∈ t.kind.language ∧ Spelled us :=
  List.forall_mem_cons.mp h

theorem exists_markLeaf {m : Mark} (hcolon : m ≠ .colon) (hdot : m ≠ .dot) (pos : Nat) (rest : List Char) :
    ∃ (x : MarkLeaf m) (pos' : Nat), lexFrom pos (m.text.toList ++ rest) = x.token :: lexFrom pos' rest :=
  ⟨⟨⟨.mark m, m.text, _⟩, (), by simp [isMark]⟩, _, lexFrom_mark hcolon hdot rest pos⟩

/-- A text that `read` makes something of wherever it stands is a leaf where it is written. -/
theorem exists_leaf {α : Type} {read : Token → Option α} {kind : TokenKind} {text : String} {a : α}
    (hread : ∀ span, read ⟨kind, text, span⟩ = some a) (hatom : kind.isAtom = true)
    (hmem : text.toList ∈ kind.language) (pos : Nat) {rest : List Char} (hrest : BreaksOff rest) :
    ∃ (x : Leaf read) (pos' : Nat), x.value = a ∧
      lexFrom pos (text.toList ++ rest) = x.token :: lexFrom pos' rest := by
  have hlex := lexFrom_atom hatom hmem hrest pos
  rw [String.ofList_toList] at hlex
  exact ⟨⟨⟨kind, text, _⟩, a, hread _⟩, _, rfl, hlex⟩

end Token

namespace TypeExpr

/-- The written form of a type is cut into the tokens of a written tree, whatever breaks off behind it. -/
def Shows (type : TypeExpr) : Prop :=
  ∀ pos rest, BreaksOff rest → ∃ (shown : ShownTree) (pos' : Nat), shown.value = type ∧
    lexFrom pos (type.display.toList ++ rest) = shown.tokens ++ lexFrom pos' rest

theorem shows_numeric (literal : LiteralLeaf) (hmem : literal.token.text.toList ∈ literal.token.kind.language) :
    Shows (numeric literal.value) := by
  intro pos rest hrest
  obtain ⟨kind, hwrites⟩ := IntLiteral.exists_writes hmem (TokenReader.eq_ok_of_toOption literal.reads)
  obtain ⟨written, next, hvalue, hlex⟩ : ∃ (x : LiteralLeaf) (pos' : Nat), _ :=
    exists_leaf (fun span => congrArg Except.toOption (hwrites.reads span)) hwrites.isAtom hwrites.mem pos hrest
  refine ⟨.numeric written, next, ?_, ?_⟩
  · rw [ShownTree.value, hvalue]
  · rw [display, ShownTree.tokens]
    exact hlex

/-- The name of a type, with the package in front of it. -/
theorem exists_named (package : Option QualifierTree) (name : TypeNameLeaf)
    (hpackage : Spelled (optionalTokens QualifierTree.tokens package))
    (hname : name.token.text.toList ∈ name.token.kind.language) (pos : Nat) {rest : List Char}
    (hrest : BreaksOff rest) :
    ∃ (package' : Option QualifierTree) (name' : TypeNameLeaf) (pos' : Nat),
      package'.map QualifierTree.value = package.map QualifierTree.value ∧ name'.value = name.value ∧
      lexFrom pos ((named (package.map QualifierTree.value) name.value []).display.toList ++ rest) =
        optionalTokens QualifierTree.tokens package' ++ name'.token :: lexFrom pos' rest := by
  have hkind : name.token.kind = .word := (Identifier.ofToken_eq_ok.mp name.ofToken_eq.1).1
  have hwritten (pos : Nat) : ∃ (x : TypeNameLeaf) (pos' : Nat), x.value = name.value ∧
      lexFrom pos (name.token.text.toList ++ rest) = x.token :: lexFrom pos' rest :=
    exists_leaf (fun _ => name.reads) (by rw [hkind]; rfl) hname pos hrest
  cases package with
  | none =>
      obtain ⟨name', next, hname', hlex⟩ := hwritten pos
      refine ⟨none, name', next, rfl, hname', ?_⟩
      rw [name.text_eq] at hlex
      simpa [display, displayAll, optionalTokens] using hlex
  | some qualifier =>
      have hbreaks : BreaksOff (Mark.doubleColon.text.toList ++ (name.token.text.toList ++ rest)) :=
        breaksOff_cons (by decide) _
      obtain ⟨package', atColons, hpackage', hlex⟩ : ∃ (x : AnyNameLeaf) (pos' : Nat), _ :=
        exists_leaf (fun _ => qualifier.package.reads) (by rw [qualifier.package.kind_eq]; rfl) hpackage.cons.1 pos
          hbreaks
      obtain ⟨colons, atName, hcolons⟩ := exists_markLeaf (m := .doubleColon) (by decide) (by decide) atColons
        (name.token.text.toList ++ rest)
      obtain ⟨name', next, hname', hlex'⟩ := hwritten atName
      refine ⟨some ⟨package', colons⟩, name', next, congrArg some hpackage', hname', ?_⟩
      rw [hcolons, hlex', name.text_eq, qualifier.package.text_eq] at hlex
      simpa [display, displayAll, optionalTokens, QualifierTree.tokens, QualifierTree.value, Mark.text] using hlex

theorem shows_named (package : Option QualifierTree) (name : TypeNameLeaf)
    (hpackage : Spelled (optionalTokens QualifierTree.tokens package))
    (hname : name.token.text.toList ∈ name.token.kind.language) :
    Shows (named (package.map QualifierTree.value) name.value []) := by
  intro pos rest hrest
  obtain ⟨package', name', next, hpackage', hname', hlex⟩ := exists_named package name hpackage hname pos hrest
  refine ⟨.named package' name', next, ?_, ?_⟩
  · rw [ShownTree.value, hpackage', hname']
  · rw [hlex, ShownTree.tokens, List.append_assoc, List.singleton_append]

/-- Types that are written one behind the other, with commas and blanks between them. -/
theorem exists_items {types : List TypeExpr} (hshows : ∀ type ∈ types, Shows type) (hne : types ≠ []) (pos : Nat)
    {rest : List Char} (hrest : BreaksOff rest) :
    ∃ (items : Separated ShownTree) (pos' : Nat), ShownTree.itemsValues items = types ∧
      lexFrom pos ((", ".intercalate (displayAll types)).toList ++ rest) =
        ShownTree.itemsTokens items ++ lexFrom pos' rest := by
  induction types generalizing pos with
  | nil => exact absurd rfl hne
  | cons type types ih =>
      have hfirst := hshows type List.mem_cons_self pos
      have hothers := ih fun other hother => hshows other (List.mem_cons_of_mem _ hother)
      cases types with
      | nil =>
          obtain ⟨shown, next, hvalue, hlex⟩ := hfirst rest hrest
          refine ⟨.last shown, next, ?_, ?_⟩
          · rw [ShownTree.itemsValues, hvalue]
          · rw [displayAll, displayAll, String.intercalate_singleton, ShownTree.itemsTokens]
            exact hlex
      | cons second types =>
          have hcomma (cs : List Char) : ", ".toList ++ cs = Mark.comma.text.toList ++ ' ' :: cs := rfl
          obtain ⟨shown, atComma, hvalue, hlex⟩ := hfirst
            (Mark.comma.text.toList ++ ' ' :: ((", ".intercalate (displayAll (second :: types))).toList ++ rest))
            (breaksOff_cons (by decide) _)
          obtain ⟨comma, atBlank, hmark⟩ := exists_markLeaf (m := .comma) (by decide) (by decide) atComma
            (' ' :: ((", ".intercalate (displayAll (second :: types))).toList ++ rest))
          obtain ⟨items, next, hvalues, hlex'⟩ := hothers (List.cons_ne_nil _ _) (atBlank + ' '.utf8Size)
          refine ⟨.more shown comma items, next, ?_, ?_⟩
          · rw [ShownTree.itemsValues, hvalue, hvalues]
          · rw [displayAll, displayAll, String.intercalate_cons_cons, ← displayAll, String.toList_append,
              String.toList_append, List.append_assoc, List.append_assoc, hcomma, hlex, hmark,
              lexFrom_layout (by decide), hlex', ShownTree.itemsTokens, List.append_assoc, List.cons_append]

/-- Types in parentheses, as they are written in front of `rest`. -/
def inParens (types : List TypeExpr) (rest : List Char) : List Char :=
  '(' :: ((", ".intercalate (displayAll types)).toList ++ ')' :: rest)

theorem breaksOff_inParens (types : List TypeExpr) (rest : List Char) : BreaksOff (inParens types rest) :=
  breaksOff_cons (by decide) _

theorem exists_group {types : List TypeExpr} (hshows : ∀ type ∈ types, Shows type) (hne : types ≠ []) (pos : Nat)
    (rest : List Char) :
    ∃ (opening : MarkLeaf .leftParen) (items : Separated ShownTree) (closing : MarkLeaf .rightParen) (pos' : Nat),
      ShownTree.itemsValues items = types ∧
      lexFrom pos (inParens types rest) =
        opening.token :: (ShownTree.itemsTokens items ++ closing.token :: lexFrom pos' rest) := by
  obtain ⟨opening, atItems, hopening⟩ := exists_markLeaf (m := .leftParen) (by decide) (by decide) pos
    ((", ".intercalate (displayAll types)).toList ++ ')' :: rest)
  obtain ⟨items, atClosing, hvalues, hitems⟩ := exists_items hshows hne atItems
    (breaksOff_cons (by decide) rest : BreaksOff (')' :: rest))
  obtain ⟨closing, next, hclosing⟩ := exists_markLeaf (m := .rightParen) (by decide) (by decide) atClosing rest
  refine ⟨opening, items, closing, next, hvalues, ?_⟩
  rw [← hclosing]
  exact hopening.trans (congrArg (opening.token :: ·) hitems)

theorem shows_applied (package : Option QualifierTree) (name : TypeNameLeaf)
    (hpackage : Spelled (optionalTokens QualifierTree.tokens package))
    (hname : name.token.text.toList ∈ name.token.kind.language) {args : List TypeExpr}
    (hargs : ∀ type ∈ args, Shows type) (hne : args ≠ []) :
    Shows (named (package.map QualifierTree.value) name.value args) := by
  intro pos rest hrest
  have hdisplay : (named (package.map QualifierTree.value) name.value args).display.toList ++ rest =
      (named (package.map QualifierTree.value) name.value []).display.toList ++ '#' :: inParens args rest := by
    cases args with
    | nil => exact absurd rfl hne
    | cons type types => simp [display, displayAll, inParens]
  obtain ⟨package', name', atHash, hpackage', hname', hlex⟩ := exists_named package name hpackage hname pos
    (breaksOff_cons (by decide) _ : BreaksOff ('#' :: inParens args rest))
  obtain ⟨hash, atGroup, hhash⟩ : ∃ (x : MarkLeaf .hash) (pos' : Nat),
      lexFrom atHash ('#' :: inParens args rest) = x.token :: lexFrom pos' (inParens args rest) :=
    exists_markLeaf (by decide) (by decide) atHash _
  obtain ⟨opening, items, closing, next, hvalues, hgroup⟩ := exists_group hargs hne atGroup rest
  refine ⟨.applied package' name' hash opening items closing, next, ?_, ?_⟩
  · rw [ShownTree.value, hpackage', hname', hvalues]
  · rw [hdisplay, hlex, hhash, hgroup, ShownTree.tokens]
    simp only [List.cons_append, List.append_assoc, List.nil_append]

theorem shows_function {result : TypeExpr} (hresult : Shows result) (name : NameLeaf .lowercase)
    (hname : name.token.text.toList ∈ name.token.kind.language) {params : List TypeExpr}
    (hparams : ∀ type ∈ params, Shows type) (hne : params ≠ []) :
    Shows (function result name.value params) := by
  intro pos rest hrest
  have hdisplay : (function result name.value params).display.toList ++ rest =
      "function".toList ++ ' ' :: (result.display.toList ++
        ' ' :: (name.token.text.toList ++ inParens params rest)) := by
    simp [display, name.text_eq, inParens]
  -- the parts are cut off from left to right, each where the next one starts
  have hblank (cs : List Char) : BreaksOff (' ' :: cs) := breaksOff_cons (by decide) cs
  have hfunction : "function".toList ∈ TokenKind.word.language :=
    mem_one_mul.mpr ⟨'f', "unction".toList, by decide, mem_one_kstar.mpr (List.all_eq_true.mp (by decide)), rfl⟩
  obtain ⟨word, atResult, -, hword⟩ : ∃ (x : WordLeaf "function") (pos' : Nat), _ :=
    exists_leaf (fun _ => rfl) rfl hfunction pos
      (hblank (result.display.toList ++ ' ' :: (name.token.text.toList ++ inParens params rest)))
  obtain ⟨shown, atName, hvalue, hshown⟩ :=
    hresult (atResult + ' '.utf8Size) _ (hblank (name.token.text.toList ++ inParens params rest))
  obtain ⟨name', atGroup, hname', hlex⟩ : ∃ (x : NameLeaf .lowercase) (pos' : Nat), _ :=
    exists_leaf (fun _ => name.reads) (by rw [name.kind_eq]; rfl) hname (atName + ' '.utf8Size)
      (breaksOff_inParens params rest)
  obtain ⟨opening, items, closing, next, hvalues, hgroup⟩ := exists_group hparams hne atGroup rest
  refine ⟨.function word shown name' opening items closing, next, ?_, ?_⟩
  · rw [ShownTree.value, hvalue, hname', hvalues]
  · rw [hdisplay, hword, lexFrom_layout (by decide), hshown, lexFrom_layout (by decide), hlex, hgroup,
      ShownTree.tokens]
    simp only [List.cons_append, List.append_assoc, List.nil_append]

end TypeExpr

namespace TypeTree

open TypeExpr

theorem argsValues_ne_nil (args : Separated TypeTree) : argsValues args ≠ [] := by
  cases args <;> rw [argsValues] <;> exact List.cons_ne_nil _ _

theorem paramsValues_ne_nil (params : Separated ParamTree) : paramsValues params ≠ [] := by
  cases params <;> rw [paramsValues] <;> exact List.cons_ne_nil _ _

mutual

theorem shows : (tree : TypeTree) → Spelled tree.tokens → Shows tree.value
  | .function word result name opening params closing, h => by
      rw [tokens] at h
      rw [value]
      have hrest := h.cons.2.append
      exact shows_function (shows result hrest.1) name hrest.2.cons.1
        (shows_params params hrest.2.cons.2.cons.2.append.1) (paramsValues_ne_nil params)
  | .named package name, h => by
      rw [tokens] at h
      rw [value]
      exact shows_named package name h.append.1 h.append.2.cons.1
  | .applied package name hash opening args closing, h => by
      rw [tokens] at h
      rw [value]
      have hrest := h.append.2.cons
      exact shows_applied package name h.append.1 hrest.1 (shows_args args hrest.2.cons.2.cons.2.append.1)
        (argsValues_ne_nil args)
  | .numeric literal, h => by
      rw [tokens] at h
      rw [value]
      exact shows_numeric literal h.cons.1

theorem shows_param : (param : ParamTree) → Spelled (paramTokens param) → Shows (paramValue param)
  | .mk type name, h => by
      rw [paramTokens] at h
      rw [paramValue]
      exact shows type h.append.1

theorem shows_args : (args : Separated TypeTree) → Spelled (argsTokens args) → ∀ type ∈ argsValues args, Shows type
  | .last item, h => by
      rw [argsTokens] at h
      rw [argsValues]
      exact List.forall_mem_singleton.mpr (shows item h)
  | .more item comma rest, h => by
      rw [argsTokens] at h
      rw [argsValues]
      exact List.forall_mem_cons.mpr ⟨shows item h.append.1, shows_args rest h.append.2.cons.2⟩

theorem shows_params : (params : Separated ParamTree) → Spelled (paramsTokens params) →
    ∀ type ∈ paramsValues params, Shows type
  | .last item, h => by
      rw [paramsTokens] at h
      rw [paramsValues]
      exact List.forall_mem_singleton.mpr (shows_param item h)
  | .more item comma rest, h => by
      rw [paramsTokens] at h
      rw [paramsValues]
      exact List.forall_mem_cons.mpr ⟨shows_param item h.append.1, shows_params rest h.append.2.cons.2⟩

end

end TypeTree

namespace TypeExpr

/-- The written form of a type that was read somewhere in a source text reads as this type, and as nothing when a
function type is in it. -/
theorem display_reads_back {source : String} {ts rest : List Token} {type : TypeExpr} (hts : ts <:+ lex source)
    (hread : rule ts = some (type, rest)) :
    complete? rule (lex type.display) = if type.hasFunction then none else some type := by
  obtain ⟨tree, rfl, rfl⟩ := (rule_reads _).sound ts type rest (Nat.lt_succ_self _) hread
  have hspelled : Spelled tree.tokens := fun t ht =>
    text_mem_language (hts.mem (List.mem_append_left rest ht)) (tree.allPlain t ht)
  obtain ⟨shown, pos', hvalue, hlex⟩ := tree.shows hspelled 0 [] breaksOff_nil
  have htokens : lex tree.value.display = shown.tokens := by
    rw [List.append_nil] at hlex
    rw [lex, hlex, lexFrom, List.append_nil]
  rw [htokens, ← hvalue]
  exact shown.complete_eq

theorem display_reads_back_nested :
    (∃ type rest, rule (lex "P :: Vector#(8'h_f, t) v") = some (type, rest) ∧
      type.display = "P::Vector#(8'h_f, t)" ∧ complete? rule (lex "P::Vector#(8'h_f, t)") = some type) ∧
    ∃ type rest, rule (lex "Reg#(function Bool f(int x)) r") = some (type, rest) ∧
      type.display = "Reg#(function Bool f(int))" ∧ complete? rule (lex "Reg#(function Bool f(int))") = none := by
  have hfree : (rule (lex "P :: Vector#(8'h_f, t) v")).map (fun found => (found.1.display, found.1.hasFunction)) =
      some ("P::Vector#(8'h_f, t)", false) := by decide +kernel
  have hfunction : (rule (lex "Reg#(function Bool f(int x)) r")).map
      (fun found => (found.1.display, found.1.hasFunction)) = some ("Reg#(function Bool f(int))", true) := by
    decide +kernel
  obtain ⟨⟨free, afterFree⟩, hreadFree, hfree⟩ := Option.map_eq_some_iff.mp hfree
  obtain ⟨⟨type, after⟩, hread, hfunction⟩ := Option.map_eq_some_iff.mp hfunction
  obtain ⟨hshowFree, hfree⟩ := Prod.mk.inj hfree
  obtain ⟨hshow, hfunction⟩ := Prod.mk.inj hfunction
  refine ⟨⟨free, afterFree, hreadFree, hshowFree, ?_⟩, type, after, hread, hshow, ?_⟩
  · rw [← hshowFree, display_reads_back List.suffix_rfl hreadFree, hfree, if_neg Bool.false_ne_true]
  · rw [← hshow, display_reads_back List.suffix_rfl hread, hfunction, if_pos rfl]

end TypeExpr

end BluespecDocs
