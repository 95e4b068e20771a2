import BluespecDocs.Proofs.TypedefGrammar
import Mathlib.Data.List.Pairwise

/-!
The order in which alternatives are tried. Where two rules never apply at one place, a choice between them is
the same in both orders, and so is a choice among any number of them. The alternatives of a type definition,
those of a nested block, and a field against a nested block are of this kind. With every one of these choices
taken in another order, the rule for type definitions is the same.
-/

namespace BluespecDocs

namespace Rule

variable {α : Type}

/-- There is no place where both rules apply. -/
def Apart (r q : Rule α) : Prop := ∀ ts, r ts = none ∨ q ts = none

theorem Apart.symm {r q : Rule α} (h : Apart r q) : Apart q r := fun ts => (h ts).symm

theorem Apart.of_eq_none {r q : Rule α} (h : ∀ ts found, q ts = some found → r ts = none) : Apart r q := by
  intro ts
  cases hq : q ts with
  | none => exact .inr rfl
  | some found => exact .inl (h ts found hq)

theorem Apart.orElse {r q s : Rule α} (hq : Apart r q) (hs : Apart r s) : Apart r (q <|> s) := by
  intro ts
  rcases hq ts with hr | hq
  · exact .inl hr
  · rw [orElse_apply, hq, Option.none_or]
    exact hs ts

/-- Two rules that never apply at one place may change places in a choice. -/
theorem Apart.orElse_left_comm {r q : Rule α} (h : Apart r q) (s : Rule α) :
    (r <|> q <|> s) = (q <|> r <|> s) := by
  funext ts
  simp only [orElse_apply]
  rcases h ts with hr | hq
  · rw [hr, Option.none_or, Option.none_or]
  · rw [hq, Option.none_or, Option.none_or]

theorem Apart.orElse_comm {r q : Rule α} (h : Apart r q) : (r <|> q) = (q <|> r) := by
  funext ts
  rw [orElse_apply, orElse_apply]
  rcases h ts with hr | hq
  · rw [hr, Option.none_or, Option.or_none]
  · rw [hq, Option.none_or, Option.or_none]

/-- The first of several rules that applies. -/
def firstOf (rules : List (Rule α)) : Rule α := rules.foldr (· <|> ·) failure

theorem firstOf_perm {rules order : List (Rule α)} (h : rules.Pairwise Apart) (horder : order.Perm rules) :
    firstOf order = firstOf rules := by
  have : Std.Symm (Apart (α := α)) := ⟨fun _ _ => Apart.symm⟩
  refine (horder.symm.foldr_eq' (fun r hr q hq s => ?_) _).symm
  by_cases hne : q = r
  · rw [hne]
  · exact (h.forall hq hr hne).orElse_left_comm s

theorem orElse_failure (r : Rule α) : (r <|> failure) = r := by
  funext ts
  rw [orElse_apply]
  exact Option.or_none

/-- The two rules in this order, or the other way round. -/
def eitherOrder (swap : Bool) (r q : Rule α) : Rule α := bif swap then q <|> r else r <|> q

theorem Apart.eitherOrder_eq {r q : Rule α} (h : Apart r q) (swap : Bool) :
    eitherOrder swap r q = (r <|> q) := by
  cases swap with
  | false => rfl
  | true => exact h.orElse_comm.symm

end Rule

open Rule

namespace Member

theorem structBlock_opens {nested : Rule Member} {ts : List Token} {found : List Member × List Token}
    (h : structBlock nested ts = some found) :
    ∃ (word : WordLeaf "struct") (opening : MarkLeaf .leftBrace) (us : List Token),
      ts = word.token :: opening.token :: us := by
  obtain ⟨_, us, hword, hblock⟩ := bind_eq_some.mp h
  obtain ⟨_, vs, hopening, -⟩ := bind_eq_some.mp hblock
  obtain ⟨word, rfl, -⟩ := token_eq_some.mp hword
  obtain ⟨opening, rfl, -⟩ := token_eq_some.mp hopening
  exact ⟨word, opening, vs, rfl⟩

theorem unionBlock_opens {nested : Rule Member} {ts : List Token} {found : List Member × List Token}
    (h : unionBlock nested ts = some found) :
    ∃ (word : WordLeaf "union") (tagged : WordLeaf "tagged") (opening : MarkLeaf .leftBrace) (us : List Token),
      ts = word.token :: tagged.token :: opening.token :: us := by
  obtain ⟨_, us, hword, hrest⟩ := bind_eq_some.mp h
  obtain ⟨_, vs, htagged, hblock⟩ := bind_eq_some.mp hrest
  obtain ⟨_, ws, hopening, -⟩ := bind_eq_some.mp hblock
  obtain ⟨word, rfl, -⟩ := token_eq_some.mp hword
  obtain ⟨tagged, rfl, -⟩ := token_eq_some.mp htagged
  obtain ⟨opening, rfl, -⟩ := token_eq_some.mp hopening
  exact ⟨word, tagged, opening, ws, rfl⟩

theorem field_apart_blocks (wanted : LetterCase) (nested : Rule Member) :
    Apart (fieldRule (fieldName wanted)) (taggedUnion nested <|> taggedStruct nested) := by
  refine Apart.orElse (.of_eq_none fun ts found h => ?_) (.of_eq_none fun ts found h => ?_)
  · obtain ⟨members, us, hblock, -⟩ := bind_eq_some.mp h
    obtain ⟨word, tagged, opening, vs, rfl⟩ := unionBlock_opens hblock
    exact fieldRule_of_union wanted word tagged opening vs
  · obtain ⟨members, us, hblock, -⟩ := bind_eq_some.mp h
    obtain ⟨word, opening, vs, rfl⟩ := structBlock_opens hblock
    exact fieldRule_of_struct wanted word opening vs

theorem union_apart_struct (nested : Rule Member) : Apart (taggedUnion nested) (taggedStruct nested) :=
  .of_eq_none fun _ _ h => (taggedUnion_startsWith nested).eq_none (taggedStruct_startsWith nested) (by decide) h

/-- Members in braces, with `nested` tried before fields if `swap` says so. -/
def blockOrdered (swap : Bool) (wanted : LetterCase) (nested : Rule Member) : Rule (List Member) :=
  between .leftBrace .rightBrace (atLeastOne (eitherOrder swap (fieldRule (fieldName wanted)) nested))

def structBlockOrdered (swap : Bool) (nested : Rule Member) : Rule (List Member) := do
  keyword "struct"
  blockOrdered swap .lowercase nested

def unionBlockOrdered (swap : Bool) (nested : Rule Member) : Rule (List Member) := do
  keyword "union"
  keyword "tagged"
  blockOrdered swap .capitalized nested

/-- One level of blocks, with the choices among members and among blocks made in the given orders. -/
def levelOrdered (swapMembers swapBlocks : Bool) (nested : Rule Member) : Rule Member :=
  eitherOrder swapBlocks
    (do
      let members ← unionBlockOrdered swapMembers nested
      return union members (← tagRule))
    (do
      let members ← structBlockOrdered swapMembers nested
      return struct members (← tagRule))

def nestedOrdered (swapMembers swapBlocks : Bool) : Rule Member :=
  recursive (levelOrdered swapMembers swapBlocks)

theorem structBlockOrdered_eq {nested : Rule Member}
    (h : ∀ wanted, Apart (fieldRule (fieldName wanted)) nested) (swap : Bool) :
    structBlockOrdered swap nested = structBlock nested := by
  rw [structBlockOrdered, blockOrdered, (h .lowercase).eitherOrder_eq]
  rfl

theorem unionBlockOrdered_eq {nested : Rule Member}
    (h : ∀ wanted, Apart (fieldRule (fieldName wanted)) nested) (swap : Bool) :
    unionBlockOrdered swap nested = unionBlock nested := by
  rw [unionBlockOrdered, blockOrdered, (h .capitalized).eitherOrder_eq]
  rfl

theorem nestedTo_apart (wanted : LetterCase) (depth : Nat) : Apart (fieldRule (fieldName wanted))
    (nestedTo (fun nested => taggedUnion nested <|> taggedStruct nested) depth) := by
  cases depth with
  | zero => exact fun _ => .inr rfl
  | succ depth => exact field_apart_blocks wanted _

theorem nestedRule_apart (wanted : LetterCase) : Apart (fieldRule (fieldName wanted)) nestedRule :=
  fun ts => nestedTo_apart wanted ts.length ts

theorem levelOrdered_eq {nested : Rule Member} (h : ∀ wanted, Apart (fieldRule (fieldName wanted)) nested)
    (swapMembers swapBlocks : Bool) :
    levelOrdered swapMembers swapBlocks nested = (taggedUnion nested <|> taggedStruct nested) := by
  rw [levelOrdered, unionBlockOrdered_eq h, structBlockOrdered_eq h]
  exact (union_apart_struct nested).eitherOrder_eq swapBlocks

theorem nestedOrdered_eq (swapMembers swapBlocks : Bool) :
    nestedOrdered swapMembers swapBlocks = nestedRule := by
  have hdepth : ∀ depth, nestedTo (levelOrdered swapMembers swapBlocks) depth =
      nestedTo (fun nested => taggedUnion nested <|> taggedStruct nested) depth := by
    intro depth
    induction depth with
    | zero => rfl
    | succ depth ih =>
        rw [nestedTo, ih]
        exact levelOrdered_eq (fun wanted => nestedTo_apart wanted depth) swapMembers swapBlocks
  funext ts
  exact congrFun (hdepth ts.length) ts

end Member

namespace Typedef

theorem withBody_apart {words words' : List String} {r q : Rule TypedefBody} (h : StartsWith words r)
    (h' : StartsWith words' q) (hdisjoint : ∀ word ∈ words, word ∉ words') :
    Apart (withBody r) (withBody q) :=
  .of_eq_none fun _ _ hq => (h.bind _).eq_none (h'.bind _) hdisjoint hq

/-- An alias and another kind of definition never start at one place. -/
theorem synonym_apart {bodyRule : Rule TypedefBody}
    (h : ∀ ts found, bodyRule ts = some found → synonymRule ts = none) :
    Apart synonymRule (withBody bodyRule) :=
  .of_eq_none fun ts _ hfound => by
    obtain ⟨body, us, hbody, -⟩ := bind_eq_some.mp hfound
    exact h ts _ hbody

theorem synonym_apart_enum : Apart synonymRule (withBody enumBody) :=
  synonym_apart fun ts found h => by
    obtain ⟨_, us, hword, hrest⟩ := bind_eq_some.mp h
    obtain ⟨_, vs, hbraced, -⟩ := bind_eq_some.mp hrest
    obtain ⟨_, ws, hopening, -⟩ := bind_eq_some.mp hbraced
    obtain ⟨word, rfl, -⟩ := token_eq_some.mp hword
    obtain ⟨opening, rfl, -⟩ := token_eq_some.mp hopening
    exact synonymRule_of_enum word opening ws

theorem synonym_apart_struct : Apart synonymRule (withBody structBody) :=
  synonym_apart fun ts found h => by
    obtain ⟨members, us, hblock, -⟩ := bind_eq_some.mp h
    obtain ⟨word, opening, vs, rfl⟩ := Member.structBlock_opens hblock
    exact synonymRule_of_struct word opening vs

theorem synonym_apart_union : Apart synonymRule (withBody unionBody) :=
  synonym_apart fun ts found h => by
    obtain ⟨members, us, hblock, -⟩ := bind_eq_some.mp h
    obtain ⟨word, tagged, opening, vs, rfl⟩ := Member.unionBlock_opens hblock
    exact synonymRule_of_union word tagged _

theorem alternatives_apart : List.Pairwise Apart
    [synonymRule, withBody enumBody, withBody structBody, withBody unionBody] := by
  have henum_struct := withBody_apart enumBody_startsWith structBody_startsWith (by decide)
  have henum_union := withBody_apart enumBody_startsWith unionBody_startsWith (by decide)
  have hstruct_union := withBody_apart structBody_startsWith unionBody_startsWith (by decide)
  simp only [List.pairwise_cons, List.forall_mem_cons, List.not_mem_nil, false_implies, implies_true, and_true,
    List.Pairwise.nil]
  exact ⟨⟨synonym_apart_enum, synonym_apart_struct, synonym_apart_union⟩, ⟨henum_struct, henum_union⟩,
    hstruct_union⟩

/-- The four kinds of definition, with the choices inside them made in the given orders. -/
def kindsOrdered (swapMembers swapBlocks : Bool) : List (Rule Typedef) :=
  let nested := Member.nestedOrdered swapMembers swapBlocks
  [synonymRule, withBody enumBody,
    withBody do return .struct (← Member.structBlockOrdered swapMembers nested),
    withBody do return .taggedUnion (← Member.unionBlockOrdered swapMembers nested)]

theorem kindsOrdered_eq (swapMembers swapBlocks : Bool) : kindsOrdered swapMembers swapBlocks =
    [synonymRule, withBody enumBody, withBody structBody, withBody unionBody] := by
  rw [kindsOrdered, Member.nestedOrdered_eq, Member.structBlockOrdered_eq Member.nestedRule_apart,
    Member.unionBlockOrdered_eq Member.nestedRule_apart]
  rfl

theorem firstOf_kinds (swapMembers swapBlocks : Bool) {order : List (Rule Typedef)}
    (horder : order.Perm (kindsOrdered swapMembers swapBlocks)) :
    (do keyword "typedef"; firstOf order) = rule := by
  rw [kindsOrdered_eq] at horder
  rw [firstOf_perm alternatives_apart horder]
  change (keyword "typedef" >>= fun _ => _ <|> _ <|> _ <|> _ <|> failure) = _
  rw [orElse_failure]
  rfl

/-- The rule for type definitions takes in exactly what the grammar derives, with the value of the derivation.
A token list has at most one derivation, and trying the alternatives in any other order, the kinds of
definition as well as fields and nested blocks at every depth, makes the same rule. -/
theorem rule_derives_grammar (tokens : List Token) :
    (∀ defined, complete? rule tokens = some defined ↔
      ∃ tree : TypedefTree, tree.tokens = tokens ∧ tree.value = defined) ∧
    (∀ tree tree' : TypedefTree, tree.tokens = tokens → tree'.tokens = tokens → tree = tree') ∧
    ∀ swapMembers swapBlocks order, order.Perm (kindsOrdered swapMembers swapBlocks) →
      complete? (do keyword "typedef"; firstOf order) tokens = complete? rule tokens := by
  have hreads : Reads (tokens.length + 1) (fun _ => True) TypedefTree.tokens TypedefTree.value rule := rule_reads
  refine ⟨fun defined => ?_, fun tree tree' htree htree' => ?_, fun swapMembers swapBlocks order horder => ?_⟩
  · rw [complete_eq_some]
    constructor
    · intro hrule
      obtain ⟨tree, htokens, hvalue⟩ := hreads.sound tokens defined [] (Nat.lt_succ_self _) hrule
      exact ⟨tree, by rw [htokens, List.append_nil], hvalue⟩
    · rintro ⟨tree, rfl, rfl⟩
      have hcomplete := hreads.complete tree []
      rw [List.append_nil] at hcomplete
      exact hcomplete (Nat.lt_succ_self _) trivial
  · refine hreads.unique tree tree' [] [] ?_ trivial trivial ?_
    · rw [List.append_nil, htree]
      exact Nat.lt_succ_self _
    · rw [htree, htree']
  · rw [firstOf_kinds swapMembers swapBlocks horder]

end Typedef

end BluespecDocs
