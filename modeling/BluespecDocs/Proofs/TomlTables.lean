import BluespecDocs.Proofs.SettingTables

/-!
Settings files have no key twice. A table that is read has each of its keys once, and so has every table inside it:
values in braces are given to their keys one by one, and a line changes the tables on its path in one key each.
-/

namespace BluespecDocs

namespace Reader

variable {σ α β : Type} {P : α → Prop} {Q : β → Prop} {r q : Reader σ α} {k : α → Reader σ β}

/-- Whatever a reader gives has a property. -/
structure Gives (P : α → Prop) (r : Reader σ α) : Prop where
  of_read : ∀ as a rest, r as = some (a, rest) → P a

theorem gives_pure {a : α} (h : P a) : Gives P (pure a : Reader σ α) where
  of_read as b rest hread := by
    cases hread
    exact h

theorem gives_lift {found : Option α} (h : ∀ a, found = some a → P a) : Gives P (liftM found : Reader σ α) where
  of_read as a rest hread := by
    obtain ⟨b, hfound, hb⟩ := Option.bind_eq_some_iff.mp hread
    cases hb
    exact h a hfound

theorem Gives.bind (h : Gives P r) (hk : ∀ a, P a → Gives Q (k a)) : Gives Q (r >>= k) where
  of_read as b rest hread := by
    obtain ⟨⟨a, others⟩, hfirst, hrest⟩ := Option.bind_eq_some_iff.mp hread
    have ha := h.of_read as a others hfirst
    exact (hk a ha).of_read others b rest hrest

theorem gives_bind (hk : ∀ a, Gives Q (k a)) : Gives Q (r >>= k) := by
  have hany : Gives (fun _ => True) r := ⟨fun _ _ _ _ => trivial⟩
  exact hany.bind fun a _ => hk a

theorem Gives.orElse (h : Gives P r) (h' : Gives P q) : Gives P (r <|> q) where
  of_read as a rest hread := by
    change (r as).orElse (fun _ => q as) = some (a, rest) at hread
    cases hr : r as with
    | some found =>
        rw [hr] at hread
        cases hread
        exact h.of_read as a rest hr
    | none =>
        rw [hr] at hread
        exact h'.of_read as a rest hread

theorem Gives.upTo (h : Gives P r) (n : Nat) : Gives (fun as => ∀ a ∈ as, P a) (upTo r n) := by
  have hnil : Gives (fun as => ∀ a ∈ as, P a) (pure [] : Reader σ (List α)) := gives_pure (by simp)
  induction n with
  | zero => exact hnil
  | succ n ih =>
      apply Gives.orElse _ hnil
      apply h.bind
      intro first hfirst
      apply ih.bind
      intro others hothers
      exact gives_pure (List.forall_mem_cons.mpr ⟨hfirst, hothers⟩)

theorem Gives.many (h : Gives P r) : Gives (fun as => ∀ a ∈ as, P a) (many r) where
  of_read as found rest hread := (h.upTo as.length).of_read as found rest hread

theorem Gives.separated (h : Gives P r) (separator : Reader σ Unit) :
    Gives (fun as => ∀ a ∈ as, P a) (separated separator r) := by
  apply h.bind
  intro first hfirst
  apply (gives_bind fun _ => h).many.bind
  intro others hothers
  exact gives_pure (List.forall_mem_cons.mpr ⟨hfirst, hothers⟩)

theorem Gives.orEmpty {items : Reader σ (List α)} (h : Gives (fun as => ∀ a ∈ as, P a) items) :
    Gives (fun as => ∀ a ∈ as, P a) (orEmpty items) :=
  h.orElse (gives_pure (by simp))

end Reader

/-- No table in a value has the same key twice. -/
inductive SettingValue.KeysDistinct : SettingValue → Prop where
  | missing : KeysDistinct .missing
  | str (text : String) : KeysDistinct (.str text)
  | int (value : Int) : KeysDistinct (.int value)
  | float (value : Binary64) : KeysDistinct (.float value)
  | bool (value : Bool) : KeysDistinct (.bool value)
  | table {entries : SettingTable} (hnodup : (entries.map Prod.fst).Nodup)
      (hentries : ∀ entry ∈ entries, entry.2.KeysDistinct) : KeysDistinct (.table entries)
  | list {size : Nat} {items : List (Nat × SettingValue)} (hitems : ∀ item ∈ items, item.2.KeysDistinct) :
      KeysDistinct (.list size items)

namespace Toml

open Reader

/-- No table in a node has the same key twice. -/
inductive Node.KeysDistinct : Node → Prop where
  | value {value : SettingValue} (h : value.KeysDistinct) : KeysDistinct (.value value)
  | dateTime (value : DateTime) : KeysDistinct (.dateTime value)
  | table {origin : Origin} {entries : List (String × Node)} (hnodup : (entries.map Prod.fst).Nodup)
      (hentries : ∀ entry ∈ entries, entry.2.KeysDistinct) : KeysDistinct (.table origin entries)
  | array {opened : Bool} {items : List Node} (hitems : ∀ item ∈ items, item.KeysDistinct) :
      KeysDistinct (.array opened items)

/-- Entries with different keys, none of which has a table with the same key twice. -/
structure EntriesDistinct (entries : List (String × Node)) : Prop where
  nodup : (entries.map Prod.fst).Nodup
  nodes : ∀ entry ∈ entries, entry.2.KeysDistinct

variable {entries entries' : List (String × Node)} {key : String} {node : Node}

theorem Node.keysDistinct_table {origin : Origin} :
    (Node.table origin entries).KeysDistinct ↔ EntriesDistinct entries := by
  constructor
  · rintro (_ | _ | ⟨hnodup, hentries⟩)
    exact ⟨hnodup, hentries⟩
  · rintro ⟨hnodup, hentries⟩
    exact .table hnodup hentries

theorem Node.keysDistinct_array {opened : Bool} {items : List Node} :
    (Node.array opened items).KeysDistinct ↔ ∀ item ∈ items, item.KeysDistinct := by
  constructor
  · rintro (_ | _ | _ | hitems)
    exact hitems
  · exact .array

theorem Node.keysDistinct_array_concat {opened : Bool} {items : List Node} (hitems : ∀ item ∈ items, item.KeysDistinct)
    (hnode : node.KeysDistinct) : (Node.array opened (items ++ [node])).KeysDistinct := by
  apply Node.KeysDistinct.array
  intro item hitem
  rcases List.mem_append.mp hitem with hold | hlast
  · exact hitems item hold
  · obtain rfl := List.mem_singleton.mp hlast
    exact hnode

namespace EntriesDistinct

theorem nil : EntriesDistinct [] := ⟨List.nodup_nil, by simp⟩

theorem put (h : EntriesDistinct entries) (hnode : node.KeysDistinct) :
    EntriesDistinct (SettingTable.put key node entries) where
  nodup := SettingTable.nodup_put h.nodup
  nodes entry hentry := by
    rcases SettingTable.mem_put hentry with rfl | hold
    · exact hnode
    · exact h.nodes entry hold

theorem of_lookup (h : EntriesDistinct entries) (hnode : entries.lookup key = some node) : node.KeysDistinct := by
  obtain ⟨front, rest, rfl, -⟩ := List.lookup_eq_some_iff.mp hnode
  exact h.nodes (key, node) (by simp)

/-- A key is taken out and put in again behind the others. -/
theorem moveBehind (h : EntriesDistinct entries) (hnode : node.KeysDistinct) :
    EntriesDistinct (entries.filter (fun (k, _) => k ≠ key) ++ [(key, node)]) where
  nodup := by
    have hsub : ((entries.filter fun (k, _) => k ≠ key).map Prod.fst).Nodup :=
      h.nodup.sublist (List.filter_sublist.map Prod.fst)
    have hfresh : key ∉ (entries.filter fun (k, _) => k ≠ key).map Prod.fst := by simp
    rw [List.map_append, List.map_singleton]
    refine List.nodup_append.mpr ⟨hsub, by simp, fun k hk other hother => ?_⟩
    obtain rfl := List.mem_singleton.mp hother
    exact fun hsame => hfresh (hsame ▸ hk)
  nodes entry hentry := by
    rcases List.mem_append.mp hentry with hold | hnew
    · exact h.nodes entry (List.mem_filter.mp hold).1
    · obtain rfl := List.mem_singleton.mp hnew
      exact hnode

theorem openTable (h : EntriesDistinct entries) (hopen : Toml.openTable key entries = some entries') :
    EntriesDistinct entries' := by
  unfold Toml.openTable at hopen
  split at hopen
  · cases hopen
    exact h.moveBehind (Node.keysDistinct_table.mpr nil)
  · next inner hlookup =>
      cases hopen
      have hinner := Node.keysDistinct_table.mp (h.of_lookup hlookup)
      exact h.moveBehind (Node.keysDistinct_table.mpr hinner)
  · cases hopen

theorem openItem (h : EntriesDistinct entries) (hopen : Toml.openItem key entries = some entries') :
    EntriesDistinct entries' := by
  have hnew : (Node.table .opened []).KeysDistinct := Node.keysDistinct_table.mpr nil
  unfold Toml.openItem at hopen
  split at hopen
  · cases hopen
    exact h.put (.array (by simpa using hnew))
  · next items hlookup =>
      cases hopen
      have hitems := Node.keysDistinct_array.mp (h.of_lookup hlookup)
      exact h.put (Node.keysDistinct_array_concat hitems hnew)
  · cases hopen

theorem giveValue (h : EntriesDistinct entries) (hnode : node.KeysDistinct)
    (hgive : Toml.giveValue key node entries = some entries') : EntriesDistinct entries' := by
  unfold Toml.giveValue at hgive
  split at hgive
  · cases hgive
    exact h.put hnode
  · cases hgive

/-- A change at the end of a path keeps keys different if it does so where it is made. -/
theorem changeAt {dotted : Bool} {change : List (String × Node) → Option (List (String × Node))}
    (hchange : ∀ entries entries', EntriesDistinct entries → change entries = some entries' → EntriesDistinct entries')
    {path : List String} (h : EntriesDistinct entries) (hfound : changeAt dotted change path entries = some entries') :
    EntriesDistinct entries' := by
  -- Each table on the path is put back under its key, so what it holds is all that can go wrong.
  induction path generalizing entries entries' with
  | nil => exact hchange entries entries' h hfound
  | cons key path ih =>
      unfold Toml.changeAt at hfound
      split at hfound
      · obtain ⟨inner, hinner, hput⟩ := Option.bind_eq_some_iff.mp hfound
        cases hput
        exact h.put (Node.keysDistinct_table.mpr (ih nil hinner))
      · next origin inner hlookup =>
          split at hfound
          · cases hfound
          · obtain ⟨inner', hinner, hput⟩ := Option.bind_eq_some_iff.mp hfound
            cases hput
            have hold := Node.keysDistinct_table.mp (h.of_lookup hlookup)
            exact h.put (Node.keysDistinct_table.mpr (ih hold hinner))
      · next items hlookup =>
          have hitems := Node.keysDistinct_array.mp (h.of_lookup hlookup)
          split at hfound
          · next origin inner hlast =>
              split at hfound
              · cases hfound
              · obtain ⟨inner', hinner, hput⟩ := Option.bind_eq_some_iff.mp hfound
                cases hput
                have hold := Node.keysDistinct_table.mp (hitems _ (List.mem_of_getLast? hlast))
                have hfront : ∀ item ∈ items.dropLast, item.KeysDistinct :=
                  fun item hitem => hitems item ((List.dropLast_sublist items).subset hitem)
                have hnew : (Node.table origin inner').KeysDistinct := Node.keysDistinct_table.mpr (ih hold hinner)
                exact h.put (Node.keysDistinct_array_concat hfront hnew)
          · cases hfound
      · cases hfound

theorem giveAt {path : List String} (h : EntriesDistinct entries) (hnode : node.KeysDistinct)
    (hgive : Toml.giveAt path node entries = some entries') : EntriesDistinct entries' := by
  refine h.changeAt (fun old new hold hnew => ?_) hgive
  exact hold.giveValue hnode hnew

end EntriesDistinct

theorem scalar_gives : Gives Node.KeysDistinct scalar := by
  unfold scalar
  refine Gives.orElse (gives_bind fun text => gives_pure (.value (.str text))) ?_
  refine Gives.orElse (gives_bind fun date => gives_pure (.dateTime date)) ?_
  refine Gives.orElse (gives_bind fun x => gives_pure (.value (.float x))) ?_
  refine Gives.orElse (gives_bind fun n => gives_pure (.value (.int n))) ?_
  exact gives_bind fun b => gives_pure (.value (.bool b))

theorem array_gives {item : Reader Char Node} (h : Gives Node.KeysDistinct item) :
    Gives Node.KeysDistinct (array item) := by
  have hspaced : Gives Node.KeysDistinct (do gap; let value ← item; gap; return value) := by
    apply gives_bind
    intro _
    apply h.bind
    intro value hvalue
    exact gives_bind fun _ => gives_pure hvalue
  have hitems : Gives (fun items => ∀ item ∈ items, item.KeysDistinct) (do
      let items ← separated (exactly [',']) (do gap; let value ← item; gap; return value)
      let _ ← optional (exactly [','])
      return items) := by
    apply (hspaced.separated _).bind
    intro items hitems
    exact gives_bind fun _ => gives_pure hitems
  apply gives_bind
  intro _
  apply hitems.orEmpty.bind
  intro items hitems
  exact gives_bind fun _ => gives_bind fun _ => gives_pure (.array hitems)

theorem keyValue_gives {item : Reader Char Node} (h : Gives Node.KeysDistinct item) :
    Gives (fun pair => pair.2.KeysDistinct) (keyValue item) := by
  apply gives_bind
  intro path
  apply gives_bind
  intro _
  apply gives_bind
  intro _
  apply h.bind
  intro value hvalue
  exact gives_pure hvalue

/-- Keys that are given their values one by one stay different. -/
theorem giveEach_gives {pairs : List (List String × Node)} (hpairs : ∀ pair ∈ pairs, pair.2.KeysDistinct)
    (h : EntriesDistinct entries) : Gives EntriesDistinct
      (pairs.foldlM (fun entries (path, value) => liftM (giveAt path value entries)) entries :
        Reader Char (List (String × Node))) := by
  induction pairs generalizing entries with
  | nil => exact gives_pure h
  | cons pair pairs ih =>
      obtain ⟨hpair, hothers⟩ := List.forall_mem_cons.mp hpairs
      rw [List.foldlM_cons]
      apply (gives_lift fun next hnext => h.giveAt hpair hnext).bind
      intro next hnext
      exact ih hothers hnext

theorem inlineTable_gives {item : Reader Char Node} (h : Gives Node.KeysDistinct item) :
    Gives Node.KeysDistinct (inlineTable item) := by
  have hpair : Gives (fun pair => pair.2.KeysDistinct) (do let pair ← keyValue item; blanks; return pair) := by
    apply (keyValue_gives h).bind
    intro pair hpair
    exact gives_bind fun _ => gives_pure hpair
  apply gives_bind
  intro _
  apply (hpair.separated _).orEmpty.bind
  intro pairs hpairs
  apply gives_bind
  intro _
  apply gives_bind
  intro _
  apply (giveEach_gives hpairs EntriesDistinct.nil).bind
  intro entries hentries
  exact gives_pure (Node.keysDistinct_table.mpr hentries)

theorem valueTo_gives (n : Nat) : Gives Node.KeysDistinct (valueTo n) := by
  induction n with
  | zero => exact scalar_gives
  | succ n ih => exact (array_gives ih).orElse ((inlineTable_gives ih).orElse scalar_gives)

/-- No value that a line gives has a table with the same key twice. -/
def Line.KeysDistinct : Line → Prop
  | .entry _ value => value.KeysDistinct
  | _ => True

theorem line_gives : Gives Line.KeysDistinct line := by
  apply gives_bind
  intro _
  refine Gives.orElse (gives_bind fun _ => gives_pure trivial) (Gives.bind (P := Line.KeysDistinct) ?_ ?_)
  · refine Gives.orElse (gives_bind fun _ => gives_pure trivial) ?_
    refine Gives.orElse (gives_bind fun _ => gives_bind fun path => gives_bind fun _ => gives_pure trivial) ?_
    refine Gives.orElse (gives_bind fun _ => gives_bind fun path => gives_bind fun _ => gives_pure trivial) ?_
    apply (keyValue_gives (valueTo_gives 79)).bind
    intro pair hpair
    exact gives_pure hpair
  · intro found hfound
    exact gives_bind fun _ => gives_pure hfound

/-- A line keeps keys different. -/
theorem State.step_distinct {state state' : State} {line : Line} (h : EntriesDistinct state.entries)
    (hline : line.KeysDistinct) (hstep : state.step line = some state') : EntriesDistinct state'.entries := by
  cases line with
  | empty =>
      cases hstep
      exact h
  | table path =>
      obtain ⟨entries, hentries, hstate⟩ := Option.bind_eq_some_iff.mp hstep
      cases hstate
      exact h.changeAt (fun old new hold hnew => hold.openTable hnew) hentries
  | item path =>
      obtain ⟨entries, hentries, hstate⟩ := Option.bind_eq_some_iff.mp hstep
      cases hstate
      exact h.changeAt (fun old new hold hnew => hold.openItem hnew) hentries
  | entry path value =>
      obtain ⟨entries, hentries, hstate⟩ := Option.bind_eq_some_iff.mp hstep
      cases hstate
      exact h.changeAt (fun old new hold hnew => hold.giveAt hline hnew) hentries

/-- All lines of a file keep keys different. -/
theorem State.run_distinct {lines : List Line} {state state' : State} (h : EntriesDistinct state.entries)
    (hlines : ∀ line ∈ lines, line.KeysDistinct) (hrun : lines.foldlM State.step state = some state') :
    EntriesDistinct state'.entries := by
  induction lines generalizing state with
  | nil =>
      cases hrun
      exact h
  | cons line lines ih =>
      obtain ⟨hline, hothers⟩ := List.forall_mem_cons.mp hlines
      obtain ⟨next, hstep, hrest⟩ := Option.bind_eq_some_iff.mp hrun
      exact ih (step_distinct h hline hstep) hothers hrest

theorem keys_of_toTable {entries : List (String × Node)} {table : SettingTable} (h : toTable? entries = some table) :
    table.map Prod.fst = entries.map Prod.fst := by
  induction entries generalizing table with
  | nil =>
      rw [toTable?] at h
      cases h
      rfl
  | cons entry rest ih =>
      rw [toTable?] at h
      obtain ⟨value, -, h⟩ := Option.bind_eq_some_iff.mp h
      obtain ⟨others, hothers, h⟩ := Option.bind_eq_some_iff.mp h
      cases h
      rw [List.map_cons, List.map_cons, ih hothers]

mutual

theorem Node.keysDistinct_toValue : {node : Node} → {found : SettingValue} → node.KeysDistinct →
    node.toValue? = some found → found.KeysDistinct
  | .value v, found, h, hfound => by
      rw [Node.toValue?] at hfound
      cases hfound
      obtain ⟨hv⟩ := h
      exact hv
  | .dateTime v, found, h, hfound => by
      rw [Node.toValue?] at hfound
      cases hfound
      exact .str _
  | .table origin entries, found, h, hfound => by
      rw [Node.toValue?] at hfound
      split at hfound
      · unfold dateTime? at hfound
        split at hfound
        · obtain ⟨date, -, rfl⟩ := Option.map_eq_some_iff.mp hfound
          exact .str _
        · cases hfound
      · obtain ⟨table, htable, rfl⟩ := Option.map_eq_some_iff.mp hfound
        obtain ⟨hnodup, hentries⟩ := Node.keysDistinct_table.mp h
        refine .table ?_ (keysDistinct_toTable hentries htable)
        rw [keys_of_toTable htable]
        exact hnodup
  | .array opened items, found, h, hfound => by
      rw [Node.toValue?] at hfound
      obtain ⟨values, hvalues, rfl⟩ := Option.map_eq_some_iff.mp hfound
      exact .list (keysDistinct_toItems (Node.keysDistinct_array.mp h) hvalues)

theorem keysDistinct_toTable : {entries : List (String × Node)} → {table : SettingTable} →
    (∀ entry ∈ entries, entry.2.KeysDistinct) → toTable? entries = some table →
    ∀ entry ∈ table, entry.2.KeysDistinct
  | [], table, _, htable => by
      rw [toTable?] at htable
      cases htable
      simp
  | (key, node) :: rest, table, h, htable => by
      rw [toTable?] at htable
      obtain ⟨value, hvalue, htable⟩ := Option.bind_eq_some_iff.mp htable
      obtain ⟨others, hothers, htable⟩ := Option.bind_eq_some_iff.mp htable
      cases htable
      obtain ⟨hnode, hrest⟩ := List.forall_mem_cons.mp h
      exact List.forall_mem_cons.mpr ⟨Node.keysDistinct_toValue hnode hvalue, keysDistinct_toTable hrest hothers⟩

theorem keysDistinct_toItems : {items : List Node} → {n : Nat} → {found : List (Nat × SettingValue)} →
    (∀ item ∈ items, item.KeysDistinct) → toItems? n items = some found → ∀ item ∈ found, item.2.KeysDistinct
  | [], n, found, _, hfound => by
      rw [toItems?] at hfound
      cases hfound
      simp
  | node :: rest, n, found, h, hfound => by
      rw [toItems?] at hfound
      obtain ⟨value, hvalue, hfound⟩ := Option.bind_eq_some_iff.mp hfound
      obtain ⟨others, hothers, hfound⟩ := Option.bind_eq_some_iff.mp hfound
      cases hfound
      obtain ⟨hnode, hrest⟩ := List.forall_mem_cons.mp h
      exact List.forall_mem_cons.mpr ⟨Node.keysDistinct_toValue hnode hvalue, keysDistinct_toItems hrest hothers⟩

end

/-- No table of a settings file, at any depth, has the same key twice. -/
theorem keysDistinct_of_read {source : String} {table : SettingTable} (h : read? source = some table) :
    (SettingValue.table table).KeysDistinct := by
  unfold read? at h
  obtain ⟨⟨lines, rest⟩, hlines, h⟩ := Option.bind_eq_some_iff.mp h
  have hdistinct := line_gives.many.of_read _ lines rest hlines
  dsimp only at h
  split at h
  · obtain ⟨state, hstate, h⟩ := Option.bind_eq_some_iff.mp h
    obtain ⟨value, hvalue, h⟩ := Option.bind_eq_some_iff.mp h
    have hentries := State.run_distinct EntriesDistinct.nil hdistinct hstate
    have htable := Node.keysDistinct_toValue (Node.keysDistinct_table.mpr hentries) hvalue
    split at h
    · cases h
      exact htable
    · cases h
  · cases h

end Toml

end BluespecDocs
