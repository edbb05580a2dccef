import Bkndb.Basic.Separator
import Bkndb.Graph.Manage
import Bkndb.Relational.Values

/-!
# Physical names

The names of the tables that belong to a table and its columns (`relational/codec.rs`,
`relational/search/fulltext.rs`, `relational/ann/storage.rs`), and the keys of the shared `meta`
table. An identifier has no two underscores in a row and no colon, so a derived name is taken apart
at its first two underscores and then at the next one, and a key at its colons.

## Main results

* `derivedTable_inj`, `name_injective` and `key_inj`: a name or a key determines what it is the
  name or the key of.
* `derivedNames_distinct`: all of it together, for every accepted table name and column name.

Names that the builder refuses may clash: with a pair of underscores in a table's name, the name of
a derived table may be that of a table.
-/

/-! ## Table names -/

/-- `<table>__<mark>_<column>`. -/
def derivedTable (mark table column : String) : String := table ++ "__" ++ mark ++ "_" ++ column

def indexTableNamed (table column : String) : String := derivedTable "idx" table column

namespace Fulltext

def postingsTable (table column : String) : String := derivedTable "fts" table column

def docsTable (table column : String) : String := derivedTable "ftsdoc" table column

end Fulltext

namespace Ann

def nodesTable (table column : String) : String := derivedTable "ann" table column

def linksTable (table column : String) : String := derivedTable "annlnk" table column

def pksTable (table column : String) : String := derivedTable "annpk" table column

end Ann

/-! ## Keys of the `meta` table -/

/-- `relschema:<table>`. -/
def catalogKey (table : String) : Bytes := ("relschema:" ++ table).utf8

/-- `relnext:<table>`. -/
def rowCounterKey (table : String) : Bytes := ("relnext:" ++ table).utf8

namespace Fulltext

def registryKey (table : String) : Bytes := ("relfts:" ++ table).utf8

def statsKey (table column : String) : Bytes := ("relftsstat:" ++ table ++ ":" ++ column).utf8

end Fulltext

namespace Ann

def registryKey (table : String) : Bytes := ("relann:" ++ table).utf8

def metaKey (table column : String) : Bytes := ("relannmeta:" ++ table ++ ":" ++ column).utf8

end Ann

/-! ## Accepted names -/

/-- A table name that the builder accepts. -/
structure TableName where
  name : String
  accepted : ∃ (b : TableSchemaBuilder) (schema : TableSchema),
    b.build = .ok schema ∧ schema.name = name

/-- A column name that the builder accepts. -/
structure ColumnName where
  name : String
  accepted : ∃ (b : TableSchemaBuilder) (schema : TableSchema),
    b.build = .ok schema ∧ ∃ c ∈ schema.columns, c.name = name

/-- What the identifier check asks for. -/
structure IsIdentifier (name : String) : Prop where
  pos : name.utf8.length ≠ 0
  le : name.utf8.length ≤ maxIdentifierLen
  chars : name.toList.all isIdentifierChar = true
  noDouble : ¬ ['_', '_'] <:+: name.toList

theorem checkIdentifier_eq_ok {what name : String} {u : Unit} :
    checkIdentifier what name = .ok u ↔ IsIdentifier name := by
  rw [checkIdentifier]
  simp only [Except.bind_eq_ok, Except.guardOr_eq_ok]
  constructor
  · rintro ⟨-, ⟨hpos, hle⟩, -, hchars, hdouble⟩
    exact ⟨hpos, hle, hchars, hdouble⟩
  · rintro ⟨hpos, hle, hchars, hdouble⟩
    exact ⟨⟨⟩, ⟨hpos, hle⟩, ⟨⟩, hchars, hdouble⟩

namespace TableSchemaBuilder

/-- The builder checks the names of the table and of every column. -/
theorem isIdentifier_of_build {b : TableSchemaBuilder} {schema : TableSchema}
    (h : b.build = .ok schema) : IsIdentifier schema.name ∧ schema.name ∉ reservedTableNames ∧
      ∀ c ∈ schema.columns, IsIdentifier c.name := by
  rw [build] at h
  cases hid : checkIdentifier "table" b.name with
  | error e => simp [hid, throw, throwThe, MonadExceptOf.throw] at h
  | ok u =>
    rw [hid] at h
    simp only [Except.bind_eq_ok, Except.ofOption_eq_ok] at h
    obtain ⟨⟨⟩, hreserved, seen, hcols, pk, -, pkCol, -, ⟨⟩, -, ⟨⟩, -, indexed, -, h⟩ := h
    obtain rfl := Except.ok.inj h
    refine ⟨checkIdentifier_eq_ok.mp hid, Except.guardOr_eq_ok.mp hreserved, fun c hc ↦ ?_⟩
    have hname : c.name ∈ b.columns.map (·.name) := by
      rw [← map_name_normalizePk pk]
      exact List.mem_map_of_mem hc
    obtain ⟨c', hc', hname⟩ := List.mem_map.mp hname
    rw [← hname]
    refine (Except.foldlM_induction (fun done _ ↦ ∀ c ∈ done, IsIdentifier c.name) hcols (by simp)
      fun done c seen seen' _ hdone hcheck d hd ↦ ?_) c' hc'
    rcases List.mem_append.mp hd with hd | hd
    · exact hdone d hd
    · obtain rfl := List.mem_singleton.mp hd
      rw [checkColumn] at hcheck
      cases hid : checkIdentifier "column" d.name with
      | error e => simp [hid, throw, throwThe, MonadExceptOf.throw] at hcheck
      | ok u => exact checkIdentifier_eq_ok.mp hid

end TableSchemaBuilder

theorem TableName.isIdentifier (t : TableName) : IsIdentifier t.name := by
  obtain ⟨b, schema, hbuild, hname⟩ := t.accepted
  exact hname ▸ (TableSchemaBuilder.isIdentifier_of_build hbuild).1

theorem TableName.not_reserved (t : TableName) : t.name ∉ reservedTableNames := by
  obtain ⟨b, schema, hbuild, hname⟩ := t.accepted
  exact hname ▸ (TableSchemaBuilder.isIdentifier_of_build hbuild).2.1

theorem ColumnName.isIdentifier (c : ColumnName) : IsIdentifier c.name := by
  obtain ⟨b, schema, hbuild, col, hcol, hname⟩ := c.accepted
  exact hname ▸ (TableSchemaBuilder.isIdentifier_of_build hbuild).2.2 col hcol

@[ext] theorem TableName.ext {t t' : TableName} (h : t.name = t'.name) : t = t' := by
  cases t
  cases t'
  simpa using h

@[ext] theorem ColumnName.ext {c c' : ColumnName} (h : c.name = c'.name) : c = c' := by
  cases c
  cases c'
  simpa using h

/-- The roles of derived tables. -/
inductive TableRole where
  | index
  | postings
  | docs
  | nodes
  | links
  | pks
  deriving DecidableEq

/-- The mark of a role in a name. -/
def TableRole.mark : TableRole → String
  | index => "idx"
  | postings => "fts"
  | docs => "ftsdoc"
  | nodes => "ann"
  | links => "annlnk"
  | pks => "annpk"

/-- A physical table of the relational layer. -/
inductive PhysicalTable where
  | base (t : TableName)
  | derived (role : TableRole) (t : TableName) (c : ColumnName)

/-- The name of a physical table. -/
def PhysicalTable.name : PhysicalTable → String
  | base t => t.name
  | derived .index t c => indexTableNamed t.name c.name
  | derived .postings t c => Fulltext.postingsTable t.name c.name
  | derived .docs t c => Fulltext.docsTable t.name c.name
  | derived .nodes t c => Ann.nodesTable t.name c.name
  | derived .links t c => Ann.linksTable t.name c.name
  | derived .pks t c => Ann.pksTable t.name c.name

/-- An entry of the `meta` table. -/
inductive MetaEntry where
  | catalog (t : TableName)
  | rowCounter (t : TableName)
  | ftsRegistry (t : TableName)
  | ftsStats (t : TableName) (c : ColumnName)
  | annRegistry (t : TableName)
  | annMeta (t : TableName) (c : ColumnName)
  | nextNodeId
  | nextEdgeId
  | labelIndexMarker
  | propIndex (label property : String)

/-- The key of an entry; the names of a property index may be too long for one. -/
def MetaEntry.key : MetaEntry → Except BknError Bytes
  | catalog t => .ok (catalogKey t.name)
  | rowCounter t => .ok (rowCounterKey t.name)
  | ftsRegistry t => .ok (Fulltext.registryKey t.name)
  | ftsStats t c => .ok (Fulltext.statsKey t.name c.name)
  | annRegistry t => .ok (Ann.registryKey t.name)
  | annMeta t c => .ok (Ann.metaKey t.name c.name)
  | nextNodeId => .ok Graph.nextNodeIdKey
  | nextEdgeId => .ok Graph.nextEdgeIdKey
  | labelIndexMarker => .ok Graph.labelIndexMarker
  | propIndex label property => Graph.registryKey label property

/-! ## Tables are told apart

The first pair of underscores in a derived name is the one that was put in, since the table's name
has none and the next character is that of a mark. -/

namespace PhysicalTable

theorem name_derived (role : TableRole) (t : TableName) (c : ColumnName) :
    (derived role t c).name = derivedTable role.mark t.name c.name := by
  cases role <;> rfl

theorem toList_derivedTable (mark table column : String) : (derivedTable mark table column).toList =
    table.toList ++ '_' :: '_' :: (mark.toList ++ '_' :: column.toList) := by
  simp [derivedTable]

theorem not_mem_mark (role : TableRole) : '_' ∉ role.mark.toList := by
  cases role <;> decide

theorem head?_mark (role : TableRole) (rest : List Char) :
    (role.mark.toList ++ rest).head? ≠ some '_' := by
  cases role <;> simp [TableRole.mark]

theorem mark_injective : Function.Injective TableRole.mark := by
  intro r r' h
  cases r <;> cases r' <;> first | rfl | exact absurd h (by decide)

theorem double_derivedTable (mark table column : String) :
    ['_', '_'] <:+: (derivedTable mark table column).toList := by
  rw [toList_derivedTable]
  exact ⟨table.toList, mark.toList ++ '_' :: column.toList, by simp⟩

/-- **A derived name is taken apart in one way.** -/
theorem derivedTable_inj {r r' : TableRole} {t t' c c' : String} (ht : IsIdentifier t)
    (ht' : IsIdentifier t') (h : derivedTable r.mark t c = derivedTable r'.mark t' c') :
    r = r' ∧ t = t' ∧ c = c' := by
  have hlist := congrArg String.toList h
  rw [toList_derivedTable, toList_derivedTable] at hlist
  obtain ⟨htable, hrest⟩ := Separator.double_inj ht.noDouble ht'.noDouble
    (head?_mark r _) (head?_mark r' _) hlist
  obtain ⟨hmark, hcolumn⟩ := Separator.append_inj (not_mem_mark r) (not_mem_mark r') hrest
  exact ⟨mark_injective (String.toList_inj.mp hmark), String.toList_inj.mp htable,
    String.toList_inj.mp hcolumn⟩

/-- **Physical tables have different names.** -/
theorem name_injective : Function.Injective name := by
  intro p q h
  cases p with
  | base t =>
    cases q with
    | base t' => exact congrArg base (TableName.ext h)
    | derived role t' c =>
      rw [name_derived] at h
      have hdouble := double_derivedTable role.mark t'.name c.name
      rw [← h] at hdouble
      exact absurd hdouble t.isIdentifier.noDouble
  | derived role t c =>
    rw [name_derived] at h
    cases q with
    | base t' =>
      have hdouble := double_derivedTable role.mark t.name c.name
      rw [h] at hdouble
      exact absurd hdouble t'.isIdentifier.noDouble
    | derived role' t' c' =>
      rw [name_derived] at h
      obtain ⟨rfl, ht, hc⟩ := derivedTable_inj t.isIdentifier t'.isIdentifier h
      rw [TableName.ext ht, ColumnName.ext hc]

theorem name_not_reserved (p : PhysicalTable) : p.name ∉ reservedTableNames := by
  cases p with
  | base t => exact t.not_reserved
  | derived role t c =>
    have hnone : ∀ name ∈ reservedTableNames, ¬ ['_', '_'] <:+: name.toList := by decide
    rw [name_derived]
    exact fun h ↦ hnone _ h (double_derivedTable ..)

theorem length_name_le (p : PhysicalTable) : p.name.utf8.length ≤ 255 := by
  cases p with
  | base t => exact t.isIdentifier.le.trans (by decide)
  | derived role t c =>
    have ht := t.isIdentifier.le
    have hc := c.isIdentifier.le
    have hmark : role.mark.utf8.length ≤ 6 := by cases role <;> decide
    have h2 : "__".utf8.length = 2 := by decide
    have h1 : "_".utf8.length = 1 := by decide
    rw [maxIdentifierLen] at ht hc
    rw [name_derived, derivedTable]
    simp only [String.utf8_append, List.length_append, h1, h2]
    omega

end PhysicalTable

/-! ## Entries are told apart -/

namespace MetaEntry

/-- The parts of a key between its colons. The key of a property index is not text. -/
def segments : MetaEntry → List String
  | catalog t => ["relschema", t.name]
  | rowCounter t => ["relnext", t.name]
  | ftsRegistry t => ["relfts", t.name]
  | ftsStats t c => ["relftsstat", t.name, c.name]
  | annRegistry t => ["relann", t.name]
  | annMeta t c => ["relannmeta", t.name, c.name]
  | nextNodeId => ["next_node_id"]
  | nextEdgeId => ["next_edge_id"]
  | labelIndexMarker => ["graph", "label_index"]
  | propIndex _ _ => []

theorem key_eq_segments (e : MetaEntry) (he : e.segments ≠ []) : e.key =
    .ok (String.ofList (List.intercalate [':'] (e.segments.map String.toList))).utf8 := by
  have htext : ∀ {s : String} {l : List Char}, s.toList = l →
      (.ok s.utf8 : Except BknError Bytes) = .ok (String.ofList l).utf8 := by
    rintro s l rfl
    rw [String.ofList_toList]
  cases e with
  | propIndex => exact absurd rfl he
  | _ => exact htext (by simp [segments, List.intercalate])

theorem colon_not_mem {name : String} (h : IsIdentifier name) : ':' ∉ name.toList := fun hmem ↦
  absurd (List.all_eq_true.mp h.chars ':' hmem) (by decide)

theorem colon_not_mem_segments (e : MetaEntry) : ∀ s ∈ e.segments, ':' ∉ s.toList := by
  have hname : ∀ mark name : String, ':' ∉ mark.toList → IsIdentifier name →
      ∀ s ∈ [mark, name], ':' ∉ s.toList := by
    intro mark name hmark hid
    simpa using ⟨hmark, colon_not_mem hid⟩
  cases e with
  | catalog t => exact hname _ _ (by decide) t.isIdentifier
  | rowCounter t => exact hname _ _ (by decide) t.isIdentifier
  | ftsRegistry t => exact hname _ _ (by decide) t.isIdentifier
  | annRegistry t => exact hname _ _ (by decide) t.isIdentifier
  | ftsStats t c =>
    simpa [segments] using ⟨colon_not_mem t.isIdentifier, colon_not_mem c.isIdentifier⟩
  | annMeta t c =>
    simpa [segments] using ⟨colon_not_mem t.isIdentifier, colon_not_mem c.isIdentifier⟩
  | nextNodeId => decide
  | nextEdgeId => decide
  | labelIndexMarker => decide
  | propIndex => simp [segments]

theorem eq_of_segments {e e' : MetaEntry} (he : e.segments ≠ []) (h : e.segments = e'.segments) :
    e = e' := by
  cases e with
  | propIndex => exact absurd rfl he
  | _ =>
    cases e' <;> simp [segments] at h
    all_goals first
      | rfl
      | rw [TableName.ext h]
      | rw [TableName.ext h.1, ColumnName.ext h.2]

theorem not_propIndexPrefix (e : MetaEntry) (he : e.segments ≠ []) {k : Bytes}
    (hk : e.key = .ok k) : ¬ Graph.propIndexPrefix <+: k := by
  -- the first byte tells, for all but one key
  have hhead : ∀ {mark : String} {rest : Bytes} {b : UInt8}, mark.utf8.head? = some b → b ≠ 103 →
      ¬ Graph.propIndexPrefix <+: mark.utf8 ++ rest := by
    rintro mark rest b hb hne ⟨y, hy⟩
    have := congrArg List.head? hy
    rw [List.head?_append, List.head?_append, hb] at this
    exact hne (Option.some.inj this).symm
  cases e with
  | catalog t =>
    obtain rfl := Except.ok.inj hk
    rw [catalogKey, String.utf8_append]
    exact hhead (b := 114) (by decide) (by decide)
  | rowCounter t =>
    obtain rfl := Except.ok.inj hk
    rw [rowCounterKey, String.utf8_append]
    exact hhead (b := 114) (by decide) (by decide)
  | ftsRegistry t =>
    obtain rfl := Except.ok.inj hk
    rw [Fulltext.registryKey, String.utf8_append]
    exact hhead (b := 114) (by decide) (by decide)
  | annRegistry t =>
    obtain rfl := Except.ok.inj hk
    rw [Ann.registryKey, String.utf8_append]
    exact hhead (b := 114) (by decide) (by decide)
  | ftsStats t c =>
    obtain rfl := Except.ok.inj hk
    rw [Fulltext.statsKey, String.append_assoc, String.append_assoc, String.utf8_append]
    exact hhead (b := 114) (by decide) (by decide)
  | annMeta t c =>
    obtain rfl := Except.ok.inj hk
    rw [Ann.metaKey, String.append_assoc, String.append_assoc, String.utf8_append]
    exact hhead (b := 114) (by decide) (by decide)
  | nextNodeId =>
    obtain rfl := Except.ok.inj hk
    decide
  | nextEdgeId =>
    obtain rfl := Except.ok.inj hk
    decide
  | labelIndexMarker =>
    obtain rfl := Except.ok.inj hk
    decide
  | propIndex => exact absurd rfl he

/-- **Entries have different keys.** -/
theorem key_inj {e e' : MetaEntry} {k : Bytes} (h : e.key = .ok k) (h' : e'.key = .ok k) :
    e = e' := by
  have hprop : ∀ {label property : String} {e : MetaEntry}, e.segments ≠ [] →
      Graph.registryKey label property = .ok k → e.key ≠ .ok k := fun he hreg hk ↦
    not_propIndexPrefix _ he hk (GraphStore.registryKey_isPrefix hreg)
  by_cases he : e.segments = []
  · cases e with
    | propIndex label property =>
      by_cases he' : e'.segments = []
      · cases e' with
        | propIndex label' property' =>
          obtain ⟨rfl, rfl⟩ := Graph.registryKey_inj h h'
          rfl
        | _ => simp [segments] at he'
      · exact absurd h' (hprop he' h)
    | _ => simp [segments] at he
  · by_cases he' : e'.segments = []
    · cases e' with
      | propIndex label' property' => exact absurd h (hprop he h')
      | _ => simp [segments] at he'
    · rw [key_eq_segments e he] at h
      rw [key_eq_segments e' he', ← h, Except.ok.injEq] at h'
      have htext := String.ofList_injective (String.utf8_injective h')
      have hsplit : ∀ e : MetaEntry, e.segments ≠ [] →
          (List.intercalate [':'] (e.segments.map String.toList)).splitOn ':' =
            e.segments.map String.toList := by
        intro e he
        refine List.splitOn_intercalate ':' (fun l hl ↦ ?_) (by simpa using he)
        obtain ⟨s, hs, rfl⟩ := List.mem_map.mp hl
        exact colon_not_mem_segments e s hs
      have hsegments : e'.segments.map String.toList = e.segments.map String.toList := by
        rw [← hsplit e he, ← hsplit e' he', htext]
      exact eq_of_segments he
        (List.map_injective_iff.mpr (fun _ _ ↦ String.toList_inj.mp) hsegments).symm

end MetaEntry

/-- **Derived names never clash.** Physical tables of different roles, tables or columns have
different names, none of them reserved and none longer than 255 bytes; and the entries of the `meta`
table have different keys. -/
theorem derivedNames_distinct :
    Function.Injective PhysicalTable.name ∧
      (∀ p : PhysicalTable, p.name ∉ reservedTableNames ∧ p.name.utf8.length ≤ 255) ∧
      ∀ (e e' : MetaEntry) (k : Bytes), e.key = .ok k → e'.key = .ok k → e = e' :=
  ⟨PhysicalTable.name_injective, fun p ↦ ⟨p.name_not_reserved, p.length_name_le⟩,
    fun _ _ _ ↦ MetaEntry.key_inj⟩
