import Bkndb.Core.Serialize
import Bkndb.Db.Sync
import Bkndb.Relational.Names
import Bkndb.Relational.ReadSet

/-!
# The physical tables

What the typed layers keep in the tables of the storage: which table holds what, under which key,
and in which bytes. `DbStore.StoredIn` says that physical tables hold a database; it is what the
layers make of the bytes they find, so it constrains the tables they read and no others.

## Layout

* The graph has six tables of its own. Its counters, its label-index marker and its registry of
  property indexes share `meta` with the catalog of the relational layer.
* A registered table has its catalog entry, its counter and the registries of its search indexes in
  `meta`, its rows in a table under its own name, and a derived table for each index.

Keys, counters, statistics, postings, vectors and links are the bytes of the source. Rows, schemas,
column lists and the other records are serialized by `bincode`, which a value of `Records` stands
for.

## Main results

* `TableStore.ContentsIn.registered_unique` and `GraphStore.StoredIn.unique`: the bytes determine
  what is read, up to derived tables that belong to no index.
* `DbStore.StoredIn.answers`: so two databases held by the same tables answer every query alike.
* `DbStore.StoredIn.congr`: the tables read are the reserved ones, the derived ones and the base
  tables of registered tables.
-/

/-- The physical tables, by name. -/
abbrev Tables := String → OrdMap Bytes Bytes

/-! ## Reading bytes -/

section Reading

variable {α K : Type} [LinearOrder K]

/-- What is stored, if anything, reads as a value, if there is one. -/
def ReadsAs (read : Bytes → Option α) (stored : Option Bytes) (value : Option α) : Prop :=
  stored.map read = value.map some

/-- The entries of a physical table read as those of a map. A key without bytes has no entry. -/
def ReadsAll (key : K → Option Bytes) (read : Bytes → Option α) (m : OrdMap Bytes Bytes)
    (s : OrdMap K α) : Prop :=
  ∀ k, ReadsAs read ((key k).bind m.get?) (s.get? k)

variable {key : K → Option Bytes} {read : Bytes → Option α} {m m' : OrdMap Bytes Bytes}
  {s s' : OrdMap K α}

theorem ReadsAs.unique {stored : Option Bytes} {value value' : Option α}
    (h : ReadsAs read stored value) (h' : ReadsAs read stored value') : value = value' :=
  Option.map_injective (Option.some_injective α) (h.symm.trans h')

theorem ReadsAll.unique (h : ReadsAll key read m s) (h' : ReadsAll key read m s') : s = s' :=
  OrdMap.ext fun k ↦ (h k).unique (h' k)

theorem ReadsAll.empty : ReadsAll key read ∅ (∅ : OrdMap K α) := by
  intro k
  cases key k <;> rfl

theorem ReadsAll.insert {s : OrdMap Bytes α} (h : ReadsAll some read m s) {v : Bytes} {a : α}
    (hv : read v = some a) (k : Bytes) : ReadsAll some read (m.insert k v) (s.insert k a) := by
  intro k'
  change ReadsAs read ((m.insert k v).get? k') _
  rw [OrdMap.get?_insert, OrdMap.get?_insert]
  split
  · simp [ReadsAs, hv]
  · exact h k'

/-- Only what the values read as matters. -/
theorem ReadsAll.congr (h : ReadsAll key read m s)
    (hm : ∀ k, (m'.get? k).map read = (m.get? k).map read) : ReadsAll key read m' s := by
  intro k
  refine Eq.trans ?_ (h k)
  cases key k with
  | none => rfl
  | some b => exact hm b

end Reading

/-- A key without a value. -/
def readKey (_ : Bytes) : Option Unit := some ()

/-- A number of `w` bytes, the most significant first. -/
def readBe (w : ℕ) (b : Bytes) : Option ℕ := if b.length = w then some (Bytes.ofBe b) else none

/-- Two numbers of eight bytes, as `load_stats` reads them. -/
def readStats (b : Bytes) : Option (ℕ × ℕ) :=
  if b.length = 16 then some (Bytes.ofBe (b.take 8), Bytes.ofBe (b.drop 8)) else none

/-- Numbers of eight bytes each, dropping a shorter rest. -/
def readIds (b : Bytes) : Option (List ℕ) :=
  some (((b.toChunks 8).filter (·.length = 8)).map Bytes.ofBe)

/-- The key of a vector's number. -/
def idKey (id : ℕ) : Option Bytes := if id < 2 ^ 64 then some (Bytes.be 8 id) else none

/-- `link_key`: the number and the layer. -/
def linkKey (e : ℕ ×ₗ ℕ) : Option Bytes :=
  if (ofLex e).1 < 2 ^ 64 ∧ (ofLex e).2 < 256 then
    some (Bytes.be 8 (ofLex e).1 ++ [.ofNat (ofLex e).2])
  else none

/-! ## Writing records -/

/-- `bincode::serialize` of a string. -/
def serializeStr (s : String) : Bytes := Codec.bytes.encode s.utf8

/-- `encode_row`. -/
def encodeRow (properties : Properties) : Bytes :=
  Codec.u64.encode properties.size ++ PropValue.serializeEntries properties.entries

/-- The number of a kind's variant. -/
def ColumnKind.variant : ColumnKind → ℕ
  | null => 0
  | bool => 1
  | int => 2
  | float => 3
  | str => 4
  | bytes => 5
  | timestamp => 6
  | uuid => 7
  | list => 8
  | map => 9

/-- `bincode::serialize` of a column. -/
def serializeColumn (c : ColumnSchema) : Bytes :=
  serializeStr c.name ++ Codec.u32.encode c.kind.variant ++ Codec.bool.encode c.nullable ++
    Codec.bool.encode c.unique ++
    c.default.elim [0] fun v ↦ 1 :: (Codec.u32.encode v.variant ++ v.serializeFields)

/-- `bincode::serialize` of a table's definition. -/
def serializeTableDef (schema : TableSchema) : Bytes :=
  serializeStr schema.name ++
    (Codec.u64.encode schema.columns.length ++ schema.columns.flatMap serializeColumn) ++
    serializeStr schema.primaryKey ++ Codec.bool.encode schema.autoIncrementPk ++
    (Codec.u64.encode schema.indexedColumns.length ++ schema.indexedColumns.flatMap serializeStr)

/-- `CATALOG_VERSION`. -/
def catalogVersion : UInt8 := 1

/-- `encode_table_def`: the version of the catalog, then the definition. -/
def encodeTableDef (schema : TableSchema) : Bytes := catalogVersion :: serializeTableDef schema

/-! ## What is stored where -/

/-- The serialization of the stored records. -/
structure Records where
  row : Codec Properties
  /-- `TableDef`, which is the schema. -/
  tableDef : Codec TableSchema
  columns : Codec (List String)
  annMeta : Codec Ann.AnnMeta
  node : Codec NodeRecord
  edge : Codec EdgeRecord

namespace Records

variable (rec : Records)

/-- `decode_table_def`: the version of the catalog, then the definition. -/
def decodeTableDef (b : Bytes) : Option TableSchema :=
  match b with
  | version :: rest => if version = catalogVersion then rec.tableDef.deserialize rest else none
  | [] => none

/-- A registry of columns: a missing entry is an empty one. -/
def ReadsColumns (stored : Option Bytes) (columns : List String) : Prop :=
  stored.elim (some []) rec.columns.deserialize = some columns

end Records

/-- The keys of `meta` that belong to the graph. -/
def Graph.OwnKey (key : Bytes) : Prop :=
  key = nextNodeIdKey ∨ key = nextEdgeIdKey ∨ key = labelIndexMarker ∨ propIndexPrefix <+: key

/-- Physical tables hold a graph. -/
structure GraphStore.StoredIn (rec : Records) (T : Tables) (g : GraphStore) : Prop where
  nodes : ReadsAll some rec.node.deserialize (T "nodes") g.nodes
  edges : ReadsAll some rec.edge.deserialize (T "edges") g.edges
  adjOut : ReadsAll some readKey (T "adj_out") g.adjOut
  adjIn : ReadsAll some readKey (T "adj_in") g.adjIn
  nodeLabels : ReadsAll some readKey (T "node_labels") g.nodeLabels
  nodeProps : ReadsAll some readKey (T "node_props") g.nodeProps
  owned : ∀ key, Graph.OwnKey key → g.metaTable.get? key = (T "meta").get? key
  foreign : ∀ key, ¬Graph.OwnKey key → g.metaTable.get? key = none

/-- Physical tables hold the graph of a vector index. -/
structure Ann.Hnsw.StoredIn (T : Tables) (table column : String) (h : Ann.Hnsw) : Prop where
  name : h.name = s!"{table}.{column}"
  nodes : ReadsAll idKey (fun b ↦ (Ann.decodeNode b).toOption)
    (T (Ann.nodesTable table column)) h.nodes
  links : ReadsAll linkKey readIds (T (Ann.linksTable table column)) h.links
  pks : ReadsAll some (readBe 8) (T (Ann.pksTable table column)) h.pks

/-- Physical tables hold what is stored for a registered table. -/
structure TableStore.ContentsIn (rec : Records) (T : Tables) (name : String) (schema : TableSchema)
    (t : TableStore) : Prop where
  counter : ReadsAs (readBe 8) ((T "meta").get? (rowCounterKey name)) t.counter
  rows : ReadsAll some rec.row.deserialize (T name) t.rows
  index : ∀ c ∈ schema.indexedColumns,
    ReadsAll some readKey (T (indexTableNamed name c)) (t.index c)
  ftsColumns : rec.ReadsColumns ((T "meta").get? (Fulltext.registryKey name)) t.ftsColumns
  ftsStats : ∀ c, ReadsAs readStats ((T "meta").get? (Fulltext.statsKey name c)) (t.ftsStats c)
  postings : ∀ c ∈ t.ftsColumns,
    ReadsAll some (readBe 4) (T (Fulltext.postingsTable name c)) (t.postings c)
  docs : ∀ c ∈ t.ftsColumns, ReadsAll some (readBe 4) (T (Fulltext.docsTable name c)) (t.docs c)
  annColumns : rec.ReadsColumns ((T "meta").get? (Ann.registryKey name)) t.annColumns
  annMeta : ∀ c, ReadsAs rec.annMeta.deserialize ((T "meta").get? (Ann.metaKey name c))
    ((t.ann c).map (·.annMeta))
  ann : ∀ c, ∀ h ∈ t.ann c, h.StoredIn T name c

/-- Physical tables hold a relational table: its catalog entry and, if it is registered, the
rest. -/
structure TableStore.StoredIn (rec : Records) (T : Tables) (name : String) (t : TableStore) :
    Prop where
  catalog : ReadsAs rec.decodeTableDef ((T "meta").get? (catalogKey name)) t.schema
  contents : ∀ schema, t.schema = some schema → t.ContentsIn rec T name schema

/-- Physical tables hold a database. -/
structure DbStore.StoredIn (rec : Records) (T : Tables) (db : DbStore) : Prop where
  graph : db.graph.StoredIn rec T
  tables : ∀ name, (db.relational name).StoredIn rec T name

/-! ## The bytes determine the answers -/

variable {rec : Records} {T T' : Tables}

theorem GraphStore.StoredIn.unique {g g' : GraphStore} (h : g.StoredIn rec T)
    (h' : g'.StoredIn rec T) : g = g' := by
  have hmeta : g.metaTable = g'.metaTable := by
    refine OrdMap.ext fun key ↦ ?_
    by_cases hown : Graph.OwnKey key
    · rw [h.owned key hown, h'.owned key hown]
    · rw [h.foreign key hown, h'.foreign key hown]
  cases g
  cases g'
  simp only [GraphStore.mk.injEq]
  exact ⟨h.nodes.unique h'.nodes, h.edges.unique h'.edges, h.adjOut.unique h'.adjOut,
    h.adjIn.unique h'.adjIn, h.nodeLabels.unique h'.nodeLabels, h.nodeProps.unique h'.nodeProps,
    hmeta⟩

theorem Ann.Hnsw.StoredIn.unique {table column : String} {i i' : Ann.Hnsw}
    (h : i.StoredIn T table column) (h' : i'.StoredIn T table column)
    (hmeta : i.annMeta = i'.annMeta) : i = i' := by
  cases i
  cases i'
  simp only [Ann.Hnsw.mk.injEq]
  exact ⟨h.name.trans h'.name.symm, hmeta, h.nodes.unique h'.nodes, h.links.unique h'.links,
    h.pks.unique h'.pks⟩

namespace TableStore

variable {name : String} {schema : TableSchema} {t t' : TableStore}

theorem ContentsIn.ann_unique (h : t.ContentsIn rec T name schema)
    (h' : t'.ContentsIn rec T name schema) (c : String) : t.ann c = t'.ann c := by
  have hmeta := (h.annMeta c).unique (h'.annMeta c)
  cases hi : t.ann c with
  | none =>
    rw [hi, Option.map_none, eq_comm, Option.map_eq_none_iff] at hmeta
    exact hmeta.symm
  | some i =>
    rw [hi, Option.map_some, eq_comm, Option.map_eq_some_iff] at hmeta
    obtain ⟨i', hi', hmeta⟩ := hmeta
    rw [hi', (h.ann c i hi).unique (h'.ann c i' hi') hmeta.symm]

/-- **The bytes determine what a table's queries read.** -/
theorem ContentsIn.registered_unique (h : t.ContentsIn rec T name schema)
    (h' : t'.ContentsIn rec T name schema) (hschema : t.schema = t'.schema) :
    t.registered schema = t'.registered schema := by
  have hfts : t.ftsColumns = t'.ftsColumns :=
    Option.some_injective _ (h.ftsColumns.symm.trans h'.ftsColumns)
  have hindex (c : String) : (t.registered schema).index c = (t'.registered schema).index c := by
    by_cases hc : c ∈ schema.indexedColumns
    · rw [registered_index hc, registered_index hc, (h.index c hc).unique (h'.index c hc)]
    · exact (if_neg hc).trans (if_neg hc).symm
  have hpostings (c : String) :
      (t.registered schema).postings c = (t'.registered schema).postings c := by
    by_cases hc : c ∈ t.ftsColumns
    · rw [registered_postings hc, registered_postings (hfts ▸ hc),
        (h.postings c hc).unique (h'.postings c (hfts ▸ hc))]
    · exact (if_neg hc).trans (if_neg (hfts ▸ hc)).symm
  have hdocs (c : String) : (t.registered schema).docs c = (t'.registered schema).docs c := by
    by_cases hc : c ∈ t.ftsColumns
    · rw [registered_docs hc, registered_docs (hfts ▸ hc),
        (h.docs c hc).unique (h'.docs c (hfts ▸ hc))]
    · exact (if_neg hc).trans (if_neg (hfts ▸ hc)).symm
  have hann : t.annColumns = t'.annColumns :=
    Option.some_injective _ (h.annColumns.symm.trans h'.annColumns)
  have hext : ∀ s s' : TableStore, s.schema = s'.schema → s.counter = s'.counter →
      s.rows = s'.rows → s.index = s'.index → s.ftsColumns = s'.ftsColumns →
      s.ftsStats = s'.ftsStats → s.postings = s'.postings → s.docs = s'.docs →
      s.annColumns = s'.annColumns → s.ann = s'.ann → s = s' := by
    rintro ⟨⟩ ⟨⟩ rfl rfl rfl rfl rfl rfl rfl rfl rfl rfl
    rfl
  exact hext _ _ hschema (h.counter.unique h'.counter) (h.rows.unique h'.rows) (funext hindex) hfts
    (funext fun c ↦ (h.ftsStats c).unique (h'.ftsStats c)) (funext hpostings) (funext hdocs) hann
    (funext fun c ↦ h.ann_unique h' c)

end TableStore

namespace DbStore

/-- Another database answers every query of a registered table, and of the graph, the same way. -/
structure AnswersAs [Unicode] {S D : Type} [LinearOrder S] [LinearOrder D]
    (sc : Ann.Scoring S) (g : Ann.Geometry D) (ln : F64 → F64) (db db' : DbStore) : Prop where
  graph : db'.graph = db.graph
  registered : ∀ name, (db'.relational name).schema = (db.relational name).schema
  select : ∀ name schema, (db.relational name).schema = some schema → ∀ q,
    (db'.relational name).selectIn schema q = (db.relational name).selectIn schema q
  count : ∀ name schema, (db.relational name).schema = some schema → ∀ q,
    (db'.relational name).countIn schema q = (db.relational name).countIn schema q
  aggregate : ∀ name schema, (db.relational name).schema = some schema → ∀ q groupBy aggs,
    (db'.relational name).aggregateIn schema q groupBy aggs =
      (db.relational name).aggregateIn schema q groupBy aggs
  text : ∀ name schema, (db.relational name).schema = some schema →
    ∀ column query limit matchAll filter,
      (db'.relational name).searchTextIn ln schema column query limit matchAll filter =
        (db.relational name).searchTextIn ln schema column query limit matchAll filter
  vector : ∀ name schema, (db.relational name).schema = some schema →
    ∀ size column query limit metric filter options,
      (db'.relational name).searchVectorSized sc g size schema column query limit metric filter
          options =
        (db.relational name).searchVectorSized sc g size schema column query limit metric filter
          options

variable [Unicode] {S D : Type} [LinearOrder S] [LinearOrder D] (sc : Ann.Scoring S)
  (g : Ann.Geometry D) (ln : F64 → F64) {db db' : DbStore}

/-- **Databases held by the same tables answer alike.** -/
theorem StoredIn.answers (h : db.StoredIn rec T) (h' : db'.StoredIn rec T) :
    db.AnswersAs sc g ln db' := by
  have hschema (name : String) : (db'.relational name).schema = (db.relational name).schema :=
    (h'.tables name).catalog.unique (h.tables name).catalog
  have hsame {name : String} {schema : TableSchema}
      (hs : (db.relational name).schema = some schema) :
      (db'.relational name).registered schema = (db.relational name).registered schema :=
    ((h'.tables name).contents schema ((hschema name).trans hs)).registered_unique
      ((h.tables name).contents schema hs) (hschema name)
  constructor
  · exact h'.graph.unique h.graph
  · exact hschema
  · intro name schema hs q
    rw [← TableStore.selectIn_registered, hsame hs, TableStore.selectIn_registered]
  · intro name schema hs q
    rw [← TableStore.countIn_registered, hsame hs, TableStore.countIn_registered]
  · intro name schema hs q groupBy aggs
    rw [← TableStore.aggregateIn_registered, hsame hs, TableStore.aggregateIn_registered]
  · intro name schema hs column query limit matchAll filter
    rw [← TableStore.searchTextIn_registered, hsame hs, TableStore.searchTextIn_registered]
  · intro name schema hs size column query limit metric filter options
    rw [← TableStore.searchVectorSized_registered, hsame hs,
      TableStore.searchVectorSized_registered]

end DbStore

/-! ## The tables that are read -/

/-- A column whose vector index is registered or stored. -/
def TableStore.HasVectors (t : TableStore) (column : String) : Prop :=
  column ∈ t.annColumns ∨ t.ann column ≠ none

/-- The physical tables of the indexes of the registered tables. -/
inductive RelStore.SearchTable (s : RelStore) : String → Prop
  | index {t c : String} {schema : TableSchema} : (s t).schema = some schema →
    c ∈ schema.indexedColumns → SearchTable s (indexTableNamed t c)
  | postings {t c : String} {schema : TableSchema} : (s t).schema = some schema →
    c ∈ (s t).ftsColumns → SearchTable s (Fulltext.postingsTable t c)
  | docs {t c : String} {schema : TableSchema} : (s t).schema = some schema →
    c ∈ (s t).ftsColumns → SearchTable s (Fulltext.docsTable t c)
  | nodes {t c : String} {schema : TableSchema} : (s t).schema = some schema →
    (s t).HasVectors c → SearchTable s (Ann.nodesTable t c)
  | links {t c : String} {schema : TableSchema} : (s t).schema = some schema →
    (s t).HasVectors c → SearchTable s (Ann.linksTable t c)
  | pks {t c : String} {schema : TableSchema} : (s t).schema = some schema →
    (s t).HasVectors c → SearchTable s (Ann.pksTable t c)

namespace DbStore

/-- The physical tables that the program derives: those of the graph with `meta`, and those of the
indexes. -/
def Derived (db : DbStore) (name : String) : Prop :=
  name ∈ reservedTableNames ∨ db.relational.SearchTable name

/-- The base tables of registered tables read alike. -/
def SameRows (rec : Records) (db : DbStore) (T T' : Tables) : Prop :=
  ∀ name schema, (db.relational name).schema = some schema → ∀ k,
    ((T' name).get? k).map rec.row.deserialize = ((T name).get? k).map rec.row.deserialize

variable {db : DbStore}

/-- **A database is read from its derived tables and the base tables of its registered tables.** -/
theorem StoredIn.congr (h : db.StoredIn rec T)
    (hderived : ∀ name, db.Derived name → T' name = T name) (hrows : db.SameRows rec T T') : db.StoredIn rec T' := by
  have hreserved (name : String) (hname : name ∈ reservedTableNames) : T' name = T name :=
    hderived name (.inl hname)
  have hmeta := hreserved "meta" (by decide)
  refine ⟨?_, fun name ↦ ⟨?_, fun schema hschema ↦ ?_⟩⟩
  · have hg := h.graph
    exact
      { nodes := hreserved "nodes" (by decide) ▸ hg.nodes
        edges := hreserved "edges" (by decide) ▸ hg.edges
        adjOut := hreserved "adj_out" (by decide) ▸ hg.adjOut
        adjIn := hreserved "adj_in" (by decide) ▸ hg.adjIn
        nodeLabels := hreserved "node_labels" (by decide) ▸ hg.nodeLabels
        nodeProps := hreserved "node_props" (by decide) ▸ hg.nodeProps
        owned := hmeta ▸ hg.owned
        foreign := hg.foreign }
  · rw [hmeta]
    exact (h.tables name).catalog
  · have ht := (h.tables name).contents schema hschema
    have hsearch {table : String} (htable : db.relational.SearchTable table) : T' table = T table :=
      hderived table (.inr htable)
    exact
      { counter := hmeta ▸ ht.counter
        rows := ht.rows.congr (hrows name schema hschema)
        index := fun c hc ↦ hsearch (.index hschema hc) ▸ ht.index c hc
        ftsColumns := hmeta ▸ ht.ftsColumns
        ftsStats := hmeta ▸ ht.ftsStats
        postings := fun c hc ↦ hsearch (.postings hschema hc) ▸ ht.postings c hc
        docs := fun c hc ↦ hsearch (.docs hschema hc) ▸ ht.docs c hc
        annColumns := hmeta ▸ ht.annColumns
        annMeta := hmeta ▸ ht.annMeta
        ann := fun c i hi ↦ by
          have hi' := ht.ann c i hi
          have hvectors : (db.relational name).HasVectors c :=
            .inr (Option.ne_none_iff_exists'.mpr ⟨i, hi⟩)
          exact
            { name := hi'.name
              nodes := hsearch (.nodes hschema hvectors) ▸ hi'.nodes
              links := hsearch (.links hschema hvectors) ▸ hi'.links
              pks := hsearch (.pks hschema hvectors) ▸ hi'.pks } }

/-- The base tables read alike wherever the same database is held. -/
theorem StoredIn.sameRows (h : db.StoredIn rec T) (h' : db.StoredIn rec T') :
    db.SameRows rec T T' := fun name schema hschema k ↦
  (((h'.tables name).contents schema hschema).rows k).trans
    (((h.tables name).contents schema hschema).rows k).symm

end DbStore
