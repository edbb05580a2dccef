import Bkndb.Relational.Adopt
import Bkndb.Relational.Plan

/-!
# What a query returns

Counting, selecting and sorting over a consistent table, in terms of the full scan. Sorting is by
a key for each `ORDER BY` column: nulls first, then the natural order of the column's kind. The
kinds with such a key are the ones a query can sort by exactly; floats sort by their total order and
nested values are not ordered.

## Main results

* `totalCmp_eq_cmp_sortKey`: values of a sortable kind sort by their key.
* `pairwise_mergeSort_orderCmp`: so the sort of the source, which is stable, puts the rows in
  order.
* `query_correct`: whatever access path the planner chooses, a query returns the page of the rows
  that a scan would find, in the order asked for.
* `not_query_correct_adopted`: this needs values of the declared kinds where the planner reads
  entries.
-/

open PropValue

/-! ## Sort keys -/

/-- The kinds whose values have a sort key. -/
def ColumnKind.isSortable : ColumnKind → Bool
  | bool | int | str | bytes | timestamp | uuid => true
  | _ => false

/-- A byte string ordered as the values of a sortable kind. -/
def sortBytes : PropValue → Bytes
  | .bool b => [b.toUInt8]
  | .int i | .timestamp i => Bytes.be 8 (flipSign i).toNat
  | .str s => s.utf8
  | .bytes b => b
  | .uuid u => u.toList
  | _ => []

/-- The sort key of an optional value: nulls and missing values first. -/
def sortKey (o : Option PropValue) : Bytes :=
  match nonNull o with
  | none => []
  | some v => 1 :: sortBytes v

/-- One row comes no later than another under `ORDER BY`. -/
def RowLe (schema : TableSchema) : List (String × Order) → Row → Row → Prop
  | [], _, _ => True
  | (c, order) :: rest, a, b =>
    let x := sortKey (resolve schema a c)
    let y := sortKey (resolve schema b c)
    (if order = .asc then x < y else y < x) ∨ (x = y ∧ RowLe schema rest a b)

theorem RowLe.total (schema : TableSchema) (order : List (String × Order)) (a b : Row) :
    RowLe schema order a b ∨ RowLe schema order b a := by
  induction order with
  | nil => exact .inl trivial
  | cons e rest ih =>
    obtain ⟨c, o⟩ := e
    simp only [RowLe]
    rcases lt_trichotomy (sortKey (resolve schema a c)) (sortKey (resolve schema b c))
      with h | h | h
    · cases o
      · exact .inl (.inl (by simpa using h))
      · exact .inr (.inl (by simpa using h))
    · rcases ih with ih | ih
      · exact .inl (.inr ⟨h, ih⟩)
      · exact .inr (.inr ⟨h.symm, ih⟩)
    · cases o
      · exact .inr (.inl (by simpa using h))
      · exact .inl (.inl (by simpa using h))

theorem RowLe.trans {schema : TableSchema} {order : List (String × Order)} {a b c : Row}
    (hab : RowLe schema order a b) (hbc : RowLe schema order b c) : RowLe schema order a c := by
  induction order with
  | nil => trivial
  | cons e rest ih =>
    obtain ⟨col, o⟩ := e
    simp only [RowLe] at hab hbc ⊢
    rcases hab with hab | ⟨hab, hab'⟩
    · rcases hbc with hbc | ⟨hbc, -⟩
      · refine .inl ?_
        cases o
        · simp only [if_true] at hab hbc ⊢
          exact lt_trans hab hbc
        · simp only [reduceCtorEq, if_false] at hab hbc ⊢
          exact lt_trans hbc hab
      · exact .inl (hbc ▸ hab)
    · rcases hbc with hbc | ⟨hbc, hbc'⟩
      · exact .inl (hab ▸ hbc)
      · exact .inr ⟨hab.trans hbc, ih hab' hbc'⟩

theorem compareValues_eq_cmp_sortBytes {v w : PropValue} (hkind : ColumnKind.of v = .of w)
    (hs : (ColumnKind.of v).isSortable = true) :
    compareValues v w = some (Bytes.cmp (sortBytes v) (sortBytes w)) := by
  cases v with
  | bool x =>
    cases w with
    | bool y => cases x <;> cases y <;> rfl
    | _ => simp [ColumnKind.of] at hkind
  | int x =>
    cases w with
    | int y => exact compareValues_eq_cmp_key rfl rfl rfl
    | _ => simp [ColumnKind.of] at hkind
  | timestamp x =>
    cases w with
    | timestamp y => exact compareValues_eq_cmp_key rfl rfl rfl
    | _ => simp [ColumnKind.of] at hkind
  | str x =>
    cases w with
    | str y => rfl
    | _ => simp [ColumnKind.of] at hkind
  | bytes x =>
    cases w with
    | bytes y => rfl
    | _ => simp [ColumnKind.of] at hkind
  | uuid x =>
    cases w with
    | uuid y => rfl
    | _ => simp [ColumnKind.of] at hkind
  | null => simp [ColumnKind.of, ColumnKind.isSortable] at hs
  | float => simp [ColumnKind.of, ColumnKind.isSortable] at hs
  | list => simp [ColumnKind.of, ColumnKind.isSortable] at hs
  | map => simp [ColumnKind.of, ColumnKind.isSortable] at hs

/-- A value that is missing, null or of the kind. -/
def OfKind (kind : ColumnKind) (o : Option PropValue) : Prop :=
  ∀ v, nonNull o = some v → ColumnKind.of v = kind

theorem kindRank_of_nonNull {o : Option PropValue} (h : nonNull o = none) : kindRank o = 0 := by
  cases o with
  | none => rfl
  | some v => cases v <;> simp_all [nonNull, isNull, kindRank]

theorem kindRank_pos {v : PropValue} (h : v.isNull = false) : 0 < kindRank (some v) := by
  cases v <;> simp_all [isNull, kindRank]

theorem kindRank_eq {v w : PropValue} (h : ColumnKind.of v = .of w) :
    kindRank (some v) = kindRank (some w) := by
  cases v <;> cases w <;> simp_all [ColumnKind.of, kindRank]

theorem totalCmp_of_sortable {v w : PropValue} (hkind : ColumnKind.of v = .of w)
    (hs : (ColumnKind.of v).isSortable = true) :
    totalCmp (some v) (some w) = Bytes.cmp (sortBytes v) (sortBytes w) := by
  have hcmp := compareValues_eq_cmp_sortBytes hkind hs
  unfold totalCmp
  rw [kindRank_eq hkind, cmp_self_eq_eq, Ordering.eq_then]
  split <;> simp_all [ColumnKind.of, ColumnKind.isSortable]

/-- **Values of a sortable kind sort by their key.** -/
theorem totalCmp_eq_cmp_sortKey {kind : ColumnKind} (hs : kind.isSortable = true)
    {a b : Option PropValue} (ha : OfKind kind a) (hb : OfKind kind b) :
    totalCmp a b = Bytes.cmp (sortKey a) (sortKey b) := by
  cases hna : nonNull a with
  | none =>
    cases hnb : nonNull b with
    | none =>
      unfold totalCmp sortKey
      rw [hna, hnb, kindRank_of_nonNull hna, kindRank_of_nonNull hnb]
      cases a with
      | none => rfl
      | some v =>
        cases b with
        | none => cases v <;> simp_all [nonNull, isNull]
        | some w => cases v <;> cases w <;> simp_all [nonNull, isNull, compareValues]
    | some w =>
      obtain ⟨rfl, hw⟩ := nonNull_eq_some.mp hnb
      have hlt : cmp (kindRank a) (kindRank (some w)) = .lt := by
        rw [cmp_eq_lt_iff, kindRank_of_nonNull hna]
        exact kindRank_pos hw
      unfold totalCmp sortKey
      rw [hna, hnb, hlt]
      rfl
  | some v =>
    obtain ⟨rfl, hv⟩ := nonNull_eq_some.mp hna
    cases hnb : nonNull b with
    | none =>
      have hgt : cmp (kindRank (some v)) (kindRank b) = .gt := by
        rw [cmp_eq_gt_iff, kindRank_of_nonNull hnb]
        exact kindRank_pos hv
      unfold totalCmp sortKey
      rw [hna, hnb, hgt]
      rfl
    | some w =>
      obtain ⟨rfl, hw⟩ := nonNull_eq_some.mp hnb
      have hkv := ha v hna
      have hkw := hb w hnb
      rw [totalCmp_of_sortable (hkv.trans hkw.symm) (hkv ▸ hs), sortKey, sortKey, hna, hnb]
      simp only [Bytes.cmp, Bytes.cons_lt_cons, lt_irrefl, false_or, true_and]

/-! ## Sorting rows -/

namespace TableStore

variable {t : TableStore} {schema : TableSchema}

/-- Every `ORDER BY` column is a declared column of a sortable kind. -/
def SortableOrder (schema : TableSchema) (order : List (String × Order)) : Prop :=
  ∀ e ∈ order, ∃ c, schema.column e.1 = some c ∧ c.kind.isSortable = true

theorem TypedAt.ofKind {column : String} (h : t.TypedAt schema column) {row : Row}
    (hrow : t.HasRow schema row) {c : ColumnSchema} (hcol : schema.column column = some c) :
    OfKind c.kind (resolve schema row column) := by
  intro v hv
  rw [nonNull_resolve (by rw [hcol]; rfl)] at hv
  exact h.kind_indexable hrow hcol hv

theorem orderCmp_isLE_iff {order : List (String × Order)} (h : ∀ e ∈ order, t.TypedAt schema e.1)
    (hs : SortableOrder schema order) {a b : Row} (ha : t.HasRow schema a)
    (hb : t.HasRow schema b) : (orderCmp schema a b order).isLE = true ↔ RowLe schema order a b := by
  induction order with
  | nil => simp [orderCmp, RowLe]
  | cons e rest ih =>
    obtain ⟨c, o⟩ := e
    obtain ⟨col, hcol, hsort⟩ := hs (c, o) List.mem_cons_self
    have hrest := ih (fun e he ↦ h e (List.mem_cons_of_mem _ he))
      fun e he ↦ hs e (List.mem_cons_of_mem _ he)
    have htyped := h (c, o) List.mem_cons_self
    have hcmp := totalCmp_eq_cmp_sortKey hsort (htyped.ofKind ha hcol) (htyped.ofKind hb hcol)
    simp only [orderCmp, RowLe, hcmp]
    rcases lt_trichotomy (sortKey (resolve schema a c)) (sortKey (resolve schema b c))
      with hlt | heq | hgt
    · rw [Bytes.cmp_eq_lt.mpr hlt]
      cases o
      · simp [hlt]
      · simp [not_lt.mpr (le_of_lt hlt), ne_of_lt hlt]
    · rw [Bytes.cmp_eq_eq.mpr heq, heq]
      cases o
      · simp [hrest]
      · simp [hrest]
    · rw [Bytes.cmp_eq_gt.mpr hgt]
      cases o
      · simp [not_lt.mpr (le_of_lt hgt), ne_of_gt hgt]
      · simp [hgt]

/-- **The sort orders rows by their keys.** -/
theorem pairwise_mergeSort_orderCmp {order : List (String × Order)}
    (h : ∀ e ∈ order, t.TypedAt schema e.1) (hs : SortableOrder schema order) {rows : List Row} (hrows : ∀ row ∈ rows, t.HasRow schema row) :
    (rows.mergeSort fun a b ↦ (orderCmp schema a b order).isLE).Pairwise
      (RowLe schema order) := by
  classical
  -- the comparison agrees with the order on keys, which is total and transitive on all rows
  have heq : rows.mergeSort (fun a b ↦ (orderCmp schema a b order).isLE) =
      rows.mergeSort fun a b ↦ decide (RowLe schema order a b) := by
    have := List.map_mergeSort (f := id)
      (r := fun a b ↦ (orderCmp schema a b order).isLE)
      (s := fun a b ↦ decide (RowLe schema order a b)) (l := rows) fun a ha b hb ↦ by
        rw [Bool.eq_iff_iff, decide_eq_true_iff]
        exact orderCmp_isLE_iff h hs (hrows a ha) (hrows b hb)
    simpa using this
  rw [heq]
  refine (List.pairwise_mergeSort (fun a b c ↦ ?_) (fun a b ↦ ?_) rows).imp fun {a b} h ↦ ?_
  · simp only [decide_eq_true_eq]
    exact RowLe.trans
  · simpa using RowLe.total schema order a b
  · simpa using h

/-! ## Windows

Streaming and sorting are two ways to one list. The streaming path stops early, which is right only
when its candidates come in the order asked for. -/

/-- The rows of a query's page. -/
def window (q : Query) (rows : List Row) : List Row :=
  match q.limit with
  | none => rows.drop q.offset
  | some n => (rows.drop q.offset).take n

variable [Unicode] {q : Query}

theorem collectMatching_spec (wanted : Option ℕ) {out : List Row} (rows : List Row)
    (hout : ∀ w ∈ wanted, out.length ≤ w) :
    collectMatching schema q wanted out (rows.map .ok) =
      .ok (wanted.elim (out ++ rows.filter (q.matchesRow schema))
        (List.take · (out ++ rows.filter (q.matchesRow schema)))) := by
  induction rows generalizing out with
  | nil =>
    cases wanted with
    | none => simp [collectMatching]
    | some w => simp [collectMatching, List.take_of_length_le (hout w rfl)]
  | cons row rows ih =>
    rw [List.map_cons, collectMatching]
    by_cases hfull : wanted.any (· ≤ out.length) = true
    · rw [if_pos hfull]
      obtain ⟨w, rfl, hw⟩ := Option.any_eq_true .. |>.mp hfull
      have hlen : out.length = w := le_antisymm (hout w rfl) (by simpa using hw)
      simp [← hlen]
    · have hout' : ∀ w ∈ wanted,
          (if q.matchesRow schema row then out ++ [row] else out).length ≤ w := by
        rintro w rfl
        have hlt : out.length < w := by simpa using hfull
        split
        · rw [List.length_append]
          exact hlt
        · exact le_of_lt hlt
      rw [if_neg hfull, Except.ok_bind, ih hout']
      by_cases hrow : q.matchesRow schema row = true
      · simp [hrow]
      · simp [hrow]

theorem selectStreaming_spec {access : Access} {rows : List Row}
    (h : t.candidates schema access = .ok (rows.map .ok)) :
    t.selectStreaming schema q access = .ok (window q (rows.filter (q.matchesRow schema))) := by
  rw [selectStreaming, h, Except.ok_bind, collectMatching_spec _ rows (by simp), Except.ok_bind,
    window]
  cases q.limit with
  | none => simp [pure, Except.pure]
  | some n => simp [pure, Except.pure, List.drop_take]

theorem matchingRows_eq {access : Access} (hplan : plan schema q.filters = .ok access)
    {rows : List Row} (h : t.candidates schema access = .ok (rows.map .ok)) :
    t.matchingRows schema q = .ok ((rows.filter (q.matchesRow schema)).map .ok) := by
  rw [matchingRows, hplan, Except.ok_bind, h, Except.ok_bind, List.filter_map]
  rfl

omit [Unicode] in
theorem mapM_id_map_ok (rows : List Row) :
    (rows.map (.ok : Row → Except BknError Row)).mapM id = .ok rows := by
  rw [Except.mapM_eq_ok_iff, List.forall₂_map_left_iff, List.forall₂_same]
  exact fun _ _ ↦ rfl

theorem selectSorted_spec {rows : List Row}
    (h : t.matchingRows schema q = .ok (rows.map .ok)) :
    t.selectSorted schema q =
      .ok (window q (rows.mergeSort fun a b ↦ (orderCmp schema a b q.order).isLE)) := by
  rw [selectSorted, h, Except.ok_bind, mapM_id_map_ok, Except.ok_bind, window]
  generalize rows.mergeSort (fun a b ↦ (orderCmp schema a b q.order).isLE) = all
  simp only [pure, Except.pure, Except.ok.injEq]
  cases q.limit with
  | none =>
    simp only [Option.map_none, Option.getD_none, List.take_length]
    rcases le_total q.offset all.length with hle | hle
    · rw [min_eq_left hle]
    · rw [min_eq_right hle, List.drop_length, List.drop_eq_nil_of_le hle]
  | some n =>
    simp only [Option.map_some, Option.getD_some]
    rcases le_total q.offset all.length with hle | hle
    · rw [min_eq_left hle, List.drop_take, List.take_eq_take_iff, List.length_drop]
      omega
    · rw [min_eq_right hle, List.drop_eq_nil_of_le hle, List.take_nil]
      exact List.drop_eq_nil_of_le (List.length_take_le' ..)

theorem pairwise_of_presorted (h : t.Indexed schema) {access : Access} {rows : List Row}
    (hplan : plan schema q.filters = .ok access) (hsorted : presorted schema q access = true)
    (hrows : t.candidates schema access = .ok (rows.map .ok)) :
    rows.Pairwise fun a b ↦ (orderCmp schema a b q.order).isLE = true := by
  obtain ⟨pk, hpk, hcases⟩ := plan_cases hplan
  obtain ⟨hcol, -⟩ := isSome_primaryKey hpk
  -- either way the candidates are the rows of a range of keys
  have hrange : ∃ lo hi, t.RowsOfRange schema lo hi rows := by
    have hinj : ∀ {rows' : List Row}, t.candidates schema access = .ok (rows'.map .ok) →
        rows' = rows := by
      intro rows' h'
      rw [hrows, Except.ok.injEq] at h'
      exact (List.map_injective_iff.mpr (fun _ _ h ↦ Except.ok.inj h) h').symm
    rcases hcases with ⟨_, _, _, _, rfl⟩ | ⟨_, _, _, _, _, rfl⟩ | ⟨lo, hi, hr, rfl⟩ |
      ⟨_, _, _, _, _, rfl⟩ | ⟨_, _, _, _, _, _, _, rfl⟩ | rfl
    · simp [presorted] at hsorted
    · simp [presorted] at hsorted
    · obtain ⟨rows', lo', hi', hrows', hspec, -⟩ := candidates_pkRange h hpk hr
      exact ⟨lo', hi', hinj hrows' ▸ hspec⟩
    · simp [presorted] at hsorted
    · simp [presorted] at hsorted
    · obtain ⟨rows', hrows', hspec, -⟩ := candidates_scan (q := q) h
      exact ⟨_, _, hinj hrows' ▸ hspec⟩
  obtain ⟨lo, hi, hspec⟩ := hrange
  have horder : q.order = [(schema.primaryKey, .asc)] := by
    simp only [presorted, Bool.and_eq_true, decide_eq_true_eq] at hsorted
    exact hsorted.2
  refine List.Pairwise.imp_of_mem (fun {a b} ha hb hlt ↦ ?_) hspec.ascending
  obtain ⟨x, y, hx, hy, hlt⟩ := hlt
  have hra := ((hspec.mem_iff a).mp ha).1
  have hrb := ((hspec.mem_iff b).mp hb).1
  have hget : ∀ row : Row, resolve schema row schema.primaryKey = some row.pk := fun row ↦ by
    rw [resolve, if_pos hcol, Row.get, if_pos rfl]
  have hcmp : totalCmp (some a.pk) (some b.pk) = .lt := by
    have hkind := hra.kind_eq hrb
    have hval := compareValues_eq_cmp_key hkind hx hy
    rw [Bytes.cmp_eq_lt.mpr hlt] at hval
    unfold totalCmp
    rw [kindRank_eq hkind, cmp_self_eq_eq, Ordering.eq_then]
    split <;> simp_all [sortableKey]
  rw [horder]
  simp [orderCmp, hget, hcmp]

/-- **Planner correctness.** Whatever path is chosen, a query over a table whose indexes hold exactly
the entries of its rows, with values of the columns' kinds, returns what filtering, sorting and paging
a full scan would. Sorting asks for values of the columns' kinds in the columns sorted by. -/
theorem query_correct (h : t.Indexed schema) (q : Query) :
    ∃ scan, t.scanAllIn schema = .ok scan ∧ scan.Nodup ∧
      -- the rows fetched and filtered are the accepted rows of the scan, each once
      (∃ rows : List Row, t.matchingRows schema q = .ok (rows.map .ok) ∧
        rows.Perm (scan.filter (q.matchesRow schema))) ∧
      (q.checkColumns schema = .ok () →
        t.countIn schema q = .ok (scan.filter (q.matchesRow schema)).length ∧
        (q.order = [] → ∃ rows : List Row, rows.Perm (scan.filter (q.matchesRow schema)) ∧
          t.selectIn schema q = .ok ((window q rows).map (project q))) ∧
        (q.order ≠ [] → SortableOrder schema q.order → (∀ e ∈ q.order, t.TypedAt schema e.1) →
          ∃ rows : List Row, rows.Perm (scan.filter (q.matchesRow schema)) ∧
            rows.Pairwise (RowLe schema q.order) ∧
            t.selectIn schema q = .ok ((window q rows).map (project q)))) ∧
      -- the streaming shortcut changes nothing
      ∀ access, plan schema q.filters = .ok access → presorted schema q access = true →
        t.selectStreaming schema q access = t.selectSorted schema q := by
  obtain ⟨scan, hscan, hrange⟩ := scanAllIn_spec h.rowsKeyed h.pkDeclared
  obtain ⟨access, hplan⟩ := plan_isOk h q.filters
  obtain ⟨rows, hrows, hcov⟩ := candidates_covers h hplan
  have hperm := hcov.perm_filter hrange
  have hmatch := matchingRows_eq hplan hrows
  have hstream := selectStreaming_spec (q := q) hrows
  have hsorted := selectSorted_spec hmatch
  -- a presorted list is not changed by the stable sort
  have hpre : presorted schema q access = true →
      (rows.filter (q.matchesRow schema)).mergeSort
        (fun a b ↦ (orderCmp schema a b q.order).isLE) = rows.filter (q.matchesRow schema) :=
    fun hp ↦ List.mergeSort_of_pairwise ((pairwise_of_presorted h hplan hp hrows).filter _)
  refine ⟨scan, hscan, hrange.nodup, ⟨_, hmatch, hperm⟩, fun hcheck ↦ ⟨?_, fun horder ↦ ?_,
    fun horder hs htyped ↦ ?_⟩, fun access' hplan' hp ↦ ?_⟩
  · rw [countIn, hcheck, Except.ok_bind, hmatch, Except.ok_bind, mapM_id_map_ok, Except.ok_bind,
      hperm.length_eq]
    rfl
  · refine ⟨_, hperm, ?_⟩
    rw [selectIn, hcheck, Except.ok_bind, hplan, Except.ok_bind, if_pos (.inl horder), hstream]
    rfl
  · refine ⟨_, (List.mergeSort_perm _ _).trans hperm, pairwise_mergeSort_orderCmp htyped hs
      fun row hrow ↦ hcov.sound row (List.mem_of_mem_filter hrow), ?_⟩
    rw [selectIn, hcheck, Except.ok_bind, hplan, Except.ok_bind]
    by_cases hp : presorted schema q access = true
    · rw [if_pos (.inr hp), hstream, hpre hp]
      rfl
    · rw [if_neg (not_or.mpr ⟨horder, hp⟩), hsorted]
      rfl
  · rw [hplan, Except.ok.injEq] at hplan'
    subst hplan'
    rw [hstream, hsorted, hpre hp]

end TableStore

/-! ## A query over points -/

namespace TableStore

theorem exists_points : ∃ t : TableStore, t.rows.size = 1 ∧
    t.Consistent (pointsSchema ["x"]) := by
  have hwf : (pointsSchema ["x"]).Wf := by
    refine ⟨⟨.int, rfl⟩, fun c hc ↦ ?_, fun col hcol hu ↦ ?_⟩
    · obtain rfl : c = "x" := by simpa [pointsSchema, TableSchema.ofRelSchema] using hc
      exact ⟨_, rfl⟩
    · obtain ⟨c, -, rfl⟩ := List.mem_map.mp hcol
      simp at hu
  have hcheck : (@writeRowIn Unicode.ascii ℕ _ Ann.flat {} (pointsSchema ["x"]) (.int 1)
      (OrdMap.insert ∅ "x" (.int 5)) .error).toOption.any (fun t ↦ decide (t.rows.size = 1)) =
        true := by decide +kernel
  cases ht : @writeRowIn Unicode.ascii ℕ _ Ann.flat {} (pointsSchema ["x"]) (.int 1)
      (OrdMap.insert ∅ "x" (.int 5)) .error with
  | error e => simp [ht, Except.toOption] at hcheck
  | ok t =>
    obtain ⟨k, old, hchange⟩ := @writeRowIn_rowChange _ _ Unicode.ascii ℕ _ Ann.flat _ _ _ _ ht
    refine ⟨t, by simpa [ht, Except.toOption] using hcheck, ?_⟩
    exact (@RowChange.tableInv _ _ _ Unicode.ascii ℕ _ Ann.flat _ _ _ _
      (tableInv_of_empty hwf rfl fun _ ↦ rfl) hchange).consistent

/-- Points from three on, the largest first. -/
private def pointsQuery : Query where
  filters := [.cmp "x" .ge (.int 3)]
  order := [("x", .desc)]

theorem query_correct_points : ∃ (t : TableStore) (scan rows : List Row), t.rows.size = 1 ∧
    t.scanAllIn (pointsSchema ["x"]) = .ok scan ∧
    rows.Perm (scan.filter (@Query.matchesRow Unicode.ascii pointsQuery (pointsSchema ["x"]))) ∧
    rows.Pairwise (RowLe (pointsSchema ["x"]) pointsQuery.order) ∧
    @selectIn Unicode.ascii t (pointsSchema ["x"]) pointsQuery =
      .ok ((window pointsQuery rows).map (project pointsQuery)) := by
  obtain ⟨t, hsize, hcons⟩ := exists_points
  obtain ⟨scan, hscan, -, -, hselect, -⟩ := @query_correct _ _ Unicode.ascii hcons.indexed pointsQuery
  obtain ⟨-, -, hsorted⟩ := hselect rfl
  obtain ⟨rows, hperm, hpair, hrows⟩ := hsorted (by simp [pointsQuery]) (by
    intro e he
    obtain rfl : e = ("x", .desc) := by simpa [pointsQuery] using he
    exact ⟨_, rfl, rfl⟩) fun e _ ↦ hcons.rowsTyped.typedAt e.1
  exact ⟨t, scan, rows, hsize, hscan, hperm, hpair, hrows⟩

/-- Points with names from "a" on. -/
def namesQuery : Query where
  filters := [.cmp "x" .ge (.str "a")]

/-- Point 1 with the number 5 for a name: its entry is in the range, and has no name to be cut after,
so counting fails where a scan finds no row. -/
theorem not_query_correct_adopted : ∃ (t₀ t : TableStore) (scan : List Row),
    @StaticRun Unicode.ascii ℕ _ Ann.flat pointsStatic t₀ ∧
    (∃ created, t₀.createTableIn (namedSchema ["x"]) = .ok (created, t)) ∧
    t.IndexesExact (namedSchema ["x"]) ∧ namesQuery.checkColumns (namedSchema ["x"]) = .ok () ∧
    t.scanAllIn (namedSchema ["x"]) = .ok scan ∧
    @countIn Unicode.ascii t (namedSchema ["x"]) namesQuery ≠
      .ok (scan.filter (@Query.matchesRow Unicode.ascii namesQuery (namedSchema ["x"]))).length := by
  obtain ⟨t₀, t, hrun, hcreate, hexact, hcheck⟩ := @exists_adopted (namedSchema ["x"])
    pointsStatic RelRun.point (fun t ↦
      decide ((@countIn Unicode.ascii t (namedSchema ["x"]) namesQuery).toOption = none)) rfl
    (by decide +kernel)
  obtain ⟨scan, hscan, -⟩ := scanAllIn_spec hexact.rowsKeyed hexact.pkDeclared
  refine ⟨t₀, t, scan, hrun, hcreate, hexact, rfl, hscan, fun hcount ↦ ?_⟩
  rw [hcount] at hcheck
  cases hcheck

end TableStore
