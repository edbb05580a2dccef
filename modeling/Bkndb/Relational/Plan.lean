import Bkndb.Relational.Consistent
import Bkndb.Relational.Query

/-!
# The planner loses no row

Whatever access path the planner chooses, the candidates it fetches from a consistent table are rows
of the table, each once, and include every row the filters accept. Filtering them therefore gives
the same rows as filtering a full scan.

## What a path may fetch

A path may fetch too much, since the filters are applied afterwards, but it must not fetch too
little, nor a row twice. `Covers` says this of a list of candidates, and there is one lemma for
each path. None of them looks at the whole filter: each rests on one conjunct, or on a range that
several of them confine a column to.
-/

open PropValue

variable [Unicode] {t : TableStore} {schema : TableSchema}

/-! ## Filters and conjuncts -/

mutual

theorem eval_of_mem_conjuncts {row : Row} :
    ∀ {es : List Expr}, (∀ e ∈ es, e.eval schema row = true) →
      ∀ e ∈ conjuncts es, e.eval schema row = true
  | [], _, e, he => by simp [conjuncts] at he
  | e :: es, h, e', he' => by
    rw [conjuncts, List.mem_append] at he'
    rcases he' with he' | he'
    · exact eval_of_mem_conjunctsOf (h e List.mem_cons_self) e' he'
    · exact eval_of_mem_conjuncts (fun e he ↦ h e (List.mem_cons_of_mem _ he)) e' he'

theorem eval_of_mem_conjunctsOf {row : Row} :
    ∀ {e : Expr}, e.eval schema row = true → ∀ e' ∈ conjunctsOf e, e'.eval schema row = true
  | .and es, h, e', he' => by
    rw [Expr.eval, Expr.evalAll_eq_all, List.all_eq_true] at h
    rw [conjunctsOf] at he'
    exact eval_of_mem_conjuncts h e' he'
  | .cmp .., h, e', he' | .in .., h, e', he' | .isNull _, h, e', he' | .isNotNull _, h, e', he'
  | .startsWith .., h, e', he' | .contains .., h, e', he' | .like .., h, e', he'
  | .or _, h, e', he' | .not _, h, e', he' => by
    simp only [conjunctsOf, List.mem_singleton] at he'
    exact he' ▸ h

end

theorem Query.eval_of_matchesRow {q : Query} {row : Row} (h : q.matchesRow schema row = true) :
    ∀ e ∈ conjuncts q.filters, e.eval schema row = true :=
  eval_of_mem_conjuncts (List.all_eq_true.mp h)

omit [Unicode] in
theorem nonNull_resolve {column : String} (h : (schema.column column).isSome = true) (row : Row) :
    nonNull (resolve schema row column) = indexable row schema column := by
  rw [resolve, if_pos h, indexable]

theorem eval_cmp {column : String} (hcol : (schema.column column).isSome = true) {row : Row}
    {op : CmpOp} {v : PropValue} (hv : v.isNull = false) :
    (Expr.cmp column op v).eval schema row = true ↔
      ∃ w o, indexable row schema column = some w ∧ w.compareValues v = some o ∧
        op.holds o = true := by
  have heval : (Expr.cmp column op v).eval schema row =
      ((indexable row schema column).bind (·.compareValues v)).any op.holds := by
    simp only [Expr.eval, nonNull_resolve hcol, hv, Bool.false_eq_true, if_false]
  rw [heval, Option.any_eq_true]
  simp only [Option.bind_eq_some_iff]
  exact ⟨fun ⟨o, ⟨w, hw, ho⟩, h⟩ ↦ ⟨w, o, hw, ho, h⟩, fun ⟨w, o, hw, ho, h⟩ ↦ ⟨o, ⟨w, hw, ho⟩, h⟩⟩

theorem eval_in {column : String} (hcol : (schema.column column).isSome = true) {row : Row}
    {vs : List PropValue} : (Expr.in column vs).eval schema row = true ↔
      ∃ w, indexable row schema column = some w ∧ ∃ v ∈ vs, w.compareValues v = some .eq := by
  rw [Expr.eval, nonNull_resolve hcol, Option.any_eq_true]
  simp only [List.any_eq_true, beq_iff_eq]

theorem eval_startsWith {column : String} (hcol : (schema.column column).isSome = true) {row : Row}
    {p : String} : (Expr.startsWith column p).eval schema row = true ↔
      ∃ s, indexable row schema column = some (.str s) ∧ p.utf8 <+: s.utf8 := by
  rw [Expr.eval, nonNull_resolve hcol]
  split
  · rename_i s hs
    rw [List.isPrefixOf_iff_prefix, hs]
    simp
  · rename_i hne
    simp only [Bool.false_eq_true, false_iff, not_exists, not_and]
    exact fun s hs ↦ absurd hs (hne s)

/-! ## Usable keys -/

omit [Unicode]

theorem usableKey_iff {kind : ColumnKind} {v : PropValue} :
    usableKey kind v = true ↔ ColumnKind.of v = kind ∧ ∃ a, sortableKey v = some a := by
  rw [usableKey, decide_eq_true_iff, Option.isSome_iff_exists]

theorem isNull_of_usableKey {kind : ColumnKind} {v : PropValue} (h : usableKey kind v = true) :
    v.isNull = false := by
  obtain ⟨-, a, ha⟩ := usableKey_iff.mp h
  cases v with
  | null => simp [sortableKey] at ha
  | _ => rfl

theorem eq_of_compareValues {kind : ColumnKind} {v w : PropValue} (hv : usableKey kind v = true)
    (hw : usableKey kind w = true) (h : compareValues w v = some .eq) : w = v := by
  obtain ⟨hkv, a, ha⟩ := usableKey_iff.mp hv
  obtain ⟨hkw, b, hb⟩ := usableKey_iff.mp hw
  have hkind : ColumnKind.of w = .of v := hkw.trans hkv.symm
  rw [compareValues_eq_cmp_key hkind hb ha, Option.some_inj, Bytes.cmp_eq_eq] at h
  exact sortableKey_inj hkind hb (h ▸ ha)

theorem dedupValues_spec {kind : ColumnKind} {vs : List PropValue}
    (h : ∀ v ∈ vs, usableKey kind v = true) :
    (dedupValues vs).Nodup ∧ ∀ v, v ∈ dedupValues vs ↔ v ∈ vs := by
  -- the keys seen are those of the values kept
  suffices H : ∀ (l : List PropValue) (st : List Bytes × List PropValue) (done : List PropValue),
      (∀ v ∈ l, usableKey kind v = true) → (∀ v ∈ st.2, usableKey kind v = true) →
      st.2.Nodup → (∀ v, v ∈ st.2 ↔ v ∈ done) →
      (∀ v a, usableKey kind v = true → sortableKey v = some a → (a ∈ st.1 ↔ v ∈ st.2)) →
      (l.foldl dedupStep st).2.Nodup ∧ ∀ v, v ∈ (l.foldl dedupStep st).2 ↔ v ∈ done ∨ v ∈ l by
    have := H vs ([], []) [] h (by simp) List.nodup_nil (by simp) (by simp)
    simpa [dedupValues] using this
  intro l
  induction l with
  | nil =>
    intro st done _ _ hnodup hdone _
    exact ⟨hnodup, fun v ↦ by simp [hdone]⟩
  | cons x l ih =>
    intro st done hl hout hnodup hdone hseen
    have hx := hl x List.mem_cons_self
    have hl' : ∀ v ∈ l, usableKey kind v = true := fun v hv ↦ hl v (List.mem_cons_of_mem _ hv)
    obtain ⟨hkx, a, ha⟩ := usableKey_iff.mp hx
    rw [List.foldl_cons, dedupStep, ha]
    by_cases hin : a ∈ st.1
    · have hmem : x ∈ st.2 := (hseen x a hx ha).mp hin
      simp only [if_pos hin]
      obtain ⟨hn, hm⟩ := ih st done hl' hout hnodup hdone hseen
      refine ⟨hn, fun v ↦ ?_⟩
      rw [hm, List.mem_cons]
      refine ⟨fun h ↦ h.elim .inl fun h ↦ .inr (.inr h), ?_⟩
      rintro (h | rfl | h)
      · exact .inl h
      · exact .inl ((hdone v).mp hmem)
      · exact .inr h
    · have hmem : x ∉ st.2 := fun h ↦ hin ((hseen x a hx ha).mpr h)
      simp only [if_neg hin]
      have hout' : ∀ v ∈ st.2 ++ [x], usableKey kind v = true := by
        intro v hv
        rcases List.mem_append.mp hv with hv | hv
        · exact hout v hv
        · rw [List.mem_singleton.mp hv]
          exact hx
      have hnodup' : (st.2 ++ [x]).Nodup := by
        rw [List.nodup_append]
        refine ⟨hnodup, List.nodup_singleton x, fun v hv w hw ↦ ?_⟩
        rw [List.mem_singleton.mp hw]
        rintro rfl
        exact hmem hv
      have hseen' : ∀ v b, usableKey kind v = true → sortableKey v = some b →
          (b ∈ a :: st.1 ↔ v ∈ st.2 ++ [x]) := by
        intro v b hv hb
        have hiff : b = a ↔ v = x := by
          constructor
          · rintro rfl
            exact sortableKey_inj ((usableKey_iff.mp hv).1.trans hkx.symm) hb ha
          · rintro rfl
            rw [ha, Option.some_inj] at hb
            exact hb.symm
        rw [List.mem_cons, hiff, hseen v b hv hb, List.mem_append, List.mem_singleton]
        exact or_comm
      obtain ⟨hn, hm⟩ := ih (a :: st.1, st.2 ++ [x]) (done ++ [x]) hl' hout' hnodup'
        (by simp [hdone]) hseen'
      refine ⟨hn, fun v ↦ ?_⟩
      rw [hm, List.mem_append, List.mem_singleton, List.mem_cons, or_assoc]

/-! ## Ranges -/

theorem tighter_eq (current new : Bound PropValue) (lower : Bool) :
    tighter current new lower = current ∨ tighter current new lower = new := by
  unfold tighter
  split
  · exact .inr rfl
  · exact .inl rfl
  · split
    · split
      · exact .inr rfl
      · exact .inl rfl
    · split
      · exact .inr rfl
      · exact .inl rfl
    · exact .inl rfl

theorem rangeStep_kind {column : String} {kind : ColumnKind}
    {st : Bound PropValue × Bound PropValue} (h : BoundKind kind st.1 ∧ BoundKind kind st.2)
    (e : Expr) :
    BoundKind kind (rangeStep column kind st e).1 ∧
      BoundKind kind (rangeStep column kind st e).2 := by
  unfold rangeStep
  split
  · split
    · exact h
    · rename_i c op v hguard
      rw [not_or, Bool.not_eq_false] at hguard
      have hkind : ∀ B, BoundKind kind B → ∀ lower,
          BoundKind kind (tighter B (.included v) lower) ∧
            BoundKind kind (tighter B (.excluded v) lower) := by
        refine fun B hB lower ↦ ⟨?_, ?_⟩
        · rcases tighter_eq B (.included v) lower with heq | heq <;> rw [heq]
          · exact hB
          · exact usableKey_iff.mp hguard.2
        · rcases tighter_eq B (.excluded v) lower with heq | heq <;> rw [heq]
          · exact hB
          · exact usableKey_iff.mp hguard.2
      cases op with
      | eq => exact h
      | ne => exact h
      | gt => exact ⟨(hkind _ h.1 _).2, h.2⟩
      | ge => exact ⟨(hkind _ h.1 _).1, h.2⟩
      | lt => exact ⟨h.1, (hkind _ h.2 _).2⟩
      | le => exact ⟨h.1, (hkind _ h.2 _).1⟩
  · exact h

theorem rangeBounds_kind {conj : List Expr} {column : String} {kind : ColumnKind}
    {r : Bound PropValue × Bound PropValue} (hr : rangeBounds conj column kind = some r) :
    BoundKind kind r.1 ∧ BoundKind kind r.2 := by
  have hfold : BoundKind kind (conj.foldl (rangeStep column kind) (.unbounded, .unbounded)).1 ∧
      BoundKind kind (conj.foldl (rangeStep column kind) (.unbounded, .unbounded)).2 := by
    refine List.foldlRecOn (motive := fun st : Bound PropValue × Bound PropValue ↦
      BoundKind kind st.1 ∧ BoundKind kind st.2) conj _ ?_ fun st hst e _ ↦ ?_
    · exact ⟨trivial, trivial⟩
    · exact rangeStep_kind hst e
  rw [rangeBounds] at hr
  split at hr
  · exact absurd hr (by simp)
  · rw [Option.some_inj] at hr
    exact hr ▸ hfold

/-- What the conjuncts seen so far say about a column, as a pair of bounds. -/
structure RangeInv (schema : TableSchema) (row : Row) (column : String)
    (st : Bound PropValue × Bound PropValue) : Prop where
  lowerHolds : ∀ w, indexable row schema column = some w → LowerHolds st.1 w
  upperHolds : ∀ w, indexable row schema column = some w → UpperHolds st.2 w
  present : st ≠ (.unbounded, .unbounded) → ∃ w, indexable row schema column = some w

variable [Unicode]

theorem rangeStep_inv {row : Row} {column : String} {kind : ColumnKind}
    {st : Bound PropValue × Bound PropValue} (hcol : (schema.column column).isSome = true)
    (h : RangeInv schema row column st) {e : Expr} (he : e.eval schema row = true) :
    RangeInv schema row column (rangeStep column kind st e) := by
  unfold rangeStep
  split
  · rename_i c op v
    split
    · exact h
    rename_i hguard
    rw [not_or, not_not, Bool.not_eq_false] at hguard
    obtain ⟨rfl, hv⟩ := hguard
    obtain ⟨w, o, hw, ho, hop⟩ := (eval_cmp hcol (isNull_of_usableKey hv)).mp he
    -- a new bound on one side holds of the value, whichever bound `tighter` keeps
    have hlo : ∀ B, LowerHolds B w → RangeInv schema row c (tighter st.1 B true, st.2) := by
      intro B hB
      refine ⟨fun w' hw' ↦ ?_, h.upperHolds, fun _ ↦ ⟨w, hw⟩⟩
      rcases tighter_eq st.1 B true with heq | heq <;> simp only [heq]
      · exact h.lowerHolds w' hw'
      · rw [hw, Option.some_inj] at hw'
        exact hw' ▸ hB
    have hhi : ∀ B, UpperHolds B w → RangeInv schema row c (st.1, tighter st.2 B false) := by
      intro B hB
      refine ⟨h.lowerHolds, fun w' hw' ↦ ?_, fun _ ↦ ⟨w, hw⟩⟩
      rcases tighter_eq st.2 B false with heq | heq <;> simp only [heq]
      · exact h.upperHolds w' hw'
      · rw [hw, Option.some_inj] at hw'
        exact hw' ▸ hB
    cases op with
    | eq => exact h
    | ne => exact h
    | gt =>
      refine hlo _ ?_
      cases o <;> simp_all [CmpOp.holds, LowerHolds]
    | ge =>
      refine hlo _ ?_
      cases o <;> simp_all [CmpOp.holds, LowerHolds]
    | lt =>
      refine hhi _ ?_
      cases o <;> simp_all [CmpOp.holds, UpperHolds]
    | le =>
      refine hhi _ ?_
      cases o <;> simp_all [CmpOp.holds, UpperHolds]
  · exact h

/-- **The bounds confine a column of every accepted row.** -/
theorem rangeBounds_inv {conj : List Expr} {row : Row} {column : String} {kind : ColumnKind}
    {r : Bound PropValue × Bound PropValue} (hcol : (schema.column column).isSome = true)
    (hr : rangeBounds conj column kind = some r) (h : ∀ e ∈ conj, e.eval schema row = true) :
    ∃ w, indexable row schema column = some w ∧ LowerHolds r.1 w ∧ UpperHolds r.2 w := by
  have h0 : RangeInv schema row column (.unbounded, .unbounded) :=
    ⟨fun _ _ ↦ trivial, fun _ _ ↦ trivial, fun h ↦ absurd rfl h⟩
  have hfold := List.foldlRecOn conj (rangeStep column kind)
    (motive := fun st ↦ RangeInv schema row column st) h0
    fun st hst e he ↦ rangeStep_inv hcol hst (h e he)
  rw [rangeBounds] at hr
  split at hr
  · exact absurd hr (by simp)
  · rename_i hne
    rw [Option.some_inj] at hr
    subst hr
    obtain ⟨w, hw⟩ := hfold.present hne
    exact ⟨w, hw, hfold.lowerHolds w hw, hfold.upperHolds w hw⟩

/-! ## What the planner chose

Planning is a cascade of attempts. `plan_cases` turns the path that came out into the reason for
which it was chosen. -/

omit [Unicode] in
/-- The six outcomes of planning, each with the conjunct or the range it rests on. -/
theorem plan_cases {filters : List Expr} {access : Access} (h : plan schema filters = .ok access) :
    ∃ pk, schema.primaryKeyColumn = .ok pk ∧
      ((∃ e ∈ conjuncts filters, ∃ pks, pinsPk schema.primaryKey pk.kind e = some pks ∧
          access = .pkGet pks) ∨
        (∃ e ∈ conjuncts filters, ∃ c vs, pinsIndexed schema e = some (c, vs) ∧
          access = .indexEq c vs) ∨
        (∃ lo hi, rangeBounds (conjuncts filters) schema.primaryKey pk.kind = some (lo, hi) ∧
          access = .pkRange lo hi) ∨
        (∃ e ∈ conjuncts filters, ∃ c p, pinsPrefix schema e = some (c, p) ∧
          access = .indexPrefix c p) ∨
        (∃ c ∈ schema.indexedColumns, ∃ col lo hi, schema.column c = some col ∧
          rangeBounds (conjuncts filters) c col.kind = some (lo, hi) ∧
          access = .indexRange c lo hi) ∨
        access = .scan) := by
  rw [plan, Except.bind_eq_ok] at h
  obtain ⟨pk, hpk, h⟩ := h
  refine ⟨pk, hpk, ?_⟩
  have hok : ∀ {a : Access}, (pure a : Except BknError Access) = .ok access → access = a :=
    fun h ↦ (Except.ok.inj h).symm
  dsimp only at h
  split at h
  · rename_i pks hfind
    obtain ⟨e, he, hpin⟩ := List.exists_of_findSome?_eq_some hfind
    exact .inl ⟨e, he, pks, hpin, hok h⟩
  split at h
  · rename_i c vs hfind
    obtain ⟨e, he, hpin⟩ := List.exists_of_findSome?_eq_some hfind
    exact .inr (.inl ⟨e, he, c, vs, hpin, hok h⟩)
  split at h
  · rename_i lo hi hrange
    exact .inr (.inr (.inl ⟨lo, hi, hrange, hok h⟩))
  split at h
  · rename_i c p hfind
    obtain ⟨e, he, hpin⟩ := List.exists_of_findSome?_eq_some hfind
    exact .inr (.inr (.inr (.inl ⟨e, he, c, p, hpin, hok h⟩)))
  split at h
  · rename_i c lo hi hfind
    obtain ⟨c', hc', hsome⟩ := List.exists_of_findSome?_eq_some hfind
    obtain ⟨col, hcol, hmap⟩ := Option.bind_eq_some_iff.mp hsome
    obtain ⟨r, hr, heq⟩ := Option.map_eq_some_iff.mp hmap
    obtain ⟨rfl, rfl⟩ : c' = c ∧ r = (lo, hi) := by simpa using heq
    exact .inr (.inr (.inr (.inr (.inl ⟨c', hc', col, lo, hi, hcol, hr, hok h⟩))))
  · exact .inr (.inr (.inr (.inr (.inr (hok h)))))

/-- The values a conjunct pins a column to: distinct, usable, and no accepted row has another. -/
structure Pins (schema : TableSchema) (e : Expr) (column : String) (kind : ColumnKind)
    (vs : List PropValue) : Prop where
  nodup : vs.Nodup
  usable : ∀ v ∈ vs, usableKey kind v = true
  complete : ∀ row w, indexable row schema column = some w → usableKey kind w = true →
    e.eval schema row = true → w ∈ vs
  present : ∀ row, e.eval schema row = true → ∃ w, indexable row schema column = some w

theorem pins_cmp {column : String} {kind : ColumnKind} (hcol : (schema.column column).isSome = true)
    {v : PropValue} (hv : usableKey kind v = true) :
    Pins schema (.cmp column .eq v) column kind [v] := by
  refine ⟨List.nodup_singleton v, by simpa using hv, fun row w hw hw' he ↦ ?_, fun row he ↦ ?_⟩
  · obtain ⟨w', o, hw'', ho, hop⟩ := (eval_cmp hcol (isNull_of_usableKey hv)).mp he
    rw [hw, Option.some_inj] at hw''
    have hoeq : o = .eq := by simpa [CmpOp.holds] using hop
    rw [List.mem_singleton]
    exact eq_of_compareValues hv hw' (hw'' ▸ hoeq ▸ ho)
  · obtain ⟨w, -, hw, -⟩ := (eval_cmp hcol (isNull_of_usableKey hv)).mp he
    exact ⟨w, hw⟩

theorem pins_in {column : String} {kind : ColumnKind} (hcol : (schema.column column).isSome = true)
    {vs : List PropValue} (hvs : ∀ v ∈ vs, usableKey kind v = true) :
    Pins schema (.in column vs) column kind (dedupValues vs) := by
  obtain ⟨hnodup, hmem⟩ := dedupValues_spec hvs
  refine ⟨hnodup, fun v hv ↦ hvs v ((hmem v).mp hv), fun row w hw hw' he ↦ ?_, fun row he ↦ ?_⟩
  · obtain ⟨w', hw'', v, hv, hcmp⟩ := (eval_in hcol).mp he
    rw [hw, Option.some_inj] at hw''
    rw [hmem, eq_of_compareValues (hvs v hv) hw' (hw'' ▸ hcmp)]
    exact hv
  · obtain ⟨w, hw, -⟩ := (eval_in hcol).mp he
    exact ⟨w, hw⟩

theorem pinsPk_spec {pk : String} {kind : ColumnKind} {e : Expr} {vs : List PropValue}
    (hcol : (schema.column pk).isSome = true) (h : pinsPk pk kind e = some vs) :
    Pins schema e pk kind vs := by
  unfold pinsPk at h
  split at h
  · split at h
    · rename_i c v hguard
      obtain ⟨rfl, hv⟩ := hguard
      rw [Option.some_inj] at h
      exact h ▸ pins_cmp hcol hv
    · exact absurd h (by simp)
  · split at h
    · rename_i c vs hguard
      obtain ⟨rfl, hvs⟩ := hguard
      rw [Option.some_inj] at h
      exact h ▸ pins_in hcol (List.all_eq_true.mp hvs)
    · exact absurd h (by simp)
  · exact absurd h (by simp)

theorem pinsIndexed_spec {e : Expr} {c : String} {vs : List PropValue}
    (h : pinsIndexed schema e = some (c, vs)) :
    c ∈ schema.indexedColumns ∧ ∃ col, schema.column c = some col ∧
      Pins schema e c col.kind vs := by
  unfold pinsIndexed at h
  split at h
  · split at h
    · rename_i c' v hguard
      obtain ⟨rfl, rfl⟩ : c' = c ∧ [v] = vs := by simpa using h
      obtain ⟨col, hcol, hv⟩ := Option.any_eq_true .. |>.mp hguard.2
      exact ⟨List.contains_iff_mem.mp hguard.1, col, hcol, pins_cmp (by rw [hcol]; rfl) hv⟩
    · exact absurd h (by simp)
  · split at h
    · rename_i c' vs' hguard
      obtain ⟨rfl, rfl⟩ : c' = c ∧ dedupValues vs' = vs := by simpa using h
      obtain ⟨col, hcol, hv⟩ := Option.any_eq_true .. |>.mp hguard.2
      exact ⟨List.contains_iff_mem.mp hguard.1, col, hcol,
        pins_in (by rw [hcol]; rfl) (List.all_eq_true.mp hv)⟩
    · exact absurd h (by simp)
  · exact absurd h (by simp)

omit [Unicode] in
theorem pinsPrefix_spec {e : Expr} {c p : String} (h : pinsPrefix schema e = some (c, p)) :
    e = .startsWith c p ∧ c ∈ schema.indexedColumns ∧
      ∃ col, schema.column c = some col ∧ col.kind = .str := by
  unfold pinsPrefix at h
  split at h
  · split at h
    · rename_i c' p' hguard
      obtain ⟨rfl, rfl⟩ : c' = c ∧ p' = p := by simpa using h
      obtain ⟨col, hcol, hkind⟩ := Option.any_eq_true .. |>.mp hguard.2.1
      exact ⟨rfl, List.contains_iff_mem.mp hguard.1, col, hcol, by simpa using hkind⟩
    · exact absurd h (by simp)
  · exact absurd h (by simp)

/-! ## Candidates -/

namespace TableStore

/-- The rows are rows of the table, each once, and include all that the query accepts. -/
structure Covers (t : TableStore) (schema : TableSchema) (q : Query) (rows : List Row) : Prop where
  nodup : rows.Nodup
  sound : ∀ row ∈ rows, t.HasRow schema row
  complete : ∀ row, t.HasRow schema row → q.matchesRow schema row = true → row ∈ rows

variable {q : Query}

omit [Unicode] in
theorem isSome_primaryKey {pk : ColumnSchema} (hpk : schema.primaryKeyColumn = .ok pk) :
    (schema.column schema.primaryKey).isSome = true ∧ schema.pkKind = some pk.kind := by
  rw [TableSchema.primaryKeyColumn, Except.ofOption_eq_ok] at hpk
  rw [TableSchema.pkKind, hpk]
  exact ⟨rfl, rfl⟩

omit [Unicode] in
theorem HasRow.indexable_pk {row : Row} (h : t.HasRow schema row) :
    indexable row schema schema.primaryKey = some row.pk ∧
      usableKey (.of row.pk) row.pk = true := by
  obtain ⟨-, k, hk, -⟩ := h
  have husable : usableKey (.of row.pk) row.pk = true := usableKey_iff.mpr ⟨rfl, k, hk⟩
  refine ⟨nonNull_eq_some.mpr ⟨?_, isNull_of_usableKey husable⟩, husable⟩
  rw [Row.get, if_pos rfl]

theorem candidates_pkGet {pk : ColumnSchema} (hpk : schema.primaryKeyColumn = .ok pk) {e : Expr}
    (he : e ∈ conjuncts q.filters) {pks : List PropValue}
    (hpin : Pins schema e schema.primaryKey pk.kind pks) :
    ∃ rows, t.candidates schema (.pkGet pks) = .ok (rows.map .ok) ∧ t.Covers schema q rows := by
  obtain ⟨-, hkind⟩ := isSome_primaryKey hpk
  have hpkOf : ∀ v ∈ pks, schema.pkKind = some (.of v) := fun v hv ↦ by
    rw [hkind, (usableKey_iff.mp (hpin.usable v hv)).1]
  refine ⟨pks.filterMap t.getIn, rfl, ?_, fun row hrow ↦ ?_, fun row hrow hq ↦ ?_⟩
  · refine List.Nodup.filterMap (fun a b row ha hb ↦ ?_) hpin.nodup
    obtain ⟨-, -, -, rfl⟩ := getIn_eq_some.mp ha
    obtain ⟨-, -, -, hb⟩ := getIn_eq_some.mp hb
    exact hb
  · obtain ⟨v, hv, hget⟩ := List.mem_filterMap.mp hrow
    exact hasRow_of_getIn (hpkOf v hv) hget
  · obtain ⟨hidx, husable⟩ := hrow.indexable_pk
    have hof : ColumnKind.of row.pk = pk.kind := by
      have := hrow.1
      rw [hkind, Option.some_inj] at this
      exact this.symm
    have hmem := hpin.complete row row.pk hidx (hof ▸ husable) (q.eval_of_matchesRow hq e he)
    exact List.mem_filterMap.mpr ⟨row.pk, hmem, hrow.getIn⟩

omit [Unicode] in
theorem Indexed.usable_indexable (h : t.Indexed schema) {column : String} {c : ColumnSchema}
    (hindexed : column ∈ schema.indexedColumns) (hcol : schema.column column = some c) {row : Row}
    (hrow : t.HasRow schema row) {v : PropValue} (hv : indexable row schema column = some v) :
    usableKey c.kind v = true := by
  obtain ⟨k, hk, -⟩ := (h.indexExact column hindexed).complete row v hrow hv
  obtain ⟨a, b, ha, -⟩ := indexKey_eq_ok.mp hk
  exact usableKey_iff.mpr ⟨(h.indexTyped column hindexed).kind_indexable hrow hcol hv, a, ha⟩

theorem candidates_indexEq (h : t.Indexed schema) {c : String} {col : ColumnSchema}
    (hindexed : c ∈ schema.indexedColumns) (hcol : schema.column c = some col) {e : Expr}
    (he : e ∈ conjuncts q.filters) {vs : List PropValue} (hpin : Pins schema e c col.kind vs) :
    ∃ rows, t.candidates schema (.indexEq c vs) = .ok (rows.map .ok) ∧ t.Covers schema q rows := by
  -- one lookup for each value
  have hlookup : ∀ v ∈ vs, ∃ rows, t.indexLookupEqIn schema c v = .ok rows ∧ rows.Nodup ∧
      ∀ row, row ∈ rows ↔ t.HasRow schema row ∧ indexable row schema c = some v := by
    intro v hv
    obtain ⟨hkind, a, ha⟩ := usableKey_iff.mp (hpin.usable v hv)
    exact indexLookupEqIn_spec h hindexed hcol hkind ha
  have hall : ∃ groups, List.Forall₂ (fun v rows ↦ t.indexLookupEqIn schema c v = .ok rows ∧
      rows.Nodup ∧ ∀ row, row ∈ rows ↔ t.HasRow schema row ∧ indexable row schema c = some v)
      vs groups := by
    clear hpin
    induction vs with
    | nil => exact ⟨[], .nil⟩
    | cons v vs ih =>
      obtain ⟨rows, hrows⟩ := hlookup v List.mem_cons_self
      obtain ⟨groups, hgroups⟩ := ih fun v hv ↦ hlookup v (List.mem_cons_of_mem _ hv)
      exact ⟨rows :: groups, .cons hrows hgroups⟩
  obtain ⟨groups, hgroups⟩ := hall
  have hmapM : vs.mapM (t.indexLookupEqIn schema c) = .ok groups :=
    Except.mapM_eq_ok_iff.mpr (hgroups.imp fun _ _ h ↦ h.1)
  refine ⟨groups.flatten, ?_, ?_, fun row hrow ↦ ?_, fun row hrow hq ↦ ?_⟩
  · rw [candidates, hmapM]
    rfl
  · rw [List.nodup_flatten]
    refine ⟨fun rows hrows ↦ ?_, ?_⟩
    · obtain ⟨v, -, hspec⟩ := hgroups.exists_left hrows
      exact hspec.2.1
    · refine hgroups.pairwise_right hpin.nodup fun v v' rows rows' hv hv' hne row hrow hrow' ↦ ?_
      have hsome := ((hv.2.2 row).mp hrow).2
      rw [((hv'.2.2 row).mp hrow').2, Option.some_inj] at hsome
      exact hne hsome.symm
  · obtain ⟨rows, hrows, hmem⟩ := List.mem_flatten.mp hrow
    obtain ⟨v, -, hspec⟩ := hgroups.exists_left hrows
    exact ((hspec.2.2 row).mp hmem).1
  · have heval := q.eval_of_matchesRow hq e he
    obtain ⟨w, hw⟩ := hpin.present row heval
    have hmem := hpin.complete row w hw (h.usable_indexable hindexed hcol hrow hw) heval
    obtain ⟨rows, hrows, hspec⟩ := hgroups.exists_right hmem
    exact List.mem_flatten.mpr ⟨rows, hrows, (hspec.2.2 row).mpr ⟨hrow, hw⟩⟩

omit [Unicode] in
theorem decodeBaseRows_spec (h : t.Indexed schema) (lo hi : Bound Bytes) :
    ∃ rows, t.decodeBaseRows schema lo hi = .ok (rows.map .ok) ∧
      t.RowsOfRange schema lo hi rows := by
  obtain ⟨kind, hkind⟩ := h.pkDeclared
  obtain ⟨c, hc, rfl⟩ := TableSchema.primaryKeyColumn_of_pkKind hkind
  obtain ⟨rows, hrows, hspec⟩ := decodeRange_spec h.rowsKeyed hkind lo hi
  refine ⟨rows, ?_, hspec⟩
  rw [decodeBaseRows, hc, Except.ok_bind, hrows]
  rfl

theorem candidates_pkRange (h : t.Indexed schema) {pk : ColumnSchema}
    (hpk : schema.primaryKeyColumn = .ok pk) {lo hi : Bound PropValue}
    (hr : rangeBounds (conjuncts q.filters) schema.primaryKey pk.kind = some (lo, hi)) :
    ∃ rows lo' hi', t.candidates schema (.pkRange lo hi) = .ok (rows.map .ok) ∧
      t.RowsOfRange schema lo' hi' rows ∧ t.Covers schema q rows := by
  obtain ⟨hcol, hkind⟩ := isSome_primaryKey hpk
  obtain ⟨hlo, hhi⟩ := rangeBounds_kind hr
  obtain ⟨lo', hlo'⟩ := lowerBoundBytes_isOk hlo
  obtain ⟨hi', hhi'⟩ := upperBoundBytes_isOk hhi
  obtain ⟨rows, hrows, hspec⟩ := decodeBaseRows_spec h lo' hi'
  refine ⟨rows, lo', hi', ?_, hspec, hspec.nodup, fun row hrow ↦ ((hspec.mem_iff row).mp hrow).1,
    fun row hrow hq ↦ ?_⟩
  · rw [candidates, hlo', Except.ok_bind, hhi', Except.ok_bind, hrows]
  · obtain ⟨w, hw, hl, hu⟩ := rangeBounds_inv hcol hr (q.eval_of_matchesRow hq)
    obtain ⟨hidx, -⟩ := hrow.indexable_pk
    rw [hidx, Option.some_inj] at hw
    subst hw
    obtain ⟨hof, k, hk, -⟩ := id hrow
    rw [hkind, Option.some_inj] at hof
    have habove := lowerBoundBytes_above (hof ▸ hlo) hlo' hk hl []
    have hbelow := upperBoundBytes_below (hof ▸ hhi) hhi' hk hu []
    rw [List.append_nil] at habove hbelow
    exact (hspec.mem_iff row).mpr ⟨hrow, k, hk, habove, hbelow⟩

theorem candidates_indexPrefix (h : t.Indexed schema) {e : Expr}
    (he : e ∈ conjuncts q.filters) {c p : String} (hpin : pinsPrefix schema e = some (c, p)) :
    ∃ rows, t.candidates schema (.indexPrefix c p) = .ok (rows.map .ok) ∧
      t.Covers schema q rows := by
  obtain ⟨rfl, hindexed, col, hcol, hstr⟩ := pinsPrefix_spec hpin
  obtain ⟨rows, hrows, hnodup, hsound, hcomplete⟩ :=
    indexLookupPrefixIn_spec h hindexed hcol hstr p
  refine ⟨rows, ?_, hnodup, hsound, fun row hrow hq ↦ ?_⟩
  · rw [candidates, hrows]
    rfl
  · obtain ⟨s, hs, hp⟩ :=
      (eval_startsWith (by rw [hcol]; rfl)).mp (q.eval_of_matchesRow hq _ he)
    exact hcomplete row s hrow hs hp

theorem candidates_indexRange (h : t.Indexed schema) {c : String} {col : ColumnSchema}
    (hindexed : c ∈ schema.indexedColumns) (hcol : schema.column c = some col)
    {lo hi : Bound PropValue} (hr : rangeBounds (conjuncts q.filters) c col.kind = some (lo, hi)) :
    ∃ rows, t.candidates schema (.indexRange c lo hi) = .ok (rows.map .ok) ∧
      t.Covers schema q rows := by
  obtain ⟨hlo, hhi⟩ := rangeBounds_kind hr
  obtain ⟨rows, hrows, hnodup, hsound, hcomplete⟩ :=
    indexLookupRangeIn_spec h hindexed hcol hlo hhi
  refine ⟨rows, ?_, hnodup, hsound, fun row hrow hq ↦ ?_⟩
  · rw [candidates, hrows]
    rfl
  · obtain ⟨w, hw, hl, hu⟩ := rangeBounds_inv (by rw [hcol]; rfl) hr (q.eval_of_matchesRow hq)
    exact hcomplete row w hrow hw hl hu

theorem candidates_scan (h : t.Indexed schema) :
    ∃ rows, t.candidates schema .scan = .ok (rows.map .ok) ∧
      t.RowsOfRange schema .unbounded .unbounded rows ∧ t.Covers schema q rows := by
  obtain ⟨rows, hrows, hspec⟩ := decodeBaseRows_spec h .unbounded .unbounded
  exact ⟨rows, hrows, hspec, hspec.nodup, fun row hrow ↦ (hspec.mem_unbounded row).mp hrow,
    fun row hrow _ ↦ (hspec.mem_unbounded row).mpr hrow⟩

omit [Unicode] in
theorem plan_isOk (h : t.Indexed schema) (filters : List Expr) :
    ∃ access, plan schema filters = .ok access := by
  obtain ⟨kind, hkind⟩ := h.pkDeclared
  obtain ⟨c, hc, rfl⟩ := TableSchema.primaryKeyColumn_of_pkKind hkind
  rw [plan, hc, Except.ok_bind]
  dsimp only
  repeat' split
  all_goals exact ⟨_, rfl⟩

/-- **Every access path covers the query.** -/
theorem candidates_covers (h : t.Indexed schema) {access : Access}
    (hplan : plan schema q.filters = .ok access) :
    ∃ rows, t.candidates schema access = .ok (rows.map .ok) ∧ t.Covers schema q rows := by
  obtain ⟨pk, hpk, hcases⟩ := plan_cases hplan
  obtain ⟨hcol, -⟩ := isSome_primaryKey hpk
  rcases hcases with ⟨e, he, pks, hpin, rfl⟩ | ⟨e, he, c, vs, hpin, rfl⟩ | ⟨lo, hi, hr, rfl⟩ |
    ⟨e, he, c, p, hpin, rfl⟩ | ⟨c, hc, col, lo, hi, hcol', hr, rfl⟩ | rfl
  · exact candidates_pkGet hpk he (pinsPk_spec hcol hpin)
  · obtain ⟨hindexed, col, hcol', hpins⟩ := pinsIndexed_spec hpin
    exact candidates_indexEq h hindexed hcol' he hpins
  · obtain ⟨rows, -, -, hrows, -, hcov⟩ := candidates_pkRange h hpk hr
    exact ⟨rows, hrows, hcov⟩
  · exact candidates_indexPrefix h he hpin
  · exact candidates_indexRange h hc hcol' hr
  · obtain ⟨rows, hrows, -, hcov⟩ := candidates_scan (q := q) h
    exact ⟨rows, hrows, hcov⟩

/-- Filtered, a covering list is the filtered scan up to order. -/
theorem Covers.perm_filter {rows scan : List Row} (hcov : t.Covers schema q rows)
    (hscan : t.RowsOfRange schema .unbounded .unbounded scan) :
    (rows.filter (q.matchesRow schema)).Perm (scan.filter (q.matchesRow schema)) := by
  rw [List.perm_ext_iff_of_nodup (hcov.nodup.filter _) (hscan.nodup.filter _)]
  intro row
  rw [List.mem_filter, List.mem_filter, hscan.mem_unbounded]
  exact ⟨fun ⟨hmem, hq⟩ ↦ ⟨hcov.sound row hmem, hq⟩, fun ⟨hrow, hq⟩ ↦
    ⟨hcov.complete row hrow hq, hq⟩⟩

end TableStore
