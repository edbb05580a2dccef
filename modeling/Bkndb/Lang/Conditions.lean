import Bkndb.Lang.Like
import Bkndb.Lang.MatchCond

/-!
# Conditions of the two languages

The conditions that SQL and graph queries share: comparisons, lists, null tests, patterns and
containment of a property, and their combinations. SQL evaluates one on a row whose columns hold the
values; a graph query tests it on a node whose properties do.

## What a condition says

`Condition.holds` reads a condition as the notes on null in the relational module do: comparing a
missing or null value is false, and a negation negates all of what it stands before. SQL computes
just this (`exists_bindExpr`).

## Where the languages part

A graph query reads two parts otherwise (`trips`): it takes `<>` for true when the property is
missing or null and the value is not, and a negated `LIKE` for false when the property is not a
string. What becomes of this in the whole condition is told by `tips`, from the parts outwards. A
`NOT` passes the difference on. An `AND` that holds is tipped by any of its parts; one that does not
hold is tipped only when all of the parts that fail are, and none of the others. For `OR` it is the
other way round.

The truth value of a graph query is that of the condition, turned round where the condition is tipped
(`test_eq`), so the languages agree on exactly the conditions that are not (`conditions_agree_iff`).
-/

/-! ## Shared conditions -/

/-- A reference to a property, or to a value inside one. -/
structure PropRef where
  property : String
  keys : List String := []

namespace PropRef

/-- As SQL writes it. -/
def column (p : PropRef) : String := ".".intercalate (p.property :: p.keys)

/-- The value among given properties. -/
def read (p : PropRef) (props : Properties) : Option PropValue :=
  (props.get? p.property).bind (·.getPath p.keys)

end PropRef

/-- A condition on the properties of one row or node. -/
inductive Condition where
  | cmp (p : PropRef) (op : CmpOp) (v : Operand)
  | in (p : PropRef) (values : List Operand) (negated : Bool)
  | isNull (p : PropRef) (negated : Bool)
  | like (p : PropRef) (pattern : Operand) (caseInsensitive negated : Bool)
  | contains (p : PropRef) (v : Operand)
  | and (parts : List Condition)
  | or (parts : List Condition)
  | not (inner : Condition)

namespace Condition

mutual

/-- The condition as SQL. -/
def sql : Condition → Cond
  | cmp p op v => .cmp p.column op v
  | .in p values negated => .in p.column values negated
  | isNull p negated => .isNull p.column negated
  | like p pattern ci negated => .like p.column pattern ci negated
  | contains p v => .contains p.column v
  | and parts => .and (sqlAll parts)
  | or parts => .or (sqlAll parts)
  | not inner => .not (sql inner)

def sqlAll : List Condition → List Cond
  | [] => []
  | c :: parts => sql c :: sqlAll parts

end

mutual

/-- The condition on a variable of a graph query. -/
def graph (x : String) : Condition → GCond
  | cmp p op v => .cmp (.prop x (p.property :: p.keys)) op (.value v)
  | .in p values negated =>
    .in (.prop x (p.property :: p.keys)) (.value (.list values)) negated
  | isNull p negated => .isNull (.prop x (p.property :: p.keys)) negated
  | like p pattern ci negated =>
    .like (.prop x (p.property :: p.keys)) (.value pattern) ci negated
  | contains p v => .contains (.prop x (p.property :: p.keys)) (.value v)
  | and parts => .and (graphAll x parts)
  | or parts => .or (graphAll x parts)
  | not inner => .not (graph x inner)

def graphAll (x : String) : List Condition → List GCond
  | [] => []
  | c :: parts => graph x c :: graphAll x parts

end

mutual

/-- The condition and all of its parts. -/
def subs : Condition → List Condition
  | and parts => and parts :: subsAll parts
  | or parts => or parts :: subsAll parts
  | not inner => not inner :: subs inner
  | c => [c]

def subsAll : List Condition → List Condition
  | [] => []
  | c :: parts => subs c ++ subsAll parts

end

/-- The reference a part reads itself. -/
def ref : Condition → Option PropRef
  | cmp p _ _ | .in p _ _ | isNull p _ | like p _ _ _ | contains p _ => some p
  | and _ | or _ | not _ => none

/-- The values of a part have their parameters, and its pattern is a string. -/
def Binds (params : Params) : Condition → Prop
  | cmp _ _ v | contains _ v => ∃ w, v.bind params = .ok w
  | .in _ values _ => ∃ ws, Operand.bindAll params values = .ok ws
  | like _ pattern _ _ => ∃ s, pattern.bind params = .ok (.str s)
  | isNull _ _ | and _ | or _ | not _ => True

/-- The row has the values of the properties, as far as the condition reads them. -/
def SameValues (schema : TableSchema) (row : Row) (props : Properties) (c : Condition) : Prop :=
  ∀ c' ∈ c.subs, ∀ p, c'.ref = some p → resolve schema row p.column = p.read props

theorem mem_subs_self (c : Condition) : c ∈ c.subs := by
  cases c <;> simp [subs]

theorem mem_subsAll {c : Condition} {parts : List Condition} :
    c ∈ subsAll parts ↔ ∃ p ∈ parts, c ∈ p.subs := by
  induction parts with
  | nil => simp [subsAll]
  | cons p parts ih => simp [subsAll, ih]

/-! ## What a condition says -/

/-- A comparison of a value that may be missing; `= NULL` and `<> NULL` are null tests. -/
def cmpHolds (op : CmpOp) (o : Option PropValue) (w : PropValue) : Bool :=
  if w.isNull then
    match op with
    | .eq => o.isNone
    | .ne => o.isSome
    | _ => false
  else (o.bind (·.compareValues w)).any op.holds

variable [Unicode]

/-- A pattern, of a string only. -/
def likeHolds (o : Option PropValue) (pattern : PropValue) (caseInsensitive : Bool) : Bool :=
  match o, pattern with
  | some (.str s), .str p => likeMatches s p caseInsensitive
  | _, _ => false

mutual

/-- Whether a condition holds of properties. Null values are missing ones. -/
def holds (params : Params) (props : Properties) : Condition → Bool
  | cmp p op v => (v.bind params).toOption.any (cmpHolds op (nonNull (p.read props)))
  | .in p values negated =>
    (nonNull (p.read props)).any (fun v ↦ (Operand.bindAll params values).toOption.any
      (·.any fun w ↦ v.compareValues w == some .eq)) != negated
  | isNull p negated => (nonNull (p.read props)).isNone != negated
  | like p pattern ci negated =>
    (pattern.bind params).toOption.any (likeHolds (nonNull (p.read props)) · ci) != negated
  | contains p v =>
    (nonNull (p.read props)).any fun u ↦ (v.bind params).toOption.any (Match.Exec.testContains u)
  | and parts => holdsAll params props parts
  | or parts => holdsAny params props parts
  | not inner => !holds params props inner

def holdsAll (params : Params) (props : Properties) : List Condition → Bool
  | [] => true
  | c :: parts => holds params props c && holdsAll params props parts

def holdsAny (params : Params) (props : Properties) : List Condition → Bool
  | [] => false
  | c :: parts => holds params props c || holdsAny params props parts

end

/-! ## Where the languages part -/

omit [Unicode] in
/-- A part that the two languages read differently: a property that is missing or null against `<>`
with a value, and one that is not a string against a negated pattern. -/
def trips (params : Params) (props : Properties) : Condition → Bool
  | cmp p .ne v =>
    (nonNull (p.read props)).isNone && (v.bind params).toOption.any fun w ↦ !w.isNull
  | like p _ _ true =>
    match p.read props with
    | some (.str _) => false
    | _ => true
  | _ => false

mutual

/-- Whether the parts that trip decide the condition: those of a part reach the whole unless another
part settles it. -/
def tips (params : Params) (props : Properties) : Condition → Bool
  | and parts =>
    if holdsAll params props parts then tipsSome params props parts
    else tipsAll params props false parts
  | or parts =>
    if holdsAny params props parts then tipsAll params props true parts
    else tipsSome params props parts
  | not inner => tips params props inner
  | c => trips params props c

/-- Some part is tipped. -/
def tipsSome (params : Params) (props : Properties) : List Condition → Bool
  | [] => false
  | c :: parts => tips params props c || tipsSome params props parts

/-- The parts with the value are tipped, and no others. -/
def tipsAll (params : Params) (props : Properties) (value : Bool) : List Condition → Bool
  | [] => true
  | c :: parts =>
    (tips params props c == (holds params props c == value)) && tipsAll params props value parts

end

/-- SQL on a row and the graph query on a binding give the condition one truth value. -/
def Agrees (schema : TableSchema) (row : Row) (ex : Match.Exec) (b : Match.Binding)
    (x : String) (c : Condition) : Prop :=
  (bindExpr ex.params c.sql).map (Expr.eval schema row) = ex.test b (c.graph x)

/-! ## One part -/

omit [Unicode] in
/-- A value is missing or null, or else it is there. -/
theorem nonNull_getD (o : Option PropValue) :
    (nonNull o = none ∧ o.getD .null = .null) ∨
      ∃ v, nonNull o = some v ∧ o = some v ∧ v.isNull = false := by
  rcases o with _ | v
  · exact .inl ⟨rfl, rfl⟩
  · cases v with
    | null => exact .inl ⟨rfl, rfl⟩
    | _ => exact .inr ⟨_, rfl, rfl, rfl⟩

section Parts

variable {schema : TableSchema} {row : Row} {ex : Match.Exec} {b : Match.Binding} {x : String}
  {props : Properties} {p : PropRef}

omit [Unicode] in
/-- The value of a property of the variable. -/
theorem eval_prop (hx : ex.propsOf b x = some props) (p : PropRef) :
    ex.eval b (.prop x (p.property :: p.keys)) = .ok ((p.read props).getD .null) := by
  have heval : ex.eval b (.prop x (p.property :: p.keys)) =
      .ok (((props.get? p.property).bind (·.getPath p.keys)).getD .null) := by
    simp only [Match.Exec.eval, hx]
  exact heval

theorem eval_cmp (hrow : resolve schema row p.column = p.read props) (op : CmpOp) (w : PropValue) :
    (Expr.cmp p.column op w).eval schema row = cmpHolds op (nonNull (p.read props)) w := by
  have heval : (Expr.cmp p.column op w).eval schema row =
      cmpHolds op (nonNull (resolve schema row p.column)) w := rfl
  rw [heval, hrow]

theorem eval_in (hrow : resolve schema row p.column = p.read props) (ws : List PropValue) :
    (Expr.in p.column ws).eval schema row = (nonNull (p.read props)).any fun v ↦
      ws.any fun w ↦ v.compareValues w == some .eq := by
  rw [Expr.eval, hrow]

theorem eval_contains (hrow : resolve schema row p.column = p.read props) (w : PropValue) :
    (Expr.contains p.column w).eval schema row =
      (nonNull (p.read props)).any (Match.Exec.testContains · w) := by
  unfold Expr.eval
  rw [hrow]
  rcases nonNull_getD (p.read props) with ⟨hnone, -⟩ | ⟨v, hsome, -, -⟩
  · rw [hnone]
    rfl
  · rw [hsome]
    cases v <;> cases w <;> rfl

theorem eval_like (hrow : resolve schema row p.column = p.read props) (pattern : String)
    (ci : Bool) : (Expr.like p.column pattern ci).eval schema row =
      likeHolds (nonNull (p.read props)) (.str pattern) ci := by
  rw [Expr.eval, hrow]
  rcases nonNull_getD (p.read props) with ⟨hnone, -⟩ | ⟨v, hsome, -, -⟩
  · rw [hnone]
    rfl
  · rw [hsome]
    cases v <;> rfl

omit [Unicode] in
theorem xor_comm_ne (negated value : Bool) : (negated ^^ value) = (value != negated) := by
  cases negated <;> cases value <;> rfl

/-- **SQL on one part** is what the part says. -/
theorem exists_bindExpr_part {c : Condition} (href : c.ref = some p)
    (hrow : resolve schema row p.column = p.read props) {params : Params} (hbind : c.Binds params) :
    ∃ e, bindExpr params c.sql = .ok e ∧ e.eval schema row = c.holds params props := by
  cases c with
  | and | or | not => exact absurd href (by simp [ref])
  | cmp p' op o =>
    obtain rfl : p' = p := Option.some.inj href
    obtain ⟨w, ho⟩ := hbind
    refine ⟨.cmp p'.column op w, by rw [sql, bindExpr, ho]; rfl, ?_⟩
    rw [eval_cmp hrow, holds, ho]
    rfl
  | «in» p' os negated =>
    obtain rfl : p' = p := Option.some.inj href
    obtain ⟨ws, ho⟩ := hbind
    refine ⟨(Expr.in p'.column ws).negate negated, by rw [sql, bindExpr, ho]; rfl, ?_⟩
    rw [eval_negate, eval_in hrow, holds, ho, xor_comm_ne]
    rfl
  | isNull p' negated =>
    obtain rfl : p' = p := Option.some.inj href
    refine ⟨if negated then .isNotNull p'.column else .isNull p'.column, by rw [sql, bindExpr]; rfl, ?_⟩
    cases negated <;> simp [holds, Expr.eval, hrow]
  | contains p' o =>
    obtain rfl : p' = p := Option.some.inj href
    obtain ⟨w, ho⟩ := hbind
    refine ⟨.contains p'.column w, by rw [sql, bindExpr, ho]; rfl, ?_⟩
    rw [eval_contains hrow, holds, ho]
    rfl
  | like p' o ci negated =>
    obtain rfl : p' = p := Option.some.inj href
    obtain ⟨s, ho⟩ := hbind
    refine ⟨(likeExpr p'.column s ci).negate negated,
      by rw [sql, bindExpr, likePattern, ho]; rfl, ?_⟩
    rw [eval_negate, eval_likeExpr, eval_like hrow, holds, ho, xor_comm_ne]
    rfl

omit [Unicode] in
theorem testCmp_eq_xor (op : CmpOp) (o : Option PropValue) (w : PropValue) :
    Match.Exec.testCmp op (o.getD .null) w =
      (cmpHolds op (nonNull o) w != (decide (op = .ne) && ((nonNull o).isNone && !w.isNull))) := by
  unfold Match.Exec.testCmp cmpHolds
  rcases nonNull_getD o with ⟨hnone, hnull⟩ | ⟨v, hsome, hread, hv⟩
  · rw [hnone, hnull]
    cases op <;> cases w.isNull <;> rfl
  · rw [hsome, hread, Option.getD_some, hv]
    cases op <;> cases w.isNull <;> simp

theorem test_like_eq_xor (o : Option PropValue) (pattern : String) (ci negated : Bool) :
    (match Match.Exec.strPair (o.getD .null) (.str pattern) with
      | some (s, p) => likeMatches s p ci != negated
      | none => false) =
      ((likeHolds (nonNull o) (.str pattern) ci != negated) !=
        (negated && match o with
          | some (.str _) => false
          | _ => true)) := by
  rcases nonNull_getD o with ⟨hnone, hnull⟩ | ⟨v, hsome, hread, hv⟩
  · rw [hnone, hnull]
    rcases o with _ | v
    · cases negated <;> rfl
    · cases v with
      | null => cases negated <;> rfl
      | _ => cases hnone
  · rw [hsome, hread, Option.getD_some]
    cases v <;> cases negated <;> simp [Match.Exec.strPair, likeHolds]

/-- **A graph query on one part** is what the part says, turned round where it trips. -/
theorem test_part {c : Condition} (hx : ex.propsOf b x = some props) (href : c.ref = some p)
    (hbind : c.Binds ex.params) :
    ex.test b (c.graph x) = .ok (c.holds ex.params props != c.trips ex.params props) := by
  cases c with
  | and | or | not => exact absurd href (by simp [ref])
  | cmp p' op o =>
    obtain ⟨w, ho⟩ := hbind
    rw [graph, Match.Exec.test, eval_prop hx, Match.Exec.eval, ho, holds, ho]
    simp only [Except.ok_bind, testCmp_eq_xor]
    cases op <;> simp [trips, ho, Except.toOption] <;> rfl
  | «in» p' os negated =>
    obtain ⟨ws, ho⟩ := hbind
    rw [graph, Match.Exec.test, eval_prop hx, Match.Exec.eval, Operand.bind, ho, holds, ho]
    refine congrArg Except.ok ?_
    rcases nonNull_getD (p'.read props) with ⟨hnone, hnull⟩ | ⟨v, hsome, hread, hv⟩
    · rw [hnone, hnull]
      cases negated <;> rfl
    · rw [hsome, hread, Option.getD_some, hv]
      cases negated <;> simp [Except.toOption, trips]
  | isNull p' negated =>
    rw [graph, Match.Exec.test, eval_prop hx, holds]
    refine congrArg Except.ok ?_
    rcases nonNull_getD (p'.read props) with ⟨hnone, hnull⟩ | ⟨v, hsome, hread, hv⟩
    · rw [hnone, hnull]
      cases negated <;> rfl
    · rw [hsome, hread, Option.getD_some, hv]
      cases negated <;> rfl
  | contains p' o =>
    obtain ⟨w, ho⟩ := hbind
    rw [graph, Match.Exec.test, eval_prop hx, Match.Exec.eval, ho, holds, ho]
    refine congrArg Except.ok ?_
    rcases nonNull_getD (p'.read props) with ⟨hnone, hnull⟩ | ⟨v, hsome, hread, hv⟩
    · rw [hnone, hnull]
      rfl
    · rw [hsome, hread, Option.getD_some]
      simp [Except.toOption, trips]
  | like p' o ci negated =>
    obtain ⟨s, ho⟩ := hbind
    have htrips : (like p' o ci negated).trips ex.params props =
        (negated && match p'.read props with
          | some (.str _) => false
          | _ => true) := by
      cases negated <;> rfl
    have hxor := test_like_eq_xor (p'.read props) s ci negated
    rw [← htrips] at hxor
    rw [graph, Match.Exec.test, eval_prop hx, Match.Exec.eval, ho, holds, ho]
    refine Eq.trans ?_ (congrArg Except.ok hxor)
    simp only [Except.ok_bind]
    cases Match.Exec.strPair ((p'.read props).getD .null) (.str s) <;> rfl

end Parts

/-! ## Combinations -/

omit [Unicode] in
/-- Induction over conditions: the parts that read a property, then the connectives. -/
theorem induct {P : Condition → Prop} (part : ∀ c p, ref c = some p → P c)
    (conj : ∀ parts, (∀ c ∈ parts, P c) → P (and parts))
    (disj : ∀ parts, (∀ c ∈ parts, P c) → P (or parts))
    (neg : ∀ inner, P inner → P (not inner)) (c : Condition) : P c :=
  match c with
  | cmp p _ _ | .in p _ _ | isNull p _ | like p _ _ _ | contains p _ => part _ p rfl
  | and parts => conj parts fun c _ ↦ induct part conj disj neg c
  | or parts => disj parts fun c _ ↦ induct part conj disj neg c
  | not inner => neg inner (induct part conj disj neg inner)
termination_by c
decreasing_by
  · have := List.sizeOf_lt_of_mem ‹c ∈ parts›
    simp only [and.sizeOf_spec]
    omega
  · have := List.sizeOf_lt_of_mem ‹c ∈ parts›
    simp only [or.sizeOf_spec]
    omega
  · simp

variable {schema : TableSchema} {row : Row} {ex : Match.Exec} {b : Match.Binding} {x : String}
  {props : Properties}

theorem holdsAll_eq_all (params : Params) (props : Properties) (parts : List Condition) :
    holdsAll params props parts = parts.all (holds params props) := by
  induction parts with
  | nil => rfl
  | cons c parts ih => rw [holdsAll, ih, List.all_cons]

theorem holdsAny_eq_any (params : Params) (props : Properties) (parts : List Condition) :
    holdsAny params props parts = parts.any (holds params props) := by
  induction parts with
  | nil => rfl
  | cons c parts ih => rw [holdsAny, ih, List.any_cons]

theorem tipsSome_eq_any (params : Params) (props : Properties) (parts : List Condition) :
    tipsSome params props parts = parts.any (tips params props) := by
  induction parts with
  | nil => rfl
  | cons c parts ih => rw [tipsSome, ih, List.any_cons]

theorem tipsAll_eq_all (params : Params) (props : Properties) (value : Bool)
    (parts : List Condition) : tipsAll params props value parts =
      parts.all fun c ↦ tips params props c == (holds params props c == value) := by
  induction parts with
  | nil => rfl
  | cons c parts ih => rw [tipsAll, ih, List.all_cons]

/-- An `AND` of parts that are turned round where they are tipped. -/
theorem all_xor_tips (params : Params) (props : Properties) (parts : List Condition) :
    parts.all (fun c ↦ c.holds params props != c.tips params props) =
      ((and parts).holds params props != (and parts).tips params props) := by
  rw [holds, tips, tipsSome_eq_any, tipsAll_eq_all, holdsAll_eq_all]
  cases hall : parts.all (holds params props)
  · rw [if_neg Bool.false_ne_true, Bool.false_bne]
    congr 1
    funext c
    cases c.holds params props <;> cases c.tips params props <;> rfl
  · rw [if_pos rfl, Bool.true_bne, List.not_any_eq_all_not]
    rw [List.all_eq_true] at hall
    rw [Bool.eq_iff_iff, List.all_eq_true, List.all_eq_true]
    exact forall₂_congr fun c hc ↦ by rw [hall c hc, Bool.true_bne]

/-- An `OR` of them. -/
theorem any_xor_tips (params : Params) (props : Properties) (parts : List Condition) :
    parts.any (fun c ↦ c.holds params props != c.tips params props) =
      ((or parts).holds params props != (or parts).tips params props) := by
  rw [holds, tips, tipsSome_eq_any, tipsAll_eq_all, holdsAny_eq_any]
  cases hany : parts.any (holds params props)
  · rw [if_neg Bool.false_ne_true, Bool.false_bne]
    rw [List.any_eq_false] at hany
    rw [Bool.eq_iff_iff, List.any_eq_true, List.any_eq_true]
    refine exists_congr fun c ↦ and_congr_right fun hc ↦ ?_
    rw [Bool.eq_false_of_not_eq_true (hany c hc), Bool.false_bne]
  · rw [if_pos rfl, Bool.true_bne, List.not_all_eq_any_not]
    congr 1
    funext c
    cases c.holds params props <;> cases c.tips params props <;> rfl

/-! ## SQL -/

/-- The expressions of several conditions. -/
theorem exists_bindExprs {params : Params} {parts : List Condition}
    (h : ∀ c ∈ parts, ∃ e, bindExpr params c.sql = .ok e ∧
      e.eval schema row = c.holds params props) :
    ∃ es, bindExprs params (sqlAll parts) = .ok es ∧
      Expr.evalAll schema row es = holdsAll params props parts ∧
      Expr.evalAny schema row es = holdsAny params props parts := by
  induction parts with
  | nil => exact ⟨[], rfl, rfl, rfl⟩
  | cons c parts ih =>
    obtain ⟨e, he, heval⟩ := h c List.mem_cons_self
    obtain ⟨es, hes, hall, hany⟩ := ih fun c hc ↦ h c (List.mem_cons_of_mem _ hc)
    refine ⟨e :: es, by rw [sqlAll, bindExprs, he, hes]; rfl, ?_, ?_⟩
    · rw [Expr.evalAll, holdsAll, heval, hall]
    · rw [Expr.evalAny, holdsAny, heval, hany]

/-- **SQL computes what a condition says.** -/
theorem exists_bindExpr {params : Params} (c : Condition)
    (hrow : c.SameValues schema row props) (hbind : ∀ c' ∈ c.subs, c'.Binds params) :
    ∃ e, bindExpr params c.sql = .ok e ∧ e.eval schema row = c.holds params props := by
  induction c using induct with
  | part c p hc =>
    exact exists_bindExpr_part hc (hrow c c.mem_subs_self p hc) (hbind c c.mem_subs_self)
  | conj parts ih =>
    have hmem : ∀ c ∈ parts, ∀ c' ∈ c.subs, c' ∈ (and parts).subs := fun c hc c' hc' ↦
      List.mem_cons_of_mem _ (mem_subsAll.mpr ⟨c, hc, hc'⟩)
    obtain ⟨es, hes, hall, -⟩ := exists_bindExprs fun c hc ↦ ih c hc
      (fun c' h ↦ hrow c' (hmem c hc c' h)) fun c' h ↦ hbind c' (hmem c hc c' h)
    refine ⟨.and es, by rw [sql, bindExpr, hes]; rfl, ?_⟩
    rw [holds, ← hall]
    exact Expr.eval.eq_def ..
  | disj parts ih =>
    have hmem : ∀ c ∈ parts, ∀ c' ∈ c.subs, c' ∈ (or parts).subs := fun c hc c' hc' ↦
      List.mem_cons_of_mem _ (mem_subsAll.mpr ⟨c, hc, hc'⟩)
    obtain ⟨es, hes, -, hany⟩ := exists_bindExprs fun c hc ↦ ih c hc
      (fun c' h ↦ hrow c' (hmem c hc c' h)) fun c' h ↦ hbind c' (hmem c hc c' h)
    refine ⟨.or es, by rw [sql, bindExpr, hes]; rfl, ?_⟩
    rw [holds, ← hany]
    exact Expr.eval.eq_def ..
  | neg inner ih =>
    obtain ⟨e, he, heval⟩ := ih (fun c' h ↦ hrow c' (List.mem_cons_of_mem _ h))
      fun c' h ↦ hbind c' (List.mem_cons_of_mem _ h)
    refine ⟨.not e, by rw [sql, bindExpr, he]; rfl, ?_⟩
    rw [holds, ← heval]
    exact Expr.eval.eq_def ..

/-! ## Graph queries -/

/-- A graph query stops at the first part that does not hold. -/
theorem testAll_eq {f : Condition → Bool} {parts : List Condition}
    (h : ∀ c ∈ parts, ex.test b (c.graph x) = .ok (f c)) :
    ex.testAll b (graphAll x parts) = .ok (parts.all f) := by
  induction parts with
  | nil => rfl
  | cons c parts ih =>
    rw [graphAll, Match.Exec.testAll, h c List.mem_cons_self,
      ih fun c hc ↦ h c (List.mem_cons_of_mem _ hc), List.all_cons]
    cases f c <;> rfl

/-- And at the first that does. -/
theorem testAny_eq {f : Condition → Bool} {parts : List Condition}
    (h : ∀ c ∈ parts, ex.test b (c.graph x) = .ok (f c)) :
    ex.testAny b (graphAll x parts) = .ok (parts.any f) := by
  induction parts with
  | nil => rfl
  | cons c parts ih =>
    rw [graphAll, Match.Exec.testAny, h c List.mem_cons_self,
      ih fun c hc ↦ h c (List.mem_cons_of_mem _ hc), List.any_cons]
    cases f c <;> rfl

/-- **A graph query computes what a condition says, turned round where it is tipped.** -/
theorem test_eq (hx : ex.propsOf b x = some props) (c : Condition)
    (hbind : ∀ c' ∈ c.subs, c'.Binds ex.params) :
    ex.test b (c.graph x) = .ok (c.holds ex.params props != c.tips ex.params props) := by
  induction c using induct with
  | part c p hc =>
    have htips : c.tips ex.params props = c.trips ex.params props := by
      cases c with
      | and | or | not => exact absurd hc (by simp [ref])
      | _ => rfl
    rw [htips]
    exact test_part hx hc (hbind c c.mem_subs_self)
  | conj parts ih =>
    rw [graph, Match.Exec.test, testAll_eq fun c hc ↦ ih c hc fun c' h ↦
      hbind c' (List.mem_cons_of_mem _ (mem_subsAll.mpr ⟨c, hc, h⟩)), all_xor_tips]
  | disj parts ih =>
    rw [graph, Match.Exec.test, testAny_eq fun c hc ↦ ih c hc fun c' h ↦
      hbind c' (List.mem_cons_of_mem _ (mem_subsAll.mpr ⟨c, hc, h⟩)), any_xor_tips]
  | neg inner ih =>
    rw [graph, Match.Exec.test, ih fun c' h ↦ hbind c' (List.mem_cons_of_mem _ h), holds, tips]
    refine congrArg Except.ok ?_
    cases inner.holds ex.params props <;> cases inner.tips ex.params props <;> rfl

/-- **Where no part trips, nothing is tipped.** -/
theorem tips_eq_false {params : Params} (c : Condition)
    (h : ∀ c' ∈ c.subs, c'.trips params props = false) : c.tips params props = false := by
  have hnone : ∀ parts : List Condition, (∀ c ∈ parts, c.tips params props = false) →
      tipsSome params props parts = false := fun parts h ↦ by
    rw [tipsSome_eq_any, List.any_eq_false]
    exact fun c hc ↦ by simp [h c hc]
  induction c using induct with
  | part c p hc =>
    have hself := h c c.mem_subs_self
    cases c with
    | and | or | not => exact absurd hc (by simp [ref])
    | _ => exact hself
  | conj parts ih =>
    have hparts : ∀ c ∈ parts, c.tips params props = false := fun c hc ↦
      ih c hc fun c' h' ↦ h c' (List.mem_cons_of_mem _ (mem_subsAll.mpr ⟨c, hc, h'⟩))
    rw [tips]
    split
    · exact hnone parts hparts
    · -- some part fails, and is not tipped
      rename_i hfails
      rw [holdsAll_eq_all, List.all_eq_true, not_forall] at hfails
      obtain ⟨c, hfails⟩ := hfails
      obtain ⟨hc, hfalse⟩ := Classical.not_imp.mp hfails
      rw [tipsAll_eq_all, List.all_eq_false]
      refine ⟨c, hc, ?_⟩
      rw [hparts c hc, Bool.eq_false_of_not_eq_true hfalse]
      decide
  | disj parts ih =>
    have hparts : ∀ c ∈ parts, c.tips params props = false := fun c hc ↦
      ih c hc fun c' h' ↦ h c' (List.mem_cons_of_mem _ (mem_subsAll.mpr ⟨c, hc, h'⟩))
    rw [tips]
    split
    · rename_i hholds
      rw [holdsAny_eq_any, List.any_eq_true] at hholds
      obtain ⟨c, hc, htrue⟩ := hholds
      rw [tipsAll_eq_all, List.all_eq_false]
      refine ⟨c, hc, ?_⟩
      rw [hparts c hc, htrue]
      decide
    · exact hnone parts hparts
  | neg inner ih => exact ih fun c' h' ↦ h c' (List.mem_cons_of_mem _ h')

end Condition

/-- **The two languages on a condition.** For a row with the values of a node's properties, SQL and
the graph query give a condition one truth value if and only if the condition is not tipped: what
becomes of a missing or null property compared by `<>` with a value, and of one that is not a string
against a negated pattern, is settled by the other parts. -/
theorem Match.Exec.conditions_agree_iff [Unicode] (ex : Match.Exec) (b : Match.Binding) (x : String)
    (n : NodeId) (rec : NodeRecord) (schema : TableSchema) (row : Row) (c : Condition)
    (hx : b.get? x = some (.node n)) (hn : ex.store.getNodeIn n = some rec)
    (hrow : c.SameValues schema row rec.properties)
    (hbind : ∀ c' ∈ c.subs, c'.Binds ex.params) :
    c.Agrees schema row ex b x ↔ c.tips ex.params rec.properties = false := by
  have hprops : ex.propsOf b x = some rec.properties := by
    simp only [propsOf, hx, hn, Option.map_some]
  obtain ⟨e, he, heval⟩ := Condition.exists_bindExpr c hrow hbind
  rw [Condition.Agrees, he, Condition.test_eq hprops c hbind, Except.map, heval, Except.ok.injEq]
  cases c.holds ex.params rec.properties <;> cases c.tips ex.params rec.properties <;> decide

/-! ## One node and one row -/

namespace Condition

/-- A query over one node with given properties, bound to `n`. -/
private def oneNode (props : Properties) : Match.Exec where
  store := { nodes := OrdMap.insert ∅ (Graph.nodeKey ⟨1⟩) ⟨"Point", props⟩ }
  q := ⟨[], [], none⟩

private def boundNode : Match.Binding := OrdMap.insert ∅ "n" (.node ⟨1⟩)

/-- **The languages differ.** On a node and a row without `x`, the graph query finds that `x <> 5`
holds and that `x NOT LIKE 'a%'` does not; SQL finds the opposite. -/
theorem languages_differ :
    SameValues (pointsSchema []) ⟨.int 1, ∅⟩ ∅ (cmp ⟨"x", []⟩ .ne (.lit (.int 5))) ∧
      ¬@Agrees Unicode.ascii (pointsSchema []) ⟨.int 1, ∅⟩ (oneNode ∅) boundNode "n"
        (cmp ⟨"x", []⟩ .ne (.lit (.int 5))) ∧
      SameValues (pointsSchema []) ⟨.int 1, ∅⟩ ∅ (like ⟨"x", []⟩ (.lit (.str "a%")) false true) ∧
      ¬@Agrees Unicode.ascii (pointsSchema []) ⟨.int 1, ∅⟩ (oneNode ∅) boundNode "n"
        (like ⟨"x", []⟩ (.lit (.str "a%")) false true) := by
  have hrow : resolve (pointsSchema []) ⟨.int 1, ∅⟩ (PropRef.column ⟨"x", []⟩) =
      PropRef.read ⟨"x", []⟩ ∅ := rfl
  refine ⟨?_, fun h ↦ ?_, ?_, fun h ↦ ?_⟩
  · rintro c' hc' p hp
    obtain rfl := List.mem_singleton.mp hc'
    obtain rfl := Option.some.inj hp
    exact hrow
  · have hne : (.ok false : Except BknError Bool) = .ok true := h
    cases hne
  · rintro c' hc' p hp
    obtain rfl := List.mem_singleton.mp hc'
    obtain rfl := Option.some.inj hp
    exact hrow
  · have hne : (.ok true : Except BknError Bool) = .ok false := h
    cases hne

/-- A node and a row without `x`: the part `x <> 5` trips, and `x IS NULL` settles the whole. -/
theorem conditions_agree_point :
    @Agrees Unicode.ascii (pointsSchema []) ⟨.int 1, ∅⟩ (oneNode ∅) boundNode "n"
      (or [isNull ⟨"x", []⟩ false, cmp ⟨"x", []⟩ .ne (.lit (.int 5))]) := by
  refine (@Match.Exec.conditions_agree_iff Unicode.ascii _ _ _ ⟨1⟩ ⟨"Point", ∅⟩ _ _ _ rfl rfl
    ?_ ?_).mpr rfl
  · have hrow : resolve (pointsSchema []) ⟨.int 1, ∅⟩ (PropRef.column ⟨"x", []⟩) =
        PropRef.read ⟨"x", []⟩ ∅ := rfl
    simpa [SameValues, subs, subsAll, ref] using hrow
  · simp [subs, subsAll, Binds, Operand.bind]

end Condition
