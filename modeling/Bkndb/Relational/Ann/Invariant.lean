import Bkndb.Relational.Ann.Graph

/-!
# The invariant of a vector index

What the graph operations of `Bkndb.Relational.Ann.Graph` keep: primary keys and nodes correspond,
the entry point is a live node of the top level, and every link record belongs to a live node
that reaches its layer and names each neighbour once. Search, selection and shrinking are
described by what their results can contain; insertion and removal are then loops over
single link updates.

## What is asked of links

A link record has a live owner, and names ids that were handed out before, each once and not the
owner itself. It may name nodes that are gone: they are passed over by a search and dropped when
the record is shrunk. Those that are live reach the layer of the record, so a search never leaves
it.

## Main results

* `add_spec`: insertion keeps the invariant and adds the primary key exactly when the vector is one
  that gets indexed.
* `remove_spec`: removal keeps it and takes exactly the primary key out.
* `onChange_spec`: so an index follows the rows.
* `search_isOk` and `onChange_error`: the entry point is never lost, so nothing fails but on an
  overflow or on a vector of another dimension.
-/

namespace Ann

variable {D : Type} [LinearOrder D] (g : Geometry D)

/-! ## Stored nodes -/

theorem ofLeBytes_leBytes (x : F32) : ofLeBytes (leBytes x) = x := by
  have hlt : x.bits.toNat < 256 ^ 4 := x.bits.isLt
  rw [ofLeBytes, leBytes, List.reverse_reverse, Bytes.ofBe_be_of_lt hlt]
  exact congrArg IeeeFloat.mk (BitVec.ofNat_toNat _ _ |>.trans (BitVec.setWidth_eq _))

theorem chunks4_append {b : Bytes} (hb : b.length = 4) (rest : Bytes) :
    chunks4 (b ++ rest) = b :: chunks4 rest := by
  match b, hb with
  | [_, _, _, _], _ => rfl

theorem map_chunks4_flatMap (v : List F32) :
    (chunks4 (v.flatMap leBytes)).map ofLeBytes = v := by
  induction v with
  | nil => rfl
  | cons x v ih =>
    rw [List.flatMap_cons, chunks4_append (by simp [leBytes]), List.map_cons, ofLeBytes_leBytes, ih]

/-- **A stored node reads back**, as long as its primary key's length fits its `u32` field. -/
theorem decodeNode_encodeNode {n : Node} (hlevel : n.level < 256) (hpk : n.pk.length < 2 ^ 32) :
    decodeNode (encodeNode n) = .ok n := by
  obtain ⟨a, b, c, d, hlen⟩ : ∃ a b c d, Bytes.be 4 n.pk.length = [a, b, c, d] := by
    match h : Bytes.be 4 n.pk.length, Bytes.length_be 4 n.pk.length with
    | [a, b, c, d], _ => exact ⟨a, b, c, d, rfl⟩
  have hof : Bytes.ofBe [a, b, c, d] = n.pk.length := by
    rw [← hlen]
    exact Bytes.ofBe_be_of_lt hpk
  have hvec : (n.vector.flatMap leBytes).length % 4 = 0 := by
    induction n.vector with
    | nil => rfl
    | cons x v ih =>
      rw [List.flatMap_cons, List.length_append, leBytes, List.length_reverse, Bytes.length_be]
      omega
  simp only [encodeNode, hlen, List.reverse_cons, List.reverse_nil, List.nil_append,
    List.cons_append, decodeNode, hof]
  rw [Except.guardOr, if_pos (by simpa using hvec), Except.ok_bind]
  have hl : (UInt8.ofNat n.level).toNat = n.level := by
    rw [UInt8.toNat_ofNat_of_lt' hlevel]
  rw [List.take_left, List.drop_left, map_chunks4_flatMap, hl]
  rfl

namespace Hnsw

/-! ## What a search can return -/

omit [LinearOrder D] in
theorem mem_best_of_mem_ite {p : Prop} [Decidable p] {l : List (Cand D)} {c : Cand D}
    (h : c ∈ if p then l.dropLast else l) : c ∈ l := by
  split at h
  · exact List.mem_of_mem_dropLast h
  · exact h

/-- Everything a search holds satisfies `P`, and the ids it found are distinct and seen. -/
structure SearchInv (P : ℕ → Prop) (s : Search D) : Prop where
  frontier : ∀ c ∈ s.frontier, P c.id
  best : ∀ c ∈ s.best, P c.id
  seen : ∀ c ∈ s.best, c.id ∈ s.visited
  nodup : (s.best.map Cand.id).Nodup

theorem SearchInv.visit {P : ℕ → Prop} {h : Hnsw} {q : List F32} {ef : ℕ} {s : Search D} {n : ℕ}
    (hs : SearchInv P s) (hP : (h.node n).isSome → P n) :
    SearchInv P (h.visit g q ef s n) := by
  rw [Hnsw.visit]
  split
  · exact hs
  · rename_i hv
    have hseen : ∀ c ∈ s.best, c.id ∈ n :: s.visited := fun c hc ↦
      List.mem_cons_of_mem _ (hs.seen c hc)
    split
    · exact ⟨hs.frontier, hs.best, hseen, hs.nodup⟩
    · rename_i node hnode
      have hPn : P n := hP (by rw [hnode]; rfl)
      dsimp only
      split
      · set c : Cand D := ⟨g.dist h.annMeta.metric q node.vector, n⟩
        have hperm : (s.best.orderedInsert Cand.Le c).Perm (c :: s.best) :=
          List.perm_orderedInsert _ _ _
        have hnodup : ((s.best.orderedInsert Cand.Le c).map Cand.id).Nodup := by
          rw [(hperm.map Cand.id).nodup_iff, List.map_cons, List.nodup_cons]
          refine ⟨fun hmem ↦ ?_, hs.nodup⟩
          obtain ⟨b, hb, hbn⟩ := List.mem_map.mp hmem
          exact hv ((show b.id = n from hbn) ▸ hs.seen b hb)
        refine ⟨fun b hb ↦ ?_, fun b hb ↦ ?_, fun b hb ↦ ?_, ?_⟩
        · rcases (List.mem_orderedInsert Cand.Le).mp hb with rfl | hb
          · exact hPn
          · exact hs.frontier b hb
        · rcases List.mem_cons.mp (hperm.mem_iff.mp (mem_best_of_mem_ite hb)) with rfl | hb
          · exact hPn
          · exact hs.best b hb
        · rcases List.mem_cons.mp (hperm.mem_iff.mp (mem_best_of_mem_ite hb)) with rfl | hb
          · exact List.mem_cons_self
          · exact hseen b hb
        · split
          · exact hnodup.sublist ((List.dropLast_sublist _).map _)
          · exact hnodup
      · exact ⟨hs.frontier, hs.best, hseen, hs.nodup⟩

theorem SearchInv.foldl_visit {P : ℕ → Prop} {h : Hnsw} {q : List F32} {ef : ℕ} {l : List ℕ}
    {s : Search D} (hs : SearchInv P s) (hP : ∀ n ∈ l, (h.node n).isSome → P n) :
    SearchInv P (l.foldl (h.visit g q ef) s) := by
  induction l generalizing s with
  | nil => exact hs
  | cons n l ih =>
    exact ih (hs.visit g (hP n (by simp))) fun m hm ↦ hP m (by simp [hm])

/-- **A layer search stays inside what links lead to.** If `P` holds of the entry points and passes
along the layer's links to live nodes, then it holds of everything found, each found once. -/
theorem searchLayer_spec {P : ℕ → Prop} {h : Hnsw} {q : List F32} {eps : List (Cand D)}
    {ef layer : ℕ} (heps : ∀ c ∈ eps, P c.id) (hnodup : (eps.map Cand.id).Nodup)
    (hP : ∀ id, P id → ∀ n ∈ h.linksOf id layer, (h.node n).isSome → P n) :
    (∀ c ∈ h.searchLayer g q eps ef layer, P c.id) ∧
      ((h.searchLayer g q eps ef layer).map Cand.id).Nodup := by
  have hloop : ∀ s : Search D, SearchInv P s →
      (∀ c ∈ h.searchLoop g q ef layer s, P c.id) ∧
        ((h.searchLoop g q ef layer s).map Cand.id).Nodup := by
    intro s hs
    fun_induction searchLoop g h q ef layer s with
    | case1 s hf => exact ⟨hs.best, hs.nodup⟩
    | case2 s c rest hf hstop => exact ⟨hs.best, hs.nodup⟩
    | case3 s c rest hf hgo ih =>
      have hc : P c.id := hs.frontier c (by rw [hf]; exact List.mem_cons_self)
      have hrest : SearchInv P { s with frontier := rest } :=
        ⟨fun b hb ↦ hs.frontier b (by rw [hf]; exact List.mem_cons_of_mem _ hb), hs.best,
          hs.seen, hs.nodup⟩
      exact ih (hrest.foldl_visit g (hP c.id hc))
  have hperm := List.perm_insertionSort Cand.Le eps
  refine hloop _ ⟨fun c hc ↦ heps c (hperm.mem_iff.mp hc), fun c hc ↦ ?_, fun c hc ↦ ?_, ?_⟩
  · exact heps c (hperm.mem_iff.mp (List.mem_of_mem_take hc))
  · exact List.mem_map_of_mem (hperm.mem_iff.mp (List.mem_of_mem_take hc))
  · refine List.Nodup.sublist ((List.take_sublist _ _).map _) ?_
    rwa [(hperm.map Cand.id).nodup_iff]

/-! ## What a selection can return -/

theorem selectFrom_spec (h : Hnsw) (m : ℕ) (cands : List (Cand D)) (kept : List Node)
    (out : List ℕ) : ∃ l, h.selectFrom g m cands kept out = out ++ l ∧ l.Sublist (cands.map Cand.id) ∧
      (∀ id ∈ l, (h.node id).isSome) ∧ (out ++ l).length ≤ max m out.length := by
  induction cands generalizing kept out with
  | nil => exact ⟨[], by simp [selectFrom], List.Sublist.refl _, by simp, by simp⟩
  | cons c cands ih =>
    rw [selectFrom]
    split
    · exact ⟨[], by simp, by simp, by simp, by simp⟩
    · rename_i hm
      have hskip : ∀ kept, ∃ l, h.selectFrom g m cands kept out = out ++ l ∧
          l.Sublist ((c :: cands).map Cand.id) ∧ (∀ id ∈ l, (h.node id).isSome) ∧
          (out ++ l).length ≤ max m out.length := by
        intro kept
        obtain ⟨l, hl, hsub, hlive, hlen⟩ := ih kept out
        exact ⟨l, hl, hsub.cons _, hlive, hlen⟩
      split
      · exact hskip kept
      · rename_i node hnode
        split
        · obtain ⟨l, hl, hsub, hlive, hlen⟩ := ih (kept ++ [node]) (out ++ [c.id])
          refine ⟨c.id :: l, by rw [hl, List.append_assoc, List.singleton_append],
            hsub.cons_cons _, fun id hid ↦ ?_, ?_⟩
          · rcases List.mem_cons.mp hid with rfl | hid
            · rw [hnode]
              rfl
            · exact hlive id hid
          · rw [List.append_assoc, List.singleton_append] at hlen
            simp only [List.length_append, List.length_cons, List.length_nil] at hlen ⊢
            omega
        · exact hskip kept

theorem select_spec (h : Hnsw) (cands : List (Cand D)) (m : ℕ) :
    (h.select g cands m).Sublist (cands.map Cand.id) ∧
      (∀ id ∈ h.select g cands m, (h.node id).isSome) ∧
      (h.select g cands m).length ≤ m := by
  obtain ⟨l, hl, hsub, hlive, hlen⟩ := selectFrom_spec g h m cands [] []
  rw [List.nil_append] at hl hlen
  rw [select, hl]
  exact ⟨hsub, hlive, by simpa using hlen⟩

theorem shrink_spec (h : Hnsw) (owner : Node) {ids : List ℕ} (layer : ℕ) (hids : ids.Nodup) :
    (∀ id ∈ h.shrink g owner ids layer, id ∈ ids ∧ (h.node id).isSome) ∧
      (h.shrink g owner ids layer).Nodup ∧
      (h.shrink g owner ids layer).length ≤ h.cap layer := by
  rw [shrink]
  set cands : List (Cand D) := ids.filterMap fun id ↦
    (h.node id).map fun n ↦ ⟨g.dist h.annMeta.metric owner.vector n.vector, id⟩ with hcands
  have hmap : cands.map Cand.id = ids.filter fun id ↦ (h.node id).isSome := by
    rw [hcands, List.map_filterMap, ← List.filterMap_eq_filter]
    refine List.filterMap_congr fun id _ ↦ ?_
    cases hn : h.node id <;> simp [Option.guard, hn]
  have hmem : ∀ id ∈ cands.map Cand.id, id ∈ ids ∧ (h.node id).isSome := by
    intro id hid
    rw [hmap, List.mem_filter] at hid
    exact hid
  have hnodup : (cands.map Cand.id).Nodup := by
    rw [hmap]
    exact hids.filter _
  split
  · rename_i hlen
    exact ⟨hmem, hnodup, by rwa [List.length_map]⟩
  · obtain ⟨hsub, -, hlen⟩ := select_spec g h (cands.insertionSort Cand.Le) (h.cap layer)
    have hperm := (List.perm_insertionSort Cand.Le cands).map Cand.id
    refine ⟨fun id hid ↦ hmem id (hperm.mem_iff.mp (hsub.subset hid)), ?_, hlen⟩
    exact List.Nodup.sublist hsub (hperm.nodup_iff.mpr hnodup)

/-! ## The invariant -/

/-- What is asked of a link record, apart from its owner: a bounded list of distinct ids handed out
before, not the owner's, whose live ones reach the layer. -/
structure LinkBody (h : Hnsw) (id layer : ℕ) (l : List ℕ) : Prop where
  cap : l.length ≤ h.cap layer
  nodup : l.Nodup
  self : id ∉ l
  level : ∀ t ∈ l, ∀ n, h.node t = some n → layer ≤ n.level
  lt : ∀ t ∈ l, t < h.annMeta.nextId

/-- A live node that reaches the layer. -/
def Reaches (h : Hnsw) (id layer : ℕ) : Prop := ∃ n, h.node id = some n ∧ layer ≤ n.level

/-- Every link record is well formed and belongs to a live node that reaches its layer. -/
def LinksOk (h : Hnsw) : Prop :=
  ∀ id layer l, h.links.get? (toLex (id, layer)) = some l →
    h.LinkBody id layer l ∧ h.Reaches id layer

/-- The invariant of an index. -/
structure Inv (h : Hnsw) : Prop where
  /-- Primary keys and nodes correspond. -/
  pks : ∀ pk id, h.pks.get? pk = some id ↔ ∃ n, h.node id = some n ∧ n.pk = pk
  count : h.annMeta.count = h.nodes.size
  entry_none : h.annMeta.entry = none ↔ h.annMeta.count = 0
  /-- The entry point is a live node of the top level. -/
  entry_some : ∀ e, h.annMeta.entry = some e →
    ∃ n, h.node e = some n ∧ n.level = h.annMeta.maxLevel
  links : h.LinksOk
  /-- Ids of live nodes were handed out. -/
  lt : ∀ id n, h.node id = some n → id < h.annMeta.nextId
  dim : ∀ id n, h.node id = some n → n.vector.length = h.annMeta.dim

theorem get?_links_of_mem {h : Hnsw} {id layer t : ℕ} (ht : t ∈ h.linksOf id layer) :
    h.links.get? (toLex (id, layer)) = some (h.linksOf id layer) := by
  rw [linksOf] at ht ⊢
  cases hl : h.links.get? (toLex (id, layer)) with
  | none => simp [hl] at ht
  | some l => rfl

theorem get?_putLinks (h : Hnsw) (id layer : ℕ) (l : List ℕ) (id' layer' : ℕ) :
    (h.putLinks id layer l).links.get? (toLex (id', layer')) =
      if id' = id ∧ layer' = layer then some l else h.links.get? (toLex (id', layer')) := by
  rw [putLinks, OrdMap.get?_insert]
  exact if_congr (by simp) rfl rfl

theorem linksOf_putLinks_of_ne {h : Hnsw} {id layer id' layer' : ℕ} (l : List ℕ)
    (hne : ¬(id' = id ∧ layer' = layer)) :
    (h.putLinks id layer l).linksOf id' layer' = h.linksOf id' layer' := by
  rw [linksOf, linksOf, get?_putLinks, if_neg hne]

@[simp] theorem node_putLinks (h : Hnsw) (id layer : ℕ) (l : List ℕ) :
    (h.putLinks id layer l).node = h.node := rfl

@[simp] theorem annMeta_putLinks (h : Hnsw) (id layer : ℕ) (l : List ℕ) :
    (h.putLinks id layer l).annMeta = h.annMeta := rfl

theorem LinkBody.congr {h h' : Hnsw} {id layer : ℕ} {l : List ℕ} (hb : h.LinkBody id layer l)
    (hm : h'.annMeta.m = h.annMeta.m) (hid : h.annMeta.nextId ≤ h'.annMeta.nextId)
    (hnode : ∀ t < h.annMeta.nextId, ∀ n, h'.node t = some n → h.node t = some n) :
    h'.LinkBody id layer l where
  cap := by
    rw [Hnsw.cap, hm]
    exact hb.cap
  nodup := hb.nodup
  self := hb.self
  level t ht n hn := hb.level t ht n (hnode t (hb.lt t ht) n hn)
  lt t ht := lt_of_lt_of_le (hb.lt t ht) hid

/-- Everything but the links of one layer is as before. -/
structure Relinked (layer : ℕ) (h h' : Hnsw) : Prop where
  nodes : h'.nodes = h.nodes
  annMeta : h'.annMeta = h.annMeta
  pks : h'.pks = h.pks
  others : ∀ id layer', layer' ≠ layer → h'.linksOf id layer' = h.linksOf id layer'

theorem Relinked.refl (layer : ℕ) (h : Hnsw) : Relinked layer h h := ⟨rfl, rfl, rfl, by simp⟩

theorem Relinked.trans {layer : ℕ} {h h' h'' : Hnsw} (a : Relinked layer h h')
    (b : Relinked layer h' h'') : Relinked layer h h'' :=
  ⟨b.nodes.trans a.nodes, b.annMeta.trans a.annMeta, b.pks.trans a.pks, fun id l hl ↦
    (b.others id l hl).trans (a.others id l hl)⟩

theorem Relinked.putLinks (h : Hnsw) (id layer : ℕ) (l : List ℕ) :
    Relinked layer h (h.putLinks id layer l) :=
  ⟨rfl, rfl, rfl, fun _ _ hl ↦ linksOf_putLinks_of_ne l fun hc ↦ hl hc.2⟩

theorem LinksOk.putLinks {h : Hnsw} {id layer : ℕ} {l : List ℕ} (hok : h.LinksOk)
    (hb : h.LinkBody id layer l) (hr : h.Reaches id layer) : (h.putLinks id layer l).LinksOk := by
  intro id' layer' l' hl'
  rw [get?_putLinks] at hl'
  split at hl'
  · rename_i hc
    obtain ⟨rfl, rfl⟩ := hc
    obtain rfl := Option.some_inj.mp hl'
    exact ⟨hb.congr rfl (le_refl _) fun _ _ _ hn ↦ hn, hr⟩
  · obtain ⟨hb', hr'⟩ := hok id' layer' l' hl'
    exact ⟨hb'.congr rfl (le_refl _) fun _ _ _ hn ↦ hn, hr'⟩

theorem LinksOk.setEntry {h : Hnsw} (hok : h.LinksOk) (id level : ℕ) :
    (h.setEntry id level).LinksOk := by
  intro a layer l hl
  obtain ⟨hb, hr⟩ := hok a layer l hl
  exact ⟨hb.congr rfl (le_refl _) fun _ _ _ hx ↦ hx, hr⟩

theorem LinksOk.body {h : Hnsw} (hok : h.LinksOk) {id layer t : ℕ} (ht : t ∈ h.linksOf id layer) :
    h.LinkBody id layer (h.linksOf id layer) := (hok _ _ _ (get?_links_of_mem ht)).1

/-! ## Insertion

A node is linked from its top layer down. The search on each layer starts from what was found on
the layer above, and nothing links to the node before its layer is done. -/

theorem linkBack_spec {h : Hnsw} {id layer n : ℕ} (hok : h.LinksOk) (hid : h.Reaches id layer)
    (hlt : id < h.annMeta.nextId) (hn : h.Reaches n layer) (hne : n ≠ id)
    (hfresh : id ∉ h.linksOf n layer) :
    (h.linkBack g id layer n).LinksOk ∧ Relinked layer h (h.linkBack g id layer n) ∧
      ∀ n' ≠ n, (h.linkBack g id layer n).linksOf n' layer = h.linksOf n' layer := by
  obtain ⟨o, ho, hlevel⟩ := hn
  rw [linkBack, ho]
  have hbody : ∀ t ∈ h.linksOf n layer,
      t ≠ n ∧ (∀ x, h.node t = some x → layer ≤ x.level) ∧ t < h.annMeta.nextId := by
    intro t ht
    have hb := hok.body ht
    exact ⟨fun htn ↦ hb.self (htn ▸ ht), hb.level t ht, hb.lt t ht⟩
  have hnodup : (h.linksOf n layer ++ [id]).Nodup := by
    rw [List.nodup_append]
    refine ⟨?_, by simp, fun a ha b hb hab ↦ ?_⟩
    · cases hl : h.linksOf n layer with
      | nil => exact List.nodup_nil
      | cons t l => exact hl ▸ (hok.body (hl ▸ List.mem_cons_self : t ∈ h.linksOf n layer)).nodup
    · rw [List.mem_singleton.mp hb] at hab
      exact hfresh (hab ▸ ha)
  obtain ⟨hmem, hnd, hcap⟩ := shrink_spec g h o layer hnodup
  have hcases : ∀ t ∈ h.shrink g o (h.linksOf n layer ++ [id]) layer,
      t ∈ h.linksOf n layer ∨ t = id := by
    intro t ht
    simpa using (hmem t ht).1
  refine ⟨hok.putLinks ⟨hcap, hnd, fun hself ↦ ?_, fun t ht x hx ↦ ?_, fun t ht ↦ ?_⟩
    ⟨o, ho, hlevel⟩, Relinked.putLinks _ _ _ _, fun n' hn' ↦
      linksOf_putLinks_of_ne _ fun hc ↦ hn' hc.1⟩
  · rcases hcases n hself with hself | hself
    · exact (hbody n hself).1 rfl
    · exact hne hself
  · rcases hcases t ht with ht | rfl
    · exact (hbody t ht).2.1 x hx
    · obtain ⟨y, hy, hle⟩ := hid
      rw [hx, Option.some_inj] at hy
      exact hy ▸ hle
  · rcases hcases t ht with ht | rfl
    · exact (hbody t ht).2.2
    · exact hlt

theorem Reaches.congr {h h' : Hnsw} {id layer : ℕ} (hr : h.Reaches id layer)
    (hn : h'.nodes = h.nodes) : h'.Reaches id layer := by
  obtain ⟨n, hn', hle⟩ := hr
  exact ⟨n, by rw [node, hn]; exact hn', hle⟩

theorem foldl_linkBack_spec {ns : List ℕ} {h : Hnsw} {id layer : ℕ} (hok : h.LinksOk)
    (hid : h.Reaches id layer) (hlt : id < h.annMeta.nextId) (hns : ns.Nodup)
    (hn : ∀ n ∈ ns, n ≠ id ∧ h.Reaches n layer ∧ id ∉ h.linksOf n layer) :
    (ns.foldl (linkBack g id layer) h).LinksOk ∧
      Relinked layer h (ns.foldl (linkBack g id layer) h) := by
  induction ns generalizing h with
  | nil => exact ⟨hok, Relinked.refl _ _⟩
  | cons n ns ih =>
    obtain ⟨hne, hr, hf⟩ := hn n (by simp)
    obtain ⟨hok', hrel, hsame⟩ := linkBack_spec g hok hid hlt hr hne hf
    rw [List.nodup_cons] at hns
    have hrest : ∀ m ∈ ns, m ≠ id ∧ (h.linkBack g id layer n).Reaches m layer ∧
        id ∉ (h.linkBack g id layer n).linksOf m layer := by
      intro m hm
      obtain ⟨hme, hmr, hmf⟩ := hn m (by simp [hm])
      refine ⟨hme, hmr.congr hrel.nodes, ?_⟩
      rw [hsame m fun hc ↦ hns.1 (hc ▸ hm)]
      exact hmf
    obtain ⟨hok'', hrel'⟩ :=
      ih hok' (hid.congr hrel.nodes) (by rwa [hrel.annMeta]) hns.2 hrest
    exact ⟨hok'', hrel.trans hrel'⟩

/-- Entry points for a search on a layer while `id` is being linked: other nodes that reach it. -/
def EntryPoints (h : Hnsw) (id layer : ℕ) (eps : List (Cand D)) : Prop :=
  (∀ c ∈ eps, c.id ≠ id ∧ h.Reaches c.id layer) ∧ (eps.map Cand.id).Nodup

omit [LinearOrder D] in
theorem EntryPoints.mono {h h' : Hnsw} {id layer layer' : ℕ} {eps : List (Cand D)}
    (he : h.EntryPoints id layer eps) (hn : h'.nodes = h.nodes) (hle : layer' ≤ layer) :
    h'.EntryPoints id layer' eps := by
  refine ⟨fun c hc ↦ ⟨(he.1 c hc).1, ?_⟩, he.2⟩
  obtain ⟨n, hn', hl⟩ := (he.1 c hc).2.congr hn
  exact ⟨n, hn', le_trans hle hl⟩

/-- A search keeps to other nodes that reach the layer, as long as nothing there links to `id`. -/
theorem EntryPoints.searchLayer {h : Hnsw} {id layer : ℕ} {eps : List (Cand D)}
    (he : h.EntryPoints id layer eps) (hok : h.LinksOk) (hfresh : ∀ n, id ∉ h.linksOf n layer)
    (q : List F32) (ef : ℕ) : h.EntryPoints id layer (h.searchLayer g q eps ef layer) := by
  refine searchLayer_spec g (P := fun t ↦ t ≠ id ∧ h.Reaches t layer) he.1 he.2
    fun c _ t ht hlive ↦ ⟨fun hc ↦ hfresh c (hc ▸ ht), ?_⟩
  obtain ⟨n, hn⟩ := Option.isSome_iff_exists.mp hlive
  exact ⟨n, hn, (hok.body ht).level t ht n hn⟩

theorem linkLayer_spec {h : Hnsw} {id layer : ℕ} {v : List F32} {eps : List (Cand D)}
    (hok : h.LinksOk) (hid : h.Reaches id layer) (hlt : ∀ t n, h.node t = some n →
      t < h.annMeta.nextId) (hfresh : ∀ n, id ∉ h.linksOf n layer)
    (heps : h.EntryPoints id layer eps) :
    (linkLayer g id v (h, eps) layer).1.LinksOk ∧
      Relinked layer h (linkLayer g id v (h, eps) layer).1 ∧
      h.EntryPoints id layer (linkLayer g id v (h, eps) layer).2 := by
  have hfound := heps.searchLayer g hok hfresh v (max h.annMeta.efConstruction h.annMeta.m)
  rw [linkLayer]
  dsimp only
  set found := h.searchLayer g v eps (max h.annMeta.efConstruction h.annMeta.m) layer
  obtain ⟨hsub, hlive, hlen⟩ := select_spec g h found h.annMeta.m
  have hnodup : (h.select g found h.annMeta.m).Nodup := hfound.2.sublist hsub
  have hsel : ∀ n ∈ h.select g found h.annMeta.m, n ≠ id ∧ h.Reaches n layer := by
    intro n hn
    obtain ⟨c, hc, rfl⟩ := List.mem_map.mp (hsub.subset hn)
    exact hfound.1 c hc
  have hbody : h.LinkBody id layer (h.select g found h.annMeta.m) := by
    refine ⟨le_trans hlen ?_, hnodup, fun hc ↦ (hsel id hc).1 rfl, fun t ht n hn ↦ ?_,
      fun t ht ↦ ?_⟩
    · rw [cap]
      split <;> omega
    · obtain ⟨x, hx, hle⟩ := (hsel t ht).2
      rw [hn, Option.some_inj] at hx
      exact hx ▸ hle
    · obtain ⟨x, hx, -⟩ := (hsel t ht).2
      exact hlt t x hx
  obtain ⟨x, hx, hxl⟩ := hid
  have hid : h.Reaches id layer := ⟨x, hx, hxl⟩
  obtain ⟨hok', hrel⟩ := foldl_linkBack_spec g (hok.putLinks hbody hid) hid (hlt id x hx) hnodup
    fun n hn ↦ ⟨(hsel n hn).1, (hsel n hn).2, by
      rw [linksOf_putLinks_of_ne _ fun hc ↦ (hsel n hn).1 hc.1]
      exact hfresh n⟩
  exact ⟨hok', (Relinked.putLinks h id layer _).trans hrel, hfound⟩

/-- Linking a new node on the layers below `k`, from the top down. Nothing links to it there yet,
and each layer's search starts from nodes found on the layer above. -/
theorem linkLayers_spec (k : ℕ) {h : Hnsw} {id : ℕ} {v : List F32} {eps : List (Cand D)}
    (hok : h.LinksOk) (hid : ∀ layer < k, h.Reaches id layer) (hlt : ∀ t n, h.node t = some n →
      t < h.annMeta.nextId) (hfresh : ∀ layer < k, ∀ n, id ∉ h.linksOf n layer)
    (heps : ∀ layer < k, h.EntryPoints id layer eps) :
    let h' := ((List.range k).reverse.foldl (linkLayer g id v) (h, eps)).1
    h'.LinksOk ∧ h'.nodes = h.nodes ∧ h'.annMeta = h.annMeta ∧ h'.pks = h.pks := by
  induction k generalizing h eps with
  | zero => exact ⟨hok, rfl, rfl, rfl⟩
  | succ k ih =>
    obtain ⟨hok', hrel, hfound⟩ := linkLayer_spec g (v := v) hok (hid k (by omega)) hlt
      (hfresh k (by omega)) (heps k (by omega))
    rw [List.range_succ, List.reverse_append, List.reverse_singleton, List.singleton_append,
      List.foldl_cons]
    set st := linkLayer g id v (h, eps) k
    have hnode : st.1.node = h.node := by
      funext t
      rw [node, hrel.nodes]
      rfl
    obtain ⟨hok'', hn, hm, hp⟩ := ih (h := st.1) hok'
      (fun layer hl ↦ (hid layer (by omega)).congr hrel.nodes)
      (fun t n ht ↦ by rw [hnode] at ht; rw [hrel.annMeta]; exact hlt t n ht)
      (fun layer hl n ↦ by rw [hrel.others n layer (by omega)]; exact hfresh layer (by omega) n)
      (fun layer hl ↦ hfound.mono hrel.nodes (by omega))
    exact ⟨hok'', hn.trans hrel.nodes, hm.trans hrel.annMeta, hp.trans hrel.pks⟩

/-- **The entry point is never lost**: a descent from a live entry point succeeds, and ends on nodes
that reach the layer it was sent to. -/
theorem descend_spec {h : Hnsw} {id e downTo : ℕ} {n : Node} (q : List F32) (hok : h.LinksOk)
    (he : h.annMeta.entry = some e) (hn : h.node e = some n) (hlevel : n.level = h.annMeta.maxLevel)
    (hne : e ≠ id) (hfresh : ∀ layer n, id ∉ h.linksOf n layer)
    (hle : downTo ≤ h.annMeta.maxLevel) :
    ∃ eps, h.descend g q downTo = .ok eps ∧ h.EntryPoints id downTo eps := by
  set c : Cand D := ⟨g.dist h.annMeta.metric q n.vector, e⟩ with hc
  set M := h.annMeta.maxLevel with hM
  have hcand : h.cand g q e = .ok c := by
    rw [cand, hn]
    rfl
  have hstart : h.EntryPoints id M [c] := by
    refine ⟨fun b hb ↦ ?_, by simp⟩
    rw [List.mem_singleton.mp hb]
    exact ⟨hne, n, hn, le_of_eq hlevel.symm⟩
  have hloop : ∀ k, h.EntryPoints id (M - k) (((List.range k).map (M - ·)).foldl
      (fun eps layer ↦ h.searchLayer g q eps 1 layer) [c]) := by
    intro k
    induction k with
    | zero => exact hstart
    | succ k ih =>
      rw [List.range_succ, List.map_append, List.foldl_append, List.map_singleton,
        List.foldl_cons, List.foldl_nil]
      exact (ih.searchLayer g hok (hfresh _) q 1).mono rfl (by omega)
  have hend := hloop (M - downTo)
  rw [Nat.sub_sub_self hle] at hend
  refine ⟨_, ?_, hend⟩
  rw [descend, he]
  simp only [Except.ofOption, Except.ok_bind, hcand]
  rfl

theorem place_eq_ok {h h' : Hnsw} {n : Node} (hp : h.place n = .ok h') :
    h' = { h with
      annMeta := { h.annMeta with
        nextId := h.annMeta.nextId + 1
        count := h.annMeta.count + 1 }
      nodes := h.nodes.insert h.annMeta.nextId n
      pks := h.pks.insert n.pk h.annMeta.nextId } := by
  rw [place] at hp
  simp only [Except.bind_eq_ok, checkedAdd_eq_ok] at hp
  obtain ⟨_, ⟨-, rfl⟩, _, ⟨-, rfl⟩, hp⟩ := hp
  exact (Except.ok.inj hp).symm

/-- What is kept of an index while a node is linked: all of the invariant but the entry point. -/
structure Core (h : Hnsw) : Prop where
  pks : ∀ pk id, h.pks.get? pk = some id ↔ ∃ n, h.node id = some n ∧ n.pk = pk
  count : h.annMeta.count = h.nodes.size
  links : h.LinksOk
  lt : ∀ id n, h.node id = some n → id < h.annMeta.nextId
  dim : ∀ id n, h.node id = some n → n.vector.length = h.annMeta.dim

theorem Inv.core {h : Hnsw} (hi : h.Inv) : h.Core := ⟨hi.pks, hi.count, hi.links, hi.lt, hi.dim⟩

theorem Core.place {h h' : Hnsw} {n : Node} (hc : h.Core) (hp : h.place n = .ok h')
    (hpk : h.pks.get? n.pk = none) (hdim : n.vector.length = h.annMeta.dim) : h'.Core := by
  have hnone : h.node h.annMeta.nextId = none := by
    cases hn : h.node h.annMeta.nextId with
    | none => rfl
    | some x => exact absurd (hc.lt _ _ hn) (lt_irrefl _)
  obtain rfl := place_eq_ok hp
  have hnode : ∀ id x, (h.nodes.insert h.annMeta.nextId n).get? id = some x ↔
      (id = h.annMeta.nextId ∧ x = n) ∨ (id ≠ h.annMeta.nextId ∧ h.node id = some x) := by
    intro id x
    rw [OrdMap.get?_insert]
    split
    · simp_all [eq_comm]
    · simp_all [node]
  refine ⟨fun pk id ↦ ?_, ?_, fun id layer l hl ↦ ?_, fun id x hx ↦ ?_, fun id x hx ↦ ?_⟩
  · simp only [node, hnode]
    rw [OrdMap.get?_insert]
    by_cases hpk' : pk = n.pk
    · subst hpk'
      rw [if_pos rfl, Option.some_inj]
      constructor
      · rintro rfl
        exact ⟨n, Or.inl ⟨rfl, rfl⟩, rfl⟩
      · rintro ⟨x, ⟨rfl, -⟩ | ⟨-, hx⟩, hxpk⟩
        · rfl
        · have := (hc.pks n.pk id).mpr ⟨x, hx, hxpk⟩
          rw [hpk] at this
          exact absurd this (by simp)
    · rw [if_neg hpk', hc.pks]
      constructor
      · rintro ⟨x, hx, hxpk⟩
        refine ⟨x, Or.inr ⟨?_, hx⟩, hxpk⟩
        rintro rfl
        rw [hnone] at hx
        exact absurd hx (by simp)
      · rintro ⟨x, ⟨-, rfl⟩ | ⟨-, hx⟩, hxpk⟩
        · exact absurd hxpk.symm hpk'
        · exact ⟨x, hx, hxpk⟩
  · exact (congrArg (· + 1) hc.count).trans (OrdMap.size_insert n hnone).symm
  · obtain ⟨hb, x, hx, hle⟩ := hc.links id layer l hl
    refine ⟨hb.congr rfl (Nat.le_succ _) fun t ht y hy ↦ ?_, x, ?_, hle⟩
    · exact ((hnode t y).mp hy).resolve_left (fun hc ↦ absurd hc.1 (ne_of_lt ht)) |>.2
    · exact (hnode id x).mpr (Or.inr ⟨ne_of_lt (hc.lt id x hx), hx⟩)
  · rcases (hnode id x).mp hx with ⟨rfl, -⟩ | ⟨-, hx⟩
    · exact Nat.lt_succ_self _
    · exact Nat.lt_succ_of_lt (hc.lt id x hx)
  · rcases (hnode id x).mp hx with ⟨-, rfl⟩ | ⟨-, hx⟩
    · exact hdim
    · exact hc.dim id x hx

theorem link_spec {h h₀ h' : Hnsw} {n : Node} (hi : h₀.Inv) (hp : h₀.place n = .ok h)
    (hc : h.Core) (hl : h.link g h₀.annMeta.nextId n = .ok h') :
    h'.Inv ∧ h'.nodes = h.nodes ∧ h'.pks = h.pks ∧ h'.annMeta.nextId = h.annMeta.nextId ∧
      h'.annMeta.metric = h.annMeta.metric := by
  set id := h₀.annMeta.nextId with hid
  have hplace := place_eq_ok hp
  have hnode : h.node id = some n := by
    rw [hplace]
    exact OrdMap.get?_insert_self _ _ _
  have hcount : h.annMeta.count ≠ 0 := by
    rw [hplace]
    exact Nat.succ_ne_zero _
  have hentry : h.annMeta.entry = h₀.annMeta.entry := by rw [hplace]
  rw [link] at hl
  split at hl
  · obtain rfl := Except.ok.inj hl
    refine ⟨⟨hc.pks, hc.count, ?_, fun e he ↦ ?_, hc.links.setEntry id n.level, hc.lt, hc.dim⟩,
      rfl, rfl, rfl, rfl⟩
    · exact ⟨fun hn ↦ absurd hn (by simp [setEntry]), fun h0 ↦ absurd h0 hcount⟩
    · obtain rfl : id = e := by simpa [setEntry] using he
      exact ⟨n, hnode, rfl⟩
  · rename_i hsome
    obtain ⟨e, he⟩ := Option.ne_none_iff_exists'.mp hsome
    obtain ⟨x, hx, hlevel⟩ := hi.entry_some e (hentry ▸ he)
    have hne : e ≠ id := ne_of_lt (hi.lt e x hx)
    have hxe : h.node e = some x := by
      rw [hplace]
      exact (OrdMap.get?_insert_of_ne _ _ hne).trans hx
    have hmax : h.annMeta.maxLevel = h₀.annMeta.maxLevel := by rw [hplace]
    have hfresh : ∀ layer a, id ∉ h.linksOf a layer := by
      intro layer a hmem
      have hlinks : h.linksOf a layer = h₀.linksOf a layer := by rw [hplace]; rfl
      rw [hlinks] at hmem
      exact absurd ((hi.links.body hmem).lt id hmem) (lt_irrefl _)
    obtain ⟨eps, heps, hpts⟩ := descend_spec g n.vector hc.links he hxe
      (hlevel.trans hmax.symm) hne hfresh (min_le_right n.level h.annMeta.maxLevel)
    dsimp only at hl
    rw [heps, Except.ok_bind] at hl
    obtain ⟨hok, hnodes, hmeta, hpks⟩ := linkLayers_spec g (min n.level h.annMeta.maxLevel + 1)
      (v := n.vector) hc.links (fun layer hlt ↦ ⟨n, hnode, by omega⟩) hc.lt
      (fun layer _ a ↦ hfresh layer a) (fun layer hlt ↦ hpts.mono rfl (by omega))
    set h₂ := ((List.range (min n.level h.annMeta.maxLevel + 1)).reverse.foldl
      (linkLayer g id n.vector) (h, eps)).1
    have hnode₂ : h₂.node = h.node := by
      funext t
      rw [node, hnodes]
      rfl
    have hbase : h₂.Inv := by
      refine ⟨fun pk a ↦ ?_, ?_, ?_, fun e' he' ↦ ?_, hok, fun a y hy ↦ ?_, fun a y hy ↦ ?_⟩
      · rw [hpks, hnode₂]
        exact hc.pks pk a
      · rw [hmeta, hnodes]
        exact hc.count
      · rw [hmeta]
        exact ⟨fun hn ↦ absurd hn hsome, fun h0 ↦ absurd h0 hcount⟩
      · rw [hmeta] at he' ⊢
        obtain rfl : e = e' := Option.some_inj.mp (he.symm.trans he')
        exact ⟨x, hnode₂ ▸ hxe, hlevel.trans hmax.symm⟩
      · rw [hmeta]
        exact hc.lt a y (hnode₂ ▸ hy)
      · rw [hmeta]
        exact hc.dim a y (hnode₂ ▸ hy)
    have hnext : h₂.annMeta.nextId = h.annMeta.nextId := by rw [hmeta]
    have hmetric : h₂.annMeta.metric = h.annMeta.metric := by rw [hmeta]
    obtain rfl := Except.ok.inj hl
    split
    · refine ⟨⟨hbase.pks, hbase.count, ?_, fun e' he' ↦ ?_, hok.setEntry id n.level, hbase.lt,
        hbase.dim⟩, hnodes, hpks, hnext, hmetric⟩
      · refine ⟨fun hn ↦ absurd hn (by simp [setEntry]), fun h0 ↦ absurd h0 ?_⟩
        exact (congrArg AnnMeta.count hmeta).trans_ne hcount
      · obtain rfl : id = e' := by simpa [setEntry] using he'
        exact ⟨n, (congrFun hnode₂ id).trans hnode, rfl⟩
    · exact ⟨hbase, hnodes, hpks, hnext, hmetric⟩

theorem checkDim_eq_ok {h h' : Hnsw} {len : ℕ} (hd : h.checkDim len = .ok h') :
    (h.annMeta.count = 0 ∧ h' = { h with annMeta := { h.annMeta with dim := len % 2 ^ 32 } }) ∨
      (h.annMeta.count ≠ 0 ∧ len = h.annMeta.dim ∧ h' = h) := by
  rw [checkDim] at hd
  split at hd
  · rename_i h0
    exact Or.inl ⟨h0, (Except.ok.inj hd).symm⟩
  · rename_i h0
    split at hd
    · rename_i hlen
      exact Or.inr ⟨h0, hlen, (Except.ok.inj hd).symm⟩
    · exact absurd hd (by simp)

theorem Inv.checkDim {h h' : Hnsw} {len : ℕ} (hi : h.Inv) (hd : h.checkDim len = .ok h')
    (hlen : len < 2 ^ 32) : h'.Inv ∧ len = h'.annMeta.dim ∧ h'.nodes = h.nodes ∧ h'.pks = h.pks ∧
      h'.annMeta.nextId = h.annMeta.nextId ∧ h'.annMeta.metric = h.annMeta.metric := by
  rcases checkDim_eq_ok hd with ⟨h0, rfl⟩ | ⟨-, hdim, rfl⟩
  · have hnone : ∀ id n, h.node id ≠ some n := by
      intro id n hn
      have hz := OrdMap.size_eq_zero.mp (hi.count.symm.trans h0) id
      rw [node, hz] at hn
      exact absurd hn (by simp)
    refine ⟨⟨hi.pks, hi.count, hi.entry_none, hi.entry_some, fun a layer l hl ↦ ?_, hi.lt,
      fun id n hn ↦ absurd hn (hnone id n)⟩, (Nat.mod_eq_of_lt hlen).symm, rfl, rfl, rfl, rfl⟩
    obtain ⟨hb, hr⟩ := hi.links a layer l hl
    exact ⟨hb.congr rfl (le_refl _) fun _ _ _ hx ↦ hx, hr⟩
  · exact ⟨hi, hdim, rfl, rfl, rfl, rfl⟩

theorem length_of_prepare {metric : VectorMetric} {v w : List F32}
    (h : prepare metric v = some w) : w.length = v.length := by
  cases metric with
  | cosine =>
    rw [prepare] at h
    split at h
    · exact absurd h (by simp)
    · rw [← Option.some_inj.mp h, List.length_map]
  | dot => rw [← Option.some_inj.mp h]
  | euclidean => rw [← Option.some_inj.mp h]

/-- Levels fit the byte they are stored in. -/
def LevelsOk (h : Hnsw) : Prop := ∀ id n, h.node id = some n → n.level ≤ Ann.maxLevel

/-- Ids are never reused: what a later index holds under an id handed out before it already held. -/
structure Extends (h h' : Hnsw) : Prop where
  nextId : h.annMeta.nextId ≤ h'.annMeta.nextId
  node : ∀ id n, id < h.annMeta.nextId → h'.node id = some n → h.node id = some n
  metric : h'.annMeta.metric = h.annMeta.metric
  levels : h.LevelsOk → h'.LevelsOk

theorem Extends.refl (h : Hnsw) : h.Extends h := ⟨le_refl _, fun _ _ _ hn ↦ hn, rfl, id⟩

theorem Extends.trans {h h' h'' : Hnsw} (a : h.Extends h') (b : h'.Extends h'') : h.Extends h'' :=
  ⟨le_trans a.nextId b.nextId, fun id n hlt hn ↦
    a.node id n hlt (b.node id n (lt_of_lt_of_le hlt a.nextId) hn), b.metric.trans a.metric,
    b.levels ∘ a.levels⟩

/-- A vector that gets indexed: non-empty, and one that can match. -/
def Accepts (metric : VectorMetric) (v : List F32) : Prop :=
  v ≠ [] ∧ (prepare metric v).isSome

/-- **Insertion keeps the invariant**, and adds the primary key exactly when the vector is one that
gets indexed. -/
theorem add_spec {h h' : Hnsw} {pk : Bytes} {v : List F32} (hi : h.Inv)
    (hpk : h.pks.get? pk = none) (hlen : v.length < 2 ^ 32) (ha : h.add g pk v = .ok h') :
    h'.Inv ∧ h.Extends h' ∧ ∀ pk', (h'.pks.get? pk').isSome ↔
      (pk' = pk ∧ Accepts h.annMeta.metric v) ∨ (h.pks.get? pk').isSome := by
  rw [add] at ha
  split at ha
  · rename_i hv
    obtain rfl := Except.ok.inj ha
    exact ⟨hi, Extends.refl h, fun pk' ↦ by simp [Accepts, hv]⟩
  · rename_i hv
    rw [Except.bind_eq_ok] at ha
    obtain ⟨h₁, hd, ha⟩ := ha
    obtain ⟨hi₁, hdim, hnodes, hpks, hnext, hmetric⟩ := hi.checkDim hd hlen
    have hext₁ : h.Extends h₁ :=
      ⟨le_of_eq hnext.symm, fun id n _ hn ↦ by rwa [node, hnodes] at hn, hmetric,
        fun hl id n hn ↦ hl id n (by rwa [node, hnodes] at hn)⟩
    split at ha
    · rename_i hprep
      obtain rfl := Except.ok.inj ha
      refine ⟨hi₁, hext₁, fun pk' ↦ ?_⟩
      rw [hpks, Accepts, ← hmetric, hprep]
      simp
    · rename_i w hprep
      rw [Except.bind_eq_ok] at ha
      obtain ⟨h₂, hp, hl⟩ := ha
      have hc₂ := hi₁.core.place hp (hpks.symm ▸ hpk) ((length_of_prepare hprep).trans hdim)
      obtain ⟨hi', hn', hpk', hnx', hm'⟩ := link_spec g hi₁ hp hc₂ hl
      have hplace := place_eq_ok hp
      refine ⟨hi', hext₁.trans ⟨?_, fun id n hlt hn ↦ ?_, ?_, fun hl id n hn ↦ ?_⟩, fun pk' ↦ ?_⟩
      · rw [hnx', hplace]
        exact Nat.le_succ _
      · rw [node, hn', hplace] at hn
        exact (OrdMap.get?_insert_of_ne _ _ (ne_of_lt hlt)).symm.trans hn
      · rw [hm', hplace]
      · rw [node, hn', hplace, OrdMap.get?_insert] at hn
        split at hn
        · rw [← Option.some_inj.mp hn]
          exact min_le_right ..
        · exact hl id n hn
      · rw [hpk', hplace, OrdMap.get?_insert, hpks, Accepts, ← hmetric, hprep]
        by_cases hpp : pk' = pk
        · simp [hpp, hv]
        · simp [hpp]

/-! ## Removal

The layers are taken one after the other, from the bottom. Between two of them the dead node has
records above and none below (`UnlinkedBelow`). -/

/-- Link records while the dead node `id` is taken off its layers: those of `id` below layer `k` are
gone, and every other record is well formed with a live owner. -/
def UnlinkedBelow (h : Hnsw) (id top k : ℕ) : Prop :=
  ∀ a layer l, h.links.get? (toLex (a, layer)) = some l →
    h.LinkBody a layer l ∧ (h.Reaches a layer ∨ (a = id ∧ k ≤ layer ∧ layer ≤ top))

theorem replaced_spec (id : ℕ) {n : ℕ} (list : List ℕ) {theirs : List ℕ} (ht : theirs.Nodup)
    (hn : n ∉ theirs) :
    (replaced id n list theirs).Nodup ∧ n ∉ replaced id n list theirs ∧
      ∀ x ∈ replaced id n list theirs, x ∈ theirs ∨ x ∈ list := by
  rw [replaced]
  have hloop : ∀ (l t : List ℕ), t.Nodup → n ∉ t → (∀ x ∈ t, x ∈ theirs ∨ x ∈ list) →
      (∀ x ∈ l, x ∈ list) →
      let r := l.foldl (fun t x ↦ if x ≠ n ∧ x ∉ t then t ++ [x] else t) t
      r.Nodup ∧ n ∉ r ∧ ∀ x ∈ r, x ∈ theirs ∨ x ∈ list := by
    intro l
    induction l with
    | nil => exact fun t h1 h2 h3 _ ↦ ⟨h1, h2, h3⟩
    | cons y l ih =>
      intro t h1 h2 h3 h4
      rw [List.foldl_cons]
      split
      · rename_i hy
        refine ih (t ++ [y]) ?_ ?_ (fun x hx ↦ ?_) fun x hx ↦ h4 x (by simp [hx])
        · rw [List.nodup_append]
          refine ⟨h1, by simp, fun a ha b hb hab ↦ hy.2 ?_⟩
          rw [← List.mem_singleton.mp hb, ← hab]
          exact ha
        · simp [h2, Ne.symm hy.1]
        · rcases List.mem_append.mp hx with hx | hx
          · exact h3 x hx
          · exact Or.inr (h4 x (by simp [List.mem_singleton.mp hx]))
      · exact ih t h1 h2 h3 fun x hx ↦ h4 x (by simp [hx])
  exact hloop list (theirs.filter (· ≠ id)) (ht.filter _) (fun h ↦ hn (List.mem_of_mem_filter h))
    (fun x hx ↦ Or.inl (List.mem_of_mem_filter hx)) fun _ hx ↦ hx

/-- What the neighbours of the removed node on one layer are known for. -/
def Neighbours (h : Hnsw) (layer : ℕ) (list : List ℕ) : Prop :=
  ∀ t ∈ list, (∀ n, h.node t = some n → layer ≤ n.level) ∧ t < h.annMeta.nextId

theorem unlink_spec {h : Hnsw} {id top k layer n : ℕ} {list : List ℕ}
    (hu : h.UnlinkedBelow id top k) (hlist : h.Neighbours layer list) (hn : n ∈ list) :
    (h.unlink g id layer list n).UnlinkedBelow id top k ∧
      Relinked layer h (h.unlink g id layer list n) := by
  rw [unlink]
  split
  · exact ⟨hu, Relinked.refl _ _⟩
  · rename_i o ho
    dsimp only
    split
    · exact ⟨hu, Relinked.refl _ _⟩
    · rename_i hback
      have htheirs : ∃ t, t ∈ h.linksOf n layer := by
        by_contra hnone
        rw [not_exists] at hnone
        exact hback (by rw [List.eq_nil_iff_forall_not_mem.mpr hnone]; rfl)
      obtain ⟨t, ht⟩ := htheirs
      have hb := (hu n layer _ (get?_links_of_mem ht)).1
      obtain ⟨hnd, hself, hmem⟩ := replaced_spec id list hb.nodup hb.self
      obtain ⟨hsub, hnd', hcap⟩ := shrink_spec g h o layer hnd
      have hnew : h.LinkBody n layer
          (h.shrink g o (replaced id n list (h.linksOf n layer)) layer) := by
        refine ⟨hcap, hnd', fun hc ↦ hself (hsub n hc).1, fun x hx y hy ↦ ?_, fun x hx ↦ ?_⟩
        · rcases hmem x (hsub x hx).1 with hx | hx
          · exact hb.level x hx y hy
          · exact (hlist x hx).1 y hy
        · rcases hmem x (hsub x hx).1 with hx | hx
          · exact hb.lt x hx
          · exact (hlist x hx).2
      refine ⟨fun a layer' l hl ↦ ?_, Relinked.putLinks _ _ _ _⟩
      rw [get?_putLinks] at hl
      split at hl
      · rename_i hc
        obtain ⟨rfl, rfl⟩ := hc
        obtain rfl := Option.some_inj.mp hl
        exact ⟨hnew.congr rfl (le_refl _) fun _ _ _ hx ↦ hx,
          Or.inl ⟨o, ho, (hlist a hn).1 o ho⟩⟩
      · obtain ⟨hb', hr'⟩ := hu a layer' l hl
        exact ⟨hb'.congr rfl (le_refl _) fun _ _ _ hx ↦ hx, hr'⟩

theorem foldl_unlink_spec {h : Hnsw} {id top k layer : ℕ} {list : List ℕ} (l : List ℕ)
    (hu : h.UnlinkedBelow id top k) (hlist : h.Neighbours layer list) (hl : ∀ n ∈ l, n ∈ list) :
    (l.foldl (unlink g id layer list) h).UnlinkedBelow id top k ∧
      Relinked layer h (l.foldl (unlink g id layer list) h) := by
  induction l generalizing h with
  | nil => exact ⟨hu, Relinked.refl _ _⟩
  | cons n l ih =>
    obtain ⟨hu', hrel⟩ := unlink_spec g hu hlist (hl n (by simp))
    have hnode : ∀ t, (h.unlink g id layer list n).node t = h.node t := by
      intro t
      rw [node, hrel.nodes]
      rfl
    obtain ⟨hu'', hrel'⟩ := ih hu'
      (fun t ht ↦ ⟨fun x hx ↦ (hlist t ht).1 x ((hnode t).symm.trans hx), by
        rw [hrel.annMeta]
        exact (hlist t ht).2⟩) fun m hm ↦ hl m (by simp [hm])
    exact ⟨hu'', hrel.trans hrel'⟩

theorem unlinkLayer_spec {h : Hnsw} {id top k : ℕ} (byLayer : List (List ℕ))
    (hu : h.UnlinkedBelow id top k) :
    (unlinkLayer g id (h, byLayer) k).1.UnlinkedBelow id top (k + 1) ∧
      Relinked k h (unlinkLayer g id (h, byLayer) k).1 := by
  rw [unlinkLayer]
  dsimp only
  set h₁ : Hnsw := { h with links := h.links.erase (toLex (id, k)) } with hh₁
  have hget : ∀ a layer, h₁.links.get? (toLex (a, layer)) =
      if a = id ∧ layer = k then none else h.links.get? (toLex (a, layer)) := by
    intro a layer
    rw [hh₁, OrdMap.get?_erase]
    exact if_congr (by simp) rfl rfl
  have hlist : h₁.Neighbours k (h.linksOf id k) := by
    intro t ht
    have hb := (hu id k _ (get?_links_of_mem ht)).1
    exact ⟨hb.level t ht, hb.lt t ht⟩
  have hu₁ : h₁.UnlinkedBelow id top (k + 1) := by
    intro a layer l hl
    rw [hget] at hl
    split at hl
    · exact absurd hl (by simp)
    · rename_i hne
      obtain ⟨hb, hr⟩ := hu a layer l hl
      refine ⟨hb.congr rfl (le_refl _) fun _ _ _ hx ↦ hx, hr.imp_right ?_⟩
      rintro ⟨rfl, hle, htop⟩
      exact ⟨rfl, lt_of_le_of_ne hle fun hk ↦ hne ⟨rfl, hk.symm⟩, htop⟩
  have hrel₁ : Relinked k h h₁ := by
    refine ⟨rfl, rfl, rfl, fun a layer hl ↦ ?_⟩
    rw [linksOf, linksOf, hget, if_neg fun hc ↦ hl hc.2]
  obtain ⟨hu₂, hrel₂⟩ := foldl_unlink_spec g (h.linksOf id k) hu₁ hlist fun _ hn ↦ hn
  exact ⟨hu₂, hrel₁.trans hrel₂⟩

theorem unlinkLayers_spec {h : Hnsw} {id top : ℕ} (k : ℕ) (hu : h.UnlinkedBelow id top 0) :
    let st := (List.range k).foldl (unlinkLayer g id) (h, [])
    st.1.UnlinkedBelow id top k ∧ st.1.nodes = h.nodes ∧ st.1.annMeta = h.annMeta ∧
      st.1.pks = h.pks := by
  induction k with
  | zero => exact ⟨hu, rfl, rfl, rfl⟩
  | succ k ih =>
    obtain ⟨hu', hn, hm, hp⟩ := ih
    rw [List.range_succ, List.foldl_append, List.foldl_cons, List.foldl_nil]
    obtain ⟨hu'', hrel⟩ := unlinkLayer_spec g
      ((List.range k).foldl (unlinkLayer g id) (h, [])).2 hu'
    exact ⟨hu'', hrel.nodes.trans hn, hrel.annMeta.trans hm, hrel.pks.trans hp⟩

/-! ## Electing an entry point

When the entry point is removed, one of its neighbours on the highest layer that has one takes its
place, or else the highest node there is. -/

theorem highest_spec (l : List (ℕ × ℕ)) :
    (∀ e, highest l = some e → e ∈ l) ∧ (highest l = none → l = []) := by
  rw [highest]
  have hloop : ∀ (l : List (ℕ × ℕ)) (best : Option (ℕ × ℕ)),
      let r := l.foldl (fun best e ↦ if best.all fun b ↦ decide (b.1 < e.1) then some e else best)
        best
      (∀ e, r = some e → e ∈ l ∨ best = some e) ∧ (r = none → l = [] ∧ best = none) := by
    intro l
    induction l with
    | nil => exact fun best ↦ ⟨fun e he ↦ Or.inr he, fun hr ↦ ⟨rfl, hr⟩⟩
    | cons e l ih =>
      intro best
      rw [List.foldl_cons]
      obtain ⟨h1, h2⟩ := ih (if best.all fun b ↦ decide (b.1 < e.1) then some e else best)
      refine ⟨fun x hx ↦ ?_, fun hr ↦ ?_⟩
      · rcases h1 x hx with hx | hx
        · exact Or.inl (List.mem_cons_of_mem _ hx)
        · split at hx
          · exact Or.inl (by simp [Option.some_inj.mp hx])
          · exact Or.inr hx
      · obtain ⟨-, hbest⟩ := h2 hr
        split at hbest
        · exact absurd hbest (by simp)
        · rename_i hall
          exact absurd (by rw [hbest]; rfl) hall
  obtain ⟨h1, h2⟩ := hloop l none
  exact ⟨fun e he ↦ (h1 e he).resolve_right (by simp), fun hr ↦ (h2 hr).1⟩

theorem survivor_spec {h : Hnsw} {lists : List (List ℕ)} {level n : ℕ}
    (hs : h.survivor lists = some (level, n)) : ∃ o, h.node n = some o ∧ o.level = level := by
  induction lists with
  | nil => exact absurd hs (by simp [survivor])
  | cons l lists ih =>
    rw [survivor] at hs
    split at hs
    · rename_i e he
      obtain rfl := Option.some_inj.mp hs
      have hmem := (highest_spec _).1 _ he
      rw [List.mem_filterMap] at hmem
      obtain ⟨m, -, hm⟩ := hmem
      obtain ⟨o, ho, heq⟩ := Option.map_eq_some_iff.mp hm
      rw [Prod.mk.injEq] at heq
      exact ⟨o, heq.2 ▸ ho, heq.1⟩
    · exact ih hs

/-- **An election names a live node**, of the level recorded, unless the index is empty. -/
theorem elect_spec {h : Hnsw} (byLayer : List (List ℕ)) (hc : h.Core) : (h.elect byLayer).Inv := by
  have hhigh : ∀ level n, highest (h.nodes.entries.map fun e ↦ (e.2.level, e.1)) = some (level, n) →
      ∃ o, h.node n = some o ∧ o.level = level := by
    intro level n hh
    obtain ⟨⟨k, o⟩, hmem, heq⟩ := List.mem_map.mp ((highest_spec _).1 _ hh)
    rw [Prod.mk.injEq] at heq
    exact ⟨o, heq.2 ▸ OrdMap.mem_entries.mp hmem, heq.1⟩
  rw [elect]
  dsimp only
  split
  · rename_i level n hchoice
    have hlive : ∃ o, h.node n = some o ∧ o.level = level := by
      rcases Option.or_eq_some_iff.mp hchoice with hs | ⟨-, hs⟩
      · exact survivor_spec hs
      · split at hs
        · exact hhigh level n hs
        · exact absurd hs (by simp)
    obtain ⟨o, ho, hlevel⟩ := hlive
    have hcount : h.annMeta.count ≠ 0 := by
      intro h0
      have hz := OrdMap.size_eq_zero.mp (hc.count.symm.trans h0) n
      rw [node, hz] at ho
      exact absurd ho (by simp)
    refine ⟨hc.pks, hc.count, ?_, fun e he ↦ ?_, hc.links.setEntry n level, hc.lt, hc.dim⟩
    · exact ⟨fun hn ↦ absurd hn (by simp [setEntry]), fun h0 ↦ absurd h0 hcount⟩
    · obtain rfl : n = e := by simpa [setEntry] using he
      exact ⟨o, ho, hlevel⟩
  · rename_i hchoice
    have hcount : h.annMeta.count = 0 := by
      by_contra hne
      rw [Option.or_eq_none_iff, if_pos (Nat.pos_of_ne_zero hne)] at hchoice
      have hnil := (highest_spec _).2 hchoice.2
      rw [List.map_eq_nil_iff] at hnil
      exact hne (hc.count.trans (by rw [OrdMap.size, hnil]; rfl))
    refine ⟨hc.pks, hc.count, ⟨fun _ ↦ hcount, fun _ ↦ rfl⟩, fun e he ↦ absurd he (by simp), ?_,
      hc.lt, hc.dim⟩
    intro a layer l hl
    obtain ⟨hb, hr⟩ := hc.links a layer l hl
    exact ⟨hb.congr rfl (le_refl _) fun _ _ _ hx ↦ hx, hr⟩

theorem elect_frame (h : Hnsw) (byLayer : List (List ℕ)) :
    (h.elect byLayer).nodes = h.nodes ∧ (h.elect byLayer).pks = h.pks ∧
      (h.elect byLayer).annMeta.nextId = h.annMeta.nextId ∧
      (h.elect byLayer).annMeta.metric = h.annMeta.metric := by
  rw [elect]
  dsimp only
  split <;> exact ⟨rfl, rfl, rfl, rfl⟩

/-- The index right after the node `id` of `pk` is deleted, before its neighbours are repaired. -/
def unplaced (h : Hnsw) (pk : Bytes) (id : ℕ) : Hnsw :=
  { h with
    pks := h.pks.erase pk
    nodes := h.nodes.erase id
    annMeta := { h.annMeta with count := h.annMeta.count - 1 } }

theorem node_unplaced {h : Hnsw} {pk : Bytes} {id a : ℕ} {n : Node} :
    (h.unplaced pk id).node a = some n ↔ a ≠ id ∧ h.node a = some n := by
  rw [node, unplaced, OrdMap.get?_erase]
  split
  · simp_all
  · simp_all [node]

theorem Inv.unplaced_core {h h' : Hnsw} {pk : Bytes} {id : ℕ} {n : Node} (hi : h.Inv)
    (hpk : h.pks.get? pk = some id) (hn : h.node id = some n) (hlinks : h'.LinksOk)
    (hnodes : h'.nodes = (h.unplaced pk id).nodes)
    (hmeta : h'.annMeta = (h.unplaced pk id).annMeta)
    (hpks : h'.pks = (h.unplaced pk id).pks) : h'.Core := by
  have hnode : ∀ a x, h'.node a = some x ↔ a ≠ id ∧ h.node a = some x := by
    intro a x
    rw [← node_unplaced, node, hnodes]
    rfl
  refine ⟨fun pk' a ↦ ?_, ?_, hlinks, fun a x hx ↦ ?_, fun a x hx ↦ ?_⟩
  · simp only [hnode]
    rw [hpks, unplaced, OrdMap.get?_erase]
    split
    · rename_i hpp
      constructor
      · intro hc
        exact absurd hc (by simp)
      · rintro ⟨x, ⟨hne, hx⟩, hxpk⟩
        have := (hi.pks pk a).mpr ⟨x, hx, hxpk.trans hpp⟩
        rw [hpk, Option.some_inj] at this
        exact absurd this.symm hne
    · rename_i hpp
      rw [hi.pks]
      constructor
      · rintro ⟨x, hx, hxpk⟩
        refine ⟨x, ⟨?_, hx⟩, hxpk⟩
        rintro rfl
        have := (hi.pks pk' a).mpr ⟨x, hx, hxpk⟩
        obtain ⟨y, hy, hypk⟩ := (hi.pks pk a).mp hpk
        rw [hx, Option.some_inj] at hy
        exact hpp (by rw [← hxpk, hy, hypk])
      · rintro ⟨x, ⟨-, hx⟩, hxpk⟩
        exact ⟨x, hx, hxpk⟩
  · have hsize := OrdMap.size_erase (show h.nodes.get? id = some n from hn)
    rw [hmeta, hnodes]
    change h.annMeta.count - 1 = (h.nodes.erase id).size
    rw [hi.count]
    omega
  · rw [hmeta]
    exact hi.lt a x ((hnode a x).mp hx).2
  · rw [hmeta]
    exact hi.dim a x ((hnode a x).mp hx).2

/-- **Removal keeps the invariant**, and takes exactly the primary key out. -/
theorem remove_spec {h : Hnsw} (hi : h.Inv) (pk : Bytes) :
    (h.remove g pk).Inv ∧ h.Extends (h.remove g pk) ∧ ∀ pk',
      ((h.remove g pk).pks.get? pk').isSome ↔ pk' ≠ pk ∧ (h.pks.get? pk').isSome := by
  rw [remove]
  split
  · rename_i hnone
    refine ⟨hi, Extends.refl h, fun pk' ↦ ⟨fun hs ↦ ⟨?_, hs⟩, fun hs ↦ hs.2⟩⟩
    rintro rfl
    rw [hnone] at hs
    exact absurd hs (by simp)
  · rename_i id hpk
    obtain ⟨n, hn, hnpk⟩ := (hi.pks pk id).mp hpk
    rw [hn]
    have hu : (h.unplaced pk id).UnlinkedBelow id n.level 0 := by
      intro a layer l hl
      obtain ⟨hb, x, hx, hle⟩ := hi.links a layer l hl
      refine ⟨hb.congr rfl (le_refl _) fun t _ y hy ↦ (node_unplaced.mp hy).2, ?_⟩
      by_cases haid : a = id
      · subst haid
        rw [hn, Option.some_inj] at hx
        exact Or.inr ⟨rfl, Nat.zero_le _, hx ▸ hle⟩
      · exact Or.inl ⟨x, node_unplaced.mpr ⟨haid, hx⟩, hle⟩
    obtain ⟨hu', hnodes, hmeta, hpks⟩ := unlinkLayers_spec g (n.level + 1) hu
    change let st := (List.range (n.level + 1)).foldl (unlinkLayer g id) (h.unplaced pk id, [])
      (if st.1.annMeta.entry = some id then st.1.elect st.2 else st.1).Inv ∧
        h.Extends (if st.1.annMeta.entry = some id then st.1.elect st.2 else st.1) ∧ ∀ pk',
          ((if st.1.annMeta.entry = some id then st.1.elect st.2 else st.1).pks.get? pk').isSome ↔
            pk' ≠ pk ∧ (h.pks.get? pk').isSome
    intro st
    have hlinks : st.1.LinksOk := by
      intro a layer l hl
      obtain ⟨hb, hr⟩ := hu' a layer l hl
      exact ⟨hb, hr.resolve_right fun hc ↦ absurd (le_trans hc.2.1 hc.2.2) (by omega)⟩
    have hcore : st.1.Core := hi.unplaced_core hpk hn hlinks hnodes hmeta hpks
    have hpkIff : ∀ pk', (st.1.pks.get? pk').isSome ↔ pk' ≠ pk ∧ (h.pks.get? pk').isSome := by
      intro pk'
      rw [hpks, unplaced, OrdMap.get?_erase]
      split <;> simp_all
    have hext : h.Extends st.1 := by
      have hold : ∀ a x, st.1.node a = some x → h.node a = some x := fun a x hx ↦ by
        rw [node, hnodes] at hx
        exact (node_unplaced.mp hx).2
      exact ⟨by rw [hmeta]; exact le_refl _, fun a x _ hx ↦ hold a x hx, by rw [hmeta]; rfl,
        fun hl a x hx ↦ hl a x (hold a x hx)⟩
    split
    · obtain ⟨h1, h2, h3, h4⟩ := elect_frame st.1 st.2
      refine ⟨elect_spec st.2 hcore, ⟨?_, fun a x hlt hx ↦ ?_, h4.trans hext.metric,
        fun hl a x hx ↦ hext.levels hl a x (by rwa [node, h1] at hx)⟩, ?_⟩
      · rw [h3]
        exact hext.nextId
      · exact hext.node a x hlt (by rwa [node, h1] at hx)
      · rw [h2]
        exact hpkIff
    · rename_i hentry
      refine ⟨⟨hcore.pks, hcore.count, ?_, fun e he ↦ ?_, hlinks, hcore.lt, hcore.dim⟩, hext,
        hpkIff⟩
      · -- the entry point is another live node, so the index is not empty
        have hold : st.1.annMeta.entry = h.annMeta.entry := by rw [hmeta]; rfl
        have hsome : h.annMeta.entry ≠ none := by
          intro hc
          have hz := OrdMap.size_eq_zero.mp (hi.count.symm.trans (hi.entry_none.mp hc)) id
          rw [node, hz] at hn
          exact absurd hn (by simp)
        obtain ⟨e, he⟩ := Option.ne_none_iff_exists'.mp hsome
        obtain ⟨x, hx, -⟩ := hi.entry_some e he
        have hne : e ≠ id := by
          rintro rfl
          exact hentry (hold.trans he)
        have hlive : st.1.node e = some x := by
          rw [node, hnodes]
          exact node_unplaced.mpr ⟨hne, hx⟩
        refine ⟨fun hc ↦ absurd (hold.symm.trans hc) hsome, fun h0 ↦ ?_⟩
        have hz := OrdMap.size_eq_zero.mp (hcore.count.symm.trans h0) e
        rw [node, hz] at hlive
        exact absurd hlive (by simp)
      · have hold : h.annMeta.entry = some e := by rw [hmeta] at he; exact he
        obtain ⟨x, hx, hlevel⟩ := hi.entry_some e hold
        have hne : e ≠ id := by
          rintro rfl
          exact hentry he
        refine ⟨x, ?_, hlevel.trans (by rw [hmeta]; rfl)⟩
        rw [node, hnodes]
        exact node_unplaced.mpr ⟨hne, hx⟩

theorem annMeta_unlinkLayer (id layer : ℕ) (st : Hnsw × List (List ℕ)) :
    (unlinkLayer g id st layer).1.annMeta = st.1.annMeta := by
  rw [unlinkLayer]
  refine List.foldlRecOn (motive := fun h : Hnsw ↦ h.annMeta = st.1.annMeta) _ _ rfl
    fun h hh n _ ↦ ?_
  rw [unlink]
  split
  · exact hh
  · dsimp only
    split
    · exact hh
    · exact hh

theorem dim_remove (h : Hnsw) (pk : Bytes) :
    (h.remove g pk).annMeta.dim = h.annMeta.dim := by
  have hloop : ∀ (layers : List ℕ) (id : ℕ) (st : Hnsw × List (List ℕ)),
      (layers.foldl (unlinkLayer g id) st).1.annMeta.dim = st.1.annMeta.dim := fun layers id st ↦
    List.foldlRecOn
      (motive := fun st' : Hnsw × List (List ℕ) ↦ st'.1.annMeta.dim = st.1.annMeta.dim) _ _ rfl
      fun st' hst layer _ ↦ (congrArg AnnMeta.dim (annMeta_unlinkLayer g id layer st')).trans hst
  rw [remove]
  split
  · rfl
  · dsimp only
    split
    · rfl
    · split
      · rw [elect]
        split <;> exact hloop (List.range _) _ (_, [])
      · exact hloop (List.range _) _ (_, [])

/-! ## Values that compare equal -/

theorem component_congr {a b : PropValue} (h : a.eqv b = true) :
    (component a = none ∧ component b = none) ∨
      ∃ x y, component a = some x ∧ component b = some y ∧ x.SameNumber y := by
  cases a <;> cases b <;> simp only [PropValue.eqv, Bool.false_eq_true] at h <;>
    first
    | exact Or.inl ⟨rfl, rfl⟩
    | skip
  · exact Or.inr ⟨_, _, rfl, rfl, Or.inl (by rw [beq_iff_eq.mp h])⟩
  · refine Or.inr ⟨_, _, rfl, rfl, ?_⟩
    rcases IeeeFloat.sameNumber_of_eqv h with rfl | ⟨hx, hy⟩
    · exact Or.inl rfl
    · exact Or.inr ⟨IeeeFloat.magnitude_convert_of_zero hx (by decide),
        IeeeFloat.magnitude_convert_of_zero hy (by decide)⟩

theorem mapM_component_congr {x y : List PropValue} (h : PropValue.eqvList x y = true) :
    (x.mapM component = none ∧ y.mapM component = none) ∨
      ∃ u v, x.mapM component = some u ∧ y.mapM component = some v ∧
        List.Forall₂ IeeeFloat.SameNumber u v := by
  induction x generalizing y with
  | nil =>
    cases y with
    | nil => exact Or.inr ⟨[], [], rfl, rfl, List.Forall₂.nil⟩
    | cons b y => simp [PropValue.eqvList] at h
  | cons a x ih =>
    cases y with
    | nil => simp [PropValue.eqvList] at h
    | cons b y =>
      rw [PropValue.eqvList, Bool.and_eq_true] at h
      rcases component_congr h.1 with ⟨ha, hb⟩ | ⟨u, v, ha, hb, huv⟩
      · exact Or.inl ⟨by simp [ha], by simp [hb]⟩
      · rcases ih h.2 with ⟨hx, hy⟩ | ⟨us, vs, hx, hy, hs⟩
        · exact Or.inl ⟨by simp [ha, hx], by simp [hb, hy]⟩
        · exact Or.inr ⟨u :: us, v :: vs, by simp [ha, hx], by simp [hb, hy],
            List.Forall₂.cons huv hs⟩

theorem norm_congr {u v : List F32} (h : List.Forall₂ IeeeFloat.SameNumber u v) :
    norm u = norm v := by
  have hsq : u.map (fun x ↦ x.mul x) = v.map fun x ↦ x.mul x := by
    induction h with
    | nil => rfl
    | cons hx _ ih => rw [List.map_cons, List.map_cons, hx.mul_self, ih]
  rw [norm, norm, hsq]

theorem accepts_congr {metric : VectorMetric} {u v : List F32}
    (h : List.Forall₂ IeeeFloat.SameNumber u v) : Accepts metric u ↔ Accepts metric v := by
  have hnil : u = [] ↔ v = [] := by
    rw [← List.length_eq_zero_iff, h.length_eq, List.length_eq_zero_iff]
  have hprep : (prepare metric u).isSome = (prepare metric v).isSome := by
    cases metric with
    | cosine =>
      rw [prepare, prepare, norm_congr h]
      split <;> rfl
    | dot => rfl
    | euclidean => rfl
  rw [Accepts, Accepts, hprep, ne_eq, ne_eq, hnil]

/-- The column values whose rows belong in the index. -/
def Indexable (metric : VectorMetric) (value : Option PropValue) : Prop :=
  ∃ v, value.bind vectorOf = some v ∧ Accepts metric v

theorem indexable_congr {metric : VectorMetric} {a b : Option PropValue}
    (h : PropValue.eqvOption a b = true) : Indexable metric a ↔ Indexable metric b := by
  cases a with
  | none =>
    cases b with
    | none => exact Iff.rfl
    | some b => simp [PropValue.eqvOption] at h
  | some a =>
    cases b with
    | none => simp [PropValue.eqvOption] at h
    | some b =>
      rw [PropValue.eqvOption] at h
      have hnone : vectorOf a = none → vectorOf b = none →
          (Indexable metric (some a) ↔ Indexable metric (some b)) := fun ha hb ↦ by
        simp [Indexable, ha, hb]
      cases a <;> cases b <;> simp only [PropValue.eqv, Bool.false_eq_true] at h <;>
        first
        | exact hnone rfl rfl
        | skip
      · rw [beq_iff_eq.mp h]
      · rcases mapM_component_congr h with ⟨hx, hy⟩ | ⟨u, v, hx, hy, huv⟩
        · exact hnone hx hy
        · simp [Indexable, vectorOf, hx, hy, accepts_congr huv]

/-! ## Row changes -/

/-- The index holds exactly the primary keys of the rows that belong in it. -/
def Mirrors (h : Hnsw) (value : Bytes → Option PropValue) : Prop :=
  ∀ pk, (h.pks.get? pk).isSome ↔ Indexable h.annMeta.metric (value pk)

/-- No vector with `2 ^ 32` components or more: the stored dimension is a `u32`. -/
def Fits (value : Option PropValue) : Prop :=
  ∀ v, value.bind vectorOf = some v → v.length < 2 ^ 32

/-- **A row change keeps the invariant and the correspondence with the rows.** -/
theorem onChange_spec {h h' : Hnsw} {value : Bytes → Option PropValue} {pk : Bytes}
    {after : Option PropValue} (hi : h.Inv) (hm : h.Mirrors value) (hfits : Fits after)
    (hc : h.onChange g pk (value pk) after = .ok h') :
    h'.Inv ∧ h.Extends h' ∧ h'.Mirrors (Function.update value pk after) := by
  rw [onChange] at hc
  split at hc
  · rename_i heqv
    obtain rfl := Except.ok.inj hc
    refine ⟨hi, Extends.refl h, fun pk' ↦ ?_⟩
    by_cases hpp : pk' = pk
    · subst hpp
      rw [Function.update_self, hm pk', indexable_congr heqv]
    · rw [Function.update_of_ne hpp, hm pk']
  · -- the old value is out of the index before the new one goes in
    set h₁ := if (value pk).isSome then h.remove g pk else h with hh₁
    have hrem : h₁.Inv ∧ h.Extends h₁ ∧ ∀ pk',
        (h₁.pks.get? pk').isSome ↔ pk' ≠ pk ∧ (h.pks.get? pk').isSome := by
      rw [hh₁]
      split
      · exact remove_spec g hi pk
      · rename_i hnone
        refine ⟨hi, Extends.refl h, fun pk' ↦ ⟨fun hs ↦ ⟨?_, hs⟩, fun hs ↦ hs.2⟩⟩
        rintro rfl
        obtain ⟨v, hv, -⟩ := (hm pk').mp hs
        rw [Option.not_isSome_iff_eq_none.mp hnone] at hv
        exact absurd hv (by simp)
    obtain ⟨hi₁, hext₁, hpks₁⟩ := hrem
    have hpk₁ : h₁.pks.get? pk = none := by
      rw [← Option.not_isSome_iff_eq_none, hpks₁]
      simp
    cases hv : after.bind vectorOf with
    | none =>
      rw [hv] at hc
      obtain rfl := Except.ok.inj hc
      refine ⟨hi₁, hext₁, fun pk' ↦ ?_⟩
      by_cases hpp : pk' = pk
      · subst hpp
        rw [Function.update_self, Indexable, hv, hpk₁]
        simp
      · rw [Function.update_of_ne hpp, hpks₁ pk', hm pk', hext₁.metric]
        simp [hpp]
    | some v =>
      rw [hv] at hc
      obtain ⟨hi', hext', hpks'⟩ := add_spec g hi₁ hpk₁ (hfits v hv) hc
      refine ⟨hi', hext₁.trans hext', fun pk' ↦ ?_⟩
      rw [hpks', hext'.metric]
      by_cases hpp : pk' = pk
      · subst hpp
        rw [Function.update_self, Indexable, hv, hpk₁]
        simp
      · rw [Function.update_of_ne hpp, hpks₁ pk', hm pk', hext₁.metric]
        simp [hpp]

/-! ## The entry point is never lost -/

theorem descend_isOk {h : Hnsw} {e : ℕ} {n : Node} (he : h.annMeta.entry = some e)
    (hn : h.node e = some n) (q : List F32) (downTo : ℕ) :
    ∃ eps, h.descend g q downTo = .ok eps := by
  rw [descend, he, Except.ofOption, Except.ok_bind, cand, hn]
  exact ⟨_, rfl⟩

/-- **Search does not fail** as long as the entry point is live. -/
theorem search_isOk {h : Hnsw} (hlive : ∀ e, h.annMeta.entry = some e → ∃ n, h.node e = some n)
    (q : List F32) (ef : ℕ) : ∃ l, h.search g q ef = .ok l := by
  rw [search]
  split
  · exact ⟨[], rfl⟩
  · rename_i hsome
    obtain ⟨e, he⟩ := Option.ne_none_iff_exists'.mp hsome
    obtain ⟨n, hn⟩ := hlive e he
    obtain ⟨eps, heps⟩ := descend_isOk g he hn q 0
    rw [heps]
    exact ⟨_, rfl⟩

theorem link_isOk {h h₀ : Hnsw} {n : Node} (hi : h₀.Inv) (hp : h₀.place n = .ok h) (id : ℕ) :
    ∃ h', h.link g id n = .ok h' := by
  have hplace := place_eq_ok hp
  rw [link]
  split
  · exact ⟨_, rfl⟩
  · rename_i hsome
    obtain ⟨e, he⟩ := Option.ne_none_iff_exists'.mp hsome
    obtain ⟨x, hx, -⟩ := hi.entry_some e (by rw [hplace] at he; exact he)
    have hxe : h.node e = some x := by
      rw [hplace]
      exact (OrdMap.get?_insert_of_ne _ _ (ne_of_lt (hi.lt e x hx))).trans hx
    obtain ⟨eps, heps⟩ := descend_isOk g he hxe n.vector (min n.level h.annMeta.maxLevel)
    dsimp only
    rw [heps, Except.ok_bind]
    exact ⟨_, rfl⟩

/-- Past the check of the dimension, insertion fails on an overflow only. -/
theorem add_panics {h h₁ : Hnsw} {pk : Bytes} {v : List F32} {e : BknError} (hi : h.Inv)
    (hlen : v.length < 2 ^ 32) (hd : h.checkDim v.length = .ok h₁)
    (ha : h.add g pk v = .error e) : ∃ message, e = .panic message := by
  rw [add] at ha
  split at ha
  · exact absurd ha (by simp [pure, Except.pure])
  · obtain ⟨hi₁, -⟩ := hi.checkDim hd hlen
    rw [hd, Except.ok_bind] at ha
    split at ha
    · exact absurd ha (by simp [pure, Except.pure])
    · dsimp only at ha
      rw [Except.bind_eq_error] at ha
      rcases ha with hp | ⟨h₂, hp, hl⟩
      · simp only [place, Except.bind_eq_error] at hp
        rcases hp with hn | ⟨_, -, hc | ⟨_, -, hend⟩⟩
        · exact panic_of_checkedAdd hn
        · exact panic_of_checkedAdd hc
        · exact absurd hend (by simp [pure, Except.pure])
      · obtain ⟨h', hl'⟩ := link_isOk g hi₁ hp h₁.annMeta.nextId
        rw [hl'] at hl
        simp at hl

/-- Insertion fails on an overflow or on a vector of another dimension only. -/
theorem add_error {h : Hnsw} {pk : Bytes} {v : List F32} {e : BknError} (hi : h.Inv)
    (hlen : v.length < 2 ^ 32) (ha : h.add g pk v = .error e) :
    (∃ message, e = .panic message) ∨ ∃ message, e = .invalidQuery message := by
  cases hd : h.checkDim v.length with
  | ok h₁ => exact .inl (add_panics g hi hlen hd ha)
  | error e' =>
    have hquery : ∃ message, e' = .invalidQuery message := by
      rw [checkDim] at hd
      split at hd
      · simp at hd
      · split at hd
        · simp at hd
        · exact ⟨_, (Except.error.inj hd).symm⟩
    rw [add] at ha
    split at ha
    · exact absurd ha (by simp [pure, Except.pure])
    · rw [hd, Except.error_bind] at ha
      exact .inr (Except.error.inj ha ▸ hquery)

/-- **Following a row change never loses the entry point**: it fails on an overflow or on a vector of
another dimension only. -/
theorem onChange_error {h : Hnsw} {pk : Bytes} {before after : Option PropValue} {e : BknError}
    (hi : h.Inv) (hfits : Fits after) (hc : h.onChange g pk before after = .error e) :
    (∃ message, e = .panic message) ∨ ∃ message, e = .invalidQuery message := by
  rw [onChange] at hc
  split at hc
  · exact absurd hc (by simp [pure, Except.pure])
  · have hi₁ : (if before.isSome = true then h.remove g pk else h).Inv := by
      split
      · exact (remove_spec g hi pk).1
      · exact hi
    dsimp only at hc
    split at hc
    · rename_i v hv
      exact add_error g hi₁ (hfits v hv) hc
    · exact absurd hc (by simp [pure, Except.pure])

end Hnsw

end Ann
