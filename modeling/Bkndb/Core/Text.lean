import Bkndb.Core.Value

/-!
# Text

The Unicode tables of the standard library, taken as a parameter with the two properties the
engine relies on, and the text functions built on them: `LIKE` matching and tokenizing.

## What is assumed of Unicode

The tables of the standard library are large and change with its version, so they are a parameter,
`Unicode`. What the engine relies on is that NUL is neither a letter nor a digit and that
lowercasing brings in none, since a NUL ends a token in a key. `Unicode.ascii` is an instance, on
which the definitions can be evaluated.

## Bytes of text

Only NUL is encoded with a zero byte: this is the one fact about UTF-8 that the key encodings need
besides that it is injective.
-/

/-- The Unicode properties used: `char::is_alphanumeric`, `char::to_lowercase` and
`str::to_lowercase`. Neither letters, digits nor lowercased text bring in a NUL character. -/
class Unicode where
  isAlphanumeric : Char → Bool
  charToLowercase : Char → List Char
  toLowercase : String → String
  isAlphanumeric_nul : isAlphanumeric '\x00' = false
  toLowercase_nul : ∀ s, '\x00' ∉ s.toList → '\x00' ∉ (toLowercase s).toList

/-- On ASCII characters the tables are those of ASCII. -/
def Unicode.AgreesOnAscii [Unicode] : Prop :=
  ∀ c : Char, c.val.toNat ≤ 0x7f → Unicode.isAlphanumeric c = c.isAlphanum

theorem Char.eq_nul_of_toLower {c : Char} (h : c.toLower = '\x00') : c = '\x00' := by
  delta Char.toLower at h
  split at h
  · rename_i hup
    have hval : (c.val + ('a'.val - 'A'.val)).toNat = 0 :=
      congrArg (fun c : Char ↦ c.val.toNat) h
    have hle : c.val.toNat ≤ 90 := hup.2
    rw [UInt32.toNat_add] at hval
    have h32 : ('a'.val - 'A'.val).toNat = 32 := by decide
    omega
  · exact h

/-- The tables restricted to ASCII. -/
@[reducible] def Unicode.ascii : Unicode where
  isAlphanumeric := Char.isAlphanum
  charToLowercase c := [c.toLower]
  toLowercase s := String.ofList (s.toList.map Char.toLower)
  isAlphanumeric_nul := by decide
  toLowercase_nul s h := by
    rw [String.toList_ofList, List.mem_map]
    rintro ⟨c, hc, hc0⟩
    exact h (Char.eq_nul_of_toLower hc0 ▸ hc)

/-! ## Bytes of text -/

theorem String.utf8_eq_flatMap (s : String) :
    s.utf8 = s.toList.flatMap String.utf8EncodeChar := by
  rw [String.utf8, ← String.utf8Encode_toList, List.utf8Encode]
  exact List.toList_data_toByteArray

theorem Char.zero_notMem_utf8EncodeChar {c : Char} (h : c ≠ '\x00') :
    0 ∉ String.utf8EncodeChar c := by
  have hv : c.val.toNat ≠ 0 := by
    intro h0
    exact h (Char.ext (UInt32.toNat_inj.mp h0))
  have hne : ∀ n, n % 256 ≠ 0 → (0 : UInt8) ≠ UInt8.ofNat n := by
    intro n hn h0
    have := congrArg UInt8.toNat h0
    rw [UInt8.toNat_ofNat'] at this
    exact hn this.symm
  rw [String.utf8EncodeChar]
  split_ifs <;> simp only [List.mem_cons, List.not_mem_nil, or_false, not_or]
  · exact hne _ (by omega)
  · exact ⟨hne _ (by omega), hne _ (by omega)⟩
  · exact ⟨hne _ (by omega), hne _ (by omega), hne _ (by omega)⟩
  · exact ⟨hne _ (by omega), hne _ (by omega), hne _ (by omega), hne _ (by omega)⟩

/-- Only NUL is encoded with a zero byte. -/
theorem String.zero_notMem_utf8 {s : String} (h : '\x00' ∉ s.toList) : 0 ∉ s.utf8 := by
  rw [String.utf8_eq_flatMap, List.mem_flatMap]
  rintro ⟨c, hc, h0⟩
  exact Char.zero_notMem_utf8EncodeChar (fun hc0 ↦ h (hc0 ▸ hc)) h0

theorem mem_splitOnP {p : Char → Bool} {l w : List Char} (hw : w ∈ l.splitOnP p) :
    ∀ c ∈ w, p c = false := by
  suffices H : ∀ (l acc : List Char), (∀ c ∈ acc, p c = false) →
      ∀ w ∈ l.splitOnPPrepend p acc, ∀ c ∈ w, p c = false from H l [] (by simp) w hw
  intro l
  induction l with
  | nil =>
    intro acc hacc w hw
    simp only [List.splitOnPPrepend, List.mem_singleton] at hw
    subst hw
    simpa using hacc
  | cons c l ih =>
    intro acc hacc w hw
    rw [List.splitOnPPrepend_cons_eq_if] at hw
    split at hw
    · rcases List.mem_cons.mp hw with rfl | hw
      · simpa using hacc
      · exact ih [] (by simp) w hw
    · rename_i hc
      have hcons : ∀ x ∈ c :: acc, p x = false := by
        simpa [hacc] using ⟨eq_false_of_ne_true hc, hacc⟩
      exact ih (c :: acc) hcons w hw

theorem filter_splitOnP_words {p : Char → Bool} {s : Char} (hs : p s = true)
    {words : List (List Char)} (h : ∀ w ∈ words, w ≠ [] ∧ ∀ c ∈ w, p c = false) :
    ((words.flatMap (· ++ [s])).splitOnP p).filter (· ≠ []) = words := by
  induction words with
  | nil => rfl
  | cons w words ih =>
    obtain ⟨hne, hw⟩ := h w List.mem_cons_self
    rw [List.flatMap_cons, List.append_assoc, List.singleton_append,
      List.splitOnP_append_cons_of_forall_mem hw s hs, List.filter_cons_of_pos (by simpa using hne),
      ih fun w hw ↦ h w (List.mem_cons_of_mem _ hw)]

/-! ## `LIKE`

The loop is the one of the source, with its two positions and the place to resume from, and a bound
on its iterations in place of the measure by which it ends. -/

section

variable [Unicode]

/-- The characters compared, lowercased for `ILIKE`. -/
def likeFold (caseInsensitive : Bool) (s : String) : List Char :=
  if caseInsensitive then s.toList.flatMap Unicode.charToLowercase else s.toList

/-- Greedy matching with backtracking to the last `%`: positions in the text and the pattern, and
the positions to resume from. Each retry starts one character later, so the fuel is never used up
when it is at least `(t.length + 2) * (p.length + 2)`. -/
def likeLoop (t p : List Char) : ℕ → ℕ → ℕ → Option (ℕ × ℕ) → Bool
  | 0, _, _, _ => false
  | fuel + 1, ti, pi, star =>
    match t[ti]? with
    | none => (p.drop pi).all (· == '%')
    | some c =>
      if p[pi]?.any fun x ↦ x == '_' || (x != '%' && x == c) then
        likeLoop t p fuel (ti + 1) (pi + 1) star
      else if p[pi]? = some '%' then likeLoop t p fuel ti (pi + 1) (some (pi, ti))
      else
        match star with
        | some (sp, st) => likeLoop t p fuel (st + 1) (sp + 1) (some (sp, st + 1))
        | none => false

/-- SQL `LIKE` matching: `%` is any run of characters, `_` exactly one. -/
def likeMatches (text pattern : String) (caseInsensitive : Bool) : Bool :=
  let t := likeFold caseInsensitive text
  let p := likeFold caseInsensitive pattern
  likeLoop t p ((t.length + 2) * (p.length + 2)) 0 0 none

/-! ## Tokens -/

/-- Lowercase runs of letters and digits. -/
def tokenize (text : String) : List String :=
  ((text.toList.splitOnP fun c ↦ !Unicode.isAlphanumeric c).filter (· ≠ [])).map
    fun w ↦ Unicode.toLowercase (String.ofList w)

/-- **Terms hold no NUL byte**, so a NUL can end them in a key. -/
theorem zero_notMem_of_mem_tokenize {text t : String} (h : t ∈ tokenize text) : 0 ∉ t.utf8 := by
  obtain ⟨w, hw, rfl⟩ := List.mem_map.mp h
  refine String.zero_notMem_utf8 (Unicode.toLowercase_nul _ ?_)
  rw [String.toList_ofList]
  intro h0
  have := mem_splitOnP (List.mem_of_mem_filter hw) _ h0
  rw [Unicode.isAlphanumeric_nul] at this
  exact absurd this (by simp)

end

theorem tokenize_words {words : List (List Char)}
    (h : ∀ w ∈ words, w ≠ [] ∧ ∀ c ∈ w, c.isAlphanum = true) :
    @tokenize Unicode.ascii (String.ofList (words.flatMap (· ++ [' ']))) =
      words.map fun w ↦ String.ofList (w.map Char.toLower) := by
  unfold tokenize
  rw [String.toList_ofList, filter_splitOnP_words (by rfl) fun w hw ↦
    ⟨(h w hw).1, fun c hc ↦ by simpa [Unicode.isAlphanumeric] using (h w hw).2 c hc⟩]
  refine List.map_congr_left fun w _ ↦ ?_
  show String.ofList ((String.ofList w).toList.map Char.toLower) = _
  rw [String.toList_ofList]
