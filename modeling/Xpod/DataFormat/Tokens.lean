import Mathlib.Data.List.TakeWhile
import Mathlib.Tactic
import Xpod.Common.Java
import Xpod.Common.Json
import Xpod.DataFormat.Model.Json
/-!
# The tokens of the JSON reader

How the reader takes whitespace, strings, and values without quotes, where
they are those of JSON. A value without quotes takes the spaces behind it
as well, so the text that is left is determined up to whitespace.
-/

namespace Xpod

namespace DataFormat

open Java (Units unit units)
open JSONTokener

/-! ## Whitespace -/

section Clean

variable {c : UInt16} {s : Units}

@[simp] theorem clean_blank (w : List Json.Space) (s : Units) :
    clean (Json.blank w ++ s) = clean s := by
  induction w with
  | nil => rfl
  | cons b w ih =>
    have hb : (b.text != 0 && b.text ≤ unit ' ') = true := by
      cases b <;> decide
    rw [Json.blank, List.map_cons, List.cons_append, clean, List.dropWhile_cons, if_pos hb]
    exact ih

theorem clean_cons (h : unit ' ' < c) : clean (c :: s) = c :: s := by
  have hc : ¬ (c != 0 && c ≤ unit ' ') = true := by
    simp only [Bool.and_eq_true, decide_eq_true_eq, not_and]
    exact fun _ => UInt16.not_le.2 h
  rw [clean, List.dropWhile_cons, if_neg hc]

end Clean

/-! ## Strings -/

section Strings

variable (P : Platform)

theorem hexDigit_ascii (h : Json.HexDigit) : h.text < 128 := by
  have hvalid := h.valid
  rw [Json.hexValue] at hvalid
  split_ifs at hvalid with h₁ h₂ h₃
  · exact UInt16.lt_of_le_of_lt h₁.2 (by decide)
  · exact UInt16.lt_of_le_of_lt h₂.2 (by decide)
  · exact UInt16.lt_of_le_of_lt h₃.2 (by decide)

theorem digit_hexDigit (h : Json.HexDigit) : P.digit h.text = some h.value := by
  rw [P.digit_ascii _ (hexDigit_ascii h)]
  exact h.valid

theorem hexDigit_ne (h : Json.HexDigit) {c : UInt16} (hc : Json.hexValue c = none) :
    h.text ≠ c := by
  rintro rfl
  rw [h.valid] at hc
  exact absurd hc (by simp)

theorem parseHex_hexDigits (h₁ h₂ h₃ h₄ : Json.HexDigit) :
    parseHex P [h₁.text, h₂.text, h₃.text, h₄.text] =
      some (Json.Piece.hex h₁ h₂ h₃ h₄).value := by
  rw [parseHex, if_neg (hexDigit_ne h₁ (by decide)), if_neg (hexDigit_ne h₁ (by decide)), hexDigits]
  simp [List.foldlM_cons, digit_hexDigit, Json.Piece.value]

/-- **A string is read to its quote.** -/
theorem nextString_text (name : List Json.Piece) (rest : Units) :
    nextString P (unit '"') (name.flatMap Json.Piece.text ++ unit '"' :: rest) =
      .ok (Json.stringValue name, rest) := by
  induction name with
  | nil =>
    rw [List.flatMap_nil, List.nil_append, nextString.eq_def]
    simp only [if_neg (show ¬ (unit '"' = 0 ∨ unit '"' = unit '\n' ∨ unit '"' = unit '\r') by
      decide), if_neg (show ¬ unit '"' = unit '\\' by decide), if_true]
    rfl
  | cons p name ih =>
    rw [List.flatMap_cons, List.append_assoc]
    cases p with
    | raw c valid =>
      obtain ⟨hle, hquote, hbackslash⟩ := valid
      have hend : ¬ (c = 0 ∨ c = unit '\n' ∨ c = unit '\r') := by
        rintro (rfl | rfl | rfl)
        · exact absurd hle (by decide)
        · exact absurd hle (by decide)
        · exact absurd hle (by decide)
      rw [Json.Piece.text, List.singleton_append, nextString.eq_def]
      simp only [if_neg hend, if_neg hbackslash, if_neg hquote, ih]
      rfl
    | escape e =>
      have hletter : e.letter ≠ unit 'u' ∧ escape e.letter = some e.value := by
        cases e <;> decide
      rw [Json.Piece.text, List.cons_append, List.singleton_append, nextString.eq_def]
      simp only [if_neg (show ¬ (unit '\\' = 0 ∨ unit '\\' = unit '\n' ∨ unit '\\' = unit '\r') by
        decide), if_true, if_neg hletter.1, hletter.2, ih]
      rfl
    | hex h₁ h₂ h₃ h₄ =>
      have hzero : ¬ (0 : UInt16) ∈ [h₁.text, h₂.text, h₃.text, h₄.text] := by
        have hne : ∀ h : Json.HexDigit, (0 : UInt16) ≠ h.text := fun h =>
          (hexDigit_ne h (by decide)).symm
        simp [hne]
      rw [Json.Piece.text]
      simp only [List.cons_append, List.nil_append]
      rw [nextString.eq_def]
      simp only [if_neg (show ¬ (unit '\\' = 0 ∨ unit '\\' = unit '\n' ∨ unit '\\' = unit '\r') by
        decide), if_true, if_neg hzero, parseHex_hexDigits, ih]
      rfl

end Strings

/-! ## Values without quotes -/

section Unquoted

variable {P : Platform} {c : UInt16} {u rest : Units}

/-- Whitespace and then a character that ends a value. -/
def Ends (rest : Units) : Prop :=
  ∃ w c s, rest = Json.blank w ++ c :: s ∧ c ∈ units ",:]\x7d"

/-- What a value without quotes takes of the whitespace behind it. -/
theorem Ends.takeWhile (h : Ends rest) :
    (∀ c ∈ rest.takeWhile isUnquoted, c ≤ unit ' ') ∧
      clean (rest.dropWhile isUnquoted) = clean rest := by
  obtain ⟨w, c, s, rfl, hc⟩ := h
  have hstop : isUnquoted c = false := by
    revert c
    decide
  induction w with
  | nil => simp [Json.blank, hstop]
  | cons b w ih =>
    have hclean : clean (Json.blank (b :: w) ++ c :: s) = clean (Json.blank w ++ c :: s) := by simp
    rw [hclean, Json.blank, List.map_cons, List.cons_append]
    by_cases hb : isUnquoted b.text = true
    · have hle : b.text ≤ unit ' ' := by
        cases b <;> decide
      rw [List.takeWhile_cons, if_pos hb, List.dropWhile_cons, if_pos hb]
      exact ⟨List.forall_mem_cons.2 ⟨hle, ih.1⟩, ih.2⟩
    · rw [List.takeWhile_cons, if_neg hb, List.dropWhile_cons, if_neg hb]
      exact ⟨by simp, hclean⟩

theorem trim_append {v : Units} (hu : ∀ c ∈ u, unit ' ' < c) (hv : ∀ c ∈ v, c ≤ unit ' ') :
    trim (u ++ v) = u := by
  have hdrop : v.reverse.dropWhile (· ≤ unit ' ') = [] := by
    refine List.dropWhile_eq_nil_iff.2 fun c hc => ?_
    exact decide_eq_true (hv c (List.mem_reverse.1 hc))
  have hkeep : u.reverse.dropWhile (· ≤ unit ' ') = u.reverse := by
    rcases hrev : u.reverse with - | ⟨c, s⟩
    · rfl
    · have hc : unit ' ' < c := hu c (List.mem_reverse.1 (hrev ▸ List.mem_cons_self))
      rw [List.dropWhile_cons, if_neg (by simpa using hc)]
  rw [trim, List.reverse_append, List.dropWhile_append, hdrop]
  simp [hkeep]

/-- A text `nextValue` takes for a value without quotes, if it stands in
front of one of the characters that end a value. -/
structure IsToken (u : Units) : Prop where
  ne_nil : u ≠ []
  unquoted : ∀ c ∈ u, isUnquoted c = true
  visible : ∀ c ∈ u, unit ' ' < c
  apostrophe : u.head? ≠ some (unit '\'')

theorem nextValue_token (h : IsToken u) (hrest : Ends rest) (w : List Json.Space) (fuel : ℕ) :
    (nextValue P (fuel + 1) (Json.blank w ++ u ++ rest)).map (fun r => (r.1, clean r.2)) =
      .ok (stringToValue P u, clean rest) := by
  obtain ⟨c, v, rfl⟩ := List.exists_cons_of_ne_nil h.ne_nil
  have hc := h.unquoted c List.mem_cons_self
  have hclean : clean (Json.blank w ++ c :: v ++ rest) = c :: (v ++ rest) := by
    rw [List.append_assoc, clean_blank, List.cons_append,
      clean_cons (h.visible c List.mem_cons_self)]
  have hquote : ¬ (c = unit '"' ∨ c = unit '\'') := by
    rintro (rfl | rfl)
    · exact absurd hc (by decide)
    · exact h.apostrophe rfl
  have hbrace : c ≠ unit '{' := by
    rintro rfl
    exact absurd hc (by decide)
  have hbracket : c ≠ unit '[' := by
    rintro rfl
    exact absurd hc (by decide)
  have htake : (c :: (v ++ rest)).takeWhile isUnquoted = c :: v ++ rest.takeWhile isUnquoted :=
    List.takeWhile_append_of_pos h.unquoted
  have hdrop : (c :: (v ++ rest)).dropWhile isUnquoted = rest.dropWhile isUnquoted :=
    List.dropWhile_append_of_pos h.unquoted
  obtain ⟨hblank, hleft⟩ := hrest.takeWhile
  rw [nextValue]
  simp only [hclean, List.headD_cons, if_neg hquote, if_neg hbrace, if_neg hbracket, htake, hdrop,
    trim_append h.visible hblank]
  rw [if_neg (List.cons_ne_nil c v), Except.map, hleft]

end Unquoted

/-! ## Numbers and literals -/

section Literals

variable {P : Platform}

theorem equalsIgnoreCase_self (s : Units) : equalsIgnoreCase P s s = true := by
  induction s with
  | nil => rfl
  | cons c s ih =>
    simp only [equalsIgnoreCase, decide_true, Bool.true_and] at ih ⊢
    simp [ih]

/-- Characters of ASCII that are no two forms of one letter. -/
def Differ (a b : UInt16) : Prop :=
  a < 128 ∧ b < 128 ∧ capital a < 128 ∧ capital b < 128 ∧
    a ≠ b ∧ capital a ≠ capital b ∧ small (capital a) ≠ small (capital b)

instance decidableDiffer (a b : UInt16) : Decidable (Differ a b) :=
  inferInstanceAs (Decidable (_ ∧ _))

theorem equalsIgnoreCase_of_differ {a b : UInt16} (h : Differ a b) (s t : Units) :
    equalsIgnoreCase P (a :: s) (b :: t) = false := by
  obtain ⟨ha, hb, hca, hcb, hne, hcapital, hsmall⟩ := h
  simp [equalsIgnoreCase, P.toUpperCaseChar_ascii a ha, P.toUpperCaseChar_ascii b hb,
    P.toLowerCaseChar_ascii _ hca, P.toLowerCaseChar_ascii _ hcb, hne, hcapital, hsmall]

/-- A text that starts like no literal is a string. -/
theorem stringToValue_of_differ {c : UInt16} (h : ∀ b ∈ units "tfn", Differ c b) (s : Units) :
    stringToValue P (c :: s) = .string (c :: s) := by
  have hlit : ∀ b ∈ units "tfn", ∀ t, equalsIgnoreCase P (c :: s) (b :: t) = false :=
    fun b hb t => equalsIgnoreCase_of_differ (h b hb) s t
  have htrue : equalsIgnoreCase P (c :: s) (units "true") = false :=
    hlit (unit 't') (by decide) _
  have hfalse : equalsIgnoreCase P (c :: s) (units "false") = false :=
    hlit (unit 'f') (by decide) _
  have hnull : equalsIgnoreCase P (c :: s) (units "null") = false :=
    hlit (unit 'n') (by decide) _
  rw [stringToValue, htrue, hfalse, hnull]
  rfl

/-- The characters of a number. -/
def isNumeric (c : UInt16) : Bool := (units "-+.0123456789eE").contains c

theorem isNumeric_digitText (d : Fin 10) : isNumeric (Json.digitText d) = true := by
  revert d
  decide

theorem isNumeric_of_mem_digits {ds : List (Fin 10)} {c : UInt16}
    (h : c ∈ ds.map Json.digitText) : isNumeric c = true := by
  obtain ⟨d, -, rfl⟩ := List.mem_map.1 h
  exact isNumeric_digitText d

theorem isNumeric_of_mem_exponent {e : Json.Exponent} {c : UInt16} (h : c ∈ e.text) :
    isNumeric c = true := by
  obtain ⟨capital, sign, first, others⟩ := e
  rw [Json.Exponent.text, List.mem_cons, List.mem_append] at h
  rcases h with rfl | h | h
  · have hletters : isNumeric (unit 'E') = true ∧ isNumeric (unit 'e') = true := by decide
    cases capital
    · exact hletters.2
    · exact hletters.1
  · rcases sign with - | - | -
    · simp at h
    · obtain rfl := List.mem_singleton.1 h
      decide
    · obtain rfl := List.mem_singleton.1 h
      decide
  · exact isNumeric_of_mem_digits h

theorem isNumeric_of_mem_number {n : Json.Number} {c : UInt16} (h : c ∈ n.text) :
    isNumeric c = true := by
  obtain ⟨minus, first, others, fraction, exponent, valid⟩ := n
  simp only [Json.Number.text, List.mem_append] at h
  rcases h with ((h | h) | h) | h
  · cases minus
    · simp at h
    · obtain rfl := List.mem_singleton.1 h
      decide
  · exact isNumeric_of_mem_digits h
  · rcases fraction with - | ⟨d, ds⟩
    · simp at h
    · rcases List.mem_cons.1 h with hpoint | h
      · rw [hpoint]
        decide
      · exact isNumeric_of_mem_digits h
  · rcases exponent with - | e
    · simp at h
    · exact isNumeric_of_mem_exponent h

/-- A number starts with its sign or a digit. -/
theorem number_head (n : Json.Number) :
    ∃ c s, n.text = c :: s ∧ (c = unit '-' ∨ ∃ d, c = Json.digitText d) := by
  obtain ⟨minus, first, others, fraction, exponent, valid⟩ := n
  cases minus with
  | false => exact ⟨_, _, rfl, Or.inr ⟨first, rfl⟩⟩
  | true => exact ⟨_, _, rfl, Or.inl rfl⟩

theorem stringToValue_number (n : Json.Number) : stringToValue P n.text = .string n.text := by
  obtain ⟨c, s, hn, hc⟩ := number_head n
  have hdigits : ∀ d : Fin 10, ∀ b ∈ units "tfn", Differ (Json.digitText d) b := by
    decide
  rw [hn]
  refine stringToValue_of_differ ?_ s
  rcases hc with rfl | ⟨d, rfl⟩
  · decide
  · exact hdigits d

theorem isToken_number (n : Json.Number) : IsToken n.text := by
  have hlist : ∀ c ∈ units "-+.0123456789eE",
      isUnquoted c = true ∧ unit ' ' < c ∧ c ≠ unit '\'' := by
    decide
  have hall : ∀ c, isNumeric c = true → isUnquoted c = true ∧ unit ' ' < c ∧ c ≠ unit '\'' :=
    fun c hc => hlist c (List.contains_iff_mem.1 hc)
  obtain ⟨c, s, hn, -⟩ := number_head n
  have hc := hall c (isNumeric_of_mem_number (n := n) (hn ▸ List.mem_cons_self))
  refine ⟨hn ▸ List.cons_ne_nil c s, fun c hc => (hall c (isNumeric_of_mem_number hc)).1,
    fun c hc => (hall c (isNumeric_of_mem_number hc)).2.1, ?_⟩
  rw [hn, List.head?_cons]
  exact fun h => hc.2.2 (Option.some.inj h)

theorem isToken_literal {u : Units} (h : u ∈ [units "true", units "false", units "null"]) :
    IsToken u := by
  have hall : ∀ u ∈ [units "true", units "false", units "null"], u ≠ [] ∧
      (∀ c ∈ u, isUnquoted c = true) ∧ (∀ c ∈ u, unit ' ' < c) ∧
        u.head? ≠ some (unit '\'') := by
    decide
  obtain ⟨hne, hunquoted, hvisible, happ⟩ := hall u h
  exact ⟨hne, hunquoted, hvisible, happ⟩

theorem stringToValue_literals :
    stringToValue P (units "true") = .bool true ∧
      stringToValue P (units "false") = .bool false ∧ stringToValue P (units "null") = .null := by
  have hfalse : equalsIgnoreCase P (units "false") (units "true") = false :=
    equalsIgnoreCase_of_differ (by decide) (units "alse") (units "rue")
  have hnull : equalsIgnoreCase P (units "null") (units "true") = false :=
    equalsIgnoreCase_of_differ (by decide) (units "ull") (units "rue")
  have hnull' : equalsIgnoreCase P (units "null") (units "false") = false :=
    equalsIgnoreCase_of_differ (by decide) (units "ull") (units "alse")
  refine ⟨?_, ?_, ?_⟩
  · rw [stringToValue, equalsIgnoreCase_self]
    rfl
  · rw [stringToValue, hfalse, equalsIgnoreCase_self]
    rfl
  · rw [stringToValue, hnull, hnull', equalsIgnoreCase_self]
    rfl

end Literals

end DataFormat

end Xpod
