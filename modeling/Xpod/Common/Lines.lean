import Mathlib.Data.List.Basic
import Mathlib.Tactic
import Xpod.Common.Utf8
/-!
# Lines

A line ends with a line feed, with a carriage return, with both in that
order, or with the text. The lines of a text are numbered by the offset at
which they begin; an offset in the midst of a line leads to the next line
by what is left of the line there.
-/

namespace Xpod

namespace Lines

section Lines

variable {α : Type*} [DecidableEq α] (cr lf : α)

/-- The length of the first line, with its end. -/
def lineLength : List α → ℕ
  | [] => 0
  | x :: xs =>
    if x = lf then 1
    else if x = cr then if xs.head? = some lf then 2 else 1
    else lineLength xs + 1

/-- What stands in the first line. -/
def body (xs : List α) : List α := xs.takeWhile fun x => x ≠ cr ∧ x ≠ lf

variable {xs : List α}

theorem lineLength_pos (h : xs ≠ []) : 0 < lineLength cr lf xs := by
  cases xs with
  | nil => exact absurd rfl h
  | cons x xs =>
    rw [lineLength]
    split_ifs <;> omega

theorem lineLength_le (xs : List α) : lineLength cr lf xs ≤ xs.length := by
  induction xs with
  | nil => rfl
  | cons x xs ih =>
    rw [lineLength, List.length_cons]
    split_ifs with hlf hcr hhead
    · omega
    · cases xs with
      | nil => simp at hhead
      | cons y xs => rw [List.length_cons]; omega
    · omega
    · omega

variable {cr lf}

/-- What is left of a line is the first line from there on. -/
theorem lineLength_drop {j : ℕ} (h : j < lineLength cr lf xs) :
    lineLength cr lf (xs.drop j) = lineLength cr lf xs - j := by
  induction xs generalizing j with
  | nil => exact absurd h (Nat.not_lt_zero j)
  | cons x xs ih =>
    cases j with
    | zero => rfl
    | succ j =>
      rw [lineLength] at h ⊢
      rw [List.drop_succ_cons]
      split_ifs at h ⊢ with hlf hcr hhead
      · omega
      · -- between a carriage return and its line feed
        obtain rfl : j = 0 := by omega
        cases xs with
        | nil => simp at hhead
        | cons y xs =>
          rw [List.head?_cons, Option.some.injEq] at hhead
          rw [List.drop_zero, lineLength, if_pos hhead]
      · omega
      · rw [ih (by omega)]
        omega

@[simp] theorem length_take_lineLength (xs : List α) :
    (xs.take (lineLength cr lf xs)).length = lineLength cr lf xs := by
  rw [List.length_take, Nat.min_eq_left (lineLength_le cr lf xs)]

/-- Letters that end no line are the beginning of one. -/
theorem lineLength_append {ys : List α} (h : cr ∉ xs ∧ lf ∉ xs) :
    lineLength cr lf (xs ++ ys) = xs.length + lineLength cr lf ys := by
  induction xs with
  | nil => rw [List.nil_append, List.length_nil, Nat.zero_add]
  | cons x xs ih =>
    rw [List.mem_cons, not_or, List.mem_cons, not_or] at h
    rw [List.cons_append, lineLength, if_neg (Ne.symm h.2.1), if_neg (Ne.symm h.1.1),
      ih ⟨h.1.2, h.2.2⟩, List.length_cons]
    omega

/-- What stands in a line does not depend on what follows it. -/
theorem body_take (xs : List α) :
    body cr lf (xs.take (lineLength cr lf xs)) = body cr lf xs := by
  induction xs with
  | nil => rfl
  | cons x xs ih =>
    unfold body at ih ⊢
    rw [lineLength]
    split_ifs with hlf hcr hhead
    · simp [hlf]
    · simp [hcr]
    · simp [hcr]
    · rw [List.take_succ_cons, List.takeWhile_cons, List.takeWhile_cons, ih]

theorem length_body_le (xs : List α) : (body cr lf xs).length ≤ lineLength cr lf xs := by
  rw [← body_take]
  exact ((List.takeWhile_prefix _).length_le).trans (by rw [List.length_take]; omega)

variable (cr lf)

/-- **The lines of a text**, with their ends. -/
def lines : List α → List (List α)
  | [] => []
  | x :: xs =>
    (x :: xs).take (lineLength cr lf (x :: xs)) ::
      lines ((x :: xs).drop (lineLength cr lf (x :: xs)))
termination_by xs => xs.length
decreasing_by
  have hpos := lineLength_pos cr lf (List.cons_ne_nil x xs)
  rw [List.length_drop, List.length_cons]
  omega

variable {cr lf}

@[simp] theorem lines_nil : lines cr lf [] = [] := by
  rw [lines]

theorem lines_of_ne_nil (h : xs ≠ []) :
    lines cr lf xs =
      xs.take (lineLength cr lf xs) :: lines cr lf (xs.drop (lineLength cr lf xs)) := by
  obtain ⟨x, xs, rfl⟩ := List.exists_cons_of_ne_nil h
  rw [lines]

variable (cr lf)

/-- **Induction line by line.** -/
theorem line_induction {motive : List α → Prop} (nil : motive [])
    (line : ∀ xs, xs ≠ [] → motive (xs.drop (lineLength cr lf xs)) → motive xs) (xs : List α) :
    motive xs := by
  induction hn : xs.length using Nat.strong_induction_on generalizing xs with
  | _ n ih =>
    by_cases hxs : xs = []
    · rw [hxs]
      exact nil
    · have hpos := lineLength_pos cr lf hxs
      have hlen := List.length_pos_iff.2 hxs
      refine line xs hxs (ih _ ?_ _ rfl)
      rw [List.length_drop]
      omega

end Lines

/-! ## Offsets -/

section Offsets

variable {β : Type*}

/-- What stands one after the other, with the offset of each. -/
def offsets (size : β → ℕ) : ℕ → List β → List (ℕ × β)
  | _, [] => []
  | off, x :: xs => (off, x) :: offsets size (off + size x) xs

variable {size : β → ℕ}

theorem map_offsets {γ : Type*} (size' : γ → ℕ) (f : β → γ) (off : ℕ) (xs : List β) :
    offsets size' off (xs.map f) =
      (offsets (fun x => size' (f x)) off xs).map fun x => (x.1, f x.2) := by
  induction xs generalizing off with
  | nil => rfl
  | cons x xs ih => rw [List.map_cons, offsets, offsets, List.map_cons, ih]

theorem map_snd_offsets (size : β → ℕ) (off : ℕ) (xs : List β) :
    (offsets size off xs).map Prod.snd = xs := by
  induction xs generalizing off with
  | nil => rfl
  | cons x xs ih => rw [offsets, List.map_cons, ih]

theorem dropWhile_offsets {a off : ℕ} (h : a ≤ off) (xs : List β) :
    (offsets size off xs).dropWhile (fun x => x.1 < a) = offsets size off xs := by
  cases xs with
  | nil => rfl
  | cons x xs =>
    rw [offsets, List.dropWhile_cons_of_neg]
    simpa using h

theorem dropWhile_offsets_cons {a off : ℕ} (h : off < a) (x : β) (xs : List β) :
    (offsets size off (x :: xs)).dropWhile (fun x => x.1 < a) =
      (offsets size (off + size x) xs).dropWhile fun x => x.1 < a := by
  rw [offsets, List.dropWhile_cons_of_pos]
  simpa using h

theorem takeWhile_offsets_cons {b off : ℕ} (h : off < b) (x : β) (xs : List β) :
    (offsets size off (x :: xs)).takeWhile (fun x => x.1 < b) =
      (off, x) :: (offsets size (off + size x) xs).takeWhile fun x => x.1 < b := by
  rw [offsets, List.takeWhile_cons_of_pos]
  simpa using h

theorem takeWhile_offsets {b off : ℕ} (h : b ≤ off) (xs : List β) :
    (offsets size off xs).takeWhile (fun x => x.1 < b) = [] := by
  cases xs with
  | nil => rfl
  | cons x xs =>
    rw [offsets, List.takeWhile_cons_of_neg]
    simpa using h

/-- Dropping more drops what less would. -/
theorem dropWhile_dropWhile {p q : β → Bool} (h : ∀ x, p x → q x) (xs : List β) :
    (xs.dropWhile p).dropWhile q = xs.dropWhile q := by
  induction xs with
  | nil => rfl
  | cons x xs ih =>
    by_cases hp : p x
    · rw [List.dropWhile_cons_of_pos hp, ih, List.dropWhile_cons_of_pos (h x hp)]
    · rw [List.dropWhile_cons_of_neg hp]

end Offsets

section Skip

variable {α : Type*} [DecidableEq α] (cr lf : α)

/-- **The lines behind an offset**: what is left of the line it is in is
skipped. -/
theorem dropWhile_lines {xs : List α} {j : ℕ} (hj : j < xs.length) (off : ℕ) :
    (offsets List.length off (lines cr lf xs)).dropWhile (fun x => x.1 < off + j + 1) =
      offsets List.length (off + j + lineLength cr lf (xs.drop j))
        (lines cr lf (xs.drop (j + lineLength cr lf (xs.drop j)))) := by
  induction xs using line_induction cr lf generalizing j off with
  | nil => exact absurd hj (Nat.not_lt_zero j)
  | line xs hne ih =>
    have hpos := lineLength_pos cr lf hne
    rw [lines_of_ne_nil hne, dropWhile_offsets_cons (by omega), length_take_lineLength]
    rcases Nat.lt_or_ge j (lineLength cr lf xs) with hin | hbehind
    · rw [dropWhile_offsets (by omega), lineLength_drop hin, Nat.add_assoc,
        Nat.add_sub_cancel' hin.le]
    · have hlt : j - lineLength cr lf xs < (xs.drop (lineLength cr lf xs)).length := by
        rw [List.length_drop]
        omega
      have hrest := ih hlt (off + lineLength cr lf xs)
      have hsum : off + lineLength cr lf xs + (j - lineLength cr lf xs) = off + j := by omega
      rw [List.drop_drop, Nat.add_sub_cancel' hbehind, hsum, List.drop_drop] at hrest
      rw [hrest]
      congr 3
      omega

/-- What is left of a line is no longer than a line. -/
theorem exists_lineLength_drop_le {xs : List α} {j : ℕ} (hj : j < xs.length) :
    ∃ line ∈ lines cr lf xs, lineLength cr lf (xs.drop j) ≤ line.length := by
  induction xs using line_induction cr lf generalizing j with
  | nil => exact absurd hj (Nat.not_lt_zero j)
  | line xs hne ih =>
    rw [lines_of_ne_nil hne]
    rcases Nat.lt_or_ge j (lineLength cr lf xs) with hin | hbehind
    · refine ⟨_, List.mem_cons_self, ?_⟩
      rw [lineLength_drop hin, length_take_lineLength]
      omega
    · have hlt : j - lineLength cr lf xs < (xs.drop (lineLength cr lf xs)).length := by
        rw [List.length_drop]
        omega
      obtain ⟨line, hline, hlength⟩ := ih hlt
      rw [List.drop_drop, Nat.add_sub_cancel' hbehind] at hlength
      exact ⟨line, List.mem_cons_of_mem _ hline, hlength⟩

/-- Every line begins before the end. -/
theorem dropWhile_lines_length (xs : List α) (off : ℕ) :
    (offsets List.length off (lines cr lf xs)).dropWhile (fun x => x.1 < off + xs.length) = [] := by
  rcases Nat.eq_zero_or_pos xs.length with hzero | hpos
  · rw [List.eq_nil_of_length_eq_zero hzero, lines_nil]
    rfl
  · -- behind the last letter
    have hlast : (xs.drop (xs.length - 1)).length = 1 := by
      rw [List.length_drop]
      omega
    have hone : lineLength cr lf (xs.drop (xs.length - 1)) = 1 := by
      have hle := lineLength_le cr lf (xs.drop (xs.length - 1))
      have hlt := lineLength_pos cr lf (List.ne_nil_of_length_pos (hlast.symm ▸ Nat.one_pos))
      omega
    have hskip := dropWhile_lines cr lf
      (show xs.length - 1 < xs.length by omega) off
    rw [hone, Nat.sub_add_cancel hpos, List.drop_length, lines_nil, Nat.add_assoc,
      Nat.sub_add_cancel hpos] at hskip
    exact hskip

end Skip

/-! ## Lines of bytes

The letters that end a line are bytes below 128, so the bytes of a text
have the lines of the text. -/

section Bytes

open Utf8

theorem not_mem_utf8EncodeChar {c : Char} (hcr : c ≠ '\r') (hlf : c ≠ '\n') :
    (13 : UInt8) ∉ String.utf8EncodeChar c ∧ (10 : UInt8) ∉ String.utf8EncodeChar c := by
  have hencode : encode [c] = String.utf8EncodeChar c := List.append_nil _
  rw [← hencode]
  exact ⟨not_mem_encode (c := '\r') (by decide) (by simpa using Ne.symm hcr),
    not_mem_encode (c := '\n') (by decide) (by simpa using Ne.symm hlf)⟩

theorem head?_encode (s : List Char) :
    (encode s).head? = some (10 : UInt8) ↔ s.head? = some '\n' := by
  constructor
  · intro h
    obtain ⟨bs, hbs⟩ := List.head?_eq_some_iff.1 h
    obtain ⟨u, rfl, -⟩ := encode_eq_cons (c := '\n') (by decide) hbs
    rfl
  · intro h
    obtain ⟨u, rfl⟩ := List.head?_eq_some_iff.1 h
    rfl

theorem lineLength_encode (s : List Char) :
    lineLength (13 : UInt8) 10 (encode s) =
      (encode (s.take (lineLength '\r' '\n' s))).length := by
  induction s with
  | nil => rfl
  | cons c s ih =>
    by_cases hlf : c = '\n'
    · subst hlf
      rfl
    by_cases hcr : c = '\r'
    · subst hcr
      have hbytes : encode ('\r' :: s) = 13 :: encode s := rfl
      rw [hbytes, lineLength, lineLength, if_neg (by decide), if_pos rfl, if_neg hlf, if_pos rfl]
      by_cases hhead : s.head? = some '\n'
      · obtain ⟨u, rfl⟩ := List.head?_eq_some_iff.1 hhead
        rw [if_pos ((head?_encode _).2 hhead), if_pos hhead]
        rfl
      · rw [if_neg fun h => hhead ((head?_encode s).1 h), if_neg hhead]
        rfl
    · rw [lineLength, if_neg hlf, if_neg hcr, List.take_succ_cons, encode_cons, encode_cons,
        List.length_append, ← ih, lineLength_append (not_mem_utf8EncodeChar hcr hlf)]

/-- **The lines of the bytes are the bytes of the lines.** -/
theorem lines_encode (s : List Char) :
    lines (13 : UInt8) 10 (encode s) = (lines '\r' '\n' s).map encode := by
  induction s using line_induction '\r' '\n' with
  | nil =>
    rw [lines_nil, encode_nil, lines_nil]
    rfl
  | line s hs ih =>
    have hlen := List.length_pos_iff.2 hs
    have hbytes : encode s ≠ [] := by
      intro hnil
      have hle := length_le_length_encode s
      rw [hnil, List.length_nil] at hle
      omega
    have hsplit : encode s = encode (s.take (lineLength '\r' '\n' s)) ++
        encode (s.drop (lineLength '\r' '\n' s)) := by
      rw [← encode_append, List.take_append_drop]
    rw [lines_of_ne_nil hbytes, lines_of_ne_nil hs, lineLength_encode, List.map_cons, ← ih]
    congr 1
    · rw [hsplit, List.take_left' rfl]
    · rw [hsplit, List.drop_left' rfl]

theorem body_encode (s : List Char) :
    body (13 : UInt8) 10 (encode s) = encode (body '\r' '\n' s) := by
  unfold body
  induction s with
  | nil => rfl
  | cons c s ih =>
    by_cases hlf : c = '\n'
    · subst hlf
      rfl
    by_cases hcr : c = '\r'
    · subst hcr
      rfl
    · obtain ⟨h13, h10⟩ := not_mem_utf8EncodeChar hcr hlf
      rw [List.takeWhile_cons_of_pos (by simp [hcr, hlf]), encode_cons, encode_cons,
        List.takeWhile_append_of_pos, ih]
      intro b hb
      rw [decide_eq_true_eq]
      exact ⟨fun h => h13 (h ▸ hb), fun h => h10 (h ▸ hb)⟩

end Bytes

end Lines

end Xpod
