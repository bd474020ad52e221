import Mathlib.Data.List.Basic
import Mathlib.Tactic
/-!
# Java's null, strings and exceptions

The fragment of the Java library the modelled classes lean on: a
reference that may be null is an `Option`, and a method that can throw
returns in `Except`.
-/

namespace Xpod

namespace Java

/-- The exceptions the modelled code can throw. -/
inductive Exception
  | nullPointer
  | numberFormat
  | stringIndexOutOfBounds
  | indexOutOfBounds
  | classCast
  | illegalArgument
  | bufferUnderflow
  | stackOverflow
  | invalidDatabase (message : String)
deriving DecidableEq, Repr

section Bind

variable {ε α β : Type}

@[simp] theorem ok_bind (a : α) (f : α → Except ε β) : (Except.ok a >>= f) = f a := rfl

@[simp] theorem error_bind (e : ε) (f : α → Except ε β) : (Except.error e >>= f) = .error e := rfl

/-- What returns has returned at each step. -/
theorem bind_eq_ok {x : Except ε α} {f : α → Except ε β} {b : β} :
    (x >>= f) = .ok b ↔ ∃ a, x = .ok a ∧ f a = .ok b := by
  constructor
  · intro h
    rcases x with e | a
    · exact nomatch h
    · exact ⟨a, rfl, h⟩
  · rintro ⟨a, rfl, h⟩
    exact h

/-- What fails has failed at one of its steps. -/
theorem bind_eq_error {x : Except ε α} {f : α → Except ε β} {e : ε} :
    (x >>= f) = .error e ↔ x = .error e ∨ ∃ a, x = .ok a ∧ f a = .error e := by
  rcases x with e' | a
  · simp [Except.error.injEq]
  · simp

end Bind

/-- `a.equals(b)` on strings: a null receiver throws, a null argument is
unequal to every string. -/
def equals (a b : Option String) : Except Exception Bool :=
  match a with
  | none => .error .nullPointer
  | some s => .ok (b == some s)

@[simp] theorem equals_none (b : Option String) : equals none b = .error .nullPointer := rfl

@[simp] theorem equals_some (s : String) (b : Option String) :
    equals (some s) b = .ok (b == some s) := rfl

/-- `a[index]` of an array, and `get(index)` of a buffer. -/
def elementAt {α : Type} (a : List α) (index : ℤ) : Except Exception α :=
  if index < 0 then .error .indexOutOfBounds
  else
    match a[index.toNat]? with
    | none => .error .indexOutOfBounds
    | some x => .ok x

theorem elementAt_natCast {α : Type} {a : List α} {i : ℕ} {x : α} (h : a[i]? = some x) :
    elementAt a i = .ok x := by
  rw [elementAt, if_neg (by omega), Int.toNat_natCast, h]

/-- What string concatenation prints for a reference. -/
def text (a : Option String) : String := a.getD "null"

/-- A printed number holds no separator: every character is a digit. -/
theorem not_mem_toDigits {c : Char} (hc : c.isDigit = false) (n : ℕ) : c ∉ Nat.toDigits 10 n := by
  intro h
  rw [Nat.isDigit_of_mem_toDigits (by decide) le_rfl h] at hc
  simp at hc

/-- Different numbers print differently. -/
theorem toDigits_injective : Function.Injective (Nat.toDigits 10) := by
  intro m n h
  have hread := congrArg (fun s => Nat.ofDigitChars 10 s 0) h
  simpa only [Nat.ofDigitChars_ten_toDigits] using hread

/-- A string by its `char`s, the code units of UTF-16. -/
abbrev Units : Type := List UInt16

/-- The code unit of a character below `U+10000`. -/
def unit (c : Char) : UInt16 := c.toNat.toUInt16

/-- A string of such characters. -/
def units (s : String) : Units := s.toList.map unit

/-- A condition on the code units of a text is decided along the text, not over
all code units there are. -/
instance (priority := 1100) decidableForallUnit (u : Units) (p : UInt16 → Prop)
    [DecidablePred p] : Decidable (∀ c ∈ u, p c) :=
  List.decidableBAll p u

/-- `s.split(sep)` for a single character: without one the text itself, else
the pieces without the empty ones at the end. -/
def split {α : Type*} [DecidableEq α] (sep : α) (s : List α) : List (List α) :=
  match s.splitOn sep with
  | [piece] => [piece]
  | pieces => (pieces.reverse.dropWhile List.isEmpty).reverse

section Split

variable {α : Type*} [DecidableEq α] {sep : α} {s : List α} {fields : List (List α)}

/-- A text that ends with no separator ends with a piece that is not
empty. -/
theorem splitOn_eq_append {c : α} (h : s.getLast? = some c) (hc : c ≠ sep) :
    ∃ front last, s.splitOn sep = front ++ [last] ∧ last ≠ [] := by
  induction s with
  | nil => simp at h
  | cons d s ih =>
    rcases hs : s with - | ⟨e, t⟩
    · subst hs
      obtain rfl := Option.some.inj h
      exact ⟨[], [d], List.splitOn_eq_singleton (by simpa using hc.symm), by simp⟩
    · rw [← hs]
      have hlast : s.getLast? = some c := by
        rw [hs, List.getLast?_cons_cons] at h
        rw [hs, h]
      obtain ⟨front, last, hpieces, hne⟩ := ih hlast
      rw [List.splitOn_cons_eq_if_modifyHead, hpieces]
      split_ifs
      · exact ⟨[] :: front, last, rfl, hne⟩
      · rcases front with - | ⟨piece, front⟩
        · exact ⟨[], d :: last, rfl, by simp⟩
        · exact ⟨(d :: piece) :: front, last, rfl, hne⟩

/-- Only a text without a separator is one piece. -/
theorem length_splitOn_eq_one : (s.splitOn sep).length = 1 ↔ sep ∉ s := by
  constructor
  · intro h hmem
    obtain ⟨a, b, rfl⟩ := List.append_of_mem hmem
    have ha := List.length_pos_iff.2 (List.splitOn_ne_nil sep a)
    have hb := List.length_pos_iff.2 (List.splitOn_ne_nil sep b)
    rw [List.splitOn_append_cons_self, List.length_append] at h
    omega
  · intro h
    rw [List.splitOn_eq_singleton h]
    rfl

/-- **Fields with a separator behind each, and a text that ends with
none.** -/
theorem split_fields {c : α} (hfields : ∀ f ∈ fields, sep ∉ f) (hne : fields ≠ [])
    (hlast : s.getLast? = some c) (hc : c ≠ sep) :
    split sep (fields.flatMap (· ++ [sep]) ++ s) = fields ++ s.splitOn sep := by
  have hpieces : (fields.flatMap (· ++ [sep]) ++ s).splitOn sep = fields ++ s.splitOn sep := by
    clear hne
    induction fields with
    | nil => rfl
    | cons f fields ih =>
      obtain ⟨hf, hfields⟩ := List.forall_mem_cons.1 hfields
      rw [List.flatMap_cons, List.append_assoc, List.append_assoc, List.singleton_append,
        List.splitOn_append_cons_self_of_not_mem hf, ih hfields, List.cons_append]
  obtain ⟨front, last, hsplit, hnonempty⟩ := splitOn_eq_append hlast hc
  obtain ⟨f, fields, rfl⟩ := List.exists_cons_of_ne_nil hne
  have hmore : ∀ piece, f :: fields ++ s.splitOn sep ≠ [piece] := by
    intro piece h
    have hpos := List.length_pos_iff.2 (List.splitOn_ne_nil sep s)
    have hlength := congrArg List.length h
    simp only [List.length_append, List.length_cons, List.length_nil] at hlength
    omega
  have hkeep : last.isEmpty = false := by simpa using hnonempty
  rw [split, hpieces]
  split
  · next piece h => exact absurd h (hmore piece)
  · rw [hsplit, ← List.append_assoc, List.reverse_append, List.reverse_singleton,
      List.singleton_append, List.dropWhile_cons, hkeep]
    simp

end Split

/-- `s.indexOf(sep)` and the two substrings around it: the text in front of
the first separator and the text behind it, or `none` without one. -/
def cutAt {α : Type*} [DecidableEq α] (sep : α) : List α → Option (List α × List α)
  | [] => none
  | c :: s => if c = sep then some ([], s) else (cutAt sep s).map fun p => (c :: p.1, p.2)

section CutAt

variable {α : Type*} [DecidableEq α] {sep : α} {s a b : List α}

/-- **A cut is where the first separator stands.** -/
theorem cutAt_eq_some : cutAt sep s = some (a, b) ↔ s = a ++ sep :: b ∧ sep ∉ a := by
  induction s generalizing a with
  | nil => simp [cutAt]
  | cons c s ih =>
    rw [cutAt]
    by_cases hc : c = sep
    · subst hc
      rw [if_pos rfl]
      constructor
      · intro h
        obtain ⟨rfl, rfl⟩ := Prod.mk.inj (Option.some.inj h)
        simp
      · rintro ⟨h, hn⟩
        rcases a with - | ⟨d, a⟩
        · obtain ⟨-, rfl⟩ := List.cons.inj h
          rfl
        · obtain ⟨rfl, -⟩ := List.cons.inj h
          simp at hn
    · rw [if_neg hc]
      constructor
      · intro h
        obtain ⟨⟨a', b'⟩, hp, hab⟩ := Option.map_eq_some_iff.1 h
        obtain ⟨rfl, rfl⟩ := Prod.mk.inj hab
        obtain ⟨rfl, hn⟩ := ih.1 hp
        exact ⟨rfl, by simp [Ne.symm hc, hn]⟩
      · rintro ⟨h, hn⟩
        rcases a with - | ⟨d, a⟩
        · exact absurd (List.cons.inj h).1 hc
        · obtain ⟨rfl, rfl⟩ := List.cons.inj h
          rw [ih.2 ⟨rfl, fun hm => hn (List.mem_cons_of_mem _ hm)⟩]
          rfl

theorem cutAt_eq_none : cutAt sep s = none ↔ sep ∉ s := by
  induction s with
  | nil => simp [cutAt]
  | cons c s ih =>
    rw [cutAt, List.mem_cons, not_or]
    split
    · next h => simp [h]
    · next h =>
      rw [Option.map_eq_none_iff, ih]
      exact (and_iff_right (Ne.symm h)).symm

theorem cutAt_append (h : sep ∉ a) : cutAt sep (a ++ sep :: b) = some (a, b) :=
  cutAt_eq_some.2 ⟨rfl, h⟩

end CutAt

end Java

end Xpod
