import Mathlib.Data.List.Basic
import Mathlib.Tactic
/-!
# Quoted literals

A literal stands between quotes, and a quote inside it is doubled. A writer
who doubles nothing is read back exactly where there is nothing to double:
a text with a quote in it is read as some other text, or not at all.
-/

namespace Xpod

namespace Quoted

variable {α : Type*} [DecidableEq α]

/-- What stands between the quotes for a text. -/
def escape (quote : α) (t : List α) : List α :=
  t.flatMap fun c => if c = quote then [quote, quote] else [c]

/-- A literal whose opening quote has been read: its text, and what follows
the closing quote. -/
def literal (quote : α) : List α → Option (List α × List α)
  | [] => none
  | c :: s =>
    if c = quote then
      match s with
      | [] => some ([], [])
      | c' :: s' =>
        if c' = quote then (literal quote s').map (Prod.map (quote :: ·) id)
        else some ([], c' :: s')
    else (literal quote s).map (Prod.map (c :: ·) id)

/-! ## One literal -/

section Literal

variable {quote c : α} {s t r r' : List α}

theorem escape_cons_self (t : List α) :
    escape quote (quote :: t) = quote :: quote :: escape quote t := by
  simp [escape]

theorem escape_cons_of_ne (h : c ≠ quote) (t : List α) :
    escape quote (c :: t) = c :: escape quote t := by
  simp [escape, h]

theorem literal_cons_of_ne (h : c ≠ quote) (s : List α) :
    literal quote (c :: s) = (literal quote s).map (Prod.map (c :: ·) id) := by
  cases s <;> simp [literal, h]

theorem literal_quote (h : s.head? ≠ some quote) : literal quote (quote :: s) = some ([], s) := by
  cases s with
  | nil => simp [literal]
  | cons c s =>
    have hc : c ≠ quote := fun hc => h (congrArg some hc)
    simp [literal, hc]

/-- **What a literal says is what was escaped.** -/
theorem eq_of_literal (h : literal quote s = some (t, r)) : s = escape quote t ++ quote :: r := by
  induction s using literal.induct quote generalizing t with
  | case1 => cases h
  | case2 =>
    rw [literal, if_pos rfl] at h
    obtain ⟨rfl, rfl⟩ := Prod.mk.inj (Option.some.inj h)
    rfl
  | case3 s ih =>
    rw [literal, if_pos rfl] at h
    simp only [if_true, Option.map_eq_some_iff, Prod.exists, Prod.map_apply, Prod.mk.injEq] at h
    obtain ⟨t', r', hs, rfl, rfl⟩ := h
    rw [escape_cons_self, ih hs]
    rfl
  | case4 c s hc =>
    rw [literal_quote (by simpa using hc)] at h
    obtain ⟨rfl, rfl⟩ := Prod.mk.inj (Option.some.inj h)
    rfl
  | case5 c s hc ih =>
    rw [literal_cons_of_ne hc] at h
    simp only [Option.map_eq_some_iff, Prod.exists, Prod.map_apply, Prod.mk.injEq] at h
    obtain ⟨t', r', hs, rfl, rfl⟩ := h
    rw [escape_cons_of_ne hc, ih hs]
    rfl

/-- A text without quotes is read back. -/
theorem literal_append (ht : quote ∉ t) (hr : r.head? ≠ some quote) :
    literal quote (t ++ quote :: r) = some (t, r) := by
  induction t with
  | nil => exact literal_quote hr
  | cons c t ih =>
    rw [List.mem_cons, not_or] at ht
    rw [List.cons_append, literal_cons_of_ne (Ne.symm ht.1), ih ht.2]
    rfl

/-- An unescaped text never catches up with an escaped one: each quote in it
leaves the latter one quote more behind. -/
theorem not_mem_of_append_eq {n : ℕ} (hr : r.head? ≠ some quote)
    (h : t ++ quote :: r = List.replicate n quote ++ (escape quote t ++ quote :: r')) :
    n = 0 ∧ quote ∉ t := by
  induction t generalizing n with
  | nil =>
    cases n with
    | zero => simp
    | succ n =>
      -- what follows the text would begin with a quote
      obtain ⟨-, rfl⟩ := List.cons.inj h
      cases n <;> simp [List.replicate_succ, escape] at hr
  | cons c t ih =>
    by_cases hc : c = quote
    · subst hc
      have hmore : t ++ c :: r = List.replicate (n + 1) c ++ (escape c t ++ c :: r') := by
        have hshift : List.replicate n c ++ c :: c :: (escape c t ++ c :: r') =
            c :: (List.replicate (n + 1) c ++ (escape c t ++ c :: r')) := by
          rw [List.append_cons, ← List.replicate_succ', List.append_cons, ← List.replicate_succ',
            List.replicate_succ, List.cons_append]
        rw [escape_cons_self] at h
        exact (List.cons.inj (h.trans hshift)).2
      exact absurd (ih hmore).1 (Nat.succ_ne_zero n)
    · cases n with
      | zero =>
        rw [escape_cons_of_ne hc] at h
        obtain ⟨-, hnot⟩ := ih (n := 0) (List.cons.inj h).2
        exact ⟨rfl, by simp [hnot, Ne.symm hc]⟩
      | succ n => exact absurd (List.cons.inj h).1 hc

/-- **A text that is read as itself has no quotes.** -/
theorem not_mem_of_literal (hr : r.head? ≠ some quote)
    (h : literal quote (t ++ quote :: r) = some (t, r')) : quote ∉ t :=
  (not_mem_of_append_eq (n := 0) hr (eq_of_literal h)).2

end Literal

/-! ## Tuples -/

/-- The marks of a tuple of literals. -/
structure Marks (α : Type*) where
  quote : α
  comma : α
  opening : α
  closing : α
  comma_ne_quote : comma ≠ quote
  closing_ne_quote : closing ≠ quote
  comma_ne_closing : comma ≠ closing

namespace Marks

section Joined

variable {α : Type*} (m : Marks α)

/-- Texts between quotes with nothing doubled in them. -/
def joined : List (List α) → List α
  | [] => []
  | [t] => m.quote :: (t ++ [m.quote, m.closing])
  | t :: ts => m.quote :: (t ++ m.quote :: m.comma :: joined ts)

theorem joined_cons_cons (t u : List α) (ts : List (List α)) :
    m.joined (t :: u :: ts) = m.quote :: (t ++ m.quote :: m.comma :: m.joined (u :: ts)) := rfl

theorem length_le_length_joined (ts : List (List α)) : ts.length ≤ (m.joined ts).length := by
  induction ts using joined.induct with
  | case1 => exact le_rfl
  | case2 t => simp [joined]
  | case3 t ts hts ih =>
    obtain ⟨u, ts, rfl⟩ := List.exists_cons_of_ne_nil hts
    rw [joined_cons_cons]
    simp only [List.length_cons, List.length_append] at ih ⊢
    omega

end Joined

variable (m : Marks α)

/-- Literals with a comma between each two and the closing mark behind the
last, at most `fuel` of them. -/
def literals : ℕ → List α → Option (List (List α))
  | 0, _ => none
  | _ + 1, [] => none
  | fuel + 1, c :: s =>
    if c = m.quote then
      (literal m.quote s).bind fun p =>
        match p.2 with
        | [] => none
        | c :: r =>
          if c = m.comma then (literals fuel r).map (p.1 :: ·)
          else if c = m.closing ∧ r = [] then some [p.1]
          else none
    else none

/-- The literals of a tuple. -/
def tuple : List α → Option (List (List α))
  | [] => none
  | c :: s => if c = m.opening then m.literals s.length s else none

variable {m} {t : List α} {fuel : ℕ}

theorem literals_last (ht : m.quote ∉ t) :
    m.literals (fuel + 1) (m.joined [t]) = some [t] := by
  have hr : [m.closing].head? ≠ some m.quote := fun h => m.closing_ne_quote (Option.some.inj h)
  rw [joined, literals, if_pos rfl, literal_append ht hr]
  simp [m.comma_ne_closing.symm]

theorem literals_more (ht : m.quote ∉ t) (u : List α) (ts : List (List α)) :
    m.literals (fuel + 1) (m.joined (t :: u :: ts)) =
      (m.literals fuel (m.joined (u :: ts))).map (t :: ·) := by
  have hr : (m.comma :: m.joined (u :: ts)).head? ≠ some m.quote := fun h =>
    m.comma_ne_quote (Option.some.inj h)
  rw [joined_cons_cons, literals, if_pos rfl, literal_append ht hr]
  simp

/-- The first of the literals is the first that is read. -/
theorem literal_of_literals {s v : List α} {vs : List (List α)}
    (h : m.literals (fuel + 1) (m.quote :: s) = some (v :: vs)) :
    ∃ r, literal m.quote s = some (v, r) := by
  rw [literals, if_pos rfl, Option.bind_eq_some_iff] at h
  obtain ⟨⟨t, r⟩, hs, h⟩ := h
  refine ⟨r, ?_⟩
  suffices t = v by rw [hs, this]
  cases r with
  | nil => cases h
  | cons c r =>
    simp only at h
    split_ifs at h
    · obtain ⟨ts, -, hts⟩ := Option.map_eq_some_iff.1 h
      exact (List.cons.inj hts).1
    · exact (List.cons.inj (Option.some.inj h)).1

/-- The first text is read as it should be only if it has no quotes. -/
theorem first_of_literals {ts : List (List α)} {v : List α} {vs : List (List α)}
    (ht : t = v ∨ m.quote ∉ t)
    (h : m.literals (fuel + 1) (m.joined (t :: ts)) = some (v :: vs)) :
    t = v ∧ m.quote ∉ t := by
  obtain ⟨r, hjoined, hr⟩ : ∃ r, m.joined (t :: ts) = m.quote :: (t ++ m.quote :: r) ∧
      r.head? ≠ some m.quote := by
    cases ts with
    | nil => exact ⟨[m.closing], rfl, fun h => m.closing_ne_quote (Option.some.inj h)⟩
    | cons u ts => exact ⟨_, rfl, fun h => m.comma_ne_quote (Option.some.inj h)⟩
  rw [hjoined] at h
  obtain ⟨r', hliteral⟩ := literal_of_literals h
  by_cases hmem : m.quote ∈ t
  · obtain rfl := ht.resolve_right (not_not_intro hmem)
    exact absurd hmem (not_mem_of_literal hr hliteral)
  · rw [literal_append hmem hr] at hliteral
    exact ⟨(Prod.mk.inj (Option.some.inj hliteral)).1, hmem⟩

/-- **Texts that are written as they are, read back.** Each text is either
the one to be read or has no quotes. What is read is what should be exactly
when each text is the one to be read and has no quotes. -/
theorem literals_joined {ps : List (List α × List α)} (hne : ps ≠ [])
    (hps : ∀ p ∈ ps, p.1 = p.2 ∨ m.quote ∉ p.1) (hfuel : ps.length ≤ fuel) :
    m.literals fuel (m.joined (ps.map Prod.fst)) = some (ps.map Prod.snd) ↔
      ∀ p ∈ ps, p.1 = p.2 ∧ m.quote ∉ p.1 := by
  induction ps generalizing fuel with
  | nil => exact absurd rfl hne
  | cons p ps ih =>
    obtain ⟨hp, hps⟩ := List.forall_mem_cons.1 hps
    obtain ⟨fuel, rfl⟩ : ∃ k, fuel = k + 1 := ⟨fuel - 1, by simp at hfuel; omega⟩
    rw [List.forall_mem_cons]
    by_cases hgood : p.1 = p.2 ∧ m.quote ∉ p.1
    · rw [and_iff_right hgood]
      cases ps with
      | nil =>
        refine iff_of_true ?_ (by simp)
        rw [List.map_singleton, List.map_singleton, literals_last hgood.2, hgood.1]
      | cons q ps =>
        have hrest := ih (List.cons_ne_nil q ps) hps (Nat.le_of_succ_le_succ hfuel)
        rw [← hrest, List.map_cons, List.map_cons, literals_more hgood.2, hgood.1]
        simp
    · exact iff_of_false (fun h => hgood (first_of_literals hp h)) fun h => hgood h.1

/-- A whole tuple. -/
theorem tuple_joined {ps : List (List α × List α)} (hne : ps ≠ [])
    (hps : ∀ p ∈ ps, p.1 = p.2 ∨ m.quote ∉ p.1) :
    m.tuple (m.opening :: m.joined (ps.map Prod.fst)) = some (ps.map Prod.snd) ↔
      ∀ p ∈ ps, p.1 = p.2 ∧ m.quote ∉ p.1 := by
  have hfuel := m.length_le_length_joined (ps.map Prod.fst)
  rw [List.length_map] at hfuel
  rw [tuple, if_pos rfl]
  exact literals_joined hne hps hfuel

end Marks

end Quoted

end Xpod
