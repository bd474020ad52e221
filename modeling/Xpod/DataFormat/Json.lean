import Mathlib.Data.List.Forall2
import Mathlib.Tactic
import Xpod.Common.Java
import Xpod.Common.Json
import Xpod.Common.Lists
import Xpod.DataFormat.Model.Json
import Xpod.DataFormat.Tokens
/-!
# What the JSON reader makes of JSON

On a JSON text the reader returns what `readTree` says: numbers as the
strings they are written as, keys with their letters lowered, and an
exception where an object has two keys that are then the same. On every
text it ends.
-/

namespace Xpod

namespace DataFormat

open Java (Units unit units ok_bind)
open JSONTokener

/-! ## Trees -/

section Trees

variable (P : Platform)

mutual

/-- The object the reader makes of a JSON value. -/
def readTree : Json.Tree → Except Failure Obj
  | .null => .ok .null
  | .bool b => .ok (.bool b)
  | .number n => .ok (.string n.text)
  | .string s => .ok (.string (Json.stringValue s))
  | .emptyArray _ => .ok (.array [])
  | .array items => (readItems items []).map .array
  | .emptyObject _ => .ok (.object [])
  | .object members => (readMembers members []).map .object

/-- The elements behind those that were read. -/
def readItems : Json.Items → List Obj → Except Failure (List Obj)
  | .last _ item _, acc => do
    let o ← readTree item
    .ok (acc ++ [o])
  | .cons _ item _ items, acc => do
    let o ← readTree item
    readItems items (acc ++ [o])

/-- The members behind those that were read. -/
def readMembers : Json.Members → List (Units × Obj) → Except Failure (List (Units × Obj))
  | .last _ name _ _ value _, map => do
    let o ← readTree value
    putOnce map (P.toLowerCase (Json.stringValue name)) o
  | .cons _ name _ _ value _ members, map => do
    let o ← readTree value
    let map ← putOnce map (P.toLowerCase (Json.stringValue name)) o
    readMembers members map

end

variable {P}

/-- The first character of a value tells it from what may stand in its
place. -/
theorem text_head (t : Json.Tree) :
    ∃ c s, t.text = c :: s ∧ unit ' ' < c ∧ c ∉ units ",]\x7d" := by
  cases t with
  | null => exact ⟨_, _, rfl, by decide, by decide⟩
  | bool b =>
    cases b
    · exact ⟨_, _, rfl, by decide, by decide⟩
    · exact ⟨_, _, rfl, by decide, by decide⟩
  | number n =>
    obtain ⟨c, s, hn, hc⟩ := number_head n
    refine ⟨c, s, hn, ?_⟩
    rcases hc with rfl | ⟨d, rfl⟩
    · decide
    · have hdigits : ∀ d : Fin 10, unit ' ' < Json.digitText d ∧
          Json.digitText d ∉ units ",]\x7d" := by
        decide
      exact hdigits d
  | string s => exact ⟨_, _, rfl, by decide, by decide⟩
  | emptyArray w => exact ⟨_, _, rfl, by decide, by decide⟩
  | array items => exact ⟨_, _, rfl, by decide, by decide⟩
  | emptyObject w => exact ⟨_, _, rfl, by decide, by decide⟩
  | object members => exact ⟨_, _, rfl, by decide, by decide⟩

/-- A string is read as a string. -/
theorem nextValue_string (w : List Json.Space) (name : List Json.Piece) (rest : Units)
    (fuel : ℕ) :
    nextValue P (fuel + 1) (Json.blank w ++ (Json.stringText name ++ rest)) =
      .ok (.string (Json.stringValue name), rest) := by
  rw [nextValue]
  simp only [clean_blank, Json.stringText, List.cons_append,
    clean_cons (show unit ' ' < unit '"' by decide), List.headD_cons, List.tail_cons, true_or,
    if_true, List.append_assoc, List.nil_append, nextString_text]
  rfl

/-- What is left behind a value, up to whitespace. -/
theorem exists_of_cleaned {x : Except Failure (Obj × Units)} {o : Obj} {rest : Units}
    (h : x.map (fun r => (r.1, clean r.2)) = .ok (o, clean rest)) :
    ∃ s, x = .ok (o, s) ∧ clean s = clean rest := by
  rcases x with f | ⟨o', s⟩
  · exact absurd h (by simp [Except.map])
  · obtain ⟨rfl, hs⟩ := Prod.mk.inj (Except.ok.inj h)
    exact ⟨s, rfl, hs⟩

theorem eq_of_cleaned_error {x : Except Failure (Obj × Units)} {f : Failure}
    (h : x.map (fun r => (r.1, clean r.2)) = .error f) : x = .error f := by
  rcases x with f' | r
  · rw [Except.error.inj h]
  · exact absurd h (by simp [Except.map])

theorem nextValue_brace (w : List Json.Space) (s : Units) (fuel : ℕ) :
    nextValue P (fuel + 1) (Json.blank w ++ unit '{' :: s) =
      (objectLoop P fuel [] s).map fun r => (.object r.1, r.2) := by
  rw [nextValue]
  simp only [clean_blank, clean_cons (show unit ' ' < unit '{' by decide), List.headD_cons,
    List.tail_cons]
  rw [if_neg (by decide), if_pos trivial]

theorem nextValue_bracket (w : List Json.Space) (s : Units) (fuel : ℕ) :
    nextValue P (fuel + 1) (Json.blank w ++ unit '[' :: s) =
      if (clean s).headD 0 = unit ']' then .ok (.array [], (clean s).tail)
      else (arrayLoop P fuel [] s).map fun r => (.array r.1, r.2) := by
  rw [nextValue]
  simp only [clean_blank, clean_cons (show unit ' ' < unit '[' by decide), List.headD_cons,
    List.tail_cons]
  rw [if_neg (by decide), if_neg (by decide), if_pos trivial]

/-- The first character of a value behind whitespace. -/
theorem headD_clean_text (t : Json.Tree) (w : List Json.Space) (rest : Units) :
    (clean (Json.blank w ++ t.text ++ rest)).headD 0 ∉ units ",]\x7d" := by
  obtain ⟨c, s, htext, hc, hmem⟩ := text_head t
  rw [List.append_assoc, clean_blank, htext, List.cons_append, clean_cons hc]
  exact hmem

theorem items_head (items : Json.Items) (rest : Units) :
    (clean (items.text ++ rest)).headD 0 ∉ units ",]\x7d" := by
  cases items with
  | last w₁ item w₂ =>
    rw [Json.Items.text, List.append_assoc]
    exact headD_clean_text item w₁ _
  | cons w₁ item w₂ items =>
    rw [Json.Items.text, List.append_assoc, List.append_assoc]
    exact headD_clean_text item w₁ _

theorem members_head (members : Json.Members) (rest : Units) :
    (clean (members.text ++ rest)).headD 0 = unit '"' := by
  cases members with
  | last w₁ name w₂ w₃ value w₄ =>
    simp only [Json.Members.text, Json.stringText, List.append_assoc, List.cons_append, clean_blank]
    rw [clean_cons (by decide)]
    rfl
  | cons w₁ name w₂ w₃ value w₄ members =>
    simp only [Json.Members.text, Json.stringText, List.append_assoc, List.cons_append, clean_blank]
    rw [clean_cons (by decide)]
    rfl

/-- One round of the loop over elements. -/
theorem arrayLoop_item {item : Json.Tree} {acc : List Obj} {s rest : Units} {fuel : ℕ}
    (hval : (nextValue P fuel s).map (fun r => (r.1, clean r.2)) =
      (readTree P item).map fun o => (o, clean rest))
    (hhead : (clean s).headD 0 ≠ unit ',') :
    arrayLoop P (fuel + 1) acc s = readTree P item >>= fun o =>
      if (clean rest).headD 0 = unit ';' ∨ (clean rest).headD 0 = unit ',' then
        if (clean (clean rest).tail).headD 0 = unit ']' then
          .ok (acc ++ [o], (clean (clean rest).tail).tail)
        else arrayLoop P fuel (acc ++ [o]) (clean rest).tail
      else if (clean rest).headD 0 = unit ']' then .ok (acc ++ [o], (clean rest).tail)
      else .error .expectedCommaOrBracket := by
  rw [arrayLoop, if_neg hhead]
  rcases hread : readTree P item with f | o
  · rw [hread] at hval
    rw [eq_of_cleaned_error hval]
    rfl
  · rw [hread] at hval
    obtain ⟨s', hs', hclean⟩ := exists_of_cleaned hval
    simp only [hs', ok_bind, hclean]

/-- One round of the loop over members. -/
theorem objectLoop_member {value : Json.Tree} {name : List Json.Piece} {w₁ w₂ : List Json.Space}
    {map : List (Units × Obj)} {s rest : Units} {fuel : ℕ}
    (hval : (nextValue P (fuel + 1) s).map (fun r => (r.1, clean r.2)) =
      (readTree P value).map fun o => (o, clean rest)) :
    objectLoop P (fuel + 2) map
        (Json.blank w₁ ++ (Json.stringText name ++ (Json.blank w₂ ++ unit ':' :: s))) =
      readTree P value >>= fun o =>
      putOnce map (P.toLowerCase (Json.stringValue name)) o >>= fun map =>
      if (clean rest).headD 0 = unit ';' ∨ (clean rest).headD 0 = unit ',' then
        if (clean (clean rest).tail).headD 0 = unit '}' then
          .ok (map, (clean (clean rest).tail).tail)
        else objectLoop P (fuel + 1) map (clean rest).tail
      else if (clean rest).headD 0 = unit '}' then .ok (map, (clean rest).tail)
      else .error .expectedCommaOrBrace := by
  have hclean : clean
      (Json.blank w₁ ++ (Json.stringText name ++ (Json.blank w₂ ++ unit ':' :: s))) =
        Json.stringText name ++ (Json.blank w₂ ++ unit ':' :: s) := by
    rw [clean_blank, Json.stringText, List.cons_append, clean_cons (by decide)]
  have hhead : (Json.stringText name ++ (Json.blank w₂ ++ unit ':' :: s)).headD 0 = unit '"' := rfl
  have hkey : nextValue P (fuel + 1) (Json.stringText name ++ (Json.blank w₂ ++ unit ':' :: s)) =
      .ok (.string (Json.stringValue name), Json.blank w₂ ++ unit ':' :: s) :=
    nextValue_string [] name _ fuel
  have hcolon : colon (clean (Json.blank w₂ ++ unit ':' :: s)) = .ok s := by
    rw [clean_blank, clean_cons (by decide), colon, List.headD_cons, if_neg (by decide), if_pos rfl,
      List.tail_cons]
  rw [objectLoop, hclean]
  simp only [hhead]
  rw [if_neg (by decide), if_neg (by decide), hkey, ok_bind]
  simp only [hcolon, ok_bind, JSONTokener.toString]
  rcases hread : readTree P value with f | o
  · rw [hread] at hval
    rw [eq_of_cleaned_error hval]
    rfl
  · rw [hread] at hval
    obtain ⟨s', hs', hrest⟩ := exists_of_cleaned hval
    simp only [hs', ok_bind, hrest]

mutual

/-- **A JSON value is read as `readTree` says.** -/
theorem nextValue_text (t : Json.Tree) (w : List Json.Space) (rest : Units) (fuel : ℕ)
    (hfuel : t.text.length ≤ fuel) (hrest : Ends rest) :
    (nextValue P fuel (Json.blank w ++ t.text ++ rest)).map (fun r => (r.1, clean r.2)) =
      (readTree P t).map fun o => (o, clean rest) := by
  obtain ⟨fuel, rfl⟩ : ∃ n, fuel = n + 1 := by
    obtain ⟨c, s, htext, -⟩ := text_head t
    rw [htext, List.length_cons] at hfuel
    exact ⟨fuel - 1, by omega⟩
  cases t with
  | null =>
    rw [Json.Tree.text, nextValue_token (isToken_literal (by simp)) hrest,
      stringToValue_literals.2.2]
    rfl
  | bool b =>
    cases b with
    | false =>
      rw [show (Json.Tree.bool false).text = units "false" from rfl,
        nextValue_token (isToken_literal (by simp)) hrest, stringToValue_literals.2.1]
      rfl
    | true =>
      rw [show (Json.Tree.bool true).text = units "true" from rfl,
        nextValue_token (isToken_literal (by simp)) hrest, stringToValue_literals.1]
      rfl
  | number n =>
    rw [Json.Tree.text, nextValue_token (isToken_number n) hrest, stringToValue_number]
    rfl
  | string s =>
    rw [Json.Tree.text, List.append_assoc, nextValue_string]
    rfl
  | emptyArray w' =>
    rw [Json.Tree.text, List.append_assoc, List.cons_append, List.append_assoc, nextValue_bracket,
      clean_blank, List.singleton_append, clean_cons (by decide), List.headD_cons, if_pos rfl]
    rfl
  | array items =>
    rw [Json.Tree.text, List.length_cons, List.length_append, List.length_singleton] at hfuel
    rw [Json.Tree.text, List.append_assoc, List.cons_append, List.append_assoc, nextValue_bracket,
      List.singleton_append, if_neg (fun h => items_head items _ (by rw [h]; decide)),
      arrayLoop_text items [] rest fuel (by omega), readTree]
    rcases readItems P items [] with f | os
    · rfl
    · rfl
  | emptyObject w' =>
    obtain ⟨fuel, rfl⟩ : ∃ n, fuel = n + 1 := by
      rw [Json.Tree.text, List.length_cons, List.length_append, List.length_singleton] at hfuel
      exact ⟨fuel - 1, by omega⟩
    rw [Json.Tree.text, List.append_assoc, List.cons_append, List.append_assoc, nextValue_brace,
      objectLoop, clean_blank, List.singleton_append, clean_cons (by decide)]
    rfl
  | object members =>
    rw [Json.Tree.text, List.length_cons, List.length_append, List.length_singleton] at hfuel
    rw [Json.Tree.text, List.append_assoc, List.cons_append, List.append_assoc, nextValue_brace,
      List.singleton_append, objectLoop_text members [] rest fuel (by omega), readTree]
    rcases readMembers P members [] with f | map
    · rfl
    · rfl

theorem arrayLoop_text (items : Json.Items) (acc : List Obj) (rest : Units) (fuel : ℕ)
    (hfuel : items.text.length + 1 ≤ fuel) :
    arrayLoop P fuel acc (items.text ++ unit ']' :: rest) =
      (readItems P items acc).map fun items => (items, rest) := by
  obtain ⟨fuel, rfl⟩ : ∃ n, fuel = n + 1 := ⟨fuel - 1, by omega⟩
  cases items with
  | last w₁ item w₂ =>
    have hends : Ends (Json.blank w₂ ++ unit ']' :: rest) := ⟨w₂, _, rest, rfl, by decide⟩
    have hlen : item.text.length ≤ fuel := by
      simp only [Json.Items.text, List.length_append] at hfuel
      omega
    have hval := nextValue_text item w₁ (Json.blank w₂ ++ unit ']' :: rest) fuel hlen hends
    rw [Json.Items.text, List.append_assoc, arrayLoop_item hval
      fun h => headD_clean_text item w₁ _ (by rw [h]; decide), readItems]
    rcases readTree P item with f | o
    · rfl
    · rw [ok_bind, clean_blank, clean_cons (by decide)]
      rfl
  | cons w₁ item w₂ items =>
    have hends : Ends (Json.blank w₂ ++ unit ',' :: (items.text ++ unit ']' :: rest)) :=
      ⟨w₂, _, _, rfl, by decide⟩
    simp only [Json.Items.text, List.length_append, List.length_cons] at hfuel
    have hval := nextValue_text item w₁
      (Json.blank w₂ ++ unit ',' :: (items.text ++ unit ']' :: rest)) fuel (by omega) hends
    have hassoc : (Json.Items.cons w₁ item w₂ items).text ++ unit ']' :: rest =
        Json.blank w₁ ++ item.text ++
          (Json.blank w₂ ++ unit ',' :: (items.text ++ unit ']' :: rest)) := by
      simp [Json.Items.text]
    rw [hassoc, arrayLoop_item hval fun h => headD_clean_text item w₁ _ (by rw [h]; decide),
      readItems]
    rcases readTree P item with f | o
    · rfl
    · rw [ok_bind, ok_bind, clean_blank, clean_cons (by decide)]
      have hgoes : ¬ (clean (items.text ++ unit ']' :: rest)).headD 0 = unit ']' := fun h =>
        items_head items _ (by rw [h]; decide)
      rw [if_pos (by exact Or.inr rfl)]
      exact (if_neg hgoes).trans (arrayLoop_text items (acc ++ [o]) rest fuel (by omega))

theorem objectLoop_text (members : Json.Members) (map : List (Units × Obj)) (rest : Units)
    (fuel : ℕ) (hfuel : members.text.length ≤ fuel) :
    objectLoop P fuel map (members.text ++ unit '}' :: rest) =
      (readMembers P members map).map fun map => (map, rest) := by
  cases members with
  | last w₁ name w₂ w₃ value w₄ =>
    simp only [Json.Members.text, Json.stringText, List.length_append, List.length_cons,
      List.length_nil] at hfuel
    obtain ⟨fuel, rfl⟩ : ∃ n, fuel = n + 2 := ⟨fuel - 2, by omega⟩
    have hends : Ends (Json.blank w₄ ++ unit '}' :: rest) := ⟨w₄, _, rest, rfl, by decide⟩
    have hval := nextValue_text value w₃ (Json.blank w₄ ++ unit '}' :: rest) (fuel + 1) (by omega)
      hends
    have hassoc : (Json.Members.last w₁ name w₂ w₃ value w₄).text ++ unit '}' :: rest =
        Json.blank w₁ ++ (Json.stringText name ++ (Json.blank w₂ ++ unit ':' ::
          (Json.blank w₃ ++ value.text ++ (Json.blank w₄ ++ unit '}' :: rest)))) := by
      simp [Json.Members.text]
    rw [hassoc, objectLoop_member hval, readMembers]
    rcases readTree P value with f | o
    · rfl
    · rw [ok_bind, ok_bind]
      rcases putOnce map (P.toLowerCase (Json.stringValue name)) o with f | map
      · rfl
      · rw [ok_bind, clean_blank, clean_cons (by decide)]
        rfl
  | cons w₁ name w₂ w₃ value w₄ members =>
    simp only [Json.Members.text, Json.stringText, List.length_append, List.length_cons,
      List.length_nil] at hfuel
    obtain ⟨fuel, rfl⟩ : ∃ n, fuel = n + 2 := ⟨fuel - 2, by omega⟩
    have hends : Ends (Json.blank w₄ ++ unit ',' :: (members.text ++ unit '}' :: rest)) :=
      ⟨w₄, _, _, rfl, by decide⟩
    have hval := nextValue_text value w₃
      (Json.blank w₄ ++ unit ',' :: (members.text ++ unit '}' :: rest)) (fuel + 1) (by omega) hends
    have hassoc : (Json.Members.cons w₁ name w₂ w₃ value w₄ members).text ++ unit '}' :: rest =
        Json.blank w₁ ++ (Json.stringText name ++ (Json.blank w₂ ++ unit ':' ::
          (Json.blank w₃ ++ value.text ++
            (Json.blank w₄ ++ unit ',' :: (members.text ++ unit '}' :: rest))))) := by
      simp [Json.Members.text]
    rw [hassoc, objectLoop_member hval, readMembers]
    rcases readTree P value with f | o
    · rfl
    · rw [ok_bind, ok_bind]
      rcases putOnce map (P.toLowerCase (Json.stringValue name)) o with f | map
      · rfl
      · rw [ok_bind, ok_bind, clean_blank, clean_cons (by decide)]
        have hgoes : ¬ (clean (members.text ++ unit '}' :: rest)).headD 0 = unit '}' := by
          rw [members_head]
          decide
        rw [if_pos (by exact Or.inr rfl)]
        exact (if_neg hgoes).trans (objectLoop_text members map rest (fuel + 1) (by omega))

end

/-- **A JSON object is read as `readMembers` says**, with whitespace around
it and whatever follows. -/
theorem parse_object (w : List Json.Space) (members : Json.Members) (rest : Units) :
    JSONObject.parse P (Json.blank w ++ ((Json.Tree.object members).text ++ rest)) =
      readMembers P members [] := by
  have hclean : clean (Json.blank w ++ ((Json.Tree.object members).text ++ rest)) =
      unit '{' :: (members.text ++ unit '}' :: rest) := by
    rw [clean_blank, Json.Tree.text, List.cons_append, clean_cons (by decide), List.append_assoc]
    rfl
  rw [JSONObject.parse, hclean, List.headD_cons, if_pos rfl, List.tail_cons,
    objectLoop_text members [] rest _ (by rw [List.length_append]; omega)]
  rcases readMembers P members [] with f | map
  · rfl
  · rfl

/-! ### What is read -/

variable (P) in
/-- A member and the entry of the map that is made of it. -/
def ReadAs (m : Units × Json.Tree) (e : Units × Obj) : Prop :=
  e.1 = P.toLowerCase m.1 ∧ readTree P m.2 = .ok e.2

variable (P) in
/-- The map that is made of an object. -/
structure ReadsTo (ms : List (Units × Json.Tree)) (map : List (Units × Obj)) : Prop where
  entries : List.Forall₂ (ReadAs P) ms map
  nodup : (map.map Prod.fst).Nodup

variable (P) in
/-- No two names are the same when their letters are lowered. -/
def DistinctNames (ms : List (Units × Json.Tree)) : Prop :=
  (ms.map fun m => P.toLowerCase m.1).Nodup

theorem putOnce_eq_ok {map map' : List (Units × Obj)} {key : Units} {o : Obj} :
    putOnce map key o = .ok map' ↔ key ∉ map.map Prod.fst ∧ map' = map ++ [(key, o)] := by
  have hhas : (map.lookup key).isSome = true ↔ key ∈ map.map Prod.fst := by
    rw [List.lookup_isSome_iff, List.mem_map]
    exact exists_congr fun e => and_congr_right fun _ => by rw [beq_iff_eq, eq_comm]
  rw [putOnce]
  split_ifs with h
  · simp [hhas.1 h]
  · rw [hhas] at h
    simp [h, eq_comm]

theorem readItems_eq_ok : ∀ {items : Json.Items} {acc os : List Obj},
    readItems P items acc = .ok os ↔
      ∃ new, os = acc ++ new ∧ List.Forall₂ (fun t o => readTree P t = .ok o) items.toList new
  | .last w₁ item w₂, acc, os => by
    rw [readItems, Java.bind_eq_ok, Json.Items.toList]
    constructor
    · rintro ⟨o, ho, h⟩
      exact ⟨[o], (Except.ok.inj h).symm, .cons ho .nil⟩
    · rintro ⟨new, rfl, hnew⟩
      obtain ⟨o, l, ho, hl, rfl⟩ := List.forall₂_cons_left_iff.1 hnew
      obtain rfl := List.forall₂_nil_left_iff.1 hl
      exact ⟨o, ho, rfl⟩
  | .cons w₁ item w₂ items, acc, os => by
    rw [readItems, Java.bind_eq_ok, Json.Items.toList]
    constructor
    · rintro ⟨o, ho, h⟩
      obtain ⟨new, rfl, hnew⟩ := readItems_eq_ok.1 h
      exact ⟨o :: new, by simp, .cons ho hnew⟩
    · rintro ⟨new, rfl, hnew⟩
      obtain ⟨o, l, ho, hl, rfl⟩ := List.forall₂_cons_left_iff.1 hnew
      exact ⟨o, ho, readItems_eq_ok.2 ⟨l, by simp, hl⟩⟩

theorem readMembers_eq_ok : ∀ {members : Json.Members} {acc map : List (Units × Obj)},
    readMembers P members acc = .ok map ↔
      ∃ new, map = acc ++ new ∧ ReadsTo P members.toList new ∧
        ∀ e ∈ new, e.1 ∉ acc.map Prod.fst
  | .last w₁ name w₂ w₃ value w₄, acc, map => by
    rw [readMembers, Java.bind_eq_ok, Json.Members.toList]
    simp only [putOnce_eq_ok]
    constructor
    · rintro ⟨o, ho, hkey, rfl⟩
      exact ⟨_, rfl, ⟨.cons ⟨rfl, ho⟩ .nil, by simp⟩, by simpa using hkey⟩
    · rintro ⟨new, rfl, ⟨hnew, -⟩, hacc⟩
      obtain ⟨⟨key, o⟩, l, ⟨rfl, ho⟩, hl, rfl⟩ := List.forall₂_cons_left_iff.1 hnew
      obtain rfl := List.forall₂_nil_left_iff.1 hl
      exact ⟨o, ho, hacc _ List.mem_cons_self, rfl⟩
  | .cons w₁ name w₂ w₃ value w₄ members, acc, map => by
    rw [readMembers, Java.bind_eq_ok, Json.Members.toList]
    simp only [Java.bind_eq_ok, putOnce_eq_ok]
    constructor
    · rintro ⟨o, ho, _, ⟨hkey, rfl⟩, h⟩
      obtain ⟨new, rfl, ⟨hnew, hnodup⟩, hacc⟩ := readMembers_eq_ok.1 h
      simp only [List.map_append, List.map_cons, List.map_nil, List.mem_append,
        List.mem_singleton, not_or] at hacc
      refine ⟨(P.toLowerCase (Json.stringValue name), o) :: new, by simp,
        ⟨.cons ⟨rfl, ho⟩ hnew, ?_⟩, ?_⟩
      · rw [List.map_cons, List.nodup_cons]
        refine ⟨fun hmem => ?_, hnodup⟩
        obtain ⟨e, he, heq⟩ := List.mem_map.1 hmem
        exact (hacc e he).2 heq
      · exact List.forall_mem_cons.2 ⟨hkey, fun e he => (hacc e he).1⟩
    · rintro ⟨new, rfl, ⟨hnew, hnodup⟩, hacc⟩
      obtain ⟨⟨key, o⟩, l, ⟨rfl, ho⟩, hl, rfl⟩ := List.forall₂_cons_left_iff.1 hnew
      obtain ⟨hkey, hacc⟩ := List.forall_mem_cons.1 hacc
      rw [List.map_cons, List.nodup_cons] at hnodup
      refine ⟨o, ho, _, ⟨hkey, rfl⟩, readMembers_eq_ok.2 ⟨l, by simp, ⟨hl, hnodup.2⟩, ?_⟩⟩
      intro e he
      simp only [List.map_append, List.map_cons, List.map_nil, List.mem_append,
        List.mem_singleton, not_or]
      exact ⟨hacc e he, fun heq => hnodup.1 (List.mem_map.2 ⟨e, he, heq⟩)⟩

theorem readMembers_nil {members : Json.Members} {map : List (Units × Obj)} :
    readMembers P members [] = .ok map ↔ ReadsTo P members.toList map := by
  rw [readMembers_eq_ok]
  simp

/-- The keys are the names with their letters lowered. -/
theorem map_fst_of_readAs {ms : List (Units × Json.Tree)} {map : List (Units × Obj)}
    (h : List.Forall₂ (ReadAs P) ms map) :
    map.map Prod.fst = ms.map fun m => P.toLowerCase m.1 := by
  induction h with
  | nil => rfl
  | cons he _ ih => rw [List.map_cons, List.map_cons, ih, he.1]

/-- An object can be read when its values can and its names are distinct. -/
theorem exists_readsTo {ms : List (Units × Json.Tree)} :
    (∃ map, ReadsTo P ms map) ↔
      (∀ m ∈ ms, ∃ o, readTree P m.2 = .ok o) ∧ DistinctNames P ms := by
  constructor
  · rintro ⟨map, hentries, hnodup⟩
    refine ⟨fun m hm => ?_, ?_⟩
    · obtain ⟨e, -, he⟩ := Lists.exists_right hentries hm
      exact ⟨e.2, he.2⟩
    · rw [DistinctNames, ← map_fst_of_readAs hentries]
      exact hnodup
  · rintro ⟨hread, hdistinct⟩
    obtain ⟨map, hmap⟩ := Lists.exists_forall₂ (R := ReadAs P) (l := ms) fun m hm =>
      (hread m hm).elim fun o ho => ⟨(P.toLowerCase m.1, o), rfl, ho⟩
    exact ⟨map, hmap, by rw [map_fst_of_readAs hmap]; exact hdistinct⟩

theorem exists_of_map_eq_ok {α β : Type} {x : Except Failure α} {f : α → β} {b : β}
    (h : x.map f = .ok b) : ∃ a, x = .ok a ∧ f a = b := by
  rcases x with e | a
  · exact absurd h (by simp [Except.map])
  · exact ⟨a, rfl, Except.ok.inj h⟩

mutual

/-- **A JSON value can be read when the names of each of its objects are
distinct.** -/
theorem exists_readTree : ∀ t : Json.Tree,
    (∃ o, readTree P t = .ok o) ↔ ∀ ms ∈ t.objects, DistinctNames P ms
  | .null => by simp [readTree, Json.Tree.objects]
  | .bool b => by simp [readTree, Json.Tree.objects]
  | .number n => by simp [readTree, Json.Tree.objects]
  | .string s => by simp [readTree, Json.Tree.objects]
  | .emptyArray w => by simp [readTree, Json.Tree.objects]
  | .array items => by
    rw [readTree, Json.Tree.objects, ← exists_readItems items]
    constructor
    · rintro ⟨o, ho⟩ t ht
      obtain ⟨os, hos, -⟩ := exists_of_map_eq_ok ho
      obtain ⟨new, -, hnew⟩ := readItems_eq_ok.1 hos
      obtain ⟨o, -, ho⟩ := Lists.exists_right hnew ht
      exact ⟨o, ho⟩
    · intro h
      obtain ⟨os, hos⟩ := Lists.exists_forall₂ h
      refine ⟨.array os, ?_⟩
      rw [readItems_eq_ok.2 ⟨os, rfl, hos⟩]
      rfl
  | .emptyObject w => by simp [readTree, Json.Tree.objects]
  | .object members => by
    rw [readTree, Json.Tree.objects, List.forall_mem_cons, ← exists_readValues members, and_comm,
      ← exists_readsTo]
    constructor
    · rintro ⟨o, ho⟩
      obtain ⟨map, hmap, -⟩ := exists_of_map_eq_ok ho
      exact ⟨map, readMembers_nil.1 hmap⟩
    · rintro ⟨map, hmap⟩
      refine ⟨.object map, ?_⟩
      rw [readMembers_nil.2 hmap]
      rfl

theorem exists_readItems : ∀ items : Json.Items,
    (∀ t ∈ items.toList, ∃ o, readTree P t = .ok o) ↔
      ∀ ms ∈ items.objects, DistinctNames P ms
  | .last w₁ item w₂ => by
    simpa [Json.Items.toList, Json.Items.objects] using exists_readTree item
  | .cons w₁ item w₂ items => by
    rw [Json.Items.toList, Json.Items.objects, List.forall_mem_cons, List.forall_mem_append,
      exists_readTree item, exists_readItems items]

theorem exists_readValues : ∀ members : Json.Members,
    (∀ m ∈ members.toList, ∃ o, readTree P m.2 = .ok o) ↔
      ∀ ms ∈ members.objects, DistinctNames P ms
  | .last w₁ name w₂ w₃ value w₄ => by
    simpa [Json.Members.toList, Json.Members.objects] using exists_readTree value
  | .cons w₁ name w₂ w₃ value w₄ members => by
    rw [Json.Members.toList, Json.Members.objects, List.forall_mem_cons, List.forall_mem_append,
      exists_readTree value, exists_readValues members]

end

/-- A lookup finds the member whose name is the key when its letters are
lowered. -/
theorem ReadsTo.lookup_eq_some {ms : List (Units × Json.Tree)} {map : List (Units × Obj)}
    (h : ReadsTo P ms map) {key : Units} {o : Obj} :
    map.lookup key = some o ↔ ∃ m ∈ ms, P.toLowerCase m.1 = key ∧ readTree P m.2 = .ok o := by
  rw [Lists.lookup_eq_some_iff_mem h.nodup]
  constructor
  · intro hmem
    obtain ⟨m, hm, hkey, ho⟩ := Lists.exists_right h.entries.flip hmem
    exact ⟨m, hm, hkey.symm, ho⟩
  · rintro ⟨m, hm, rfl, ho⟩
    obtain ⟨⟨key, o'⟩, he, rfl, ho'⟩ := Lists.exists_right h.entries hm
    rw [ho] at ho'
    rwa [Except.ok.inj ho']

section Shapes

variable {t : Json.Tree} {o : Obj}

/-- A string or a number is read as a string, and nothing else is. -/
theorem isText_iff (h : readTree P t = .ok o) : t.isText = true ↔ ∃ s, o = .string s := by
  cases t with
  | null =>
    cases h
    simp [Json.Tree.isText]
  | bool b =>
    cases h
    simp [Json.Tree.isText]
  | number n =>
    cases h
    simp [Json.Tree.isText]
  | string s =>
    cases h
    simp [Json.Tree.isText]
  | emptyArray w =>
    cases h
    simp [Json.Tree.isText]
  | array items =>
    obtain ⟨os, -, rfl⟩ := exists_of_map_eq_ok h
    simp [Json.Tree.isText]
  | emptyObject w =>
    cases h
    simp [Json.Tree.isText]
  | object members =>
    obtain ⟨map, -, rfl⟩ := exists_of_map_eq_ok h
    simp [Json.Tree.isText]

theorem exists_array {items : List Json.Tree} (hitems : t.items? = some items)
    (h : readTree P t = .ok o) :
    ∃ os, o = .array os ∧ List.Forall₂ (fun t o => readTree P t = .ok o) items os := by
  cases t with
  | emptyArray w =>
    cases hitems
    cases h
    exact ⟨[], rfl, .nil⟩
  | array items' =>
    cases hitems
    obtain ⟨os, hos, rfl⟩ := exists_of_map_eq_ok h
    obtain ⟨new, hnil, hnew⟩ := readItems_eq_ok.1 hos
    rw [List.nil_append] at hnil
    exact ⟨os, rfl, hnil ▸ hnew⟩
  | _ => simp [Json.Tree.items?] at hitems

theorem exists_object {ms : List (Units × Json.Tree)} (hms : t.members? = some ms)
    (h : readTree P t = .ok o) : ∃ map, o = .object map ∧ ReadsTo P ms map := by
  cases t with
  | emptyObject w =>
    cases hms
    cases h
    exact ⟨[], rfl, .nil, List.nodup_nil⟩
  | object members =>
    cases hms
    obtain ⟨map, hmap, rfl⟩ := exists_of_map_eq_ok h
    exact ⟨map, rfl, readMembers_nil.1 hmap⟩
  | _ => simp [Json.Tree.members?] at hms

end Shapes

end Trees

/-! ## The reader ends -/

section Fuel

variable {P : Platform} {α β : Type} {s s' : Units} {x : Except Failure (α × Units)}

/-- The reader did not run out of depth, and what it leaves is shorter. -/
structure Shrinks (s : Units) (x : Except Failure (α × Units)) : Prop where
  fuel : x ≠ .error .outOfFuel
  shorter : ∀ a s', x = .ok (a, s') → s'.length < s.length

namespace Shrinks

theorem ok {a : α} (h : s'.length < s.length) : Shrinks s (.ok (a, s')) :=
  ⟨by simp, fun _ _ heq => by cases heq; exact h⟩

theorem error {f : Failure} (h : f ≠ .outOfFuel) :
    Shrinks s (.error f : Except Failure (α × Units)) :=
  ⟨fun heq => h (Except.error.inj heq), by simp⟩

theorem mono (h : Shrinks s x) (hle : s.length ≤ s'.length) : Shrinks s' x :=
  ⟨h.fuel, fun a t ht => (h.shorter a t ht).trans_le hle⟩

theorem bind (h : Shrinks s x) {f : α × Units → Except Failure (β × Units)}
    (hf : ∀ a t, t.length < s.length → Shrinks s (f (a, t))) : Shrinks s (x >>= f) := by
  rcases x with e | ⟨a, t⟩
  · exact .error fun he => h.fuel (by rw [he])
  · exact hf a t (h.shorter a t rfl)

theorem map (h : Shrinks s x) (f : α → β) : Shrinks s (x.map fun r => (f r.1, r.2)) := by
  rcases x with e | ⟨a, t⟩
  · exact .error fun he => h.fuel (by rw [he])
  · exact .ok (h.shorter a t rfl)

end Shrinks

theorem length_clean_le (s : Units) : (clean s).length ≤ s.length :=
  (List.dropWhile_sublist _).length_le

/-- A character that was read is one less to read. -/
theorem length_tail_lt {c : UInt16} (h : s.headD 0 = c) (hc : c ≠ 0) :
    s.tail.length < s.length := by
  rcases s with - | ⟨d, s⟩
  · exact absurd h.symm hc
  · simp

theorem nextString_shrinks (quote : UInt16) (s : Units) : Shrinks s (nextString P quote s) := by
  fun_induction nextString P quote s with
  | case1 => exact .error (by simp)
  | case2 => exact .error (by simp)
  | case3 => exact .error (by simp)
  | case4 => exact .error (by simp)
  | case5 => exact .error (by simp)
  | case6 _ _ _ _ _ _ _ _ _ ih => exact (ih.map _).mono (by simp only [List.length_cons]; omega)
  | case7 => exact .error (by simp)
  | case8 => exact .error (by simp)
  | case9 _ _ _ _ _ _ ih => exact (ih.map _).mono (by simp only [List.length_cons]; omega)
  | case10 => exact .ok (by simp)
  | case11 c _ _ _ _ ih => exact (ih.map (c :: ·)).mono (by simp)

theorem colon_eq_ok (h : colon s = .ok s') : s'.length < s.length := by
  rw [colon] at h
  split_ifs at h with hequals hgreater hcolon
  · cases h
    have htail := length_tail_lt hequals (by decide)
    exact (List.tail_sublist _).length_le.trans_lt htail
  · cases h
    exact length_tail_lt hequals (by decide)
  · cases h
    exact length_tail_lt hcolon (by decide)

theorem colon_ne_outOfFuel {f : Failure} (h : colon s = .error f) : f ≠ .outOfFuel := by
  rw [colon] at h
  split_ifs at h
  cases h
  simp

theorem putOnce_ne_outOfFuel {map : List (Units × Obj)} {key : Units} {o : Obj} {f : Failure}
    (h : putOnce map key o = .error f) : f ≠ .outOfFuel := by
  rw [putOnce] at h
  split_ifs at h
  cases h
  simp

/-- What both loops do behind a value. -/
theorem separator_shrinks (close : UInt16) (a : α) (f : Failure) {u : Units}
    (next : Units → Except Failure (α × Units)) (hclose : close ≠ 0) (hf : f ≠ .outOfFuel)
    (hu : u.length ≤ s.length) (hnext : ∀ w, w.length < s.length → Shrinks s (next w)) :
    Shrinks s
      (if (clean u).headD 0 = unit ';' ∨ (clean u).headD 0 = unit ',' then
        if (clean (clean u).tail).headD 0 = close then .ok (a, (clean (clean u).tail).tail)
        else next (clean u).tail
      else if (clean u).headD 0 = close then .ok (a, (clean u).tail)
      else .error f) := by
  have hclean := length_clean_le u
  have hsep : (clean u).headD 0 = unit ';' ∨ (clean u).headD 0 = unit ',' →
      (clean u).tail.length < (clean u).length := by
    rintro (h | h)
    · exact length_tail_lt h (by decide)
    · exact length_tail_lt h (by decide)
  split_ifs with hmore hend hend
  · have htail := hsep hmore
    have hclean' := length_clean_le (clean u).tail
    have htail' := length_tail_lt hend hclose
    exact .ok (by omega)
  · have htail := hsep hmore
    exact hnext _ (by omega)
  · have htail := length_tail_lt hend hclose
    exact .ok (by omega)
  · exact .error hf

section Step

variable {fuel : ℕ}

/-- A value, with the two loops one level down. -/
theorem nextValue_shrinks
    (hobject : ∀ map s, 2 * s.length + 2 ≤ fuel → Shrinks s (objectLoop P fuel map s))
    (harray : ∀ items s, 2 * s.length + 2 ≤ fuel → Shrinks s (arrayLoop P fuel items s))
    (s : Units) (hs : 2 * s.length + 1 ≤ fuel + 1) : Shrinks s (nextValue P (fuel + 1) s) := by
  have hclean := length_clean_le s
  rw [nextValue]
  dsimp only
  split_ifs with hquote hbrace hbracket hempty hmissing
  · have htail : (clean s).tail.length < (clean s).length := by
      rcases hquote with h | h
      · exact length_tail_lt h (by decide)
      · exact length_tail_lt h (by decide)
    exact ((nextString_shrinks _ _).map Obj.string).mono (by omega)
  · have htail := length_tail_lt hbrace (by decide)
    exact ((hobject [] (clean s).tail (by omega)).map Obj.object).mono (by omega)
  · have htail := length_tail_lt hbracket (by decide)
    have hclean' := length_clean_le (clean s).tail
    have htail' := length_tail_lt hempty (by decide)
    exact .ok (by omega)
  · have htail := length_tail_lt hbracket (by decide)
    exact ((harray [] (clean s).tail (by omega)).map Obj.array).mono (by omega)
  · exact .error (by simp)
  · refine .ok (Nat.lt_of_lt_of_le ?_ hclean)
    -- the value has a character
    have hsplit := congrArg List.length
      (List.takeWhile_append_dropWhile (p := isUnquoted) (l := clean s))
    have hpos : (clean s).takeWhile isUnquoted ≠ [] := by
      intro h
      exact hmissing (by rw [h]; rfl)
    have := List.length_pos_iff.2 hpos
    rw [List.length_append] at hsplit
    omega

/-- A turn over a member. -/
theorem objectLoop_shrinks
    (hvalue : ∀ s, 2 * s.length + 1 ≤ fuel → Shrinks s (nextValue P fuel s))
    (hobject : ∀ map s, 2 * s.length + 2 ≤ fuel → Shrinks s (objectLoop P fuel map s))
    (map : List (Units × Obj)) (s : Units) (hs : 2 * s.length + 2 ≤ fuel + 1) :
    Shrinks s (objectLoop P (fuel + 1) map s) := by
  have hclean := length_clean_le s
  rw [objectLoop]
  dsimp only
  split_ifs with hend hbrace
  · exact .error (by simp)
  · have htail := length_tail_lt hbrace (by decide)
    exact .ok (by omega)
  · refine ((hvalue (clean s) (by omega)).mono hclean).bind fun key t ht => ?_
    have hclean' := length_clean_le t
    rcases hcolon : colon (clean t) with f | v
    · exact .error (colon_ne_outOfFuel hcolon)
    · have hv := colon_eq_ok hcolon
      refine ((hvalue v (by omega)).mono (by omega)).bind fun value u hu => ?_
      rcases hput : putOnce map (P.toLowerCase (JSONTokener.toString P key)) value with f | map
      · exact .error (putOnce_ne_outOfFuel hput)
      · exact separator_shrinks (unit '}') map .expectedCommaOrBrace (objectLoop P fuel map)
          (by decide) (by simp) hu.le fun w hw => (hobject map w (by omega)).mono hw.le

/-- A turn over an item. -/
theorem arrayLoop_shrinks
    (hvalue : ∀ s, 2 * s.length + 1 ≤ fuel → Shrinks s (nextValue P fuel s))
    (harray : ∀ items s, 2 * s.length + 2 ≤ fuel → Shrinks s (arrayLoop P fuel items s))
    (items : List Obj) (s : Units) (hs : 2 * s.length + 2 ≤ fuel + 1) :
    Shrinks s (arrayLoop P (fuel + 1) items s) := by
  rw [arrayLoop]
  have hafter : ∀ (item : Obj) (t : Units), t.length ≤ s.length → Shrinks s _ :=
    fun item t ht => separator_shrinks (unit ']') (items ++ [item]) .expectedCommaOrBracket
      (arrayLoop P fuel (items ++ [item])) (by decide) (by simp) ht
      fun w hw => (harray (items ++ [item]) w (by omega)).mono hw.le
  split_ifs with hcomma
  · exact hafter .null s le_rfl
  · exact (hvalue s (by omega)).bind fun item t ht => hafter item t ht.le

end Step

/-- **No text needs more depth than twice its length.** -/
theorem shrinks_of_fuel (fuel : ℕ) :
    (∀ s, 2 * s.length + 1 ≤ fuel → Shrinks s (nextValue P fuel s)) ∧
      (∀ map s, 2 * s.length + 2 ≤ fuel → Shrinks s (objectLoop P fuel map s)) ∧
      ∀ items s, 2 * s.length + 2 ≤ fuel → Shrinks s (arrayLoop P fuel items s) := by
  induction fuel with
  | zero => exact ⟨by omega, by omega, by omega⟩
  | succ fuel ih =>
    obtain ⟨hvalue, hobject, harray⟩ := ih
    exact ⟨nextValue_shrinks hobject harray, objectLoop_shrinks hvalue hobject,
      arrayLoop_shrinks hvalue harray⟩

/-- **The reader never runs out of depth.** -/
theorem parse_ne_outOfFuel (source : Units) :
    JSONObject.parse P source ≠ .error .outOfFuel := by
  rw [JSONObject.parse]
  split_ifs with hbrace
  · have h := (shrinks_of_fuel (P := P) _).2.1 [] (clean source).tail le_rfl
    intro heq
    generalize objectLoop P _ [] (clean source).tail = x at h heq
    rcases x with f | r
    · exact h.fuel (by rw [Except.error.inj heq])
    · exact absurd heq (by simp [Except.map])
  · simp

end Fuel

end DataFormat

end Xpod
