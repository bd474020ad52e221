import Mathlib.Data.BitVec
import Mathlib.Data.Set.Basic
import Mathlib.Tactic
import Xpod.Common.Fields
import Xpod.Common.Lex
import Xpod.Common.Utf8
import Xpod.DataSys.ActionKeys
/-!
# Whose actions a query can read

Ids are stored as the clients send them, and a key sets nothing between an
id and its kind that an id could not hold itself. So an id that goes on
where another one's keys go on is read by the queries of the other. This
file says exactly which ids those are.
-/

namespace Xpod

namespace DataSys

open Storm Storm.RecomendPro Application

/-- **No query of the kinds for `id` reads a row of `other`**, whatever its
window. -/
def Isolated (kinds : Set (Option Text)) (id other : Text) : Prop :=
  ∀ uidtype ∈ kinds, ∀ left right, ∀ w : Written, ∀ a ∈ w.actions, a.id = other →
    ¬ (startRow id uidtype right ≤ a.key ∧ a.key < stopRow id uidtype left)

/-- The kinds of ids there are: devices, which are the default, and users. -/
def idKinds : Set (Option Text) := {none, some ['u'], some ['t']}

/-- **An id that goes on like the keys of another**: with the letter of a
kind, and behind it nothing, or a separator and what comes before `z`. -/
def Imitates (id other : Text) : Prop :=
  ∃ type : IdType, other = id ++ '_' :: type.text ∨
    ∃ x, other = id ++ '_' :: type.text ++ '_' :: x ∧ ∀ c ∈ x.head?, c < 'z'

theorem mem_idKinds_iff {uidtype : Option Text} (h : uidtype ∈ idKinds) :
    ∃ type : IdType, uidtype.getD ['u'] = type.text := by
  rcases h with rfl | rfl | rfl
  · exact ⟨.u, rfl⟩
  · exact ⟨.u, rfl⟩
  · exact ⟨.t, rfl⟩

theorem some_mem_idKinds (type : IdType) : some type.text ∈ idKinds := by
  cases type <;> simp [idKinds, IdType.text]

/-! ## Remainders below `z` -/

/-- The bounds of a scan from above are at most `z`. -/
theorem boundText_le (left : Option (BitVec 64)) :
    getBytes (boundText ['z'] left) ≤ getBytes ['z'] := by
  cases left with
  | none => exact le_rfl
  | some time =>
    rw [boundText_some]
    exact (lt_z_of_forall_lt fun b hb =>
      Utf8.lt_of_mem_encode (by decide) (fun c hc => lt_of_mem_intText hc) hb).le

theorem cons_lt_z_iff (b : UInt8) (bs : List UInt8) :
    b :: bs < getBytes ['z'] ↔ b.toNat < 122 := by
  have hz : getBytes ['z'] = [122] := rfl
  rw [hz, List.cons_lt_cons_iff, UInt8.lt_iff_toNat_lt]
  simp

/-- A remainder comes before `z` when its first character does. -/
theorem append_sep_lt_z_iff (x : Text) (bs : List UInt8) :
    getBytes x ++ sep :: bs < getBytes ['z'] ↔ ∀ c ∈ x.head?, c < 'z' := by
  cases x with
  | nil => exact iff_of_true ((cons_lt_z_iff sep bs).2 (by decide)) (by simp)
  | cons c x =>
    have hlt : (∀ d ∈ (c :: x).head?, d < 'z') ↔ c.toNat < 122 := by
      simp only [List.head?_cons, Option.mem_some_iff, forall_eq']
      exact Iff.rfl
    have hbytes : getBytes (c :: x) = String.utf8EncodeChar c ++ getBytes x :=
      Utf8.encode_cons c x
    rw [hlt, hbytes, List.append_assoc]
    rcases Nat.lt_or_ge c.toNat 128 with hc | hc
    · rw [Utf8.utf8EncodeChar_of_lt hc, List.singleton_append, cons_lt_z_iff,
        UInt8.toNat_ofNat']
      omega
    · -- the bytes of such a character are all above `z`
      rcases hchar : String.utf8EncodeChar c with - | ⟨b, cs⟩
      · exact absurd hchar String.utf8EncodeChar_ne_nil
      · have hb : 128 ≤ b.toNat :=
          Utf8.le_of_mem_utf8EncodeChar hc (hchar ▸ List.mem_cons_self)
        rw [List.cons_append, cons_lt_z_iff]
        omega

/-! ## Rows of others in a scan -/

section Scan

variable {id other : Text} {w : Written} {a : Action}

/-- A key in a scan without bounds. -/
theorem mem_open_scan {uidtype : Option Text} {x : List UInt8}
    (hkey : a.key = getBytes (head id uidtype) ++ sep :: x) (hx : x < getBytes ['z']) :
    startRow id uidtype none ≤ a.key ∧ a.key < stopRow id uidtype none :=
  (mem_scan_iff id uidtype none none a.key).2 ⟨x, hkey, not_lt.1 (List.not_lt_nil _), hx⟩

/-- A text that goes on behind the bytes of an id goes on behind the id. -/
theorem eq_append_sep {y : List UInt8} (h : getBytes other = getBytes id ++ sep :: y) :
    ∃ z, other = id ++ '_' :: z ∧ getBytes z = y := by
  obtain ⟨u, rfl, hu⟩ := Utf8.encode_eq_append h
  obtain ⟨z, rfl, hz⟩ := Utf8.encode_eq_cons (c := '_') (by decide) hu
  exact ⟨z, rfl, hz⟩

theorem eq_append_type {type : IdType} {y : List UInt8}
    (h : getBytes other = getBytes id ++ sep :: idByte type :: y) :
    ∃ z, other = id ++ '_' :: type.text ++ z ∧ getBytes z = y := by
  have hhead : getBytes other = getBytes (id ++ '_' :: type.text) ++ y := by
    rw [h, getBytes_append, getBytes_sep, getBytes_type]
    simp
  exact Utf8.encode_eq_append hhead

/-- **A row of another id in the scan of a query** of a kind there is: the
other id imitates that of the query. -/
theorem imitates_of_mem_scan (hne : id ≠ other) (ha : a ∈ w.actions) (hid : a.id = other)
    {uidtype : Option Text} {type : IdType} (htype : uidtype.getD ['u'] = type.text)
    {left right : Option (BitVec 64)}
    (h : startRow id uidtype right ≤ a.key ∧ a.key < stopRow id uidtype left) :
    Imitates id other := by
  obtain ⟨x, hkey, -, hx⟩ := (mem_scan_iff id uidtype left right a.key).1 h
  have hx := hx.trans_le (boundText_le left)
  have hhead : getBytes (head id uidtype) ++ sep :: x =
      getBytes id ++ sep :: idByte type :: sep :: x := by
    rw [head, htype, getBytes_append, getBytes_sep, getBytes_type]
    simp
  rw [a.key_eq, hhead, hid] at hkey
  rcases Fields.append_mark_eq (idByte_ne_sep type) (idByte_ne_sep a.type)
    (Written.not_mem_rest ha type) hkey.symm with ⟨heq, -, -⟩ | ⟨y, hother, hrest⟩
  · exact absurd (Utf8.encode_injective heq) hne
  · obtain ⟨z, hz, rfl⟩ := eq_append_type hother
    refine ⟨type, ?_⟩
    rcases hbytes : getBytes z with - | ⟨b, bs⟩
    · -- the id ends with the letter
      have hnil : z = [] := Utf8.encode_injective (hbytes.trans Utf8.encode_nil.symm)
      rw [hnil, List.append_nil] at hz
      exact Or.inl hz
    · rw [hbytes, List.cons_append, List.cons.injEq] at hrest
      obtain ⟨rfl, rfl⟩ := hrest
      obtain ⟨z', rfl, rfl⟩ := Utf8.encode_eq_cons (c := '_') (by decide) hbytes
      exact Or.inr ⟨z', hz, (append_sep_lt_z_iff z' _).1 hx⟩

/-- A row of another id in the scan of any query: one of the ids goes on
behind the other with a separator. -/
theorem extends_of_mem_scan (hid : a.id = other) {uidtype : Option Text}
    {left right : Option (BitVec 64)}
    (h : startRow id uidtype right ≤ a.key ∧ a.key < stopRow id uidtype left) :
    id = other ∨ (∃ x, other = id ++ '_' :: x) ∨ ∃ x, id = other ++ '_' :: x := by
  obtain ⟨x, hkey, -, -⟩ := (mem_scan_iff id uidtype left right a.key).1 h
  rw [a.key_eq, hid, head, getBytes_append, getBytes_sep, List.append_assoc,
    List.cons_append] at hkey
  rcases List.append_eq_append_iff.1 hkey with ⟨y, hy, hsep⟩ | ⟨y, hy, hsep⟩
  · rcases y with - | ⟨c, y⟩
    · rw [List.append_nil] at hy
      exact Or.inl (Utf8.encode_injective hy)
    · obtain ⟨rfl, -⟩ := List.cons.inj hsep
      obtain ⟨z, hz, -⟩ := eq_append_sep hy
      exact Or.inr (Or.inr ⟨z, hz⟩)
  · rcases y with - | ⟨c, y⟩
    · rw [List.append_nil] at hy
      exact Or.inl (Utf8.encode_injective hy).symm
    · obtain ⟨rfl, -⟩ := List.cons.inj hsep
      obtain ⟨z, hz, -⟩ := eq_append_sep hy
      exact Or.inr (Or.inl ⟨z, hz⟩)

/-- An id that imitates another is read by its queries. -/
theorem not_isolated_of_imitates (hother : other ≠ []) (h : Imitates id other) :
    ¬ Isolated idKinds id other := by
  obtain ⟨type, h⟩ := h
  intro hiso
  refine hiso (some type.text) (some_mem_idKinds type) none none (listen other 0) _
    (mem_actions_listen hother 0) rfl ?_
  rcases h with rfl | ⟨x, rfl, hx⟩
  · exact mem_open_scan (Action.key_eq _)
      ((cons_lt_z_iff _ _).2 (show (117 : UInt8).toNat < 122 by decide))
  · have hkey := Action.key_eq
      ⟨id ++ '_' :: type.text ++ '_' :: x, .u, 0, (getSeq 1 {}).2⟩
    rw [getBytes_append, getBytes_sep, List.append_assoc (getBytes _)] at hkey
    exact mem_open_scan hkey ((append_sep_lt_z_iff x _).2 hx)

/-- An id that goes on behind another with a separator is read by a query
of the other whose kind is the rest. -/
theorem not_isolated_of_extends {x : Text} (h : other = id ++ '_' :: x) :
    ¬ Isolated Set.univ id other := by
  intro hiso
  have hother : other ≠ [] := by simp [h]
  refine hiso (some x) (Set.mem_univ _) none none (listen other 0) _
    (mem_actions_listen hother 0) rfl ?_
  subst h
  exact mem_open_scan (Action.key_eq _)
    ((cons_lt_z_iff _ _).2 (show (117 : UInt8).toNat < 122 by decide))

end Scan

end DataSys

end Xpod
