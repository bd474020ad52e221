import Mathlib.Data.BitVec
import Mathlib.Tactic
import Xpod.Common.Fields
import Xpod.Common.Lex
import Xpod.Common.Utf8
import Xpod.DataSys.Model.Application
/-!
# The row keys of user actions

What the bolt writes and what the controller scans, as bytes: a row key is
an id, the letter of its kind and a remainder of digits, with separators
between them, and the bounds of a scan begin with an id and a letter. A
key lies between two bounds exactly when it begins like them and its
remainder lies between theirs.
-/

namespace Xpod

namespace DataSys

open Storm Storm.RecomendPro Application

/-! ## Actions -/

/-- What a row key is made of. -/
structure Action where
  id : Text
  type : IdType
  time : BitVec 64
  seq : Text
deriving DecidableEq, Repr

def Action.key (a : Action) : List UInt8 := rowKey a.id a.type a.time a.seq

/-- **A call of `createPut`** that returns, with a sequence string the bolt
made. -/
structure Written where
  data : PutTrait
  pubInfo : RecomendPro.PubInfo
  puts : List Put
  created : data.createPut pubInfo = .ok puts
  seq_mem : ∃ processId bolt, data.seq = (getSeq processId bolt).2

namespace Written

/-- The id of a kind, if the call writes under it. -/
def idOf (w : Written) : IdType → Option Text
  | .u => WriteToHbase.present w.pubInfo.ids.1
  | .t => WriteToHbase.present w.pubInfo.ids.2

/-- The actions the call writes. -/
def actions (w : Written) : List Action :=
  [IdType.u, IdType.t].flatMap fun type =>
    (w.idOf type).toList.map fun id => ⟨id, type, w.data.time, w.data.seq⟩

theorem mem_actions {w : Written} {a : Action} :
    a ∈ w.actions ↔ w.idOf a.type = some a.id ∧ a.time = w.data.time ∧ a.seq = w.data.seq := by
  obtain ⟨id, type, time, seq⟩ := a
  cases type <;> simp [actions] <;> tauto

/-- The put under an id, if there is one, has the columns of the action and
those of the log. -/
theorem putUnder_cases {p : PutTrait} {pubInfo : RecomendPro.PubInfo} {type : IdType}
    {id : Option Text} {puts : List Put} (h : p.putUnder pubInfo type id = .ok puts) :
    (WriteToHbase.present id = none ∧ puts = []) ∨
      ∃ id' info shared, WriteToHbase.present id = some id' ∧ p.addInfo = .ok info ∧
        pubInfo.addInfoToPut = .ok shared ∧
        puts = [⟨rowKey id' type p.time p.seq, info ++ shared⟩] := by
  unfold PutTrait.putUnder at h
  rcases hid : WriteToHbase.present id with - | id'
  · rw [hid] at h
    exact Or.inl ⟨rfl, (Except.ok.inj h).symm⟩
  · rw [hid] at h
    rcases hinfo : p.addInfo with e | info
    · simp [hinfo] at h
    · rcases hshared : pubInfo.addInfoToPut with e | shared
      · simp [hinfo, hshared] at h
      · simp only [hinfo, hshared, Java.ok_bind] at h
        exact Or.inr ⟨id', info, shared, rfl, rfl, rfl, (Except.ok.inj h).symm⟩

theorem rows_putUnder {p : PutTrait} {pubInfo : RecomendPro.PubInfo} {type : IdType}
    {id : Option Text} {puts : List Put} (h : p.putUnder pubInfo type id = .ok puts) :
    puts.map Put.row =
      (WriteToHbase.present id).toList.map fun id => rowKey id type p.time p.seq := by
  obtain ⟨hid, rfl⟩ | ⟨id', info, shared, hid, -, -, rfl⟩ := putUnder_cases h
  · rw [hid]
    rfl
  · rw [hid]
    rfl

theorem puts_eq (w : Written) :
    ∃ device user, w.data.putUnder w.pubInfo .u w.pubInfo.ids.1 = .ok device ∧
      w.data.putUnder w.pubInfo .t w.pubInfo.ids.2 = .ok user ∧ w.puts = device ++ user := by
  have h := w.created
  unfold PutTrait.createPut at h
  rcases hdevice : w.data.putUnder w.pubInfo .u w.pubInfo.ids.1 with e | device
  · simp [hdevice] at h
  · rcases huser : w.data.putUnder w.pubInfo .t w.pubInfo.ids.2 with e | user
    · simp [hdevice, huser] at h
    · simp only [hdevice, huser, Java.ok_bind] at h
      exact ⟨device, user, rfl, rfl, (Except.ok.inj h).symm⟩

/-- **The rows of the puts** are the keys of the actions. -/
theorem rows_puts (w : Written) : w.puts.map Put.row = w.actions.map Action.key := by
  obtain ⟨device, user, hdevice, huser, hputs⟩ := w.puts_eq
  rw [hputs, List.map_append, rows_putUnder hdevice, rows_putUnder huser]
  simp only [actions, List.flatMap_cons, List.flatMap_nil, List.append_nil, List.map_append,
    List.map_map]
  rfl

end Written

/-- A listen of a device of which nothing else is known. -/
def listen (id : Text) (time : BitVec 64) : Written where
  data := ⟨.listenInfo none 0, time, (getSeq 1 {}).2⟩
  pubInfo := ⟨(some id, none), none, none, 0, none, some {}, 0⟩
  puts := match id with
    | [] => []
    | c :: cs => [⟨rowKey (c :: cs) .u time (getSeq 1 {}).2,
        [("tlen".toList, intBytes 0), ("time".toList, longBytes time),
          ("module".toList, getBytes "listen".toList), ("net".toList, intBytes 0),
          ("devId".toList, getBytes (c :: cs)), ("devtype".toList, intBytes 0)]⟩]
  created := by cases id <;> rfl
  seq_mem := ⟨1, {}, rfl⟩

theorem mem_actions_listen {id : Text} (hid : id ≠ []) (time : BitVec 64) :
    ⟨id, .u, time, (getSeq 1 {}).2⟩ ∈ (listen id time).actions := by
  refine Written.mem_actions.2 ⟨?_, rfl, rfl⟩
  cases id with
  | nil => exact absurd rfl hid
  | cons c cs => rfl

/-! ## Keys as bytes -/

/-- The byte of `_`. -/
def sep : UInt8 := 95

def idByte : IdType → UInt8
  | .u => 117
  | .t => 116

theorem idByte_ne_sep (type : IdType) : idByte type ≠ sep := by
  cases type <;> decide

theorem idByte_injective : Function.Injective idByte := by
  intro type type'
  cases type <;> cases type' <;> decide

theorem getBytes_type (type : IdType) : getBytes type.text = [idByte type] := by
  cases type <;> rfl

theorem getBytes_append (s s' : Text) : getBytes (s ++ s') = getBytes s ++ getBytes s' :=
  Utf8.encode_append s s'

theorem getBytes_sep (s : Text) : getBytes ('_' :: s) = sep :: getBytes s := rfl

/-- What follows the letter in a key. -/
def Action.rest (a : Action) : List UInt8 :=
  getBytes (intText (timeReducer - a.time).toInt) ++ sep :: getBytes a.seq

theorem Action.key_eq (a : Action) :
    a.key = getBytes a.id ++ sep :: idByte a.type :: sep :: a.rest := by
  rw [key, rowKey, getBytes_append, getBytes_append, getBytes_append, getBytes_sep, getBytes_sep,
    getBytes_sep, getBytes_type, Action.rest]
  simp

theorem lt_of_mem_intText {z : ℤ} {c : Char} (h : c ∈ intText z) : c.toNat < 97 := by
  have hdigits : ∀ n, c ∈ Nat.toDigits 10 n → c.toNat < 97 := by
    intro n hc
    have hdigit := Nat.isDigit_of_mem_toDigits (by decide) le_rfl hc
    have hle : c.toNat ≤ 57 := by
      simp only [Char.isDigit, Bool.and_eq_true, decide_eq_true_eq] at hdigit
      exact hdigit.2
    omega
  cases z with
  | ofNat n => exact hdigits n h
  | negSucc n =>
    rcases List.mem_cons.1 h with rfl | h
    · decide
    · exact hdigits _ h

/-- What follows the letter are digits, signs and separators. -/
theorem Written.lt_of_mem_rest {w : Written} {a : Action} (ha : a ∈ w.actions) {b : UInt8}
    (hb : b ∈ a.rest) : b.toNat < 97 := by
  obtain ⟨-, -, hseq⟩ := mem_actions.1 ha
  obtain ⟨processId, bolt, hbolt⟩ := w.seq_mem
  rcases List.mem_append.1 hb with hb | hb
  · exact Utf8.lt_of_mem_encode (by decide) (fun c hc => lt_of_mem_intText hc) hb
  · rcases List.mem_cons.1 hb with rfl | hb
    · decide
    · rw [hseq, hbolt] at hb
      refine Utf8.lt_of_mem_encode (by decide) (fun c hc => ?_) hb
      simp only [getSeq, List.mem_append, List.mem_cons] at hc
      rcases hc with (hc | hc) | rfl | hc
      · exact lt_of_mem_intText hc
      · exact lt_of_mem_intText hc
      · decide
      · exact lt_of_mem_intText hc

/-- Digits, signs and separators come before the letter that bounds a scan
from above. -/
theorem lt_z_of_forall_lt {bs : List UInt8} (h : ∀ b ∈ bs, b.toNat < 97) :
    bs < getBytes ['z'] := by
  have hz : getBytes ['z'] = [122] := rfl
  rw [hz]
  cases bs with
  | nil => exact List.nil_lt_cons _ _
  | cons b bs =>
    have hb := h b List.mem_cons_self
    refine List.cons_lt_cons_iff.2 (Or.inl (UInt8.lt_iff_toNat_lt.2 ?_))
    exact hb.trans (by decide)

theorem Written.not_mem_rest {w : Written} {a : Action} (ha : a ∈ w.actions) (type : IdType) :
    idByte type ∉ a.rest := by
  intro hmem
  have hlow := lt_of_mem_rest ha hmem
  cases type <;> exact absurd hlow (by decide)

/-! ## Keys in a scan -/

theorem boundText_some (missing : Text) (time : BitVec 64) :
    boundText missing (some time) = intText (timeReducer - time * 1000).toInt := rfl

/-- **A key lies in the scan of a query** exactly when it begins with the
query's id and kind, and its remainder lies between those of the bounds. -/
theorem mem_scan_iff (uid : Text) (uidtype : Option Text) (left right : Option (BitVec 64))
    (key : List UInt8) :
    (startRow uid uidtype right ≤ key ∧ key < stopRow uid uidtype left) ↔
      ∃ x, key = getBytes (head uid uidtype) ++ sep :: x ∧
        getBytes (boundText [] right) ≤ x ∧ x < getBytes (boundText ['z'] left) := by
  have hbound : ∀ time, bound uid uidtype time =
      (getBytes (head uid uidtype) ++ [sep]) ++ getBytes time := by
    intro time
    rw [bound, getBytes_append, getBytes_sep, List.append_assoc]
    rfl
  rw [startRow, stopRow, hbound, hbound, Lex.mem_range_iff]
  simp only [List.append_assoc, List.singleton_append]

end DataSys

end Xpod
