import Mathlib.Data.BitVec
import Mathlib.Data.List.AList
import Mathlib.Tactic
import Xpod.Common.BigEndian
import Xpod.Common.Utf8
import Xpod.DataSys.UserActions
/-!
# The cells of an action

The reader of user actions has no schema: it takes the columns of
`INT_KEYS` for numbers, of four or eight bytes as their length tells, and
all others for text. The writer uses these columns for its numbers and no
others, and every column once, so the map of a row holds what was put.
-/

namespace Xpod

namespace DataSys

open Storm Storm.RecomendPro Application

/-! ## Cells one by one -/

/-- The bytes that `put.add` is given for an object. -/
def Application.Value.bytes : Value → List UInt8
  | .int n => intBytes n
  | .long n => longBytes n
  | .string s => getBytes s

/-- The columns of numbers hold numbers, and the others text. -/
def Suits (key : Text) : Value → Prop
  | .int _ => key ∈ intKeys
  | .long _ => key ∈ intKeys
  | .string _ => key ∉ intKeys

/-- **A cell is decoded as it was written.** -/
theorem cellValue_bytes {key : Text} {v : Value} (h : Suits key v) :
    cellValue key v.bytes = .ok v := by
  cases v with
  | int n =>
    have hkey : key ∈ intKeys := h
    have hlen : (intBytes n).length = 4 := BigEndian.length_write 4 _
    rw [cellValue, if_pos hkey, Value.bytes, if_pos hlen, intBytes, BigEndian.read_write n.isLt,
      BitVec.ofNat_toNat, BitVec.setWidth_eq]
  | long n =>
    have hkey : key ∈ intKeys := h
    have hlen : (longBytes n).length = 8 := BigEndian.length_write 8 _
    rw [cellValue, if_pos hkey, Value.bytes, if_neg (by omega), if_neg (by omega),
      List.take_of_length_le (by omega), longBytes, BigEndian.read_write n.isLt,
      BitVec.ofNat_toNat, BitVec.setWidth_eq]
  | string s =>
    have hkey : key ∉ intKeys := h
    rw [cellValue, if_neg hkey, Value.bytes, getBytes, Utf8.decode_encode]

/-! ## Rows -/

/-- What a key holds after columns with different names were put. -/
theorem lookup_foldl_insert {columns : Columns} (hnodup : (columns.map Prod.fst).Nodup)
    (cells : Cells) (key : Text) (value : List UInt8) :
    (columns.foldl (fun cells c => cells.insert c.1 c.2) cells).lookup key = some value ↔
      (key, value) ∈ columns ∨ key ∉ columns.map Prod.fst ∧ cells.lookup key = some value := by
  induction columns generalizing cells with
  | nil => simp
  | cons c columns ih =>
    obtain ⟨hc, hnodup⟩ := List.nodup_cons.1 hnodup
    rw [List.foldl_cons, ih hnodup, List.map_cons]
    by_cases hkey : key = c.1
    · subst hkey
      have hnot : (c.1, value) ∉ columns := fun hmem =>
        hc (List.mem_map.2 ⟨_, hmem, rfl⟩)
      simp [hnot, hc, Prod.ext_iff, eq_comm]
    · rw [AList.lookup_insert_ne hkey]
      simp [hkey, Prod.ext_iff]

theorem lookup_putColumns (columns : Columns) (hnodup : (columns.map Prod.fst).Nodup) (key : Text)
    (value : List UInt8) :
    (putColumns columns none).lookup key = some value ↔ (key, value) ∈ columns := by
  rw [putColumns, lookup_foldl_insert hnodup]
  simp

/-- **The map of a row** holds the objects of its cells. -/
theorem lookup_rowMap {cells : Cells} {r : RowMap} (h : rowMap cells = .ok r) (key : Text)
    (v : Value) :
    r.lookup key = some v ↔
      ∃ value, cells.lookup key = some value ∧ cellValue key value = .ok v := by
  have hfold : ∀ (entries : List (Sigma fun _ : Text => List UInt8)) (r₀ : RowMap),
      entries.NodupKeys → entries.foldlM (fun (r : RowMap) c => do
        let value ← cellValue c.1 c.2
        return r.insert c.1 value) r₀ = .ok r →
      (r.lookup key = some v ↔ (∃ value, ⟨key, value⟩ ∈ entries ∧ cellValue key value = .ok v) ∨
        key ∉ entries.keys ∧ r₀.lookup key = some v) := by
    intro entries
    induction entries with
    | nil =>
      intro r₀ _ h
      obtain rfl := Except.ok.inj h
      simp
    | cons e entries ih =>
      intro r₀ hnodup h
      obtain ⟨he, hnodup⟩ := List.nodupKeys_cons.1 hnodup
      rw [List.foldlM_cons] at h
      obtain ⟨r₁, hr₁, h⟩ := Java.bind_eq_ok.1 h
      obtain ⟨w, hw, hr₁⟩ := Java.bind_eq_ok.1 hr₁
      obtain rfl := Except.ok.inj hr₁
      rw [ih _ hnodup h]
      obtain ⟨k, b⟩ := e
      by_cases hkey : key = k
      · subst hkey
        have hnot : ∀ value, (⟨key, value⟩ : Sigma fun _ : Text => List UInt8) ∉ entries :=
          fun value hmem => he (List.mem_map.2 ⟨_, hmem, rfl⟩)
        simp [hnot, he, hw]
      · rw [AList.lookup_insert_ne hkey]
        simp [hkey]
  rw [hfold cells.entries ∅ cells.nodupKeys h]
  simp [AList.mem_lookup_iff, ← Option.mem_def]

/-- Columns of different names are read as the objects they were made of. -/
theorem rowMap_putColumns {objects : List (Text × Value)}
    (hnodup : (objects.map Prod.fst).Nodup) (hsuits : ∀ o ∈ objects, Suits o.1 o.2) :
    ∃ r, rowMap (putColumns (objects.map fun o => (o.1, o.2.bytes)) none) = .ok r ∧
      ∀ key v, r.lookup key = some v ↔ (key, v) ∈ objects := by
  have hcells := lookup_putColumns (objects.map fun o => (o.1, o.2.bytes))
    (by rw [List.map_map]; exact hnodup)
  have hreadable : Readable (putColumns (objects.map fun o => (o.1, o.2.bytes)) none) := by
    refine readable_putColumns (fun c hc => ?_) (by simp [Readable])
    obtain ⟨o, ho, rfl⟩ := List.mem_map.1 hc
    exact ⟨o.2, cellValue_bytes (hsuits o ho)⟩
  obtain ⟨r, hr⟩ := rowMap_eq_ok hreadable
  refine ⟨r, hr, fun key v => ?_⟩
  rw [lookup_rowMap hr]
  simp only [hcells]
  constructor
  · rintro ⟨value, hmem, hvalue⟩
    obtain ⟨o, ho, heq⟩ := List.mem_map.1 hmem
    obtain ⟨rfl, rfl⟩ := Prod.mk.inj heq
    rw [cellValue_bytes (hsuits o ho)] at hvalue
    rw [← Except.ok.inj hvalue]
    exact ho
  · intro ho
    exact ⟨v.bytes, List.mem_map.2 ⟨_, ho, rfl⟩, cellValue_bytes (hsuits _ ho)⟩

/-! ## What an action puts -/

/-- The id of the song or the rank list. -/
def idOf : Info → Option Text
  | .listenInfo songId _ => songId
  | .downLoadInfo songId _ => songId
  | .rankListInfo rankId => rankId

/-- A column of text, and no column for null. -/
def textObject (qualifier : String) (s : Option Text) : List (Text × Value) :=
  s.toList.map fun s => (qualifier.toList, .string s)

/-- **What an action is**: the objects of its own columns. -/
def ownObjects (p : PutTrait) : List (Text × Value) :=
  match p.info with
  | .listenInfo songId playTime =>
    textObject "song_id" songId ++ [("tlen".toList, .int playTime),
      ("time".toList, .long p.time), ("module".toList, .string "listen".toList)]
  | .downLoadInfo songId downLoadTime =>
    textObject "song_id" songId ++ [("tlen".toList, .long downLoadTime),
      ("time".toList, .long p.time), ("module".toList, .string "download".toList)]
  | .rankListInfo rankId =>
    textObject "rank_id" rankId ++ [("time".toList, .long p.time),
      ("module".toList, .string "song_list".toList)]

/-- What all actions of a log share. -/
def sharedObjects (p : RecomendPro.PubInfo) (location : Location) : List (Text × Value) :=
  textObject "s" p.channel ++ textObject "v" p.version ++ [("net".toList, .int p.net)] ++
    textObject "app" p.app ++ textObject "isp" (WriteToHbase.present location.isp) ++
    textObject "country" (WriteToHbase.present location.country) ++
    textObject "city" (WriteToHbase.present location.city) ++
    textObject "province" (WriteToHbase.present location.province) ++
    textObject "devId" (WriteToHbase.present p.ids.1) ++
    textObject "userid" (WriteToHbase.present p.ids.2) ++ [("devtype".toList, .int p.devType)]

/-- The columns that objects are put in. -/
def columnsOf (objects : List (Text × Value)) : Columns :=
  objects.map fun o => (o.1, o.2.bytes)

theorem columnsOf_append (objects objects' : List (Text × Value)) :
    columnsOf (objects ++ objects') = columnsOf objects ++ columnsOf objects' :=
  List.map_append

theorem columnsOf_textObject (qualifier : String) (s : Option Text) :
    columnsOf (textObject qualifier s) = addText qualifier s := by
  cases s <;> rfl

theorem addInfo_eq {p : PutTrait} (hid : idOf p.info ≠ none) :
    p.addInfo = .ok (columnsOf (ownObjects p)) := by
  obtain ⟨info, time, seq⟩ := p
  cases info with
  | listenInfo songId playTime =>
    simp only [PutTrait.addInfo, ownObjects, columnsOf_append, columnsOf_textObject]
    rfl
  | downLoadInfo songId downLoadTime =>
    obtain ⟨id, rfl⟩ := Option.ne_none_iff_exists'.1 hid
    rfl
  | rankListInfo rankId =>
    obtain ⟨id, rfl⟩ := Option.ne_none_iff_exists'.1 hid
    rfl

theorem addInfoToPut_eq {p : RecomendPro.PubInfo} {location : Location}
    (hloc : p.location = some location) :
    p.addInfoToPut = .ok (columnsOf (sharedObjects p location)) := by
  simp only [PubInfo.addInfoToPut, hloc, sharedObjects, columnsOf_append, columnsOf_textObject]
  rfl

/-! ## Names -/

/-- The names of the columns in the order they are put. -/
def ownNames : List Text :=
  ["song_id".toList, "rank_id".toList, "tlen".toList, "time".toList, "module".toList]

def sharedNames : List Text :=
  ["s".toList, "v".toList, "net".toList, "app".toList, "isp".toList, "country".toList,
    "city".toList, "province".toList, "devId".toList, "userid".toList, "devtype".toList]

theorem names_textObject (qualifier : String) (s : Option Text) :
    ((textObject qualifier s).map Prod.fst).Sublist [qualifier.toList] := by
  cases s
  · exact List.nil_sublist _
  · exact List.Sublist.refl _

theorem names_ownObjects (p : PutTrait) : ((ownObjects p).map Prod.fst).Sublist ownNames := by
  obtain ⟨info, time, seq⟩ := p
  cases info with
  | listenInfo songId playTime =>
    rw [ownObjects, List.map_append]
    exact (names_textObject _ _).append (List.sublist_cons_self _ _)
  | downLoadInfo songId downLoadTime =>
    rw [ownObjects, List.map_append]
    exact (names_textObject _ _).append (List.sublist_cons_self _ _)
  | rankListInfo rankId =>
    rw [ownObjects, List.map_append]
    exact List.Sublist.cons _ ((names_textObject _ _).append (List.sublist_cons_self _ _))

theorem names_sharedObjects (p : RecomendPro.PubInfo) (location : Location) :
    ((sharedObjects p location).map Prod.fst).Sublist sharedNames := by
  simp only [sharedObjects, List.map_append]
  exact ((((((((((names_textObject _ _).append (names_textObject _ _)).append
    (List.Sublist.refl _)).append (names_textObject _ _)).append (names_textObject _ _)).append
    (names_textObject _ _)).append (names_textObject _ _)).append (names_textObject _ _)).append
    (names_textObject _ _)).append (names_textObject _ _)).append (List.Sublist.refl _)

/-- **No column is put twice.** -/
theorem nodup_names (p : PutTrait) (pubInfo : RecomendPro.PubInfo) (location : Location) :
    ((ownObjects p ++ sharedObjects pubInfo location).map Prod.fst).Nodup := by
  have hnames : (ownNames ++ sharedNames).Nodup := by decide
  rw [List.map_append]
  exact hnames.sublist ((names_ownObjects p).append (names_sharedObjects pubInfo location))

theorem suits_int {key : Text} (hkey : key ∈ intKeys) (n : BitVec 32) : Suits key (.int n) := hkey

theorem suits_long {key : Text} (hkey : key ∈ intKeys) (n : BitVec 64) : Suits key (.long n) := hkey

theorem suits_string {key : Text} (hkey : key ∉ intKeys) (s : Text) : Suits key (.string s) := hkey

theorem suits_textObject {qualifier : String} (hkey : qualifier.toList ∉ intKeys)
    (s : Option Text) : ∀ o ∈ textObject qualifier s, Suits o.1 o.2 := by
  intro o ho
  obtain ⟨text, -, rfl⟩ := List.mem_map.1 ho
  exact hkey

theorem suits_ownObjects (p : PutTrait) : ∀ o ∈ ownObjects p, Suits o.1 o.2 := by
  obtain ⟨info, time, seq⟩ := p
  have htime : Suits "time".toList (.long time) := suits_long (by decide) _
  have hmodule : ∀ s, Suits "module".toList (.string s) := suits_string (by decide)
  cases info with
  | listenInfo songId playTime =>
    simp only [ownObjects, List.forall_mem_append, List.forall_mem_cons]
    exact ⟨suits_textObject (by decide) _, suits_int (by decide) _, htime, hmodule _, by simp⟩
  | downLoadInfo songId downLoadTime =>
    simp only [ownObjects, List.forall_mem_append, List.forall_mem_cons]
    exact ⟨suits_textObject (by decide) _, suits_long (by decide) _, htime, hmodule _, by simp⟩
  | rankListInfo rankId =>
    simp only [ownObjects, List.forall_mem_append, List.forall_mem_cons]
    exact ⟨suits_textObject (by decide) _, htime, hmodule _, by simp⟩

theorem suits_sharedObjects (p : RecomendPro.PubInfo) (location : Location) :
    ∀ o ∈ sharedObjects p location, Suits o.1 o.2 := by
  have hnet : Suits "net".toList (.int p.net) := suits_int (by decide) _
  have hdevtype : Suits "devtype".toList (.int p.devType) := suits_int (by decide) _
  simp only [sharedObjects, List.forall_mem_append, List.forall_mem_singleton]
  exact ⟨⟨⟨⟨⟨⟨⟨⟨⟨⟨suits_textObject (by decide) _, suits_textObject (by decide) _⟩, hnet⟩,
    suits_textObject (by decide) _⟩, suits_textObject (by decide) _⟩,
    suits_textObject (by decide) _⟩, suits_textObject (by decide) _⟩,
    suits_textObject (by decide) _⟩, suits_textObject (by decide) _⟩,
    suits_textObject (by decide) _⟩, hdevtype⟩

/-- **An action is read as it was written.** For every listen, download or
visit of a rank list with an id, and every log whose address was found: the
map that is built from the cells of the put has exactly the columns that
were put, and they hold the objects the action was made of. -/
theorem rowMap_action (p : PutTrait) (hid : idOf p.info ≠ none) (pubInfo : RecomendPro.PubInfo)
    (location : Location) (hloc : pubInfo.location = some location) :
    ∃ info shared r, p.addInfo = .ok info ∧ pubInfo.addInfoToPut = .ok shared ∧
      rowMap (putColumns (info ++ shared) none) = .ok r ∧
      (∀ key, key ∈ r ↔ key ∈ (info ++ shared).map Prod.fst) ∧
      ∀ key v, r.lookup key = some v ↔
        (key, v) ∈ ownObjects p ++ sharedObjects pubInfo location := by
  have hsuits := List.forall_mem_append.2
    ⟨suits_ownObjects p, suits_sharedObjects pubInfo location⟩
  obtain ⟨r, hr, hlookup⟩ := rowMap_putColumns (nodup_names p pubInfo location) hsuits
  refine ⟨_, _, r, addInfo_eq hid, addInfoToPut_eq hloc, ?_, fun key => ?_, hlookup⟩
  · rw [← columnsOf_append]
    exact hr
  · rw [← columnsOf_append, columnsOf, List.map_map, ← AList.lookup_isSome,
      Option.isSome_iff_exists]
    simp [hlookup, exists_or]

/-- A log of a device whose province is known. -/
def sampleShared : RecomendPro.PubInfo where
  ids := (some "d1".toList, none)
  channel := none
  version := some "7.1".toList
  net := 2
  app := some ['音']
  location := some ⟨none, some "Hubei".toList, none, some []⟩
  devType := 0

theorem rowMap_action_sampleShared :
    ∃ info shared r,
      PutTrait.addInfo ⟨.listenInfo (some "42".toList) 30000, 1000, []⟩ = .ok info ∧
      sampleShared.addInfoToPut = .ok shared ∧
      rowMap (putColumns (info ++ shared) none) = .ok r ∧
      (∀ key, key ∈ r ↔ key ∈ (info ++ shared).map Prod.fst) ∧
      r.lookup "tlen".toList = some (.int 30000) ∧
      r.lookup "app".toList = some (.string ['音']) := by
  obtain ⟨info, shared, r, hinfo, hshared, hr, hkeys, hlookup⟩ :=
    rowMap_action ⟨.listenInfo (some "42".toList) 30000, 1000, []⟩ (by decide) sampleShared _ rfl
  exact ⟨info, shared, r, hinfo, hshared, hr, hkeys, (hlookup _ _).2 (by decide),
    (hlookup _ _).2 (by decide)⟩

end DataSys

end Xpod
