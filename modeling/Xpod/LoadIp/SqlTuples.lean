import Mathlib.Tactic
import Xpod.Common.Quoted
import Xpod.LoadIp.Model.MergeInsertImp
/-!
# The tuples of the SQL statements

Three builders put the eleven columns of a row between quotes, and none of
them doubles a quote. Two write null as the empty text and one as `null`;
one replaces the texts of the bounds by those of the numbers. A tuple reads
as the row exactly where none of this makes a difference.
-/

namespace Xpod

namespace LoadIp

namespace Sql

open Quoted

/-- The marks of a tuple in SQL. -/
def marks : Marks Char where
  quote := '\x27'
  comma := ','
  opening := '('
  closing := ')'
  comma_ne_quote := by decide
  closing_ne_quote := by decide
  comma_ne_closing := by decide

/-- What stands behind the first `values`. -/
def afterValues : List Char → Option (List Char)
  | [] => none
  | c :: s =>
    if "values".toList.isPrefixOf (c :: s) then some ((c :: s).drop 6) else afterValues s

/-- The literals of the tuple of a statement. -/
def readValues (sql : String) : Option (List (List Char)) :=
  (afterValues sql.toList).bind marks.tuple

/-- The nine columns of text, in the order they are declared in. -/
def texts (l : Location) : List (Option String) :=
  [l.beginIp, l.endIp, l.country, l.area, l.province, l.city, l.county, l.isp, l.other]

/-- The columns of numbers behind them. -/
def numbers (l : Location) : List (List Char) :=
  [(toString l.nBeginIp).toList, (toString l.nEndIp).toList]

/-- **What a tuple should say**: the eleven columns, with the empty text for
null. -/
def columns (l : Location) : List (List Char) :=
  (texts l).map (fun c => (c.getD "").toList) ++ numbers l

/-! ## The texts of the builders -/

/-- What a builder puts between the quotes, by how it prints a column. -/
def fields (print : Option String → String) (l : Location) : List (List Char) :=
  (texts l).map (fun c => (print c).toList) ++ numbers l

/-- What a statement begins with. -/
def insertHead : String :=
  "insert into ip_table(begin_ip,end_ip,country,area,province,city,county,isp,other," ++
    "nbegin_ip,nend_ip) values("

open Statement.text in
theorem toList_insert (l : Location) :
    (Statement.insert l).text.toList =
      insertHead.toList ++ marks.joined (fields (·.getD "") l) := by
  have htext : ∀ head : String, (head ++ column l.beginIp ++ "," ++ column l.endIp ++ "," ++
      column l.country ++ "," ++ column l.area ++ "," ++ column l.province ++ "," ++
      column l.city ++ "," ++ column l.county ++ "," ++ column l.isp ++ "," ++
      column l.other ++ ",'" ++ toString l.nBeginIp ++ "','" ++ toString l.nEndIp ++ "')").toList =
      head.toList ++ marks.joined (fields (·.getD "") l) := by
    intro head
    simp [column, fields, texts, numbers, Marks.joined, marks]
  exact htext insertHead

theorem readValues_insert (l : Location) :
    readValues (Statement.insert l).text =
      marks.tuple (marks.opening :: marks.joined (fields (·.getD "") l)) := by
  have hhead : ∀ s, afterValues (insertHead.toList ++ s) = some ('(' :: s) := fun _ => rfl
  rw [readValues, toList_insert, hhead]
  rfl

open Java in
theorem toList_getValueSql (l : Location) :
    l.getValueSql.toList = "values('".toList ++ (marks.joined (fields text l)).tail := by
  have htext : ∀ head : String, (head ++ text l.beginIp ++ "','" ++ text l.endIp ++ "','" ++
      text l.country ++ "','" ++ text l.area ++ "','" ++ text l.province ++ "','" ++
      text l.city ++ "','" ++ text l.county ++ "','" ++ text l.isp ++ "','" ++
      text l.other ++ "','" ++ toString l.nBeginIp ++ "','" ++ toString l.nEndIp ++ "')").toList =
      head.toList ++ (marks.joined (fields text l)).tail := by
    intro head
    simp [fields, texts, numbers, Marks.joined, marks]
  exact htext "values('"

theorem readValues_getValueSql (l : Location) :
    readValues l.getValueSql =
      marks.tuple (marks.opening :: marks.joined (fields Java.text l)) := by
  have hhead : ∀ s, afterValues ("values('".toList ++ s) = some ('(' :: marks.quote :: s) :=
    fun _ => rfl
  rw [readValues, toList_getValueSql, hhead]
  rfl

/-! ## What is read -/

/-- The text has no quote. -/
def Plain (s : String) : Prop := marks.quote ∉ s.toList

instance decidablePlain (s : String) : Decidable (Plain s) := inferInstanceAs (Decidable (_ ∉ _))

theorem plain_append {s t : String} (hs : Plain s) (ht : Plain t) : Plain (s ++ t) := by
  unfold Plain at *
  rw [String.toList_append, List.mem_append]
  exact not_or_intro hs ht

theorem plain_nat (n : ℕ) : Plain (toString n) := by
  unfold Plain
  rw [show (toString n).toList = Nat.toDigits 10 n from Nat.toList_repr]
  exact Java.not_mem_toDigits (by decide) n

theorem plain_int (n : ℤ) : Plain (toString n) := by
  cases n with
  | ofNat n => exact plain_nat n
  | negSucc n => exact plain_append (s := "-") (by decide) (plain_nat (n + 1))

theorem plain_longToIP (n : ℤ) : Plain (Util.longToIP n) := by
  have hdot : Plain "." := by decide
  exact plain_append (plain_append (plain_append (plain_append (plain_append (plain_append
    (plain_nat _) hdot) (plain_nat _)) hdot) (plain_nat _)) hdot) (plain_nat _)

/-- **When a tuple reads as it should**: what is printed for each column of
text is its text and has no quotes. -/
theorem tuple_eq_iff (ps : List (String × String)) (hps : ∀ p ∈ ps, p.1 = p.2 ∨ Plain p.1)
    (l : Location) :
    marks.tuple (marks.opening :: marks.joined (ps.map (fun p => p.1.toList) ++ numbers l)) =
        some (ps.map (fun p => p.2.toList) ++ numbers l) ↔
      ∀ p ∈ ps, p.1 = p.2 ∧ Plain p.1 := by
  have hnumbers : ∀ n ∈ numbers l, marks.quote ∉ n := by
    simp only [numbers, List.forall_mem_cons]
    exact ⟨plain_int _, plain_int _, by simp⟩
  have hprinted : ∀ p ∈ ps.map (fun p => (p.1.toList, p.2.toList)) ++
      (numbers l).map (fun n => (n, n)), p.1 = p.2 ∨ marks.quote ∉ p.1 := by
    rw [List.forall_mem_append, List.forall_mem_map, List.forall_mem_map]
    exact ⟨fun p hp => (hps p hp).imp (congrArg String.toList) id, fun _ _ => Or.inl rfl⟩
  have htuple := Marks.tuple_joined (by simp [numbers]) hprinted
  rw [List.forall_mem_append, List.forall_mem_map, List.forall_mem_map] at htuple
  simp only [List.map_append, List.map_map, Function.comp_def, List.map_id'] at htuple
  rw [htuple, and_iff_left fun n hn => ⟨trivial, hnumbers n hn⟩]
  simp only [String.toList_inj, Plain]

/-- The tuple of `InsertImp.Insert`. -/
theorem readValues_insertImp_iff (l : Location) :
    readValues (InsertImp.insert l) = some (columns l) ↔ ∀ c ∈ texts l, Plain (c.getD "") := by
  have htuple := tuple_eq_iff ((texts l).map fun c => (c.getD "", c.getD ""))
    (by simp) l
  rw [List.map_map, List.map_map, List.forall_mem_map] at htuple
  simpa [Function.comp_def, InsertImp.insert, readValues_insert, fields, columns] using htuple

/-- The tuple of `getValueSql`. -/
theorem readValues_getValueSql_iff (l : Location) :
    readValues l.getValueSql = some (columns l) ↔ ∀ c ∈ texts l, ∃ s, c = some s ∧ Plain s := by
  have hprinted : ∀ c : Option String, Java.text c = c.getD "" ∨ Plain (Java.text c) := by
    intro c
    cases c with
    | none => exact Or.inr (by decide)
    | some s => exact Or.inl rfl
  have htuple := tuple_eq_iff ((texts l).map fun c => (Java.text c, c.getD ""))
    (by rw [List.forall_mem_map]; exact fun c _ => hprinted c) l
  rw [List.map_map, List.map_map, List.forall_mem_map] at htuple
  simp only [Function.comp_def] at htuple
  rw [readValues_getValueSql, fields, columns, htuple]
  refine forall₂_congr fun c _ => ?_
  cases c with
  | none => simp [Java.text]
  | some s => simp [Java.text]

/-- The tuple of `MergeInsertImp.insert`. -/
theorem readValues_stored_iff (l : Location) :
    readValues (Statement.insert (MergeInsertImp.stored l)).text = some (columns l) ↔
      Util.longToIP l.nBeginIp = l.beginIp.getD "" ∧ Util.longToIP l.nEndIp = l.endIp.getD "" ∧
        ∀ c ∈ (texts l).drop 2, Plain (c.getD "") := by
  have htuple := tuple_eq_iff ((Util.longToIP l.nBeginIp, l.beginIp.getD "") ::
    (Util.longToIP l.nEndIp, l.endIp.getD "") ::
      ((texts l).drop 2).map fun c => (c.getD "", c.getD ""))
    (by
      rw [List.forall_mem_cons, List.forall_mem_cons, List.forall_mem_map]
      exact ⟨Or.inr (plain_longToIP _), Or.inr (plain_longToIP _), fun _ _ => Or.inl rfl⟩) l
  rw [List.forall_mem_cons, List.forall_mem_cons, List.forall_mem_map] at htuple
  simp only [plain_longToIP, and_true, true_and] at htuple
  rw [readValues_insert, ← htuple]
  rfl

theorem getLast?_insert (s : MergeInsertImp) (l : Location) :
    (s.insert l).sqlStringList.getLast? = some (.insert (MergeInsertImp.stored l)) :=
  List.getLast?_concat

/-- **When the three tuples read as the row.** The columns of a row are read
back from the statements of all three builders exactly when none of its
texts is null or has a quote, and the texts of its bounds are those of the
numbers. -/
theorem tuples_read_iff (s : MergeInsertImp) (l : Location) :
    (((s.insert l).sqlStringList.getLast?.bind fun sql => readValues sql.text) =
          some (columns l) ∧
        readValues (InsertImp.insert l) = some (columns l) ∧
        readValues l.getValueSql = some (columns l)) ↔
      (∀ c ∈ texts l, ∃ t, c = some t ∧ Plain t) ∧
        l.beginIp = some (Util.longToIP l.nBeginIp) ∧ l.endIp = some (Util.longToIP l.nEndIp) := by
  rw [getLast?_insert, Option.bind_some, readValues_stored_iff, readValues_insertImp_iff,
    readValues_getValueSql_iff]
  constructor
  · rintro ⟨⟨hbegin, hend, -⟩, -, hplain⟩
    refine ⟨hplain, ?_, ?_⟩
    · obtain ⟨t, ht, -⟩ := hplain l.beginIp (by simp [texts])
      rw [ht] at hbegin ⊢
      exact congrArg some hbegin.symm
    · obtain ⟨t, ht, -⟩ := hplain l.endIp (by simp [texts])
      rw [ht] at hend ⊢
      exact congrArg some hend.symm
  · rintro ⟨hplain, hbegin, hend⟩
    have hgetD : ∀ c ∈ texts l, Plain (c.getD "") := by
      intro c hc
      obtain ⟨t, rfl, ht⟩ := hplain c hc
      exact ht
    refine ⟨⟨?_, ?_, fun c hc => hgetD c (List.mem_of_mem_drop hc)⟩, hgetD, hplain⟩
    · rw [hbegin]
      rfl
    · rw [hend]
      rfl

/-- A row whose city has a quote in its name. -/
def sampleCity : Location :=
  { Location.ofBounds 16777216 16777471 (some "China") with
    province := some "Shaanxi"
    city := some "Xi'an"
    area := some ""
    county := some ""
    other := some "" }

/-- **None of the three tuples reads as the row.** -/
theorem tuples_sampleCity :
    ((MergeInsertImp.insert ⟨[], none, [], [], [], []⟩ sampleCity).sqlStringList.getLast?.bind
        fun sql => readValues sql.text) ≠ some (columns sampleCity) ∧
      readValues (InsertImp.insert sampleCity) ≠ some (columns sampleCity) ∧
      readValues sampleCity.getValueSql ≠ some (columns sampleCity) := by
  have hcity : ¬ Plain "Xi'an" := by decide
  refine ⟨fun h => ?_, fun h => ?_, fun h => ?_⟩
  · rw [getLast?_insert, Option.bind_some] at h
    exact hcity (((readValues_stored_iff sampleCity).1 h).2.2 (some "Xi'an")
      (by simp [texts, sampleCity]))
  · exact hcity ((readValues_insertImp_iff sampleCity).1 h (some "Xi'an")
      (by simp [texts, sampleCity]))
  · obtain ⟨t, ht, hplain⟩ := (readValues_getValueSql_iff sampleCity).1 h (some "Xi'an")
      (by simp [texts, sampleCity])
    obtain rfl := Option.some.inj ht
    exact hcity hplain

end Sql

end LoadIp

end Xpod
