import StoredCall.Call.Scripted
import StoredCall.Proofs.Call.Lifecycle
import StoredCall.Proofs.Value

/-!
# Iterating over all rows

A source that has finitely many rows, hands out as many as it is asked for while it has them, and
can be closed, is read to its end: the batches hold every row once, in order.

* `Serves` says what such a source does.
* `Cursor.Fits` says that a row can be converted, and `Cursor.Holds` what its record holds;
  `Cursor.exists_records` makes the one from the other.
* `Cursor.exists_next` is one step at such a source.
* **`Cursor.batches_of_serves`**: the batches, their sizes, and the calls that the source receives.
-/

namespace StoredCall

variable {σ : Type}

/-- A source holds a list of rows: it hands out the first ones when it is asked for them and holds
the others afterwards, and it can be closed. -/
structure Serves [RowSource σ] (holds : σ → List (List Value) → Prop) : Prop where
  fetch : ∀ {s rows}, holds s rows → ∀ n, (RowSource.fetch s n).1 = .ok (rows.take n)
  rest : ∀ {s rows}, holds s rows → ∀ n, holds (RowSource.fetch s n).2 (rows.drop n)
  close : ∀ {s rows}, holds s rows → (RowSource.close s).1 = .ok ()

/-- A source serves also if it keeps a record. -/
theorem Serves.logged [RowSource σ] {holds : σ → List (List Value) → Prop} (h : Serves holds) :
    Serves fun (s : Logged σ) rows => holds s.source rows :=
  ⟨h.fetch, h.rest, h.close⟩

namespace Cursor

/-! ## Records -/

/-- A row has one value for each column, and every value can be brought to the kind of its
column. -/
structure Fits (columns : List (Path × Kind)) (row : List Value) : Prop where
  length : row.length = columns.length
  coerced : ∀ cell ∈ columns.zip row, ∃ w, cell.2.coerce cell.1.2 cell.1.1.text = .ok w

/-- A record holds the values of a row at the paths of the columns, brought to their kinds. -/
def Holds (columns : List (Path × Kind)) (row : List Value) (record : Value) : Prop :=
  ∀ cell ∈ columns.zip row, ∃ w, cell.2.coerce cell.1.2 cell.1.1.text = .ok w ∧
    record.lookup cell.1.1 = some w

/-- The paths of columns are made of fields, and none is on the way to another. -/
structure PrefixFree (columns : List (Path × Kind)) : Prop where
  fields : ∀ column ∈ columns, .each ∉ column.1
  apart : columns.Pairwise fun a b => ¬ a.1 <+: b.1 ∧ ¬ b.1 <+: a.1

/-- Values that are put at paths that part are all there, and nothing else has changed. -/
theorem exists_fillRecord : ∀ {cells : List ((Path × Kind) × Value)} (record : Value),
    (∀ cell ∈ cells, .each ∉ cell.1.1) → (cells.Pairwise fun a b => Path.Apart a.1.1 b.1.1) →
    (∀ cell ∈ cells, ∃ w, cell.2.coerce cell.1.2 cell.1.1.text = .ok w) →
      ∃ r, fillRecord record cells = .ok r ∧
        (∀ cell ∈ cells, ∃ w, cell.2.coerce cell.1.2 cell.1.1.text = .ok w ∧
          r.lookup cell.1.1 = some w) ∧
        ∀ p, (∀ cell ∈ cells, Path.Apart cell.1.1 p) → r.lookup p = record.lookup p
  | [], record, _, _, _ => ⟨record, rfl, by simp, fun _ _ => rfl⟩
  | ((path, kind), v) :: cells, record, hfields, hapart, hcoerced => by
    rw [List.forall_mem_cons] at hfields hcoerced
    rw [List.pairwise_cons] at hapart
    obtain ⟨w, hw⟩ := hcoerced.1
    obtain ⟨r, hr, hheld, hother⟩ :=
      exists_fillRecord (record.set path w) hfields.2 hapart.2 hcoerced.2
    refine ⟨r, ?_, ?_, fun p hp => ?_⟩
    · rw [fillRecord, hw]
      exact hr
    · refine List.forall_mem_cons.mpr ⟨⟨w, hw, ?_⟩, hheld⟩
      rw [hother path fun cell hcell => (hapart.1 cell hcell).symm]
      exact Value.lookup_set_self hfields.1 record w
    · rw [List.forall_mem_cons] at hp
      rw [hother p hp.2]
      exact Value.lookup_update_of_apart hp.1 record

theorem exists_record {columns : List (Path × Kind)} {row : List Value}
    (hcolumns : PrefixFree columns) (hrow : Fits columns row) :
    ∃ r, record columns row = .ok r ∧ Holds columns row r := by
  have hfst : (columns.zip row).map Prod.fst = columns :=
    List.map_fst_zip (Nat.le_of_eq hrow.length.symm)
  have hfields : ∀ cell ∈ columns.zip row, .each ∉ cell.1.1 := fun cell hcell =>
    hcolumns.fields cell.1 (hfst ▸ List.mem_map_of_mem hcell)
  have hapart : (columns.zip row).Pairwise fun a b => Path.Apart a.1.1 b.1.1 := by
    have hpairs := hcolumns.apart
    rw [← hfst, List.pairwise_map] at hpairs
    exact hpairs.imp_of_mem fun ha hb h =>
      Path.apart_of_fields (hfields _ ha) (hfields _ hb) h.1 h.2
  obtain ⟨r, hr, hheld, -⟩ := exists_fillRecord .null hfields hapart hrow.coerced
  refine ⟨r, ?_, hheld⟩
  rw [record, if_neg (not_not_intro hrow.length)]
  exact hr

/-- Rows that fit have records that hold their values. -/
theorem exists_records {columns : List (Path × Kind)} (hcolumns : PrefixFree columns) :
    ∀ {rows : List (List Value)}, (∀ row ∈ rows, Fits columns row) →
      ∃ batch, records columns rows = .ok batch ∧ List.Forall₂ (Holds columns) rows batch
  | [], _ => ⟨[], rfl, .nil⟩
  | row :: rows, hrows => by
    rw [List.forall_mem_cons] at hrows
    obtain ⟨r, hr, hheld⟩ := exists_record hcolumns hrows.1
    obtain ⟨batch, hbatch, hall⟩ := exists_records hcolumns hrows.2
    refine ⟨r :: batch, ?_, .cons hheld hall⟩
    rw [records, hr, hbatch]
    rfl

/-! ## Steps -/

section Steps

variable [RowSource σ] {holds : σ → List (List Value) → Prop}
  {rest : List (List Value)}

/-- **One step at a source that serves** hands out the next rows, and closes the source when there
are fewer than were asked for. -/
theorem exists_next {c : Cursor σ} (hserves : Serves holds) (hrest : holds c.source rest)
    (hcolumns : PrefixFree c.columns) (hfits : ∀ row ∈ rest, Fits c.columns row)
    (hopen : c.isOpen = true) : ∃ batch s,
      List.Forall₂ (Holds c.columns) (rest.take c.batchSize) batch ∧
      RowSource.fetch c.source c.batchSize = (.ok (rest.take c.batchSize), s) ∧
      holds s (rest.drop c.batchSize) ∧
      ∀ o : CallOptions, o.check = .ok () → c.next o = (item batch,
        if c.batchSize ≤ rest.length then c.advance s batch.length
        else (c.advance s batch.length).shut) := by
  have hanswer := hserves.fetch hrest c.batchSize
  have hafter := hserves.rest hrest c.batchSize
  rcases hfetch : RowSource.fetch c.source c.batchSize with ⟨answer, s⟩
  rw [hfetch] at hanswer hafter
  obtain rfl : answer = .ok (rest.take c.batchSize) := hanswer
  have htake : ∀ row ∈ rest.take c.batchSize, Fits c.columns row := fun row hrow =>
    hfits row (List.mem_of_mem_take hrow)
  obtain ⟨batch, hbatch, hheld⟩ := exists_records hcolumns htake
  refine ⟨batch, s, hheld, rfl, hafter, fun o hcheck => ?_⟩
  have hlength : (rest.take c.batchSize).length = min c.batchSize rest.length := List.length_take
  rcases hnext : c.next o with ⟨i, c'⟩
  have htakes : Takes o c i c' := by
    have htakes := takes_next o c
    rwa [hnext] at htakes
  -- The rows and the answer to closing are known, so all ways to fail are ruled out.
  cases htakes with
  | ended hclosed => cases hopen.symm.trans hclosed
  | refused _ hrefused => cases hcheck.symm.trans hrefused
  | failed _ _ hf => cases hfetch.symm.trans hf
  | unfit hf hr =>
    cases hfetch.symm.trans hf.fetch
    cases hbatch.symm.trans hr
  | full hf hr hfull =>
    cases hfetch.symm.trans hf.fetch
    cases hbatch.symm.trans hr
    rw [if_pos (by omega)]
  | last hf hr hshort _ =>
    cases hfetch.symm.trans hf.fetch
    cases hbatch.symm.trans hr
    rw [if_neg (by omega)]
  | lost hf _ _ hclose =>
    cases hfetch.symm.trans hf.fetch
    cases (hserves.close hafter).symm.trans hclose

/-- Steps after the end of an iteration hand out nothing and change nothing. -/
theorem play_of_closed {c : Cursor σ} (h : c.isOpen = false) :
    ∀ os : List CallOptions, play (os.map .next) c = (List.replicate os.length none, c)
  | [] => rfl
  | o :: os => by
    simp only [List.map_cons, play, Demand.play, next_of_closed h, play_of_closed h os,
      List.length_cons, List.replicate_succ, List.singleton_append]

end Steps

/-! ## All rows -/

/-- Batches are cut from the records of rows: none is empty, and all are of one size except that the
last may be shorter. -/
structure Batched (size : Nat) (columns : List (Path × Kind)) (rows : List (List Value))
    (batches : List (List Value)) : Prop where
  nonempty : ∀ batch ∈ batches, batch ≠ []
  full : ∀ batch ∈ batches.dropLast, batch.length = size
  bounded : ∀ batch ∈ batches, batch.length ≤ size
  records : List.Forall₂ (Holds columns) rows batches.flatten

theorem batched_nil (size : Nat) (columns : List (Path × Kind)) : Batched size columns [] [] where
  nonempty := by simp
  full := by simp
  bounded := by simp
  records := .nil

/-- The last batch. -/
theorem batched_singleton {size : Nat} {columns : List (Path × Kind)} {rows : List (List Value)}
    {batch : List Value} (hne : batch ≠ []) (hlength : batch.length ≤ size)
    (h : List.Forall₂ (Holds columns) rows batch) : Batched size columns rows [batch] where
  nonempty := by simpa using hne
  full := by simp
  bounded := by simpa using hlength
  records := by simpa using h

/-- A full batch before others. -/
theorem Batched.cons {size : Nat} {columns : List (Path × Kind)} {first rows : List (List Value)}
    {batch : List Value} {batches : List (List Value)} (h : Batched size columns rows batches)
    (hne : batch ≠ []) (hlength : batch.length = size)
    (hfirst : List.Forall₂ (Holds columns) first batch) :
    Batched size columns (first ++ rows) (batch :: batches) where
  nonempty := List.forall_mem_cons.mpr ⟨hne, h.nonempty⟩
  full := by
    intro b hb
    rcases batches with _ | ⟨next, more⟩
    · cases hb
    · rcases List.mem_cons.mp hb with rfl | hb
      · exact hlength
      · exact h.full b hb
  bounded := List.forall_mem_cons.mpr ⟨Nat.le_of_eq hlength, h.bounded⟩
  records := List.rel_append hfirst h.records

section Steps

variable [RowSource σ] {holds : σ → List (List Value) → Prop}

/-- The outcome of steps: the batches and then nothing, with so many rows counted and so many calls
received since `c`. -/
structure Outcome (c : Cursor (Logged σ)) (n : Nat) (batches : List (List Value))
    (os : List CallOptions) : Prop where
  items : (play (os.map .next) c).1 =
    batches.map (fun batch => some (.ok batch)) ++ List.replicate (os.length - batches.length) none
  rows : (play (os.map .next) c).2.rows = c.rows + n
  fetches : (play (os.map .next) c).2.log.countP SourceCall.isFetch =
    c.log.countP SourceCall.isFetch + (n / c.batchSize + 1)
  closes : (play (os.map .next) c).2.log.countP SourceCall.isClose =
    c.log.countP SourceCall.isClose + 1

theorem play_cons {c c' : Cursor (Logged σ)} {o : CallOptions} {i : Item}
    (h : c.next o = (i, c')) (os : List CallOptions) : play ((o :: os).map .next) c =
      (i :: (play (os.map .next) c').1, (play (os.map .next) c').2) := by
  simp only [List.map_cons, play, Demand.play, h, List.singleton_append]

/-- A full batch, and then the others. -/
theorem Outcome.cons {c : Cursor (Logged σ)} {s : Logged σ} {o : CallOptions}
    {os : List CallOptions} {n : Nat} {answer : Except CallError (List (List Value))}
    {batch : List Value} {batches : List (List Value)} (hne : batch ≠ [])
    (hfetch : RowSource.fetch c.source c.batchSize = (answer, s))
    (hnext : c.next o = (item batch, c.advance s batch.length)) (hsize : 1 ≤ c.batchSize)
    (hlength : batch.length = c.batchSize)
    (h : Outcome (c.advance s batch.length) n batches os) :
    Outcome c (c.batchSize + n) (batch :: batches) (o :: os) := by
  have hlog := log_fetched hfetch batch.length
  have hplay := play_cons hnext os
  refine ⟨?_, ?_, ?_, ?_⟩
  · rw [hplay, h.items, item_of_ne_nil hne, List.map_cons, List.cons_append, List.length_cons,
      List.length_cons, Nat.add_sub_add_right]
  · rw [hplay, h.rows, ← hlength, ← Nat.add_assoc]
    rfl
  · rw [hplay, h.fetches, hlog, List.countP_append, Nat.add_div_left _ hsize]
    show _ + 1 + (n / c.batchSize + 1) = _
    omega
  · rw [hplay, h.closes, hlog, List.countP_append]
    rfl

/-- The last step, which finds fewer rows than it asks for. -/
theorem outcome_last {c : Cursor (Logged σ)} {s : Logged σ} {o : CallOptions}
    {answer : Except CallError (List (List Value))} {batch : List Value}
    (hfetch : RowSource.fetch c.source c.batchSize = (answer, s))
    (hnext : c.next o = (item batch, (c.advance s batch.length).shut))
    (hlength : batch.length < c.batchSize) {batches : List (List Value)}
    (hbatches : batches = if batch = [] then [] else [batch]) (os : List CallOptions) :
    Outcome c batch.length batches (o :: os) := by
  have hlog := log_fetched hfetch batch.length
  have hplay := play_cons hnext os
  rw [play_of_closed (c := (c.advance s batch.length).shut) rfl] at hplay
  refine ⟨?_, ?_, ?_, ?_⟩
  · rw [hplay, hbatches]
    by_cases hnil : batch = []
    · rw [if_pos hnil, hnil]
      rfl
    · rw [if_neg hnil, item_of_ne_nil hnil]
      rfl
  · rw [hplay]
    rfl
  · rw [hplay, log_shut, hlog, List.countP_append, List.countP_append, Nat.div_eq_of_lt hlength]
    rfl
  · rw [hplay, log_shut, hlog, List.countP_append, List.countP_append]
    rfl

theorem exists_batches (hserves : Serves holds) (c : Cursor (Logged σ)) (rest : List (List Value))
    (hrest : holds c.source.source rest) (hcolumns : PrefixFree c.columns)
    (hfits : ∀ row ∈ rest, Fits c.columns row) (hopen : c.isOpen = true)
    (hsize : 1 ≤ c.batchSize) : ∃ batches, Batched c.batchSize c.columns rest batches ∧
      ∀ os : List CallOptions, (∀ o ∈ os, o.check = .ok ()) → batches.length < os.length →
        Outcome c rest.length batches os := by
  obtain ⟨batch, s, hheld, hfetch, hafter, hnext⟩ :=
    exists_next hserves.logged hrest hcolumns hfits hopen
  have hlength : batch.length = min c.batchSize rest.length := by
    rw [← hheld.length_eq, List.length_take]
  by_cases hfull : c.batchSize ≤ rest.length
  · have hne : batch ≠ [] := by
      rintro rfl
      rw [List.length_nil] at hlength
      omega
    have hfits' : ∀ row ∈ rest.drop c.batchSize, Fits c.columns row := fun row hrow =>
      hfits row (List.mem_of_mem_drop hrow)
    obtain ⟨batches, hbatches, hsteps⟩ := exists_batches hserves (c.advance s batch.length)
      (rest.drop c.batchSize) hafter hcolumns hfits' hopen hsize
    refine ⟨batch :: batches, ?_, fun os hos hlong => ?_⟩
    · have hcons := hbatches.cons hne (by show _ = c.batchSize; omega) hheld
      rwa [List.take_append_drop] at hcons
    · rcases os with _ | ⟨o, os⟩
      · cases hlong
      · rw [List.forall_mem_cons] at hos
        have hfirst := hnext o hos.1
        rw [if_pos hfull] at hfirst
        have hmore := hsteps os hos.2 (Nat.lt_of_succ_lt_succ hlong)
        have hall := Outcome.cons hne hfetch hfirst hsize (by omega) hmore
        rwa [List.length_drop, Nat.add_sub_cancel' hfull] at hall
  · have hshort : rest.length < c.batchSize := Nat.not_le.mp hfull
    have hall : batch.length = rest.length := by omega
    rw [List.take_of_length_le (Nat.le_of_lt hshort)] at hheld
    refine ⟨if batch = [] then [] else [batch], ?_, fun os hos hlong => ?_⟩
    · by_cases hnil : batch = []
      · rw [hnil, List.forall₂_nil_right_iff] at hheld
        rw [if_pos hnil, hheld]
        exact batched_nil _ _
      · rw [if_neg hnil]
        exact batched_singleton hnil (by omega) hheld
    · rcases os with _ | ⟨o, os⟩
      · cases hlong
      · have hlast := hnext o (hos o List.mem_cons_self)
        rw [if_neg hfull] at hlast
        rw [← hall]
        exact outcome_last hfetch hlast (by omega) rfl os
termination_by rest.length
decreasing_by
  rw [List.length_drop]
  omega

/-- **An iteration loses and repeats no rows.** At a source that holds rows which fit, and when
nobody wants to stop, there are batches of their records, not empty and all of the size asked for
except that the last may be shorter. Steps hand out these batches and then nothing. After the first
step beyond the batches all rows are counted, the source has been fetched from once for each batch
that can be full and once more, and it has been closed once. -/
theorem batches_of_serves (hserves : Serves holds) {source : σ} {rows : List (List Value)}
    (hrows : holds source rows) {columns : List (Path × Kind)} (hcolumns : PrefixFree columns)
    (hfits : ∀ row ∈ rows, Fits columns row) (batchSize : Nat) :
    ∃ batches, Batched (max batchSize 1) columns rows batches ∧
      ∀ os : List CallOptions, (∀ o ∈ os, o.check = .ok ()) → batches.length < os.length →
        (play (os.map .next) (start source columns batchSize)).1 =
          batches.map (fun batch => some (.ok batch)) ++
            List.replicate (os.length - batches.length) none ∧
        (play (os.map .next) (start source columns batchSize)).2.rows = rows.length ∧
        (play (os.map .next) (startLogged source columns batchSize)).2.log.countP
          SourceCall.isFetch = rows.length / max batchSize 1 + 1 ∧
        (play (os.map .next) (startLogged source columns batchSize)).2.log.countP
          SourceCall.isClose = 1 := by
  obtain ⟨batches, hbatches, hsteps⟩ := exists_batches hserves
    (startLogged source columns batchSize) rows hrows hcolumns hfits rfl
    (Nat.le_max_right batchSize 1)
  refine ⟨batches, hbatches, fun os hos hlong => ?_⟩
  have hout := hsteps os hos hlong
  have hplain : play (os.map .next) (start source columns batchSize) = _ :=
    play_plain (os.map .next) (startLogged source columns batchSize)
  rw [hplain]
  refine ⟨hout.items, hout.rows.trans (Nat.zero_add _), ?_, ?_⟩
  · rw [hout.fetches]
    exact Nat.zero_add _
  · rw [hout.closes]
    exact Nat.zero_add _

end Steps

end Cursor

/-! ## A list of staff -/

/-- Rows in memory that are told to fail nowhere. -/
def ScriptedRows.Smooth (s : ScriptedRows) (rows : List (List Value)) : Prop :=
  s.rows = rows ∧ s.chunk = none ∧ s.failFetch = none ∧ s.failClose = false

theorem ScriptedRows.serves : Serves ScriptedRows.Smooth where
  fetch := by
    rintro s rows ⟨rfl, hchunk, hfetch, -⟩ n
    simp [RowSource.fetch, ScriptedRows.fetch, ScriptedRows.size, hchunk, hfetch]
  rest := by
    rintro s rows ⟨rfl, hchunk, hfetch, hclose⟩ n
    simp [RowSource.fetch, ScriptedRows.fetch, ScriptedRows.size, ScriptedRows.Smooth, hchunk,
      hfetch, hclose]
  close := by
    rintro s rows ⟨-, -, -, hclose⟩
    simp [RowSource.close, ScriptedRows.close, hclose]

namespace Cursor

/-- The number of somebody inside their post, and their name. -/
def staffColumns : List (Path × Kind) :=
  [([.field "post", .field "number"], .int), ([.field "name"], .text)]

/-- Three people, the number of each as the database writes it. -/
def staff : ScriptedRows where
  rows := [[.text " 7839", .text "KING"], [.int 7566, .text "JONES"], [.null, .text "WARD"]]

theorem staffColumns_prefixFree : PrefixFree staffColumns where
  fields := by decide
  apart := by decide

theorem staff_fits : ∀ row ∈ staff.rows, Fits staffColumns row := by
  intro row hrow
  fin_cases hrow
  all_goals
    refine ⟨rfl, ?_⟩
    intro cell hcell
    fin_cases hcell
  all_goals exact ⟨_, rfl⟩

/-- Staff comes in two batches. -/
theorem staff_batches : PrefixFree staffColumns ∧ (∀ row ∈ staff.rows, Fits staffColumns row) ∧
    ∃ batches, Batched 2 staffColumns staff.rows batches ∧
      ∀ os : List CallOptions, (∀ o ∈ os, o.check = .ok ()) → batches.length < os.length →
        (play (os.map .next) (start staff staffColumns 2)).1 =
          batches.map (fun batch => some (.ok batch)) ++
            List.replicate (os.length - batches.length) none ∧
        (play (os.map .next) (start staff staffColumns 2)).2.rows = 3 ∧
        (play (os.map .next) (startLogged staff staffColumns 2)).2.log.countP
          SourceCall.isFetch = 3 / 2 + 1 ∧
        (play (os.map .next) (startLogged staff staffColumns 2)).2.log.countP
          SourceCall.isClose = 1 :=
  ⟨staffColumns_prefixFree, staff_fits,
    batches_of_serves ScriptedRows.serves ⟨rfl, rfl, rfl, rfl⟩ staffColumns_prefixFree staff_fits 2⟩

end Cursor

end StoredCall
