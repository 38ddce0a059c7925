import StoredCall.Call.Scripted
import StoredCall.Proofs.Call.Lifecycle

/-!
# Rows that are counted

An iteration counts rows before it closes its source. If closing fails at the last batch, the
failure is handed out in place of the batch, whose rows have been counted already.

* `Cursor.delivered` is how many rows were handed out.
* `Cursor.Lost` says that a batch came from the source, could be converted, and was given up because
  the source could not be closed.
* `Cursor.Counts` is what holds of the count at any time, and `Cursor.Counts.takes` that a step
  keeps it.
* **`Cursor.rows_eq_delivered_iff`**: the count is that of the rows that were handed out, unless a
  batch was lost, whose rows it counts as well. `Cursor.unpaid_loses_batch` is such an iteration.
-/

namespace StoredCall.Cursor

variable {σ : Type}

/-- How many rows an item hands out. -/
def Item.size : Item → Nat
  | some (.ok batch) => batch.length
  | some (.error _) | none => 0

/-- How many rows items hand out. -/
def delivered (items : List Item) : Nat := (items.map Item.size).sum

theorem delivered_append (a b : List Item) : delivered (a ++ b) = delivered a + delivered b := by
  simp only [delivered, List.map_append, List.sum_append]

theorem delivered_singleton (i : Item) : delivered [i] = Item.size i := by
  simp only [delivered, List.map_singleton, List.sum_singleton]

theorem size_item (batch : List Value) : Item.size (item batch) = batch.length := by
  unfold item
  cases batch <;> rfl

/-- The last rows of a source were converted into a batch, and then closing the source failed. -/
def Lost (columns : List (Path × Kind)) (log : List SourceCall) (batch : List Value) : Prop :=
  ∃ before n rows e, log = before ++ [.fetch n (.ok rows), .close (.error e)] ∧ rows.length < n ∧
    records columns rows = .ok batch

/-- A batch is lost only when a source cannot be closed right after its last rows. -/
theorem lost_append_close {columns : List (Path × Kind)} {log : List SourceCall}
    {answer : Except CallError Unit} {batch : List Value} :
    Lost columns (log ++ [.close answer]) batch ↔ (∃ e, answer = .error e) ∧
      ∃ before n rows, log = before ++ [.fetch n (.ok rows)] ∧ rows.length < n ∧
        records columns rows = .ok batch := by
  constructor
  · rintro ⟨before, n, rows, e, hlog, hshort, hbatch⟩
    have hlog : log ++ [.close answer] =
        (before ++ [.fetch n (.ok rows)]) ++ [.close (.error e)] := by
      rw [hlog, List.append_assoc]
      rfl
    obtain ⟨hbefore, hclose⟩ := List.append_inj' hlog rfl
    cases hclose
    exact ⟨⟨e, rfl⟩, before, n, rows, hbefore, hshort, hbatch⟩
  · rintro ⟨⟨e, rfl⟩, before, n, rows, rfl, hshort, hbatch⟩
    exact ⟨before, n, rows, e, List.append_assoc _ _ _, hshort, hbatch⟩

/-- Every fetch gave as many rows as it asked for. -/
def AllFull (log : List SourceCall) : Prop :=
  ∀ call ∈ log, ∃ n rows, call = .fetch n (.ok rows) ∧ n ≤ rows.length

theorem AllFull.append {log : List SourceCall} (h : AllFull log) {n : Nat}
    {rows : List (List Value)} (hn : n ≤ rows.length) : AllFull (log ++ [.fetch n (.ok rows)]) := by
  intro call hcall
  rcases List.mem_append.mp hcall with hcall | hcall
  · exact h call hcall
  · exact ⟨n, rows, List.mem_singleton.mp hcall, hn⟩

/-- Nothing is lost before a source is closed. -/
theorem AllFull.not_lost {columns : List (Path × Kind)} {log : List SourceCall}
    {batch : List Value} (h : AllFull log) : ¬ Lost columns log batch := by
  rintro ⟨before, n, rows, e, rfl, -⟩
  obtain ⟨m, rows', hcall, -⟩ := h (.close (.error e)) (by simp)
  cases hcall

/-- Nor is anything lost if every fetch gave all rows it asked for. -/
theorem AllFull.not_lost_close {columns : List (Path × Kind)} {log : List SourceCall}
    {answer : Except CallError Unit} {batch : List Value} (h : AllFull log) :
    ¬ Lost columns (log ++ [.close answer]) batch := by
  intro hlost
  obtain ⟨-, before, n, rows, rfl, hshort, -⟩ := lost_append_close.mp hlost
  obtain ⟨m, rows', hcall, hfull⟩ := h (.fetch n (.ok rows)) (by simp)
  cases hcall
  omega

section Steps

variable [RowSource σ] {o : CallOptions} {c c' : Cursor (Logged σ)} {i : Item} {k : Nat}

/-- What holds of the count when `k` rows have been handed out. -/
structure Counts (k : Nat) (c : Cursor (Logged σ)) : Prop where
  opened : c.isOpen = true → AllFull c.log ∧ c.rows = k
  lost : ∀ {batch}, Lost c.columns c.log batch → c.rows = k + batch.length
  kept : (∀ batch, ¬ Lost c.columns c.log batch) → c.rows = k

/-- Closing a source when no batch is at stake. -/
theorem counts_shut (hno : ∀ batch, ¬ Lost c.columns c.shut.log batch) (hrows : c.rows = k) :
    Counts k c.shut where
  opened h := by cases h
  lost h := absurd h (hno _)
  kept _ := hrows

/-- **A step counts the rows that it hands out**, and those of a batch that it loses. -/
theorem Counts.takes (hc : Counts k c) (h : Takes o c i c') : Counts (k + Item.size i) c' := by
  -- The last answer of the source before it is closed decides.
  have hanswer : ∀ {n : Nat} {answer : Except CallError (List (List Value))} {s : Logged σ}
      {batch : List Value}, RowSource.fetch c.source c.batchSize = (answer, s) →
        Lost c.columns (c.advance s n).shut.log batch → (∃ e, (RowSource.close s).1 = .error e) ∧
          ∃ rows, answer = .ok rows ∧ rows.length < c.batchSize ∧
            records c.columns rows = .ok batch := by
    intro n answer s batch hf hlost
    rw [log_shut, log_fetched hf] at hlost
    obtain ⟨hclose, before, m, rows, hlog, hshort, hbatch⟩ := lost_append_close.mp hlost
    obtain ⟨-, hcall⟩ := List.append_inj' hlog rfl
    cases hcall
    exact ⟨hclose, rows, rfl, hshort, hbatch⟩
  cases h with
  | ended hclosed => exact hc
  | refused hopen _ =>
    obtain ⟨hfull, hrows⟩ := hc.opened hopen
    exact counts_shut (fun batch => hfull.not_lost_close) hrows
  | failed hopen _ hf =>
    refine counts_shut (fun batch hlost => ?_) (hc.opened hopen).2
    obtain ⟨-, rows, hrows, -⟩ := hanswer hf hlost
    cases hrows
  | unfit hf hr =>
    refine counts_shut (fun batch hlost => ?_) (hc.opened hf.isOpen).2
    obtain ⟨-, rows, hrows, -, hbatch⟩ := hanswer hf.fetch hlost
    cases hrows
    cases hr.symm.trans hbatch
  | @full rows s batch hf hr hsize =>
    obtain ⟨hfull, hrows⟩ := hc.opened hf.isOpen
    have hlog : AllFull (c.advance s batch.length).log := by
      rw [log_fetched hf.fetch]
      exact hfull.append hsize
    have hcount : (c.advance s batch.length).rows = k + Item.size (item batch) := by
      rw [size_item, ← hrows]
      rfl
    exact ⟨fun _ => ⟨hlog, hcount⟩, fun hlost => absurd hlost hlog.not_lost, fun _ => hcount⟩
  | @last rows s batch hf hr _ hclose =>
    obtain ⟨-, hrows⟩ := hc.opened hf.isOpen
    refine counts_shut (fun batch' hlost => ?_) ?_
    · obtain ⟨⟨e, he⟩, -⟩ := hanswer hf.fetch hlost
      cases hclose.symm.trans he
    · rw [size_item, ← hrows]
      rfl
  | @lost rows s batch e hf hr hshort hclose =>
    obtain ⟨-, hrows⟩ := hc.opened hf.isOpen
    refine ⟨fun hopen => (by cases hopen), fun {batch'} hlost => ?_, fun hno => ?_⟩
    · obtain ⟨-, rows', hrows', -, hbatch⟩ := hanswer hf.fetch hlost
      cases hrows'
      cases hr.symm.trans hbatch
      show c.rows + batch.length = k + 0 + batch.length
      omega
    · refine absurd ?_ (hno batch)
      rw [log_shut, log_fetched hf.fetch]
      exact lost_append_close.mpr ⟨⟨e, hclose⟩, c.log, c.batchSize, rows, rfl, hshort, hr⟩

theorem counts_play (source : σ) (columns : List (Path × Kind)) (batchSize : Nat)
    (demands : List Demand) :
    Counts (delivered (play demands (startLogged source columns batchSize)).1)
        (play demands (startLogged source columns batchSize)).2 ∧
      (play demands (startLogged source columns batchSize)).2.columns = columns := by
  have hlog : AllFull (startLogged source columns batchSize).log := by
    intro call hcall
    cases hcall
  have hstart : Counts (delivered []) (startLogged source columns batchSize) :=
    ⟨fun _ => ⟨hlog, rfl⟩, fun hlost => absurd hlost hlog.not_lost, fun _ => rfl⟩
  have hstep : ∀ (items : List Item) (c : Cursor (Logged σ)) (o : CallOptions),
      Counts (delivered items) c ∧ c.columns = columns →
        Counts (delivered (items ++ [(c.next o).1])) (c.next o).2 ∧
          (c.next o).2.columns = columns := by
    intro items c o h
    have htakes := takes_next o c
    rw [delivered_append, delivered_singleton]
    exact ⟨h.1.takes htakes, htakes.columns_eq.trans h.2⟩
  have hplay := play_induction hstep demands ⟨hstart, rfl⟩
  rwa [List.nil_append] at hplay

/-- **The count is that of the rows that were handed out, unless a batch with rows was lost**,
however the source answers and whenever the caller wants to stop. The rows of a batch that was lost
are counted as well. -/
theorem rows_eq_delivered_iff (source : σ) (columns : List (Path × Kind)) (batchSize : Nat)
    (demands : List Demand) :
    ((play demands (start source columns batchSize)).2.rows =
        delivered (play demands (start source columns batchSize)).1 ↔
      ∀ batch, Lost columns (play demands (startLogged source columns batchSize)).2.log batch →
        batch = []) ∧
    ∀ batch, Lost columns (play demands (startLogged source columns batchSize)).2.log batch →
      (play demands (start source columns batchSize)).2.rows =
        delivered (play demands (start source columns batchSize)).1 + batch.length := by
  have hplain : play demands (start source columns batchSize) = _ :=
    play_plain demands (startLogged source columns batchSize)
  obtain ⟨hcounts, hcolumns⟩ := counts_play source columns batchSize demands
  rw [hplain]
  generalize play demands (startLogged source columns batchSize) = p at hcounts hcolumns ⊢
  have hlost : ∀ batch, Lost columns p.2.log batch → p.2.rows = delivered p.1 + batch.length := by
    intro batch h
    exact hcounts.lost (hcolumns.symm ▸ h)
  refine ⟨⟨fun heq batch h => ?_, fun hnil => ?_⟩, hlost⟩
  · have hrows : delivered p.1 + batch.length = delivered p.1 := (hlost batch h).symm.trans heq
    exact List.length_eq_zero_iff.mp (Nat.add_eq_left.mp hrows)
  · by_cases h : ∃ batch, Lost columns p.2.log batch
    · obtain ⟨batch, h⟩ := h
      have hrows := hlost batch h
      rwa [hnil batch h, List.length_nil, Nat.add_zero] at hrows
    · refine hcounts.kept fun batch hl => h ⟨batch, ?_⟩
      rwa [hcolumns] at hl

end Steps

/-! ## A payment that is lost -/

/-- One payment, at a source that cannot be closed. -/
def unpaid : ScriptedRows where
  rows := [[.int 250]]
  failClose := true

/-- The payment is counted, but the failure to close the source is all that is handed out. -/
theorem unpaid_loses_batch :
    (play [.next {}] (start unpaid [([.field "amount"], .int)] 2)).1 = [some (.error .driver)] ∧
      (play [.next {}] (start unpaid [([.field "amount"], .int)] 2)).2.rows = 1 ∧
      delivered (play [.next {}] (start unpaid [([.field "amount"], .int)] 2)).1 = 0 :=
  ⟨rfl, rfl, rfl⟩

end StoredCall.Cursor
