import StoredCall.Call.Cursor
import StoredCall.Proofs.Program

/-!
# The life of a cursor

A caller takes steps of an iteration, one at a time or all that are left, and gives it up at the
end. What the source gets to see of this does not depend on how the source answers: some fetches,
then one close.

* `Logged σ` is a source that keeps a record of the calls it receives and of its answers.
* `Cursor.Takes` says what one step does, with one rule for each way it can go, and
  `Cursor.takes_next` that every step is one of these.
* `Cursor.play` is what a list of calls hands out, and `Cursor.play_induction` that what a step
  keeps is kept by calls; `Cursor.drain_eq` ties it to taking all steps that are left.
* **`Cursor.closed_once`**: a source is closed exactly once and not used afterwards, and nothing is
  handed out after the end of the rows or a failure.
-/

namespace StoredCall

variable {σ : Type}

/-! ## Sources that keep a record -/

/-- A call that a source received, with its answer. -/
inductive SourceCall where
  | fetch (n : Nat) (answer : Except CallError (List (List Value)))
  | close (answer : Except CallError Unit)

namespace SourceCall

/-- Whether a call asks for rows. -/
def isFetch : SourceCall → Bool
  | .fetch .. => true
  | .close _ => false

/-- Whether a call closes the source. -/
def isClose : SourceCall → Bool
  | .fetch .. => false
  | .close _ => true

end SourceCall

/-- A source with the calls that it has received, the latest one last. -/
structure Logged (σ : Type) where
  source : σ
  log : List SourceCall := []

instance Logged.rowSource [RowSource σ] : RowSource (Logged σ) where
  fetch s n :=
    let answer := RowSource.fetch s.source n
    (answer.1, ⟨answer.2, s.log ++ [.fetch n answer.1]⟩)
  close s :=
    let answer := RowSource.close s.source
    (answer.1, ⟨answer.2, s.log ++ [.close answer.1]⟩)

namespace Cursor

/-- An item that is a batch of records. -/
def IsBatch (i : Item) : Prop := ∃ batch, i = some (.ok batch)

theorem item_of_ne_nil {batch : List Value} (h : batch ≠ []) : item batch = some (.ok batch) := by
  unfold item
  rw [if_neg (by simpa using h)]

theorem length_records {columns : List (Path × Kind)} : ∀ {rows : List (List Value)}
    {batch : List Value}, records columns rows = .ok batch → batch.length = rows.length
  | [], _, h => by
    cases h
    rfl
  | row :: rest, _, h => by
    rw [records, except_bind_eq_ok] at h
    obtain ⟨r, -, h⟩ := h
    obtain ⟨more, hmore, h⟩ := except_bind_eq_ok.mp h
    cases h
    rw [List.length_cons, List.length_cons, length_records hmore]

section Steps

variable [RowSource σ] {o : CallOptions} {c c' : Cursor σ} {i : Item}

/-! ## One step -/

/-- The iteration with its source closed. -/
def shut (c : Cursor σ) : Cursor σ :=
  { c with source := (RowSource.close c.source).2, isOpen := false }

/-- The iteration with the source as a fetch left it, and so many rows counted. -/
def advance (c : Cursor σ) (source : σ) (n : Nat) : Cursor σ :=
  { c with source, rows := c.rows + n }

theorem close_of_open (h : c.isOpen = true) : c.close = ((RowSource.close c.source).1, c.shut) := by
  unfold close
  rw [if_pos h]
  rfl

theorem close_of_closed (h : c.isOpen = false) : c.close = (.ok (), c) := by
  unfold close
  rw [if_neg (by simp [h])]

/-- A step asks the source for rows and gets some. -/
structure Fetched (o : CallOptions) (c : Cursor σ) (rows : List (List Value)) (s : σ) : Prop where
  isOpen : c.isOpen = true
  check : o.check = .ok ()
  fetch : RowSource.fetch c.source c.batchSize = (.ok rows, s)

/-- What one step hands out and leaves, one rule for each way it can go. -/
inductive Takes (o : CallOptions) (c : Cursor σ) : Item → Cursor σ → Prop where
  | ended : c.isOpen = false → Takes o c none c
  | refused {e : CallError} : c.isOpen = true → o.check = .error e →
    Takes o c (some (.error e)) c.shut
  | failed {e : CallError} {s : σ} : c.isOpen = true → o.check = .ok () →
    RowSource.fetch c.source c.batchSize = (.error e, s) →
      Takes o c (some (.error e)) (c.advance s 0).shut
  | unfit {rows : List (List Value)} {s : σ} {e : CallError} : Fetched o c rows s →
    records c.columns rows = .error e → Takes o c (some (.error e)) (c.advance s 0).shut
  | full {rows : List (List Value)} {s : σ} {batch : List Value} : Fetched o c rows s →
    records c.columns rows = .ok batch → c.batchSize ≤ rows.length →
      Takes o c (item batch) (c.advance s batch.length)
  | last {rows : List (List Value)} {s : σ} {batch : List Value} : Fetched o c rows s →
    records c.columns rows = .ok batch → rows.length < c.batchSize →
      (RowSource.close s).1 = .ok () → Takes o c (item batch) (c.advance s batch.length).shut
  | lost {rows : List (List Value)} {s : σ} {batch : List Value} {e : CallError} :
    Fetched o c rows s → records c.columns rows = .ok batch → rows.length < c.batchSize →
      (RowSource.close s).1 = .error e →
        Takes o c (some (.error e)) (c.advance s batch.length).shut

theorem takes_deliver {rows : List (List Value)} {s : σ} {batch : List Value}
    (hf : Fetched o c rows s) (hr : records c.columns rows = .ok batch) :
    Takes o c (({ c with source := s } : Cursor σ).deliver batch (rows.length < c.batchSize)).1
      (({ c with source := s } : Cursor σ).deliver batch (rows.length < c.batchSize)).2 := by
  have hclose := close_of_open (c := c.advance s batch.length) hf.isOpen
  unfold advance at hclose
  by_cases hshort : rows.length < c.batchSize
  · cases hanswer : (RowSource.close s).1 with
    | ok u =>
      simp only [deliver, hshort, decide_true, if_true, hclose, hanswer]
      exact .last hf hr hshort hanswer
    | error e =>
      simp only [deliver, hshort, decide_true, if_true, hclose, hanswer, fail]
      exact .lost hf hr hshort hanswer
  · simp only [deliver, hshort, decide_false, Bool.false_eq_true, if_false]
    exact .full hf hr (Nat.not_lt.mp hshort)

/-- **Every step goes in one of these ways.** -/
theorem takes_next (o : CallOptions) (c : Cursor σ) : Takes o c (c.next o).1 (c.next o).2 := by
  unfold next
  by_cases hopen : c.isOpen = true
  · rw [if_pos hopen]
    cases hcheck : o.check with
    | error e =>
      simp only [fail, close_of_open hopen]
      exact .refused hopen hcheck
    | ok u =>
      rcases hfetch : RowSource.fetch c.source c.batchSize with ⟨e | rows, s⟩
      · simp only [fail, close_of_open (c := { c with source := s }) hopen]
        exact .failed hopen hcheck hfetch
      · have hf : Fetched o c rows s := ⟨hopen, hcheck, hfetch⟩
        cases hr : records c.columns rows with
        | error e =>
          simp only [hr, fail, close_of_open (c := { c with source := s }) hopen]
          exact .unfit hf hr
        | ok batch =>
          simp only [hr]
          exact takes_deliver hf hr
  · rw [if_neg hopen]
    exact .ended (by simpa using hopen)

theorem next_of_closed (h : c.isOpen = false) (o : CallOptions) : c.next o = (none, c) := by
  unfold next
  rw [if_neg (by simp [h])]

theorem Takes.batchSize_eq (h : Takes o c i c') : c'.batchSize = c.batchSize := by
  cases h <;> rfl

theorem Takes.columns_eq (h : Takes o c i c') : c'.columns = c.columns := by
  cases h <;> rfl

theorem Takes.isOpen_of_isOpen (h : Takes o c i c') (hopen : c'.isOpen = true) :
    c.isOpen = true := by
  cases h with
  | ended => exact hopen
  | refused h | failed h => exact h
  | unfit hf | full hf | last hf | lost hf => exact hf.isOpen

/-- A step that hands out no batch ends the iteration. -/
theorem Takes.isOpen_of_not_isBatch (h : Takes o c i c') (hsize : 1 ≤ c.batchSize)
    (hno : ¬ IsBatch i) : c'.isOpen = false := by
  cases h with
  | ended hclosed => exact hclosed
  | refused | failed | unfit | last | lost => rfl
  | @full rows s batch hf hr hfull =>
    -- As many rows as were asked for are at least one.
    have hne : batch ≠ [] := by
      intro hnil
      have hlen := length_records hr
      rw [hnil, List.length_nil] at hlen
      omega
    exact absurd ⟨batch, item_of_ne_nil hne⟩ hno

/-! ## Calls -/

/-- The items that are drawn when up to `limit` steps are taken, up to the first that is no batch,
and what is left of the iteration. -/
def drawn : (limit : Nat) → (o : Nat → CallOptions) → Cursor σ → List Item × Cursor σ
  | 0, _, c => ([], c)
  | limit + 1, o, c =>
    match c.next (o 0) with
    | (some (.ok batch), c) =>
      let more := drawn limit (fun k => o (k + 1)) c
      (some (.ok batch) :: more.1, more.2)
    | (item, c) => ([item], c)

/-- The records of the batches before the first item that is none, unless this is a failure. -/
def joined : List Item → Except CallError (List Value)
  | some (.ok batch) :: rest => (joined rest).map (batch ++ ·)
  | some (.error e) :: _ => .error e
  | none :: _ | [] => .ok []

/-- Taking all steps joins the items that are drawn. -/
theorem drain_eq (limit : Nat) (o : Nat → CallOptions) (c : Cursor σ) :
    drain limit o c = (joined (drawn limit o c).1, (drawn limit o c).2) := by
  induction limit generalizing o c with
  | zero => rfl
  | succ limit ih =>
    unfold drain drawn
    rcases c.next (o 0) with ⟨_ | e | batch, c₁⟩
    · rfl
    · rfl
    · simp only [ih, joined]

/-- A call of somebody who iterates. Who takes all steps that are left may take any number of them
before the rows end, and the options may change from one step to the next. -/
inductive Demand where
  | next (o : CallOptions)
  | collect (limit : Nat) (o : Nat → CallOptions)

/-- The items that a call draws, and what it leaves. -/
def Demand.play : Demand → Cursor σ → List Item × Cursor σ
  | .next o, c => ([(c.next o).1], (c.next o).2)
  | .collect limit o, c => drawn limit o c

/-- The items that calls draw one after the other, and what they leave. -/
def play : List Demand → Cursor σ → List Item × Cursor σ
  | [], c => ([], c)
  | demand :: rest, c =>
    let first := demand.play c
    let more := play rest first.2
    (first.1 ++ more.1, more.2)

/-- **What every step keeps is kept by calls.** -/
theorem play_induction {I : List Item → Cursor σ → Prop}
    (hstep : ∀ items c o, I items c → I (items ++ [(c.next o).1]) (c.next o).2)
    (demands : List Demand) {items : List Item} {c : Cursor σ} (h : I items c) :
    I (items ++ (play demands c).1) (play demands c).2 := by
  have hdrawn : ∀ (limit : Nat) (o : Nat → CallOptions) (items : List Item) (c : Cursor σ),
      I items c → I (items ++ (drawn limit o c).1) (drawn limit o c).2 := by
    intro limit
    induction limit with
    | zero => exact fun o items c h => (List.append_nil items).symm ▸ h
    | succ limit ih =>
      intro o items c h
      have hfirst := hstep items c (o 0) h
      unfold drawn
      rcases hnext : c.next (o 0) with ⟨_ | e | batch, c₁⟩ <;> rw [hnext] at hfirst
      · exact hfirst
      · exact hfirst
      · have hmore := ih (fun k => o (k + 1)) _ _ hfirst
        rwa [List.append_assoc] at hmore
  induction demands generalizing items c with
  | nil => exact (List.append_nil items).symm ▸ h
  | cons demand rest ih =>
    have hfirst : I (items ++ (demand.play c).1) (demand.play c).2 := by
      cases demand with
      | next o => exact hstep items c o h
      | collect limit o => exact hdrawn limit o items c h
    have hmore := ih hfirst
    rwa [List.append_assoc] at hmore

end Steps

section Finite

variable [FiniteRows σ] {o : CallOptions} {c c' : Cursor σ}

/-- A batch before the end takes rows from the source. -/
theorem Takes.remaining_lt {batch : List Value} (h : Takes o c (some (.ok batch)) c')
    (hopen : c'.isOpen = true) :
    FiniteRows.remaining c'.source < FiniteRows.remaining c.source := by
  generalize hi : (some (.ok batch) : Item) = i at h
  cases h with
  | ended | refused | failed | unfit | lost => cases hi
  | last => cases hopen
  | @full rows s batch' hf hr _ =>
    have hne : rows ≠ [] := by
      rintro rfl
      cases hr
      cases hi
    have hlt := FiniteRows.remaining_fetch (congrArg Prod.fst hf.fetch) hne
    rwa [hf.fetch] at hlt

theorem isOpen_drain (o : CallOptions) : ∀ {fuel : Nat} {c : Cursor σ}, 1 ≤ c.batchSize →
    (c.isOpen = true → FiniteRows.remaining c.source < fuel) →
      (drain fuel (fun _ => o) c).2.isOpen = false
  | 0, c, _, hfuel => by
    refine Bool.eq_false_iff.mpr fun hopen => ?_
    exact absurd (hfuel hopen) (Nat.not_lt_zero _)
  | fuel + 1, c, hsize, hfuel => by
    have htakes := takes_next o c
    unfold drain
    rcases hnext : c.next o with ⟨_ | e | batch, c₁⟩ <;> rw [hnext] at htakes
    · exact htakes.isOpen_of_not_isBatch hsize (by simp [IsBatch])
    · exact htakes.isOpen_of_not_isBatch hsize (by simp [IsBatch])
    · refine isOpen_drain o (htakes.batchSize_eq.symm ▸ hsize) fun hopen => ?_
      have hlt := htakes.remaining_lt hopen
      have hbefore := hfuel (htakes.isOpen_of_isOpen hopen)
      exact lt_of_lt_of_le hlt (Nat.lt_succ_iff.mp hbefore)

/-- Who takes all steps that are left takes them to the end. -/
theorem isOpen_collect (o : CallOptions) (hsize : 1 ≤ c.batchSize) :
    (collect o c).2.isOpen = false :=
  isOpen_drain o hsize fun _ => Nat.lt_succ_self _

end Finite

/-! ## What the source gets to see -/

section Log

variable [RowSource σ] {o : CallOptions} {c c' : Cursor (Logged σ)} {i : Item}

/-- The calls that the source has received. -/
def log (c : Cursor (Logged σ)) : List SourceCall := c.source.log

/-- The iteration over a source that has received no calls. -/
def startLogged (source : σ) (columns : List (Path × Kind)) (batchSize : Nat) :
    Cursor (Logged σ) :=
  start ⟨source, []⟩ columns batchSize

/-- The iteration without the record of calls. -/
def plain (c : Cursor (Logged σ)) : Cursor σ where
  source := c.source.source
  isOpen := c.isOpen
  columns := c.columns
  batchSize := c.batchSize
  rows := c.rows

theorem close_plain (c : Cursor (Logged σ)) : c.plain.close = (c.close.1, c.close.2.plain) := by
  cases hopen : c.isOpen with
  | true =>
    rw [close_of_open hopen, close_of_open (c := c.plain) hopen]
    rfl
  | false => rw [close_of_closed hopen, close_of_closed (c := c.plain) hopen]

theorem fail_plain (c : Cursor (Logged σ)) (e : CallError) :
    c.plain.fail e = ((c.fail e).1, (c.fail e).2.plain) := by
  simp only [fail, close_plain]

theorem deliver_plain (c : Cursor (Logged σ)) (batch : List Value) (isLast : Bool) :
    c.plain.deliver batch isLast =
      ((c.deliver batch isLast).1, (c.deliver batch isLast).2.plain) := by
  have hclose := close_plain { c with rows := c.rows + batch.length }
  cases isLast with
  | false => rfl
  | true =>
    unfold deliver
    unfold plain at hclose ⊢
    simp only [if_true, hclose]
    rcases ({ c with rows := c.rows + batch.length } : Cursor (Logged σ)).close with ⟨e | u, c₁⟩
    · exact fail_plain c₁ e
    · rfl

/-- Keeping a record changes nothing about a step. -/
theorem next_plain (o : CallOptions) (c : Cursor (Logged σ)) :
    c.plain.next o = ((c.next o).1, (c.next o).2.plain) := by
  have hfetch : RowSource.fetch c.plain.source c.plain.batchSize =
      ((RowSource.fetch c.source c.batchSize).1, (RowSource.fetch c.source c.batchSize).2.source) :=
    rfl
  cases hopen : c.isOpen with
  | false => rw [next_of_closed hopen, next_of_closed (c := c.plain) hopen]
  | true =>
    unfold next
    rw [if_pos hopen, if_pos (show c.plain.isOpen = true from hopen), hfetch]
    cases o.check with
    | error e => exact fail_plain c e
    | ok u =>
      rcases RowSource.fetch c.source c.batchSize with ⟨e | rows, s⟩
      · exact fail_plain { c with source := s } e
      · have hcolumns : c.plain.columns = c.columns := rfl
        simp only [hcolumns]
        cases records c.columns rows with
        | error e => exact fail_plain { c with source := s } e
        | ok batch => exact deliver_plain { c with source := s } batch _

theorem drawn_plain (limit : Nat) (o : Nat → CallOptions) (c : Cursor (Logged σ)) :
    drawn limit o c.plain = ((drawn limit o c).1, (drawn limit o c).2.plain) := by
  induction limit generalizing o c with
  | zero => rfl
  | succ limit ih =>
    unfold drawn
    rw [next_plain]
    rcases c.next (o 0) with ⟨_ | e | batch, c₁⟩
    · rfl
    · rfl
    · simp only [ih]

/-- Keeping a record changes nothing about calls. -/
theorem play_plain (demands : List Demand) (c : Cursor (Logged σ)) :
    play demands c.plain = ((play demands c).1, (play demands c).2.plain) := by
  induction demands generalizing c with
  | nil => rfl
  | cons demand rest ih =>
    have hfirst : demand.play c.plain = ((demand.play c).1, (demand.play c).2.plain) := by
      cases demand with
      | next o => simp only [Demand.play, next_plain]
      | collect limit o => exact drawn_plain limit o c
    simp only [play, hfirst, ih]

theorem log_shut (c : Cursor (Logged σ)) :
    c.shut.log = c.log ++ [.close (RowSource.close c.source).1] := rfl

theorem log_fetched {answer : Except CallError (List (List Value))} {s : Logged σ}
    (h : RowSource.fetch c.source c.batchSize = (answer, s)) (n : Nat) :
    (c.advance s n).log = c.log ++ [.fetch c.batchSize answer] := by
  cases h
  rfl

/-- Fetches only. -/
def Fetches (log : List SourceCall) : Prop := ∀ call ∈ log, call.isFetch = true

theorem Fetches.append_fetch {log : List SourceCall} (h : Fetches log) (n : Nat)
    (answer : Except CallError (List (List Value))) : Fetches (log ++ [.fetch n answer]) := by
  intro call hcall
  rcases List.mem_append.mp hcall with hcall | hcall
  · exact h call hcall
  · rw [List.mem_singleton.mp hcall]
    rfl

/-- Fetches, and then one close. -/
def ClosedOnce (log : List SourceCall) : Prop :=
  ∃ fetches answer, log = fetches ++ [.close answer] ∧ Fetches fetches

/-- What holds of an iteration at any time: it asks for rows, and the source has been closed once if
it is over, and not at all before. -/
structure Orderly (c : Cursor (Logged σ)) : Prop where
  batchSize : 1 ≤ c.batchSize
  opened : c.isOpen = true → Fetches c.log
  closed : c.isOpen = false → ClosedOnce c.log

omit [RowSource σ] in
theorem orderly_start (source : σ) (columns : List (Path × Kind)) (batchSize : Nat) :
    Orderly (startLogged source columns batchSize) where
  batchSize := Nat.le_max_right batchSize 1
  opened _ := by
    intro call hcall
    cases hcall
  closed h := by cases h

/-- Closing an iteration whose source has only been fetched from. -/
theorem orderly_shut (hsize : 1 ≤ c.batchSize) (h : Fetches c.log) : Orderly c.shut where
  batchSize := hsize
  opened h := by cases h
  closed _ := ⟨c.log, _, log_shut c, h⟩

/-- **A step keeps an iteration orderly.** -/
theorem Orderly.takes (hc : Orderly c) (h : Takes o c i c') : Orderly c' := by
  have hfetched : ∀ {answer : Except CallError (List (List Value))} {s : Logged σ} (n : Nat),
      c.isOpen = true → RowSource.fetch c.source c.batchSize = (answer, s) →
        Fetches (c.advance s n).log := fun n hopen hf => by
    rw [log_fetched hf]
    exact (hc.opened hopen).append_fetch _ _
  cases h with
  | ended _ => exact hc
  | refused hopen _ => exact orderly_shut hc.batchSize (hc.opened hopen)
  | failed hopen _ hf => exact orderly_shut hc.batchSize (hfetched 0 hopen hf)
  | unfit hf _ => exact orderly_shut hc.batchSize (hfetched 0 hf.isOpen hf.fetch)
  | full hf _ _ =>
    refine ⟨hc.batchSize, fun _ => hfetched _ hf.isOpen hf.fetch, fun hclosed => ?_⟩
    cases hf.isOpen.symm.trans hclosed
  | last hf _ _ _ => exact orderly_shut hc.batchSize (hfetched _ hf.isOpen hf.fetch)
  | lost hf _ _ _ => exact orderly_shut hc.batchSize (hfetched _ hf.isOpen hf.fetch)

/-- After an item that is no batch, there is nothing. -/
def Final (items : List Item) : Prop :=
  items.Pairwise fun earlier later => ¬ IsBatch earlier → later = none

/-- What holds after any calls: the iteration is orderly, and it is over if an item was no batch. -/
structure Lives (items : List Item) (c : Cursor (Logged σ)) : Prop where
  orderly : Orderly c
  final : Final items
  ended : (∃ i ∈ items, ¬ IsBatch i) → c.isOpen = false

theorem Lives.next {items : List Item} (h : Lives items c) (o : CallOptions) :
    Lives (items ++ [(c.next o).1]) (c.next o).2 := by
  have htakes := takes_next o c
  refine ⟨h.orderly.takes htakes,
    List.pairwise_append.mpr ⟨h.final, List.pairwise_singleton _ _, ?_⟩, ?_⟩
  · intro earlier hearlier later hlater hno
    rw [List.mem_singleton.mp hlater, next_of_closed (h.ended ⟨earlier, hearlier, hno⟩)]
  · rintro ⟨j, hj, hno⟩
    rcases List.mem_append.mp hj with hj | hj
    · have hended := h.ended ⟨j, hj, hno⟩
      rw [next_of_closed hended]
      exact hended
    · exact htakes.isOpen_of_not_isBatch h.orderly.batchSize (List.mem_singleton.mp hj ▸ hno)

theorem lives_play (source : σ) (columns : List (Path × Kind)) (batchSize : Nat)
    (demands : List Demand) :
    Lives (play demands (startLogged source columns batchSize)).1
      (play demands (startLogged source columns batchSize)).2 := by
  have hstart : Lives [] (startLogged source columns batchSize) :=
    ⟨orderly_start source columns batchSize, List.Pairwise.nil, by simp⟩
  have hplay := play_induction (I := Lives) (fun _ _ o h => h.next o) demands hstart
  rwa [List.nil_append] at hplay

/-- **A source is closed exactly once and not used afterwards**, however it answers, whenever the
caller wants to stop, and whatever calls are made before the iteration is given up. After an item
that is no batch, nothing is handed out any more. -/
theorem closed_once (source : σ) (columns : List (Path × Kind)) (batchSize : Nat)
    (demands : List Demand) :
    ClosedOnce (play demands (startLogged source columns batchSize)).2.drop.log ∧
      Final (play demands (start source columns batchSize)).1 := by
  have hlives := lives_play source columns batchSize demands
  have hplain := play_plain demands (startLogged source columns batchSize)
  refine ⟨?_, (congrArg Prod.fst hplain).symm ▸ hlives.final⟩
  unfold drop
  cases hopen : (play demands (startLogged source columns batchSize)).2.isOpen with
  | true =>
    rw [close_of_open hopen]
    exact (orderly_shut hlives.orderly.batchSize (hlives.orderly.opened hopen)).closed rfl
  | false =>
    rw [close_of_closed hopen]
    exact hlives.orderly.closed hopen

end Log

end Cursor

end StoredCall
