import StoredCall.Proofs.Subprogram.EntryPoints

/-!
# The order of numbered rows

Rows are sorted by their numbers before a subprogram is built, so the order in which an extract
lists them does not matter as long as the rows of a subprogram are numbered apart. Rows of different
subprograms may be mixed, and rows that are hidden or not wanted may stand anywhere.

* `Sequenced`: the rows of each subprogram have numbers, all different.
* `inSequence_of_perm`: sorting such rows of one subprogram forgets their order.
* `mem_groups`: the rows of a subprogram are found wherever they stand; hence `groups_of_perm`.
* **`allOfRows_of_perm`**: rows in another order are accepted exactly if they are in this one, and
  give the same subprograms, one for each wanted group.
-/

namespace StoredCall

open Text

/-! ## Groups that are wanted -/

namespace ArgRow

/-- Whether a row is used: it is not hidden, and its subprogram is wanted. -/
def isWanted (wanted : Selection) (r : ArgRow) : Bool :=
  !r.isHidden && wanted.accepts r.package r.object

/-- A hash stays a hash, and nothing else becomes one. -/
theorem toUpper_eq_hash_iff (c : Char) : c.toUpper = '#' ↔ c = '#' := by
  by_cases h : c.isLower = true
  · have hupper : c.toUpper.isUpper = true := by
      rw [Char.isUpper_toUpper_eq_isAlpha, Char.isAlpha, h, Bool.or_true]
    refine iff_of_false (fun hc => ?_) (fun hc => ?_)
    · rw [hc] at hupper
      cases hupper
    · rw [hc] at h
      cases h
  · rw [Char.toUpper_eq_of_not_isLower h]

variable {r s : ArgRow}

theorem isHidden_eq (r : ArgRow) :
    r.isHidden = decide ((upper r.object).toList.getLast? = some '#') := by
  unfold isHidden upper
  rw [String.toList_ofList, List.getLast?_map]
  refine decide_eq_decide.mpr ?_
  cases r.object.toList.getLast? with
  | none => simp
  | some c => simp [toUpper_eq_hash_iff]

/-- **A group is wanted as a whole**: whether a row is used hangs on its key alone. -/
theorem isWanted_congr (h : r.key = s.key) (wanted : Selection) :
    r.isWanted wanted = s.isWanted wanted := by
  obtain ⟨hpackage, hobject, -⟩ : upper r.package = upper s.package ∧
      upper r.object = upper s.object ∧ r.overload = s.overload := by simpa [key] using h
  unfold isWanted Selection.accepts
  rw [isHidden_eq, isHidden_eq, hpackage, hobject]

end ArgRow

namespace Subprogram

/-- The rows of each subprogram are numbered, and no number comes twice. -/
structure Sequenced (rows : List ArgRow) : Prop where
  numbered : ∀ r ∈ rows, r.sequence.isSome = true
  apart : rows.Pairwise fun r s => r.key = s.key → r.sequence ≠ s.sequence

instance (rows : List ArgRow) : Decidable (Sequenced rows) :=
  decidable_of_iff ((∀ r ∈ rows, r.sequence.isSome = true) ∧
    rows.Pairwise fun r s => r.key = s.key → r.sequence ≠ s.sequence)
    ⟨fun h => ⟨h.1, h.2⟩, fun h => ⟨h.numbered, h.apart⟩⟩

variable {wanted : Selection} {rows rows' : List ArgRow}

/-! ## Sorting -/

/-- Rows with numbers that are all different are sorted to the same list, whatever their order. -/
theorem inSequence_of_perm (hnumbered : ∀ r ∈ rows, r.sequence.isSome = true)
    (hapart : (rows.map ArgRow.sequence).Nodup) (hperm : rows.Perm rows') :
    inSequence rows = inSequence rows' := by
  have hnumbered' : ∀ r ∈ rows', r.sequence.isSome = true := fun r hr =>
    hnumbered r (hperm.mem_iff.mpr hr)
  have hsorted : ∀ rs : List ArgRow,
      (rs.mergeSort fun a b => a.sequence.getD 0 ≤ b.sequence.getD 0).Pairwise fun a b =>
        decide (a.sequence.getD 0 ≤ b.sequence.getD 0) = true :=
    List.pairwise_mergeSort (by grind) (by grind)
  rw [inSequence, inSequence, if_pos (List.all_eq_true.mpr hnumbered),
    if_pos (List.all_eq_true.mpr hnumbered')]
  refine List.Perm.eq_of_pairwise (fun a b ha hb hab hba => ?_) (hsorted rows) (hsorted rows')
    (((List.mergeSort_perm rows _).trans hperm).trans (List.mergeSort_perm rows' _).symm)
  -- Rows that sort alike have one number, so they are one row.
  have ha : a ∈ rows := List.mem_mergeSort.mp ha
  have hb : b ∈ rows := hperm.mem_iff.mpr (List.mem_mergeSort.mp hb)
  obtain ⟨m, hm⟩ := Option.isSome_iff_exists.mp (hnumbered a ha)
  obtain ⟨n, hn⟩ := Option.isSome_iff_exists.mp (hnumbered b hb)
  have hmn : m = n := by
    rw [hm, hn] at hab hba
    exact UInt32.le_antisymm (of_decide_eq_true hab) (of_decide_eq_true hba)
  exact List.inj_on_of_nodup_map hapart ha hb (by rw [hm, hn, hmn])

/-- Rows in the order of their numbers stay as they are. -/
theorem inSequence_eq_self (h : rows.Pairwise fun a b => a.sequence.getD 0 ≤ b.sequence.getD 0) :
    inSequence rows = rows := by
  unfold inSequence
  split
  · exact List.mergeSort_of_pairwise (h.imp fun hab => decide_eq_true hab)
  · rfl

/-! ## Grouping -/

/-- The rows of a wanted subprogram, as they come. -/
def groupOf (wanted : Selection) (rows : List ArgRow) (key : Key) : List ArgRow :=
  rows.filter fun r => r.isWanted wanted && r.key = key

/-- **The rows of a subprogram are found wherever they stand.** -/
theorem mem_groups {key : Key} {rs : List ArgRow} : (key, rs) ∈ groups wanted rows ↔
    groupOf wanted rows key ≠ [] ∧ rs = inSequence (groupOf wanted rows key) := by
  have hgroup : (rows.filter (ArgRow.isWanted wanted)).filter (fun r => r.key = key) =
      groupOf wanted rows key := by
    rw [List.filter_filter, groupOf]
    exact List.filter_congr fun r _ => Bool.and_comm _ _
  have hfound : ∀ vs, (key, vs) ∈ Assoc.group ArgRow.key (rows.filter (ArgRow.isWanted wanted)) ↔
      groupOf wanted rows key ≠ [] ∧ vs = groupOf wanted rows key := by
    intro vs
    rw [Assoc.mem_iff_get? (Assoc.keyed_group _ _), Assoc.get?_group, hgroup,
      Option.filter_eq_some_iff]
    constructor
    · rintro ⟨hvs, hne⟩
      obtain rfl := Option.some.inj hvs
      exact ⟨by simpa using hne, rfl⟩
    · rintro ⟨hne, rfl⟩
      exact ⟨rfl, by simpa using hne⟩
  show (key, rs) ∈ List.map _ (Assoc.group ArgRow.key (rows.filter (ArgRow.isWanted wanted))) ↔ _
  constructor
  · intro h
    obtain ⟨⟨k, vs⟩, hvs, he⟩ := List.mem_map.mp h
    obtain ⟨rfl, rfl⟩ := Prod.mk.inj he
    obtain ⟨hne, rfl⟩ := (hfound vs).mp hvs
    exact ⟨hne, rfl⟩
  · rintro ⟨hne, rfl⟩
    exact List.mem_map.mpr ⟨_, (hfound _).mpr ⟨hne, rfl⟩, rfl⟩

theorem Sequenced.of_perm (h : Sequenced rows) (hperm : rows.Perm rows') : Sequenced rows' := by
  refine ⟨fun r hr => h.numbered r (hperm.mem_iff.mpr hr), ?_⟩
  exact (hperm.pairwise_iff fun hrs hkey heq => hrs hkey.symm heq.symm).mp h.apart

/-- Sorting the rows of a subprogram forgets their order in the extract. -/
theorem Sequenced.inSequence_groupOf (h : Sequenced rows) (hperm : rows.Perm rows') (key : Key) :
    inSequence (groupOf wanted rows key) = inSequence (groupOf wanted rows' key) := by
  have hkey : ∀ r ∈ groupOf wanted rows key, r.key = key := fun r hr => by
    simpa using (Bool.and_eq_true_iff.mp (List.mem_filter.mp hr).2).2
  refine inSequence_of_perm (fun r hr => h.numbered r (List.mem_filter.mp hr).1)
    (List.pairwise_map.mpr ?_) (hperm.filter _)
  exact (h.apart.sublist List.filter_sublist).imp_of_mem fun hr hs hrs =>
    hrs ((hkey _ hr).trans (hkey _ hs).symm)

/-- **Rows in another order are grouped alike.** -/
theorem groups_of_perm (h : Sequenced rows) (hperm : rows.Perm rows') :
    (groups wanted rows).Perm (groups wanted rows') := by
  refine (List.perm_ext_iff_of_nodup (keyed_groups wanted rows).of_map
    (keyed_groups wanted rows').of_map).mpr fun e => ?_
  obtain ⟨key, rs⟩ := e
  have hlength : (groupOf wanted rows key).length = (groupOf wanted rows' key).length :=
    (hperm.filter _).length_eq
  rw [mem_groups, mem_groups, h.inSequence_groupOf hperm key, ← List.length_pos_iff,
    ← List.length_pos_iff, hlength]

/-! ## Building -/

/-- There is one subprogram for each group of rows that is wanted. -/
structure OnePerGroup (wanted : Selection) (rows : List ArgRow) (fs : List Subprogram) : Prop where
  apart : fs.Pairwise fun f g => f.key ≠ g.key
  grouped : ∀ f ∈ fs, ∃ r ∈ rows, r.key = f.key
  accepted : ∀ r ∈ rows, (∃ f ∈ fs, f.key = r.key) ↔ r.isWanted wanted = true

theorem onePerGroup_of_allOfRows {fs : List Subprogram} (h : allOfRows wanted rows = .ok fs) :
    OnePerGroup wanted rows fs := by
  have hrows : FromRows wanted rows fs := .plain h
  -- A subprogram stands for a group, and each row of the group has its key.
  have hgroup : ∀ f ∈ fs, ∃ r ∈ rows, r.isWanted wanted = true ∧ r.key = f.key := by
    intro f hf
    obtain ⟨⟨key, rs⟩, he, hkey, -⟩ := exists_of_forall₂ hrows.built.flip hf
    obtain ⟨r, hr⟩ := List.exists_mem_of_ne_nil _ (mem_groups.mp he).1
    obtain ⟨hr, hin⟩ := List.mem_filter.mp hr
    obtain ⟨hwanted, hin⟩ := Bool.and_eq_true_iff.mp hin
    exact ⟨r, hr, hwanted, (of_decide_eq_true hin).trans hkey.symm⟩
  refine ⟨hrows.pairwise_key, fun f hf => ?_, fun r hr => ⟨?_, fun hwanted => ?_⟩⟩
  · obtain ⟨r, hr, -, hkey⟩ := hgroup f hf
    exact ⟨r, hr, hkey⟩
  · rintro ⟨f, hf, hkey⟩
    obtain ⟨s, -, hwanted, hs⟩ := hgroup f hf
    rw [ArgRow.isWanted_congr (hkey.symm.trans hs.symm) wanted, hwanted]
  · have hmem : r ∈ groupOf wanted rows r.key := List.mem_filter.mpr ⟨hr, by simp [hwanted]⟩
    have he := mem_groups.mpr ⟨List.ne_nil_of_mem hmem, rfl⟩
    obtain ⟨f, hf, hkey, -⟩ := exists_of_forall₂ hrows.built he
    exact ⟨f, hf, hkey⟩

/-- Rows in another order are accepted if they are in this one, and give the same subprograms. -/
theorem exists_allOfRows_of_perm {fs : List Subprogram} (hseq : Sequenced rows)
    (hperm : rows.Perm rows') (h : allOfRows wanted rows = .ok fs) :
    ∃ fs', allOfRows wanted rows' = .ok fs' ∧ fs.Perm fs' :=
  mapM_of_perm (groups_of_perm hseq hperm) h

/-- **The order of numbered rows does not matter.** If the rows of each subprogram are numbered
apart, they are accepted in another order exactly if they are in this one, and give the same
subprograms, one for each wanted group. -/
theorem allOfRows_of_perm (hseq : Sequenced rows) (hperm : rows.Perm rows') :
    ((∃ fs, allOfRows wanted rows = .ok fs) ↔ ∃ fs, allOfRows wanted rows' = .ok fs) ∧
      ∀ fs fs', allOfRows wanted rows = .ok fs → allOfRows wanted rows' = .ok fs' →
        fs.Perm fs' ∧ OnePerGroup wanted rows fs ∧ OnePerGroup wanted rows' fs' := by
  refine ⟨⟨fun ⟨fs, h⟩ => ?_, fun ⟨fs, h⟩ => ?_⟩, fun fs fs' h h' => ?_⟩
  · obtain ⟨fs', h', -⟩ := exists_allOfRows_of_perm hseq hperm h
    exact ⟨fs', h'⟩
  · obtain ⟨fs', h', -⟩ := exists_allOfRows_of_perm (hseq.of_perm hperm) hperm.symm h
    exact ⟨fs', h'⟩
  · obtain ⟨fs'', h'', hsame⟩ := exists_allOfRows_of_perm hseq hperm h
    obtain rfl : fs'' = fs' := Except.ok.inj (h''.symm.trans h')
    exact ⟨hsame, onePerGroup_of_allOfRows h, onePerGroup_of_allOfRows h'⟩

/-- A row of the package `HOTEL`. -/
def hotelRow (object : String) (overload : Option UInt32) (sequence : UInt32) (level : UInt8)
    (argument inOut dataType : String) : ArgRow :=
  { package := "HOTEL", object, overload, sequence := some sequence, level, argument, inOut,
    dataType }

/-- A procedure with a record, its name in small and in capital letters. -/
def bookRows : List ArgRow :=
  [hotelRow "book" none 1 0 "P_GUEST" "IN" "PL/SQL RECORD",
    hotelRow "BOOK" none 2 1 "NAME" "IN" "VARCHAR2", hotelRow "Book" none 4 1 "ROOM" "IN" "NUMBER"]

/-- An overloaded function. -/
def rateRows : List ArgRow :=
  [hotelRow "RATE" (some 2) 1 0 "" "OUT" "NUMBER", hotelRow "RATE" (some 2) 3 0 "P_DAY" "IN" "DATE"]

/-- A procedure that is hidden, and one that is not wanted; neither could be built. -/
def unusedRows : List ArgRow :=
  [hotelRow "AUDIT#" none 1 3 "P" "IN" "NUMBER", hotelRow "CLEAN" none 1 0 "P" "SIDEWAYS" "NUMBER"]

/-- All procedures but `CLEAN`. -/
def hotelSelection : Selection := { skip := ["CLEAN"] }

theorem hotel_allOfRows_of_perm :
    Sequenced (bookRows ++ unusedRows ++ rateRows) ∧
    (bookRows ++ unusedRows ++ rateRows).Perm (rateRows ++ unusedRows ++ bookRows).reverse ∧
    ∃ fs fs', allOfRows hotelSelection (bookRows ++ unusedRows ++ rateRows) = .ok fs ∧
      allOfRows hotelSelection (rateRows ++ unusedRows ++ bookRows).reverse = .ok fs' ∧
      fs.map key = [("HOTEL", "BOOK", none), ("HOTEL", "RATE", some 2)] ∧ fs.Perm fs' ∧
      OnePerGroup hotelSelection (bookRows ++ unusedRows ++ rateRows) fs := by
  have hseq : Sequenced (bookRows ++ unusedRows ++ rateRows) := by decide +kernel
  have hperm : (bookRows ++ unusedRows ++ rateRows).Perm
      (rateRows ++ unusedRows ++ bookRows).reverse := by decide +kernel
  have hgroup : Assoc.group ArgRow.key ((bookRows ++ unusedRows ++ rateRows).filter fun r =>
      !r.isHidden && hotelSelection.accepts r.package r.object) =
      [(("HOTEL", "BOOK", none), bookRows), (("HOTEL", "RATE", some 2), rateRows)] := by
    decide +kernel
  have hbook : inSequence bookRows = bookRows := inSequence_eq_self (by decide +kernel)
  have hrate : inSequence rateRows = rateRows := inSequence_eq_self (by decide +kernel)
  have hrun : (do
      let fs ← allOfRows hotelSelection (bookRows ++ unusedRows ++ rateRows)
      return fs.map key) = .ok [("HOTEL", "BOOK", none), ("HOTEL", "RATE", some 2)] := by
    simp only [allOfRows, groups, hgroup, List.map_cons, List.map_nil, hbook, hrate]
    decide +kernel
  obtain ⟨fs, hfs, hrun⟩ := except_bind_eq_ok.mp hrun
  obtain ⟨hiff, hsame⟩ := allOfRows_of_perm hseq hperm
  obtain ⟨fs', hfs'⟩ := hiff.mp ⟨fs, hfs⟩
  obtain ⟨hsame, hone, -⟩ := hsame fs fs' hfs hfs'
  exact ⟨hseq, hperm, fs, fs', hfs, hfs', Except.ok.inj hrun, hsame, hone⟩

end Subprogram

end StoredCall
