import StoredCall.Proofs.Text.Blank
import StoredCall.Timestamp

/-!
# Timestamps come back from their text

Numbers are written with a fixed width, so each is read without a look at what stands after it. Only
a signed year may be longer than its width, and ends where its digits do. A leap second is written
as second 60, and any other second of a billion nanoseconds as the one after it.

* `Number.natOf_padded`, `Number.length_padded`: zeros in front do not count, and a number with few
  digits has exactly the width.
* `Timestamp.takeYear_yearText`, `Timestamp.takeFraction_fractionText`: years of either form and
  fractions of any length are read.
* `Timestamp.settled` has its long seconds counted as two, and is the timestamp itself if only leap
  seconds are long (`Timestamp.settled_eq_self_iff`).
* **`Timestamp.read?_text`**: the text of a timestamp is read as the settled timestamp.
-/

namespace StoredCall

open Number Text

namespace Number

theorem isDigit_of_mem_padded {w n : Nat} : ∀ c ∈ padded w n, c.isDigit = true := by
  intro c hc
  rcases List.mem_append.mp hc with hc | hc
  · rw [List.eq_of_mem_replicate hc]
    rfl
  · exact Nat.isDigit_of_mem_toDigits (by decide) (by decide) hc

theorem padded_ne_nil (w n : Nat) : padded w n ≠ [] :=
  List.append_ne_nil_of_right_ne_nil _ Nat.toDigits_ne_nil

/-- Zeros in front do not count. -/
theorem natOf_padded (w n : Nat) : natOf (padded w n) = n := by
  have hzeros : ∀ k : Nat,
      (List.replicate k '0').foldl (fun n c => 10 * n + digitValue c) 0 = 0 := by
    intro k
    induction k with
    | zero => rfl
    | succ k ih => exact ih
  have hdigits : natOf (digitsOf n) = n :=
    Nat.ofDigitChars_eq_foldl.symm.trans Nat.ofDigitChars_ten_toDigits
  rw [natOf, padded, List.foldl_append, hzeros]
  exact hdigits

theorem length_padded {w n : Nat} (hw : 0 < w) (h : n < pow10 w) : (padded w n).length = w := by
  have hlen : (digitsOf n).length ≤ w := Nat.toDigits_length 10 n w hw h
  rw [padded, List.length_append, List.length_replicate, width]
  omega

end Number

/-! ## Seconds that are too long -/

namespace Civil

/-- A second of a billion nanoseconds or more is a leap second. -/
def Settled (c : Civil) : Prop := billion ≤ c.nano → c.second = 59

instance (c : Civil) : Decidable c.Settled := inferInstanceAs (Decidable (_ → _))

/-- The same moment with a billion nanoseconds counted as a second, unless it is a leap second. -/
def settled (c : Civil) : Civil :=
  if billion ≤ c.nano ∧ c.second ≠ 59 then
    { c with second := c.second + 1, nano := c.nano - billion }
  else c

theorem settled_eq_self_iff (c : Civil) : c.settled = c ↔ c.Settled := by
  unfold settled Settled
  split
  · next h =>
    refine iff_of_false (fun heq => ?_) fun hs => h.2 (hs h.1)
    have hsecond := congrArg Civil.second heq
    exact absurd hsecond (Nat.succ_ne_self c.second)
  · next h => exact iff_of_true rfl fun hlong => not_not.mp fun h59 => h ⟨hlong, h59⟩

theorem isValid_settled {c : Civil} (h : c.isValid = true) : c.settled.isValid = true := by
  unfold settled
  split
  · next hlong =>
    unfold isValid at *
    simp only [Bool.and_eq_true, decide_eq_true_eq] at *
    omega
  · exact h

end Civil

namespace Timestamp

@[inherit_doc Civil.settled]
def settled (t : Timestamp) : Timestamp := ⟨t.val.settled, Civil.isValid_settled t.property⟩

theorem settled_eq_self_iff (t : Timestamp) : t.settled = t ↔ t.val.Settled :=
  Subtype.ext_iff.trans (Civil.settled_eq_self_iff t.val)

/-! ## Numbers -/

/-- A number of the right width is taken, whatever stands after it. -/
theorem takeNat_padded {w n : Nat} (hw : 0 < w) (h : n < pow10 w) (rest : List Char) :
    takeNat w (padded w n ++ rest) = some (n, rest) := by
  have hlen := length_padded hw h
  have htake : ((padded w n ++ rest).take w).takeWhile Char.isDigit = padded w n := by
    rw [List.take_left' hlen]
    exact List.takeWhile_eq_self_iff.mpr isDigit_of_mem_padded
  have hempty : (padded w n).isEmpty = false := by simpa using padded_ne_nil w n
  simp only [takeNat, htake, hempty, Bool.false_eq_true, if_false, natOf_padded, List.drop_left]

/-- A number of any length is taken before a dash. -/
theorem takeLong_padded (w n : Nat) (rest : List Char) :
    takeLong (padded w n ++ '-' :: rest) = some (n, '-' :: rest) := by
  have htake : (padded w n ++ '-' :: rest).takeWhile Char.isDigit = padded w n := by
    rw [List.takeWhile_append_of_pos isDigit_of_mem_padded, List.takeWhile_cons_of_neg (by decide),
      List.append_nil]
  have hempty : (padded w n).isEmpty = false := by simpa using padded_ne_nil w n
  simp only [takeLong, takeNat, List.take_length, htake, hempty, Bool.false_eq_true, if_false,
    natOf_padded, List.drop_left]

/-- There is no white space to drop before digits. -/
theorem stripStart_padded (w n : Nat) (rest : List Char) :
    stripStart isBlank (padded w n ++ rest) = padded w n ++ rest := by
  obtain ⟨c, cs, hcs⟩ := List.exists_cons_of_ne_nil (padded_ne_nil w n)
  have hdigit : c.isDigit = true := isDigit_of_mem_padded c (hcs ▸ List.mem_cons_self)
  rw [hcs]
  exact List.dropWhile_cons_of_neg (by simp [isBlank_of_isDigit hdigit])

theorem takeField_padded {n : Nat} (h : n < 100) (rest : List Char) :
    takeField (padded 2 n ++ rest) = some (n, rest) := by
  rw [takeField, stripStart_padded]
  exact takeNat_padded (by decide) h rest

/-! ## Years and fractions -/

/-- A year before a dash is taken, with a sign or without. -/
theorem takeYear_yearText (year : Int) (rest : List Char) :
    takeYear (yearText year ++ '-' :: rest) = some (year, '-' :: rest) := by
  by_cases hyear : 0 ≤ year ∧ year ≤ 9999
  · have hlt : year.toNat < pow10 4 := by
      have : (pow10 4 : Nat) = 10000 := rfl
      omega
    have hplain : takeYear (padded 4 year.toNat ++ '-' :: rest) =
        (takeNat 4 (padded 4 year.toNat ++ '-' :: rest)).map fun x => ((x.1 : Int), x.2) := by
      -- The text begins with a digit, so with no sign.
      obtain ⟨c, cs, hcs⟩ := List.exists_cons_of_ne_nil (padded_ne_nil 4 year.toNat)
      have hdigit : c.isDigit = true := isDigit_of_mem_padded c (hcs ▸ List.mem_cons_self)
      rw [takeYear, stripStart_padded, hcs, List.cons_append]
      split
      · next heq => cases heq; cases hdigit
      · next heq => cases heq; cases hdigit
      · rfl
    rw [yearText, if_pos hyear, hplain, takeNat_padded (by decide) hlt]
    simp only [Option.map_some, Int.toNat_of_nonneg hyear.1]
  · rw [yearText, if_neg hyear]
    by_cases hneg : year < 0
    · have hvalue : -(year.natAbs : Int) = year := by omega
      rw [if_pos hneg]
      show (takeLong (padded 4 year.natAbs ++ '-' :: rest)).map _ = _
      rw [takeLong_padded]
      exact congrArg (fun y => some (y, '-' :: rest)) hvalue
    · have hvalue : (year.natAbs : Int) = year := by omega
      rw [if_neg hneg]
      show (takeLong (padded 4 year.natAbs ++ '-' :: rest)).map _ = _
      rw [takeLong_padded]
      exact congrArg (fun y => some (y, '-' :: rest)) hvalue

/-- Some leading digits of a billion, and zeros for those that are left out. -/
theorem takeFraction_padded {w n : Nat} (hw : 0 < w) (hle : w ≤ 9) (h : n < pow10 w) :
    takeFraction ('.' :: padded w n) = some (n * pow10 (9 - w), []) := by
  have hlen := length_padded hw h
  have hdigits : (padded w n).takeWhile Char.isDigit = padded w n :=
    List.takeWhile_eq_self_iff.mpr isDigit_of_mem_padded
  have hempty : (padded w n).isEmpty = false := by simpa using padded_ne_nil w n
  have htake : (padded w n).take 9 = padded w n := List.take_of_length_le (by omega)
  have hdrop : (padded w n).drop w = [] := List.drop_eq_nil_of_le (by omega)
  simp only [takeFraction, hdigits, hempty, Bool.false_eq_true, if_false, htake, natOf_padded, hlen,
    hdrop]

/-- A fraction at the end of a text is taken, however many digits it has. -/
theorem takeFraction_fractionText {nano : Nat} (h : nano < Civil.billion) :
    takeFraction (fractionText nano) = some (nano, []) := by
  rw [Civil.billion] at h
  unfold fractionText
  split_ifs with hzero hmilli hmicro
  · rw [hzero]
    rfl
  · have hlt : nano / 1000000 < pow10 3 := by
      have : (pow10 3 : Nat) = 1000 := rfl
      omega
    have hvalue : nano / 1000000 * pow10 (9 - 3) = nano :=
      Nat.div_mul_cancel (Nat.dvd_of_mod_eq_zero hmilli)
    rw [takeFraction_padded (by decide) (by decide) hlt, hvalue]
  · have hlt : nano / 1000 < pow10 6 := by
      have : (pow10 6 : Nat) = 1000000 := rfl
      omega
    have hvalue : nano / 1000 * pow10 (9 - 6) = nano :=
      Nat.div_mul_cancel (Nat.dvd_of_mod_eq_zero hmicro)
    rw [takeFraction_padded (by decide) (by decide) hlt, hvalue]
  · have hvalue : nano * pow10 (9 - 9) = nano := Nat.mul_one nano
    rw [takeFraction_padded (by decide) (by decide) h, hvalue]

/-! ## Dates and times of day -/

/-- What a valid timestamp's numbers are below. -/
structure Bounded (c : Civil) : Prop where
  month : c.month < 100
  day : c.day < 100
  hour : c.hour < 100
  minute : c.minute < 100
  second : c.second < 60
  nano : c.nano < 2 * Civil.billion

theorem bounded {c : Civil} (h : c.isValid = true) : Bounded c := by
  have hdays : Civil.daysIn c.year c.month ≤ 31 := by
    unfold Civil.daysIn
    split_ifs <;> decide
  simp only [Civil.isValid, Bool.and_eq_true, decide_eq_true_eq, and_assoc] at h
  obtain ⟨-, -, -, hmonth, -, hday, hhour, hminute, hsecond, hnano⟩ := h
  exact ⟨by omega, by omega, by omega, by omega, hsecond, hnano⟩

theorem takeDate_chars {c : Civil} (h : Bounded c) (rest : List Char) :
    takeDate (yearText c.year ++ '-' :: (padded 2 c.month ++ '-' :: (padded 2 c.day ++ rest))) =
      some ({ year := c.year, month := c.month, day := c.day }, rest) := by
  simp only [takeDate, takeYear_yearText, takeChar, if_true, takeField_padded h.month,
    takeField_padded h.day, Option.bind_eq_bind, Option.bind_some, Option.pure_def]

/-- A leap second is written as second 60, and any other second of a billion nanoseconds as the
next. -/
theorem second_of_leap {c : Civil} (h : Bounded c) :
    c.second + c.nano / Civil.billion < 100 ∧
    (if c.second + c.nano / Civil.billion = 60 then 59 else c.second + c.nano / Civil.billion) =
      c.settled.second ∧
    (if c.second + c.nano / Civil.billion = 60 then Civil.billion + c.nano % Civil.billion
      else c.nano % Civil.billion) = c.settled.nano := by
  have hsecond := h.second
  have hnano := h.nano
  unfold Civil.settled
  unfold Civil.billion at *
  by_cases hlong : 1000000000 ≤ c.nano
  · by_cases h59 : c.second = 59
    · rw [if_pos (by omega), if_neg (by omega), if_pos (by omega)]
      omega
    · rw [if_neg (by omega), if_pos ⟨hlong, h59⟩, if_neg (by omega)]
      dsimp only
      omega
  · rw [if_neg (by omega), if_neg (by omega), if_neg (by omega)]
    omega

theorem takeTime_chars {c : Civil} (h : Bounded c) :
    takeTime { year := c.year, month := c.month, day := c.day }
      (padded 2 c.hour ++ ':' :: (padded 2 c.minute ++ ':' ::
        (padded 2 (c.second + c.nano / Civil.billion) ++
          fractionText (c.nano % Civil.billion)))) = some (c.settled, []) := by
  obtain ⟨hlt, hsecond, hnano⟩ := second_of_leap h
  have hfraction : c.nano % Civil.billion < Civil.billion := Nat.mod_lt _ (by decide)
  have hrest : c.settled = { c with second := c.settled.second, nano := c.settled.nano } := by
    unfold Civil.settled
    split <;> rfl
  simp only [takeTime, takeField_padded h.hour, takeChar, if_true, takeField_padded h.minute,
    takeField_padded hlt, takeFraction_fractionText hfraction, Option.bind_eq_bind,
    Option.bind_some, Option.pure_def, hsecond, hnano]
  rw [← hrest]

theorem readCivil?_chars (t : Timestamp) : readCivil? .letter t.chars = some t.settled.val := by
  have h := bounded t.property
  simp only [chars, List.append_assoc, List.cons_append]
  simp only [readCivil?, takeDate_chars h, takeChar, if_true, takeTime_chars h, Option.bind_eq_bind,
    Option.bind_some, List.isEmpty_nil, Option.pure_def]
  rfl

/-! ## White space -/

theorem isBlank_of_mem_padded {w n : Nat} : ∀ c ∈ padded w n, isBlank c = false :=
  fun c hc => isBlank_of_isDigit (isDigit_of_mem_padded c hc)

theorem isBlank_of_mem_yearText {year : Int} : ∀ c ∈ yearText year, isBlank c = false := by
  unfold yearText
  split_ifs
  · exact isBlank_of_mem_padded
  all_goals exact List.forall_mem_cons.mpr ⟨rfl, isBlank_of_mem_padded⟩

theorem isBlank_of_mem_fractionText {nano : Nat} :
    ∀ c ∈ fractionText nano, isBlank c = false := by
  unfold fractionText
  split_ifs
  · exact fun c hc => absurd hc List.not_mem_nil
  all_goals exact List.forall_mem_cons.mpr ⟨rfl, isBlank_of_mem_padded⟩

/-- There is no white space in the text. -/
theorem isBlank_of_mem_chars (t : Timestamp) : ∀ c ∈ t.chars, isBlank c = false := by
  simp only [chars, List.forall_mem_append, List.forall_mem_cons]
  exact ⟨⟨⟨⟨⟨⟨isBlank_of_mem_yearText, rfl, isBlank_of_mem_padded⟩, rfl, isBlank_of_mem_padded⟩,
    rfl, isBlank_of_mem_padded⟩, rfl, isBlank_of_mem_padded⟩, rfl, isBlank_of_mem_padded⟩,
    isBlank_of_mem_fractionText⟩

/-- **Timestamps come back from their text settled**: years outside 0 to 9999, fractions of any
length and leap seconds come back as they are. -/
theorem read?_text (t : Timestamp) : read? t.text = some t.settled := by
  have hread : readForm? t.chars .letter = some t.settled := by
    rw [readForm?, readCivil?_chars]
    exact dif_pos t.settled.property
  rw [read?, text, String.toList_ofList, strip_eq_self (isBlank_of_mem_chars t),
    List.findSome?_cons, hread]

end Timestamp

end StoredCall
