import Mathlib
import StoredCall.Text.Base64
import StoredCall.Text.Blank

/-!
# Bytes come back from Base64

* `Base64.valueOf?_charOf`: a character stands for the six bits it was made of, and is no padding.
* **`Base64.decode?_encode`**: the text of bytes is read as the bytes, whatever number of them the
  last group has.
* `Base64.isBlank_of_mem_encode`: there is no white space in the text.
-/

namespace StoredCall.Text.Base64

theorem charOf_mod (n : Nat) : charOf (n % 64) = charOf n := by
  rw [charOf, charOf, Nat.mod_mod]

/-- The alphabet is read letter by letter, and neither padding nor white space is in it. -/
theorem charOf_lt : ∀ n < 64, valueOf? (charOf n) = some n ∧ charOf n ≠ '=' ∧
    isBlank (charOf n) = false := by
  decide +kernel

theorem valueOf?_charOf (n : Nat) : valueOf? (charOf n) = some (n % 64) := by
  rw [← charOf_mod]
  exact (charOf_lt (n % 64) (Nat.mod_lt n (by decide))).1

theorem charOf_ne_pad (n : Nat) : charOf n ≠ '=' := by
  rw [← charOf_mod]
  exact (charOf_lt (n % 64) (Nat.mod_lt n (by decide))).2.1

theorem isBlank_charOf (n : Nat) : isBlank (charOf n) = false := by
  rw [← charOf_mod]
  exact (charOf_lt (n % 64) (Nat.mod_lt n (by decide))).2.2

/-- A byte is known from a number that ends in its bits. -/
theorem ofNat_eq {n : Nat} {a : UInt8} (h : n % 256 = a.toNat) : UInt8.ofNat n = a := by
  refine UInt8.toNat.inj ?_
  rw [UInt8.toNat_ofNat']
  exact h

section Groups

variable (a b c : UInt8)

theorem decodeOne?_group :
    decodeOne? (charOf (a.toNat / 4)) (charOf (a.toNat % 4 * 16)) = some [a] := by
  have ha := a.toNat_lt
  have hn : a.toNat / 4 % 64 * 64 + a.toNat % 4 * 16 % 64 = a.toNat * 16 := by omega
  have hbits : a.toNat * 16 % 16 = 0 := by omega
  have hbyte : UInt8.ofNat (a.toNat * 16 / 16) = a := ofNat_eq (by omega)
  simp only [decodeOne?, valueOf?_charOf, Option.bind_eq_bind, Option.bind_some, hn, hbits, if_true,
    hbyte, Option.pure_def]

theorem decodeTwo?_group {n : Nat} (hn : n = a.toNat * 256 + b.toNat) :
    decodeTwo? (charOf (n / 1024)) (charOf (n / 16)) (charOf (n % 16 * 4)) = some [a, b] := by
  have ha := a.toNat_lt
  have hb := b.toNat_lt
  have hvalue : (n / 1024 % 64 * 64 + n / 16 % 64) * 64 + n % 16 * 4 % 64 = n * 4 := by omega
  have hbits : n * 4 % 4 = 0 := by omega
  have hfirst : UInt8.ofNat (n * 4 / 1024) = a := ofNat_eq (by omega)
  have hsecond : UInt8.ofNat (n * 4 / 4) = b := ofNat_eq (by omega)
  simp only [decodeTwo?, valueOf?_charOf, Option.bind_eq_bind, Option.bind_some, hvalue, hbits,
    if_true, hfirst, hsecond, Option.pure_def]

theorem decodeThree?_group {n : Nat} (hn : n = (a.toNat * 256 + b.toNat) * 256 + c.toNat) :
    decodeThree? (charOf (n / 262144)) (charOf (n / 4096)) (charOf (n / 64)) (charOf n) =
      some [a, b, c] := by
  have ha := a.toNat_lt
  have hb := b.toNat_lt
  have hc := c.toNat_lt
  have hvalue : ((n / 262144 % 64 * 64 + n / 4096 % 64) * 64 + n / 64 % 64) * 64 + n % 64 = n := by
    omega
  have hfirst : UInt8.ofNat (n / 65536) = a := ofNat_eq (by omega)
  have hsecond : UInt8.ofNat (n / 256) = b := ofNat_eq (by omega)
  have hthird : UInt8.ofNat n = c := ofNat_eq (by omega)
  simp only [decodeThree?, valueOf?_charOf, Option.bind_eq_bind, Option.bind_some, hvalue, hfirst,
    hsecond, hthird, Option.pure_def]

end Groups

/-- A group without padding is read before the rest. -/
theorem decode?_cons {a b c d : Char} (hd : d ≠ '=') (rest : List Char) :
    decode? (a :: b :: c :: d :: rest) =
      (decodeThree? a b c d).bind fun bytes => (decode? rest).map (bytes ++ ·) := by
  rw [decode?]
  · cases decodeThree? a b c d <;> cases decode? rest <;> rfl
  · rintro rfl rfl rfl
    exact hd rfl
  · rintro rfl rfl
    exact hd rfl

/-- **Bytes come back from their text.** -/
theorem decode?_encode (bytes : List UInt8) : decode? (encode bytes) = some bytes := by
  fun_induction encode bytes with
  | case1 => rfl
  | case2 a => exact decodeOne?_group a
  | case3 a b =>
    rw [decode?]
    · exact decodeTwo?_group a b rfl
    · exact fun h => absurd h (charOf_ne_pad _)
  | case4 a b c rest n ih =>
    rw [decode?_cons (charOf_ne_pad n), decodeThree?_group a b c rfl, ih]
    rfl

theorem isBlank_of_mem_encode {bytes : List UInt8} : ∀ d ∈ encode bytes, isBlank d = false := by
  have hpad : isBlank '=' = false := rfl
  fun_induction encode bytes with
  | case1 => simp
  | case2 a => simp [isBlank_charOf, hpad]
  | case3 a b => simp [isBlank_charOf, hpad]
  | case4 a b c rest n ih => simpa [isBlank_charOf] using ih

theorem encode_ne_nil {bytes : List UInt8} (h : bytes ≠ []) : encode bytes ≠ [] := by
  intro hnil
  have hdecode := decode?_encode bytes
  rw [hnil] at hdecode
  exact h (Option.some.inj hdecode).symm

end StoredCall.Text.Base64
