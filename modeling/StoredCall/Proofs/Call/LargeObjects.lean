import StoredCall.Call.Response
import StoredCall.Proofs.Text.Utf8
import StoredCall.Proofs.Value

/-!
# Large objects keep their content

A large object comes as a stream or as a value. Up to a threshold it ends up in the response as the
text or the bytes it is, beyond it as a file with the same content. The stream is read in two parts,
one byte past the threshold and then the rest; the threshold must leave room for that byte.

* `Value.Materialized` says what a large object is to become.
* **`Value.materialized_iff`**: a stream becomes that for every threshold that has a successor among
  the words, and for no other.
* `Value.Conveys` says by which values a database hands over bytes without a stream.
* `Response.Delivered` says what comes of a value and the text of a path.
* **`Response.collectLob_delivery`**: whether the bytes come as a stream or as such a value, one and
  the same value is found at the path.
-/

namespace StoredCall

open Text

namespace Value

/-! ## Streams -/

/-- What bytes read as a large object of a kind become. -/
structure Materialized (bytes : List UInt8) (kind : Kind) (threshold : Nat)
    (result : Except CallError Value) : Prop where
  text : bytes.length ≤ threshold → kind = .clob → ∀ s, utf8 s = bytes → result = .ok (.text s)
  /-- Bytes that are no text are not taken for one. -/
  refused : bytes.length ≤ threshold → kind = .clob → (∀ s, utf8 s ≠ bytes) →
    result = .error (.convert "lob" .utf8Text "invalid utf-8")
  binary : bytes.length ≤ threshold → kind ≠ .clob → result = .ok (.bytes bytes)
  /-- The file holds all of the bytes, and their number is noted. -/
  spilled : threshold < bytes.length → result = .ok (.spilled ⟨bytes, bytes.length⟩)

theorem inMemory_clob {bytes : List UInt8} {s : String} (h : utf8 s = bytes) :
    inMemory .clob bytes = .ok (.text s) := by
  rw [inMemory, utf8?_eq_some_iff.mpr h]

theorem inMemory_clob_error {bytes : List UInt8} (h : ∀ s, utf8 s ≠ bytes) :
    inMemory .clob bytes = .error (.convert "lob" .utf8Text "invalid utf-8") := by
  have hnone : utf8? bytes = none :=
    Option.eq_none_iff_forall_ne_some.mpr fun s hs => h s (utf8?_eq_some_iff.mp hs)
  rw [inMemory, hnone]

theorem inMemory_of_ne_clob {kind : Kind} (h : kind ≠ .clob) (bytes : List UInt8) :
    inMemory kind bytes = .ok (.bytes bytes) := by
  cases kind with
  | clob => exact absurd rfl h
  | _ => rfl

/-- Below the largest word, the byte past the threshold is there to tell which side a stream is
on. -/
theorem materialize_of_lt {threshold : Nat} (h : threshold < Number.wordMax) (bytes : List UInt8)
    (kind : Kind) : materialize bytes kind threshold =
      if bytes.length ≤ threshold then inMemory kind bytes
      else .ok (.spilled ⟨bytes, bytes.length⟩) := by
  unfold materialize
  rw [if_neg (Nat.not_le.mpr h)]
  by_cases hlen : bytes.length ≤ threshold
  · have hall : bytes.take (threshold + 1) = bytes := List.take_of_length_le (by omega)
    simp only [hall, if_pos hlen]
  · -- the part that was read first is longer than the threshold, and the rest is added to it
    have hhead : ¬ (bytes.take (threshold + 1)).length ≤ threshold := by
      rw [List.length_take]
      omega
    have hsum : (bytes.take (threshold + 1)).length + (bytes.drop (threshold + 1)).length =
        bytes.length := by
      rw [← List.length_append, List.take_append_drop]
    simp only [if_neg hhead, if_neg hlen, List.take_append_drop, hsum]

theorem materialize_of_le {threshold : Nat} (h : Number.wordMax ≤ threshold) (bytes : List UInt8)
    (kind : Kind) : materialize bytes kind threshold = .error .overflow :=
  if_pos h

theorem materialized_of_lt {threshold : Nat} (h : threshold < Number.wordMax) (bytes : List UInt8)
    (kind : Kind) : Materialized bytes kind threshold (materialize bytes kind threshold) := by
  rw [materialize_of_lt h]
  refine ⟨?_, ?_, fun hlen hkind => ?_, fun hlen => if_neg (Nat.not_le.mpr hlen)⟩
  · rintro hlen rfl s hs
    rw [if_pos hlen, inMemory_clob hs]
  · rintro hlen rfl hs
    rw [if_pos hlen, inMemory_clob_error hs]
  · rw [if_pos hlen, inMemory_of_ne_clob hkind]

/-- Whatever the bytes, to fail for want of a word is not what they are to become. -/
theorem Materialized.ne_overflow {bytes : List UInt8} {kind : Kind} {threshold : Nat}
    {result : Except CallError Value} (h : Materialized bytes kind threshold result) :
    result ≠ .error .overflow := by
  rintro rfl
  by_cases hlen : bytes.length ≤ threshold
  · by_cases hkind : kind = .clob
    · by_cases hs : ∃ s, utf8 s = bytes
      · obtain ⟨s, hs⟩ := hs
        cases h.text hlen hkind s hs
      · cases h.refused hlen hkind (not_exists.mp hs)
    · cases h.binary hlen hkind
  · cases h.spilled (Nat.lt_of_not_le hlen)

/-- **A stream keeps its content if and only if the threshold has a successor among the words.** At
the largest word the reading of the byte past the threshold overflows, whatever the stream. -/
theorem materialized_iff (bytes : List UInt8) (kind : Kind) (threshold : Nat) :
    (Materialized bytes kind threshold (materialize bytes kind threshold) ↔
      threshold < Number.wordMax) ∧
    (materialize bytes kind threshold = .error .overflow ↔ Number.wordMax ≤ threshold) := by
  have hof : threshold < Number.wordMax → _ := fun h => materialized_of_lt h bytes kind
  rcases Nat.lt_or_ge threshold Number.wordMax with hlt | hge
  · exact ⟨iff_of_true (hof hlt) hlt, iff_of_false (hof hlt).ne_overflow (Nat.not_le.mpr hlt)⟩
  · have hover := materialize_of_le hge bytes kind
    exact ⟨iff_of_false (fun h => h.ne_overflow hover) (Nat.not_lt.mpr hge), iff_of_true hover hge⟩

/-- Two bytes of text are not kept under the largest threshold that there is. -/
theorem widest_threshold_loses :
    Number.wordMax = 18446744073709551615 ∧ utf8 "hi" = [104, 105] ∧
      materialize [104, 105] .clob Number.wordMax = .error .overflow ∧
      ¬ Materialized [104, 105] .clob Number.wordMax
        (materialize [104, 105] .clob Number.wordMax) := by
  have hover := materialize_of_le (Nat.le_refl Number.wordMax) [104, 105] .clob
  exact ⟨by decide, by decide, hover, fun h => h.ne_overflow hover⟩

/-! ## Values -/

/-- The values by which a database hands over the bytes of a large object without a stream. -/
inductive Conveys (bytes : List UInt8) : Kind → Value → Prop
  | text {s : String} (h : utf8 s = bytes) : Conveys bytes .clob (.text s)
  | textBytes {s : String} (h : utf8 s = bytes) : Conveys bytes .clob (.bytes bytes)
  | bytes : Conveys bytes .blob (.bytes bytes)

/-- A value is brought into the form that a stream of the same bytes has in memory. -/
theorem Conveys.coerce {bytes : List UInt8} {kind : Kind} {v : Value} (h : Conveys bytes kind v)
    (path : String) : ∃ w, v.coerce kind path = .ok w ∧ inMemory kind bytes = .ok w ∧
      w.heldBytes = bytes := by
  cases h with
  | text h => exact ⟨.text _, rfl, inMemory_clob h, h⟩
  | @textBytes s h =>
    refine ⟨.text s, ?_, inMemory_clob h, h⟩
    rw [Value.coerce, coerce?, utf8?_eq_some_iff.mpr h]
    rfl
  | bytes => exact ⟨.bytes bytes, rfl, rfl, rfl⟩

theorem spillIfLarge_of_lt {threshold : Nat} (h : threshold < Number.wordMax) (v : Value) :
    v.spillIfLarge threshold = if v.heldBytes.length ≤ threshold then .ok v
      else .ok (.spilled ⟨v.heldBytes, v.heldBytes.length⟩) := by
  unfold spillIfLarge
  split
  · rfl
  · rename_i hlen
    rw [materialize_of_lt h, if_neg hlen]

end Value

/-! ## Delivery -/

namespace Response

variable {σ : Type}

theorem collectLob_fst (r : Response σ) (bind : Bind σ) (path : String) (kind : Kind)
    (threshold : Nat) : (r.collectLob bind path kind threshold).1 =
      (lobValue bind.takeStream.2 path kind threshold bind.takeStream.1 >>= r.put path) := rfl

/-- A response that took over a value at a path. -/
structure TookOver (r : Response σ) (p : Path) (w : Value) (r' : Response σ) : Prop where
  /-- The value is found at a path of fields. -/
  there : .each ∉ p → r'.value.lookup p = some w
  /-- A path through every element of a list is followed up to the list. -/
  front : r'.value.lookup (p.takeWhile (· ≠ .each)) = some w
  /-- What parts from the path is as it was. -/
  elsewhere : ∀ q, Path.Apart p q → r'.value.lookup q = r.value.lookup q
  cursors : r'.cursors = r.cursors

/-- What comes of a value and the text of a path: a response with the value at the path, or the
complaint about a text that is no path. -/
structure Delivered (r : Response σ) (path : String) (w : Value)
    (result : Except CallError (Response σ)) : Prop where
  taken : ∀ p, readPath path = .ok p → ∃ r', result = .ok r' ∧ r.TookOver p w r'
  refused : ∀ e, readPath path = .error e → result = .error e

theorem delivered_put (r : Response σ) (path : String) (w : Value) :
    r.Delivered path w (r.put path w) where
  taken p hp := by
    refine ⟨{ r with value := r.value.set p w }, by rw [put, hp]; rfl, ?_⟩
    exact ⟨fun h => Value.lookup_set_self h _ _, Value.lookup_set_takeWhile _ _ _,
      fun q hq => Value.lookup_update_of_apart hq _, rfl⟩
  refused e he := by rw [put, he]; rfl

/-- **Bytes end up at the path as the same value, whether they come as a stream or as a value.** -/
theorem collectLob_delivery {bytes : List UInt8} {kind : Kind} {v : Value} {threshold : Nat}
    (ht : threshold < Number.wordMax) (hv : Value.Conveys bytes kind v) (r : Response σ)
    (path : String) (capacity capacity' : Option Nat) (before : Value) :
    ∃ w result, Value.Materialized bytes kind threshold (.ok w) ∧ r.Delivered path w result ∧
      (r.collectLob (.output ⟨before, capacity, some (.lob bytes)⟩) path kind threshold).1 =
        result ∧
      (r.collectLob (.output ⟨v, capacity', none⟩) path kind threshold).1 = result := by
  obtain ⟨inline, hcoerce, hmemory, hheld⟩ := hv.coerce path
  have hmat := Value.materialized_of_lt ht bytes kind
  have hstream := Value.materialize_of_lt ht bytes kind
  have hvalue : (v.coerce kind path >>= fun w => w.spillIfLarge threshold) =
      Value.materialize bytes kind threshold := by
    rw [hcoerce, hstream, hmemory]
    show inline.spillIfLarge threshold = _
    rw [Value.spillIfLarge_of_lt ht, hheld]
  obtain ⟨w, hw⟩ : ∃ w, Value.materialize bytes kind threshold = .ok w := by
    rw [hstream, hmemory]
    split <;> exact ⟨_, rfl⟩
  refine ⟨w, r.put path w, hw ▸ hmat, r.delivered_put path w, ?_, ?_⟩
  · rw [collectLob_fst]
    show (Value.materialize bytes kind threshold >>= r.put path) = _
    rw [hw]
    rfl
  · rw [collectLob_fst]
    show ((v.coerce kind path >>= fun w => w.spillIfLarge threshold) >>= r.put path) = _
    rw [hvalue, hw]
    rfl

/-- Three bytes of a file, beyond a threshold of two, below a field of an object that has another
field already. -/
theorem collectLob_delivery_bytes :
    2 < Number.wordMax ∧ Value.Conveys [1, 2, 3] .blob (.bytes [1, 2, 3]) ∧
      readPath "doc.body" = .ok [.field "doc", .field "body"] ∧
      ∃ w result, Value.Materialized [1, 2, 3] .blob 2 (.ok w) ∧
        Response.Delivered (σ := Unit) ⟨.object [("doc", .object [("id", .bool true)])], []⟩
          "doc.body" w result ∧
        (Response.collectLob ⟨.object [("doc", .object [("id", .bool true)])], []⟩
          (.output ⟨.null, none, some (.lob [1, 2, 3])⟩) "doc.body" .blob 2).1 = result ∧
        (Response.collectLob ⟨.object [("doc", .object [("id", .bool true)])], []⟩
          (.output ⟨.bytes [1, 2, 3], none, none⟩) "doc.body" .blob 2).1 = result := by
  have ht : 2 < Number.wordMax := by decide
  exact ⟨ht, .bytes, by decide +kernel, collectLob_delivery ht .bytes _ "doc.body" none none .null⟩

end Response

end StoredCall
