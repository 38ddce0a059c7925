import StoredCall.Call

/-!
# Scripted databases

A database that does as it is told, for trying out calls without a real one. It counts and notes
what it is asked, fails where the script says so, and otherwise hands out the script's rows and
values.

* `ScriptedRows` is a cursor over rows in memory.
* `Put` is something written into an output box, `Script` a list of them.
* `Script.executor` is the database, which notes the last block it was given.
-/

namespace StoredCall

/-! ## Rows -/

/-- A cursor over rows in memory, and how often it has been asked. -/
structure ScriptedRows where
  rows : List (List Value)
  /-- How many rows it hands out at most, whatever is asked for. -/
  chunk : Option Nat := none
  /-- The fetch that fails, counted from 1. -/
  failFetch : Option Nat := none
  failClose : Bool := false
  fetches : Nat := 0
  closes : Nat := 0

namespace ScriptedRows

/-- How many rows are handed out when `n` are asked for and there are as many. -/
def size (s : ScriptedRows) (n : Nat) : Nat := min n (s.chunk.getD n)

/-- Hands out the next rows. -/
def fetch (s : ScriptedRows) (n : Nat) : Except CallError (List (List Value)) × ScriptedRows :=
  let asked := { s with fetches := s.fetches + 1 }
  if s.failFetch = some asked.fetches then (.error .driver, asked)
  else (.ok (s.rows.take (s.size n)), { asked with rows := s.rows.drop (s.size n) })

/-- Counts a close. -/
def close (s : ScriptedRows) : Except CallError Unit × ScriptedRows :=
  (if s.failClose then .error .driver else .ok (), { s with closes := s.closes + 1 })

theorem length_rows_fetch {s : ScriptedRows} {n : Nat} {rows : List (List Value)}
    (h : (s.fetch n).1 = .ok rows) (hne : rows ≠ []) :
    (s.fetch n).2.rows.length < s.rows.length := by
  unfold fetch at h ⊢
  by_cases hf : s.failFetch = some (s.fetches + 1)
  · simp [hf] at h
  · simp only [hf, if_false, Except.ok.injEq] at h ⊢
    subst h
    have hpos : s.size n ≠ 0 ∧ s.rows ≠ [] := by simpa [List.take_eq_nil_iff] using hne
    have hlen := List.length_pos_iff.2 hpos.2
    simp only [List.length_drop]
    omega

instance : FiniteRows ScriptedRows where
  fetch := fetch
  close := close
  remaining s := s.rows.length
  remaining_fetch := length_rows_fetch

end ScriptedRows

/-! ## Databases -/

/-- Something that is written into an output box. -/
inductive Put where
  | value (v : Value)
  | cursor (rows : ScriptedRows)
  | lob (bytes : List UInt8)

/-- Writes into a box. A stream leaves the value as it is. -/
def Put.into (p : Put) (box : OutBox ScriptedRows) : OutBox ScriptedRows :=
  match p with
  | .value v => { box with value := v }
  | .cursor rows => { box with stream := some (.cursor rows) }
  | .lob bytes => { box with stream := some (.lob bytes) }

/-- Writes into the bind of an index, which must be an output. -/
def putInto (binds : List (Bind ScriptedRows)) (index : Nat) (p : Put) :
    Except CallError (List (Bind ScriptedRows)) :=
  match binds[index]? with
  | some (.output box) => .ok (binds.set index (.output (p.into box)))
  | _ => .error (.bind index .notOutput)

/-- What a database is to do with a block. -/
structure Script where
  fail : Bool := false
  /-- What it writes into the binds of the given indices, in order. -/
  puts : List (Nat × Put) := []

/-- What a database has been given. -/
structure Executed where
  block : String
  binds : List (Bind ScriptedRows)
  hasDeadline : Bool

namespace Script

/-- What the script writes into the box of an index. -/
def writes (s : Script) : Writes ScriptedRows := fun index box =>
  s.puts.foldl (fun box (i, p) => if i = index then p.into box else box) box

/-- What comes of a block with the given binds. -/
def outcome (s : Script) (binds : List (Bind ScriptedRows)) :
    Except CallError (Writes ScriptedRows) :=
  if s.fail then .error .driver
  else do
    let _ ← s.puts.foldlM (fun binds (i, p) => putInto binds i p) binds
    return s.writes

/-- The database of a script. -/
def executor (s : Script) : Executor (Option Executed) ScriptedRows where
  execute block binds hasDeadline _ := (s.outcome binds, some { block, binds, hasDeadline })

end Script

end StoredCall
