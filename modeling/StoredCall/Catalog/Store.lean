import StoredCall.Assoc
import StoredCall.Catalog

/-!
# A catalog in memory

A store holds types and tables, put in one by one or read from an extract, and answers as a
catalog. Types are kept in the order in which their keys came in; a later definition under the same
key takes the place of an earlier one.

* `Store.ofTypeRows` (`with_type_rows`) reads types and tables from rows.
* `Store.catalog` is the store as a catalog, whose queries never fail.
-/

namespace StoredCall

open Text

/-- What a store knows about a type. -/
inductive Definition where
  | record (attributes : List Attribute)
  | object (attributes : List Attribute)
  | sealed
  | collection (elem : Attribute) (indexBy : Option String)
  deriving DecidableEq, Repr

/-- The attributes or the element of a type. -/
def Definition.parts : Definition → List Attribute
  | .record as | .object as => as
  | .sealed => []
  | .collection elem _ => [elem]

/-- A catalog in memory. -/
structure Store where
  owner : String
  /-- The types by their keys. -/
  types : List (String × Definition) := []
  /-- The names under which the types came in, in the same order. -/
  names : List QName := []
  tables : List (String × List Attribute) := []
  arguments : List ArgRow := []

namespace Store

/-- The store of an owner, with nothing in it. -/
def empty (owner : String) : Store where
  owner := upper owner

/-- Puts in a type. -/
def insert (s : Store) (q : QName) (d : Definition) : Store :=
  { s with
    types := Assoc.put q.key d s.types
    names := if s.types.any (fun e => e.1 = q.key) then s.names else s.names ++ [q] }

/-- The key of the table that a name stands for. -/
def tableKey (q : QName) : String := (QName.ofType q.owner none q.name).key

/-- Puts in a table. -/
def insertTable (s : Store) (owner table : String) (columns : List Attribute) : Store :=
  { s with tables := Assoc.put (QName.ofType owner none table).key columns s.tables }

/-! ## Rows -/

/-- Rows without a position come first. -/
def positionLe : Option UInt32 → Option UInt32 → Bool
  | none, _ => true
  | some _, none => false
  | some a, some b => a ≤ b

/-- Puts in the type that a group of rows is about. -/
def insertRows (s : Store) (q : QName) (rows : List TypeRow) : Except Error Store :=
  let rows := rows.mergeSort fun a b => positionLe a.position b.position
  let attributes := (rows.filter TypeRow.hasAttribute).map (TypeRow.attr · s.owner)
  match rows with
  | [] => .ok s
  | first :: _ =>
    match upper first.typecode with
    | "RECORD" => .ok (s.insert q (.record attributes))
    | "OBJECT" => .ok (s.insert q (.object attributes))
    | "OPAQUE" => .ok (s.insert q .sealed)
    | "TABLE" => .ok (s.insertTable q.owner q.name attributes)
    | "COLLECTION" =>
      match attributes with
      | [elem] =>
        let indexBy := if first.indexBy = "" then none else some first.indexBy
        .ok (s.insert q (.collection elem indexBy))
      | _ => .error (.inconsistent (.elementRows q.key attributes.length))
    | code => .error (.inconsistent (.unknownTypecode q.key code))

/-- The rows of each type, types and rows in the order they come. -/
def groupRows (owner : String) (rows : List TypeRow) : List (String × List TypeRow) :=
  Assoc.group (fun r => (r.qname owner).key) rows

/-- Puts in the types that rows are about. -/
def insertGroups (s : Store) : List (String × List TypeRow) → Except Error Store
  | [] => .ok s
  | (_, []) :: rest => insertGroups s rest
  | (_, first :: rows) :: rest => do
    insertGroups (← s.insertRows (first.qname s.owner) (first :: rows)) rest

/-- Puts in the types of an extract. -/
def insertTypeRows (s : Store) (rows : List TypeRow) : Except Error Store :=
  s.insertGroups (groupRows s.owner rows)

/-! ## Answers -/

/-- What the store knows about a name; the row of a table is no type of its own. -/
def definition? (s : Store) (q : QName) : Option Definition :=
  if q.isRow then none else Assoc.get? q.key s.types

/-- The columns of the table that a name stands for. -/
def table? (s : Store) (q : QName) : Option (List Attribute) :=
  Assoc.get? (tableKey q) s.tables

/-- What kind of type a name stands for. -/
def classOf (s : Store) (q : QName) : Option TypeClass :=
  if q.isRow then (s.table? q).map fun _ => .table
  else (s.definition? q).map fun
    | .record _ => .record
    | .object _ => .object
    | .sealed => .sealed
    | .collection _ indexBy => .collection indexBy

/-- The attributes of a record or object. -/
def attributesOf (s : Store) (q : QName) : List Attribute :=
  match s.definition? q with
  | some (.record as) | some (.object as) => as
  | _ => []

/-- The element of a collection. -/
def elementOf (s : Store) (q : QName) : Option Attribute :=
  match s.definition? q with
  | some (.collection elem _) => some elem
  | _ => none

/-- The rows of arguments of the given packages, or of all when none are given. -/
def argumentsOf (s : Store) (packages : List String) : List ArgRow :=
  s.arguments.filter fun r =>
    packages.isEmpty || packages.any fun p => upper p = upper r.package

/-- The keys that types and tables refer to. -/
def mentioned (s : Store) : List String :=
  (s.types.flatMap (fun e => e.2.parts) ++ s.tables.flatMap (fun e => e.2)).filterMap
    Attribute.key?

theorem mem_mentioned_of_definition {s : Store} {q : QName} {d : Definition} {a : Attribute}
    {k : String} (hd : s.definition? q = some d) (ha : a ∈ d.parts) (hk : a.key? = some k) :
    k ∈ s.mentioned := by
  unfold definition? at hd
  split at hd
  · simp at hd
  · refine List.mem_filterMap.2 ⟨a, List.mem_append_left _ ?_, hk⟩
    exact List.mem_flatMap.2 ⟨_, Assoc.mem_of_get? hd, ha⟩

theorem mem_mentioned_of_table {s : Store} {q : QName} {as : List Attribute} {a : Attribute}
    {k : String} (ht : s.table? q = some as) (ha : a ∈ as) (hk : a.key? = some k) :
    k ∈ s.mentioned :=
  List.mem_filterMap.2
    ⟨a, List.mem_append_right _ (List.mem_flatMap.2 ⟨_, Assoc.mem_of_get? ht, ha⟩), hk⟩

/-- The store as a catalog. -/
def catalog (s : Store) : Catalog where
  owner := s.owner
  typeNames := .ok s.names
  classify q := .ok (s.classOf q)
  attributes q := .ok (s.attributesOf q)
  element q := .ok (s.elementOf q)
  columns q := .ok ((s.table? q).getD [])
  mentioned := s.mentioned
  attributes_mentioned := by
    rintro q as a k h ha hk
    simp only [Except.ok.injEq] at h
    subst h
    unfold attributesOf at ha
    split at ha
    · next hd => exact mem_mentioned_of_definition hd ha hk
    · next hd => exact mem_mentioned_of_definition hd ha hk
    · simp at ha
  element_mentioned := by
    rintro q a k h hk
    simp only [Except.ok.injEq] at h
    unfold elementOf at h
    split at h
    · next hd =>
      simp only [Option.some.injEq] at h
      subst h
      exact mem_mentioned_of_definition hd (by simp [Definition.parts]) hk
    · simp at h
  columns_mentioned := by
    rintro q as a k h ha hk
    simp only [Except.ok.injEq] at h
    subst h
    cases ht : s.table? q with
    | none => simp [ht] at ha
    | some as => exact mem_mentioned_of_table ht (by simpa [ht] using ha) hk

end Store

end StoredCall
