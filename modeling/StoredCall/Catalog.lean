import StoredCall.Catalog.Row

/-!
# The catalog

What a database says about its named types. A catalog answers a handful of queries, always in the
same way, and each query may fail instead.

* `TypeClass` is what kind of type a name stands for.
* `Catalog` is the answers to `classify`, `record_attributes`, `collection_element`,
  `rowtype_columns` and `type_names`. It also lists the keys that any of its answers refer to: a
  type is reached from another only through such a key, so that resolution comes to an end.
* `Catalog.failing` is the same catalog with some of its queries failing.
-/

namespace StoredCall

/-- What kind of type a name stands for. -/
inductive TypeClass where
  | record
  /-- A collection, with the type of its index as the catalog writes it. -/
  | collection (indexBy : Option String)
  | table
  /-- A type whose inside the catalog does not show. -/
  | sealed
  /-- An object type, which may turn out to have attributes, an element or columns. -/
  | object
  deriving DecidableEq, Repr

/-- The answers of a catalog. -/
structure Catalog where
  /-- The owner of names without one. -/
  owner : String
  /-- The names of all types. -/
  typeNames : Except Error (List QName)
  /-- What kind of type a name stands for, if any. -/
  classify : QName → Except Error (Option TypeClass)
  /-- The attributes of a record or object. -/
  attributes : QName → Except Error (List Attribute)
  /-- The element of a collection. -/
  element : QName → Except Error (Option Attribute)
  /-- The columns of a table. -/
  columns : QName → Except Error (List Attribute)
  /-- The keys that answers refer to. -/
  mentioned : List String
  attributes_mentioned : ∀ {q as a k},
    attributes q = .ok as → a ∈ as → a.key? = some k → k ∈ mentioned
  element_mentioned : ∀ {q a k}, element q = .ok (some a) → a.key? = some k → k ∈ mentioned
  columns_mentioned : ∀ {q as a k},
    columns q = .ok as → a ∈ as → a.key? = some k → k ∈ mentioned

/-- The queries that can be asked about a name. -/
inductive Query where
  | classify | attributes | element | columns
  deriving DecidableEq, Repr

/-- The word for a query. -/
def Query.word : Query → String
  | .classify => "classify"
  | .attributes => "attributes"
  | .element => "element"
  | .columns => "columns"

/-- The text of a query about a name. -/
def Query.text (query : Query) (q : QName) : String :=
  query.word ++ " " ++ q.key

/-- The text of the query for all names. -/
def allNamesQuery : String := "type_names *"

/-- An answer, unless the query is among those that fail. -/
def answerUnless {α : Type} (fail : List String) (query : String) (answer : Except Error α) :
    Except Error α :=
  if fail.contains query then .error (.query query) else answer

theorem answerUnless_ok {α : Type} {fail : List String} {query : String}
    {answer : Except Error α} {a : α} (h : answerUnless fail query answer = .ok a) :
    answer = .ok a := by
  unfold answerUnless at h
  split at h
  · exact absurd h (by simp)
  · exact h

/-- The same catalog, with the queries of the given texts failing. -/
def Catalog.failing (c : Catalog) (fail : List String) : Catalog where
  owner := c.owner
  typeNames := answerUnless fail allNamesQuery c.typeNames
  classify q := answerUnless fail (Query.classify.text q) (c.classify q)
  attributes q := answerUnless fail (Query.attributes.text q) (c.attributes q)
  element q := answerUnless fail (Query.element.text q) (c.element q)
  columns q := answerUnless fail (Query.columns.text q) (c.columns q)
  mentioned := c.mentioned
  attributes_mentioned h := c.attributes_mentioned (answerUnless_ok h)
  element_mentioned h := c.element_mentioned (answerUnless_ok h)
  columns_mentioned h := c.columns_mentioned (answerUnless_ok h)

end StoredCall
