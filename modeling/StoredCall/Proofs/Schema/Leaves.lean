import StoredCall.Proofs.Schema.Consistency
import StoredCall.Proofs.Stub.Wires

/-!
# The leaves of messages

A message is walked through its fields: a field of a message type leads on into that message, and
any other field is a leaf. The leaves of a message are then the scalars of the arguments that it is
made for. Records of one type name share a message that is made for the first of them, so this needs
that such records have the same fields.

* `TypesAgree`: records of one type name have the same fields, by name and outline.
* `pathsOf`: the paths of the scalars in arguments under their names.
* `Schema.HasLeaf`: the leaves that a walk through a message comes to.
* **`Schema.hasLeaf_iff`**: they are at the paths of the arguments that the message is made for.
-/

namespace StoredCall

open Text

/-! ## Arguments of one outline -/

mutual

/-- Two shapes have the same outline: the same fields by name, and tables in the same places. -/
def Shape.Alike : Shape → Shape → Prop
  | .scalar _, .scalar _ => True
  | .record _ fields, .record _ fields' => alikeAll fields fields'
  | .table _ elem _ _, .table _ elem' _ _ => alikeElem elem elem'
  | _, _ => False

/-- Two lists of fields have the same names and outlines. -/
def alikeAll : List Argument → List Argument → Prop
  | [], [] => True
  | ⟨name, _, _, shape⟩ :: rest, b :: rest' =>
    name = b.name ∧ shape.Alike b.shape ∧ alikeAll rest rest'
  | _, _ => False

/-- Two elements of tables have the same outline. -/
def alikeElem : Option Argument → Option Argument → Prop
  | none, none => True
  | some ⟨_, _, _, shape⟩, some b => shape.Alike b.shape
  | _, _ => False

end

theorem alikeAll.map_name : ∀ {as bs : List Argument}, alikeAll as bs →
    as.map Argument.name = bs.map Argument.name
  | [], [], _ => rfl
  | [], _ :: _, h => h.elim
  | ⟨_, _, _, _⟩ :: _, [], h => h.elim
  | ⟨_, _, _, _⟩ :: _, _ :: _, ⟨hname, _, hrest⟩ => by
    rw [List.map_cons, List.map_cons, alikeAll.map_name hrest]
    exact congrArg (· :: _) hname

mutual

/-- Shapes of one outline have their scalars at the same paths. -/
theorem Shape.Alike.map_scalars : ∀ {a b : Shape}, a.Alike b → ∀ path : Path,
    (a.scalars path).map Prod.fst = (b.scalars path).map Prod.fst
  | .scalar _, .scalar _, _, _ => rfl
  | .record _ as, .record _ bs, h, path => by
    have h : alikeAll as bs := h
    rw [Shape.scalars, Shape.scalars, h.map_name]
    exact alikeAll.map_scalars h path _
  | .table _ _ _ _, .table _ _ _ _, h, path => alikeElem.map_scalars h path.elements
  | .scalar _, .record .., h, _ | .scalar _, .table .., h, _ | .record .., .scalar _, h, _
  | .record .., .table .., h, _ | .table .., .scalar _, h, _ | .table .., .record .., h, _ => h.elim

theorem alikeAll.map_scalars : ∀ {as bs : List Argument}, alikeAll as bs → ∀ (path : Path)
    (names : List String),
      (scalarsAll path names as).map Prod.fst = (scalarsAll path names bs).map Prod.fst
  | [], [], _, _, _ => rfl
  | [], _ :: _, h, _, _ => h.elim
  | ⟨_, _, _, _⟩ :: _, [], h, _, _ => h.elim
  | ⟨_, _, _, _⟩ :: _, ⟨_, _, _, _⟩ :: _, ⟨_, hshape, hrest⟩, path, names => by
    rw [scalarsAll, scalarsAll, List.map_append, List.map_append,
      alikeAll.map_scalars hrest path names.tail]
    exact congrArg (· ++ _) (hshape.map_scalars _)

theorem alikeElem.map_scalars : ∀ {a b : Option Argument}, alikeElem a b → ∀ path : Path,
    (scalarsElem path a).map Prod.fst = (scalarsElem path b).map Prod.fst
  | none, none, _, _ => rfl
  | none, some _, h, _ => h.elim
  | some ⟨_, _, _, _⟩, none, h, _ => h.elim
  | some ⟨_, _, _, _⟩, some ⟨_, _, _, _⟩, h, path => Shape.Alike.map_scalars h path

end

/-- Records with one type name have the same fields, by name and outline. -/
def TypesAgree (fs : List Subprogram) : Prop :=
  ∀ a b t as bs, Inside fs a → Inside fs b → a.shape = .record (some t) as →
    b.shape = .record (some t) bs → alikeAll as bs

/-! ## The paths of a message -/

/-- The paths of the scalars in arguments under their names. -/
def pathsOf (args : Named) : List Path :=
  args.flatMap fun x => (x.2.scalars [.field x.1]).map Prod.fst

theorem mem_pathsOf {args : Named} {p : Path} :
    p ∈ pathsOf args ↔ ∃ x ∈ args, p ∈ (x.2.scalars [.field x.1]).map Prod.fst :=
  List.mem_flatMap

theorem scalarsAll_eq_flatMap (path : Path) : ∀ {names : List String} {fields : List Argument},
    names.length = fields.length → scalarsAll path names fields =
      (names.zip fields).flatMap fun x => x.2.scalars (path ++ [.field x.1])
  | _, [], _ => by simp [scalarsAll]
  | [], _ :: _, h => absurd h (by simp)
  | n :: names, f :: rest, h => by
    rw [scalarsAll, List.tail_cons, scalarsAll_eq_flatMap path (Nat.succ.inj h)]
    rfl

/-- The scalars of a record are those of its fields. -/
theorem map_scalarsAll_fieldsOf (path : Path) (fields : List Argument) :
    (scalarsAll path (fieldNames (fields.map Argument.name)) fields).map Prod.fst =
      (pathsOf (fieldsOf fields)).map (path ++ ·) := by
  have hlength : (fieldNames (fields.map Argument.name)).length = fields.length := by
    rw [length_fieldNames, List.length_map]
  have happend : path = path ++ [] := (List.append_nil path).symm
  rw [happend, scalarsAll_append, scalarsAll_eq_flatMap [] hlength, List.append_nil]
  simp [pathsOf, fieldsOf, List.map_flatMap, List.map_map, Function.comp_def]

/-- Fields of the same names and outlines have the same paths. -/
theorem alikeAll.pathsOf_eq {as bs : List Argument} (h : alikeAll as bs) :
    pathsOf (fieldsOf as) = pathsOf (fieldsOf bs) := by
  have ha := map_scalarsAll_fieldsOf [] as
  have hb := map_scalarsAll_fieldsOf [] bs
  simp only [List.nil_append, List.map_id'] at ha hb
  rw [← ha, ← hb, h.map_name]
  exact h.map_scalars [] _

/-! ## Walking through messages -/

/-- The step to a field, or to every element of a repeated one. -/
def fieldPath (name : String) (isRepeated : Bool) : Path :=
  .field name :: if isRepeated then [.each] else []

/-- A walk through a message comes to a leaf at a path. -/
inductive Schema.HasLeaf (s : Schema) : String → Path → Prop where
  | leaf {m : Message} {f : MessageField} : m ∈ s.messages → f ∈ m.fields →
      (∀ n, f.type ≠ .message n) → HasLeaf s m.name (fieldPath f.name f.isRepeated)
  | inside {m : Message} {f : MessageField} {n : String} {p : Path} : m ∈ s.messages →
      f ∈ m.fields → f.type = .message n → HasLeaf s n p →
        HasLeaf s m.name (fieldPath f.name f.isRepeated ++ p)

namespace Argument

variable {a : Argument}

/-- An argument that holds scalars has one path. -/
theorem map_scalars_of_scalar {s : Scalar} (h : a.shape.item = .scalar s) (n : String) :
    (a.scalars [.field n]).map Prod.fst = [fieldPath n a.shape.isTable] := by
  obtain ⟨_, _, _, shape⟩ := a
  match shape, h with
  | .scalar _, _ => rfl
  | .table _ (some ⟨_, _, _, .scalar _⟩) _ _, _ => rfl

/-- An argument that holds records has the paths of their fields. -/
theorem map_scalars_of_record {t : Option String} {fields : List Argument}
    (h : a.shape.item = .record t fields) (n : String) : (a.scalars [.field n]).map Prod.fst =
      (pathsOf (fieldsOf fields)).map (fieldPath n a.shape.isTable ++ ·) := by
  obtain ⟨_, _, _, shape⟩ := a
  match shape, h with
  | .record _ _, rfl => exact map_scalarsAll_fieldsOf [.field n] fields
  | .table _ (some ⟨_, _, _, .record _ _⟩) _ _, rfl =>
    exact map_scalarsAll_fieldsOf [.field n, .each] fields

end Argument

namespace Emission.Sound

variable {fs : List Subprogram} {layout : Purposes} {e : Emission} {s : Schema}

/-- The message of a record has its paths, whichever record of the type it is made for. -/
theorem exists_pathsOf (hs : e.Sound (Purpose.Of fs) layout [] []) (hagree : TypesAgree fs)
    {a : Argument} (ha : Inside fs a) {t : Option String} {fields : List Argument}
    (hitem : a.shape.item = .record t fields) {type : FieldType}
    (hshows : Shows layout (.record t fields) type) :
    ∃ n p, type = .message n ∧ (n, p) ∈ layout ∧
      pathsOf p.args = pathsOf (fieldsOf fields) := by
  cases t with
  | none =>
    obtain ⟨n, htype, hmem⟩ := hshows
    exact ⟨n, _, htype, hmem, rfl⟩
  | some t =>
    obtain ⟨n, fields', htype, hmem⟩ := hshows
    obtain ⟨b, hb, hshape⟩ := hs.holds _ hmem
    obtain ⟨c, hc, hcshape⟩ := ha.record hitem
    exact ⟨n, _, htype, hmem, (hagree b c t fields' fields hb hc hshape hcshape).pathsOf_eq⟩

/-- Every leaf of a message is a scalar of what the message is made for. -/
theorem mem_pathsOf_of_hasLeaf
    (hs : e.Sound (Purpose.Of (fs.filter Subprogram.isExpressible)) layout [] [])
    (hagree : TypesAgree (fs.filter Subprogram.isExpressible)) (hmessages : s.messages = e.messages)
    {n : String} {p : Path} (h : s.HasLeaf n p) {purpose : Purpose}
    (hmem : (n, purpose) ∈ layout) : p ∈ pathsOf purpose.args := by
  induction h generalizing purpose with
  | @leaf m f hm hf hne =>
    obtain ⟨y, hy, hstands⟩ :=
      exists_of_forall₂ (hs.laid_of_mem (hmessages ▸ hm) hmem).stands.flip hf
    have hshows := hstands.shows
    refine mem_pathsOf.mpr ⟨y, hy, ?_⟩
    cases hitem : y.2.shape.item with
    | scalar _ =>
      rw [Argument.map_scalars_of_scalar hitem, hstands.name, hstands.isRepeated]
      exact List.mem_singleton_self _
    | record t fields =>
      rw [hitem] at hshows
      obtain ⟨n, _, htype, -⟩ :=
        hs.exists_pathsOf hagree ((hs.holds _ hmem).inside y hy) hitem hshows
      exact absurd htype (hne n)
    | other => exact absurd hitem ((hs.holds _ hmem).inside y hy).expressed.item_ne
  | @inside m f n q hm hf htype _ ih =>
    obtain ⟨y, hy, hstands⟩ :=
      exists_of_forall₂ (hs.laid_of_mem (hmessages ▸ hm) hmem).stands.flip hf
    have hshows := hstands.shows
    refine mem_pathsOf.mpr ⟨y, hy, ?_⟩
    cases hitem : y.2.shape.item with
    | scalar _ =>
      rw [hitem, htype] at hshows
      cases hshows
    | record t fields =>
      rw [hitem] at hshows
      obtain ⟨n', _, htype', hmem', hpaths⟩ :=
        hs.exists_pathsOf hagree ((hs.holds _ hmem).inside y hy) hitem hshows
      obtain rfl : n = n' := FieldType.message.inj (htype.symm.trans htype')
      rw [Argument.map_scalars_of_record hitem, hstands.name, hstands.isRepeated, ← hpaths]
      exact List.mem_map_of_mem (ih hmem')
    | other => exact absurd hitem ((hs.holds _ hmem).inside y hy).expressed.item_ne

/-- Every scalar of what a message is made for is one of its leaves. The walk gets shorter with each
message it goes into. -/
theorem hasLeaf_of_mem_pathsOf
    (hs : e.Sound (Purpose.Of (fs.filter Subprogram.isExpressible)) layout [] [])
    (hagree : TypesAgree (fs.filter Subprogram.isExpressible)) (hmessages : s.messages = e.messages)
    {n : String} {purpose : Purpose} (hmem : (n, purpose) ∈ layout) {p : Path}
    (hp : p ∈ pathsOf purpose.args) : s.HasLeaf n p := by
  obtain ⟨y, hy, hp⟩ := mem_pathsOf.mp hp
  obtain ⟨m, hm, rfl, f, hf, hstands⟩ := hs.exists_stands hmem hy
  have hm' : m ∈ s.messages := hmessages ▸ hm
  have hshows := hstands.shows
  cases hitem : y.2.shape.item with
  | scalar _ =>
    rw [hitem] at hshows
    rw [Argument.map_scalars_of_scalar hitem, List.mem_singleton] at hp
    rw [hp, ← hstands.name, ← hstands.isRepeated]
    exact .leaf hm' hf fun n hn => by rw [hn] at hshows; cases hshows
  | record t fields =>
    rw [hitem] at hshows
    obtain ⟨n, _, htype, hmem', hpaths⟩ :=
      hs.exists_pathsOf hagree ((hs.holds _ hmem).inside y hy) hitem hshows
    rw [Argument.map_scalars_of_record hitem, ← hpaths] at hp
    obtain ⟨q, hq, hpq⟩ := List.mem_map.mp hp
    have hshorter : q.length < p.length := by
      rw [← hpq, List.length_append, fieldPath, List.length_cons]
      omega
    rw [← hpq, ← hstands.name, ← hstands.isRepeated]
    exact .inside hm' hf htype (hasLeaf_of_mem_pathsOf hs hagree hmessages hmem' hq)
  | other => exact absurd hitem ((hs.holds _ hmem).inside y hy).expressed.item_ne
termination_by p.length

end Emission.Sound

/-- **The leaves of a message** are the scalars of what it is made for. -/
theorem Schema.hasLeaf_iff {fs : List Subprogram} {layout : Purposes} {e : Emission} {s : Schema}
    (hs : e.Sound (Purpose.Of (fs.filter Subprogram.isExpressible)) layout [] [])
    (hagree : TypesAgree (fs.filter Subprogram.isExpressible)) (hmessages : s.messages = e.messages)
    {n : String} {purpose : Purpose} (hmem : (n, purpose) ∈ layout) {p : Path} :
    s.HasLeaf n p ↔ p ∈ pathsOf purpose.args :=
  ⟨fun h => hs.mem_pathsOf_of_hasLeaf hagree hmessages h hmem,
    hs.hasLeaf_of_mem_pathsOf hagree hmessages hmem⟩

end StoredCall
