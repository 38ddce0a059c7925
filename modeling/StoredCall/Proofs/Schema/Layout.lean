import StoredCall.Proofs.Assoc
import StoredCall.Proofs.Program
import StoredCall.Proofs.Schema.Text
import StoredCall.Proofs.Text.Distinct
import StoredCall.Schema.OfSubprograms

/-!
# What messages are made for

A message is made for the request or the response of a subprogram, or for a record. While the
fields of a message are made, other messages are made for the records inside them; a name that is
given out has its message only later, and until then it is open. Likewise a type that was chosen for
a field is pending until the field's message is there.

* `Purpose` is what a message is made for, and `Purposes` say so for each name.
* `Stands layout x f`: the field `f` stands for the argument `x`.
* `Emission.Sound`: what holds while messages are made, with some names open and some types pending.
* `Argument.comes_wire`: making a field keeps an emission sound, and the field stands for its
  argument.
* `Subprogram.comes_wire`: so does making a call.
-/

namespace StoredCall

open Text

/-! ## Fields and arguments -/

/-- What a field holds, one of it or many. -/
inductive Item where
  | scalar (s : Scalar)
  | record (typeName : Option String) (fields : List Argument)
  /-- Neither a scalar nor a record. -/
  | other

/-- The element of a table as what a field holds. -/
def Argument.element (elem : Argument) : Item :=
  match elem.shape with
  | .scalar s => .scalar s
  | .record typeName fields => .record typeName fields
  | .table .. => .other

/-- What a field of a shape holds. -/
def Shape.item : Shape → Item
  | .scalar s => .scalar s
  | .record typeName fields => .record typeName fields
  | .table _ none _ _ => .other
  | .table _ (some elem) _ _ => elem.element

/-- A table, read row by row or not. -/
def Shape.isTable : Shape → Bool
  | .table .. => true
  | .scalar _ | .record .. => false

/-- The fields of a record under their names. -/
def fieldsOf (fields : List Argument) : Named :=
  (fieldNames (fields.map Argument.name)).zip fields

theorem map_fst_fieldsOf (fields : List Argument) :
    (fieldsOf fields).map Prod.fst = fieldNames (fields.map Argument.name) := by
  refine List.map_fst_zip ?_
  rw [length_fieldNames, List.length_map]

theorem nodup_fieldsOf (fields : List Argument) : ((fieldsOf fields).map Prod.fst).Nodup := by
  rw [map_fst_fieldsOf]
  exact nodup_fieldNames _

namespace Subprogram

theorem nodup_requestFields (f : Subprogram) : (f.requestFields.map Prod.fst).Nodup := by
  refine f.nodup_argFields.sublist (List.Sublist.trans (List.filter_sublist.map Prod.fst) ?_)
  rw [List.map_fst_zip (by rw [f.length_argFields])]

theorem nodup_responseFields (f : Subprogram) : (f.responseFields.map Prod.fst).Nodup := by
  have hargs : (((f.argFields.zip f.args).filter fun x => x.2.direction.isOutput).map
      Prod.fst).Sublist f.argFields := by
    refine List.Sublist.trans (List.filter_sublist.map Prod.fst) ?_
    rw [List.map_fst_zip (by rw [f.length_argFields])]
  unfold responseFields
  rw [List.map_append, List.nodup_append]
  refine ⟨?_, f.nodup_argFields.sublist hargs, ?_⟩
  · cases f.retField <;> cases f.returns <;> simp
  · rintro n hn m hm rfl
    obtain ⟨x, hx, rfl⟩ := List.mem_map.mp hn
    exact retField_notMem (Option.mem_toList.mp (List.of_mem_zip hx).1) (hargs.subset hm)

theorem arg_of_mem_requestFields {f : Subprogram} {x : String × Argument}
    (h : x ∈ f.requestFields) : x.2 ∈ f.args ++ f.returns.toList :=
  List.mem_append_left _ (List.of_mem_zip (List.mem_filter.mp h).1).2

theorem arg_of_mem_responseFields {f : Subprogram} {x : String × Argument}
    (h : x ∈ f.responseFields) : x.2 ∈ f.args ++ f.returns.toList := by
  rcases List.mem_append.mp h with h | h
  · exact List.mem_append_right _ (List.of_mem_zip h).2
  · exact List.mem_append_left _ (List.of_mem_zip (List.mem_filter.mp h).1).2

end Subprogram

/-! ## Purposes -/

/-- What a message is made for. -/
inductive Purpose where
  | request (f : Subprogram)
  | response (f : Subprogram)
  | record (typeName : Option String) (fields : List Argument)
  /-- The name is kept for the service, and no message has it. -/
  | service

namespace Purpose

/-- The arguments that a message has fields for. -/
def args : Purpose → Named
  | request f => f.requestFields
  | response f => f.responseFields
  | record _ fields => fieldsOf fields
  | service => []

theorem nodup_args (p : Purpose) : (p.args.map Prod.fst).Nodup := by
  cases p with
  | request f => exact f.nodup_requestFields
  | response f => exact f.nodup_responseFields
  | record t fields => exact nodup_fieldsOf fields
  | service => exact List.nodup_nil

/-- The message of a record, and not of a call. -/
def IsRecord (p : Purpose) : Prop := ∃ t fields, p = record t fields

end Purpose

/-- What the messages of some names are made for. -/
abbrev Purposes := List (String × Purpose)

/-- More messages are made, all of them for records. -/
structure Purposes.Grow (layout layout' : Purposes) : Prop where
  subset : layout ⊆ layout'
  records : ∀ x ∈ layout', x ∈ layout ∨ x.2.IsRecord

namespace Purposes.Grow

variable {layout layout' layout'' : Purposes}

theorem refl (layout : Purposes) : layout.Grow layout := ⟨List.Subset.refl _, fun _ => .inl⟩

theorem trans (h : layout.Grow layout') (h' : layout'.Grow layout'') : layout.Grow layout'' :=
  ⟨List.Subset.trans h.subset h'.subset, fun x hx =>
    (h'.records x hx).elim (h.records x) .inr⟩

theorem of_cons {name : String} {p : Purpose} (h : Grow ((name, p) :: layout) layout')
    (hp : p.IsRecord) : layout.Grow layout' := by
  refine ⟨List.subset_of_cons_subset h.subset, fun x hx => ?_⟩
  rcases h.records x hx with hx | hrecord
  · rcases List.mem_cons.mp hx with rfl | hx
    · exact .inr hp
    · exact .inl hx
  · exact .inr hrecord

end Purposes.Grow

/-- The type of a field for what it holds. All records of a named type have one message, any other
record has a message that is made for it. -/
def Shows (layout : Purposes) : Item → FieldType → Prop
  | .scalar s, type => type = .scalar s.wire
  | .record (some t) _, type =>
    ∃ name fields, type = .message name ∧ (name, .record (some t) fields) ∈ layout
  | .record none fields, type => ∃ name, type = .message name ∧ (name, .record none fields) ∈ layout
  | .other, type => type = .unspecified

/-- A field of a message stands for an argument under a name. -/
structure Stands (layout : Purposes) (x : String × Argument) (f : MessageField) : Prop where
  name : f.name = x.1
  isRepeated : f.isRepeated = x.2.shape.isTable
  shows : Shows layout x.2.shape.item f.type

theorem Shows.mono {layout layout' : Purposes} {item : Item} {type : FieldType}
    (h : Shows layout item type) (hlayout : layout ⊆ layout') : Shows layout' item type := by
  match item, h with
  | .scalar s, h => exact h
  | .record (some t) _, ⟨name, fields, htype, hname⟩ => exact ⟨name, fields, htype, hlayout hname⟩
  | .record none fields, ⟨name, htype, hname⟩ => exact ⟨name, htype, hlayout hname⟩
  | .other, h => exact h

/-- A field with the type of a message holds a record that the message is made for. -/
theorem Shows.of_message {layout : Purposes} {item : Item} {n : String}
    (h : Shows layout item (.message n)) : ∃ t fields fields', item = .record t fields ∧
      (n, .record t fields') ∈ layout := by
  match item, h with
  | .record (some t) fields, ⟨_, fields', rfl, hmem⟩ => exact ⟨_, fields, fields', rfl, hmem⟩
  | .record none fields, ⟨_, rfl, hmem⟩ => exact ⟨_, fields, fields, rfl, hmem⟩

/-- Fields stand for arguments in turn and are numbered from `number` on. -/
structure LayOut (layout : Purposes) (number : Nat) (args : Named) (fields : List MessageField) :
    Prop where
  stands : List.Forall₂ (Stands layout) args fields
  numbered : fields.map MessageField.number = List.range' number fields.length

namespace LayOut

variable {layout layout' : Purposes} {number : Nat} {args : Named} {fields : List MessageField}

theorem mono (h : LayOut layout number args fields) (hlayout : layout ⊆ layout') :
    LayOut layout' number args fields :=
  ⟨h.stands.imp fun _ _ hs => ⟨hs.name, hs.isRepeated, hs.shows.mono hlayout⟩, h.numbered⟩

theorem map_name (h : LayOut layout number args fields) :
    fields.map MessageField.name = args.map Prod.fst := by
  have hstands := h.stands
  clear h
  induction hstands with
  | nil => rfl
  | cons hfirst _ ih => rw [List.map_cons, List.map_cons, hfirst.name, ih]

end LayOut

/-! ## Names of messages -/

theorem startsTall_pascalWords : ∀ cs : List Char, StartsTall (pascalWords true cs)
  | [] => fun _ h => by cases h
  | d :: cs => by
    rw [pascalWords]
    split
    · exact startsTall_pascalWords cs
    · rintro c ⟨⟩
      exact Char.isLower_toUpper_eq_false d

theorem startsTall_pascal (s : String) : StartsTall (pascal s).toList := by
  unfold pascal
  split
  · next hpascal =>
    intro c hc
    rw [isPascal, hc, Option.map_some, Option.getD_some, Bool.and_eq_true, Bool.and_eq_true]
      at hpascal
    have hupper := hpascal.1.1
    simp [Char.isUpper, Char.isLower, UInt32.le_iff_toNat_le] at hupper ⊢
    omega
  · rw [String.toList_ofList]
    exact startsTall_pascalWords _

theorem startsTall_toString (n : Nat) : StartsTall (toString n).toList := by
  intro c hc
  have hdigit : c.isDigit = true := by
    rw [Nat.toString_eq_repr, Nat.toList_repr] at hc
    exact Nat.isDigit_of_mem_toDigits (by decide) (by decide) (List.mem_of_mem_head? hc)
  simp [Char.isDigit, Char.isLower, UInt32.le_iff_toNat_le] at hdigit ⊢
  omega

/-- A number at the end does not change that. -/
theorem startsTall_freshNameWith (used : List String) (base : String) :
    StartsTall (freshNameWith "" used (pascal base)).toList := by
  rcases freshNameWith_cases "" used (pascal base) with hname | ⟨n, hname⟩
  · rw [hname]
    exact startsTall_pascal base
  · rw [hname, String.append_empty, String.toList_append]
    cases hbase : (pascal base).toList with
    | nil => exact startsTall_toString n
    | cons c cs =>
      rintro d ⟨⟩
      exact startsTall_pascal base c (by rw [hbase]; rfl)

/-! ## Sound emissions -/

/-- The types of the fields that are in a message. -/
def Emission.types (e : Emission) : List FieldType :=
  e.messages.flatMap fun m => m.fields.map MessageField.type

/-- What holds while the messages of `opened` are being made, with the types of `pending` given to
fields that are in no message yet. What messages are made for satisfies `Q`. -/
structure Emission.Sound (Q : Purpose → Prop) (layout : Purposes) (opened : List String)
    (pending : List FieldType) (e : Emission) : Prop where
  used : e.used = layout.map Prod.fst
  nodup : e.used.Nodup
  /-- A name that was given out is open, or there is one message of this name. -/
  names : (opened ++ e.messages.map Message.name).Perm e.used
  /-- No message is called like a type of scalars, which begin with small letters. -/
  told : ∀ n ∈ e.used, StartsTall n.toList
  holds : ∀ x ∈ layout, Q x.2
  laid : ∀ m ∈ e.messages, ∃ p, (m.name, p) ∈ layout ∧ LayOut layout 1 p.args m.fields
  /-- A message is recorded for a named type just when it is made for a record of this type. -/
  recorded : ∀ {t n}, Assoc.get? t e.records = some n ↔
    ∃ fields, (n, .record (some t) fields) ∈ layout
  /-- The message of a record is open, or the type of some field. -/
  applied : ∀ {n p}, (n, p) ∈ layout → p.IsRecord →
    n ∈ opened ∨ .message n ∈ pending ++ e.types
  /-- A timestamp is noted just when some field is one. -/
  timestamp : e.timestamp = true ↔ .scalar .timestamp ∈ pending ++ e.types

namespace Emission

variable {Q : Purpose → Prop} {layout : Purposes} {opened : List String} {pending : List FieldType}
  {e : Emission}

theorem sound_empty (Q : Purpose → Prop) : Sound Q [] [] [] {} where
  used := rfl
  nodup := List.nodup_nil
  names := List.Perm.nil
  told := by simp
  holds := by simp
  laid := by simp
  recorded := by simp [Assoc.get?]
  applied := by simp
  timestamp := by simp [types]

namespace Sound

theorem name_mem_used (hs : e.Sound Q layout opened pending) {n : String} {p : Purpose}
    (h : (n, p) ∈ layout) : n ∈ e.used := by
  rw [hs.used]
  exact List.mem_map_of_mem h

/-- A name is given out for one purpose. -/
theorem purpose_unique (hs : e.Sound Q layout opened pending) {n : String} {p q : Purpose}
    (hp : (n, p) ∈ layout) (hq : (n, q) ∈ layout) : p = q := by
  have hkeyed : (layout.map Prod.fst).Nodup := hs.used ▸ hs.nodup
  exact congrArg Prod.snd (List.inj_on_of_nodup_map hkeyed hp hq rfl)

/-- Opening a message, which is recorded if it is made for a record of a named type. -/
theorem push (hs : e.Sound Q layout opened pending) {name : String} (hname : name ∉ e.used)
    (htold : StartsTall name.toList) {p : Purpose} (hp : Q p)
    {records : List (String × String)}
    (hrecords : ∀ {t n}, Assoc.get? t records = some n ↔ Assoc.get? t e.records = some n ∨
      n = name ∧ ∃ fields, p = .record (some t) fields) :
    Sound Q ((name, p) :: layout) (name :: opened) pending
      { e with used := name :: e.used, records := records } where
  used := congrArg (name :: ·) hs.used
  nodup := List.nodup_cons.mpr ⟨hname, hs.nodup⟩
  names := hs.names.cons name
  told := List.forall_mem_cons.mpr ⟨htold, hs.told⟩
  holds := List.forall_mem_cons.mpr ⟨hp, hs.holds⟩
  laid m hm := by
    obtain ⟨q, hmem, hlays⟩ := hs.laid m hm
    exact ⟨q, List.mem_cons_of_mem _ hmem, hlays.mono (List.subset_cons_self _ _)⟩
  recorded {t n} := by
    rw [hrecords, hs.recorded]
    constructor
    · rintro (⟨fields, hmem⟩ | ⟨rfl, fields, rfl⟩)
      · exact ⟨fields, List.mem_cons_of_mem _ hmem⟩
      · exact ⟨fields, List.mem_cons_self⟩
    · rintro ⟨fields, hmem⟩
      rcases List.mem_cons.mp hmem with heq | hmem
      · cases heq
        exact .inr ⟨rfl, fields, rfl⟩
      · exact .inl ⟨fields, hmem⟩
  applied {n q} hmem hrecord := by
    rcases List.mem_cons.mp hmem with heq | hmem
    · cases heq
      exact .inl List.mem_cons_self
    · exact (hs.applied hmem hrecord).imp_left (List.mem_cons_of_mem _)
  timestamp := hs.timestamp

/-- Opening the message of a call. -/
theorem pushCall (hs : e.Sound Q layout opened pending) {name : String} (hname : name ∉ e.used)
    (htold : StartsTall name.toList) {p : Purpose} (hp : Q p) (hcall : ¬ p.IsRecord) :
    Sound Q ((name, p) :: layout) (name :: opened) pending { e with used := name :: e.used } :=
  hs.push hname htold hp
    ⟨.inl, fun h => h.resolve_right fun ⟨_, fields, hrecord⟩ => hcall ⟨_, fields, hrecord⟩⟩

theorem reorder (hs : e.Sound Q layout opened pending) {opened' : List String}
    (h : opened'.Perm opened) : e.Sound Q layout opened' pending :=
  { hs with
    names := (h.append_right _).trans hs.names
    applied := fun hmem hrecord => (hs.applied hmem hrecord).imp_left h.mem_iff.mpr }

/-- The order of pending types does not matter. -/
theorem rearrange (hs : e.Sound Q layout opened pending) {pending' : List FieldType}
    (h : pending'.Perm pending) : e.Sound Q layout opened pending' :=
  { hs with
    applied := fun hmem hrecord =>
      (hs.applied hmem hrecord).imp_right ((h.append_right _).mem_iff.mpr)
    timestamp := hs.timestamp.trans (h.append_right _).mem_iff.symm }

/-- Giving a field a type that takes no import. -/
theorem hand (hs : e.Sound Q layout opened pending) (type : FieldType)
    (h : type ≠ .scalar .timestamp) : e.Sound Q layout opened (type :: pending) :=
  { hs with
    applied := fun hmem hrecord =>
      (hs.applied hmem hrecord).imp_right (List.mem_cons_of_mem _)
    timestamp := by
      rw [hs.timestamp, List.cons_append, List.mem_cons]
      exact ⟨.inr, fun hmem => hmem.resolve_left (Ne.symm h)⟩ }

/-- Giving a field the type of a scalar, which is noted if it is a timestamp. -/
theorem handScalar (hs : e.Sound Q layout opened pending) (s : Scalar) :
    Sound Q layout opened (.scalar s.wire :: pending)
      { e with timestamp := e.timestamp || s.wire == .timestamp } :=
  { hs with
    applied := fun hmem hrecord =>
      (hs.applied hmem hrecord).imp_right (List.mem_cons_of_mem _)
    timestamp := by
      show (e.timestamp || s.wire == .timestamp) = true ↔
        .scalar .timestamp ∈ .scalar s.wire :: (pending ++ e.types)
      rw [Bool.or_eq_true, beq_iff_eq, hs.timestamp, List.mem_cons, or_comm, FieldType.scalar.injEq,
        eq_comm] }

/-- Adding the message of an open name: the types of its fields are pending no more, and if it is
made for a record then its own type is. -/
theorem close {name : String} {ms : List MessageField}
    (hs : e.Sound Q layout (name :: opened) (ms.map MessageField.type ++ pending)) {p : Purpose}
    (hmem : (name, p) ∈ layout) (hlays : LayOut layout 1 p.args ms) (given : List FieldType)
    (hgiven : .scalar .timestamp ∉ given) (happlied : p.IsRecord → .message name ∈ given) :
    Sound Q layout opened (given ++ pending)
      { e with messages := e.messages ++ [⟨name, ms⟩] } := by
  have htypes : ∀ type, type ∈ given ++ pending ++
      types { e with messages := e.messages ++ [⟨name, ms⟩] } ↔
        type ∈ given ∨ type ∈ ms.map MessageField.type ++ pending ++ e.types := by
    intro type
    simp only [types, List.flatMap_append, List.flatMap_cons, List.flatMap_nil, List.append_nil,
      List.mem_append]
    tauto
  exact { hs with
    names := by
      refine List.Perm.trans ?_ hs.names
      rw [List.map_append, ← List.append_assoc]
      exact List.perm_append_singleton name _
    laid := by
      rw [List.forall_mem_append]
      refine ⟨hs.laid, fun m hm => ?_⟩
      rw [List.mem_singleton.mp hm]
      exact ⟨p, hmem, hlays⟩
    applied := fun {n q} hq hrecord => by
      rw [htypes]
      rcases hs.applied hq hrecord with hopen | hold
      · rcases List.mem_cons.mp hopen with rfl | hopen
        · rw [hs.purpose_unique hq hmem] at hrecord
          exact .inr (.inl (happlied hrecord))
        · exact .inl hopen
      · exact .inr (.inr hold)
    timestamp := by
      rw [htypes, hs.timestamp]
      exact ⟨.inr, fun h => h.resolve_left hgiven⟩ }

end Sound

end Emission

/-! ## Making fields -/

section Wire

variable {Q : Purpose → Prop} {layout : Purposes} {opened : List String} {pending : List FieldType}
  {e : Emission} {c : SchemaConfig} {parent field : String}

/-- A message of the given name is open, for a record type or not. -/
def Emission.opening (e : Emission) (typeName : Option String) (name : String) : Emission :=
  { e with
    used := name :: e.used
    records := typeName.elim e.records fun t => Assoc.put t name e.records }

theorem run_recordMessage_known {t name : String} {build : String → Emit (List MessageField)}
    (h : Assoc.get? t e.records = some name) :
    (recordMessage parent field (some t) build).run e = (name, e) := by
  simp only [recordMessage, StateT.run_bind, StateT.run_get, pure_bind, Option.bind_some, h]
  rfl

/-- A record without a message gets one: its name is taken, its fields are made, and then it is
added. -/
theorem run_recordMessage_new (parent field : String) {typeName : Option String}
    (build : String → Emit (List MessageField))
    (h : ∀ t ∈ typeName, Assoc.get? t e.records = none) : ∃ base,
      let name := freshNameWith "" e.used (pascal base)
      (recordMessage parent field typeName build).run e =
        (name, { ((build name).run (e.opening typeName name)).2 with
          messages := ((build name).run (e.opening typeName name)).2.messages
            ++ [⟨name, ((build name).run (e.opening typeName name)).1⟩] }) := by
  cases typeName with
  | none => exact ⟨parent ++ pascal field, rfl⟩
  | some t =>
    refine ⟨simpleName t, ?_⟩
    simp only [recordMessage, StateT.run_bind, StateT.run_get, pure_bind, Option.bind_some, h t rfl]
    rfl

/-- Opening the message of a record. -/
theorem Emission.Sound.opening (hs : e.Sound Q layout opened pending) {typeName : Option String}
    {fields : List Argument} {name : String} (hname : name ∉ e.used)
    (htold : StartsTall name.toList) (hQ : Q (.record typeName fields))
    (hnew : ∀ t ∈ typeName, Assoc.get? t e.records = none) :
    Emission.Sound Q ((name, .record typeName fields) :: layout) (name :: opened) pending
      (e.opening typeName name) := by
  refine hs.push hname htold hQ fun {u n} => ?_
  cases typeName with
  | none => exact ⟨.inl, fun h => h.resolve_right fun ⟨_, _, hnone⟩ => by cases hnone⟩
  | some t =>
    show Assoc.get? u (Assoc.put t name e.records) = some n ↔ _
    by_cases hu : u = t
    · rw [hu, Assoc.get?_put_self, hnew t rfl]
      constructor
      · rintro ⟨⟩
        exact .inr ⟨rfl, fields, rfl⟩
      · rintro (h | ⟨rfl, -⟩)
        · cases h
        · rfl
    · rw [Assoc.get?_put_of_ne hu]
      refine ⟨.inl, fun h => h.resolve_right ?_⟩
      rintro ⟨-, fields', heq⟩
      cases heq
      exact hu rfl

/-- **Making the message of a record**, or finding it. -/
theorem comes_recordMessage {typeName : Option String} {fields : List Argument}
    (hQ : Q (.record typeName fields)) {build : String → Emit (List MessageField)}
    (hbuild : ∀ (name : String) {layout : Purposes} {opened : List String}
      {pending : List FieldType} {e : Emission}, e.Sound Q layout opened pending →
        Comes (build name) e fun ms e' => ∃ layout', layout.Grow layout' ∧
          e'.Sound Q layout' opened (ms.map MessageField.type ++ pending) ∧
            LayOut layout' 1 (fieldsOf fields) ms)
    (hs : e.Sound Q layout opened pending) :
    Comes (recordMessage parent field typeName build) e fun name e' => ∃ layout',
      layout.Grow layout' ∧ e'.Sound Q layout' opened (.message name :: pending) ∧
        Shows layout' (.record typeName fields) (.message name) := by
  by_cases hnew : ∀ t ∈ typeName, Assoc.get? t e.records = none
  -- There is no message yet: its name is open while its fields are made.
  · obtain ⟨base, hrun⟩ := run_recordMessage_new parent field build hnew
    unfold Comes
    rw [hrun]
    have hopening := hs.opening (freshNameWith_notMem "" e.used (pascal base))
      (startsTall_freshNameWith e.used base) hQ hnew
    obtain ⟨layout₁, hlayout, hsound, hlays⟩ := hbuild _ hopening
    have hmem := hlayout.subset List.mem_cons_self
    refine ⟨layout₁, hlayout.of_cons ⟨typeName, fields, rfl⟩,
      hsound.close hmem hlays [.message _] (by simp) fun _ => List.mem_cons_self, ?_⟩
    cases typeName with
    | none => exact ⟨_, rfl, hmem⟩
    | some u => exact ⟨_, _, rfl, hmem⟩
  -- The message was made before, or is still being made around this one.
  · obtain ⟨t, rfl, hknown⟩ : ∃ t, typeName = some t ∧ Assoc.get? t e.records ≠ none := by
      simpa using hnew
    obtain ⟨name, hname⟩ := Option.ne_none_iff_exists'.mp hknown
    obtain ⟨fields', hmem⟩ := hs.recorded.mp hname
    unfold Comes
    rw [run_recordMessage_known hname]
    exact ⟨layout, .refl _, hs.hand _ (by simp), name, fields', rfl, hmem⟩

/-- The record that an argument holds, if it does, may have a message. -/
def Item.Allowed (Q : Purpose → Prop) (item : Item) : Prop :=
  ∀ t fields, item = .record t fields → Q (.record t fields)

/-- What messages may be made for reaches to the records inside it. -/
def Purpose.Closed (Q : Purpose → Prop) : Prop :=
  ∀ p, Q p → ∀ x ∈ p.args, x.2.shape.item.Allowed Q

mutual

/-- **Making a field**: its type is that of what the argument holds. -/
theorem Argument.comes_wire (hclosed : Purpose.Closed Q) :
    ∀ (a : Argument) {parent field : String} {layout : Purposes} {opened : List String}
      {pending : List FieldType} {e : Emission},
      a.shape.item.Allowed Q → e.Sound Q layout opened pending →
        Comes (a.wire c parent field) e fun r e' => ∃ layout', layout.Grow layout' ∧
          e'.Sound Q layout' opened (r.2 :: pending) ∧ r.1 = a.shape.isTable ∧
            Shows layout' a.shape.item r.2
  | ⟨_, _, _, .scalar s⟩, _, _, layout, _, _, _, _, hs =>
    ⟨layout, .refl _, hs.handScalar s, rfl, rfl⟩
  | ⟨_, _, _, .record typeName fields⟩, _, _, _, _, _, _, ha, hs => by
    have hQ := ha typeName fields rfl
    refine comes_bind.mpr ((comes_recordMessage hQ
      (fun _ => comes_wireFields hclosed fields (by simp [length_fieldNames]) (hclosed _ hQ))
      hs).mono ?_)
    rintro name e' ⟨layout', hlayout, hsound, hshows⟩
    exact ⟨layout', hlayout, hsound, rfl, hshows⟩
  | ⟨_, _, _, .table _ none _ _⟩, _, _, layout, _, _, _, _, hs =>
    ⟨layout, .refl _, hs.hand .unspecified (by simp), rfl, rfl⟩
  | ⟨_, _, _, .table _ (some elem) _ _⟩, _, _, _, _, _, _, ha, hs => by
    refine comes_bind.mpr ((Argument.comes_wireElement hclosed elem ha hs).mono ?_)
    rintro type e' ⟨layout', hlayout, hsound, hshows⟩
    exact ⟨layout', hlayout, hsound, rfl, hshows⟩

theorem Argument.comes_wireElement (hclosed : Purpose.Closed Q) :
    ∀ (elem : Argument) {parent field : String} {layout : Purposes} {opened : List String}
      {pending : List FieldType} {e : Emission},
      elem.element.Allowed Q → e.Sound Q layout opened pending →
        Comes (elem.wireElement c parent field) e fun type e' => ∃ layout', layout.Grow layout' ∧
          e'.Sound Q layout' opened (type :: pending) ∧ Shows layout' elem.element type
  | ⟨_, _, _, .scalar s⟩, _, _, layout, _, _, _, _, hs =>
    ⟨layout, .refl _, hs.handScalar s, rfl⟩
  | ⟨_, _, _, .record typeName fields⟩, _, _, _, _, _, _, ha, hs => by
    have hQ := ha typeName fields rfl
    refine comes_bind.mpr ((comes_recordMessage hQ
      (fun _ => comes_wireFields hclosed fields (by simp [length_fieldNames]) (hclosed _ hQ))
      hs).mono ?_)
    rintro name e' ⟨layout', hlayout, hsound, hshows⟩
    exact ⟨layout', hlayout, hsound, hshows⟩
  | ⟨_, _, _, .table ..⟩, _, _, layout, _, _, _, _, hs =>
    ⟨layout, .refl _, hs.hand .unspecified (by simp), rfl⟩

/-- Making fields in turn: each stands for its argument, and they are numbered on. -/
theorem comes_wireFields (hclosed : Purpose.Closed Q) :
    ∀ (fields : List Argument) {parent : String} {number : Nat} {names : List String}
      {layout : Purposes} {opened : List String} {pending : List FieldType} {e : Emission},
      names.length = fields.length →
      (∀ x ∈ names.zip fields, x.2.shape.item.Allowed Q) → e.Sound Q layout opened pending →
        Comes (wireFields c parent number names fields) e fun ms e' => ∃ layout',
          layout.Grow layout' ∧ e'.Sound Q layout' opened (ms.map MessageField.type ++ pending) ∧
            LayOut layout' number (names.zip fields) ms
  | [], _, _, _, layout, _, _, _, _, _, hs => by
    rw [wireFields, List.zip_nil_right]
    exact ⟨layout, .refl _, hs, .nil, rfl⟩
  | _ :: _, _, _, [], _, _, _, _, hl, _, _ => absurd hl (by simp)
  | a :: rest, parent, number, n :: names, _, _, _, _, hl, hQ, hs => by
    rw [List.zip_cons_cons, List.forall_mem_cons] at hQ
    refine comes_bind.mpr ((Argument.comes_wire hclosed a hQ.1 hs).mono ?_)
    rintro ⟨isRepeated, type⟩ e₁ ⟨layout₁, hlayout₁, hsound₁, hrep, hshows⟩
    refine comes_bind.mpr ((comes_wireFields hclosed rest (Nat.succ.inj hl) hQ.2 hsound₁).mono ?_)
    rintro ms e₂ ⟨layout₂, hlayout₂, hsound₂, hstands, hnumbered⟩
    refine comes_pure.mpr ⟨layout₂, hlayout₁.trans hlayout₂,
      hsound₂.rearrange List.perm_middle.symm,
      .cons ⟨rfl, hrep, hshows.mono hlayout₂.subset⟩ hstands, ?_⟩
    rw [List.map_cons, hnumbered, List.length_cons, List.range'_succ]

end

end Wire

/-! ## Making calls -/

/-- The call of a subprogram: its messages are made for what the subprogram takes and gives. -/
structure Rpc.Calls (layout : Purposes) (f : Subprogram) (rpc : Rpc) : Prop where
  name : rpc.name = pascal f.ident
  input : (rpc.input, .request f) ∈ layout
  output : (rpc.output, .response f) ∈ layout

/-- A message is that of a call: it is made for its request or its response. -/
def Rpc.Has (rpc : Rpc) (x : String × Purpose) : Prop :=
  ∃ f, x = (rpc.input, .request f) ∨ x = (rpc.output, .response f)

section Calls

variable {Q : Purpose → Prop} {layout : Purposes} {opened : List String} {pending : List FieldType}
  {e : Emission} {c : SchemaConfig}

theorem comes_messageName {base : String} {post : String → Emission → Prop}
    (h : ∀ name, name ∉ e.used → StartsTall name.toList →
      post name { e with used := name :: e.used }) :
    Comes (messageName base) e post :=
  h _ (freshNameWith_notMem "" e.used (pascal base)) (startsTall_freshNameWith e.used base)

/-- Making the message of a request or a response. -/
theorem comes_callMessage (hclosed : Purpose.Closed Q)
    {name : String} {p : Purpose} (hmem : (name, p) ∈ layout) (hcall : ¬ p.IsRecord)
    (hs : e.Sound Q layout (name :: opened) pending) :
    Comes (callMessage c name p.args) e fun _ e' => ∃ layout', layout.Grow layout' ∧
      e'.Sound Q layout' opened pending := by
  have hzip : (p.args.map Prod.fst).zip (p.args.map Prod.snd) = p.args := by
    rw [← List.unzip_fst, ← List.unzip_snd, List.zip_unzip]
  have hQ : ∀ x ∈ (p.args.map Prod.fst).zip (p.args.map Prod.snd), x.2.shape.item.Allowed Q := by
    rw [hzip]
    exact hclosed p (hs.holds _ hmem)
  refine comes_bind.mpr ((comes_wireFields hclosed _ (by simp) hQ hs).mono ?_)
  rintro ms e₁ ⟨layout₁, hlayout, hsound, hlays⟩
  rw [hzip] at hlays
  exact ⟨layout₁, hlayout, hsound.close (hlayout.subset hmem) hlays [] List.not_mem_nil
    fun hrecord => absurd hrecord hcall⟩

/-- **Making a call** and its messages. -/
theorem Subprogram.comes_wire (hclosed : Purpose.Closed Q)
    {f : Subprogram} (hrequest : Q (.request f)) (hresponse : Q (.response f))
    (hs : e.Sound Q layout opened pending) :
    Comes (f.wire c) e fun rpc e' => ∃ layout', layout ⊆ layout' ∧
      e'.Sound Q layout' opened pending ∧ rpc.Calls layout' f ∧
        ∀ x ∈ layout', x ∈ layout ∨ x.2.IsRecord ∨ rpc.Has x := by
  have hcall : ¬ (Purpose.request f).IsRecord := fun ⟨_, _, h⟩ => by cases h
  have hcall' : ¬ (Purpose.response f).IsRecord := fun ⟨_, _, h⟩ => by cases h
  refine comes_bind.mpr (comes_messageName fun input hinput htold => ?_)
  have hs₁ := hs.pushCall hinput htold hrequest hcall
  refine comes_bind.mpr (comes_messageName fun output houtput htold' => ?_)
  have hs₂ := (hs₁.pushCall houtput htold' hresponse hcall').reorder (List.Perm.swap _ _ _)
  have hin : (input, .request f) ∈ (output, .response f) :: (input, .request f) :: layout :=
    List.mem_cons_of_mem _ List.mem_cons_self
  refine comes_bind.mpr ((comes_callMessage hclosed hin hcall hs₂).mono ?_)
  rintro _ e₃ ⟨layout₃, h₃, hs₃⟩
  have hout : (output, .response f) ∈ layout₃ := h₃.subset List.mem_cons_self
  refine comes_bind.mpr ((comes_callMessage hclosed hout hcall' hs₃).mono ?_)
  rintro _ e₄ ⟨layout₄, h₄, hs₄⟩
  have hgrow := h₃.trans h₄
  refine comes_pure.mpr ⟨layout₄, ?_, hs₄, ⟨rfl, hgrow.subset hin, h₄.subset hout⟩, ?_⟩
  · intro x hx
    exact hgrow.subset (List.mem_cons_of_mem _ (List.mem_cons_of_mem _ hx))
  · intro x hx
    rcases hgrow.records x hx with hx | hrecord
    · rcases List.mem_cons.mp hx with rfl | hx
      · exact .inr (.inr ⟨f, .inr rfl⟩)
      · rcases List.mem_cons.mp hx with rfl | hx
        · exact .inr (.inr ⟨f, .inl rfl⟩)
        · exact .inl hx
    · exact .inr (.inl hrecord)

end Calls

end StoredCall
