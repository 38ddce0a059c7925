import StoredCall.Proofs.Schema.Layout

/-!
# Schema files hold together

A subprogram that no message can express is left out of a file, and making the file never fails.
Its messages are made for the requests and responses of the other subprograms and for the records
inside them, where all records of a named type share one message.

* `Schema.Coherent`: a file refers to its own messages only, and all names and numbers in it fit.
* `Schema.MadeFor`: what the messages of a file are made for, and which message a named record type
  has.
* **`Schema.coherent_ofSubprograms`**: every list of subprograms gives such a file, and what the
  file declares is read off its text.
-/

namespace StoredCall

open Text

/-! ## Subprograms that can be expressed -/

mutual

/-- What cannot be expressed concerns one subprogram alone. -/
theorem Argument.isSkippable_of_expressible {label : String} : ∀ (a : Argument) {inElement : Bool}
    {err : Error}, a.expressible label inElement = .error err → err.isSkippable = true
  | ⟨_, _, _, shape⟩, _, _, h => Shape.isSkippable_of_expressible shape h

theorem Shape.isSkippable_of_expressible {label name : String} : ∀ (shape : Shape)
    {inElement : Bool} {err : Error}, shape.expressible label name inElement = .error err →
      err.isSkippable = true
  | .scalar _, _, _, h => by cases h
  | .record _ [], _, _, h => by
    cases h
    rfl
  | .record _ (f :: rest), _, _, h => isSkippable_of_expressibleAll (f :: rest) h
  | .table _ _ _ _, true, _, h => by
    cases h
    rfl
  | .table _ none _ _, false, _, h => by
    cases h
    rfl
  | .table _ (some elem) _ _, false, _, h => Argument.isSkippable_of_expressible elem h

theorem isSkippable_of_expressibleAll {label : String} : ∀ (as : List Argument) {err : Error},
    expressibleAll label as = .error err → err.isSkippable = true
  | [], _, h => by cases h
  | a :: rest, _, h => by
    rcases except_bind_eq_error.mp h with h | ⟨_, _, h⟩
    · exact Argument.isSkippable_of_expressible a h
    · exact isSkippable_of_expressibleAll rest h

end

theorem expressibleAll_eq_ok_iff {label : String} {as : List Argument} :
    expressibleAll label as = .ok () ↔ ∀ a ∈ as, a.expressible label false = .ok () := by
  induction as with
  | nil => simp [expressibleAll]
  | cons a rest ih =>
    rw [expressibleAll, except_bind_eq_ok, List.forall_mem_cons, ← ih]
    exact ⟨fun ⟨_, ha, hrest⟩ => ⟨ha, hrest⟩, fun ⟨ha, hrest⟩ => ⟨(), ha, hrest⟩⟩

/-- An argument that a field can hold, or the element of one. -/
def Argument.Expressed (a : Argument) : Prop :=
  ∃ label inElement, a.expressible label inElement = .ok ()

theorem Argument.Expressed.part {a b : Argument} (h : a.Expressed) (hb : b ∈ a.shape.parts) :
    b.Expressed := by
  obtain ⟨label, inElement, h⟩ := h
  obtain ⟨name, position, direction, shape⟩ := a
  match shape, hb with
  | .scalar _, hb => cases hb
  | .record _ [], hb => cases hb
  | .record _ (f :: rest), hb => exact ⟨label, false, expressibleAll_eq_ok_iff.mp h b hb⟩
  | .table _ none _ _, hb => cases hb
  | .table _ (some elem) _ _, hb =>
    cases inElement with
    | true => cases h
    | false =>
      rw [List.mem_singleton.mp hb]
      exact ⟨label, true, h⟩

/-- A field holds scalars or records. -/
theorem Argument.Expressed.item_ne {a : Argument} (h : a.Expressed) : a.shape.item ≠ .other := by
  obtain ⟨label, inElement, h⟩ := h
  obtain ⟨name, position, direction, shape⟩ := a
  match shape with
  | .scalar _ => simp [Shape.item]
  | .record _ _ => simp [Shape.item]
  | .table _ none _ _ => cases inElement <;> cases h
  | .table _ (some ⟨_, _, _, .scalar _⟩) _ _ => simp [Shape.item, Argument.element]
  | .table _ (some ⟨_, _, _, .record ..⟩) _ _ => simp [Shape.item, Argument.element]
  | .table _ (some ⟨_, _, _, .table ..⟩) _ _ => cases inElement <;> cases h

/-- Whether a subprogram can be expressed. -/
def Subprogram.isExpressible (f : Subprogram) : Bool := f.expressible.isOk

theorem Subprogram.isExpressible_iff {f : Subprogram} :
    f.isExpressible = true ↔ f.expressible = .ok () := by
  unfold isExpressible
  rcases f.expressible with _ | ⟨⟨⟩⟩ <;> simp [Except.isOk, Except.toBool]

/-- An argument or return value of some subprograms, or a part of one. -/
inductive Inside (fs : List Subprogram) : Argument → Prop where
  | arg {f : Subprogram} {a : Argument} : f ∈ fs → a ∈ f.args ++ f.returns.toList → Inside fs a
  | part {a b : Argument} : Inside fs a → b ∈ a.shape.parts → Inside fs b

theorem Inside.expressed {fs : List Subprogram} {a : Argument}
    (h : Inside (fs.filter Subprogram.isExpressible) a) : a.Expressed := by
  induction h with
  | arg hf ha =>
    have hok := Subprogram.isExpressible_iff.mp (List.mem_filter.mp hf).2
    exact ⟨_, false, expressibleAll_eq_ok_iff.mp hok _ ha⟩
  | part _ hb ih => exact ih.part hb

/-- The records that an argument holds are inside the same subprograms. -/
theorem Inside.record {fs : List Subprogram} {a : Argument} {t : Option String}
    {fields : List Argument} (h : Inside fs a) (hitem : a.shape.item = .record t fields) :
    ∃ b, Inside fs b ∧ b.shape = .record t fields := by
  obtain ⟨name, position, direction, shape⟩ := a
  match shape, hitem with
  | .record _ _, rfl => exact ⟨_, h, rfl⟩
  | .table _ (some ⟨_, _, _, .record _ _⟩) _ _, rfl =>
    exact ⟨_, h.part (List.mem_singleton_self _), rfl⟩

/-- What the messages of some subprograms are made for. -/
def Purpose.Of (fs : List Subprogram) : Purpose → Prop
  | request f | response f => f ∈ fs
  | record t fields => ∃ a, Inside fs a ∧ a.shape = .record t fields
  | service => False

theorem Purpose.Of.inside {fs : List Subprogram} {p : Purpose} (h : p.Of fs) :
    ∀ x ∈ p.args, Inside fs x.2 := by
  intro x hx
  cases p with
  | request f => exact .arg h (Subprogram.arg_of_mem_requestFields hx)
  | response f => exact .arg h (Subprogram.arg_of_mem_responseFields hx)
  | record t fields =>
    obtain ⟨a, ha, hshape⟩ := h
    refine ha.part ?_
    rw [hshape]
    exact (List.of_mem_zip hx).2
  | service => exact h.elim

theorem Purpose.Of.allowed {fs : List Subprogram} {p : Purpose} (h : p.Of fs) :
    ∀ x ∈ p.args, x.2.shape.item.Allowed (Of fs) :=
  fun x hx _ _ hitem => (h.inside x hx).record hitem

theorem Purpose.closed_of (fs : List Subprogram) : Purpose.Closed (Of fs) := fun _ h => h.allowed

/-! ## Making calls -/

section Calls

variable {Q : Purpose → Prop} {c : SchemaConfig}

theorem Rpc.Calls.mono {layout layout' : Purposes} {f : Subprogram} {rpc : Rpc}
    (h : rpc.Calls layout f) (hl : layout ⊆ layout') : rpc.Calls layout' f :=
  ⟨h.name, hl h.input, hl h.output⟩

/-- **Making the calls** of those subprograms that can be expressed never fails. -/
theorem Schema.ends_calls (hclosed : Purpose.Closed Q) {fs : List Subprogram}
    (hQ : ∀ f ∈ fs.filter Subprogram.isExpressible, Q (.request f) ∧ Q (.response f))
    {layout : Purposes} {opened : List String} {e : Emission} (hs : e.Sound Q layout opened []) :
    Ends (calls c fs) e
      (fun rpcs e' => ∃ layout', layout ⊆ layout' ∧ e'.Sound Q layout' opened [] ∧
        List.Forall₂ (fun f rpc => rpc.Calls layout' f) (fs.filter Subprogram.isExpressible) rpcs ∧
          ∀ x ∈ layout', x ∈ layout ∨ x.2.IsRecord ∨ ∃ rpc ∈ rpcs, rpc.Has x)
      (fun _ _ => False) := by
  induction fs generalizing layout e with
  | nil => exact ⟨layout, List.Subset.refl _, hs, .nil, fun _ => .inl⟩
  | cons f rest ih =>
    rw [calls]
    cases hf : f.expressible with
    | error err =>
      have hskip : err.isSkippable = true := isSkippable_of_expressibleAll _ hf
      have hout : f.isExpressible = false := by
        rw [Bool.eq_false_iff, ne_eq, Subprogram.isExpressible_iff, hf]
        simp
      rw [List.filter_cons_of_neg (by simp [hout])] at hQ ⊢
      simp only [hskip, if_true]
      exact ih hQ hs
    | ok u =>
      have hin : f.isExpressible = true := Subprogram.isExpressible_iff.mpr hf
      rw [List.filter_cons_of_pos hin] at hQ ⊢
      rw [List.forall_mem_cons] at hQ
      refine ends_bind.mpr (ends_lift.mpr ?_)
      obtain ⟨layout₁, hlayout₁, hs₁, hcall, hfirst⟩ :=
        Subprogram.comes_wire (c := c) hclosed hQ.1.1 hQ.1.2 hs
      refine ends_bind.mpr ((ih hQ.2 hs₁).mono ?_ fun _ _ h => h)
      rintro rpcs e₂ ⟨layout₂, hlayout₂, hs₂, hcalls, hrest⟩
      refine ⟨layout₂, List.Subset.trans hlayout₁ hlayout₂, hs₂,
        .cons (hcall.mono hlayout₂) hcalls, fun x hx => ?_⟩
      rcases hrest x hx with hx | hrecord | ⟨rpc, hrpc, hhas⟩
      · exact (hfirst x hx).imp_right (.imp_right fun hhas => ⟨_, List.mem_cons_self, hhas⟩)
      · exact .inr (.inl hrecord)
      · exact .inr (.inr ⟨rpc, List.mem_cons_of_mem _ hrpc, hhas⟩)

end Calls

/-! ## Files -/

/-- A file that can be read by itself. -/
structure Schema.Coherent (s : Schema) : Prop where
  messages_nodup : (s.messages.map Message.name).Nodup
  /-- The types of fields are declared. -/
  fields_declared : ∀ m ∈ s.messages, ∀ f ∈ m.fields, ∀ n, f.type = .message n →
    n ∈ s.messages.map Message.name
  rpcs_declared : ∀ r ∈ s.rpcs,
    r.input ∈ s.messages.map Message.name ∧ r.output ∈ s.messages.map Message.name
  /-- A message is not called like a type of scalars, which begin with small letters. -/
  messages_told : ∀ m ∈ s.messages, StartsTall m.name.toList
  fields_numbered : ∀ m ∈ s.messages,
    m.fields.map MessageField.number = List.range' 1 m.fields.length
  fields_nodup : ∀ m ∈ s.messages, (m.fields.map MessageField.name).Nodup
  imports_timestamp : "google/protobuf/timestamp.proto" ∈ s.imports ↔
    ∃ m ∈ s.messages, ∃ f ∈ m.fields, f.type = .scalar .timestamp
  fields_specified : ∀ m ∈ s.messages, ∀ f ∈ m.fields, f.type ≠ .unspecified

/-- A type of a coherent file can be told from what is written. -/
theorem Schema.Coherent.types_told {s : Schema} (h : s.Coherent) :
    ∀ m ∈ s.messages, ∀ f ∈ m.fields, f.type.Told := by
  intro m hm f hf
  match htype : f.type with
  | .scalar _ => trivial
  | .message n =>
    obtain ⟨m', hm', rfl⟩ := List.mem_map.mp (h.fields_declared m hm f hf n htype)
    exact h.messages_told m' hm'
  | .unspecified => exact absurd htype (h.fields_specified m hm f hf)

/-- The messages of a file are made for subprograms, and `layout` says what each is made for. -/
structure Schema.MadeFor (fs : List Subprogram) (layout : Purposes) (s : Schema) : Prop where
  /-- Each message is made for one thing. -/
  names : (s.messages.map Message.name).Perm (layout.map Prod.fst)
  /-- That is the request or the response of one of the subprograms, or a record inside them. -/
  purposes : ∀ x ∈ layout, x.2.Of fs
  calls : List.Forall₂ (fun f rpc => rpc.Calls layout f) fs s.rpcs
  /-- A message that is made for no record is the request or the response of a call. -/
  called : ∀ x ∈ layout, x.2.IsRecord ∨ ∃ rpc ∈ s.rpcs, rpc.Has x
  laid : ∀ m ∈ s.messages, ∃ p, (m.name, p) ∈ layout ∧ LayOut layout 1 p.args m.fields
  /-- The message of a record is the type of a field, and what the field stands for holds a record
  of its type: the very record, if the type has no name. -/
  applied : ∀ n t fields, (n, .record t fields) ∈ layout →
    ∃ m ∈ s.messages, ∃ p, (m.name, p) ∈ layout ∧ ∃ x ∈ p.args, ∃ f ∈ m.fields,
      Stands layout x f ∧ f.type = .message n ∧
        ∃ fields', x.2.shape.item = .record t fields' ∧ (t = none → fields' = fields)
  /-- A named record type in the file has exactly one message. -/
  one_message : ∀ x ∈ layout, ∀ y ∈ x.2.args, ∀ t fields,
    y.2.shape.item = .record (some t) fields →
      ∃! m, m ∈ s.messages ∧ ∃ fields', (m.name, .record (some t) fields') ∈ layout

namespace Emission.Sound

variable {Q : Purpose → Prop} {layout : Purposes} {e : Emission}

/-- When no message is open, each name has its message. -/
theorem names_perm (hs : e.Sound Q layout [] []) :
    (e.messages.map Message.name).Perm (layout.map Prod.fst) := by
  rw [← hs.used]
  exact hs.names

theorem nodup_names (hs : e.Sound Q layout [] []) : (e.messages.map Message.name).Nodup :=
  hs.names.nodup_iff.mpr hs.nodup

theorem exists_message (hs : e.Sound Q layout [] []) {n : String} {p : Purpose}
    (h : (n, p) ∈ layout) : ∃ m ∈ e.messages, m.name = n :=
  List.mem_map.mp (hs.names_perm.mem_iff.mpr (List.mem_map_of_mem (f := Prod.fst) h))

/-- What a message is made for is laid out in its fields. -/
theorem laid_of_mem (hs : e.Sound Q layout [] []) {m : Message} (hm : m ∈ e.messages) {p : Purpose}
    (h : (m.name, p) ∈ layout) : LayOut layout 1 p.args m.fields := by
  obtain ⟨q, hq, hlays⟩ := hs.laid m hm
  rwa [hs.purpose_unique h hq]

/-- A field of a message stands for each of the arguments it is made for. -/
theorem exists_stands (hs : e.Sound Q layout [] []) {n : String} {p : Purpose}
    (h : (n, p) ∈ layout) {y : String × Argument} (hy : y ∈ p.args) :
    ∃ m ∈ e.messages, m.name = n ∧ ∃ f ∈ m.fields, Stands layout y f := by
  obtain ⟨m, hm, rfl⟩ := hs.exists_message h
  obtain ⟨f, hf, hstands⟩ := exists_of_forall₂ (hs.laid_of_mem hm h).stands hy
  exact ⟨m, hm, rfl, f, hf, hstands⟩

/-- A field of a message stands for one of the arguments it is made for. -/
theorem exists_arg (hs : e.Sound Q layout [] []) {m : Message} (hm : m ∈ e.messages)
    {f : MessageField} (hf : f ∈ m.fields) :
    ∃ p, (m.name, p) ∈ layout ∧ ∃ y ∈ p.args, Stands layout y f := by
  obtain ⟨p, hp, hlays⟩ := hs.laid m hm
  obtain ⟨y, hy, hstands⟩ := exists_of_forall₂ hlays.stands.flip hf
  exact ⟨p, hp, y, hy, hstands⟩

/-- When no type is pending, the types of fields are those in the messages. -/
theorem mem_types {type : FieldType} :
    type ∈ [] ++ e.types ↔ ∃ m ∈ e.messages, ∃ f ∈ m.fields, f.type = type := by
  simp [types]

/-- The message of a record is the type of a field that holds a record of its type. -/
theorem exists_application (hs : e.Sound Q layout [] []) {n : String} {t : Option String}
    {fields : List Argument} (h : (n, .record t fields) ∈ layout) :
    ∃ m ∈ e.messages, ∃ p, (m.name, p) ∈ layout ∧ ∃ x ∈ p.args, ∃ f ∈ m.fields,
      Stands layout x f ∧ f.type = .message n ∧
        ∃ fields', x.2.shape.item = .record t fields' ∧ (t = none → fields' = fields) := by
  obtain ⟨m, hm, f, hf, htype⟩ :=
    mem_types.mp ((hs.applied h ⟨t, fields, rfl⟩).resolve_left List.not_mem_nil)
  obtain ⟨p, hp, x, hx, hstands⟩ := hs.exists_arg hm hf
  have hshows := hstands.shows
  rw [htype] at hshows
  refine ⟨m, hm, p, hp, x, hx, f, hf, hstands, htype, ?_⟩
  match x.2.shape.item, hshows with
  | .record (some u) fields', ⟨_, fields'', rfl, hmem⟩ =>
    cases hs.purpose_unique h hmem
    exact ⟨fields', rfl, fun h => by cases h⟩
  | .record none fields', ⟨_, rfl, hmem⟩ =>
    cases hs.purpose_unique h hmem
    exact ⟨_, rfl, fun _ => rfl⟩

end Emission.Sound

theorem Schema.mem_imports_timestamp {s : Schema} :
    "google/protobuf/timestamp.proto" ∈ s.imports ↔ s.importsTimestamp = true := by
  rw [← contains_imports, List.contains_iff_mem]

namespace Schema

variable {fs : List Subprogram} {layout : Purposes} {e : Emission} {s : Schema}

/-- A file whose messages were made soundly is coherent. -/
theorem coherent_of_sound
    (hs : e.Sound (Purpose.Of (fs.filter Subprogram.isExpressible)) layout [] [])
    (hmessages : s.messages = e.messages) (himports : s.importsTimestamp = e.timestamp)
    (hcalls : List.Forall₂ (fun f rpc => rpc.Calls layout f)
      (fs.filter Subprogram.isExpressible) s.rpcs) : s.Coherent := by
  have hdeclared : ∀ {n p}, (n, p) ∈ layout → n ∈ s.messages.map Message.name :=
    fun h => hmessages ▸ hs.names.mem_iff.mpr (hs.name_mem_used h)
  constructor
  case messages_nodup =>
    exact hmessages ▸ hs.nodup_names
  case fields_declared =>
    intro m hm f hf n hn
    obtain ⟨_, _, y, _, hstands⟩ := hs.exists_arg (hmessages ▸ hm) hf
    obtain ⟨_, _, _, _, hmem⟩ := Shows.of_message (hn ▸ hstands.shows)
    exact hdeclared hmem
  case rpcs_declared =>
    intro r hr
    obtain ⟨f, _, hcall⟩ := exists_of_forall₂ hcalls.flip hr
    exact ⟨hdeclared hcall.input, hdeclared hcall.output⟩
  case messages_told =>
    intro m hm
    exact hs.told _ (hs.names.mem_iff.mp (List.mem_map_of_mem (hmessages ▸ hm)))
  case fields_numbered =>
    intro m hm
    obtain ⟨_, _, hlays⟩ := hs.laid m (hmessages ▸ hm)
    exact hlays.numbered
  case fields_nodup =>
    intro m hm
    obtain ⟨p, _, hlays⟩ := hs.laid m (hmessages ▸ hm)
    rw [hlays.map_name]
    exact p.nodup_args
  case imports_timestamp =>
    rw [mem_imports_timestamp, himports, hs.timestamp, hmessages]
    exact Emission.Sound.mem_types
  case fields_specified =>
    intro m hm f hf hun
    obtain ⟨p, hp, y, hy, hstands⟩ := hs.exists_arg (hmessages ▸ hm) hf
    have hitem := ((hs.holds _ hp).inside y hy).expressed.item_ne
    have hshows := hstands.shows
    rw [hun] at hshows
    match y.2.shape.item, hitem, hshows with
    | .scalar s, _, h => cases h
    | .record (some t) _, _, ⟨_, _, h, _⟩ => cases h
    | .record none _, _, ⟨_, h, _⟩ => cases h
    | .other, hne, _ => exact hne rfl

/-- A file whose messages were made soundly says what they are made for. -/
theorem madeFor_of_sound
    (hs : e.Sound (Purpose.Of (fs.filter Subprogram.isExpressible)) layout [] [])
    (hmessages : s.messages = e.messages)
    (hcalls : List.Forall₂ (fun f rpc => rpc.Calls layout f)
      (fs.filter Subprogram.isExpressible) s.rpcs)
    (hcalled : ∀ x ∈ layout, x.2.IsRecord ∨ ∃ rpc ∈ s.rpcs, rpc.Has x) :
    s.MadeFor (fs.filter Subprogram.isExpressible) layout where
  names := hmessages ▸ hs.names_perm
  purposes := hs.holds
  calls := hcalls
  called := hcalled
  laid := hmessages ▸ hs.laid
  applied n t fields h := hmessages ▸ hs.exists_application h
  one_message x hx y hy t fields hitem := by
    obtain ⟨_, _, _, f, _, hstands⟩ := hs.exists_stands hx hy
    have hshows := hstands.shows
    rw [hitem] at hshows
    obtain ⟨n, fields', -, hmem⟩ := hshows
    obtain ⟨m, hm, rfl⟩ := hs.exists_message hmem
    refine ⟨m, ⟨hmessages ▸ hm, fields', hmem⟩, fun m' ⟨hm', fields'', hmem'⟩ => ?_⟩
    -- both messages are the one that is recorded for the type
    have hrecorded := hs.recorded.mpr ⟨fields', hmem⟩
    have hrecorded' := hs.recorded.mpr ⟨fields'', hmem'⟩
    exact List.inj_on_of_nodup_map hs.nodup_names (hmessages ▸ hm') hm
      (Option.some.inj (hrecorded'.symm.trans hrecorded))

/-- Making calls never fails, whatever names are open. -/
theorem exists_calls (c : SchemaConfig) {Q : Purpose → Prop} (hclosed : Purpose.Closed Q)
    {fs : List Subprogram}
    (hQ : ∀ f ∈ fs.filter Subprogram.isExpressible, Q (.request f) ∧ Q (.response f))
    {layout : Purposes} {opened : List String} {e : Emission} (hs : e.Sound Q layout opened []) :
    ∃ rpcs e' layout', (calls c fs).run e = (.ok rpcs, e') ∧ e'.Sound Q layout' opened [] ∧
      List.Forall₂ (fun f rpc => rpc.Calls layout' f)
        (fs.filter Subprogram.isExpressible) rpcs ∧
      ∀ x ∈ layout', x ∈ layout ∨ x.2.IsRecord ∨ ∃ rpc ∈ rpcs, rpc.Has x := by
  have hends := ends_calls (c := c) hclosed hQ hs
  unfold Ends at hends
  rcases hrun : (calls c fs).run e with ⟨err | rpcs, e'⟩
  · rw [hrun] at hends
    exact hends.elim
  · rw [hrun] at hends
    obtain ⟨layout', -, hsound, hcalls, hcalled⟩ := hends
    exact ⟨rpcs, e', layout', rfl, hsound, hcalls, hcalled⟩

/-- Making a file never fails, and its messages are made soundly. -/
theorem exists_sound (c : SchemaConfig) (package : String) (fs : List Subprogram) :
    ∃ (s : Schema) (layout : Purposes) (e : Emission),
      ofSubprograms c package fs = .ok s ∧ s.messages = e.messages ∧
      s.importsTimestamp = e.timestamp ∧
      e.Sound (Purpose.Of (fs.filter Subprogram.isExpressible)) layout [] [] ∧
      List.Forall₂ (fun f rpc => rpc.Calls layout f) (fs.filter Subprogram.isExpressible)
        s.rpcs ∧
      ∀ x ∈ layout, x.2.IsRecord ∨ ∃ rpc ∈ s.rpcs, rpc.Has x := by
  obtain ⟨rpcs, e, layout, hrun, hsound, hcalls, hcalled⟩ := exists_calls c
    (Purpose.closed_of (fs.filter Subprogram.isExpressible)) (fun _ hf => ⟨hf, hf⟩)
    (Emission.sound_empty _)
  unfold ofSubprograms
  rw [hrun]
  exact ⟨_, layout, e, rfl, rfl, rfl, hsound, hcalls, fun x hx =>
    (hcalled x hx).resolve_left List.not_mem_nil⟩

/-- **Schema files hold together.** Every list of subprograms gives a file, whatever it shows. The
file is coherent; its calls and messages are made for the subprograms that can be expressed, and
each named record type in it has exactly one message. All this can be read in its text, unless a
name has a character that ends a name. -/
theorem coherent_ofSubprograms (c : SchemaConfig) (package : String) (fs : List Subprogram) :
    ∃ s, ofSubprograms c package fs = .ok s ∧ s.Coherent ∧
      (∃ layout, s.MadeFor (fs.filter Subprogram.isExpressible) layout) ∧
      (s.Legible → read? s.text = some s) := by
  obtain ⟨s, layout, e, hs, hmessages, himports, hsound, hcalls, hcalled⟩ :=
    exists_sound c package fs
  have hcoherent := coherent_of_sound hsound hmessages himports hcalls
  exact ⟨s, hs, hcoherent, ⟨layout, madeFor_of_sound hsound hmessages hcalls hcalled⟩,
    fun hlegible => read?_text hlegible hcoherent.types_told⟩

/-- A procedure that takes and gives bookings, records of one type that have a timestamp. -/
def rebook : Subprogram where
  package := "TRIPS"
  name := "REBOOK"
  args := [⟨"P_OLD", 1, .input, booking⟩, ⟨"P_NEW", 2, .output, booking⟩]
where
  booking : Shape := .record (some "TRIPS.BOOKING")
    [⟨"SEAT", 1, .input, .scalar { name := "NUMBER" }⟩,
      ⟨"BOOKED_AT", 2, .input, .scalar { name := "TIMESTAMP" }⟩]

theorem rebook_coherent : ∃ s, ofSubprograms {} "TRIPS" [rebook] = .ok s ∧ s.Coherent ∧
    (∃ layout, s.MadeFor ([rebook].filter Subprogram.isExpressible) layout) ∧
    s.importsTimestamp = true ∧ s.messages.length = 3 ∧ read? s.text = some s := by
  obtain ⟨s, hs, hcoherent, hmade, hread⟩ := coherent_ofSubprograms {} "TRIPS" [rebook]
  have hrun : (ofSubprograms {} "TRIPS" [rebook]).map (fun s =>
      (s.importsTimestamp, s.messages.length, decide s.Legible)) = .ok (true, 3, true) := by
    decide +kernel
  rw [hs] at hrun
  obtain ⟨himports, hrun⟩ := Prod.mk.inj (Except.ok.inj hrun)
  obtain ⟨hmessages, hlegible⟩ := Prod.mk.inj hrun
  exact ⟨s, hs, hcoherent, hmade, himports, hmessages, hread (of_decide_eq_true hlegible)⟩

end Schema

end StoredCall
