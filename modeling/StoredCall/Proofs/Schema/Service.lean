import StoredCall.Proofs.Schema.Consistency

/-!
# Names of services and messages

The messages of a file get pairwise different names, but the name of its service is spelled from the
package alone and never taken: a message gets it as soon as one asks for it.

* `Emit.Closed`: what holds of each step of making messages holds of making all calls.
* `Emit.Unmoved`: a run that never gives out a name is the same if the name is taken beforehand.
* `Schema.reserving` makes a file with the service's name taken.
* `Spells`: names that are always asked for.
* **`Schema.service_notMem_iff`**: the service has a name of its own exactly if taking it beforehand
  would make the same file.
* `Schema.emp_shares_service`: a package `EMP` that takes rows of the table `EMP`.
-/

namespace StoredCall

open Text

/-! ## What holds of every step -/

/-- A property of programs that make messages, closed under what they are made of. -/
structure Emit.Closed (Q : {α : Type} → Emit α → Prop) : Prop where
  pure {α : Type} (a : α) : Q (Pure.pure a : Emit α)
  bind {α β : Type} {x : Emit α} {f : α → Emit β} (hx : Q x) (hf : ∀ a, Q (f a)) : Q (x >>= f)
  messageName (base : String) : Q (messageName base)
  addMessage (m : Message) : Q (addMessage m)
  recordMessage (parent field : String) (typeName : Option String)
    {fields : String → Emit (List MessageField)} (h : ∀ name, Q (fields name)) :
    Q (recordMessage parent field typeName fields)
  scalarType (s : Scalar) : Q (scalarType s)

/-- The call of a subprogram is made before those of the others. -/
theorem Schema.run_calls_cons {c : SchemaConfig} {f : Subprogram} (hf : f.expressible = .ok ())
    (rest : List Subprogram) :
    (calls c (f :: rest)).run =
      f.wire c >>= fun rpc => (calls c rest).run >>= fun r => pure (r.map (rpc :: ·)) := by
  rw [calls, hf]
  funext e
  refine (run_bind (liftM (f.wire c)) _ e).trans ?_
  refine (run_bind (calls c rest) _ ((f.wire c).run e).2).trans ?_
  show _ = (Except.map _ ((calls c rest).run ((f.wire c).run e).2).1,
    ((calls c rest).run ((f.wire c).run e).2).2)
  rcases (calls c rest).run ((f.wire c).run e).2 with ⟨_ | more, e'⟩ <;> rfl

/-- A subprogram that cannot be expressed is left out. -/
theorem Schema.calls_cons_error {c : SchemaConfig} {f : Subprogram} {err : Error}
    (hf : f.expressible = .error err) (rest : List Subprogram) :
    calls c (f :: rest) = calls c rest := by
  have hskip : err.isSkippable = true := isSkippable_of_expressibleAll _ hf
  rw [calls, hf]
  simp only [hskip, if_true]

namespace Emit.Closed

variable {Q : {α : Type} → Emit α → Prop} (h : Closed Q) {c : SchemaConfig}

include h

mutual

theorem wire : ∀ (a : Argument) (parent field : String), Q (a.wire c parent field)
  | ⟨_, _, _, .scalar s⟩, _, _ => h.bind (h.scalarType s) fun _ => h.pure _
  | ⟨_, _, _, .record typeName fields⟩, parent, field =>
    h.bind (h.recordMessage parent field typeName fun name => wireFields fields name 1 _)
      fun _ => h.pure _
  | ⟨_, _, _, .table _ none _ _⟩, _, _ => h.pure _
  | ⟨_, _, _, .table _ (some elem) _ _⟩, parent, field =>
    h.bind (wireElement elem parent field) fun _ => h.pure _

theorem wireElement : ∀ (elem : Argument) (parent field : String),
    Q (elem.wireElement c parent field)
  | ⟨_, _, _, .scalar s⟩, _, _ => h.scalarType s
  | ⟨_, _, _, .record typeName fields⟩, parent, field =>
    h.bind (h.recordMessage parent field typeName fun name => wireFields fields name 1 _)
      fun _ => h.pure _
  | ⟨_, _, _, .table ..⟩, _, _ => h.pure _

theorem wireFields : ∀ (fields : List Argument) (parent : String) (number : Nat)
    (names : List String), Q (StoredCall.wireFields c parent number names fields)
  | [], _, _, _ => by
    rw [StoredCall.wireFields]
    exact h.pure _
  | a :: rest, parent, number, names =>
    h.bind (wire a parent _) fun _ =>
      h.bind (wireFields rest parent (number + 1) names.tail) fun _ => h.pure _

end

theorem callMessage (name : String) (fields : Named) : Q (StoredCall.callMessage c name fields) :=
  h.bind (h.wireFields _ name 1 _) fun _ => h.addMessage _

theorem subprogram (f : Subprogram) : Q (f.wire c) :=
  h.bind (h.messageName _) fun _ => h.bind (h.messageName _) fun _ =>
    h.bind (h.callMessage _ _) fun _ => h.bind (h.callMessage _ _) fun _ => h.pure _

/-- **Making all calls** is made of such steps. -/
theorem calls (fs : List Subprogram) : Q (Schema.calls c fs).run := by
  induction fs with
  | nil => exact h.pure _
  | cons f rest ih =>
    cases hf : f.expressible with
    | error err =>
      rw [Schema.calls_cons_error hf]
      exact ih
    | ok u =>
      rw [Schema.run_calls_cons hf]
      exact h.bind (h.subprogram f) fun _ => h.bind ih fun _ => h.pure _

end Emit.Closed

/-! ## Records without a message -/

section Record

variable {parent field : String} {typeName : Option String}
  {fields : String → Emit (List MessageField)}

/-- What the message of a record asks to be called: like the type, or like where it stands. -/
def recordBase (parent field : String) (typeName : Option String) : String :=
  typeName.elim (parent ++ pascal field) simpleName

/-- Notes the message of a named record type. -/
def noteRecord (typeName : Option String) (name : String) : Emit Unit :=
  modify fun e => { e with records := typeName.elim e.records fun t => Assoc.put t name e.records }

/-- Makes the message of a record that has none. -/
def newRecord (parent field : String) (typeName : Option String)
    (fields : String → Emit (List MessageField)) : Emit String := do
  let name ← messageName (recordBase parent field typeName)
  noteRecord typeName name
  addMessage ⟨name, ← fields name⟩
  return name

theorem run_recordMessage (e : Emission) :
    (recordMessage parent field typeName fields).run e =
      (typeName.bind fun t => Assoc.get? t e.records).elim
        ((newRecord parent field typeName fields).run e) fun name => (name, e) := by
  cases typeName with
  | none => rfl
  | some t =>
    simp only [recordMessage, StateT.run_bind, StateT.run_get, pure_bind, Option.bind_some]
    cases Assoc.get? t e.records <;> rfl

end Record

/-! ## Taking a name beforehand -/

/-- The emission with a name taken before all others. -/
def Emission.reserve (name : String) (e : Emission) : Emission :=
  { e with used := e.used ++ [name] }

/-- A run that never gives out a name does not see whether it was taken beforehand. -/
def Emit.Unmoved (name : String) {α : Type} (x : Emit α) : Prop :=
  ∀ e : Emission, name ∉ (x.run e).2.used → name ∉ e.used ∧
    x.run (e.reserve name) = ((x.run e).1, (x.run e).2.reserve name)

namespace Emit.Unmoved

variable {name : String}

theorem bind {α β : Type} {x : Emit α} {f : α → Emit β} (hx : Unmoved name x)
    (hf : ∀ a, Unmoved name (f a)) : Unmoved name (x >>= f) := by
  intro e hnot
  obtain ⟨hmid, hrest⟩ := hf (x.run e).1 (x.run e).2 hnot
  obtain ⟨hstart, hfirst⟩ := hx e hmid
  refine ⟨hstart, ?_⟩
  rw [StateT.run_bind, hfirst]
  exact hrest

/-- A step that takes no name. -/
theorem modify {f : Emission → Emission} (hused : ∀ e, (f e).used = e.used)
    (hf : ∀ e, f (e.reserve name) = (f e).reserve name) : Unmoved name (modify f : Emit Unit) := by
  intro e hnot
  have hnot : name ∉ (f e).used := hnot
  rw [hused] at hnot
  exact ⟨hnot, congrArg (Prod.mk ()) (hf e)⟩

theorem messageName (base : String) : Unmoved name (messageName base) := by
  intro e hnot
  have hnot : name ∉ freshNameWith "" e.used (pascal base) :: e.used := hnot
  rw [List.mem_cons, not_or] at hnot
  refine ⟨hnot.2, ?_⟩
  have hsame : freshNameWith "" (e.used ++ [name]) (pascal base) =
      freshNameWith "" e.used (pascal base) := freshNameWith_append (Ne.symm hnot.1)
  show (freshNameWith "" (e.used ++ [name]) (pascal base), _) = _
  simp only [Emission.reserve, hsame]
  rfl

theorem newRecord (parent field : String) (typeName : Option String)
    {fields : String → Emit (List MessageField)} (h : ∀ n, Unmoved name (fields n)) :
    Unmoved name (newRecord parent field typeName fields) :=
  bind (messageName _) fun _ => bind (modify (fun _ => rfl) fun _ => rfl) fun _ =>
    bind (h _) fun _ => bind (modify (fun _ => rfl) fun _ => rfl) fun _ _ hnot => ⟨hnot, rfl⟩

/-- **No program that makes messages sees it.** -/
theorem closed (name : String) : Closed (@Unmoved name) where
  pure _ _ hnot := ⟨hnot, rfl⟩
  bind := bind
  messageName := messageName
  addMessage _ := modify (fun _ => rfl) fun _ => rfl
  recordMessage parent field typeName {fields} h := by
    intro e hnot
    have hrecords : (e.reserve name).records = e.records := rfl
    rw [run_recordMessage] at hnot
    rw [run_recordMessage, run_recordMessage, hrecords]
    cases hknown : typeName.bind fun t => Assoc.get? t e.records with
    | some known =>
      rw [hknown] at hnot
      exact ⟨hnot, rfl⟩
    | none =>
      rw [hknown] at hnot
      exact newRecord parent field typeName h e hnot
  scalarType _ _ hnot := ⟨hnot, rfl⟩

end Emit.Unmoved

/-! ## Names that are asked for -/

/-- The name of each record type with a message was asked for. -/
def Emission.Noted (e : Emission) : Prop :=
  ∀ t n, Assoc.get? t e.records = some n → pascal (simpleName t) ∈ e.used

/-- A program keeps what was noted. -/
def Emit.KeepsNoted {α : Type} (x : Emit α) : Prop :=
  ∀ e : Emission, e.Noted → (x.run e).2.Noted

namespace Emit.KeepsNoted

theorem bind {α β : Type} {x : Emit α} {f : α → Emit β} (hx : KeepsNoted x)
    (hf : ∀ a, KeepsNoted (f a)) : KeepsNoted (x >>= f) :=
  fun e he => hf (x.run e).1 (x.run e).2 (hx e he)

theorem addMessage (m : Message) : KeepsNoted (addMessage m) := fun _ he => he

theorem messageName (base : String) : KeepsNoted (messageName base) :=
  fun _ he t n ht => List.mem_cons_of_mem _ (he t n ht)

/-- The name of a type is asked for before its message is noted. -/
theorem opening {e : Emission} (he : e.Noted) (parent field : String) (typeName : Option String) :
    (e.opening typeName
      (freshNameWith "" e.used (pascal (recordBase parent field typeName)))).Noted := by
  intro u n hu
  cases typeName with
  | none => exact List.mem_cons_of_mem _ (he u n hu)
  | some t =>
    by_cases hut : u = t
    · rw [hut]
      exact mem_freshNameWith "" e.used (pascal (simpleName t))
    · have hold : Assoc.get? u e.records = some n :=
        (Assoc.get?_put_of_ne hut _ e.records).symm.trans hu
      exact List.mem_cons_of_mem _ (he u n hold)

theorem newRecord (parent field : String) (typeName : Option String)
    {fields : String → Emit (List MessageField)} (h : ∀ n, KeepsNoted (fields n)) :
    KeepsNoted (newRecord parent field typeName fields) := by
  intro e he
  have hrest : ∀ n, KeepsNoted (fields n >>= fun ms => StoredCall.addMessage ⟨n, ms⟩) :=
    fun n => bind (h n) fun ms => addMessage ⟨n, ms⟩
  exact hrest _ _ (opening he parent field typeName)

theorem closed : Closed @KeepsNoted where
  pure _ _ he := he
  bind := bind
  messageName := messageName
  addMessage := addMessage
  recordMessage parent field typeName {fields} h := by
    intro e he
    rw [run_recordMessage]
    cases typeName.bind fun t => Assoc.get? t e.records with
    | some known => exact he
    | none => exact newRecord parent field typeName h e he
  scalarType _ _ he := he

end Emit.KeepsNoted

section Asked

variable {c : SchemaConfig} {e : Emission}

/-- Names that were given out stay so. -/
theorem mem_used_of_closed {α : Type} {x : Emit α} (hx : ∀ name, Emit.Unmoved name x)
    {name : String} (h : name ∈ e.used) : name ∈ (x.run e).2.used := by
  by_contra hnot
  exact (hx name e hnot).1 h

/-- A call asks for the names of its messages. -/
theorem Subprogram.mem_used_wire (f : Subprogram) :
    pascal (pascal f.ident ++ "Input") ∈ ((f.wire c).run e).2.used ∧
      pascal (pascal f.ident ++ "Output") ∈ ((f.wire c).run e).2.used := by
  have hrest : ∀ (input output : String) {name : String} {e : Emission}, name ∈ e.used →
      name ∈ ((callMessage c input f.requestFields >>= fun _ =>
        callMessage c output f.responseFields).run e).2.used := fun input output {name e} hname =>
    mem_used_of_closed (fun other => Emit.Unmoved.bind
      ((Emit.Unmoved.closed other).callMessage input _) fun _ =>
        (Emit.Unmoved.closed other).callMessage output _) hname
  refine ⟨hrest _ _ (List.mem_cons_of_mem _ ?_), hrest _ _ ?_⟩
  · exact mem_freshNameWith "" e.used _
  · exact mem_freshNameWith "" (freshNameWith "" e.used _ :: e.used) _

/-- So do all calls. -/
theorem Schema.mem_used_calls {fs : List Subprogram} {f : Subprogram}
    (hf : f ∈ fs.filter Subprogram.isExpressible) :
    pascal (pascal f.ident ++ "Input") ∈ ((calls c fs).run e).2.used ∧
      pascal (pascal f.ident ++ "Output") ∈ ((calls c fs).run e).2.used := by
  induction fs generalizing e with
  | nil => exact absurd hf List.not_mem_nil
  | cons g rest ih =>
    cases hg : g.expressible with
    | error err =>
      have hout : ¬ g.isExpressible = true := by
        rw [Subprogram.isExpressible_iff, hg]
        exact nofun
      rw [List.filter_cons_of_neg hout] at hf
      rw [calls_cons_error hg]
      exact ih hf
    | ok u =>
      rw [List.filter_cons_of_pos (Subprogram.isExpressible_iff.mpr hg)] at hf
      have hrun : ((calls c (g :: rest)).run e).2 =
          ((calls c rest).run ((g.wire c).run e).2).2 := by
        rw [run_calls_cons hg]
        rfl
      rw [hrun]
      rcases List.mem_cons.mp hf with rfl | hf
      · have hstay : ∀ {name : String}, name ∈ ((f.wire c).run e).2.used →
            name ∈ ((calls c rest).run ((f.wire c).run e).2).2.used := fun hname =>
          mem_used_of_closed (fun other => (Emit.Unmoved.closed other).calls rest) hname
        exact ⟨hstay f.mem_used_wire.1, hstay f.mem_used_wire.2⟩
      · exact ih hf

end Asked

/-- What the messages of a file ask to be called, whatever else is in it: the messages of each call,
and those of the named record types that calls take and give. -/
inductive Spells (fs : List Subprogram) : String → Prop where
  | input {f : Subprogram} (hf : f ∈ fs) : Spells fs (pascal f.ident ++ "Input")
  | output {f : Subprogram} (hf : f ∈ fs) : Spells fs (pascal f.ident ++ "Output")
  | record {f : Subprogram} (hf : f ∈ fs) {a : Argument} (ha : a ∈ f.args ++ f.returns.toList)
      {t : String} {fields : List Argument} (h : a.shape.item = .record (some t) fields) :
      Spells fs (simpleName t)

/-- Each argument and return value is in a request or in a response. -/
theorem Subprogram.mem_requestFields_or {f : Subprogram} {a : Argument}
    (ha : a ∈ f.args ++ f.returns.toList) :
    ∃ n, (n, a) ∈ f.requestFields ∨ (n, a) ∈ f.responseFields := by
  rcases List.mem_append.mp ha with ha | ha
  · have hsnd : (f.argFields.zip f.args).map Prod.snd = f.args :=
      List.map_snd_zip (by rw [f.length_argFields])
    rw [← hsnd] at ha
    obtain ⟨x, hx, rfl⟩ := List.mem_map.mp ha
    refine ⟨x.1, ?_⟩
    cases hd : x.2.direction.isInput with
    | true => exact .inl (List.mem_filter.mpr ⟨hx, hd⟩)
    | false =>
      have hout : x.2.direction.isOutput = true := by
        revert hd
        cases x.2.direction <;> simp [Direction.isInput, Direction.isOutput]
      exact .inr (List.mem_append_right _ (List.mem_filter.mpr ⟨hx, hout⟩))
  · have hret : f.returns = some a := Option.mem_toList.mp ha
    refine ⟨freshName f.argFields returnField, .inr (List.mem_append_left _ ?_)⟩
    simp [retField, hret]

namespace Schema

/-- The schema of a package with the name of the service taken beforehand. -/
def reserving (c : SchemaConfig) (package : String) (fs : List Subprogram) :
    Except Error Schema := do
  let made := (calls c fs).run { used := [pascal package] }
  return {
    package := c.package.getD (snake package)
    service := pascal package
    rpcs := ← made.1
    messages := made.2.messages
    importsTimestamp := made.2.timestamp }

/-- The names of the messages of a file. -/
def messageNames (s : Schema) : List String := s.messages.map Message.name

/-- A name that no message gets can be taken beforehand. -/
theorem run_calls_taken {c : SchemaConfig} {fs : List Subprogram} {rpcs : List Rpc} {e : Emission}
    {name : String} (hrun : (calls c fs).run {} = (.ok rpcs, e)) (hfree : name ∉ e.used) :
    (calls c fs).run { used := [name] } = (.ok rpcs, e.reserve name) := by
  have hstate : ((calls c fs).run {}).2 = e := congrArg Prod.snd hrun
  have hsame := ((Emit.Unmoved.closed name).calls fs {} (hstate ▸ hfree)).2
  exact hsame.trans (congrArg (fun r => (r.1, r.2.reserve name)) hrun)

/-- The names that messages ask for are names of messages. -/
theorem mem_messageNames_of_spells {c : SchemaConfig} {fs : List Subprogram} {rpcs : List Rpc}
    {e : Emission} {layout : Purposes} (hrun : (calls c fs).run {} = (.ok rpcs, e))
    (hs : e.Sound (Purpose.Of (fs.filter Subprogram.isExpressible)) layout [] [])
    (hcalls : List.Forall₂ (fun f rpc => rpc.Calls layout f)
      (fs.filter Subprogram.isExpressible) rpcs) {base : String}
    (h : Spells (fs.filter Subprogram.isExpressible) base) :
    pascal base ∈ e.messages.map Message.name := by
  have hstate : ((calls c fs).run {}).2 = e := congrArg Prod.snd hrun
  refine hs.names.mem_iff.mpr ?_
  cases h with
  | input hf => exact hstate ▸ (mem_used_calls hf).1
  | output hf => exact hstate ▸ (mem_used_calls hf).2
  | @record f hf a ha t fields hitem =>
    have hnoted : e.Noted := hstate ▸ Emit.KeepsNoted.closed.calls fs {} fun t n ht => by
      simp [Assoc.get?] at ht
    obtain ⟨rpc, -, hcall⟩ := exists_of_forall₂ hcalls hf
    obtain ⟨n, p, hp, hmem⟩ : ∃ n p, (n, p) ∈ layout ∧ ∃ m, (m, a) ∈ p.args := by
      obtain ⟨m, hm | hm⟩ := Subprogram.mem_requestFields_or ha
      · exact ⟨_, _, hcall.input, m, hm⟩
      · exact ⟨_, _, hcall.output, m, hm⟩
    obtain ⟨m, hm⟩ := hmem
    obtain ⟨_, _, _, g, _, hstands⟩ := hs.exists_stands hp hm
    have hshows := hstands.shows
    rw [hitem] at hshows
    obtain ⟨name, fields', -, hname⟩ := hshows
    exact hnoted t name (hs.recorded.mpr ⟨fields', hname⟩)

/-- **The service has a name of its own exactly if taking it beforehand makes the same file.** With
the name taken no message has it, whatever the subprograms are; without, each message that asks for
it makes sure that one has it. -/
theorem service_notMem_iff (c : SchemaConfig) (package : String) (fs : List Subprogram) :
    ∃ s s', ofSubprograms c package fs = .ok s ∧ reserving c package fs = .ok s' ∧
      s'.service = s.service ∧ s'.service ∉ s'.messageNames ∧
      (s.service ∉ s.messageNames ↔ s' = s) ∧
      ∀ base, Spells (fs.filter Subprogram.isExpressible) base → pascal base = s.service →
        s.service ∈ s.messageNames := by
  let Q := Purpose.Of (fs.filter Subprogram.isExpressible)
  have hempty := Emission.sound_empty Q
  obtain ⟨rpcs, e, layout, hrun, hs, hcalls, -⟩ :=
    exists_calls c (Purpose.closed_of _) (fun _ hf => ⟨hf, hf⟩) hempty
  -- with the name taken it is open for good, since no message is made for the service
  let Q' := fun p => Q p ∨ p = .service
  have hclosed : Purpose.Closed Q' := by
    rintro p (hp | rfl) x hx
    · exact fun t fields hitem => .inl (hp.allowed x hx t fields hitem)
    · cases hx
  have htaken : Emission.Sound Q' [(pascal package, .service)] [pascal package] []
      { used := [pascal package] } :=
    (Emission.sound_empty Q').pushCall List.not_mem_nil (startsTall_pascal package) (.inr rfl)
      fun ⟨_, _, h⟩ => by cases h
  obtain ⟨rpcs', e', layout', hrun', hs', -⟩ :=
    exists_calls c hclosed (fun _ hf => ⟨.inl hf, .inl hf⟩) htaken
  have hown : pascal package ∉ e'.messages.map Message.name :=
    (List.nodup_cons.mp (hs'.names.nodup_iff.mpr hs'.nodup)).1
  refine ⟨⟨c.package.getD (snake package), pascal package, rpcs, e.messages, e.timestamp⟩,
    ⟨c.package.getD (snake package), pascal package, rpcs', e'.messages, e'.timestamp⟩,
    ?_, ?_, rfl, ?_, ?_, ?_⟩
  · rw [ofSubprograms, hrun]
    rfl
  · rw [reserving, hrun']
    rfl
  · exact hown
  · refine ⟨fun hnot => ?_, fun heq => ?_⟩
    · have hfree : pascal package ∉ e.used := fun hused => hnot (hs.names.mem_iff.mpr hused)
      obtain ⟨hrpcs, hstate⟩ := Prod.mk.inj (hrun'.symm.trans (run_calls_taken hrun hfree))
      rw [Except.ok.inj hrpcs, hstate]
      rfl
    · rw [← heq]
      exact hown
  · intro base hbase hservice
    have hservice : pascal base = pascal package := hservice
    have hmem := mem_messageNames_of_spells hrun hs hcalls hbase
    rw [hservice] at hmem
    exact hmem

/-- A procedure of the package `EMP` that takes a row of the table `EMP`. -/
def hire : Subprogram where
  package := "EMP"
  name := "HIRE"
  args := [⟨"P_ROW", 1, .input, .record (some "SCOTT.EMP%ROWTYPE")
    [⟨"EMPNO", 1, .input, .scalar { name := "NUMBER" }⟩]⟩]

/-- **A message can have the name of the service**: the row of `EMP` in the file of `EMP`. -/
theorem emp_shares_service : ∃ s, ofSubprograms {} "EMP" [hire] = .ok s ∧ s.service = "Emp" ∧
    s.messageNames = ["Emp", "HireInput", "HireOutput"] ∧ s.service ∈ s.messageNames := by
  have hnames : (ofSubprograms {} "EMP" [hire]).map (fun s => (s.service, s.messageNames)) =
      .ok ("Emp", ["Emp", "HireInput", "HireOutput"]) := by decide +kernel
  cases hs : ofSubprograms {} "EMP" [hire] with
  | error err =>
    rw [hs] at hnames
    cases hnames
  | ok s =>
    rw [hs] at hnames
    obtain ⟨hservice, hmessages⟩ := Prod.mk.inj (Except.ok.inj hnames)
    refine ⟨s, rfl, hservice, hmessages, ?_⟩
    rw [hservice, hmessages]
    decide

end Schema

end StoredCall
