import StoredCall.Proofs.Assoc
import StoredCall.Proofs.Program
import StoredCall.Proofs.Text.Blank
import StoredCall.Subprogram.OfRows

/-!
# Rows come back

The rows of a subprogram list the nodes of its trees in preorder. Building the trees and listing
their nodes gives the rows back, except that the return value is listed first.

* `Argument.nodes` lists what rows say about an argument and its parts; `Subprogram.nodes` lists the
  return value first.
* `Draft.side` are the nodes of a draft that belong to the return value, or those that do not.
* `Draft.lists_of_add`: a row adds its node at the end of one side, whatever is open.
* **`Subprogram.nodes_of_allOfRows`**: hence the nodes are the rows, the return value first.
-/

namespace StoredCall

open Text

/-! ## Data types -/

/-- The form of a row's shape is that of its data type. -/
theorem ArgRow.flavor_shape (r : ArgRow) : r.shape.flavor = Flavor.ofDataType r.dataType := by
  have hflavor : Flavor.ofDataType (upper (trim r.dataType)) = Flavor.ofDataType r.dataType := by
    unfold Flavor.ofDataType
    rw [upper_trim_upper_trim]
  rw [← hflavor]
  unfold shape
  cases h : Flavor.ofDataType (upper (trim r.dataType)) <;> simp only [h] <;> rfl

/-! ## Nodes -/

/-- What a row says about one node of a tree. -/
structure ArgNode where
  level : Nat
  position : UInt32
  name : String
  direction : Direction
  flavor : Flavor
  deriving DecidableEq, Repr

/-- The node of an argument itself. -/
def Argument.node (level : Nat) (a : Argument) : ArgNode :=
  ⟨level, a.position, a.name, a.direction, a.flavor⟩

mutual

/-- The nodes of an argument and of all its parts, in preorder. -/
def Argument.nodes (level : Nat) : Argument → List ArgNode
  | ⟨name, position, direction, shape⟩ =>
    ⟨level, position, name, direction, shape.flavor⟩ :: shape.nodes (level + 1)

/-- The nodes of the parts of a shape, in preorder. -/
def Shape.nodes (level : Nat) : Shape → List ArgNode
  | .scalar _ => []
  | .record _ fields => nodesAll level fields
  | .table _ elem _ _ => nodesElem level elem

/-- The nodes of siblings and of their parts, in preorder. -/
def nodesAll (level : Nat) : List Argument → List ArgNode
  | [] => []
  | a :: rest => a.nodes level ++ nodesAll level rest

/-- The nodes of a table's element and of its parts, in preorder. -/
def nodesElem (level : Nat) : Option Argument → List ArgNode
  | none => []
  | some a => a.nodes level

end

/-- The nodes of a subprogram, those of the return value first. -/
def Subprogram.nodes (f : Subprogram) : List ArgNode :=
  nodesAll 0 (f.returns.toList ++ f.args)

theorem Argument.nodes_eq (level : Nat) (a : Argument) :
    a.nodes level = a.node level :: nodesAll (level + 1) a.shape.parts := by
  obtain ⟨name, position, direction, shape⟩ := a
  rcases shape with _ | _ | ⟨_, _ | elem, _, _⟩
  · rfl
  · rfl
  · rfl
  · simp [Argument.nodes, Shape.nodes, nodesElem, Shape.parts, nodesAll, node, flavor]

theorem nodesAll_append (level : Nat) (as bs : List Argument) :
    nodesAll level (as ++ bs) = nodesAll level as ++ nodesAll level bs := by
  induction as with
  | nil => rfl
  | cons a rest ih => rw [List.cons_append, nodesAll, nodesAll, ih, List.append_assoc]

theorem nodesAll_singleton (level : Nat) (a : Argument) : nodesAll level [a] = a.nodes level :=
  List.append_nil _

/-- Level and position of a node. -/
def ArgNode.place (n : ArgNode) : Nat × UInt32 := (n.level, n.position)

mutual

theorem Argument.map_place_nodes (level : Nat) : ∀ a : Argument,
    (a.nodes level).map ArgNode.place = a.listing level
  | ⟨_, position, _, shape⟩ =>
    congrArg ((level, position) :: ·) (Shape.map_place_nodes (level + 1) shape)

theorem Shape.map_place_nodes (level : Nat) : ∀ shape : Shape,
    (shape.nodes level).map ArgNode.place = shape.listing level
  | .scalar _ => rfl
  | .record _ fields => map_place_nodesAll level fields
  | .table _ elem _ _ => map_place_nodesElem level elem

theorem map_place_nodesAll (level : Nat) : ∀ as : List Argument,
    (nodesAll level as).map ArgNode.place = listingAll level as
  | [] => rfl
  | a :: rest => by
    rw [nodesAll, listingAll, List.map_append, Argument.map_place_nodes level a,
      map_place_nodesAll level rest]

theorem map_place_nodesElem (level : Nat) : ∀ elem : Option Argument,
    (nodesElem level elem).map ArgNode.place = listingElem level elem
  | none => rfl
  | some a => Argument.map_place_nodes level a

end

/-- A listing of a subprogram gives level and position of its nodes. -/
theorem Subprogram.map_place_nodes (f : Subprogram) : f.nodes.map ArgNode.place = f.listing :=
  map_place_nodesAll 0 _

/-! ## Rows -/

/-- A row says what a node is. -/
structure ArgRow.Lists (r : ArgRow) (n : ArgNode) : Prop where
  level : n.level = r.level.toNat
  position : n.position = r.position
  name : n.name = r.argument
  direction : r.direction = .ok n.direction
  flavor : n.flavor = Flavor.ofDataType r.dataType

theorem ArgRow.lists_of_toArgument {r : ArgRow} {a : Argument} (h : r.toArgument = .ok a) :
    a.name = r.argument ∧ r.Lists (a.node r.level.toNat) := by
  obtain ⟨direction, hd, h⟩ := except_bind_eq_ok.mp h
  cases h
  refine ⟨rfl, rfl, rfl, rfl, hd, ?_⟩
  simp only [Argument.node, Argument.flavor]
  exact r.flavor_shape

/-- The rows that say more than that there are no arguments. -/
def shownRows (rows : List ArgRow) : List ArgRow := rows.filter fun r => !r.isPlaceholder

/-- The row of the return value. -/
def ArgRow.isReturn (r : ArgRow) : Bool := r.level = 0 && r.argument = ""

/-- The rows that belong to the return value, or those that do not: a row below level zero belongs
where the last row at level zero does, or where `current` says if there is none before it. -/
def rowsOf (side : Bool) : (current : Bool) → List ArgRow → List ArgRow
  | _, [] => []
  | current, r :: rest =>
    let current := if r.level = 0 then r.isReturn else current
    if current = side then r :: rowsOf side current rest else rowsOf side current rest

/-- Rows with the return value and its parts first. -/
def returnFirst (rows : List ArgRow) : List ArgRow :=
  rowsOf true false rows ++ rowsOf false false rows

theorem ArgRow.level_of_isReturn {r : ArgRow} (h : r.isReturn = true) : r.level = 0 := by
  simp only [isReturn, Bool.and_eq_true, decide_eq_true_eq] at h
  exact h.1

section ReturnFirst

variable {rows : List ArgRow}

theorem rowsOf_of_others (h : ∀ r ∈ rows, r.isReturn = false) (side : Bool) :
    rowsOf side false rows = if side then [] else rows := by
  induction rows with
  | nil => cases side <;> rfl
  | cons r rest ih =>
    rw [List.forall_mem_cons] at h
    rw [rowsOf, h.1, ite_self, ih h.2]
    cases side <;> rfl

/-- The parts of the return value go on up to the next row at level zero. -/
theorem rowsOf_append_of_others (h : ∀ r ∈ rows, r.isReturn = false) :
    rowsOf true true rows ++ rowsOf false true rows = rows := by
  induction rows with
  | nil => rfl
  | cons r rest ih =>
    rw [List.forall_mem_cons] at h
    by_cases hl : r.level = 0
    · simp [rowsOf, hl, h.1, rowsOf_of_others h.2]
    · simp [rowsOf, hl, ih h.2]

/-- Rows stay in order if the return value, if there is one, is first already. -/
theorem returnFirst_eq_self (h : ∀ r ∈ rows.tail, r.isReturn = false) :
    returnFirst rows = rows := by
  cases rows with
  | nil => rfl
  | cons r rest =>
    rw [List.tail_cons] at h
    unfold returnFirst
    cases hr : r.isReturn with
    | true => simp [rowsOf, hr, ArgRow.level_of_isReturn hr, rowsOf_append_of_others h]
    | false => simp [rowsOf, hr, rowsOf_of_others h]

end ReturnFirst

/-! ## Drafts -/

namespace Frame

/-- A frame of a composite; a table has no more than `n` parts. -/
structure Holds (n : Nat) (f : Frame) : Prop where
  composite : f.head.flavor ≠ .simple
  single : f.head.flavor = .table → f.parts.length ≤ n

/-- The nodes of a frame whose head is at a level. -/
def nodes (level : Nat) (f : Frame) : List ArgNode :=
  f.head.node level :: nodesAll (level + 1) f.parts

variable {f : Frame}

theorem Holds.add (h : f.Holds 0) (a : Argument) :
    Holds 1 { f with parts := f.parts ++ [a] } := by
  refine ⟨h.composite, fun ht => ?_⟩
  rw [List.length_append]
  exact Nat.succ_le_succ (h.single ht)

/-- Closing a frame keeps its nodes. -/
theorem nodes_close (h : f.Holds 1) (level : Nat) : f.close.nodes level = f.nodes level := by
  obtain ⟨⟨name, position, direction, shape⟩, parts⟩ := f
  cases shape with
  | scalar s => exact absurd rfl h.composite
  | record typeName fields => rfl
  | table typeName elem nested cursor =>
    have hparts : parts.head?.toList = parts := by
      match parts, h.single rfl with
      | [], _ => rfl
      | [_], _ => rfl
    rw [Argument.nodes_eq]
    exact congrArg (fun ps => _ :: nodesAll (level + 1) ps) hparts

end Frame

namespace Draft

/-- The nodes of open composites, the outermost first. -/
def openNodes : List Frame → List ArgNode
  | [] => []
  | f :: rest => openNodes rest ++ f.nodes rest.length

/-- The open composites, without the parts that they have so far. -/
def heads (d : Draft) : List Argument := d.opened.map Frame.head

/-- Whether the open composites belong to the return value. -/
def inReturn (d : Draft) : Bool := d.heads.getLast?.any fun a => a.name = ""

/-- Whether an argument that comes next belongs to the return value, or is it. -/
def takes (d : Draft) (a : Argument) : Bool :=
  if d.opened.isEmpty then a.name = "" else d.inReturn

/-- What is finished at the top, of the return value or besides it. -/
def finished (d : Draft) : (side : Bool) → List Argument
  | true => d.returns.toList
  | false => d.args

/-- The nodes of a draft that belong to the return value, or those that do not. -/
def side (d : Draft) (s : Bool) : List ArgNode :=
  nodesAll 0 (d.finished s) ++ if d.inReturn = s then openNodes d.opened else []

/-- Tables below the innermost composite await the element that is open; no return value is finished
while one is open. -/
structure Tidy (d : Draft) : Prop where
  top : ∀ f ∈ d.opened.head?, f.Holds 1
  below : ∀ f ∈ d.opened.tail, f.Holds 0
  free : d.inReturn = true → d.returns = none

/-- An argument may come next. -/
structure Ready (d : Draft) (a : Argument) : Prop where
  opened : ∀ f ∈ d.opened, f.Holds 0
  free : d.takes a = true → d.returns = none

variable {d d' : Draft} {a : Argument}

section Place

/-! ### Placing and closing -/

theorem heads_place (d : Draft) (a : Argument) : (d.place a).heads = d.heads := by
  obtain ⟨args, returns, _ | ⟨f, rest⟩⟩ := d
  · simp only [place]
    split <;> rfl
  · rfl

theorem inReturn_place (d : Draft) (a : Argument) : (d.place a).inReturn = d.inReturn := by
  rw [inReturn, heads_place, inReturn]

theorem length_opened (d : Draft) : d.opened.length = d.heads.length := by
  rw [heads, List.length_map]

/-- Putting a finished argument where it belongs adds its nodes. -/
theorem side_place (hr : d.Ready a) (s : Bool) : (d.place a).side s =
    d.side s ++ if d.takes a = s then a.nodes d.opened.length else [] := by
  have hin := inReturn_place d a
  obtain ⟨args, returns, opened⟩ := d
  cases opened with
  | nil =>
    by_cases ha : a.name = ""
    · have hnone : returns = none := hr.free (by simp [takes, ha])
      cases s <;>
        simp [place, side, takes, finished, ha, hnone, openNodes, nodesAll_singleton]
      rfl
    · cases s <;>
        simp [place, side, takes, finished, ha, openNodes, nodesAll_append, nodesAll_singleton]
  | cons f rest =>
    have hparts : openNodes ({ f with parts := f.parts ++ [a] } :: rest) =
        openNodes (f :: rest) ++ a.nodes (f :: rest).length := by
      simp [openNodes, Frame.nodes, nodesAll_append, nodesAll_singleton]
    unfold side
    rw [hin]
    simp only [place, takes, List.isEmpty_cons, Bool.false_eq_true, if_false, hparts]
    by_cases hs : inReturn ⟨args, returns, f :: rest⟩ = s
    · simp only [if_pos hs, List.append_assoc]
      rfl
    · simp only [if_neg hs, List.append_nil]
      rfl

theorem tidy_place (hr : d.Ready a) : (d.place a).Tidy := by
  have hin := inReturn_place d a
  obtain ⟨args, returns, opened⟩ := d
  cases opened with
  | nil =>
    have hnone : (place ⟨args, returns, []⟩ a).opened = [] := by
      simp only [place]
      split <;> rfl
    refine ⟨by simp [hnone], by simp [hnone], fun h => ?_⟩
    rw [hin] at h
    cases h
  | cons f rest =>
    refine ⟨?_, ?_, fun h => ?_⟩
    · rintro _ ⟨⟩
      exact (hr.opened f List.mem_cons_self).add a
    · exact fun g hg => hr.opened g (List.mem_cons_of_mem _ hg)
    · exact hr.free (hin.symm.trans h)

/-- A draft with one more composite open. -/
def push (d : Draft) (f : Frame) : Draft := { d with opened := f :: d.opened }

theorem inReturn_push (d : Draft) (f : Frame) : (d.push f).inReturn = d.takes f.head := by
  obtain ⟨args, returns, _ | ⟨g, rest⟩⟩ := d
  · rfl
  · show ((f.head :: g.head :: rest.map Frame.head).getLast?.any fun a => a.name = "") = _
    rw [List.getLast?_cons_cons]
    rfl

/-- Opening a composite adds its nodes. -/
theorem side_push (d : Draft) (f : Frame) (s : Bool) : (d.push f).side s =
    d.side s ++ if d.takes f.head = s then f.nodes d.opened.length else [] := by
  unfold side
  rw [inReturn_push]
  obtain ⟨args, returns, _ | ⟨g, rest⟩⟩ := d
  · simp [push, openNodes, finished]
  · have htakes : takes ⟨args, returns, g :: rest⟩ f.head = inReturn ⟨args, returns, g :: rest⟩ :=
      rfl
    rw [htakes]
    by_cases hs : inReturn ⟨args, returns, g :: rest⟩ = s
    · simp only [if_pos hs, List.append_assoc]
      rfl
    · simp only [if_neg hs, List.append_nil]
      rfl

theorem ready_of_tidy {f : Frame} (ht : (d.push f).Tidy) : d.Ready f.close :=
  ⟨ht.below, fun h => ht.free ((inReturn_push d f).trans h)⟩

/-- Closing a composite keeps all nodes. -/
theorem close_push {f : Frame} (ht : (d.push f).Tidy) : (d.push f).close.Tidy ∧
    (d.push f).close.heads = d.heads ∧ ∀ s, (d.push f).close.side s = (d.push f).side s := by
  have hr := ready_of_tidy ht
  refine ⟨tidy_place hr, heads_place d _, fun s => ?_⟩
  show (d.place f.close).side s = _
  rw [side_place hr, side_push, Frame.nodes_close (ht.top f rfl)]
  rfl

/-- Closing composites keeps all nodes. -/
theorem closeMany_spec (ht : d.Tidy) (n : Nat) : (closeMany n d).Tidy ∧
    (closeMany n d).heads = d.heads.drop n ∧ ∀ s, (closeMany n d).side s = d.side s := by
  induction n generalizing d with
  | zero => exact ⟨ht, rfl, fun _ => rfl⟩
  | succ n ih =>
    obtain ⟨args, returns, opened⟩ := d
    cases opened with
    | nil =>
      obtain ⟨h₁, h₂, h₃⟩ := ih ht
      refine ⟨h₁, h₂.trans ?_, h₃⟩
      simp [heads]
    | cons f rest =>
      obtain ⟨ht₁, hheads, hside⟩ := close_push (d := ⟨args, returns, rest⟩) ht
      obtain ⟨h₁, h₂, h₃⟩ := ih ht₁
      refine ⟨h₁, h₂.trans ?_, fun s => (h₃ s).trans (hside s)⟩
      rw [hheads]
      rfl

/-- Closing composites until no more than `level` are open. -/
theorem closeTo_spec (ht : d.Tidy) (level : Nat) : (d.closeTo level).Tidy ∧
    (d.closeTo level).heads = d.heads.drop (d.opened.length - level) ∧
      ∀ s, (d.closeTo level).side s = d.side s :=
  closeMany_spec ht _

end Place

/-! ### One more row -/

theorem tidy_push (hr : d.Ready a) (hc : a.flavor ≠ .simple) : (d.push { head := a }).Tidy := by
  refine ⟨?_, hr.opened, fun h => ?_⟩
  · rintro _ ⟨⟩
    exact ⟨hc, fun _ => Nat.zero_le 1⟩
  · exact hr.free ((inReturn_push d { head := a }).symm.trans h)

theorem parts_of_simple (h : a.flavor = .simple) : a.shape.parts = [] := by
  obtain ⟨name, position, direction, shape⟩ := a
  cases shape with
  | scalar s => rfl
  | record => cases h
  | table => cases h

/-- What is admitted may come next. -/
theorem ready_of_admits {label : String} (ht : d.Tidy) (h : d.admits label a = .ok ()) :
    d.Ready a := by
  obtain ⟨args, returns, opened⟩ := d
  cases opened with
  | nil =>
    refine ⟨fun _ hf => absurd hf List.not_mem_nil, fun htakes => ?_⟩
    have hname : a.name = "" := of_decide_eq_true htakes
    cases returns with
    | none => rfl
    | some _ =>
      rw [admits, if_pos ⟨hname, rfl⟩] at h
      cases h
  | cons f rest =>
    have htop : f.Holds 1 := ht.top f rfl
    refine ⟨List.forall_mem_cons.mpr ⟨⟨htop.composite, fun htable => ?_⟩, ht.below⟩, ht.free⟩
    obtain ⟨⟨name, position, direction, shape⟩, parts⟩ := f
    match shape, parts, htable with
    | .table .., [], _ => exact Nat.le_refl 0
    | .table .., _ :: _, _ => cases h

theorem takes_of_opened (h : d.opened ≠ []) (a : Argument) : d.takes a = d.inReturn := by
  rw [takes, if_neg (by simpa using h)]

/-- Whether the next row belongs to the return value, or is its row. -/
def rowSide (d : Draft) (r : ArgRow) : Bool := if r.level = 0 then r.isReturn else d.inReturn

/-- Where the next row belongs, once what ends before it is closed. -/
theorem takes_closeTo {r : ArgRow} (ht : d.Tidy) (hlevel : r.level.toNat ≤ d.opened.length)
    (hname : a.name = r.argument) : (d.closeTo r.level.toNat).opened.length = r.level.toNat ∧
      (d.closeTo r.level.toNat).takes a = d.rowSide r := by
  obtain ⟨-, hheads, -⟩ := closeTo_spec ht r.level.toNat
  have hlen : (d.closeTo r.level.toNat).opened.length = r.level.toNat := by
    rw [length_opened, hheads, List.length_drop, ← length_opened]
    omega
  refine ⟨hlen, ?_⟩
  by_cases hl : r.level = 0
  · have hnil : (d.closeTo r.level.toNat).opened = [] := by
      rw [← List.length_eq_zero_iff, hlen, hl]
      rfl
    rw [takes, hnil, List.isEmpty_nil, if_pos rfl, rowSide, if_pos hl, ArgRow.isReturn, hl, hname]
    rfl
  · have hpos : r.level.toNat ≠ 0 := fun h => hl (UInt8.toNat_inj.mp h)
    have hopened : (d.closeTo r.level.toNat).opened ≠ [] :=
      List.ne_nil_of_length_pos (by omega)
    have hlast : ¬ d.heads.length ≤ d.opened.length - r.level.toNat := by
      rw [← length_opened]
      omega
    rw [takes_of_opened hopened, inReturn, hheads, List.getLast?_drop, if_neg hlast, rowSide,
      if_neg hl, inReturn]

/-- **A row adds its node** at the end of one side, and what is open then belongs there. -/
theorem lists_of_add {label : String} {r : ArgRow} (ht : d.Tidy) (hp : r.isPlaceholder = false)
    (h : d.add label r = .ok d') : d'.Tidy ∧ (r.level ≠ 0 → d.opened ≠ []) ∧
      (d'.opened ≠ [] → d'.inReturn = d.rowSide r) ∧
      ∃ n, r.Lists n ∧ ∀ s, d'.side s = d.side s ++ if d.rowSide r = s then [n] else [] := by
  unfold add at h
  rw [hp, if_neg (by simp)] at h
  split at h
  · cases h
  rename_i hlevel
  have hlevel := Nat.le_of_not_lt hlevel
  obtain ⟨ht₁, -, hside⟩ := closeTo_spec ht r.level.toNat
  obtain ⟨a, ha, h⟩ := except_bind_eq_ok.mp h
  obtain ⟨_, hadmits, h⟩ := except_bind_eq_ok.mp h
  have hready := ready_of_admits ht₁ hadmits
  obtain ⟨hname, hlists⟩ := ArgRow.lists_of_toArgument ha
  obtain ⟨hlen, htakes⟩ := takes_closeTo ht hlevel hname
  have hopened : r.level ≠ 0 → d.opened ≠ [] := fun hl hnil => by
    rw [hnil, List.length_nil, Nat.le_zero] at hlevel
    exact hl (UInt8.toNat_inj.mp hlevel)
  -- A row without parts is placed at once; any other stays open for the rows below it.
  split at h
  · rename_i hsimple
    cases h
    refine ⟨tidy_place hready, hopened, fun hne => ?_, _, hlists, fun s => ?_⟩
    · have hne : (d.closeTo r.level.toNat).opened ≠ [] := fun hnil => hne <| by
        rw [← List.length_eq_zero_iff, length_opened, heads_place, ← length_opened, hnil]
        rfl
      rw [inReturn_place, ← htakes, takes_of_opened hne]
    · rw [side_place hready, hside, htakes, hlen, Argument.nodes_eq, parts_of_simple hsimple]
      rfl
  · rename_i hcomposite
    cases h
    refine ⟨tidy_push hready hcomposite, hopened, fun _ => ?_, _, hlists, fun s => ?_⟩
    · exact (inReturn_push _ { head := a }).trans htakes
    · have hpush := side_push (d.closeTo r.level.toNat) { head := a } s
      simp only [hside, htakes, hlen] at hpush
      exact hpush

/-- **Rows add their nodes** at the ends of both sides, in order. What is open says where rows below
level zero belong. -/
theorem lists_of_addAll {label : String} {rows : List ArgRow} {current : Bool} (ht : d.Tidy)
    (hc : d.opened ≠ [] → d.inReturn = current) (h : d.addAll label rows = .ok d') :
    d'.Tidy ∧ ∀ s, ∃ ns, d'.side s = d.side s ++ ns ∧
      List.Forall₂ ArgRow.Lists (rowsOf s current (shownRows rows)) ns := by
  induction rows generalizing d current with
  | nil =>
    cases h
    exact ⟨ht, fun s => ⟨[], (List.append_nil _).symm, .nil⟩⟩
  | cons r rest ih =>
    obtain ⟨d₁, hadd, h⟩ := except_bind_eq_ok.mp h
    cases hp : r.isPlaceholder with
    | true =>
      rw [add, hp, if_pos rfl] at hadd
      cases hadd
      have hshown : shownRows (r :: rest) = shownRows rest := by simp [shownRows, hp]
      rw [hshown]
      exact ih ht hc h
    | false =>
      obtain ⟨ht₁, hopened, hin, n, hn, hside⟩ := lists_of_add ht hp hadd
      -- Below level zero, a row is on the side of the argument that is open above it.
      have hcurrent : d.rowSide r = if r.level = 0 then r.isReturn else current := by
        by_cases hl : r.level = 0
        · rw [rowSide, if_pos hl, if_pos hl]
        · rw [rowSide, if_neg hl, if_neg hl, hc (hopened hl)]
      obtain ⟨ht', hrun⟩ := ih ht₁ hin h
      refine ⟨ht', fun s => ?_⟩
      obtain ⟨ns, hns, hlists⟩ := hrun s
      have hshown : shownRows (r :: rest) = r :: shownRows rest := by simp [shownRows, hp]
      rw [hshown, rowsOf, ← hcurrent, hns, hside, List.append_assoc]
      by_cases hs : d.rowSide r = s
      · rw [if_pos hs, if_pos hs]
        exact ⟨_, rfl, .cons hn hlists⟩
      · rw [if_neg hs, if_neg hs]
        exact ⟨_, rfl, hlists⟩

end Draft

namespace Subprogram

/-- The nodes of a subprogram are its rows, those of the return value first. -/
theorem lists_of_ofRows {key : Key} {rows : List ArgRow} {f : Subprogram}
    (h : ofRows key rows = .ok f) :
    List.Forall₂ ArgRow.Lists (returnFirst (shownRows rows)) f.nodes := by
  obtain ⟨d, hd, h⟩ := except_bind_eq_ok.mp h
  cases h
  have hempty : Draft.Tidy {} := ⟨by simp, by simp, by simp⟩
  have hcurrent : ({} : Draft).opened ≠ [] → Draft.inReturn {} = false := fun _ => rfl
  obtain ⟨ht, hside⟩ := Draft.lists_of_addAll hempty hcurrent hd
  obtain ⟨-, hheads, hkept⟩ := Draft.closeTo_spec ht 0
  have hnil : (d.closeTo 0).opened = [] := by
    rw [← List.length_eq_zero_iff, Draft.length_opened, hheads, Nat.sub_zero, Draft.length_opened,
      List.drop_length]
    rfl
  have hfinished : ∀ s, nodesAll 0 ((d.closeTo 0).finished s) = d.side s := by
    intro s
    rw [← hkept, Draft.side, hnil, Draft.openNodes, ite_self, List.append_nil]
  obtain ⟨ns, hns, hreturn⟩ := hside true
  obtain ⟨ms, hms, hothers⟩ := hside false
  have hnodes : nodesAll 0 ((d.closeTo 0).returns.toList ++ (d.closeTo 0).args) = ns ++ ms := by
    rw [nodesAll_append]
    exact congrArg₂ (· ++ ·) ((hfinished true).trans hns) ((hfinished false).trans hms)
  show List.Forall₂ ArgRow.Lists _ (nodesAll 0 ((d.closeTo 0).returns.toList ++ (d.closeTo 0).args))
  rw [hnodes]
  exact List.rel_append hreturn hothers

/-- Rows of one wanted subprogram are its group. -/
theorem groups_of_nonempty {wanted : Selection} {rows : List ArgRow} {key : Key} (hne : rows ≠ [])
    (hkey : ∀ r ∈ rows, r.key = key)
    (hwanted : ∀ r ∈ rows, r.isHidden = false ∧ wanted.accepts r.package r.object = true) :
    groups wanted rows = [(key, inSequence rows)] := by
  have hvisible : rows.filter (fun r => !r.isHidden && wanted.accepts r.package r.object) = rows :=
    List.filter_eq_self.mpr fun r hr => by simp [hwanted r hr]
  simp only [groups, hvisible, Assoc.group_of_key hne hkey, List.map_cons, List.map_nil]

/-- Rows of one wanted subprogram that are not all numbered are its group as they are. -/
theorem groups_of_key {wanted : Selection} {rows : List ArgRow} {key : Key}
    (hkey : ∀ r ∈ rows, r.key = key)
    (hwanted : ∀ r ∈ rows, r.isHidden = false ∧ wanted.accepts r.package r.object = true)
    (hseq : ∃ r ∈ rows, r.sequence = none) : groups wanted rows = [(key, rows)] := by
  obtain ⟨r, hr, hnone⟩ := hseq
  have hsequence : inSequence rows = rows := by
    refine if_neg fun hall => ?_
    have hsome := List.all_eq_true.mp hall r hr
    rw [hnone] at hsome
    cases hsome
  rw [groups_of_nonempty (List.ne_nil_of_mem hr) hkey hwanted, hsequence]

theorem map_place_of_lists {rows : List ArgRow} {nodes : List ArgNode}
    (h : List.Forall₂ ArgRow.Lists rows nodes) :
    nodes.map ArgNode.place = rows.map fun r => (r.level.toNat, r.position) := by
  induction h with
  | nil => rfl
  | cons hfirst _ ih =>
    rw [List.map_cons, List.map_cons, ih, ArgNode.place, hfirst.level, hfirst.position]

/-- **Rows come back.** If the rows of one subprogram are accepted as they are, its nodes are the
rows, those of the return value first. If the return value comes first already, a listing gives
level and position of the rows. -/
theorem nodes_of_allOfRows {wanted : Selection} {rows : List ArgRow} {key : Key}
    (hkey : ∀ r ∈ rows, r.key = key)
    (hwanted : ∀ r ∈ rows, r.isHidden = false ∧ wanted.accepts r.package r.object = true)
    (hseq : ∃ r ∈ rows, r.sequence = none) {fs : List Subprogram}
    (h : allOfRows wanted rows = .ok fs) :
    ∃ f, fs = [f] ∧ List.Forall₂ ArgRow.Lists (returnFirst (shownRows rows)) f.nodes ∧
      ((∀ r ∈ (shownRows rows).tail, r.isReturn = false) →
        f.listing = (shownRows rows).map fun r => (r.level.toNat, r.position)) := by
  rw [allOfRows, groups_of_key hkey hwanted hseq, List.mapM_cons, List.mapM_nil] at h
  obtain ⟨f, hf, h⟩ := except_bind_eq_ok.mp h
  cases h
  have hlists := lists_of_ofRows hf
  refine ⟨f, rfl, hlists, fun hfirst => ?_⟩
  rw [returnFirst_eq_self hfirst] at hlists
  rw [← f.map_place_nodes, map_place_of_lists hlists]

/-- A function whose return value, a table of records, is listed after an argument. -/
def ledgerRows : List ArgRow :=
  let row (level : UInt8) (position : UInt32) (argument inOut dataType : String) : ArgRow :=
    { package := "BILLING", object := "LEDGER", level, position, argument, inOut, dataType }
  [row 0 1 "P_ACCOUNT" "IN" "PL/SQL RECORD", row 1 1 "OWNER" "IN" "VARCHAR2",
    row 1 2 "LIMITS" "IN" "PL/SQL RECORD", row 1 3 "NOTE" "IN" "VARCHAR2",
    row 0 0 "" "OUT" "TABLE", row 1 1 "" "OUT" "PL/SQL RECORD", row 2 1 "ID" "OUT" "NUMBER",
    row 2 2 "TAGS" "OUT" "VARRAY", row 0 0 "" "" " ", row 0 2 "P_LAST" "IN/OUT" "DATE"]

theorem ledger_nodes : (∀ r ∈ ledgerRows, r.key = ("BILLING", "LEDGER", none)) ∧
    (∀ r ∈ ledgerRows, r.isHidden = false ∧ Selection.accepts {} r.package r.object = true) ∧
    (∃ r ∈ ledgerRows, r.sequence = none) ∧ ∃ f, allOfRows {} ledgerRows = .ok [f] ∧
      f.nodes.map ArgNode.name = ["", "", "ID", "TAGS", "P_ACCOUNT", "OWNER", "LIMITS", "NOTE",
        "P_LAST"] ∧
      List.Forall₂ ArgRow.Lists (returnFirst (shownRows ledgerRows)) f.nodes := by
  have hkey : ∀ r ∈ ledgerRows, r.key = ("BILLING", "LEDGER", none) := by decide +kernel
  have hwanted : ∀ r ∈ ledgerRows,
      r.isHidden = false ∧ Selection.accepts {} r.package r.object = true := by decide +kernel
  have hseq : ∃ r ∈ ledgerRows, r.sequence = none := by decide +kernel
  have hnames : (allOfRows {} ledgerRows).map (fun fs => fs.map fun f => f.nodes.map ArgNode.name) =
      .ok [["", "", "ID", "TAGS", "P_ACCOUNT", "OWNER", "LIMITS", "NOTE", "P_LAST"]] := by
    decide +kernel
  cases h : allOfRows {} ledgerRows with
  | error e =>
    rw [h] at hnames
    cases hnames
  | ok fs =>
    obtain ⟨f, rfl, hlists, -⟩ := nodes_of_allOfRows hkey hwanted hseq h
    rw [h] at hnames
    exact ⟨hkey, hwanted, hseq, f, rfl, List.head_eq_of_cons_eq (Except.ok.inj hnames), hlists⟩

end Subprogram

end StoredCall
