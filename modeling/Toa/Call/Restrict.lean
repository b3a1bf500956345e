import Mathlib.Data.List.Basic
import Mathlib.Data.Rat.Defs
import Mathlib.Tactic.SplitIfs

/-! What a caller receives of the output it asked for. An object is restricted where the output is one,
where an array holds it and where a stream yields it, and what is left of each is compared with one
function of all of them. -/

namespace Toa.Call.Restrict

inductive Primitive
  | boolean (b : Bool)
  | number (q : ℚ)
  | string (s : String)

/-- A value of the platform. An object that is no plain one has a prototype of its own, and its
properties are those it enumerates, in the order it does. -/
inductive Value
  | undefined
  | null
  | primitive (p : Primitive)
  | date (time : ℤ)
  | bytes (content : List UInt8)
  | array (items : List Value)
  | object (prototype : Option Value) (properties : List (String × Value))

/-- What a stream yields: a value, or one of the parts a storage marks. -/
inductive Yield
  | value (v : Value)
  | entry (record : List (String × Value))
  | removed (id : String)
  | token (value : Option String)

/-- What is read of a stream to its end, and what it fails with. -/
structure Stream where
  readableObjectMode : Bool
  yields : List Yield
  failure : Option String

inductive Output
  | value (v : Value)
  | stream (s : Stream)

structure Reply where
  output : Option Output
  error : Option Value
  exception : Option Value

/-- What an operation answers: a reply, a stream that is answered bare, or a value that is no object. -/
inductive Answer
  | bare (p : Option Primitive)
  | stream (s : Stream)
  | reply (r : Reply)

/-! ## Restricting -/

/-- `Object.keys`, with what each is of. -/
def Value.own : Value → List (String × Value)
  | .undefined | .null | .primitive _ | .date _ => []
  | .bytes content => content.zipIdx.map fun (b, i) => (toString i, .primitive (.number b.toNat))
  | .array items => items.zipIdx.map fun (v, i) => (toString i, v)
  | .object _ properties => properties

/-- An object as properties are assigned to it, each of another name. -/
structure Assigned where
  prototype : Option Value
  properties : List (String × Value)

/-- `output[key] = value`: one name is not a property's, and sets the prototype where it is given one. -/
def Assigned.set (output : Assigned) (key : String) (value : Value) : Assigned :=
  if key = "__proto__" then
    match value with
    | .undefined | .primitive _ => output
    | prototype => { output with prototype := some prototype }
  else { output with properties := output.properties ++ [(key, value)] }

def fit (entity : List (String × Value)) (allowed : List String) : Value :=
  let output := entity.foldl (fun (output : Assigned) property =>
    if property.1 ∈ allowed then output.set property.1 property.2 else output) ⟨none, []⟩
  .object output.prototype output.properties

def fittedValue (value : Value) (allowed : List String) : Value :=
  match value with
  | .undefined | .null | .primitive _ | .bytes _ => value
  | value => fit value.own allowed

def fitted (value : Yield) (allowed : List String) : Yield :=
  match value with
  | .entry record => .value (.object none [("entry", fit record allowed)])
  | .removed id => .removed id
  | .token value => .token value
  | .value v => .value (fittedValue v allowed)

def restricted (source : Stream) (allowed : List String) : Stream :=
  { source with yields := source.yields.map (fitted · allowed) }

def Output.restrict (answered : Output) (allowed : List String) : Output :=
  match answered with
  | .stream s => .stream (if s.readableObjectMode = true then restricted s allowed else s)
  | .value (.array items) => .value (.array (items.map (fittedValue · allowed)))
  | .value (.primitive p) => .value (.primitive p)
  | .value v => .value (fit v.own allowed)

def Reply.restrict (reply : Reply) (output : List String) : Reply :=
  match reply.output with
  | none | some (.value .undefined) | some (.value .null) => reply
  | some answered =>
    if output.isEmpty = true then { reply with output := none }
    else { reply with output := some (answered.restrict output) }

def restrict (reply : Answer) (output : Option (List String)) : Answer :=
  match output, reply with
  | none, reply => reply
  | some _, .bare p => .bare p
  | some output, .stream s =>
    match (Reply.restrict ⟨some (.stream s), none, none⟩ output).output with
    | some (.stream s) => .stream s
    | _ => .reply ⟨none, none, none⟩
  | some output, .reply r => .reply (r.restrict output)

/-! ## What is asked for -/

section
variable (asked : List String)

mutual
def Value.kept : Value → Value
  | .object none properties => .object none (properties.filter (·.1 ∈ asked))
  | .array items => .array (Values.kept items)
  | v => v

def Values.kept : List Value → List Value
  | [] => []
  | v :: items => Value.kept v :: Values.kept items
end

def Yield.kept : Yield → Yield
  | .value v => .value (v.kept asked)
  | .entry record => .entry (record.filter (·.1 ∈ asked))
  | part => part

def Stream.kept (s : Stream) : Stream :=
  if s.readableObjectMode = true then { s with yields := s.yields.map (Yield.kept asked) } else s

def Output.kept : Output → Output
  | .value v => .value (v.kept asked)
  | .stream s => .stream (s.kept asked)

def Answer.kept : Answer → Answer
  | .bare p => .bare p
  | .stream s => .stream (s.kept asked)
  | .reply r => .reply { r with output := r.output.map (Output.kept asked) }

def alone (v : Value) : Value :=
  match restrict (.reply ⟨some (.value v), none, none⟩) (some asked) with
  | .reply ⟨some (.value v), _, _⟩ => v
  | _ => .undefined

def Yield.alone : Yield → Yield
  | .value v => .value (Restrict.alone asked v)
  | .entry record => .value (.object none [("entry", Restrict.alone asked (.object none record))])
  | part => part

def Stream.alone (s : Stream) : Stream :=
  if s.readableObjectMode = true then { s with yields := s.yields.map (Yield.alone asked) } else s

def Output.each : Output → Output
  | .value (.array items) => .value (.array (items.map (alone asked)))
  | .value v => .value (alone asked v)
  | .stream s => .stream (s.alone asked)

def Answer.each : Answer → Answer
  | .bare p => .bare p
  | .stream s => .stream (s.alone asked)
  | .reply r => .reply { r with output := r.output.map (Output.each asked) }

end

def Yield.shown : Yield → Value
  | .value v => v
  | .entry record => .object none [("entry", .object none record)]
  | .removed id => .object none [("removed", .primitive (.string id))]
  | .token text => .object none [("token", text.elim .null fun text => .primitive (.string text))]

def Stream.shown (s : Stream) : Stream := { s with yields := s.yields.map fun y => .value y.shown }

def Output.shown : Output → Output
  | .value v => .value v
  | .stream s => .stream s.shown

def Answer.shown : Answer → Answer
  | .bare p => .bare p
  | .stream s => .stream s.shown
  | .reply r => .reply { r with output := r.output.map Output.shown }

def clear (asked : List String) (properties : List (String × Value)) : Bool :=
  properties.all fun property => !(property.1 = "__proto__" && asked.contains property.1)

def Value.plain (asked : List String) : Value → Bool
  | .undefined | .null | .primitive _ => true
  | .object none properties => clear asked properties
  | _ => false

def Yield.plain (asked : List String) : Yield → Bool
  | .value v => v.plain asked
  | .entry record => asked.contains "entry" && clear asked record
  | _ => true

def Stream.plain (asked : List String) (s : Stream) : Bool :=
  !s.readableObjectMode || s.yields.all (Yield.plain asked)

def Output.plain (asked : List String) : Output → Bool
  | .value (.array items) => items.all (Value.plain asked)
  | .value v => v.plain asked
  | .stream s => s.plain asked

def Answer.plain (asked : List String) : Answer → Bool
  | .bare _ => true
  | .stream s => s.plain asked
  | .reply r => r.output.all (Output.plain asked)

/-! ## One object -/

section
variable {asked : List String}

theorem Assigned.properties_set (output : Assigned) (key : String) (value : Value) :
    (output.set key value).properties =
      output.properties ++ if key = "__proto__" then [] else [(key, value)] := by
  unfold Assigned.set
  split_ifs
  · rw [List.append_nil]
    split <;> rfl
  · rfl

theorem Assigned.prototype_set (output : Assigned) {key : String} (h : key ≠ "__proto__") (value : Value) :
    (output.set key value).prototype = output.prototype := by
  unfold Assigned.set
  rw [if_neg h]

theorem properties_assigned (properties : List (String × Value)) (output : Assigned) :
    (properties.foldl (fun (output : Assigned) property =>
      if property.1 ∈ asked then output.set property.1 property.2 else output) output).properties =
        output.properties ++
          properties.filter fun property => property.1 ∈ asked ∧ property.1 ≠ "__proto__" := by
  induction properties generalizing output with
  | nil => exact (List.append_nil _).symm
  | cons property properties ih =>
    rw [List.foldl_cons, ih]
    by_cases hasked : property.1 ∈ asked
    · rw [if_pos hasked, Assigned.properties_set]
      by_cases hproto : property.1 = "__proto__"
      · rw [if_pos hproto, List.append_nil, List.filter_cons_of_neg (by simp [hproto])]
      · rw [if_neg hproto, List.append_assoc, List.filter_cons_of_pos (by simp [hasked, hproto])]
        rfl
    · rw [if_neg hasked, List.filter_cons_of_neg (by simp [hasked])]

theorem prototype_assigned {properties : List (String × Value)} (h : clear asked properties = true)
    (output : Assigned) :
    (properties.foldl (fun (output : Assigned) property =>
      if property.1 ∈ asked then output.set property.1 property.2 else output) output).prototype =
        output.prototype := by
  induction properties generalizing output with
  | nil => rfl
  | cons property properties ih =>
    obtain ⟨hclear, hrest⟩ := Bool.and_eq_true_iff.mp h
    rw [List.foldl_cons, ih hrest]
    split_ifs with hasked
    · refine Assigned.prototype_set _ (fun hproto => ?_) _
      simp [hproto, hproto ▸ hasked] at hclear
    · rfl

theorem fit_clear {properties : List (String × Value)} (h : clear asked properties = true) :
    fit properties asked = .object none (properties.filter (·.1 ∈ asked)) := by
  rw [fit]
  simp only [properties_assigned, prototype_assigned h, List.nil_append]
  refine congrArg (Value.object none) (List.filter_congr fun property hmem => ?_)
  have hnot := List.all_eq_true.mp h property hmem
  by_cases hproto : property.1 = "__proto__" <;> simp_all

variable (hasked : asked ≠ [])
include hasked

omit hasked in
def answeredStream (asked : List String) (s : Stream) : Stream :=
  if s.readableObjectMode = true then restricted s asked else s

def Output.answered (asked : List String) : Output → Output
  | .value v => .value (alone asked v)
  | .stream s => .stream (answeredStream asked s)

end

end Toa.Call.Restrict
