import Toa.Identity.Roles

/-! What a body may carry. Each statement guards properties of a body with directives, and the statements
whose property is found in a body are asked before the operation is. -/

namespace Toa.Exposition.Input
open Toa.Identity.Roles (Role)

/-- A body as it is decoded: none, an object of its own properties, or any other value. -/
inductive Body (ν : Type*)
  | none
  | object (properties : List (String × ν))
  | other (value : ν)

inductive Refusal (ε : Type*)
  | Forbidden (message : String)
  | raised (error : ε)
deriving DecidableEq

structure Statement (δ : Type*) where
  properties : List String
  directives : List δ

/-- The properties of `Object.prototype`, which every object has. -/
def PROTOTYPE : List String :=
  ["constructor", "__defineGetter__", "__defineSetter__", "hasOwnProperty", "__lookupGetter__",
    "__lookupSetter__", "isPrototypeOf", "propertyIsEnumerable", "toString", "valueOf", "__proto__",
    "toLocaleString"]

section
variable {δ ε ν : Type*}

def owns (properties : List (String × ν)) (property : String) : Bool :=
  properties.any fun entry => entry.1 == property

/-- `property in body`, which is as true of what the body inherits. -/
def has (properties : List (String × ν)) (property : String) : Bool :=
  owns properties property || PROTOTYPE.contains property

/-- What `constructor` reads is the value of its own that a body has, and no value of a body is `Object`. -/
def plain (properties : List (String × ν)) : Bool := !owns properties "constructor"

-- what each directive answers the caller and the request, where it is asked
variable (authorize : δ → Except ε Bool)

def ask : List δ → Except (Refusal ε) Unit
  | [] => .ok ()
  | directive :: directives =>
    match authorize directive with
    | .error error => .error (.raised error)
    | .ok false => .error (.Forbidden "Input property is not authorized")
    | .ok true => ask directives

def Statement.check (statement : Statement δ) (properties : List (String × ν)) : Except (Refusal ε) Unit :=
  if statement.properties.any (has properties) then ask authorize statement.directives else .ok ()

def settled : List (Except (Refusal ε) Unit) → Except (Refusal ε) Unit
  | [] => .ok ()
  | .error refusal :: _ => .error refusal
  | .ok () :: results => settled results

def check (statements : List (Statement δ)) (body : Body ν) : Except (Refusal ε) (Body ν) :=
  match body with
  | .none => .ok body
  | .other _ => .ok body
  | .object properties =>
    if plain properties then
      match settled (statements.map fun statement => statement.check authorize properties) with
      | .error refusal => .error refusal
      | .ok () => .ok body
    else .ok body

def Context.body (transforms : List (Body ν → Except (Refusal ε) (Body ν))) (value : Body ν) :
    Except (Refusal ε) (Body ν) :=
  transforms.foldlM (fun value transform => transform value) value

/-! ## What is guarded -/

def Statement.Names (statement : Statement δ) (properties : List (String × ν)) : Prop :=
  ∃ property ∈ statement.properties, owns properties property = true

def Statement.Inherits (statement : Statement δ) : Prop :=
  ∃ property ∈ statement.properties, property ∈ PROTOTYPE

def Statement.Refuses (statement : Statement δ) : Prop :=
  ∃ directive ∈ statement.directives, authorize directive ≠ .ok true

/-- The body holds a property whose guard does not authorize the caller. -/
def Trips (statements : List (Statement δ)) (properties : List (String × ν)) : Prop :=
  ∃ statement ∈ statements, statement.Names properties ∧ statement.Refuses authorize

/-- A body that trips a guard reaches no operation, and any other is handed on as it is. -/
structure Guarded (statements : List (Statement δ)) (properties : List (String × ν)) : Prop where
  refused : Trips authorize statements properties → ∃ refusal, ∀ transforms,
    Context.body (check authorize statements :: transforms) (.object properties) = .error refusal
  passed : ¬Trips authorize statements properties → ∀ transforms,
    Context.body (check authorize statements :: transforms) (.object properties) =
      Context.body transforms (.object properties)

variable {authorize}

theorem ask_eq_ok {directives : List δ} :
    ask authorize directives = .ok () ↔ ∀ directive ∈ directives, authorize directive = .ok true := by
  induction directives with
  | nil => simp only [ask, List.not_mem_nil, false_imp_iff, implies_true]
  | cons directive directives ih =>
    simp only [ask, List.forall_mem_cons]
    match authorize directive with
    | .error error => simp only [reduceCtorEq, false_and]
    | .ok false => simp only [reduceCtorEq, Except.ok.injEq, Bool.false_eq_true, false_and]
    | .ok true => simp only [ih, true_and]

theorem settled_eq_ok {results : List (Except (Refusal ε) Unit)} :
    settled results = .ok () ↔ ∀ result ∈ results, result = .ok () := by
  induction results with
  | nil => simp only [settled, List.not_mem_nil, false_imp_iff, implies_true]
  | cons result results ih =>
    simp only [List.forall_mem_cons]
    match result with
    | .error refusal => simp only [settled, reduceCtorEq, false_and]
    | .ok () => simp only [settled, ih, true_and]

variable {statements : List (Statement δ)} {properties : List (String × ν)}

theorem any_has {statement : Statement δ} :
    statement.properties.any (has properties) = true ↔ statement.Names properties ∨ statement.Inherits := by
  simp only [List.any_eq_true, has, Bool.or_eq_true, List.contains_eq_mem, decide_eq_true_eq,
    Statement.Names, Statement.Inherits, and_or_left, exists_or]

theorem not_refuses {statement : Statement δ} :
    ¬statement.Refuses authorize ↔ ∀ directive ∈ statement.directives, authorize directive = .ok true := by
  simp only [Statement.Refuses, not_exists, not_and, not_not]

theorem Statement.check_eq_ok {statement : Statement δ} :
    statement.check authorize properties = .ok () ↔
      (statement.Names properties ∨ statement.Inherits → ¬statement.Refuses authorize) := by
  simp only [Statement.check]
  split
  · rename_i hmatch
    rw [ask_eq_ok, not_refuses]
    exact ⟨fun h _ => h, fun h => h (any_has.mp hmatch)⟩
  · rename_i hmatch
    exact ⟨fun _ h => absurd (any_has.mpr h) hmatch, fun _ => rfl⟩

variable (authorize statements) in
theorem check_of_plain (h : plain properties = true) :
    (∀ statement ∈ statements, statement.Names properties ∨ statement.Inherits →
        ¬statement.Refuses authorize) ∧
      check authorize statements (.object properties) = .ok (.object properties) ∨
    (∃ statement ∈ statements, (statement.Names properties ∨ statement.Inherits) ∧
        statement.Refuses authorize) ∧
      ∃ refusal, check authorize statements (.object properties) = .error refusal := by
  simp only [check, h, if_true]
  cases hsettled : settled (statements.map fun statement => statement.check authorize properties) with
  | ok =>
    refine .inl ⟨fun statement hstatement => ?_, rfl⟩
    exact Statement.check_eq_ok.mp (settled_eq_ok.mp hsettled _ (List.mem_map_of_mem hstatement))
  | error refusal =>
    refine .inr ⟨?_, refusal, rfl⟩
    by_contra hnone
    have hall : ∀ result ∈ statements.map fun statement => statement.check authorize properties,
        result = .ok () := by
      intro result hresult
      obtain ⟨statement, hstatement, rfl⟩ := List.mem_map.mp hresult
      exact Statement.check_eq_ok.mpr fun hmatch hrefuses => hnone ⟨statement, hstatement, hmatch, hrefuses⟩
    cases (settled_eq_ok.mpr hall).symm.trans hsettled

theorem body_of_ok {transforms : List (Body ν → Except (Refusal ε) (Body ν))} {value : Body ν}
    (h : check authorize statements value = .ok value) :
    Context.body (check authorize statements :: transforms) value = Context.body transforms value := by
  simp only [Context.body, List.foldlM_cons, h]
  rfl

theorem body_of_error {transforms : List (Body ν → Except (Refusal ε) (Body ν))} {value : Body ν}
    {refusal : Refusal ε} (h : check authorize statements value = .error refusal) :
    Context.body (check authorize statements :: transforms) value = .error refusal := by
  simp only [Context.body, List.foldlM_cons, h]
  rfl

variable (authorize statements properties) in
/-- A body is guarded just where it has no `constructor` of its own, or trips no guard then, and where no
guard of what every object has refuses for what the body does not hold. -/
theorem guarded_iff :
    Guarded authorize statements properties ↔
      (owns properties "constructor" = true → ¬Trips authorize statements properties) ∧
      (owns properties "constructor" = false → ∀ statement ∈ statements, statement.Inherits →
        statement.Refuses authorize → Trips authorize statements properties) := by
  match hown : owns properties "constructor" with
  | true =>
    have hcheck : check authorize statements (.object properties) = .ok (.object properties) := by
      simp only [check, plain, hown, Bool.not_true, Bool.false_eq_true, if_false]
    refine ⟨fun h => ⟨fun _ htrips => ?_, fun hplain => nomatch hplain⟩, fun h => ⟨?_, ?_⟩⟩
    · obtain ⟨refusal, hrefused⟩ := h.refused htrips
      cases (hrefused []).symm.trans (body_of_ok hcheck)
    · exact fun htrips => absurd htrips (h.1 rfl)
    · exact fun _ _ => body_of_ok hcheck
  | false =>
    have hplain : plain properties = true := by simp only [plain, hown, Bool.not_false]
    rcases check_of_plain authorize statements hplain with
      ⟨hnone, hok⟩ | ⟨⟨statement, hstatement, hmatch, hrefuses⟩, refusal, herror⟩
    · refine ⟨fun h => ⟨fun hconstructor => (nomatch hconstructor), ?_⟩, fun h => ⟨?_, ?_⟩⟩
      · exact fun _ other hother hinherits hrefuses => absurd hrefuses (hnone other hother (.inr hinherits))
      · rintro ⟨other, hother, hnames, hrefuses⟩
        exact absurd hrefuses (hnone other hother (.inl hnames))
      · exact fun _ _ => body_of_ok hok
    · refine ⟨fun h => ⟨fun hconstructor => (nomatch hconstructor), fun _ _ _ _ _ => ?_⟩, fun h => ⟨?_, ?_⟩⟩
      · by_contra htrips
        cases (h.passed htrips []).symm.trans (body_of_error herror)
      · exact fun _ => ⟨refusal, fun _ => body_of_error herror⟩
      · intro htrips
        rcases hmatch with hnames | hinherits
        · exact absurd ⟨statement, hstatement, hnames, hrefuses⟩ htrips
        · exact absurd (h.2 rfl statement hstatement hinherits hrefuses) htrips

end

/-- A developer approves, with a `constructor` beside what only a reviewer may send. -/
theorem unexamined : ¬Guarded (fun role => (.ok (Role.match [role] ["developer".toList]) : Except Unit Bool))
    [⟨["approved"], ["reviewer".toList]⟩] [("approved", true), ("constructor", false)] := by
  intro h
  obtain ⟨refusal, hrefused⟩ := h.refused
    ⟨_, List.mem_singleton_self _, ⟨"approved", List.mem_singleton_self _, by decide⟩,
      "reviewer".toList, List.mem_singleton_self _, by decide⟩
  exact nomatch hrefused []

end Toa.Exposition.Input
