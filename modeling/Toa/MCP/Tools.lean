import Toa.Exposition.Discovery

/-! The tools of the tree: what is published to a model, and the call that a tool is. -/

namespace Toa.MCP
open RTD
open Exposition.Discovery (Directives Before)

structure Published (μ : Type*) where
  node : Node μ
  method : μ
  /-- `tool.name`; what else a tool says is what its method does -/
  name : String

inductive Refusal
  | unpublished (named : String)
  | address (error : RPC.Error)

def Refusal.message : Refusal → String
  | .unpublished named => "'" ++ named ++ "' is not a tool this server publishes"
  | .address error => error.message

section
variable {κ μ σ : Type*} (directives : Directives κ μ σ)

-- what is derived of the tree is kept until a merge, with what had expired when it was derived
variable (derived : Node μ → Bool) (now : ℤ)

def tool (mount : Mount μ) : Option (Published μ) :=
  if directives.published mount.method then
    (RPC.name mount.segments mount.verb).bind fun named =>
      if directives.describe mount.method then some ⟨mount.node, mount.method, named⟩ else none
  else none

def published (trunk : Node μ) : List (Published μ) :=
  ((trunk.walk derived [] true).filterMap (tool directives)).insertionSort fun one other =>
    Before one.name other.name

def list (caller : κ) (trunk : Node μ) : List (Published μ) :=
  (published directives derived trunk).filter fun tool =>
    !tool.node.expired now && directives.admits caller tool.method

def claim (names : List (String × Option (Node μ))) (mount : Mount μ) : List (String × Option (Node μ)) :=
  match RPC.name mount.segments mount.verb with
  | none => names
  | some tool =>
    Assoc.gather tool (if directives.published mount.method then some mount.node else none) id names

def names (trunk : Node μ) : List (String × Option (Node μ)) :=
  (trunk.walk derived [] true).foldl (claim directives) []

def serves (trunk : Node μ) (named : String) : Bool :=
  match (names directives derived trunk).lookup named with
  | some (some node) => !node.expired now
  | _ => false

def call (decodeURIComponent : String → Option String) (trunk : Node μ) (named : String)
    (params : String → Option String) : Except Refusal (Option μ) :=
  if serves directives derived now trunk named then
    match RPC.address named params with
    | .error error => .error (.address error)
    | .ok address => .ok (reached now decodeURIComponent trunk address.path address.verb)
  else .error (.unpublished named)

/-! ## What is listed and what is accepted -/

def Named (named : String) (mount : Mount μ) : Bool := RPC.name mount.segments mount.verb = some named

variable {directives derived now}

theorem lookup_claim (entries : List (String × Option (Node μ))) (mount : Mount μ) (named : String) :
    (claim directives entries mount).lookup named =
      (entries.lookup named).or
        (if Named named mount then some (if directives.published mount.method then some mount.node else none)
          else none) := by
  rw [claim]
  cases hname : RPC.name mount.segments mount.verb with
  | none => simp [Named, hname]
  | some tool =>
    simp only [Assoc.lookup_gather, Named, hname, Option.some.injEq, decide_eq_true_eq]
    by_cases htool : tool = named
    · subst htool
      rw [if_pos rfl, if_pos rfl]
      cases entries.lookup tool <;> rfl
    · rw [if_neg (Ne.symm htool), if_neg htool, Option.or_none]

theorem lookup_names (trunk : Node μ) (named : String) :
    (names directives derived trunk).lookup named =
      ((trunk.walk derived [] true).find? (Named named)).map fun mount =>
        if directives.published mount.method then some mount.node else none := by
  have hfold : ∀ (mounts : List (Mount μ)) (entries : List (String × Option (Node μ))),
      (mounts.foldl (claim directives) entries).lookup named =
        (entries.lookup named).or ((mounts.find? (Named named)).map fun mount =>
          if directives.published mount.method then some mount.node else none) := by
    intro mounts
    induction mounts with
    | nil => exact fun entries => Option.or_none.symm
    | cons mount mounts ih =>
      intro entries
      rw [List.foldl_cons, ih, lookup_claim, Option.or_assoc, List.find?_cons]
      cases Named named mount <;> rfl
  exact (hfold _ []).trans (Option.none_or ..)

theorem serves_eq (trunk : Node μ) (named : String) : serves directives derived now trunk named =
    ((trunk.walk derived [] true).find? (Named named)).any fun mount =>
      directives.published mount.method && !mount.node.expired now := by
  rw [serves, lookup_names]
  cases (trunk.walk derived [] true).find? (Named named) with
  | none => rfl
  | some mount =>
    rw [Option.map_some, Option.any_some]
    cases directives.published mount.method <;> rfl

theorem call_of_serves {decodeURIComponent : String → Option String} {trunk : Node μ} {named : String}
    {params : String → Option String} {address : RPC.Address} (h : RPC.address named params = .ok address) :
    (∃ routed, call directives derived now decodeURIComponent trunk named params = .ok routed) ↔
      serves directives derived now trunk named = true := by
  rw [call, h]
  cases serves directives derived now trunk named with
  | true => exact ⟨fun _ => rfl, fun _ => ⟨_, rfl⟩⟩
  | false => exact ⟨(fun ⟨_, heq⟩ => nomatch heq), (fun heq => nomatch heq)⟩

theorem tool_eq_some {mount : Mount μ} {entry : Published μ} :
    tool directives mount = some entry ↔ directives.published mount.method = true ∧
      directives.describe mount.method = true ∧ RPC.name mount.segments mount.verb = some entry.name ∧
        entry = ⟨mount.node, mount.method, entry.name⟩ := by
  simp only [tool, Option.ite_none_right_eq_some, Option.bind_eq_some_iff, Option.some.injEq]
  constructor
  · rintro ⟨hpublished, named, hname, hdescribe, rfl⟩
    exact ⟨hpublished, hdescribe, hname, rfl⟩
  · rintro ⟨hpublished, hdescribe, hname, hentry⟩
    exact ⟨hpublished, entry.name, hname, hdescribe, hentry.symm⟩

def Lists (directives : Directives κ μ σ) (now : ℤ) (caller : κ) (named : String) (mount : Mount μ) : Bool :=
  (tool directives mount).any fun entry =>
    entry.name = named && (!entry.node.expired now && directives.admits caller entry.method)

theorem lists_iff {caller : κ} {named : String} {mount : Mount μ} :
    Lists directives now caller named mount = true ↔ Named named mount = true ∧
      directives.published mount.method = true ∧ directives.describe mount.method = true ∧
        mount.node.expired now = false ∧ directives.admits caller mount.method = true := by
  simp only [Lists, Option.any_eq_true, tool_eq_some, Named, Bool.and_eq_true, decide_eq_true_eq,
    Bool.not_eq_true']
  constructor
  · rintro ⟨⟨node, method, other⟩, ⟨hpublished, hdescribe, hname, hentry⟩, rfl, hexpired, hadmits⟩
    obtain ⟨rfl, rfl, -⟩ := Published.mk.inj hentry
    exact ⟨hname, hpublished, hdescribe, hexpired, hadmits⟩
  · rintro ⟨hname, hpublished, hdescribe, hexpired, hadmits⟩
    exact ⟨⟨mount.node, mount.method, named⟩, ⟨hpublished, hdescribe, hname, rfl⟩, rfl, hexpired, hadmits⟩

theorem perm_list (caller : κ) (trunk : Node μ) (named : String) :
    (((list directives derived now caller trunk).filter fun entry => entry.name = named).map (·.method)).Perm
      (((trunk.walk derived [] true).filter (Lists directives now caller named)).map (·.method)) := by
  have hmounts : ∀ mounts : List (Mount μ),
      ((((mounts.filterMap (tool directives)).filter fun entry =>
        !entry.node.expired now && directives.admits caller entry.method).filter
          fun entry => entry.name = named).map (·.method)) =
        (mounts.filter (Lists directives now caller named)).map (·.method) := by
    intro mounts
    rw [List.filter_filter]
    induction mounts with
    | nil => rfl
    | cons mount mounts ih =>
      cases htool : tool directives mount with
      | none =>
        have hlists : Lists directives now caller named mount = false := by rw [Lists, htool]; rfl
        rw [List.filterMap_cons_none htool, List.filter_cons, hlists, if_neg Bool.false_ne_true]
        exact ih
      | some entry =>
        have hlists : Lists directives now caller named mount =
            (decide (entry.name = named) && (!entry.node.expired now && directives.admits caller entry.method)) := by
          rw [Lists, htool]
          rfl
        have hmethod : entry.method = mount.method :=
          congrArg Published.method (tool_eq_some.mp htool).2.2.2
        rw [List.filterMap_cons_some htool, List.filter_cons, List.filter_cons, hlists]
        split
        · rw [List.map_cons, List.map_cons, hmethod, ih]
        · exact ih
  rw [← hmounts, list, published]
  exact (((List.perm_insertionSort _ _).filter _).filter _).map _

end

end Toa.MCP
