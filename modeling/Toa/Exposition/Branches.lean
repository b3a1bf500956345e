import Mathlib.Data.List.Basic
import Mathlib.Data.List.Forall2
import Mathlib.Data.List.Induction
import Mathlib.Data.List.Pairwise
import Mathlib.Logic.Function.Basic
import Mathlib.Algebra.Order.Group.Int
import Mathlib.Tactic.SplitIfs

/-! The branches a gateway has merged, of what the tenants of the components announce: which announcement is one
more of the same, which one comes from a tenant that is on its way out, and which one is exposed instead. What is
announced may be lost, late, heard again or out of order. -/

namespace Toa.Exposition

/-- In milliseconds. -/
def BRANCH_TTL : ℤ := 1800000

structure Exposed.Node where
  «protected» : Bool
  /-- `none` stands for `Infinity` -/
  expiration : Option ℤ
deriving DecidableEq

namespace Exposed.Node

def touch (node : Exposed.Node) (expiration : ℤ) : Exposed.Node :=
  if node.protected then node else { node with expiration := some expiration }

def expired (now : ℤ) (node : Exposed.Node) : Bool := node.expiration.any (· ≤ now)

/-- `Route.match` -/
def served (now : ℤ) (node : Exposed.Node) : Bool := !node.expired now

end Exposed.Node

/-- What a merge lands on: a node that is not declared protected, one that is, or one that was there unprotected and
is replaced by one that is. -/
inductive Landing
  | expiring
  | «protected»
  | replaced
deriving DecidableEq

/-- The node landed on, as it is after it was touched at a time, or has not been since it was merged then. -/
def Landing.node (landing : Landing) (touched : Bool) (time : ℤ) : Exposed.Node :=
  match landing with
  | .expiring => ⟨false, some (time + BRANCH_TTL)⟩
  | .protected => ⟨true, none⟩
  | .replaced => ⟨false, if touched then some (time + BRANCH_TTL) else none⟩

@[simp] theorem Landing.touch_node (landing : Landing) (touched : Bool) (time now : ℤ) :
    (landing.node touched time).touch (now + BRANCH_TTL) = landing.node true now := by
  cases landing <;> simp [Landing.node, Exposed.Node.touch]

structure Branch where
  «namespace» : String
  component : String
  version : String
  routes : String
  /-- when the tenant that announced it started, by its own clock -/
  timestamp : ℤ
deriving DecidableEq

def Branch.id (branch : Branch) : String := branch.namespace ++ "." ++ branch.component

def Branch.content (branch : Branch) : String × String := (branch.version, branch.routes)

structure Exposed where
  version : String
  routes : String
  timestamp : ℤ
  nodes : List Exposed.Node
deriving DecidableEq

inductive Decision
  | merge
  | refresh
  | superseded
deriving DecidableEq

namespace Exposed

def content (exposed : Exposed) : String × String := (exposed.version, exposed.routes)

def expired (now : ℤ) (exposed : Exposed) : Bool :=
  exposed.nodes ≠ [] ∧ ∀ node ∈ exposed.nodes, node.expired now = true

def decide (now : ℤ) (exposed : Exposed) (branch : Branch) : Decision :=
  if exposed.version = branch.version ∧ exposed.routes = branch.routes then .refresh
  else if branch.timestamp < exposed.timestamp ∧ ¬exposed.expired now then .superseded
  else .merge

end Exposed

structure Gateway where
  now : ℤ
  branches : String → Option Exposed

inductive Event
  | tick (elapsed : ℕ)
  | hear (branch : Branch) (landed : Option (List Landing))
deriving DecidableEq

namespace Gateway

def init : Gateway := ⟨0, fun _ => none⟩

def decide (g : Gateway) (branch : Branch) : Decision :=
  match g.branches branch.id with
  | some exposed => exposed.decide g.now branch
  | none => .merge

/-- `Tree.refresh` -/
def refresh (g : Gateway) (id : String) : Gateway :=
  { g with
    branches := Function.update g.branches id ((g.branches id).map fun exposed =>
      { exposed with nodes := exposed.nodes.map (·.touch (g.now + BRANCH_TTL)) }) }

def exposedOf (now : ℤ) (branch : Branch) (landings : List Landing) : Exposed :=
  ⟨branch.version, branch.routes, branch.timestamp, landings.map (·.node false now)⟩

def expose (g : Gateway) (branch : Branch) (landed : Option (List Landing)) : Gateway :=
  match g.decide branch with
  | .refresh => g.refresh branch.id
  | .superseded => g
  | .merge =>
    match landed with
    | none => g
    | some landings =>
      { g with branches := Function.update g.branches branch.id (some (exposedOf g.now branch landings)) }

def step (g : Gateway) : Event → Gateway
  | .tick elapsed => { g with now := g.now + elapsed }
  | .hear branch landed => g.expose branch landed

def run (g : Gateway) (es : List Event) : Gateway := es.foldl step g

variable {g : Gateway} {es fs : List Event} {id : String}

theorem run_append (g : Gateway) (es fs : List Event) : g.run (es ++ fs) = (g.run es).run fs := List.foldl_append

theorem run_concat (g : Gateway) (es : List Event) (e : Event) : g.run (es ++ [e]) = (g.run es).step e :=
  run_append g es [e]

@[simp] theorem now_expose (g : Gateway) (branch : Branch) (landed : Option (List Landing)) :
    (g.expose branch landed).now = g.now := by
  unfold expose
  split
  · rfl
  · rfl
  · split <;> rfl

theorem now_le_step (g : Gateway) (e : Event) : g.now ≤ (g.step e).now := by
  cases e with
  | tick elapsed => exact Int.le_add_of_nonneg_right (Int.natCast_nonneg elapsed)
  | hear branch landed => exact (now_expose g branch landed).ge

theorem now_le_run (g : Gateway) (es : List Event) : g.now ≤ (g.run es).now := by
  induction es generalizing g with
  | nil => exact le_rfl
  | cons e es ih => exact (now_le_step g e).trans (ih (g.step e))

inductive Changes (g : Gateway) (id : String) : Event → Option Exposed → Prop
  | kept {e : Event} (h : ∀ branch landed exposed, e = .hear branch landed → branch.id = id →
      g.branches id = some exposed → exposed.content ≠ branch.content) : Changes g id e (g.branches id)
  | refreshed {branch : Branch} {landed : Option (List Landing)} {exposed : Exposed} (hid : branch.id = id)
      (hexposed : g.branches id = some exposed) (hcontent : exposed.content = branch.content) :
      Changes g id (.hear branch landed)
        (some { exposed with nodes := exposed.nodes.map (·.touch (g.now + BRANCH_TTL)) })
  | merged {branch : Branch} {landings : List Landing} (hid : branch.id = id) (hmerge : g.decide branch = .merge) :
      Changes g id (.hear branch (some landings)) (some (exposedOf g.now branch landings))

theorem decide_refresh_iff {branch : Branch} : g.decide branch = .refresh ↔
    ∃ exposed, g.branches branch.id = some exposed ∧ exposed.content = branch.content := by
  unfold decide
  cases hexposed : g.branches branch.id with
  | none => simp
  | some exposed =>
    simp only [Option.some.injEq, exists_eq_left', Exposed.content, Branch.content, Prod.mk.injEq]
    unfold Exposed.decide
    split_ifs with hsame hold <;> simp [hsame]

theorem changes (g : Gateway) (id : String) (e : Event) : Changes g id e ((g.step e).branches id) := by
  cases e with
  | tick elapsed => exact .kept fun branch landed exposed h => by cases h
  | hear branch landed =>
    have hdifferent (hne : g.decide branch ≠ .refresh) : ∀ branch' landed' exposed,
        Event.hear branch landed = .hear branch' landed' → branch'.id = id → g.branches id = some exposed →
          exposed.content ≠ branch'.content := by
      intro branch' landed' exposed heq hid hexposed hcontent
      cases heq
      subst hid
      exact hne (decide_refresh_iff.mpr ⟨exposed, hexposed, hcontent⟩)
    have hother (hid : branch.id ≠ id) : Changes g id (.hear branch landed) (g.branches id) :=
      .kept fun branch' landed' exposed heq hid' => by
        cases heq
        exact absurd hid' hid
    by_cases hid : branch.id = id
    case neg =>
      have hsame : (g.step (.hear branch landed)).branches id = g.branches id := by
        dsimp only [step, expose]
        split
        · exact Function.update_of_ne (Ne.symm hid) ..
        · rfl
        · split
          · rfl
          · exact Function.update_of_ne (Ne.symm hid) ..
      rw [hsame]
      exact hother hid
    case pos =>
      subst hid
      dsimp only [step, expose]
      cases hdecide : g.decide branch with
      | refresh =>
        obtain ⟨exposed, hexposed, hcontent⟩ := decide_refresh_iff.mp hdecide
        dsimp only [refresh]
        rw [Function.update_self, hexposed]
        exact .refreshed rfl hexposed hcontent
      | superseded => exact .kept (hdifferent (by simp [hdecide]))
      | merge =>
        cases landed with
        | none => exact .kept (hdifferent (by simp [hdecide]))
        | some landings =>
          dsimp only
          rw [Function.update_self]
          exact .merged rfl hdecide

/-! ## When a branch is served -/

def Heard (es : List Event) (id : String) (content : String × String) (time : ℤ) : Prop :=
  ∃ before branch landed after, es = before ++ .hear branch landed :: after ∧ branch.id = id ∧
    branch.content = content ∧ (init.run before).now = time

theorem heard_concat {content : String × String} {time : ℤ} {e : Event} : Heard (es ++ [e]) id content time ↔
    Heard es id content time ∨ ∃ branch landed, e = .hear branch landed ∧ branch.id = id ∧
      branch.content = content ∧ (init.run es).now = time := by
  constructor
  · rintro ⟨before, branch, landed, after, hsplit, hrest⟩
    obtain rfl | ⟨after, e', rfl⟩ := List.eq_nil_or_concat' after
    · obtain ⟨rfl, heq⟩ := List.append_inj' hsplit rfl
      exact .inr ⟨branch, landed, (List.cons.inj heq).1, hrest⟩
    · rw [← List.cons_append, ← List.append_assoc] at hsplit
      obtain ⟨rfl, -⟩ := List.append_inj' hsplit rfl
      exact .inl ⟨before, branch, landed, after, rfl, hrest⟩
  · rintro (⟨before, branch, landed, after, rfl, hrest⟩ | ⟨branch, landed, rfl, hrest⟩)
    · exact ⟨before, branch, landed, after ++ [e], by simp, hrest⟩
    · exact ⟨es, branch, landed, [], rfl, hrest⟩

theorem heard_le {content : String × String} {time : ℤ} (h : Heard es id content time) :
    time ≤ (init.run es).now := by
  obtain ⟨before, branch, landed, after, rfl, -, -, rfl⟩ := h
  rw [run_append]
  exact now_le_run _ _

/-- An announcement of the component, of these routes at this version, is among these. -/
def again (id : String) (content : String × String) (es : List Event) : Bool :=
  es.any fun
    | .hear branch _ => branch.id = id ∧ branch.content = content
    | .tick _ => false

theorem again_concat {content : String × String} {e : Event} : again id content (es ++ [e]) = true ↔
    again id content es = true ∨ ∃ branch landed, e = .hear branch landed ∧ branch.id = id ∧
      branch.content = content := by
  unfold again
  rw [List.any_append, Bool.or_eq_true]
  apply or_congr_right
  cases e with
  | tick elapsed => simp
  | hear branch landed => simp

/-- The merge that exposed a branch, what it landed on and what has happened since. -/
def Merged (es : List Event) (id : String) (exposed : Exposed) (landings : List Landing) (since : List Event) :
    Prop :=
  ∃ before branch, es = before ++ .hear branch (some landings) :: since ∧ branch.id = id ∧
    (init.run before).decide branch = .merge ∧ branch.content = exposed.content ∧
    branch.timestamp = exposed.timestamp

theorem last_heard {exposed : Exposed} (h : (init.run es).branches id = some exposed) :
    ∃ landings since time, Merged es id exposed landings since ∧ Heard es id exposed.content time ∧
      exposed.nodes = landings.map (·.node (again id exposed.content since) time) ∧
      ∀ earlier, Heard es id exposed.content earlier → earlier ≤ time := by
  induction es using List.reverseRecOn generalizing exposed with
  | nil => cases h
  | append_singleton es e ih =>
    have hchanges := changes (init.run es) id e
    rw [← run_concat, h] at hchanges
    have hnow : ∀ earlier, Heard (es ++ [e]) id exposed.content earlier → earlier ≤ (init.run es).now := by
      intro earlier hearlier
      obtain hold | ⟨_, _, _, _, _, rfl⟩ := heard_concat.mp hearlier
      · exact heard_le hold
      · exact le_rfl
    generalize hresult : some exposed = result at hchanges
    cases hchanges with
    | kept hdifferent =>
      obtain ⟨landings, since, time, ⟨before, branch, rfl, hmerged⟩, hheard, hnodes, hlast⟩ := ih hresult.symm
      have hsame : again id exposed.content (since ++ [e]) = again id exposed.content since := by
        apply Bool.eq_iff_iff.mpr
        apply again_concat.trans
        apply or_iff_left
        rintro ⟨branch, landed, he, hid, hcontent⟩
        exact hdifferent branch landed exposed he hid hresult.symm hcontent.symm
      refine ⟨landings, since ++ [e], time, ⟨before, branch, by simp, hmerged⟩, heard_concat.mpr (.inl hheard),
        hsame ▸ hnodes, fun earlier hearlier => ?_⟩
      obtain hold | ⟨branch, landed, he, hid, hcontent, -⟩ := heard_concat.mp hearlier
      · exact hlast earlier hold
      · exact absurd hcontent.symm (hdifferent branch landed exposed he hid hresult.symm)
    | @refreshed other landed exposed hid hexposed hcontent =>
      cases hresult
      obtain ⟨landings, since, time, ⟨before, branch, rfl, hmerged⟩, -, hnodes, -⟩ := ih hexposed
      have hagain : again id exposed.content (since ++ [.hear other landed]) = true :=
        again_concat.mpr (.inr ⟨other, landed, rfl, hid, hcontent.symm⟩)
      refine ⟨landings, since ++ [.hear other landed], _, ⟨before, branch, by simp, hmerged⟩,
        heard_concat.mpr (.inr ⟨_, _, rfl, hid, hcontent.symm, rfl⟩), ?_, hnow⟩
      generalize (init.run (before ++ .hear branch (some landings) :: since)).now = now
      show exposed.nodes.map (·.touch (now + BRANCH_TTL)) =
        landings.map (·.node (again id exposed.content (since ++ [.hear other landed])) now)
      rw [hnodes, List.map_map, hagain]
      apply List.map_congr_left
      intro landing _
      exact landing.touch_node ..
    | @merged branch landings hid hmerge =>
      cases hresult
      exact ⟨landings, [], _, ⟨es, branch, rfl, hid, hmerge, rfl, rfl⟩,
        heard_concat.mpr (.inr ⟨_, _, rfl, hid, rfl, rfl⟩), rfl, hnow⟩

def Within (es : List Event) (id : String) (content : String × String) : Prop :=
  ∃ time, Heard es id content time ∧ (init.run es).now < time + BRANCH_TTL

def old : Branch := ⟨"shop", "orders", "1", "r", 100⟩

def new : Branch := ⟨"shop", "orders", "2", "r", 200⟩

def rolling : List Event :=
  [.hear old (some [.expiring, .expiring]), .tick 1000, .hear new (some [.expiring]),
    .hear old (some [.expiring, .expiring]), .tick 1799999, .hear new none]

def released : Exposed.Node := ⟨false, some 3600999⟩

theorem decide_merge {branch : Branch} {exposed : Exposed} (h : g.decide branch = .merge)
    (hexposed : g.branches branch.id = some exposed) : exposed.content ≠ branch.content ∧
      (exposed.timestamp ≤ branch.timestamp ∨ exposed.expired g.now = true) := by
  constructor
  · intro hcontent
    have hrefresh := decide_refresh_iff.mpr ⟨exposed, hexposed, hcontent⟩
    rw [h] at hrefresh
    cases hrefresh
  · unfold decide Exposed.decide at h
    rw [hexposed] at h
    by_contra hnot
    obtain ⟨hnewer, halive⟩ := not_or.mp hnot
    dsimp only at h
    split_ifs at h with hsame hold
    exact hold ⟨Int.lt_of_not_ge hnewer, halive⟩

theorem exposed_step {exposed : Exposed} (h : g.branches id = some exposed) (e : Event) :
    ∃ next, (g.step e).branches id = some next := by
  have hchanges := changes g id e
  generalize hresult : (g.step e).branches id = result at hchanges
  cases hchanges with
  | kept _ => exact ⟨exposed, h⟩
  | refreshed _ _ _ => exact ⟨_, rfl⟩
  | merged _ _ => exact ⟨_, rfl⟩

theorem exposed_run {exposed : Exposed} (h : g.branches id = some exposed) (es : List Event) :
    ∃ next, (g.run es).branches id = some next := by
  induction es generalizing g exposed with
  | nil => exact ⟨exposed, h⟩
  | cons e es ih =>
    obtain ⟨next, hnext⟩ := exposed_step h e
    exact ih hnext

/-- An announcement of a tenant that started before this one was heard when nothing had been, for as long as a branch
is served without, of what was exposed then of a tenant that did not. -/
def Silenced (es fs : List Event) (id : String) (exposed : Exposed) : Prop :=
  ∃ mid branch landed rest silent, fs = mid ++ .hear branch landed :: rest ∧ branch.id = id ∧
    (init.run (es ++ mid)).branches id = some silent ∧ exposed.timestamp ≤ silent.timestamp ∧
    branch.timestamp < exposed.timestamp ∧
    ∀ time, Heard (es ++ mid) id silent.content time → time + BRANCH_TTL ≤ (init.run (es ++ mid)).now

theorem le_now_of_expired {landing : Landing} {touched : Bool} {time now : ℤ}
    (h : (landing.node touched time).expired now = true) : time + BRANCH_TTL ≤ now := by
  cases landing <;> cases touched <;> simp_all [Landing.node, Exposed.Node.expired]

/-- A branch gives way to one of a tenant that started before only after no announcement of it was heard for as
long as it is served without. -/
theorem displaced {exposed older : Exposed} (h : (init.run es).branches id = some exposed)
    (holder : (init.run (es ++ fs)).branches id = some older) (hlt : older.timestamp < exposed.timestamp) :
    Silenced es fs id exposed := by
  induction fs using List.reverseRecOn generalizing older with
  | nil =>
    rw [List.append_nil, h] at holder
    cases holder
    exact absurd hlt (lt_irrefl _)
  | append_singleton fs e ih =>
    have hchanges := changes (init.run (es ++ fs)) id e
    rw [← run_concat, List.append_assoc, holder] at hchanges
    have hearlier : ∀ before, (init.run (es ++ fs)).branches id = some before →
        before.timestamp < exposed.timestamp → Silenced es (fs ++ [e]) id exposed := by
      intro before hbefore hbelow
      obtain ⟨mid, branch, landed, rest, silent, rfl, hrest⟩ := ih hbefore hbelow
      exact ⟨mid, branch, landed, rest ++ [e], silent, by simp, hrest⟩
    generalize hresult : some older = result at hchanges
    cases hchanges with
    | kept _ => exact hearlier older hresult.symm hlt
    | refreshed hid hexposed hcontent =>
      cases hresult
      exact hearlier _ hexposed hlt
    | @merged branch landings hid hmerge =>
      cases hresult
      obtain ⟨before, hbefore⟩ : ∃ before, (init.run (es ++ fs)).branches id = some before := by
        rw [run_append]
        exact exposed_run h fs
      by_cases hbelow : before.timestamp < exposed.timestamp
      · exact hearlier before hbefore hbelow
      · have habove : exposed.timestamp ≤ before.timestamp := Int.not_lt.mp hbelow
        have hnewer : branch.timestamp < before.timestamp := hlt.trans_le habove
        refine ⟨fs, branch, some landings, [], before, rfl, hid, hbefore, habove, hlt, fun time htime => ?_⟩
        subst hid
        -- what is newer gives way because all of its nodes have expired
        have hexpired := (decide_merge hmerge hbefore).2.resolve_left (Int.not_le.mpr hnewer)
        obtain ⟨hsome, hpassed⟩ := of_decide_eq_true hexpired
        obtain ⟨_, _, last, -, -, hnodes, hlast⟩ := last_heard hbefore
        obtain ⟨node, hnode⟩ := List.exists_mem_of_ne_nil _ hsome
        have hgone := hpassed node hnode
        rw [hnodes] at hnode
        obtain ⟨landing, -, rfl⟩ := List.mem_map.mp hnode
        calc time + BRANCH_TTL ≤ last + BRANCH_TTL := Int.add_le_add_right (hlast time htime) _
          _ ≤ (init.run (es ++ fs)).now := le_now_of_expired hgone

theorem displaced_rolling : Silenced (rolling ++ [.tick 1800000]) [.hear old (some [.expiring])] "shop.orders"
    ⟨"2", "r", 200, [released]⟩ :=
  @displaced (rolling ++ [.tick 1800000]) [.hear old (some [.expiring])] "shop.orders" ⟨"2", "r", 200, [released]⟩
    ⟨"1", "r", 100, [⟨false, some 5400999⟩]⟩ (by decide +kernel) (by decide +kernel) (by decide)

def merging (id : String) (g : Gateway) : Event → Option Branch
  | .hear branch (some _) => if branch.id = id ∧ g.decide branch = .merge then some branch else none
  | _ => none

def merged (id : String) (g : Gateway) : List Event → List Branch
  | [] => []
  | e :: es => (merging id g e).toList ++ merged id (g.step e) es

def calm (id : String) (g : Gateway) : Event → Bool
  | .hear branch _ => branch.id ≠ id || (g.branches id).all fun exposed => !exposed.expired g.now
  | .tick _ => true

def lively (id : String) (g : Gateway) : List Event → Bool
  | [] => true
  | e :: es => calm id g e && lively id (g.step e) es

/-- Tenants of the component that started at the same time announce the same. -/
def Apart (id : String) (es : List Event) : Prop :=
  ∀ branch landed branch' landed', Event.hear branch landed ∈ es → Event.hear branch' landed' ∈ es →
    branch.id = id → branch'.id = id → branch.timestamp = branch'.timestamp → branch.content = branch'.content

theorem merging_eq_some {e : Event} {branch : Branch} (h : merging id g e = some branch) :
    ∃ landings, e = .hear branch (some landings) ∧ branch.id = id ∧ g.decide branch = .merge ∧
      (g.step e).branches id = some (exposedOf g.now branch landings) := by
  unfold merging at h
  split at h
  case h_1 branch' landings =>
    obtain ⟨⟨rfl, hmerge⟩, heq⟩ := Option.ite_none_right_eq_some.mp h
    cases heq
    refine ⟨landings, rfl, rfl, hmerge, ?_⟩
    dsimp only [step, expose]
    rw [hmerge]
    exact Function.update_self ..
  case h_2 => cases h

theorem merging_eq_none {e : Event} (h : merging id g e = none) {next : Exposed}
    (hnext : (g.step e).branches id = some next) : ∃ exposed, g.branches id = some exposed ∧
      next.content = exposed.content ∧ next.timestamp = exposed.timestamp := by
  have hchanges := changes g id e
  rw [hnext] at hchanges
  generalize hresult : some next = result at hchanges
  cases hchanges with
  | kept _ => exact ⟨next, hresult.symm, rfl, rfl⟩
  | refreshed _ hexposed _ =>
    cases hresult
    exact ⟨_, hexposed, rfl, rfl⟩
  | merged hid hmerge =>
    dsimp only [merging] at h
    rw [if_pos ⟨hid, hmerge⟩] at h
    cases h

theorem merged_above (hlively : lively id g es = true) (hapart : Apart id es)
    (hexposed : ∀ exposed, g.branches id = some exposed → ∀ branch landed, Event.hear branch landed ∈ es →
      branch.id = id → branch.timestamp = exposed.timestamp → branch.content = exposed.content) :
    (∀ exposed, g.branches id = some exposed → ∀ branch ∈ merged id g es, exposed.timestamp < branch.timestamp) ∧
    ((merged id g es).map Branch.timestamp).Pairwise (· < ·) := by
  induction es generalizing g with
  | nil => exact ⟨fun _ _ _ h => absurd h List.not_mem_nil, List.Pairwise.nil⟩
  | cons e es ih =>
    obtain ⟨hcalm, hlively⟩ := (Bool.and_eq_true ..).mp hlively
    have hrest : Apart id es := fun b l b' l' h h' =>
      hapart b l b' l' (List.mem_cons_of_mem _ h) (List.mem_cons_of_mem _ h')
    cases hmerging : merging id g e with
    | none =>
      have hmerged : merged id g (e :: es) = merged id (g.step e) es := by rw [merged, hmerging]; rfl
      rw [hmerged]
      obtain ⟨habove, hpairwise⟩ := ih hlively hrest fun next hnext branch landed hmem hid htime => by
        obtain ⟨exposed, hbefore, hcontent, hsame⟩ := merging_eq_none hmerging hnext
        rw [hcontent]
        exact hexposed exposed hbefore branch landed (List.mem_cons_of_mem _ hmem) hid (htime.trans hsame)
      refine ⟨fun exposed h branch hbranch => ?_, hpairwise⟩
      obtain ⟨next, hnext⟩ := exposed_step h e
      obtain ⟨before, hbefore, -, hsame⟩ := merging_eq_none hmerging hnext
      cases h.symm.trans hbefore
      exact hsame ▸ habove next hnext branch hbranch
    | some branch =>
      have hmerged : merged id g (e :: es) = branch :: merged id (g.step e) es := by rw [merged, hmerging]; rfl
      obtain ⟨landings, rfl, hid, hmerge, hnext⟩ := merging_eq_some hmerging
      obtain ⟨habove, hpairwise⟩ := ih hlively hrest fun next hnext' other landed hmem hother htime => by
        cases hnext.symm.trans hnext'
        exact hapart other landed branch _ (List.mem_cons_of_mem _ hmem) (List.mem_cons_self ..) hother hid htime
      have hlater := habove _ hnext
      rw [hmerged]
      constructor
      · intro exposed h
        have hnewer : exposed.timestamp < branch.timestamp := by
          subst hid
          obtain ⟨hcontent, hle⟩ := decide_merge hmerge h
          have halive : exposed.expired g.now = false := by simpa [calm, h] using hcalm
          refine lt_of_le_of_ne (hle.resolve_right (by simp [halive])) fun heq => hcontent ?_
          exact (hexposed exposed h branch _ (List.mem_cons_self ..) rfl heq.symm).symm
        exact List.forall_mem_cons.mpr ⟨hnewer, fun other hother => hnewer.trans (hlater other hother)⟩
      · refine List.pairwise_cons.mpr ⟨fun time htime => ?_, hpairwise⟩
        obtain ⟨other, hother, rfl⟩ := List.mem_map.mp htime
        exact hlater other hother

/-- While what is exposed of a component is heard in time, branches are merged in the order their tenants started:
each tenant's once at most, however its announcements and those of the others arrive. -/
theorem merged_once (hlively : lively id init es = true) (hapart : Apart id es) :
    ((merged id init es).map Branch.timestamp).Pairwise (· < ·) :=
  (merged_above hlively hapart fun _ h => by cases h).2

theorem heard_rolling {branch : Branch} {landings : Option (List Landing)}
    (h : Event.hear branch landings ∈ rolling) :
    branch = old ∨ branch = new := by
  simp only [rolling, List.mem_cons, Event.hear.injEq, List.not_mem_nil, or_false, reduceCtorEq, false_or] at h
  tauto

theorem merged_once_rolling : merged "shop.orders" init rolling = [old, new] ∧
    ((merged "shop.orders" init rolling).map Branch.timestamp).Pairwise (· < ·) := by
  refine ⟨by decide +kernel, @merged_once rolling "shop.orders" (by decide +kernel) ?_⟩
  intro branch landed branch' landed' h h' _ _ htime
  obtain rfl | rfl := heard_rolling h <;> obtain rfl | rfl := heard_rolling h'
  all_goals first | rfl | exact absurd htime (by decide)

theorem decide_eq_merge {branch : Branch} (h : ∀ exposed, g.branches branch.id = some exposed →
    exposed.content ≠ branch.content ∧ (exposed.timestamp ≤ branch.timestamp ∨ exposed.expired g.now = true)) :
    g.decide branch = .merge := by
  unfold decide
  cases hexposed : g.branches branch.id with
  | none => rfl
  | some exposed =>
    obtain ⟨hcontent, hgives⟩ := h exposed hexposed
    have hdifferent : ¬(exposed.version = branch.version ∧ exposed.routes = branch.routes) := fun hsame =>
      hcontent (Prod.ext hsame.1 hsame.2)
    have hold : ¬(branch.timestamp < exposed.timestamp ∧ ¬exposed.expired g.now = true) := fun hold =>
      hgives.elim (Int.not_le.mpr hold.1) hold.2
    exact (if_neg hdifferent).trans (if_neg hold)

def Only (id : String) (content : String × String) (es : List Event) : Prop :=
  ∀ branch landed, Event.hear branch landed ∈ es → branch.id = id → branch.content = content

def Exposes (g : Gateway) (id : String) (content : String × String) : Prop :=
  ∃ exposed, g.branches id = some exposed ∧ exposed.content = content

theorem exposes_run {content : String × String} (honly : Only id content es) (h : g.Exposes id content) :
    (g.run es).Exposes id content ∧ merged id g es = [] := by
  induction es generalizing g with
  | nil => exact ⟨h, rfl⟩
  | cons e es ih =>
    obtain ⟨exposed, hexposed, hcontent⟩ := h
    have hmerging : merging id g e = none := by
      cases hmerge : merging id g e with
      | none => rfl
      | some branch =>
        obtain ⟨landings, rfl, rfl, hdecide, -⟩ := merging_eq_some hmerge
        have hsame := honly branch _ (List.mem_cons_self ..) rfl
        exact absurd (hcontent.trans hsame.symm) (decide_merge hdecide hexposed).1
    have hnext : (g.step e).Exposes id content := by
      obtain ⟨next, hnext⟩ := exposed_step hexposed e
      obtain ⟨before, hbefore, hkept, -⟩ := merging_eq_none hmerging hnext
      cases hexposed.symm.trans hbefore
      exact ⟨next, hnext, hkept.trans hcontent⟩
    obtain ⟨hrun, hmerged⟩ := ih (fun b l hmem => honly b l (List.mem_cons_of_mem _ hmem)) hnext
    refine ⟨hrun, ?_⟩
    rw [merged, hmerging, hmerged]
    rfl

theorem exposes_or_same {content : String × String} (honly : Only id content es) :
    (g.run es).Exposes id content ∨ (g.run es).branches id = g.branches id := by
  induction es generalizing g with
  | nil => exact .inr rfl
  | cons e es ih =>
    have hrest : Only id content es := fun b l hmem => honly b l (List.mem_cons_of_mem _ hmem)
    have hchanges := changes g id e
    generalize hresult : (g.step e).branches id = result at hchanges
    cases hchanges with
    | kept _ => exact (ih hrest).imp_right fun hsame => hsame.trans hresult
    | @refreshed branch landed exposed hid hexposed hcontent =>
      have hsame := hcontent.trans (honly branch landed (List.mem_cons_self ..) hid)
      exact .inl (exposes_run hrest ⟨_, hresult, hsame⟩).1
    | @merged branch landings hid _ =>
      exact .inl (exposes_run hrest ⟨_, hresult, honly branch _ (List.mem_cons_self ..) hid⟩).1

/-- It is not newer than what is heard, or landed on nodes each of which expires. -/
def Yields (exposed : Exposed) (branch : Branch) : Prop :=
  exposed.timestamp ≤ branch.timestamp ∨
    exposed.nodes ≠ [] ∧ ∀ node ∈ exposed.nodes, node.expiration ≠ none

theorem expired_of_late {landing : Landing} {touched : Bool} {time now : ℤ}
    (h : (landing.node touched time).expiration ≠ none) (hlate : time + BRANCH_TTL ≤ now) :
    (landing.node touched time).expired now = true := by
  cases landing <;> cases touched <;> simp_all [Landing.node, Exposed.Node.expired]

/-- Once the tenants of a component announce one thing, that is exposed as soon as it is heard, be it merged, after
what was heard before has not been for as long as it is served without; and it is not merged again. -/
theorem converges {content : String × String} {mid rest : List Event} {branch : Branch} {landings : List Landing}
    (hyields : ∀ exposed, (init.run es).branches id = some exposed →
      exposed.content = content ∨ Yields exposed branch)
    (honly : Only id content (mid ++ .hear branch (some landings) :: rest)) (hid : branch.id = id)
    (hlate : (init.run es).now + BRANCH_TTL ≤ (init.run (es ++ mid)).now) :
    (init.run (es ++ (mid ++ .hear branch (some landings) :: rest))).Exposes id content ∧
    merged id (init.run (es ++ mid ++ [.hear branch (some landings)])) rest = [] := by
  have hcontent : branch.content = content := honly branch (some landings) (by simp) hid
  have hmid : Only id content mid := fun b l hmem => honly b l (List.mem_append_left _ hmem)
  have hrest : Only id content rest := fun b l hmem =>
    honly b l (List.mem_append_right _ (List.mem_cons_of_mem _ hmem))
  have hheard : (init.run (es ++ mid ++ [.hear branch (some landings)])).Exposes id content := by
    have hone : Only id content [.hear branch (some landings)] := by
      intro b l hmem _
      cases List.mem_singleton.mp hmem
      exact hcontent
    by_cases hexposes : (init.run (es ++ mid)).Exposes id content
    · rw [run_append]
      exact (exposes_run hone hexposes).1
    · have hsame : (init.run (es ++ mid)).branches id = (init.run es).branches id := by
        rw [run_append] at hexposes ⊢
        exact (exposes_or_same hmid).resolve_left hexposes
      have hmerge : (init.run (es ++ mid)).decide branch = .merge := by
        subst hid
        refine decide_eq_merge fun exposed hexposed => ?_
        have hcontent' : exposed.content ≠ content := fun heq => hexposes ⟨exposed, hexposed, heq⟩
        have hbefore := hsame.symm.trans hexposed
        refine ⟨hcontent ▸ hcontent', ((hyields exposed hbefore).resolve_left hcontent').imp_right ?_⟩
        rintro ⟨hsome, hexpires⟩
        apply decide_eq_true
        refine ⟨hsome, fun node hnode => ?_⟩
        -- it was not heard since
        obtain ⟨_, _, last, -, hlast, hnodes, -⟩ := last_heard hbefore
        have hfinite := hexpires node hnode
        rw [hnodes] at hnode
        obtain ⟨landing, -, rfl⟩ := List.mem_map.mp hnode
        exact expired_of_late hfinite ((Int.add_le_add_right (heard_le hlast) _).trans hlate)
      have hmerging : merging id (init.run (es ++ mid)) (.hear branch (some landings)) = some branch :=
        if_pos ⟨hid, hmerge⟩
      obtain ⟨_, -, -, -, hnext⟩ := merging_eq_some hmerging
      rw [run_concat]
      exact ⟨_, hnext, hcontent⟩
  obtain ⟨hrun, hmerged⟩ := exposes_run hrest hheard
  refine ⟨?_, hmerged⟩
  rw [← run_append] at hrun
  simpa using hrun

theorem converges_rolling : (init.run (rolling ++ ([.tick 1800000] ++ .hear old (some [.protected]) :: []))).Exposes
    "shop.orders" ("1", "r") := by
  refine (@converges rolling "shop.orders" ("1", "r") [.tick 1800000] [] old [.protected] ?_ ?_
    (by decide +kernel) (by decide +kernel)).1
  · intro exposed h
    have hexposed : (init.run rolling).branches "shop.orders" = some ⟨"2", "r", 200, [released]⟩ := by decide +kernel
    cases h.symm.trans hexposed
    exact .inr (.inr (by decide))
  · intro branch landings h _
    simp only [List.mem_append, List.mem_cons, List.not_mem_nil, or_false, reduceCtorEq, false_or,
      Event.hear.injEq] at h
    rw [h.1]
    rfl

end Gateway
end Toa.Exposition
