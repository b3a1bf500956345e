import Mathlib.Logic.Relation
import Toa.Connector.Lifecycle

/-! Connectors that are disconnected once all are connected. Only who is linked to a connector keeps
it: an array links its members to the connector it makes, and not to the one that declares them. -/

set_option linter.unusedSectionVars false

namespace Toa.Connector
open Run

variable {ν : Type*} [DecidableEq ν]

/-! ## Links of a declaration -/

namespace Graph

/-- `p` is linked to `m`, or to what is linked to it, and so on. -/
def Above (g : Graph ν) (p m : ν) : Prop := Relation.TransGen (fun q c => q ∈ g.links c) p m

theorem depends_of_mem {ds : List (Declaration ν)} {g g' : Graph ν}
    (h : ds.foldlM depends g = some g') {d : Declaration ν} (hd : d ∈ ds) :
    ∃ g₁ g₂ : Graph ν, g₁.depends d = some g₂ ∧ ∀ x, g₂.links x ⊆ g'.links x := by
  induction ds generalizing g with
  | nil => exact absurd hd List.not_mem_nil
  | cons d' ds ih =>
    obtain ⟨g₁, hg₁, hrest⟩ := Option.bind_eq_some_iff.mp h
    rcases List.mem_cons.mp hd with rfl | hd
    · exact ⟨g, g₁, hg₁, links_foldlM hrest⟩
    · exact ih hrest hd

def Needed (g : Graph ν) : Prop := ∀ c, ∀ q ∈ g.links c, c ∈ g.dependencies q

theorem dependencies_push (g : Graph ν) (c next p : ν) :
    g.dependencies p ⊆ (g.push c next).dependencies p := by
  by_cases hp : p = c
  · subst hp
    have hdeps : (g.push p next).dependencies p = g.dependencies p ++ [next] :=
      Function.update_self p _ g.dependencies
    exact hdeps ▸ List.subset_append_left _ _
  · have hsame : (g.push c next).dependencies p = g.dependencies p :=
      Function.update_of_ne hp _ g.dependencies
    exact hsame ▸ List.Subset.refl _

theorem needed_push {g : Graph ν} (h : g.Needed) (c next : ν) : (g.push c next).Needed :=
  fun x q hq => dependencies_push g c next q (h x q hq)

theorem needed_one {g : Graph ν} (h : g.Needed) (c next : ν) : (g.one c next).Needed := by
  intro x q hq
  by_cases hx : x = next
  · subst hx
    rw [one, link_self] at hq
    rcases List.mem_append.mp hq with hq | hq
    · exact needed_push h c x x q hq
    · obtain rfl := List.mem_singleton.mp hq
      have hdeps : (g.one q x).dependencies q = g.dependencies q ++ [x] :=
        Function.update_self q _ g.dependencies
      exact hdeps ▸ List.mem_append_right _ (List.mem_singleton_self x)
  · have hsame : (g.one c next).links x = (g.push c next).links x :=
      Function.update_of_ne hx _ (g.push c next).links
    exact needed_push h c next x q (hsame ▸ hq)

theorem needed_foldl (c group : ν) (members : List ν) {g : Graph ν} (h : g.Needed) :
    (members.foldl (member c group) g).Needed := by
  induction members generalizing g with
  | nil => exact h
  | cons item members ih => exact ih (needed_one (needed_push h c item) item group)

theorem needed_foldlM {ds : List (Declaration ν)} {g g' : Graph ν} (hg : g.Needed)
    (h : ds.foldlM depends g = some g') : g'.Needed := by
  induction ds generalizing g with
  | nil => exact Option.some.inj h ▸ hg
  | cons d ds ih =>
    obtain ⟨g₁, hd, hrest⟩ := Option.bind_eq_some_iff.mp h
    refine ih ?_ hrest
    cases d with
    | single c next => exact Option.some.inj hd ▸ needed_one hg c next
    | array c members group =>
      match members, hd with
      | [next], hd => exact Option.some.inj hd ▸ needed_one hg c next
      | a :: b :: rest, hd =>
        exact Option.some.inj hd ▸ needed_one (needed_foldl c group (a :: b :: rest) hg) c group

theorem needed_build {ds : List (Declaration ν)} {g : Graph ν} (h : build ds = some g) :
    g.Needed := needed_foldlM (fun _ _ hq => absurd hq List.not_mem_nil) h

end Graph

/-! ## Disconnections only -/

def Act.Disconnects : Act ν → Prop
  | .disconnect _ | .resume _ | .closed _ | .walk _ => True
  | _ => False

def Up (g : Graph ν) (s : State ν) : Prop :=
  ∀ p, ∀ c ∈ g.dependencies p, (s.nodes c).connected = true ∧ (s.nodes c).closing = false

def Shielded (g : Graph ν) (nodes : ν → Node) : Prop :=
  ∀ c, ∀ q ∈ g.links c, (nodes q).connected = true →
    (nodes c).connected = true ∧ (nodes c).closing = false

theorem shielded_place {g : Graph ν} {s : State ν} (h : Shielded g s.nodes) {c : ν} {node : Node}
    (hlinks : ∀ q ∈ g.links c, (s.nodes q).connected = false)
    (hnode : node.connected = true → (s.nodes c).connected = true) :
    Shielded g (s.place c node).nodes := by
  intro x q hq hconnected
  have hold : (s.nodes q).connected = true := by
    by_cases hqc : q = c
    · subst hqc
      rw [place_self] at hconnected
      exact hnode hconnected
    · rw [place_of_ne s hqc] at hconnected
      exact hconnected
  have hxc : x ≠ c := fun hxc => by
    subst hxc
    exact nomatch (hlinks q hq).symm.trans hold
  rw [place_of_ne s hxc]
  exact h x q hq hold

theorem shielded_take {g : Graph ν} {s : State ν} (h : Shielded g s.nodes) (c : ν)
    (pending : Bool) : Shielded g (take g s c pending).nodes := by
  unfold take
  split_ifs with hdisconnecting hlinks hpending
  · exact h
  · exact h
  all_goals
    have hunlinked : ∀ q ∈ g.links c, (s.nodes q).connected = false := fun q hq =>
      Bool.eq_false_iff.mpr fun hconnected => hlinks (List.any_eq_true.mpr ⟨q, hq, hconnected⟩)
  · exact shielded_place h hunlinked nofun
  · exact shielded_place h hunlinked id

theorem shielded_disconnect {g : Graph ν} {s : State ν} (h : Shielded g s.nodes) (c : ν) :
    Shielded g (disconnect g s c).nodes := by
  unfold disconnect
  split_ifs
  · exact h
  · exact shielded_take h c true

theorem shielded_step {g : Graph ν} {s t : State ν} {a : Act ν} (ha : a.Disconnects)
    (h : Shielded g s.nodes) (ht : step g s a = some t) : Shielded g t.nodes := by
  cases a with
  | connect c => exact ha.elim
  | call e => exact ha.elim
  | opens e => exact ha.elim
  | land e => exact ha.elim
  | disconnect c => exact Option.some.inj ht ▸ shielded_disconnect h c
  | resume i =>
    obtain ⟨c, -, rfl⟩ := Option.map_eq_some_iff.mp ht
    have hrest : Shielded g { s with calls := s.calls.eraseIdx i }.nodes := h
    exact shielded_take hrest c false
  | closed c =>
    simp only [step, Option.ite_none_right_eq_some, Option.some.injEq] at ht
    obtain ⟨hclosing, rfl⟩ := ht
    refine shielded_place h (fun q hq => Bool.eq_false_iff.mpr fun hconnected => ?_) fun h => by cases h
    cases (h c q hq hconnected).2.symm.trans hclosing
  | walk i =>
    obtain ⟨c, -, rfl⟩ := Option.map_eq_some_iff.mp ht
    have hrest : Shielded g { s with walks := s.walks.eraseIdx i }.nodes := h
    exact shielded_disconnect hrest c

theorem Shielded.above {g : Graph ν} {nodes : ν → Node} (h : Shielded g nodes) {p m : ν}
    (habove : g.Above p m) (hp : (nodes p).connected = true) :
    (nodes m).connected = true ∧ (nodes m).closing = false := by
  induction habove with
  | single hq => exact h _ p hq hp
  | tail _ hq ih => exact h _ _ hq ih.1

/-! ## Over a run -/

/-- Each member of an array has the one that declares it above. -/
def Backed (ds : List (Declaration ν)) (g : Graph ν) : Prop :=
  ∀ c members group, .array c members group ∈ ds → 1 < members.length →
    ∀ m ∈ members, g.Above c m

/-- What a connected connector declared, alone or in an array, is connected and is not closing. -/
def Kept (ds : List (Declaration ν)) (s : State ν) : Prop :=
  ∀ d ∈ ds, ∀ p m, d.Declares p m → (s.nodes p).connected = true →
    (s.nodes m).connected = true ∧ (s.nodes m).closing = false

theorem above_of_declares {ds : List (Declaration ν)} {g : Graph ν}
    (hbuild : Graph.build ds = some g) (hbacked : Backed ds g) {d : Declaration ν} (hd : d ∈ ds)
    {p m : ν} (hdeclares : d.Declares p m) : g.Above p m := by
  obtain ⟨g₁, g₂, hdepends, hlinks⟩ := Graph.depends_of_mem hbuild hd
  cases d with
  | single c next =>
    obtain ⟨rfl, rfl⟩ := hdeclares
    obtain rfl := Option.some.inj hdepends
    exact .single (hlinks next (g₁.mem_links_one c next))
  | array c members group =>
    obtain ⟨rfl, hm⟩ := hdeclares
    match members, hdepends with
    | [next], hdepends =>
      obtain rfl := Option.some.inj hdepends
      obtain rfl := List.mem_singleton.mp hm
      exact .single (hlinks m (g₁.mem_links_one c m))
    | a :: b :: rest, _ =>
      exact hbacked c (a :: b :: rest) group hd (Nat.succ_lt_succ (Nat.succ_pos _)) m hm

/-- No disconnection closes what a connected connector declared, where back-links reach each member
of an array from who declares it. -/
theorem members_kept {ds : List (Declaration ν)} {g : Graph ν} (hbuild : Graph.build ds = some g)
    (hbacked : Backed ds g) {s t : State ν} (hup : Up g s) {acts : List (Act ν)}
    (hacts : ∀ a ∈ acts, a.Disconnects) (hrun : run (step g) s acts = some t) : Kept ds t := by
  have hstart : Shielded g s.nodes := fun c q hq _ => hup q c (Graph.needed_build hbuild c q hq)
  have hshielded : Shielded g t.nodes :=
    run_invariant (I := fun s => Shielded g s.nodes) (fun _ _ _ hs ha ht => shielded_step ha hs ht)
      hstart (along_of_mem (fun a ha _ => hacts a ha) s) hrun
  exact fun d hd p m hdeclares hp => hshielded.above (above_of_declares hbuild hbacked hd hdeclares) hp

/-! ## An array of two -/

def array : List (Declaration (Fin 4)) := [.array 0 [1, 2] 3]

def arrayGraph : Graph (Fin 4) := (Graph.member 0 3 (Graph.member 0 3 Graph.empty 1) 2).one 0 3

def connecting : List (Act (Fin 4)) := [.connect 0, .call 0, .call 0, .call 0, .call 1, .call 2,
  .opens 3, .land 3, .opens 1, .land 1, .opens 2, .land 2, .opens 0, .land 0]

/-- Nothing is linked to a member, so it closes under the one that declares it. -/
theorem member_closes : ∃ s t, Graph.build array = some arrayGraph ∧
    run (step arrayGraph) .init connecting = some s ∧ Up arrayGraph s ∧
    run (step arrayGraph) s [.disconnect 1, .resume 0, .closed 1] = some t ∧ ¬ Kept array t := by
  refine ⟨_, _, rfl, rfl, by unfold Up; decide, rfl, fun h => ?_⟩
  have hdeclares : (Declaration.array 0 [1, 2] 3 : Declaration (Fin 4)).Declares 0 1 :=
    ⟨rfl, List.mem_cons_self ..⟩
  exact nomatch (h _ (List.mem_singleton_self _) 0 1 hdeclares rfl).1

def backed : List (Declaration (Fin 4)) := [.array 0 [1, 2] 3, .single 0 1, .single 1 2]

def backedGraph : Graph (Fin 4) := (arrayGraph.one 0 1).one 1 2

def backedConnecting : List (Act (Fin 4)) := [.connect 0, .call 0, .call 0, .call 0, .call 0,
  .call 1, .call 1, .call 2, .opens 3, .land 3, .opens 2, .land 2, .opens 1, .land 1, .opens 0,
  .land 0]

theorem members_kept_backed : ∃ s t, run (step backedGraph) .init backedConnecting = some s ∧
    run (step backedGraph) s [.disconnect 1, .resume 0, .disconnect 2, .resume 0] = some t ∧
    Kept backed t := by
  have hbuild : Graph.build backed = some backedGraph := rfl
  have hbacked : Backed backed backedGraph := by
    intro c members group hmem _ m hm
    simp only [backed, List.mem_cons, List.not_mem_nil, or_false, Declaration.array.injEq,
      reduceCtorEq] at hmem
    obtain ⟨rfl, rfl, rfl⟩ := hmem
    have h01 : (0 : Fin 4) ∈ backedGraph.links 1 := by decide
    have h12 : (1 : Fin 4) ∈ backedGraph.links 2 := by decide
    rcases List.mem_cons.mp hm with rfl | hm
    · exact .single h01
    · obtain rfl := List.mem_singleton.mp hm
      exact .tail (.single h01) h12
  have hup {s : State (Fin 4)} (hs : run (step backedGraph) .init backedConnecting = some s) :
      Up backedGraph s := by
    obtain rfl := Option.some.inj hs
    unfold Up
    decide
  have h {s t : State (Fin 4)} (hs : run (step backedGraph) .init backedConnecting = some s)
      (hrun : run (step backedGraph) s [.disconnect 1, .resume 0, .disconnect 2, .resume 0] =
        some t) : Kept backed t := by
    refine members_kept hbuild hbacked (hup hs) (fun a ha => ?_) hrun
    simp only [List.mem_cons, List.not_mem_nil, or_false] at ha
    rcases ha with rfl | rfl | rfl | rfl <;> trivial
  exact ⟨_, _, rfl, rfl, h rfl rfl⟩

end Toa.Connector
