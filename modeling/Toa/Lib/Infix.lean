import Mathlib.Data.Nat.Notation
import Mathlib.Tactic.TypeStar
import Toa.Lib.Run

/-! Formulas of conjunctions and disjunctions, written infix: a conjunction binds tighter, and
parentheses group. They are read token by token, with a stack of the groups that are open. -/

namespace Infix
open Toa.Run

variable {α : Type*}

inductive Token (α : Type*)
  | atom (a : α)
  | conj
  | disj
  | opening
  | closing

inductive Formula (α : Type*)
  | atom (a : α)
  | and (f g : Formula α)
  | or (f g : Formula α)

def Formula.eval (v : α → Bool) : Formula α → Bool
  | .atom a => v a
  | .and f g => f.eval v && g.eval v
  | .or f g => f.eval v || g.eval v

/-- A group that is open: the disjuncts it has read, and the conjuncts of the one it reads. -/
structure Frame (α : Type*) where
  disjuncts : Option (Formula α)
  conjuncts : Option (Formula α)

def Frame.empty : Frame α := ⟨none, none⟩

def conjoin : Option (Formula α) → Formula α → Formula α
  | none, f => f
  | some c, f => .and c f

def disjoin : Option (Formula α) → Formula α → Formula α
  | none, f => f
  | some d, f => .or d f

/-- What is read next, in the innermost group, and the groups it is in. -/
inductive State (α : Type*)
  | operand (frame : Frame α) (stack : List (Frame α))
  | operator (disjuncts : Option (Formula α)) (conjuncts : Formula α) (stack : List (Frame α))

def step : State α → Token α → Option (State α)
  | .operand f stack, .atom a => some (.operator f.disjuncts (conjoin f.conjuncts (.atom a)) stack)
  | .operand f stack, .opening => some (.operand .empty (f :: stack))
  | .operator d c stack, .conj => some (.operand ⟨d, some c⟩ stack)
  | .operator d c stack, .disj => some (.operand ⟨some (disjoin d c), none⟩ stack)
  | .operator d c (f :: stack), .closing =>
    some (.operator f.disjuncts (conjoin f.conjuncts (disjoin d c)) stack)
  | _, _ => none

def finish : State α → Option (Formula α)
  | .operator d c [] => some (disjoin d c)
  | _ => none

def start : State α := .operand .empty []

def parse (ts : List (Token α)) : Option (Formula α) := (run step start ts).bind finish

/-- Whether a disjunction stands outside every group, where `depth` groups are open already. -/
def escapes : ℕ → List (Token α) → Bool
  | _, [] => false
  | depth, .opening :: ts => escapes (depth + 1) ts
  | depth, .closing :: ts => escapes (depth - 1) ts
  | depth, .disj :: ts => depth == 0 || escapes depth ts
  | depth, _ :: ts => escapes depth ts

/-! ## What a formula is worth -/

section
variable (v : α → Bool)

theorem eval_conjoin (c : Option (Formula α)) (f : Formula α) :
    (conjoin c f).eval v = (c.all (·.eval v) && f.eval v) := by
  cases c <;> rfl

theorem eval_disjoin (d : Option (Formula α)) (f : Formula α) :
    (disjoin d f).eval v = (d.any (·.eval v) || f.eval v) := by
  cases d <;> rfl

end

namespace State

def depth : State α → ℕ
  | .operand _ stack | .operator _ _ stack => stack.length

def outer : State α → Frame α
  | .operand f stack => stack.getLast?.getD f
  | .operator d c stack => stack.getLast?.getD ⟨d, some c⟩

def shape : State α → Bool × ℕ
  | .operand _ stack => (true, stack.length)
  | .operator _ _ stack => (false, stack.length)

def Open (v : α → Bool) : State α → Prop
  | .operand f stack => ∀ g ∈ f :: stack, g.conjuncts.all (·.eval v) = true
  | .operator _ c stack => c.eval v = true ∧ ∀ g ∈ stack, g.conjuncts.all (·.eval v) = true

end State

theorem finish_eq_some {s : State α} {f : Formula α} (h : finish s = some f) :
    ∃ d c, s = .operator d c [] ∧ f = disjoin d c := by
  cases s with
  | operand _ _ => exact nomatch h
  | operator d c stack =>
    cases stack with
    | nil => exact ⟨d, c, rfl, (Option.some.inj h).symm⟩
    | cons _ _ => exact nomatch h

theorem parse_eq_some {ts : List (Token α)} {f : Formula α} (h : parse ts = some f) :
    ∃ d c, run step start ts = some (.operator d c []) ∧ f = disjoin d c := by
  obtain ⟨s, hrun, hfinish⟩ := Option.bind_eq_some_iff.mp h
  obtain ⟨d, c, rfl, rfl⟩ := finish_eq_some hfinish
  exact ⟨d, c, hrun, rfl⟩

theorem parse_of_run {ts : List (Token α)} {d : Option (Formula α)} {c : Formula α}
    (h : run step start ts = some (.operator d c [])) : parse ts = some (disjoin d c) :=
  Option.bind_eq_some_iff.mpr ⟨_, h, rfl⟩

theorem step_shape {s s' t : State α} {token : Token α} (h : step s token = some t)
    (hs : s.shape = s'.shape) : ∃ t', step s' token = some t' ∧ t.shape = t'.shape := by
  cases s with
  | operand f stack =>
    cases s' with
    | operator _ _ _ => exact nomatch congrArg Prod.fst hs
    | operand f' stack' =>
      have hlength : stack.length = stack'.length := congrArg Prod.snd hs
      cases token with
      | atom a =>
        obtain rfl := Option.some.inj h
        exact ⟨_, rfl, congrArg (Prod.mk false) hlength⟩
      | opening =>
        obtain rfl := Option.some.inj h
        exact ⟨_, rfl, congrArg (fun n => (true, n + 1)) hlength⟩
      | _ => exact nomatch h
  | operator d c stack =>
    cases s' with
    | operand _ _ => exact nomatch congrArg Prod.fst hs
    | operator d' c' stack' =>
      have hlength : stack.length = stack'.length := congrArg Prod.snd hs
      cases token with
      | conj =>
        obtain rfl := Option.some.inj h
        exact ⟨_, rfl, congrArg (Prod.mk true) hlength⟩
      | disj =>
        obtain rfl := Option.some.inj h
        exact ⟨_, rfl, congrArg (Prod.mk true) hlength⟩
      | closing =>
        cases stack with
        | nil => exact nomatch h
        | cons f stack =>
          cases stack' with
          | nil => exact nomatch hlength
          | cons f' stack' =>
            obtain rfl := Option.some.inj h
            exact ⟨_, rfl, congrArg (Prod.mk false) (Nat.succ.inj hlength)⟩
      | _ => exact nomatch h

theorem run_shape {s s' t : State α} {ts : List (Token α)} (h : run step s ts = some t)
    (hs : s.shape = s'.shape) : ∃ t', run step s' ts = some t' ∧ t.shape = t'.shape := by
  induction ts generalizing s s' with
  | nil => exact ⟨s', rfl, Option.some.inj h ▸ hs⟩
  | cons token ts ih =>
    obtain ⟨u, hu, hrest⟩ := run_cons_eq_some.mp h
    obtain ⟨u', hu', hshape⟩ := step_shape hu hs
    obtain ⟨t', ht', hend⟩ := ih hrest hshape
    exact ⟨t', run_cons_eq_some.mpr ⟨u', hu', ht'⟩, hend⟩

/-! ## Groups that are closed again -/

def State.under (frames : List (Frame α)) : State α → State α
  | .operand f stack => .operand f (stack ++ frames)
  | .operator d c stack => .operator d c (stack ++ frames)

theorem step_under {s t : State α} {token : Token α} (frames : List (Frame α)) (h : step s token = some t) :
    step (s.under frames) token = some (t.under frames) := by
  cases s with
  | operand f stack =>
    cases token with
    | atom a | opening =>
      obtain rfl := Option.some.inj h
      rfl
    | _ => cases h
  | operator d c stack =>
    cases token with
    | conj | disj =>
      obtain rfl := Option.some.inj h
      rfl
    | closing =>
      cases stack with
      | nil => cases h
      | cons f stack =>
        obtain rfl := Option.some.inj h
        rfl
    | _ => cases h

theorem run_under {s t : State α} {ts : List (Token α)} (frames : List (Frame α)) (h : run step s ts = some t) :
    run step (s.under frames) ts = some (t.under frames) := by
  induction ts generalizing s with
  | nil =>
    obtain rfl := Option.some.inj h
    rfl
  | cons token ts ih =>
    obtain ⟨u, hu, hrest⟩ := run_cons_eq_some.mp h
    exact run_cons_eq_some.mpr ⟨_, step_under frames hu, ih hrest⟩

theorem run_parenthesized {ts us : List (Token α)} {f : Formula α} (h : parse ts = some f) (g : Frame α) :
    run step (.operand g []) (.opening :: (ts ++ .closing :: us)) =
      run step (.operator g.disjuncts (conjoin g.conjuncts f) []) us := by
  obtain ⟨d, c, hrun, rfl⟩ := parse_eq_some h
  have hinner : run step (.operand .empty [g]) ts = some (.operator d c [g]) := run_under [g] hrun
  rw [run, step, Option.bind_some, run_append, hinner]
  rfl

/-! ## The outermost group -/

/-- `f` says what `g` does, and may say more. -/
def Frame.Refines (v : α → Bool) (f g : Frame α) : Prop :=
  f.disjuncts = g.disjuncts ∧
    (f.conjuncts.all (·.eval v) = true → g.conjuncts.all (·.eval v) = true)

theorem Frame.Refines.refl (v : α → Bool) (f : Frame α) : f.Refines v f := ⟨rfl, fun h => h⟩

theorem Frame.Refines.trans {v : α → Bool} {f g h : Frame α} (hfg : f.Refines v g)
    (hgh : g.Refines v h) : f.Refines v h := ⟨hfg.1.trans hgh.1, fun hf => hgh.2 (hfg.2 hf)⟩

theorem refines_getD {v : α → Bool} {f g : Frame α} (h : f.Refines v g) (o : Option (Frame α)) :
    (o.getD f).Refines v (o.getD g) := by
  cases o with
  | none => exact h
  | some outer => exact .refl v outer

theorem refines_conjoin (v : α → Bool) (f : Frame α) (c : Formula α) :
    Frame.Refines v ⟨f.disjuncts, some (conjoin f.conjuncts c)⟩ f := by
  refine ⟨rfl, fun h => ?_⟩
  rw [Option.all_some, eval_conjoin, Bool.and_eq_true] at h
  exact h.1

theorem step_outer {s t : State α} {token : Token α} {ts : List (Token α)} (v : α → Bool)
    (h : step s token = some t) (hin : escapes s.depth (token :: ts) = false) :
    t.outer.Refines v s.outer ∧ escapes t.depth ts = false := by
  cases s with
  | operand f stack =>
    cases token with
    | atom a =>
      obtain rfl := Option.some.inj h
      exact ⟨refines_getD (refines_conjoin v f _) _, hin⟩
    | opening =>
      obtain rfl := Option.some.inj h
      refine ⟨?_, hin⟩
      rw [State.outer, State.outer, List.getLast?_cons, Option.getD_some]
      exact .refl v _
    | _ => exact nomatch h
  | operator d c stack =>
    cases token with
    | conj =>
      obtain rfl := Option.some.inj h
      exact ⟨.refl v _, hin⟩
    | disj =>
      obtain rfl := Option.some.inj h
      obtain ⟨hdepth, hrest⟩ := Bool.or_eq_false_iff.mp hin
      refine ⟨?_, hrest⟩
      cases stack with
      | nil => exact nomatch hdepth
      | cons f stack =>
        rw [State.outer, State.outer, List.getLast?_cons, Option.getD_some, Option.getD_some]
        exact .refl v _
    | closing =>
      cases stack with
      | nil => exact nomatch h
      | cons f stack =>
        obtain rfl := Option.some.inj h
        refine ⟨?_, hin⟩
        rw [State.outer, State.outer, List.getLast?_cons, Option.getD_some]
        exact refines_getD (refines_conjoin v f _) _
    | _ => exact nomatch h

theorem run_outer {s t : State α} {ts : List (Token α)} (v : α → Bool)
    (h : run step s ts = some t) (hin : escapes s.depth ts = false) :
    t.outer.Refines v s.outer := by
  induction ts generalizing s with
  | nil => exact Option.some.inj h ▸ .refl v _
  | cons token ts ih =>
    obtain ⟨u, hu, hrest⟩ := run_cons_eq_some.mp h
    obtain ⟨hstep, hnext⟩ := step_outer v hu hin
    exact (ih hrest hnext).trans hstep

/-! ## A disjunction outside every group -/

theorem step_open {s t : State α} {token : Token α} {v : α → Bool} (hs : s.Open v)
    (htrue : ∀ a, token = .atom a → v a = true) (h : step s token = some t) : t.Open v := by
  cases s with
  | operand f stack =>
    cases token with
    | atom a =>
      obtain rfl := Option.some.inj h
      refine ⟨?_, fun g hg => hs g (List.mem_cons_of_mem _ hg)⟩
      rw [eval_conjoin, Bool.and_eq_true]
      exact ⟨hs f (List.mem_cons_self ..), htrue a rfl⟩
    | opening =>
      obtain rfl := Option.some.inj h
      intro g hg
      rcases List.mem_cons.mp hg with rfl | hg
      · rfl
      · exact hs g hg
    | _ => exact nomatch h
  | operator d c stack =>
    have hstack : ∀ f : Frame α, f.conjuncts.all (·.eval v) = true →
        ∀ g ∈ f :: stack, g.conjuncts.all (·.eval v) = true := by
      intro f hf g hg
      rcases List.mem_cons.mp hg with rfl | hg
      · exact hf
      · exact hs.2 g hg
    cases token with
    | conj =>
      obtain rfl := Option.some.inj h
      exact hstack _ hs.1
    | disj =>
      obtain rfl := Option.some.inj h
      exact hstack _ rfl
    | closing =>
      cases stack with
      | nil => exact nomatch h
      | cons f stack =>
        obtain rfl := Option.some.inj h
        refine ⟨?_, fun g hg => hs.2 g (List.mem_cons_of_mem _ hg)⟩
        rw [eval_conjoin, eval_disjoin, hs.1, Bool.or_true, Bool.and_true]
        exact hs.2 f (List.mem_cons_self ..)
    | _ => exact nomatch h

theorem run_open {s t : State α} {ts : List (Token α)} {v : α → Bool} (hs : s.Open v)
    (htrue : ∀ a, .atom a ∈ ts → v a = true) (h : run step s ts = some t) : t.Open v := by
  induction ts generalizing s with
  | nil => exact Option.some.inj h ▸ hs
  | cons token ts ih =>
    obtain ⟨u, hu, hrest⟩ := run_cons_eq_some.mp h
    have hu : u.Open v :=
      step_open hs (fun a ha => htrue a (ha ▸ List.mem_cons_self ..)) hu
    exact ih hu (fun a ha => htrue a (List.mem_cons_of_mem _ ha)) hrest

theorem run_escaped {s t : State α} {ts : List (Token α)} {v : α → Bool}
    (h : run step s ts = some t) (hout : escapes s.depth ts = true)
    (htrue : ∀ a, .atom a ∈ ts → v a = true) : t.Open v := by
  induction ts generalizing s with
  | nil => exact nomatch hout
  | cons token ts ih =>
    obtain ⟨u, hu, hrest⟩ := run_cons_eq_some.mp h
    have hafter : ∀ a, .atom a ∈ ts → v a = true := fun a ha => htrue a (List.mem_cons_of_mem _ ha)
    cases s with
    | operand f stack =>
      cases token with
      | atom a =>
        obtain rfl := Option.some.inj hu
        exact ih hrest hout hafter
      | opening =>
        obtain rfl := Option.some.inj hu
        exact ih hrest hout hafter
      | _ => exact nomatch hu
    | operator d c stack =>
      cases token with
      | conj =>
        obtain rfl := Option.some.inj hu
        exact ih hrest hout hafter
      | disj =>
        obtain rfl := Option.some.inj hu
        rcases Bool.or_eq_true_iff.mp hout with hdepth | hlater
        · -- nothing is open but the outermost group, which begins a disjunct
          obtain rfl : stack = [] := List.eq_nil_of_length_eq_zero (beq_iff_eq.mp hdepth)
          have hopen : (State.operand ⟨some (disjoin d c), none⟩ []).Open v := by
            intro g hg
            obtain rfl := List.mem_singleton.mp hg
            rfl
          exact run_open hopen hafter hrest
        · exact ih hrest hlater hafter
      | closing =>
        cases stack with
        | nil => exact nomatch hu
        | cons f stack =>
          obtain rfl := Option.some.inj hu
          exact ih hrest hout hafter
      | _ => exact nomatch hu

end Infix
