import Mathlib.Data.List.Flatten
import Mathlib.Data.List.Forall2
import Mathlib.Data.List.Perm.Subperm
import Toa.Octets.Reports

/-! What an execution reports, whatever the order its steps go on in: each unit it took as a whole, in turn, each
step of a unit by a story of its own with one ending, and nothing of a unit that follows a failure. -/

namespace Toa.Octets.Execution
open Run
variable {V E : Type*}

/-! ## Steps turned and steps begun -/

section
variable {step : String} {phase : Phase}

def Running.turned (step : String) (phase : Phase) (r : Running) : Running :=
  if r.step = step then { r with phase } else r

@[simp] theorem Running.turned_entry (r : Running) : (r.turned step phase).entry = r.entry := by
  rw [turned]
  split <;> rfl

theorem map_entry_turned (l : List Running) :
    (l.map (Running.turned step phase)).map Running.entry = l.map Running.entry := by
  rw [List.map_map]
  exact List.map_congr_left fun r _ => r.turned_entry

/-- The entries of the steps that meet `p`. -/
def those (p : Phase → Bool) (l : List Running) : List (String × String) :=
  (l.filter fun r => p r.phase).map Running.entry

variable {p : Phase → Bool}

theorem those_cons (r : Running) (l : List Running) :
    those p (r :: l) = if p r.phase then r.entry :: those p l else those p l := by
  rw [those, List.filter_cons]
  split <;> rfl

theorem those_eq (h : ∀ r ∈ l, p r.phase = true) : those p l = l.map Running.entry := by
  rw [those, List.filter_eq_self.mpr h]

/-- A step that is turned to where `p` holds is added, where it did not hold of it. -/
theorem those_turned (hp : p phase = true) (l : List Running) :
    (those p l).Sublist (those p (l.map (Running.turned step phase))) := by
  induction l with
  | nil => exact .refl _
  | cons r l ih =>
    rw [List.map_cons, those_cons, those_cons, Running.turned_entry]
    by_cases hstep : r.step = step
    · rw [Running.turned, if_pos hstep, if_pos hp]
      split
      · exact ih.cons_cons _
      · exact ih.cons _
    · rw [Running.turned, if_neg hstep]
      split
      · exact ih.cons_cons _
      · exact ih

theorem those_turned_of_mem {r : Running} {l : List Running} (hr : r ∈ l) (hbefore : p r.phase = false)
    (hp : p phase = true) :
    (r.entry :: those p l).Subperm (those p (l.map (Running.turned r.step phase))) := by
  induction l with
  | nil => cases hr
  | cons x l ih =>
    rw [List.map_cons, those_cons, those_cons, Running.turned_entry]
    rcases List.mem_cons.mp hr with rfl | hr
    · rw [if_neg (Bool.eq_false_iff.mp hbefore), Running.turned, if_pos rfl, if_pos hp]
      exact (List.subperm_cons _).mpr (those_turned hp l).subperm
    · have hrest := ih hr
      by_cases hstep : x.step = r.step
      · rw [Running.turned, if_pos hstep, if_pos hp]
        split
        · exact (List.Perm.swap ..).subperm.trans ((List.subperm_cons _).mpr hrest)
        · exact hrest.trans (List.sublist_cons_self ..).subperm
      · rw [Running.turned, if_neg hstep]
        split
        · exact (List.Perm.swap ..).subperm.trans ((List.subperm_cons _).mpr hrest)
        · exact hrest

end

/-! ## A unit that is begun -/

def asked (discovery : List (String × Discovery)) : ℕ := discovery.countP (·.2 = .asked)

structure Entered (s t : Execution V E) (entries : List (String × String)) (fresh : List Running)
    (more : List (Invocation V)) : Prop where
  eq : t = { s with running := s.running ++ fresh, invoked := s.invoked ++ more, discovery := t.discovery }
  named : fresh.map Running.entry = entries
  phases : ∀ r ∈ fresh, r.phase = .discovering ∨ r.phase = .calling
  steps : ∀ inv ∈ more, inv.steps = s.steps
  invoked : more.map Invocation.entry = those (· ≠ .discovering) fresh
  known : ∀ r ∈ fresh, r.phase = .discovering → (t.discovery.lookup r.key).isSome
  keeps : ∀ key, (s.discovery.lookup key).isSome → (t.discovery.lookup key).isSome
  refused : ∀ key, t.discovery.lookup key = some .refused → s.discovery.lookup key = some .refused
  asked : asked t.discovery ≤ asked s.discovery + entries.length

theorem isSome_lookup_append {discovery more : List (String × Discovery)} {key : String}
    (h : (discovery.lookup key).isSome) : ((discovery ++ more).lookup key).isSome := by
  rw [List.lookup_append]
  exact Option.isSome_or.trans (Bool.or_eq_true_iff.mpr (.inl h))

theorem refused_of_append {discovery : List (String × Discovery)} {key k : String}
    (h : (discovery ++ [(key, Discovery.asked)]).lookup k = some .refused) : discovery.lookup k = some .refused := by
  rw [List.lookup_append, Assoc.lookup_single, Option.or_eq_some_iff] at h
  obtain h | ⟨-, h⟩ := h
  · exact h
  · split at h <;> cases h

theorem entered_enter (s : Execution V E) (e : String × String) :
    ∃ r more, Entered s (s.enter e) [e] [r] more := by
  by_cases hcomponent : (Endpoint.of e.2).key ∈ s.components
  · have heq : s.enter e = { s.invoke e.1 e.2 with running := s.running ++ [⟨e.1, e.2, .calling⟩] } :=
      if_pos hcomponent
    refine ⟨⟨e.1, e.2, .calling⟩, [⟨e.1, e.2, s.steps⟩], ?_⟩
    rw [heq]
    refine ⟨rfl, rfl, fun r hr => .inr ?_, fun inv hinv => ?_, rfl, fun r hr h => ?_, fun _ h => h,
      fun _ h => h, Nat.le_add_right ..⟩
    · rw [List.mem_singleton.mp hr]
    · rw [List.mem_singleton.mp hinv]
    · rw [List.mem_singleton.mp hr] at h
      cases h
  · by_cases hknown : (s.discovery.lookup (Endpoint.of e.2).key).isSome
    · have heq : s.enter e = { s with running := s.running ++ [⟨e.1, e.2, .discovering⟩] } :=
        (if_neg hcomponent).trans (if_pos hknown)
      refine ⟨⟨e.1, e.2, .discovering⟩, [], ?_⟩
      rw [heq]
      refine ⟨by rw [List.append_nil], rfl, fun r hr => .inl ?_, nofun, rfl, fun r hr _ => ?_, fun _ h => h,
        fun _ h => h, Nat.le_add_right ..⟩
      · rw [List.mem_singleton.mp hr]
      · rw [List.mem_singleton.mp hr]
        exact hknown
    · have heq : s.enter e = { s with
          running := s.running ++ [⟨e.1, e.2, .discovering⟩]
          discovery := s.discovery ++ [((Endpoint.of e.2).key, .asked)] } :=
        (if_neg hcomponent).trans (if_neg hknown)
      refine ⟨⟨e.1, e.2, .discovering⟩, [], ?_⟩
      rw [heq]
      refine ⟨by rw [List.append_nil], rfl, fun r hr => .inl ?_, nofun, rfl, fun r hr _ => ?_,
        fun _ h => isSome_lookup_append h, fun _ h => refused_of_append h, ?_⟩
      · rw [List.mem_singleton.mp hr]
      · rw [List.mem_singleton.mp hr]
        have hself : List.lookup (Endpoint.of e.2).key [((Endpoint.of e.2).key, Discovery.asked)] = some .asked := by
          rw [Assoc.lookup_single, if_pos rfl]
        show (List.lookup (Endpoint.of e.2).key (s.discovery ++ [((Endpoint.of e.2).key, .asked)])).isSome = true
        rw [List.lookup_append, hself, Option.isSome_or, Option.isSome_some, Bool.or_true]
      · show Execution.asked (s.discovery ++ [((Endpoint.of e.2).key, .asked)]) ≤ _
        rw [Execution.asked, List.countP_append]
        exact Nat.le_refl _

theorem entered_foldl (entries : List (String × String)) (s : Execution V E) :
    ∃ fresh more, Entered s (entries.foldl enter s) entries fresh more := by
  induction entries generalizing s with
  | nil =>
    refine ⟨[], [], ?_, rfl, nofun, nofun, rfl, nofun, fun _ h => h, fun _ h => h, Nat.le_refl _⟩
    rw [List.append_nil, List.append_nil]
    rfl
  | cons e entries ih =>
    obtain ⟨r, called, hfirst⟩ := entered_enter s e
    obtain ⟨fresh, more, hrest⟩ := ih (s.enter e)
    have hsteps : (s.enter e).steps = s.steps := by rw [hfirst.eq]
    refine ⟨r :: fresh, called ++ more, ?_, ?_, ?_, ?_, ?_, ?_, fun key h => hrest.keeps key (hfirst.keeps key h),
      fun key h => hfirst.refused key (hrest.refused key h), ?_⟩
    · rw [List.foldl_cons, hrest.eq, hfirst.eq, List.append_assoc, List.append_assoc]
      rfl
    · rw [List.map_cons, hrest.named, (List.cons.inj hfirst.named).1]
    · rintro x (_ | ⟨_, hx⟩)
      · exact hfirst.phases r (List.mem_singleton_self r)
      · exact hrest.phases x hx
    · intro inv hinv
      rcases List.mem_append.mp hinv with hinv | hinv
      · exact hfirst.steps inv hinv
      · exact (hrest.steps inv hinv).trans hsteps
    · rw [List.map_append, hfirst.invoked, hrest.invoked, those_cons, those_cons]
      split <;> rfl
    · rintro x (_ | ⟨_, hx⟩) hphase
      · exact hrest.keeps _ (hfirst.known r (List.mem_singleton_self r) hphase)
      · exact hrest.known x hx hphase
    · have hone := hfirst.asked
      have hmore := hrest.asked
      rw [List.length_singleton] at hone
      rw [List.length_cons, List.foldl_cons]
      omega

theorem entered_execute (s : Execution V E) (unit : Unit) :
    ∃ fresh more, Entered { s with running := [] } (s.execute unit) unit.entries fresh more :=
  entered_foldl unit.entries { s with running := [] }

theorem invoked_enter {s : Execution V E} (h : s.components = []) (e : String × String) :
    (s.enter e).invoked = s.invoked ∧ (s.enter e).components = [] := by
  have hnot : ¬(Endpoint.of e.2).key ∈ s.components := h ▸ List.not_mem_nil
  rw [enter]
  dsimp only
  rw [if_neg hnot]
  split <;> exact ⟨rfl, h⟩

theorem invoked_foldl (entries : List (String × String)) {s : Execution V E} (h : s.components = []) :
    (entries.foldl enter s).invoked = s.invoked := by
  induction entries generalizing s with
  | nil => rfl
  | cons e entries ih =>
    obtain ⟨hinvoked, hcomponents⟩ := invoked_enter h e
    exact (ih hcomponents).trans hinvoked

theorem invoked_new (units : List Unit) : (new units : Execution V E).invoked = [] := by
  cases units with
  | nil => rfl
  | cons unit rest => exact invoked_foldl (s := { rest }) unit.entries rfl

/-! ## A discovery that settles -/

theorem settle_cons (d : String × Discovery) (discovery : List (String × Discovery)) (key : String) (found : Bool) :
    settle (d :: discovery) key found =
      (if d.1 = key then (key, if found then .found else .refused) else d) :: settle discovery key found :=
  rfl

theorem isSome_lookup_settle (discovery : List (String × Discovery)) (key k : String) (found : Bool) :
    ((settle discovery key found).lookup k).isSome = (discovery.lookup k).isSome := by
  induction discovery with
  | nil => rfl
  | cons d discovery ih =>
    obtain ⟨name, promise⟩ := d
    rw [settle_cons]
    split
    · rename_i hkey
      obtain rfl : name = key := hkey
      rw [List.lookup_cons, List.lookup_cons]
      split
      · rfl
      · exact ih
    · rw [List.lookup_cons, List.lookup_cons]
      split
      · rfl
      · exact ih

theorem asked_cons (d : String × Discovery) (discovery : List (String × Discovery)) :
    asked (d :: discovery) = asked discovery + if d.2 = .asked then 1 else 0 := by
  rw [asked, List.countP_cons, asked]
  simp only [decide_eq_true_eq]

theorem asked_settle_le (discovery : List (String × Discovery)) (key : String) (found : Bool) :
    asked (settle discovery key found) ≤ asked discovery := by
  induction discovery with
  | nil => exact Nat.le_refl _
  | cons d discovery ih =>
    rw [settle_cons, asked_cons, asked_cons]
    refine Nat.add_le_add ih ?_
    split
    · cases found <;> exact Nat.zero_le _
    · exact Nat.le_refl _

theorem asked_settle_lt {discovery : List (String × Discovery)} {key : String} (found : Bool)
    (h : discovery.lookup key = some .asked) : asked (settle discovery key found) < asked discovery := by
  induction discovery with
  | nil => cases h
  | cons d discovery ih =>
    rw [settle_cons, asked_cons, asked_cons]
    by_cases hkey : d.1 = key
    · have hasked : d.2 = .asked := by
        rw [List.lookup_cons, beq_iff_eq.mpr hkey.symm] at h
        exact Option.some.inj h
      rw [if_pos hkey, if_pos hasked]
      have hle := asked_settle_le discovery key found
      cases found <;> exact Nat.lt_succ_of_le hle
    · rw [if_neg hkey]
      rw [Assoc.lookup_cons_of_ne (Ne.symm hkey)] at h
      exact Nat.add_lt_add_right (ih h) _

theorem refused_of_settle {discovery : List (String × Discovery)} {key k : String} {found : Bool}
    (h : (settle discovery key found).lookup k = some .refused) :
    discovery.lookup k = some .refused ∨ k = key ∧ found = false := by
  induction discovery with
  | nil => cases h
  | cons d discovery ih =>
    obtain ⟨name, promise⟩ := d
    rw [settle_cons] at h
    split at h
    · rename_i hkey
      obtain rfl : name = key := hkey
      rw [List.lookup_cons] at h
      split at h
      · rename_i hname
        cases found with
        | false => exact .inr ⟨beq_iff_eq.mp hname, rfl⟩
        | true => cases h
      · rename_i hname
        rw [List.lookup_cons, hname]
        exact ih h
    · rw [List.lookup_cons] at h ⊢
      split at h
      · exact .inl h
      · exact ih h

/-! ## The invariant -/

def Whole (clone : V → Option V) (actions : List (Action V E)) (unit : Unit) (chapter : Chapter V E) : Prop :=
  Complete clone actions unit chapter ∧ chapter.failed = false

def begun (chapters : List (Chapter V E)) : List (Action V E) := chapters.flatMap fun c => c.actions ++ [.proceed]

def told (chapters : List (Chapter V E)) : List (Report V E) := chapters.flatMap Chapter.reports

/-- An execution that is at `unit`, with what was done and told of the units before it and what is of it by now. -/
structure Placed (clone : V → Option V) (units : List Unit) (actions : List (Action V E)) (s : Execution V E)
    (before : List Unit) (unit : Unit) (past : List (Chapter V E)) (now : Chapter V E)
    (ending : List (Option (Report V E))) : Prop where
  units_eq : units = before ++ unit :: s.rest
  acted : if s.returned then ∃ last, actions = begun (past ++ [now]) ++ last else actions = begun past ++ now.actions
  whole : List.Forall₂ (Whole clone actions) before past
  entries : s.running.map Running.entry = unit.entries
  pushed : s.pushed = (told past ++ now.reports).map some ++ ending
  mentions : ∀ r ∈ now.reports, r.step ∈ unit.entries.map Prod.fst
  interrupted : s.interrupted = (s.destroyed || now.failed)
  progress : s.destroyed = false → ∀ r ∈ s.running,
    Progress clone actions r.entry r.phase (doneOf r.step now.actions) (its r.step now.reports)
  steps : s.steps = outputs clone (told past ++ now.reports)
  returned : s.returned = true → ∀ r ∈ s.running, r.phase = .settled
  ending : ending = [] ∨ ending = [none] ∧ s.returned = true ∧ Complete clone actions unit now ∧
    (s.rest = [] ∨ now.failed = true)
  once : (s.invoked.map Invocation.entry).Subperm
    (before.flatMap Unit.entries ++ those (· ≠ .discovering) s.running)
  known : ∀ r ∈ s.running, r.phase = .discovering → (s.discovery.lookup r.key).isSome
  refused : ∀ key, s.discovery.lookup key = some .refused → .discovered key false ∈ actions

section
variable {clone : V → Option V} {units before : List Unit} {unit : Unit} {s : Execution V E}
  {actions : List (Action V E)} {past : List (Chapter V E)} {now : Chapter V E}
  {ending : List (Option (Report V E))}

theorem whole_mono {more : List (Action V E)} (h : List.Forall₂ (Whole clone actions) before past) :
    List.Forall₂ (Whole clone (actions ++ more)) before past :=
  h.imp fun _ _ hwhole => ⟨hwhole.1.mono, hwhole.2⟩

@[simp] theorem begun_concat (past : List (Chapter V E)) (now : Chapter V E) :
    begun (past ++ [now]) = begun past ++ now.actions ++ [.proceed] := by
  rw [begun, List.flatMap_append, List.flatMap_singleton, List.append_assoc]
  rfl

@[simp] theorem told_concat (past : List (Chapter V E)) (now : Chapter V E) :
    told (past ++ [now]) = told past ++ now.reports := by
  rw [told, List.flatMap_append, List.flatMap_singleton]
  rfl

theorem distinct_of_entries (h : s.running.map Running.entry = unit.entries) :
    (s.running.map (·.step)).Nodup := by
  have hsteps : s.running.map (·.step) = (s.running.map Running.entry).map Prod.fst := by
    rw [List.map_map]
    rfl
  rw [hsteps, h]
  exact unit.distinct

theorem Placed.complete (h : Placed clone units actions s before unit past now ending)
    (hdestroyed : s.destroyed = false) (hsettled : ∀ r ∈ s.running, r.phase = .settled) :
    Complete clone actions unit now where
  mentions := h.mentions
  told e he := by
    rw [← h.entries] at he
    obtain ⟨r, hr, rfl⟩ := List.mem_map.mp he
    have hprogress := h.progress hdestroyed r hr
    rwa [hsettled r hr] at hprogress

theorem Placed.ending_nil (h : Placed clone units actions s before unit past now ending)
    (hreturned : s.returned = false) : ending = [] := by
  obtain hnil | ⟨-, htrue, -⟩ := h.ending
  · exact hnil
  · rw [hreturned] at htrue
    cases htrue

theorem Placed.acting (h : Placed clone units actions s before unit past now ending)
    (hreturned : s.returned = false) : actions = begun past ++ now.actions := by
  have hacted := h.acted
  rwa [if_neg (Bool.eq_false_iff.mp hreturned)] at hacted

theorem outputs_append (clone : V → Option V) (reports said : List (Report V E)) :
    outputs clone (reports ++ said) = said.foldl (note clone) (outputs clone reports) :=
  List.foldl_append

theorem Placed.moved (h : Placed clone units actions s before unit past now ending) {r : Running}
    (hr : r ∈ s.running) {a : Action V E} {phase : Phase} {said : List (Report V E)}
    (hadvance : Advance clone s r a phase said) (components : List String) :
    Placed clone units (actions ++ [a])
      (s.moved clone r phase said (if phase = .calling then [⟨r.step, r.endpoint, s.steps⟩] else []) components)
      before unit past ⟨now.actions ++ [a], now.reports ++ s.heard said⟩ ending := by
  have hreturned : s.returned = false := Bool.eq_false_iff.mpr fun hreturned => hadvance.unsettled (h.returned hreturned r hr)
  obtain rfl := h.ending_nil hreturned
  have hentry : r.entry ∈ unit.entries := h.entries ▸ List.mem_map_of_mem hr
  have hheard : ∀ report ∈ s.heard said, report.step = r.step := by
    intro report hreport
    rw [heard] at hreport
    split at hreport
    · cases hreport
    · exact hadvance.step_eq report hreport
  have hpushed : s.pushed ++ (s.heard said).map some =
      (told past ++ (now.reports ++ s.heard said)).map some ++ [] := by
    simp only [h.pushed, List.append_nil, List.map_append, List.append_assoc]
  refine ⟨h.units_eq, ?_, whole_mono h.whole, (map_entry_turned _).trans h.entries, hpushed, ?_, ?_, ?_, ?_, ?_,
    .inl rfl, ?_, ?_, fun key hkey => List.mem_append_left _ (h.refused key hkey)⟩
  case refine_1 =>
    refine (if_neg (Bool.eq_false_iff.mp hreturned)).mpr ?_
    rw [h.acting hreturned, List.append_assoc]
  case refine_2 =>
    intro report hreport
    rcases List.mem_append.mp hreport with hreport | hreport
    · exact h.mentions report hreport
    · exact hheard report hreport ▸ List.mem_map_of_mem hentry
  case refine_3 =>
    show (s.interrupted || (s.heard said).any Report.failed) =
      (s.destroyed || (now.reports ++ s.heard said).any Report.failed)
    rw [h.interrupted, List.any_append, Bool.or_assoc]
    rfl
  case refine_4 =>
    intro hdestroyed x hx
    obtain ⟨y, hy, rfl⟩ := List.mem_map.mp hx
    have hsaid : s.heard said = said := if_neg (Bool.eq_false_iff.mp hdestroyed)
    rw [hsaid] at hheard ⊢
    have hy' := h.progress hdestroyed y hy
    by_cases hstep : y.step = r.step
    · obtain rfl : y = r := List.inj_on_of_nodup_map (distinct_of_entries h.entries) hy hr hstep
      rw [if_pos rfl]
      show Progress clone _ y.entry phase (doneOf y.step (now.actions ++ [a])) (its y.step (now.reports ++ said))
      rw [doneOf_concat_self hadvance.of_eq, its_append, its_self hheard]
      exact (hadvance.progress hdestroyed (h.refused y.key) hy').mono
    · rw [if_neg hstep]
      show Progress clone _ y.entry y.phase (doneOf y.step (now.actions ++ [a])) (its y.step (now.reports ++ said))
      have hother : a.of ≠ some y.step := fun heq => hstep (Option.some.inj (heq.symm.trans hadvance.of_eq))
      rw [doneOf_concat_other hother, its_append, its_other hheard hstep, List.append_nil]
      exact hy'.mono
  case refine_5 =>
    show (s.heard said).foldl (note clone) s.steps = _
    rw [← List.append_assoc, outputs_append, h.steps]
  case refine_6 =>
    intro htrue
    rw [show s.returned = true from htrue] at hreturned
    cases hreturned
  case refine_7 =>
    show ((s.invoked ++ _).map Invocation.entry).Subperm
      (_ ++ those (· ≠ .discovering) (s.running.map (Running.turned r.step phase)))
    have hphase : decide (phase ≠ .discovering) = true := decide_eq_true hadvance.not_discovering
    rw [List.map_append]
    split
    · rename_i hcalling
      subst hcalling
      have hbefore : decide (r.phase ≠ .discovering) = false := decide_eq_false (not_not_intro hadvance.calling)
      have hadded := those_turned_of_mem (p := fun q => q ≠ .discovering) hr hbefore hphase
      have hmoved : (before.flatMap Unit.entries ++ those (· ≠ .discovering) s.running ++ [r.entry]).Perm
          (before.flatMap Unit.entries ++ r.entry :: those (· ≠ .discovering) s.running) := by
        rw [List.append_assoc]
        exact (List.perm_append_singleton ..).append_left _
      exact ((List.subperm_append_right _).mpr h.once).trans
        (hmoved.subperm.trans ((List.subperm_append_left _).mpr hadded))
    · rw [List.map_nil, List.append_nil]
      exact h.once.trans ((those_turned hphase _).append_left _).subperm
  case refine_8 =>
    intro x hx hphase
    obtain ⟨y, hy, rfl⟩ := List.mem_map.mp hx
    split at hphase
    · exact absurd hphase hadvance.not_discovering
    · rename_i hstep
      rw [if_neg hstep]
      exact h.known y hy hphase

theorem Placed.aside (h : Placed clone units actions s before unit past now ending) {a : Action V E}
    (ha : a.of = none) : ∃ next, Placed clone units (actions ++ [a]) s before unit past next ending := by
  have hwhole : List.Forall₂ (Whole clone (actions ++ [a])) before past := whole_mono h.whole
  have hrefused : ∀ key, s.discovery.lookup key = some .refused → .discovered key false ∈ actions ++ [a] :=
    fun key hkey => List.mem_append_left _ (h.refused key hkey)
  obtain hreturned | hreturned := Bool.eq_false_or_eq_true s.returned
  · refine ⟨now, h.units_eq, ?_, hwhole, h.entries, h.pushed, h.mentions, h.interrupted,
      fun hdestroyed r hr => (h.progress hdestroyed r hr).mono, h.steps, h.returned,
      h.ending.imp_right fun hending => ⟨hending.1, hending.2.1, hending.2.2.1.mono, hending.2.2.2⟩, h.once, h.known,
      hrefused⟩
    have hacted := h.acted
    rw [if_pos hreturned] at hacted ⊢
    obtain ⟨last, rfl⟩ := hacted
    exact ⟨last ++ [a], List.append_assoc ..⟩
  · have hof (step : String) : doneOf step (now.actions ++ [a]) = doneOf step now.actions :=
      doneOf_concat_other (by rw [ha]; nofun) now.actions
    refine ⟨⟨now.actions ++ [a], now.reports⟩, h.units_eq, ?_, hwhole, h.entries, h.pushed, h.mentions,
      h.interrupted, fun hdestroyed r hr => ?_, h.steps, h.returned, .inl (h.ending_nil hreturned), h.once, h.known,
      hrefused⟩
    · refine (if_neg (Bool.eq_false_iff.mp hreturned)).mpr ?_
      rw [h.acting hreturned, List.append_assoc]
    · rw [hof]
      exact (h.progress hdestroyed r hr).mono

theorem Placed.discovered (h : Placed clone units actions s before unit past now ending) (key : String)
    (found : Bool) : ∃ next, Placed clone units (actions ++ [.discovered key found])
      { s with discovery := settle s.discovery key found } before unit past next ending := by
  obtain ⟨next, hnext⟩ := h.aside (a := .discovered key found) rfl
  refine ⟨next, hnext.units_eq, hnext.acted, hnext.whole, hnext.entries, hnext.pushed, hnext.mentions,
    hnext.interrupted, hnext.progress, hnext.steps, hnext.returned, hnext.ending, hnext.once, fun r hr hphase => ?_,
    fun k hk => ?_⟩
  · exact (isSome_lookup_settle s.discovery key r.key found).trans (h.known r hr hphase)
  · obtain hk | ⟨rfl, rfl⟩ := refused_of_settle hk
    · exact hnext.refused k hk
    · exact List.mem_append_right _ (List.mem_singleton_self _)

theorem Placed.destroy (h : Placed clone units actions s before unit past now ending) :
    ∃ next, Placed clone units (actions ++ [.destroy]) s.destroy before unit past next ending := by
  obtain ⟨next, h⟩ := h.aside (a := .destroy) rfl
  let cutting (r : Running) : Running := if r.phase = .streaming then { r with phase := .cut } else r
  have hentry (r : Running) : (cutting r).entry = r.entry := by
    dsimp only [cutting]
    split <;> rfl
  have hentries (l : List Running) : (l.map cutting).map Running.entry = l.map Running.entry := by
    rw [List.map_map]
    exact List.map_congr_left fun r _ => hentry r
  refine ⟨next, h.units_eq, h.acted, h.whole, (hentries _).trans h.entries, h.pushed, h.mentions,
    (Bool.true_or _).symm, nofun, h.steps, fun hreturned r hr => ?_, h.ending, ?_, fun r hr hphase => ?_, h.refused⟩
  · obtain ⟨x, hx, rfl⟩ := List.mem_map.mp hr
    have hx := h.returned hreturned x hx
    rw [if_neg (hx ▸ nofun)]
    exact hx
  · have hthose : those (· ≠ .discovering) (s.running.map cutting) = those (· ≠ .discovering) s.running := by
      rw [those, List.filter_map, hentries, those]
      refine congrArg _ (List.filter_congr fun r _ => ?_)
      dsimp only [cutting, Function.comp]
      split
      · rename_i hphase
        rw [hphase]
        rfl
      · rfl
    exact hthose ▸ h.once
  · obtain ⟨x, hx, rfl⟩ := List.mem_map.mp hr
    split at hphase
    · cases hphase
    · rename_i hother
      rw [if_neg hother]
      exact h.known x hx hphase

theorem those_settled (h : ∀ r ∈ s.running, r.phase = .settled)
    (hentries : s.running.map Running.entry = unit.entries) :
    those (· ≠ .discovering) s.running = unit.entries := by
  rw [← hentries]
  exact those_eq fun r hr => decide_eq_true (h r hr ▸ nofun)

theorem progress_entered {t : Execution V E} {entries : List (String × String)} {fresh : List Running}
    {more : List (Invocation V)} (h : Entered s t entries fresh more) {r : Running} (hr : r ∈ fresh) :
    Progress clone actions r.entry r.phase [] [] := by
  obtain hphase | hphase := h.phases r hr
  · rw [hphase]
    exact ⟨rfl, rfl⟩
  · rw [hphase]
    exact ⟨.inl rfl, rfl⟩

theorem Placed.next (h : Placed clone units actions s before unit past now ending) (hreturned : s.returned = false)
    (hsettled : ∀ r ∈ s.running, r.phase = .settled) (hinterrupted : s.interrupted = false) {following : Unit}
    {rest : List Unit} (hrest : s.rest = following :: rest) :
    Placed clone units (actions ++ [.proceed]) ({ s with rest }.execute following) (before ++ [unit]) following
      (past ++ [now]) {} [] := by
  have hgoes := h.interrupted.symm.trans hinterrupted
  obtain ⟨hdestroyed, hfailed⟩ := Bool.or_eq_false_iff.mp hgoes
  obtain rfl := h.ending_nil hreturned
  obtain ⟨fresh, more, hentered⟩ := entered_execute { s with rest } following
  have hunits : units = (before ++ [unit]) ++ following :: rest := by
    rw [h.units_eq, hrest, List.append_assoc, List.singleton_append]
  have hwhole : List.Forall₂ (Whole clone (actions ++ [.proceed])) (before ++ [unit]) (past ++ [now]) :=
    whole_mono (List.rel_append h.whole (.cons ⟨h.complete hdestroyed hsettled, hfailed⟩ .nil))
  have hpushed : s.pushed = (told (past ++ [now]) ++ []).map some ++ [] := by
    simp only [told_concat, h.pushed, List.append_nil]
  have hsteps : s.steps = outputs clone (told (past ++ [now]) ++ []) := by
    simp only [told_concat, h.steps, List.append_nil]
  have hrefused := hentered.refused
  rw [hentered.eq]
  refine ⟨hunits, ?_, hwhole, hentered.named, hpushed, nofun, ?_, fun _ r hr => progress_entered hentered hr, hsteps,
    ?_, .inl rfl, ?_, hentered.known, fun key hkey => List.mem_append_left _ (h.refused key (hrefused key hkey))⟩
  case refine_1 =>
    refine (if_neg (Bool.eq_false_iff.mp hreturned)).mpr ?_
    rw [begun_concat, List.append_nil, h.acting hreturned]
  case refine_2 =>
    show s.interrupted = (s.destroyed || false)
    rw [hinterrupted, hdestroyed]
    rfl
  case refine_3 =>
    intro htrue
    rw [show s.returned = true from htrue] at hreturned
    cases hreturned
  case refine_4 =>
    show ((s.invoked ++ more).map Invocation.entry).Subperm (_ ++ those (· ≠ .discovering) fresh)
    have honce := h.once
    rw [those_settled hsettled h.entries] at honce
    rw [List.map_append, hentered.invoked, List.flatMap_append, List.flatMap_singleton]
    exact (List.subperm_append_right _).mpr honce

theorem Placed.finish (h : Placed clone units actions s before unit past now ending) (hreturned : s.returned = false)
    (hsettled : ∀ r ∈ s.running, r.phase = .settled) (hlast : s.interrupted = true ∨ s.rest = []) :
    ∃ closing, Placed clone units (actions ++ [.proceed])
      { s with returned := true, pushed := if s.destroyed then s.pushed else s.pushed ++ [none] }
      before unit past now closing := by
  obtain rfl := h.ending_nil hreturned
  have hwhole : List.Forall₂ (Whole clone (actions ++ [.proceed])) before past := whole_mono h.whole
  have hrefused : ∀ key, s.discovery.lookup key = some .refused → .discovered key false ∈ actions ++ [.proceed] :=
    fun key hkey => List.mem_append_left _ (h.refused key hkey)
  have hacted : ∃ last, actions ++ [.proceed] = begun (past ++ [now]) ++ last :=
    ⟨[], by rw [begun_concat, h.acting hreturned, List.append_nil]⟩
  have hprogress (hdestroyed : s.destroyed = false) : ∀ r ∈ s.running,
      Progress clone (actions ++ [.proceed]) r.entry r.phase (doneOf r.step now.actions) (its r.step now.reports) :=
    fun r hr => (h.progress hdestroyed r hr).mono
  obtain hdestroyed | hdestroyed := Bool.eq_false_or_eq_true s.destroyed
  · exact ⟨[], h.units_eq, hacted, hwhole, h.entries, (if_pos hdestroyed).trans h.pushed, h.mentions, h.interrupted,
      hprogress, h.steps, fun _ => hsettled, .inl rfl, h.once, h.known, hrefused⟩
  · have hnot : ¬s.destroyed = true := Bool.eq_false_iff.mp hdestroyed
    refine ⟨[none], h.units_eq, hacted, hwhole, h.entries, (if_neg hnot).trans ?_, h.mentions, h.interrupted,
      hprogress, h.steps, fun _ => hsettled, .inr ⟨rfl, rfl, (h.complete hdestroyed hsettled).mono, ?_⟩, h.once,
      h.known, hrefused⟩
    · rw [h.pushed, List.append_nil]
    · rw [h.interrupted, hdestroyed, Bool.false_or] at hlast
      exact hlast.symm

theorem proceed_eq (s : Execution V E) :
    (∃ following rest, s.interrupted = false ∧ s.rest = following :: rest ∧
      s.proceed = { s with rest }.execute following) ∨
    (s.interrupted = true ∨ s.rest = []) ∧
      s.proceed = { s with returned := true, pushed := if s.destroyed then s.pushed else s.pushed ++ [none] } := by
  dsimp only [proceed]
  split
  · rename_i following rest hinterrupted hrest
    exact .inl ⟨following, rest, hinterrupted, hrest, rfl⟩
  · rename_i hlast
    refine .inr ⟨?_, rfl⟩
    cases hinterrupted : s.interrupted with
    | true => exact .inl rfl
    | false =>
      cases hrest : s.rest with
      | nil => exact .inr rfl
      | cons following rest => exact (hlast following rest hinterrupted hrest).elim

theorem Placed.did (h : Placed clone units actions s before unit past now ending) {a : Action V E}
    {t : Execution V E} (hdid : Did clone s a t) :
    ∃ before unit past now ending, Placed clone units (actions ++ [a]) t before unit past now ending := by
  cases hdid with
  | discovered key found hasked =>
    obtain ⟨next, hnext⟩ := h.discovered key found
    exact ⟨_, _, _, _, _, hnext⟩
  | moved r hr phase said components hadvance => exact ⟨_, _, _, _, _, h.moved hr hadvance components⟩
  | proceeded hreturned hsettled =>
    obtain ⟨following, rest, hinterrupted, hrest, heq⟩ | ⟨hlast, heq⟩ := proceed_eq s
    · rw [heq]
      exact ⟨_, _, _, _, _, h.next hreturned hsettled hinterrupted hrest⟩
    · obtain ⟨closing, hclosed⟩ := h.finish hreturned hsettled hlast
      rw [heq]
      exact ⟨_, _, _, _, closing, hclosed⟩
  | destroyed =>
    obtain ⟨next, hnext⟩ := h.destroy
    exact ⟨_, _, _, _, _, hnext⟩

def Inv (clone : V → Option V) (units : List Unit) (actions : List (Action V E)) (s : Execution V E) : Prop :=
  (units = [] ∧ s.running = [] ∧ s.returned = true ∧ s.pushed = [none] ∧ s.invoked = [] ∧ s.interrupted = s.destroyed) ∨
    ∃ before unit past now ending, Placed clone units actions s before unit past now ending

theorem Inv.distinct (h : Inv clone units actions s) : (s.running.map (·.step)).Nodup := by
  obtain ⟨-, hrunning, -⟩ | ⟨_, _, _, _, _, h⟩ := h
  · rw [hrunning]
    exact List.nodup_nil
  · exact distinct_of_entries h.entries

theorem inv_new (clone : V → Option V) (units : List Unit) : Inv (E := E) clone units [] (new units) := by
  cases units with
  | nil => exact .inl ⟨rfl, rfl, rfl, rfl, rfl, rfl⟩
  | cons unit rest =>
    obtain ⟨fresh, more, hentered⟩ := entered_execute { rest : Execution V E } unit
    have hrefused := hentered.refused
    refine .inr ⟨[], unit, [], {}, [], ?_⟩
    show Placed clone _ _ (Execution.execute { rest } unit) _ _ _ _ _
    rw [hentered.eq]
    refine ⟨rfl, rfl, .nil, hentered.named, rfl, nofun, rfl, fun _ r hr => progress_entered hentered hr, rfl, nofun,
      .inl rfl, (List.Perm.of_eq hentered.invoked).subperm, hentered.known, fun key hkey => ?_⟩
    cases hrefused key hkey

theorem inv_step {a : Action V E} {t : Execution V E} (h : Inv clone units actions s)
    (hstep : step clone s a = some t) : Inv clone units (actions ++ [a]) t := by
  have hdid := did_of_step h.distinct hstep
  obtain ⟨hunits, hrunning, hreturned, hpushed, hinvoked, hinterrupted⟩ | ⟨_, _, _, _, _, h⟩ := h
  · refine .inl ?_
    cases hdid with
    | discovered => exact ⟨hunits, hrunning, hreturned, hpushed, hinvoked, hinterrupted⟩
    | moved r hr => rw [hrunning] at hr; cases hr
    | proceeded hnot => rw [hreturned] at hnot; cases hnot
    | destroyed =>
      refine ⟨hunits, ?_, hreturned, hpushed, hinvoked, rfl⟩
      show s.running.map _ = []
      rw [hrunning, List.map_nil]
  · exact .inr (h.did hdid)

theorem inv_run (hrun : run (step clone) (new units) actions = some s) : Inv clone units actions s :=
  run_history (inv_new clone units) (fun _ _ _ _ hI hstep => inv_step hI hstep) hrun

/-! ## What is reported, and what is invoked -/

theorem executed_of_whole (hpast : List.Forall₂ (Whole clone actions) before past)
    (hnow : Complete clone actions unit now) {rest : List Unit} (hlast : rest = [] ∨ now.failed = true) :
    Executed clone actions (before ++ unit :: rest) (past ++ [now]) := by
  induction hpast with
  | nil =>
    refine ⟨now, [], rfl, hnow, ?_⟩
    split
    · rfl
    · rename_i hfailed
      obtain rfl := hlast.resolve_right hfailed
      rfl
  | cons hhead _ ih =>
    refine ⟨_, _, rfl, hhead.1, ?_⟩
    rw [if_neg (Bool.eq_false_iff.mp hhead.2)]
    exact ih

/-- An execution whose end was pushed has told its units as wholes, in turn, up to the first with a failure, each
step by what was done of it while its unit was taken; and it pushed nothing after its end. -/
theorem told_in_turn (hrun : run (step clone) (new units) actions = some s) (hended : none ∈ s.pushed) :
    ∃ chapters last, actions = begun chapters ++ last ∧ s.pushed = (told chapters).map some ++ [none] ∧
      Executed clone actions units chapters := by
  obtain ⟨rfl, -, -, hpushed, -⟩ | ⟨before, unit, past, now, ending, h⟩ := inv_run hrun
  · exact ⟨[], actions, rfl, hpushed, rfl⟩
  · obtain rfl | ⟨rfl, hreturned, hcomplete, hlast⟩ := h.ending
    · rw [h.pushed, List.append_nil] at hended
      obtain ⟨_, -, hnone⟩ := List.mem_map.mp hended
      cases hnone
    · have hacted := h.acted
      rw [if_pos hreturned] at hacted
      obtain ⟨last, hacted⟩ := hacted
      refine ⟨past ++ [now], last, hacted, ?_, h.units_eq ▸ executed_of_whole h.whole hcomplete hlast⟩
      rw [told_concat, h.pushed]

def upload : List Unit :=
  [⟨[("resize", "images.resize"), ("analyze", "images.analyze")], by decide⟩,
    ⟨[("publish", "task:posts.publish")], by decide⟩]

def uploading : List (Action ℕ String) :=
  [.discovered "default.images" true, .waited "analyze", .waited "resize", .replied "resize" .stream,
    .delivered "resize" (.value 640), .replied "analyze" (.result (.value 7)), .delivered "resize" (.value 320),
    .drained "resize", .proceed, .discovered "default.posts" true, .waited "publish"]

def failing : List (Action ℕ String) :=
  uploading ++ [.replied "publish" (.result (.error "TOO_SMALL")), .proceed]

theorem told_in_turn_failing : ∃ s : Execution ℕ String, run (step some) (new upload) failing = some s ∧
    ∃ chapters last, failing = begun chapters ++ last ∧ s.pushed = (told chapters).map some ++ [none] ∧
      Executed some failing upload chapters := by
  have hpushed : (run (step some) (new upload) failing).map pushed =
        some [some ⟨"resize", none, some 640, none⟩, some ⟨"analyze", some .completed, some 7, none⟩,
          some ⟨"resize", none, some 320, none⟩, some ⟨"resize", some .completed, none, none⟩,
          some ⟨"publish", some .completed, none, some "TOO_SMALL"⟩, none] := by decide +kernel
  obtain ⟨s, hrun, hpushed⟩ := Option.map_eq_some_iff.mp hpushed
  exact ⟨s, hrun, told_in_turn hrun (hpushed ▸ by decide)⟩

/-- An operation is invoked when all of the units before its own have been taken and told as wholes, with all that
has been reported. -/
def Fed (clone : V → Option V) (units : List Unit) (actions : List (Action V E))
    (pushed : List (Option (Report V E))) (inv : Invocation V) : Prop :=
  ∃ before unit after past done now, units = before ++ unit :: after ∧ inv.entry ∈ unit.entries ∧
    actions = begun past ++ done ∧ List.Forall₂ (Whole clone actions) before past ∧
    (∀ r ∈ now, r.step ∈ unit.entries.map Prod.fst) ∧
    pushed = (told past ++ now).map some ∧ inv.steps = outputs clone (told past ++ now)

theorem Placed.feeds (h : Placed clone units actions s before unit past now ending) (hreturned : s.returned = false)
    {a : Action V E} {inv : Invocation V} (hentry : inv.entry ∈ unit.entries) (hsteps : inv.steps = s.steps) :
    Fed clone units (actions ++ [a]) s.pushed inv := by
  refine ⟨before, unit, s.rest, past, now.actions ++ [a], now.reports, h.units_eq, hentry, ?_, whole_mono h.whole,
    h.mentions, ?_, hsteps.trans h.steps⟩
  · rw [h.acting hreturned, List.append_assoc]
  · rw [h.pushed, h.ending_nil hreturned, List.append_nil]

theorem Inv.invokes (h : Inv clone units actions s) {a : Action V E} {t : Execution V E} (hdid : Did clone s a t) :
    ∃ more, t.invoked = s.invoked ++ more ∧ ∀ inv ∈ more, Fed clone units (actions ++ [a]) s.pushed inv := by
  obtain ⟨-, hrunning, hreturned, -⟩ | ⟨before, unit, past, now, ending, h⟩ := h
  · cases hdid with
    | discovered => exact ⟨[], (List.append_nil _).symm, nofun⟩
    | moved r hr => rw [hrunning] at hr; cases hr
    | proceeded hnot => rw [hreturned] at hnot; cases hnot
    | destroyed => exact ⟨[], (List.append_nil _).symm, nofun⟩
  · cases hdid with
    | discovered => exact ⟨[], (List.append_nil _).symm, nofun⟩
    | moved r hr phase said components hadvance =>
      have hreturned : s.returned = false :=
        Bool.eq_false_iff.mpr fun hreturned => hadvance.unsettled (h.returned hreturned r hr)
      refine ⟨_, rfl, fun inv hinv => ?_⟩
      split at hinv
      · obtain rfl := List.mem_singleton.mp hinv
        have hentry : r.entry ∈ unit.entries := h.entries ▸ List.mem_map_of_mem hr
        exact h.feeds hreturned hentry rfl
      · cases hinv
    | proceeded hreturned hsettled =>
      obtain ⟨following, rest, hinterrupted, hrest, heq⟩ | ⟨-, heq⟩ := proceed_eq s
      · obtain ⟨fresh, more, hentered⟩ := entered_execute { s with rest } following
        have hnext := h.next hreturned hsettled hinterrupted hrest
        refine ⟨more, by rw [heq, hentered.eq], fun inv hinv => ?_⟩
        have hmem : inv.entry ∈ those (· ≠ .discovering) fresh := hentered.invoked ▸ List.mem_map_of_mem hinv
        have hentry : inv.entry ∈ following.entries := by
          rw [← hentered.named]
          exact (List.filter_sublist.map _).subset hmem
        have hpushed : s.pushed = (told (past ++ [now]) ++ []).map some := by
          rw [told_concat, h.pushed, h.ending_nil hreturned, List.append_nil, List.append_nil]
        refine ⟨before ++ [unit], following, rest, past ++ [now], [], [], ?_, hentry, ?_, hnext.whole, nofun, hpushed,
          ?_⟩
        · rw [h.units_eq, hrest, List.append_assoc, List.singleton_append]
        · rw [begun_concat, List.append_nil, h.acting hreturned]
        · rw [hentered.steps inv hinv, List.append_nil, told_concat]
          exact h.steps
      · exact ⟨[], by rw [heq, List.append_nil], nofun⟩
    | destroyed => exact ⟨[], (List.append_nil _).symm, nofun⟩

/-- Nothing is invoked before a component is found. What an action then invokes is given what was reported by then,
all of the units before its own having told all there is to tell without a failure; and no step's operation is
invoked twice. -/
theorem fed {a : Action V E} {t : Execution V E} (hrun : run (step clone) (new units) actions = some s)
    (hstep : step clone s a = some t) :
    (new units : Execution V E).invoked = [] ∧
      (∃ more, t.invoked = s.invoked ++ more ∧ ∀ inv ∈ more, Fed clone units (actions ++ [a]) s.pushed inv) ∧
      (t.invoked.map Invocation.entry).Subperm (units.flatMap Unit.entries) := by
  have hinv := inv_run hrun
  refine ⟨invoked_new units, hinv.invokes (did_of_step hinv.distinct hstep), ?_⟩
  obtain ⟨rfl, -, -, -, hinvoked, -⟩ | ⟨before, unit, past, now, ending, h⟩ := inv_step hinv hstep
  · rw [hinvoked]
    exact .refl _
  · refine h.once.trans ?_
    rw [h.units_eq, List.flatMap_append, List.flatMap_cons]
    refine (List.subperm_append_left _).mpr ?_
    have hthose : (those (· ≠ .discovering) t.running).Sublist unit.entries := by
      rw [← h.entries]
      exact List.filter_sublist.map _
    exact (hthose.trans (List.sublist_append_left ..)).subperm

/-- The post is published once both the size and the analysis are known. -/
theorem fed_publishing : ∃ s t : Execution ℕ String, run (step some) (new upload) uploading.dropLast = some s ∧
    step some s (.waited "publish") = some t ∧
    t.invoked.map Invocation.steps = [[], [], [("resize", 320), ("analyze", 7)]] ∧
    (new upload : Execution ℕ String).invoked = [] ∧
      (∃ more, t.invoked = s.invoked ++ more ∧
        ∀ inv ∈ more, Fed some upload (uploading.dropLast ++ [.waited "publish"]) s.pushed inv) ∧
      (t.invoked.map Invocation.entry).Subperm (upload.flatMap Unit.entries) := by
  have hinvoked : ((run (step some) (new upload) uploading.dropLast).bind fun s : Execution ℕ String =>
      step some s (.waited "publish")).map (fun t => t.invoked.map Invocation.steps) =
        some [[], [], [("resize", 320), ("analyze", 7)]] := by decide +kernel
  obtain ⟨t, ht, hinvoked⟩ := Option.map_eq_some_iff.mp hinvoked
  obtain ⟨s, hrun, hstep⟩ := Option.bind_eq_some_iff.mp ht
  exact ⟨s, t, hrun, hstep, hinvoked, fed hrun hstep⟩

end

end Toa.Octets.Execution
