import Toa.Exposition.Criteria

/-! How the criteria of an operation are grouped: what the segments of a path select is to be joined with
what the route declares before a client's criteria narrows them both. -/

namespace Toa.Exposition
open Infix Join Toa.Run

/-- What the parser reads of a segment: a quoted value holds no punctuation, whatever it is. -/
structure Lexing.Quoting {α : Type*} (L : Lexing α) where
  selector : Text → Prop
  comparison : Parameter → α
  quoted : ∀ parameter, selector parameter.name →
    L.lex (Exposition.segment parameter) = some [.atom (comparison parameter)]

section
variable {α : Type*} {L : Lexing α}

/-- A segment of the name `id` selects on its own. -/
def selecting (parameters : List Parameter) : List Parameter :=
  parameters.eraseP fun parameter => parameter.name = ['i', 'd']

def Lexing.Quoting.selection (Q : L.Quoting) (parameters : List Parameter) : Option (Formula α) :=
  (selecting parameters).foldl
    (fun selection parameter => some (conjoin selection (.atom (Q.comparison parameter)))) none

def Route.operation (route : Route) (f g : Formula α) : Formula α :=
  if route.prepend = ',' then .or f g else .and f g

/-- What is documented: the segments joined with what the route declares, and a client's criteria. -/
def documented (route : Route) (selection declared criteria : Option (Formula α)) : Option (Formula α) :=
  (selection.merge route.operation declared).merge .and criteria

def worth (v : α → Bool) (criteria : Option (Formula α)) : Bool := criteria.all (·.eval v)

def Lexing.Reads (L : Lexing α) (text : Option Text) (formula : Option (Formula α)) : Prop :=
  text.map L.parse = formula.map some

/-! ## What groups are read as -/

def grouped : Option (Formula α) → Option (Formula α) → List (Char × Formula α) → Option (Formula α)
  | _, _, [] => none
  | d, c, [(_, f)] => some (disjoin d (conjoin c f))
  | d, c, (operator, f) :: groups =>
    if operator = ',' then grouped (some (disjoin d (conjoin c f))) none groups
    else grouped d (some (conjoin c f)) groups

theorem exists_grouped (d c : Option (Formula α)) {groups : List (Char × Formula α)} (hne : groups ≠ []) :
    ∃ f, grouped d c groups = some f := by
  induction groups generalizing d c with
  | nil => exact absurd rfl hne
  | cons group groups ih =>
    cases groups with
    | nil => exact ⟨_, rfl⟩
    | cons next groups =>
      simp only [grouped]
      split_ifs
      · exact ih _ _ (List.cons_ne_nil _ _)
      · exact ih _ _ (List.cons_ne_nil _ _)

namespace Lexing

theorem lex_run_combine {groups : List (CriteriaGroup × Formula α)} (hne : groups ≠ [])
    (h : ∀ group ∈ groups, L.parse group.1.criteria = some group.2 ∧
      (group.1.operator = ',' ∨ group.1.operator = ';')) :
    ∃ ts, L.lex (combine (groups.map Prod.fst)) = some ts ∧ ∀ d c,
      (run step (.operand ⟨d, c⟩ []) ts).bind finish =
        grouped d c (groups.map fun group => (group.1.operator, group.2)) := by
  induction groups with
  | nil => exact absurd rfl hne
  | cons group groups ih =>
    obtain ⟨⟨hparse, hoperator⟩, hgroups⟩ := List.forall_mem_cons.mp h
    obtain ⟨ts, hlex, hread⟩ := Option.bind_eq_some_iff.mp hparse
    have hopen (rest : Text) : L.lex ('(' :: (group.1.criteria ++ ')' :: rest)) =
        (L.lex rest).map fun us => .opening :: (ts ++ .closing :: us) := by
      rw [L.opening, L.after _ ts ')' rest hlex (.inr rfl), L.closing, Option.map_map, Option.map_map]
      rfl
    cases groups with
    | nil =>
      refine ⟨.opening :: (ts ++ .closing :: []), ?_, fun d c => ?_⟩
      · refine (hopen []).trans ?_
        rw [L.nil]
        rfl
      · rw [run_parenthesized hread]
        rfl
    | cons next groups =>
      obtain ⟨us, hus, hrest⟩ := ih (List.cons_ne_nil _ _) hgroups
      rcases hoperator with hdisj | hconj
      · refine ⟨.opening :: (ts ++ .closing :: .disj :: us), ?_, fun d c => ?_⟩
        · refine (hopen _).trans ?_
          rw [hdisj, L.disj]
          exact congrArg (Option.map _) (congrArg (Option.map _) hus)
        · rw [run_parenthesized hread]
          exact (hrest (some (disjoin d (conjoin c group.2))) none).trans (if_pos hdisj).symm
      · refine ⟨.opening :: (ts ++ .closing :: .conj :: us), ?_, fun d c => ?_⟩
        · refine (hopen _).trans ?_
          rw [hconj, L.conj]
          exact congrArg (Option.map _) (congrArg (Option.map _) hus)
        · have hnot : group.1.operator ≠ ',' := by
            rw [hconj]
            decide
          rw [run_parenthesized hread]
          exact (hrest d (some (conjoin c group.2))).trans (if_neg hnot).symm

theorem parse_combine {groups : List (CriteriaGroup × Formula α)} (hne : groups ≠ [])
    (h : ∀ group ∈ groups, L.parse group.1.criteria = some group.2 ∧
      (group.1.operator = ',' ∨ group.1.operator = ';')) :
    L.parse (combine (groups.map Prod.fst)) =
      grouped none none (groups.map fun group => (group.1.operator, group.2)) := by
  obtain ⟨ts, hlex, hrun⟩ := lex_run_combine hne h
  rw [parse, hlex]
  exact hrun none none

/-! ## What the segments select -/

theorem lex_run_selection {Q : L.Quoting} {parameters : List Parameter}
    (h : ∀ parameter ∈ parameters, Q.selector parameter.name) (hne : parameters ≠ []) :
    ∃ ts, L.lex (join ';' (parameters.map segment)) = some ts ∧ ∀ c : Option (Formula α), ∃ f,
      run step (.operand ⟨none, c⟩ []) ts = some (.operator none f []) ∧
        parameters.foldl (fun selection parameter =>
          some (conjoin selection (.atom (Q.comparison parameter)))) c = some f := by
  induction parameters with
  | nil => exact absurd rfl hne
  | cons parameter parameters ih =>
    obtain ⟨hselector, hrest⟩ := List.forall_mem_cons.mp h
    have hlex := Q.quoted parameter hselector
    cases parameters with
    | nil => exact ⟨_, hlex, fun c => ⟨_, rfl, rfl⟩⟩
    | cons next parameters =>
      obtain ⟨us, hus, hrun⟩ := ih hrest (List.cons_ne_nil _ _)
      refine ⟨.atom (Q.comparison parameter) :: .conj :: us, ?_, fun c => hrun _⟩
      rw [List.map_cons, List.map_cons, join_cons_cons, L.after _ _ ';' _ hlex (.inl rfl), L.conj]
      exact congrArg (Option.map _) (congrArg (Option.map _) hus)

theorem reads_selection {Q : L.Quoting} {parameters : List Parameter}
    (h : ∀ parameter ∈ parameters, Q.selector parameter.name) :
    L.Reads (if (selecting parameters).isEmpty = true then none
      else some (join ';' ((selecting parameters).map segment))) (Q.selection parameters) := by
  have hselecting : ∀ parameter ∈ selecting parameters, Q.selector parameter.name :=
    fun parameter hmem => h parameter (List.mem_of_mem_eraseP hmem)
  by_cases hnil : selecting parameters = []
  · rw [Quoting.selection, hnil]
    rfl
  · obtain ⟨ts, hlex, hrun⟩ := lex_run_selection hselecting hnil
    obtain ⟨f, hread, hfold⟩ := hrun none
    have hparse : L.parse (join ';' ((selecting parameters).map segment)) = some f := by
      rw [parse, hlex]
      exact parse_of_run hread
    rw [if_neg (mt List.isEmpty_iff.mp hnil), Quoting.selection, hfold, Reads, Option.map_some, hparse]
    rfl

end Lexing

/-! ## What is composed of them -/

theorem prepend_declare (declared : Option Text) :
    (Route.declare declared).prepend = ';' ∨
      (Route.declare declared).prepend = ',' ∧ (Route.declare declared).criteria.isSome = true := by
  cases declared with
  | none => exact .inl rfl
  | some text =>
    simp only [Route.declare]
    split
    · exact .inr ⟨rfl, rfl⟩
    · exact .inl rfl
    · exact .inl rfl

def Route.reading (route : Route) (parameters : List Parameter) (criteria : Option Text)
    (selection declared asked : Option (Formula α)) : List (CriteriaGroup × Formula α) :=
  (selection.map fun f => (⟨join ';' ((selecting parameters).map segment), route.prepend⟩, f)).toList ++
    (declared.map fun f => (⟨route.criteria.getD [], ';'⟩, f)).toList ++
    (asked.map fun f => (⟨criteria.getD [], WHATEVER⟩, f)).toList

theorem Lexing.Reads.cases {text : Option Text} {formula : Option (Formula α)} (h : L.Reads text formula) :
    text = none ∧ formula = none ∨ ∃ t f, text = some t ∧ formula = some f ∧ L.parse t = some f := by
  cases text with
  | none => exact .inl ⟨rfl, Option.map_eq_none_iff.mp h.symm⟩
  | some t =>
    obtain ⟨f, hf, hparse⟩ := Option.map_eq_some_iff.mp h.symm
    exact .inr ⟨t, f, rfl, hf, hparse.symm⟩

theorem fitCriteria_ok {route : Route} {parameters : List Parameter} {criteria composed : Option Text}
    (h : fitCriteria route parameters criteria = .ok composed) {groups : List CriteriaGroup}
    (hgroups : groups = route.groups parameters ++ criteria.toList.map (⟨·, WHATEVER⟩)) :
    composed = if groups.isEmpty = true then none else some (combine groups) := by
  cases criteria with
  | none =>
    rw [Option.toList_none, List.map_nil, List.append_nil] at hgroups
    rw [fitCriteria, ← hgroups] at h
    cases groups <;> exact (Except.ok.inj h).symm
  | some text =>
    rw [Option.toList_some, List.map_singleton] at hgroups
    simp only [fitCriteria, ← hgroups] at h
    split_ifs at h
    have hne : ¬groups.isEmpty = true := by
      rw [hgroups, List.isEmpty_iff]
      exact List.append_ne_nil_of_right_ne_nil _ (List.cons_ne_nil _ _)
    rw [if_neg hne, ← Except.ok.inj h]

section
variable {route : Route} {parameters : List Parameter} {criteria composed : Option Text}
  {selection declared asked : Option (Formula α)}
  (hselection : L.Reads (if (selecting parameters).isEmpty = true then none
    else some (join ';' ((selecting parameters).map segment))) selection)
  (hdeclared : L.Reads route.criteria declared) (hcriteria : L.Reads criteria asked)
include hselection hdeclared hcriteria

theorem map_reading : (route.reading parameters criteria selection declared asked).map Prod.fst =
    route.groups parameters ++ criteria.toList.map (⟨·, WHATEVER⟩) := by
  have hown : ((declared.map fun f => ((⟨route.criteria.getD [], ';'⟩ : CriteriaGroup), f)).toList).map
      Prod.fst = route.criteria.toList.map (⟨·, ';'⟩) := by
    rcases hdeclared.cases with ⟨ht, hf⟩ | ⟨t, f, ht, hf, -⟩ <;> rw [ht, hf] <;> rfl
  have hasked : ((asked.map fun f => ((⟨criteria.getD [], WHATEVER⟩ : CriteriaGroup), f)).toList).map
      Prod.fst = criteria.toList.map (⟨·, WHATEVER⟩) := by
    rcases hcriteria.cases with ⟨ht, hf⟩ | ⟨t, f, ht, hf, -⟩ <;> rw [ht, hf] <;> rfl
  rw [Route.reading, List.map_append, List.map_append, hown, hasked, Route.groups]
  refine congrArg (· ++ _) (congrArg (· ++ _) ?_)
  rcases hselection.cases with ⟨ht, hf⟩ | ⟨t, f, ht, hf, -⟩
  · have hempty : (selecting parameters).isEmpty = true := by
      by_contra hne
      rw [if_neg hne] at ht
      cases ht
    rw [hf]
    exact (if_pos hempty).symm
  · have hempty : ¬(selecting parameters).isEmpty = true := by
      intro hempty
      rw [if_pos hempty] at ht
      cases ht
    rw [hf]
    exact (if_neg hempty).symm

theorem reads_composed (hprepend : route.prepend = ',' ∨ route.prepend = ';')
    (h : fitCriteria route parameters criteria = .ok composed) :
    L.Reads composed (grouped none none
      ((route.reading parameters criteria selection declared asked).map fun group =>
        (group.1.operator, group.2))) := by
  have hcomposed := fitCriteria_ok h (map_reading hselection hdeclared hcriteria)
  have hgroups : ∀ group ∈ route.reading parameters criteria selection declared asked,
      L.parse group.1.criteria = some group.2 ∧ (group.1.operator = ',' ∨ group.1.operator = ';') := by
    intro group hgroup
    simp only [Route.reading, List.mem_append, Option.mem_toList, Option.map_eq_some_iff] at hgroup
    rcases hgroup with (⟨f, hf, rfl⟩ | ⟨f, hf, rfl⟩) | ⟨f, hf, rfl⟩
    · refine ⟨?_, hprepend⟩
      rcases hselection.cases with ⟨-, hnone⟩ | ⟨t, g, ht, hg, hparse⟩
      · cases hnone.symm.trans hf
      · split_ifs at ht
        obtain rfl := Option.some.inj ht
        exact hparse.trans (hg.symm.trans hf)
    · refine ⟨?_, .inr rfl⟩
      rcases hdeclared.cases with ⟨-, hnone⟩ | ⟨t, g, ht, hg, hparse⟩
      · cases hnone.symm.trans hf
      · rw [ht]
        exact hparse.trans (hg.symm.trans hf)
    · refine ⟨?_, .inr rfl⟩
      rcases hcriteria.cases with ⟨-, hnone⟩ | ⟨t, g, ht, hg, hparse⟩
      · cases hnone.symm.trans hf
      · rw [ht]
        exact hparse.trans (hg.symm.trans hf)
  rw [hcomposed]
  cases hreading : route.reading parameters criteria selection declared asked with
  | nil => rfl
  | cons group groups =>
    rw [hreading] at hgroups
    have hparse := Lexing.parse_combine (List.cons_ne_nil _ _) hgroups
    obtain ⟨f, hf⟩ := exists_grouped none none
      (List.cons_ne_nil (group.1.operator, group.2) (groups.map fun group => (group.1.operator, group.2)))
    have hread : L.parse (combine ((group :: groups).map Prod.fst)) = some f := hparse.trans hf
    rw [List.map_cons (f := fun group : CriteriaGroup × Formula α => (group.1.operator, group.2)), hf]
    exact congrArg some hread

end

theorem worth_grouped (v : α → Bool) {route : Route} (parameters : List Parameter) (criteria : Option Text)
    {selection declared asked : Option (Formula α)}
    (hprepend : route.prepend = ';' ∨ route.prepend = ',' ∧ declared.isSome = true) :
    worth v (grouped none none ((route.reading parameters criteria selection declared asked).map fun group =>
      (group.1.operator, group.2))) = worth v (documented route selection declared asked) ↔
        (route.prepend = ',' → ∀ s ∈ selection, ∀ c ∈ asked, s.eval v = true → c.eval v = true) := by
  rcases hprepend with hconj | ⟨hdisj, hsome⟩
  · have hnot : (';' : Char) ≠ ',' := by decide
    refine iff_of_true ?_ fun hdisj => absurd (hconj.symm.trans hdisj) hnot
    cases selection <;> cases declared <;> cases asked <;>
      simp [Route.reading, grouped, documented, Route.operation, worth, hconj, WHATEVER, conjoin, disjoin,
        Formula.eval]
  · obtain ⟨f, rfl⟩ := Option.isSome_iff_exists.mp hsome
    cases selection with
    | none =>
      cases asked <;> simp [Route.reading, grouped, documented, worth, WHATEVER, conjoin, disjoin, Formula.eval]
    | some s =>
      cases asked with
      | none =>
        simp [Route.reading, grouped, documented, Route.operation, worth, hdisj, conjoin, disjoin, Formula.eval]
      | some c =>
        have hcode : worth v (grouped none none ((route.reading parameters criteria (some s) (some f)
            (some c)).map fun group => (group.1.operator, group.2))) =
              (s.eval v || f.eval v && c.eval v) := by
          simp [Route.reading, grouped, worth, hdisj, WHATEVER, conjoin, disjoin, Formula.eval]
        have hdocumented : worth v (documented route (some s) (some f) (some c)) =
            ((s.eval v || f.eval v) && c.eval v) := by
          simp [documented, Route.operation, worth, hdisj, Formula.eval]
        rw [hcode, hdocumented]
        simp only [hdisj, Option.mem_def, Option.some.injEq, forall_eq', true_imp_iff]
        cases s.eval v <;> cases f.eval v <;> cases c.eval v <;> decide

/-- The composed criteria is well formed, and groups as documented exactly where it does not begin with a
disjunction of the segments that a client's criteria is to narrow, or every record that the segments select
is one that the client asks for. -/
theorem criteria_grouped_iff {ρ : Type*} (holds : ρ → α → Bool) (Q : L.Quoting) {declared : Option Text}
    {parameters : List Parameter} {criteria composed : Option Text} {own asked : Option (Formula α)}
    (hnames : ∀ parameter ∈ parameters, Q.selector parameter.name)
    (hdeclared : L.Reads (Route.declare declared).criteria own) (hcriteria : L.Reads criteria asked)
    (hfit : fitCriteria (.declare declared) parameters criteria = .ok composed) :
    ∃ e, L.Reads composed e ∧
      ((∀ record, worth (holds record) e =
          worth (holds record) (documented (.declare declared) (Q.selection parameters) own asked)) ↔
        ((Route.declare declared).prepend = ',' → ∀ s ∈ Q.selection parameters, ∀ c ∈ asked,
          ∀ record, s.eval (holds record) = true → c.eval (holds record) = true)) := by
  have hprepend := prepend_declare declared
  refine ⟨_, reads_composed (Lexing.reads_selection hnames) hdeclared hcriteria
    (hprepend.symm.imp_left And.left) hfit, ?_⟩
  have hown : (Route.declare declared).prepend = ';' ∨
      (Route.declare declared).prepend = ',' ∧ own.isSome = true := by
    refine hprepend.imp_right fun ⟨hdisj, hsome⟩ => ⟨hdisj, ?_⟩
    rcases hdeclared.cases with ⟨hnone, -⟩ | ⟨t, f, -, hf, -⟩
    · rw [hnone] at hsome
      cases hsome
    · rw [hf]
      rfl
  rw [forall_congr' fun record => worth_grouped (holds record) parameters criteria hown]
  constructor
  · exact fun h hdisj s hs c hc record => h record hdisj s hs c hc
  · exact fun h record hdisj s hs c hc => h hdisj s hs c hc record

end

/-! ## Comparisons of one value each -/

theorem scan_word {name : Text} (h : ∀ c ∈ name, punctuation c = none ∧ c ≠ '"' ∧ c ≠ '\'') (word rest : Text) :
    scan none word (name ++ rest) = scan none (word ++ name) rest := by
  induction name generalizing word with
  | nil => rw [List.nil_append, List.append_nil]
  | cons c name ih =>
    obtain ⟨⟨hpunctuation, hdouble, hsingle⟩, hname⟩ := List.forall_mem_cons.mp h
    rw [List.cons_append, scan, hpunctuation]
    simp only
    rw [if_neg (not_or.mpr ⟨hdouble, hsingle⟩), ih hname, List.append_assoc]
    rfl

def escape (value : Text) : Text := value.flatMap fun c => if c = '"' ∨ c = '\\' then ['\\', c] else [c]

theorem scan_escape (value word : Text) : scan (some ('"', false)) word (escape value ++ ['"']) =
    some [.atom (word ++ (escape value ++ ['"']))] := by
  induction value generalizing word with
  | nil =>
    cases word with
    | nil => rfl
    | cons c word => rfl
  | cons c value ih =>
    by_cases hc : c = '"' ∨ c = '\\'
    · have hescape : escape (c :: value) = '\\' :: c :: escape value := by
        rw [escape, List.flatMap_cons, if_pos hc]
        rfl
      rw [hescape, List.cons_append, List.cons_append, scan, if_pos rfl, scan, ih]
      simp only [List.append_assoc, List.cons_append, List.nil_append]
    · obtain ⟨hquote, hslash⟩ := not_or.mp hc
      have hescape : escape (c :: value) = c :: escape value := by
        rw [escape, List.flatMap_cons, if_neg hc]
        rfl
      rw [hescape, List.cons_append, scan, if_neg hslash, if_neg hquote, ih]
      simp only [List.append_assoc, List.cons_append, List.nil_append]

theorem scan_segment {parameter : Parameter}
    (h : ∀ c ∈ parameter.name, punctuation c = none ∧ c ≠ '"' ∧ c ≠ '\'') :
    scan none [] (segment parameter) = some [.atom (segment parameter)] := by
  have hequals : ∀ c ∈ ['=', '='], punctuation c = none ∧ c ≠ '"' ∧ c ≠ '\'' := by
    have hplain : punctuation '=' = none ∧ '=' ≠ '"' ∧ '=' ≠ '\'' := ⟨rfl, by decide, by decide⟩
    exact List.forall_mem_cons.mpr ⟨hplain, List.forall_mem_singleton.mpr hplain⟩
  have hsegment : segment parameter =
      parameter.name ++ (['=', '='] ++ '"' :: (escape parameter.value ++ ['"'])) := rfl
  rw [hsegment, scan_word h, scan_word hequals]
  refine (scan_escape _ _).trans ?_
  simp only [List.append_assoc, List.cons_append, List.nil_append]

def plainQuoting : plain.Quoting where
  selector := fun name => ∀ c ∈ name, punctuation c = none ∧ c ≠ '"' ∧ c ≠ '\''
  comparison := segment
  quoted := fun _ h => scan_segment h

theorem criteria_grouped_hot : ∃ e,
    plain.Reads (some "(type==\"cool\");(state==hot);(rank==5)".toList) e ∧ ∀ record : Text → Bool,
      worth record e = worth record (documented (.declare (some "state==hot;".toList))
        (plainQuoting.selection [⟨"type".toList, "cool".toList⟩]) (some (.atom "state==hot".toList))
        (some (.atom "rank==5".toList))) := by
  have hnames : ∀ parameter ∈ [(⟨"type".toList, "cool".toList⟩ : Parameter)],
      plainQuoting.selector parameter.name := by
    refine List.forall_mem_singleton.mpr ?_
    have hname : ∀ c ∈ ['t', 'y', 'p', 'e'], punctuation c = none ∧ c ≠ '"' ∧ c ≠ '\'' := by
      simp [punctuation]
    exact hname
  obtain ⟨e, he, hiff⟩ := @criteria_grouped_iff Text plain _ id plainQuoting (some "state==hot;".toList)
    [⟨"type".toList, "cool".toList⟩] (some "rank==5".toList)
    (some "(type==\"cool\");(state==hot);(rank==5)".toList) (some (.atom "state==hot".toList))
    (some (.atom "rank==5".toList)) hnames rfl rfl rfl
  exact ⟨e, he, hiff.mpr fun hdisj => absurd hdisj (by decide)⟩

/-- What is declared beside the path, and not what a client asks for, answers a client. -/
theorem disjunction_regroups : ∃ composed e, ∃ record : Text → Bool,
    fitCriteria (.declare (some ",state==hot;".toList)) [⟨"type".toList, "cool".toList⟩]
      (some "rank==5".toList) = .ok (some composed) ∧
    composed = "(type==\"cool\"),(state==hot);(rank==5)".toList ∧ plain.parse composed = some e ∧
      e.eval record = true ∧
      worth record (documented (.declare (some ",state==hot;".toList))
        (plainQuoting.selection [⟨"type".toList, "cool".toList⟩]) (some (.atom "state==hot".toList))
        (some (.atom "rank==5".toList))) = false :=
  ⟨_, _, fun comparison => comparison = "type==\"cool\"".toList, rfl, rfl, rfl, rfl, rfl⟩

end Toa.Exposition
