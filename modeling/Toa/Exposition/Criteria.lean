import Mathlib.Tactic.SplitIfs
import Toa.Lib.Infix
import Toa.Lib.Join

/-! The criteria the gateway sends an operation: what the route declares, the segments of the path,
and what the client asks for, each in parentheses. How a text is told apart into comparisons and
what joins them is the parser's, which a `Lexing` stands for. -/

namespace Toa.Exposition
open Infix Join Toa.Run

abbrev Text := List Char

structure Route where
  criteria : Option Text
  closed : Bool
  prepend : Char

def Route.declare (criteria : Option Text) : Route :=
  match criteria with
  | none => ⟨none, false, ';'⟩
  | some text =>
    let closed := text.getLast? != some ';'
    match if closed = true then text else text.dropLast with
    | ',' :: rest => ⟨some rest, closed, ','⟩
    | ';' :: rest => ⟨some rest, closed, ';'⟩
    | declared => ⟨some declared, closed, ';'⟩

structure Parameter where
  name : Text
  value : Text

structure CriteriaGroup where
  criteria : Text
  operator : Char

def quote (value : Text) : Text :=
  '"' :: value.flatMap (fun c => if c = '"' ∨ c = '\\' then ['\\', c] else [c]) ++ ['"']

def WHATEVER : Char := ';'

inductive BadRequest
  | closed

def segment (parameter : Parameter) : Text := parameter.name ++ '=' :: '=' :: quote parameter.value

/-- The groups that are the route's own. A segment of the name `id` selects on its own. -/
def Route.groups (route : Route) (parameters : List Parameter) : List CriteriaGroup :=
  let segments := parameters.eraseP fun parameter => parameter.name = ['i', 'd']
  (if segments.isEmpty = true then [] else [⟨join ';' (segments.map segment), route.prepend⟩]) ++
    route.criteria.toList.map fun criteria => ⟨criteria, ';'⟩

def combine : List CriteriaGroup → Text
  | [] => []
  | [group] => '(' :: group.criteria ++ [')']
  | group :: groups => '(' :: group.criteria ++ ')' :: group.operator :: combine groups

def fitCriteria (route : Route) (parameters : List Parameter) (criteria : Option Text) :
    Except BadRequest (Option Text) :=
  match criteria with
  | none =>
    match route.groups parameters with
    | [] => .ok none
    | groups => .ok (some (combine groups))
  | some text =>
    if route.closed = true then .error .closed
    else .ok (some (combine (route.groups parameters ++ [⟨text, WHATEVER⟩])))

/-! ## What is composed -/

theorem combine_append {groups : List CriteriaGroup} {group : CriteriaGroup} (last : CriteriaGroup) :
    combine (groups ++ [group] ++ [last]) =
      combine (groups ++ [group]) ++ group.operator :: '(' :: (last.criteria ++ [')']) := by
  induction groups with
  | nil => simp only [combine, List.nil_append, List.cons_append, List.append_assoc]
  | cons first groups ih =>
    cases groups with
    | nil => simp only [combine, List.nil_append, List.cons_append, List.append_assoc]
    | cons second groups =>
      simp only [List.cons_append, combine, List.append_assoc] at ih ⊢
      rw [ih]

theorem groups_eq_append {declared : Option Text} {parameters : List Parameter}
    (h : (Route.declare declared).groups parameters ≠ []) :
    ∃ groups group, (Route.declare declared).groups parameters = groups ++ [group] ∧
      group.operator = ';' := by
  cases hcriteria : (Route.declare declared).criteria with
  | some criteria =>
    simp only [Route.groups, hcriteria, Option.toList_some, List.map_cons, List.map_nil]
    exact ⟨_, _, rfl, rfl⟩
  | none =>
    have hprepend : (Route.declare declared).prepend = ';' := by
      cases declared with
      | none => rfl
      | some text =>
        simp only [Route.declare] at hcriteria
        split at hcriteria <;> exact nomatch hcriteria
    simp only [Route.groups, hcriteria, Option.toList_none, List.map_nil, List.append_nil] at h ⊢
    split_ifs at h ⊢
    · exact absurd rfl h
    · exact ⟨[], _, rfl, hprepend⟩

theorem fitCriteria_append {declared : Option Text} {parameters : List Parameter}
    {base composed criteria : Text}
    (hbase : fitCriteria (.declare declared) parameters none = .ok (some base))
    (hcomposed : fitCriteria (.declare declared) parameters (some criteria) = .ok (some composed)) :
    composed = base ++ ';' :: '(' :: (criteria ++ [')']) := by
  have hgroups : (Route.declare declared).groups parameters ≠ [] ∧
      base = combine ((Route.declare declared).groups parameters) := by
    simp only [fitCriteria] at hbase
    split at hbase
    · exact nomatch Except.ok.inj hbase
    · rename_i hne
      exact ⟨hne, (Option.some.inj (Except.ok.inj hbase)).symm⟩
  obtain ⟨groups, group, heq, hoperator⟩ := groups_eq_append hgroups.1
  simp only [fitCriteria] at hcomposed
  split_ifs at hcomposed
  rw [hgroups.2, ← Option.some.inj (Except.ok.inj hcomposed), heq, combine_append, hoperator]

/-! ## What a client's criteria leaves of a route's -/

/-- How the parser tells a text apart. What punctuates is read as that wherever a comparison may
begin or end, and no finite number of comparisons is all of them. -/
structure Lexing (α : Type*) where
  lex : Text → Option (List (Token α))
  nil : lex [] = some []
  opening : ∀ s, lex ('(' :: s) = (lex s).map (.opening :: ·)
  closing : ∀ s, lex (')' :: s) = (lex s).map (.closing :: ·)
  conj : ∀ s, lex (';' :: s) = (lex s).map (.conj :: ·)
  disj : ∀ s, lex (',' :: s) = (lex s).map (.disj :: ·)
  after : ∀ s ts c rest, lex s = some ts → c = ';' ∨ c = ')' →
    lex (s ++ c :: rest) = (lex (c :: rest)).map (ts ++ ·)
  fresh : ∀ atoms : List α, ∃ s a, a ∉ atoms ∧ lex s = some [.atom a]

namespace Lexing
variable {α : Type*}

def parse (L : Lexing α) (s : Text) : Option (Formula α) := (L.lex s).bind Infix.parse

/-- A client's criteria only ever narrows what the route and the segments expose: `v` is what a
record says of each comparison. -/
def Narrows (L : Lexing α) (criteria : Text) : Prop :=
  ∀ declared parameters base composed b e,
    fitCriteria (.declare declared) parameters none = .ok (some base) →
    fitCriteria (.declare declared) parameters (some criteria) = .ok (some composed) →
    L.parse base = some b → L.parse composed = some e →
      ∀ v : α → Bool, e.eval v = true → b.eval v = true

/-- No disjunction of a client's criteria is outside the parentheses it is put in. -/
def Contained (L : Lexing α) (criteria : Text) : Prop :=
  ∀ ts, L.lex (criteria ++ [')']) = some ts → escapes 1 ts = false

variable {L : Lexing α} {criteria : Text}

theorem lex_group {ts : List (Token α)} {base : Text} (hbase : L.lex base = some ts) :
    L.lex (base ++ ';' :: '(' :: (criteria ++ [')'])) =
      (L.lex (criteria ++ [')'])).map fun us => ts ++ .conj :: .opening :: us := by
  rw [L.after base ts ';' _ hbase (.inl rfl), L.conj, L.opening, Option.map_map, Option.map_map]
  rfl

theorem parse_eq_some {s : Text} {f : Formula α} (h : L.parse s = some f) :
    ∃ ts d c, L.lex s = some ts ∧ run step start ts = some (.operator d c []) ∧
      f = disjoin d c := by
  obtain ⟨ts, hlex, hparse⟩ := Option.bind_eq_some_iff.mp h
  obtain ⟨d, c, hrun, rfl⟩ := Infix.parse_eq_some hparse
  exact ⟨ts, d, c, hlex, hrun, rfl⟩

theorem run_group {ts us : List (Token α)} {d : Option (Formula α)} {c : Formula α}
    (h : run step start ts = some (.operator d c [])) :
    run step start (ts ++ .conj :: .opening :: us) = run step (.operand .empty [⟨d, some c⟩]) us := by
  rw [run_append, h]
  rfl

theorem narrows_of_contained (h : L.Contained criteria) : L.Narrows criteria := by
  intro declared parameters base composed b e hbase hcomposed hb he v hv
  obtain rfl := fitCriteria_append hbase hcomposed
  obtain ⟨ts, d, c, hts, hrun, rfl⟩ := parse_eq_some hb
  obtain ⟨us, d', c', hus, hrun', rfl⟩ := parse_eq_some he
  rw [lex_group hts] at hus
  obtain ⟨ws, hws, rfl⟩ := Option.map_eq_some_iff.mp hus
  rw [run_group hrun] at hrun'
  obtain ⟨hdisjuncts, hconjuncts⟩ := run_outer v hrun' (h ws hws)
  have hd : d' = d := hdisjuncts
  have hc : c'.eval v = true → c.eval v = true := hconjuncts
  rw [eval_disjoin, Bool.or_eq_true] at hv ⊢
  exact hv.imp (hd ▸ ·) hc

theorem declare_atom {s : Text} {a : α} (hs : L.lex s = some [.atom a]) :
    Route.declare (some (s ++ [';'])) = ⟨some s, false, ';'⟩ := by
  have hpunct {t : Token α} {rest : Text} (ht : ∀ a, t ≠ .atom a)
      (h : (L.lex rest).map (t :: ·) = some [.atom a]) : False := by
    obtain ⟨us, -, hcons⟩ := Option.map_eq_some_iff.mp h
    exact ht a (List.cons.inj hcons).1
  simp only [Route.declare, List.getLast?_concat, bne_self_eq_false, Bool.false_eq_true, if_false,
    List.dropLast_concat]
  split
  · rename_i rest
    exact (hpunct (t := .disj) (fun _ h => nomatch h) ((L.disj rest).symm.trans hs)).elim
  · rename_i rest
    exact (hpunct (t := .conj) (fun _ h => nomatch h) ((L.conj rest).symm.trans hs)).elim
  · rfl

theorem lex_parenthesized {s : Text} {ts : List (Token α)} (hs : L.lex s = some ts) :
    L.lex ('(' :: (s ++ [')'])) = some (.opening :: (ts ++ [.closing])) := by
  rw [L.opening, L.after s ts ')' [] hs (.inr rfl), L.closing, L.nil]
  rfl

theorem contained_of_narrows [DecidableEq α] (hparse : (L.parse ('(' :: (criteria ++ [')']))).isSome)
    (h : L.Narrows criteria) : L.Contained criteria := by
  intro ts hts
  by_contra hout
  obtain ⟨f, hf⟩ := Option.isSome_iff_exists.mp hparse
  obtain ⟨us, d, c, hus, hrun, -⟩ := parse_eq_some hf
  rw [L.opening, hts] at hus
  obtain rfl := Option.some.inj hus
  obtain ⟨s, a, hfresh, hs⟩ :=
    L.fresh (ts.filterMap fun t => match t with | .atom a => some a | _ => none)
  have hdeclare := declare_atom hs
  have hbase : run step start (.opening :: .atom a :: [.closing]) =
      some (.operator none (.atom a) []) := rfl
  -- the two groups are read as one is
  have hrun : run step (.operand .empty [.empty]) ts = some (.operator d c []) := hrun
  have hshape : (State.operand .empty [.empty]).shape =
      (State.operand .empty [⟨none, some (.atom a)⟩]).shape := rfl
  obtain ⟨t, hrun', hshape⟩ := run_shape hrun hshape
  have hparsed : ∃ d' c', t = .operator d' c' [] := by
    cases t with
    | operand _ _ => exact nomatch congrArg Prod.fst hshape
    | operator d' c' stack =>
      cases stack with
      | nil => exact ⟨d', c', rfl⟩
      | cons _ _ => exact nomatch congrArg Prod.snd hshape
  obtain ⟨d', c', rfl⟩ := hparsed
  have hb : L.parse ('(' :: (s ++ [')'])) = some (.atom a) := by
    rw [parse, lex_parenthesized hs]
    exact parse_of_run hbase
  have he : L.parse ('(' :: (s ++ [')']) ++ ';' :: '(' :: (criteria ++ [')'])) =
      some (disjoin d' c') := by
    rw [parse, lex_group (lex_parenthesized hs), hts]
    exact parse_of_run ((run_group hbase).trans hrun')
  have hopen : c'.eval (fun b => decide (b ≠ a)) = true := by
    refine (run_escaped hrun' (Bool.not_eq_false _ ▸ hout) fun b hmem => decide_eq_true ?_).1
    intro heq
    exact hfresh (List.mem_filterMap.mpr ⟨.atom b, hmem, congrArg some heq⟩)
  have hcomposed : fitCriteria ⟨some s, false, ';'⟩ [] (some criteria) =
      .ok (some ('(' :: (s ++ [')']) ++ ';' :: '(' :: (criteria ++ [')']))) :=
    congrArg (fun text => Except.ok (some text)) (@combine_append [] ⟨s, ';'⟩ ⟨criteria, ';'⟩)
  have hnarrow := h (some (s ++ [';'])) [] _ _ _ _ (hdeclare ▸ rfl) (hdeclare ▸ hcomposed) hb he
    (fun b => decide (b ≠ a)) (by rw [eval_disjoin, hopen, Bool.or_true])
  exact absurd rfl (of_decide_eq_true hnarrow)

end Lexing

/-- Whatever the route and the segments, a client's criteria that can be read in the parentheses it
is put in narrows what they expose exactly where none of its disjunctions is outside of them. -/
theorem criteria_narrow_iff {α : Type*} [DecidableEq α] (L : Lexing α) (criteria : Text)
    (hparse : (L.parse ('(' :: (criteria ++ [')']))).isSome) :
    L.Narrows criteria ↔ L.Contained criteria :=
  ⟨Lexing.contained_of_narrows hparse, Lexing.narrows_of_contained⟩

/-! ## Comparisons of one value each -/

def punctuation : Char → Option (Token Text)
  | '(' => some .opening
  | ')' => some .closing
  | ';' => some .conj
  | ',' => some .disj
  | _ => none

def flush (word : Text) : List (Token Text) := if word.isEmpty = true then [] else [.atom word]

/-- Reads a text with `word` of a comparison read already, inside a quotation or not: the quote it
is in, and whether the next character is escaped. A comparison is its text. -/
def scan : Option (Char × Bool) → Text → Text → Option (List (Token Text))
  | none, word, [] => some (flush word)
  | some _, _, [] => none
  | some (q, true), word, c :: s => scan (some (q, false)) (word ++ [c]) s
  | some (q, false), word, c :: s =>
    if c = '\\' then scan (some (q, true)) (word ++ [c]) s
    else scan (if c = q then none else some (q, false)) (word ++ [c]) s
  | none, word, c :: s =>
    match punctuation c with
    | some t => (scan none [] s).map fun ts => flush word ++ t :: ts
    | none => scan (if c = '"' ∨ c = '\'' then some (c, false) else none) (word ++ [c]) s

theorem scan_after {quotation : Option (Char × Bool)} {word s rest : Text} {ts : List (Token Text)}
    {c : Char} {t : Token Text} (hs : scan quotation word s = some ts) (ht : punctuation c = some t) :
    scan quotation word (s ++ c :: rest) = (scan none [] rest).map fun us => ts ++ t :: us := by
  induction s generalizing quotation word ts with
  | nil =>
    cases quotation with
    | none =>
      obtain rfl := Option.some.inj hs
      simp only [List.nil_append, scan, ht]
    | some _ => exact nomatch hs
  | cons b s ih =>
    match quotation with
    | some (q, true) => exact ih hs
    | some (q, false) =>
      simp only [scan, List.cons_append] at hs ⊢
      split_ifs at hs ⊢ <;> exact ih hs
    | none =>
      simp only [scan, List.cons_append] at hs ⊢
      split at hs
      · obtain ⟨us, hus, rfl⟩ := Option.map_eq_some_iff.mp hs
        rw [ih hus, Option.map_map]
        simp only [Function.comp_def, List.append_assoc, List.cons_append]
      · exact ih hs

theorem scan_letters (n : ℕ) (word : Text) :
    scan none word (List.replicate n 'a') = some (flush (word ++ List.replicate n 'a')) := by
  induction n generalizing word with
  | zero => rw [List.replicate_zero, List.append_nil]; rfl
  | succ n ih =>
    rw [List.replicate_succ]
    exact (ih (word ++ ['a'])).trans (by rw [List.append_assoc]; rfl)

def plain : Lexing Text where
  lex := scan none []
  nil := rfl
  opening := fun _ => rfl
  closing := fun _ => rfl
  conj := fun _ => rfl
  disj := fun _ => rfl
  after := by
    intro s ts c rest hs hc
    rcases hc with rfl | rfl
    · rw [scan_after hs rfl]
      exact (Option.map_map ..).symm
    · rw [scan_after hs rfl]
      exact (Option.map_map ..).symm
  fresh := by
    intro atoms
    refine ⟨List.replicate (atoms.flatten.length + 1) 'a', _, fun hmem => ?_, scan_letters _ []⟩
    have hlength := (List.sublist_flatten_of_mem hmem).length_le
    rw [List.nil_append, List.length_replicate] at hlength
    omega

theorem narrows_rank : plain.Narrows "rank==5".toList := by
  refine (criteria_narrow_iff plain "rank==5".toList rfl).mpr fun ts hts => ?_
  obtain rfl := Option.some.inj hts
  rfl

/-- Of a path that selects what is the caller's own, a client is shown what is not. -/
theorem disjunction_escapes :
    ∃ base composed b e, ∃ v : Text → Bool,
      fitCriteria (.declare none) [⟨"user".toList, "me".toList⟩] none = .ok (some base) ∧
      fitCriteria (.declare none) [⟨"user".toList, "me".toList⟩] (some "a==1),(b==2".toList) =
        .ok (some composed) ∧
      plain.parse base = some b ∧ plain.parse composed = some e ∧
      e.eval v = true ∧ b.eval v = false :=
  ⟨_, _, _, _, fun comparison => comparison = "b==2".toList, rfl, rfl, rfl, rfl, rfl, rfl⟩

end Toa.Exposition
