import Mathlib.Data.List.Basic
import Toa.Lib.Run
import Toa.Realtime.Stream

/-! Positions as they are written. A reader's first one is whatever text its token decodes to, as
long as `XREAD` reads from it, and it is compared to the id of each event in the loop that serves
every reader of the key. -/

namespace Toa.Realtime.Positions
open Toa.Run

abbrev Id := List Char

variable {ρ E : Type*}

/-! What `BigInt` makes of a text. -/

def whitespace : List Char :=
  ['\t', '\n', '\u000b', '\u000c', '\r', ' ', '\u00a0', '\u1680', '\u2000', '\u2001', '\u2002',
    '\u2003', '\u2004', '\u2005', '\u2006', '\u2007', '\u2008', '\u2009', '\u200a', '\u2028',
    '\u2029', '\u202f', '\u205f', '\u3000', '\ufeff']

def trim (text : List Char) : List Char :=
  ((text.dropWhile (· ∈ whitespace)).reverse.dropWhile (· ∈ whitespace)).reverse

def digit (c : Char) : ℕ :=
  if c.isDigit then c.toNat - '0'.toNat else c.toLower.toNat - 'a'.toNat + 10

def numeral (radix : ℕ) (text : List Char) : Option ℕ :=
  if text ≠ [] ∧ text.all (fun c => c.isAlphanum && digit c < radix) then
    some (text.foldl (fun n c => n * radix + digit c) 0)
  else none

def unsigned : List Char → Option ℕ
  | [] => some 0
  | '+' :: text => numeral 10 text
  | '0' :: 'x' :: text | '0' :: 'X' :: text => numeral 16 text
  | '0' :: 'o' :: text | '0' :: 'O' :: text => numeral 8 text
  | '0' :: 'b' :: text | '0' :: 'B' :: text => numeral 2 text
  | text => numeral 10 text

/-- `BigInt(text)`, `none` where it raises. What is split at `-` has no sign of its own. -/
def bigInt (text : List Char) : Option ℕ := unsigned (trim text)

/-- `<`, which nothing that is `undefined` is in. -/
def less (a b : Option ℕ) : Bool :=
  match a, b with
  | some a, some b => a < b
  | _, _ => false

/-- `compare`, `none` where it raises. -/
def compare (a b : Id) : Option ℤ :=
  ((a.splitOn '-').mapM bigInt).bind fun as =>
    ((b.splitOn '-').mapM bigInt).map fun bs =>
      if as[0]? ≠ bs[0]? then if less as[0]? bs[0]? then -1 else 1
      else if as[1]? ≠ bs[1]? then if less as[1]? bs[1]? then -1 else 1
      else 0

abbrev Reader (E : Type*) := Stream Id E

/-- `write`, `none` where the comparison raises. -/
def write (s : Reader E) (entry : Entry Id E) : Option (Reader E) :=
  let sent : Reader E :=
    ⟨some entry.id, s.held, s.sent ++ [.event entry, .token entry.id]⟩
  match s.cursor with
  | none => some sent
  | some cursor => (compare entry.id cursor).map fun order => if order ≤ 0 then s else sent

def writes (s : Reader E) : List (Entry Id E) → Reader E × Bool
  | [] => (s, false)
  | entry :: entries =>
    match write s entry with
    | none => (s, true)
    | some s => writes s entries

def deliver (s : Reader E) (entry : Entry Id E) : Option (Reader E) :=
  match s.held with
  | some held => some { s with held := some (held ++ [entry]) }
  | none => write s entry

def ready (s : Reader E) (entries : List (Entry Id E)) : Reader E × Bool :=
  let written := writes { s with held := none } entries
  if written.2 then written else writes written.1 (s.held.getD [])

def broadcast (entry : Entry Id E) : List (ρ × Reader E) → List (ρ × Reader E) × Bool
  | [] => ([], false)
  | (r, s) :: streams =>
    match deliver s entry with
    | none => ((r, s) :: streams, true)
    | some s =>
      let rest := broadcast entry streams
      ((r, s) :: rest.1, rest.2)

/-! The ids of Redis. -/

def Digits (text : List Char) : Prop := text ≠ [] ∧ ∀ c ∈ text, c.isDigit = true

def Full (id : Id) : Prop := ∃ ms seq, Digits ms ∧ Digits seq ∧ id = ms ++ '-' :: seq

def Special (id : Id) : Prop := id = ['$'] ∨ id = ['+']

/-- What `XREAD` reads from: an id, one that is incomplete, or a special one. -/
def Documented (id : Id) : Prop := Full id ∨ Digits id ∨ Special id

def decimal (text : List Char) : ℕ := text.foldl (fun n c => n * 10 + digit c) 0

/-- The position that is written as an id, an incomplete one being the first of its time. -/
inductive Names : Id → ℕ × ℕ → Prop
  | full {ms seq : List Char} (hms : Digits ms) (hseq : Digits seq) :
      Names (ms ++ '-' :: seq) (decimal ms, decimal seq)
  | incomplete {ms : List Char} (hms : Digits ms) : Names ms (decimal ms, 0)

def Precedes (s : Reader E) (entry : Entry Id E) : Prop :=
  s.held.isSome = true ∨ ∃ cursor ∈ s.cursor, ∃ p q, Names cursor p ∧ Names entry.id q ∧
    (p.1 < q.1 ∨ p.1 = q.1 ∧ p.2 < q.2)

structure Undisturbed (streams : List (ρ × Reader E)) (entry : Entry Id E) : Prop where
  raised : (broadcast entry streams).2 = false
  reached : ∀ (i : ℕ) r s, streams[i]? = some (r, s) → Precedes s entry →
    ∃ s' : Reader E, (broadcast entry streams).1[i]? = some (r, s') ∧ entry ∈ s'.got

/-! A key: its readers come and go, and are broadcast to. -/

inductive Act (ρ E : Type*)
  | enter (r : ρ)
  /-- `token` is what a client's token decodes to, `entries` what is read from there. -/
  | opened (r : ρ) (token : Option Id) (marker : Id) (entries : List (Entry Id E))
  | leave (r : ρ)
  | event (entry : Entry Id E)

variable [DecidableEq ρ]

/-- The end of `open`: the reader goes on from where its token or the marker is. -/
def opening (token : Option Id) (marker : Id) (entries : List (Entry Id E)) (s : Reader E) :
    Reader E :=
  (ready { s with cursor := some (token.getD marker) } entries).1

def Enabled (streams : List (ρ × Reader E)) : Act ρ E → Prop
  | .enter r => r ∉ streams.map Prod.fst
  | .opened r token marker entries =>
    (∀ id ∈ token, Documented id) ∧ Full marker ∧ (∀ entry ∈ entries, Full entry.id) ∧
      ∀ s, (r, s) ∈ streams → s.held.isSome = true
  | .leave _ => True
  | .event entry => Full entry.id

def apply (streams : List (ρ × Reader E)) : Act ρ E → List (ρ × Reader E)
  | .enter r => streams ++ [(r, Stream.init)]
  | .opened r token marker entries =>
    streams.map fun reader =>
      if reader.1 = r then (r, opening token marker entries reader.2) else reader
  | .leave r => streams.filter (·.1 ≠ r)
  | .event entry => (broadcast entry streams).1

/-- The states of a key that its readers and its events lead to. -/
inductive Reached : List (ρ × Reader E) → Prop
  | init : Reached []
  | step {streams : List (ρ × Reader E)} (h : Reached streams) (a : Act ρ E)
      (ha : Enabled streams a) : Reached (apply streams a)

theorem whitespace_of_isDigit {c : Char} (h : c.isDigit = true) : c ∉ whitespace := by
  intro hmem
  have hall : whitespace.all (fun c => !c.isDigit) = true := rfl
  have hc := List.all_eq_true.mp hall c hmem
  rw [h] at hc
  cases hc

theorem trim_digits {text : List Char} (h : Digits text) : trim text = text := by
  have hdrop : ∀ {l : List Char}, (∀ c ∈ l, c.isDigit = true) →
      l.dropWhile (· ∈ whitespace) = l := by
    intro l hl
    cases l with
    | nil => rfl
    | cons c l =>
      have hc := whitespace_of_isDigit (hl c List.mem_cons_self)
      exact List.dropWhile_cons_of_neg (by simpa using hc)
  unfold trim
  rw [hdrop h.2, hdrop fun c hc => h.2 c (List.mem_reverse.mp hc), List.reverse_reverse]

theorem digit_lt {c : Char} (h : c.isDigit = true) : digit c < 10 := by
  unfold digit
  rw [if_pos h]
  have hle : c.toNat ≤ '9'.toNat := by
    simp only [Char.isDigit, Bool.and_eq_true, decide_eq_true_eq] at h
    exact h.2
  have hnine : '9'.toNat = 57 := rfl
  have hzero : '0'.toNat = 48 := rfl
  omega

theorem numeral_digits {text : List Char} (h : Digits text) :
    numeral 10 text = some (decimal text) := by
  refine if_pos ⟨h.1, List.all_eq_true.mpr fun c hc => ?_⟩
  have hdigit := h.2 c hc
  simp only [Char.isAlphanum, hdigit, Bool.or_true, Bool.true_and, decide_eq_true_eq]
  exact digit_lt hdigit

theorem bigInt_digits {text : List Char} (h : Digits text) : bigInt text = some (decimal text) := by
  have hall := h.2
  unfold bigInt
  rw [trim_digits h, ← numeral_digits h]
  unfold unsigned
  -- no numeral of another radix is of decimal digits alone
  split
  · exact absurd rfl h.1
  · exact absurd (List.forall_mem_cons.mp hall).1 (by decide)
  all_goals first
    | rfl
    | exact absurd (List.forall_mem_cons.mp (List.forall_mem_cons.mp hall).2).1 (by decide)

theorem dash_of_digits {text : List Char} (h : Digits text) : '-' ∉ text := fun hmem => by
  have hdash : ('-').isDigit = true := h.2 '-' hmem
  exact absurd hdash (by decide)

def numbers (id : Id) : Option (List ℕ) := (id.splitOn '-').mapM bigInt

theorem numbers_full {ms seq : List Char} (hms : Digits ms) (hseq : Digits seq) :
    numbers (ms ++ '-' :: seq) = some [decimal ms, decimal seq] := by
  unfold numbers
  rw [List.splitOn_append_cons_self_of_not_mem (dash_of_digits hms),
    List.splitOn_eq_singleton (dash_of_digits hseq)]
  simp [bigInt_digits hms, bigInt_digits hseq]

theorem numbers_incomplete {ms : List Char} (hms : Digits ms) : numbers ms = some [decimal ms] := by
  unfold numbers
  rw [List.splitOn_eq_singleton (dash_of_digits hms)]
  simp [bigInt_digits hms]

theorem numbers_special {id : Id} (h : Special id) : numbers id = none := by
  rcases h with rfl | rfl <;> decide

theorem compare_of_numbers {a b : Id} {as bs : List ℕ} (ha : numbers a = some as)
    (hb : numbers b = some bs) : compare a b = some (
      if as[0]? ≠ bs[0]? then if less as[0]? bs[0]? then -1 else 1
      else if as[1]? ≠ bs[1]? then if less as[1]? bs[1]? then -1 else 1
      else 0) := by
  unfold compare
  unfold numbers at ha hb
  rw [ha, hb]
  rfl

theorem compare_special {a b : Id} (h : Special b) : compare a b = none := by
  have hb : (b.splitOn '-').mapM bigInt = none := numbers_special h
  unfold compare
  rw [hb]
  simp

theorem compare_names {a b : Id} {p q : ℕ × ℕ} (hb : Names b p) (ha : Names a q) :
    ∃ order, compare a b = some order ∧
      (p.1 < q.1 ∨ p.1 = q.1 ∧ p.2 < q.2 → ¬ order ≤ 0) := by
  cases hb with
  | full hms hseq =>
    cases ha with
    | full hms' hseq' =>
      refine ⟨_, compare_of_numbers (numbers_full hms' hseq') (numbers_full hms hseq), ?_⟩
      simp only [less, List.getElem?_cons_zero, List.getElem?_cons_succ, ne_eq, Option.some.injEq,
        decide_eq_true_eq]
      split_ifs <;> omega
    | incomplete hms' =>
      refine ⟨_, compare_of_numbers (numbers_incomplete hms') (numbers_full hms hseq), ?_⟩
      simp [less]
      split_ifs <;> omega
  | incomplete hms =>
    cases ha with
    | full hms' hseq' =>
      refine ⟨_, compare_of_numbers (numbers_full hms' hseq') (numbers_incomplete hms), ?_⟩
      simp [less]
      split_ifs <;> omega
    | incomplete hms' =>
      refine ⟨_, compare_of_numbers (numbers_incomplete hms') (numbers_incomplete hms), ?_⟩
      simp [less]
      split_ifs <;> omega

theorem Full.names {id : Id} (h : Full id) : ∃ p, Names id p := by
  obtain ⟨ms, seq, hms, hseq, rfl⟩ := h
  exact ⟨_, .full hms hseq⟩

theorem Documented.names {id : Id} (h : Documented id) (hspecial : ¬ Special id) :
    ∃ p, Names id p := by
  rcases h with hfull | hdigits | h
  · exact hfull.names
  · exact ⟨_, .incomplete hdigits⟩
  · exact absurd h hspecial

def Placed (s : Reader E) : Prop :=
  match s.held with
  | some held => ∀ entry ∈ held, Full entry.id
  | none => ∃ cursor, s.cursor = some cursor ∧ Documented cursor

omit [DecidableEq ρ] in
theorem write_placed {s s' : Reader E} {entry : Entry Id E} (hentry : Full entry.id)
    (hheld : s.held = none) (hplaced : Placed s) (h : write s entry = some s') :
    s'.held = none ∧ Placed s' := by
  unfold Placed at hplaced ⊢
  rw [hheld] at hplaced
  obtain ⟨cursor, hcursor, hdocumented⟩ := hplaced
  unfold write at h
  rw [hcursor, Option.map_eq_some_iff] at h
  obtain ⟨order, -, hs⟩ := h
  split_ifs at hs with hle
  · subst hs
    refine ⟨hheld, ?_⟩
    rw [hheld]
    exact ⟨cursor, hcursor, hdocumented⟩
  · subst hs
    simp only [hheld]
    exact ⟨trivial, entry.id, rfl, .inl hentry⟩

omit [DecidableEq ρ] in
theorem writes_placed {s : Reader E} {entries : List (Entry Id E)}
    (hentries : ∀ entry ∈ entries, Full entry.id) (hheld : s.held = none) (hplaced : Placed s) :
    (writes s entries).1.held = none ∧ Placed (writes s entries).1 := by
  induction entries generalizing s with
  | nil => exact ⟨hheld, hplaced⟩
  | cons entry entries ih =>
    have hfirst := hentries entry List.mem_cons_self
    unfold writes
    cases hwrite : write s entry with
    | none => exact ⟨hheld, hplaced⟩
    | some s' =>
      obtain ⟨hheld', hplaced'⟩ := write_placed hfirst hheld hplaced hwrite
      exact ih (fun e he => hentries e (List.mem_cons_of_mem _ he)) hheld' hplaced'

omit [DecidableEq ρ] in
theorem opening_placed {token : Option Id} {marker : Id} {entries : List (Entry Id E)} {s : Reader E}
    (htoken : ∀ id ∈ token, Documented id) (hmarker : Full marker)
    (hentries : ∀ entry ∈ entries, Full entry.id) (hheld : s.held.isSome = true)
    (hplaced : Placed s) : Placed (opening token marker entries s) := by
  obtain ⟨held, hsome⟩ := Option.isSome_iff_exists.mp hheld
  have hhelds : ∀ entry ∈ s.held.getD [], Full entry.id := by
    unfold Placed at hplaced
    rw [hsome] at hplaced ⊢
    exact hplaced
  have hcursor : Documented (token.getD marker) := by
    cases token with
    | none => exact .inl hmarker
    | some id => exact htoken id rfl
  have hstart : Placed ({ s with cursor := some (token.getD marker), held := none } : Reader E) :=
    ⟨_, rfl, hcursor⟩
  obtain ⟨hnone, hwritten⟩ := writes_placed hentries rfl hstart
  unfold opening ready
  simp only
  split_ifs
  · exact hwritten
  · exact (writes_placed hhelds hnone hwritten).2

omit [DecidableEq ρ] in
theorem deliver_placed {s s' : Reader E} {entry : Entry Id E} (hentry : Full entry.id)
    (hplaced : Placed s) (h : deliver s entry = some s') : Placed s' := by
  unfold deliver at h
  cases hheld : s.held with
  | none =>
    rw [hheld] at h
    exact (write_placed hentry hheld hplaced h).2
  | some held =>
    rw [hheld] at h
    obtain rfl := Option.some.inj h
    unfold Placed at hplaced ⊢
    rw [hheld] at hplaced
    exact List.forall_mem_append.mpr ⟨hplaced, List.forall_mem_singleton.mpr hentry⟩

omit [DecidableEq ρ] in
theorem broadcast_placed {entry : Entry Id E} (hentry : Full entry.id)
    {streams : List (ρ × Reader E)} (h : ∀ reader ∈ streams, Placed reader.2) :
    ∀ reader ∈ (broadcast entry streams).1, Placed reader.2 := by
  induction streams with
  | nil => exact h
  | cons reader streams ih =>
    obtain ⟨hfirst, hrest⟩ := List.forall_mem_cons.mp h
    unfold broadcast
    cases hdeliver : deliver reader.2 entry with
    | none => exact h
    | some s' =>
      exact List.forall_mem_cons.mpr ⟨deliver_placed hentry hfirst hdeliver, ih hrest⟩

theorem Reached.placed {streams : List (ρ × Reader E)} (h : Reached streams) :
    ∀ reader ∈ streams, Placed reader.2 := by
  induction h with
  | init => exact List.forall_mem_nil _
  | step h a ha ih =>
    cases a with
    | enter r =>
      refine List.forall_mem_append.mpr ⟨ih, List.forall_mem_singleton.mpr ?_⟩
      exact List.forall_mem_nil _
    | opened r token marker entries =>
      obtain ⟨htoken, hmarker, hentries, hheld⟩ := ha
      refine List.forall_mem_map.mpr fun reader hreader => ?_
      split_ifs with hr
      · subst hr
        exact opening_placed htoken hmarker hentries (hheld _ hreader) (ih reader hreader)
      · exact ih reader hreader
    | leave r => exact fun reader hreader => ih reader (List.mem_filter.mp hreader).1
    | event entry => exact broadcast_placed ha ih

/-! ## What a broadcast does -/

omit [DecidableEq ρ] in
theorem deliver_cases {s : Reader E} (hplaced : Placed s) {entry : Entry Id E}
    (hentry : Full entry.id) :
    ((∃ cursor, s.held = none ∧ s.cursor = some cursor ∧ Special cursor) ∧
        deliver s entry = none) ∨
      (¬ (∃ cursor, s.held = none ∧ s.cursor = some cursor ∧ Special cursor) ∧
        ∃ s', deliver s entry = some s' ∧ (Precedes s entry → entry ∈ s'.got)) := by
  unfold deliver
  cases hheld : s.held with
  | some held =>
    refine .inr ⟨?_, _, rfl, fun _ => ?_⟩
    · rintro ⟨cursor, hnone, -⟩
      cases hnone
    · exact List.mem_append_right _ (List.mem_singleton_self entry)
  | none =>
    unfold Placed at hplaced
    rw [hheld] at hplaced
    obtain ⟨cursor, hcursor, hdocumented⟩ := hplaced
    by_cases hspecial : Special cursor
    · refine .inl ⟨⟨cursor, rfl, hcursor, hspecial⟩, ?_⟩
      unfold write
      simp only [hcursor, compare_special hspecial, Option.map_none]
    · refine .inr ⟨?_, ?_⟩
      · rintro ⟨cursor', -, hcursor', hspecial'⟩
        obtain rfl := Option.some.inj (hcursor.symm.trans hcursor')
        exact hspecial hspecial'
      · obtain ⟨p, hp⟩ := hdocumented.names hspecial
        obtain ⟨q, hq⟩ := hentry.names
        obtain ⟨order, horder, -⟩ := compare_names hp hq
        unfold write
        simp only [hcursor, horder, Option.map_some]
        refine ⟨_, rfl, ?_⟩
        rintro (hsome | ⟨cursor', hcursor', p', q', hp', hq', hlt⟩)
        · rw [hheld] at hsome
          cases hsome
        · obtain rfl := Option.some.inj (hcursor.symm.trans hcursor')
          obtain ⟨order', horder', hpast⟩ := compare_names hp' hq'
          obtain rfl := Option.some.inj (horder.symm.trans horder')
          rw [if_neg (hpast hlt)]
          have hgot : Stream.got (⟨some entry.id, none, s.sent ++ [.event entry, .token entry.id]⟩ :
              Reader E) = s.given ++ [entry] := by
            unfold Stream.got Stream.given
            simp only [Option.getD_none, List.filterMap_append]
            rfl
          rw [hheld, hgot]
          exact List.mem_append_right _ (List.mem_singleton_self entry)

omit [DecidableEq ρ] in
theorem broadcast_raises {entry : Entry Id E} {streams : List (ρ × Reader E)}
    (h : ∃ reader ∈ streams, deliver reader.2 entry = none) : (broadcast entry streams).2 = true := by
  induction streams with
  | nil =>
    obtain ⟨reader, hreader, -⟩ := h
    cases hreader
  | cons first streams ih =>
    unfold broadcast
    cases hdeliver : deliver first.2 entry with
    | none => rfl
    | some s' =>
      obtain ⟨reader, hreader, hnone⟩ := h
      rcases List.mem_cons.mp hreader with rfl | hreader
      · rw [hdeliver] at hnone
        cases hnone
      · exact ih ⟨reader, hreader, hnone⟩

omit [DecidableEq ρ] in
theorem broadcast_reaches {entry : Entry Id E} {streams : List (ρ × Reader E)}
    (h : ∀ reader ∈ streams, ∃ s', deliver reader.2 entry = some s' ∧
      (Precedes reader.2 entry → entry ∈ s'.got)) : Undisturbed streams entry := by
  induction streams with
  | nil =>
    refine ⟨rfl, fun i r s hi => ?_⟩
    cases hi
  | cons first streams ih =>
    obtain ⟨⟨s', hdeliver, hgot⟩, hrest⟩ := List.forall_mem_cons.mp h
    obtain ⟨hraised, hreached⟩ := ih hrest
    have hbroadcast : broadcast entry (first :: streams) =
        ((first.1, s') :: (broadcast entry streams).1, (broadcast entry streams).2) := by
      rw [broadcast, hdeliver]
    refine ⟨by rw [hbroadcast]; exact hraised, fun i r s hi hprecedes => ?_⟩
    rw [hbroadcast]
    cases i with
    | zero =>
      obtain rfl := Option.some.inj hi
      exact ⟨s', rfl, hgot hprecedes⟩
    | succ i => exact hreached i r s hi hprecedes

/-- In any state of a key, an event reaches its readers undisturbed exactly where none of those past
their replay stands at a special id. -/
theorem undisturbed_iff {streams : List (ρ × Reader E)} (h : Reached streams) {entry : Entry Id E}
    (hentry : Full entry.id) :
    Undisturbed streams entry ↔ ∀ reader ∈ streams, reader.2.held = none →
      ∀ cursor ∈ reader.2.cursor, ¬ Special cursor := by
  have hplaced := h.placed
  constructor
  · intro hundisturbed reader hreader hheld cursor hcursor hspecial
    rcases deliver_cases (hplaced reader hreader) hentry with ⟨-, hnone⟩ | ⟨hnot, -⟩
    · have hraised := broadcast_raises ⟨reader, hreader, hnone⟩
      rw [hundisturbed.raised] at hraised
      cases hraised
    · exact hnot ⟨cursor, hheld, hcursor, hspecial⟩
  · intro hnone
    refine broadcast_reaches fun reader hreader => ?_
    rcases deliver_cases (hplaced reader hreader) hentry with ⟨⟨cursor, hheld, hcursor, hspecial⟩, -⟩ |
      ⟨-, hsome⟩
    · exact absurd hspecial (hnone reader hreader hheld cursor hcursor)
    · exact hsome

theorem full_pair {a b : Char} (ha : a.isDigit = true) (hb : b.isDigit = true) :
    Full [a, '-', b] :=
  ⟨[a], [b], ⟨List.cons_ne_nil _ _, List.forall_mem_singleton.mpr ha⟩,
    ⟨List.cons_ne_nil _ _, List.forall_mem_singleton.mpr hb⟩, rfl⟩

def pair (token : Id) : List (Bool × Reader Unit) :=
  apply (apply (apply (apply [] (.enter true)) (.opened true (some token) ['1', '-', '0'] []))
    (.enter false)) (.opened false none ['1', '-', '1'] [])

theorem reached_pair {token : Id} (h : Documented token) : Reached (pair token) := by
  have hmarker : Full ['1', '-', '0'] := full_pair (by decide) (by decide)
  have hmarker' : Full ['1', '-', '1'] := full_pair (by decide) (by decide)
  have htoken : ∀ id ∈ some token, Documented id := by
    rintro id hid
    exact Option.some.inj hid ▸ h
  refine .step (.step (.step (.step .init (.enter true) ?_) (.opened true _ _ []) ?_)
    (.enter false) ?_) (.opened false none _ []) ?_
  · exact List.not_mem_nil
  · refine ⟨htoken, hmarker, List.forall_mem_nil _, fun s hs => ?_⟩
    obtain rfl : s = Stream.init := congrArg Prod.snd (List.mem_singleton.mp hs)
    rfl
  · have hother : false ∉ [true] := by decide
    exact hother
  · refine ⟨fun id hid => ?_, hmarker', List.forall_mem_nil _, fun s hs => ?_⟩
    · cases hid
    · simp only [apply, List.nil_append, List.map_cons, List.map_nil, if_true, List.cons_append,
        List.mem_cons, Prod.mk.injEq, Bool.false_eq_true, false_and, List.not_mem_nil, or_false,
        true_and, false_or] at hs
      subst hs
      rfl

theorem undisturbed_pair : Undisturbed (pair ['1']) ⟨['2', '-', '0'], ()⟩ := by
  have hdigits : Digits ['1'] := ⟨List.cons_ne_nil _ _, List.forall_mem_singleton.mpr rfl⟩
  refine (undisturbed_iff (reached_pair (.inr (.inl hdigits)))
    (full_pair (by decide) (by decide))).mpr fun reader hreader _ cursor hcursor hspecial => ?_
  have hcursors : (pair ['1']).map (·.2.cursor) = [some ['1'], some ['1', '-', '1']] := by decide
  have hmem : reader.2.cursor ∈ (pair ['1']).map (·.2.cursor) := List.mem_map_of_mem hreader
  rw [hcursors, hcursor] at hmem
  rcases hspecial with rfl | rfl <;> simp at hmem

/-- A token of `$` ends the loop before the reader that came after. -/
theorem special_token_disturbs : Reached (pair ['$']) ∧
    ¬ Undisturbed (pair ['$']) ⟨['2', '-', '0'], ()⟩ ∧
    (broadcast ⟨['2', '-', '0'], ()⟩ (pair ['$'])).1.map (·.2.given.length) = [0, 0] := by
  refine ⟨reached_pair (.inr (.inr (.inl rfl))), fun h => ?_, by decide⟩
  have hraised := h.raised
  exact absurd hraised (by decide)

end Toa.Realtime.Positions
