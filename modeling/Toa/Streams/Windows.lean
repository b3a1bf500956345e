import Mathlib.Order.Lattice
import Toa.Lib.Sorted
import Toa.Streams.Protocol

/-! A collection nothing is written to, read in windows of any limits. Every window is what comes
next in one order of the whole, so the windows are cut out of it one after another. -/

namespace Toa.Streams.Windows
open Sorted

universe u v w
variable {ι : Type u} {D : Type v} {H : Type w}

structure Records (ι : Type u) (D : Type v) where
  all : List (ι × Image D)
  distinct : (all.map Prod.fst).Nodup

def place (e : ι × Image D) : ι × ℤ := (e.1, e.2.CREATED)

def Part.of (projection : D → D) (e : ι × Image D) : Part ι D :=
  .entry e.1 (e.2.project projection)

def continues (token : Option (Token ι H)) : Bool := token.any fun token => token.id.isSome

section
variable [LinearOrder ι] [DecidableEq H] (query : Query D H) (history : Bool) (position : ℕ)
variable (records : Records ι D)

def ascends (order : Order) (a b : ι × Image D) : Bool := beyond order (place a) (place b)

/-- `find` of the criteria, and of what comes after the last entry of the window before. A read that
is not in windows is in an order of its own. -/
def find (order : Option Order) (limit : Option ℕ) (after : Option (ι × ℤ)) :
    List (ι × Image D) :=
  let matched := records.all.filter fun e => query.criteria e.2
  let sorted := match order, after with
    | some order, some after => sort (ascends order) (matched.filter fun e => beyond order after (place e))
    | some order, none => sort (ascends order) matched
    | none, _ => matched
  match limit with
  | some n => sorted.take n
  | none => sorted

/-- `#read` -/
def read (request : Request) (pos : Option Position) (after : Option (ι × ℤ)) :
    Except Exception (List (Part ι D) × Option (Token ι H)) :=
  match orderOf query.sort request after with
  | .error exception => .error exception
  | .ok order =>
    let entries := find query records order request.limit after
    .ok (entries.map (Part.of query.projection), ending query.hash request order pos entries)

def window (given : Option (Token ι H)) (request : Request) :
    Except Exception (List (Part ι D) × Option (Token ι H)) :=
  match stream history query.hash given with
  | .error exception => .error exception
  | .ok .first => read query records request (taken history position) none
  | .ok (.window position after) => read query records request position (some after)
  | .ok (.changes p) => .ok ([], some ⟨some p, none, none, none, query.hash⟩)

def reading (given : Option (Token ι H)) :
    List Request → Except Exception (List (Part ι D) × Option (Token ι H))
  | [] => .ok ([], given)
  | request :: requests =>
    match window query history position records given request with
    | .error exception => .error exception
    | .ok (parts, token) =>
      if continues token then
        match reading token requests with
        | .error exception => .error exception
        | .ok (more, last) => .ok (parts ++ more, last)
      else .ok (parts, token)

end

/-! ## The order of a read -/

section
variable [LinearOrder ι]

theorem past_asymm {α : Type*} [LinearOrder α] {direction : Direction} {a b : α}
    (h : direction.past a b = true) : direction.past b a = false := by
  cases direction <;> simp only [Direction.past, decide_eq_true_eq, decide_eq_false_iff_not] at h ⊢ <;>
    exact h.asymm

theorem past_split {α : Type*} [LinearOrder α] {direction : Direction} {a c : α} (b : α)
    (h : direction.past a c = true) : direction.past a b = true ∨ direction.past b c = true := by
  cases direction <;> simp only [Direction.past, decide_eq_true_eq] at h ⊢
  · exact (lt_or_ge a b).imp_right fun hba => hba.trans_lt h
  · exact (lt_or_ge b a).imp_right fun hab => h.trans_le hab

theorem past_total {α : Type*} [LinearOrder α] (direction : Direction) {a b : α} (h : a ≠ b) :
    direction.past a b = true ∨ direction.past b a = true := by
  cases direction <;> simp only [Direction.past, decide_eq_true_eq]
  · exact lt_or_gt_of_ne h
  · exact lt_or_gt_of_ne h.symm

theorem strictWeak_ascends (order : Order) :
    StrictWeak (ascends order : ι × Image D → ι × Image D → Bool) := by
  cases order with
  | id direction => exact ⟨fun a b => past_asymm, fun a b c => past_split b.1⟩
  | created direction =>
    constructor
    · intro a b h
      simp only [ascends, beyond, Bool.or_eq_true, Bool.and_eq_true, decide_eq_true_eq] at h
      rcases h with hc | ⟨hc, hid⟩
      · have hne : a.2.CREATED ≠ b.2.CREATED := by
          intro heq
          have hc' := past_asymm hc
          simp only [place] at hc hc'
          rw [heq] at hc hc'
          exact nomatch hc.symm.trans hc'
        have hback := past_asymm hc
        simpa [ascends, beyond, place, hne] using hback
      · have hc' : direction.past (place b).2 (place a).2 = false := by
          rw [hc]
          cases h : direction.past (place a).2 (place a).2 with
          | false => rfl
          | true => exact h.symm.trans (past_asymm h)
        simp [ascends, beyond, past_asymm hid, hc']
    · intro a b c h
      simp only [ascends, beyond, Bool.or_eq_true, Bool.and_eq_true, decide_eq_true_eq] at h ⊢
      rcases h with hc | ⟨hc, hid⟩
      · rcases past_split (place b).2 hc with h | h
        · exact .inl (.inl h)
        · exact .inr (.inl h)
      · by_cases hb : (place b).2 = (place a).2
        · rcases past_split (place b).1 hid with h | h
          · exact .inl (.inr ⟨hb, h⟩)
          · exact .inr (.inr ⟨hc.trans hb.symm, h⟩)
        · rcases past_total direction hb with h | h
          · exact .inr (.inl (hc ▸ h))
          · exact .inl (.inl h)

theorem ascends_total (order : Order) {a b : ι × Image D} (h : a.1 ≠ b.1) :
    ascends order a b = true ∨ ascends order b a = true := by
  cases order with
  | id direction => exact past_total direction h
  | created direction =>
    simp only [ascends, beyond, Bool.or_eq_true, Bool.and_eq_true, decide_eq_true_eq]
    by_cases hc : (place b).2 = (place a).2
    · rcases past_total direction h with h | h
      · exact .inl (.inr ⟨hc, h⟩)
      · exact .inr (.inr ⟨hc.symm, h⟩)
    · rcases past_total direction hc with h | h
      · exact .inr (.inl h)
      · exact .inl (.inl h)

end

/-! ## The windows of a reading -/

section
variable [LinearOrder ι] {query : Query D H} {records : Records ι D} {order : Order}

def whole (query : Query D H) (records : Records ι D) (order : Order) : List (ι × Image D) :=
  sort (ascends order) (records.all.filter fun e => query.criteria e.2)

theorem matched_total (records : Records ι D) (order : Order) (p : ι × Image D → Bool) :
    (records.all.filter p).Pairwise fun a b =>
      ascends order a b = true ∨ ascends order b a = true := by
  refine List.Pairwise.filter p ?_
  exact (List.pairwise_map.mp records.distinct).imp fun h => ascends_total order h

theorem whole_pairwise (query : Query D H) (records : Records ι D) (order : Order) :
    (whole query records order).Pairwise fun a b => ascends order a b = true :=
  sort_pairwise (strictWeak_ascends order) (matched_total records order _)

theorem whole_perm (query : Query D H) (records : Records ι D) (order : Order) :
    (whole query records order).Perm (records.all.filter fun e => query.criteria e.2) :=
  sort_perm _

theorem find_first (n : ℕ) :
    find query records (some order) (some n) none = (whole query records order).take n := rfl

theorem find_after {earlier later : List (ι × Image D)} {last : ι × Image D} {after : ι × ℤ}
    (h : whole query records order = earlier ++ last :: later)
    (hafter : beyond order after = beyond order (place last)) (n : ℕ) :
    find query records (some order) (some n) (some after) = later.take n := by
  have hsort := sort_filter (strictWeak_ascends order)
    (matched_total records order fun e => query.criteria e.2) (ascends order last)
  have hfind : find query records (some order) (some n) (some after) =
      ((whole query records order).filter (ascends order last)).take n := by
    simp only [find, hafter]
    exact congrArg (List.take n) hsort
  have hpairwise := whole_pairwise query records order
  rw [hfind]
  rw [h] at hpairwise ⊢
  rw [filter_after (strictWeak_ascends order) hpairwise]

def between (query : Query D H) (order : Order) (position : Option Position)
    (last : ι × Image D) : Token ι H where
  p := position.map (·.p)
  t := position.bind (·.t)
  id := some last.1
  c := match order with
    | .created _ => some last.2.CREATED
    | .id _ => none
  h := query.hash

def ended (query : Query D H) (position : Option Position) : Option (Token ι H) :=
  position.map fun position => ⟨some position.p, none, none, none, query.hash⟩

end

section
variable {query : Query D H} {request : Request}

theorem ending_full (order : Order) (pos : Option Position) {init : List (ι × Image D)}
    {last : ι × Image D} (hlimit : request.limit = some (init ++ [last]).length)
    (hstop : request.stop = false) :
    ending query.hash request (some order) pos (init ++ [last]) =
      some (between query order pos last) := by
  simp only [ending, List.getLast?_concat, hlimit, hstop, and_self, if_true]
  cases order <;> rfl

theorem ending_short (order : Order) (pos : Option Position) {entries : List (ι × Image D)}
    (hlimit : request.limit ≠ some entries.length) :
    ending query.hash request (some order) pos entries = ended query pos := by
  unfold ending
  split
  · rw [if_neg fun h => hlimit h.1]
    rfl
  · rfl

theorem cut_after {n : ℕ} (hpos : 0 < n) {later : List (ι × Image D)} (hle : n ≤ later.length) :
    ∃ init last, later.take n = init ++ [last] ∧ later = init ++ last :: later.drop n := by
  have hne : later.take n ≠ [] := by
    intro hnil
    have hlength := List.length_take_of_le hle
    rw [hnil] at hlength
    exact absurd hlength hpos.ne
  have hinit := (List.dropLast_concat_getLast hne).symm
  refine ⟨_, _, hinit, ?_⟩
  conv_lhs => rw [← List.take_append_drop n later, hinit]
  rw [List.append_assoc, List.singleton_append]

end

section
variable [LinearOrder ι] [DecidableEq H] {query : Query D H} {history : Bool} {position : ℕ}
variable {records : Records ι D} {order : Order}

/-- A read given the token is of `later`: it yields as much of it as its limit, and no more. -/
def At (query : Query D H) (history : Bool) (position : ℕ) (records : Records ι D) (order : Order)
    (given : Option (Token ι H)) (later : List (ι × Image D)) : Prop :=
  ∀ request n, request.limit = some n →
    window query history position records given request =
      .ok ((later.take n).map (Part.of query.projection),
        ending query.hash request (some order) (taken history position) (later.take n))

theorem at_first (hsort : ordered query.sort = .ok order) :
    At query history position records order none (whole query records order) := by
  intro request n hlimit
  simp only [window, stream, read, orderOf, hlimit, hsort, Except.map, find_first]

theorem at_between (hsort : ordered query.sort = .ok order) {earlier later : List (ι × Image D)}
    {last : ι × Image D} (h : whole query records order = earlier ++ last :: later) :
    At query history position records order
      (some (between query order (taken history position) last)) later := by
  intro request n hlimit
  have hstream : stream history query.hash (some (between query order (taken history position) last)) =
      .ok (.window (taken history position)
        (last.1, (between query order (taken history position) last).c.getD 0)) := by
    cases history <;> simp only [stream, between, taken, ne_eq, not_true_eq_false, if_false,
      Option.map_none, Option.map_some, Option.bind_some, if_true, Bool.false_eq_true]
  have hafter : beyond order
      (last.1, (between query order (taken history position) last).c.getD 0) =
        beyond order (place last) := by
    cases order <;> rfl
  simp only [window, hstream, read, orderOf, hlimit, hsort, Except.map, find_after h hafter]

theorem range_succ_map {α : Type*} (f : ℕ → α) (m : ℕ) :
    (List.range (m + 1)).map f = f 0 :: (List.range m).map fun n => f (n + 1) := by
  rw [List.range_succ_eq_map, List.map_cons, List.map_map]
  rfl

theorem reading_at (hsort : ordered query.sort = .ok order) {given : Option (Token ι H)}
    {earlier later : List (ι × Image D)} (hwhole : whole query records order = earlier ++ later)
    (hat : At query history position records order given later) {requests : ℕ → Request}
    (hlimit : ∀ n, (requests n).limit ≠ none) (hstop : ∀ n, (requests n).stop = false) :
    ∃ m, 0 < m ∧ reading query history position records given ((List.range m).map requests) =
      .ok (later.map (Part.of query.projection), ended query (taken history position)) := by
  induction hlength : later.length using Nat.strong_induction_on
    generalizing given earlier later requests with
  | _ length ih =>
    obtain ⟨n, hn⟩ := Option.ne_none_iff_exists'.mp (hlimit 0)
    have hpos : 0 < n := (requests 0).limit_pos n hn
    have hwindow := hat (requests 0) n hn
    by_cases hle : n ≤ later.length
    · obtain ⟨init, last, hinit, hlater⟩ := cut_after hpos hle
      have htake : (later.take n).length = n := List.length_take_of_le hle
      have hsplit : whole query records order = (earlier ++ init) ++ last :: later.drop n := by
        rw [hwhole, List.append_assoc, ← hlater]
      have hfull : (requests 0).limit = some (init ++ [last]).length := by rw [hn, ← hinit, htake]
      rw [hinit, ending_full order _ hfull (hstop 0)] at hwindow
      have hshorter : (later.drop n).length < length := by
        rw [← hlength, List.length_drop]
        omega
      have hrest : whole query records order = (earlier ++ init ++ [last]) ++ later.drop n := by
        rw [hsplit, List.append_assoc _ [last], List.singleton_append]
      obtain ⟨m, -, hm⟩ := ih _ hshorter hrest (at_between hsort hsplit) (fun k => hlimit (k + 1))
        (fun k => hstop (k + 1)) rfl
      have hcontinues : continues (some (between query order (taken history position) last)) =
          true := rfl
      refine ⟨m + 1, Nat.succ_pos m, ?_⟩
      rw [range_succ_map]
      simp only [reading, hwindow, hm, if_pos hcontinues]
      conv_rhs => rw [hlater]
      rw [← List.map_append, List.append_assoc, List.singleton_append]
    · have htake : later.take n = later := List.take_of_length_le (by omega)
      have hshort : (requests 0).limit ≠ some later.length := by
        rw [hn]
        exact fun h => hle (Option.some.inj h).le
      rw [htake, ending_short order _ hshort] at hwindow
      have hdone : continues (ended query (taken history position) : Option (Token ι H)) =
          false := by
        cases history <;> rfl
      refine ⟨1, Nat.one_pos, ?_⟩
      rw [range_succ_map]
      simp only [reading, hwindow, hdone, if_neg Bool.false_ne_true]

/-- Whatever the limits, the windows are the whole in its order, cut into pieces, and the last ends
with a token that continues with changes, where the collection keeps a history of them. -/
theorem reading_whole (records : Records ι D) (history : Bool) (position : ℕ)
    (hsort : ordered query.sort = .ok order) {requests : ℕ → Request}
    (hlimit : ∀ n, (requests n).limit ≠ none) (hstop : ∀ n, (requests n).stop = false) :
    ∃ m, ∃ entries : List (ι × Image D), ∃ token, 0 < m ∧
      reading query history position records none ((List.range m).map requests) =
        .ok (entries.map (Part.of query.projection), token) ∧
      entries.Perm (records.all.filter fun e => query.criteria e.2) ∧
      (entries.Pairwise fun a b => beyond order (a.1, a.2.CREATED) (b.1, b.2.CREATED) = true) ∧
      (if history then stream history query.hash token = .ok (.changes position) ∧ token ≠ none
        else token = none) := by
  have hnone : whole query records order = [] ++ whole query records order := rfl
  obtain ⟨m, hpos, hm⟩ := reading_at hsort hnone (at_first hsort) hlimit hstop
  refine ⟨m, whole query records order, _, hpos, hm, whole_perm query records order,
    whole_pairwise query records order, ?_⟩
  cases history with
  | false => rfl
  | true =>
    refine ⟨?_, Option.some_ne_none _⟩
    simp only [stream, ended, taken, if_true, Option.map_some, ne_eq, not_true_eq_false, if_false]

end

/-! ## Records created at one moment -/

def three : Records ℕ ℕ := ⟨[(1, ⟨5, 0⟩), (2, ⟨7, 0⟩), (3, ⟨5, 0⟩)], by decide⟩

def latest : Query ℕ Unit where
  criteria := fun _ => true
  sort := [("CREATED", .desc)]
  projection := id
  projected := projected_id
  hash := ()

def few (n : ℕ) (h : 0 < n) : Request := ⟨some n, limit_pos h, false⟩

theorem reading_whole_three : ∃ m, ∃ entries : List (ℕ × Image ℕ), ∃ token, 0 < m ∧
    reading latest true 4 three none ((List.range m).map fun n => few (n + 1) n.succ_pos) =
      .ok (entries.map (Part.of id), token) ∧
    entries.Perm (three.all.filter fun e => latest.criteria e.2) ∧
    (entries.Pairwise fun a b =>
      beyond (.created .desc) (a.1, a.2.CREATED) (b.1, b.2.CREATED) = true) ∧
    stream true () token = .ok (.changes 4) ∧ token ≠ none := by
  have hsort : ordered latest.sort = .ok (.created .desc) := rfl
  exact reading_whole three true 4 hsort (fun _ => Option.some_ne_none _) fun _ => rfl

/-- Without a history there is nothing to continue from. -/
theorem ends_with_none :
    (∃ parts, reading latest false 4 three none [few 4 (by decide)] = .ok (parts, none)) ∧
      ∀ (given : Option (Token ℕ Unit)) p, stream false latest.hash given ≠ .ok (.changes p) := by
  constructor
  · have hlimit : (few 4 (by decide)).limit = some 4 := rfl
    have hlength : ∀ order, (find latest three (some order) (some 4) none).length = 3 := by
      intro order
      rw [find_first, List.take_of_length_le, (whole_perm latest three order).length_eq]
      · rfl
      · rw [(whole_perm latest three order).length_eq]
        decide
    have hsort : ordered latest.sort = .ok (.created .desc) := rfl
    have hshort : (few 4 (by decide)).limit ≠
        some (find latest three (some (.created .desc)) (some 4) none).length := by
      rw [hlimit, hlength]
      decide
    refine ⟨(find latest three (some (.created .desc)) (some 4) none).map (Part.of id), ?_⟩
    simp only [reading, window, stream, read, orderOf, hlimit, hsort, Except.map]
    rw [ending_short _ _ hshort]
    rfl
  · intro given p h
    unfold stream at h
    split at h
    · exact nomatch h
    · rename_i token
      cases hid : token.id <;> cases hp : token.p <;> simp [hid, hp] at h

end Toa.Streams.Windows
