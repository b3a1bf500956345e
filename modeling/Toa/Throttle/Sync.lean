import Mathlib.Data.List.Nodup
import Toa.Lib.Double
import Toa.Lib.Run
import Toa.Throttle.Quotas

/-! The quotas of a process, in doubles, reconciled with the group on one tick. A reconciliation is in
flight until it is answered or refused, and what is charged meanwhile is charged to the same entries. -/

set_option linter.unusedSectionVars false

namespace Toa.Throttle
open Assoc Run Double

variable {ξ π ω κ : Type*} [DecidableEq ξ] [DecidableEq κ]

namespace Event

def key : Event κ → κ
  | .charged key _ | .reported key _ | .dropped key => key

def charge : Event κ → ℚ
  | .charged _ amount => amount
  | _ => 0

def report : Event κ → ℚ
  | .reported _ delta => delta
  | _ => 0

def drops : Event κ → Bool
  | .dropped _ => true
  | _ => false

/-- What befell a key since it was last dropped, the latest first. -/
def life (key : κ) (log : List (Event κ)) : List (Event κ) :=
  (log.filter fun e => decide (e.key = key)).takeWhile fun e => !e.drops

def totalCharged (key : κ) (log : List (Event κ)) : ℚ := ((life key log).map charge).sum

def totalReported (key : κ) (log : List (Event κ)) : ℚ := ((life key log).map report).sum

/-- What a life leaves held, each charge and each report rounded in its turn. -/
def owed : List (Event κ) → ℚ
  | [] => 0
  | e :: life => double (owed life + (e.charge - e.report))

/-- The most a life is out by: half a place of each sum. -/
def slack : List (Event κ) → ℚ
  | [] => 0
  | e :: life => |owed life + (e.charge - e.report)| / 2 ^ 53 + slack life

/-- No sum of a life rounds. -/
def Exact : List (Event κ) → Prop
  | [] => True
  | e :: life => Representable 53 (owed life + (e.charge - e.report)) ∧ Exact life

theorem double_owed (life : List (Event κ)) : double (owed life) = owed life := by
  cases life with
  | nil => exact nearest_zero 53
  | cons e life => exact nearest_nearest (by decide) _

theorem abs_sub_owed (life : List (Event κ)) :
    |(life.map charge).sum - (life.map report).sum - owed life| ≤ slack life := by
  induction life with
  | nil => simp only [List.map_nil, List.sum_nil, owed, slack, sub_zero, abs_zero, le_refl]
  | cons e life ih =>
    have hround := abs_sub_nearest 53 (owed life + (e.charge - e.report))
    rw [← le_div_iff₀ (by positivity)] at hround
    have hsplit : ((e :: life).map charge).sum - ((e :: life).map report).sum - owed (e :: life) =
        owed life + (e.charge - e.report) - nearest 53 (owed life + (e.charge - e.report)) +
          ((life.map charge).sum - (life.map report).sum - owed life) := by
      simp only [List.map_cons, List.sum_cons, owed, double]
      ring
    rw [hsplit]
    exact (abs_add_le _ _).trans (add_le_add hround ih)

theorem owed_of_exact {life : List (Event κ)} (h : Exact life) :
    (life.map report).sum + owed life = (life.map charge).sum := by
  induction life with
  | nil => exact add_zero 0
  | cons e life ih =>
    have hsum : owed (e :: life) = owed life + (e.charge - e.report) :=
      nearest_of_representable (by decide) h.1
    have hrest := ih h.2
    rw [hsum, List.map_cons, List.map_cons, List.sum_cons, List.sum_cons]
    linarith

theorem life_cons_of_ne {key : κ} {e : Event κ} (h : e.key ≠ key) (log : List (Event κ)) :
    life key (e :: log) = life key log := by
  rw [life, List.filter_cons_of_neg (by simpa using h), life]

theorem life_cons {key : κ} {e : Event κ} (h : e.key = key) (hdrops : e.drops = false)
    (log : List (Event κ)) : life key (e :: log) = e :: life key log := by
  have hkept : (!e.drops) = true := by rw [hdrops]; rfl
  rw [life, List.filter_cons_of_pos (by simpa using h),
    List.takeWhile_cons_of_pos (p := fun e : Event κ => !e.drops) hkept, life]

theorem totalReported_cons (key : κ) {e : Event κ} (hdrops : e.drops = false) (log : List (Event κ)) :
    totalReported key (e :: log) = totalReported key log + if e.key = key then e.report else 0 := by
  split_ifs with hkey
  · rw [totalReported, life_cons hkey hdrops, List.map_cons, List.sum_cons, add_comm, totalReported]
  · rw [totalReported, life_cons_of_ne hkey, add_zero, totalReported]

theorem life_dropped (key : κ) (log : List (Event κ)) : life key (.dropped key :: log) = [] := by
  have hkey : (dropped key : Event κ).key = key := rfl
  rw [life, List.filter_cons_of_pos (by simpa using hkey), List.takeWhile_cons_of_neg Bool.false_ne_true]

theorem life_append_dropped (key : κ) (keys : List κ) (log : List (Event κ)) :
    life key (keys.map .dropped ++ log) = if key ∈ keys then [] else life key log := by
  induction keys with
  | nil => rfl
  | cons k keys ih =>
    by_cases hk : k = key
    · subst hk
      rw [List.map_cons, List.cons_append, life_dropped, if_pos List.mem_cons_self]
    · have hmem : key ∈ k :: keys ↔ key ∈ keys := List.mem_cons.trans (or_iff_right (Ne.symm hk))
      have hne : (dropped k : Event κ).key ≠ key := hk
      rw [List.map_cons, List.cons_append, life_cons_of_ne hne, ih]
      simp only [hmem]

end Event

namespace Quotas
open Event

def Accounted (q : Quotas ξ κ) : Prop :=
  ∀ key, (q.entry key).elim (life key q.log = []) fun e =>
    e.debt = owed (life key q.log) ∧ -(1 / 2) ≤ e.debt

def Keeps (q q' : Quotas ξ κ) : Prop :=
  ∀ key e, q.entry key = some e → ∃ e', q'.entry key = some e' ∧ e.debt ≤ e'.debt

theorem accounted_init : (init : Quotas ξ κ).Accounted := fun _ => rfl

theorem Accounted.some {q : Quotas ξ κ} (h : q.Accounted) {key : κ} {e : Entry}
    (he : q.entry key = some e) : e.debt = owed (life key q.log) ∧ -(1 / 2) ≤ e.debt := by
  have hkey := h key
  rw [he] at hkey
  exact hkey

theorem Accounted.none {q : Quotas ξ κ} (h : q.Accounted) {key : κ} (he : q.entry key = none) :
    life key q.log = [] := by
  have hkey := h key
  rw [he] at hkey
  exact hkey

theorem double_debt {q : Quotas ξ κ} (h : q.Accounted) {key : κ} {e : Entry}
    (he : q.entry key = some e) : double e.debt = e.debt := by
  rw [(h.some he).1]
  exact double_owed _

theorem accounted_set {q : Quotas ξ κ} (h : q.Accounted) {key : κ} {new : Entry} {more : Entry → Entry}
    {event : Event κ} (hevent : event.key = key) (hdrops : event.drops = false)
    (hnone : q.entry key = none →
      new.debt = double (0 + (event.charge - event.report)) ∧ -(1 / 2) ≤ new.debt)
    (hsome : ∀ e, q.entry key = some e →
      (more e).debt = double (e.debt + (event.charge - event.report)) ∧ -(1 / 2) ≤ (more e).debt) :
    ((q.set key new more).noted event).Accounted := by
  intro k
  change Option.elim ((q.set key new more).entry k) _ _
  rw [entry_set]
  by_cases hk : k = key
  · subst hk
    have hlife : life k ((q.set k new more).noted event).log = event :: life k q.log :=
      life_cons hevent hdrops q.log
    rw [if_pos rfl, Option.elim_some, hlife, owed]
    cases he : q.entry k with
    | none =>
      rw [h.none he]
      exact hnone he
    | some e =>
      rw [← (h.some he).1]
      exact hsome e he
  · have hlife : life k ((q.set key new more).noted event).log = life k q.log :=
      life_cons_of_ne (fun heq => hk (heq.symm.trans hevent)) q.log
    rw [if_neg hk, hlife]
    exact h k

theorem keeps_refl (q : Quotas ξ κ) : q.Keeps q := fun _ e he => ⟨e, he, le_rfl⟩

section
variable (o : Options ξ π ω κ)

theorem emission_nonneg : 0 ≤ o.emission double := by
  have hnonneg : (0 : ℚ) ≤ o.interval / o.requests := by positivity
  have hmono := nearest_mono (p := 53) (by decide) hnonneg
  rwa [nearest_zero] at hmono

theorem le_charged {e : Entry} (h : double e.debt = e.debt) :
    e.debt ≤ double (e.debt + o.emission double) := by
  have hle : e.debt ≤ e.debt + o.emission double := le_add_of_nonneg_right (emission_nonneg o)
  exact h.symm.le.trans (nearest_mono (p := 53) (by decide) hle)

theorem accounted_charge {q : Quotas ξ κ} (h : q.Accounted) (key : κ) (moment : ℚ) :
    (q.charge double o key moment).Accounted := by
  have hkey : (.charged key (o.emission double) : Event κ).key = key := rfl
  have hamount : (.charged key (o.emission double) : Event κ).charge -
      (.charged key (o.emission double) : Event κ).report = o.emission double := sub_zero _
  apply accounted_set h hkey rfl
  · intro _
    rw [hamount, zero_add]
    constructor
    · exact (nearest_nearest (by decide) _).symm
    · have hnonneg := emission_nonneg o
      linarith
  · intro e he
    rw [hamount]
    exact ⟨rfl, (h.some he).2.trans (le_charged o (double_debt h he))⟩

theorem keeps_charge {q : Quotas ξ κ} (h : q.Accounted) (key : κ) (moment : ℚ) :
    q.Keeps (q.charge double o key moment) := by
  intro k e he
  change ∃ e', (q.set key _ _).entry k = some e' ∧ _
  rw [entry_set]
  split_ifs with hk
  · subst hk
    rw [he]
    exact ⟨_, rfl, le_charged o (double_debt h he)⟩
  · exact ⟨e, he, le_rfl⟩

theorem check_cases (q : Quotas ξ κ) (x : ξ) (ps : List π) (now : ℚ) :
    (∃ keyed, (q.check double o x ps now).2 = { q with keyed := keyed }) ∨
      ∃ keyed key moment, (q.check double o x ps now).2 = { q with keyed := keyed }.charge double o key moment := by
  unfold check
  split
  · exact .inl ⟨q.keyed, rfl⟩
  · dsimp only
    split_ifs
    · exact .inl ⟨_, rfl⟩
    · exact .inl ⟨_, rfl⟩
    · exact .inr ⟨_, _, _, rfl⟩

theorem use_cases (q : Quotas ξ κ) (x : ξ) (output : ω) (now : ℚ) :
    q.use double o x output now = q ∨ ∃ key moment, q.use double o x output now = q.charge double o key moment := by
  unfold use
  split_ifs
  · exact .inl rfl
  · split
    · exact .inl rfl
    · exact .inr ⟨_, _, rfl⟩

end

theorem accounted_flush {q : Quotas ξ κ} (h : q.Accounted) (now : ℚ) : (q.flush now).2.Accounted := by
  intro k
  have hlog : (q.flush now).2.log =
      ((q.entries.filter fun e => e.2.quiet now).map Prod.fst).reverse.map .dropped ++ q.log := by
    rw [List.map_reverse, List.map_map]
    rfl
  have hmem : k ∉ ((q.entries.filter fun e => e.2.quiet now).map Prod.fst).reverse ↔
      ((q.entry k).filter fun e => e.quiet now) = none := by
    rw [List.mem_reverse, ← lookup_eq_none_iff, lookup_filter q.nodup]
    rfl
  rw [hlog, life_append_dropped, entry_flush]
  cases he : q.entry k with
  | none =>
    have hkept : life k q.log = [] := h.none he
    simp only [hkept, ite_self]
    exact trivial
  | some e =>
    rw [he] at hmem
    by_cases hquiet : e.quiet now = true
    · have hin : k ∈ ((q.entries.filter fun e => e.2.quiet now).map Prod.fst).reverse := by
        rw [← not_not (a := k ∈ _), hmem, Option.filter_some, if_pos hquiet]
        exact Option.some_ne_none e
      rw [if_pos hin, Option.filter_some, hquiet]
      rfl
    · have hout : k ∉ ((q.entries.filter fun e => e.2.quiet now).map Prod.fst).reverse := by
        rw [hmem, Option.filter_some, if_neg hquiet]
      rw [if_neg hout, Option.filter_some, Bool.eq_false_iff.mpr hquiet]
      exact h.some he

theorem accounted_settled {q : Quotas ξ κ} (h : q.Accounted) {key : κ} {e : Entry} {delta : ℤ}
    (he : q.entry key = some e) (hdelta : (delta : ℚ) ≤ e.debt + 1 / 2) (debt now : ℚ) :
    ((q.settled double key delta debt now).noted (.reported key delta)).Accounted := by
  have hkey : (.reported key delta : Event κ).key = key := rfl
  have hamount : (.reported key delta : Event κ).charge - (.reported key delta : Event κ).report =
      -delta := zero_sub _
  simp only [settled, he]
  apply accounted_set h hkey rfl
  · intro hnone
    cases he.symm.trans hnone
  · intro e' he'
    obtain rfl := Option.some.inj (he.symm.trans he')
    rw [hamount, ← sub_eq_add_neg]
    refine ⟨rfl, ?_⟩
    have hhalf : Representable 53 (-(1 / 2)) := ⟨-1, -1, by decide, by norm_num⟩
    have hle : -(1 / 2) ≤ e.debt - delta := by linarith
    have hmono := nearest_mono (p := 53) (by decide) hle
    rwa [nearest_of_representable (by decide) hhalf] at hmono

theorem entry_settled_of_ne (q : Quotas ξ κ) {key k : κ} (hk : k ≠ key) (delta : ℤ) (debt now : ℚ) :
    (q.settled double key delta debt now).entry k = q.entry k := by
  unfold settled
  split
  · split_ifs
    · rw [entry_set, if_neg hk]
    · rfl
  · rw [entry_set, if_neg hk]

theorem entry_settled_isSome {q : Quotas ξ κ} {k : κ} (hsome : (q.entry k).isSome = true) (key : κ)
    (delta : ℤ) (debt now : ℚ) : ((q.settled double key delta debt now).entry k).isSome = true := by
  by_cases hk : k = key
  · subst hk
    obtain ⟨e, he⟩ := Option.isSome_iff_exists.mp hsome
    simp only [settled, he, entry_set, if_true, Option.isSome_some]
  · rwa [entry_settled_of_ne q hk]

end Quotas

/-- What is reported of a key of the quotas registered at a place. -/
structure Reported (κ : Type*) where
  quotas : ℕ
  key : κ
  delta : ℤ

/-- A reconciliation: its report is in flight, or it has ended and is to let the next one begin. -/
inductive Call (κ : Type*)
  | metering (batch : List (Reported κ))
  | ended

namespace Sync

abbrev Registered (ξ π ω κ : Type*) := Options ξ π ω κ × Quotas ξ κ

structure State (ξ π ω κ : Type*) where
  quotas : List (Registered ξ π ω κ)
  reconciling : Bool
  calls : List (Call κ)

def init : State ξ π ω κ := ⟨[], false, []⟩

/-- `answered` and `refused` are what `meter` of a reconciliation comes to, and `finished` is taken after
either. -/
inductive Act (ξ π ω κ : Type*)
  | register (o : Options ξ π ω κ)
  | check (i : ℕ) (x : ξ) (ps : List π) (now : ℚ)
  | use (i : ℕ) (x : ξ) (output : ω) (now : ℚ)
  | tick (now : ℚ)
  | answered (c : ℕ) (debts : List ℚ) (now : ℚ)
  | refused (c : ℕ)
  | finished (c : ℕ)

def flush (quotas : List (Registered ξ π ω κ)) (now : ℚ) : List (Reported κ) :=
  quotas.zipIdx.flatMap fun p => (p.1.2.flush now).1.map fun r => ⟨p.2, r.1, r.2⟩

def settle (now : ℚ) (quotas : List (Registered ξ π ω κ)) (r : Reported κ × ℚ) :
    List (Registered ξ π ω κ) :=
  quotas.modify r.1.quotas fun p =>
    (p.1, (p.2.settled double r.1.key r.1.delta r.2 now).noted (.reported r.1.key r.1.delta))

def step (s : State ξ π ω κ) : Act ξ π ω κ → Option (State ξ π ω κ)
  | .register o => some { s with quotas := s.quotas ++ [(o, .init)] }
  | .check i x ps now =>
    some { s with quotas := s.quotas.modify i fun p => (p.1, (p.2.check double p.1 x ps now).2) }
  | .use i x output now =>
    some { s with quotas := s.quotas.modify i fun p => (p.1, p.2.use double p.1 x output now) }
  | .tick now =>
    if s.reconciling = true then some s
    else
      let quotas := s.quotas.map fun p => (p.1, (p.2.flush now).2)
      match flush s.quotas now with
      | [] => some { s with quotas := quotas }
      | r :: batch => some ⟨quotas, true, s.calls ++ [.metering (r :: batch)]⟩
  | .answered c debts now =>
    match s.calls[c]? with
    | some (.metering batch) =>
      if debts.length = batch.length then
        some { s with quotas := (batch.zip debts).foldl (settle now) s.quotas, calls := s.calls.set c .ended }
      else none
    | _ => none
  | .refused c =>
    match s.calls[c]? with
    | some (.metering _) => some { s with calls := s.calls.set c .ended }
    | _ => none
  | .finished c =>
    match s.calls[c]? with
    | some .ended => some { s with reconciling := false, calls := s.calls.eraseIdx c }
    | _ => none

def held (quotas : List (Registered ξ π ω κ)) (i : ℕ) (key : κ) : Option Entry :=
  quotas[i]?.bind fun p : Registered ξ π ω κ => p.2.entry key

def Accounted (quotas : List (Registered ξ π ω κ)) : Prop :=
  ∀ p ∈ quotas, p.2.Accounted

/-- What is in flight is held still, each key of it once. -/
structure Flight (quotas : List (Registered ξ π ω κ)) (batch : List (Reported κ)) : Prop where
  nodup : (batch.map fun r => (r.quotas, r.key)).Nodup
  held : ∀ r ∈ batch, ∃ e, held quotas r.quotas r.key = some e ∧ (r.delta : ℚ) ≤ e.debt + 1 / 2

def Keeps (quotas quotas' : List (Registered ξ π ω κ)) : Prop :=
  ∀ i key e, held quotas i key = some e → ∃ e', held quotas' i key = some e' ∧ e.debt ≤ e'.debt

theorem held_eq_some {quotas : List (Registered ξ π ω κ)} {i : ℕ} {key : κ} {e : Entry} :
    held quotas i key = some e ↔
      ∃ p : Registered ξ π ω κ, quotas[i]? = some p ∧ p.2.entry key = some e :=
  Option.bind_eq_some_iff

theorem held_modify_of_ne {quotas : List (Registered ξ π ω κ)} {i j : ℕ} (h : i ≠ j)
    (f : Registered ξ π ω κ → Registered ξ π ω κ) (key : κ) :
    held (quotas.modify i f) j key = held quotas j key := by
  rw [held, List.getElem?_modify_ne f quotas h, held]

theorem held_modify {quotas : List (Registered ξ π ω κ)} {i : ℕ} {p : Registered ξ π ω κ}
    (hp : quotas[i]? = some p) (f : Registered ξ π ω κ → Registered ξ π ω κ) (key : κ) :
    held (quotas.modify i f) i key = (f p).2.entry key := by
  rw [held, List.getElem?_modify_eq, hp]
  rfl

theorem accounted_modify {quotas : List (Registered ξ π ω κ)} (h : Accounted quotas) (i : ℕ)
    {f : Registered ξ π ω κ → Registered ξ π ω κ}
    (hf : ∀ p : Registered ξ π ω κ, quotas[i]? = some p → p.2.Accounted → (f p).2.Accounted) :
    Accounted (quotas.modify i f) := by
  intro p hp
  obtain ⟨j, hj⟩ := List.mem_iff_getElem?.mp hp
  by_cases hij : i = j
  · subst hij
    rw [List.getElem?_modify_eq] at hj
    obtain ⟨p', hp', rfl⟩ := Option.map_eq_some_iff.mp hj
    exact hf p' hp' (h p' (List.mem_of_getElem? hp'))
  · rw [List.getElem?_modify_ne f quotas hij] at hj
    exact h p (List.mem_of_getElem? hj)

theorem keeps_modify {quotas : List (Registered ξ π ω κ)} (h : Accounted quotas) (i : ℕ)
    {f : Registered ξ π ω κ → Registered ξ π ω κ}
    (hf : ∀ p : Registered ξ π ω κ, p.2.Accounted → p.2.Keeps (f p).2) :
    Keeps quotas (quotas.modify i f) := by
  intro j key e he
  by_cases hj : i = j
  · subst hj
    obtain ⟨p, hp, hentry⟩ := held_eq_some.mp he
    rw [held_modify hp]
    exact hf p (h p (List.mem_of_getElem? hp)) key e hentry
  · rw [held_modify_of_ne hj]
    exact ⟨e, he, le_rfl⟩

theorem Flight.keeps {quotas quotas' : List (Registered ξ π ω κ)} {batch : List (Reported κ)}
    (h : Flight quotas batch) (hkeeps : Keeps quotas quotas') : Flight quotas' batch := by
  refine ⟨h.nodup, fun r hr => ?_⟩
  obtain ⟨e, he, hdelta⟩ := h.held r hr
  obtain ⟨e', he', hdebt⟩ := hkeeps _ _ e he
  exact ⟨e', he', by linarith⟩

/-! ## The batch of a tick -/

theorem mem_flush {quotas : List (Registered ξ π ω κ)} {now : ℚ} {r : Reported κ}
    (hr : r ∈ flush quotas now) :
    ∃ (p : Registered ξ π ω κ) (e : Entry), quotas[r.quotas]? = some p ∧ p.2.entry r.key = some e ∧
      0 < e.delta ∧ r.delta = e.delta := by
  obtain ⟨⟨p, i⟩, hp, hr⟩ := List.mem_flatMap.mp hr
  obtain ⟨⟨key, delta⟩, hreport, rfl⟩ := List.mem_map.mp hr
  obtain ⟨⟨k, e⟩, he, hsome⟩ := List.mem_filterMap.mp hreport
  split_ifs at hsome with hdelta
  obtain ⟨rfl, rfl⟩ := Prod.mk.inj (Option.some.inj hsome)
  exact ⟨p, e, List.mk_mem_zipIdx_iff_getElem?.mp hp, lookup_of_mem p.2.nodup he, hdelta, rfl⟩

theorem nodup_flush (quotas : List (Registered ξ π ω κ)) (now : ℚ) :
    ((flush quotas now).map fun r => (r.quotas, r.key)).Nodup := by
  rw [flush, List.map_flatMap, List.nodup_flatMap]
  constructor
  · rintro ⟨p, i⟩ -
    have hkeys := p.2.nodup_flush now
    rw [List.map_map]
    apply List.Nodup.of_map Prod.snd
    rw [List.map_map]
    exact hkeys
  · have hplaces : (quotas.zipIdx.map Prod.snd).Nodup := by
      rw [List.zipIdx_map_snd]
      exact List.nodup_range'
    refine (List.pairwise_map.mp hplaces).imp fun hne => ?_
    intro x hx hx'
    obtain ⟨r, hr, rfl⟩ := List.mem_map.mp hx
    obtain ⟨r', hr', heq⟩ := List.mem_map.mp hx'
    obtain ⟨_, -, rfl⟩ := List.mem_map.mp hr
    obtain ⟨_, -, rfl⟩ := List.mem_map.mp hr'
    exact hne (Prod.mk.inj heq).1.symm

theorem flight_flush (quotas : List (Registered ξ π ω κ)) (now : ℚ) :
    Flight (quotas.map fun p => (p.1, (p.2.flush now).2)) (flush quotas now) := by
  refine ⟨nodup_flush quotas now, fun r hr => ?_⟩
  obtain ⟨p, e, hp, he, hpos, hdelta⟩ := mem_flush hr
  have hkept : (p.2.flush now).2.entry r.key = some e := by
    rw [Quotas.entry_flush, he, Option.filter_some, if_pos]
    simp only [Entry.quiet, decide_eq_false (not_le.mpr hpos), Bool.false_and, Bool.not_false]
  refine ⟨e, held_eq_some.mpr ⟨(p.1, (p.2.flush now).2), ?_, hkept⟩, ?_⟩
  · rw [List.getElem?_map, hp]
    rfl
  · rw [hdelta]
    exact round_le_add_half e.debt

theorem accounted_flush {quotas : List (Registered ξ π ω κ)} (h : Accounted quotas) (now : ℚ) :
    Accounted (quotas.map fun p => (p.1, (p.2.flush now).2)) := by
  intro p hp
  obtain ⟨p', hp', rfl⟩ := List.mem_map.mp hp
  exact Quotas.accounted_flush (h p' hp') now

/-! ## A settlement of a batch -/

theorem held_settle_of_ne {quotas : List (Registered ξ π ω κ)} {r : Reported κ} {i : ℕ} {key : κ}
    (h : (r.quotas, r.key) ≠ (i, key)) (debt now : ℚ) :
    held (settle now quotas (r, debt)) i key = held quotas i key := by
  by_cases hi : r.quotas = i
  · subst hi
    have hkey : key ≠ r.key := fun heq => h (heq ▸ rfl)
    cases hp : quotas[r.quotas]? with
    | none => simp only [held, settle, List.getElem?_modify_eq, hp, Option.map_eq_map, Option.map_none]
    | some p =>
      rw [settle, held_modify hp, held, hp]
      exact Quotas.entry_settled_of_ne p.2 hkey _ _ _
  · exact held_modify_of_ne hi _ key

theorem held_settle_isSome {quotas : List (Registered ξ π ω κ)} {i : ℕ} {key : κ}
    (h : (held quotas i key).isSome = true) (now : ℚ) (r : Reported κ × ℚ) :
    (held (settle now quotas r) i key).isSome = true := by
  obtain ⟨e, he⟩ := Option.isSome_iff_exists.mp h
  obtain ⟨p, hp, hentry⟩ := held_eq_some.mp he
  by_cases hi : r.1.quotas = i
  · subst hi
    rw [settle, held_modify hp]
    exact Quotas.entry_settled_isSome (by rw [hentry]; rfl) _ _ _ _
  · rwa [settle, held_modify_of_ne hi]

theorem held_foldl_isSome {quotas : List (Registered ξ π ω κ)} {i : ℕ} {key : κ}
    (h : (held quotas i key).isSome = true) (now : ℚ) (rs : List (Reported κ × ℚ)) :
    (held (rs.foldl (settle now) quotas) i key).isSome = true := by
  induction rs generalizing quotas with
  | nil => exact h
  | cons r rs ih => exact ih (held_settle_isSome h now r)

theorem accounted_settle {quotas : List (Registered ξ π ω κ)} {r : Reported κ} {batch : List (Reported κ)}
    (h : Accounted quotas) (hflight : Flight quotas (r :: batch)) (debt now : ℚ) :
    Accounted (settle now quotas (r, debt)) ∧ Flight (settle now quotas (r, debt)) batch := by
  obtain ⟨hfresh, hrest⟩ := List.nodup_cons.mp hflight.nodup
  constructor
  · apply accounted_modify h
    intro p hp hkept
    obtain ⟨e, he, hdelta⟩ := hflight.held r List.mem_cons_self
    obtain ⟨p', hp', hentry⟩ := held_eq_some.mp he
    obtain rfl := Option.some.inj (hp.symm.trans hp')
    exact Quotas.accounted_settled hkept hentry hdelta debt now
  · refine ⟨hrest, fun r' hr' => ?_⟩
    have hne : (r.quotas, r.key) ≠ (r'.quotas, r'.key) :=
      fun heq => hfresh (List.mem_map.mpr ⟨r', hr', heq.symm⟩)
    rw [held_settle_of_ne hne]
    exact hflight.held r' (List.mem_cons_of_mem _ hr')

theorem accounted_foldl {quotas : List (Registered ξ π ω κ)} {rs : List (Reported κ × ℚ)}
    (h : Accounted quotas) (hflight : Flight quotas (rs.map Prod.fst)) (now : ℚ) :
    Accounted (rs.foldl (settle now) quotas) := by
  induction rs generalizing quotas with
  | nil => exact h
  | cons r rs ih =>
    obtain ⟨hsettled, hrest⟩ := accounted_settle h hflight r.2 now
    exact ih hsettled hrest

/-! ## A run -/

structure Sound (s : State ξ π ω κ) : Prop where
  accounted : Accounted s.quotas
  flight : s.reconciling = false ∧ s.calls = [] ∨
    s.reconciling = true ∧
      (s.calls = [.ended] ∨ ∃ batch, s.calls = [.metering batch] ∧ Flight s.quotas batch)

theorem sound_init : Sound (init : State ξ π ω κ) :=
  ⟨fun _ h => (by cases h), .inl ⟨rfl, rfl⟩⟩

theorem Sound.metering {s : State ξ π ω κ} (h : Sound s) {c : ℕ} {batch : List (Reported κ)}
    (hc : s.calls[c]? = some (.metering batch)) :
    s.reconciling = true ∧ s.calls.set c .ended = [.ended] ∧ Flight s.quotas batch := by
  rcases h.flight with ⟨-, hnone⟩ | ⟨hreconciling, hended | ⟨batch', hone, hflight⟩⟩
  · rw [hnone] at hc
    cases hc
  · rw [hended, List.getElem?_singleton] at hc
    split_ifs at hc
    cases hc
  · rw [hone, List.getElem?_singleton] at hc
    split_ifs at hc with hzero
    obtain rfl := Call.metering.inj (Option.some.inj hc)
    subst hzero
    exact ⟨hreconciling, by rw [hone]; rfl, hflight⟩

theorem Sound.ended {s : State ξ π ω κ} (h : Sound s) {c : ℕ} (hc : s.calls[c]? = some .ended) :
    s.calls.eraseIdx c = [] := by
  rcases h.flight with ⟨-, hnone⟩ | ⟨-, hended | ⟨batch', hone, -⟩⟩
  · rw [hnone] at hc
    cases hc
  · rw [hended, List.getElem?_singleton] at hc
    split_ifs at hc with hzero
    subst hzero
    rw [hended]
    rfl
  · rw [hone, List.getElem?_singleton] at hc
    split_ifs at hc
    cases hc

theorem Sound.keeps {s : State ξ π ω κ} (h : Sound s) {quotas : List (Registered ξ π ω κ)}
    (haccounted : Accounted quotas) (hkeeps : Keeps s.quotas quotas) :
    Sound { s with quotas := quotas } := by
  refine ⟨haccounted, h.flight.imp_right fun hcalls => ⟨hcalls.1, hcalls.2.imp_right ?_⟩⟩
  rintro ⟨batch, hone, hflight⟩
  exact ⟨batch, hone, hflight.keeps hkeeps⟩

theorem accounted_check {p : Registered ξ π ω κ} (h : p.2.Accounted) (x : ξ) (ps : List π) (now : ℚ) :
    (p.2.check double p.1 x ps now).2.Accounted := by
  rcases Quotas.check_cases p.1 p.2 x ps now with ⟨keyed, heq⟩ | ⟨keyed, key, moment, heq⟩ <;> rw [heq]
  · exact h
  · have hkeyed : ({ p.2 with keyed := keyed } : Quotas ξ κ).Accounted := h
    exact Quotas.accounted_charge p.1 hkeyed key moment

theorem keeps_check {p : Registered ξ π ω κ} (h : p.2.Accounted) (x : ξ) (ps : List π) (now : ℚ) :
    p.2.Keeps (p.2.check double p.1 x ps now).2 := by
  rcases Quotas.check_cases p.1 p.2 x ps now with ⟨keyed, heq⟩ | ⟨keyed, key, moment, heq⟩ <;> rw [heq]
  · exact Quotas.keeps_refl p.2
  · have hkeyed : ({ p.2 with keyed := keyed } : Quotas ξ κ).Accounted := h
    exact Quotas.keeps_charge p.1 hkeyed key moment

theorem accounted_use {p : Registered ξ π ω κ} (h : p.2.Accounted) (x : ξ) (output : ω) (now : ℚ) :
    (p.2.use double p.1 x output now).Accounted := by
  rcases Quotas.use_cases p.1 p.2 x output now with heq | ⟨key, moment, heq⟩ <;> rw [heq]
  · exact h
  · exact Quotas.accounted_charge p.1 h key moment

theorem keeps_use {p : Registered ξ π ω κ} (h : p.2.Accounted) (x : ξ) (output : ω) (now : ℚ) :
    p.2.Keeps (p.2.use double p.1 x output now) := by
  rcases Quotas.use_cases p.1 p.2 x output now with heq | ⟨key, moment, heq⟩ <;> rw [heq]
  · exact Quotas.keeps_refl p.2
  · exact Quotas.keeps_charge p.1 h key moment

theorem keeps_register (quotas : List (Registered ξ π ω κ)) (p : Registered ξ π ω κ) :
    Keeps quotas (quotas ++ [p]) := by
  intro i key e he
  obtain ⟨p', hp', hentry⟩ := held_eq_some.mp he
  have hi := (List.getElem?_eq_some_iff.mp hp').1
  refine ⟨e, held_eq_some.mpr ⟨p', ?_, hentry⟩, le_rfl⟩
  rwa [List.getElem?_append_left hi]

theorem accounted_register {quotas : List (Registered ξ π ω κ)} (h : Accounted quotas)
    (o : Options ξ π ω κ) : Accounted (quotas ++ [(o, .init)]) := by
  intro p hp
  rcases List.mem_append.mp hp with hp | hp
  · exact h p hp
  · rw [List.mem_singleton.mp hp]
    exact Quotas.accounted_init

theorem tick_cases {s t : State ξ π ω κ} {now : ℚ} (h : Sound s) (ht : step s (.tick now) = some t) :
    t = s ∨ s.calls = [] ∧ t.quotas = s.quotas.map (fun p => (p.1, (p.2.flush now).2)) ∧
      (t.reconciling = false ∧ t.calls = [] ∨
        t.reconciling = true ∧ t.calls = [.metering (flush s.quotas now)]) := by
  simp only [step] at ht
  split_ifs at ht with hreconciling
  · exact .inl (Option.some.inj ht).symm
  · obtain ⟨hidle, hcalls⟩ := h.flight.resolve_right fun hbusy => hreconciling hbusy.1
    refine .inr ⟨hcalls, ?_⟩
    split at ht
    · obtain rfl := Option.some.inj ht
      exact ⟨rfl, .inl ⟨hidle, hcalls⟩⟩
    · rename_i r batch hbatch
      obtain rfl := Option.some.inj ht
      refine ⟨rfl, .inr ⟨rfl, ?_⟩⟩
      rw [hcalls, hbatch]
      rfl

theorem step_sound {s t : State ξ π ω κ} {a : Act ξ π ω κ} (h : Sound s) (ht : step s a = some t) :
    Sound t := by
  cases a with
  | register o =>
    obtain rfl := Option.some.inj ht
    exact h.keeps (accounted_register h.accounted o) (keeps_register _ _)
  | check i x ps now =>
    obtain rfl := Option.some.inj ht
    apply h.keeps
    · exact accounted_modify h.accounted i fun p _ hp => accounted_check hp x ps now
    · exact keeps_modify h.accounted i fun p hp => keeps_check hp x ps now
  | use i x output now =>
    obtain rfl := Option.some.inj ht
    apply h.keeps
    · exact accounted_modify h.accounted i fun p _ hp => accounted_use hp x output now
    · exact keeps_modify h.accounted i fun p hp => keeps_use hp x output now
  | tick now =>
    rcases tick_cases h ht with rfl | ⟨-, hquotas, hcalls⟩
    · exact h
    · -- nothing is in flight, and what is now is what the quotas flush
      have haccounted := accounted_flush h.accounted now
      have hflight := flight_flush s.quotas now
      rw [← hquotas] at haccounted hflight
      exact ⟨haccounted, hcalls.imp_right fun hbusy => ⟨hbusy.1, .inr ⟨_, hbusy.2, hflight⟩⟩⟩
  | answered c debts now =>
    simp only [step] at ht
    split at ht
    · rename_i batch hc
      obtain ⟨hreconciling, hended, hflight⟩ := h.metering hc
      split_ifs at ht with hlength
      obtain rfl := Option.some.inj ht
      refine ⟨accounted_foldl h.accounted ?_ now, .inr ⟨hreconciling, .inl hended⟩⟩
      rwa [List.map_fst_zip hlength.ge]
    · cases ht
  | refused c =>
    simp only [step] at ht
    split at ht
    · rename_i batch hc
      obtain ⟨hreconciling, hended, -⟩ := h.metering hc
      obtain rfl := Option.some.inj ht
      exact ⟨h.accounted, .inr ⟨hreconciling, .inl hended⟩⟩
    · cases ht
  | finished c =>
    simp only [step] at ht
    split at ht
    · rename_i hc
      obtain rfl := Option.some.inj ht
      exact ⟨h.accounted, .inl ⟨rfl, h.ended hc⟩⟩
    · cases ht

theorem run_sound {s : State ξ π ω κ} {acts : List (Act ξ π ω κ)} (h : run step init acts = some s) :
    Sound s :=
  run_invariant_all (fun _ _ _ hs ht => step_sound hs ht) sound_init h

theorem held_keeps {quotas quotas' : List (Registered ξ π ω κ)} (h : Keeps quotas quotas') {i : ℕ}
    {key : κ} {e : Entry} (he : held quotas i key = some e) : held quotas' i key ≠ none := by
  obtain ⟨e', he', -⟩ := h i key e he
  rw [he']
  exact Option.some_ne_none e'

theorem dropped_of_step {s t : State ξ π ω κ} {a : Act ξ π ω κ} (h : Sound s) (ht : step s a = some t)
    {i : ℕ} {key : κ} {e : Entry} (he : held s.quotas i key = some e) (hdropped : held t.quotas i key = none) :
    s.calls = [] ∧ ∃ now, e.quiet now = true := by
  cases a with
  | register o =>
    obtain rfl := Option.some.inj ht
    exact absurd hdropped (held_keeps (keeps_register _ _) he)
  | check i' x ps now =>
    obtain rfl := Option.some.inj ht
    have hkeeps : Keeps s.quotas (s.quotas.modify i' fun p => (p.1, (p.2.check double p.1 x ps now).2)) :=
      keeps_modify h.accounted i' fun p hp => keeps_check hp x ps now
    exact absurd hdropped (held_keeps hkeeps he)
  | use i' x output now =>
    obtain rfl := Option.some.inj ht
    have hkeeps : Keeps s.quotas (s.quotas.modify i' fun p => (p.1, p.2.use double p.1 x output now)) :=
      keeps_modify h.accounted i' fun p hp => keeps_use hp x output now
    exact absurd hdropped (held_keeps hkeeps he)
  | tick now =>
    rcases tick_cases h ht with rfl | ⟨hidle, hquotas, -⟩
    · cases he.symm.trans hdropped
    · obtain ⟨p, hp, hentry⟩ := held_eq_some.mp he
      have hkept : held t.quotas i key = (p.2.flush now).2.entry key := by
        rw [hquotas, held, List.getElem?_map, hp]
        rfl
      -- a flush leaves out the entries that are quiet and no other
      rw [hkept, Quotas.entry_flush, hentry, Option.filter_some] at hdropped
      split_ifs at hdropped with hquiet
      exact ⟨hidle, now, by simpa using hquiet⟩
  | answered c debts now =>
    simp only [step] at ht
    split at ht
    · rename_i batch hc
      split_ifs at ht
      obtain rfl := Option.some.inj ht
      have hsome := held_foldl_isSome (Option.isSome_iff_exists.mpr ⟨e, he⟩) now (batch.zip debts)
      rw [hdropped] at hsome
      cases hsome
    · cases ht
  | refused c | finished c =>
    simp only [step] at ht
    split at ht
    · obtain rfl := Option.some.inj ht
      cases he.symm.trans hdropped
    · cases ht

theorem batch_of_step {s t : State ξ π ω κ} {a : Act ξ π ω κ} (h : Sound s) (ht : step s a = some t)
    {batch : List (Reported κ)} (hbatch : .metering batch ∈ t.calls) :
    .metering batch ∈ s.calls ∨ ∃ now, batch = flush s.quotas now := by
  cases a with
  | register o | check i x ps now | use i x output now =>
    obtain rfl := Option.some.inj ht
    exact .inl hbatch
  | tick now =>
    rcases tick_cases h ht with rfl | ⟨-, -, ⟨-, hcalls⟩ | ⟨-, hcalls⟩⟩
    · exact .inl hbatch
    · rw [hcalls] at hbatch
      cases hbatch
    · rw [hcalls] at hbatch
      exact .inr ⟨now, Call.metering.inj (List.mem_singleton.mp hbatch)⟩
  | answered c debts now =>
    simp only [step] at ht
    split at ht
    · rename_i hc
      split_ifs at ht
      obtain rfl := Option.some.inj ht
      rw [(h.metering hc).2.1] at hbatch
      cases List.mem_singleton.mp hbatch
    · cases ht
  | refused c =>
    simp only [step] at ht
    split at ht
    · rename_i hc
      obtain rfl := Option.some.inj ht
      rw [(h.metering hc).2.1] at hbatch
      cases List.mem_singleton.mp hbatch
    · cases ht
  | finished c =>
    simp only [step] at ht
    split at ht
    · rename_i hc
      obtain rfl := Option.some.inj ht
      rw [h.ended hc] at hbatch
      cases hbatch
    · cases ht

/-! ## What is reported -/

theorem log_settled (q : Quotas ξ κ) (key : κ) (delta : ℤ) (debt now : ℚ) :
    (q.settled double key delta debt now).log = q.log := by
  unfold Quotas.settled
  split
  · split_ifs <;> rfl
  · rfl

theorem reported_charge (o : Options ξ π ω κ) (q : Quotas ξ κ) (key k : κ) (moment : ℚ) :
    Event.totalReported k (q.charge double o key moment).log = Event.totalReported k q.log := by
  have hcons := Event.totalReported_cons k (e := .charged key (o.emission double)) rfl q.log
  have hreport : (Event.charged key (o.emission double)).report = 0 := rfl
  rw [hreport, ite_self, add_zero] at hcons
  exact hcons

theorem reported_check (p : Registered ξ π ω κ) (x : ξ) (ps : List π) (now : ℚ) (key : κ) :
    Event.totalReported key (p.2.check double p.1 x ps now).2.log = Event.totalReported key p.2.log := by
  rcases Quotas.check_cases p.1 p.2 x ps now with ⟨keyed, heq⟩ | ⟨keyed, k, moment, heq⟩ <;> rw [heq]
  exact reported_charge p.1 { p.2 with keyed := keyed } k key moment

theorem reported_use (p : Registered ξ π ω κ) (x : ξ) (output : ω) (now : ℚ) (key : κ) :
    Event.totalReported key (p.2.use double p.1 x output now).log = Event.totalReported key p.2.log := by
  rcases Quotas.use_cases p.1 p.2 x output now with heq | ⟨k, moment, heq⟩ <;> rw [heq]
  exact reported_charge p.1 p.2 k key moment

def reported (quotas : List (Registered ξ π ω κ)) (i : ℕ) (key : κ) : ℚ :=
  quotas[i]?.elim 0 fun p : Registered ξ π ω κ => Event.totalReported key p.2.log

def deltas (i : ℕ) (key : κ) : List (Reported κ) → ℚ
  | [] => 0
  | r :: batch => (if r.quotas = i ∧ r.key = key then (r.delta : ℚ) else 0) + deltas i key batch

/-- What the group takes of a key: what the batch it answers says. -/
def delivered (s : State ξ π ω κ) (i : ℕ) (key : κ) : Act ξ π ω κ → ℚ
  | .answered c _ _ =>
    match s.calls[c]? with
    | some (.metering batch) => deltas i key batch
    | _ => 0
  | _ => 0

theorem reported_modify {quotas : List (Registered ξ π ω κ)} {i j : ℕ} {key : κ}
    {f : Registered ξ π ω κ → Registered ξ π ω κ}
    (hf : ∀ p : Registered ξ π ω κ,
      Event.totalReported key (f p).2.log = Event.totalReported key p.2.log) :
    reported (quotas.modify i f) j key = reported quotas j key := by
  rw [reported, reported, List.getElem?_modify]
  cases quotas[j]? with
  | none => rfl
  | some p =>
    change Event.totalReported key (if i = j then f p else p).2.log = _
    split_ifs
    · exact hf p
    · rfl

theorem reported_settle {quotas : List (Registered ξ π ω κ)} {r : Reported κ}
    (h : r.quotas < quotas.length) (debt now : ℚ) (i : ℕ) (key : κ) :
    reported (settle now quotas (r, debt)) i key =
      reported quotas i key + if r.quotas = i ∧ r.key = key then (r.delta : ℚ) else 0 := by
  rw [reported, reported, settle, List.getElem?_modify]
  by_cases hi : r.quotas = i
  · subst hi
    rw [List.getElem?_eq_getElem h]
    simp only [if_true, true_and]
    change Event.totalReported key (.reported r.key r.delta :: (Quotas.settled _ _ _ _ _ _).log) = _
    rw [log_settled]
    exact Event.totalReported_cons key rfl _
  · rw [if_neg fun hand => hi hand.1, add_zero]
    cases quotas[i]? with
    | none => rfl
    | some p =>
      change Event.totalReported key (if r.quotas = i then _ else p).2.log = _
      rw [if_neg hi]
      rfl

theorem reported_foldl {quotas : List (Registered ξ π ω κ)} {rs : List (Reported κ × ℚ)}
    (h : ∀ r ∈ rs, r.1.quotas < quotas.length) (now : ℚ) (i : ℕ) (key : κ) :
    reported (rs.foldl (settle now) quotas) i key =
      reported quotas i key + deltas i key (rs.map Prod.fst) := by
  induction rs generalizing quotas with
  | nil => exact (add_zero _).symm
  | cons r rs ih =>
    have hrest : ∀ r' ∈ rs, r'.1.quotas < (settle now quotas r).length := by
      intro r' hr'
      rw [settle, List.length_modify]
      exact h r' (List.mem_cons_of_mem r hr')
    have hsettle := reported_settle (h r List.mem_cons_self) r.2 now i key
    rw [List.foldl_cons, ih hrest, List.map_cons, deltas, ← add_assoc, ← hsettle]

theorem reported_flush {q : Quotas ξ κ} {now : ℚ} {key : κ} {e : Entry}
    (h : (q.flush now).2.entry key = some e) :
    Event.totalReported key (q.flush now).2.log = Event.totalReported key q.log := by
  have hlog : (q.flush now).2.log =
      ((q.entries.filter fun e => e.2.quiet now).map Prod.fst).reverse.map .dropped ++ q.log := by
    rw [List.map_reverse, List.map_map]
    rfl
  have hkept : key ∉ ((q.entries.filter fun e => e.2.quiet now).map Prod.fst).reverse := by
    rw [Quotas.entry_flush] at h
    obtain ⟨he, hquiet⟩ := Option.filter_eq_some_iff.mp h
    rw [List.mem_reverse, ← lookup_eq_none_iff, lookup_filter q.nodup]
    change (q.entry key).filter _ = none
    rw [he, Option.filter_some, if_neg]
    simpa using hquiet
  rw [Event.totalReported, hlog, Event.life_append_dropped, if_neg hkept, Event.totalReported]

theorem reported_register (quotas : List (Registered ξ π ω κ)) (o : Options ξ π ω κ) (i : ℕ) (key : κ) :
    reported (quotas ++ [(o, .init)]) i key = reported quotas i key := by
  unfold reported
  rcases Nat.lt_trichotomy i quotas.length with hlt | rfl | hlt
  · rw [List.getElem?_append_left hlt]
  · rw [List.getElem?_concat_length, List.getElem?_eq_none le_rfl]
    rfl
  · rw [List.getElem?_eq_none hlt.le, List.getElem?_eq_none]
    rw [List.length_append]
    exact hlt

theorem reported_step {s t : State ξ π ω κ} {a : Act ξ π ω κ} (h : Sound s) (ht : step s a = some t)
    {i : ℕ} {key : κ} {e : Entry} (he : held t.quotas i key = some e) :
    reported t.quotas i key = reported s.quotas i key + delivered s i key a := by
  cases a with
  | register o =>
    obtain rfl := Option.some.inj ht
    apply Eq.trans ?_ (add_zero _).symm
    exact reported_register s.quotas o i key
  | check i' x ps now =>
    obtain rfl := Option.some.inj ht
    apply Eq.trans ?_ (add_zero _).symm
    exact reported_modify fun p => reported_check p x ps now key
  | use i' x output now =>
    obtain rfl := Option.some.inj ht
    apply Eq.trans ?_ (add_zero _).symm
    exact reported_modify fun p => reported_use p x output now key
  | tick now =>
    apply Eq.trans ?_ (add_zero _).symm
    rcases tick_cases h ht with rfl | ⟨-, hquotas, -⟩
    · rfl
    · obtain ⟨p, hp, hentry⟩ := held_eq_some.mp he
      rw [hquotas, List.getElem?_map] at hp
      obtain ⟨p', hp', rfl⟩ := Option.map_eq_some_iff.mp hp
      rw [reported, reported, hquotas, List.getElem?_map, hp']
      exact reported_flush hentry
  | answered c debts now =>
    simp only [step] at ht
    split at ht
    · rename_i batch hc
      split_ifs at ht with hlength
      obtain rfl := Option.some.inj ht
      have hfst : (batch.zip debts).map Prod.fst = batch := List.map_fst_zip hlength.ge
      have hplaces : ∀ r ∈ batch.zip debts, r.1.quotas < s.quotas.length := by
        intro r hr
        have hmem : r.1 ∈ batch := hfst ▸ List.mem_map_of_mem hr
        obtain ⟨e, hheld, -⟩ := (h.metering hc).2.2.held r.1 hmem
        obtain ⟨p, hp, -⟩ := held_eq_some.mp hheld
        exact (List.getElem?_eq_some_iff.mp hp).1
      have hfold := reported_foldl hplaces now i key
      rw [hfst] at hfold
      simp only [delivered, hc]
      exact hfold
    · cases ht
  | refused c | finished c =>
    simp only [step] at ht
    split at ht
    · obtain rfl := Option.some.inj ht
      exact (add_zero _).symm
    · cases ht

structure Once (s : State ξ π ω κ) : Prop where
  single : s.calls.length ≤ 1
  /-- What was reported of a key and what is held of it come to what was charged to it, to within what
  their sums round. -/
  accounted : ∀ p ∈ s.quotas, ∀ key e, p.2.entry key = some e →
    |Event.totalCharged key p.2.log - Event.totalReported key p.2.log - e.debt| ≤
        Event.slack (Event.life key p.2.log) ∧
      (Event.Exact (Event.life key p.2.log) →
        Event.totalReported key p.2.log + e.debt = Event.totalCharged key p.2.log)
  counted : ∀ a t i key e, step s a = some t → held t.quotas i key = some e →
    reported t.quotas i key = reported s.quotas i key + delivered s i key a
  dropped : ∀ a t i key e, step s a = some t → held s.quotas i key = some e → held t.quotas i key = none →
    e.debt < 1 ∧ ∀ batch, .metering batch ∈ s.calls → ∀ r ∈ batch, (r.quotas, r.key) ≠ (i, key)
  /-- A report is of what is held, rounded. -/
  reports : ∀ a t batch, step s a = some t → .metering batch ∈ t.calls → .metering batch ∈ s.calls ∨
    (batch.map fun r => (r.quotas, r.key)).Nodup ∧ ∀ r ∈ batch, ∃ p e, s.quotas[r.quotas]? = some p ∧
      p.2.entry r.key = some e ∧ r.delta = round e.debt
  bounded : ∀ p ∈ s.quotas, ∀ key e, p.2.entry key = some e → Event.totalReported key p.2.log ≤
    Event.totalCharged key p.2.log + 1 / 2 + Event.slack (Event.life key p.2.log)
  refused : ∀ c t, step s (.refused c) = some t → t.quotas = s.quotas

theorem debt_lt_one {e : Entry} {now : ℚ} (h : e.quiet now = true) : e.debt < 1 := by
  simp only [Entry.quiet, Bool.and_eq_true, decide_eq_true_eq] at h
  have hround : (e.delta : ℚ) ≤ 0 := by exact_mod_cast h.1
  have hhalf := abs_le.mp (abs_sub_round e.debt)
  have hdelta : (e.delta : ℚ) = round e.debt := rfl
  linarith

theorem reported_once {s : State ξ π ω κ} {acts : List (Act ξ π ω κ)}
    (h : run step init acts = some s) : Once s := by
  have hs := run_sound h
  refine ⟨?_, fun p hp key e he => ?_, fun a t i key e ht he => reported_step hs ht he, ?_, ?_,
    fun p hp key e he => ?_, ?_⟩
  · rcases hs.flight with ⟨-, hcalls⟩ | ⟨-, hcalls | ⟨batch, hcalls, -⟩⟩ <;> rw [hcalls]
    · exact Nat.zero_le 1
    · exact le_rfl
    · exact le_rfl
  · rw [((hs.accounted p hp).some he).1]
    exact ⟨Event.abs_sub_owed _, Event.owed_of_exact⟩
  · intro a t i key e ht he hdropped
    obtain ⟨hcalls, now, hquiet⟩ := dropped_of_step hs ht he hdropped
    refine ⟨debt_lt_one hquiet, fun batch hbatch => ?_⟩
    rw [hcalls] at hbatch
    cases hbatch
  · intro a t batch ht hbatch
    refine (batch_of_step hs ht hbatch).imp_right ?_
    rintro ⟨now, rfl⟩
    refine ⟨nodup_flush s.quotas now, fun r hr => ?_⟩
    obtain ⟨p, e, hp, he, -, hdelta⟩ := mem_flush hr
    exact ⟨p, e, hp, he, hdelta⟩
  · obtain ⟨howed, hbound⟩ := (hs.accounted p hp).some he
    have hslack := (abs_le.mp (Event.abs_sub_owed (Event.life key p.2.log))).1
    rw [howed] at hbound
    simp only [Event.totalReported, Event.totalCharged]
    linarith
  · intro c t ht
    simp only [step] at ht
    split at ht
    · exact Option.some.inj ht ▸ rfl
    · cases ht

def charging : List (Act Unit Unit Unit Unit) :=
  [.register Quotas.two, .check 0 () [] 0, .tick 1, .check 0 () [] 2, .answered 0 [5000] 3, .finished 0,
    .tick 4, .refused 0, .finished 0, .tick 5]

theorem reported_once_charging : ∃ s, run step init charging = some s ∧ Once s := by
  have hsome : (run step init charging).isSome = true := by decide +kernel
  obtain ⟨s, hs⟩ := Option.isSome_iff_exists.mp hsome
  exact ⟨s, hs, reported_once hs⟩

def seven : Options Unit Unit Unit Unit where
  get := fun _ _ => some ()
  matched := fun _ _ => true
  requests := 7
  interval := 1000
  conditional := false
  requests_pos := Nat.succ_pos 6
  interval_pos := Nat.succ_pos 999

def thrice : List (Act Unit Unit Unit Unit) :=
  [.register seven, .check 0 () [] 0, .check 0 () [] 0, .check 0 () [] 0]

/-- Three sevenths of a second are not what is held of them. -/
theorem debt_rounds : ∃ s p e, run step init thrice = some s ∧ p ∈ s.quotas ∧ p.2.entry () = some e ∧
    Event.totalReported () p.2.log + e.debt ≠ Event.totalCharged () p.2.log := by
  have hsome : ((run step init thrice).bind fun s => s.quotas.head?.bind fun p =>
      (p.2.entry ()).bind fun e =>
        if Event.totalReported () p.2.log + e.debt ≠ Event.totalCharged () p.2.log then some () else none) =
      some () := by decide +kernel
  obtain ⟨s, hs, hhead⟩ := Option.bind_eq_some_iff.mp hsome
  obtain ⟨p, hp, hentry⟩ := Option.bind_eq_some_iff.mp hhead
  obtain ⟨e, he, hne⟩ := Option.bind_eq_some_iff.mp hentry
  split_ifs at hne with hsum
  exact ⟨s, p, e, hs, List.mem_of_mem_head? hp, he, hsum⟩

end Sync
end Toa.Throttle
