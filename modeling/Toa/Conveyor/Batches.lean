import Mathlib.Data.List.Basic
import Toa.Lib.Run

/-! The conveyor: units are batched while the processor has an earlier batch, and what it returns
settles the promises of the batch. What a run of `#process` still holds while it awaits the
processor are the units and the promises it copied. -/

namespace Toa.Batching
universe u v
variable {U : Type u} {R : Type v}

structure Batch (U : Type u) where
  units : List U
  promises : List ℕ
deriving DecidableEq

/-- What the processor's promise is fulfilled with: `nothing` is `undefined` or `null`. -/
inductive Results (R : Type v)
  | array (results : List R)
  | value (result : R)
  | nothing
deriving DecidableEq

inductive Outcome (R : Type v)
  | fulfilled (results : Results R)
  | rejected
deriving DecidableEq

inductive Settled (R : Type v)
  | resolved (value : Option R)
  | rejected
deriving DecidableEq

/-- The fields of the conveyor and its runs of `#process`, and what has happened so far: a promise
is the number of the unit it was made for. -/
structure Conveyor (U : Type u) (R : Type v) where
  promises : List ℕ
  batch : List U
  busy : Bool
  awaiting : List (Batch U)
  submitted : List U
  handed : List (List U)
  done : List (Batch U × Outcome R)
  settled : List (ℕ × Settled R)
  raised : ℕ
deriving DecidableEq

namespace Conveyor

def new : Conveyor U R :=
  { promises := [], batch := [], busy := false, awaiting := [], submitted := [], handed := [],
    done := [], settled := [], raised := 0 }

/-- `#process` up to where it awaits the processor. -/
def process (c : Conveyor U R) : Conveyor U R :=
  { c with
    promises := []
    batch := []
    busy := true
    awaiting := c.awaiting ++ [⟨c.batch, c.promises⟩]
    handed := c.handed ++ [c.batch] }

/-- `#promise` -/
def promise (c : Conveyor U R) (unit : U) : Conveyor U R :=
  { c with
    promises := c.promises ++ [c.submitted.length]
    batch := c.batch ++ [unit]
    submitted := c.submitted ++ [unit] }

/-- `process` of a unit. -/
def submit (c : Conveyor U R) (unit : U) : Conveyor U R :=
  if (c.promise unit).busy then c.promise unit else (c.promise unit).process

end Conveyor

/-- `result ?? results[i]`, which raises where there is nothing to read. -/
def Results.at : Results R → ℕ → Option (Option R)
  | .array results, i => some results[i]?
  | .value result, _ => some (some result)
  | .nothing, _ => none

def resolve (results : Results R) : ℕ → List ℕ → List (ℕ × Settled R) × Bool
  | _, [] => ([], true)
  | i, promise :: promises =>
    match results.at i with
    | none => ([], false)
    | some value =>
      let rest := resolve results (i + 1) promises
      ((promise, .resolved value) :: rest.1, rest.2)

def reject (promises : List ℕ) : List (ℕ × Settled R) := promises.map (·, .rejected)

def Results.Mismatched (promises : List ℕ) : Results R → Prop
  | .array results => results.length ≠ promises.length
  | _ => False

instance (promises : List ℕ) : DecidablePred (@Results.Mismatched R promises)
  | .array results => inferInstanceAs (Decidable (results.length ≠ promises.length))
  | .value _ => isFalse id
  | .nothing => isFalse id

namespace Conveyor

/-- `#process` once the promises of its batch are settled. -/
def next (c : Conveyor U R) (settled : List (ℕ × Settled R)) : Conveyor U R :=
  if 0 < c.batch.length then { c with settled := c.settled ++ settled, busy := false }.process
  else { c with settled := c.settled ++ settled, busy := false }

/-- `#process` from where it awaits the processor: what raises there leaves it at once. -/
def resume (c : Conveyor U R) (batch : Batch U) (outcome : Outcome R) : Conveyor U R :=
  match outcome with
  | .rejected => { c with raised := c.raised + 1 }
  | .fulfilled results =>
    if results.Mismatched batch.promises then c.next (reject batch.promises)
    else
      let resolved := resolve results 0 batch.promises
      if resolved.2 then c.next resolved.1
      else { c with settled := c.settled ++ resolved.1, raised := c.raised + 1 }

end Conveyor

inductive Act (U : Type u) (R : Type v)
  | submit (unit : U)
  | settle (i : ℕ) (outcome : Outcome R)
deriving DecidableEq

/-- A unit is submitted, or the processor is done with a batch it was handed. -/
def step (c : Conveyor U R) : Act U R → Option (Conveyor U R)
  | .submit unit => some (c.submit unit)
  | .settle i outcome =>
    c.awaiting[i]?.map fun batch =>
      { c with
        awaiting := c.awaiting.eraseIdx i
        done := c.done ++ [(batch, outcome)] }.resume batch outcome

def Own (size i : ℕ) : Outcome R → Settled R → Prop
  | .fulfilled (.array results), settled =>
    if results.length = size then ∃ result, results[i]? = some result ∧
      settled = .resolved (some result)
    else settled = .rejected
  | .fulfilled (.value result), settled => settled = .resolved (some result)
  | .fulfilled .nothing, settled => settled = .resolved none ∨ settled = .rejected
  | .rejected, settled => settled = .rejected

/-- Nothing is lost: units are handed in their order, one batch after the other and none left
waiting; promises settle in the same order, all of a batch once it is done, each with its own. -/
structure Lossless (c : Conveyor U R) : Prop where
  handed : c.handed.flatten ++ c.batch = c.submitted
  alone : c.awaiting.length ≤ 1
  taken : c.awaiting = [] → c.batch = []
  settled : c.settled.map Prod.fst ++ (c.awaiting.flatMap Batch.promises ++ c.promises) =
    List.range c.submitted.length
  done : ∀ d ∈ c.done, ∀ promise ∈ d.1.promises, promise ∈ c.settled.map Prod.fst
  own : ∀ s ∈ c.settled, ∃ d ∈ c.done, ∃ i unit, d.1.promises[i]? = some s.1 ∧
    d.1.units[i]? = some unit ∧ c.submitted[s.1]? = some unit ∧ Own d.1.units.length i d.2 s.2

def Answered : Conveyor U R → Act U R → Prop
  | _, .submit _ => True
  | _, .settle _ (.fulfilled (.array _)) => True
  | _, .settle _ (.fulfilled (.value _)) => True
  | _, .settle _ (.fulfilled .nothing) => False
  | _, .settle _ .rejected => False

/-- Whatever the processor does, what it is handed is in order and one batch after the other. -/
structure Ordered (c : Conveyor U R) : Prop where
  handed : c.handed.flatten ++ c.batch = c.submitted
  alone : c.awaiting.length ≤ 1
  busy : c.awaiting ≠ [] → c.busy = true

theorem ordered_process {c : Conveyor U R} (hawaiting : c.awaiting = [])
    (hhanded : c.handed.flatten ++ c.batch = c.submitted) : Ordered c.process := by
  refine ⟨?_, ?_, fun _ => rfl⟩
  · have hflat : (c.handed ++ [c.batch]).flatten ++ [] = c.handed.flatten ++ c.batch := by simp
    exact hflat.trans hhanded
  · unfold Conveyor.process
    rw [hawaiting]
    exact Nat.le_refl 1

theorem ordered_resume {c : Conveyor U R} (hawaiting : c.awaiting = [])
    (hhanded : c.handed.flatten ++ c.batch = c.submitted) (b : Batch U) (outcome : Outcome R) :
    Ordered (c.resume b outcome) := by
  have halone : c.awaiting.length ≤ 1 := by
    rw [hawaiting]
    exact Nat.zero_le 1
  have hnext : ∀ settled, Ordered (c.next settled) := by
    intro settled
    unfold Conveyor.next
    split_ifs
    · exact ordered_process hawaiting hhanded
    · exact ⟨hhanded, halone, fun h => absurd hawaiting h⟩
  unfold Conveyor.resume
  cases outcome with
  | rejected => exact ⟨hhanded, halone, fun h => absurd hawaiting h⟩
  | fulfilled results =>
    simp only
    split_ifs
    · exact hnext _
    · exact hnext _
    · exact ⟨hhanded, halone, fun h => absurd hawaiting h⟩

theorem ordered_step {c c' : Conveyor U R} {a : Act U R} (h : Ordered c)
    (hstep : step c a = some c') : Ordered c' := by
  cases a with
  | submit unit =>
    obtain rfl := Option.some.inj hstep
    have hhanded : (c.promise unit).handed.flatten ++ (c.promise unit).batch =
        (c.promise unit).submitted := by
      unfold Conveyor.promise
      rw [← h.handed]
      exact (List.append_assoc ..).symm
    unfold Conveyor.submit
    split_ifs with hbusy
    · exact ⟨hhanded, h.alone, fun _ => hbusy⟩
    · refine ordered_process ?_ hhanded
      by_contra hne
      exact hbusy (h.busy hne)
  | settle i outcome =>
    obtain ⟨b, hb, rfl⟩ := Option.map_eq_some_iff.mp hstep
    obtain ⟨hlt, -⟩ := List.getElem?_eq_some_iff.mp hb
    have halone := h.alone
    have herase := List.length_eraseIdx_of_lt hlt
    have hnil : c.awaiting.eraseIdx i = [] := List.length_eq_zero_iff.mp (by omega)
    exact @ordered_resume U R { c with
      awaiting := c.awaiting.eraseIdx i, done := c.done ++ [(b, outcome)] } hnil h.handed b outcome

theorem ordered_run {as : List (Act U R)} {c : Conveyor U R}
    (hrun : Run.run step Conveyor.new as = some c) : Ordered c := by
  have hnew : Ordered (Conveyor.new : Conveyor U R) :=
    ⟨rfl, Nat.zero_le 1, fun h => absurd rfl h⟩
  exact Run.run_invariant_all (fun _ _ _ => ordered_step) hnew hrun

def Numbered (submitted : List U) (b : Batch U) : Prop :=
  b.promises.map (submitted[·]?) = b.units.map some

theorem Numbered.length_eq {submitted : List U} {b : Batch U} (h : Numbered submitted b) :
    b.units.length = b.promises.length := by
  have hlength := congrArg List.length h
  rw [List.length_map, List.length_map] at hlength
  exact hlength.symm

theorem Numbered.unit {submitted : List U} {b : Batch U} (h : Numbered submitted b) {i promise : ℕ}
    (hi : b.promises[i]? = some promise) :
    ∃ unit, b.units[i]? = some unit ∧ submitted[promise]? = some unit := by
  have hget := congrArg (·[i]?) h
  simp only [List.getElem?_map, hi, Option.map_some] at hget
  obtain ⟨unit, hunit, hsome⟩ := Option.map_eq_some_iff.mp hget.symm
  exact ⟨unit, hunit, hsome.symm⟩

theorem getElem?_concat {submitted : List U} {promise : ℕ} {unit : U}
    (h : submitted[promise]? = some unit) (more : U) :
    (submitted ++ [more])[promise]? = some unit := by
  obtain ⟨hlt, -⟩ := List.getElem?_eq_some_iff.mp h
  rw [List.getElem?_append_left hlt, h]

theorem Numbered.concat {submitted : List U} {b : Batch U} (h : Numbered submitted b) (unit : U) :
    Numbered (submitted ++ [unit]) b := by
  unfold Numbered at h ⊢
  rw [← h]
  refine List.map_congr_left fun promise hpromise => ?_
  obtain ⟨i, hi⟩ := List.getElem?_of_mem hpromise
  obtain ⟨u, -, hu⟩ := Numbered.unit h hi
  rw [hu, getElem?_concat hu]

theorem Numbered.submit {submitted : List U} {units : List U} {promises : List ℕ}
    (h : Numbered submitted ⟨units, promises⟩) (unit : U) :
    Numbered (submitted ++ [unit]) ⟨units ++ [unit], promises ++ [submitted.length]⟩ := by
  have hconcat := h.concat unit
  unfold Numbered at hconcat ⊢
  simp only at hconcat ⊢
  rw [List.map_append, List.map_append, hconcat]
  simp

theorem resolve_spec {results : Results R} (hresults : results ≠ .nothing) (i : ℕ)
    (promises : List ℕ) :
    (resolve results i promises).2 = true ∧
      (resolve results i promises).1.map Prod.fst = promises ∧
      ∀ s ∈ (resolve results i promises).1, ∃ j value, promises[j]? = some s.1 ∧
        results.at (i + j) = some value ∧ s.2 = .resolved value := by
  induction promises generalizing i with
  | nil =>
    refine ⟨rfl, rfl, fun s hs => ?_⟩
    cases hs
  | cons promise promises ih =>
    obtain ⟨value, hvalue⟩ : ∃ value, results.at i = some value := by
      cases results with
      | array results => exact ⟨_, rfl⟩
      | value result => exact ⟨_, rfl⟩
      | nothing => exact absurd rfl hresults
    obtain ⟨hend, hfst, hown⟩ := ih (i + 1)
    unfold resolve
    rw [hvalue]
    refine ⟨hend, congrArg (promise :: ·) hfst, fun s hs => ?_⟩
    rcases List.mem_cons.mp hs with rfl | hs
    · exact ⟨0, value, rfl, hvalue, rfl⟩
    · obtain ⟨j, w, hj, hw, hs⟩ := hown s hs
      refine ⟨j + 1, w, hj, ?_, hs⟩
      rwa [Nat.add_right_comm, Nat.add_assoc] at hw

theorem reject_spec (promises : List ℕ) :
    (reject promises : List (ℕ × Settled R)).map Prod.fst = promises ∧
      ∀ s ∈ (reject promises : List (ℕ × Settled R)), ∃ j : ℕ, promises[j]? = some s.1 ∧
        s.2 = .rejected := by
  unfold reject
  refine ⟨by rw [List.map_map]; exact List.map_id _, fun s hs => ?_⟩
  obtain ⟨promise, hpromise, rfl⟩ := List.mem_map.mp hs
  obtain ⟨j, hj⟩ := List.getElem?_of_mem hpromise
  exact ⟨j, hj, rfl⟩

/-- What settles a batch: its promises in their order, each with its own. -/
structure Settles (b : Batch U) (outcome : Outcome R) (settled : List (ℕ × Settled R)) : Prop where
  promises : settled.map Prod.fst = b.promises
  own : ∀ s ∈ settled, ∃ i, b.promises[i]? = some s.1 ∧ Own b.units.length i outcome s.2

structure Between (c : Conveyor U R) : Prop where
  awaiting : c.awaiting = []
  handed : c.handed.flatten ++ c.batch = c.submitted
  settled : c.settled.map Prod.fst ++ c.promises = List.range c.submitted.length
  done : ∀ d ∈ c.done, ∀ promise ∈ d.1.promises, promise ∈ c.settled.map Prod.fst
  own : ∀ s ∈ c.settled, ∃ d ∈ c.done, ∃ i unit, d.1.promises[i]? = some s.1 ∧
    d.1.units[i]? = some unit ∧ c.submitted[s.1]? = some unit ∧ Own d.1.units.length i d.2 s.2
  waiting : Numbered c.submitted ⟨c.batch, c.promises⟩

structure Inv (c : Conveyor U R) : Prop extends Lossless c where
  busy : c.busy = true ↔ c.awaiting ≠ []
  numbered : ∀ b ∈ c.awaiting, Numbered c.submitted b
  waiting : Numbered c.submitted ⟨c.batch, c.promises⟩

theorem Between.process {c : Conveyor U R} (h : Between c) : Inv c.process := by
  have hawaiting : c.process.awaiting = [⟨c.batch, c.promises⟩] := by
    unfold Conveyor.process
    rw [h.awaiting]
    rfl
  refine ⟨⟨?_, ?_, ?_, ?_, h.done, h.own⟩, ?_, ?_, rfl⟩
  · have hflat : (c.handed ++ [c.batch]).flatten ++ [] = c.handed.flatten ++ c.batch := by simp
    exact hflat.trans h.handed
  · rw [hawaiting]
    exact Nat.le_refl 1
  · exact fun _ => rfl
  · have hsettled := h.settled
    rw [hawaiting]
    simpa [Conveyor.process] using hsettled
  · rw [hawaiting]
    exact iff_of_true rfl (List.cons_ne_nil _ _)
  · rw [hawaiting]
    exact List.forall_mem_singleton.mpr h.waiting

theorem Between.rest {c : Conveyor U R} (h : Between c) (hbatch : c.batch = [])
    (hbusy : c.busy = false) : Inv c := by
  have hawaiting := h.awaiting
  refine ⟨⟨h.handed, ?_, fun _ => hbatch, ?_, h.done, h.own⟩, ?_, ?_, h.waiting⟩
  · rw [hawaiting]
    exact Nat.zero_le 1
  · rw [hawaiting]
    exact h.settled
  · rw [hawaiting, hbusy]
    simp
  · rw [hawaiting]
    simp

theorem Inv.submit {c : Conveyor U R} (h : Inv c) (unit : U) : Inv (c.submit unit) := by
  have hwaiting := h.waiting.submit unit
  have hhanded : c.handed.flatten ++ (c.batch ++ [unit]) = c.submitted ++ [unit] := by
    rw [← List.append_assoc, h.handed]
  have hown : ∀ s ∈ c.settled, ∃ d ∈ c.done, ∃ i u, d.1.promises[i]? = some s.1 ∧
      d.1.units[i]? = some u ∧ (c.submitted ++ [unit])[s.1]? = some u ∧
      Own d.1.units.length i d.2 s.2 := by
    intro s hs
    obtain ⟨d, hd, i, u, hi, hu, hsub, hown⟩ := h.own s hs
    exact ⟨d, hd, i, u, hi, hu, getElem?_concat hsub unit, hown⟩
  have hrange : List.range (c.submitted ++ [unit]).length =
      List.range c.submitted.length ++ [c.submitted.length] := by
    rw [List.length_append, List.length_singleton, List.range_succ]
  unfold Conveyor.submit
  split_ifs with hbusy
  · have hawaiting : c.awaiting ≠ [] := h.busy.mp hbusy
    refine ⟨⟨hhanded, h.alone, fun hnil => absurd hnil hawaiting, ?_, h.done, hown⟩, h.busy,
      fun b hb => (h.numbered b hb).concat unit, hwaiting⟩
    unfold Conveyor.promise
    simp only
    rw [hrange, ← h.settled]
    simp only [List.append_assoc]
  · have hawaiting : c.awaiting = [] := by
      by_contra hne
      exact hbusy (h.busy.mpr hne)
    refine Between.process ⟨hawaiting, hhanded, ?_, h.done, hown, hwaiting⟩
    have hsettled := h.settled
    rw [hawaiting] at hsettled
    unfold Conveyor.promise
    simp only
    rw [hrange, ← hsettled]
    simp

theorem Inv.next {c : Conveyor U R} (h : Inv c) {b : Batch U} (hb : c.awaiting = [b])
    {outcome : Outcome R} {settled : List (ℕ × Settled R)} (hsettles : Settles b outcome settled) :
    Inv (Conveyor.next { c with awaiting := [], done := c.done ++ [(b, outcome)] } settled) := by
  have hbetween : Between { c with
      awaiting := [], done := c.done ++ [(b, outcome)], settled := c.settled ++ settled,
      busy := false } := by
    refine ⟨rfl, h.handed, ?settled, ?done, ?own, h.waiting⟩
    case settled =>
      have hsettled := h.settled
      rw [hb] at hsettled
      simp only [List.map_append, hsettles.promises, List.append_assoc]
      simpa using hsettled
    case done =>
      intro d hd promise hpromise
      rw [List.map_append]
      rcases List.mem_append.mp hd with hd | hd
      · exact List.mem_append_left _ (h.done d hd promise hpromise)
      · obtain rfl := List.mem_singleton.mp hd
        exact List.mem_append_right _ (hsettles.promises ▸ hpromise)
    case own =>
      intro s hs
      rcases List.mem_append.mp hs with hs | hs
      · obtain ⟨d, hd, hrest⟩ := h.own s hs
        exact ⟨d, List.mem_append_left _ hd, hrest⟩
      · obtain ⟨i, hi, hown⟩ := hsettles.own s hs
        have hnumbered := h.numbered b (hb ▸ List.mem_singleton_self b)
        obtain ⟨unit, hunit, hsub⟩ := hnumbered.unit hi
        exact ⟨(b, outcome), List.mem_append_right _ (List.mem_singleton_self _), i, unit, hi,
          hunit, hsub, hown⟩
  unfold Conveyor.next
  split_ifs with hbatch
  · exact hbetween.process
  · exact hbetween.rest (List.length_eq_zero_iff.mp (Nat.eq_zero_of_not_pos hbatch)) rfl

theorem settles_reject {b : Batch U} (hb : b.units.length = b.promises.length) {results : Results R}
    (h : results.Mismatched b.promises) :
    Settles b (.fulfilled results) (reject b.promises) := by
  obtain ⟨hfst, hown⟩ := @reject_spec R b.promises
  refine ⟨hfst, fun s hs => ?_⟩
  obtain ⟨j, hj, hrejected⟩ := hown s hs
  refine ⟨j, hj, ?_⟩
  cases results with
  | array results =>
    have hne : results.length ≠ b.units.length := fun heq => h (heq.trans hb)
    simp only [Own, if_neg hne]
    exact hrejected
  | value result => exact h.elim
  | nothing => exact h.elim

theorem settles_resolve {b : Batch U} (hb : b.units.length = b.promises.length)
    {results : Results R} (hresults : results ≠ .nothing) (h : ¬ results.Mismatched b.promises) :
    Settles b (.fulfilled results) (resolve results 0 b.promises).1 := by
  obtain ⟨-, hfst, hown⟩ := resolve_spec hresults 0 b.promises
  refine ⟨hfst, fun s hs => ?_⟩
  obtain ⟨j, value, hj, hvalue, hresolved⟩ := hown s hs
  refine ⟨j, hj, ?_⟩
  rw [Nat.zero_add] at hvalue
  cases results with
  | array results =>
    have hlength : results.length = b.promises.length := not_not.mp h
    have hlt : j < results.length := hlength ▸ (List.getElem?_eq_some_iff.mp hj).1
    have hget : value = some results[j] :=
      (Option.some.inj hvalue).symm.trans (List.getElem?_eq_getElem hlt)
    simp only [Own, if_pos (hlength.trans hb.symm)]
    exact ⟨results[j], List.getElem?_eq_getElem hlt, hresolved.trans (congrArg _ hget)⟩
  | value result => exact hresolved.trans (congrArg _ (Option.some.inj hvalue).symm)
  | nothing => exact absurd rfl hresults

theorem Inv.settle {c : Conveyor U R} (h : Inv c) {b : Batch U} (hb : c.awaiting = [b])
    {results : Results R} (hresults : results ≠ .nothing) :
    Inv (Conveyor.resume { c with
      awaiting := [], done := c.done ++ [(b, .fulfilled results)] } b (.fulfilled results)) := by
  have hlength : b.units.length = b.promises.length :=
    (h.numbered b (hb ▸ List.mem_singleton_self b)).length_eq
  unfold Conveyor.resume
  simp only
  split_ifs with hmismatched hend
  · exact h.next hb (settles_reject hlength hmismatched)
  · exact h.next hb (settles_resolve hlength hresults hmismatched)
  · exact absurd (resolve_spec hresults 0 b.promises).1 hend

theorem inv_step {c c' : Conveyor U R} {a : Act U R} (h : Inv c) (ha : Answered c a)
    (hstep : step c a = some c') : Inv c' := by
  cases a with
  | submit unit =>
    obtain rfl := Option.some.inj hstep
    exact h.submit unit
  | settle i outcome =>
    obtain ⟨b, hb, rfl⟩ := Option.map_eq_some_iff.mp hstep
    have hone : c.awaiting = [b] ∧ i = 0 := by
      have halone := h.alone
      obtain ⟨hlt, hget⟩ := List.getElem?_eq_some_iff.mp hb
      have hi : i = 0 := by omega
      subst hi
      obtain ⟨b', hb'⟩ := List.length_eq_one_iff.mp (Nat.le_antisymm halone hlt)
      simp only [hb', List.getElem_cons_zero] at hget
      exact ⟨hget ▸ hb', rfl⟩
    obtain ⟨hawaiting, rfl⟩ := hone
    have herase : c.awaiting.eraseIdx 0 = [] := by rw [hawaiting]; rfl
    rw [herase]
    cases outcome with
    | rejected => exact ha.elim
    | fulfilled results =>
      refine h.settle hawaiting fun hnothing => ?_
      subst hnothing
      exact ha

theorem inv_new : Inv (Conveyor.new : Conveyor U R) := by
  refine Between.rest ⟨rfl, rfl, rfl, ?_, ?_, rfl⟩ rfl rfl
  · intro d hd
    cases hd
  · intro s hs
    cases hs

/-- Where every batch is answered with an array or a value nothing is lost. -/
theorem lossless_of_answered {as : List (Act U R)} {c : Conveyor U R}
    (hok : Run.Along step Answered Conveyor.new as) (hrun : Run.run step Conveyor.new as = some c) :
    Lossless c :=
  (Run.run_invariant (fun _ _ _ => inv_step) inv_new hok hrun).toLossless

theorem lossless_of_answered_two : ∃ c : Conveyor ℕ ℕ,
    Run.run step Conveyor.new [.submit 7, .submit 8, .submit 9, .settle 0 (.fulfilled (.value 1)),
      .settle 0 (.fulfilled (.array [2, 3]))] = some c ∧ Lossless c ∧
    c.settled = [(0, .resolved (some 1)), (1, .resolved (some 2)), (2, .resolved (some 3))] := by
  have hok : Run.Along step Answered (Conveyor.new : Conveyor ℕ ℕ)
      [.submit 7, .submit 8, .submit 9, .settle 0 (.fulfilled (.value 1)),
        .settle 0 (.fulfilled (.array [2, 3]))] := by
    simp [Run.Along, Answered]
  exact ⟨_, rfl, lossless_of_answered hok rfl, rfl⟩

/-- A batch that the processor rejects keeps its promises and whatever comes after it. -/
theorem rejected_batch_loses : ∃ c : Conveyor ℕ ℕ,
    Run.run step Conveyor.new [.submit 7, .settle 0 .rejected, .submit 8] = some c ∧
    ¬ Lossless c := by
  refine ⟨_, rfl, fun h => ?_⟩
  have hbatch := h.taken rfl
  cases hbatch

end Toa.Batching
