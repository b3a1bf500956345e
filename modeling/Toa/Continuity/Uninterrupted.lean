import Mathlib.Data.Char
import Mathlib.Data.List.Lex
import Toa.Continuity.Answers

/-! What an operation is given over the attempts of a run is what one attempt would be given that nothing
interrupts, and that recalls nothing: it is answered what was made for what it asks. -/

set_option linter.unusedSectionVars false

namespace Toa.Continuity
open Toa.Run

variable {ι κ ν : Type*} [DecidableEq ι] [LinearOrder κ]
variable {hashing : Hashing κ} {id : List Char} {window : ℕ} {operation : Operation κ ν}

/-! ## Answers come after asks -/

structure Attempt.Ordered (t : Attempt κ ν) : Prop where
  asked : ∀ key v, .answered key v ∈ t.history → ∃ call, .asked key call ∈ t.history
  waiting : ∀ key p v, t.pending key = some p → .answered key v ∉ t.history

namespace Attempt.Ordered
variable {t : Attempt κ ν}

theorem begin (journal : List (Record κ ν)) : (Attempt.begin journal).Ordered :=
  ⟨fun _ _ h => (nomatch h), fun _ _ _ h => (nomatch h)⟩

theorem stored (h : t.Ordered) (key : κ) (kept : ν) : (t.stored key kept).Ordered := by
  refine ⟨t.stored_history key kept ▸ h.asked, fun key' p v hp => ?_⟩
  rw [t.stored_history]
  simp only [Attempt.stored] at hp
  split at hp
  · rename_i ask hpending
    by_cases hkey : key' = key
    · exact h.waiting key' _ v (hkey ▸ hpending)
    · exact h.waiting key' p v ((Function.update_of_ne hkey _ _).symm.trans hp)
  · exact h.waiting key' p v hp

theorem ended (h : t.Ordered) {t' : Attempt κ ν} {key : κ} {event : Event κ ν}
    (hpending : t'.pending = Function.update t.pending key none)
    (hhistory : t'.history = t.history ++ [event])
    (hevent : ∀ key' v, event = .answered key' v → key' = key ∧ ∃ call, .asked key call ∈ t.history) :
    t'.Ordered where
  asked := by
    intro key' v hv
    rw [hhistory] at hv ⊢
    rcases List.mem_append.mp hv with hv | hv
    · obtain ⟨call, hcall⟩ := h.asked key' v hv
      exact ⟨call, List.mem_append_left _ hcall⟩
    · obtain ⟨rfl, call, hcall⟩ := hevent key' v (List.mem_singleton.mp hv).symm
      exact ⟨call, List.mem_append_left _ hcall⟩
  waiting := by
    intro key' p v hp hv
    rw [hpending] at hp
    rw [hhistory] at hv
    have hne : key' ≠ key := by
      rintro rfl
      exact nomatch (Function.update_self key' none t.pending).symm.trans hp
    rcases List.mem_append.mp hv with hv | hv
    · exact h.waiting key' p v ((Function.update_of_ne hne _ _).symm.trans hp) hv
    · exact hne (hevent key' v (List.mem_singleton.mp hv).symm).1

theorem at_once (h : t.Ordered) (hcounted : t.Counted hashing id) {t' : Attempt κ ν} (call : Call) {v : ν}
    (hpending : t'.pending = t.pending)
    (hhistory : t'.history = t.history ++ [.asked (t.key hashing id call.ask) call] ++
      [.answered (t.key hashing id call.ask) v]) : t'.Ordered where
  asked := by
    intro key v' hv
    rw [hhistory] at hv ⊢
    rcases List.mem_append.mp hv with hv | hv
    · rcases List.mem_append.mp hv with hv | hv
      · obtain ⟨call', hcall'⟩ := h.asked key v' hv
        exact ⟨call', List.mem_append_left _ (List.mem_append_left _ hcall')⟩
      · exact nomatch List.mem_singleton.mp hv
    · obtain ⟨rfl, rfl⟩ := Event.answered.inj (List.mem_singleton.mp hv)
      exact ⟨call, List.mem_append_left _ (List.mem_append_right _ (List.mem_singleton_self _))⟩
  waiting := by
    intro key p v' hp hv
    rw [hpending] at hp
    rw [hhistory] at hv
    rcases List.mem_append.mp hv with hv | hv
    · rcases List.mem_append.mp hv with hv | hv
      · exact h.waiting key p v' hp hv
      · exact nomatch List.mem_singleton.mp hv
    · obtain ⟨rfl, rfl⟩ := Event.answered.inj (List.mem_singleton.mp hv)
      exact hcounted.fresh call.ask _ (hcounted.pending _ p hp)

theorem did {d : Moved κ ν} (h : t.Ordered) (hcounted : t.Counted hashing id)
    (hd : t.Did hashing id window operation d) : d.attempt.Ordered := by
  have hstage : ∀ {t' : Attempt κ ν} {key : κ} {p q : Pending κ ν}, t.pending key = some p →
      t'.pending = Function.update t.pending key (some q) → t'.history = t.history → t'.Ordered := by
    intro t' key p q hp hpending hhistory
    refine ⟨hhistory ▸ h.asked, fun key' p' v hp' => ?_⟩
    rw [hhistory]
    by_cases hkey : key' = key
    · exact h.waiting key' p v (hkey ▸ hp)
    · rw [hpending] at hp'
      exact h.waiting key' p' v ((Function.update_of_ne hkey _ _).symm.trans hp')
  have hstep : ∀ (ask : Ask) (stage : Stage κ ν), ((t.count hashing id (.step ask)).stage
      (t.key hashing id ask) (some ⟨ask, stage⟩)).Ordered := by
    refine fun ask stage => ⟨fun key v hv => ?_, fun key p v hp hv => ?_⟩
    · have hv := (List.mem_append.mp hv).resolve_right fun hv => nomatch List.mem_singleton.mp hv
      obtain ⟨call, hcall⟩ := h.asked key v hv
      exact ⟨call, List.mem_append_left _ hcall⟩
    · have hv := (List.mem_append.mp hv).resolve_right fun hv => nomatch List.mem_singleton.mp hv
      by_cases hkey : key = t.key hashing id ask
      · obtain ⟨call, hcall⟩ := h.asked key v hv
        exact hcounted.fresh ask call (hkey ▸ hcall)
      · exact h.waiting key p v ((Function.update_of_ne hkey _ _).symm.trans hp) hv
  cases hd with
  | @recalled ask kept => exact hstep ask (.kept kept)
  | @given member => exact h.at_once hcounted (.value member) rfl rfl
  | @asked ask => exact hstep ask (.settling t.writing)
  | @took member => exact h.at_once hcounted (.value member) rfl rfl
  | began hkey => exact hstage hkey rfl rfl
  | kept hkey => exact hstage hkey rfl rfl
  | @answered key p stored hkey =>
    refine h.ended rfl rfl fun key' v hevent => ?_
    exact ⟨(Event.answered.inj hevent).1.symm, .step p.ask, hcounted.pending key p hkey⟩
  | failed => exact h.ended rfl rfl fun key' v hevent => nomatch hevent
  | stopped => exact ⟨h.asked, h.waiting⟩

end Attempt.Ordered

/-! ## An attempt alone -/

section
variable {s : State ι κ ν} {a : ι} {w : Attempt κ ν}

theorem step_move (ha : s.attempts a = some w) (hlive : w.live = true) {m : Move κ ν} {d : Moved κ ν}
    (h : w.move hashing id window operation m = some d) :
    step hashing id window operation s (.move a m) = some (s.moved a d) := by
  simp only [step, ha, hlive, h, if_true, Option.map_some]

theorem State.moved_self (s : State ι κ ν) (a : ι) (d : Moved κ ν) :
    (s.moved a d).attempts a = some d.attempt := Function.update_self ..

variable (hashing id window operation) in
theorem step_land {m : Made ι κ ν} (hsent : s.sent = [m]) (hkey : find s.journal m.record.key = none)
    (ha : s.attempts m.attempt = some w) :
    ∃ u, step hashing id window operation s (.land 0) = some u ∧
      u.attempts m.attempt = some (w.stored m.record.key m.record.answer) ∧ u.sent = [] ∧
      u.journal = s.journal ++ [m.record] ∧ u.made = s.made := by
  have hrecord : Continuity.record s.journal m.record = (s.journal ++ [m.record], m.record.answer) := by
    rw [Continuity.record, hkey]
  refine ⟨s.landed 0 m, by simp only [step, hsent, List.getElem?_cons_zero, Option.map_some], ?_, ?_,
    ?_, rfl⟩
  · simp only [State.landed, Function.update_self, ha, Option.map_some, hrecord]
  · simp only [State.landed, hsent, List.eraseIdx_cons_zero]
  · simp only [State.landed, hrecord]

/-- What `u` is, of an attempt alone, once `key` was answered to `w` in `s`. -/
structure Settled (s u : State ι κ ν) (a : ι) (w w' : Attempt κ ν) (key : κ) (v : ν) (call : Call) :
    Prop where
  attempt : u.attempts a = some w'
  live : w'.live = true
  asked : w'.asked = w.asked
  writing : w'.writing = []
  steps : w'.steps = Function.update w.steps key (some v)
  sent : u.sent = []
  journal : ∃ r, u.journal = s.journal ++ [r] ∧ r.key = key
  made : ∃ r, u.made = s.made ++ [⟨a, call, r⟩] ∧ r.key = key ∧ r.answer = v

theorem run_answer {key : κ} {ask : Ask} (ha : s.attempts a = some w) (hlive : w.live = true)
    (hsent : s.sent = []) (hwriting : w.writing = [])
    (hpending : w.pending key = some ⟨ask, .settling []⟩) (hkey : find s.journal key = none) (v : ν) :
    ∃ u w', run (step hashing id window operation) s [.move a (.make key), .move a (.keep key v 0),
        .land 0, .move a (.answer key)] = some u ∧ Settled s u a w w' key v (.step ask) ∧
      w'.history = w.history ++ [.answered key v] ∧ w'.pending = Function.update w.pending key none := by
  let w₁ := w.stage key (some ⟨ask, .making⟩)
  let w₂ := (w₁.fixed window 0).stage key (some ⟨ask, .recording⟩)
  let r : Record κ ν := ⟨key, v, w₁.expiry window 0⟩
  have hmake : w.move hashing id window operation (.make key) = some ⟨w₁, [key], []⟩ := by
    simp only [Attempt.move, hpending, List.not_mem_nil, false_implies, implies_true, if_true, w₁]
  have hkeep : w₁.move hashing id window operation (.keep key v 0) =
      some ⟨w₂, [], [(.step ask, r)]⟩ := by
    simp only [Attempt.move, w₁, Attempt.stage, Function.update_self, w₂, r]
  let s₁ := s.moved a ⟨w₁, [key], []⟩
  let s₂ := s₁.moved a ⟨w₂, [], [(.step ask, r)]⟩
  have hsent₂ : s₂.sent = [⟨a, .step ask, r⟩] := by
    simp only [s₂, s₁, State.moved, hsent, List.map_nil, List.append_nil, List.map_cons, List.nil_append]
  obtain ⟨u, hland, hu, husent, hujournal, humade⟩ :=
    step_land hashing id window operation hsent₂ hkey (s₁.moved_self a _)
  let w₃ := w₂.stored key v
  have hrecording : w₂.pending key = some ⟨ask, .recording⟩ := Function.update_self ..
  have hw₃ : w₃ = { w₂ with
      writing := []
      pending := Function.update w₂.pending key (some ⟨ask, .recorded v⟩) } := by
    have hwritten : w₂.writing.filter (· ≠ key) = [] := by
      simp only [w₂, w₁, Attempt.stage, Attempt.fixed, hwriting, List.filter_nil]
    simp only [w₃, Attempt.stored, hrecording, hwritten, Attempt.stage]
  have hanswer : w₃.move hashing id window operation (.answer key) =
      some ⟨(w₃.answered key v).see (.answered key v), [], []⟩ := by
    simp only [Attempt.move, hw₃, Function.update_self, Option.bind_some, Stage.answer]
  refine ⟨u.moved a ⟨(w₃.answered key v).see (.answered key v), [], []⟩,
    (w₃.answered key v).see (.answered key v), ?_, ⟨u.moved_self a _, ?_, ?_, ?_, ?_, ?_, ?_, ?_⟩, ?_, ?_⟩
  · refine run_cons_eq_some.mpr ⟨s₁, step_move ha hlive hmake, ?_⟩
    refine run_cons_eq_some.mpr ⟨s₂, step_move (s.moved_self a _) hlive hkeep, ?_⟩
    refine run_cons_eq_some.mpr ⟨u, hland, ?_⟩
    refine run_cons_eq_some.mpr ⟨_, step_move hu ?_ hanswer, rfl⟩
    rw [show w₂.stored key v = w₃ from rfl, hw₃]
    exact hlive
  · simp only [Attempt.see, Attempt.answered, hw₃]
    exact hlive
  · simp only [Attempt.see, Attempt.answered, hw₃]
    rfl
  · simp only [Attempt.see, Attempt.answered, hw₃]
  · simp only [Attempt.see, Attempt.answered, hw₃]
    rfl
  · simp only [State.moved, husent, List.map_nil, List.append_nil]
  · exact ⟨r, hujournal, rfl⟩
  · refine ⟨r, ?_, rfl, rfl⟩
    simp only [State.moved, List.map_nil, List.append_nil, humade, s₂, s₁, List.map_cons]
  · simp only [Attempt.see, Attempt.answered, hw₃]
    rfl
  · simp only [Attempt.see, Attempt.answered, hw₃, Function.update_idem]
    simp only [w₂, w₁, Attempt.stage, Attempt.fixed, Function.update_idem]

theorem run_take {member : List Char} (ha : s.attempts a = some w) (hlive : w.live = true)
    (hsent : s.sent = []) (hwriting : w.writing = [])
    (hcall : operation w.history = some (.value member))
    (hfree : w.steps (w.key hashing id ⟨member, []⟩) = none)
    (hpending : w.pending (w.key hashing id ⟨member, []⟩) = none)
    (hkey : find s.journal (w.key hashing id ⟨member, []⟩) = none) (v : ν) :
    ∃ u w', run (step hashing id window operation) s [.move a (.take v 0), .land 0] = some u ∧
      Settled s u a (w.count hashing id (.value member)) w' (w.key hashing id ⟨member, []⟩) v
        (.value member) ∧
      w'.history = (w.count hashing id (.value member)).history ++
        [.answered (w.key hashing id ⟨member, []⟩) v] ∧ w'.pending = w.pending := by
  let key := w.key hashing id ⟨member, []⟩
  let r : Record κ ν := ⟨key, v, w.expiry window 0⟩
  let w₁ := (w.taken hashing id window member v 0).see (.answered key v)
  have htake : w.move hashing id window operation (.take v 0) =
      some ⟨w₁, [key], [(.value member, r)]⟩ := by
    simp only [Attempt.move, hcall, hfree, w₁, key, r]
  let s₁ := s.moved a ⟨w₁, [key], [(.value member, r)]⟩
  have hsent₁ : s₁.sent = [⟨a, .value member, r⟩] := by
    simp only [s₁, State.moved, hsent, List.map_cons, List.map_nil, List.nil_append]
  obtain ⟨u, hland, hu, husent, hujournal, humade⟩ :=
    step_land hashing id window operation hsent₁ hkey (s.moved_self a _)
  have hw₁ : w₁.stored key v = { w₁ with writing := [] } := by
    have hwritten : w₁.writing.filter (· ≠ key) = [] := by
      simp only [w₁, Attempt.see, Attempt.taken, Attempt.count, hwriting, key, ne_eq, decide_not,
        List.filter_cons, decide_true, Bool.not_true, Bool.false_eq_true, if_false, List.filter_nil]
    have hnone : w₁.pending key = none := hpending
    simp only [Attempt.stored, hnone, hwritten]
  refine ⟨u, { w₁ with writing := [] }, ?_, ⟨hw₁ ▸ hu, hlive, rfl, rfl, rfl, husent, ⟨r, hujournal, rfl⟩, ?_⟩,
    rfl, rfl⟩
  · exact run_cons_eq_some.mpr ⟨s₁, step_move ha hlive htake, run_cons_eq_some.mpr ⟨u, hland, rfl⟩⟩
  · refine ⟨r, ?_, rfl, rfl⟩
    simp only [humade, s₁, State.moved, List.map_cons, List.map_nil]

end

/-- `w`, alone in `s`, has seen what `t` has, and each of its steps waits where one of `t` does. -/
structure Alone (s : State ι κ ν) (a : ι) (t w : Attempt κ ν) : Prop where
  attempt : s.attempts a = some w
  live : w.live = true
  history : w.history = t.history
  asked : w.asked = t.asked
  writing : w.writing = []
  sent : s.sent = []
  waits : ∀ key p, t.pending key = some p → w.pending key = some ⟨p.ask, .settling []⟩
  made : ∀ m ∈ s.made, .asked m.record.key m.call ∈ w.history ∧
    .answered m.record.key m.record.answer ∈ w.history

namespace Alone
variable {s : State ι κ ν} {a : ι} {t w : Attempt κ ν}

theorem begin (a : ι) : Alone
    { (State.init : State ι κ ν) with attempts := Function.update (fun _ => none) a (some (.begin [])) }
    a (.begin []) (.begin []) where
  attempt := by simp only [Function.update_self]
  live := rfl
  history := rfl
  asked := rfl
  writing := rfl
  sent := rfl
  waits := fun _ _ h => nomatch h
  made := fun _ h => nomatch h

theorem key_eq (h : Alone s a t w) (ask : Ask) : w.key hashing id ask = t.key hashing id ask := by
  simp only [Attempt.key, h.asked]

theorem count_history (h : Alone s a t w) (call : Call) :
    (w.count hashing id call).history = (t.count hashing id call).history := by
  simp only [Attempt.count, h.history, h.key_eq]

variable (hashing id) in
theorem count_asked (h : Alone s a t w) (call : Call) :
    (w.count hashing id call).asked = (t.count hashing id call).asked := by
  simp only [Attempt.count, h.asked]

theorem unkept (h : Alone s a t w) (hs : s.Sound hashing id) {key : κ}
    (hkey : ∀ v, .answered key v ∉ w.history) : find s.journal key = none := by
  cases hfind : find s.journal key with
  | none => rfl
  | some r =>
    obtain ⟨hr, rfl⟩ := find_some hfind
    obtain ⟨m, hm, rfl⟩ := hs.journal r hr
    exact absurd (h.made m hm).2 (hkey _)

theorem unmade (h : Alone s a t w) (hs : s.Sound hashing id) (ask : Ask) :
    ∀ v, .answered (w.key hashing id ask) v ∉ w.history := by
  intro v hv
  obtain ⟨m, hm, hkey, -⟩ := (hs.given a w h.attempt).answered _ v hv
  exact (hs.counted a w h.attempt).fresh ask m.call (hkey ▸ (h.made m hm).1)

theorem free (h : Alone s a t w) (hs : s.Sound hashing id) (ask : Ask) :
    w.steps (w.key hashing id ask) = none := by
  cases hsteps : w.steps (w.key hashing id ask) with
  | none => rfl
  | some v =>
    obtain ⟨m, hm, hkey, -⟩ := (hs.given a w h.attempt).steps _ v hsteps
    exact absurd (hkey ▸ (h.made m hm).1) ((hs.counted a w h.attempt).fresh ask m.call)

theorem idle (h : Alone s a t w) (hs : s.Sound hashing id) (ask : Ask) :
    w.pending (w.key hashing id ask) = none := by
  cases hpending : w.pending (w.key hashing id ask) with
  | none => rfl
  | some p =>
    have hcounted := hs.counted a w h.attempt
    exact absurd (hcounted.pending _ p hpending) (hcounted.fresh ask _)

theorem settled (h : Alone s a t w) {u : State ι κ ν} {w₀ w' t' : Attempt κ ν} {key : κ} {v : ν}
    {call : Call} (hu : Settled s u a w₀ w' key v call) (hw : w.history <+: w'.history)
    (hanswered : .answered key v ∈ w'.history) (hcall : .asked key call ∈ w'.history)
    (hasked : w₀.asked = t'.asked) (hhistory : w'.history = t'.history)
    (hwaits : ∀ key p, t'.pending key = some p → w'.pending key = some ⟨p.ask, .settling []⟩) :
    Alone u a t' w' where
  attempt := hu.attempt
  live := hu.live
  history := hhistory
  asked := hu.asked.trans hasked
  writing := hu.writing
  sent := hu.sent
  waits := hwaits
  made := by
    obtain ⟨r, hmade, rfl, rfl⟩ := hu.made
    intro m hm
    rw [hmade] at hm
    rcases List.mem_append.mp hm with hm | hm
    · exact (h.made m hm).imp (hw.subset ·) (hw.subset ·)
    · obtain rfl := List.mem_singleton.mp hm
      exact ⟨hcall, hanswered⟩

variable (window) in
theorem ask (h : Alone s a t w) (hs : s.Sound hashing id) {ask : Ask} (stage : Stage κ ν)
    (hcall : operation t.history = some (.step ask)) :
    ∃ u w', step hashing id window operation s (.move a .ask) = some u ∧
      Alone u a ((t.count hashing id (.step ask)).stage (t.key hashing id ask)
        (some ⟨ask, stage⟩)) w' := by
  let w' := (w.count hashing id (.step ask)).stage (w.key hashing id ask) (some ⟨ask, .settling []⟩)
  have hmove : w.move hashing id window operation .ask = some ⟨w', [], []⟩ := by
    simp only [Attempt.move, h.history, hcall, h.free hs ask, h.writing, w']
  refine ⟨_, w', step_move h.attempt h.live hmove, s.moved_self a _, h.live, h.count_history _,
    h.count_asked hashing id _, h.writing, ?_, fun key p hp => ?_, fun m hm => ?_⟩
  · simp only [State.moved, h.sent, List.map_nil, List.append_nil]
  · simp only [w', Attempt.stage, h.key_eq] at hp ⊢
    by_cases hkey : key = t.key hashing id ask
    · subst hkey
      rw [Function.update_self] at hp ⊢
      obtain rfl := Option.some.inj hp
      rfl
    · rw [Function.update_of_ne hkey] at hp ⊢
      exact h.waits key p hp
  · simp only [State.moved, List.map_nil, List.append_nil] at hm
    exact (h.made m hm).imp (List.mem_append_left _ ·) (List.mem_append_left _ ·)

theorem answer (h : Alone s a t w) (hs : s.Sound hashing id) (ht : t.Counted hashing id)
    (hordered : t.Ordered) {key : κ} {p : Pending κ ν} (hpending : t.pending key = some p) (v : ν)
    {t' : Attempt κ ν} (hasked : t'.asked = t.asked) (hhistory : t'.history = t.history ++ [.answered key v])
    (ht' : t'.pending = Function.update t.pending key none) :
    ∃ acts u w', run (step hashing id window operation) s acts = some u ∧ (∀ b, .begin b ∉ acts) ∧
      Alone u a t' w' := by
  have hunanswered : ∀ v', .answered key v' ∉ w.history := by
    rw [h.history]
    exact fun v' => hordered.waiting key p v' hpending
  obtain ⟨u, w', hrun, hu, hw', hended⟩ := run_answer h.attempt h.live h.sent h.writing
    (h.waits key p hpending) (h.unkept hs hunanswered) v
  have hsame : w'.history = t'.history := by rw [hw', hhistory, h.history]
  refine ⟨_, u, w', hrun, by simp, h.settled hu (hw' ▸ List.prefix_append _ _) ?_ ?_
    (h.asked.trans hasked.symm) hsame fun key' q hq => ?_⟩
  · exact hw' ▸ List.mem_append_right _ (List.mem_singleton_self _)
  · exact hw' ▸ List.mem_append_left _ (h.history ▸ ht.pending key p hpending)
  · rw [ht'] at hq
    rw [hended]
    have hne : key' ≠ key := by
      rintro rfl
      exact nomatch (Function.update_self key' none t.pending).symm.trans hq
    rw [Function.update_of_ne hne] at hq ⊢
    exact h.waits key' q hq

theorem take (h : Alone s a t w) (hs : s.Sound hashing id) {member : List Char}
    (hcall : operation t.history = some (.value member)) (v : ν) {t' : Attempt κ ν}
    (hasked : t'.asked = (t.count hashing id (.value member)).asked)
    (hhistory : t'.history = (t.count hashing id (.value member)).history ++
      [.answered (t.key hashing id ⟨member, []⟩) v]) (ht' : t'.pending = t.pending) :
    ∃ acts u w', run (step hashing id window operation) s acts = some u ∧ (∀ b, .begin b ∉ acts) ∧
      Alone u a t' w' := by
  obtain ⟨u, w', hrun, hu, hw', hended⟩ := run_take h.attempt h.live h.sent h.writing
    (h.history.symm ▸ hcall) (h.free hs _) (h.idle hs _) (h.unkept hs (h.unmade hs _)) v
  have hsame : w'.history = t'.history := by rw [hw', hhistory, h.count_history, h.key_eq]
  have hprefix : w.history <+: w'.history := by
    rw [hw']
    exact (List.prefix_append _ _).trans (List.prefix_append _ _)
  refine ⟨_, u, w', hrun, by simp, h.settled hu hprefix ?_ ?_ ((h.count_asked hashing id _).trans hasked.symm) hsame
    fun key q hq => ?_⟩
  · exact hw' ▸ List.mem_append_right _ (List.mem_singleton_self _)
  · exact hw' ▸ List.mem_append_left _ (List.mem_append_right _ (List.mem_singleton_self _))
  · rw [ht'] at hq
    rw [hended]
    exact h.waits key q hq

end Alone

theorem Alone.stored {s : State ι κ ν} {a : ι} {t w : Attempt κ ν} (h : Alone s a t w) (key : κ)
    (kept : ν) : Alone s a (t.stored key kept) w := by
  refine ⟨h.attempt, h.live, h.history.trans (t.stored_history key kept).symm, h.asked.trans ?_, h.writing,
    h.sent, fun key' p hp => ?_, h.made⟩
  · simp only [Attempt.stored]
    split <;> rfl
  · simp only [Attempt.stored] at hp
    split at hp
    · rename_i ask hpending
      by_cases hkey : key' = key
      · subst hkey
        have hwaits := h.waits key' _ hpending
        obtain rfl := Option.some.inj ((Function.update_self key' _ t.pending).symm.trans hp)
        exact hwaits
      · exact h.waits key' p ((Function.update_of_ne hkey _ _).symm.trans hp)
    · exact h.waits key' p hp

theorem Alone.staged {s : State ι κ ν} {a : ι} {t w t' : Attempt κ ν} (h : Alone s a t w) {key : κ}
    {p : Pending κ ν} (hpending : t.pending key = some p) {stage : Stage κ ν}
    (ht' : t'.pending = Function.update t.pending key (some ⟨p.ask, stage⟩))
    (hhistory : t'.history = t.history) (hasked : t'.asked = t.asked) : Alone s a t' w := by
  refine ⟨h.attempt, h.live, h.history.trans hhistory.symm, h.asked.trans hasked.symm, h.writing, h.sent,
    fun key' q hq => ?_, h.made⟩
  rw [ht'] at hq
  by_cases hkey : key' = key
  · subst hkey
    obtain rfl := Option.some.inj ((Function.update_self key' _ t.pending).symm.trans hq)
    exact h.waits key' p hpending
  · exact h.waits key' q ((Function.update_of_ne hkey _ _).symm.trans hq)

theorem Alone.did {s : State ι κ ν} {a : ι} {t w : Attempt κ ν} {d : Moved κ ν} (h : Alone s a t w)
    (hs : s.Sound hashing id) (ht : t.Counted hashing id) (hordered : t.Ordered)
    (hd : t.Did hashing id window operation d) :
    ∃ acts u w', run (step hashing id window operation) s acts = some u ∧ (∀ b, .begin b ∉ acts) ∧
      Alone u a d.attempt w' := by
  have hask : ∀ {ask : Ask} (stage : Stage κ ν), operation t.history = some (.step ask) →
      ∃ acts u w', run (step hashing id window operation) s acts = some u ∧ (∀ b, .begin b ∉ acts) ∧
        Alone u a ((t.count hashing id (.step ask)).stage (t.key hashing id ask) (some ⟨ask, stage⟩)) w' := by
    intro ask stage hcall
    obtain ⟨u, w', hstep, hu⟩ := h.ask window hs stage hcall
    exact ⟨[.move a .ask], u, w', run_cons_eq_some.mpr ⟨u, hstep, rfl⟩, by simp, hu⟩
  cases hd with
  | recalled hcall => exact hask _ hcall
  | @given member kept hcall => exact h.take hs hcall kept rfl rfl rfl
  | asked hcall => exact hask _ hcall
  | @took member value now hcall => exact h.take hs hcall value rfl rfl rfl
  | began hkey => exact ⟨[], s, w, rfl, fun _ => List.not_mem_nil, h.staged hkey rfl rfl rfl⟩
  | kept hkey => exact ⟨[], s, w, rfl, fun _ => List.not_mem_nil, h.staged hkey rfl rfl rfl⟩
  | @answered key p stored hkey => exact h.answer hs ht hordered hkey stored rfl rfl rfl
  | @failed key p hkey =>
    let w' := (w.stage key none).see (.raised key)
    have hfail : w.move hashing id window operation (.fail key) = some ⟨w', [], []⟩ := by
      simp only [Attempt.move, h.waits key p hkey, Stage.raises, if_true, w']
    refine ⟨[.move a (.fail key)], _, w', run_cons_eq_some.mpr ⟨_, step_move h.attempt h.live hfail, rfl⟩,
      by simp, s.moved_self a _, h.live, ?_, h.asked, h.writing, ?_, fun key' q hq => ?_, fun m hm => ?_⟩
    · simp only [w', Attempt.see, Attempt.stage, h.history]
    · simp only [State.moved, h.sent, List.map_nil, List.append_nil]
    · simp only [w', Attempt.see, Attempt.stage] at hq ⊢
      have hne : key' ≠ key := by
        rintro rfl
        cases (Function.update_self key' none t.pending).symm.trans hq
      rw [Function.update_of_ne hne] at hq ⊢
      exact h.waits key' q hq
    · simp only [State.moved, List.map_nil, List.append_nil] at hm
      exact (h.made m hm).imp (List.mem_append_left _ ·) (List.mem_append_left _ ·)
  | stopped =>
    exact ⟨[], s, w, rfl, fun _ => List.not_mem_nil, h.attempt, h.live, h.history, h.asked, h.writing,
      h.sent, h.waits, h.made⟩

variable (hashing id window operation) in
/-- What `t` has seen an attempt sees that is alone over an empty journal. -/
def Attempt.Alone (a : ι) (t : Attempt κ ν) : Prop :=
  ∃ acts u w, run (step hashing id window operation) (State.init : State ι κ ν) (.begin a :: acts) = some u ∧
    (∀ b, .begin b ∉ acts) ∧ Continuity.Alone u a t w

theorem sound_of_run {acts : List (Act ι κ ν)} {s : State ι κ ν}
    (h : run (step hashing id window operation) State.init acts = some s) : s.Sound hashing id :=
  run_invariant_all (fun _ _ _ hs hstep => hs.step hstep) .init h

theorem Attempt.Alone.begin (a : ι) (journal : List (Record κ ν)) :
    (Attempt.begin journal).Alone hashing id window operation a := by
  have h := Continuity.Alone.begin (κ := κ) (ν := ν) a
  refine ⟨[], _, .begin [], ?_, fun _ => List.not_mem_nil, h.attempt, h.live, h.history, h.asked, h.writing,
    h.sent, fun _ _ hp => (nomatch hp), h.made⟩
  rfl

theorem Attempt.Alone.did {a : ι} {t : Attempt κ ν} {d : Moved κ ν}
    (h : t.Alone hashing id window operation a) (ht : t.Counted hashing id) (hordered : t.Ordered)
    (hd : t.Did hashing id window operation d) : d.attempt.Alone hashing id window operation a := by
  obtain ⟨acts, u, w, hrun, hacts, halone⟩ := h
  obtain ⟨more, u', w', hmore, hmore', halone'⟩ := halone.did (sound_of_run hrun) ht hordered hd
  refine ⟨acts ++ more, u', w', ?_, fun b hb => ?_, halone'⟩
  · rw [← List.cons_append, run_append, hrun, Option.bind_some, hmore]
  · exact (List.mem_append.mp hb).elim (hacts b) (hmore' b)

variable (hashing id window operation) in
structure State.Followed (s : State ι κ ν) : Prop where
  counted : ∀ a t, s.attempts a = some t → t.Counted hashing id
  ordered : ∀ a t, s.attempts a = some t → t.Ordered
  alone : ∀ a t, s.attempts a = some t → t.Alone hashing id window operation a

theorem State.Followed.step {s s' : State ι κ ν} (h : s.Followed hashing id window operation)
    {act : Act ι κ ν} (hstep : step hashing id window operation s act = some s') :
    s'.Followed hashing id window operation := by
  cases next_of_step _ _ _ _ hstep with
  | @begun a ha =>
    refine ⟨fun b u hu => ?_, fun b u hu => ?_, fun b u hu => ?_⟩ <;>
      rcases State.begun_attempts hu with rfl | hu
    · exact .begin s.journal
    · exact h.counted b u hu
    · exact .begin s.journal
    · exact h.ordered b u hu
    · exact .begin b s.journal
    · exact h.alone b u hu
  | @moved a m t d ha hmove =>
    have hd := Attempt.did_of_move _ _ _ _ hmove
    have hcounted := h.counted a t ha
    have hordered := h.ordered a t ha
    refine ⟨fun b u hu => ?_, fun b u hu => ?_, fun b u hu => ?_⟩ <;>
      rcases State.moved_attempts hu with ⟨rfl, rfl⟩ | ⟨-, hb⟩
    · exact hcounted.did hd
    · exact h.counted b u hb
    · exact hordered.did hcounted hd
    · exact h.ordered b u hb
    · exact (h.alone b t ha).did hcounted hordered hd
    · exact h.alone b u hb
  | landed hi =>
    refine ⟨fun b u hu => ?_, fun b u hu => ?_, fun b u hu => ?_⟩ <;>
      obtain ⟨t, ht, rfl | ⟨-, rfl⟩⟩ := State.landed_attempts hu
    · exact h.counted b u ht
    · exact (h.counted b t ht).stored _ _
    · exact h.ordered b u ht
    · exact (h.ordered b t ht).stored _ _
    · exact h.alone b u ht
    · obtain ⟨acts, u, w, hrun, hacts, halone⟩ := h.alone b t ht
      exact ⟨acts, u, w, hrun, hacts, halone.stored _ _⟩
  | lost i => exact ⟨h.counted, h.ordered, h.alone⟩

/-! ## What a run gives -/

def State.Asks (s : State ι κ ν) (ask : Ask) : Prop :=
  ∃ a t key call, s.attempts a = some t ∧ .asked key call ∈ t.history ∧ call.ask = ask

variable (hashing id window operation) in
/-- What an attempt has asked with its move is told from all that was asked of the same member. -/
def Clear (s : State ι κ ν) : Act ι κ ν → Prop
  | .move a m => ∀ t d, s.attempts a = some t → t.move hashing id window operation m = some d →
      ∀ key call, .asked key call ∈ d.attempt.history → ∀ other, s.Asks other →
        other.member = call.ask.member → Told other.args call.ask.args
  | _ => True

variable (hashing id operation) in
/-- What an attempt asks with its move it recalled, where the journal keeps it: no other has recorded it
since this one began. -/
def Recalled (s : State ι κ ν) : Act ι κ ν → Prop
  | .move a m => m.asks = true → ∀ t, s.attempts a = some t → ∀ call, operation t.history = some call →
      ∀ r ∈ s.journal, r.key = t.key hashing id call.ask → (t.steps r.key).isSome = true
  | _ => True

instance (s : State ι κ ν) : DecidablePred (Recalled hashing id operation s)
  | .move a m =>
    match ha : s.attempts a with
    | none => isTrue fun _ _ ht => nomatch ha.symm.trans ht
    | some t =>
      match hcall : operation t.history with
      | none => isTrue <| by
          intro hasks t' ht' call hnext
          obtain rfl := Option.some.inj (ha.symm.trans ht')
          cases hcall.symm.trans hnext
      | some call =>
        decidable_of_iff (m.asks = true → ∀ r ∈ s.journal, r.key = t.key hashing id call.ask →
            (t.steps r.key).isSome = true) <| by
          constructor
          · intro h hasks t' ht' call' hcall'
            obtain rfl := Option.some.inj (ha.symm.trans ht')
            obtain rfl := Option.some.inj (hcall.symm.trans hcall')
            exact h hasks
          · exact fun h hasks => h hasks t ha call hcall
  | .begin _ => isTrue trivial
  | .land _ => isTrue trivial
  | .lose _ => isTrue trivial

def State.Apart (s : State ι κ ν) : Prop :=
  ∀ ask other, s.Asks ask → s.Asks other → ask.member = other.member → Told ask.args other.args

theorem Told.symm {args others : List Value} (h : Told args others) : Told others args := ⟨h.2, h.1⟩

theorem Told.refl (args : List Value) : Told args args :=
  ⟨fun h => h.ne rfl, fun h => h.ne rfl⟩

theorem Attempt.Did.asks {t : Attempt κ ν} {d : Moved κ ν} (hd : t.Did hashing id window operation d)
    {key : κ} {call : Call} (h : .asked key call ∈ d.attempt.history) :
    .asked key call ∈ t.history ∨ operation t.history = some call := by
  have hcount : ∀ other, operation t.history = some other →
      .asked key call ∈ (t.count hashing id other).history →
        .asked key call ∈ t.history ∨ operation t.history = some call := by
    intro other hcall hasked
    refine (List.mem_append.mp hasked).imp_right fun hasked => ?_
    rw [(Event.asked.inj (List.mem_singleton.mp hasked)).2]
    exact hcall
  have hsee : ∀ {history : List (Event κ ν)} {event : Event κ ν}, event.asks = none →
      .asked key call ∈ history ++ [event] → .asked key call ∈ history := by
    intro history event hevent hasked
    refine (List.mem_append.mp hasked).resolve_right fun hasked => ?_
    rw [← List.mem_singleton.mp hasked] at hevent
    exact nomatch hevent
  cases hd with
  | recalled hcall => exact hcount _ hcall h
  | given hcall => exact hcount _ hcall (hsee rfl h)
  | asked hcall => exact hcount _ hcall h
  | took hcall => exact hcount _ hcall (hsee rfl h)
  | began => exact .inl h
  | kept => exact .inl h
  | answered => exact .inl (hsee rfl h)
  | failed => exact .inl (hsee rfl h)
  | stopped => exact .inl h

theorem State.Apart.step {s s' : State ι κ ν} (h : s.Apart) {act : Act ι κ ν}
    (hclear : Clear hashing id window operation s act)
    (hstep : step hashing id window operation s act = some s') : s'.Apart := by
  have hsub : ∀ {s' : State ι κ ν}, (∀ ask, s'.Asks ask → s.Asks ask) → s'.Apart :=
    fun hasks ask other hask hother => h ask other (hasks ask hask) (hasks other hother)
  cases next_of_step _ _ _ _ hstep with
  | begun ha =>
    refine hsub fun ask ⟨b, u, key, call, hu, hasked, hcall⟩ => ?_
    rcases State.begun_attempts hu with rfl | hu
    · exact nomatch hasked
    · exact ⟨b, u, key, call, hu, hasked, hcall⟩
  | @moved a m t d ha hmove =>
    have hd := Attempt.did_of_move _ _ _ _ hmove
    have hasks : ∀ ask, (s.moved a d).Asks ask → s.Asks ask ∨
        (operation t.history).map Call.ask = some ask ∧ ∃ key call, .asked key call ∈ d.attempt.history ∧
          call.ask = ask := by
      rintro ask ⟨b, u, key, call, hu, hasked, rfl⟩
      rcases State.moved_attempts hu with ⟨rfl, rfl⟩ | ⟨-, hb⟩
      · rcases hd.asks hasked with hbefore | hnext
        · exact .inl ⟨b, t, key, call, ha, hbefore, rfl⟩
        · exact .inr ⟨by rw [hnext, Option.map_some], key, call, hasked, rfl⟩
      · exact .inl ⟨b, u, key, call, hb, hasked, rfl⟩
    intro ask other hask hother hmember
    rcases hasks ask hask with hask | ⟨hnext, key, call, hasked, rfl⟩
    · rcases hasks other hother with hother | ⟨-, key, call, hasked, rfl⟩
      · exact h ask other hask hother hmember
      · exact hclear t d ha hmove key call hasked ask hask hmember
    · rcases hasks other hother with hother | ⟨hnext', -⟩
      · exact (hclear t d ha hmove key call hasked other hother hmember.symm).symm
      · obtain rfl := Option.some.inj (hnext.symm.trans hnext')
        exact .refl _
  | landed hi =>
    refine hsub fun ask ⟨b, u, key, call, hu, hasked, hcall⟩ => ?_
    obtain ⟨t, ht, rfl | ⟨-, rfl⟩⟩ := State.landed_attempts hu
    · exact ⟨b, u, key, call, ht, hasked, hcall⟩
    · exact ⟨b, t, key, call, ht, t.stored_history _ _ ▸ hasked, hcall⟩
  | lost i => exact hsub fun ask hask => hask

/-- `answer` was made under `key` for what is asked: the same member, with the same arguments. -/
def State.MadeFor (s : State ι κ ν) (key : κ) (call : Call) (answer : ν) : Prop :=
  ∃ m ∈ s.made, m.record.key = key ∧ m.record.answer = answer ∧ m.call.ask.member = call.ask.member ∧
    Same m.call.ask.args call.ask.args

theorem State.Sound.madeFor {s : State ι κ ν} (h : s.Sound hashing id) (hapart : s.Apart) {a : ι}
    {t : Attempt κ ν} (ha : s.attempts a = some t) {key : κ} {call : Call} {answer : ν}
    (hasked : .asked key call ∈ t.history) (hanswered : .answered key answer ∈ t.history) :
    s.MadeFor key call answer := by
  obtain ⟨m, hm, hkey, hanswer⟩ := (h.given a t ha).answered key answer hanswered
  obtain ⟨u, hu, hmade⟩ := h.made m hm
  obtain ⟨n, -, hderived⟩ := (h.counted _ u hu).counted _ _ hmade
  obtain ⟨n', -, hderived'⟩ := (h.counted a t ha).counted _ _ hasked
  have htext := hashing.derive_inj (hderived.symm.trans (hkey.trans hderived'))
  have htold : m.call.ask.member = call.ask.member → Told m.call.ask.args call.ask.args :=
    hapart _ _ ⟨_, u, _, _, hu, hmade, rfl⟩ ⟨a, t, key, call, ha, hasked, rfl⟩
  exact ⟨m, hm, hkey, hanswer, hashing.same_of_asked htold htext.1⟩

theorem journal_of_step {s s' : State ι κ ν} {act : Act ι κ ν}
    (hstep : step hashing id window operation s act = some s') : s.journal <+: s'.journal := by
  cases next_of_step _ _ _ _ hstep with
  | begun => exact List.prefix_rfl
  | moved => exact List.prefix_rfl
  | landed => exact record_extends _ _
  | lost => exact List.prefix_rfl

variable (hashing id window operation) in
/-- What holds of a run, `acts`, that came to `s`. -/
structure Continued (acts : List (Act ι κ ν)) (s : State ι κ ν) : Prop where
  /-- what an ask is answered was made for it -/
  theirs : ∀ a t, s.attempts a = some t → ∀ key call answer, .asked key call ∈ t.history →
    .answered key answer ∈ t.history → s.MadeFor key call answer
  /-- no key is recorded twice, and what is recorded stays -/
  once : (s.journal.map (·.key)).Nodup
  recorded : ∀ before after u, acts = before ++ after →
    run (step hashing id window operation) State.init before = some u → u.journal <+: s.journal
  /-- an attempt that asks a key after it was recorded does not make it, and is given what was recorded -/
  given : ∀ before a m after u t call, acts = before ++ .move a m :: after → m.asks = true →
    run (step hashing id window operation) State.init before = some u → u.attempts a = some t →
      operation t.history = some call → ∀ r ∈ u.journal, r.key = t.key hashing id call.ask →
        (a, r.key) ∉ s.started ∧ ∃ w, s.attempts a = some w ∧ w.Holds r.key r.answer
  /-- a step that is answered is answered what is recorded, by whichever copy of the run -/
  agreed : ∀ a t, s.attempts a = some t → ∀ key ask answer, .asked key (.step ask) ∈ t.history →
    .answered key answer ∈ t.history → Keeps s.journal key answer
  /-- what an attempt sees, it sees uninterrupted, answered what was made for what it asks -/
  uninterrupted : ∀ a t, s.attempts a = some t → ∃ alone u w,
    run (step hashing id window operation) State.init (.begin a :: alone) = some u ∧
      (∀ b, .begin b ∉ alone) ∧ u.attempts a = some w ∧ w.history = t.history ∧
        ∀ m ∈ u.made, s.MadeFor m.record.key m.call m.record.answer

/-- The steps of a run that are told apart are never given another's answer, and what is recorded of
them is given back to whatever recalled it. -/
theorem continued {acts : List (Act ι κ ν)} {s : State ι κ ν}
    (hrun : run (step hashing id window operation) State.init acts = some s)
    (hclear : Along (step hashing id window operation) (Clear hashing id window operation) State.init acts)
    (hrecalled : Along (step hashing id window operation) (Recalled hashing id operation) State.init acts) :
    Continued hashing id window operation acts s := by
  have hsound := sound_of_run hrun
  have happart : s.Apart := by
    have hinit : (State.init : State ι κ ν).Apart := fun _ _ ⟨_, _, _, _, h, _⟩ => nomatch h
    exact run_invariant (fun _ _ _ hI hok hstep => State.Apart.step hI hok hstep) hinit hclear hrun
  have hagreed : ∀ {acts : List (Act ι κ ν)} {s : State ι κ ν},
      run (step hashing id window operation) State.init acts = some s → s.Agreed hashing id := by
    intro acts s hrun
    have hinit : (State.init : State ι κ ν).Agreed hashing id :=
      ⟨fun _ _ h => (nomatch h), fun _ _ h => (nomatch h), List.nodup_nil⟩
    exact run_invariant_all (fun _ _ _ hI hstep => hI.step hstep) hinit hrun
  have hfollowed : s.Followed hashing id window operation := by
    have hinit : (State.init : State ι κ ν).Followed hashing id window operation :=
      ⟨fun _ _ h => (nomatch h), fun _ _ h => (nomatch h), fun _ _ h => (nomatch h)⟩
    exact run_invariant_all (fun _ _ _ hI hstep => hI.step hstep) hinit hrun
  refine ⟨fun a t ha key call answer => hsound.madeFor happart ha, (hagreed hrun).nodup, ?_, ?_, ?_, ?_⟩
  · rintro before after u rfl hbefore
    rw [run_append, hbefore, Option.bind_some] at hrun
    have hkept : ∀ (v : State ι κ ν) act v', u.journal <+: v.journal →
        step hashing id window operation v act = some v' → u.journal <+: v'.journal :=
      fun v act v' hv hstep => hv.trans (journal_of_step hstep)
    exact run_invariant_all hkept List.prefix_rfl hrun
  · rintro before a m after u t call rfl hasks hbefore ha hcall r hr hkey
    have hheld := (hrecalled.append_right hbefore).1 hasks t ha call hcall r hr hkey
    rw [run_append, hbefore, Option.bind_some] at hrun
    have hcounted := (hagreed hbefore).counted a t ha
    have hfresh : ∀ other, .asked r.key other ∉ t.history := fun other => hkey ▸ hcounted.fresh call.ask other
    have hstarted : (a, r.key) ∉ u.started := by
      intro hstarted
      obtain ⟨w, other, hw, hother⟩ := (sound_of_run hbefore).started _ hstarted
      obtain rfl := Option.some.inj (ha.symm.trans hw)
      exact hfresh other hother
    have hholds : u.Holds a r.key r.answer := by
      have ht := Attempt.Holds.recalled_of_fresh ((hagreed hbefore).agrees a t ha) hcounted
        (hagreed hbefore).nodup hr hheld hfresh
      exact ⟨hstarted, t, ha, ht⟩
    exact run_invariant_all (fun _ _ _ hI hstep => State.Holds.step hI hstep) hholds hrun
  · intro a t ha key ask answer hasked hanswered
    have hkeeps := ((hagreed hrun).agrees a t ha).answered key answer hanswered
    refine hkeeps.resolve_right fun ⟨member, hmember⟩ => ?_
    exact nomatch ((hagreed hrun).counted a t ha).unique hasked hmember
  · intro a t ha
    obtain ⟨alone, u, w, halone, hacts, h⟩ := hfollowed.alone a t ha
    refine ⟨alone, u, w, halone, hacts, h.attempt, h.history, fun m hm => ?_⟩
    obtain ⟨hasked, hanswered⟩ := h.made m hm
    exact hsound.madeFor happart ha (h.history ▸ hasked) (h.history ▸ hanswered)

/-! ## Operations whose asks are told apart -/

variable (operation) in
def Operation.Told : Prop :=
  ∀ history history' call call', operation history = some call → operation history' = some call' →
    call.ask.member = call'.ask.member → Continuity.Told call.ask.args call'.ask.args

theorem asks_of_step {s s' : State ι κ ν}
    (h : ∀ ask, s.Asks ask → ∃ history call, operation history = some call ∧ call.ask = ask)
    {act : Act ι κ ν} (hstep : step hashing id window operation s act = some s') :
    ∀ ask, s'.Asks ask → ∃ history call, operation history = some call ∧ call.ask = ask := by
  rintro ask ⟨b, u, key, call, hu, hasked, rfl⟩
  cases next_of_step _ _ _ _ hstep with
  | begun =>
    rcases State.begun_attempts hu with rfl | hu
    · exact nomatch hasked
    · exact h _ ⟨b, u, key, call, hu, hasked, rfl⟩
  | @moved a m t d ha hmove =>
    rcases State.moved_attempts hu with ⟨rfl, rfl⟩ | ⟨-, hb⟩
    · rcases (Attempt.did_of_move _ _ _ _ hmove).asks hasked with hbefore | hnext
      · exact h _ ⟨b, t, key, call, ha, hbefore, rfl⟩
      · exact ⟨t.history, call, hnext, rfl⟩
    · exact h _ ⟨b, u, key, call, hb, hasked, rfl⟩
  | landed =>
    obtain ⟨t, ht, rfl | ⟨-, rfl⟩⟩ := State.landed_attempts hu
    · exact h _ ⟨b, u, key, call, ht, hasked, rfl⟩
    · exact h _ ⟨b, t, key, call, ht, t.stored_history _ _ ▸ hasked, rfl⟩
  | lost => exact h _ ⟨b, u, key, call, hu, hasked, rfl⟩

theorem clear_of_told (hoperation : operation.Told) (acts : List (Act ι κ ν)) {s : State ι κ ν}
    (h : ∀ ask, s.Asks ask → ∃ history call, operation history = some call ∧ call.ask = ask) :
    Along (step hashing id window operation) (Clear hashing id window operation) s acts := by
  induction acts generalizing s with
  | nil => trivial
  | cons act acts ih =>
    refine ⟨?_, fun u hu => ih (asks_of_step h hu)⟩
    cases act with
    | begin => trivial
    | land => trivial
    | lose => trivial
    | move a m =>
      intro t d ha hmove key call hasked other hother hmember
      obtain ⟨history, before, hbefore, rfl⟩ := h other hother
      rcases (Attempt.did_of_move _ _ _ _ hmove).asks hasked with hseen | hnext
      · obtain ⟨history', call', hcall', hsame⟩ := h _ ⟨a, t, key, call, ha, hseen, rfl⟩
        rw [← hsame] at hmember ⊢
        exact hoperation _ _ _ _ hbefore hcall' hmember
      · exact hoperation _ _ _ _ hbefore hnext hmember

/-! ## Two asks that are one digest -/

theorem Values.normal_length (items : List Value) : (Values.normal items).length = items.length := by
  induction items with
  | nil => rfl
  | cons item items ih => simp only [Values.normal, List.length_cons, ih]

theorem Same.length_eq {args others : List Value} (h : Same args others) :
    args.length = others.length := by
  rw [← Values.normal_length args, ← Values.normal_length others]
  exact congrArg List.length (Value.array.inj h)

theorem toNat_ofNat_add {n : ℕ} (h : n < 256) : (Char.ofNat (256 + n)).toNat = 256 + n := by
  revert n
  decide +kernel

def plainly : Hashing (List Char) where
  sha1 bytes := bytes.map fun b => Char.ofNat (256 + b.toNat)
  uuid name := name
  sha1_injective := by
    refine List.map_injective_iff.mpr fun b c h => ?_
    have hnat := congrArg Char.toNat h
    rw [toNat_ofNat_add b.toNat_lt, toNat_ofNat_add c.toNat_lt] at hnat
    exact UInt8.toNat_inj.mp (by omega)
  sha1_hex bytes := by
    intro h
    obtain ⟨b, -, hb⟩ := List.mem_map.mp h
    have hnat := congrArg Char.toNat hb
    rw [toNat_ofNat_add b.toNat_lt] at hnat
    have hcolon : Char.toNat ':' = 58 := rfl
    omega
  uuid_injective := fun _ _ h => h

def left : Ask := ⟨"call:a.left.get".toList, []⟩

def right : Ask := ⟨"call:a.right.get".toList, []⟩

def pair : Ask := ⟨"call:a.pairs.add".toList, [text "a", text "b"]⟩

def one : Ask := ⟨"call:a.pairs.add".toList, [text "a;string:b"]⟩

def branches : Operation (List Char) ℕ
  | [] => some (.step left)
  | [.asked _ _] => some (.step right)
  | [.asked key _, .asked _ _, .answered key' _] => some (.step (if key' = key then pair else one))
  | _ => none

def first (ask : Ask) : List Char := plainly.derive [] (plainly.asked ask) 0

def crossed : List (Act ℕ (List Char) ℕ) :=
  [.begin 0, .move 0 .ask, .move 0 .ask, .move 0 (.make (first right)), .move 0 (.keep (first right) 20 0),
    .land 0, .move 0 (.answer (first right)), .move 0 .ask, .move 0 (.make (first one)),
    .move 0 (.keep (first one) 7 0), .land 0, .move 0 (.make (first left)),
    .move 0 (.keep (first left) 10 0), .land 0, .move 0 .stop, .begin 1, .move 1 .ask, .move 1 .ask,
    .move 1 (.answer (first left)), .move 1 .ask, .move 1 (.answer (first pair))]

def Event.isAsked (key : List Char) (n : ℕ) : Event (List Char) ℕ → Bool
  | .asked key' call => key' = key && call.ask.args.length = n
  | _ => false

def Event.isAnswered (key : List Char) (v : ℕ) : Event (List Char) ℕ → Bool
  | .answered key' v' => key' = key && v' = v
  | _ => false

theorem crossed_runs : ((run (step plainly [] 600 branches) State.init crossed).any fun s =>
    (s.attempts 1).any fun t => t.history.any (Event.isAsked (first pair) 2) &&
      t.history.any (Event.isAnswered (first pair) 7) &&
        s.made.all fun m => m.record.key ≠ first pair || m.call.ask.args.length = 1) = true := by
  decide +kernel

/-- The later attempt is answered what was made for the ask of the other branch. -/
theorem given_another : ∃ s t call, run (step plainly [] 600 branches) State.init crossed = some s ∧
    s.attempts 1 = some t ∧ .asked (first pair) call ∈ t.history ∧
      .answered (first pair) 7 ∈ t.history ∧ ¬s.MadeFor (first pair) call 7 := by
  obtain ⟨s, hrun, hs⟩ := (Option.any_eq_true ..).mp crossed_runs
  obtain ⟨t, ht, hevents⟩ := (Option.any_eq_true ..).mp hs
  simp only [Bool.and_eq_true, List.any_eq_true, List.all_eq_true] at hevents
  obtain ⟨⟨⟨asked, hasked, hcall⟩, answered, hanswered, hvalue⟩, hmade⟩ := hevents
  cases asked with
  | asked key call =>
    simp only [Event.isAsked, Bool.and_eq_true, decide_eq_true_eq] at hcall
    cases answered with
    | answered key' v =>
      simp only [Event.isAnswered, Bool.and_eq_true, decide_eq_true_eq] at hvalue
      obtain ⟨rfl, hlength⟩ := hcall
      obtain ⟨rfl, rfl⟩ := hvalue
      refine ⟨s, t, call, hrun, ht, hasked, hanswered, fun ⟨m, hm, hkey, _, _, hsame⟩ => ?_⟩
      have hone := hmade m hm
      simp only [hkey, ne_eq, not_true_eq_false, decide_false, Bool.false_or, decide_eq_true_eq] at hone
      rw [hsame.length_eq, hlength] at hone
      exact nomatch hone
    | asked => exact nomatch hvalue
    | raised => exact nomatch hvalue
  | answered => exact nomatch hcall
  | raised => exact nomatch hcall

def single : Operation (List Char) ℕ
  | [] => some (.step left)
  | _ => none

theorem single_told : single.Told := by
  have hleft : ∀ history call, single history = some call → call = .step left := by
    intro history call hcall
    cases history with
    | nil => exact (Option.some.inj hcall).symm
    | cons => exact nomatch hcall
  intro history history' call call' hcall hcall' _
  rw [hleft history call hcall, hleft history' call' hcall']
  exact .refl _

def again : List (Act ℕ (List Char) ℕ) :=
  [.begin 0, .move 0 .ask, .move 0 (.make (first left)), .move 0 (.keep (first left) 10 0), .land 0,
    .move 0 .stop, .begin 1, .move 1 .ask, .move 1 (.answer (first left))]

theorem continued_again :
    ∃ s, run (step plainly [] 600 single) State.init again = some s ∧
      Continued plainly [] 600 single again s := by
  have hsome : (run (step plainly [] 600 single) State.init again).isSome = true := by decide +kernel
  obtain ⟨s, hrun⟩ := Option.isSome_iff_exists.mp hsome
  have hinit : ∀ ask, (State.init : State ℕ (List Char) ℕ).Asks ask →
      ∃ history call, single history = some call ∧ call.ask = ask := fun _ ⟨_, _, _, _, h, _⟩ => nomatch h
  have hrecalled : Along (step plainly [] 600 single) (Recalled plainly [] single) State.init again := by
    decide +kernel
  exact ⟨s, hrun, continued hrun (clear_of_told single_told again hinit) hrecalled⟩

end Toa.Continuity
