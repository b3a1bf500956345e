import Toa.Continuity.Attempt

/-! What the attempts of a run are given: an answer that was made for what they ask, and what the journal
keeps of it where it kept it before they began. -/

set_option linter.unusedSectionVars false

namespace Toa.Continuity
open Toa.Run

variable {ι κ ν : Type*} [DecidableEq ι] [LinearOrder κ]
variable {hashing : Hashing κ} {id : List Char} {window : ℕ} {operation : Operation κ ν}

/-! ## Keys -/

def Event.asks : Event κ ν → Option κ
  | .asked key _ => some key
  | _ => none

variable (hashing id) in
/-- The keys of an attempt are those of what it asked, each asked once. -/
structure Attempt.Counted (t : Attempt κ ν) : Prop where
  counted : ∀ key call, .asked key call ∈ t.history →
    ∃ n < t.asked (hashing.asked call.ask), key = hashing.derive id (hashing.asked call.ask) n
  once : (t.history.filterMap Event.asks).Nodup
  pending : ∀ key p, t.pending key = some p → .asked key (.step p.ask) ∈ t.history
  raised : ∀ key, .raised key ∈ t.history → ∃ call, .asked key call ∈ t.history

namespace Attempt.Counted

theorem begin (journal : List (Record κ ν)) : (Attempt.begin journal).Counted hashing id where
  counted := fun _ _ h => nomatch h
  once := List.nodup_nil
  pending := fun _ _ h => nomatch h
  raised := fun _ h => nomatch h

variable {t : Attempt κ ν}

theorem fresh (h : t.Counted hashing id) (ask : Ask) (call : Call) :
    .asked (t.key hashing id ask) call ∉ t.history := by
  intro hasked
  obtain ⟨n, hn, hkey⟩ := h.counted _ call hasked
  obtain ⟨htext, rfl⟩ := hashing.derive_inj hkey
  rw [htext] at hn
  exact absurd hn (Nat.lt_irrefl _)

theorem unique (h : t.Counted hashing id) {key : κ} {call other : Call}
    (hcall : .asked key call ∈ t.history) (hother : .asked key other ∈ t.history) : call = other := by
  obtain ⟨before, after, hhistory⟩ := List.append_of_mem hcall
  have honce := h.once
  rw [hhistory] at hother honce
  simp only [List.filterMap_append, List.filterMap_cons, Event.asks, List.nodup_append',
    List.nodup_cons] at honce
  have hmem : ∀ l : List (Event κ ν), .asked key other ∈ l → key ∈ l.filterMap Event.asks :=
    fun l hl => List.mem_filterMap.mpr ⟨_, hl, rfl⟩
  rcases List.mem_append.mp hother with hl | hl
  · exact absurd (List.mem_cons_self ..) (honce.2.2 (hmem before hl))
  · rcases List.mem_cons.mp hl with hsame | hl
    · exact (Event.asked.inj hsame).2.symm
    · exact absurd (hmem after hl) honce.2.1.1

theorem count (h : t.Counted hashing id) (call : Call) : (t.count hashing id call).Counted hashing id where
  counted := by
    intro key other hasked
    have hle : t.asked (hashing.asked other.ask) ≤
        (t.count hashing id call).asked (hashing.asked other.ask) := by
      simp only [Attempt.count]
      by_cases htext : hashing.asked other.ask = hashing.asked call.ask
      · rw [htext, Function.update_self]
        exact Nat.le_succ _
      · rw [Function.update_of_ne htext]
    rcases List.mem_append.mp hasked with hasked | hasked
    · obtain ⟨n, hn, hkey⟩ := h.counted key other hasked
      exact ⟨n, Nat.lt_of_lt_of_le hn hle, hkey⟩
    · obtain ⟨rfl, rfl⟩ := Event.asked.inj (List.mem_singleton.mp hasked)
      refine ⟨t.asked (hashing.asked other.ask), ?_, rfl⟩
      simp only [Attempt.count, Function.update_self]
      exact Nat.lt_succ_self _
  once := by
    simp only [Attempt.count, List.filterMap_append]
    rw [List.nodup_append']
    refine ⟨h.once, List.nodup_singleton _, fun key hkey hlast => ?_⟩
    obtain ⟨event, hevent, hasks⟩ := List.mem_filterMap.mp hkey
    obtain rfl := List.mem_singleton.mp hlast
    cases event with
    | asked key' other =>
      obtain rfl := Option.some.inj hasks
      exact h.fresh call.ask other hevent
    | answered => cases hasks
    | raised => cases hasks
  pending := fun key p hp => List.mem_append_left _ (h.pending key p hp)
  raised := by
    intro key hraised
    rcases List.mem_append.mp hraised with hraised | hraised
    · obtain ⟨other, hasked⟩ := h.raised key hraised
      exact ⟨other, List.mem_append_left _ hasked⟩
    · cases List.mem_singleton.mp hraised

theorem see (h : t.Counted hashing id) {event : Event κ ν} (hevent : event.asks = none)
    (hraises : ∀ key, event = .raised key → ∃ call, .asked key call ∈ t.history) :
    (t.see event).Counted hashing id where
  counted := by
    intro key call hasked
    rcases List.mem_append.mp hasked with hasked | hasked
    · exact h.counted key call hasked
    · rw [← List.mem_singleton.mp hasked] at hevent
      cases hevent
  once := by
    simp only [Attempt.see, List.filterMap_append, List.filterMap_cons, hevent, List.filterMap_nil,
      List.append_nil]
    exact h.once
  pending := fun key p hp => List.mem_append_left _ (h.pending key p hp)
  raised := by
    intro key hraised
    have hasked : ∃ call, .asked key call ∈ t.history := by
      rcases List.mem_append.mp hraised with hraised | hraised
      · exact h.raised key hraised
      · exact hraises key (List.mem_singleton.mp hraised).symm
    exact hasked.imp fun call hcall => List.mem_append_left _ hcall

theorem stage (h : t.Counted hashing id) {key : κ} {pending : Option (Pending κ ν)}
    (hpending : ∀ p, pending = some p → .asked key (.step p.ask) ∈ t.history) :
    (t.stage key pending).Counted hashing id where
  counted := h.counted
  once := h.once
  pending := by
    intro key' p hp
    simp only [Attempt.stage] at hp
    by_cases hkey : key' = key
    · subst hkey
      rw [Function.update_self] at hp
      exact hpending p hp
    · rw [Function.update_of_ne hkey] at hp
      exact h.pending key' p hp
  raised := h.raised

theorem stored (h : t.Counted hashing id) (key : κ) (kept : ν) :
    (t.stored key kept).Counted hashing id := by
  have hwritten : Attempt.Counted hashing id { t with writing := t.writing.filter (· ≠ key) } :=
    ⟨h.counted, h.once, h.pending, h.raised⟩
  simp only [Attempt.stored]
  split
  · rename_i ask hpending
    have hasked := h.pending key _ hpending
    refine hwritten.stage fun p hp => ?_
    obtain rfl := Option.some.inj hp
    exact hasked
  · exact hwritten

theorem did {d : Moved κ ν} (h : t.Counted hashing id) (hd : t.Did hashing id window operation d) :
    d.attempt.Counted hashing id := by
  cases hd with
  | recalled =>
    refine (h.count _).stage fun p hp => ?_
    obtain rfl := Option.some.inj hp
    exact List.mem_append_right _ (List.mem_singleton_self _)
  | given => exact (h.count _).see rfl nofun
  | asked =>
    refine (h.count _).stage fun p hp => ?_
    obtain rfl := Option.some.inj hp
    exact List.mem_append_right _ (List.mem_singleton_self _)
  | @took member value now =>
    have hcount := h.count (.value member)
    have htaken : (t.taken hashing id window member value now).Counted hashing id :=
      ⟨hcount.counted, hcount.once, hcount.pending, hcount.raised⟩
    exact htaken.see rfl nofun
  | began hkey =>
    have hasked := h.pending _ _ hkey
    refine h.stage fun p hp => ?_
    obtain rfl := Option.some.inj hp
    exact hasked
  | @kept key ask answer now hkey =>
    have hfixed : (t.fixed window now).Counted hashing id := ⟨h.counted, h.once, h.pending, h.raised⟩
    have hasked := h.pending _ _ hkey
    refine hfixed.stage fun p hp => ?_
    obtain rfl := Option.some.inj hp
    exact hasked
  | @answered key p stored =>
    have hstage : (t.stage key none).Counted hashing id := h.stage fun p hp => nomatch hp
    have hanswered : (t.answered key stored).Counted hashing id :=
      ⟨hstage.counted, hstage.once, hstage.pending, hstage.raised⟩
    exact hanswered.see rfl nofun
  | @failed key p hkey =>
    have hstage : (t.stage key none).Counted hashing id := h.stage fun p hp => nomatch hp
    have hasked := h.pending key p hkey
    refine hstage.see rfl fun key' hevent => ?_
    exact Event.raised.inj hevent ▸ ⟨_, hasked⟩
  | stopped => exact ⟨h.counted, h.once, h.pending, h.raised⟩

end Attempt.Counted

theorem Attempt.Did.history {t : Attempt κ ν} {d : Moved κ ν} (hd : t.Did hashing id window operation d) :
    t.history <+: d.attempt.history := by
  cases hd with
  | recalled => exact List.prefix_append _ _
  | given => exact (List.prefix_append _ _).trans (List.prefix_append _ _)
  | asked => exact List.prefix_append _ _
  | took => exact (List.prefix_append _ _).trans (List.prefix_append _ _)
  | began => exact List.prefix_rfl
  | kept => exact List.prefix_rfl
  | answered => exact List.prefix_append _ _
  | failed => exact List.prefix_append _ _
  | stopped => exact List.prefix_rfl

/-! ## Answers -/

/-- All an attempt holds as answers is what `W` says was answered. -/
structure Attempt.Given (W : κ → ν → Prop) (t : Attempt κ ν) : Prop where
  pending : ∀ key p v, t.pending key = some p → p.stage.answer = some v → W key v
  steps : ∀ key v, t.steps key = some v → W key v
  answered : ∀ key v, .answered key v ∈ t.history → W key v

namespace Attempt.Given
variable {W W' : κ → ν → Prop} {t : Attempt κ ν}

theorem begin {journal : List (Record κ ν)} (h : ∀ r ∈ journal, W r.key r.answer) :
    (Attempt.begin journal).Given W where
  pending := fun _ _ _ hp => nomatch hp
  steps := by
    intro key v hkey
    obtain ⟨r, hr, rfl⟩ := Option.map_eq_some_iff.mp hkey
    exact (find_some hr).2 ▸ h r (find_some hr).1
  answered := fun _ _ hv => nomatch hv

theorem mono (h : t.Given W) (hW : ∀ key v, W key v → W' key v) : t.Given W' where
  pending := fun key p v hp hv => hW key v (h.pending key p v hp hv)
  steps := fun key v hs => hW key v (h.steps key v hs)
  answered := fun key v hv => hW key v (h.answered key v hv)

theorem count (h : t.Given W) (call : Call) : (t.count hashing id call).Given W where
  pending := h.pending
  steps := h.steps
  answered := by
    intro key v hv
    rcases List.mem_append.mp hv with hv | hv
    · exact h.answered key v hv
    · exact nomatch List.mem_singleton.mp hv

theorem see_answered (h : t.Given W) {key : κ} {v : ν} (hv : W key v) :
    (t.see (.answered key v)).Given W where
  pending := h.pending
  steps := h.steps
  answered := by
    intro key' v' hv'
    rcases List.mem_append.mp hv' with hv' | hv'
    · exact h.answered key' v' hv'
    · obtain ⟨rfl, rfl⟩ := Event.answered.inj (List.mem_singleton.mp hv')
      exact hv

theorem see_raised (h : t.Given W) (key : κ) : (t.see (.raised key)).Given W where
  pending := h.pending
  steps := h.steps
  answered := by
    intro key' v hv
    rcases List.mem_append.mp hv with hv | hv
    · exact h.answered key' v hv
    · exact nomatch List.mem_singleton.mp hv

theorem stage (h : t.Given W) {key : κ} {pending : Option (Pending κ ν)}
    (hpending : ∀ p v, pending = some p → p.stage.answer = some v → W key v) :
    (t.stage key pending).Given W where
  pending := by
    intro key' p v hp hv
    simp only [Attempt.stage] at hp
    by_cases hkey : key' = key
    · subst hkey
      rw [Function.update_self] at hp
      exact hpending p v hp hv
    · rw [Function.update_of_ne hkey] at hp
      exact h.pending key' p v hp hv
  steps := h.steps
  answered := h.answered

/-- `steps.set` -/
theorem set (h : t.Given W) {key : κ} {v : ν} (hv : W key v) :
    Attempt.Given W { t with steps := Function.update t.steps key (some v) } where
  pending := h.pending
  steps := by
    intro key' v' hs
    by_cases hkey : key' = key
    · subst hkey
      obtain rfl := Option.some.inj ((Function.update_self key' _ t.steps).symm.trans hs)
      exact hv
    · exact h.steps key' v' ((Function.update_of_ne hkey _ t.steps).symm.trans hs)
  answered := h.answered

theorem stored (h : t.Given W) {key : κ} {kept : ν} (hkept : W key kept) :
    (t.stored key kept).Given W := by
  have hwritten : Attempt.Given W { t with writing := t.writing.filter (· ≠ key) } :=
    ⟨h.pending, h.steps, h.answered⟩
  simp only [Attempt.stored]
  split
  · refine hwritten.stage fun p v hp hv => ?_
    obtain rfl := Option.some.inj hp
    obtain rfl := Option.some.inj hv
    exact hkept
  · exact hwritten

theorem did {d : Moved κ ν} (h : t.Given W)
    (htaken : ∀ m ∈ d.made, ∀ member, m.1 = .value member → W m.2.key m.2.answer)
    (hd : t.Did hashing id window operation d) : d.attempt.Given W := by
  have hcount : ∀ call, (t.count hashing id call).Given W := fun call => h.count call
  have hfixed : ∀ now, (t.fixed window now).Given W := fun now => ⟨h.pending, h.steps, h.answered⟩
  have hended : ∀ key, (t.stage key none).Given W := fun key => h.stage fun p v hp => nomatch hp
  cases hd with
  | recalled hcall hkept =>
    refine (hcount _).stage fun p v hp hv => ?_
    obtain rfl := Option.some.inj hp
    obtain rfl := Option.some.inj hv
    exact h.steps _ _ hkept
  | given hcall hkept => exact (hcount _).see_answered (h.steps _ _ hkept)
  | asked =>
    refine (hcount _).stage fun p v hp hv => ?_
    obtain rfl := Option.some.inj hp
    exact nomatch hv
  | @took member value now =>
    have hvalue : W (t.key hashing id ⟨member, []⟩) value :=
      htaken _ (List.mem_singleton_self _) member rfl
    have hset := (hcount (.value member)).set hvalue
    have hgiven : (t.taken hashing id window member value now).Given W :=
      ⟨hset.pending, hset.steps, hset.answered⟩
    exact hgiven.see_answered hvalue
  | began =>
    refine h.stage fun p v hp hv => ?_
    obtain rfl := Option.some.inj hp
    exact nomatch hv
  | kept =>
    refine (hfixed _).stage fun p v hp hv => ?_
    obtain rfl := Option.some.inj hp
    exact nomatch hv
  | @answered key p stored hkey hstored =>
    have hset := (hended key).set (h.pending key p stored hkey hstored)
    have hgiven : (t.answered key stored).Given W := ⟨hset.pending, hset.steps, hset.answered⟩
    exact hgiven.see_answered (h.pending key p stored hkey hstored)
  | @failed key p => exact (hended key).see_raised key
  | stopped => exact ⟨h.pending, h.steps, h.answered⟩

end Attempt.Given

/-- `answer` was made under `key`. -/
def Was (made : List (Made ι κ ν)) (key : κ) (answer : ν) : Prop :=
  ∃ m ∈ made, m.record.key = key ∧ m.record.answer = answer

variable (hashing id) in
/-- Whatever is kept, held or given was made, by an attempt that asked for it. -/
structure State.Sound (s : State ι κ ν) : Prop where
  counted : ∀ a t, s.attempts a = some t → t.Counted hashing id
  given : ∀ a t, s.attempts a = some t → t.Given (Was s.made)
  made : ∀ m ∈ s.made, ∃ t, s.attempts m.attempt = some t ∧ .asked m.record.key m.call ∈ t.history
  sent : ∀ m ∈ s.sent, m ∈ s.made
  journal : ∀ r ∈ s.journal, ∃ m ∈ s.made, m.record = r
  started : ∀ p ∈ s.started, ∃ t call, s.attempts p.1 = some t ∧ .asked p.2 call ∈ t.history

theorem Attempt.Counted.made {t : Attempt κ ν} {d : Moved κ ν} (h : t.Counted hashing id)
    (hd : t.Did hashing id window operation d) :
    ∀ m ∈ d.made, .asked m.2.key m.1 ∈ d.attempt.history := by
  cases hd with
  | recalled => exact fun _ hm => nomatch hm
  | given => exact fun _ hm => nomatch hm
  | asked => exact fun _ hm => nomatch hm
  | took =>
    rintro m hm
    obtain rfl := List.mem_singleton.mp hm
    exact List.mem_append_left _ (List.mem_append_right _ (List.mem_singleton_self _))
  | began => exact fun _ hm => nomatch hm
  | kept hkey =>
    rintro m hm
    obtain rfl := List.mem_singleton.mp hm
    exact h.pending _ _ hkey
  | answered => exact fun _ hm => nomatch hm
  | failed => exact fun _ hm => nomatch hm
  | stopped => exact fun _ hm => nomatch hm

theorem Attempt.Counted.started {t : Attempt κ ν} {d : Moved κ ν} (h : t.Counted hashing id)
    (hd : t.Did hashing id window operation d) :
    ∀ key ∈ d.started, ∃ call, .asked key call ∈ d.attempt.history := by
  cases hd with
  | took =>
    intro key hkey
    obtain rfl := List.mem_singleton.mp hkey
    exact ⟨_, List.mem_append_left _ (List.mem_append_right _ (List.mem_singleton_self _))⟩
  | began hpending =>
    intro key hkey
    obtain rfl := List.mem_singleton.mp hkey
    exact ⟨_, h.pending _ _ hpending⟩
  | recalled | given | asked | kept | answered | failed | stopped => exact fun _ hkey => nomatch hkey

namespace State.Sound

theorem init : (State.init : State ι κ ν).Sound hashing id where
  counted := fun _ _ h => nomatch h
  given := fun _ _ h => nomatch h
  made := fun _ h => nomatch h
  sent := fun _ h => nomatch h
  journal := fun _ h => nomatch h
  started := fun _ h => nomatch h

variable {s s' : State ι κ ν}

theorem moved (h : s.Sound hashing id) {a : ι} {t : Attempt κ ν} {d : Moved κ ν}
    (ha : s.attempts a = some t) (hd : t.Did hashing id window operation d) :
    (s.moved a d).Sound hashing id where
  counted := by
    intro b u hu
    rcases State.moved_attempts hu with ⟨-, rfl⟩ | ⟨-, hb⟩
    · exact (h.counted a t ha).did hd
    · exact h.counted b u hb
  given := by
    have hmono : ∀ key v, Was s.made key v → Was (s.moved a d).made key v :=
      fun key v ⟨m, hm, hkey⟩ => ⟨m, List.mem_append_left _ hm, hkey⟩
    intro b u hu
    rcases State.moved_attempts hu with ⟨-, rfl⟩ | ⟨-, hb⟩
    · refine ((h.given a t ha).mono hmono).did (fun m hm member _ => ?_) hd
      exact ⟨⟨a, m.1, m.2⟩, List.mem_append_right _ (List.mem_map.mpr ⟨m, hm, rfl⟩), rfl, rfl⟩
    · exact (h.given b u hb).mono hmono
  made := by
    intro m hm
    rcases List.mem_append.mp hm with hm | hm
    · obtain ⟨u, hu, hasked⟩ := h.made m hm
      by_cases hb : m.attempt = a
      · rw [hb, ha] at hu
        obtain rfl := Option.some.inj hu
        exact ⟨d.attempt, hb ▸ Function.update_self .., hd.history.subset hasked⟩
      · exact ⟨u, (Function.update_of_ne hb _ _).trans hu, hasked⟩
    · obtain ⟨made, hmade, rfl⟩ := List.mem_map.mp hm
      exact ⟨d.attempt, Function.update_self .., (h.counted a t ha).made hd made hmade⟩
  sent := by
    intro m hm
    rcases List.mem_append.mp hm with hm | hm
    · exact List.mem_append_left _ (h.sent m hm)
    · exact List.mem_append_right _ hm
  journal := by
    intro r hr
    obtain ⟨m, hm, hmade⟩ := h.journal r hr
    exact ⟨m, List.mem_append_left _ hm, hmade⟩
  started := by
    intro p hp
    rcases List.mem_append.mp hp with hp | hp
    · obtain ⟨u, call, hu, hasked⟩ := h.started p hp
      by_cases hb : p.1 = a
      · rw [hb, ha] at hu
        obtain rfl := Option.some.inj hu
        exact ⟨d.attempt, call, hb ▸ Function.update_self .., hd.history.subset hasked⟩
      · exact ⟨u, call, (Function.update_of_ne hb _ _).trans hu, hasked⟩
    · obtain ⟨key, hkey, rfl⟩ := List.mem_map.mp hp
      obtain ⟨call, hasked⟩ := (h.counted a t ha).started hd key hkey
      exact ⟨d.attempt, call, Function.update_self .., hasked⟩

theorem landed (h : s.Sound hashing id) {i : ℕ} {m : Made ι κ ν} (hi : s.sent[i]? = some m) :
    (s.landed i m).Sound hashing id := by
  have hjournal : ∀ r ∈ (s.landed i m).journal, ∃ m ∈ s.made, m.record = r := by
    intro r hr
    rcases mem_record hr with hr | rfl
    · exact h.journal r hr
    · exact ⟨m, h.sent m (List.mem_of_getElem? hi), rfl⟩
  have hkept : Was s.made m.record.key (record s.journal m.record).2 := by
    obtain ⟨kept, hkept, hkey, hanswer⟩ := record_kept s.journal m.record
    obtain ⟨made, hmade, rfl⟩ := hjournal kept hkept
    exact ⟨made, hmade, hkey, hanswer⟩
  refine ⟨fun b u hu => ?_, fun b u hu => ?_, fun made hmade => ?_, fun made hmade => ?_, hjournal,
    fun p hp => ?_⟩
  · obtain ⟨t, ht, rfl | ⟨-, rfl⟩⟩ := State.landed_attempts hu
    · exact h.counted b u ht
    · exact (h.counted b t ht).stored _ _
  · obtain ⟨t, ht, rfl | ⟨-, rfl⟩⟩ := State.landed_attempts hu
    · exact h.given b u ht
    · exact (h.given b t ht).stored hkept
  · obtain ⟨t, ht, hasked⟩ := h.made made hmade
    by_cases hb : made.attempt = m.attempt
    · refine ⟨t.stored m.record.key (record s.journal m.record).2, ?_, ?_⟩
      · simp only [State.landed, hb, Function.update_self, hb ▸ ht, Option.map_some]
      · simp only [Attempt.stored]
        split <;> exact hasked
    · exact ⟨t, (Function.update_of_ne hb _ _).trans ht, hasked⟩
  · exact h.sent made (List.mem_of_mem_eraseIdx hmade)
  · obtain ⟨t, call, ht, hasked⟩ := h.started p hp
    by_cases hb : p.1 = m.attempt
    · refine ⟨t.stored m.record.key (record s.journal m.record).2, call, ?_, ?_⟩
      · simp only [State.landed, hb, Function.update_self, hb ▸ ht, Option.map_some]
      · simp only [Attempt.stored]
        split <;> exact hasked
    · exact ⟨t, call, (Function.update_of_ne hb _ _).trans ht, hasked⟩

theorem step (h : s.Sound hashing id) {act : Act ι κ ν}
    (hstep : step hashing id window operation s act = some s') : s'.Sound hashing id := by
  cases next_of_step _ _ _ _ hstep with
  | @begun a ha =>
    refine ⟨fun b u hu => ?_, fun b u hu => ?_, fun m hm => ?_, h.sent, h.journal, fun p hp => ?_⟩
    · rcases State.begun_attempts hu with rfl | hu
      · exact .begin s.journal
      · exact h.counted b u hu
    · rcases State.begun_attempts hu with rfl | hu
      · refine .begin fun r hr => ?_
        obtain ⟨m, hm, rfl⟩ := h.journal r hr
        exact ⟨m, hm, rfl, rfl⟩
      · exact h.given b u hu
    · obtain ⟨t, ht, hasked⟩ := h.made m hm
      have hb : m.attempt ≠ a := fun hb => nomatch (hb ▸ ht).symm.trans ha
      exact ⟨t, (Function.update_of_ne hb _ _).trans ht, hasked⟩
    · obtain ⟨t, call, ht, hasked⟩ := h.started p hp
      have hb : p.1 ≠ a := fun hb => nomatch (hb ▸ ht).symm.trans ha
      exact ⟨t, call, (Function.update_of_ne hb _ _).trans ht, hasked⟩
  | moved ha hmove => exact h.moved ha (Attempt.did_of_move _ _ _ _ hmove)
  | landed hi => exact h.landed hi
  | lost i =>
    exact ⟨h.counted, h.given, h.made, fun m hm => h.sent m (List.mem_of_mem_eraseIdx hm), h.journal,
      h.started⟩

end State.Sound

/-! ## What was kept before -/

/-- The journal keeps `answer` under `key`. -/
def Keeps (journal : List (Record κ ν)) (key : κ) (answer : ν) : Prop :=
  ∃ r ∈ journal, r.key = key ∧ r.answer = answer

def Attempt.Agrees (journal : List (Record κ ν)) (t : Attempt κ ν) : Prop :=
  t.Given fun key v => Keeps journal key v ∨ ∃ member, .asked key (.value member) ∈ t.history

theorem Attempt.Agrees.did {journal : List (Record κ ν)} {t : Attempt κ ν} {d : Moved κ ν}
    (h : t.Agrees journal) (ht : t.Counted hashing id) (hd : t.Did hashing id window operation d) :
    d.attempt.Agrees journal := by
  have hmono : ∀ key v, (Keeps journal key v ∨ ∃ member, .asked key (.value member) ∈ t.history) →
      Keeps journal key v ∨ ∃ member, .asked key (.value member) ∈ d.attempt.history :=
    fun key v hv => hv.imp_right fun ⟨member, hmember⟩ => ⟨member, hd.history.subset hmember⟩
  refine (Attempt.Given.mono h hmono).did (fun m hm member hcall => ?_) hd
  exact .inr ⟨member, hcall ▸ ht.made hd m hm⟩

variable (hashing id) in
structure State.Agreed (s : State ι κ ν) : Prop where
  counted : ∀ a t, s.attempts a = some t → t.Counted hashing id
  agrees : ∀ a t, s.attempts a = some t → t.Agrees s.journal
  nodup : (s.journal.map (·.key)).Nodup

theorem Attempt.Agrees.landed {journal : List (Record κ ν)} {t : Attempt κ ν} (h : t.Agrees journal)
    (r : Record κ ν) : t.Agrees (record journal r).1 :=
  h.mono fun _ _ hv => hv.imp_left fun ⟨kept, hkept, hkey⟩ =>
    ⟨kept, (record_extends journal r).subset hkept, hkey⟩

theorem Attempt.stored_history (t : Attempt κ ν) (key : κ) (kept : ν) :
    (t.stored key kept).history = t.history := by
  simp only [Attempt.stored]
  split <;> rfl

theorem State.Agreed.step {s s' : State ι κ ν} (h : s.Agreed hashing id) {act : Act ι κ ν}
    (hstep : step hashing id window operation s act = some s') : s'.Agreed hashing id := by
  cases next_of_step _ _ _ _ hstep with
  | @begun a ha =>
    refine ⟨fun b u hu => ?_, fun b u hu => ?_, h.nodup⟩
    · rcases State.begun_attempts hu with rfl | hu
      · exact .begin s.journal
      · exact h.counted b u hu
    · rcases State.begun_attempts hu with rfl | hu
      · exact .begin fun r hr => .inl ⟨r, hr, rfl, rfl⟩
      · exact h.agrees b u hu
  | moved ha hmove =>
    have hd := Attempt.did_of_move _ _ _ _ hmove
    refine ⟨fun b u hu => ?_, fun b u hu => ?_, h.nodup⟩
    · rcases State.moved_attempts hu with ⟨-, rfl⟩ | ⟨-, hb⟩
      · exact (h.counted _ _ ha).did hd
      · exact h.counted b u hb
    · rcases State.moved_attempts hu with ⟨-, rfl⟩ | ⟨-, hb⟩
      · exact (h.agrees _ _ ha).did (h.counted _ _ ha) hd
      · exact h.agrees b u hb
  | @landed i m hi =>
    refine ⟨fun b u hu => ?_, fun b u hu => ?_, record_nodup h.nodup m.record⟩
    · obtain ⟨t, ht, rfl | ⟨-, rfl⟩⟩ := State.landed_attempts hu
      · exact h.counted b u ht
      · exact (h.counted b t ht).stored _ _
    · obtain ⟨t, ht, rfl | ⟨-, rfl⟩⟩ := State.landed_attempts hu
      · exact (h.agrees b u ht).landed m.record
      · have hagrees := (h.agrees b t ht).landed m.record
        have hkept : Keeps (record s.journal m.record).1 m.record.key (record s.journal m.record).2 :=
          record_kept s.journal m.record
        have hstored := Attempt.Given.stored hagrees (.inl hkept)
        rw [Attempt.Agrees, Attempt.stored_history]
        exact hstored
  | lost i => exact ⟨h.counted, h.agrees, h.nodup⟩

/-- What an attempt recalled it is given where it asks it, and does not make. -/
structure Attempt.Holds (key : κ) (v : ν) (t : Attempt κ ν) : Prop where
  steps : t.steps key = some v
  pending : ∀ p, t.pending key = some p → p.stage = .kept v
  asked : ∀ call, .asked key call ∈ t.history → .answered key v ∈ t.history ∨ (t.pending key).isSome = true
  answered : ∀ v', .answered key v' ∈ t.history → v' = v
  raised : .raised key ∉ t.history

namespace Attempt.Holds
variable {key : κ} {v : ν} {t : Attempt κ ν}

theorem recalled_of_fresh {journal : List (Record κ ν)} (hagrees : t.Agrees journal)
    (hcounted : t.Counted hashing id) (hnodup : (journal.map (·.key)).Nodup) {r : Record κ ν} (hr : r ∈ journal)
    (hheld : (t.steps r.key).isSome = true) (hfresh : ∀ call, .asked r.key call ∉ t.history) :
    t.Holds r.key r.answer := by
  have hkept : ∀ v, (Keeps journal r.key v ∨ ∃ member, .asked r.key (.value member) ∈ t.history) →
      v = r.answer := by
    rintro v (⟨kept, hkept, hkey, rfl⟩ | ⟨member, hmember⟩)
    · rw [List.inj_on_of_nodup_map hnodup hkept hr hkey]
    · exact absurd hmember (hfresh _)
  obtain ⟨v, hv⟩ := Option.isSome_iff_exists.mp hheld
  constructor
  case steps => rw [hv, hkept v (hagrees.steps _ v hv)]
  case pending => exact fun p hp => absurd (hcounted.pending _ p hp) (hfresh _)
  case asked => exact fun call hcall => absurd hcall (hfresh call)
  case answered => exact fun v' hv' => hkept v' (hagrees.answered _ v' hv')
  case raised =>
    intro hraised
    obtain ⟨call, hcall⟩ := hcounted.raised _ hraised
    exact hfresh call hcall

theorem other (h : t.Holds key v) {t' : Attempt κ ν} {events : List (Event κ ν)}
    (hsteps : t'.steps key = t.steps key) (hpending : t'.pending key = t.pending key)
    (hhistory : t'.history = t.history ++ events) (hasked : ∀ call, .asked key call ∉ events)
    (hanswered : ∀ v', .answered key v' ∉ events) (hraised : .raised key ∉ events) : t'.Holds key v where
  steps := hsteps.trans h.steps
  pending := hpending ▸ h.pending
  asked := by
    intro call hcall
    rw [hhistory] at hcall ⊢
    rw [hpending]
    refine (h.asked call ?_).imp_left (List.mem_append_left _)
    exact (List.mem_append.mp hcall).resolve_right (hasked call)
  answered := by
    intro v' hv'
    rw [hhistory] at hv'
    exact h.answered v' ((List.mem_append.mp hv').resolve_right (hanswered v'))
  raised := by
    intro hr
    rw [hhistory] at hr
    exact h.raised ((List.mem_append.mp hr).resolve_right hraised)

theorem count (h : t.Holds key v) {call : Call} (hne : key ≠ t.key hashing id call.ask) :
    (t.count hashing id call).Holds key v := by
  refine h.other rfl rfl rfl (fun call' hasked => ?_) (fun v' hv' => ?_) fun hr => ?_
  · exact hne (Event.asked.inj (List.mem_singleton.mp hasked)).1
  · exact nomatch List.mem_singleton.mp hv'
  · exact nomatch List.mem_singleton.mp hr

theorem stage (h : t.Holds key v) {key' : κ} (hne : key ≠ key') (pending : Option (Pending κ ν)) :
    (t.stage key' pending).Holds key v :=
  h.other rfl (Function.update_of_ne hne _ _) (List.append_nil _).symm (fun _ => List.not_mem_nil)
    (fun _ => List.not_mem_nil) List.not_mem_nil

theorem see (h : t.Holds key v) {event : Event κ ν} (hasked : ∀ call, event ≠ .asked key call)
    (hanswered : ∀ v', event ≠ .answered key v') (hraised : event ≠ .raised key) :
    (t.see event).Holds key v :=
  h.other rfl rfl rfl (fun call hmem => hasked call (List.mem_singleton.mp hmem).symm)
    (fun v' hmem => hanswered v' (List.mem_singleton.mp hmem).symm)
    fun hmem => hraised (List.mem_singleton.mp hmem).symm

theorem see_answered (h : t.Holds key v) {key' : κ} (hne : key ≠ key') (v' : ν) :
    (t.see (.answered key' v')).Holds key v :=
  h.see (fun _ hevent => nomatch hevent) (fun _ hevent => hne (Event.answered.inj hevent).1.symm)
    fun hevent => nomatch hevent

theorem recalled (h : t.Holds key v) {ask : Ask} : ((t.count hashing id (.step ask)).stage key
    (some ⟨ask, .kept v⟩)).Holds key v where
  steps := h.steps
  pending := by
    intro p hp
    obtain rfl := Option.some.inj ((Function.update_self key _ t.pending).symm.trans hp)
    rfl
  asked := by
    intro call hcall
    refine .inr ?_
    simp only [Attempt.stage, Function.update_self, Option.isSome_some]
  answered := by
    intro v' hv'
    exact h.answered v' ((List.mem_append.mp hv').resolve_right fun hv' => nomatch List.mem_singleton.mp hv')
  raised := by
    intro hr
    exact h.raised ((List.mem_append.mp hr).resolve_right fun hr => nomatch List.mem_singleton.mp hr)

theorem given (h : t.Holds key v) {t' : Attempt κ ν} {events : List (Event κ ν)}
    (hsteps : t'.steps key = some v) (hpending : ∀ p, t'.pending key = some p → p.stage = .kept v)
    (hhistory : t'.history = t.history ++ events ++ [.answered key v])
    (hanswered : ∀ v', .answered key v' ∉ events) (hraised : .raised key ∉ events) : t'.Holds key v where
  steps := hsteps
  pending := hpending
  asked := fun call hcall => .inl (hhistory ▸ List.mem_append_right _ (List.mem_singleton_self _))
  answered := by
    intro v' hv'
    rw [hhistory] at hv'
    rcases List.mem_append.mp hv' with hv' | hv'
    · exact h.answered v' ((List.mem_append.mp hv').resolve_right (hanswered v'))
    · exact (Event.answered.inj (List.mem_singleton.mp hv')).2
  raised := by
    intro hr
    rw [hhistory] at hr
    rcases List.mem_append.mp hr with hr | hr
    · exact h.raised ((List.mem_append.mp hr).resolve_right hraised)
    · exact nomatch List.mem_singleton.mp hr

theorem did {d : Moved κ ν} (h : t.Holds key v) (hd : t.Did hashing id window operation d) :
    d.attempt.Holds key v ∧ key ∉ d.started := by
  have hne : ∀ {key' : κ} {p : Pending κ ν}, t.pending key' = some p → p.stage ≠ .kept v → key ≠ key' := by
    rintro key' p hp hstage rfl
    exact hstage (h.pending p hp)
  have hfree : ∀ {key' : κ}, t.steps key' = none → key ≠ key' := by
    rintro key' hkey' rfl
    cases hkey'.symm.trans h.steps
  cases hd with
  | @recalled ask kept hcall hkept =>
    refine ⟨?_, List.not_mem_nil⟩
    by_cases hkey : key = t.key hashing id ask
    · subst hkey
      obtain rfl := Option.some.inj (hkept.symm.trans h.steps)
      exact h.recalled
    · have hcount : (t.count hashing id (.step ask)).Holds key v := h.count hkey
      exact hcount.stage hkey _
  | @given member kept hcall hkept =>
    refine ⟨?_, List.not_mem_nil⟩
    by_cases hkey : key = t.key hashing id ⟨member, []⟩
    · subst hkey
      obtain rfl := Option.some.inj (hkept.symm.trans h.steps)
      exact h.given h.steps h.pending rfl (fun v' hv' => by cases List.mem_singleton.mp hv')
        fun hr => by cases List.mem_singleton.mp hr
    · have hcount : (t.count hashing id (.value member)).Holds key v := h.count hkey
      exact hcount.see_answered hkey kept
  | @asked ask hcall hkept =>
    have hcount : (t.count hashing id (.step ask)).Holds key v := h.count (hfree hkept)
    exact ⟨hcount.stage (hfree hkept) _, List.not_mem_nil⟩
  | @took member value now hcall hkept =>
    have hcount : (t.count hashing id (.value member)).Holds key v := h.count (hfree hkept)
    have htaken : (t.taken hashing id window member value now).Holds key v :=
      hcount.other (Function.update_of_ne (hfree hkept) _ _) rfl (List.append_nil _).symm
        (fun _ => List.not_mem_nil) (fun _ => List.not_mem_nil) List.not_mem_nil
    exact ⟨htaken.see_answered (hfree hkept) value, fun hmem => hfree hkept (List.mem_singleton.mp hmem)⟩
  | began hkey =>
    have hkeys := hne hkey fun hstage => by cases hstage
    exact ⟨h.stage hkeys _, fun hmem => hkeys (List.mem_singleton.mp hmem)⟩
  | @kept key' ask answer now hkey =>
    have hfixed : (t.fixed window now).Holds key v :=
      ⟨h.steps, h.pending, h.asked, h.answered, h.raised⟩
    exact ⟨hfixed.stage (hne hkey fun hstage => by cases hstage) _, List.not_mem_nil⟩
  | @answered key' p stored hkey hstored =>
    refine ⟨?_, List.not_mem_nil⟩
    by_cases hkeys : key = key'
    · subst hkeys
      rw [h.pending p hkey] at hstored
      obtain rfl := Option.some.inj hstored
      have hnone : (t.answered key v).pending key = none := Function.update_self ..
      refine h.given (Function.update_self ..) (fun q hq => by cases hnone.symm.trans hq) ?_
        (fun _ => List.not_mem_nil) List.not_mem_nil
      rw [List.append_nil]
      rfl
    · have hended : (t.answered key' stored).Holds key v :=
        (h.stage hkeys none).other (Function.update_of_ne hkeys _ _) rfl (List.append_nil _).symm
          (fun _ => List.not_mem_nil) (fun _ => List.not_mem_nil) List.not_mem_nil
      exact hended.see_answered hkeys stored
  | @failed key' p hkey hraises =>
    have hkeys : key ≠ key' := hne hkey fun hstage => by
      rw [hstage] at hraises
      cases hraises
    refine ⟨(h.stage hkeys none).see (fun _ hevent => by cases hevent) (fun _ hevent => by cases hevent)
      fun hevent => hkeys (Event.raised.inj hevent).symm, List.not_mem_nil⟩
  | stopped => exact ⟨⟨h.steps, h.pending, h.asked, h.answered, h.raised⟩, List.not_mem_nil⟩

theorem stored (h : t.Holds key v) (key' : κ) (kept : ν) : (t.stored key' kept).Holds key v := by
  simp only [Attempt.stored]
  split
  · rename_i ask hpending
    have hne : key ≠ key' := by
      rintro rfl
      exact nomatch h.pending _ hpending
    exact ⟨h.steps, (h.stage hne _).pending, (h.stage hne _).asked, h.answered, h.raised⟩
  · exact ⟨h.steps, h.pending, h.asked, h.answered, h.raised⟩

end Attempt.Holds

def State.Holds (a : ι) (key : κ) (v : ν) (s : State ι κ ν) : Prop :=
  (a, key) ∉ s.started ∧ ∃ t, s.attempts a = some t ∧ t.Holds key v

theorem State.Holds.step {a : ι} {key : κ} {v : ν} {s s' : State ι κ ν} (h : s.Holds a key v)
    {act : Act ι κ ν} (hstep : step hashing id window operation s act = some s') :
    s'.Holds a key v := by
  obtain ⟨hstarted, t, ht, hholds⟩ := h
  cases next_of_step _ _ _ _ hstep with
  | @begun b hb =>
    have hne : a ≠ b := by
      rintro rfl
      exact nomatch ht.symm.trans hb
    exact ⟨hstarted, t, (Function.update_of_ne hne _ _).trans ht, hholds⟩
  | @moved b m u d hb hmove =>
    have hd := Attempt.did_of_move _ _ _ _ hmove
    by_cases hab : a = b
    · subst hab
      obtain rfl := Option.some.inj (ht.symm.trans hb)
      obtain ⟨hmoved, hnot⟩ := hholds.did hd
      refine ⟨fun hmem => ?_, d.attempt, Function.update_self .., hmoved⟩
      rcases List.mem_append.mp hmem with hmem | hmem
      · exact hstarted hmem
      · obtain ⟨key', hkey', heq⟩ := List.mem_map.mp hmem
        exact hnot ((Prod.mk.inj heq).2 ▸ hkey')
    · refine ⟨fun hmem => ?_, t, (Function.update_of_ne hab _ _).trans ht, hholds⟩
      rcases List.mem_append.mp hmem with hmem | hmem
      · exact hstarted hmem
      · obtain ⟨key', -, heq⟩ := List.mem_map.mp hmem
        exact hab (Prod.mk.inj heq).1.symm
  | @landed i m hi =>
    refine ⟨hstarted, ?_⟩
    by_cases hab : a = m.attempt
    · refine ⟨t.stored m.record.key (record s.journal m.record).2, ?_, hholds.stored _ _⟩
      simp only [State.landed, ← hab, Function.update_self, ht, Option.map_some]
    · exact ⟨t, (Function.update_of_ne hab _ _).trans ht, hholds⟩
  | lost i => exact ⟨hstarted, t, ht, hholds⟩

end Toa.Continuity
