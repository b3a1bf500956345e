import Mathlib.Data.List.Induction
import Mathlib.Data.List.Perm.Subperm
import Toa.Amqp.Serving

/-! What a closing tells of the process: a communication stops consuming only once what was in hand when a
consumer of it began to close is done, and a consumer that is closed hands on nothing more. -/

set_option linter.unusedSectionVars false

namespace Toa.Amqp
open Run

theorem Kind.drains_of_settles {kind : Kind} (h : kind.settles = true) : kind.drains = true := by
  cases kind <;> first | rfl | cases h

theorem Kind.owner_settles {kind kind' : Kind} {k k' : ℕ} (h : kind.settles = true) (h' : kind'.settles = false)
    (hdrains : kind'.drains = true) : (kind.owner k).1 ≠ (kind'.owner k').1 := by
  cases kind' with
  | inbound channel label =>
    intro heq
    unfold Kind.owner at heq
    split at heq <;> cases heq
    cases h
  | _ => simp_all [Kind.settles, Kind.drains]

theorem Kind.consumes_pooled {kind : Kind} {k : ℕ} (h : (kind.owner k).1 = .outbound) : kind.consumes = false := by
  unfold Kind.owner at h
  split at h <;> first | rfl | cases h

/-- It began to close, and there was a moment since at which the process handled nothing. -/
def Phase.waited (phase : Phase) : Prop := 4 ≤ phase.rank

instance (phase : Phase) : Decidable phase.waited := inferInstanceAs (Decidable (_ ≤ _))

theorem Phase.waited.closing {phase : Phase} (h : phase.waited) : 3 ≤ phase.rank := Nat.le_of_succ_le h

variable {ν κ : Type*} [DecidableEq ν] [DecidableEq κ]

namespace Process
variable {s t : Process ν κ} {n m : ν}

def Holds (s : Process ν κ) (n : ν) : Phase → Prop
  | .settling => (s.consumers n).kind.settles = true
  | .settled => (s.consumers n).kind.settles = true ∧ ∀ d ∈ s.running, (s.consumers n).began ≤ d.1
  | .sealing => (s.comm n).isSealed = true
  | .draining pending => (s.comm n).status = .sealed ∧ ∀ d ∈ s.running, d.2 = some n → d.1 ∈ pending
  | .closed => (s.consumers n).kind.drains = true →
      (s.comm n).status = .sealed ∧ ∀ d ∈ s.running, d.2 ≠ some n
  | .unmade | .made | .opened => True

/-- Of the communication of a consumer, one began to close after what was in hand then was done. -/
def Begun (s : Process ν κ) (n : ν) : Prop :=
  ∃ m, (s.consumers m).via = (s.consumers n).via ∧ (s.consumers m).kind.settles = true ∧
    (s.consumers m).phase.waited ∧ ∀ d ∈ s.running, (s.consumers m).began ≤ d.1

structure Stops (s : Process ν κ) : Prop where
  holds : ∀ n, s.Holds n (s.consumers n).phase
  begun : ∀ n, (s.consumers n).kind.settles = true → 2 ≤ (s.consumers n).phase.rank →
    (s.comm n).isSealed = true → s.Begun n

theorem stops_init [Inhabited κ] : (init : Process ν κ).Stops where
  holds _ := trivial
  begun _ h := by cases h

theorem Holds.mono {phase : Phase} (h : s.Holds n phase) (hkept : Kept s t) (hrunning : t.running ⊆ s.running)
    (hbegan : phase = .settled → (t.consumers n).began = (s.consumers n).began) : t.Holds n phase := by
  cases phase with
  | settling => exact (congrArg Kind.settles (hkept.kind n)).trans h
  | settled =>
    refine ⟨(congrArg Kind.settles (hkept.kind n)).trans h.1, fun d hd => ?_⟩
    rw [hbegan rfl]
    exact h.2 d (hrunning hd)
  | sealing => exact (hkept.comm n).isSealed h
  | draining pending => exact ⟨(hkept.comm n).sealed h.1, fun d hd => h.2 d (hrunning hd)⟩
  | closed =>
    intro hdrains
    obtain ⟨hsealed, hnone⟩ := h ((congrArg Kind.drains (hkept.kind n)).symm.trans hdrains)
    exact ⟨(hkept.comm n).sealed hsealed, fun d hd => hnone d (hrunning hd)⟩
  | unmade | made | opened => trivial

theorem Holds.congr {phase : Phase} (h : s.Holds n phase) (hconsumer : t.consumers n = s.consumers n)
    (hstatus : (t.comm n).status = (s.comm n).status) (hrunning : t.running = s.running) : t.Holds n phase := by
  cases phase with
  | unmade | made | opened => trivial
  | _ =>
    simp only [Holds, Communication.isSealed, hconsumer, hstatus, hrunning] at h ⊢
    exact h

theorem Begun.mono (h : s.Begun n) (hkept : Kept s t) (hrunning : t.running ⊆ s.running) : t.Begun n := by
  obtain ⟨m, hheld, hsettles, hwaited, hbegan⟩ := h
  refine ⟨m, ?_, ?_, Nat.le_trans hwaited (hkept.rank m), fun d hd => ?_⟩
  · rw [hkept.via, hkept.via, hheld]
  · rw [hkept.kind, hsettles]
  · rw [hkept.began m hwaited.closing]
    exact hbegan d (hrunning hd)

theorem Stops.kept (h : s.Stops) (hkept : Kept s t) (hrunning : t.running ⊆ s.running)
    (hphase : ∀ n, (t.consumers n).phase = (s.consumers n).phase ∨ t.Holds n (t.consumers n).phase)
    (hsealed : ∀ n, (t.consumers n).kind.settles = true → 2 ≤ (t.consumers n).phase.rank →
      (t.comm n).isSealed = true → 2 ≤ (s.consumers n).phase.rank ∧ (s.comm n).isSealed = true ∨ t.Begun n) :
    t.Stops where
  holds n := by
    obtain hsame | hnew := hphase n
    · rw [hsame]
      refine (h.holds n).mono hkept hrunning fun hsettled => hkept.began n ?_
      rw [hsettled]
      decide
    · exact hnew
  begun n hsettles hrank hnow := by
    obtain ⟨hup, hbefore⟩ | hbegun := hsealed n hsettles hrank hnow
    · rw [hkept.kind] at hsettles
      exact (h.begun n hsettles hup hbefore).mono hkept hrunning
    · exact hbegun

theorem stops_take (hs : s.Counted) (h : s.Stops) {taker : Option ν}
    (htaker : ∀ n, taker = some n → (s.comm n).status ≠ .sealed) : (s.taken taker).Stops where
  holds n := by
    have hn := h.holds n
    -- the phases and the communications are as they were
    change (s.taken taker).Holds n (s.consumers n).phase
    cases hphase : (s.consumers n).phase with
    | settling => exact (hphase ▸ hn :)
    | settled =>
      rw [hphase] at hn
      refine ⟨hn.1, fun d hd => ?_⟩
      obtain hold | hnew := List.mem_append.mp hd
      · exact hn.2 d hold
      · obtain rfl := List.mem_singleton.mp hnew
        exact hs.began n
    | sealing => exact (hphase ▸ hn :)
    | draining pending =>
      rw [hphase] at hn
      refine ⟨hn.1, fun d hd hof => ?_⟩
      obtain hold | hnew := List.mem_append.mp hd
      · exact hn.2 d hold hof
      · obtain rfl := List.mem_singleton.mp hnew
        exact absurd hn.1 (htaker n hof)
    | closed =>
      rw [hphase] at hn
      intro hdrains
      obtain ⟨hsealed, hnone⟩ := hn hdrains
      refine ⟨hsealed, fun d hd hof => ?_⟩
      obtain hold | hnew := List.mem_append.mp hd
      · exact hnone d hold hof
      · obtain rfl := List.mem_singleton.mp hnew
        exact htaker n hof hsealed
    | unmade | made | opened => trivial
  begun n hsettles hrank hsealed := by
    obtain ⟨m, hheld, hm, hup, hbegan⟩ := h.begun n hsettles hrank hsealed
    refine ⟨m, hheld, hm, hup, fun d hd => ?_⟩
    obtain hold | hnew := List.mem_append.mp hd
    · exact hbegan d hold
    · obtain rfl := List.mem_singleton.mp hnew
      exact hs.began m

theorem Stops.turn {phase : Phase} (h : s.Stops) (hmade : (s.consumers n).phase ≠ .unmade)
    (hrank : (s.consumers n).phase.rank ≤ phase.rank) (hholds : (s.turn n phase).Holds n phase)
    (hup : 2 ≤ (s.consumers n).phase.rank ∨ (s.comm n).isSealed = false) : (s.turn n phase).Stops := by
  refine h.kept (.turn hmade hrank) (List.Subset.refl _) (fun m => ?_) fun m hsettles hm hsealed => .inl ?_
  · rw [phase_turn]
    split_ifs with hmn
    · exact .inr (hmn ▸ hholds)
    · exact .inl rfl
  · have hcomm : (s.turn n phase).comm m = s.comm m := congrArg s.comms (via_turn s n m phase)
    rw [hcomm] at hsealed
    refine ⟨?_, hsealed⟩
    by_cases hmn : m = n
    · subst hmn
      exact hup.resolve_right fun hnot => absurd (hsealed.symm.trans hnot) (by simp)
    · rwa [phase_turn, if_neg hmn] at hm

theorem Stops.sealComm {c : κ} (h : s.Stops)
    (hbegun : ∀ n, (s.consumers n).via = c → (s.comms c).status = .consuming →
      (s.consumers n).kind.settles = true → 2 ≤ (s.consumers n).phase.rank → s.Begun n) :
    (s.sealComm c).Stops := by
  have hkept : Kept s (s.sealComm c) := .sealComm s c
  refine h.kept hkept (List.Subset.refl _) (fun _ => .inl rfl) fun m hsettles hm hsealed => ?_
  by_cases hbefore : (s.comm m).isSealed = true
  · exact .inl ⟨hm, hbefore⟩
  · refine .inr (Begun.mono ?_ hkept (List.Subset.refl _))
    have hheld : (s.consumers m).via = c := by
      by_contra hne
      have hsame : (s.sealComm c).comm m = s.comm m := Function.update_of_ne hne ..
      exact hbefore (hsame ▸ hsealed)
    have hstatus : (s.comms c).status = .consuming := by
      rw [comm, hheld] at hbefore
      refine (Communication.consuming_or_isSealed fun hunmade => ?_).resolve_right hbefore
      have hstill := (hkept.comms c).unmade.mpr hunmade
      rw [comm, hkept.via, hheld, Communication.isSealed, hstill] at hsealed
      simp at hsealed
    exact hbegun m hheld hstatus hsettles hm

theorem phase_done (hs : s.Counted) {serial : ℕ} (hserial : serial ∈ s.serials) :
    ((s.done serial).consumers n).phase = (s.consumers n).phase ∨
      (s.consumers n).phase = .settling ∧ (s.done serial).running = [] ∧
        ((s.done serial).consumers n).phase = .settled := by
  have hlength := hs.length_done hserial
  unfold Process.done
  dsimp only
  split_ifs with hcount
  · rw [phase_wake]
    split_ifs with hn
    · refine .inr ⟨(hs.waits n).mp hn, List.eq_nil_of_length_eq_zero ?_, rfl⟩
      exact hlength.trans ((congrArg (· - 1) hs.count.symm).trans hcount)
    · exact .inl rfl
  · exact .inl rfl

theorem stops_done (h : s.Stops) (hs : s.Counted) {serial : ℕ} (hserial : serial ∈ s.serials) :
    (s.done serial).Stops := by
  have hidle := fun n => (hs.waits n).mp
  have hkept : Kept s (s.done serial) := .done hidle serial
  have hrunning : (s.done serial).running ⊆ s.running := by
    unfold Process.done
    dsimp only
    split_ifs <;> exact List.filter_subset_self _
  have hphase := fun n => @phase_done _ _ _ _ s n hs serial hserial
  refine h.kept hkept hrunning (fun n => ?_) fun n hsettles hrank hsealed => .inl ?_
  · obtain hsame | ⟨hsettling, hnone, hsettled⟩ := hphase n
    · exact .inl hsame
    · have hn := h.holds n
      rw [hsettling] at hn
      rw [hsettled]
      refine .inr ⟨(congrArg Kind.settles (hkept.kind n)).trans hn, fun d hd => ?_⟩
      rw [hnone] at hd
      cases hd
  · have hcomms : (s.done serial).comm n = s.comm n := by
      rw [comm, hkept.via]
      unfold Process.done
      dsimp only
      split_ifs <;> rfl
    rw [hcomms] at hsealed
    refine ⟨?_, hsealed⟩
    obtain hsame | ⟨hsettling, -⟩ := hphase n
    · rwa [hsame] at hrank
    · rw [hsettling]
      decide

theorem Made.via_ne (h : s.Made) (hn : (s.consumers n).kind.settles = true)
    (hup : (s.consumers n).phase ≠ .unmade) (hm : (s.consumers m).kind.settles = false)
    (hdrains : (s.consumers m).kind.drains = true) (hmade : (s.consumers m).phase ≠ .unmade) :
    (s.consumers n).via ≠ (s.consumers m).via := by
  intro hheld
  obtain ⟨k, hk⟩ := h.owned n hup
  obtain ⟨k', hk'⟩ := h.owned m hmade
  rw [comm, hheld] at hk
  exact Kind.owner_settles hn hm hdrains (hk.trans hk'.symm)

theorem comm_sealComm (s : Process ν κ) (n : ν) (phase : Phase) :
    ((s.sealComm (s.consumers n).via).turn n phase).comm n = (s.comm n).seal := by
  rw [comm, via_turn]
  exact Function.update_self ..

theorem Made.isSealed_sealComm (h : s.Made) (hn : (s.consumers n).phase ≠ .unmade) (phase : Phase) :
    (((s.sealComm (s.consumers n).via).turn n phase).comm n).isSealed = true := by
  rw [comm_sealComm]
  refine Communication.isSealed_seal fun hunmade => ?_
  have hlinked := h.linked n hn
  rw [comm, h.unmade _ hunmade] at hlinked
  cases hlinked

theorem stops_close (hs : s.Counted) (hmade : s.Made) (h : s.Stops) (hstep : s.step (.close n) = some t) :
    t.Stops := by
  obtain ⟨hphase, ht⟩ := Option.ite_none_right_eq_some.mp hstep
  have hbegun : (s.beginClose n).Stops := by
    refine h.kept (.beginClose hphase) (List.Subset.refl _) (fun m => .inl (phase_beginClose s n m)) ?_
    intro m hsettles hrank hsealed
    rw [phase_beginClose] at hrank
    have hcomm : (s.beginClose n).comm m = s.comm m := congrArg s.comms (via_beginClose s n m)
    exact .inl ⟨hrank, hcomm ▸ hsealed⟩
  have hopened : ((s.beginClose n).consumers n).phase = .opened := (phase_beginClose s n n).trans hphase
  have hne : ((s.beginClose n).consumers n).phase ≠ .unmade := fun hunmade =>
    absurd (hopened.symm.trans hunmade) (by decide)
  have hrank : ((s.beginClose n).consumers n).phase.rank = 2 := congrArg Phase.rank hopened
  dsimp only at ht
  split_ifs at ht with hsettles hcount hdrains <;> cases ht
  · have hnone : s.running = [] := List.eq_nil_of_length_eq_zero (hs.count.symm.trans hcount)
    refine hbegun.turn hne (hrank.trans_le (by decide)) ⟨?_, fun d hd => ?_⟩ (.inl hrank.ge)
    · rwa [kind_turn, kind_beginClose]
    · cases hnone ▸ hd
  · refine Stops.kept (s := (s.beginClose n).turn n .settling) ?_ { Kept.refl _ with } (List.Subset.refl _)
      (fun _ => .inl rfl) fun m _ hm hsealed => .inl ⟨hm, hsealed⟩
    refine hbegun.turn hne (hrank.trans_le (by decide)) ?_ (.inl hrank.ge)
    change ((turn (s.beginClose n) n .settling).consumers n).kind.settles = true
    rwa [kind_turn, kind_beginClose]
  · have hsettles' : (s.consumers n).kind.settles = false := Bool.eq_false_iff.mpr hsettles
    have hunmade : (s.consumers n).phase ≠ .unmade := by simp [hphase]
    have hsealed : ((s.beginClose n).sealComm ((s.beginClose n).consumers n).via).Stops := by
      refine hbegun.sealComm fun m hheld _ hm hup => ?_
      rw [via_beginClose, via_beginClose] at hheld
      rw [kind_beginClose] at hm
      rw [phase_beginClose] at hup
      refine absurd hheld (hmade.via_ne hm (fun hnot => ?_) hsettles' hdrains hunmade)
      rw [hnot] at hup
      exact absurd hup (by decide)
    refine hsealed.turn hne (hrank.trans_le (by decide)) ?_ (.inl hrank.ge)
    exact ((Kept.beginClose hphase).made hmade).isSealed_sealComm hne .sealing
  · refine hbegun.turn hne (hrank.trans_le (by decide)) (fun hnot => ?_) (.inl hrank.ge)
    rw [kind_turn, kind_beginClose] at hnot
    exact absurd hnot hdrains

theorem stops_seals (hmade : s.Made) (h : s.Stops) (hstep : s.step (.seals n) = some t) : t.Stops := by
  obtain ⟨hphase, ht⟩ := Option.ite_none_right_eq_some.mp hstep
  cases ht
  have hn := h.holds n
  rw [hphase] at hn
  have hrank : (s.consumers n).phase.rank = 4 := congrArg Phase.rank hphase
  have hne : (s.consumers n).phase ≠ .unmade := fun hunmade => absurd (hphase.symm.trans hunmade) (by decide)
  have hsealed : (s.sealComm (s.consumers n).via).Stops :=
    h.sealComm fun m hheld _ _ _ => ⟨n, hheld.symm, hn.1, hrank.ge, hn.2⟩
  exact hsealed.turn hne (hrank.trans_le (by decide)) (hmade.isSealed_sealComm hne .sealing)
    (.inl (hrank.ge.trans' (by decide)))

theorem stops_shut (hmade : s.Made) (h : s.Stops) {c : κ} (hstep : s.step (.shut c) = some t) : t.Stops := by
  obtain ⟨⟨-, hlinks⟩, ht⟩ := Option.ite_none_right_eq_some.mp hstep
  cases ht
  have hsealed : (s.sealComm c).Stops := by
    refine h.sealComm fun n hheld hconsuming hsettles hup => ?_
    subst hheld
    -- whoever had opened is closed, and has sealed it
    have hn := h.holds n
    have hmember := hmade.linked n fun hunmade => by
      rw [hunmade] at hup
      exact absurd hup (by decide)
    obtain hfresh | hclosed := hlinks n hmember
    · rw [hfresh] at hup
      exact absurd hup (by decide)
    · rw [hclosed] at hn
      have hstatus := (hn (Kind.drains_of_settles hsettles)).1
      exact absurd (hconsuming.symm.trans hstatus) (by decide)
  exact ⟨hsealed.holds, hsealed.begun⟩

theorem stops_make (hmade : s.Made) (h : s.Stops) {kind : Kind} {references : String} {fresh : κ}
    (hstep : s.step (.make n kind references fresh) = some t) : t.Stops := by
  obtain ⟨hunmade, u, c, hcomm, rfl⟩ := step_make hstep
  obtain ⟨hconsumers, hrunning⟩ : u.consumers = s.consumers ∧ u.running = s.running := by
    obtain ⟨rfl, -⟩ | ⟨-, -, rfl⟩ := communication_cases hcomm <;> exact ⟨rfl, rfl⟩
  have hstatus : ∀ d, (s.comms d).status ≠ .unmade → (u.comms d).status = (s.comms d).status := by
    intro d hd
    obtain ⟨rfl, -⟩ | ⟨-, hfresh, rfl⟩ := communication_cases hcomm
    · rfl
    · refine congrArg Communication.status (Function.update_of_ne ?_ ..)
      rintro rfl
      exact hd hfresh
  set v : Process ν κ := { u with alone := (kind.owner s.alone).2 } with hv
  have hother : ∀ m, m ≠ n → (v.join n kind c).consumers m = s.consumers m := fun m hm =>
    (consumers_join_of_ne hm).trans (congrFun hconsumers m)
  have hmadeStatus : ∀ m, (s.consumers m).phase ≠ .unmade → (s.comm m).status ≠ .unmade := by
    intro m hm hnot
    have hlinked := hmade.linked m hm
    rw [comm, hmade.unmade _ hnot] at hlinked
    cases hlinked
  have hsame : ∀ m, m ≠ n → (s.consumers m).phase ≠ .unmade →
      ((v.join n kind c).comm m).status = (s.comm m).status := by
    intro m hm hup
    rw [comm, hother m hm, status_join]
    exact hstatus _ (hmadeStatus m hup)
  refine ⟨fun m => ?_, fun m hsettles hup hsealed => ?_⟩
  · by_cases hm : m = n
    · subst hm
      rw [consumers_join_self]
      trivial
    · rw [hother m hm]
      by_cases hup : (s.consumers m).phase = .unmade
      · rw [hup]
        trivial
      · exact (h.holds m).congr (hother m hm) (hsame m hm hup) hrunning
  · have hm : m ≠ n := by
      rintro rfl
      rw [consumers_join_self] at hup
      exact absurd hup (Nat.lt_irrefl 1)
    rw [hother m hm] at hsettles hup
    have hne : (s.consumers m).phase ≠ .unmade := fun hnot => by
      rw [hnot] at hup
      exact absurd hup (by decide)
    rw [Communication.isSealed, hsame m hm hne] at hsealed
    obtain ⟨l, hheld, hl, hclosing, hbegan⟩ := h.begun m hsettles hup hsealed
    have hln : l ≠ n := by
      rintro rfl
      rw [hunmade] at hclosing
      exact absurd hclosing.closing (by decide)
    refine ⟨l, ?_⟩
    rw [hother l hln, hother m hm]
    exact ⟨hheld, hl, hclosing, fun d hd => hbegan d (hrunning ▸ hd)⟩

theorem stops_step (hs : s.Counted) (hmade : s.Made) (h : s.Stops) {a : Act ν κ} (hstep : s.step a = some t) :
    t.Stops := by
  cases a with
  | make n kind references c => exact stops_make hmade h hstep
  | opens n =>
    obtain ⟨⟨hphase, hconsuming⟩, ht⟩ := Option.ite_none_right_eq_some.mp hstep
    cases ht
    refine h.turn (by simp [hphase]) (by simp [hphase, Phase.rank]) trivial (.inr ?_)
    simp [Communication.isSealed, hconsuming]
  | take taker =>
    cases taker with
    | none =>
      cases hstep
      exact stops_take hs h fun n hn => by cases hn
    | some n =>
      obtain ⟨⟨-, -, -, hstatus⟩, ht⟩ := Option.ite_none_right_eq_some.mp hstep
      cases ht
      refine stops_take hs h fun m hm => ?_
      cases hm
      exact hstatus
  | finish serial =>
    obtain ⟨hserial, ht⟩ := Option.ite_none_right_eq_some.mp hstep
    cases ht
    exact stops_done h hs hserial
  | close n => exact stops_close hs hmade h hstep
  | seals n => exact stops_seals hmade h hstep
  | cancelled c =>
    obtain ⟨hsealing, ht⟩ := Option.ite_none_right_eq_some.mp hstep
    cases ht
    have hkept := Kept.update (s := s) (Communication.onward_cancelled hsealing)
    refine h.kept hkept (List.Subset.refl _) (fun _ => .inl rfl) fun m _ hup hsealed => .inl ⟨hup, ?_⟩
    by_cases hheld : (s.consumers m).via = c
    · subst hheld
      simp [comm, Communication.isSealed, hsealing]
    · dsimp only [comm] at hsealed
      rwa [Function.update_of_ne hheld] at hsealed
  | drain n =>
    obtain ⟨⟨hphase, hsealed⟩, ht⟩ := Option.ite_none_right_eq_some.mp hstep
    cases ht
    refine h.turn (by simp [hphase]) (by simp [hphase, Phase.rank]) ⟨?_, fun d hd hof => ?_⟩
      (.inl (by simp [hphase, Phase.rank]))
    · rwa [comm, via_turn]
    · exact List.mem_map_of_mem (List.mem_filter.mpr ⟨hd, decide_eq_true hof⟩)
  | closed n =>
    obtain ⟨pending, hphase, hdone, rfl⟩ := step_closed hstep
    have hn := h.holds n
    rw [hphase] at hn
    refine h.turn (by simp [hphase]) (by simp [hphase, Phase.rank]) (fun _ => ⟨?_, fun d hd hof => ?_⟩)
      (.inl (by simp [hphase, Phase.rank]))
    · rw [comm, via_turn]
      exact hn.1
    · exact hdone d.1 (hn.2 d hd hof) (List.mem_map_of_mem hd)
  | shut c => exact stops_shut hmade h hstep

/-! ## Whole runs -/

structure Inv (s : Process ν κ) : Prop where
  counted : s.Counted
  made : s.Made
  stops : s.Stops

theorem inv_of_run [Inhabited κ] {as : List (Act ν κ)} (h : run step init as = some s) : s.Inv :=
  run_invariant_all (fun _ _ _ hs hstep =>
    ⟨counted_step hs.counted hstep, made_step hs.counted hs.made hstep,
      stops_step hs.counted hs.made hs.stops hstep⟩) ⟨counted_init, made_init, stops_init⟩ h

/-- A consumer that was made keeps its kind and its communication, and goes on. -/
structure Goes (s t : Process ν κ) (n : ν) : Prop where
  kind : (t.consumers n).kind = (s.consumers n).kind
  via : (t.consumers n).via = (s.consumers n).via
  rank : (s.consumers n).phase.rank ≤ (t.consumers n).phase.rank
  began : 3 ≤ (s.consumers n).phase.rank → (t.consumers n).began = (s.consumers n).began

theorem goes_step (hs : s.Counted) {a : Act ν κ} (hstep : s.step a = some t)
    (hn : (s.consumers n).phase ≠ .unmade) : Goes s t n := by
  by_cases ha : ∃ m kind references c, a = .make m kind references c
  · obtain ⟨m, kind, references, fresh, rfl⟩ := ha
    obtain ⟨hunmade, u, c, hcomm, rfl⟩ := step_make hstep
    have hne : n ≠ m := by
      rintro rfl
      exact hn hunmade
    have hsame : (Process.join { u with alone := (kind.owner s.alone).2 } m kind c).consumers n = s.consumers n := by
      rw [consumers_join_of_ne hne]
      obtain ⟨rfl, -⟩ | ⟨-, -, rfl⟩ := communication_cases hcomm <;> rfl
    refine ⟨?_, ?_, ?_, fun _ => ?_⟩ <;> rw [hsame]
  · have hkept := step_kept hs hstep fun m kind references c heq => ha ⟨m, kind, references, c, heq⟩
    exact ⟨hkept.kind n, hkept.via n, hkept.rank n, hkept.began n⟩

theorem phase_step (hs : s.Counted) {a : Act ν κ} (hstep : s.step a = some t) (n : ν) :
    (t.consumers n).phase = (s.consumers n).phase ∨ (t.consumers n).phase.rank < 3 ∨
    (a = .close n ∧ (s.consumers n).phase = .opened ∧ (t.consumers n).began = s.serial ∧
      ((s.consumers n).kind.settles = true → (t.consumers n).phase = .settling ∨ t.running = [])) ∨
    ((s.consumers n).phase = .settling ∧ t.running = []) ∨ 4 ≤ (s.consumers n).phase.rank := by
  have hturn : ∀ (u : Process ν κ) (m : ν) (phase : Phase), u.consumers = s.consumers →
      (phase.rank < 3 ∨ 4 ≤ (s.consumers m).phase.rank) →
      ((u.turn m phase).consumers n).phase = (s.consumers n).phase ∨
        ((u.turn m phase).consumers n).phase.rank < 3 ∨ 4 ≤ (s.consumers n).phase.rank := by
    intro u m phase hconsumers hphase
    rw [phase_turn, hconsumers]
    split_ifs with hne
    · exact .inr (hne ▸ hphase)
    · exact .inl rfl
  have hlift : ∀ {p q r x y : Prop}, p ∨ q ∨ r → p ∨ q ∨ x ∨ y ∨ r := by tauto
  cases a with
  | make m kind references fresh =>
    obtain ⟨hunmade, u, c, hcomm, rfl⟩ := step_make hstep
    by_cases hne : n = m
    · subst hne
      rw [consumers_join_self]
      exact .inr (.inl (by simp [Phase.rank]))
    · rw [consumers_join_of_ne hne]
      obtain ⟨rfl, -⟩ | ⟨-, -, rfl⟩ := communication_cases hcomm <;> exact .inl rfl
  | opens m =>
    obtain ⟨-, ht⟩ := Option.ite_none_right_eq_some.mp hstep
    cases ht
    exact hlift (hturn s m .opened rfl (.inl (by decide)))
  | take taker =>
    cases taker with
    | none =>
      cases hstep
      exact .inl rfl
    | some m =>
      obtain ⟨-, ht⟩ := Option.ite_none_right_eq_some.mp hstep
      cases ht
      exact .inl rfl
  | finish serial =>
    obtain ⟨hserial, ht⟩ := Option.ite_none_right_eq_some.mp hstep
    cases ht
    obtain hsame | ⟨hsettling, hnone, -⟩ := @phase_done _ _ _ _ s n hs serial hserial
    · exact .inl hsame
    · exact .inr (.inr (.inr (.inl ⟨hsettling, hnone⟩)))
  | close m =>
    obtain ⟨hphase, ht⟩ := Option.ite_none_right_eq_some.mp hstep
    by_cases hne : n = m
    · subst hne
      refine .inr (.inr (.inl ⟨rfl, hphase, ?_⟩))
      dsimp only at ht
      split_ifs at ht with hsettles hcount hdrains <;> cases ht
      · refine ⟨by simp, fun _ => .inr ?_⟩
        exact List.eq_nil_of_length_eq_zero (hs.count.symm.trans hcount)
      · exact ⟨by simp, fun _ => .inl (by simp)⟩
      · exact ⟨by simp, fun h => absurd h hsettles⟩
      · exact ⟨by simp, fun h => absurd h hsettles⟩
    · refine .inl ?_
      dsimp only at ht
      split_ifs at ht <;> cases ht <;> simp [hne]
  | seals m =>
    obtain ⟨hphase, ht⟩ := Option.ite_none_right_eq_some.mp hstep
    cases ht
    exact hlift (hturn (s.sealComm _) m .sealing rfl (.inr (congrArg Phase.rank hphase).ge))
  | cancelled c =>
    obtain ⟨-, ht⟩ := Option.ite_none_right_eq_some.mp hstep
    cases ht
    exact .inl rfl
  | drain m =>
    obtain ⟨⟨hphase, -⟩, ht⟩ := Option.ite_none_right_eq_some.mp hstep
    cases ht
    exact hlift (hturn s m _ rfl (.inr ((congrArg Phase.rank hphase).ge.trans' (by decide))))
  | closed m =>
    obtain ⟨pending, hphase, -, rfl⟩ := step_closed hstep
    refine hlift (hturn s m .closed rfl (.inr ?_))
    rw [hphase]
    exact Nat.le_add_left 4 2
  | shut c =>
    obtain ⟨-, ht⟩ := Option.ite_none_right_eq_some.mp hstep
    cases ht
    exact .inl rfl

variable [Inhabited κ]

theorem began_of_closing {as : List (Act ν κ)} (h : run step init as = some s)
    (hn : 3 ≤ (s.consumers n).phase.rank) :
    ∃ before after u, as = before ++ .close n :: after ∧ run step init before = some u ∧
      (u.consumers n).via = (s.consumers n).via ∧ (s.consumers n).began = u.serial := by
  induction as using List.reverseRecOn generalizing s with
  | nil =>
    cases h
    simp [init, Phase.rank] at hn
  | append_singleton as a ih =>
    rw [run_append] at h
    obtain ⟨u, hu, hlast⟩ := Option.bind_eq_some_iff.mp h
    obtain ⟨v, hv, hend⟩ := run_cons_eq_some.mp hlast
    cases hend
    have hcounted := (inv_of_run hu).counted
    have hgoes : (u.consumers n).phase ≠ .unmade → Goes u s n := goes_step hcounted hv
    by_cases hbefore : 3 ≤ (u.consumers n).phase.rank
    · obtain ⟨before, after, w, rfl, hw, hheld, hbegan⟩ := ih hu hbefore
      have hgone := hgoes fun hunmade => by
        rw [hunmade] at hbefore
        exact absurd hbefore (by decide)
      refine ⟨before, after ++ [a], w, by simp, hw, hheld.trans hgone.via.symm, ?_⟩
      exact (hgone.began hbefore).trans hbegan
    · obtain hsame | hlow | ⟨rfl, hopened, hbegan, -⟩ | ⟨hsettling, -⟩ | hhigh := phase_step hcounted hv n
      · exact absurd (hsame ▸ hn) hbefore
      · exact absurd hn (Nat.not_le.mpr hlow)
      · refine ⟨as, [], u, rfl, hu, ?_, hbegan⟩
        exact (hgoes fun hunmade => absurd (hopened.symm.trans hunmade) (by decide)).via.symm
      · exact absurd (congrArg Phase.rank hsettling).ge hbefore
      · exact absurd (hhigh.trans' (by decide)) hbefore

/-- While a delivery is handled that was in hand when the consumers of a communication began to close, it
consumes: one that stopped did so for a consumer that began to close when everything was in hand that is not. -/
theorem served_until_done {as : List (Act ν κ)} (h : run step init as = some s)
    (hsettles : (s.consumers n).kind.settles = true) (hunmade : (s.consumers n).phase ≠ .unmade)
    (hmade : (s.consumers n).phase ≠ .made) (hsealed : (s.comm n).isSealed = true) :
    ∃ before m after u, as = before ++ .close m :: after ∧ run step init before = some u ∧
      (u.consumers m).via = (s.consumers n).via ∧ ∀ d ∈ u.running, d ∉ s.running := by
  have hrank : 2 ≤ (s.consumers n).phase.rank := by
    cases hphase : (s.consumers n).phase <;> simp_all [Phase.rank]
  obtain ⟨m, hheld, -, hclosing, hbegan⟩ := (inv_of_run h).stops.begun n hsettles hrank hsealed
  obtain ⟨before, after, u, hsplit, hu, hsame, hserial⟩ := began_of_closing h hclosing.closing
  refine ⟨before, m, after, u, hsplit, hu, hsame.trans hheld, fun d hd hstill => ?_⟩
  have hbelow := (inv_of_run hu).counted.below d hd
  exact absurd (hbegan d hstill) (Nat.not_le.mpr (hserial ▸ hbelow))

/-! ### A component's producer and receiver over one communication, and a channel of its own -/

def serving : List (Act ℕ ℕ) :=
  [.make 0 (.producer "shop.orders") "amqp://broker" 0, .make 1 (.receiver (some "shop.orders")) "amqp://broker" 1,
    .make 2 (.inbound "payments" "eu") "amqp://broker" 1, .opens 0, .opens 1, .opens 2, .take (some 0), .take none]

def stopping : List (Act ℕ ℕ) :=
  serving ++ [.close 0, .take (some 1), .finish 1, .finish 0, .finish 2, .seals 0, .take (some 1)]

theorem served_until_done_stopping : ∃ s, run step init stopping = some s ∧ s.serials = [3] ∧
    ∃ before m after u, stopping = before ++ .close m :: after ∧ run step init before = some u ∧
      (u.consumers m).via = (s.consumers 1).via ∧ ∀ d ∈ u.running, d ∉ s.running :=
  ⟨_, rfl, rfl, @served_until_done ℕ ℕ _ _ _ 1 _ stopping rfl rfl (by decide) (by decide) rfl⟩

theorem goes_run (hs : s.Counted) (hn : (s.consumers n).phase ≠ .unmade) {as : List (Act ν κ)}
    (h : run step s as = some t) : Goes s t n := by
  induction as generalizing s with
  | nil =>
    cases h
    exact ⟨rfl, rfl, le_rfl, fun _ => rfl⟩
  | cons a as ih =>
    obtain ⟨u, hu, hrest⟩ := run_cons_eq_some.mp h
    have hfirst := goes_step hs hu hn
    have hunmade : (u.consumers n).phase ≠ .unmade := fun hnot => by
      have hrank := hfirst.rank
      rw [hnot] at hrank
      exact hn (Phase.rank_eq_zero.mp (Nat.le_zero.mp hrank))
    have hthen := ih (counted_step hs hu) hunmade hrest
    exact ⟨hthen.kind.trans hfirst.kind, hthen.via.trans hfirst.via, hfirst.rank.trans hthen.rank,
      fun hclosing => (hthen.began (hclosing.trans hfirst.rank)).trans (hfirst.began hclosing)⟩

theorem closing_close (hstep : s.step (.close n) = some t) : 3 ≤ (t.consumers n).phase.rank := by
  obtain ⟨-, ht⟩ := Option.ite_none_right_eq_some.mp hstep
  dsimp only at ht
  split_ifs at ht <;> cases ht <;> simp [Phase.rank]

theorem waited_back (hs : s.Counted) {a : Act ν κ} (hstep : s.step a = some t) (hsome : t.running ≠ [])
    (hsettles : (t.consumers m).kind.settles = true) (hwaited : (t.consumers m).phase.waited) :
    (s.consumers m).phase.waited := by
  obtain hsame | hlow | ⟨-, hopened, -, hclose⟩ | ⟨-, hnone⟩ | hhigh := phase_step hs hstep m
  · exact hsame ▸ hwaited
  · exact absurd hlow (Nat.not_lt.mpr hwaited.closing)
  · have hgoes : Goes s t m := goes_step hs hstep fun hunmade => by
      rw [hopened] at hunmade
      cases hunmade
    obtain hsettling | hnone := hclose (hgoes.kind ▸ hsettles)
    · rw [hsettling] at hwaited
      exact absurd hwaited (by decide)
    · exact absurd hnone hsome
  · exact absurd hnone hsome
  · exact hhigh

theorem waited_before {as bs : List (Act ν κ)} {u : Process ν κ} (hu : run step init as = some u)
    (h : run step u bs = some s)
    (hbusy : ∀ mid rest v, mid ≠ [] → bs = mid ++ rest → run step u mid = some v → v.running ≠ [])
    (hsettles : (s.consumers m).kind.settles = true) (hwaited : (s.consumers m).phase.waited) :
    (u.consumers m).phase.waited ∧ (u.consumers m).via = (s.consumers m).via ∧
      (u.consumers m).kind.settles = true := by
  induction bs using List.reverseRecOn generalizing s with
  | nil =>
    cases h
    exact ⟨hwaited, rfl, hsettles⟩
  | append_singleton bs b ih =>
    have hrun := h
    rw [run_append] at hrun
    obtain ⟨w, hw, hlast⟩ := Option.bind_eq_some_iff.mp hrun
    obtain ⟨x, hx, hend⟩ := run_cons_eq_some.mp hlast
    cases hend
    have hreached : run step init (as ++ bs) = some w := by
      rw [run_append, hu]
      exact hw
    have hcounted := (inv_of_run hreached).counted
    have hsome : s.running ≠ [] := hbusy (bs ++ [b]) [] s (by simp) (List.append_nil _).symm h
    have hback := waited_back hcounted hx hsome hsettles hwaited
    have hgoes : Goes w s m := goes_step hcounted hx fun hunmade => by
      rw [hunmade] at hback
      exact absurd hback (by decide)
    obtain ⟨hthen, hvia, hkind⟩ := ih hw
      (fun mid rest v hmid hsplit hv => hbusy mid (rest ++ [b]) v hmid (by rw [hsplit, List.append_assoc]) hv)
      (hgoes.kind ▸ hsettles) hback
    exact ⟨hthen, hvia.trans hgoes.via.symm, hkind⟩

theorem settling_busy {before after : List (Act ν κ)} {u : Process ν κ} (hu : run step init before = some u)
    (h : run step u (.close n :: after) = some s) (hsettles : (u.consumers n).kind.settles = true) :
    (s.consumers n).phase = .settling ↔
      ∀ mid rest v, after = mid ++ rest → run step u (.close n :: mid) = some v → v.running ≠ [] := by
  induction after using List.reverseRecOn generalizing s with
  | nil =>
    obtain ⟨v, hv, hs⟩ := run_cons_eq_some.mp h
    cases hs
    have hcount := (inv_of_run hu).counted.count
    obtain ⟨hphase, ht⟩ := Option.ite_none_right_eq_some.mp hv
    have hsame : s.running = u.running ∧ ((s.consumers n).phase = .settling ↔ u.running ≠ []) := by
      dsimp only at ht
      rw [if_pos hsettles] at ht
      split_ifs at ht with hzero <;> cases ht
      · have hnone : u.running = [] := List.eq_nil_of_length_eq_zero (hcount.symm.trans hzero)
        exact ⟨rfl, iff_of_false (by simp) (not_not.mpr hnone)⟩
      · refine ⟨rfl, iff_of_true (by simp) fun hnone => hzero ?_⟩
        exact hcount.trans (congrArg List.length hnone)
    rw [hsame.2]
    constructor
    · intro hsome mid rest w hsplit hw
      obtain ⟨rfl, -⟩ := List.append_eq_nil_iff.mp hsplit.symm
      cases h.symm.trans hw
      exact hsame.1 ▸ hsome
    · intro hall
      exact hsame.1 ▸ hall [] [] s rfl h
  | append_singleton after a ih =>
    have hrun := h
    rw [← List.cons_append, run_append] at hrun
    obtain ⟨w, hw, hlast⟩ := Option.bind_eq_some_iff.mp hrun
    obtain ⟨x, hx, hend⟩ := run_cons_eq_some.mp hlast
    cases hend
    have hreached : run step init (before ++ .close n :: after) = some w := by
      rw [run_append, hu]
      exact hw
    have hcounted := (inv_of_run hreached).counted
    have hthen := counted_step hcounted hx
    have hclosing : 3 ≤ (w.consumers n).phase.rank := by
      obtain ⟨v, hv, hrun⟩ := run_cons_eq_some.mp hw
      have hbegun := closing_close hv
      refine hbegun.trans (goes_run (counted_step (inv_of_run hu).counted hv) (fun hunmade => ?_) hrun).rank
      rw [hunmade] at hbegun
      exact absurd hbegun (by decide)
    have hgoes : Goes w s n := goes_step hcounted hx fun hunmade => by
      rw [hunmade] at hclosing
      exact absurd hclosing (by decide)
    constructor
    · intro hsettling mid rest v hsplit hv
      have hback : (w.consumers n).phase = .settling :=
        Phase.rank_eq_three.mp (Nat.le_antisymm (hgoes.rank.trans (congrArg Phase.rank hsettling).le) hclosing)
      obtain rfl | ⟨rest, b, rfl⟩ := List.eq_nil_or_concat' rest
      · rw [List.append_nil] at hsplit
        subst hsplit
        cases h.symm.trans hv
        intro hnone
        have hidle := (hthen.waits n).mpr hsettling
        rw [hthen.awake hnone] at hidle
        cases hidle
      · rw [← List.append_assoc] at hsplit
        obtain ⟨hafter, -⟩ := List.append_inj' hsplit rfl
        exact (ih hw).mp hback mid rest v hafter hv
    · intro hall
      have hsettling : (w.consumers n).phase = .settling := by
        refine (ih hw).mpr fun mid rest v hsplit hv => hall mid (rest ++ [a]) v ?_ hv
        rw [hsplit, List.append_assoc]
      have hsome : s.running ≠ [] := hall (after ++ [a]) [] s (List.append_nil _).symm h
      obtain hsame | hlow | ⟨-, hopened, -⟩ | ⟨-, hnone⟩ | hhigh := phase_step hcounted hx n
      · exact hsame.trans hsettling
      · exact absurd (hclosing.trans hgoes.rank) (Nat.not_le.mpr hlow)
      · exact absurd (hsettling.symm.trans hopened) (by decide)
      · exact absurd hnone hsome
      · rw [hsettling] at hhigh
        exact absurd hhigh (by decide)

/-- Who began to close waits for as long as the process handles something, and consumes on meanwhile, unless one it
shares its communication with had come to the end of such a wait before. -/
theorem settling_iff {before after : List (Act ν κ)} {u : Process ν κ} (hu : run step init before = some u)
    (h : run step u (.close n :: after) = some s) (hsettles : (u.consumers n).kind.settles = true) :
    ((s.consumers n).phase = .settling ↔
      ∀ mid rest v, after = mid ++ rest → run step u (.close n :: mid) = some v → v.running ≠ []) ∧
    ((s.consumers n).phase = .settling → (s.comm n).status = .consuming ∨
      ∃ m ≠ n, (u.consumers m).via = (u.consumers n).via ∧ (u.consumers m).kind.settles = true ∧
        (u.consumers m).phase.waited) := by
  refine ⟨settling_busy hu h hsettles, fun hsettling => ?_⟩
  have hbusy := (settling_busy hu h hsettles).mp hsettling
  have hreached : run step init (before ++ .close n :: after) = some s := by
    rw [run_append, hu]
    exact h
  have hinv := inv_of_run hreached
  obtain ⟨v, hv, -⟩ := run_cons_eq_some.mp h
  have hopened : (u.consumers n).phase = .opened := (Option.ite_none_right_eq_some.mp hv).1
  have hgoes : Goes u s n := goes_run (inv_of_run hu).counted (fun hunmade => by
    rw [hopened] at hunmade
    cases hunmade) h
  have hlinked := hinv.made.linked n fun hunmade => by
    rw [hsettling] at hunmade
    cases hunmade
  have hmade : (s.comm n).status ≠ .unmade := fun hunmade => by
    rw [comm, hinv.made.unmade _ hunmade] at hlinked
    cases hlinked
  refine (Communication.consuming_or_isSealed hmade).imp_right fun hsealed => ?_
  have hrank : 2 ≤ (s.consumers n).phase.rank := by
    rw [hsettling]
    decide
  obtain ⟨m, hvia, hkind, hwaited, -⟩ := hinv.stops.begun n (hgoes.kind ▸ hsettles) hrank hsealed
  have hthroughout : ∀ mid rest w, mid ≠ [] → .close n :: after = mid ++ rest → run step u mid = some w →
      w.running ≠ [] := by
    intro mid rest w hmid hsplit hw
    cases mid with
    | nil => exact absurd rfl hmid
    | cons b mid =>
      obtain ⟨rfl, hafter⟩ := List.cons_eq_cons.mp hsplit
      exact hbusy mid rest w hafter hw
  obtain ⟨hbefore, hsame, hkept⟩ := waited_before hu h hthroughout hkind hwaited
  refine ⟨m, ?_, hsame.trans (hvia.trans hgoes.via), hkept, hbefore⟩
  rintro rfl
  rw [hopened] at hbefore
  exact absurd hbefore (by decide)

theorem settling_iff_busy : ∃ u s, run step init serving = some u ∧
    run step u (.close 0 :: [.take (some 1), .finish 0]) = some s ∧
    ((s.consumers 0).phase = .settling ↔ ∀ mid rest v, [Act.take (some 1), .finish 0] = mid ++ rest →
      run step u (.close 0 :: mid) = some v → v.running ≠ []) ∧
    ((s.consumers 0).phase = .settling → (s.comm 0).status = .consuming ∨
      ∃ m ≠ 0, (u.consumers m).via = (u.consumers 0).via ∧ (u.consumers m).kind.settles = true ∧
        (u.consumers m).phase.waited) :=
  ⟨_, _, rfl, rfl, @settling_iff ℕ ℕ _ _ _ 0 _ serving _ _ rfl rfl rfl⟩

def Own (s : Process ν κ) (n : ν) (a : Act ν κ) : Prop :=
  a = .seals n ∨ a = .cancelled (s.consumers n).via ∨ a = .drain n ∨ a = .closed n

def Finishes (s : Process ν κ) (n : ν) (k : ℕ) : Prop :=
  ∃ bs t, bs.length ≤ k ∧ (∀ a ∈ bs, s.Own n a) ∧ run step s bs = some t ∧ (t.consumers n).phase = .closed

theorem Finishes.step {a : Act ν κ} {k : ℕ} (h : t.Finishes n k) (hown : s.Own n a) (hstep : s.step a = some t)
    (hheld : (t.consumers n).via = (s.consumers n).via) : s.Finishes n (k + 1) := by
  obtain ⟨bs, u, hlength, howns, hrun, hclosed⟩ := h
  refine ⟨a :: bs, u, Nat.succ_le_succ hlength, List.forall_mem_cons.mpr ⟨hown, fun b hb => ?_⟩,
    run_cons_eq_some.mpr ⟨t, hstep, hrun⟩, hclosed⟩
  have hb := howns b hb
  rwa [Own, hheld] at hb

theorem finishes_draining (hnone : s.running = []) {pending : List ℕ}
    (hphase : (s.consumers n).phase = .draining pending) : s.Finishes n 1 := by
  have hdone : ∀ serial ∈ pending, serial ∉ s.serials := by
    intro serial _
    rw [serials, hnone]
    exact List.not_mem_nil
  have hstep : s.step (.closed n) = some (s.turn n .closed) := by
    dsimp only [Process.step]
    rw [hphase]
    exact if_pos hdone
  refine ⟨[.closed n], s.turn n .closed, le_rfl, ?_, run_cons_eq_some.mpr ⟨_, hstep, rfl⟩, ?_⟩
  · exact List.forall_mem_singleton.mpr (.inr (.inr (.inr rfl)))
  · rw [phase_turn, if_pos rfl]

theorem finishes_sealed (hnone : s.running = []) (hphase : (s.consumers n).phase = .sealing)
    (hsealed : (s.comm n).status = .sealed) : s.Finishes n 2 := by
  have hstep : s.step (.drain n) = some (s.turn n (.draining ((s.running.filter (·.2 = some n)).map Prod.fst))) :=
    if_pos ⟨hphase, hsealed⟩
  have hturned : (s.turn n (.draining ((s.running.filter (·.2 = some n)).map Prod.fst))).Finishes n 1 :=
    finishes_draining hnone ((phase_turn s n n _).trans (if_pos rfl))
  exact hturned.step (.inr (.inr (.inl rfl))) hstep (via_turn ..)

theorem finishes_sealing (hnone : s.running = []) (hphase : (s.consumers n).phase = .sealing)
    (hsealed : (s.comm n).isSealed = true) : s.Finishes n 3 := by
  by_cases hstatus : (s.comm n).status = .sealed
  · obtain ⟨bs, t, hlength, hrest⟩ := finishes_sealed hnone hphase hstatus
    exact ⟨bs, t, hlength.trans (by decide), hrest⟩
  · have hsealing : (s.comms (s.consumers n).via).status = .sealing :=
      (of_decide_eq_true hsealed).resolve_right hstatus
    let c := (s.consumers n).via
    let t : Process ν κ := { s with comms := Function.update s.comms c { s.comms c with status := .sealed } }
    have hstep : s.step (.cancelled c) = some t := if_pos hsealing
    have hself : t.comms c = { s.comms c with status := .sealed } := Function.update_self ..
    have hcancelled : t.Finishes n 2 := finishes_sealed hnone hphase (congrArg Communication.status hself)
    exact hcancelled.step (.inr (.inl rfl)) hstep rfl

/-- A consumer that is closed is so for good and hands on nothing, and one that is closing, once the process
handles nothing, closes by its own steps and the broker's answer. -/
theorem closes {as : List (Act ν κ)} (h : run step init as = some s) (hdrains : (s.consumers n).kind.drains = true)
    (hclosing : (s.consumers n).phase ≠ .unmade ∧ (s.consumers n).phase ≠ .made ∧
      (s.consumers n).phase ≠ .opened) :
    ((s.consumers n).phase = .closed → ∀ bs t, run step s bs = some t →
      (t.consumers n).phase = .closed ∧ ∀ d ∈ t.running, d.2 ≠ some n) ∧
    (s.running = [] → s.Finishes n 4) := by
  constructor
  · intro hclosed bs t hrun
    have hreached : run step init (as ++ bs) = some t := by
      rw [run_append, h]
      exact hrun
    have hgoes := goes_run (inv_of_run h).counted hclosing.1 hrun
    have hstill : (t.consumers n).phase = .closed := by
      refine Phase.rank_eq_seven.mp (Nat.le_antisymm ?_ ((congrArg Phase.rank hclosed).ge.trans hgoes.rank))
      cases (t.consumers n).phase <;> simp [Phase.rank]
    have hholds := (inv_of_run hreached).stops.holds n
    rw [hstill] at hholds
    exact ⟨hstill, (hholds ((congrArg Kind.drains hgoes.kind).trans hdrains)).2⟩
  · intro hnone
    have hinv := inv_of_run h
    have hholds := hinv.stops.holds n
    cases hphase : (s.consumers n).phase with
    | unmade => exact absurd hphase hclosing.1
    | made => exact absurd hphase hclosing.2.1
    | opened => exact absurd hphase hclosing.2.2
    | settling =>
      -- nobody is left waiting where nothing is handled
      have hidle := (hinv.counted.waits n).mpr hphase
      rw [hinv.counted.awake hnone] at hidle
      cases hidle
    | settled =>
      have hstep : s.step (.seals n) = some ((s.sealComm (s.consumers n).via).turn n .sealing) := if_pos hphase
      have hsealed : ((s.sealComm (s.consumers n).via).turn n .sealing).Finishes n 3 :=
        finishes_sealing hnone ((phase_turn _ n n _).trans (if_pos rfl))
          (hinv.made.isSealed_sealComm hclosing.1 .sealing)
      exact hsealed.step (.inl rfl) hstep (via_turn ..)
    | sealing =>
      rw [hphase] at hholds
      obtain ⟨bs, t, hlength, hrest⟩ := finishes_sealing hnone hphase hholds
      exact ⟨bs, t, hlength.trans (by decide), hrest⟩
    | draining pending =>
      obtain ⟨bs, t, hlength, hrest⟩ := finishes_draining hnone hphase
      exact ⟨bs, t, hlength.trans (by decide), hrest⟩
    | closed =>
      exact ⟨[], s, Nat.zero_le _, fun _ ha => absurd ha List.not_mem_nil, rfl, hphase⟩

theorem closes_stopping : ∃ s, run step init (stopping ++ [.cancelled 0, .drain 0, .finish 3]) = some s ∧
    (s.consumers 0).phase = .draining [] ∧ s.Finishes 0 4 := by
  refine ⟨_, rfl, rfl, ?_⟩
  exact (@closes ℕ ℕ _ _ _ 0 _ (stopping ++ [.cancelled 0, .drain 0, .finish 3]) rfl rfl (by decide)).2 rfl

theorem owner_eq {kind : Kind} {k : ℕ} {owner : Owner} (h : (kind.owner k).1 = owner)
    (hgrouped : ∀ serial, owner ≠ .alone serial) (i : ℕ) : (kind.owner i).1 = owner := by
  subst h
  unfold Kind.owner at hgrouped ⊢
  split <;> simp_all

/-- Whatever is held over one communication is held by one owner over the same brokers, and by nobody alone, and
where that is all who only publish none consumes. -/
theorem shared_owner {as : List (Act ν κ)} (h : run step init as = some s)
    (hn : (s.consumers n).phase ≠ .unmade) (hm : (s.consumers m).phase ≠ .unmade) (hne : n ≠ m)
    (hheld : (s.consumers n).via = (s.consumers m).via) :
    ∃ owner, (∀ k, ((s.consumers n).kind.owner k).1 = owner) ∧ (∀ k, ((s.consumers m).kind.owner k).1 = owner) ∧
      (owner = .outbound → (s.consumers n).kind.consumes = false ∧ (s.consumers m).kind.consumes = false) := by
  have hmade := (inv_of_run h).made
  obtain ⟨k, hk⟩ := hmade.owned n hn
  obtain ⟨l, hl⟩ := hmade.owned m hm
  have hsame : s.comm m = s.comm n := congrArg s.comms hheld.symm
  rw [hsame] at hl
  have hsecond := hmade.linked m hm
  rw [hsame] at hsecond
  have hgrouped : ∀ serial, (s.comm n).key.1 ≠ .alone serial := by
    intro serial halone
    have hstatus : (s.comm n).status ≠ .unmade := fun hnot => by
      have hlinked := hmade.linked n hn
      rw [comm, hmade.unmade _ hnot] at hlinked
      cases hlinked
    obtain ⟨-, hone⟩ := hmade.alone _ serial hstatus halone
    have hsub : [n, m] ⊆ (s.comm n).links := by
      simp only [List.cons_subset, List.nil_subset, and_true]
      exact ⟨hmade.linked n hn, hsecond⟩
    have hnodup : [n, m].Nodup := by simp [hne]
    exact absurd ((hnodup.subperm hsub).length_le.trans hone) (by simp)
  refine ⟨_, fun i => owner_eq hk hgrouped i, fun i => owner_eq hl hgrouped i, fun hpooled => ?_⟩
  exact ⟨Kind.consumes_pooled (hk.trans hpooled), Kind.consumes_pooled (hl.trans hpooled)⟩

theorem shared_owner_serving : ∃ s, run step init serving = some s ∧
    ∃ owner, (∀ k, ((s.consumers 0).kind.owner k).1 = owner) ∧ (∀ k, ((s.consumers 1).kind.owner k).1 = owner) ∧
      (owner = .outbound → (s.consumers 0).kind.consumes = false ∧ (s.consumers 1).kind.consumes = false) :=
  ⟨_, rfl, @shared_owner ℕ ℕ _ _ _ 0 1 _ serving rfl (by decide) (by decide) (by decide) rfl⟩

end Process
end Toa.Amqp
