import Mathlib.Data.List.Nodup
import Mathlib.Logic.Function.Basic
import Mathlib.Data.Nat.Basic
import Mathlib.Order.Basic
import Mathlib.Tactic.SplitIfs
import Toa.Lib.Run

/-! What one process consumes of a broker, and how it stops: the communications its consumers share, the
deliveries it handles, counted as one number, and the closing of a consumer, which waits for that number to be
none, then for its communication to stop consuming, then for what is left of its own. -/

set_option linter.unusedSectionVars false

namespace Toa.Amqp
open Run

/-- What a communication is held by. The source tells them apart by a NUL in front of what is no component. -/
inductive Owner
  | component (id : String)
  | inbound (channel label : String)
  | alone (serial : ℕ)
  | outbound
deriving DecidableEq

/-- What `Factory` makes. -/
inductive Kind
  | producer (id : String)
  | consumer
  | emitter (id : String)
  | receiver (group : Option String)
  | outbound
  | inbound (channel label : String)
  | broadcast (id : String) (grouped : Bool)
deriving DecidableEq

namespace Kind

/-- Who the communication is held by, and the serial of who was alone last. -/
def owner (alone : ℕ) : Kind → Owner × ℕ
  | .producer id | .receiver (some id) | .broadcast id true | .emitter id => (.component id, alone)
  | .receiver none | .broadcast _ false => (.alone (alone + 1), alone + 1)
  | .inbound channel label => (.inbound channel label, alone)
  | .consumer | .outbound => (.outbound, alone)

def consumes : Kind → Bool
  | .emitter _ | .consumer | .outbound => false
  | _ => true

def settles : Kind → Bool
  | .producer _ | .receiver _ => true
  | _ => false

def drains : Kind → Bool
  | .producer _ | .receiver _ | .inbound .. => true
  | _ => false

end Kind

inductive Phase
  | unmade
  | made
  | opened
  | settling
  | settled
  | sealing
  /-- what it handled when its communication had stopped -/
  | draining (pending : List ℕ)
  | closed
deriving DecidableEq

structure Consumer (κ : Type*) where
  kind : Kind
  via : κ
  phase : Phase
  /-- how many deliveries the process had taken when the closing began -/
  began : ℕ

inductive Status
  | unmade
  | consuming
  /-- told to stop, and the broker has not confirmed yet -/
  | sealing
  | sealed
deriving DecidableEq

structure Communication (ν : Type*) where
  key : Owner × String
  status : Status
  links : List ν

structure Process (ν κ : Type*) where
  consumers : ν → Consumer κ
  comms : κ → Communication ν
  /-- the communications of the factory -/
  held : Owner × String → Option κ
  alone : ℕ
  /-- the number the deliveries are counted by, and who waits for it to be none -/
  count : ℕ
  idle : List ν
  /-- the deliveries that are handled; over HTTP there is no consumer to wait for them -/
  running : List (ℕ × Option ν)
  serial : ℕ

inductive Act (ν κ : Type*)
  | make (n : ν) (kind : Kind) (references : String) (c : κ)
  | opens (n : ν)
  | take (n : Option ν)
  | finish (serial : ℕ)
  | close (n : ν)
  | seals (n : ν)
  | cancelled (c : κ)
  | drain (n : ν)
  | closed (n : ν)
  | shut (c : κ)

variable {ν κ : Type*} [DecidableEq ν] [DecidableEq κ]

def Communication.isSealed (comm : Communication ν) : Bool := comm.status = .sealing ∨ comm.status = .sealed

/-- `Communication.seal`. -/
def Communication.seal (comm : Communication ν) : Communication ν :=
  if comm.status = .consuming then { comm with status := .sealing } else comm

namespace Process

def init [Inhabited κ] : Process ν κ where
  consumers _ := ⟨.emitter "", default, .unmade, 0⟩
  comms _ := ⟨(.alone 0, ""), .unmade, []⟩
  held _ := none
  alone := 0
  count := 0
  idle := []
  running := []
  serial := 0

def comm (s : Process ν κ) (n : ν) : Communication ν := s.comms (s.consumers n).via

def turn (s : Process ν κ) (n : ν) (phase : Phase) : Process ν κ :=
  { s with consumers := Function.update s.consumers n { s.consumers n with phase := phase } }

def beginClose (s : Process ν κ) (n : ν) : Process ν κ :=
  { s with consumers := Function.update s.consumers n { s.consumers n with began := s.serial } }

def sealComm (s : Process ν κ) (c : κ) : Process ν κ :=
  { s with comms := Function.update s.comms c (s.comms c).seal }

def join (s : Process ν κ) (n : ν) (kind : Kind) (c : κ) : Process ν κ :=
  { s with
    consumers := Function.update s.consumers n ⟨kind, c, .made, 0⟩
    comms := Function.update s.comms c { s.comms c with links := (s.comms c).links ++ [n] } }

/-- `Factory.#communication`: the one that is held, unless it is sealed, or one that is new. -/
def communication (s : Process ν κ) (key : Owner × String) (fresh : κ) : Option (Process ν κ × κ) :=
  match (s.held key).filter fun c => !(s.comms c).isSealed with
  | some c => some (s, c)
  | none =>
    if (s.comms fresh).status = .unmade then
      some ({ s with
        comms := Function.update s.comms fresh ⟨key, .consuming, []⟩
        held := Function.update s.held key (some fresh) }, fresh)
    else none

/-- `deliveries.taken`. -/
def taken (s : Process ν κ) (n : Option ν) : Process ν κ :=
  { s with count := s.count + 1, running := s.running ++ [(s.serial, n)], serial := s.serial + 1 }

def wake (s : Process ν κ) : Process ν κ :=
  { s with
    consumers := fun n => if n ∈ s.idle then { s.consumers n with phase := .settled } else s.consumers n
    idle := [] }

/-- `deliveries.done`. -/
def done (s : Process ν κ) (serial : ℕ) : Process ν κ :=
  let s := { s with count := s.count - 1, running := s.running.filter (·.1 ≠ serial) }
  if s.count = 0 then s.wake else s

def serials (s : Process ν κ) : List ℕ := s.running.map Prod.fst

def step (s : Process ν κ) : Act ν κ → Option (Process ν κ)
  | .make n kind references c =>
    if (s.consumers n).phase = .unmade then
      let (owner, alone) := kind.owner s.alone
      (s.communication (owner, references) c).map fun (s, c) => ({ s with alone := alone }.join n kind c)
    else none
  | .opens n =>
    -- a consumer asked of a sealed communication is refused
    if (s.consumers n).phase = .made ∧ (s.comm n).status = .consuming then some (s.turn n .opened) else none
  | .take none => some (s.taken none)
  | .take (some n) =>
    -- what was dispatched before the broker confirmed is handled all the same
    if (s.consumers n).kind.consumes ∧ (s.consumers n).phase ≠ .unmade ∧ (s.consumers n).phase ≠ .made ∧
        (s.comm n).status ≠ .sealed then
      some (s.taken (some n))
    else none
  | .finish serial => if serial ∈ s.serials then some (s.done serial) else none
  | .close n =>
    if (s.consumers n).phase = .opened then
      let kind := (s.consumers n).kind
      let s := s.beginClose n
      if kind.settles then
        if s.count = 0 then some (s.turn n .settled)
        else some { s.turn n .settling with idle := s.idle ++ [n] }
      else if kind.drains then some ((s.sealComm (s.consumers n).via).turn n .sealing)
      else some (s.turn n .closed)
    else none
  | .seals n =>
    if (s.consumers n).phase = .settled then some ((s.sealComm (s.consumers n).via).turn n .sealing) else none
  | .cancelled c =>
    if (s.comms c).status = .sealing then
      some { s with comms := Function.update s.comms c { s.comms c with status := .sealed } }
    else none
  | .drain n =>
    if (s.consumers n).phase = .sealing ∧ (s.comm n).status = .sealed then
      some (s.turn n (.draining ((s.running.filter (·.2 = some n)).map Prod.fst)))
    else none
  | .closed n =>
    match (s.consumers n).phase with
    | .draining pending => if ∀ serial ∈ pending, serial ∉ s.serials then some (s.turn n .closed) else none
    | _ => none
  | .shut c =>
    -- a dependency is taken down once nobody who depends on it is up
    if (s.comms c).status ≠ .unmade ∧
        ∀ n ∈ (s.comms c).links, (s.consumers n).phase = .made ∨ (s.consumers n).phase = .closed then
      some { s.sealComm c with
        held := if s.held (s.comms c).key = some c then Function.update s.held (s.comms c).key none else s.held }
    else none

/-! ## What a step leaves as it was -/

section
variable (s : Process ν κ) (n m : ν) (phase : Phase)

@[simp] theorem kind_turn : ((s.turn n phase).consumers m).kind = (s.consumers m).kind := by
  by_cases h : m = n <;> simp [turn, h]

@[simp] theorem via_turn : ((s.turn n phase).consumers m).via = (s.consumers m).via := by
  by_cases h : m = n <;> simp [turn, h]

@[simp] theorem began_turn : ((s.turn n phase).consumers m).began = (s.consumers m).began := by
  by_cases h : m = n <;> simp [turn, h]

@[simp] theorem phase_turn : ((s.turn n phase).consumers m).phase = if m = n then phase else (s.consumers m).phase := by
  by_cases h : m = n <;> simp [turn, h]

@[simp] theorem kind_beginClose : ((s.beginClose n).consumers m).kind = (s.consumers m).kind := by
  by_cases h : m = n <;> simp [beginClose, h]

@[simp] theorem via_beginClose : ((s.beginClose n).consumers m).via = (s.consumers m).via := by
  by_cases h : m = n <;> simp [beginClose, h]

@[simp] theorem phase_beginClose : ((s.beginClose n).consumers m).phase = (s.consumers m).phase := by
  by_cases h : m = n <;> simp [beginClose, h]

@[simp] theorem began_beginClose :
    ((s.beginClose n).consumers m).began = if m = n then s.serial else (s.consumers m).began := by
  by_cases h : m = n <;> simp [beginClose, h]

@[simp] theorem consumers_sealComm (c : κ) : (s.sealComm c).consumers = s.consumers := rfl

@[simp] theorem kind_wake : (s.wake.consumers m).kind = (s.consumers m).kind := by
  by_cases h : m ∈ s.idle <;> simp [wake, h]

@[simp] theorem via_wake : (s.wake.consumers m).via = (s.consumers m).via := by
  by_cases h : m ∈ s.idle <;> simp [wake, h]

@[simp] theorem began_wake : (s.wake.consumers m).began = (s.consumers m).began := by
  by_cases h : m ∈ s.idle <;> simp [wake, h]

@[simp] theorem phase_wake : (s.wake.consumers m).phase = if m ∈ s.idle then .settled else (s.consumers m).phase := by
  by_cases h : m ∈ s.idle <;> simp [wake, h]

end

end Process

def Phase.rank : Phase → ℕ
  | .unmade => 0
  | .made => 1
  | .opened => 2
  | .settling => 3
  | .settled => 4
  | .sealing => 5
  | .draining _ => 6
  | .closed => 7

theorem Phase.rank_eq_zero {phase : Phase} : phase.rank = 0 ↔ phase = .unmade := by
  cases phase <;> simp [Phase.rank]

theorem Phase.rank_eq_three {phase : Phase} : phase.rank = 3 ↔ phase = .settling := by
  cases phase <;> simp [Phase.rank]

theorem Phase.rank_eq_seven {phase : Phase} : phase.rank = 7 ↔ phase = .closed := by
  cases phase <;> simp [Phase.rank]

namespace Communication

structure Onward (x y : Communication ν) : Prop where
  key : y.key = x.key
  links : y.links = x.links
  unmade : y.status = .unmade ↔ x.status = .unmade
  isSealed : x.isSealed = true → y.isSealed = true
  sealed : x.status = .sealed → y.status = .sealed

theorem Onward.refl (x : Communication ν) : Onward x x := ⟨rfl, rfl, Iff.rfl, id, id⟩

theorem Onward.trans {x y z : Communication ν} (h : Onward x y) (h' : Onward y z) : Onward x z :=
  ⟨h'.key.trans h.key, h'.links.trans h.links, h'.unmade.trans h.unmade, h'.isSealed ∘ h.isSealed,
    h'.sealed ∘ h.sealed⟩

theorem onward_seal (x : Communication ν) : Onward x x.seal := by
  unfold Communication.seal
  split_ifs with h
  · exact ⟨rfl, rfl, by simp [h], fun _ => by simp [isSealed], fun hsealed => by simp [h] at hsealed⟩
  · exact .refl x

theorem isSealed_seal {x : Communication ν} (h : x.status ≠ .unmade) : x.seal.isSealed = true := by
  unfold Communication.seal
  split_ifs with hconsuming
  · simp [isSealed]
  · cases hstatus : x.status <;> simp_all [isSealed]

theorem onward_cancelled {x : Communication ν} (h : x.status = .sealing) : Onward x { x with status := .sealed } :=
  ⟨rfl, rfl, by simp [h], fun _ => by simp [isSealed], fun _ => rfl⟩

theorem consuming_or_isSealed {x : Communication ν} (h : x.status ≠ .unmade) :
    x.status = .consuming ∨ x.isSealed = true := by
  cases hstatus : x.status <;> simp_all [isSealed]

end Communication

namespace Process

/-- What no step but the making of a connector changes, and what each only carries on. -/
structure Kept (s t : Process ν κ) : Prop where
  kind : ∀ n, (t.consumers n).kind = (s.consumers n).kind
  via : ∀ n, (t.consumers n).via = (s.consumers n).via
  rank : ∀ n, (s.consumers n).phase.rank ≤ (t.consumers n).phase.rank
  unmade : ∀ n, (s.consumers n).phase = .unmade → (t.consumers n).phase = .unmade
  began : ∀ n, 3 ≤ (s.consumers n).phase.rank → (t.consumers n).began = (s.consumers n).began
  comms : ∀ c, (s.comms c).Onward (t.comms c)
  alone : t.alone = s.alone
  held : ∀ key c, t.held key = some c → s.held key = some c

namespace Kept
variable {s t u : Process ν κ} {n : ν}

theorem refl (s : Process ν κ) : Kept s s :=
  ⟨fun _ => rfl, fun _ => rfl, fun _ => le_rfl, fun _ => id, fun _ _ => rfl, fun _ => .refl _, rfl, fun _ _ => id⟩

theorem trans (h : Kept s t) (h' : Kept t u) : Kept s u where
  kind n := (h'.kind n).trans (h.kind n)
  via n := (h'.via n).trans (h.via n)
  rank n := (h.rank n).trans (h'.rank n)
  unmade n := h'.unmade n ∘ h.unmade n
  began n hn := (h'.began n (hn.trans (h.rank n))).trans (h.began n hn)
  comms c := (h.comms c).trans (h'.comms c)
  alone := h'.alone.trans h.alone
  held key c := h.held key c ∘ h'.held key c

theorem turn {phase : Phase} (hmade : (s.consumers n).phase ≠ .unmade)
    (hrank : (s.consumers n).phase.rank ≤ phase.rank) : Kept s (s.turn n phase) where
  kind _ := kind_turn ..
  via _ := via_turn ..
  rank m := by
    rw [phase_turn]
    split_ifs with h
    · exact h ▸ hrank
    · exact le_rfl
  unmade m hm := by
    rw [phase_turn, if_neg]
    · exact hm
    · rintro rfl
      exact hmade hm
  began _ _ := began_turn ..
  comms _ := .refl _
  alone := rfl
  held _ _ := id

theorem beginClose (h : (s.consumers n).phase = .opened) : Kept s (s.beginClose n) where
  kind _ := kind_beginClose ..
  via _ := via_beginClose ..
  rank m := (congrArg Phase.rank (phase_beginClose s n m)).ge
  unmade m hm := (phase_beginClose s n m).trans hm
  began m hm := by
    rw [began_beginClose, if_neg]
    rintro rfl
    rw [h] at hm
    exact absurd hm (by decide)
  comms _ := .refl _
  alone := rfl
  held _ _ := id

theorem update {c : κ} {x : Communication ν} (h : (s.comms c).Onward x) :
    Kept s { s with comms := Function.update s.comms c x } :=
  { refl s with
    comms := fun d => by
      dsimp only
      by_cases hd : d = c
      · subst hd
        rw [Function.update_self]
        exact h
      · rw [Function.update_of_ne hd]
        exact .refl _ }

theorem sealComm (s : Process ν κ) (c : κ) : Kept s (s.sealComm c) := update (Communication.onward_seal _)

theorem taken (s : Process ν κ) (n : Option ν) : Kept s (s.taken n) := { refl s with }

theorem wake (hidle : ∀ n ∈ s.idle, (s.consumers n).phase = .settling) : Kept s s.wake where
  kind _ := kind_wake ..
  via _ := via_wake ..
  rank m := by
    rw [phase_wake]
    split_ifs with h
    · rw [hidle m h]
      decide
    · exact le_rfl
  unmade m hm := by
    rw [phase_wake, if_neg]
    · exact hm
    · intro h
      rw [hidle m h] at hm
      cases hm
  began _ _ := began_wake ..
  comms _ := .refl _
  alone := rfl
  held _ _ := id

theorem done (hidle : ∀ n ∈ s.idle, (s.consumers n).phase = .settling) (serial : ℕ) : Kept s (s.done serial) := by
  have hone : Kept s { s with count := s.count - 1, running := s.running.filter (·.1 ≠ serial) } := { refl s with }
  unfold Process.done
  dsimp only
  split_ifs
  · exact hone.trans (wake hidle)
  · exact hone

end Kept

structure Counted (s : Process ν κ) : Prop where
  count : s.count = s.running.length
  nodup : s.serials.Nodup
  below : ∀ d ∈ s.running, d.1 < s.serial
  began : ∀ n, (s.consumers n).began ≤ s.serial
  waits : ∀ n, n ∈ s.idle ↔ (s.consumers n).phase = .settling
  /-- nobody is left waiting -/
  awake : s.running = [] → s.idle = []

variable {s t : Process ν κ}

theorem step_closed {n : ν} (h : s.step (.closed n) = some t) :
    ∃ pending, (s.consumers n).phase = .draining pending ∧ (∀ serial ∈ pending, serial ∉ s.serials) ∧
      t = s.turn n .closed := by
  dsimp only [step] at h
  split at h
  case h_1 pending hphase =>
    obtain ⟨hdone, ht⟩ := Option.ite_none_right_eq_some.mp h
    exact ⟨pending, hphase, hdone, (Option.some.inj ht).symm⟩
  case h_2 => cases h

theorem step_kept (hs : s.Counted) {a : Act ν κ} (h : s.step a = some t)
    (ha : ∀ n kind references c, a ≠ .make n kind references c) : Kept s t := by
  have hidle := fun n => (hs.waits n).mp
  cases a with
  | make n kind references c => exact absurd rfl (ha n kind references c)
  | opens n =>
    obtain ⟨⟨hphase, -⟩, ht⟩ := Option.ite_none_right_eq_some.mp h
    cases ht
    exact .turn (by simp [hphase]) (by simp [hphase, Phase.rank])
  | take n =>
    cases n with
    | none => cases h; exact .taken s none
    | some n =>
      obtain ⟨-, ht⟩ := Option.ite_none_right_eq_some.mp h
      cases ht
      exact .taken s (some n)
  | finish serial =>
    obtain ⟨-, ht⟩ := Option.ite_none_right_eq_some.mp h
    cases ht
    exact .done hidle serial
  | close n =>
    obtain ⟨hphase, ht⟩ := Option.ite_none_right_eq_some.mp h
    have hbegun : Kept s (s.beginClose n) := .beginClose hphase
    have hrank : ((s.beginClose n).consumers n).phase.rank = 2 := by simp [hphase, Phase.rank]
    have hmade : ((s.beginClose n).consumers n).phase ≠ .unmade := by simp [hphase]
    dsimp only at ht
    split_ifs at ht <;> cases ht
    · exact hbegun.trans (.turn hmade (hrank.trans_le (by decide)))
    · have hturn : Kept (s.beginClose n) ((s.beginClose n).turn n .settling) :=
        .turn hmade (hrank.trans_le (by decide))
      exact (hbegun.trans hturn).trans { Kept.refl _ with }
    · exact hbegun.trans ((Kept.sealComm _ _).trans (.turn hmade (hrank.trans_le (by decide))))
    · exact hbegun.trans (.turn hmade (hrank.trans_le (by decide)))
  | seals n =>
    obtain ⟨hphase, ht⟩ := Option.ite_none_right_eq_some.mp h
    cases ht
    refine (Kept.sealComm s (s.consumers n).via).trans (.turn ?_ ?_)
    · exact fun hunmade => absurd (hphase.symm.trans hunmade) (by decide)
    · exact (congrArg Phase.rank hphase).trans_le (by decide)
  | cancelled c =>
    obtain ⟨hstatus, ht⟩ := Option.ite_none_right_eq_some.mp h
    cases ht
    exact .update (Communication.onward_cancelled hstatus)
  | drain n =>
    obtain ⟨⟨hphase, -⟩, ht⟩ := Option.ite_none_right_eq_some.mp h
    cases ht
    exact .turn (by simp [hphase]) (by simp [hphase, Phase.rank])
  | closed n =>
    obtain ⟨pending, hphase, -, rfl⟩ := step_closed h
    exact .turn (by simp [hphase]) (by simp [hphase, Phase.rank])
  | shut c =>
    obtain ⟨-, ht⟩ := Option.ite_none_right_eq_some.mp h
    cases ht
    refine { Kept.sealComm s c with held := fun key d hd => ?_ }
    dsimp only at hd
    split_ifs at hd
    · by_cases hkey : key = (s.comms c).key
      · subst hkey
        rw [Function.update_self] at hd
        cases hd
      · rwa [Function.update_of_ne hkey] at hd
    · exact hd

/-! ## Who waits for the process to handle nothing -/

theorem counted_init [Inhabited κ] : (init : Process ν κ).Counted where
  count := rfl
  nodup := List.nodup_nil
  below _ h := by cases h
  began _ := le_rfl
  waits n := iff_of_false List.not_mem_nil (by simp [init])
  awake _ := rfl

namespace Counted

theorem turn (h : s.Counted) {n : ν} {phase : Phase} (hn : (s.consumers n).phase ≠ .settling)
    (hphase : phase ≠ .settling) : (s.turn n phase).Counted where
  count := h.count
  nodup := h.nodup
  below := h.below
  began m := (began_turn s n m phase).trans_le (h.began m)
  waits m := by
    rw [phase_turn]
    split_ifs with hm
    · exact iff_of_false (fun hidle => hn ((h.waits n).mp (hm ▸ hidle))) hphase
    · exact h.waits m
  awake := h.awake

theorem beginClose (h : s.Counted) (n : ν) : (s.beginClose n).Counted where
  count := h.count
  nodup := h.nodup
  below := h.below
  began m := by
    rw [began_beginClose]
    split_ifs
    · exact le_rfl
    · exact h.began m
  waits m := by
    rw [phase_beginClose]
    exact h.waits m
  awake := h.awake

theorem settling (h : s.Counted) {n : ν} (hcount : s.count ≠ 0) :
    { s.turn n .settling with idle := s.idle ++ [n] }.Counted where
  count := h.count
  nodup := h.nodup
  below := h.below
  began m := (began_turn s n m .settling).trans_le (h.began m)
  waits m := by
    rw [phase_turn, List.mem_append, List.mem_singleton, h.waits m]
    split_ifs with hm
    · exact iff_of_true (.inr hm) rfl
    · exact or_iff_left hm
  awake hnone := absurd (h.count.trans (congrArg List.length hnone)) hcount

theorem taken (h : s.Counted) (n : Option ν) : (s.taken n).Counted where
  count := by
    dsimp only [Process.taken]
    rw [List.length_append, h.count]
    rfl
  nodup := by
    dsimp only [serials, Process.taken]
    rw [List.map_append, List.nodup_append]
    refine ⟨h.nodup, List.nodup_singleton _, fun serial hserial other hother heq => ?_⟩
    obtain ⟨d, hd, rfl⟩ := List.mem_map.mp hserial
    obtain rfl := List.mem_singleton.mp hother
    exact absurd heq (Nat.ne_of_lt (h.below d hd))
  below d hd := by
    obtain hold | hnew := List.mem_append.mp hd
    · exact Nat.lt_succ_of_lt (h.below d hold)
    · obtain rfl := List.mem_singleton.mp hnew
      exact Nat.lt_succ_self _
  began m := Nat.le_succ_of_le (h.began m)
  waits := h.waits
  awake hnone := by
    dsimp only [Process.taken] at hnone
    exact absurd (List.append_eq_nil_iff.mp hnone).2 (List.cons_ne_nil _ _)

theorem length_done (h : s.Counted) {serial : ℕ} (hserial : serial ∈ s.serials) :
    (s.running.filter (·.1 ≠ serial)).length = s.running.length - 1 := by
  have herase : (s.running.filter (·.1 ≠ serial)).map Prod.fst = s.serials.erase serial := by
    rw [h.nodup.erase_eq_filter, serials, List.filter_map]
    exact congrArg (List.map Prod.fst) (List.filter_congr fun d _ => decide_not)
  have hlength := congrArg List.length herase
  rwa [List.length_map, List.length_erase_of_mem hserial, serials, List.length_map] at hlength

theorem done (h : s.Counted) {serial : ℕ} (hserial : serial ∈ s.serials) : (s.done serial).Counted := by
  have hlength := h.length_done hserial
  have hfewer : s.running.filter (·.1 ≠ serial) ⊆ s.running := List.filter_subset_self _
  have hnodup : ((s.running.filter (·.1 ≠ serial)).map Prod.fst).Nodup :=
    h.nodup.sublist (List.filter_sublist.map Prod.fst)
  unfold Process.done
  dsimp only
  split_ifs with hcount
  · exact
      { count := hlength.trans (congrArg (· - 1) h.count.symm) |>.symm
        nodup := hnodup
        below := fun d hd => h.below d (hfewer hd)
        began := fun m => (began_wake _ m).trans_le (h.began m)
        waits := fun m => by
          rw [phase_wake]
          split_ifs with hm
          · exact iff_of_false List.not_mem_nil (by simp)
          · exact iff_of_false List.not_mem_nil fun hphase => hm ((h.waits m).mpr hphase)
        awake := fun _ => rfl }
  · exact
      { count := hlength.trans (congrArg (· - 1) h.count.symm) |>.symm
        nodup := hnodup
        below := fun d hd => h.below d (hfewer hd)
        began := h.began
        waits := h.waits
        awake := fun hnone => by
          dsimp only at hnone
          rw [h.count, ← hlength, hnone] at hcount
          exact absurd rfl hcount }

theorem join (h : s.Counted) {n : ν} (hn : (s.consumers n).phase = .unmade) (kind : Kind) (c : κ) :
    (s.join n kind c).Counted where
  count := h.count
  nodup := h.nodup
  below := h.below
  began m := by
    dsimp only [Process.join]
    by_cases hm : m = n
    · subst hm
      rw [Function.update_self]
      exact Nat.zero_le _
    · rw [Function.update_of_ne hm]
      exact h.began m
  waits m := by
    dsimp only [Process.join]
    by_cases hm : m = n
    · subst hm
      rw [Function.update_self]
      exact iff_of_false (fun hidle => by simpa [hn] using (h.waits m).mp hidle) (by simp)
    · rw [Function.update_of_ne hm]
      exact h.waits m
  awake := h.awake

end Counted

theorem communication_cases {key : Owner × String} {fresh c : κ} (h : s.communication key fresh = some (t, c)) :
    (t = s ∧ s.held key = some c ∧ (s.comms c).isSealed = false) ∨
    (c = fresh ∧ (s.comms c).status = .unmade ∧
      t = { s with
        comms := Function.update s.comms c ⟨key, .consuming, []⟩
        held := Function.update s.held key (some c) }) := by
  unfold communication at h
  split at h
  case h_1 c' hheld =>
    obtain ⟨rfl, rfl⟩ := Prod.mk.inj (Option.some.inj h)
    obtain ⟨hkey, hsealed⟩ := Option.filter_eq_some_iff.mp hheld
    exact .inl ⟨rfl, hkey, Bool.not_eq_true' _ ▸ hsealed⟩
  case h_2 =>
    obtain ⟨hunmade, ht⟩ := Option.ite_none_right_eq_some.mp h
    obtain ⟨rfl, rfl⟩ := Prod.mk.inj (Option.some.inj ht)
    exact .inr ⟨rfl, hunmade, rfl⟩

theorem step_make {n : ν} {kind : Kind} {references : String} {fresh : κ}
    (h : s.step (.make n kind references fresh) = some t) :
    (s.consumers n).phase = .unmade ∧ ∃ u c,
      s.communication ((kind.owner s.alone).1, references) fresh = some (u, c) ∧
      t = { u with alone := (kind.owner s.alone).2 }.join n kind c := by
  obtain ⟨hunmade, ht⟩ := Option.ite_none_right_eq_some.mp h
  obtain ⟨⟨u, c⟩, hcomm, rfl⟩ := Option.map_eq_some_iff.mp ht
  exact ⟨hunmade, u, c, hcomm, rfl⟩

theorem counted_step (h : s.Counted) {a : Act ν κ} (hstep : s.step a = some t) : t.Counted := by
  cases a with
  | make n kind references c =>
    obtain ⟨hunmade, u, d, hcomm, rfl⟩ := step_make hstep
    have hu : Counted { u with alone := (kind.owner s.alone).2 } := by
      obtain ⟨rfl, -⟩ | ⟨-, -, rfl⟩ := communication_cases hcomm
      all_goals exact ⟨h.count, h.nodup, h.below, h.began, h.waits, h.awake⟩
    refine hu.join ?_ kind d
    obtain ⟨rfl, -⟩ | ⟨-, -, rfl⟩ := communication_cases hcomm
    all_goals exact hunmade
  | opens n =>
    obtain ⟨⟨hphase, -⟩, ht⟩ := Option.ite_none_right_eq_some.mp hstep
    cases ht
    exact h.turn (by simp [hphase]) (by simp)
  | take n =>
    cases n with
    | none => cases hstep; exact h.taken none
    | some n =>
      obtain ⟨-, ht⟩ := Option.ite_none_right_eq_some.mp hstep
      cases ht
      exact h.taken (some n)
  | finish serial =>
    obtain ⟨hserial, ht⟩ := Option.ite_none_right_eq_some.mp hstep
    cases ht
    exact h.done hserial
  | close n =>
    obtain ⟨hphase, ht⟩ := Option.ite_none_right_eq_some.mp hstep
    have hbegun := h.beginClose n
    have hn : ((s.beginClose n).consumers n).phase ≠ .settling := by simp [hphase]
    dsimp only at ht
    split_ifs at ht with hsettles hcount hdrains <;> cases ht
    · exact hbegun.turn hn (by simp)
    · exact hbegun.settling hcount
    · exact Counted.turn (s := (s.beginClose n).sealComm _) { hbegun with } hn (by simp)
    · exact hbegun.turn hn (by simp)
  | seals n =>
    obtain ⟨hphase, ht⟩ := Option.ite_none_right_eq_some.mp hstep
    cases ht
    refine Counted.turn (s := s.sealComm _) { h with } (fun hsettling => ?_) (by simp)
    exact absurd (hphase.symm.trans hsettling) (by decide)
  | cancelled c =>
    obtain ⟨-, ht⟩ := Option.ite_none_right_eq_some.mp hstep
    cases ht
    exact { h with }
  | drain n =>
    obtain ⟨⟨hphase, -⟩, ht⟩ := Option.ite_none_right_eq_some.mp hstep
    cases ht
    exact h.turn (by simp [hphase]) (by simp)
  | closed n =>
    obtain ⟨pending, hphase, -, rfl⟩ := step_closed hstep
    exact h.turn (by simp [hphase]) (by simp)
  | shut c =>
    obtain ⟨-, ht⟩ := Option.ite_none_right_eq_some.mp hstep
    cases ht
    exact { h with }

/-! ## Who shares a communication -/

/-- What a connector is made over, and what is held of communications. -/
structure Made (s : Process ν κ) : Prop where
  linked : ∀ n, (s.consumers n).phase ≠ .unmade → n ∈ (s.comm n).links
  link : ∀ c, ∀ n ∈ (s.comms c).links, (s.consumers n).phase ≠ .unmade ∧ (s.consumers n).via = c
  unmade : ∀ c, (s.comms c).status = .unmade → (s.comms c).links = []
  owned : ∀ n, (s.consumers n).phase ≠ .unmade → ∃ k, ((s.consumers n).kind.owner k).1 = (s.comm n).key.1
  held : ∀ key c, s.held key = some c → (s.comms c).key = key ∧ (s.comms c).status ≠ .unmade
  alone : ∀ c k, (s.comms c).status ≠ .unmade → (s.comms c).key.1 = .alone k →
    k ≤ s.alone ∧ (s.comms c).links.length ≤ 1

theorem made_init [Inhabited κ] : (init : Process ν κ).Made where
  linked _ h := absurd rfl h
  link _ _ h := by cases h
  unmade _ _ := rfl
  owned _ h := absurd rfl h
  held _ _ h := by cases h
  alone _ _ h := absurd rfl h

namespace Kept

theorem comm (h : Kept s t) (n : ν) : (s.comm n).Onward (t.comm n) := by
  rw [Process.comm, Process.comm, h.via]
  exact h.comms _

theorem made_iff (h : Kept s t) (n : ν) :
    (t.consumers n).phase ≠ .unmade ↔ (s.consumers n).phase ≠ .unmade := by
  refine not_congr ⟨fun hunmade => ?_, h.unmade n⟩
  have hrank := h.rank n
  rw [hunmade] at hrank
  exact Phase.rank_eq_zero.mp (Nat.le_zero.mp hrank)

theorem made (h : Kept s t) (hs : s.Made) : t.Made where
  linked n hn := by
    rw [(h.comm n).links]
    exact hs.linked n ((h.made_iff n).mp hn)
  link c n hn := by
    rw [(h.comms c).links] at hn
    rw [h.made_iff, h.via]
    exact hs.link c n hn
  unmade c hc := by
    rw [(h.comms c).links]
    exact hs.unmade c ((h.comms c).unmade.mp hc)
  owned n hn := by
    rw [h.kind, (h.comm n).key]
    exact hs.owned n ((h.made_iff n).mp hn)
  held key c hheld := by
    rw [(h.comms c).key, Ne, (h.comms c).unmade]
    exact hs.held key c (h.held key c hheld)
  alone c k := by
    rw [(h.comms c).key, (h.comms c).links, Ne, (h.comms c).unmade, h.alone]
    exact hs.alone c k

end Kept

theorem owner_alone {kind : Kind} {alone k : ℕ} (h : (kind.owner alone).1 = .alone k) :
    k = alone + 1 ∧ (kind.owner alone).2 = alone + 1 := by
  unfold Kind.owner at h ⊢
  split <;> simp_all

theorem le_owner (kind : Kind) (alone : ℕ) : alone ≤ (kind.owner alone).2 := by
  unfold Kind.owner
  split <;> simp

section
variable {n m : ν} {kind : Kind} {c d : κ}

theorem consumers_join_self : (s.join n kind c).consumers n = ⟨kind, c, .made, 0⟩ := Function.update_self ..

theorem consumers_join_of_ne (h : m ≠ n) : (s.join n kind c).consumers m = s.consumers m :=
  Function.update_of_ne h ..

theorem comms_join_self : (s.join n kind c).comms c = { s.comms c with links := (s.comms c).links ++ [n] } :=
  Function.update_self ..

theorem comms_join_of_ne (h : d ≠ c) : (s.join n kind c).comms d = s.comms d := Function.update_of_ne h ..

theorem key_join (d : κ) : ((s.join n kind c).comms d).key = (s.comms d).key := by
  by_cases h : d = c
  · rw [h, comms_join_self]
  · rw [comms_join_of_ne h]

theorem status_join (d : κ) : ((s.join n kind c).comms d).status = (s.comms d).status := by
  by_cases h : d = c
  · rw [h, comms_join_self]
  · rw [comms_join_of_ne h]

theorem mem_links_join (d : κ) (m : ν) :
    m ∈ ((s.join n kind c).comms d).links ↔ m ∈ (s.comms d).links ∨ d = c ∧ m = n := by
  by_cases h : d = c
  · rw [h, comms_join_self, List.mem_append, List.mem_singleton]
    simp
  · rw [comms_join_of_ne h]
    simp [h]

theorem Made.join (h : s.Made) (hn : (s.consumers n).phase = .unmade) (hc : (s.comms c).status ≠ .unmade)
    (howner : ∃ k, (kind.owner k).1 = (s.comms c).key.1)
    (halone : ∀ k, (s.comms c).key.1 = .alone k → (s.comms c).links = []) : (s.join n kind c).Made where
  linked m hm := by
    rw [comm, mem_links_join]
    by_cases hmn : m = n
    · subst hmn
      rw [consumers_join_self]
      exact .inr ⟨rfl, rfl⟩
    · rw [consumers_join_of_ne hmn] at hm ⊢
      exact .inl (h.linked m hm)
  link d m hm := by
    obtain hold | ⟨rfl, rfl⟩ := (mem_links_join d m).mp hm
    · have hmn : m ≠ n := by
        rintro rfl
        exact (h.link d m hold).1 hn
      rw [consumers_join_of_ne hmn]
      exact h.link d m hold
    · rw [consumers_join_self]
      exact ⟨by simp, rfl⟩
  unmade d hd := by
    rw [status_join] at hd
    have hdc : d ≠ c := by
      rintro rfl
      exact hc hd
    rw [comms_join_of_ne hdc]
    exact h.unmade d hd
  owned m hm := by
    rw [comm, key_join]
    by_cases hmn : m = n
    · subst hmn
      rw [consumers_join_self]
      exact howner
    · rw [consumers_join_of_ne hmn] at hm ⊢
      exact h.owned m hm
  held key d hd := by
    rw [key_join, status_join]
    exact h.held key d hd
  alone d k hd hkey := by
    rw [status_join] at hd
    rw [key_join] at hkey
    obtain ⟨hle, hlength⟩ := h.alone d k hd hkey
    refine ⟨hle, ?_⟩
    by_cases hdc : d = c
    · subst hdc
      rw [comms_join_self]
      dsimp only
      rw [halone k hkey]
      exact le_rfl
    · rw [comms_join_of_ne hdc]
      exact hlength

end

theorem Made.fresh (h : s.Made) {c : κ} (hc : (s.comms c).status = .unmade) (key : Owner × String) {alone : ℕ}
    (hle : s.alone ≤ alone) (hkey : ∀ k, key.1 = .alone k → k ≤ alone) :
    Made { s with
      comms := Function.update s.comms c ⟨key, .consuming, []⟩
      held := Function.update s.held key (some c)
      alone := alone } := by
  have hheld : ∀ n, (s.consumers n).phase ≠ .unmade → (s.consumers n).via ≠ c := by
    rintro n hn rfl
    have hlinked := h.linked n hn
    rw [comm, h.unmade _ hc] at hlinked
    cases hlinked
  have hcomm : ∀ n, (s.consumers n).phase ≠ .unmade →
      Function.update s.comms c ⟨key, .consuming, []⟩ (s.consumers n).via = s.comm n := fun n hn =>
    Function.update_of_ne (hheld n hn) ..
  refine ⟨fun n hn => ?_, fun d n hn => ?_, fun d hd => ?_, fun n hn => ?_, fun key' d hd => ?_, fun d k hd hk => ?_⟩
  · exact (congrArg Communication.links (hcomm n hn)).symm ▸ h.linked n hn
  · dsimp only at hn
    by_cases hdc : d = c
    · subst hdc
      rw [Function.update_self] at hn
      cases hn
    · rw [Function.update_of_ne hdc] at hn
      exact h.link d n hn
  · dsimp only at hd ⊢
    by_cases hdc : d = c
    · subst hdc
      rw [Function.update_self]
    · rw [Function.update_of_ne hdc] at hd ⊢
      exact h.unmade d hd
  · exact (congrArg Communication.key (hcomm n hn)).symm ▸ h.owned n hn
  · dsimp only at hd ⊢
    by_cases hkey' : key' = key
    · subst hkey'
      rw [Function.update_self] at hd
      obtain rfl := Option.some.inj hd
      rw [Function.update_self]
      exact ⟨rfl, by simp⟩
    · rw [Function.update_of_ne hkey'] at hd
      obtain ⟨hold, hstatus⟩ := h.held key' d hd
      have hdc : d ≠ c := by
        rintro rfl
        exact hstatus hc
      rw [Function.update_of_ne hdc]
      exact ⟨hold, hstatus⟩
  · dsimp only at hd hk ⊢
    by_cases hdc : d = c
    · subst hdc
      rw [Function.update_self] at hk ⊢
      exact ⟨hkey k hk, Nat.zero_le _⟩
    · rw [Function.update_of_ne hdc] at hd hk ⊢
      exact (h.alone d k hd hk).imp_left fun hk => hk.trans hle

theorem made_make (h : s.Made) {n : ν} {kind : Kind} {references : String} {fresh : κ}
    (hstep : s.step (.make n kind references fresh) = some t) : t.Made := by
  obtain ⟨hunmade, u, c, hcomm, rfl⟩ := step_make hstep
  obtain ⟨rfl, hheld, -⟩ | ⟨rfl, hfresh, rfl⟩ := communication_cases hcomm
  · obtain ⟨hkey, hstatus⟩ := h.held _ _ hheld
    have hraised : Made { u with alone := (kind.owner u.alone).2 } :=
      { h with alone := fun d k hd hk => (h.alone d k hd hk).imp_left fun hle => hle.trans (le_owner kind u.alone) }
    refine hraised.join hunmade hstatus ⟨u.alone, (congrArg Prod.fst hkey).symm⟩ fun k hk => ?_
    -- what is alone has a serial that no communication had
    have hserial := (owner_alone ((congrArg Prod.fst hkey).symm.trans hk)).1
    exact absurd (h.alone c k hstatus hk).1 (by omega)
  · have hnew := h.fresh hfresh ((kind.owner s.alone).1, references) (le_owner kind s.alone) fun k hk => by
      obtain ⟨hserial, hnext⟩ := owner_alone hk
      exact (hserial.trans hnext.symm).le
    refine hnew.join hunmade ?_ ⟨s.alone, ?_⟩ fun k _ => ?_
    all_goals
      dsimp only
      rw [Function.update_self]
    simp

theorem made_step (hs : s.Counted) (h : s.Made) {a : Act ν κ} (hstep : s.step a = some t) : t.Made := by
  by_cases ha : ∃ n kind references c, a = .make n kind references c
  · obtain ⟨n, kind, references, c, rfl⟩ := ha
    exact made_make h hstep
  · exact (step_kept hs hstep fun n kind references c heq => ha ⟨n, kind, references, c, heq⟩).made h

end Process
end Toa.Amqp
