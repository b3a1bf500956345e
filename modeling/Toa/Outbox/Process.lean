import Mathlib.Logic.Function.Basic
import Toa.Lib.Assoc
import Toa.Lib.Join
import Toa.Outbox.Rows

/-! What one process holds of the rows it publishes, and what the immediate path, a cycle of the
pump and the marking of what was sent make of it. -/

namespace Toa.Outbox
open Assoc Join

set_option linter.unusedSectionVars false

variable {ι : Type*} [DecidableEq ι]

structure Destinations where
  names : List Name
  nodup : names.Nodup

structure Options where
  gap : ℕ
  batch : ℕ
  batch_pos : 0 < batch
  defer : Bool

def INFLIGHT : ℕ := 1000
def PUBLISHED : ℕ := 10000

/-- Rows sharing the destinations that completed for them, which is one write. -/
structure Group (ι : Type*) where
  destinations : List Name
  ids : List ι

/-- Where a cycle is. It is idle where it has no group left to settle. -/
inductive Pump (ι : Type*)
  | reading (after : Option ι)
  | read (page : List (Row ι))
  | awaiting (page : List (Row ι))
  | marking (groups : List (Group ι))

inductive Close (ι : Type*)
  | none
  | draining
  | marking (groups : List (Group ι))

/-- `#published`, `#publishing` and `#inflight` are sets in the order they were added to. What is in
flight stands under the id of its row. `made` is the rows of its own that the process has committed
and is yet to hand over. -/
structure Process (ι : Type*) where
  published : Name → List ι
  publishing : Name → List ι
  inflight : Name → List ι
  made : List (Row ι)
  ticking : Bool
  pump : Pump ι
  close : Close ι

/-- The two that settle what was published: a cycle of the pump, and the close. -/
inductive Marker
  | pump
  | close

namespace Process

def init : Process ι where
  published := fun _ => []
  publishing := fun _ => []
  inflight := fun _ => []
  made := []
  ticking := false
  pump := .marking []
  close := .none

def due (destinations : Destinations) (p : Process ι) (row : Row ι) (d : Name) : Bool :=
  d ∈ row.outstanding && d ∈ destinations.names && row.id ∉ p.published d &&
    row.id ∉ p.publishing d

/-- `#send`, to where it waits for the emission it started. -/
def send (p : Process ι) (row : Row ι) (d : Name) : Process ι :=
  if INFLIGHT ≤ (p.inflight d).length ∨ PUBLISHED ≤ (p.published d).length then p
  else { p with
    publishing := Function.update p.publishing d (p.publishing d ++ [row.id])
    inflight := Function.update p.inflight d (p.inflight d ++ [row.id]) }

/-- `#publish` -/
def publish (destinations : Destinations) (p : Process ι) (row : Row ι) : Process ι :=
  destinations.names.foldl (fun p d => if p.due destinations row d then p.send row d else p) p

/-- What a cycle makes of a page: which rows it publishes is known before the first of them is. -/
def hand (destinations : Destinations) (p : Process ι) (page : List (Row ι)) : Process ι :=
  (page.filter fun row => destinations.names.any (p.due destinations row)).foldl
    (publish destinations) p

/-- The end of `#send`, where the emission failed. -/
def failed (p : Process ι) (d : Name) (id : ι) : Process ι :=
  { p with
    publishing := Function.update p.publishing d ((p.publishing d).erase id)
    inflight := Function.update p.inflight d ((p.inflight d).erase id) }

/-- The end of `#send`, where the emission succeeded. -/
def sent (p : Process ι) (d : Name) (id : ι) : Process ι :=
  { p.failed d id with
    published := Function.update p.published d
      (if id ∈ p.published d then p.published d else p.published d ++ [id]) }

def completed (destinations : Destinations) (p : Process ι) : List (ι × List Name) :=
  destinations.names.foldl (fun completed d =>
    (p.published d).foldl (fun completed id => gather id [d] (· ++ [d]) completed) completed) []

def key (destinations : List Name) : List Char :=
  join SEPARATOR (destinations.map (·.spell.toList))

def groups (destinations : Destinations) (p : Process ι) : List (Group ι) :=
  ((p.completed destinations).foldl (fun groups entry =>
    gather (key entry.2) ⟨entry.2, [entry.1]⟩
      (fun group => { group with ids := group.ids ++ [entry.1] }) groups) []).map Prod.snd

/-- The end of `#settle`, where the write was acknowledged. -/
def settled (p : Process ι) (group : Group ι) : Process ι :=
  { p with
    published := fun d =>
      if d ∈ group.destinations then (p.published d).filter (· ∉ group.ids) else p.published d }

def marking (p : Process ι) : Marker → List (Group ι)
  | .pump => match p.pump with
    | .marking groups => groups
    | _ => []
  | .close => match p.close with
    | .marking groups => groups
    | _ => []

def mark (p : Process ι) (marker : Marker) (groups : List (Group ι)) : Process ι :=
  match marker with
  | .pump => { p with pump := .marking groups }
  | .close => { p with close := .marking groups }

end Process

/-! ## What a process holds is true -/

def Group.Reached (reached : List (ι × Name)) (group : Group ι) : Prop :=
  ∀ d ∈ group.destinations, ∀ id ∈ group.ids, (id, d) ∈ reached

namespace Process

/-- What a process says is published was, and what it has in flight it says it is publishing, once
for every row and destination. -/
structure Sound (reached : List (ι × Name)) (p : Process ι) : Prop where
  published : ∀ d, ∀ id ∈ p.published d, (id, d) ∈ reached
  marking : ∀ marker, ∀ group ∈ p.marking marker, group.Reached reached
  inflight : ∀ d, p.inflight d ⊆ p.publishing d
  once : ∀ d, (p.inflight d).Nodup

variable {reached : List (ι × Name)} {destinations : Destinations} {p : Process ι}

theorem Sound.mono (hp : Sound reached p) {more : List (ι × Name)} (h : reached ⊆ more) :
    Sound more p where
  published := fun d id hid => h (hp.published d id hid)
  marking := fun marker group hgroup d hd id hid => h (hp.marking marker group hgroup d hd id hid)
  inflight := hp.inflight
  once := hp.once

theorem sound_init : Sound reached (init : Process ι) where
  published := fun _ _ h => nomatch h
  marking := fun marker _ h => by cases marker <;> exact nomatch h
  inflight := fun _ => List.Subset.refl _
  once := fun _ => List.nodup_nil

theorem sound_send (hp : Sound reached p) {row : Row ι} {d : Name}
    (hdue : p.due destinations row d = true) : Sound reached (p.send row d) := by
  have hfree : row.id ∉ p.publishing d := by
    simp only [due, Bool.and_eq_true, decide_eq_true_eq] at hdue
    exact hdue.2
  unfold send
  split_ifs
  · exact hp
  refine ⟨hp.published, hp.marking, fun d' => ?_, fun d' => ?_⟩
  · by_cases hd : d' = d
    · subst hd
      simp only [Function.update_self]
      exact List.append_subset.mpr ⟨List.subset_append_of_subset_left _ (hp.inflight d'),
        List.subset_append_right _ _⟩
    · simp only [Function.update_of_ne hd]
      exact hp.inflight d'
  · by_cases hd : d' = d
    · subst hd
      simp only [Function.update_self]
      have hnew : row.id ∉ p.inflight d' := fun h => hfree (hp.inflight d' h)
      exact List.nodup_append.mpr ⟨hp.once d', List.nodup_singleton _, fun a ha b hb hab =>
        hnew (List.mem_singleton.mp hb ▸ hab ▸ ha)⟩
    · simp only [Function.update_of_ne hd]
      exact hp.once d'

theorem sound_publish (hp : Sound reached p) (row : Row ι) :
    Sound reached (p.publish destinations row) := by
  unfold publish
  generalize destinations.names = names
  induction names generalizing p with
  | nil => exact hp
  | cons d names ih =>
    rw [List.foldl_cons]
    split_ifs with hdue
    · exact ih (sound_send hp hdue)
    · exact ih hp

theorem sound_hand (hp : Sound reached p) (page : List (Row ι)) :
    Sound reached (p.hand destinations page) := by
  unfold hand
  generalize page.filter _ = rows
  induction rows generalizing p with
  | nil => exact hp
  | cons row rows ih => exact ih (sound_publish hp row)

theorem sound_failed (hp : Sound reached p) (d : Name) (id : ι) :
    Sound reached (p.failed d id) := by
  refine ⟨hp.published, hp.marking, fun d' => ?_, fun d' => ?_⟩
  · by_cases hd : d' = d
    · subst hd
      simp only [failed, Function.update_self]
      intro id' hid'
      -- another row of the destination is in flight still, and so still publishing
      obtain ⟨hne, hmem⟩ := (hp.once d').mem_erase_iff.mp hid'
      exact (List.mem_erase_of_ne hne).mpr (hp.inflight d' hmem)
    · simp only [failed, Function.update_of_ne hd]
      exact hp.inflight d'
  · by_cases hd : d' = d
    · subst hd
      simp only [failed, Function.update_self]
      exact (hp.once d').erase id
    · simp only [failed, Function.update_of_ne hd]
      exact hp.once d'

theorem sound_sent (hp : Sound reached p) {d : Name} {id : ι} (h : (id, d) ∈ reached) :
    Sound reached (p.sent d id) := by
  obtain ⟨-, hmarking, hinflight, honce⟩ := sound_failed hp d id
  refine ⟨fun d' id' hid' => ?_, hmarking, hinflight, honce⟩
  by_cases hd : d' = d
  · subst hd
    simp only [sent, Function.update_self] at hid'
    split_ifs at hid'
    · exact hp.published d' id' hid'
    · rcases List.mem_append.mp hid' with hid' | hid'
      · exact hp.published d' id' hid'
      · exact List.mem_singleton.mp hid' ▸ h
  · simp only [sent, Function.update_of_ne hd] at hid'
    exact hp.published d' id' hid'

theorem sound_settled (hp : Sound reached p) (group : Group ι) :
    Sound reached (p.settled group) := by
  refine ⟨fun d id hid => ?_, hp.marking, hp.inflight, hp.once⟩
  simp only [settled] at hid
  split_ifs at hid
  · exact hp.published d id (List.mem_filter.mp hid).1
  · exact hp.published d id hid

theorem sound_mark (hp : Sound reached p) {groups : List (Group ι)}
    (hgroups : ∀ group ∈ groups, group.Reached reached) (marker : Marker) :
    Sound reached (p.mark marker groups) := by
  cases marker <;> refine ⟨hp.published, fun marker => ?_, hp.inflight, hp.once⟩ <;> cases marker
  · exact hgroups
  · exact hp.marking .close
  · exact hp.marking .pump
  · exact hgroups

theorem sound_cycle (hp : Sound reached p) {pump : Pump ι}
    (h : ∀ groups, pump = .marking groups → groups = []) :
    Sound reached { p with pump := pump } := by
  refine ⟨hp.published, fun marker => ?_, hp.inflight, hp.once⟩
  cases marker with
  | close => exact hp.marking .close
  | pump =>
    intro group hgroup
    cases pump with
    | marking groups => exact nomatch h groups rfl ▸ hgroup
    | _ => exact nomatch hgroup

theorem key_inj {ds es : List Name} (hd : ds ≠ []) (he : es ≠ []) (h : key ds = key es) :
    ds = es := by
  have hfree : ∀ ds : List Name, ∀ w ∈ ds.map (·.spell.toList), SEPARATOR ∉ w := by
    intro ds w hw
    obtain ⟨d, -, rfl⟩ := List.mem_map.mp hw
    exact d.free
  have hspell : Function.Injective fun d : Name => d.spell.toList := by
    rintro ⟨a, _⟩ ⟨b, _⟩ hab
    obtain rfl : a = b := String.toList_inj.mp hab
    rfl
  exact List.map_injective_iff.mpr hspell (join_inj (hfree ds) (hfree es)
    (fun hnil => hd (List.map_eq_nil_iff.mp hnil)) (fun hnil => he (List.map_eq_nil_iff.mp hnil)) h)

/-- An id stands in `completed` with destinations that completed for it. -/
theorem completed_published : ∀ e ∈ p.completed destinations,
    e.2 ≠ [] ∧ ∀ d ∈ e.2, e.1 ∈ p.published d := by
  let P : ι → List Name → Prop := fun id ds => ds ≠ [] ∧ ∀ d ∈ ds, id ∈ p.published d
  have hsweep (d : Name) {acc : List (ι × List Name)} (hacc : ∀ e ∈ acc, P e.1 e.2) :
      ∀ e ∈ (p.published d).foldl (fun acc id => gather id [d] (· ++ [d]) acc) acc, P e.1 e.2 := by
    refine forall_foldl_gather hacc (fun id hid => ⟨List.cons_ne_nil _ _, ?_⟩)
      fun id hid ds hds => ⟨List.append_ne_nil_of_right_ne_nil _ (List.cons_ne_nil _ _), ?_⟩
    · exact fun d' hd' => List.mem_singleton.mp hd' ▸ hid
    · intro d' hd'
      rcases List.mem_append.mp hd' with hd' | hd'
      · exact hds.2 d' hd'
      · exact List.mem_singleton.mp hd' ▸ hid
  have hall (names : List Name) {acc : List (ι × List Name)} (hacc : ∀ e ∈ acc, P e.1 e.2) :
      ∀ e ∈ names.foldl (fun acc d =>
        (p.published d).foldl (fun acc id => gather id [d] (· ++ [d]) acc) acc) acc, P e.1 e.2 := by
    induction names generalizing acc with
    | nil => exact hacc
    | cons d names ih => exact ih (hsweep d hacc)
  exact hall destinations.names fun _ h => nomatch h

theorem groups_reached (hp : Sound reached p) :
    ∀ group ∈ p.groups destinations, group.Reached reached := by
  let P : List Char → Group ι → Prop := fun k group =>
    k = key group.destinations ∧ group.destinations ≠ [] ∧ group.Reached reached
  have hentry : ∀ e ∈ p.completed destinations, ∀ d ∈ e.2, (e.1, d) ∈ reached :=
    fun e he d hd => hp.published d _ ((completed_published e he).2 d hd)
  have hgroups : ∀ e ∈ (p.completed destinations).foldl (fun groups entry =>
      gather (key entry.2) ⟨entry.2, [entry.1]⟩
        (fun group => { group with ids := group.ids ++ [entry.1] }) groups) [], P e.1 e.2 := by
    refine forall_foldl_gather (fun _ h => nomatch h) (fun e he => ?_) fun e he group hgroup => ?_
    · refine ⟨rfl, (completed_published e he).1, fun d hd id hid => ?_⟩
      exact List.mem_singleton.mp hid ▸ hentry e he d hd
    · obtain ⟨hkey, hne, hreached⟩ := hgroup
      refine ⟨hkey, hne, fun d hd id hid => ?_⟩
      rcases List.mem_append.mp hid with hid | hid
      · exact hreached d hd id hid
      · -- one key is one list of destinations
        have hds : e.2 = group.destinations := key_inj (completed_published e he).1 hne hkey
        exact List.mem_singleton.mp hid ▸ hentry e he d (hds ▸ hd)
  intro group hgroup
  obtain ⟨⟨k, _⟩, hmem, rfl⟩ := List.mem_map.mp hgroup
  exact (hgroups _ hmem).2.2

end Process
end Toa.Outbox
