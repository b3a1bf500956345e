import Mathlib.Data.List.Nodup
import Mathlib.Order.Defs.LinearOrder
import Mathlib.Order.Lattice
import Mathlib.Tactic.SplitIfs

/-! One reader of a key: what it is sent, in order. -/

set_option linter.unusedSectionVars false

namespace Toa.Realtime

variable {ι E : Type*}

structure Entry (ι E : Type*) where
  id : ι
  data : E

inductive Message (ι E : Type*)
  | event (entry : Entry ι E)
  | token (id : ι)

/-- `cursor` is the id of the last event it was given, and `held` what arrives while it is being
replayed to. -/
structure Stream (ι E : Type*) where
  cursor : Option ι
  held : Option (List (Entry ι E))
  sent : List (Message ι E)

namespace Stream

def init : Stream ι E := ⟨none, some [], []⟩

def event? : Message ι E → Option (Entry ι E)
  | .event entry => some entry
  | .token _ => none

def token? : Message ι E → Option ι
  | .event _ => none
  | .token id => some id

def given (s : Stream ι E) : List (Entry ι E) := s.sent.filterMap event?

def tokens (s : Stream ι E) : List ι := s.sent.filterMap token?

def got (s : Stream ι E) : List (Entry ι E) := s.held.getD s.given

def token (s : Stream ι E) (id : ι) : Stream ι E := { s with sent := s.sent ++ [.token id] }

variable [LinearOrder ι]

def write (s : Stream ι E) (entry : Entry ι E) : Stream ι E :=
  if s.cursor.any (entry.id ≤ ·) = true then s
  else { s with cursor := some entry.id, sent := s.sent ++ [.event entry, .token entry.id] }

def deliver (s : Stream ι E) (entry : Entry ι E) : Stream ι E :=
  match s.held with
  | some held => { s with held := some (held ++ [entry]) }
  | none => s.write entry

def ready (s : Stream ι E) (entries : List (Entry ι E)) : Stream ι E :=
  (s.held.getD []).foldl write (entries.foldl write { s with held := none })

/-- The end of `open`: `cursor` is where it is replayed to from. -/
def opened (s : Stream ι E) (cursor marker : ι) (entries : List (Entry ι E)) : Stream ι E :=
  let s := { s with cursor := some cursor }.ready entries
  if entries.isEmpty = true then s.token marker else s

/-! ## What a write does -/

theorem write_cases (s : Stream ι E) (entry : Entry ι E) :
    (∃ c, s.cursor = some c ∧ entry.id ≤ c ∧ s.write entry = s) ∨
      (∀ c ∈ s.cursor, c < entry.id) ∧
        s.write entry = ⟨some entry.id, s.held, s.sent ++ [.event entry, .token entry.id]⟩ := by
  unfold write
  cases hcursor : s.cursor with
  | none => exact .inr ⟨fun _ h => absurd h (Option.not_mem_none _), rfl⟩
  | some c =>
    by_cases hle : entry.id ≤ c
    · refine .inl ⟨c, rfl, hle, if_pos ?_⟩
      exact decide_eq_true hle
    · refine .inr ⟨fun c' hc' => Option.some.inj hc' ▸ not_le.mp hle, if_neg fun h => hle ?_⟩
      exact of_decide_eq_true h

theorem given_append_event (cursor : Option ι) (held : Option (List (Entry ι E)))
    (sent : List (Message ι E)) (entry : Entry ι E) :
    given ⟨cursor, held, sent ++ [.event entry, .token entry.id]⟩ =
      given ⟨cursor, held, sent⟩ ++ [entry] := by
  simp only [given, List.filterMap_append]
  rfl

theorem write_held (s : Stream ι E) (entry : Entry ι E) : (s.write entry).held = s.held := by
  rcases s.write_cases entry with ⟨_, _, _, h⟩ | ⟨_, h⟩ <;> rw [h]

/-- Events are given in the order of their ids, and the cursor is the last of them. -/
structure Ordered (s : Stream ι E) : Prop where
  given : (s.given.map (·.id)).Pairwise (· < ·)
  cursor : ∀ e ∈ s.given, ∃ c ∈ s.cursor, e.id ≤ c

theorem ordered_write {s : Stream ι E} (h : s.Ordered) (entry : Entry ι E) :
    (s.write entry).Ordered := by
  rcases s.write_cases entry with ⟨_, _, _, heq⟩ | ⟨hpast, heq⟩
  · rw [heq]
    exact h
  · rw [heq]
    refine ⟨?_, fun e he => ?_⟩
    · rw [given_append_event, List.map_append]
      refine List.pairwise_append.mpr ⟨h.given, List.pairwise_singleton _ _, fun a ha b hb => ?_⟩
      obtain ⟨e, he, rfl⟩ := List.mem_map.mp ha
      obtain ⟨c, hc, hle⟩ := h.cursor e he
      exact List.mem_singleton.mp hb ▸ lt_of_le_of_lt hle (hpast c hc)
    · rw [given_append_event] at he
      rcases List.mem_append.mp he with he | he
      · obtain ⟨c, hc, hle⟩ := h.cursor e he
        exact ⟨_, rfl, le_trans hle (le_of_lt (hpast c hc))⟩
      · exact ⟨_, rfl, List.mem_singleton.mp he ▸ le_refl _⟩

/-- Of the events after `base`, what is not past the cursor was given. -/
def Served (events : List (Entry ι E)) (base : ι) (s : Stream ι E) : Prop :=
  ∀ e ∈ events, base < e.id → ∀ c ∈ s.cursor, e.id ≤ c → e ∈ s.given

theorem given_subset_write (s : Stream ι E) (entry : Entry ι E) :
    s.given ⊆ (s.write entry).given := by
  rcases s.write_cases entry with ⟨_, _, _, heq⟩ | ⟨_, heq⟩ <;> rw [heq]
  · exact List.Subset.refl _
  · rw [given_append_event]
    exact List.subset_append_left _ _

/-- A reader that is past its replay, of the events after `base`. -/
structure Flowing (events : List (Entry ι E)) (base : ι) (s : Stream ι E) : Prop where
  held : s.held = none
  cursor : ∃ c ∈ s.cursor, base ≤ c ∧ (c = base ∨ ∃ e ∈ events, c = e.id)
  ordered : s.Ordered
  given : ∀ e ∈ s.given, e ∈ events ∧ base < e.id
  served : Served events base s

theorem flowing_write {events : List (Entry ι E)} (hids : (events.map (·.id)).Nodup) {base : ι}
    {s : Stream ι E} (h : Flowing events base s) {entry : Entry ι E} (hentry : entry ∈ events)
    (holder : ∀ e ∈ events, base < e.id → e.id < entry.id → e ∈ s.given) :
    Flowing events base (s.write entry) ∧ (base < entry.id → entry ∈ (s.write entry).given) := by
  have hordered := ordered_write h.ordered entry
  rcases s.write_cases entry with ⟨c, hc, hle, heq⟩ | ⟨hpast, heq⟩
  · rw [heq]
    exact ⟨h, fun hbase => h.served entry hentry hbase c hc hle⟩
  · have hgiven : (s.write entry).given = s.given ++ [entry] := heq ▸ given_append_event ..
    have hcursor : (s.write entry).cursor = some entry.id := heq ▸ rfl
    have hmem : entry ∈ s.given ++ [entry] := List.mem_append_right _ (List.mem_singleton_self _)
    obtain ⟨c, hc, hbase, -⟩ := h.cursor
    have hafter : base < entry.id := lt_of_le_of_lt hbase (hpast c hc)
    refine ⟨⟨(s.write_held entry).trans h.held, ?_, hordered, fun e he => ?_,
      fun e he hbase c hc hle => ?_⟩, fun _ => hgiven ▸ hmem⟩
    · exact ⟨entry.id, hcursor, le_of_lt hafter, .inr ⟨entry, hentry, rfl⟩⟩
    · rw [hgiven] at he
      rcases List.mem_append.mp he with he | he
      · exact h.given e he
      · exact List.mem_singleton.mp he ▸ ⟨hentry, hafter⟩
    · obtain rfl := Option.some.inj (hcursor.symm.trans hc)
      rw [hgiven]
      rcases lt_or_eq_of_le hle with hlt | hid
      · exact List.mem_append_left _ (holder e he hbase hlt)
      · obtain rfl := List.inj_on_of_nodup_map hids he hentry hid
        exact hmem

def Owed (events : List (Entry ι E)) (base : ι) (e : Entry ι E) : Prop := e ∈ events ∧ base < e.id

/-- Each entry of the list comes after all the older ones that are owed, but for those in `given`. -/
def Complete (owed : Entry ι E → Prop) (given entries : List (Entry ι E)) : Prop :=
  ∀ pre entry, pre ++ [entry] <+: entries → ∀ e, owed e → e.id < entry.id → e ∈ given ∨ e ∈ pre

theorem complete_nil (owed : Entry ι E → Prop) (given : List (Entry ι E)) :
    Complete owed given [] := fun pre entry hpre => by
  have hlength := hpre.length_le
  simp only [List.length_append, List.length_singleton, List.length_nil] at hlength
  omega

namespace Complete
variable {owed : Entry ι E → Prop} {given more entries : List (Entry ι E)} {entry : Entry ι E}

theorem head (h : Complete owed given (entry :: entries)) {e : Entry ι E} (he : owed e)
    (hlt : e.id < entry.id) : e ∈ given :=
  (h [] entry (List.cons_prefix_cons.mpr ⟨rfl, List.nil_prefix⟩) e he hlt).resolve_right
    List.not_mem_nil

theorem mono (h : Complete owed given entries) (hmore : ∀ e ∈ given, owed e → e ∈ more) :
    Complete owed more entries := fun pre entry hpre e he hlt =>
  (h pre entry hpre e he hlt).imp_left fun hgiven => hmore e hgiven he

theorem tail (h : Complete owed given (entry :: entries)) (hmore : ∀ e ∈ given, owed e → e ∈ more)
    (hentry : owed entry → entry ∈ more) : Complete owed more entries := by
  intro pre next hpre e he hlt
  have hcons : entry :: pre ++ [next] <+: entry :: entries := List.cons_prefix_cons.mpr ⟨rfl, hpre⟩
  rcases h (entry :: pre) next hcons e he hlt with hgiven | hmem
  · exact .inl (hmore e hgiven he)
  · rcases List.mem_cons.mp hmem with rfl | hmem
    · exact .inl (hentry he)
    · exact .inr hmem

theorem snoc (h : Complete owed given entries)
    (hentry : ∀ e, owed e → e.id < entry.id → e ∈ given ∨ e ∈ entries) :
    Complete owed given (entries ++ [entry]) := by
  intro pre next hpre e he hlt
  rcases List.prefix_concat_iff.mp hpre with heq | hpre
  · obtain ⟨rfl, hnext⟩ := List.append_inj' heq rfl
    obtain rfl := List.head_eq_of_cons_eq hnext
    exact hentry e he hlt
  · exact h pre next hpre e he hlt

theorem of_sorted (hsorted : (entries.map (·.id)).Pairwise (· < ·))
    (hall : ∀ e, owed e → ∀ entry ∈ entries, e.id < entry.id → e ∈ given ∨ e ∈ entries) :
    Complete owed given entries := by
  intro pre entry hpre e he hlt
  obtain ⟨post, rfl⟩ := hpre
  have hentry : entry ∈ pre ++ [entry] ++ post :=
    List.mem_append_left _ (List.mem_append_right _ (List.mem_singleton_self _))
  rcases hall e he entry hentry hlt with hgiven | hmem
  · exact .inl hgiven
  · refine .inr (Classical.byContradiction fun hnot => ?_)
    rw [List.append_assoc, List.mem_append, List.singleton_append] at hmem
    rw [List.append_assoc, List.map_append, List.singleton_append, List.map_cons] at hsorted
    have hpost := (List.pairwise_cons.mp (List.pairwise_append.mp hsorted).2.1).1
    rcases List.mem_cons.mp (hmem.resolve_left hnot) with rfl | hlate
    · exact lt_irrefl _ hlt
    · exact lt_asymm hlt (hpost e.id (List.mem_map_of_mem hlate))

end Complete

theorem flowing_foldl {events : List (Entry ι E)} (hids : (events.map (·.id)).Nodup) {base : ι}
    {entries : List (Entry ι E)} {s : Stream ι E} (h : Flowing events base s)
    (hentries : entries ⊆ events) (hcomplete : Complete (Owed events base) s.given entries) :
    Flowing events base (entries.foldl write s) ∧ s.given ⊆ (entries.foldl write s).given ∧
      ∀ e ∈ entries, base < e.id → e ∈ (entries.foldl write s).given := by
  induction entries generalizing s with
  | nil => exact ⟨h, List.Subset.refl _, fun _ he => nomatch he⟩
  | cons entry entries ih =>
    have hentry : entry ∈ events := hentries (List.mem_cons_self ..)
    obtain ⟨hwrite, hgiven⟩ := flowing_write hids h hentry fun e he hbase hlt =>
      hcomplete.head ⟨he, hbase⟩ hlt
    have htail : Complete (Owed events base) (s.write entry).given entries :=
      hcomplete.tail (fun e he _ => s.given_subset_write entry he) fun howed => hgiven howed.2
    obtain ⟨hflowing, hsubset, hall⟩ :=
      ih hwrite (fun e he => hentries (List.mem_cons_of_mem _ he)) htail
    refine ⟨hflowing, fun e he => hsubset (s.given_subset_write entry he), fun e he hbase => ?_⟩
    rcases List.mem_cons.mp he with rfl | he
    · exact hsubset (hgiven hbase)
    · exact hall e he hbase

structure Holding (events : List (Entry ι E)) (s : Stream ι E) : Prop where
  sent : s.sent = []
  held : ∃ held, s.held = some held ∧ held ⊆ events

theorem opened_held (s : Stream ι E) (base marker : ι) (entries : List (Entry ι E)) :
    (s.opened base marker entries).cursor = ({ s with cursor := some base }.ready entries).cursor ∧
      (s.opened base marker entries).held = ({ s with cursor := some base }.ready entries).held ∧
      (s.opened base marker entries).given =
        ({ s with cursor := some base }.ready entries).given := by
  unfold opened
  simp only
  split_ifs
  · refine ⟨rfl, rfl, ?_⟩
    rw [token, given, given, List.filterMap_append]
    exact List.append_nil _
  · exact ⟨rfl, rfl, rfl⟩

theorem flowing_start (events : List (Entry ι E)) (base : ι) :
    Flowing events base ⟨some base, none, []⟩ := by
  refine ⟨rfl, ⟨base, rfl, le_refl _, .inl rfl⟩, ⟨List.Pairwise.nil, ?_⟩, ?_, ?_⟩
  · exact fun _ he => nomatch he
  · exact fun _ he => nomatch he
  · exact fun e _ hbase c hc hle => absurd (Option.some.inj hc ▸ hle) (not_le.mpr hbase)

theorem ready_eq {events : List (Entry ι E)} {s : Stream ι E} (h : Holding events s) (base : ι)
    (entries : List (Entry ι E)) : { s with cursor := some base }.ready entries =
      s.got.foldl write (entries.foldl write ⟨some base, none, []⟩) := by
  obtain ⟨held, heq, -⟩ := h.held
  rw [ready, got, heq, h.sent]
  rfl

theorem Holding.got_subset {events : List (Entry ι E)} {s : Stream ι E} (h : Holding events s) :
    s.got ⊆ events := by
  obtain ⟨held, heq, hsubset⟩ := h.held
  rw [got, heq]
  exact hsubset

theorem flowing_opened {events : List (Entry ι E)} (hids : (events.map (·.id)).Nodup)
    {base : ι} (marker : ι) {s : Stream ι E} (h : Holding events s) {entries : List (Entry ι E)}
    (hentries : entries ⊆ events) (hreplay : Complete (Owed events base) [] entries)
    (hheld : Complete (Owed events base) entries s.got) :
    Flowing events base (s.opened base marker entries) ∧
      ∀ e ∈ entries ++ s.got, base < e.id → e ∈ (s.opened base marker entries).given := by
  obtain ⟨hreplayed, -, hentry⟩ := flowing_foldl hids (flowing_start events base) hentries hreplay
  obtain ⟨hflowing, hmore, hall⟩ := flowing_foldl hids hreplayed h.got_subset
    (hheld.mono fun e he howed => hentry e he howed.2)
  obtain ⟨hcursor, hnone, hsame⟩ := s.opened_held base marker entries
  rw [ready_eq h] at hcursor hnone hsame
  refine ⟨⟨hnone.trans hflowing.held, hcursor ▸ hflowing.cursor, ⟨?_, ?_⟩, ?_, ?_⟩,
    fun e he hbase => ?_⟩
  · exact hsame ▸ hflowing.ordered.given
  · rw [hsame, hcursor]; exact hflowing.ordered.cursor
  · exact hsame ▸ hflowing.given
  · exact fun e he hbase c hc hle => hsame ▸ hflowing.served e he hbase c (hcursor ▸ hc) hle
  · rw [hsame]
    rcases List.mem_append.mp he with he | he
    · exact hmore (hentry e he hbase)
    · exact hall e he hbase

end Stream
end Toa.Realtime
