import Toa.Realtime.Hub

/-! What a reader is owed, from where its opening has come to, and what it has of it. -/

set_option linter.unusedSectionVars false

namespace Toa.Realtime
open Toa.Realtime.Stream

variable {ρ ι E : Type*}

def ids (stored : List (ι × Option E)) : List ι := stored.map (·.1)

theorem events_append (stored : List (ι × Option E)) (record : ι × Option E) :
    events (stored ++ [record]) = events stored ++ (event record).toList := by
  rw [events, List.filterMap_append]
  obtain ⟨id, data⟩ := record
  cases data <;> rfl

theorem events_subset_append (stored : List (ι × Option E)) (record : ι × Option E) :
    events stored ⊆ events (stored ++ [record]) :=
  events_append stored record ▸ List.subset_append_left _ _

theorem mem_events_append {stored : List (ι × Option E)} {record : ι × Option E} {e : Entry ι E}
    (he : e ∈ events (stored ++ [record])) : e ∈ events stored ∨ event record = some e := by
  rw [events_append] at he
  exact (List.mem_append.mp he).imp_right Option.mem_toList.mp

theorem event_id {record : ι × Option E} {e : Entry ι E} (h : event record = some e) :
    e.id = record.1 := by
  obtain ⟨data, -, rfl⟩ := Option.map_eq_some_iff.mp h
  rfl

theorem events_ids (stored : List (ι × Option E)) :
    List.Sublist ((events stored).map (·.id)) (ids stored) := by
  induction stored with
  | nil => exact List.Sublist.refl _
  | cons record stored ih =>
    obtain ⟨id, data⟩ := record
    cases data with
    | none => exact ih.cons id
    | some data => exact ih.cons_cons id

theorem id_mem {stored : List (ι × Option E)} {e : Entry ι E} (he : e ∈ events stored) :
    e.id ∈ ids stored := (events_ids stored).subset (List.mem_map_of_mem he)

/-- Where what it is given begins. One that has a token begins once its replay is read: what comes
before that the replay reads. -/
def Reader.base (reader : Reader ι E) : Option ι :=
  match reader.token, reader.stage with
  | none, .marking marker => some marker
  | some token, .replayed _ _ => some token
  | token, .ready marker => some (token.getD marker)
  | _, _ => none

def Reader.got (reader : Reader ι E) : List (Entry ι E) :=
  match reader.stage with
  | .replayed _ entries => entries ++ reader.stream.got
  | _ => reader.stream.got

def Stage.open : Stage ι E → Prop
  | .absent | .left => False
  | _ => True

theorem marker_open {stage : Stage ι E} {m : ι} (h : m ∈ stage.marker) : stage.open := by
  cases stage with
  | absent => exact absurd h (Option.not_mem_none _)
  | left => exact absurd h (Option.not_mem_none _)
  | _ => exact trivial

theorem base_marker {reader : Reader ι E} {b : ι} (h : b ∈ reader.base) :
    ∃ m ∈ reader.stage.marker, reader.stage = .marking m → b = m := by
  obtain ⟨generation, token, stage, stream⟩ := reader
  cases stage with
  | absent | left | entered | replaying =>
    cases token <;> exact absurd h (Option.not_mem_none _)
  | marking m =>
    cases token with
    | none => exact ⟨m, rfl, fun _ => (Option.some.inj h).symm⟩
    | some token => exact absurd h (Option.not_mem_none _)
  | replayed m entries | ready m => exact ⟨m, rfl, nofun⟩

theorem base_open {reader : Reader ι E} {b : ι} (h : b ∈ reader.base) : reader.stage.open := by
  obtain ⟨m, hm, -⟩ := base_marker h
  exact marker_open hm

section
variable [LinearOrder ι]

def Fed (events : List (Entry ι E)) (reader : Reader ι E) : Prop :=
  match reader.token, reader.stage with
  | _, .absent | _, .left => True
  | _, .entered | some _, .marking _ | some _, .replaying _ => Holding events reader.stream
  | none, .marking marker =>
    Holding events reader.stream ∧ Complete (Owed events marker) [] reader.stream.got
  | some token, .replayed _ entries =>
    (Holding events reader.stream ∧ entries ⊆ events) ∧ Complete (Owed events token) [] entries ∧
      Complete (Owed events token) entries reader.stream.got
  | token, .ready marker => Flowing events (token.getD marker) reader.stream
  | none, .replaying _ | none, .replayed _ _ => False

/-! ## An event more in the stream -/

structure Later (old new : List (Entry ι E)) : Prop where
  subset : old ⊆ new
  later : ∀ e ∈ new, e ∈ old ∨ ∀ o ∈ old, o.id < e.id

theorem Later.owed {old new : List (Entry ι E)} (h : Later old new) {base : ι} {e o : Entry ι E}
    (he : Owed new base e) (ho : o ∈ old) (hle : e.id ≤ o.id) : Owed old base e :=
  ⟨(h.later e he.1).resolve_right fun hlater => not_le.mpr (hlater o ho) hle, he.2⟩

theorem Stream.Complete.later {old new : List (Entry ι E)} (h : Later old new) {base : ι}
    {given entries : List (Entry ι E)} (hentries : entries ⊆ old)
    (hcomplete : Complete (Owed old base) given entries) :
    Complete (Owed new base) given entries := fun pre entry hpre e he hlt =>
  have hentry : entry ∈ entries :=
    hpre.subset (List.mem_append_right _ (List.mem_singleton_self _))
  hcomplete pre entry hpre e (h.owed he (hentries hentry) (le_of_lt hlt)) hlt

theorem Stream.Holding.later {old new : List (Entry ι E)} (h : Later old new) {s : Stream ι E}
    (hs : Holding old s) : Holding new s := by
  obtain ⟨held, heq, hsubset⟩ := hs.held
  exact ⟨hs.sent, held, heq, fun e he => h.subset (hsubset he)⟩

theorem Stream.Flowing.later {old new : List (Entry ι E)} (h : Later old new) {base : ι}
    {s : Stream ι E} (hs : Flowing old base s) : Flowing new base s := by
  obtain ⟨c, hc, hbase, hcursor⟩ := hs.cursor
  refine ⟨hs.held, ⟨c, hc, hbase, ?_⟩, hs.ordered, fun e he => ?_, fun e he hlt c' hc' hle => ?_⟩
  · exact hcursor.imp_right fun ⟨e, he, heq⟩ => ⟨e, h.subset he, heq⟩
  · exact ⟨h.subset (hs.given e he).1, (hs.given e he).2⟩
  · obtain rfl := Option.some.inj (hc.symm.trans hc')
    rcases hcursor with rfl | ⟨o, ho, rfl⟩
    · exact absurd hlt (not_lt.mpr hle)
    · exact hs.served e (h.owed ⟨he, hlt⟩ ho hle).1 hlt _ hc hle

theorem Fed.later {old new : List (Entry ι E)} (h : Later old new) {reader : Reader ι E}
    (hfed : Fed old reader) : Fed new reader := by
  obtain ⟨generation, token, stage, stream⟩ := reader
  cases stage with
  | absent => exact trivial
  | left => exact trivial
  | entered => exact Holding.later h hfed
  | marking marker =>
    cases token with
    | none => exact ⟨hfed.1.later h, hfed.2.later h hfed.1.got_subset⟩
    | some token => exact Holding.later h hfed
  | replaying marker =>
    cases token with
    | none => exact hfed
    | some token => exact Holding.later h hfed
  | replayed marker entries =>
    cases token with
    | none => exact hfed
    | some token =>
      obtain ⟨⟨hholding, hsubset⟩, hreplay, hheld⟩ := hfed
      exact ⟨⟨hholding.later h, fun e he => h.subset (hsubset he)⟩, hreplay.later h hsubset,
        hheld.later h hholding.got_subset⟩
  | ready marker => exact Flowing.later h hfed

/-! ## An event delivered -/

theorem Stream.Holding.deliver {events : List (Entry ι E)} {s : Stream ι E} (h : Holding events s)
    {entry : Entry ι E} (hentry : entry ∈ events) :
    Holding events (s.deliver entry) ∧ (s.deliver entry).got = s.got ++ [entry] := by
  obtain ⟨held, heq, hsubset⟩ := h.held
  have hdeliver : s.deliver entry = { s with held := some (held ++ [entry]) } := by
    rw [Stream.deliver, heq]
  rw [hdeliver, got, got, heq]
  refine ⟨⟨h.sent, held ++ [entry], rfl, fun e he => ?_⟩, rfl⟩
  rcases List.mem_append.mp he with he | he
  · exact hsubset he
  · exact List.mem_singleton.mp he ▸ hentry

theorem Stream.Flowing.deliver {events : List (Entry ι E)} (hids : (events.map (·.id)).Nodup)
    {base : ι} {s : Stream ι E} (h : Flowing events base s) {entry : Entry ι E}
    (hentry : entry ∈ events) (holder : ∀ e, Owed events base e → e.id < entry.id → e ∈ s.got) :
    Flowing events base (s.deliver entry) ∧ s.got ⊆ (s.deliver entry).got ∧
      (base < entry.id → entry ∈ (s.deliver entry).got) := by
  have hdeliver : s.deliver entry = s.write entry := by rw [Stream.deliver, h.held]
  have hgot : s.got = s.given := by rw [got, h.held]; rfl
  obtain ⟨hflowing, hgiven⟩ := flowing_write hids h hentry fun e he hbase hlt =>
    hgot ▸ holder e ⟨he, hbase⟩ hlt
  have hmore : (s.write entry).got = (s.write entry).given := by rw [got, hflowing.held]; rfl
  rw [hdeliver, hgot, hmore]
  exact ⟨hflowing, s.given_subset_write entry, hgiven⟩

theorem fed_deliver {events : List (Entry ι E)} (hids : (events.map (·.id)).Nodup)
    {reader : Reader ι E} (h : Fed events reader) {entry : Entry ι E} (hentry : entry ∈ events)
    (holder : ∀ b ∈ reader.base, ∀ e, Owed events b e → e.id < entry.id → e ∈ reader.got) :
    Fed events { reader with stream := reader.stream.deliver entry } ∧
      ∀ b ∈ reader.base,
        reader.got ⊆ Reader.got { reader with stream := reader.stream.deliver entry } ∧
        (b < entry.id →
          entry ∈ Reader.got { reader with stream := reader.stream.deliver entry }) := by
  have hlast {l : List (Entry ι E)} : entry ∈ l ++ [entry] :=
    List.mem_append_right _ (List.mem_singleton_self _)
  obtain ⟨generation, token, stage, stream⟩ := reader
  cases stage with
  | absent => cases token <;> exact ⟨trivial, fun b hb => absurd hb (Option.not_mem_none _)⟩
  | left => cases token <;> exact ⟨trivial, fun b hb => absurd hb (Option.not_mem_none _)⟩
  | entered =>
    cases token <;>
      exact ⟨(Holding.deliver h hentry).1, fun b hb => absurd hb (Option.not_mem_none _)⟩
  | marking marker =>
    cases token with
    | none =>
      obtain ⟨hholding, hgot⟩ := h.1.deliver hentry
      have hall : Reader.got ⟨generation, none, .marking marker, stream.deliver entry⟩ =
          stream.got ++ [entry] := hgot
      rw [hall]
      refine ⟨⟨hholding, ?_⟩, fun b _ => ⟨?_, fun _ => hlast⟩⟩
      · exact hgot ▸ h.2.snoc fun e he hlt => .inr (holder marker rfl e he hlt)
      · exact fun e he => List.mem_append_left _ he
    | some token =>
      exact ⟨(Holding.deliver h hentry).1, fun b hb => absurd hb (Option.not_mem_none _)⟩
  | replaying marker =>
    cases token with
    | none => exact h.elim
    | some token =>
      exact ⟨(Holding.deliver h hentry).1, fun b hb => absurd hb (Option.not_mem_none _)⟩
  | replayed marker entries =>
    cases token with
    | none => exact h.elim
    | some token =>
      obtain ⟨⟨hholding, hsubset⟩, hreplay, hheld⟩ := h
      obtain ⟨hmore, hgot⟩ := hholding.deliver hentry
      have hall : Reader.got ⟨generation, some token, .replayed marker entries,
          stream.deliver entry⟩ = entries ++ stream.got ++ [entry] := by
        rw [Reader.got, hgot, List.append_assoc]
      rw [hall]
      refine ⟨⟨⟨hmore, hsubset⟩, hreplay, ?_⟩, fun b _ => ⟨?_, fun _ => hlast⟩⟩
      · exact hgot ▸ hheld.snoc fun e he hlt => List.mem_append.mp (holder token rfl e he hlt)
      · exact fun e he => List.mem_append_left _ he
  | ready marker =>
    obtain ⟨hflowing, hgot, hentry⟩ :=
      Flowing.deliver hids h hentry (holder (token.getD marker) (by cases token <;> rfl))
    refine ⟨hflowing, fun b hb => ⟨hgot, fun hlt => hentry ?_⟩⟩
    cases token <;> exact Option.some.inj hb ▸ hlt

/-! ## What is read -/

variable [DecidableEq ρ]

theorem mem_read {stored : List (ι × Option E)} {after : Option ι} {e : Entry ι E} :
    e ∈ read stored after ↔ e ∈ events stored ∧ ∀ a ∈ after, a < e.id := by
  rw [read, List.mem_filter]
  refine and_congr_right fun _ => ?_
  cases after with
  | none => exact ⟨fun _ a ha => absurd ha (Option.not_mem_none _), fun _ => rfl⟩
  | some a => exact ⟨fun h b hb => Option.some.inj hb ▸ of_decide_eq_true h,
      fun h => decide_eq_true (h a rfl)⟩

theorem read_or_le {stored : List (ι × Option E)} (after : Option ι) {e : Entry ι E}
    (he : e ∈ events stored) : e ∈ read stored after ∨ ∃ a ∈ after, e.id ≤ a := by
  cases after with
  | none => exact .inl (mem_read.mpr ⟨he, fun _ h => absurd h (Option.not_mem_none _)⟩)
  | some a =>
    rcases lt_or_ge a e.id with hlt | hle
    · exact .inl (mem_read.mpr ⟨he, fun _ h => Option.some.inj h ▸ hlt⟩)
    · exact .inr ⟨a, rfl, hle⟩

theorem read_sorted {stored : List (ι × Option E)} (h : (ids stored).Pairwise (· < ·))
    (after : Option ι) : ((read stored after).map (·.id)).Pairwise (· < ·) :=
  h.sublist (((List.filter_sublist).map _).trans (events_ids stored))

theorem read_complete {stored : List (ι × Option E)} (h : (ids stored).Pairwise (· < ·))
    (after : Option ι) {owed : Entry ι E → Prop} {given : List (Entry ι E)}
    (howed : ∀ e, owed e → e ∈ given ∨ e ∈ read stored after) :
    Complete owed given (read stored after) :=
  .of_sorted (read_sorted h after) fun e he _ _ _ => howed e he

/-! ## An opening -/

theorem fed_marking {events : List (Entry ι E)} {reader : Reader ι E} (hfed : Fed events reader)
    (hstage : reader.stage = .entered) {id : ι} (hlater : ∀ e ∈ events, e.id < id) :
    let marking := { reader with stage := .marking id }
    Fed events marking ∧ ∀ b ∈ marking.base, ∀ e, Owed events b e → e ∈ marking.got := by
  have hnone : ∀ e, ¬ Owed events id e := fun e he => lt_asymm he.2 (hlater e he.1)
  obtain ⟨generation, token, stage, stream⟩ := reader
  obtain rfl : stage = .entered := hstage
  cases token with
  | none =>
    refine ⟨⟨hfed, fun _ _ _ e he _ => absurd he (hnone e)⟩, fun b hb e he => ?_⟩
    exact absurd (Option.some.inj hb ▸ he) (hnone e)
  | some token => exact ⟨hfed, fun b hb => absurd hb (Option.not_mem_none _)⟩

theorem fed_replayed {stored : List (ι × Option E)} (h : (ids stored).Pairwise (· < ·))
    {reader : Reader ι E} (hfed : Fed (events stored) reader) {m : ι}
    (hstage : reader.stage = .replaying m) :
    let replayed := { reader with stage := .replayed m (read stored reader.token) }
    Fed (events stored) replayed ∧
      ∀ b ∈ replayed.base, ∀ e, Owed (events stored) b e → e ∈ replayed.got := by
  obtain ⟨generation, token, stage, stream⟩ := reader
  obtain rfl : stage = .replaying m := hstage
  cases token with
  | none => exact hfed.elim
  | some token =>
    have hread : ∀ e, Owed (events stored) token e → e ∈ read stored (some token) :=
      fun e he => mem_read.mpr ⟨he.1, fun a ha => Option.some.inj ha ▸ he.2⟩
    refine ⟨⟨⟨hfed, fun e he => (mem_read.mp he).1⟩, ?_, fun _ _ _ e he _ => .inl (hread e he)⟩,
      fun b hb e he => List.mem_append_left _ ?_⟩
    · exact read_complete h _ fun e he => .inr (hread e he)
    · exact hread e (Option.some.inj hb ▸ he)

theorem fed_replaying {events : List (Entry ι E)} {reader : Reader ι E} (hfed : Fed events reader)
    {m token : ι} (hstage : reader.stage = .marking m) (htoken : reader.token = some token) (id : ι) :
    let replaying := { reader with stage := .replaying id }
    Fed events replaying ∧ ∀ b ∈ replaying.base, b ∈ reader.base ∧
      ∀ e ∈ reader.got, b < e.id → e ∈ replaying.got := by
  obtain ⟨generation, token', stage, stream⟩ := reader
  obtain rfl : stage = .marking m := hstage
  obtain rfl : token' = some token := htoken
  exact ⟨hfed, fun b hb => absurd hb (Option.not_mem_none _)⟩

theorem fed_marked {events : List (Entry ι E)} (hids : (events.map (·.id)).Nodup)
    {reader : Reader ι E} (hfed : Fed events reader) {m : ι} (hstage : reader.stage = .marking m)
    (htoken : reader.token = none) :
    Fed events (reader.opened m m []) ∧ ∀ b ∈ (reader.opened m m []).base, b ∈ reader.base ∧
      ∀ e ∈ reader.got, b < e.id → e ∈ (reader.opened m m []).got := by
  obtain ⟨generation, token, stage, stream⟩ := reader
  obtain rfl : stage = .marking m := hstage
  obtain rfl : token = none := htoken
  have hnone := complete_nil (Owed events m) ([] : List (Entry ι E))
  obtain ⟨hflowing, hgiven⟩ := flowing_opened hids m hfed.1 (List.nil_subset _) hnone hfed.2
  refine ⟨hflowing, fun b hb => ⟨hb, fun e he hlt => ?_⟩⟩
  obtain rfl := Option.some.inj hb
  rw [Reader.got, Stream.got]
  simp only [Reader.opened, hflowing.held]
  exact hgiven e (List.mem_append_right _ he) hlt

theorem fed_ready {events : List (Entry ι E)} (hids : (events.map (·.id)).Nodup)
    {reader : Reader ι E} (hfed : Fed events reader) {m token : ι} {entries : List (Entry ι E)}
    (hstage : reader.stage = .replayed m entries) (htoken : reader.token = some token) :
    Fed events (reader.opened token m entries) ∧
      ∀ b ∈ (reader.opened token m entries).base, b ∈ reader.base ∧
        ∀ e ∈ reader.got, b < e.id → e ∈ (reader.opened token m entries).got := by
  obtain ⟨generation, token', stage, stream⟩ := reader
  obtain rfl : stage = .replayed m entries := hstage
  obtain rfl : token' = some token := htoken
  obtain ⟨⟨hholding, hsubset⟩, hreplay, hheld⟩ := hfed
  obtain ⟨hflowing, hgiven⟩ := flowing_opened hids m hholding hsubset hreplay hheld
  refine ⟨hflowing, fun b hb => ⟨hb, fun e he hlt => ?_⟩⟩
  obtain rfl := Option.some.inj hb
  rw [Reader.got, Stream.got]
  simp only [Reader.opened, hflowing.held]
  exact hgiven e he hlt

end
end Toa.Realtime
