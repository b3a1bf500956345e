import Toa.Realtime.Recovery

/-! The tokens a reader is sent: each names the position its reader goes on from when it opens
another stream with it. -/

set_option linter.unusedSectionVars false

namespace Toa.Realtime
open Run Toa.Realtime.Stream

variable {ρ ι E : Type*} [LinearOrder ι] [DecidableEq ρ]

/-- Tokens never go back, and what is read from one is what was not given before it. -/
structure Resumes (events : List (Entry ι E)) (base : ι) (s : Stream ι E) : Prop where
  sorted : s.tokens.Pairwise (· ≤ ·)
  position : ∀ pre t, pre ++ [.token t] <+: s.sent → ∀ e, Owed events base e →
    (e ∈ pre.filterMap event? ↔ e.id ≤ t)

theorem sent_before_token {s : Stream ι E} {t : ι} (h : t ∈ s.tokens) :
    ∃ pre, pre ++ [.token t] <+: s.sent := by
  obtain ⟨message, hmem, hmessage⟩ := List.mem_filterMap.mp h
  obtain ⟨pre, post, heq⟩ := List.append_of_mem hmem
  cases message with
  | event entry => exact nomatch hmessage
  | token id =>
    obtain rfl := Option.some.inj hmessage
    exact ⟨pre, post, by rw [heq, List.append_assoc, List.singleton_append]⟩

theorem given_before_token {s : Stream ι E} {pre : List (Message ι E)} {t : ι}
    (h : pre ++ [.token t] <+: s.sent) : pre.filterMap event? ⊆ s.given :=
  ((List.prefix_append pre _).trans h).filterMap event? |>.subset

theorem tokens_append_event (cursor : Option ι) (held : Option (List (Entry ι E)))
    (sent : List (Message ι E)) (entry : Entry ι E) :
    tokens ⟨cursor, held, sent ++ [.event entry, .token entry.id]⟩ =
      tokens ⟨cursor, held, sent⟩ ++ [entry.id] := by
  simp only [tokens, List.filterMap_append]
  rfl

theorem tokens_write {s : Stream ι E} {entry : Entry ι E} {t : ι}
    (h : t ∈ (s.write entry).tokens) : t ∈ s.tokens ∨ t = entry.id := by
  rcases s.write_cases entry with ⟨_, _, _, heq⟩ | ⟨_, heq⟩
  · exact .inl (heq ▸ h)
  · rw [heq, tokens_append_event] at h
    exact (List.mem_append.mp h).imp_right List.mem_singleton.mp

theorem resumes_write {events : List (Entry ι E)} {base : ι} {s : Stream ι E}
    (h : Resumes events base s) (hs : Flowing events base s) {entry : Entry ι E}
    (hentry : entry ∈ events) (hwrite : Flowing events base (s.write entry)) :
    Resumes events base (s.write entry) := by
  rcases s.write_cases entry with ⟨_, _, _, heq⟩ | ⟨hpast, heq⟩
  · rw [heq]
    exact h
  obtain ⟨c, hc, hbase, -⟩ := hs.cursor
  have hafter : base < entry.id := lt_of_le_of_lt hbase (hpast c hc)
  have hfresh : entry ∉ s.given := fun hgiven => by
    obtain ⟨c', hc', hle⟩ := hs.ordered.cursor entry hgiven
    exact absurd hle (not_le.mpr (hpast c' hc'))
  refine ⟨?_, fun pre t hpre e he => ?_⟩
  · rw [heq, tokens_append_event]
    refine List.pairwise_append.mpr ⟨h.sorted, List.pairwise_singleton _ _, fun t ht b hb => ?_⟩
    obtain rfl := List.mem_singleton.mp hb
    obtain ⟨pre, hpre⟩ := sent_before_token ht
    -- a token past the event would have had it given before
    refine not_lt.mp fun hlt => hfresh (given_before_token hpre ?_)
    exact (h.position pre t hpre entry ⟨hentry, hafter⟩).mpr (le_of_lt hlt)
  · have hsent : (s.write entry).sent = s.sent ++ [.event entry] ++ [.token entry.id] := by
      rw [heq, List.append_assoc]
      rfl
    rw [hsent] at hpre
    rcases List.prefix_concat_iff.mp hpre with hlast | hpre
    · obtain ⟨rfl, ht⟩ := List.append_inj' hlast rfl
      obtain rfl : t = entry.id := by injection List.head_eq_of_cons_eq ht
      have hgiven : (s.sent ++ [Message.event entry]).filterMap event? = (s.write entry).given := by
        rw [heq, given_append_event, List.filterMap_append]
        rfl
      have hcursor : entry.id ∈ (s.write entry).cursor := heq ▸ rfl
      rw [hgiven]
      refine ⟨fun hmem => ?_, hwrite.served e he.1 he.2 entry.id hcursor⟩
      obtain ⟨c, hc, hle⟩ := hwrite.ordered.cursor e hmem
      exact Option.some.inj (hcursor.symm.trans hc) ▸ hle
    · rcases List.prefix_concat_iff.mp hpre with hevent | hpre
      · exact nomatch List.head_eq_of_cons_eq (List.append_inj' hevent rfl).2
      · exact h.position pre t hpre e he

theorem resumes_foldl {events : List (Entry ι E)} (hids : (events.map (·.id)).Nodup) {base : ι}
    {entries : List (Entry ι E)} {s : Stream ι E} (h : Resumes events base s)
    (hs : Flowing events base s) (hentries : entries ⊆ events)
    (hcomplete : Complete (Owed events base) s.given entries) :
    Resumes events base (entries.foldl write s) := by
  induction entries generalizing s with
  | nil => exact h
  | cons entry entries ih =>
    have hentry : entry ∈ events := hentries (List.mem_cons_self ..)
    obtain ⟨hwrite, hgiven⟩ := flowing_write hids hs hentry fun e he hbase hlt =>
      hcomplete.head ⟨he, hbase⟩ hlt
    exact ih (resumes_write h hs hentry hwrite) hwrite
      (fun e he => hentries (List.mem_cons_of_mem _ he))
      (hcomplete.tail (fun e he _ => s.given_subset_write entry he) fun howed => hgiven howed.2)

theorem foldl_write_past {c : ι} {entries : List (Entry ι E)} (h : ∀ e ∈ entries, e.id ≤ c)
    {s : Stream ι E} (hc : s.cursor = some c) : entries.foldl write s = s := by
  induction entries generalizing s with
  | nil => rfl
  | cons entry entries ih =>
    have hskip : s.write entry = s := by
      refine if_pos ?_
      rw [hc]
      exact decide_eq_true (h entry (List.mem_cons_self ..))
    rw [List.foldl_cons, hskip]
    exact ih (fun e he => h e (List.mem_cons_of_mem _ he)) hc

theorem resumes_opened {events : List (Entry ι E)} (hids : (events.map (·.id)).Nodup)
    {base marker : ι} {s : Stream ι E} (h : Holding events s) {entries : List (Entry ι E)}
    (hentries : entries ⊆ events) (hreplay : Complete (Owed events base) [] entries)
    (hheld : Complete (Owed events base) entries s.got)
    (hempty : entries = [] →
      (∀ e ∈ s.got, e.id ≤ base) ∧ ∀ e, Owed events base e → marker < e.id) :
    Resumes events base (s.opened base marker entries) := by
  have hstart : Resumes events base ⟨some base, none, []⟩ := by
    refine ⟨List.Pairwise.nil, fun pre t hpre => ?_⟩
    exact absurd (List.prefix_nil.mp hpre) (List.append_ne_nil_of_right_ne_nil _ (by simp))
  cases entries with
  | nil =>
    obtain ⟨hold, hlater⟩ := hempty rfl
    have hopened : s.opened base marker [] = ⟨some base, none, [.token marker]⟩ := by
      have hpast : s.got.foldl write ⟨some base, none, []⟩ = ⟨some base, none, []⟩ :=
        foldl_write_past (c := base) hold rfl
      rw [opened]
      simp only [ready_eq h, List.foldl_nil, hpast]
      rfl
    rw [hopened]
    refine ⟨List.pairwise_singleton _ _, fun pre t hpre e he => ?_⟩
    have hlast : pre ++ [Message.token t] <+: ([] : List (Message ι E)) ++ [.token marker] := hpre
    rcases List.prefix_concat_iff.mp hlast with heq | hnil
    · obtain ⟨rfl, ht⟩ := List.append_inj' heq rfl
      obtain rfl : t = marker := by injection List.head_eq_of_cons_eq ht
      exact ⟨fun hmem => absurd hmem List.not_mem_nil, fun hle => absurd (hlater e he) (not_lt.mpr hle)⟩
    · exact absurd (List.prefix_nil.mp hnil) (List.append_ne_nil_of_right_ne_nil _ (by simp))
  | cons entry entries =>
    obtain ⟨hreplayed, -, hentry⟩ :=
      flowing_foldl hids (flowing_start events base) hentries hreplay
    have hresumes := resumes_foldl hids hstart (flowing_start events base) hentries hreplay
    have hopened : s.opened base marker (entry :: entries) =
        s.got.foldl write ((entry :: entries).foldl write ⟨some base, none, []⟩) := by
      rw [opened]
      simp only [ready_eq h, List.isEmpty_cons, Bool.false_eq_true, if_false]
    rw [hopened]
    exact resumes_foldl hids hresumes hreplayed h.got_subset
      (hheld.mono fun e he howed => hentry e he howed.2)

theorem tokens_foldl {entries : List (Entry ι E)} {s : Stream ι E} {t : ι}
    (h : t ∈ (entries.foldl write s).tokens) : t ∈ s.tokens ∨ ∃ e ∈ entries, t = e.id := by
  induction entries generalizing s with
  | nil => exact .inl h
  | cons entry entries ih =>
    rcases ih h with hwrite | ⟨e, he, ht⟩
    · refine (tokens_write hwrite).imp_right fun ht => ⟨entry, List.mem_cons_self .., ht⟩
    · exact .inr ⟨e, List.mem_cons_of_mem _ he, ht⟩

theorem tokens_opened {events : List (Entry ι E)} {base marker : ι} {s : Stream ι E}
    (h : Holding events s) {entries : List (Entry ι E)} {t : ι}
    (ht : t ∈ (s.opened base marker entries).tokens) :
    t = marker ∨ ∃ e ∈ entries ++ s.got, t = e.id := by
  have hready {t : ι} (ht : t ∈ tokens (s.got.foldl write (entries.foldl write
      ⟨some base, none, []⟩))) : ∃ e ∈ entries ++ s.got, t = e.id := by
    rcases tokens_foldl ht with ht | ⟨e, he, rfl⟩
    · obtain ⟨e, he, rfl⟩ := (tokens_foldl ht).resolve_left List.not_mem_nil
      exact ⟨e, List.mem_append_left _ he, rfl⟩
    · exact ⟨e, List.mem_append_right _ he, rfl⟩
  rw [opened] at ht
  simp only [ready_eq h] at ht
  split_ifs at ht
  · rw [token, tokens, List.filterMap_append] at ht
    rcases List.mem_append.mp ht with ht | ht
    · exact .inr (hready ht)
    · exact .inl (List.mem_singleton.mp ht)
  · exact .inr (hready ht)

/-! ## A reader while the subscriber is connected -/

/-- Nothing it lacks was lost, and every token it was sent names a position of the stream. -/
structure Told (stored : List (ι × Option E)) (lost : List ι) (reader : Reader ι E) : Prop where
  lost : ∀ b ∈ reader.base, ∀ e, Owed (events stored) b e → e.id ∈ lost → e ∈ reader.got
  marker : ∀ m ∈ reader.stage.marker, m ∈ ids stored
  replay : ∀ m entries, reader.stage = .replayed m entries → ∀ t ∈ reader.token, ∀ e,
    Owed (events stored) t e → e.id ≤ m → e ∈ entries
  tokens : ∀ m, reader.stage = .ready m → ∀ t ∈ reader.stream.tokens, t ∈ ids stored
  resumes : ∀ m, reader.stage = .ready m →
    Resumes (events stored) (reader.token.getD m) reader.stream

theorem fed_flowing {events : List (Entry ι E)} {reader : Reader ι E} (h : Fed events reader) {m : ι}
    (hstage : reader.stage = .ready m) :
    Flowing events (reader.token.getD m) reader.stream ∧ reader.base = some (reader.token.getD m) := by
  obtain ⟨generation, token, stage, stream⟩ := reader
  obtain rfl : stage = .ready m := hstage
  cases token <;> exact ⟨h, rfl⟩

theorem told_closed (stored : List (ι × Option E)) (lost : List ι) {reader : Reader ι E}
    (h : reader.stage.marker = none) : Told stored lost reader := by
  have hmarker : ∀ m, m ∉ reader.stage.marker := fun m hm => by cases h.symm.trans hm
  refine ⟨fun b hb => ?_, fun m hm => absurd hm (hmarker m), fun m entries hstage => ?_,
    fun m hstage => ?_, fun m hstage => ?_⟩
  · obtain ⟨m, hm, -⟩ := base_marker hb
    exact absurd hm (hmarker m)
  all_goals exact absurd (by rw [hstage]; rfl) (hmarker m)

theorem told_append {stored : List (ι × Option E)} {lost : List ι} {reader : Reader ι E}
    (h : Told stored lost reader) (hfed : Fed (events stored) reader) {record : ι × Option E}
    (hlater : ∀ a ∈ ids stored, a < record.1) (hlost : lost ⊆ ids stored) :
    Told (stored ++ [record]) lost reader := by
  have hids : ids stored ⊆ ids (stored ++ [record]) := by
    rw [ids, ids, List.map_append]
    exact List.subset_append_left _ _
  have hold {b a : ι} {e : Entry ι E} (he : Owed (events (stored ++ [record])) b e)
      (ha : a ∈ ids stored) (hle : e.id ≤ a) : Owed (events stored) b e := by
    refine ⟨(mem_events_append he.1).resolve_right fun hevent => ?_, he.2⟩
    exact absurd (hlater a ha) (not_lt.mpr (event_id hevent ▸ hle))
  refine ⟨fun b hb e he hmem => ?_, fun m hm => hids (h.marker m hm),
    fun m entries hstage t ht e he hle => ?_, fun m hstage t ht => hids (h.tokens m hstage t ht),
    fun m hstage => ⟨(h.resumes m hstage).sorted, fun pre t hpre e he => ?_⟩⟩
  · exact h.lost b hb e (hold he (hlost hmem) (le_refl _)) hmem
  · have hm : m ∈ ids stored := h.marker m (by rw [hstage]; rfl)
    exact h.replay m entries hstage t ht e (hold he hm hle) hle
  · have hposition := (h.resumes m hstage).position pre t hpre e
    obtain ⟨hflowing, -⟩ := fed_flowing hfed hstage
    have ht : t ∈ ids stored := by
      refine h.tokens m hstage t (List.mem_filterMap.mpr ⟨.token t, hpre.subset ?_, rfl⟩)
      exact List.mem_append_right _ (List.mem_singleton_self _)
    refine ⟨fun hmem => (hposition ?_).mp hmem, fun hle => (hposition (hold he ht hle)).mpr hle⟩
    exact ⟨(hflowing.given e (given_before_token hpre hmem)).1, he.2⟩

theorem tokens_deliver {s : Stream ι E} {entry : Entry ι E} {t : ι}
    (h : t ∈ (s.deliver entry).tokens) : t ∈ s.tokens ∨ t = entry.id := by
  unfold deliver at h
  cases hheld : s.held with
  | none =>
    rw [hheld] at h
    exact tokens_write h
  | some held =>
    rw [hheld] at h
    exact .inl h

theorem told_deliver {stored : List (ι × Option E)} {lost : List ι} {reader : Reader ι E}
    (hids : ((events stored).map (·.id)).Nodup) (h : Told stored lost reader)
    (hfed : Fed (events stored) reader) {entry : Entry ι E} (hentry : entry ∈ events stored)
    (holder : ∀ b ∈ reader.base, ∀ e, Owed (events stored) b e → e.id < entry.id →
      e ∈ reader.got) :
    Told stored lost { reader with stream := reader.stream.deliver entry } := by
  obtain ⟨hdelivered, hgot⟩ := fed_deliver hids hfed hentry holder
  refine ⟨fun b hb e he hmem => (hgot b hb).1 (h.lost b hb e he hmem), h.marker, h.replay,
    fun m hstage t ht => ?_, fun m hstage => ?_⟩
  · rcases tokens_deliver ht with ht | rfl
    · exact h.tokens m hstage t ht
    · exact id_mem hentry
  · have hflowing := (fed_flowing hfed hstage).1
    have hwrite := (fed_flowing hdelivered hstage).1
    have hsame : reader.stream.deliver entry = reader.stream.write entry := by
      rw [deliver, hflowing.held]
    simp only [hsame] at hwrite ⊢
    exact resumes_write (h.resumes m hstage) hflowing hentry hwrite

/-! ## An opening -/

theorem told_marking {stored : List (ι × Option E)} {lost : List ι} {reader : Reader ι E} {id : ι}
    (hid : id ∈ ids stored) (hgot : ∀ b ∈ Reader.base { reader with stage := .marking id }, ∀ e,
      Owed (events stored) b e → e ∈ Reader.got { reader with stage := .marking id }) :
    Told stored lost { reader with stage := .marking id } :=
  ⟨fun b hb e he _ => hgot b hb e he, fun _ hm => Option.some.inj hm ▸ hid, nofun, nofun, nofun⟩

theorem told_replaying {stored : List (ι × Option E)} {lost : List ι} {reader : Reader ι E} {id : ι}
    (hid : id ∈ ids stored) : Told stored lost { reader with stage := .replaying id } := by
  refine ⟨fun b hb => ?_, fun _ hm => Option.some.inj hm ▸ hid, nofun, nofun, nofun⟩
  obtain ⟨generation, token, stage, stream⟩ := reader
  cases token <;> exact absurd hb (Option.not_mem_none _)

theorem told_replayed {stored : List (ι × Option E)} {lost : List ι} {reader : Reader ι E} {m : ι}
    (hm : m ∈ ids stored) (hgot : ∀ b ∈ Reader.base { reader with
        stage := .replayed m (read stored reader.token) }, ∀ e, Owed (events stored) b e →
      e ∈ Reader.got { reader with stage := .replayed m (read stored reader.token) }) :
    Told stored lost { reader with stage := .replayed m (read stored reader.token) } := by
  refine ⟨fun b hb e he _ => hgot b hb e he, fun _ hm' => Option.some.inj hm' ▸ hm,
    fun m' entries hstage t ht e he _ => ?_, nofun, nofun⟩
  obtain ⟨-, rfl⟩ := Stage.replayed.inj hstage
  refine mem_read.mpr ⟨he.1, fun a ha => ?_⟩
  exact Option.some.inj (ht.symm.trans ha) ▸ he.2

theorem told_opened {stored : List (ι × Option E)} {lost : List ι} {reader : Reader ι E}
    (hids : ((events stored).map (·.id)).Nodup) {base m : ι} {entries : List (Entry ι E)}
    (h : Told stored lost reader) (hm : m ∈ ids stored)
    (hholding : Holding (events stored) reader.stream) (hentries : entries ⊆ events stored)
    (hreplay : Complete (Owed (events stored) base) [] entries)
    (hheld : Complete (Owed (events stored) base) entries reader.stream.got)
    (hbase : reader.token.getD m = base)
    (hgot : ∀ b ∈ (reader.opened base m entries).base, b ∈ reader.base ∧
      ∀ e ∈ reader.got, b < e.id → e ∈ (reader.opened base m entries).got)
    (hempty : entries = [] → (∀ e ∈ reader.stream.got, e.id ≤ base) ∧
      ∀ e, Owed (events stored) base e → m < e.id) :
    Told stored lost (reader.opened base m entries) := by
  refine ⟨fun b hb e he hmem => ?_, fun _ hm' => Option.some.inj hm' ▸ hm, nofun,
    fun m' _ t ht => ?_, fun m' hstage => ?_⟩
  · exact (hgot b hb).2 e (h.lost b (hgot b hb).1 e he hmem) he.2
  · rcases tokens_opened hholding ht with rfl | ⟨e, he, rfl⟩
    · exact hm
    · rcases List.mem_append.mp he with he | he
      · exact id_mem (hentries he)
      · exact id_mem (hholding.got_subset he)
  · obtain rfl := Stage.ready.inj hstage
    have hresumes := resumes_opened hids hholding hentries hreplay hheld hempty
    exact hbase.symm ▸ hresumes

/-! ## A key whose subscriber is connected -/

structure Calm (s : State ρ ι E) : Prop where
  inv : Inv s
  recoveries : s.recoveries = []
  carried : ∀ key ∈ s.key, key.subscribed = true → s.carried = true
  subscribed : ∀ r, ∀ m ∈ (s.readers r).stage.marker, ∀ key ∈ s.key, key.subscribed = true
  lost : s.lost ⊆ ids s.stored
  told : ∀ r, Told s.stored s.lost (s.readers r)

theorem Calm.init : Calm (State.init : State ρ ι E) where
  inv := Inv.init
  recoveries := rfl
  carried := fun _ h => nomatch h
  subscribed := fun _ _ h => absurd h (Option.not_mem_none _)
  lost := List.nil_subset _
  told := fun _ => told_closed _ _ rfl

def Connected : Act ρ ι E → Prop
  | .lose | .recover => False
  | _ => True

/-- An opening that ends with an empty replay holds nothing after where it opened from. -/
def Unheld (s : State ρ ι E) : Act ρ ι E → Prop
  | .marked => ∀ p ∈ s.replies.head?, (s.readers p.1).stage = .marking p.2 →
      (s.readers p.1).token = none → ∀ held ∈ (s.readers p.1).stream.held, ∀ e ∈ held, e.id ≤ p.2
  | .ready r => ∀ marker, (s.readers r).stage = .replayed marker [] →
      ∀ token ∈ (s.readers r).token, ∀ held ∈ (s.readers r).stream.held, ∀ e ∈ held, e.id ≤ token
  | _ => True

theorem Calm.unpassing {s : State ρ ι E} (h : Calm s) (a : Act ρ ι E) : Unpassing s a := by
  cases a with
  | receive => exact fun entry _ r b hb e he hmem _ => (h.told r).lost b hb e he hmem
  | _ => exact trivial

theorem forall_place {s : State ρ ι E} {P : Reader ι E → Prop} {r : ρ} {reader : Reader ι E}
    (h : ∀ r, P (s.readers r)) (hreader : P reader) (r' : ρ) : P ((s.place r reader).readers r') := by
  by_cases hr : r' = r
  · rw [hr, place_self]
    exact hreader
  · rw [place_of_ne s hr]
    exact h r'

theorem Stream.Holding.got_le {events : List (Entry ι E)} {s : Stream ι E} (h : Holding events s) {a : ι}
    (hle : ∀ held ∈ s.held, ∀ e ∈ held, e.id ≤ a) : ∀ e ∈ s.got, e.id ≤ a := by
  obtain ⟨held, heq, -⟩ := h.held
  rw [got, heq]
  exact hle held heq

theorem Calm.no_marker {s : State ρ ι E} (h : Calm s) (hcarried : ¬ s.carried = true) (r : ρ) :
    (s.readers r).stage.marker = none := by
  cases hmarker : (s.readers r).stage.marker with
  | none => rfl
  | some m =>
    obtain ⟨key, hkey, -⟩ := h.inv.opened r (marker_open hmarker)
    exact absurd (h.carried key hkey (h.subscribed r m hmarker key hkey)) hcarried

theorem calm_write {s t : State ρ ι E} (h : Calm s) {id : ι} {data : E}
    (ht : step s (.write id data) = some t) : Calm t := by
  have hinv := inv_step h.inv (h.unpassing _) ht
  simp only [step, Option.ite_none_right_eq_some, Option.some.injEq] at ht
  obtain ⟨hall, rfl⟩ := ht
  have hids : ids (s.stored ++ [(id, some data)]) = ids s.stored ++ [id] := by
    rw [ids, List.map_append]
    rfl
  split_ifs with hcarried
  · rw [if_pos hcarried] at hinv
    refine { h with
      inv := hinv
      lost := hids ▸ fun a ha => List.mem_append_left _ (h.lost ha)
      told := fun r => told_append (h.told r) (h.inv.fed r) (all_lt hall) h.lost }
  · rw [if_neg hcarried] at hinv
    refine { h with
      inv := hinv
      lost := hids ▸ fun a ha => ?_
      -- what is lost is lost before the key has a reader
      told := fun r => told_closed _ _ (h.no_marker hcarried r) }
    exact (List.mem_append.mp ha).elim (fun ha => List.mem_append_left _ (h.lost ha))
      fun ha => List.mem_append_right _ ha

theorem calm_receive {s : State ρ ι E} (h : Calm s) {entry : Entry ι E}
    {channel : List (Entry ι E)} (hchannel : s.channel = entry :: channel)
    (hinv : Inv ({ s with channel := channel }.broadcast entry)) :
    Calm ({ s with channel := channel }.broadcast entry) := by
  have hentry : entry ∈ events s.stored := h.inv.published (hchannel ▸ List.mem_cons_self ..)
  have holder (r : ρ) : ∀ b ∈ (s.readers r).base, ∀ e, Owed (events s.stored) b e →
      e.id < entry.id → e ∈ (s.readers r).got :=
    fun b hb e he hlt => (h.inv.lacked_older hchannel hb he hlt).elim id
      fun hlost => (h.told r).lost b hb e he hlost
  obtain hkey | ⟨key, hkey⟩ := Option.eq_none_or_eq_some s.key
  · have heq : { s with channel := channel }.broadcast entry = { s with channel := channel } := by
      simp only [State.broadcast, hkey]
    rw [heq] at hinv ⊢
    exact { h with inv := hinv }
  · have heq : { s with channel := channel }.broadcast entry = { s with
        channel := channel
        key := some { key with last := some entry.id }
        readers := fun r => if r ∈ key.streams then
          { s.readers r with stream := (s.readers r).stream.deliver entry } else s.readers r } := by
      simp only [State.broadcast, hkey]
    rw [heq] at hinv ⊢
    refine { h with
      inv := hinv
      carried := fun _ hk => Option.some.inj hk ▸ h.carried key hkey
      subscribed := fun r m hm _ hk => ?_
      told := fun r => ?_ }
    · refine Option.some.inj hk ▸ h.subscribed r m ?_ key hkey
      simp only at hm
      split_ifs at hm <;> exact hm
    · simp only
      split_ifs
      · exact told_deliver h.inv.nodup (h.told r) (h.inv.fed r) hentry (holder r)
      · exact h.told r

/-! ## Its readers -/

theorem calm_enter {s : State ρ ι E} (h : Calm s) {r : ρ} {token : Option ι}
    (hinv : Inv (enter s r token)) : Calm (enter s r token) := by
  have htold (generation : ℕ) : Told s.stored s.lost ⟨generation, token, .entered, .init⟩ :=
    told_closed _ _ rfl
  rw [enter] at hinv ⊢
  cases hkey : s.key with
  | none =>
    have hclosed (r' : ρ) : ¬ (s.readers r').stage.open := fun hr' => by
      obtain ⟨key, hsome, -⟩ := h.inv.opened r' hr'
      cases hkey.symm.trans hsome
    simp only [hkey] at hinv ⊢
    refine { h with
      inv := hinv
      carried := fun _ hk hsubscribed => ?_
      subscribed := ?_
      told := forall_place h.told (htold _) }
    · obtain rfl := Option.some.inj hk
      cases hsubscribed
    · refine forall_place (P := fun reader => ∀ m ∈ reader.stage.marker, _) (fun r' m hm => ?_)
        fun m hm => absurd hm (Option.not_mem_none _)
      exact absurd (marker_open hm) (hclosed r')
  | some key =>
    simp only [hkey] at hinv ⊢
    refine { h with
      inv := hinv
      carried := fun _ hk => Option.some.inj hk ▸ h.carried key hkey
      subscribed := ?_
      told := forall_place h.told (htold _) }
    refine forall_place (P := fun reader => ∀ m ∈ reader.stage.marker, _) (fun r' m hm _ hk => ?_)
      fun m hm => absurd hm (Option.not_mem_none _)
    exact Option.some.inj hk ▸ h.subscribed r' m hm key hkey

theorem calm_leave {s : State ρ ι E} (h : Calm s) {key : Key ρ ι} (hkey : s.key = some key) {r : ρ}
    (hinv : Inv (leave s key r)) : Calm (leave s key r) := by
  have hleft : Told s.stored s.lost { s.readers r with stage := .left } := told_closed _ _ rfl
  have htold := forall_place h.told hleft (r := r)
  rw [leave] at hinv ⊢
  simp only at hinv ⊢
  split at hinv
  · exact { h with
      inv := hinv
      carried := fun _ hk => by cases hk
      subscribed := fun _ _ _ _ hk => by cases hk
      told := htold }
  · refine { h with
      inv := hinv
      carried := fun _ hk => Option.some.inj hk ▸ h.carried key hkey
      subscribed := ?_
      told := htold }
    refine forall_place (P := fun reader => ∀ m ∈ reader.stage.marker, _) (fun r' m hm _ hk => ?_)
      fun m hm => absurd hm (Option.not_mem_none _)
    exact Option.some.inj hk ▸ h.subscribed r' m hm key hkey

theorem calm_place {s : State ρ ι E} (h : Calm s) {r : ρ} {reader : Reader ι E}
    (hinv : Inv (s.place r reader)) {m : ι} (hmarker : m ∈ (s.readers r).stage.marker)
    (htold : Told s.stored s.lost reader) : Calm (s.place r reader) := by
  refine { h with
    inv := hinv
    subscribed := ?_
    told := forall_place h.told htold }
  exact forall_place (P := fun reader => ∀ m ∈ reader.stage.marker, _) h.subscribed
    fun _ _ => h.subscribed r m hmarker

theorem calm_mark {s t : State ρ ι E} (h : Calm s) {r : ρ} {id : ι}
    (ht : step s (.mark r id) = some t) : Calm t := by
  have hinv := inv_step h.inv (h.unpassing _) ht
  simp only [step] at ht
  split at ht
  · rename_i key hstage hkey
    split_ifs at ht with hguard
    obtain rfl := Option.some.inj ht
    have hlater := all_lt hguard.2
    have hid : id ∈ ids (s.stored ++ [(id, none)]) :=
      List.mem_map_of_mem (List.mem_append_right s.stored (List.mem_singleton_self (id, none)))
    have hevents : ∀ e ∈ events (s.stored ++ [(id, none)]), e.id < id := fun e he =>
      hlater e.id (id_mem ((mem_events_append he).resolve_right fun h => by cases h))
    have hfed : Fed (events (s.stored ++ [(id, none)])) (s.readers r) := by
      rw [events_append]
      exact (List.append_nil _).symm ▸ h.inv.fed r
    have hids : ids s.stored ⊆ ids (s.stored ++ [(id, none)]) := by
      rw [ids, ids, List.map_append]
      exact List.subset_append_left _ _
    refine { h with
      inv := hinv
      subscribed := ?_
      lost := fun a ha => hids (h.lost ha)
      told := forall_place (fun r' => told_append (h.told r') (h.inv.fed r') hlater h.lost)
        (told_marking hid (fed_marking hfed hstage hevents).2) }
    refine forall_place (P := fun reader => ∀ m ∈ reader.stage.marker, _) h.subscribed ?_
    intro m _ key' hkey'
    exact Option.some.inj (hkey.symm.trans hkey') ▸ hguard.1
  · cases ht

theorem settle_subscribed {s : State ρ ι E} {generation : ℕ} {m : ι} {key : Key ρ ι}
    (h : key ∈ settle s generation m) : ∃ old ∈ s.key, key.subscribed = old.subscribed := by
  obtain ⟨old, hold, rfl⟩ := Option.map_eq_some_iff.mp h
  refine ⟨old, hold, ?_⟩
  split_ifs <;> rfl

theorem calm_marked {s t : State ρ ι E} (h : Calm s) (hok : Unheld s .marked)
    (ht : step s .marked = some t) : Calm t := by
  have hinv := inv_step h.inv (h.unpassing _) ht
  rcases hreplies : s.replies with _ | ⟨⟨r, id⟩, replies⟩
  · exact nomatch (by simpa only [step, hreplies] using ht : none = some t)
  obtain ⟨hid, hanswer⟩ := h.inv.answers (r, id) (hreplies ▸ List.mem_cons_self ..)
  obtain ⟨hsettle, hlast⟩ := inv_settle h.inv hreplies
  have hcalm : Calm { s with
      replies := replies, key := settle s (s.readers r).generation id } := by
    refine { h with
      inv := inv_pop hsettle hreplies hlast
      carried := fun key hkey hsubscribed => ?_
      subscribed := fun r' m hm key hkey => ?_ }
    · obtain ⟨old, hold, heq⟩ := settle_subscribed hkey
      exact h.carried old hold (heq ▸ hsubscribed)
    · obtain ⟨old, hold, heq⟩ := settle_subscribed hkey
      exact heq ▸ h.subscribed r' m hm old hold
  simp only [step, hreplies] at ht
  split at ht
  · rename_i m hstage htoken
    simp only [hstage] at hanswer
    obtain rfl : m = id := hanswer
    obtain rfl := Option.some.inj ht
    have hfed := h.inv.fed r
    obtain ⟨hholding, hheld⟩ : Holding (events s.stored) (s.readers r).stream ∧
        Complete (Owed (events s.stored) m) [] (s.readers r).stream.got := by
      simpa only [Fed, hstage, htoken] using hfed
    have hunheld := hok (r, m) (by rw [hreplies]; rfl) hstage htoken
    refine calm_place hcalm hinv (m := m) (by simp only [hstage]; rfl) ?_
    exact told_opened h.inv.nodup (h.told r) hid hholding (List.nil_subset _) (complete_nil _ _) hheld
      (by rw [htoken]; rfl) (fed_marked h.inv.nodup hfed hstage htoken).2
      fun _ => ⟨hholding.got_le hunheld, fun e he => he.2⟩
  · rename_i m token hstage htoken
    obtain rfl := Option.some.inj ht
    exact calm_place hcalm hinv (m := m) (by simp only [hstage]; rfl) (told_replaying hid)
  · exact Option.some.inj ht ▸ hcalm

theorem calm_replay {s : State ρ ι E} (h : Calm s) {r : ρ} {m : ι}
    (hstage : (s.readers r).stage = .replaying m) :
    Calm (s.place r { s.readers r with
      stage := .replayed m (read s.stored (s.readers r).token) }) := by
  have hm : m ∈ (s.readers r).stage.marker := by rw [hstage]; rfl
  refine calm_place h (inv_replay h.inv hstage) hm ?_
  exact told_replayed ((h.told r).marker m hm) (fed_replayed h.inv.stored (h.inv.fed r) hstage).2

theorem calm_ready {s : State ρ ι E} (h : Calm s) {r : ρ} {m token : ι} {entries : List (Entry ι E)}
    (hok : Unheld s (.ready r)) (hstage : (s.readers r).stage = .replayed m entries)
    (htoken : (s.readers r).token = some token) :
    Calm (s.place r ((s.readers r).opened token m entries)) := by
  have hm : m ∈ (s.readers r).stage.marker := by rw [hstage]; rfl
  have hfed := h.inv.fed r
  obtain ⟨⟨hholding, hsubset⟩, hreplay, hheld⟩ :
      (Holding (events s.stored) (s.readers r).stream ∧ entries ⊆ events s.stored) ∧
        Complete (Owed (events s.stored) token) [] entries ∧
        Complete (Owed (events s.stored) token) entries (s.readers r).stream.got := by
    simpa only [Fed, hstage, htoken] using hfed
  refine calm_place h (inv_ready h.inv hstage htoken) hm ?_
  refine told_opened h.inv.nodup (h.told r) ((h.told r).marker m hm) hholding hsubset hreplay hheld
    (by rw [htoken]; rfl) (fed_ready h.inv.nodup hfed hstage htoken).2 fun hnil => ?_
  subst hnil
  refine ⟨hholding.got_le (hok m hstage token htoken), fun e he => not_le.mp fun hle => ?_⟩
  exact List.not_mem_nil ((h.told r).replay m [] hstage token htoken e he hle)

theorem calm_step {s t : State ρ ι E} {a : Act ρ ι E} (h : Calm s) (hconnected : Connected a)
    (hok : Unheld s a) (ht : step s a = some t) : Calm t := by
  have hinv := inv_step h.inv (h.unpassing a) ht
  cases a with
  | write id data => exact calm_write h ht
  | receive =>
    rcases hchannel : s.channel with _ | ⟨entry, channel⟩
    · simp only [step, hchannel] at ht
      cases ht
    · simp only [step, hchannel, Option.some.injEq] at ht
      subst ht
      exact calm_receive h hchannel hinv
  | lose => exact hconnected.elim
  | subscribed =>
    obtain ⟨key, hkey, rfl⟩ := Option.map_eq_some_iff.mp ht
    exact { h with
      inv := hinv
      carried := fun _ _ _ => rfl
      subscribed := fun _ _ _ _ hk => Option.some.inj hk ▸ rfl }
  | unsubscribed =>
    simp only [step, Option.ite_none_right_eq_some, Option.some.injEq] at ht
    obtain ⟨hguard, rfl⟩ := ht
    refine { h with inv := hinv, carried := fun key hkey hsubscribed => ?_ }
    have hnone := (Option.all_eq_true _ _).mp hguard key hkey
    exact absurd hsubscribed (Bool.eq_false_iff.mp (of_decide_eq_true hnone))
  | recover => exact hconnected.elim
  | reread i =>
    simp only [step, h.recoveries, List.getElem?_nil] at ht
    cases ht
  | unread i =>
    obtain rfl := Option.some.inj ht
    have hnone : s.recoveries.eraseIdx i = [] := by rw [h.recoveries, List.eraseIdx_nil]
    exact { h with inv := hinv, recoveries := hnone }
  | broadcast i =>
    simp only [step, h.recoveries, List.getElem?_nil] at ht
    cases ht
  | enter r token =>
    simp only [step] at ht
    split at ht
    · obtain rfl := Option.some.inj ht
      exact calm_enter h hinv
    · cases ht
  | mark r id => exact calm_mark h ht
  | marked => exact calm_marked h hok ht
  | replay r =>
    simp only [step] at ht
    split at ht
    · rename_i hstage
      exact Option.some.inj ht ▸ calm_replay h hstage
    · cases ht
  | ready r =>
    simp only [step] at ht
    split at ht
    · rename_i hstage htoken
      exact Option.some.inj ht ▸ calm_ready h hok hstage htoken
    · cases ht
  | leave r =>
    simp only [step] at ht
    split at ht
    · cases ht
    · rename_i hkey
      split_ifs at ht
      obtain rfl := Option.some.inj ht
      exact calm_leave h hkey hinv

/-! ## Over a run -/

/-- A reader that is open may open another stream with any token it was sent. -/
def Resumed (s : State ρ ι E) (r : ρ) : Prop :=
  ∀ marker, (s.readers r).stage = .ready marker →
    Resumes (events s.stored) ((s.readers r).token.getD marker) (s.readers r).stream

/-- No token runs behind or ahead of what was given, while no opening that ends with its marker
holds what came after. -/
theorem tokens_resume {κ : Type*} [DecidableEq κ] {acts : List (κ × Act ρ ι E)}
    {s : κ → State ρ ι E} (hconnected : ∀ a ∈ acts, Connected a.2)
    (hok : Along hub (fun s a => Unheld (s a.1) a.2) (fun _ => .init) acts)
    (hrun : run hub (fun _ => .init) acts = some s) (k : κ) (r : ρ) : Resumed (s k) r := by
  have hall : Along hub (fun _ a => Connected a.2) (fun _ => (State.init : State ρ ι E)) acts :=
    along_of_mem (fun a ha _ => hconnected a ha) _
  have hcalm : ∀ k, Calm (s k) := by
    refine run_invariant (I := fun s => ∀ k, Calm (s k)) (fun s a t hs ha ht k => ?_)
      (fun _ => Calm.init) (hall.and hok) hrun
    obtain ⟨u, hu, rfl⟩ := Option.map_eq_some_iff.mp ht
    by_cases hk : k = a.1
    · subst hk
      rw [Function.update_self]
      exact calm_step (hs a.1) ha.1 ha.2 hu
    · rw [Function.update_of_ne hk]
      exact hs k
  exact fun marker hstage => ((hcalm k).told r).resumes marker hstage

/-! ## An event that is held -/

def opening : List (Unit × Act Unit ℕ Unit) :=
  [.enter () none, .subscribed, .mark () 1].map ((), ·)

/-- The event that was held is given with its token, and the marker is sent after it. -/
theorem marker_goes_back : ∃ s : Unit → State Unit ℕ Unit,
    run hub (fun _ => .init) (opening ++ [.write 2 (), .receive, .marked].map ((), ·)) = some s ∧
      (∀ a ∈ opening ++ [.write 2 (), .receive, .marked].map ((), ·), Connected a.2) ∧
      ¬ Resumed (s ()) () := by
  refine ⟨_, rfl, fun a ha => ?_, fun h => ?_⟩
  · simp only [opening, List.map_cons, List.map_nil, List.cons_append, List.nil_append,
      List.mem_cons, List.not_mem_nil, or_false] at ha
    rcases ha with rfl | rfl | rfl | rfl | rfl | rfl <;> exact trivial
  · have hsorted : List.Pairwise (· ≤ ·) [2, 1] := (h 1 rfl).sorted
    exact absurd hsorted (by decide)

theorem unheld_opening : Along hub (fun s a => Unheld (s a.1) a.2) (fun _ => .init)
    (opening ++ [.marked, .write 2 (), .receive].map ((), ·)) := by
  have hopening : Along hub (fun s a => Unheld (s a.1) a.2) (fun _ => .init) opening := by
    refine along_of_mem (fun a ha s => ?_) _
    simp only [opening, List.map_cons, List.map_nil, List.mem_cons, List.not_mem_nil, or_false] at ha
    rcases ha with rfl | rfl | rfl <;> exact trivial
  refine along_append hopening fun t ht =>
    ⟨?_, fun _ _ => ⟨trivial, fun _ _ => ⟨trivial, fun _ _ => trivial⟩⟩⟩
  have hheld : ((t ()).readers ()).stream.held = some [] := by
    obtain rfl := Option.some.inj ht
    rfl
  intro p _ _ _ held hmem e he
  obtain rfl : [] = held := Option.some.inj (hheld.symm.trans hmem)
  exact absurd he List.not_mem_nil

theorem tokens_resume_opening : ∃ s : Unit → State Unit ℕ Unit,
    run hub (fun _ => .init) (opening ++ [.marked, .write 2 (), .receive].map ((), ·)) = some s ∧
      Resumed (s ()) () := by
  have hconnected : ∀ a ∈ opening ++ [.marked, .write 2 (), .receive].map ((), ·),
      Connected a.2 := fun a ha => by
    simp only [opening, List.map_cons, List.map_nil, List.cons_append, List.nil_append,
      List.mem_cons, List.not_mem_nil, or_false] at ha
    rcases ha with rfl | rfl | rfl | rfl | rfl | rfl <;> exact trivial
  have h {s : Unit → State Unit ℕ Unit} (hrun : run hub (fun _ => .init)
      (opening ++ [.marked, .write 2 (), .receive].map ((), ·)) = some s) :=
    tokens_resume hconnected unheld_opening hrun () ()
  exact ⟨_, rfl, h rfl⟩

end Toa.Realtime
