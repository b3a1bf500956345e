import Mathlib.Order.Nat
import Mathlib.Tactic.ByCases
import Toa.Lib.Run
import Toa.Streams.Protocol

/-! A reader's copy of a collection. For every id, either a change the reader is yet to be told of
concerns it, or its copy is what the collection held at the position of the token, or a window it
is yet to read has it. -/

set_option linter.unusedSectionVars false

namespace Toa.Streams
open Run

universe u v w
variable {ι : Type u} {D : Type v} {H : Type w} [LinearOrder ι] [DecidableEq H]

section
variable (query : Query D H) (initial : ι → Option (Image D)) (commits : ℕ → Commit ι D)

def selected (n : ℕ) (id : ι) : Option (Image D) :=
  (collection initial commits n id).filter query.criteria

/-- A change of `id` between two positions is told to a reader. -/
def Told (p q : ℕ) (id : ι) : Prop :=
  ∃ n, p ≤ n ∧ n < q ∧ (commits n).id = id ∧
    (selected query initial commits n id ≠ none ∨ selected query initial commits (n + 1) id ≠ none)

/-- The copy is the collection at `p`, but for what is told up to `hi`, and what `left` is of. -/
def Synced (left : ι × ℤ → Bool) (p hi : ℕ) (copy : ι → Option (Image D)) : Prop :=
  ∀ id, Told query initial commits p hi id ∨
    (copy id).map (·.project query.projection) =
      (selected query initial commits p id).map (·.project query.projection) ∨
    copy id = none ∧ ∃ image, selected query initial commits p id = some image ∧
      left (id, image.CREATED) = true

end

section
variable {query : Query D H} {initial : ι → Option (Image D)} {commits : ℕ → Commit ι D}

theorem project_project (query : Query D H) (image : Image D) :
    (image.project query.projection).project query.projection = image.project query.projection := by
  simp only [Image.project, query.projected]

theorem Told.mono {p q q' : ℕ} {id : ι} (h : Told query initial commits p q id) (hq : q ≤ q') :
    Told query initial commits p q' id := by
  obtain ⟨n, hp, hn, hid, hsel⟩ := h
  exact ⟨n, hp, Nat.lt_of_lt_of_le hn hq, hid, hsel⟩

theorem collection_of_ne {n : ℕ} {id : ι} (h : (commits n).id ≠ id) :
    collection initial commits (n + 1) id = collection initial commits n id :=
  Function.update_of_ne (Ne.symm h) _ _

theorem selected_of_ne {n : ℕ} {id : ι} (h : (commits n).id ≠ id) :
    selected query initial commits (n + 1) id = selected query initial commits n id := by
  rw [selected, collection_of_ne h, selected]

theorem selected_eq_of_not_told {p q : ℕ} {id : ι} (h : ¬ Told query initial commits p q id) {n : ℕ}
    (hp : p ≤ n) (hq : n ≤ q) :
    selected query initial commits n id = selected query initial commits p id := by
  induction hp with
  | refl => rfl
  | @step n hp ih =>
    rw [← ih (Nat.le_of_succ_le hq)]
    by_cases hid : (commits n).id = id
    · by_cases hnone : selected query initial commits n id = none ∧
          selected query initial commits (n + 1) id = none
      · rw [hnone.1, hnone.2]
      · exact absurd ⟨n, hp, hq, hid, not_and_or.mp hnone⟩ h
    · exact selected_of_ne hid

/-! ## Changes -/

theorem foldl_keep_of_ne {parts : List (Part ι D)} {id : ι} (h : ∀ part ∈ parts, part.id ≠ id)
    (copy : ι → Option (Image D)) : parts.foldl keep copy id = copy id := by
  induction parts generalizing copy with
  | nil => rfl
  | cons part parts ih =>
    rw [List.foldl_cons, ih fun other hother => h other (List.mem_cons_of_mem _ hother)]
    have hne : id ≠ part.id := (h part (List.mem_cons_self ..)).symm
    cases part <;> exact Function.update_of_ne hne _ _

theorem classify_event (n : ℕ) : classify query.criteria (event initial commits n) =
    match selected query initial commits (n + 1) (commits n).id,
      selected query initial commits n (commits n).id with
    | some after, _ => some (.entry (commits n).id after)
    | none, some _ => some (.removed (commits n).id)
    | none, none => none := by
  have hafter : selected query initial commits (n + 1) (commits n).id =
      (commits n).after.filter query.criteria := by
    rw [selected, collection, Function.update_self]
  rw [hafter]
  rfl

theorem synced_event {p hi : ℕ} {copy : ι → Option (Image D)}
    (h : Synced query initial commits (fun _ => false) p hi copy) :
    Synced query initial commits (fun _ => false) (p + 1) hi
      ((classify query.criteria (event initial commits p)).toList.foldl keep copy) := by
  intro id
  rw [classify_event]
  by_cases hid : (commits p).id = id
  · subst hid
    cases hafter : selected query initial commits (p + 1) (commits p).id with
    | some after =>
      have hput : keep copy (.entry (commits p).id after) (commits p).id = some after :=
        Function.update_self (commits p).id _ copy
      exact .inr (.inl (congrArg _ hput))
    | none =>
      cases hbefore : selected query initial commits p (commits p).id with
      | some before =>
        have hdrop : keep copy (.removed (commits p).id) (commits p).id = none :=
          Function.update_self (commits p).id _ copy
        exact .inr (.inl (congrArg _ hdrop))
      | none =>
        rcases h (commits p).id with ⟨n, hn, hhi, hid, hne⟩ | hcopy | ⟨-, _, -, hleft⟩
        · -- this change is told to nobody, so what was told is later
          have hlater : n ≠ p := by
            rintro rfl
            exact hne.elim (absurd hbefore) (absurd hafter)
          exact .inl ⟨n, by omega, hhi, hid, hne⟩
        · exact .inr (.inl (hcopy.trans (congrArg _ hbefore)))
        · exact nomatch hleft
  · have hsame : selected query initial commits (p + 1) id = selected query initial commits p id :=
      selected_of_ne hid
    rw [foldl_keep_of_ne ?_ copy, hsame]
    · rcases h id with ⟨n, hn, hhi, hid', hne⟩ | hrest
      · have hlater : n ≠ p := fun heq => hid (heq ▸ hid')
        exact .inl ⟨n, by omega, hhi, hid', hne⟩
      · exact .inr hrest
    · intro part hpart
      split at hpart
      · exact List.mem_singleton.mp hpart ▸ hid
      · exact List.mem_singleton.mp hpart ▸ hid
      · exact nomatch hpart

theorem synced_changes (limit : Option ℕ) (available : ℕ) {p hi : ℕ} (count : ℕ)
    {copy : ι → Option (Image D)} (h : Synced query initial commits (fun _ => false) p hi copy) :
    let read := changes query.criteria limit (event initial commits) available p count
    Synced query initial commits (fun _ => false) read.2 hi (read.1.foldl keep copy) ∧
      read.2 ≤ p + available := by
  induction available generalizing p count copy with
  | zero => exact ⟨h, Nat.le_refl _⟩
  | succ available ih =>
    have hnext := synced_event h
    simp only [changes]
    split_ifs
    · exact ⟨hnext, by omega⟩
    · obtain ⟨hsynced, hle⟩ :=
        ih (count + (classify query.criteria (event initial commits p)).toList.length) hnext
      refine ⟨?_, by omega⟩
      rw [List.foldl_append]
      exact hsynced

theorem synced_exact {p hi : ℕ} {copy : ι → Option (Image D)}
    (h : Synced query initial commits (fun _ => false) p hi copy) (hhi : hi ≤ p) (id : ι) :
    (copy id).map (·.project query.projection) =
      (selected query initial commits p id).map (·.project query.projection) := by
  rcases h id with ⟨n, hn, hnhi, -⟩ | hcopy | ⟨-, _, -, hleft⟩
  · omega
  · exact hcopy
  · exact nomatch hleft

/-! ## Windows -/

theorem foldl_keep_entries (query : Query D H) (entries : List (ι × Image D)) (copy : ι → Option (Image D)) (id : ι) :
    let kept := (entries.map fun e => Part.entry e.1 (e.2.project query.projection)).foldl keep copy
    (∃ image, (id, image) ∈ entries ∧ kept id = some (image.project query.projection)) ∨
      (∀ image, (id, image) ∉ entries) ∧ kept id = copy id := by
  induction entries generalizing copy with
  | nil => exact .inr ⟨fun _ => List.not_mem_nil, rfl⟩
  | cons e entries ih =>
    rcases ih (keep copy (.entry e.1 (e.2.project query.projection))) with ⟨image, hmem, hkept⟩ | ⟨hn, hkept⟩
    · exact .inl ⟨image, List.mem_cons_of_mem _ hmem, hkept⟩
    · by_cases hid : id = e.1
      · subst hid
        exact .inl ⟨e.2, List.mem_cons_self .., hkept.trans (Function.update_self e.1 _ copy)⟩
      · refine .inr ⟨fun image hmem => ?_, hkept.trans (Function.update_of_ne hid _ copy)⟩
        rcases List.mem_cons.mp hmem with heq | hmem
        · exact hid (congrArg Prod.fst heq)
        · exact hn image hmem

theorem synced_window {left remaining : ι × ℤ → Bool} {p lo hi seen : ℕ}
    {copy : ι → Option (Image D)} {order : Option Order} {limit : Option ℕ}
    {entries : List (ι × Image D)} (h : Synced query initial commits left p seen copy)
    (hlo : p ≤ lo)
    (hfound : Found (collection initial commits) query.criteria left order limit lo hi entries)
    (hremaining : ∀ x, remaining x = false → limit = some entries.length →
      ∃ o ∈ order, ∃ last ∈ entries.getLast?, beyond o (last.1, last.2.CREATED) x = false) :
    Synced query initial commits remaining p (max seen hi)
      ((entries.map fun e => .entry e.1 (e.2.project query.projection)).foldl keep copy) := by
  intro id
  by_cases htold : Told query initial commits p (max seen hi) id
  · exact .inl htold
  have hconst {n : ℕ} (hn : lo ≤ n) (hnhi : n ≤ hi) :
      selected query initial commits n id = selected query initial commits p id :=
    selected_eq_of_not_told htold (hlo.trans hn) (hnhi.trans (le_max_right _ _))
  refine .inr ?_
  rcases foldl_keep_entries query entries copy id with ⟨image, hmem, hkept⟩ | ⟨hn, hkept⟩
  · obtain ⟨n, hlon, hnhi, hheld, hcriteria, -⟩ := hfound.held _ hmem
    have hselected : selected query initial commits p id = some image :=
      (hconst hlon hnhi).symm.trans (Option.filter_eq_some_iff.mpr ⟨hheld, hcriteria⟩)
    rw [hkept, hselected, Option.map_some, Option.map_some, project_project]
    exact .inl rfl
  · rw [hkept]
    rcases h id with told | hcopy | ⟨hnone, image, hselected, hleft⟩
    · exact absurd (told.mono (le_max_left _ _)) htold
    · exact .inl hcopy
    · refine .inr ⟨hnone, image, hselected, ?_⟩
      by_contra hout
      have hheld (n : ℕ) (hlon : lo ≤ n) (hnhi : n ≤ hi) :
          collection initial commits n id = some image :=
        (Option.filter_eq_some_iff.mp ((hconst hlon hnhi).trans hselected)).1
      exact hn image (hfound.complete id image hheld (Option.filter_eq_some_iff.mp hselected).2 hleft
        (hremaining _ (Bool.eq_false_iff.mpr hout)))

/-! ## Every reading -/

variable {history : Bool}

def Continues (query : Query D H) (initial : ι → Option (Image D)) (commits : ℕ → Commit ι D)
    (s : State ι D H) (token : Token ι H) : Prop :=
  ∀ p ∈ token.p, p ≤ s.now ∧ match token.id with
    | none => Synced query initial commits (fun _ => false) p s.seen s.copy
    | some id => token.t = some p ∧ ∃ o, ordered query.sort = .ok o ∧
        Synced query initial commits (beyond o (id, token.c.getD 0)) p s.seen s.copy

structure Inv (query : Query D H) (initial : ι → Option (Image D)) (commits : ℕ → Commit ι D)
    (s : State ι D H) : Prop where
  seen : s.seen ≤ s.now
  token : ∀ token ∈ s.token, Continues query initial commits s token

def Served (query : Query D H) (history : Bool) (initial : ι → Option (Image D))
    (commits : ℕ → Commit ι D) (s : State ι D H) : Act ι D → Prop
  | .first request _ lo hi entries => ∀ order, orderOf query.sort request (none : Option (ι × ℤ)) = .ok order →
      Found (collection initial commits) query.criteria (fun _ => true) order request.limit lo hi
        entries
  | .window request lo hi entries => ∀ position after o,
      stream history query.hash s.token = .ok (.window position after) →
        ordered query.sort = .ok o → Found (collection initial commits) query.criteria
          (beyond o after) (some o) request.limit lo hi entries
  | _ => True

def Whole (_ : State ι D H) : Act ι D → Prop
  | .first request _ _ _ entries | .window request _ _ entries =>
    request.stop = true → request.limit ≠ some entries.length
  | _ => True

theorem inv_read {s : State ι D H} {left : ι × ℤ → Bool} {request : Request}
    {order : Option Order} {position : Option Position} {lo hi : ℕ} {entries : List (ι × Image D)}
    (hseen : s.seen ≤ s.now) (hlohi : lo ≤ hi) (hhi : hi ≤ s.now)
    (hposition : ∀ here ∈ position, here.p ≤ lo ∧ here.t = some here.p ∧
      Synced query initial commits left here.p s.seen s.copy)
    (horder : ∀ o ∈ order, ordered query.sort = .ok o) (hsome : request.limit ≠ none → order ≠ none)
    (hfound : Found (collection initial commits) query.criteria left order request.limit lo hi entries)
    (hwhole : request.stop = true → request.limit ≠ some entries.length) :
    Inv query initial commits (s.read query request order position hi entries) := by
  refine ⟨max_le hseen hhi, fun token htoken p hp => ?_⟩
  simp only [State.read, ending, Option.mem_def] at htoken
  by_cases hfull : request.limit = some entries.length
  · have hstop : request.stop = false := Bool.eq_false_iff.mpr fun h => hwhole h hfull
    obtain ⟨o, rfl⟩ := Option.ne_none_iff_exists'.mp (hsome (hfull ▸ Option.some_ne_none _))
    have hne : entries ≠ [] := List.ne_nil_of_length_pos (request.limit_pos _ hfull)
    have hlast := List.getLast?_eq_some_getLast hne
    rw [hlast] at htoken
    simp only [hfull, hstop, and_self, if_true, Option.some.injEq] at htoken
    subst htoken
    obtain ⟨here, hhere, rfl⟩ := Option.map_eq_some_iff.mp hp
    subst hhere
    obtain ⟨hlo, ht, hsynced⟩ := hposition here rfl
    refine ⟨hlo.trans (hlohi.trans hhi), ht, o, horder o rfl, ?_⟩
    refine synced_window hsynced hlo hfound fun x hx _ => ⟨o, rfl, _, hlast, ?_⟩
    cases o <;> exact hx
  · have htoken' : position.map (fun here => (⟨some here.p, none, none, none, query.hash⟩ :
        Token ι H)) = some token := by
      split at htoken
      · rw [if_neg fun h => hfull h.1] at htoken
        exact htoken
      · exact htoken
    obtain ⟨here, hhere, rfl⟩ := Option.map_eq_some_iff.mp htoken'
    subst hhere
    obtain rfl := Option.some.inj hp
    obtain ⟨hlo, -, hsynced⟩ := hposition here rfl
    refine ⟨hlo.trans (hlohi.trans hhi), ?_⟩
    exact synced_window hsynced hlo hfound fun x _ h => absurd h hfull

theorem orderOf_first {sort : List (String × Direction)} {request : Request} {order : Option Order}
    (h : orderOf sort request (none : Option (ι × ℤ)) = .ok order) :
    (∀ o ∈ order, ordered sort = .ok o) ∧ (request.limit ≠ none → order ≠ none) := by
  unfold orderOf at h
  cases hlimit : request.limit with
  | none =>
    rw [hlimit] at h
    obtain rfl := Except.ok.inj h
    exact ⟨fun _ ho => (Option.not_mem_none _ ho).elim, fun hne => absurd rfl hne⟩
  | some n =>
    rw [hlimit] at h
    cases hordered : ordered sort with
    | error e =>
      rw [hordered] at h
      exact nomatch h
    | ok o =>
      rw [hordered] at h
      obtain rfl := Except.ok.inj h
      exact ⟨fun _ ho => congrArg _ (Option.some.inj ho), fun _ => Option.some_ne_none _⟩

theorem orderOf_window {sort : List (String × Direction)} {request : Request} {after : ι × ℤ}
    {order : Option Order} (h : orderOf sort request (some after) = .ok order) :
    ∃ o, order = some o ∧ ordered sort = .ok o := by
  have hmap : (ordered sort).map some = .ok order := by
    cases hlimit : request.limit <;> simpa only [orderOf, hlimit] using h
  cases hordered : ordered sort with
  | error e =>
    rw [hordered] at hmap
    exact nomatch hmap
  | ok o =>
    rw [hordered] at hmap
    exact ⟨o, (Except.ok.inj hmap).symm, rfl⟩

theorem stream_window {hash : H} {given : Option (Token ι H)} {position : Option Position}
    {after : ι × ℤ} (h : stream history hash given = .ok (.window position after)) :
    ∃ token id, given = some token ∧ token.id = some id ∧ after = (id, token.c.getD 0) ∧
      position = token.p.map fun p => ⟨p, token.t⟩ := by
  unfold stream at h
  split at h
  · exact nomatch Except.ok.inj h
  · rename_i token
    split_ifs at h
    split at h
    · exact nomatch h
    · rename_i id hid _
      obtain ⟨rfl, rfl⟩ := Plan.window.inj (Except.ok.inj h)
      exact ⟨token, id, rfl, hid, rfl, rfl⟩
    · exact nomatch Except.ok.inj h
    · exact nomatch h

theorem stream_changes {hash : H} {given : Option (Token ι H)} {p : ℕ}
    (h : stream history hash given = .ok (.changes p)) :
    ∃ token, given = some token ∧ token.id = none ∧ token.p = some p := by
  unfold stream at h
  split at h
  · exact nomatch Except.ok.inj h
  · rename_i token
    split_ifs at h
    split at h
    · exact nomatch h
    · exact nomatch Except.ok.inj h
    · rename_i p' hid hp
      obtain rfl := Plan.changes.inj (Except.ok.inj h)
      exact ⟨token, rfl, hid, hp⟩
    · exact nomatch h

theorem synced_start (p : ℕ) : Synced query initial commits (fun _ => true) p 0 fun _ => none := by
  intro id
  refine .inr ?_
  cases hselected : selected query initial commits p id with
  | none => exact .inl rfl
  | some image => exact .inr ⟨rfl, image, rfl, rfl⟩

theorem inv_step {s t : State ι D H} {a : Act ι D} (hs : Inv query initial commits s)
    (hserved : Served query history initial commits s a) (hwhole : Whole s a)
    (h : step query history initial commits s a = some t) : Inv query initial commits t := by
  cases a with
  | commit =>
    obtain rfl := Option.some.inj h
    refine ⟨Nat.le_succ_of_le hs.seen, fun token htoken p hp => ?_⟩
    exact (hs.token token htoken p hp).imp_left Nat.le_succ_of_le
  | first request position lo hi entries =>
    simp only [step] at h
    split_ifs at h with hcond
    split at h
    · exact nomatch h
    · rename_i order horder
      obtain rfl := Option.some.inj h
      obtain ⟨hlo, hlohi, hhi⟩ := hcond
      obtain ⟨hordered, hsome⟩ := orderOf_first horder
      refine inv_read (Nat.zero_le _) hlohi hhi (fun here hhere => ?_) hordered hsome
        (hserved order horder) hwhole
      simp only [taken, Option.mem_def] at hhere
      split_ifs at hhere
      obtain rfl := Option.some.inj hhere
      exact ⟨hlo, rfl, synced_start position⟩
  | window request lo hi entries =>
    simp only [step] at h
    split at h
    · rename_i position after hstream
      split_ifs at h with hcond
      split at h
      · exact nomatch h
      · rename_i order horder
        obtain rfl := Option.some.inj h
        obtain ⟨hwait, hlohi, hhi⟩ := hcond
        obtain ⟨o, rfl, hordered⟩ := orderOf_window horder
        obtain ⟨token, id, htoken, hid, rfl, rfl⟩ := stream_window hstream
        refine inv_read hs.seen hlohi hhi (fun here hhere => ?_)
          (fun _ ho => Option.some.inj ho ▸ hordered) (fun _ => Option.some_ne_none _)
          (hserved _ _ o hstream hordered) hwhole
        obtain ⟨p, hp, rfl⟩ := Option.map_eq_some_iff.mp hhere
        have hcontinues := (hs.token token htoken p hp).2
        rw [hid] at hcontinues
        obtain ⟨ht, o', ho', hsynced⟩ := hcontinues
        obtain rfl := Except.ok.inj (hordered.symm.trans ho')
        rw [hp, ht] at hwait
        exact ⟨of_decide_eq_true hwait, ht, hsynced⟩
    · exact nomatch h
  | changes request upto =>
    simp only [step] at h
    split at h
    · rename_i p hstream
      split_ifs at h with hcond
      obtain rfl := Option.some.inj h
      obtain ⟨token, htoken, hid, hp⟩ := stream_changes hstream
      have hcontinues := (hs.token token htoken p hp).2
      rw [hid] at hcontinues
      obtain ⟨hsynced, hle⟩ :=
        synced_changes request.limit (upto - p) 0 hcontinues
      refine ⟨hs.seen, fun next hnext q hq => ?_⟩
      obtain rfl := Option.some.inj hnext
      obtain rfl := Option.some.inj hq
      have hnow : p + (upto - p) ≤ s.now := by omega
      exact ⟨hle.trans hnow, hsynced⟩
    · exact nomatch h

/-- Over every reading that tells no full window to stop, and every interleaving of it with the
writes: a reader whose token is of changes, at a position past what its windows saw or past every
commit, holds what the collection held there of what matches, as its projection has it. -/
theorem replica_of_collection {acts : List (Act ι D)} {s : State ι D H} {token : Token ι H} {p : ℕ}
    (hserved : Along (step query history initial commits)
      (Served query history initial commits) .init acts)
    (hwhole : Along (step query history initial commits) Whole .init acts)
    (hrun : run (step query history initial commits) .init acts = some s)
    (htoken : s.token = some token) (hid : token.id = none) (hp : token.p = some p)
    (hpast : s.seen ≤ p ∨ p = s.now) (id : ι) :
    (s.copy id).map (·.project query.projection) =
      (selected query initial commits p id).map (·.project query.projection) := by
  have hstart : Inv query initial commits (.init : State ι D H) :=
    ⟨Nat.le_refl _, fun _ h => nomatch h⟩
  have hs : Inv query initial commits s :=
    run_invariant (fun s a t hI hok h => inv_step hI hok.1 hok.2 h) hstart (hserved.and hwhole) hrun
  have hcontinues := (hs.token token htoken p hp).2
  rw [hid] at hcontinues
  refine synced_exact hcontinues ?_ id
  rcases hpast with hpast | rfl
  · exact hpast
  · exact hs.seen

end
/-! ## Two records, the first of which is removed -/

def everything : Query ℕ Unit where
  criteria := fun _ => true
  sort := []
  projection := id
  projected := projected_id
  hash := ()

def two (id : ℕ) : Option (Image ℕ) := if id < 2 then some ⟨0, id⟩ else none

def removal (_ : ℕ) : Commit ℕ ℕ := ⟨0, none⟩

def window (n : ℕ) (h : 0 < n) (stop : Bool) : Request :=
  ⟨some n, limit_pos h, stop⟩

def whole : Request := ⟨none, fun _ h => (Option.not_mem_none _ h).elim, false⟩

theorem two_eq_some {id : ℕ} {image : Image ℕ} (h : two id = some image) :
    id < 2 ∧ image = ⟨0, id⟩ := by
  unfold two at h
  split_ifs at h with hid
  exact ⟨hid, (Option.some.inj h).symm⟩

theorem found_first : Found (collection two removal) everything.criteria (fun _ => true)
    (some (.id .asc)) (some 1) 0 0 [(0, ⟨0, 0⟩)] where
  held := fun e he => List.mem_singleton.mp he ▸ ⟨0, Nat.le_refl _, Nat.le_refl _, rfl, rfl, rfl⟩
  limited := fun n hn => Option.some.inj hn ▸ Nat.le_refl _
  complete := by
    intro id image hheld _ _ hlast
    obtain ⟨_, rfl⟩ := two_eq_some (hheld 0 (Nat.le_refl _) (Nat.le_refl _))
    obtain ⟨o, ho, last, hlast, hbeyond⟩ := hlast rfl
    obtain rfl := Option.some.inj ho
    obtain rfl := Option.some.inj hlast
    obtain rfl : id = 0 := Nat.le_zero.mp (Nat.not_lt.mp (of_decide_eq_false hbeyond))
    exact List.mem_singleton_self _

theorem found_second : Found (collection two removal) everything.criteria
    (beyond (.id .asc) (0, 0)) (some (.id .asc)) (some 2) 1 1 [(1, ⟨0, 1⟩)] where
  held := fun e he => List.mem_singleton.mp he ▸ ⟨1, Nat.le_refl _, Nat.le_refl _, rfl, rfl, rfl⟩
  limited := fun n hn => Option.some.inj hn ▸ Nat.le_succ _
  complete := by
    intro id image hheld _ hbeyond _
    have hid : 0 < id := of_decide_eq_true hbeyond
    have hone : collection two removal 1 id = two id := Function.update_of_ne (Nat.ne_of_gt hid) _ _
    obtain ⟨hlt, rfl⟩ := two_eq_some (hone.symm.trans (hheld 1 (Nat.le_refl _) (Nat.le_refl _)))
    obtain rfl : id = 1 := by omega
    exact List.mem_singleton_self _

def reading : List (Act ℕ ℕ) :=
  [.first (window 1 (by decide) false) 0 0 0 [(0, ⟨0, 0⟩)], .commit,
    .window (window 2 (by decide) false) 1 1 [(1, ⟨0, 1⟩)], .changes whole 1]

theorem served_reading : Along (step everything true two removal)
    (Served everything true two removal) .init reading := by
  refine ⟨fun order horder => ?_, fun s hs => ⟨trivial, fun t ht => ⟨fun position after o hstream ho => ?_,
    fun _ _ => ⟨trivial, fun _ _ => trivial⟩⟩⟩⟩
  · have hid : (Except.ok (some (.id .asc)) : Except Exception _) = .ok order := horder
    obtain rfl := Except.ok.inj hid
    exact found_first
  · obtain rfl := Option.some.inj hs
    obtain rfl := Option.some.inj ht
    have hid : (Except.ok (.id .asc) : Except Exception _) = .ok o := ho
    have hplan : (Except.ok (.window (some ⟨0, some 0⟩) (0, 0)) : Except Exception (Plan ℕ)) =
        .ok (.window position after) := hstream
    obtain rfl := Except.ok.inj hid
    obtain ⟨-, rfl⟩ := Plan.window.inj (Except.ok.inj hplan)
    exact found_second

theorem whole_reading : Along (step everything true two removal) Whole .init reading := by
  refine ⟨?_, fun _ _ => ⟨trivial, fun _ _ => ⟨?_, fun _ _ => ⟨trivial, fun _ _ => trivial⟩⟩⟩⟩
  · exact fun h => nomatch h
  · exact fun h => nomatch h

theorem replica_of_two : ∃ s, run (step everything true two removal) .init reading = some s ∧
    ∀ k, (s.copy k).map (·.project id) = (selected everything two removal 1 k).map (·.project id) := by
  have h {s token} (hrun : run (step everything true two removal) .init reading = some s)
      (htoken : s.token = some token) (hid : token.id = none) (hp : token.p = some 1) :=
    replica_of_collection served_reading whole_reading hrun htoken hid hp
  exact ⟨_, rfl, h rfl rfl rfl rfl (.inr rfl)⟩

def stopped : List (Act ℕ ℕ) :=
  [.first (window 1 (by decide) true) 0 0 0 [(0, ⟨0, 0⟩)], .changes whole 0]

theorem stopped_holds_less : ∃ s token,
    Along (step everything true two removal) (Served everything true two removal) .init stopped ∧
      run (step everything true two removal) .init stopped = some s ∧
      s.token = some token ∧ token.id = none ∧ token.p = some 0 ∧ s.seen ≤ 0 ∧ s.now = 0 ∧
      s.copy 1 = none ∧ selected everything two removal 0 1 = some ⟨0, 1⟩ := by
  refine ⟨_, _, ?_, rfl, rfl, rfl, rfl, Nat.le_refl _, rfl, rfl, rfl⟩
  refine ⟨fun order horder => ?_, fun _ _ => ⟨trivial, fun _ _ => trivial⟩⟩
  have hid : (Except.ok (some (.id .asc)) : Except Exception _) = .ok order := horder
  obtain rfl := Except.ok.inj hid
  exact found_first

end Toa.Streams
