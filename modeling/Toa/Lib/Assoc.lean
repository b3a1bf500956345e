import Mathlib.Data.List.Induction
import Mathlib.Data.List.Nodup

/-! A map in the order its keys were first set, and the sweep that gathers values under keys. -/

namespace Assoc

variable {κ ν : Type*} [DecidableEq κ]

/-- Sets `key` to `new` where nothing is under it, and makes `more` of what is. -/
def gather (key : κ) (new : ν) (more : ν → ν) : List (κ × ν) → List (κ × ν)
  | [] => [(key, new)]
  | (k, v) :: entries =>
    if k = key then (k, more v) :: entries else (k, v) :: gather key new more entries

theorem forall_gather {P : κ → ν → Prop} {key : κ} {new : ν} {more : ν → ν}
    {entries : List (κ × ν)} (hentries : ∀ e ∈ entries, P e.1 e.2) (hnew : P key new)
    (hmore : ∀ v, P key v → P key (more v)) :
    ∀ e ∈ gather key new more entries, P e.1 e.2 := by
  induction entries with
  | nil => exact fun e he => List.mem_singleton.mp he ▸ hnew
  | cons entry entries ih =>
    obtain ⟨k, v⟩ := entry
    have hhead : P k v := hentries (k, v) (List.mem_cons_self ..)
    have htail : ∀ e ∈ entries, P e.1 e.2 := fun e he => hentries e (List.mem_cons_of_mem _ he)
    intro e he
    rw [gather] at he
    split_ifs at he with hk
    · subst hk
      rcases List.mem_cons.mp he with rfl | he
      · exact hmore v hhead
      · exact htail e he
    · rcases List.mem_cons.mp he with rfl | he
      · exact hhead
      · exact ih htail e he

theorem forall_foldl_gather {τ : Type*} {P : κ → ν → Prop} {key : τ → κ} {new : τ → ν}
    {more : τ → ν → ν} {items : List τ} {entries : List (κ × ν)}
    (hentries : ∀ e ∈ entries, P e.1 e.2) (hnew : ∀ t ∈ items, P (key t) (new t))
    (hmore : ∀ t ∈ items, ∀ v, P (key t) v → P (key t) (more t v)) :
    ∀ e ∈ items.foldl (fun entries t => gather (key t) (new t) (more t) entries) entries,
      P e.1 e.2 := by
  induction items generalizing entries with
  | nil => exact hentries
  | cons t items ih =>
    have ht : t ∈ t :: items := List.mem_cons_self ..
    exact ih (forall_gather hentries (hnew t ht) (hmore t ht))
      (fun u hu => hnew u (List.mem_cons_of_mem _ hu))
      (fun u hu => hmore u (List.mem_cons_of_mem _ hu))

theorem lookup_cons_of_ne {k k' : κ} (h : k ≠ k') (v : ν) (entries : List (κ × ν)) :
    ((k', v) :: entries).lookup k = entries.lookup k := by
  rw [List.lookup_cons, beq_false_of_ne h]

theorem lookup_gather (key k : κ) (new : ν) (more : ν → ν) (entries : List (κ × ν)) :
    (gather key new more entries).lookup k =
      if k = key then some ((entries.lookup key).elim new more) else entries.lookup k := by
  induction entries with
  | nil =>
    by_cases hk : k = key
    · subst hk
      rw [gather, List.lookup_cons_self, if_pos rfl]
      rfl
    · rw [gather, lookup_cons_of_ne hk, if_neg hk]
  | cons entry entries ih =>
    obtain ⟨k', v⟩ := entry
    by_cases hkey : k' = key
    · subst hkey
      rw [gather, if_pos rfl, List.lookup_cons_self]
      by_cases hk : k = k'
      · subst hk
        rw [List.lookup_cons_self, if_pos rfl]
        rfl
      · rw [lookup_cons_of_ne hk, lookup_cons_of_ne hk, if_neg hk]
    · rw [gather, if_neg hkey, lookup_cons_of_ne (Ne.symm hkey)]
      by_cases hk : k = k'
      · subst hk
        rw [List.lookup_cons_self, List.lookup_cons_self, if_neg hkey]
      · rw [lookup_cons_of_ne hk, lookup_cons_of_ne hk, ih]

theorem lookup_single (k k' : κ) (v : ν) : [(k', v)].lookup k = if k = k' then some v else none :=
  lookup_gather k' k v id []

theorem lookup_filterMap {ω : Type*} (f : κ → Option ω) (keys : List κ) (k : κ) :
    (keys.filterMap fun key => (f key).map (key, ·)).lookup k = if k ∈ keys then f k else none := by
  induction keys with
  | nil => rfl
  | cons key keys ih =>
    by_cases hk : k = key
    · subst hk
      cases hf : f k with
      | none => simp [hf, ih]
      | some w => simp [hf]
    · cases hf : f key with
      | none => simp [hf, ih, hk]
      | some w =>
        have hcons := lookup_cons_of_ne hk w (keys.filterMap fun key => (f key).map (key, ·))
        simp only [List.filterMap_cons, hf, Option.map_some, hcons, ih, List.mem_cons, hk, false_or]

omit [DecidableEq κ] in
theorem keys_filterMap {ω : Type*} (f : κ → Option ω) (keys : List κ) :
    (keys.filterMap fun key => (f key).map (key, ·)).map Prod.fst =
      keys.filter fun key => (f key).isSome := by
  induction keys with
  | nil => rfl
  | cons key keys ih =>
    cases hf : f key with
    | none => simp only [List.filterMap_cons, List.filter_cons, hf, Option.map_none, ih,
        Option.isSome_none, Bool.false_eq_true, if_false]
    | some w => simp only [List.filterMap_cons, List.filter_cons, hf, Option.map_some,
        List.map_cons, ih, Option.isSome_some, if_true]

theorem mem_of_lookup {key : κ} {v : ν} {entries : List (κ × ν)}
    (h : entries.lookup key = some v) : (key, v) ∈ entries := by
  obtain ⟨before, after, rfl, -⟩ := List.lookup_eq_some_iff.mp h
  exact List.mem_append_right _ List.mem_cons_self

theorem lookup_eq_none_iff {key : κ} {entries : List (κ × ν)} :
    entries.lookup key = none ↔ key ∉ entries.map Prod.fst := by
  rw [List.lookup_eq_none_iff]
  simp only [List.mem_map, not_exists, not_and, bne_iff_ne, ne_eq]
  constructor
  · rintro h entry hentry rfl
    exact h entry hentry rfl
  · rintro h entry hentry rfl
    exact h entry hentry rfl

theorem lookup_of_mem {entries : List (κ × ν)} (hnodup : (entries.map Prod.fst).Nodup)
    {entry : κ × ν} (h : entry ∈ entries) : entries.lookup entry.1 = some entry.2 := by
  induction entries with
  | nil => cases h
  | cons e entries ih =>
    obtain ⟨hkey, hrest⟩ := List.nodup_cons.mp hnodup
    rcases List.mem_cons.mp h with rfl | h
    · exact List.lookup_cons_self
    · have hne : entry.1 ≠ e.1 := fun heq => hkey (heq ▸ List.mem_map_of_mem h)
      rw [lookup_cons_of_ne hne, ih hrest h]

theorem keys_gather (key : κ) (new : ν) (more : ν → ν) (entries : List (κ × ν)) :
    (gather key new more entries).map Prod.fst =
      if key ∈ entries.map Prod.fst then entries.map Prod.fst else entries.map Prod.fst ++ [key] := by
  induction entries with
  | nil => rfl
  | cons entry entries ih =>
    obtain ⟨k, v⟩ := entry
    by_cases hk : k = key
    · subst hk
      simp only [gather, if_true, List.map_cons, List.mem_cons, true_or]
    · have hmem : key ∈ k :: entries.map Prod.fst ↔ key ∈ entries.map Prod.fst :=
        List.mem_cons.trans (or_iff_right (Ne.symm hk))
      simp only [gather, if_neg hk, List.map_cons, ih, hmem]
      split_ifs <;> rfl

theorem nodup_gather {key : κ} {new : ν} {more : ν → ν} {entries : List (κ × ν)}
    (h : (entries.map Prod.fst).Nodup) : ((gather key new more entries).map Prod.fst).Nodup := by
  rw [keys_gather]
  split_ifs with hmem
  · exact h
  · rw [← List.concat_eq_append]
    exact h.concat hmem

theorem lookup_filter {entries : List (κ × ν)} (hnodup : (entries.map Prod.fst).Nodup)
    (p : κ × ν → Bool) (k : κ) :
    (entries.filter p).lookup k = (entries.lookup k).filter fun v => p (k, v) := by
  induction entries with
  | nil => rfl
  | cons entry entries ih =>
    obtain ⟨k', v⟩ := entry
    obtain ⟨hkey, hrest⟩ := List.nodup_cons.mp hnodup
    by_cases hk : k = k'
    · subst hk
      have hnone : entries.lookup k = none := lookup_eq_none_iff.mpr hkey
      rw [List.lookup_cons_self, List.filter_cons, Option.filter_some]
      split_ifs
      · exact List.lookup_cons_self
      · rw [ih hrest, hnone, Option.filter_none]
    · rw [lookup_cons_of_ne hk, List.filter_cons, ← ih hrest]
      split_ifs
      · exact lookup_cons_of_ne hk v _
      · rfl

theorem lookup_map {ω : Type*} (f : ν → ω) (entries : List (κ × ν)) (k : κ) :
    (entries.map fun entry => (entry.1, f entry.2)).lookup k = (entries.lookup k).map f := by
  induction entries with
  | nil => rfl
  | cons entry entries ih =>
    obtain ⟨key, v⟩ := entry
    rw [List.map_cons]
    by_cases hk : k = key
    · subst hk
      rw [List.lookup_cons_self, List.lookup_cons_self, Option.map_some]
    · rw [lookup_cons_of_ne hk, lookup_cons_of_ne hk, ih]

/-- `{ ...entries, ...more }` -/
def spread (entries more : List (κ × ν)) : List (κ × ν) :=
  more.foldl (fun entries entry => gather entry.1 entry.2 (fun _ => entry.2) entries) entries

theorem lookup_spread {more : List (κ × ν)} (hnodup : (more.map Prod.fst).Nodup)
    (entries : List (κ × ν)) (k : κ) :
    (spread entries more).lookup k = (more.lookup k).or (entries.lookup k) := by
  induction more generalizing entries with
  | nil => rfl
  | cons entry more ih =>
    obtain ⟨key, v⟩ := entry
    obtain ⟨hkey, hrest⟩ := List.nodup_cons.mp hnodup
    have hfirst := lookup_gather key k v (fun _ => v) entries
    rw [spread, List.foldl_cons, ← spread, ih hrest, hfirst]
    by_cases hk : k = key
    · subst hk
      have hnone : more.lookup k = none := lookup_eq_none_iff.mpr hkey
      have hnew : ((entries.lookup k).elim v fun _ => v) = v := by
        cases entries.lookup k <;> rfl
      rw [hnone, if_pos rfl, hnew, List.lookup_cons_self]
      rfl
    · rw [if_neg hk, lookup_cons_of_ne hk]

theorem nodup_foldl_gather {τ : Type*} {key : τ → κ} {new : τ → ν} {more : τ → ν → ν}
    (items : List τ) {entries : List (κ × ν)} (h : (entries.map Prod.fst).Nodup) :
    ((items.foldl (fun entries t => gather (key t) (new t) (more t) entries) entries).map
      Prod.fst).Nodup := by
  induction items generalizing entries with
  | nil => exact h
  | cons t items ih => exact ih (nodup_gather h)

theorem lookup_foldl_gather {τ : Type*} (key : τ → κ) (new : τ → ν) (more : τ → ν → ν)
    (items : List τ) (entries : List (κ × ν)) (k : κ) :
    (items.foldl (fun entries t => gather (key t) (new t) (more t) entries) entries).lookup k =
      (items.filter fun t => key t = k).foldl (fun held t => some (held.elim (new t) (more t)))
        (entries.lookup k) := by
  induction items generalizing entries with
  | nil => rfl
  | cons t items ih =>
    have hfirst := lookup_gather (key t) k (new t) (more t) entries
    rw [List.foldl_cons, ih, hfirst, List.filter_cons]
    by_cases hk : key t = k
    · subst hk
      rw [if_pos rfl, if_pos (decide_eq_true rfl), List.foldl_cons]
    · have hne : k ≠ key t := Ne.symm hk
      rw [if_neg hne, if_neg (by simpa using hk)]

theorem gather_of_lookup_none {key : κ} {entries : List (κ × ν)} (h : entries.lookup key = none)
    (new : ν) (more : ν → ν) : gather key new more entries = entries ++ [(key, new)] := by
  induction entries with
  | nil => rfl
  | cons entry entries ih =>
    obtain ⟨k, v⟩ := entry
    have hne : key ≠ k := by
      rintro rfl
      rw [List.lookup_cons_self] at h
      cases h
    rw [lookup_cons_of_ne hne] at h
    rw [gather, if_neg (Ne.symm hne), ih h]
    rfl

theorem gather_congr_of_lookup {key : κ} {v : ν} {entries : List (κ × ν)}
    (h : entries.lookup key = some v) (new new' : ν) (more : ν → ν) :
    gather key new more entries = gather key new' more entries := by
  induction entries with
  | nil => cases h
  | cons entry entries ih =>
    obtain ⟨k, w⟩ := entry
    rw [gather, gather]
    split_ifs with hk
    · rfl
    · rw [lookup_cons_of_ne (Ne.symm hk)] at h
      rw [ih h]

theorem foldl_some_elim {τ β : Type*} {new : τ → β} {more : τ → β → β} {reading : List τ → β}
    (hone : ∀ t, reading [t] = new t)
    (hmore : ∀ ts t, ts ≠ [] → reading (ts ++ [t]) = more t (reading ts)) {ts : List τ}
    (hts : ts ≠ []) :
    ts.foldl (fun held t => some (held.elim (new t) (more t))) none = some (reading ts) := by
  induction ts using List.reverseRecOn with
  | nil => exact absurd rfl hts
  | append_singleton ts t ih =>
    rw [List.foldl_append]
    by_cases hnil : ts = []
    · subst hnil
      exact congrArg some (hone t).symm
    · rw [ih hnil, hmore ts t hnil]
      rfl

theorem gather_gather (key : κ) (new new' : ν) (entries : List (κ × ν)) :
    gather key new' (fun _ => new') (gather key new (fun _ => new) entries) =
      gather key new' (fun _ => new') entries := by
  induction entries with
  | nil => exact if_pos rfl
  | cons entry entries ih =>
    obtain ⟨k, v⟩ := entry
    by_cases hkey : k = key
    · rw [gather, if_pos hkey, gather, if_pos hkey, gather, if_pos hkey]
    · rw [gather, if_neg hkey, gather, if_neg hkey, gather, if_neg hkey, ih]

theorem gather_comm {key key' : κ} (hne : key ≠ key') {new new' : ν} {more more' : ν → ν}
    {entries : List (κ × ν)} (hkey : key ∈ entries.map Prod.fst) :
    gather key new more (gather key' new' more' entries) = gather key' new' more' (gather key new more entries) := by
  induction entries with
  | nil => cases hkey
  | cons entry entries ih =>
    obtain ⟨k, v⟩ := entry
    by_cases hk : k = key
    · have hk' : k ≠ key' := hk ▸ hne
      rw [gather, if_neg hk', gather, if_pos hk, gather, if_pos hk, gather, if_neg hk']
    · have hrest : key ∈ entries.map Prod.fst := (List.mem_cons.mp hkey).resolve_left (Ne.symm hk)
      by_cases hk' : k = key'
      · rw [gather, if_pos hk', gather, if_neg hk, gather, if_neg hk, gather, if_pos hk']
      · rw [gather, if_neg hk', gather, if_neg hk, gather, if_neg hk, gather, if_neg hk', ih hrest]

theorem lookup_filter_key {p : κ → Bool} {entries : List (κ × ν)} {k : κ} :
    (entries.filter fun entry => p entry.1).lookup k = if p k = true then entries.lookup k else none := by
  induction entries with
  | nil => rw [List.filter_nil, List.lookup_nil, ite_self]
  | cons entry entries ih =>
    obtain ⟨key, v⟩ := entry
    by_cases hkey : k = key
    · subst hkey
      cases hp : p k with
      | true => simp only [List.filter_cons, hp, if_true, List.lookup_cons_self]
      | false => simp only [List.filter_cons, hp, Bool.false_eq_true, if_false, ih]
    · rw [lookup_cons_of_ne hkey, ← ih]
      cases hp : p key with
      | true => simp only [List.filter_cons, hp, if_true, lookup_cons_of_ne hkey]
      | false => simp only [List.filter_cons, hp, Bool.false_eq_true, if_false]

theorem mem_gather {key k : κ} {new v : ν} {entries : List (κ × ν)}
    (h : (k, v) ∈ gather key new (fun _ => new) entries) : k = key ∧ v = new ∨ (k, v) ∈ entries :=
  @forall_gather _ _ _ (fun k v => k = key ∧ v = new ∨ (k, v) ∈ entries) _ _ _ _ (fun _ he => .inr he)
    (.inl ⟨rfl, rfl⟩) (fun _ _ => .inl ⟨rfl, rfl⟩) _ h

end Assoc
