import Toa.Convergence.Regions
import Toa.Lib.Fallible

/-! The regions converge, in every run whose assignments each name the region they are made in. An
assignment that is not of that kind leaves the rank another region wrote on what this one wrote,
and two regions then hold two records of one version and one rank, neither of which gives way. -/

set_option linter.unusedSectionVars false

namespace Toa.Convergence
open Storage LastWriter Run

universe u v
variable {ι : Type u} {J : Type v} [DecidableEq ι]
variable {codec : Codec J} {declaration : Declaration J} {rank : ι → ℕ}

/-- What region `r` has seen under an id: what it started from, what it wrote itself, and what it
was delivered. -/
def seen (c₀ : Collection J) (s : Regions ι J) (r : ι) (id : String) : Set (Document J) :=
  { d | c₀ id = some d ∨ ∃ n o, s.Published n o d ∧ d.id = id ∧ (o = r ∨ (r, n) ∈ s.delivered) }

structure Inv (rank : ι → ℕ) (c₀ : Collection J) (s : Regions ι J) : Prop where
  region : ∀ n o d, s.Published n o d → d.REGION = some (rank o)
  later : ∀ n o d, s.Published n o d → ∀ b, c₀ d.id = some b → b.VERSION < d.VERSION
  /-- a region publishes one record of an id at a version -/
  own : ∀ n n' o d d', s.Published n o d → s.Published n' o d' →
    d.id = d'.id → d.VERSION = d'.VERSION → d = d'
  bounded : ∀ r n, (r, n) ∈ s.delivered → n < s.published.length
  holds : ∀ r id, Latest key (seen c₀ s r id) (s.collections r id)

theorem inv_init (rank : ι → ℕ) (c₀ : Collection J) :
    Inv rank c₀ (Regions.init c₀ : Regions ι J) where
  region := fun n o d h => nomatch h
  later := fun n o d h => nomatch h
  own := fun n n' o d d' h => nomatch h
  bounded := fun r n h => nomatch h
  holds := by
    intro r id
    have hseen : seen c₀ (Regions.init c₀ : Regions ι J) r id = { d | c₀ id = some d } := by
      ext d
      refine ⟨fun h => h.resolve_right ?_, Or.inl⟩
      rintro ⟨n, o, hn, -⟩
      exact nomatch hn
    rw [hseen]
    change Latest key _ (c₀ id)
    cases hc : c₀ id with
    | none => exact Set.eq_empty_of_forall_notMem fun d hd => nomatch (hd : none = some d)
    | some b =>
      refine ⟨rfl, fun e he => ?_⟩
      exact (Option.some.inj (he : some b = some e)) ▸ le_rfl

/-! ## One local write -/

theorem published_commit_one {s : Regions ι J} {r o : ι} {c : Collection J} {d e : Document J}
    {n : ℕ} : (s.commit r c [d]).Published n o e ↔
      s.Published n o e ∨ (n = s.published.length ∧ o = r ∧ e = d) := by
  change (s.published ++ [(r, d)])[n]? = some (o, e) ↔ s.published[n]? = some (o, e) ∨ _
  rcases lt_trichotomy n s.published.length with h | h | h
  · rw [List.getElem?_append_left h]
    exact ⟨Or.inl, fun hp => hp.resolve_right fun hn => by omega⟩
  · subst h
    rw [List.getElem?_concat_length, List.getElem?_eq_none le_rfl]
    simp only [Option.some.injEq, Prod.mk.injEq, reduceCtorEq, true_and, false_or, eq_comm]
  · rw [List.getElem?_eq_none (by simpa using Nat.succ_le_of_lt h),
      List.getElem?_eq_none h.le]
    simp only [reduceCtorEq, false_or, false_iff, not_and]
    exact fun hn => absurd hn (Nat.ne_of_gt h)

theorem seen_commit_one {c₀ : Collection J} {s : Regions ι J}
    (hb : ∀ r n, (r, n) ∈ s.delivered → n < s.published.length)
    (r : ι) (c : Collection J) (d : Document J) (r' : ι) (id : String) :
    seen c₀ (s.commit r c [d]) r' id =
      if r' = r ∧ id = d.id then insert d (seen c₀ s r' id) else seen c₀ s r' id := by
  have hsub : seen c₀ s r' id ⊆ seen c₀ (s.commit r c [d]) r' id := by
    rintro e (he | ⟨n, o, hn, hrest⟩)
    · exact .inl he
    · exact .inr ⟨n, o, published_commit_one.mpr (.inl hn), hrest⟩
  have hback : ∀ e ∈ seen c₀ (s.commit r c [d]) r' id,
      e ∈ seen c₀ s r' id ∨ (e = d ∧ r' = r ∧ id = d.id) := by
    rintro e (he | ⟨n, o, hn, hid, hr⟩)
    · exact .inl (.inl he)
    · rcases published_commit_one.mp hn with hn | ⟨rfl, rfl, rfl⟩
      · exact .inl (.inr ⟨n, o, hn, hid, hr⟩)
      · refine .inr ⟨rfl, ?_, hid.symm⟩
        rcases hr with hr | hr
        · exact hr.symm
        · exact absurd (hb _ _ hr) (lt_irrefl _)
  split_ifs with h
  · obtain ⟨rfl, rfl⟩ := h
    refine Set.Subset.antisymm (fun e he => ?_) (Set.insert_subset ?_ hsub)
    · rcases hback e he with he | ⟨rfl, -⟩
      · exact Set.mem_insert_of_mem _ he
      · exact Set.mem_insert _ _
    · exact .inr ⟨_, r', published_commit_one.mpr (.inr ⟨rfl, rfl, rfl⟩), rfl, .inl rfl⟩
  · exact Set.Subset.antisymm (fun e he => (hback e he).resolve_right fun hd => h hd.2) hsub

theorem inv_commit_one {c₀ : Collection J} {s : Regions ι J} (hs : Inv rank c₀ s) {r : ι}
    {d : Document J} (hreg : d.REGION = some (rank r))
    (hlt : ∀ b, s.collections r d.id = some b → b.VERSION < d.VERSION) :
    Inv rank c₀ (s.commit r ((s.collections r).put d) [d]) := by
  -- what the region has seen of the id precedes what it holds of it, and so the new record
  have hnew : ∀ e ∈ seen c₀ s r d.id, e.VERSION < d.VERSION := by
    intro e he
    have hh := hs.holds r d.id
    cases hc : s.collections r d.id with
    | none =>
      rw [hc] at hh
      exact absurd he (by rw [show seen c₀ s r d.id = ∅ from hh]; exact Set.notMem_empty e)
    | some b =>
      rw [hc] at hh
      exact (VERSION_le_of_key_le (hh.le he)).trans_lt (hlt b hc)
  refine ⟨?_, ?_, ?_, ?_, ?_⟩
  · intro n o e h
    rcases published_commit_one.mp h with h | ⟨-, rfl, rfl⟩
    · exact hs.region n o e h
    · exact hreg
  · intro n o e h b hb
    rcases published_commit_one.mp h with h | ⟨-, rfl, rfl⟩
    · exact hs.later n o e h b hb
    · exact hnew b (.inl hb)
  · intro n n' o e e' h h' hid hv
    have hold : ∀ k f, s.Published k r f → f.id = d.id → f.VERSION < d.VERSION :=
      fun k f hk hf => hnew f (.inr ⟨k, r, hk, hf, .inl rfl⟩)
    rcases published_commit_one.mp h with hn | ⟨-, ho, he⟩ <;>
      rcases published_commit_one.mp h' with hn' | ⟨-, ho', he'⟩
    · exact hs.own n n' o e e' hn hn' hid hv
    · subst ho' he'
      exact absurd hv (hold n e hn hid).ne
    · subst ho he
      exact absurd hv.symm (hold n' e' hn' hid.symm).ne
    · exact he.trans he'.symm
  · intro r' n h
    exact (hs.bounded r' n h).trans (by simp [Regions.commit])
  · intro r' id
    rw [seen_commit_one hs.bounded]
    by_cases hr : r' = r
    · subst hr
      simp only [Regions.commit, Function.update_self, true_and]
      split_ifs with hid
      · subst hid
        rw [Collection.put_self]
        exact (hs.holds r' d.id).replace fun b hb => key_lt_of_VERSION_lt (hlt b hb)
      · rw [Collection.put_of_ne _ hid]
        exact hs.holds r' id
    · simp only [Regions.commit, Function.update_of_ne hr, hr, false_and, if_false]
      exact hs.holds r' id

theorem commit_cons (s : Regions ι J) (r : ι) (c c' : Collection J) (d : Document J)
    (ds : List (Document J)) :
    s.commit r c' (d :: ds) = (s.commit r c [d]).commit r c' ds := by
  simp only [Regions.commit, Function.update_idem, List.map_cons, List.map_nil, List.append_assoc,
    List.cons_append, List.nil_append]

theorem inv_commit {c₀ : Collection J} {r : ι} {ds : List (Document J)}
    (hreg : ∀ d ∈ ds, d.REGION = some (rank r)) {s : Regions ι J} (hs : Inv rank c₀ s)
    (hasc : Ascending (s.collections r) ds) :
    Inv rank c₀ (s.commit r (ds.foldl Collection.put (s.collections r)) ds) := by
  induction ds generalizing s with
  | nil =>
    have hnil : s.commit r (s.collections r) [] = s := by
      simp only [Regions.commit, Function.update_eq_self, List.map_nil, List.append_nil]
    rwa [List.foldl_nil, hnil]
  | cons d ds ih =>
    have hone := inv_commit_one hs (hreg d (List.mem_cons_self ..)) hasc.1
    rw [List.foldl_cons, commit_cons s r ((s.collections r).put d)]
    have hself : (s.commit r ((s.collections r).put d) [d]).collections r =
        (s.collections r).put d := Function.update_self _ _ _
    have hrest := ih (fun e he => hreg e (List.mem_cons_of_mem _ he)) hone (hself.symm ▸ hasc.2)
    rwa [hself] at hrest

/-! ## One delivery -/

theorem inv_deliver {c₀ : Collection J} {s : Regions ι J} (hs : Inv rank c₀ s) {r o : ι} {n : ℕ}
    {d : Document J} (hn : s.Published n o d) : Inv rank c₀ (s.deliver r n d) := by
  refine ⟨hs.region, hs.later, hs.own, ?_, ?_⟩
  · intro r' k h
    rcases List.mem_cons.mp h with h | h
    · obtain ⟨-, rfl⟩ := Prod.mk.inj h
      exact (List.getElem?_eq_some_iff.mp hn).1
    · exact hs.bounded r' k h
  · intro r' id
    have hseen : seen c₀ (s.deliver r n d) r' id =
        if r' = r ∧ id = d.id then insert d (seen c₀ s r' id) else seen c₀ s r' id := by
      ext e
      split_ifs with h
      · obtain ⟨rfl, rfl⟩ := h
        constructor
        · rintro (he | ⟨k, o', hk, hid, rfl | hd⟩)
          · exact .inr (.inl he)
          · exact .inr (.inr ⟨k, o', hk, hid, .inl rfl⟩)
          · rcases List.mem_cons.mp hd with hd | hd
            · obtain ⟨-, rfl⟩ := Prod.mk.inj hd
              exact .inl (Prod.mk.inj (Option.some.inj (hk.symm.trans hn))).2
            · exact .inr (.inr ⟨k, o', hk, hid, .inr hd⟩)
        · rintro (rfl | he | ⟨k, o', hk, hid, hd⟩)
          · exact .inr ⟨n, o, hn, rfl, .inr (List.mem_cons_self ..)⟩
          · exact .inl he
          · exact .inr ⟨k, o', hk, hid, hd.imp_right (List.mem_cons_of_mem _)⟩
      · constructor
        · rintro (he | ⟨k, o', hk, hid, rfl | hd⟩)
          · exact .inl he
          · exact .inr ⟨k, o', hk, hid, .inl rfl⟩
          · rcases List.mem_cons.mp hd with hd | hd
            · obtain ⟨rfl, rfl⟩ := Prod.mk.inj hd
              obtain rfl := (Prod.mk.inj (Option.some.inj (hk.symm.trans hn))).2
              exact absurd ⟨rfl, hid.symm⟩ h
            · exact .inr ⟨k, o', hk, hid, .inr hd⟩
        · rintro (he | ⟨k, o', hk, hid, hd⟩)
          · exact .inl he
          · exact .inr ⟨k, o', hk, hid, hd.imp_right (List.mem_cons_of_mem _)⟩
    rw [hseen]
    by_cases hr : r' = r
    · subst hr
      simp only [Regions.deliver, Function.update_self, converge_find (hs.region n o d hn), true_and]
      split_ifs with hid
      · subst hid
        exact (hs.holds r' d.id).merge d
      · exact hs.holds r' id
    · simp only [Regions.deliver, Function.update_of_ne hr, hr, false_and, if_false]
      exact hs.holds r' id

/-! ## A run -/

theorem inv_step {c₀ : Collection J} {s t : Regions ι J} {a : Act ι J} (hs : Inv rank c₀ s)
    (hok : Regional rank s a) (h : step codec declaration rank s a = some t) :
    Inv rank c₀ t := by
  cases a with
  | store r e value now =>
    simp only [step] at h
    split at h
    · exact nomatch h
    · rename_i m hm
      obtain ⟨c, hc, rfl⟩ := Option.map_eq_some_iff.mp h
      obtain ⟨rfl, hasc⟩ := store_ascending hc
      refine inv_commit (fun d hd => ?_) hs hasc
      rw [List.mem_singleton.mp hd]
      exact Entity.set_REGION hm
  | massStore r values now =>
    simp only [step] at h
    split at h
    · exact nomatch h
    · rename_i ms hms
      obtain ⟨⟨c, ds⟩, hc, rfl⟩ := Option.map_eq_some_iff.mp h
      have hreg : ∀ m ∈ ms, m.state.REGION = some (rank r) := by
        intro m hm
        obtain ⟨p, -, hp⟩ := Fallible.exists_of_mapM_ok hms m hm
        exact Entity.set_REGION hp
      obtain ⟨rfl, hasc, hall⟩ := massStore_ascending hreg hc
      exact inv_commit hall hs hasc
  | upsert r query found changeset now =>
    simp only [step] at h
    split at h
    · exact nomatch h
    · rename_i c images hc
      obtain ⟨stored, d, hstored, rfl, rfl, hv, hreg⟩ := upsert_spec hc
      rw [Collection.put_self] at h
      obtain rfl := Option.some.inj h
      refine inv_commit_one hs (hreg.trans (hok stored hstored)) fun b hb => ?_
      obtain rfl := Option.some.inj (hstored.symm.trans hb)
      omega
  | deliver r n =>
    simp only [step] at h
    split at h
    · exact nomatch h
    · rename_i o d hn
      split_ifs at h
      obtain rfl := Option.some.inj h
      exact inv_deliver hs hn

theorem Inv.key_injOn {c₀ : Collection J} {s : Regions ι J} (hs : Inv rank c₀ s)
    (hrank : Function.Injective rank) (r : ι) (id : String) : Set.InjOn key (seen c₀ s r id) := by
  rintro d (hd | ⟨n, o, hn, hid, -⟩) e (he | ⟨n', o', hn', hid', -⟩) hkey
  · exact Option.some.inj (hd.symm.trans he)
  · subst hid'
    exact absurd (key_eq_iff.mp hkey).1 (hs.later n' o' e hn' d hd).ne
  · subst hid
    exact absurd (key_eq_iff.mp hkey).1.symm (hs.later n o d hn e he).ne
  · obtain ⟨hv, hr⟩ := key_eq_iff.mp hkey
    rw [hs.region n o d hn, hs.region n' o' e hn', Option.getD_some, Option.getD_some] at hr
    obtain rfl := hrank hr
    exact hs.own n n' o d e hn hn' (hid.trans hid'.symm) hv

theorem seen_of_drained {c₀ : Collection J} {s : Regions ι J} (h : s.Drained) (r : ι)
    (id : String) :
    seen c₀ s r id = { d | c₀ id = some d ∨ ∃ n o, s.Published n o d ∧ d.id = id } := by
  ext d
  refine or_congr Iff.rfl ⟨?_, ?_⟩
  · rintro ⟨n, o, hn, hid, -⟩
    exact ⟨n, o, hn, hid⟩
  · rintro ⟨n, o, hn, hid⟩
    refine ⟨n, o, hn, hid, ?_⟩
    by_cases hr : o = r
    · exact .inl hr
    · exact .inr (h n o d hn r (Ne.symm hr))

/-- Regions that started from one collection, wrote as they did and were delivered each other's
records in whatever order, hold one document under every id once nothing is left to deliver. -/
theorem regions_converge (hrank : Function.Injective rank) {c₀ : Collection J}
    {acts : List (Act ι J)} {s : Regions ι J}
    (hok : Along (step codec declaration rank) (Regional rank) (Regions.init c₀) acts)
    (hrun : run (step codec declaration rank) (Regions.init c₀) acts = some s)
    (hdrained : s.Drained) (r r' : ι) (id : String) :
    s.collections r id = s.collections r' id := by
  have hs : Inv rank c₀ s :=
    run_invariant (fun s a t hI ha h => inv_step hI ha h) (inv_init rank c₀) hok hrun
  have hr := hs.holds r id
  have hr' := hs.holds r' id
  rw [seen_of_drained hdrained] at hr hr'
  refine hr.unique ?_ hr'
  rw [← seen_of_drained hdrained r]
  exact hs.key_injOn hrank r id

/-! ## Two regions -/

/-- The first region has rank `0`, the second `1`. -/
def ranks : Bool → ℕ := Bool.toNat

theorem ranks_injective : Function.Injective ranks := by
  intro a b h
  cases a <;> cases b <;> first | rfl | exact nomatch h

def assigning (p : ℤ) : Changeset ℤ where
  id := none
  VERSION := none
  CREATED := none
  UPDATED := none
  DELETED := none
  REGION := none
  properties := fun name => if name = "p" then some (.json p) else none

def everything : Query ℤ := ⟨none, fun _ => true⟩

def following : List (Act Bool ℤ) :=
  [.store false (.init 0 0 (note 0).properties "k") (note 1) 1, .deliver true 0,
    .upsert false everything "k" (assigning 2) 2, .deliver true 1]

theorem regions_converge_following :
    ∃ s, run (step .plain (.any ℤ) ranks) (Regions.init .empty) following = some s ∧ s.Drained ∧
      s.collections false "k" = s.collections true "k" := by
  have hregional : Along (step .plain (.any ℤ) ranks) (Regional ranks) (Regions.init .empty)
      following := by
    refine ⟨trivial, fun t ht => ⟨trivial, fun u hu => ⟨fun stored hstored => ?_, fun _ _ =>
      ⟨trivial, fun _ _ => trivial⟩⟩⟩⟩
    obtain rfl := Option.some.inj ht
    obtain rfl := Option.some.inj hu
    obtain rfl := Option.some.inj hstored
    rfl
  refine ⟨_, rfl, ?drained, regions_converge ranks_injective hregional rfl ?drained false true "k"⟩
  intro n o d hn r hr
  rcases n with _ | _ | n
  · obtain ⟨rfl, rfl⟩ := Prod.mk.inj (Option.some.inj hn)
    cases r
    · exact absurd rfl hr
    · decide
  · obtain ⟨rfl, rfl⟩ := Prod.mk.inj (Option.some.inj hn)
    cases r
    · exact absurd rfl hr
    · decide
  · exact nomatch hn

def crossing : List (Act Bool ℤ) :=
  [.store false (.init 0 0 (note 0).properties "k") (note 1) 1, .deliver true 0,
    .upsert false everything "k" (assigning 2) 2, .upsert true everything "k" (assigning 3) 2,
    .deliver true 1, .deliver false 2]

theorem crossing_diverges :
    ∃ s, run (step .plain (.any ℤ) ranks) (Regions.init .empty) crossing = some s ∧ s.Drained ∧
      s.collections false "k" ≠ s.collections true "k" := by
  refine ⟨_, rfl, ?_, ?_⟩
  · intro n o d hn r hr
    rcases n with _ | _ | _ | n
    · obtain ⟨rfl, rfl⟩ := Prod.mk.inj (Option.some.inj hn)
      cases r
      · exact absurd rfl hr
      · decide
    · obtain ⟨rfl, rfl⟩ := Prod.mk.inj (Option.some.inj hn)
      cases r
      · exact absurd rfl hr
      · decide
    · obtain ⟨rfl, rfl⟩ := Prod.mk.inj (Option.some.inj hn)
      cases r
      · decide
      · exact absurd rfl hr
    · exact nomatch hn
  · intro h
    exact absurd (congrArg (Option.map fun d => d.properties "p") h) (by decide)

end Toa.Convergence
