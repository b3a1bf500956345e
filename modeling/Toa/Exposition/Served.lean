import Mathlib.Algebra.Order.BigOperators.Group.List
import Toa.MCP.Tools
import Toa.RTD.Templates

/-! What the tree says of itself, and what it serves: the page and the tools on one side, and what a path of
each template is routed to on the other. -/

namespace Toa.Exposition.Served
open RTD
open Discovery (Directives Says describe listed)
open MCP (Lists Named)

section
variable {κ μ σ : Type*}

/-- A tree as it is created: the segments of its routes are parsed of what a path is split into, and each of
its methods is an object of its own, and the one a node has under its verb. -/
structure Built (trunk : Node μ) : Prop where
  parsed : ∀ place ∈ trunk.places [], ∀ segment ∈ place.segments,
    ∃ text : String, '/' ∉ text.toList ∧ parse text = segment
  verbs : ∀ place ∈ trunk.places [], (place.node.properties.methods.map Prod.fst).Nodup
  distinct : (((trunk.places []).flatMap Place.mounts).map (·.method)).Nodup

def templates (trunk : Node μ) : List (List Segment) := (trunk.places []).map (·.segments)

variable (directives : Directives κ μ σ) (decodeURIComponent : String → Option String)
variable (derived : Node μ → Bool) (now : ℤ) (trunk : Node μ) (asked : List Segment)

/-- Of a template, the page says to a caller what a path of it is routed to says, where the caller is admitted
to it. A tool of the template is called where what the call is routed to is published and described, and it is
listed once to a caller who is admitted to that, and not otherwise. -/
structure Told : Prop where
  page : ∀ caller fragments, Fits trunk.literals asked fragments → ∀ verb method,
    listed (describe directives caller now trunk) (template asked) verb = some method ↔
      reached now decodeURIComponent trunk (RPC.path fragments) verb = some method ∧
        directives.admits caller method = true ∧ directives.describe method = true
  call : ∀ verb ∈ RPC.verbs, ∀ named, RPC.name asked verb = some named →
    ∀ params, RPC.Given params (· ∉ trunk.literals) asked → ∀ address, RPC.address named params = .ok address →
      ((∃ routed, MCP.call directives derived now decodeURIComponent trunk named params = .ok routed) ↔
        ∃ method, reached now decodeURIComponent trunk address.path address.verb = some method ∧
          directives.published method = true ∧ directives.describe method = true)
  list : ∀ verb ∈ RPC.verbs, ∀ named, RPC.name asked verb = some named →
    ∀ params, RPC.Given params (· ∉ trunk.literals) asked → ∀ address, RPC.address named params = .ok address →
      ∀ caller, ((MCP.list directives derived now caller trunk).filter fun tool => tool.name = named).map
          (·.method) =
        ((reached now decodeURIComponent trunk address.path address.verb).filter fun method =>
          directives.published method && directives.describe method && directives.admits caller method).toList

/-- Of the nodes that have not expired, the first to take the template is declared at it, unless it has no methods, and
no other declares a method under the template's text, nor, since the tools were derived, under the name of a tool of
the template. What had the name of a tool of its own first then has not expired. -/
structure Single : Prop where
  first : ∀ place ∈ taker now trunk asked, place.node.properties.methods ≠ [] → place.segments = asked
  alone : ∀ mount ∈ trunk.walk (·.expired now) [] true, template mount.segments = template asked →
    taker now trunk asked = some mount.place
  named : ∀ verb ∈ RPC.verbs, ∀ named, RPC.name asked verb = some named →
    ∀ mount ∈ trunk.walk derived [] true, Named named mount = true → mount.node.expired now = false →
      taker now trunk asked = some mount.place
  kept : ∀ place ∈ taker now trunk asked, ∀ entry ∈ place.node.properties.methods, entry.1 ∈ RPC.verbs →
    ∀ named, RPC.name asked entry.1 = some named →
      ∃ mount, (trunk.walk derived [] true).find? (Named named) = some mount ∧ mount.node.expired now = false

/-- No method that is served of the template is published and hidden. -/
def Open : Prop :=
  ∀ verb ∈ RPC.verbs, ∀ named, RPC.name asked verb = some named → ∀ method ∈ served now trunk asked verb,
    directives.published method = true → directives.describe method = true

/-- The same of what the directives of the methods say. What takes the template first is declared at it, where it
shows a caller anything, and shows them each verb that is shown of the template. The first under a tool's name publishes
its method where what takes the template first does, and describes it. Nothing else is listed under the name, and that
is. -/
structure Clear : Prop where
  own : ∀ caller, ∀ place ∈ taker now trunk asked, ∀ verb method,
    place.node.properties.methods.lookup verb = some method → directives.explain caller method = true →
      place.segments = asked
  shown : ∀ caller verb mount,
    (trunk.walk (·.expired now) [] true).find? (Says directives caller (template asked) verb) = some mount →
      mount.segments = asked ∧
        ∃ method, served now trunk asked verb = some method ∧ directives.explain caller method = true
  named : ∀ verb ∈ RPC.verbs, ∀ named, RPC.name asked verb = some named →
    (((trunk.walk derived [] true).find? (Named named)).any fun mount =>
      directives.published mount.method && !mount.node.expired now) =
        (served now trunk asked verb).any fun method =>
          directives.published method && directives.describe method
  lists : ∀ verb ∈ RPC.verbs, ∀ named, RPC.name asked verb = some named →
    ∀ caller, ∀ mount ∈ trunk.walk derived [] true, Lists directives now caller named mount = true →
      served now trunk asked verb = some mount.method
  listed : ∀ verb ∈ RPC.verbs, ∀ named, RPC.name asked verb = some named →
    ∀ caller, ∀ method ∈ served now trunk asked verb,
      directives.published method = true → directives.describe method = true →
        directives.admits caller method = true →
          ∃ mount ∈ trunk.walk derived [] true, Lists directives now caller named mount = true ∧
            mount.method = method

/-! ## Templates -/

theorem Built.reads {trunk : Node μ} (h : Built trunk) {place : Place μ} (hplace : place ∈ trunk.places []) :
    Parsed place.segments := by
  intro segment hsegment
  obtain ⟨text, hfree, rfl⟩ := h.parsed place hplace segment hsegment
  rw [declared_parse]
  exact ⟨hfree, rfl⟩

/-! ## Values that are no literals -/

theorem exists_fresh (literals : List String) :
    ∃ text : String, text ∉ literals ∧ '/' ∉ text.toList ∧ RPC.single text = true := by
  let text := String.ofList (List.replicate ((literals.map String.length).sum + 1) 'v')
  have hall : ∀ c ∈ text.toList, c = 'v' := by
    rw [String.toList_ofList]
    exact fun c hc => List.eq_of_mem_replicate hc
  refine ⟨text, fun hmem => ?_, fun hslash => absurd (hall _ hslash) (by decide), ?_⟩
  · have hle : text.length ≤ (literals.map String.length).sum :=
      List.single_le_sum (fun _ _ => Nat.zero_le _) _ (List.mem_map_of_mem hmem)
    rw [← String.length_toList, String.toList_ofList, List.length_replicate] at hle
    omega
  · refine List.all_eq_true.mpr fun c hc => ?_
    rw [hall c hc]
    decide

/-- Neither `*` nor `**` is in a template. -/
structure Simple (asked : List Segment) : Prop where
  star : .star ∉ asked
  wildcard : .wildcard ∉ asked

theorem Simple.plain {asked : List Segment} (h : Simple asked) (hparsed : Parsed asked) :
    ∀ segment ∈ asked, RPC.Plain segment := by
  intro segment hsegment
  cases segment with
  | fragment s => exact (hparsed _ hsegment).1
  | placeholder name => trivial
  | star => exact absurd hsegment h.star
  | wildcard => exact absurd hsegment h.wildcard

theorem exists_fits {asked : List Segment} (hplain : ∀ segment ∈ asked, RPC.Plain segment)
    (literals : List String) : ∃ fragments, Fits literals asked fragments := by
  obtain ⟨text, hfresh, hfree, -⟩ := exists_fresh literals
  induction asked with
  | nil => exact ⟨[], .nil⟩
  | cons segment asked ih =>
    obtain ⟨fragments, hfits⟩ := ih fun other hother => hplain other (List.mem_cons_of_mem _ hother)
    have hhere := hplain segment (List.mem_cons_self ..)
    cases segment with
    | fragment s => exact ⟨s :: fragments, .cons ⟨rfl, hhere⟩ hfits⟩
    | placeholder name => exact ⟨text :: fragments, .cons ⟨hfresh, hfree⟩ hfits⟩
    | star | wildcard => exact hhere.elim

/-! ## Mounts of a tree -/

variable {trunk : Node μ} {now : ℤ} {asked : List Segment}

theorem taker_places {place : Place μ} (h : taker now trunk asked = some place) : place ∈ trunk.places [] := by
  rw [taker] at h
  split at h
  · obtain rfl := Option.some.inj h
    rw [Node.places_eq]
    exact List.mem_cons_self ..
  · exact Node.takers_places (List.mem_of_mem_head? h)

theorem mem_mounts {place : Place μ} {verb : String} {method : μ}
    (h : place.node.properties.methods.lookup verb = some method) :
    ⟨place.segments, verb, method, place.node⟩ ∈ place.mounts := by
  obtain ⟨before, after, hmethods, -⟩ := List.lookup_eq_some_iff.mp h
  have hmem : (verb, method) ∈ place.node.properties.methods := by
    rw [hmethods]
    exact List.mem_append_right _ (List.mem_cons_self ..)
  exact List.mem_map.mpr ⟨_, hmem, rfl⟩

theorem Built.unique (h : Built trunk) {mount mount' : Mount μ}
    (hmount : mount ∈ (trunk.places []).flatMap Place.mounts)
    (hmount' : mount' ∈ (trunk.places []).flatMap Place.mounts) (heq : mount.method = mount'.method) :
    mount = mount' :=
  List.inj_on_of_nodup_map h.distinct hmount hmount' heq

theorem mem_places_of_walk {expired : Node μ → Bool} {mount : Mount μ}
    (h : mount ∈ trunk.walk expired [] true) : mount ∈ (trunk.places []).flatMap Place.mounts :=
  (Node.walk_sublist true).subset h

theorem walk_own {place : Place μ} (h : taker now trunk asked = some place) (hown : place.segments = asked)
    (hwildcard : .wildcard ∉ asked) :
    ∃ rest, (trunk.walk (·.expired now) [] true).filter (At asked) = place.mounts ++ rest := by
  rw [Node.walk_eq, if_pos (.inl rfl), List.filter_append]
  rw [taker] at h
  split at h
  · rename_i hasked
    subst hasked
    obtain rfl := Option.some.inj h
    exact ⟨_, congrArg (· ++ _) filter_mounts⟩
  · rename_i hasked
    obtain ⟨others, hothers⟩ := List.head?_eq_some_iff.mp h
    rw [filter_mounts_eq_nil (Ne.symm hasked), List.nil_append]
    have htaken := Node.walk_taken hothers hown hwildcard
    exact htaken

theorem find_mounts {place : Place μ} {verb : String} {method : μ} {p : Mount μ → Bool}
    (h : place.node.properties.methods.lookup verb = some method)
    (hverb : ∀ mount : Mount μ, p mount = true → mount.verb = verb)
    (hp : p ⟨place.segments, verb, method, place.node⟩ = true) :
    place.mounts.find? p = some ⟨place.segments, verb, method, place.node⟩ := by
  obtain ⟨before, after, hmethods, hbefore⟩ := List.lookup_eq_some_iff.mp h
  rw [Place.mounts, Node.mounts, hmethods, List.map_append, List.map_cons, List.find?_append]
  have hnone : (before.map fun entry => (⟨place.segments, entry.1, entry.2, place.node⟩ : Mount μ)).find? p =
      none := by
    refine List.find?_eq_none.mpr fun mount hmount htold => ?_
    obtain ⟨entry, hentry, rfl⟩ := List.mem_map.mp hmount
    exact bne_iff_ne.mp (hbefore entry hentry) (hverb _ htold).symm
  rw [hnone, Option.none_or]
  exact List.find?_cons_of_pos hp

theorem find_filter {α : Type*} {l : List α} {p q : α → Bool} {a : α} (h : l.find? q = some a)
    (hp : p a = true) : (l.filter p).find? q = some a := by
  obtain ⟨hq, before, after, rfl, hbefore⟩ := List.find?_eq_some_iff_append.mp h
  refine List.find?_eq_some_iff_append.mpr ⟨hq, before.filter p, after.filter p, ?_, fun b hb => ?_⟩
  · rw [List.filter_append, List.filter_cons_of_pos hp]
  · exact hbefore b (List.mem_filter.mp hb).1

/-! ## The page -/

variable {directives : Directives κ μ σ} {decodeURIComponent : String → Option String}
  {derived : Node μ → Bool}

theorem explain_iff {caller : κ} {method : μ} : directives.explain caller method = true ↔
    directives.admits caller method = true ∧ directives.describe method = true := Bool.and_eq_true_iff

theorem says_iff {caller : κ} {route verb : String} {mount : Mount μ} :
    Says directives caller route verb mount = true ↔
      directives.explain caller mount.method = true ∧ template mount.segments = route ∧ mount.verb = verb := by
  simp only [Says, Bool.and_eq_true, decide_eq_true_eq, and_assoc]

theorem Clear.first (h : Clear directives derived now trunk asked) (hsimple : Simple asked) {caller : κ}
    {verb : String} {mount : Mount μ}
    (hmount : (trunk.walk (·.expired now) [] true).find? (Says directives caller (template asked) verb) =
      some mount) :
    served now trunk asked verb = some mount.method ∧ directives.explain caller mount.method = true := by
  obtain ⟨hat, method, hserved, hexplain⟩ := h.shown caller verb mount hmount
  obtain ⟨place, hplace, hlookup⟩ := Option.bind_eq_some_iff.mp hserved
  have hown : place.segments = asked := h.own caller place hplace verb method hlookup hexplain
  obtain ⟨rest, hrest⟩ := walk_own hplace hown hsimple.wildcard
  have hat' : At asked mount = true := decide_eq_true hat
  have hfirst := find_filter hmount hat'
  have hhere : place.mounts.find? (Says directives caller (template asked) verb) =
      some ⟨place.segments, verb, method, place.node⟩ :=
    find_mounts hlookup (fun _ htold => (says_iff.mp htold).2.2)
      (says_iff.mpr ⟨hexplain, congrArg template hown, rfl⟩)
  rw [hrest, List.find?_append, hhere, Option.some_or] at hfirst
  obtain rfl := Option.some.inj hfirst
  exact ⟨hserved, hexplain⟩

theorem Clear.page (h : Clear directives derived now trunk asked) (hsimple : Simple asked) {caller : κ}
    {fragments : List String} (hfits : Fits trunk.literals asked fragments) (verb : String) (method : μ) :
    Discovery.listed (describe directives caller now trunk) (template asked) verb = some method ↔
      reached now decodeURIComponent trunk (RPC.path fragments) verb = some method ∧
        directives.admits caller method = true ∧ directives.describe method = true := by
  rw [Discovery.listed_describe, RPC.reached_path hfits, ← explain_iff]
  constructor
  · intro hlisted
    obtain ⟨mount, hmount, rfl⟩ := Option.map_eq_some_iff.mp hlisted
    exact h.first hsimple hmount
  · rintro ⟨hserved, hexplain⟩
    obtain ⟨place, hplace, hlookup⟩ := Option.bind_eq_some_iff.mp hserved
    have hown : place.segments = asked := h.own caller place hplace verb method hlookup hexplain
    obtain ⟨rest, hrest⟩ := walk_own hplace hown hsimple.wildcard
    have hwalked : ⟨place.segments, verb, method, place.node⟩ ∈
        (trunk.walk (·.expired now) [] true).filter (At asked) := by
      rw [hrest]
      exact List.mem_append_left _ (mem_mounts hlookup)
    cases hfind : (trunk.walk (·.expired now) [] true).find? (Says directives caller (template asked) verb) with
    | none =>
      refine absurd ?_ (List.find?_eq_none.mp hfind _ (List.mem_filter.mp hwalked).1)
      exact says_iff.mpr ⟨hexplain, congrArg template hown, rfl⟩
    | some mount =>
      have hfirst := (h.first hsimple hfind).1
      exact congrArg some (Option.some.inj (hfirst.symm.trans hserved))

theorem Built.own (hbuilt : Built trunk) (hasked : Parsed asked) {place : Place μ}
    (hplace : taker now trunk asked = some place) (hread : template place.segments = template asked) :
    place.segments = asked := by
  rcases (hbuilt.reads (taker_places hplace)).inj hasked hread with heq | ⟨hnil, hempty⟩ | ⟨hempty, hnil⟩
  · exact heq
  · -- the trunk takes nothing but its own path
    rw [taker, hempty, if_neg (List.cons_ne_nil _ _)] at hplace
    rcases Node.takers_length (List.mem_of_mem_head? hplace) with hlength | hwildcard
    · rw [hnil] at hlength
      exact absurd hlength (by decide)
    · rw [hnil] at hwildcard
      cases hwildcard
  · rw [taker, if_pos hnil] at hplace
    rw [← Option.some.inj hplace, hnil]

theorem Told.own (h : Told directives decodeURIComponent derived now trunk asked) (hbuilt : Built trunk)
    (hparsed : Parsed asked) (hsimple : Simple asked) {caller : κ} {place : Place μ}
    (hplace : taker now trunk asked = some place) {verb : String} {method : μ}
    (hlookup : place.node.properties.methods.lookup verb = some method)
    (hexplain : directives.explain caller method = true) : place.segments = asked := by
  obtain ⟨fragments, hfits⟩ := exists_fits (hsimple.plain hparsed) trunk.literals
  have hserved : served now trunk asked verb = some method := Option.bind_eq_some_iff.mpr ⟨place, hplace, hlookup⟩
  have hlisted := (h.page caller fragments hfits verb method).mpr
    ⟨(RPC.reached_path hfits verb).trans hserved, explain_iff.mp hexplain⟩
  rw [Discovery.listed_describe] at hlisted
  obtain ⟨mount, hmount, hmethod⟩ := Option.map_eq_some_iff.mp hlisted
  have hthere := List.mem_flatMap.mpr ⟨place, taker_places hplace, mem_mounts hlookup⟩
  have heq := hbuilt.unique (mem_places_of_walk (List.mem_of_find?_eq_some hmount)) hthere hmethod
  refine hbuilt.own hparsed hplace ?_
  rw [← (says_iff.mp (List.find?_some hmount)).2.1, heq]

theorem Told.shown (h : Told directives decodeURIComponent derived now trunk asked) (hbuilt : Built trunk)
    (hparsed : Parsed asked) (hsimple : Simple asked) {caller : κ} {verb : String} {mount : Mount μ}
    (hmount : (trunk.walk (·.expired now) [] true).find? (Says directives caller (template asked) verb) =
      some mount) :
    mount.segments = asked ∧
      ∃ method, served now trunk asked verb = some method ∧ directives.explain caller method = true := by
  obtain ⟨fragments, hfits⟩ := exists_fits (hsimple.plain hparsed) trunk.literals
  have hlisted : listed (describe directives caller now trunk) (template asked) verb = some mount.method := by
    rw [Discovery.listed_describe, hmount]
    rfl
  obtain ⟨hreached, htold⟩ := (h.page caller fragments hfits verb mount.method).mp hlisted
  rw [RPC.reached_path hfits] at hreached
  have hexplain := explain_iff.mpr htold
  obtain ⟨place, hplace, hlookup⟩ := Option.bind_eq_some_iff.mp hreached
  have hthere := List.mem_flatMap.mpr ⟨place, taker_places hplace, mem_mounts hlookup⟩
  have heq := hbuilt.unique (mem_places_of_walk (List.mem_of_find?_eq_some hmount)) hthere rfl
  refine ⟨?_, mount.method, hreached, hexplain⟩
  rw [heq]
  exact h.own hbuilt hparsed hsimple hplace hlookup hexplain

/-! ## The tools -/

theorem reached_address {verb named : String} (hverb : verb ∈ RPC.verbs)
    (hname : RPC.name asked verb = some named) (hplain : ∀ segment ∈ asked, RPC.Plain segment) {params : String → Option String}
    (hgiven : RPC.Given params (· ∉ trunk.literals) asked) {address : RPC.Address}
    (haddress : RPC.address named params = .ok address) :
    reached now decodeURIComponent trunk address.path address.verb = served now trunk asked verb := by
  obtain ⟨fragments, keys, hmade, hfits⟩ := RPC.address_name hname hverb hplain hgiven
  obtain rfl := Except.ok.inj (haddress.symm.trans hmade)
  exact RPC.reached_path hfits verb

theorem exists_address (trunk : Node μ) {verb named : String} (hverb : verb ∈ RPC.verbs)
    (hname : RPC.name asked verb = some named) (hplain : ∀ segment ∈ asked, RPC.Plain segment) :
    ∃ params address, RPC.Given params (· ∉ trunk.literals) asked ∧ RPC.address named params = .ok address := by
  obtain ⟨text, hfresh, -, hsingle⟩ := exists_fresh trunk.literals
  have hgiven : RPC.Given (fun _ => some text) (· ∉ trunk.literals) asked :=
    fun _ _ => ⟨text, rfl, hsingle, hfresh⟩
  obtain ⟨fragments, keys, hmade, -⟩ := RPC.address_name hname hverb hplain hgiven
  exact ⟨_, _, hgiven, hmade⟩

theorem mem_lists_iff {caller : κ} {named : String} {method : μ} :
    method ∈ ((MCP.list directives derived now caller trunk).filter fun tool => tool.name = named).map (·.method) ↔
      ∃ mount ∈ trunk.walk derived [] true, Lists directives now caller named mount = true ∧
        mount.method = method := by
  rw [(MCP.perm_list caller trunk named).mem_iff]
  simp only [List.mem_map, List.mem_filter, and_assoc]

theorem Built.nodup (hbuilt : Built trunk) (caller : κ) (named : String) :
    (((MCP.list directives derived now caller trunk).filter fun tool => tool.name = named).map (·.method)).Nodup := by
  refine (MCP.perm_list caller trunk named).nodup_iff.mpr (hbuilt.distinct.sublist ?_)
  exact (List.filter_sublist.trans (Node.walk_sublist true)).map _

theorem eq_singleton {α : Type*} {l : List α} {a : α} (hl : l.Nodup) (h : ∀ b ∈ l, b = a) (ha : a ∈ l) :
    l = [a] := by
  have hsub : l ⊆ [a] := fun b hb => List.mem_singleton.mpr (h b hb)
  have hperm : l.Perm [a] := (List.perm_ext_iff_of_nodup hl (List.nodup_singleton a)).mpr fun b =>
    ⟨fun hb => hsub hb, fun hb => List.mem_singleton.mp hb ▸ ha⟩
  exact List.perm_singleton.mp hperm

/-! ## Telling and serving -/

theorem serves_iff {verb named : String}
    (h : (((trunk.walk derived [] true).find? (Named named)).any fun mount =>
      directives.published mount.method && !mount.node.expired now) =
        (served now trunk asked verb).any fun method =>
          directives.published method && directives.describe method) :
    MCP.serves directives derived now trunk named = true ↔ ∃ method, served now trunk asked verb = some method ∧
      directives.published method = true ∧ directives.describe method = true := by
  rw [MCP.serves_eq, h]
  simp only [Option.any_eq_true, Bool.and_eq_true]

theorem Told.clear (h : Told directives decodeURIComponent derived now trunk asked) (hbuilt : Built trunk)
    (hparsed : Parsed asked) (hsimple : Simple asked) : Clear directives derived now trunk asked := by
  have hplain := hsimple.plain hparsed
  constructor
  case own => exact fun caller place hplace verb method => h.own hbuilt hparsed hsimple hplace
  case shown => exact fun caller verb mount => h.shown hbuilt hparsed hsimple
  case named =>
    intro verb hverb named hname
    obtain ⟨params, address, hgiven, haddress⟩ := exists_address trunk hverb hname hplain
    have hcall := h.call verb hverb named hname params hgiven address haddress
    rw [MCP.call_of_serves haddress, MCP.serves_eq, reached_address hverb hname hplain hgiven haddress] at hcall
    refine Bool.eq_iff_iff.mpr (hcall.trans ?_)
    simp only [Option.any_eq_true, Bool.and_eq_true]
  case lists =>
    intro verb hverb named hname caller mount hmount hlists
    obtain ⟨params, address, hgiven, haddress⟩ := exists_address trunk hverb hname hplain
    have hlist := h.list verb hverb named hname params hgiven address haddress caller
    have hmem := mem_lists_iff.mpr ⟨mount, hmount, hlists, rfl⟩
    rw [hlist, Option.mem_toList, reached_address hverb hname hplain hgiven haddress] at hmem
    exact (Option.filter_eq_some_iff.mp hmem).1
  case listed =>
    intro verb hverb named hname caller method hserved hpublished hdescribe hadmits
    obtain ⟨params, address, hgiven, haddress⟩ := exists_address trunk hverb hname hplain
    have hlist := h.list verb hverb named hname params hgiven address haddress caller
    refine mem_lists_iff.mp ?_
    rw [hlist, Option.mem_toList, reached_address hverb hname hplain hgiven haddress]
    refine Option.filter_eq_some_iff.mpr ⟨hserved, ?_⟩
    rw [hpublished, hdescribe, hadmits]
    rfl

theorem Clear.told (h : Clear directives derived now trunk asked) (hbuilt : Built trunk)
    (hparsed : Parsed asked) (hsimple : Simple asked) :
    Told directives decodeURIComponent derived now trunk asked := by
  have hplain := hsimple.plain hparsed
  constructor
  case page => exact fun caller fragments hfits => h.page hsimple hfits
  case call =>
    intro verb hverb named hname params hgiven address haddress
    rw [MCP.call_of_serves haddress, reached_address hverb hname hplain hgiven haddress]
    exact serves_iff (h.named verb hverb named hname)
  case list =>
    intro verb hverb named hname params hgiven address haddress caller
    rw [reached_address hverb hname hplain hgiven haddress]
    cases hfilter : (served now trunk asked verb).filter fun method =>
        directives.published method && directives.describe method && directives.admits caller method with
    | none =>
      refine List.eq_nil_iff_forall_not_mem.mpr fun method hmethod => ?_
      obtain ⟨mount, hmount, hlists, rfl⟩ := mem_lists_iff.mp hmethod
      have hserved := h.lists verb hverb named hname caller mount hmount hlists
      obtain ⟨-, hpublished, hdescribe, -, hadmits⟩ := MCP.lists_iff.mp hlists
      rw [hserved, Option.filter_some, hpublished, hdescribe, hadmits] at hfilter
      cases hfilter
    | some method =>
      obtain ⟨hserved, hshown⟩ := Option.filter_eq_some_iff.mp hfilter
      rw [Bool.and_eq_true, Bool.and_eq_true] at hshown
      obtain ⟨⟨hpublished, hdescribe⟩, hadmits⟩ := hshown
      refine eq_singleton (hbuilt.nodup caller named) (fun other hother => ?_) (mem_lists_iff.mpr ?_)
      · obtain ⟨mount, hmount, hlists, rfl⟩ := mem_lists_iff.mp hother
        have hother := h.lists verb hverb named hname caller mount hmount hlists
        exact Option.some.inj (hother.symm.trans hserved)
      · exact h.listed verb hverb named hname caller method hserved hpublished hdescribe hadmits

/-! ## One node for a template -/

theorem Built.find (hbuilt : Built trunk) {expired : Node μ → Bool} {p : Mount μ → Bool} {mount : Mount μ}
    (hmount : mount ∈ trunk.walk expired [] true) (hp : p mount = true)
    (honly : ∀ other, p other = true → other.method = mount.method) :
    (trunk.walk expired [] true).find? p = some mount := by
  cases hfind : (trunk.walk expired [] true).find? p with
  | none => exact absurd hp (List.find?_eq_none.mp hfind mount hmount)
  | some other =>
    have hother := mem_places_of_walk (List.mem_of_find?_eq_some hfind)
    rw [hbuilt.unique hother (mem_places_of_walk hmount) (honly other (List.find?_some hfind))]

theorem Built.served_mount (hbuilt : Built trunk) {verb : String} {mount : Mount μ}
    (hmount : mount ∈ (trunk.places []).flatMap Place.mounts)
    (hserved : served now trunk asked verb = some mount.method) :
    ∃ place, taker now trunk asked = some place ∧ place.node.properties.methods.lookup verb = some mount.method ∧
      mount = ⟨place.segments, verb, mount.method, place.node⟩ := by
  obtain ⟨place, hplace, hlookup⟩ := Option.bind_eq_some_iff.mp hserved
  have hthere := List.mem_flatMap.mpr ⟨place, taker_places hplace, mem_mounts hlookup⟩
  exact ⟨place, hplace, hlookup, hbuilt.unique hmount hthere rfl⟩

theorem ne_nil_of_lookup {methods : List (String × μ)} {verb : String} {method : μ}
    (h : methods.lookup verb = some method) : methods ≠ [] := by
  rintro rfl
  cases h

theorem Built.served_taker (hbuilt : Built trunk) {mount : Mount μ}
    (hmount : mount ∈ (trunk.places []).flatMap Place.mounts) (h : taker now trunk asked = some mount.place) :
    served now trunk asked mount.verb = some mount.method := by
  obtain ⟨place, hplace, hmem⟩ := List.mem_flatMap.mp hmount
  obtain ⟨⟨verb, method⟩, hentry, rfl⟩ := List.mem_map.mp hmem
  rw [served, h]
  exact Assoc.lookup_of_mem (hbuilt.verbs place hplace) hentry

theorem Single.own (h : Single derived now trunk asked) (hbuilt : Built trunk) {mount : Mount μ}
    (hmount : mount ∈ (trunk.places []).flatMap Place.mounts) (htaker : taker now trunk asked = some mount.place) :
    mount.segments = asked := by
  obtain ⟨place, hplace, hlookup, -⟩ := hbuilt.served_mount hmount (hbuilt.served_taker hmount htaker)
  obtain rfl := Option.some.inj (hplace.symm.trans htaker)
  exact h.first _ htaker (ne_nil_of_lookup hlookup)

theorem Single.served_named (h : Single derived now trunk asked) (hbuilt : Built trunk) {verb named : String}
    (hverb : verb ∈ RPC.verbs) (hname : RPC.name asked verb = some named) {mount : Mount μ}
    (hmount : mount ∈ trunk.walk derived [] true) (hnamed : Named named mount = true)
    (hexpired : mount.node.expired now = false) : served now trunk asked verb = some mount.method := by
  have hthere := mem_places_of_walk hmount
  have htaker := h.named verb hverb named hname mount hmount hnamed hexpired
  have hsame : RPC.name mount.segments mount.verb = some named := of_decide_eq_true hnamed
  rw [h.own hbuilt hthere htaker] at hsame
  rw [RPC.name_verb hname hsame]
  exact hbuilt.served_taker hthere htaker

/-- The first under the name of a tool that is served is what is served. -/
theorem Single.kept_served (h : Single derived now trunk asked) (hbuilt : Built trunk) {verb named : String}
    (hverb : verb ∈ RPC.verbs) (hname : RPC.name asked verb = some named) {method : μ}
    (hserved : served now trunk asked verb = some method) :
    ∃ mount, (trunk.walk derived [] true).find? (Named named) = some mount ∧ mount.method = method ∧
      mount.node.expired now = false := by
  obtain ⟨place, hplace, hlookup⟩ := Option.bind_eq_some_iff.mp hserved
  obtain ⟨mount, hfind, hexpired⟩ := h.kept place hplace (verb, method) (Assoc.mem_of_lookup hlookup) hverb named hname
  have hthere := h.served_named hbuilt hverb hname (List.mem_of_find?_eq_some hfind) (List.find?_some hfind) hexpired
  exact ⟨mount, hfind, Option.some.inj (hthere.symm.trans hserved), hexpired⟩

theorem Single.clear (h : Single derived now trunk asked) (hbuilt : Built trunk) (hopen : Open directives now trunk asked) :
    Clear directives derived now trunk asked := by
  constructor
  case own =>
    intro _ place hplace verb method hlookup _
    exact h.first place hplace (ne_nil_of_lookup hlookup)
  case shown =>
    intro caller verb mount hmount
    obtain ⟨hexplain, hread, rfl⟩ := says_iff.mp (List.find?_some hmount)
    have hwalked := List.mem_of_find?_eq_some hmount
    have htaker := h.alone mount hwalked hread
    have hthere := mem_places_of_walk hwalked
    exact ⟨h.own hbuilt hthere htaker, mount.method, hbuilt.served_taker hthere htaker, hexplain⟩
  case named =>
    intro verb hverb named hname
    cases hserved : served now trunk asked verb with
    | some method =>
      obtain ⟨mount, hfind, rfl, hexpired⟩ := h.kept_served hbuilt hverb hname hserved
      rw [hfind, Option.any_some, Option.any_some, hexpired, Bool.not_false, Bool.and_true]
      cases hpublished : directives.published mount.method with
      | false => rfl
      | true => rw [hopen verb hverb named hname _ hserved hpublished, Bool.and_self]
    | none =>
      refine Bool.eq_false_iff.mpr fun hany => ?_
      obtain ⟨mount, hfind, htold⟩ := (Option.any_eq_true ..).mp hany
      obtain ⟨-, hexpired⟩ := Bool.and_eq_true_iff.mp htold
      have hother := h.served_named hbuilt hverb hname (List.mem_of_find?_eq_some hfind) (List.find?_some hfind)
        ((Bool.not_eq_true' _).mp hexpired)
      rw [hserved] at hother
      cases hother
  case lists =>
    intro verb hverb named hname caller mount hmount hlists
    obtain ⟨hnamed, -, -, hexpired, -⟩ := MCP.lists_iff.mp hlists
    exact h.served_named hbuilt hverb hname hmount hnamed hexpired
  case listed =>
    intro verb hverb named hname caller method hserved hpublished hdescribe hadmits
    obtain ⟨mount, hfind, rfl, hexpired⟩ := h.kept_served hbuilt hverb hname hserved
    have hnamed : Named named mount = true := List.find?_some hfind
    exact ⟨mount, List.mem_of_find?_eq_some hfind,
      MCP.lists_iff.mpr ⟨hnamed, hpublished, hdescribe, hexpired, hadmits⟩, rfl⟩

theorem Clear.opens (h : Clear directives derived now trunk asked) (hbuilt : Built trunk)
    (hsingle : Single derived now trunk asked) : Open directives now trunk asked := by
  intro verb hverb named hname method hserved hpublished
  obtain ⟨mount, hfind, rfl, hexpired⟩ := hsingle.kept_served hbuilt hverb hname hserved
  have hnamed := h.named verb hverb named hname
  rw [hfind, hserved, Option.any_some, Option.any_some, hpublished, hexpired] at hnamed
  simpa using hnamed.symm

/-! ### What the directives may say -/

end

/-! ## One template declared twice -/

def plainly : Directives Unit ℕ Unit where
  admits _ _ := true
  describe _ := true
  resource _ := none
  flags _ _ := false
  published _ := true

def serving (routes : List (RTD.Route ℕ)) (methods : List (String × ℕ)) : Node ℕ :=
  Node.new routes methods true none none

/-- `/a/b` and `/a: { /b: }` -/
def twice : Node ℕ :=
  serving [.mk [.fragment "a", .fragment "b"] (serving [] [("GET", 0)]),
    .mk [.fragment "a"] (serving [.mk [.fragment "b"] (serving [] [("POST", 1)])] [])] []

def below : List Segment := [.fragment "a", .fragment "b"]

end Toa.Exposition.Served
