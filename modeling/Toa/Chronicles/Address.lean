import Toa.Chronicles.Forms

/-! How much of a client's address is kept: the network it is in, which groups are counted to by
the colons between them. -/

namespace Toa.Chronicles.Address

/-- `Address` -/
inductive How
  | truncated
  | full

inductive RangeError
  | invalidArrayLength
  deriving DecidableEq

/-- `address.replace(/\\.\\d+$/, '.0')` -/
def truncate : Text → Text
  | [] => []
  | c :: t => if c = '.' ∧ t ≠ [] ∧ t.all DIGITS.contains then ['.', '0'] else c :: truncate t

/-- `group.replace(/^0+(?=.)/, '')` -/
def stripped (group : Text) : Text := Numeral.strip '0' group

def shown (groups : List Text) : Text := [':'].intercalate (groups.map stripped) ++ [':', ':']

/-- The first three groups of an IPv6 address, and none of the rest. -/
def network (address : Text) : Except RangeError Text :=
  let parts := Words.splitPairs ':' address
  let left := pieces (parts.headD [])
  let right := pieces (parts.tail.headD [])
  if left.length + right.length ≤ 8 then
    let groups := left ++ List.replicate (8 - (left.length + right.length)) ['0'] ++ right
    .ok (shown (groups.take 3))
  else .error .invalidArrayLength

/-- What is not a string is `none`. -/
def keep (address : Option Text) (how : How) : Except RangeError (Option Text) :=
  match address, how with
  | none, _ => .ok none
  | some address, .full => .ok (if isIPv4 address || isIPv6 address then some address else none)
  | some address, .truncated =>
    if isIPv4 address then .ok (some (truncate address))
    else if isIPv6 address then (network address).map some
    else .ok none

end Toa.Chronicles.Address

namespace Toa.Chronicles

namespace V6

/-- A zone up to `::`, and what there is after that up to the next. -/
def spill (f : V6) : Text := (Words.splitPairs ':' (ending f.zone)).headD []
def overflow (f : V6) : Text := (Words.splitPairs ':' (ending f.zone)).tail.headD []

def told (f : V6) (words : List Text) : ℕ :=
  if f.zone.isSome then words.dropLast.length + 1 + f.spill.count ':' else words.length

/-- The pieces an address is taken to be of: a dotted tail is one, and a zone is of more where it
has colons. -/
def total (f : V6) : ℕ :=
  match f.gap with
  | none => f.told (f.left ++ f.dotted.toList) + (pieces f.overflow).length
  | some right => f.left.length + f.told (right ++ f.dotted.toList)

/-- The groups after `::` that no zone is written to. -/
def alone (f : V6) : List Text :=
  if f.zone.isSome && f.dotted.isNone then f.right.dropLast else f.right

/-- The first three groups, where `::` is of as many as those pieces leave. -/
def counted (f : V6) : List Text :=
  match f.gap with
  | none => f.left.take 3
  | some _ => (f.left ++ List.replicate (8 - f.total) ['0'] ++ f.alone).take 3

/-- There is room for the pieces, and the first three groups are what they are. -/
def Counted (f : V6) : Prop := f.total ≤ 8 ∧ f.counted.map hex = f.groups.take 3

instance (f : V6) : Decidable f.Counted := inferInstanceAs (Decidable (_ ∧ _))

/-- What `::` stands for, and the groups after it that no zone is written to. -/
def beyond (f : V6) : List Text := List.replicate (8 - f.written) ['0'] ++ f.alone

/-- The first three groups, as they are written. -/
def leading (f : V6) : List Text := (f.left ++ f.beyond).take 3

/-- How many groups there are from `::` through the third, and as many more as there are pieces too many. -/
def reach (f : V6) : ℕ := 3 - f.left.length + (f.total - f.written)

/-- The colons make eight pieces at most. After `::` they make one for each group that is written, which a
dotted tail is two of and a zone is none, or there are zeros for as many groups as it takes. -/
def Steady (f : V6) : Prop :=
  f.total ≤ 8 ∧ (f.gap = none ∨ f.total = f.written ∨
    (f.beyond.take f.reach).map hex = List.replicate f.reach 0)

end V6

/-- A letter is in the one case in both, the digits before it being the same. -/
def Cased (g h : Text) : Prop :=
  ∀ p ∈ (Address.stripped g).zip (Address.stripped h), p.1.isUpper = p.2.isUpper

namespace Form

def Steady : Form → Prop
  | .v4 _ => True
  | .v6 f => f.Steady

/-- The first three groups of IPv6 addresses are written in the one case. -/
def Cased : Form → Form → Prop
  | .v6 f, .v6 g => ∀ p ∈ f.leading.zip g.leading, Chronicles.Cased p.1 p.2
  | _, _ => True

end Form

/-- A text that is an address, and the form it is of. -/
structure Address where
  text : Text
  form : Form
  accepted : read text = some form

namespace Address

def kept (a : Address) : Except RangeError (Option Text) := keep (some a.text) .truncated

def Answers (a : Address) : Prop :=
  ∃ t form, a.kept = .ok (some t) ∧ read t = some form ∧ form.network = a.form.network ∧
    form.host = 0

def Exact (a b : Address) : Prop :=
  Answers a ∧ Answers b ∧ (a.kept = b.kept ↔ a.form.network = b.form.network)

end Address

section Counting
variable {f : V6}

theorem splitPairs_ending (f : V6) : ∃ rest, Words.splitPairs ':' (ending f.zone) = f.spill :: rest ∧
    rest.headD [] = f.overflow := by
  obtain ⟨p, rest, h⟩ := List.exists_cons_of_ne_nil
    (Words.splitPairs_ne_nil ':' (ending f.zone))
  exact ⟨rest, by simp [V6.spill, h], by simp [V6.overflow, h]⟩

theorem spill_of_none (h : f.zone = none) : f.spill = [] := by
  simp [V6.spill, ending, h, Words.splitPairs]

theorem spill_of_some {z : Text} (h : f.zone = some z) : ∃ s, f.spill = '%' :: s := by
  obtain ⟨p, rest, hp⟩ := List.exists_cons_of_ne_nil (Words.splitPairs_ne_nil ':' z)
  have hne : '%' ≠ ':' := by decide
  have hcons := Words.splitPairs_cons hne z
  exact ⟨p, by simp [V6.spill, ending, h, hcons, hp]⟩

theorem pieces_spill {ws : List Text} (hws : ∀ w ∈ ws, Words.Word ':' w ∧ '%' ∉ w) :
    (pieces ([':'].intercalate ws ++ f.spill)).length = f.told ws ∧
    ((f.zone = none ∧ pieces ([':'].intercalate ws ++ f.spill) = ws) ∨
      ∃ w r rest, f.zone.isSome ∧ ':' ∉ w ∧ '%' ∉ w ∧
        pieces ([':'].intercalate ws ++ f.spill) = ws.dropLast ++ (w ++ '%' :: r) :: rest) := by
  cases hzone : f.zone with
  | none =>
    have h : pieces ([':'].intercalate ws ++ f.spill) = ws := by
      rw [spill_of_none hzone, List.append_nil, pieces_intercalate fun w hw => (hws w hw).1]
    exact ⟨by simp [h, V6.told, hzone], .inl ⟨rfl, h⟩⟩
  | some z =>
    obtain ⟨s, hs⟩ := spill_of_some hzone
    obtain ⟨r, rest, hsplit⟩ := List.exists_cons_of_ne_nil (List.splitOn_ne_nil ':' s)
    have hspill : f.spill.splitOn ':' = ('%' :: r) :: rest := by
      rw [hs, List.splitOn_cons_eq_if_modifyHead, hsplit]
      rfl
    have hlength : rest.length = f.spill.count ':' := by
      have h := Words.length_splitOn ':' f.spill
      rw [hspill, List.length_cons] at h
      omega
    obtain ⟨w, hcolon, hpercent, hpieces⟩ : ∃ w : Text, ':' ∉ w ∧ '%' ∉ w ∧
        pieces ([':'].intercalate ws ++ f.spill) = ws.dropLast ++ (w ++ '%' :: r) :: rest := by
      have hne : [':'].intercalate ws ++ f.spill ≠ [] := by
        rw [hs]
        exact List.append_ne_nil_of_right_ne_nil _ (List.cons_ne_nil _ _)
      rcases List.eq_nil_or_concat ws with rfl | ⟨init, w, rfl⟩
      · exact ⟨[], nofun, nofun, by simp [pieces, hs, ← hspill]⟩
      · have hw := hws w (by simp)
        refine ⟨w, hw.1.2, hw.2, ?_⟩
        rw [pieces, if_neg hne, List.concat_eq_append] at *
        rw [Words.splitOn_intercalate_append fun v hv => (hws v hv).1.2, hspill,
          List.modifyHead_cons, List.dropLast_concat]
    refine ⟨?_, .inr ⟨w, r, rest, rfl, hcolon, hpercent, hpieces⟩⟩
    simp [hpieces, V6.told, hzone, hlength]
    omega

end Counting

section Showing

theorem stripped_group {g : Text} (h : isGroup g) :
    isGroup (Address.stripped g) ∧ hex (Address.stripped g) = hex g := by
  simp only [isGroup, Bool.and_eq_true, decide_eq_true_eq, List.all_eq_true,
    List.contains_iff_mem] at h ⊢
  obtain ⟨⟨hne, hlength⟩, hall⟩ := h
  have hsuffix : Address.stripped g <:+ g := Numeral.strip_suffix g
  exact ⟨⟨⟨Numeral.strip_ne_nil hne, hsuffix.length_le.trans hlength⟩,
    fun c hc => hall c (hsuffix.subset hc)⟩,
    Numeral.value_strip (by omega) hne (fun c hc => digit_eq_zero_iff c (hall c hc))
      fun c hc => digit_lt_of_hex c (hall c hc)⟩

def V6.ofGroups (groups : List Text) : V6 := ⟨groups.map Address.stripped, some [], none, none⟩

variable {gs : List Text}

theorem ofGroups_valid (hgs : ∀ g ∈ gs, isGroup g) (hlength : gs.length = 3) :
    (V6.ofGroups gs).Valid where
  left g hg := by
    obtain ⟨g', hg', rfl⟩ := List.mem_map.mp hg
    exact (stripped_group (hgs g' hg')).1
  right g hg := by cases hg
  dotted d hd := by cases hd
  zone z hz := by cases hz
  written := by simp [V6.ofGroups, V6.written, V6.right, hlength]

theorem colon_not_dotted {t : Text} (h : ':' ∈ t) : isIPv4 t = false := by
  by_contra hnot
  exact (word_of_dotted (Bool.eq_true_of_not_eq_false hnot)).1.2 h

theorem read_shown (hgs : ∀ g ∈ gs, isGroup g) (hlength : gs.length = 3) :
    read (Address.shown gs) = some (.v6 (V6.ofGroups gs)) := by
  have hcolon : ':' ∈ Address.shown gs := by simp [Address.shown]
  have htext : Address.shown gs = (V6.ofGroups gs).text := by
    simp [Address.shown, V6.text, V6.body, V6.ofGroups, ending]
  rw [read, colon_not_dotted hcolon, htext, readIPv6_text (ofGroups_valid hgs hlength)]
  rfl

theorem groups_ofGroups (hgs : ∀ g ∈ gs, isGroup g) (hlength : gs.length = 3) :
    (V6.ofGroups gs).groups = gs.map hex ++ List.replicate 5 0 := by
  have hmap : (gs.map Address.stripped).map hex = gs.map hex := by
    rw [List.map_map]
    exact List.map_congr_left fun g hg => (stripped_group (hgs g hg)).2
  simp [V6.groups, V6.ofGroups, V6.written, V6.right, hmap, hlength]

theorem read_eq_none {ws : List Text} {w rest : Text}
    (hws : ∀ v ∈ ws, Words.Word ':' v ∧ '%' ∉ v) (hw : ':' ∉ w ∧ '%' ∉ w) (hlength : ws.length < 3) :
    read ([':'].intercalate (ws ++ [w]) ++ '%' :: rest) = none := by
  have hdotted : isIPv4 ([':'].intercalate (ws ++ [w]) ++ '%' :: rest) = false := by
    by_contra hnot
    exact (word_of_dotted (Bool.eq_true_of_not_eq_false hnot)).2.1 (by simp)
  have hpercent : '%' ∉ [':'].intercalate (ws ++ [w]) := by
    intro hmem
    rcases Words.mem_intercalate hmem with h | ⟨v, hv, hmem⟩
    · revert h; decide
    · rcases List.mem_append.mp hv with hv | hv
      · exact (hws v hv).2 hmem
      · rw [List.mem_singleton.mp hv] at hmem
        exact hw.2 hmem
  rw [read, hdotted]
  simp only [Bool.false_eq_true, if_false, Option.map_eq_none_iff]
  cases hread : readIPv6 ([':'].intercalate (ws ++ [w]) ++ '%' :: rest) with
  | none => rfl
  | some f =>
    obtain ⟨⟨body, zone⟩, hzoned, hbody⟩ := Option.bind_eq_some_iff.mp hread
    have hbefore : body = [':'].intercalate (ws ++ [w]) := by
      have hall : ∀ c ∈ [':'].intercalate (ws ++ [w]), decide (c ≠ '%') = true := by
        intro c hc
        exact decide_eq_true fun h => hpercent (h ▸ hc)
      unfold zoned at hzoned
      rw [List.dropWhile_append_of_pos hall, List.takeWhile_append_of_pos hall] at hzoned
      simp only [List.dropWhile_cons, List.takeWhile_cons, ne_eq, not_true_eq_false,
        decide_false, Bool.false_eq_true, if_false, List.append_nil] at hzoned
      split at hzoned
      · cases hzoned
        rfl
      · cases hzoned
    subst hbefore
    -- no pair of colons, and no more pieces than the words
    have hpieces : (pieces ([':'].intercalate (ws ++ [w]))).length ≤ 3 := by
      unfold pieces
      split
      · simp
      · rw [List.splitOn_intercalate _ (by
          intro v hv
          rcases List.mem_append.mp hv with hv | hv
          · exact (hws v hv).1.2
          · rw [List.mem_singleton.mp hv]
            exact hw.1) (by simp), List.length_append, List.length_singleton]
        omega
    dsimp only [readBody] at hbody
    rw [Words.splitPairs_eq_singleton (fun v hv => (hws v hv).1) hw.1] at hbody
    obtain ⟨⟨left, dotted⟩, htrailing, hform⟩ := Option.bind_eq_some_iff.mp hbody
    rw [(trailing_eq_some htrailing).1, List.length_append] at hpieces
    dsimp only at hform
    split at hform
    · rename_i hwritten
      simp only [V6.written, V6.right, Option.getD_none, List.length_nil] at hwritten
      have hone : dotted.toList.length ≤ 1 := Option.length_toList_le
      omega
    · cases hform

end Showing

section Networks
variable {f : V6}

def laid (left right : List Text) : Except Address.RangeError Text :=
  if left.length + right.length ≤ 8 then
    .ok (Address.shown ((left ++ List.replicate (8 - (left.length + right.length)) ['0'] ++
      right).take 3))
  else .error .invalidArrayLength

theorem words_of_groups (h : f.Valid) {gs : List Text} (hgs : ∀ g ∈ gs, isGroup g) :
    ∀ w ∈ gs ++ f.dotted.toList, Words.Word ':' w ∧ '%' ∉ w := by
  intro w hw
  rcases List.mem_append.mp hw with hw | hw
  · exact ⟨(word_of_group (hgs w hw)).1, (word_of_group (hgs w hw)).2.1⟩
  · have hd := h.dotted w (Option.mem_toList.mp hw)
    exact ⟨(word_of_dotted hd).1, (word_of_dotted hd).2.1⟩

theorem network_whole (h : f.Valid) (hgap : f.gap = none) :
    Address.network f.text =
      if f.total ≤ 8 then .ok (Address.shown f.counted) else .error .invalidArrayLength := by
  obtain ⟨rest, hending, hrest⟩ := splitPairs_ending f
  have hwords := words_of_groups h h.left
  have hsplit : Words.splitPairs ':' f.text =
      ([':'].intercalate (f.left ++ f.dotted.toList) ++ f.spill) :: rest := by
    rw [V6.text, V6.body, hgap]
    dsimp only
    rw [Words.splitPairs_intercalate (fun w hw => (hwords w hw).1), hending, List.modifyHead_cons]
  obtain ⟨hlength, hpieces⟩ := pieces_spill (f := f) hwords
  have hnetwork : Address.network f.text =
      laid (pieces ([':'].intercalate (f.left ++ f.dotted.toList) ++ f.spill))
        (pieces f.overflow) := by
    simp only [Address.network, laid, hsplit, List.headD_cons, List.tail_cons, hrest]
  have htotal : f.total = (pieces ([':'].intercalate (f.left ++ f.dotted.toList) ++
      f.spill)).length + (pieces f.overflow).length := by
    rw [hlength, V6.total, hgap]
  have hwritten := written_whole h hgap
  have hone : f.dotted.toList.length ≤ 1 := Option.length_toList_le
  -- the first groups are before the zone
  have hfirst : ∃ last, pieces ([':'].intercalate (f.left ++ f.dotted.toList) ++ f.spill) =
      f.left.take 3 ++ last := by
    have hcut : f.left ++ f.dotted.toList = f.left.take 3 ++ (f.left.drop 3 ++ f.dotted.toList) := by
      rw [← List.append_assoc, List.take_append_drop]
    rcases hpieces with ⟨-, hws⟩ | ⟨w, r, rest, -, -, -, hws⟩
    · exact ⟨_, hws.trans hcut⟩
    · have hne : f.left.drop 3 ++ f.dotted.toList ≠ [] := by
        refine List.ne_nil_of_length_pos ?_
        rw [List.length_append, List.length_drop]
        omega
      rw [hcut, List.dropLast_append_of_ne_nil hne, List.append_assoc, ← hcut] at hws
      exact ⟨_, hws⟩
  obtain ⟨last, hlast⟩ := hfirst
  have hthree : (f.left.take 3).length = 3 := by
    rw [List.length_take]
    omega
  rw [hnetwork, laid, ← htotal, hlast, V6.counted, hgap, List.append_assoc, List.append_assoc,
    List.take_append_of_le_length hthree.ge, List.take_of_length_le hthree.le]

/-- An address is too many pieces, or is shown as the groups that are counted, or with a zone in
place of one. -/
inductive V6.Shown (f : V6) : Prop
  | crowded (htotal : 8 < f.total)
    (hnetwork : Address.network f.text = .error .invalidArrayLength)
  | counted (htotal : f.total ≤ 8) (hlength : f.counted.length = 3)
    (hnetwork : Address.network f.text = .ok (Address.shown f.counted))
  | zoned (hlength : f.counted.length < 3) (w r : Text) (rest : List Text) (hw : ':' ∉ w)
    (hw' : '%' ∉ w)
    (hnetwork : Address.network f.text = .ok (Address.shown (f.counted ++ (w ++ '%' :: r) :: rest)))

theorem shown_gap (h : f.Valid) {right : List Text} (hgap : f.gap = some right) : f.Shown := by
  obtain ⟨parts, hending, hparts⟩ := splitPairs_ending f
  have hleft : ∀ g ∈ f.left, Words.Word ':' g := fun g hg => (word_of_group (h.left g hg)).1
  have hright : ∀ g ∈ right, isGroup g := by
    have := h.right
    simpa [V6.right, hgap] using this
  have hwords := words_of_groups h hright
  have hsplit : Words.splitPairs ':' f.text = [':'].intercalate f.left ::
      ([':'].intercalate (right ++ f.dotted.toList) ++ f.spill) :: parts := by
    rw [V6.text, V6.body, hgap]
    simp only [List.append_assoc, List.cons_append]
    rw [Words.splitPairs_intercalate hleft, Words.splitPairs_pair,
      Words.splitPairs_intercalate (fun w hw => (hwords w hw).1), hending]
    simp
  obtain ⟨hlength, hpieces⟩ := pieces_spill (f := f) hwords
  generalize htail : pieces ([':'].intercalate (right ++ f.dotted.toList) ++ f.spill) = tail
    at hlength hpieces
  have htotal : f.total = f.left.length + tail.length := by
    rw [hlength, V6.total, hgap]
  have hnetwork : Address.network f.text = laid f.left tail := by
    simp only [Address.network, laid, hsplit, List.headD_cons, List.tail_cons,
      pieces_intercalate hleft, htail]
  rw [laid, ← htotal] at hnetwork
  by_cases hroom : f.total ≤ 8
  · rw [if_pos hroom] at hnetwork
    have hthree : (f.left ++ List.replicate (8 - f.total) ['0'] ++ tail).length = 8 := by
      simp only [List.length_append, List.length_replicate]
      omega
    -- what is told of is groups, and then the one that the zone is written to
    obtain ⟨after, hafter, hzone⟩ : ∃ after, tail = f.alone ++ after ∧
        (after.length ≤ 1 ∨ ∃ w r rest, after = (w ++ '%' :: r) :: rest ∧ ':' ∉ w ∧ '%' ∉ w) := by
      rcases hpieces with ⟨hnone, hws⟩ | ⟨w, r, rest, hsome, hw, hw', hws⟩
      · refine ⟨f.dotted.toList, ?_, .inl (by cases f.dotted <;> simp)⟩
        rw [hws, V6.alone, hnone, V6.right, hgap]
        rfl
      · refine ⟨(w ++ '%' :: r) :: rest, ?_, .inr ⟨w, r, rest, rfl, hw, hw'⟩⟩
        rw [hws, V6.alone, hsome, V6.right, hgap]
        cases hdotted : f.dotted with
        | none => simp
        | some d => simp
    have hcounted : f.counted =
        (f.left ++ List.replicate (8 - f.total) ['0'] ++ f.alone).take 3 := by
      rw [V6.counted, hgap]
    rw [hafter, ← List.append_assoc] at hnetwork hthree
    by_cases hfew : 3 ≤ (f.left ++ List.replicate (8 - f.total) ['0'] ++ f.alone).length
    · refine .counted hroom ?_ ?_
      · rw [hcounted, List.length_take]
        omega
      · rw [hnetwork, List.take_append_of_le_length hfew, hcounted]
    · rcases hzone with hzone | ⟨w, r, rest, rfl, hw, hw'⟩
      · rw [List.length_append] at hthree
        omega
      · have hle : (f.left ++ List.replicate (8 - f.total) ['0'] ++ f.alone).length ≤ 3 := by omega
        obtain ⟨n, hn⟩ : ∃ n, 3 - (f.left ++ List.replicate (8 - f.total) ['0'] ++
            f.alone).length = n + 1 := ⟨_, (Nat.succ_pred_eq_of_pos (by omega)).symm⟩
        refine .zoned ?_ w r (rest.take n) hw hw' ?_
        · rw [hcounted, List.length_take]
          omega
        · rw [hnetwork, hcounted, List.take_of_length_le hle, List.take_append,
            List.take_of_length_le hle, hn, List.take_succ_cons]
  · rw [if_neg hroom] at hnetwork
    exact .crowded (by omega) hnetwork

end Networks

section Answering
variable {f : V6}

theorem counted_groups (h : f.Valid) : ∀ g ∈ f.counted, isGroup g := by
  intro g hg
  unfold V6.counted at hg
  split at hg
  · exact h.left g (List.mem_of_mem_take hg)
  · have hmem := List.mem_of_mem_take hg
    simp only [List.mem_append, List.mem_replicate] at hmem
    rcases hmem with (hmem | ⟨-, rfl⟩) | hmem
    · exact h.left g hmem
    · decide
    · refine h.right g ?_
      unfold V6.alone at hmem
      split at hmem
      · exact (List.dropLast_sublist _).subset hmem
      · exact hmem

theorem shown_of_valid (h : f.Valid) : f.Shown := by
  cases hgap : f.gap with
  | some right => exact shown_gap h hgap
  | none =>
    have hnetwork := network_whole h hgap
    by_cases hroom : f.total ≤ 8
    · rw [if_pos hroom] at hnetwork
      refine .counted hroom ?_ hnetwork
      have hwritten := written_whole h hgap
      have hone : f.dotted.toList.length ≤ 1 := Option.length_toList_le
      rw [V6.counted, hgap, List.length_take]
      omega
    · rw [if_neg hroom] at hnetwork
      exact .crowded (by omega) hnetwork

theorem read_zoned (h : f.Valid) {w r : Text} {rest : List Text} (hw : ':' ∉ w) (hw' : '%' ∉ w)
    (hlength : f.counted.length < 3) :
    read (Address.shown (f.counted ++ (w ++ '%' :: r) :: rest)) = none := by
  have hne : '%' ≠ '0' := by decide
  obtain ⟨w', hsuffix, hstrip⟩ := Numeral.strip_append hne w r
  obtain ⟨m, hm⟩ := Words.intercalate_append_cons ':' (f.counted.map Address.stripped)
    (rest.map Address.stripped) w' ('%' :: r)
  have htext : Address.shown (f.counted ++ (w ++ '%' :: r) :: rest) =
      [':'].intercalate (f.counted.map Address.stripped ++ [w']) ++ '%' :: (r ++ m ++ [':', ':']) := by
    rw [Address.shown, List.map_append, List.map_cons, Address.stripped, hstrip, hm]
    simp
  rw [htext]
  refine read_eq_none ?_ ⟨fun hc => hw (hsuffix.subset hc), fun hc => hw' (hsuffix.subset hc)⟩
    (by simpa using hlength)
  intro v hv
  obtain ⟨g, hg, rfl⟩ := List.mem_map.mp hv
  have hword := word_of_group (stripped_group (counted_groups h g hg)).1
  exact ⟨hword.1, hword.2.1⟩

theorem accepted_v6 {a : Address} (h : a.form = .v6 f) :
    a.text = f.text ∧ f.Valid ∧ a.kept = (Address.network f.text).map some := by
  have haccepted := a.accepted
  rw [h, read] at haccepted
  split at haccepted
  · cases haccepted
  · rename_i hdotted
    obtain ⟨g, hread, hg⟩ := Option.map_eq_some_iff.mp haccepted
    cases hg
    obtain ⟨htext, hvalid⟩ := text_of_readIPv6 hread
    have hsix : isIPv6 a.text := by rw [isIPv6, hread]; rfl
    refine ⟨htext, hvalid, ?_⟩
    rw [Address.kept, Address.keep, if_neg hdotted, if_pos hsix, htext]

theorem shown_form (h : f.Valid) (hlength : f.counted.length = 3) :
    (Form.v6 (V6.ofGroups f.counted)).host = 0 ∧
      ((Form.v6 (V6.ofGroups f.counted)).network = (Form.v6 f).network ↔
        f.counted.map hex = f.groups.take 3) := by
  have hgroups := counted_groups h
  have hvalid := ofGroups_valid hgroups hlength
  have hall := groups_ofGroups hgroups hlength
  have hmap : (f.counted.map hex).length = 3 := by rw [List.length_map, hlength]
  constructor
  · rw [(value_v6 hvalid).2, hall, List.drop_left' hmap, Numeral.value_replicate_zero]
  · rw [network_eq_iff hvalid h, hall, List.take_left' hmap]

theorem answers_v6 {a : Address} (h : a.form = .v6 f) : a.Answers ↔ f.Counted := by
  obtain ⟨-, hvalid, hkept⟩ := accepted_v6 h
  have hthree : (f.groups.take 3).length = 3 := by
    rw [List.length_take, groups_length hvalid]
    rfl
  rw [Address.Answers, hkept, h]
  cases shown_of_valid hvalid with
  | crowded htotal hnetwork =>
    rw [hnetwork]
    constructor
    · rintro ⟨t, form, heq, -⟩
      cases heq
    · intro hcounted
      have := hcounted.1
      omega
  | counted htotal hlength hnetwork =>
    have hread := read_shown (counted_groups hvalid) hlength
    obtain ⟨hhost, hsame⟩ := shown_form hvalid hlength
    rw [hnetwork]
    constructor
    · rintro ⟨t, form, heq, hform, hnet, -⟩
      cases heq
      cases hread.symm.trans hform
      exact ⟨htotal, hsame.mp hnet⟩
    · intro hcounted
      exact ⟨_, _, rfl, hread, hsame.mpr hcounted.2, hhost⟩
  | zoned hlength w r rest hw hw' hnetwork =>
    rw [hnetwork]
    constructor
    · rintro ⟨t, form, heq, hform, -⟩
      cases heq
      rw [read_zoned hvalid hw hw' hlength] at hform
      cases hform
    · intro hcounted
      have := congrArg List.length hcounted.2
      rw [List.length_map, hthree] at this
      omega

end Answering

section Shifting
variable {α : Type*} {a : α} {t : List α} {k e : ℕ}

theorem take_replicate_append (h : t.take (k - e) = List.replicate (k - e) a) :
    (List.replicate e a ++ t).take k = List.replicate k a := by
  rw [List.take_append, List.take_replicate, List.length_replicate, h, ← List.replicate_add]
  congr 1
  omega

theorem take_replicate_append_iff :
    (List.replicate e a ++ t).take (k + e) = List.replicate (k + e) a ↔ t.take k = List.replicate k a := by
  rw [List.take_append, List.take_replicate, List.length_replicate, Nat.add_sub_cancel, Nat.add_comm k e,
    min_eq_right (Nat.le_add_right e k), List.replicate_add, List.append_cancel_left_eq]

theorem take_of_take {n : ℕ} (h : t.take k = List.replicate k a) (hle : n ≤ k) :
    t.take n = List.replicate n a := by
  have htake := congrArg (List.take n) h
  rwa [List.take_take, List.take_replicate, min_eq_left hle] at htake

theorem take_eq_shifted (he : 0 < e) :
    t.take k = (List.replicate e a ++ t).take k ↔ t.take k = List.replicate k a := by
  constructor
  · intro h
    induction k with
    | zero => rw [List.take_zero, List.replicate_zero]
    | succ k ih =>
      have hk : t.take k = (List.replicate e a ++ t).take k := by
        have htake := congrArg (List.take k) h
        rwa [List.take_take, List.take_take, min_eq_left (Nat.le_succ k)] at htake
      rw [h]
      exact take_replicate_append (take_of_take (ih hk) (by omega))
  · intro h
    rw [h, take_replicate_append (take_of_take h (Nat.sub_le k e))]

theorem take_eq_inserted (he : 0 < e) (l : List α) :
    (l ++ t).take k = (l ++ (List.replicate e a ++ t)).take k ↔
      t.take (k - l.length) = List.replicate (k - l.length) a := by
  rw [List.take_append, List.take_append, List.append_cancel_left_eq, take_eq_shifted he]

end Shifting

section Steadiness
variable {f : V6}

theorem stripped_spec {u : Text} (hu : isGroup u) : (∀ c ∈ Address.stripped u, c ∈ HEX) ∧
    (Address.stripped u).map digit = if hex u = 0 then [0] else (Nat.digits 16 (hex u)).reverse := by
  simp only [isGroup, Bool.and_eq_true, decide_eq_true_eq, List.all_eq_true,
    List.contains_iff_mem] at hu
  have hsuffix : Address.stripped u <:+ u := Numeral.strip_suffix u
  exact ⟨fun c hc => hu.2 c (hsuffix.subset hc), Numeral.map_strip (by omega) hu.1.1
    (fun c hc => digit_eq_zero_iff c (hu.2 c hc)) fun c hc => digit_lt_of_hex c (hu.2 c hc)⟩

theorem stripped_of_zero {g : Text} (hg : isGroup g) (h : hex g = 0) : Address.stripped g = ['0'] := by
  obtain ⟨hhex, hmap⟩ := stripped_spec hg
  rw [if_pos h] at hmap
  obtain ⟨c, heq, hc⟩ := List.map_eq_singleton_iff.mp hmap
  have hmem : c ∈ Address.stripped g := heq ▸ List.mem_singleton_self c
  rw [heq, (digit_eq_zero_iff c (hhex c hmem)).mp hc]

theorem beyond_groups (h : f.Valid) : ∀ g ∈ f.beyond, isGroup g := by
  intro g hg
  rcases List.mem_append.mp hg with hg | hg
  · rw [(List.mem_replicate.mp hg).2]
    decide
  · refine h.right g ?_
    unfold V6.alone at hg
    split at hg
    · exact (List.dropLast_sublist _).subset hg
    · exact hg

/-- Nothing written after `::` is left out but a dotted tail, or the group that a zone is written to. -/
theorem alone_prefix (f : V6) : ∃ last, f.right = f.alone ++ last ∧
    last.length + 2 * f.dotted.toList.length ≤ 2 := by
  unfold V6.alone
  cases hdotted : f.dotted with
  | some d =>
    rw [Option.isNone_some, Bool.and_false]
    exact ⟨[], (List.append_nil _).symm, le_rfl⟩
  | none =>
    split
    · refine ⟨f.right.drop (f.right.length - 1), ?_, ?_⟩
      · rw [List.dropLast_eq_take, List.take_append_drop]
      · rw [List.length_drop, Option.toList_none, List.length_nil]
        omega
    · exact ⟨[], (List.append_nil _).symm, Nat.zero_le _⟩

theorem leading_groups (h : f.Valid) : f.leading.map hex = f.groups.take 3 := by
  obtain ⟨last, hright, hlast⟩ := alone_prefix f
  have hzero : hex ['0'] = 0 := by decide
  have hgroups : f.groups = (f.left ++ f.beyond).map hex ++ (last.map hex ++
      f.dotted.toList.flatMap fun d => paired ((octets d).map decimal)) := by
    rw [V6.groups, V6.beyond, hright]
    simp only [List.map_append, List.map_replicate, hzero, List.append_assoc]
  have hlength : 3 ≤ ((f.left ++ f.beyond).map hex).length := by
    have hwritten := written_le h
    have hsum : f.written = f.left.length + f.right.length + 2 * f.dotted.toList.length := rfl
    rw [hright, List.length_append] at hsum
    simp only [List.length_map, List.length_append, V6.beyond, List.length_replicate]
    omega
  rw [hgroups, List.take_append_of_le_length hlength, V6.leading, List.map_take]

theorem leading_whole (h : f.Valid) (hgap : f.gap = none) : f.counted = f.leading := by
  have hwritten := written_whole h hgap
  have hone : f.dotted.toList.length ≤ 1 := Option.length_toList_le
  have hthree : 3 ≤ f.left.length := by omega
  have hcounted : f.counted = f.left.take 3 := by rw [V6.counted, hgap]
  rw [hcounted, V6.leading, List.take_append_of_le_length hthree]

theorem counted_map_iff {β : Type*} (print : Text → β) {right : List Text} (hgap : f.gap = some right)
    (hwritten : f.written ≤ 7) (hroom : f.total ≤ 8) :
    f.counted.map print = f.leading.map print ↔ f.total = f.written ∨
      (f.beyond.take f.reach).map print = List.replicate f.reach (print ['0']) := by
  have hcounted : f.counted.map print = (f.left.map print ++
      (List.replicate (8 - f.total) (print ['0']) ++ f.alone.map print)).take 3 := by
    rw [V6.counted, hgap]
    simp only [List.map_take, List.map_append, List.map_replicate, List.append_assoc]
  have hbeyond : f.beyond.map print =
      List.replicate (8 - f.written) (print ['0']) ++ f.alone.map print := by
    rw [V6.beyond, List.map_append, List.map_replicate]
  have hlength : (f.left.map print).length = f.left.length := List.length_map _
  rw [hcounted, V6.leading, List.map_take, List.map_append, List.map_take, hbeyond, V6.reach]
  rcases Nat.lt_trichotomy f.total f.written with hlt | heq | hlt
  · -- the dotted tail is one piece of two groups
    have hsplit : 8 - f.total = f.written - f.total + (8 - f.written) := by omega
    have hnone : f.total - f.written = 0 := by omega
    rw [hsplit, List.replicate_add, List.append_assoc, eq_comm, take_eq_inserted (by omega), hlength, hnone,
      Nat.add_zero]
    exact (or_iff_right hlt.ne).symm
  · rw [heq]
    exact iff_of_true rfl (.inl rfl)
  · -- the zone is pieces of no group
    have hsplit : 8 - f.written = f.total - f.written + (8 - f.total) := by omega
    rw [hsplit, List.replicate_add, List.append_assoc, take_eq_inserted (by omega), hlength,
      take_replicate_append_iff]
    exact (or_iff_right hlt.ne').symm

theorem counted_iff (h : f.Valid) : f.Counted ↔ f.Steady := by
  refine and_congr_right fun hroom => ?_
  rw [← leading_groups h]
  cases hgap : f.gap with
  | none => exact iff_of_true (congrArg (List.map hex) (leading_whole h hgap)) (.inl rfl)
  | some right =>
    have hzero : hex ['0'] = 0 := by decide
    rw [counted_map_iff hex hgap (written_gap h hgap) hroom, hzero]
    simp only [reduceCtorEq, false_or]

theorem stripped_leading (h : f.Valid) (hsteady : f.Steady) :
    f.counted.map Address.stripped = f.leading.map Address.stripped := by
  cases hgap : f.gap with
  | none => rw [leading_whole h hgap]
  | some right =>
    have hzero : Address.stripped ['0'] = ['0'] := rfl
    rw [counted_map_iff Address.stripped hgap (written_gap h hgap) hsteady.1, hzero]
    refine (hsteady.2.resolve_left (by simp [hgap])).imp_right fun hzeros => ?_
    obtain ⟨hlength, hall⟩ := List.eq_replicate_iff.mp hzeros
    refine List.eq_replicate_iff.mpr ⟨by rwa [List.length_map] at hlength ⊢, fun shown hshown => ?_⟩
    obtain ⟨g, hg, rfl⟩ := List.mem_map.mp hshown
    exact stripped_of_zero (beyond_groups h g (List.mem_of_mem_take hg)) (hall _ (List.mem_map_of_mem hg))

theorem cased_congr {gs gs' hs hs' : List Text} (h : gs.map Address.stripped = gs'.map Address.stripped)
    (h' : hs.map Address.stripped = hs'.map Address.stripped) :
    (∀ p ∈ gs.zip hs, Cased p.1 p.2) ↔ ∀ p ∈ gs'.zip hs', Cased p.1 p.2 := by
  have hmap : ∀ gs hs : List Text, (∀ p ∈ gs.zip hs, Cased p.1 p.2) ↔
      ∀ p ∈ (gs.map Address.stripped).zip (hs.map Address.stripped), ∀ q ∈ p.1.zip p.2,
        q.1.isUpper = q.2.isUpper := by
    intro gs hs
    rw [List.zip_map, List.forall_mem_map]
    rfl
  rw [hmap, h, h', ← hmap]

end Steadiness

section Dotted

theorem truncate_append {t : Text} (ht : '.' ∉ t) (rest : Text) :
    Address.truncate (t ++ rest) = t ++ Address.truncate rest := by
  induction t with
  | nil => rfl
  | cons c t ih =>
    simp only [List.mem_cons, not_or] at ht
    rw [List.cons_append, Address.truncate, if_neg fun h => ht.1 h.1.symm, ih ht.2, List.cons_append]

theorem truncate_dot {t : Text} (ht : '.' ∈ t) :
    Address.truncate ('.' :: t) = '.' :: Address.truncate t := by
  rw [Address.truncate, if_neg]
  rintro ⟨-, -, hall⟩
  have hdot := List.contains_iff_mem.mp (List.all_eq_true.mp hall _ ht)
  revert hdot
  decide

theorem octet_free {t : Text} (h : isOctet t) : '.' ∉ t := by
  intro hmem
  have hdot := (octet_spec h).2.1 _ hmem
  revert hdot
  decide

theorem truncate_octets {a b c d : Text} (ha : isOctet a) (hb : isOctet b) (hc : isOctet c)
    (hd : isOctet d) : Address.truncate (['.'].intercalate [a, b, c, d]) =
      ['.'].intercalate [a, b, c, ['0']] := by
  have hlast : Address.truncate ('.' :: d) = ['.', '0'] := by
    rw [Address.truncate, if_pos ⟨rfl, (octet_spec hd).1, List.all_eq_true.mpr fun x hx =>
      List.contains_iff_mem.mpr ((octet_spec hd).2.1 x hx)⟩]
  simp only [List.intercalate_cons_cons, List.intercalate_singleton, List.append_assoc,
    List.cons_append, List.nil_append]
  rw [truncate_append (octet_free ha), truncate_dot (by simp), truncate_append (octet_free hb),
    truncate_dot (by simp), truncate_append (octet_free hc), hlast]

theorem octets_intercalate {a b c d : Text} (ha : isOctet a) (hb : isOctet b) (hc : isOctet c)
    (hd : isOctet d) : octets (['.'].intercalate [a, b, c, d]) = [a, b, c, d] := by
  refine List.splitOn_intercalate _ (fun t ht => ?_) (List.cons_ne_nil _ _)
  simp only [List.mem_cons, List.not_mem_nil, or_false] at ht
  rcases ht with rfl | rfl | rfl | rfl
  · exact octet_free ha
  · exact octet_free hb
  · exact octet_free hc
  · exact octet_free hd

theorem map_digit_inj {s t : Text} (hs : ∀ c ∈ s, c ∈ HEX) (ht : ∀ c ∈ t, c ∈ HEX)
    (h : s.map digit = t.map digit) (hcase : ∀ p ∈ s.zip t, p.1.isUpper = p.2.isUpper) : s = t := by
  induction s generalizing t with
  | nil => simpa using h
  | cons c s ih =>
    cases t with
    | nil => simp at h
    | cons d t =>
      obtain ⟨hdigit, hrest⟩ := List.cons.inj h
      have hcd : c = d := digit_inj c (hs c List.mem_cons_self) d (ht d List.mem_cons_self) hdigit
        (hcase (c, d) List.mem_cons_self)
      rw [hcd, ih (fun x hx => hs x (List.mem_cons_of_mem _ hx))
        (fun x hx => ht x (List.mem_cons_of_mem _ hx)) hrest
        (fun p hp => hcase p (List.mem_cons_of_mem _ hp))]

theorem decimal_inj {s t : Text} (hs : isOctet s) (ht : isOctet t) (h : decimal s = decimal t) :
    s = t := by
  have hstrip : ∀ u : Text, isOctet u → (Numeral.strip '0' u).map digit = u.map digit := by
    intro u hu
    obtain ⟨hne, -, hhead, -⟩ := octet_spec hu
    match u, hne, hhead with
    | [c], _, _ => rfl
    | c :: d :: rest, _, hhead =>
      have hc : c ≠ '0' := by simpa using hhead
      rw [Numeral.strip_of_head hc]
  have hmap : ∀ u : Text, isOctet u → u.map digit =
      if decimal u = 0 then [0] else (Nat.digits 10 (decimal u)).reverse := by
    intro u hu
    obtain ⟨hne, hdigits, -, -⟩ := octet_spec hu
    rw [← hstrip u hu, decimal]
    exact Numeral.map_strip (by omega) hne
      (fun c hc => digit_eq_zero_iff c (hex_of_decimal c (hdigits c hc)).1)
      fun c hc => (hex_of_decimal c (hdigits c hc)).2.1
  refine map_digit_inj (fun c hc => (hex_of_decimal c ((octet_spec hs).2.1 c hc)).1)
    (fun c hc => (hex_of_decimal c ((octet_spec ht).2.1 c hc)).1) ?_ ?_
  · rw [hmap s hs, hmap t ht, h]
  · intro p hp
    obtain ⟨hp₁, hp₂⟩ := List.of_mem_zip hp
    rw [(hex_of_decimal _ ((octet_spec hs).2.1 _ hp₁)).2.2,
      (hex_of_decimal _ ((octet_spec ht).2.1 _ hp₂)).2.2]

theorem value_v4 {d : Text} (a b c : Text) (hd : isOctet d) :
    (Form.v4 [a, b, c, d]).network = .v4 (Numeral.value 256 [decimal a, decimal b, decimal c]) ∧
      (Form.v4 [a, b, c, d]).host = decimal d := by
  have hlast : ∀ n ∈ [decimal d], n < 256 := by
    intro n hn
    rw [List.mem_singleton.mp hn]
    have := (octet_spec hd).2.2.2
    omega
  have hvalue : (Form.v4 [a, b, c, d]).value =
      Numeral.value 256 ([decimal a, decimal b, decimal c] ++ [decimal d]) := rfl
  have hone : Numeral.value 256 [decimal d] = decimal d := by
    simp [Numeral.value]
  constructor
  · rw [Form.network, hvalue]
    exact congrArg Network.v4 (Numeral.value_append_div (by omega) hlast)
  · rw [Form.host, hvalue, Numeral.value_append, List.length_singleton, hone,
      show 2 ^ 8 = 256 ^ 1 from rfl, Nat.mul_comm, Nat.mul_add_mod]
    exact Nat.mod_eq_of_lt (hlast _ List.mem_cons_self)

theorem accepted_v4 {x : Address} {octs : List Text} (h : x.form = .v4 octs) :
    ∃ a b c d, octs = [a, b, c, d] ∧ isOctet a ∧ isOctet b ∧ isOctet c ∧ isOctet d ∧
      x.kept = .ok (some (['.'].intercalate [a, b, c, ['0']])) := by
  have haccepted := x.accepted
  rw [h, read] at haccepted
  split at haccepted
  · rename_i hdotted
    cases haccepted
    obtain ⟨a, b, c, d, hoctets, ha, hb, hc, hd⟩ := octets_spec hdotted
    refine ⟨a, b, c, d, hoctets, ha, hb, hc, hd, ?_⟩
    rw [Address.kept, Address.keep, if_pos hdotted, ← text_of_octets x.text, hoctets,
      truncate_octets ha hb hc hd]
  · obtain ⟨_, _, heq⟩ := Option.map_eq_some_iff.mp haccepted
    cases heq

theorem answers_v4 {x : Address} {octs : List Text} (h : x.form = .v4 octs) : x.Answers := by
  obtain ⟨a, b, c, d, rfl, ha, hb, hc, hd, hkept⟩ := accepted_v4 h
  have hzero : isOctet ['0'] := by decide
  have hoctets := octets_intercalate ha hb hc hzero
  have hfour : isIPv4 (['.'].intercalate [a, b, c, ['0']]) := by
    rw [isIPv4, hoctets]
    simp [ha, hb, hc, hzero]
  refine ⟨_, .v4 [a, b, c, ['0']], hkept, ?_, ?_, ?_⟩
  · rw [read, if_pos hfour, hoctets]
  · rw [h, (value_v4 a b c hzero).1, (value_v4 a b c hd).1]
  · rw [(value_v4 a b c hzero).2]
    rfl

theorem kept_v4 {x y : Address} {xs ys : List Text} (hx : x.form = .v4 xs) (hy : y.form = .v4 ys)
    (h : x.form.network = y.form.network) : x.kept = y.kept := by
  obtain ⟨a, b, c, d, rfl, ha, hb, hc, hd, hkept⟩ := accepted_v4 hx
  obtain ⟨a', b', c', d', rfl, ha', hb', hc', hd', hkept'⟩ := accepted_v4 hy
  rw [hx, hy, (value_v4 a b c hd).1, (value_v4 a' b' c' hd').1, Network.v4.injEq] at h
  have hlt : ∀ u v w : Text, isOctet u → isOctet v → isOctet w →
      ∀ n ∈ [decimal u, decimal v, decimal w], n < 256 := by
    intro u v w hu hv hw n hn
    have := (octet_spec hu).2.2.2
    have := (octet_spec hv).2.2.2
    have := (octet_spec hw).2.2.2
    simp only [List.mem_cons, List.not_mem_nil, or_false] at hn
    omega
  have hlist : [decimal a, decimal b, decimal c] = [decimal a', decimal b', decimal c'] :=
    Numeral.value_inj (by omega) rfl (hlt a b c ha hb hc) (hlt a' b' c' ha' hb' hc') h
  simp only [List.cons.injEq, and_true] at hlist
  rw [hkept, hkept', decimal_inj ha ha' hlist.1, decimal_inj hb hb' hlist.2.1,
    decimal_inj hc hc' hlist.2.2]

end Dotted

section Pairs
variable {a b : Address} {f g : V6}

theorem network_of_kept (ha : a.Answers) (hb : b.Answers) (h : a.kept = b.kept) :
    a.form.network = b.form.network := by
  obtain ⟨t, form, hkept, hread, hnetwork, -⟩ := ha
  obtain ⟨t', form', hkept', hread', hnetwork', -⟩ := hb
  cases hkept.symm.trans (h.trans hkept')
  cases hread.symm.trans hread'
  exact hnetwork.symm.trans hnetwork'

theorem kept_v6 (h : a.form = .v6 f) (hcounted : f.Counted) :
    f.counted.length = 3 ∧ a.kept = .ok (some (Address.shown f.counted)) := by
  obtain ⟨-, hvalid, hkept⟩ := accepted_v6 h
  have hthree := congrArg List.length hcounted.2
  rw [List.length_map, List.length_take, groups_length hvalid] at hthree
  cases shown_of_valid hvalid with
  | crowded htotal hnetwork =>
    have := hcounted.1
    omega
  | counted htotal hlength hnetwork =>
    rw [hkept, hnetwork]
    exact ⟨hlength, rfl⟩
  | zoned hlength w r rest hw hw' hnetwork => omega

theorem stripped_eq_iff {s t : Text} (hs : isGroup s) (ht : isGroup t) (h : hex s = hex t) :
    Address.stripped s = Address.stripped t ↔ Cased s t := by
  constructor
  · intro heq p hp
    rw [heq, List.zip_eq_zipWith, List.zipWith_self] at hp
    obtain ⟨c, -, rfl⟩ := List.mem_map.mp hp
    rfl
  · intro hcased
    obtain ⟨hshex, hsmap⟩ := stripped_spec hs
    obtain ⟨hthex, htmap⟩ := stripped_spec ht
    exact map_digit_inj hshex hthex (by rw [hsmap, htmap, h]) hcased

theorem shown_eq_iff {gs hs : List Text} (hgs : ∀ x ∈ gs, isGroup x) (hhs : ∀ x ∈ hs, isGroup x)
    (hlength : gs.length = 3) (hlength' : hs.length = 3) (h : gs.map hex = hs.map hex) :
    Address.shown gs = Address.shown hs ↔ ∀ p ∈ gs.zip hs, Cased p.1 p.2 := by
  have hshown : Address.shown gs = Address.shown hs ↔
      gs.map Address.stripped = hs.map Address.stripped := by
    refine ⟨fun heq => ?_, fun heq => by rw [Address.shown, Address.shown, heq]⟩
    have hread := read_shown hgs hlength
    rw [heq, read_shown hhs hlength'] at hread
    simp only [Option.some.injEq, Form.v6.injEq, V6.ofGroups, V6.mk.injEq] at hread
    exact hread.1.symm
  rw [hshown]
  clear hshown hlength hlength'
  induction gs generalizing hs with
  | nil =>
    cases hs with
    | nil => simp
    | cons t hs => simp at h
  | cons s gs ih =>
    cases hs with
    | nil => simp at h
    | cons t hs =>
      obtain ⟨hhead, htail⟩ := List.cons.inj h
      have hrest : gs.map Address.stripped = hs.map Address.stripped ↔
          ∀ p ∈ gs.zip hs, Cased p.1 p.2 := ih (fun x hx => hgs x (List.mem_cons_of_mem _ hx))
        (fun x hx => hhs x (List.mem_cons_of_mem _ hx)) htail
      have hone := stripped_eq_iff (hgs s List.mem_cons_self) (hhs t List.mem_cons_self) hhead
      rw [List.map_cons, List.map_cons, List.cons.injEq, hrest, hone, List.zip_cons_cons,
        List.forall_mem_cons]

theorem exact_v6 (ha : a.form = .v6 f) (hb : b.form = .v6 g) (hf : f.Steady) (hg : g.Steady)
    (h : a.form.network = b.form.network) :
    a.kept = b.kept ↔ ∀ p ∈ f.leading.zip g.leading, Cased p.1 p.2 := by
  obtain ⟨-, hfvalid, -⟩ := accepted_v6 ha
  obtain ⟨-, hgvalid, -⟩ := accepted_v6 hb
  have hfcounted := (counted_iff hfvalid).mpr hf
  have hgcounted := (counted_iff hgvalid).mpr hg
  obtain ⟨hflength, hfkept⟩ := kept_v6 ha hfcounted
  obtain ⟨hglength, hgkept⟩ := kept_v6 hb hgcounted
  rw [ha, hb, network_eq_iff hfvalid hgvalid, ← hfcounted.2, ← hgcounted.2] at h
  have hshown := shown_eq_iff (counted_groups hfvalid) (counted_groups hgvalid) hflength hglength h
  rw [hfkept, hgkept, Except.ok.injEq, Option.some.injEq, hshown]
  exact cased_congr (stripped_leading hfvalid hf) (stripped_leading hgvalid hg)

/-- Two addresses are kept as their networks exactly where each is steady, and the first groups of one network
have their letters in the one case. -/
theorem exact_iff_steady (a b : Address) :
    a.Exact b ↔ a.form.Steady ∧ b.form.Steady ∧
      (a.form.network = b.form.network → a.form.Cased b.form) := by
  have hanswers : ∀ x : Address, x.Answers ↔ x.form.Steady := by
    intro x
    cases hx : x.form with
    | v4 octs => exact iff_of_true (answers_v4 hx) trivial
    | v6 f => exact (answers_v6 hx).trans (counted_iff (accepted_v6 hx).2.1)
  rw [Address.Exact, hanswers, hanswers]
  refine and_congr_right fun hasteady => and_congr_right fun hbsteady => ?_
  have hback := network_of_kept ((hanswers a).mpr hasteady) ((hanswers b).mpr hbsteady)
  cases ha : a.form with
  | v4 xs =>
    cases hb : b.form with
    | v4 ys =>
      rw [ha, hb] at hback
      exact ⟨fun _ _ => trivial, fun _ => ⟨hback, fun h => kept_v4 ha hb (by rw [ha, hb, h])⟩⟩
    | v6 g =>
      rw [ha, hb] at hback
      exact ⟨fun _ _ => trivial, fun _ => ⟨hback, nofun⟩⟩
  | v6 f =>
    cases hb : b.form with
    | v4 ys =>
      rw [ha, hb] at hback
      exact ⟨fun _ _ => trivial, fun _ => ⟨hback, nofun⟩⟩
    | v6 g =>
      rw [ha] at hasteady
      rw [hb] at hbsteady
      have hsame := exact_v6 ha hb hasteady hbsteady
      rw [ha, hb] at hback hsame
      exact ⟨fun h hnetwork => (hsame hnetwork).mp (h.mpr hnetwork),
        fun h => ⟨hback, fun hnetwork => (hsame hnetwork).mpr (h hnetwork)⟩⟩

end Pairs

def upper : Address := ⟨"2001:DB8::1".toList, .v6 ⟨["2001".toList, "DB8".toList], some ["1".toList],
  none, none⟩, by decide +kernel⟩

def lower : Address := ⟨"2001:db8::1".toList, .v6 ⟨["2001".toList, "db8".toList], some ["1".toList],
  none, none⟩, by decide +kernel⟩

def tailed : Address := ⟨"::a:b:c:d:1.2.3.4".toList,
  .v6 ⟨[], some ["a".toList, "b".toList, "c".toList, "d".toList], some "1.2.3.4".toList, none⟩,
  by decide +kernel⟩

/-- One network is kept as two, and another is not the one the address is in. -/
theorem networks_are_mistaken : ¬ upper.Exact lower ∧ ¬ tailed.Answers := by
  constructor
  · intro h
    have hsame : upper.form.network = lower.form.network := by decide +kernel
    have hkept := h.2.2.mpr hsame
    revert hkept
    decide +kernel
  · rw [answers_v6 rfl]
    decide +kernel

end Toa.Chronicles
