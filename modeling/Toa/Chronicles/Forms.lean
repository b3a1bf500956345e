import Mathlib.Data.List.TakeWhile
import Toa.Lib.Numeral
import Toa.Lib.Words

/-! The texts that `isIPv4` and `isIPv6` take for addresses, read and written, and the address each
is a form of. -/

namespace Toa.Chronicles

abbrev Text := List Char

def DIGITS : Text := "0123456789".toList
def HEX : Text := "0123456789abcdefABCDEF".toList

/-- The characters of a zone: `[0-9a-zA-Z-.:]` -/
def isZone (c : Char) : Bool := c.isAlphanum || c = '-' || c = '.' || c = ':'

def digit (c : Char) : ℕ :=
  if c.isDigit then c.toNat - '0'.toNat
  else if c.isLower then c.toNat - 'a'.toNat + 10
  else c.toNat - 'A'.toNat + 10

def decimal (t : Text) : ℕ := Numeral.value 10 (t.map digit)
def hex (t : Text) : ℕ := Numeral.value 16 (t.map digit)

def isOctet (t : Text) : Bool :=
  t ≠ [] && t.all DIGITS.contains && (t.length = 1 || t.head? ≠ some '0') && decimal t ≤ 255

def isGroup (t : Text) : Bool := t ≠ [] && t.length ≤ 4 && t.all HEX.contains

def octets (t : Text) : List Text := t.splitOn '.'

def isIPv4 (t : Text) : Bool := (octets t).length = 4 && (octets t).all isOctet

def ending : Option Text → Text
  | none => []
  | some zone => '%' :: zone

/-- `gap` is of the groups after `::`, where it stands, and `dotted` is of the last two. -/
structure V6 where
  left : List Text
  gap : Option (List Text)
  dotted : Option Text
  zone : Option Text
  deriving DecidableEq

namespace V6

def right (f : V6) : List Text := f.gap.getD []

def written (f : V6) : ℕ := f.left.length + f.right.length + 2 * f.dotted.toList.length

structure Valid (f : V6) : Prop where
  left : ∀ g ∈ f.left, isGroup g
  right : ∀ g ∈ f.right, isGroup g
  dotted : ∀ d ∈ f.dotted, isIPv4 d
  zone : ∀ z ∈ f.zone, z ≠ [] ∧ z.all isZone
  written : if f.gap.isSome then f.written ≤ 7 else f.written = 8

def body (f : V6) : Text :=
  match f.gap with
  | none => [':'].intercalate (f.left ++ f.dotted.toList)
  | some right =>
    [':'].intercalate f.left ++ ':' :: ':' :: [':'].intercalate (right ++ f.dotted.toList)

def text (f : V6) : Text := f.body ++ ending f.zone

end V6

def pieces (t : Text) : List Text := if t = [] then [] else t.splitOn ':'

def trailing (ps : List Text) : Option (List Text × Option Text) :=
  if ps.all isGroup then some (ps, none)
  else match ps.getLast? with
    | some last =>
      if isIPv4 last && ps.dropLast.all isGroup then some (ps.dropLast, some last) else none
    | none => none

def zoned (t : Text) : Option (Text × Option Text) :=
  match t.dropWhile (· ≠ '%') with
  | [] => some (t, none)
  | _ :: zone =>
    if zone ≠ [] && zone.all isZone then some (t.takeWhile (· ≠ '%'), some zone) else none

def readBody (zone : Option Text) (body : Text) : Option V6 :=
  match Words.splitPairs ':' body with
  | [body] => (trailing (pieces body)).bind fun (left, dotted) =>
    let f : V6 := ⟨left, none, dotted, zone⟩
    if f.written = 8 then some f else none
  | [head, tail] =>
    if (pieces head).all isGroup then
      (trailing (pieces tail)).bind fun (right, dotted) =>
        let f : V6 := ⟨pieces head, some right, dotted, zone⟩
        if f.written ≤ 7 then some f else none
    else none
  | _ => none

def readIPv6 (t : Text) : Option V6 := (zoned t).bind fun (body, zone) => readBody zone body

def isIPv6 (t : Text) : Bool := (readIPv6 t).isSome

inductive Form
  | v4 (octets : List Text)
  | v6 (form : V6)
  deriving DecidableEq

def read (t : Text) : Option Form :=
  if isIPv4 t then some (.v4 (octets t)) else (readIPv6 t).map .v6

def paired (octets : List ℕ) : List ℕ :=
  match octets with
  | [a, b, c, d] => [a * 256 + b, c * 256 + d]
  | _ => []

/-- The eight groups of an address, where `::` is of as many as are not written. -/
def V6.groups (f : V6) : List ℕ :=
  f.left.map hex ++ List.replicate (8 - f.written) 0 ++ f.right.map hex ++
    f.dotted.toList.flatMap fun d => paired ((octets d).map decimal)

def Form.value : Form → ℕ
  | .v4 octets => Numeral.value 256 (octets.map decimal)
  | .v6 form => Numeral.value 65536 form.groups

/-- The first 24 bits, or 48. -/
inductive Network
  | v4 (bits : ℕ)
  | v6 (bits : ℕ)
  deriving DecidableEq

def Form.network (f : Form) : Network :=
  match f with
  | .v4 _ => .v4 (f.value / 2 ^ 8)
  | .v6 _ => .v6 (f.value / 2 ^ 80)

def Form.host (f : Form) : ℕ :=
  match f with
  | .v4 _ => f.value % 2 ^ 8
  | .v6 _ => f.value % 2 ^ 80

section Characters

theorem forall_of_all {p : Char → Prop} [DecidablePred p] {t : Text}
    (h : t.all fun c => decide (p c)) : ∀ c ∈ t, p c :=
  fun c hc => of_decide_eq_true (List.all_eq_true.mp h c hc)

theorem digit_lt_of_hex : ∀ c ∈ HEX, digit c < 16 := forall_of_all (by decide)

theorem digit_eq_zero_iff : ∀ c ∈ HEX, digit c = 0 ↔ c = '0' := forall_of_all (by decide)

theorem digit_inj : ∀ c ∈ HEX, ∀ d ∈ HEX, digit c = digit d → c.isUpper = d.isUpper → c = d := by
  have h : HEX.all fun c => HEX.all fun d =>
      decide (digit c = digit d → c.isUpper = d.isUpper → c = d) := by decide +kernel
  intro c hc
  exact forall_of_all (List.all_eq_true.mp h c hc)

theorem hex_of_decimal : ∀ c ∈ DIGITS, c ∈ HEX ∧ digit c < 10 ∧ c.isUpper = false :=
  forall_of_all (by decide)

theorem hex_plain : ':' ∉ HEX ∧ '%' ∉ HEX ∧ '.' ∉ HEX := by decide

end Characters

section Words

theorem word_of_group {g : Text} (h : isGroup g) : Words.Word ':' g ∧ '%' ∉ g ∧ '.' ∉ g := by
  simp only [isGroup, Bool.and_eq_true, decide_eq_true_eq, List.all_eq_true, List.contains_iff_mem,
    ne_eq] at h
  obtain ⟨⟨hne, -⟩, hall⟩ := h
  obtain ⟨hcolon, hpercent, hdot⟩ := hex_plain
  exact ⟨⟨hne, fun hc => hcolon (hall _ hc)⟩, fun hc => hpercent (hall _ hc),
    fun hc => hdot (hall _ hc)⟩

theorem octet_spec {t : Text} (h : isOctet t) : t ≠ [] ∧ (∀ c ∈ t, c ∈ DIGITS) ∧
    (t.length = 1 ∨ t.head? ≠ some '0') ∧ decimal t ≤ 255 := by
  simp only [isOctet, Bool.and_eq_true, decide_eq_true_eq, List.all_eq_true,
    List.contains_iff_mem, ne_eq, Bool.or_eq_true] at h
  exact ⟨h.1.1.1, h.1.1.2, h.1.2, h.2⟩

theorem octets_spec {t : Text} (h : isIPv4 t) : ∃ a b c d, octets t = [a, b, c, d] ∧
    isOctet a ∧ isOctet b ∧ isOctet c ∧ isOctet d := by
  simp only [isIPv4, Bool.and_eq_true, decide_eq_true_eq, List.all_eq_true] at h
  obtain ⟨hlength, hall⟩ := h
  match ht : octets t, hlength with
  | [a, b, c, d], _ => exact ⟨a, b, c, d, rfl, hall a (by simp [ht]), hall b (by simp [ht]),
      hall c (by simp [ht]), hall d (by simp [ht])⟩

theorem text_of_octets (t : Text) : ['.'].intercalate (octets t) = t := List.intercalate_splitOn _

theorem word_of_dotted {t : Text} (h : isIPv4 t) : Words.Word ':' t ∧ '%' ∉ t ∧ '.' ∈ t := by
  obtain ⟨a, b, c, d, ht, ha, hb, hc, hd⟩ := octets_spec h
  have htext := text_of_octets t
  rw [ht] at htext
  have hchar : ∀ x ∈ t, x = '.' ∨ x ∈ DIGITS := by
    intro x hx
    rw [← htext] at hx
    refine (Words.mem_intercalate hx).imp_right ?_
    rintro ⟨w, hw, hmem⟩
    simp only [List.mem_cons, List.not_mem_nil, or_false] at hw
    rcases hw with rfl | rfl | rfl | rfl
    · exact (octet_spec ha).2.1 x hmem
    · exact (octet_spec hb).2.1 x hmem
    · exact (octet_spec hc).2.1 x hmem
    · exact (octet_spec hd).2.1 x hmem
  have hdot : '.' ∈ t := by
    rw [← htext]
    simp [List.intercalate_cons_cons]
  refine ⟨⟨List.ne_nil_of_mem hdot, fun hx => ?_⟩, fun hx => ?_, hdot⟩
  · rcases hchar _ hx with h | h
    · revert h; decide
    · revert h; decide
  · rcases hchar _ hx with h | h
    · revert h; decide
    · revert h; decide

theorem not_group_of_dotted {t : Text} (h : isIPv4 t) : isGroup t = false := by
  by_contra hgroup
  exact (word_of_group (Bool.eq_true_of_not_eq_false hgroup)).2.2 (word_of_dotted h).2.2

theorem pieces_intercalate {ws : List Text} (hws : ∀ w ∈ ws, Words.Word ':' w) :
    pieces ([':'].intercalate ws) = ws := by
  unfold pieces
  cases ws with
  | nil => rfl
  | cons w ws =>
    obtain ⟨hne, -⟩ := hws w List.mem_cons_self
    have hnot : [':'].intercalate (w :: ws) ≠ [] := by
      cases ws with
      | nil => simpa using hne
      | cons v ws => simp [List.intercalate_cons_cons]
    rw [if_neg hnot, List.splitOn_intercalate _ (fun v hv => (hws v hv).2) (List.cons_ne_nil _ _)]

theorem intercalate_pieces (t : Text) : [':'].intercalate (pieces t) = t := by
  unfold pieces
  split
  · rename_i h
    rw [h]
    rfl
  · exact List.intercalate_splitOn _

theorem trailing_append {gs : List Text} {dotted : Option Text} (hgs : ∀ g ∈ gs, isGroup g)
    (hdotted : ∀ d ∈ dotted, isIPv4 d) : trailing (gs ++ dotted.toList) = some (gs, dotted) := by
  have hall : gs.all isGroup := List.all_eq_true.mpr hgs
  cases dotted with
  | none => simp [trailing, hall]
  | some d =>
    have hd := hdotted d rfl
    simp [trailing, hall, hd, not_group_of_dotted hd]

theorem trailing_eq_some {ps gs : List Text} {dotted : Option Text}
    (h : trailing ps = some (gs, dotted)) :
    ps = gs ++ dotted.toList ∧ (∀ g ∈ gs, isGroup g) ∧ ∀ d ∈ dotted, isIPv4 d := by
  unfold trailing at h
  split at h
  · rename_i hall
    cases h
    exact ⟨by simp, List.all_eq_true.mp hall, nofun⟩
  · split at h
    · rename_i last hlast
      split at h
      · rename_i hand
        cases h
        simp only [Bool.and_eq_true, List.all_eq_true] at hand
        refine ⟨?_, hand.2, fun d hd => by cases hd; exact hand.1⟩
        exact (List.dropLast_append_getLast? last hlast).symm
      · cases h
    · cases h

end Words

section Reading

theorem zoned_append {body : Text} {zone : Option Text} (hbody : '%' ∉ body)
    (hzone : ∀ z ∈ zone, z ≠ [] ∧ z.all isZone) :
    zoned (body ++ ending zone) = some (body, zone) := by
  have hall : ∀ c ∈ body, decide (c ≠ '%') = true := by
    intro c hc
    exact decide_eq_true fun h => hbody (h ▸ hc)
  cases zone with
  | none =>
    simp only [ending, List.append_nil, zoned]
    rw [List.dropWhile_eq_nil_iff.mpr hall]
  | some z =>
    obtain ⟨hne, hz⟩ := hzone z rfl
    simp only [ending, zoned]
    rw [List.dropWhile_append_of_pos hall, List.takeWhile_append_of_pos hall]
    simp [hne, hz]

theorem zoned_eq_some {t body : Text} {zone : Option Text} (h : zoned t = some (body, zone)) :
    t = body ++ ending zone ∧ ∀ z ∈ zone, z ≠ [] ∧ z.all isZone := by
  unfold zoned at h
  have hsplit := List.takeWhile_append_dropWhile (p := fun c => decide (c ≠ '%')) (l := t)
  split at h
  · cases h
    exact ⟨by simp [ending], nofun⟩
  · rename_i c z hdrop
    split at h
    · rename_i hz
      cases h
      have hc : c = '%' := by
        have hhead := List.head_dropWhile_not (p := fun c => decide (c ≠ '%')) (l := t)
        simp only [hdrop] at hhead
        exact of_not_not (of_decide_eq_false (hhead (List.cons_ne_nil _ _)))
      refine ⟨?_, fun z hz' => ?_⟩
      · rw [hdrop, hc] at hsplit
        exact hsplit.symm
      · cases hz'
        simpa using hz
    · cases h

theorem readIPv6_text {f : V6} (h : f.Valid) : readIPv6 f.text = some f := by
  obtain ⟨left, gap, dotted, zone⟩ := f
  have hleft : ∀ g ∈ left, Words.Word ':' g ∧ '%' ∉ g :=
    fun g hg => ⟨(word_of_group (h.left g hg)).1, (word_of_group (h.left g hg)).2.1⟩
  have hdotted : ∀ d ∈ dotted, Words.Word ':' d ∧ '%' ∉ d :=
    fun d hd => ⟨(word_of_dotted (h.dotted d hd)).1, (word_of_dotted (h.dotted d hd)).2.1⟩
  have hwords : ∀ gs : List Text, (∀ g ∈ gs, isGroup g) → ∀ w ∈ gs ++ dotted.toList,
      Words.Word ':' w ∧ '%' ∉ w := by
    intro gs hgs w hw
    rcases List.mem_append.mp hw with hw | hw
    · exact ⟨(word_of_group (hgs w hw)).1, (word_of_group (hgs w hw)).2.1⟩
    · exact hdotted w (Option.mem_toList.mp hw)
  have hpercent : ∀ ws : List Text, (∀ w ∈ ws, Words.Word ':' w ∧ '%' ∉ w) →
      '%' ∉ [':'].intercalate ws := by
    intro ws hws hmem
    rcases Words.mem_intercalate hmem with h | ⟨w, hw, hmem⟩
    · revert h; decide
    · exact (hws w hw).2 hmem
  cases gap with
  | none =>
    have hwritten : (V6.mk left none dotted zone).written = 8 := h.written
    have hall := hwords left h.left
    have hsplit := Words.splitPairs_intercalate (fun w hw => (hall w hw).1) []
    rw [List.append_nil] at hsplit
    have hnot : '%' ∉ (V6.mk left none dotted zone).body := hpercent _ hall
    have htrailing : trailing (left ++ dotted.toList) = some (left, dotted) :=
      trailing_append h.left h.dotted
    rw [readIPv6, V6.text, zoned_append hnot h.zone, Option.bind_some]
    simp only [V6.body, readBody, hsplit, Words.splitPairs, List.modifyHead_cons, List.append_nil]
    rw [pieces_intercalate fun w hw => (hall w hw).1, htrailing]
    simp only [Option.bind_some, hwritten, if_true]
  | some right =>
    have hwritten : (V6.mk left (some right) dotted zone).written ≤ 7 := h.written
    have hall := hwords right h.right
    have hsplit := Words.splitPairs_intercalate (fun w hw => (hall w hw).1) []
    rw [List.append_nil] at hsplit
    have hnot : '%' ∉ (V6.mk left (some right) dotted zone).body := by
      intro hmem
      simp only [V6.body, List.mem_append, List.mem_cons] at hmem
      rcases hmem with hmem | hmem | hmem | hmem
      · exact hpercent _ hleft hmem
      · revert hmem; decide
      · revert hmem; decide
      · exact hpercent _ hall hmem
    have hgroups : left.all isGroup := List.all_eq_true.mpr h.left
    have htrailing : trailing (right ++ dotted.toList) = some (right, dotted) :=
      trailing_append h.right h.dotted
    rw [readIPv6, V6.text, zoned_append hnot h.zone, Option.bind_some]
    simp only [V6.body, readBody]
    rw [Words.splitPairs_intercalate (fun w hw => (hleft w hw).1), Words.splitPairs_pair, hsplit]
    simp only [Words.splitPairs, List.modifyHead_cons, List.append_nil]
    rw [pieces_intercalate fun w hw => (hleft w hw).1, pieces_intercalate fun w hw => (hall w hw).1,
      htrailing, if_pos hgroups]
    simp only [Option.bind_some, hwritten, if_true]

theorem text_of_readIPv6 {t : Text} {f : V6} (hread : readIPv6 t = some f) :
    t = f.text ∧ f.Valid := by
  obtain ⟨⟨body, zone⟩, hzoned, h⟩ := Option.bind_eq_some_iff.mp hread
  obtain ⟨rfl, hzone⟩ := zoned_eq_some hzoned
  have hbody := Words.intercalate_splitPairs ':' body
  dsimp only [readBody] at h
  split at h
  · rename_i b hsplit
    obtain ⟨⟨left, dotted⟩, htrailing, h⟩ := Option.bind_eq_some_iff.mp h
    obtain ⟨hpieces, hgroups, hdotted⟩ := trailing_eq_some htrailing
    dsimp only at h
    split at h
    · rename_i hwritten
      cases h
      refine ⟨?_, hgroups, nofun, hdotted, hzone, hwritten⟩
      rw [hsplit, List.intercalate_singleton] at hbody
      rw [V6.text, V6.body, ← hpieces, intercalate_pieces, hbody]
    · cases h
  · rename_i head tail hsplit
    split at h
    · rename_i hhead
      obtain ⟨⟨right, dotted⟩, htrailing, h⟩ := Option.bind_eq_some_iff.mp h
      obtain ⟨hpieces, hgroups, hdotted⟩ := trailing_eq_some htrailing
      dsimp only at h
      split at h
      · rename_i hwritten
        cases h
        refine ⟨?_, List.all_eq_true.mp hhead, hgroups, hdotted, hzone, hwritten⟩
        rw [hsplit, List.intercalate_cons_cons, List.intercalate_singleton] at hbody
        simp only [V6.text, V6.body]
        rw [← hpieces, intercalate_pieces, intercalate_pieces, ← hbody]
        simp
      · cases h
    · cases h
  · cases h

end Reading

section Values

theorem hex_lt {g : Text} (h : isGroup g) : hex g < 65536 := by
  simp only [isGroup, Bool.and_eq_true, decide_eq_true_eq, List.all_eq_true,
    List.contains_iff_mem] at h
  obtain ⟨⟨-, hlength⟩, hall⟩ := h
  have hlt : hex g < 16 ^ (g.map digit).length := by
    refine Numeral.value_lt (by omega) fun d hd => ?_
    obtain ⟨c, hc, rfl⟩ := List.mem_map.mp hd
    exact digit_lt_of_hex c (hall c hc)
  rw [List.length_map] at hlt
  exact hlt.trans_le (Nat.pow_le_pow_right (by omega) hlength)

variable {f : V6}

theorem paired_octets {d : Text} (h : isIPv4 d) :
    (paired ((octets d).map decimal)).length = 2 ∧
      ∀ g ∈ paired ((octets d).map decimal), g < 65536 := by
  obtain ⟨w, x, y, z, hd, hw, hx, hy, hz⟩ := octets_spec h
  have hw := (octet_spec hw).2.2.2
  have hx := (octet_spec hx).2.2.2
  have hy := (octet_spec hy).2.2.2
  have hz := (octet_spec hz).2.2.2
  rw [hd]
  refine ⟨rfl, fun g hg => ?_⟩
  simp only [List.map_cons, List.map_nil, paired, List.mem_cons, List.not_mem_nil, or_false] at hg
  omega

theorem written_le (h : f.Valid) : f.written ≤ 8 := by
  have hwritten := h.written
  split at hwritten
  · omega
  · omega

theorem written_gap (h : f.Valid) {right : List Text} (hgap : f.gap = some right) : f.written ≤ 7 := by
  have hwritten := h.written
  rwa [hgap, Option.isSome_some, if_pos rfl] at hwritten

theorem written_whole (h : f.Valid) (hgap : f.gap = none) : f.left.length + 2 * f.dotted.toList.length = 8 := by
  have hwritten := h.written
  simpa [V6.written, V6.right, hgap] using hwritten

theorem groups_length (h : f.Valid) : f.groups.length = 8 := by
  have hle := written_le h
  have hdotted : (f.dotted.toList.flatMap fun d => paired ((octets d).map decimal)).length =
      2 * f.dotted.toList.length := by
    cases hd : f.dotted with
    | none => rfl
    | some d => simpa [hd] using (paired_octets (h.dotted d hd)).1
  simp only [V6.groups, List.length_append, List.length_map, List.length_replicate, hdotted]
  unfold V6.written at hle ⊢
  omega

theorem groups_lt (h : f.Valid) : ∀ g ∈ f.groups, g < 65536 := by
  intro g hg
  simp only [V6.groups, List.mem_append, List.mem_map, List.mem_replicate, List.mem_flatMap,
    Option.mem_toList] at hg
  rcases hg with ((⟨t, ht, rfl⟩ | ⟨-, rfl⟩) | ⟨t, ht, rfl⟩) | ⟨d, hd, hg⟩
  · exact hex_lt (h.left t ht)
  · omega
  · exact hex_lt (h.right t ht)
  · exact (paired_octets (h.dotted d hd)).2 g hg

theorem value_v6 (h : f.Valid) :
    (Form.v6 f).network = .v6 (Numeral.value 65536 (f.groups.take 3)) ∧
      (Form.v6 f).host = Numeral.value 65536 (f.groups.drop 3) := by
  have hpow : 2 ^ 80 = 65536 ^ (f.groups.drop 3).length := by
    rw [List.length_drop, groups_length h]
    rfl
  have hlt : ∀ g ∈ f.groups.drop 3, g < 65536 := fun g hg => groups_lt h g (List.mem_of_mem_drop hg)
  have hvalue : (Form.v6 f).value =
      Numeral.value 65536 (f.groups.take 3 ++ f.groups.drop 3) := by
    rw [List.take_append_drop]
    rfl
  constructor
  · rw [Form.network, hvalue, hpow, Numeral.value_append_div (by omega) hlt]
  · rw [Form.host, hvalue, hpow, Numeral.value_append, Nat.mul_comm, Nat.mul_add_mod,
      Nat.mod_eq_of_lt (Numeral.value_lt (by omega) hlt)]

theorem network_eq_iff {g : V6} (hf : f.Valid) (hg : g.Valid) :
    (Form.v6 f).network = (Form.v6 g).network ↔ f.groups.take 3 = g.groups.take 3 := by
  rw [(value_v6 hf).1, (value_v6 hg).1, Network.v6.injEq]
  refine ⟨fun h => ?_, fun h => by rw [h]⟩
  refine Numeral.value_inj (by omega) ?_ ?_ ?_ h
  · rw [List.length_take, List.length_take, groups_length hf, groups_length hg]
  · exact fun d hd => groups_lt hf d (List.mem_of_mem_take hd)
  · exact fun d hd => groups_lt hg d (List.mem_of_mem_take hd)

end Values

end Toa.Chronicles
