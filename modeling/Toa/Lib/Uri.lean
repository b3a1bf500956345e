import Mathlib.Algebra.GroupWithZero.Nat
import Mathlib.Data.List.Basic
import Mathlib.Tactic.SplitIfs
import Toa.Lib.Words

/-! The path of a URL: how it is written into one, how a component of it is read, and what a text that
begins with a slash becomes as the path of an `https` URL. -/

namespace Uri

/-! ## Escapes -/

def utf8 (c : Char) : List ℕ := (String.utf8EncodeChar c).map UInt8.toNat

def hex (n : ℕ) : Char := if n < 10 then Char.ofNat (48 + n) else Char.ofNat (55 + n)

def escape (octet : ℕ) : List Char := ['%', hex (octet / 16), hex (octet % 16)]

def percent (c : Char) : List Char := (utf8 c).flatMap escape

/-! ## Components -/

def digit (c : Char) : Option ℕ :=
  let n := c.toNat
  if 48 ≤ n ∧ n < 58 then some (n - 48)
  else if 65 ≤ n ∧ n < 71 then some (n - 55)
  else if 97 ≤ n ∧ n < 103 then some (n - 87)
  else none

def octet : List Char → Option (ℕ × List Char)
  | '%' :: a :: b :: text =>
    (digit a).bind fun high => (digit b).map fun low => (16 * high + low, text)
  | _ => none

def octets : ℕ → List Char → Option (List ℕ × List Char)
  | 0, text => some ([], text)
  | n + 1, text =>
    (octet text).bind fun first => (octets n first.2).map fun more => (first.1 :: more.1, more.2)

def width (first : ℕ) : Option ℕ :=
  if first < 0x80 then some 1
  else if first < 0xC0 then none
  else if first < 0xE0 then some 2
  else if first < 0xF0 then some 3
  else if first < 0xF8 then some 4
  else none

def value : List ℕ → ℕ
  | [a] => a
  | [a, b] => (a - 0xC0) * 64 + (b - 0x80)
  | [a, b, c] => (a - 0xE0) * 4096 + (b - 0x80) * 64 + (c - 0x80)
  | [a, b, c, d] => (a - 0xF0) * 262144 + (b - 0x80) * 4096 + (c - 0x80) * 64 + (d - 0x80)
  | _ => 0

def char (read : List ℕ) : Option Char :=
  if utf8 (Char.ofNat (value read)) = read then some (Char.ofNat (value read)) else none

def escaped (text : List Char) : Option (Char × List Char) :=
  (octet text).bind fun first => (width first.1).bind fun n => (octets n text).bind fun read =>
    (char read.1).map fun c => (c, read.2)

def decodeIn : ℕ → List Char → Option (List Char)
  | _, [] => some []
  | 0, _ :: _ => none
  | n + 1, c :: text =>
    if c = '%' then (escaped (c :: text)).bind fun read => (decodeIn n read.2).map (read.1 :: ·)
    else (decodeIn n text).map (c :: ·)

def decodeURIComponent (text : String) : Option String :=
  (decodeIn text.toList.length text.toList).map String.ofList

/-! ## Paths -/

/-- The path percent-encode set: controls, what is not ASCII, and a space, a quote, a hash, angles, a
question mark, a caret, a grave accent and braces. -/
def inPath (c : Char) : Bool :=
  decide (c.toNat ≤ 0x1F) || decide (0x7E < c.toNat) ||
    [0x20, 0x22, 0x23, 0x3C, 0x3E, 0x3F, 0x5E, 0x60, 0x7B, 0x7D].contains c.toNat

def encode (text : List Char) : List Char :=
  text.flatMap fun c => if inPath c then percent c else [c]

def dropped (c : Char) : Bool := [0x09, 0x0A, 0x0D].contains c.toNat

def oneDot (segment : List Char) : Bool :=
  ["." , "%2e"].contains (String.ofList (segment.map Char.toLower))

def twoDots (segment : List Char) : Bool :=
  ["..", ".%2e", "%2e.", "%2e%2e"].contains (String.ofList (segment.map Char.toLower))

/-- The path state, over what is between slashes: a segment of two dots shortens the path, and one that
ends it leaves it open. -/
def walk (path : List (List Char)) : List (List Char) → List (List Char)
  | [] => path
  | [last] =>
    if twoDots (encode last) then path.dropLast ++ [[]]
    else if oneDot (encode last) then path ++ [[]]
    else path ++ [encode last]
  | segment :: next :: more =>
    walk (if twoDots (encode segment) then path.dropLast
      else if oneDot (encode segment) then path
      else path ++ [encode segment]) (next :: more)

def isSlash (c : Char) : Bool := c = '/' || c = '\\'

/-- The `pathname` of the URL that a text beginning and ending with a slash is, relative to another. Where
it begins with two it is an authority and a path, which `authority` reads. -/
def pathname (authority : List Char → Option String) (text : String) : Option String :=
  let read := text.toList.filter fun c => !dropped c
  if (read.drop 1).head?.any isSlash then authority read
  else
    let segments := ((read.drop 1).map fun c => if isSlash c then '/' else c).splitOn '/'
    some (String.ofList ('/' :: ['/'].intercalate (walk [] segments)))

/-! ## What is written is read -/

theorem digit_hex {n : ℕ} (h : n < 16) : digit (hex n) = some n := by
  have hall : ∀ n < 16, digit (hex n) = some n := by decide
  exact hall n h

theorem octet_escape {b : ℕ} (h : b < 256) (text : List Char) : octet (escape b ++ text) = some (b, text) := by
  have hhigh : digit (hex (b / 16)) = some (b / 16) := digit_hex (by omega)
  have hlow : digit (hex (b % 16)) = some (b % 16) := digit_hex (by omega)
  have hwhole : 16 * (b / 16) + b % 16 = b := Nat.div_add_mod b 16
  simp only [escape, List.cons_append, List.nil_append, octet, hhigh, hlow, Option.bind_some,
    Option.map_some, hwhole]

theorem octets_escapes {read : List ℕ} (h : ∀ b ∈ read, b < 256) (text : List Char) :
    octets read.length (read.flatMap escape ++ text) = some (read, text) := by
  induction read with
  | nil => rfl
  | cons b read ih =>
    obtain ⟨hb, hread⟩ := List.forall_mem_cons.mp h
    rw [List.length_cons, List.flatMap_cons, List.append_assoc, octets, octet_escape hb, Option.bind_some,
      ih hread]
    rfl

theorem value_two (a b : ℕ) : value [a, b] = (a - 0xC0) * 64 + (b - 0x80) := rfl

theorem value_three (a b c : ℕ) : value [a, b, c] = (a - 0xE0) * 4096 + (b - 0x80) * 64 + (c - 0x80) := rfl

theorem value_four (a b c d : ℕ) :
    value [a, b, c, d] = (a - 0xF0) * 262144 + (b - 0x80) * 4096 + (c - 0x80) * 64 + (d - 0x80) := rfl

theorem utf8_spec (c : Char) : ∃ first more, utf8 c = first :: more ∧ (∀ b ∈ first :: more, b < 256) ∧
    width first = some (first :: more).length ∧ value (first :: more) = c.toNat := by
  have hc : c.toNat < 0x110000 := c.valid.elim (fun h => Nat.lt_trans h (by decide)) And.right
  unfold utf8 String.utf8EncodeChar
  change c.val.toNat < _ at hc
  change ∃ first more, _ ∧ _ ∧ _ ∧ _ = c.val.toNat
  generalize c.val.toNat = n at hc
  dsimp only
  split_ifs with h1 h2 h3 <;>
    simp only [List.map_cons, List.map_nil, UInt8.toNat_ofNat'] <;> refine ⟨_, _, rfl, ?_, ?_, ?_⟩
  · exact List.forall_mem_singleton.mpr (by omega)
  · rw [width, if_pos (by omega)]
    rfl
  · exact Nat.mod_eq_of_lt (by omega)
  · exact List.forall_mem_cons.mpr ⟨by omega, List.forall_mem_singleton.mpr (by omega)⟩
  · rw [width, if_neg (by omega), if_neg (by omega), if_pos (by omega)]
    rfl
  · rw [value_two]
    omega
  · exact List.forall_mem_cons.mpr
      ⟨by omega, List.forall_mem_cons.mpr ⟨by omega, List.forall_mem_singleton.mpr (by omega)⟩⟩
  · rw [width, if_neg (by omega), if_neg (by omega), if_neg (by omega), if_pos (by omega)]
    rfl
  · rw [value_three]
    omega
  · exact List.forall_mem_cons.mpr ⟨by omega, List.forall_mem_cons.mpr
      ⟨by omega, List.forall_mem_cons.mpr ⟨by omega, List.forall_mem_singleton.mpr (by omega)⟩⟩⟩
  · rw [width, if_neg (by omega), if_neg (by omega), if_neg (by omega), if_neg (by omega),
      if_pos (by omega)]
    rfl
  · rw [value_four]
    omega

theorem char_utf8 (c : Char) : char (utf8 c) = some c := by
  obtain ⟨first, more, hutf8, -, -, hvalue⟩ := utf8_spec c
  have hc : Char.ofNat (value (utf8 c)) = c := by rw [hutf8, hvalue, Char.ofNat_toNat]
  rw [char, hc, if_pos rfl]

theorem escaped_percent (c : Char) (text : List Char) : escaped (percent c ++ text) = some (c, text) := by
  obtain ⟨first, more, hutf8, hsmall, hwidth, -⟩ := utf8_spec c
  have hfirst : octet (percent c ++ text) = some (first, more.flatMap escape ++ text) := by
    rw [percent, hutf8, List.flatMap_cons, List.append_assoc, octet_escape (hsmall first List.mem_cons_self)]
  have hall : octets (first :: more).length (percent c ++ text) = some (first :: more, text) := by
    rw [percent, hutf8]
    exact octets_escapes hsmall text
  rw [escaped, hfirst, Option.bind_some, hwidth, Option.bind_some, hall, Option.bind_some, ← hutf8, char_utf8]
  rfl

theorem percent_eq_cons (c : Char) : ∃ text, percent c = '%' :: text := by
  obtain ⟨first, more, hutf8, -⟩ := utf8_spec c
  exact ⟨_, by rw [percent, hutf8, List.flatMap_cons]; rfl⟩

theorem decodeIn_encode {text : List Char} (h : '%' ∉ text) {n : ℕ} (hn : (encode text).length ≤ n) :
    decodeIn n (encode text) = some text := by
  induction text generalizing n with
  | nil => cases n <;> rfl
  | cons c text ih =>
    rw [List.mem_cons, not_or] at h
    obtain ⟨hc, htext⟩ := h
    rw [encode, List.flatMap_cons, ← encode] at hn ⊢
    cases n with
    | zero =>
      split_ifs at hn with hin
      · obtain ⟨rest, hrest⟩ := percent_eq_cons c
        rw [hrest] at hn
        cases hn
      · cases hn
    | succ n =>
      split_ifs at hn ⊢ with hin
      · obtain ⟨rest, hrest⟩ := percent_eq_cons c
        have hesc := escaped_percent c (encode text)
        rw [hrest, List.cons_append] at hesc hn ⊢
        rw [List.length_cons, List.length_append] at hn
        rw [decodeIn, if_pos rfl, hesc, Option.bind_some, ih htext (by omega)]
        rfl
      · rw [List.length_append, List.length_singleton] at hn
        rw [List.singleton_append, decodeIn, if_neg (Ne.symm hc), ih htext (by omega)]
        rfl

theorem decodeURIComponent_encode {text : List Char} (h : '%' ∉ text) :
    decodeURIComponent (String.ofList (encode text)) = some (String.ofList text) := by
  rw [decodeURIComponent, String.toList_ofList, decodeIn_encode h (Nat.le_refl _)]
  rfl

theorem encode_eq_self {text : List Char} (h : ∀ c ∈ text, inPath c = false) : encode text = text := by
  induction text with
  | nil => rfl
  | cons c text ih =>
    obtain ⟨hc, htext⟩ := List.forall_mem_cons.mp h
    rw [encode, List.flatMap_cons, ← encode, ih htext, hc]
    rfl

theorem hex_ne_slash {n : ℕ} (h : n < 16) : hex n ≠ '/' := by
  have hall : ∀ n < 16, hex n ≠ '/' := by decide
  exact hall n h

theorem slash_encode {text : List Char} (h : '/' ∉ text) : '/' ∉ encode text := by
  intro hmem
  obtain ⟨c, hc, hin⟩ := List.mem_flatMap.mp hmem
  split_ifs at hin
  · obtain ⟨first, more, hutf8, hsmall, -⟩ := utf8_spec c
    rw [percent, hutf8] at hin
    obtain ⟨b, hb, hescape⟩ := List.mem_flatMap.mp hin
    have hlt := hsmall b hb
    simp only [escape, List.mem_cons, List.not_mem_nil, or_false] at hescape
    rcases hescape with h | h | h
    · cases h
    · exact hex_ne_slash (Nat.div_lt_of_lt_mul hlt) h.symm
    · exact hex_ne_slash (Nat.mod_lt _ (by decide)) h.symm
  · exact h (List.mem_singleton.mp hin ▸ hc)

/-! ## What a path keeps -/

/-- A segment that is left at its place: no character of it is dropped or is read as a slash, and it is
no dots. -/
structure Placed (segment : List Char) : Prop where
  plain : ∀ c ∈ segment, dropped c = false ∧ isSlash c = false
  dots : twoDots (encode segment) = false ∧ oneDot (encode segment) = false

theorem walk_placed {segments : List (List Char)} (h : ∀ segment ∈ segments, Placed segment)
    (path : List (List Char)) : walk path (segments ++ [[]]) = path ++ (segments.map encode ++ [[]]) := by
  induction segments generalizing path with
  | nil => rfl
  | cons segment segments ih =>
    obtain ⟨hsegment, hsegments⟩ := List.forall_mem_cons.mp h
    have hstep : walk path (segment :: (segments ++ [[]])) =
        walk (path ++ [encode segment]) (segments ++ [[]]) := by
      cases segments <;>
        simp only [List.nil_append, List.cons_append, walk, hsegment.dots.1, hsegment.dots.2,
          Bool.false_eq_true, if_false]
    rw [List.cons_append, hstep, ih hsegments, List.map_cons, List.cons_append, List.append_assoc]
    rfl

theorem pathname_placed (authority : List Char → Option String) {texts : List (List Char)}
    (h : ∀ segment ∈ texts.flatMap (·.splitOn '/'), Placed segment)
    (hfirst : (texts.flatMap (·.splitOn '/')).head? ≠ some []) :
    pathname authority (String.ofList ('/' :: texts.flatMap (· ++ ['/']))) =
      some (String.ofList ('/' :: ((texts.flatMap (·.splitOn '/')).map encode).flatMap (· ++ ['/']))) := by
  have hwhole : texts.flatMap (· ++ ['/']) = ['/'].intercalate (texts.flatMap (·.splitOn '/') ++ [[]]) := by
    rw [← Words.splitOn_flatMap_closed, List.intercalate_splitOn]
  generalize hsegments : texts.flatMap (·.splitOn '/') = segments at h hfirst hwhole
  have hchars : ∀ c ∈ texts.flatMap (· ++ ['/']), dropped c = false ∧ (isSlash c = true → c = '/') := by
    intro c hc
    rw [hwhole] at hc
    rcases Words.mem_intercalate hc with rfl | ⟨w, hw, hcw⟩
    · exact ⟨rfl, fun _ => rfl⟩
    · rcases List.mem_append.mp hw with hw | hw
      · have hplain := (h w hw).plain c hcw
        exact ⟨hplain.1, fun hslash => absurd (hplain.2.symm.trans hslash) Bool.false_ne_true⟩
      · rw [List.mem_singleton.mp hw] at hcw
        cases hcw
  have hread : ('/' :: texts.flatMap (· ++ ['/'])).filter (fun c => !dropped c) =
      '/' :: texts.flatMap (· ++ ['/']) := by
    refine List.filter_eq_self.mpr (List.forall_mem_cons.mpr ⟨rfl, fun c hc => ?_⟩)
    rw [(hchars c hc).1]
    rfl
  have hmap : (texts.flatMap (· ++ ['/'])).map (fun c => if isSlash c then '/' else c) =
      texts.flatMap (· ++ ['/']) := by
    refine (List.map_congr_left fun c hc => ?_).trans (List.map_id _)
    split_ifs with hslash
    · exact ((hchars c hc).2 hslash).symm
    · rfl
  have hhead : (texts.flatMap (· ++ ['/'])).head?.any isSlash = false := by
    rw [hwhole, Words.intercalate_concat_nil]
    cases segments with
    | nil => rfl
    | cons segment segments =>
      cases segment with
      | nil => exact absurd rfl hfirst
      | cons c segment => exact ((h _ List.mem_cons_self).plain c List.mem_cons_self).2
  simp only [pathname, String.toList_ofList, hread, List.drop_one, List.tail_cons, hhead,
    Bool.false_eq_true, if_false, hmap]
  rw [Words.splitOn_flatMap_closed, hsegments, walk_placed h, List.nil_append,
    Words.intercalate_concat_nil]

end Uri
