import Mathlib.Algebra.Ring.Nat
import Mathlib.Data.List.TakeWhile
import Mathlib.Data.List.Lex
import Mathlib.Data.Nat.Notation

/-! A URL per number of the ranges in a host. Every number is as wide as the end of its range is written, so the
names of a range sort as they count. -/

namespace Toa.Generic.Shards

/-- `RANGE`, of a text that begins with one: its ends, and what follows. -/
def opening (text : List Char) : Option (List Char × List Char × List Char) :=
  match text with
  | '[' :: rest =>
    let start := rest.takeWhile Char.isDigit
    match rest.dropWhile Char.isDigit with
    | '.' :: '.' :: rest =>
      let stop := rest.takeWhile Char.isDigit
      match rest.dropWhile Char.isDigit with
      | ']' :: after => if start = [] ∨ stop = [] then none else some (start, stop, after)
      | _ => none
    | _ => none
  | _ => none

/-- What a host holds that has a range: what precedes the first, its ends, and what follows. -/
structure Range where
  before : List Char
  start : List Char
  stop : List Char
  after : List Char

def Range.expression (range : Range) : List Char := '[' :: range.start ++ ['.', '.'] ++ range.stop ++ [']']

def range : List Char → Option Range
  | [] => none
  | char :: rest =>
    match opening (char :: rest) with
    | some (start, stop, after) => some ⟨[], start, stop, after⟩
    | none => (range rest).map fun found => { found with before := char :: found.before }

def Range.first (range : Range) : ℕ := Nat.ofDigitChars 10 range.start 0
def Range.last (range : Range) : ℕ := Nat.ofDigitChars 10 range.stop 0

def EXACT : ℕ := 2 ^ 53

def INFINITY : ℕ := EXACT * 2 ^ 971

/-- `Number`, of a natural number: one of 53 bits, the nearest, and of two the even one. -/
def number (n : ℕ) : ℕ :=
  if n < EXACT then n
  else
    let unit := 2 ^ (Nat.log2 n - 52)
    let down := n / unit
    let up := if 2 * (n % unit) < unit then 0 else if 2 * (n % unit) = unit then down % 2 else 1
    min ((down + up) * unit) INFINITY

/-- `String(n).padStart(width, '0')` -/
def padded (width n : ℕ) : List Char := (Nat.toDigits 10 n).leftpad width '0'

theorem opening_eq_some {text start stop after : List Char} (h : opening text = some (start, stop, after)) :
    text = '[' :: start ++ ['.', '.'] ++ stop ++ ']' :: after ∧ (∀ c ∈ start, c.isDigit = true) ∧
      (∀ c ∈ stop, c.isDigit = true) ∧ stop ≠ [] := by
  unfold opening at h
  split at h
  case h_2 => cases h
  case h_1 rest =>
    dsimp only at h
    split at h
    case h_2 => cases h
    case h_1 rest' hdots =>
      split at h
      case h_2 => cases h
      case h_1 after' hclosing =>
        split_ifs at h with hempty
        obtain ⟨rfl, hends⟩ := Prod.mk.inj (Option.some.inj h)
        obtain ⟨rfl, rfl⟩ := Prod.mk.inj hends
        refine ⟨?_, fun c => List.mem_takeWhile_imp, fun c => List.mem_takeWhile_imp, fun hnil => hempty (.inr hnil)⟩
        have hrest : rest = rest.takeWhile Char.isDigit ++ '.' :: '.' :: rest' := by
          rw [← hdots, List.takeWhile_append_dropWhile]
        have hrest' : rest' = rest'.takeWhile Char.isDigit ++ ']' :: after' := by
          rw [← hclosing, List.takeWhile_append_dropWhile]
        calc '[' :: rest
            = '[' :: rest.takeWhile Char.isDigit ++ '.' :: '.' :: rest' := congrArg ('[' :: ·) hrest
          _ = '[' :: rest.takeWhile Char.isDigit ++ '.' :: '.' :: (rest'.takeWhile Char.isDigit ++ ']' :: after') := by
            rw [← hrest']
          _ = '[' :: rest.takeWhile Char.isDigit ++ ['.', '.'] ++ rest'.takeWhile Char.isDigit ++ ']' :: after' := by
            simp

theorem range_eq_some {host : List Char} {found : Range} (h : range host = some found) :
    host = found.before ++ found.expression ++ found.after ∧ (∀ c ∈ found.start, c.isDigit = true) ∧
      (∀ c ∈ found.stop, c.isDigit = true) ∧ found.stop ≠ [] := by
  induction host generalizing found with
  | nil => cases h
  | cons char rest ih =>
    rw [range] at h
    split at h
    case h_1 start stop after hopening =>
      obtain rfl := Option.some.inj h
      obtain ⟨htext, hdigits⟩ := opening_eq_some hopening
      exact ⟨by simpa [Range.expression] using htext, hdigits⟩
    case h_2 =>
      obtain ⟨found', hfound', rfl⟩ := Option.map_eq_some_iff.mp h
      obtain ⟨hrest, hdigits⟩ := ih hfound'
      exact ⟨congrArg (char :: ·) hrest, hdigits⟩

theorem length_after_lt {host : List Char} {found : Range} (h : range host = some found) :
    found.after.length < host.length := by
  obtain ⟨hhost, -⟩ := range_eq_some h
  rw [hhost, Range.expression]
  simp only [List.length_append, List.length_cons]
  omega

/-- Where a URL does not expand: a range is refused, or is gone over without an end, as past a number nothing is
counted. -/
inductive Stop
  | refused (message : String)
  | endless
deriving DecidableEq

def refused (range : Range) : Stop :=
  .refused ("Range " ++ String.ofList range.expression ++ " must end above where it starts")

def numbered (range : Range) (start stop : ℕ) (rests : List (List Char)) : List (List Char) :=
  (List.range' start (stop + 1 - start)).flatMap fun n =>
    rests.map fun rest => range.before ++ padded range.stop.length n ++ rest

def hosts (host : List Char) : Except Stop (List (List Char)) :=
  match _h : range host with
  | none => .ok [host]
  | some found =>
    let start := number found.first
    let stop := number found.last
    if stop ≤ start then .error (refused found)
    else match hosts found.after with
      | .error error => .error error
      | .ok rests => if stop < EXACT then .ok (numbered found start stop rests) else .error .endless
termination_by host.length
decreasing_by exact length_after_lt _h

structure Authority where
  head : List Char
  host : List Char
  tail : List Char

def letter (char : Char) : Bool := char.isAlpha
def scheme (char : Char) : Bool := char.isAlphanum || char = '+' || char = '.' || char = '-'
def ends (char : Char) : Bool := char = '/' || char = '?' || char = '#'
def terminator (char : Char) : Bool :=
  char = '\n' || char = '\r' || char = Char.ofNat 0x2028 || char = Char.ofNat 0x2029

/-- `AUTHORITY`: a scheme, credentials where there are any, the host and the rest of the line. -/
def authority (input : List Char) : Option Authority :=
  match input with
  | [] => none
  | char :: rest =>
    match letter char, rest.dropWhile scheme with
    | true, ':' :: '/' :: '/' :: text =>
      let name := char :: rest.takeWhile scheme ++ [':', '/', '/']
      let credentials := text.takeWhile fun c => !(c = '@' || ends c)
      let (head, text) := match text.dropWhile fun c => !(c = '@' || ends c) with
        | '@' :: text => (name ++ credentials ++ ['@'], text)
        | _ => (name, text)
      let tail := text.dropWhile fun c => !ends c
      if tail.any terminator then none else some ⟨head, text.takeWhile fun c => !ends c, tail⟩
    | _, _ => none

def shards (input : List Char) : Except Stop (List (List Char)) :=
  match authority input with
  | none => .ok [input]
  | some ⟨head, host, tail⟩ => (hosts host).map fun hosts => hosts.map fun host => head ++ host ++ tail

/-! ## Numbers as they are counted -/

theorem number_of_lt {n : ℕ} (h : n < EXACT) : number n = n := if_pos h

theorem exact_le_mul (k : ℕ) : EXACT ≤ EXACT * 2 ^ k := Nat.le_mul_of_pos_right EXACT (Nat.two_pow_pos k)

theorem exact_le_number {n : ℕ} (h : EXACT ≤ n) : EXACT ≤ number n := by
  rw [number, if_neg (Nat.not_lt.mpr h)]
  refine Nat.le_min.mpr ⟨?_, exact_le_mul _⟩
  have hne : n ≠ 0 := (Nat.lt_of_lt_of_le (by decide) h).ne'
  have hlog : 53 ≤ Nat.log2 n := (Nat.le_log2 hne).mpr h
  have hself : 2 ^ Nat.log2 n ≤ n := (Nat.le_log2 hne).mp le_rfl
  have hunit : 2 ^ 52 * 2 ^ (Nat.log2 n - 52) = 2 ^ Nat.log2 n := by
    rw [← Nat.pow_add]
    congr 1
    omega
  have hdown : 2 ^ 52 ≤ n / 2 ^ (Nat.log2 n - 52) := by
    rw [Nat.le_div_iff_mul_le (Nat.two_pow_pos _), hunit]
    exact hself
  calc EXACT
      ≤ 2 ^ Nat.log2 n := Nat.pow_le_pow_right (by decide) hlog
    _ = 2 ^ 52 * 2 ^ (Nat.log2 n - 52) := hunit.symm
    _ ≤ _ := Nat.mul_le_mul_right _ (hdown.trans (Nat.le_add_right _ _))

theorem number_lt_iff {n : ℕ} : number n < EXACT ↔ n < EXACT := by
  refine ⟨fun h => ?_, fun h => (number_of_lt h).symm ▸ h⟩
  by_contra hle
  exact absurd (exact_le_number (Nat.not_lt.mp hle)) (Nat.not_le.mpr h)

def Range.Counts (range : Range) : Prop := range.first < range.last ∧ range.last < EXACT

instance (range : Range) : Decidable range.Counts := inferInstanceAs (Decidable (_ ∧ _))

theorem counts_iff {range : Range} :
    range.Counts ↔ ¬number range.last ≤ number range.first ∧ number range.last < EXACT := by
  rw [Range.Counts, number_lt_iff]
  refine and_congr_left fun hlast => ?_
  rw [number_of_lt hlast, Nat.not_le]
  by_cases hfirst : range.first < EXACT
  · rw [number_of_lt hfirst]
  · have hle := exact_le_number (Nat.not_lt.mp hfirst)
    constructor <;> intro h <;> omega

/-! ## Numbers as wide as one another -/

theorem length_padded {width n : ℕ} (hwidth : 0 < width) (h : n < 10 ^ width) : (padded width n).length = width := by
  have hlength := (Nat.length_toDigits_le_iff (by decide) hwidth).mpr h
  rw [padded, List.leftpad, List.length_append, List.length_replicate]
  omega

theorem isDigit_padded {width n : ℕ} {c : Char} (h : c ∈ padded width n) : c.isDigit = true := by
  obtain hzero | hdigit := List.mem_append.mp h
  · rw [List.eq_of_mem_replicate hzero]
    rfl
  · exact Nat.isDigit_of_mem_toDigits (by decide) (by decide) hdigit

theorem ofDigitChars_padded (width n : ℕ) : Nat.ofDigitChars 10 (padded width n) 0 = n := by
  rw [padded, List.leftpad, Nat.ofDigitChars_append, Nat.ofDigitChars_replicate_zero, Nat.mul_zero,
    Nat.ofDigitChars_ten_toDigits]

theorem toNat_of_isDigit {c : Char} (h : c.isDigit = true) : 48 ≤ c.toNat ∧ c.toNat ≤ 57 := by
  rw [Char.isDigit, Bool.and_eq_true, decide_eq_true_eq, decide_eq_true_eq] at h
  exact h

theorem ofDigitChars_lt {digits : List Char} (h : ∀ c ∈ digits, c.isDigit = true) :
    Nat.ofDigitChars 10 digits 0 < 10 ^ digits.length := by
  induction digits with
  | nil => exact Nat.one_pos
  | cons c digits ih =>
    obtain ⟨hc, hdigits⟩ := List.forall_mem_cons.mp h
    have hdigit := toNat_of_isDigit hc
    have htail := ih hdigits
    have hzero : '0'.toNat = 48 := rfl
    rw [Nat.ofDigitChars_cons, Nat.ofDigitChars_eq_ofDigitChars_zero, List.length_cons, Nat.pow_succ]
    have hle : 10 ^ digits.length * (10 * 0 + (c.toNat - '0'.toNat)) ≤ 10 ^ digits.length * 9 :=
      Nat.mul_le_mul_left _ (by omega)
    omega

theorem lt_of_ofDigitChars_lt {l m : List Char} (hl : ∀ c ∈ l, c.isDigit = true) (hm : ∀ c ∈ m, c.isDigit = true)
    (hlength : l.length = m.length) (h : Nat.ofDigitChars 10 l 0 < Nat.ofDigitChars 10 m 0) : l < m := by
  induction l generalizing m with
  | nil =>
    obtain rfl := List.length_eq_zero_iff.mp hlength.symm
    exact absurd h (Nat.lt_irrefl _)
  | cons c l ih =>
    cases m with
    | nil => cases hlength
    | cons d m =>
      obtain ⟨hc, hl⟩ := List.forall_mem_cons.mp hl
      obtain ⟨hd, hm⟩ := List.forall_mem_cons.mp hm
      have hlength : l.length = m.length := Nat.succ.inj hlength
      have hzero : '0'.toNat = 48 := rfl
      rw [Nat.ofDigitChars_cons, Nat.ofDigitChars_eq_ofDigitChars_zero, Nat.ofDigitChars_cons,
        Nat.ofDigitChars_eq_ofDigitChars_zero (l := m), hlength] at h
      refine List.cons_lt_cons_iff.mpr ?_
      obtain hlt | heq | hgt := Nat.lt_trichotomy c.toNat d.toNat
      · exact .inl hlt
      · rw [heq] at h
        exact .inr ⟨Char.toNat_inj.mp heq, ih hl hm hlength (by omega)⟩
      · -- a digit more is more than all that may follow
        have hbound := ofDigitChars_lt hm
        have hdigit := toNat_of_isDigit hd
        have hle : 10 ^ m.length * (10 * 0 + (d.toNat - '0'.toNat) + 1) ≤
            10 ^ m.length * (10 * 0 + (c.toNat - '0'.toNat)) := Nat.mul_le_mul_left _ (by omega)
        rw [Nat.mul_add, Nat.mul_one] at hle
        omega

theorem padded_lt {width m n : ℕ} (hwidth : 0 < width) (hm : m < n) (hn : n < 10 ^ width) :
    padded width m < padded width n := by
  refine lt_of_ofDigitChars_lt (fun c => isDigit_padded) (fun c => isDigit_padded) ?_ ?_
  · rw [length_padded hwidth (hm.trans hn), length_padded hwidth hn]
  · rw [ofDigitChars_padded, ofDigitChars_padded]
    exact hm

/-! ## What a URL expands to -/

def ranges (host : List Char) : List Range :=
  match _h : range host with
  | none => []
  | some found => found :: ranges found.after
termination_by host.length
decreasing_by exact length_after_lt _h

inductive Named : List Char → List Char → Prop
  | plain {host : List Char} : range host = none → Named host host
  | numbered {host rest : List Char} {found : Range} {n : ℕ} : range host = some found →
    found.first ≤ n → n ≤ found.last → Named found.after rest →
    Named host (found.before ++ padded found.stop.length n ++ rest)

theorem hosts_none {host : List Char} (h : range host = none) : hosts host = .ok [host] := by
  rw [hosts]
  split
  case h_1 => rfl
  case h_2 found hfound => rw [h] at hfound; cases hfound

theorem hosts_some {host : List Char} {found : Range} (h : range host = some found) :
    hosts host = if number found.last ≤ number found.first then .error (refused found)
      else match hosts found.after with
        | .error error => .error error
        | .ok rests =>
          if number found.last < EXACT then .ok (numbered found (number found.first) (number found.last) rests)
          else .error .endless := by
  rw [hosts]
  split
  case h_1 hnone => rw [h] at hnone; cases hnone
  case h_2 found' hfound' =>
    obtain rfl := Option.some.inj (h.symm.trans hfound')
    rfl

theorem hosts_some_ok {host : List Char} {found : Range} (h : range host = some found) {names : List (List Char)} :
    hosts host = .ok names ↔ found.Counts ∧
      ∃ rests, hosts found.after = .ok rests ∧ names = numbered found found.first found.last rests := by
  rw [hosts_some h]
  by_cases hcounts : found.Counts
  · obtain ⟨hlt, hexact⟩ := counts_iff.mp hcounts
    rw [if_neg hlt, and_iff_right hcounts]
    cases hosts found.after with
    | error error => exact ⟨fun h => (by cases h), fun ⟨_, h, _⟩ => (by cases h)⟩
    | ok rests =>
      dsimp only
      rw [if_pos hexact, number_of_lt hcounts.2, number_of_lt (hcounts.1.trans hcounts.2)]
      constructor
      · intro heq
        exact ⟨rests, rfl, (Except.ok.inj heq).symm⟩
      · rintro ⟨_, hrests, rfl⟩
        cases hrests
        rfl
  · refine iff_of_false (fun heq => hcounts (counts_iff.mpr ?_)) fun hboth => hcounts hboth.1
    by_cases hle : number found.last ≤ number found.first
    · rw [if_pos hle] at heq
      cases heq
    · rw [if_neg hle] at heq
      cases hrests : hosts found.after with
      | error error =>
        rw [hrests] at heq
        cases heq
      | ok rests =>
        rw [hrests] at heq
        dsimp only at heq
        split_ifs at heq with hexact
        exact ⟨hle, hexact⟩

theorem ranges_none {host : List Char} (h : range host = none) : ranges host = [] := by
  rw [ranges]
  split
  case h_1 => rfl
  case h_2 found hfound => rw [h] at hfound; cases hfound

theorem ranges_some {host : List Char} {found : Range} (h : range host = some found) :
    ranges host = found :: ranges found.after := by
  rw [ranges]
  split
  case h_1 hnone => rw [h] at hnone; cases hnone
  case h_2 found' hfound' =>
    obtain rfl := Option.some.inj (h.symm.trans hfound')
    rfl

theorem hosts_induction {motive : List Char → Prop} (hnone : ∀ host, range host = none → motive host)
    (hsome : ∀ host found, range host = some found → motive found.after → motive host) (host : List Char) :
    motive host := by
  induction hlength : host.length using Nat.strong_induction_on generalizing host with
  | _ n ih =>
    cases hrange : range host with
    | none => exact hnone host hrange
    | some found => exact hsome host found hrange (ih _ (hlength ▸ length_after_lt hrange) _ rfl)

theorem append_lt_append {l m x y : List Char} (hlength : l.length = m.length) (h : l < m) : l ++ x < m ++ y := by
  induction l generalizing m with
  | nil =>
    obtain rfl := List.length_eq_zero_iff.mp hlength.symm
    cases h
  | cons c l ih =>
    cases m with
    | nil => cases hlength
    | cons d m =>
      refine List.cons_lt_cons_iff.mpr ((List.cons_lt_cons_iff.mp h).imp_right fun ⟨heq, hlt⟩ => ⟨heq, ?_⟩)
      exact ih (Nat.succ.inj hlength) hlt

def count (ranges : List Range) : ℕ := ranges.foldr (fun range n => (range.last + 1 - range.first) * n) 1

structure Expanded (host : List Char) (names : List (List Char)) : Prop where
  ordered : names.Pairwise (· < ·)
  even : ∀ a ∈ names, ∀ b ∈ names, a.length = b.length
  count : names.length = count (ranges host)
  named : ∀ name, name ∈ names ↔ Named host name

theorem last_lt {host : List Char} {found : Range} (h : range host = some found) :
    0 < found.stop.length ∧ found.last < 10 ^ found.stop.length := by
  obtain ⟨-, -, hdigits, hne⟩ := range_eq_some h
  exact ⟨List.length_pos_iff.mpr hne, ofDigitChars_lt hdigits⟩

theorem expanded_some {host : List Char} {found : Range} {rests : List (List Char)} (h : range host = some found)
    (hrests : Expanded found.after rests) :
    Expanded host (numbered found found.first found.last rests) := by
  obtain ⟨hwidth, hlast⟩ := last_lt h
  have hlt : ∀ n ∈ List.range' found.first (found.last + 1 - found.first), n < 10 ^ found.stop.length := by
    intro n hn
    have hrange := List.mem_range'_1.mp hn
    omega
  have hpadded : ∀ n ∈ List.range' found.first (found.last + 1 - found.first),
      (padded found.stop.length n).length = found.stop.length := fun n hn => length_padded hwidth (hlt n hn)
  refine ⟨List.pairwise_flatMap.mpr ⟨fun n _ => ?_, ?_⟩, ?_, ?_, fun name => ?_⟩
  · exact List.pairwise_map.mpr (hrests.ordered.imp fun hab => List.append_left_lt hab)
  · refine (List.pairwise_lt_range' ..).imp_of_mem fun hm hn hmn a ha b hb => ?_
    obtain ⟨rest, -, rfl⟩ := List.mem_map.mp ha
    obtain ⟨rest', -, rfl⟩ := List.mem_map.mp hb
    rw [List.append_assoc, List.append_assoc]
    refine List.append_left_lt (append_lt_append ?_ (padded_lt hwidth hmn (hlt _ hn)))
    rw [hpadded _ hm, hpadded _ hn]
  · intro a ha b hb
    obtain ⟨m, hm, ha⟩ := List.mem_flatMap.mp ha
    obtain ⟨n, hn, hb⟩ := List.mem_flatMap.mp hb
    obtain ⟨rest, hrest, rfl⟩ := List.mem_map.mp ha
    obtain ⟨rest', hrest', rfl⟩ := List.mem_map.mp hb
    simp only [List.length_append, hpadded _ hm, hpadded _ hn, hrests.even rest hrest rest' hrest']
  · rw [numbered, List.length_flatMap]
    simp only [List.length_map, List.map_const', List.length_range', ranges_some h, Shards.count, List.foldr_cons]
    rw [List.sum_replicate_nat, hrests.count]
    rfl
  · simp only [numbered, List.mem_flatMap, List.mem_map, List.mem_range'_1]
    constructor
    · rintro ⟨n, hn, rest, hrest, rfl⟩
      exact .numbered h hn.1 (by omega) ((hrests.named rest).mp hrest)
    · intro hnamed
      cases hnamed with
      | plain hnone => rw [h] at hnone; cases hnone
      | @numbered _ rest found' n hfound' hfirst hle hrest =>
        obtain rfl := Option.some.inj (h.symm.trans hfound')
        exact ⟨n, ⟨hfirst, by omega⟩, rest, (hrests.named rest).mpr hrest, rfl⟩

theorem expanded_hosts {host : List Char} {names : List (List Char)} (h : hosts host = .ok names) :
    Expanded host names := by
  induction host using hosts_induction generalizing names with
  | hnone host hnone =>
    rw [hosts_none hnone] at h
    obtain rfl := Except.ok.inj h
    refine ⟨List.pairwise_singleton .., ?_, by rw [ranges_none hnone]; rfl, fun name => ?_⟩
    · intro a ha b hb
      rw [List.mem_singleton.mp ha, List.mem_singleton.mp hb]
    · rw [List.mem_singleton]
      constructor
      · rintro rfl
        exact .plain hnone
      · intro hnamed
        cases hnamed with
        | plain => rfl
        | numbered hsome => rw [hnone] at hsome; cases hsome
  | hsome host found hsome ih =>
    obtain ⟨-, rests, hrests, rfl⟩ := (hosts_some_ok hsome).mp h
    exact expanded_some hsome (ih hrests)

theorem hosts_ok_iff {host : List Char} : (∃ names, hosts host = .ok names) ↔ ∀ found ∈ ranges host, found.Counts := by
  induction host using hosts_induction with
  | hnone host hnone =>
    rw [ranges_none hnone]
    exact ⟨fun _ _ h => (by cases h), fun _ => ⟨_, hosts_none hnone⟩⟩
  | hsome host found hsome ih =>
    rw [ranges_some hsome, List.forall_mem_cons, ← ih]
    constructor
    · rintro ⟨names, h⟩
      obtain ⟨hcounts, rests, hrests, -⟩ := (hosts_some_ok hsome).mp h
      exact ⟨hcounts, rests, hrests⟩
    · rintro ⟨hcounts, rests, hrests⟩
      exact ⟨_, (hosts_some_ok hsome).mpr ⟨hcounts, rests, hrests, rfl⟩⟩

/-- A URL expands where each range in its host ends above where it starts and where one more is another number, and
then to the URLs that have a number of the range in place of each, as many as the ranges make, all of one length
and in the order of their text. -/
theorem shards_ordered {input head host tail : List Char} (h : authority input = some ⟨head, host, tail⟩) :
    ((∃ urls, shards input = .ok urls) ↔
      ∀ found ∈ ranges host, found.first < found.last ∧ found.last < 2 ^ 53) ∧
      ∀ urls, shards input = .ok urls →
        urls.Pairwise (· < ·) ∧ (∀ a ∈ urls, ∀ b ∈ urls, a.length = b.length) ∧
          urls.length = count (ranges host) ∧
          ∀ url, url ∈ urls ↔ ∃ name, Named host name ∧ url = head ++ name ++ tail := by
  have hshards : shards input = (hosts host).map fun hosts => hosts.map fun host => head ++ host ++ tail := by
    rw [shards, h]
  have hok : (∃ names, hosts host = .ok names) ↔
      ∀ found ∈ ranges host, found.first < found.last ∧ found.last < 2 ^ 53 := hosts_ok_iff
  rw [hshards, ← hok]
  constructor
  · cases hosts host with
    | error error => exact ⟨fun ⟨_, h⟩ => (by cases h), fun ⟨_, h⟩ => (by cases h)⟩
    | ok names => exact ⟨fun _ => ⟨_, rfl⟩, fun _ => ⟨_, rfl⟩⟩
  · intro urls hurls
    cases hnames : hosts host with
    | error error => rw [hnames] at hurls; cases hurls
    | ok names =>
      rw [hnames] at hurls
      obtain rfl := Except.ok.inj hurls
      have hexpanded := expanded_hosts hnames
      refine ⟨?_, ?_, by rw [List.length_map, hexpanded.count], fun url => ?_⟩
      · refine List.pairwise_map.mpr (hexpanded.ordered.imp_of_mem fun ha hb hab => ?_)
        rw [List.append_assoc, List.append_assoc]
        exact List.append_left_lt (append_lt_append (hexpanded.even _ ha _ hb) hab)
      · intro a ha b hb
        obtain ⟨name, hname, rfl⟩ := List.mem_map.mp ha
        obtain ⟨name', hname', rfl⟩ := List.mem_map.mp hb
        simp only [List.length_append, hexpanded.even name hname name' hname']
      · simp only [List.mem_map, hexpanded.named, eq_comm]

theorem shards_ordered_rmq : ∃ urls, shards "amqp://rmq[8..10]/x".toList = .ok urls ∧
    urls.Pairwise (· < ·) ∧ urls.length = 3 := by
  have hranges : ranges "rmq[8..10]".toList = [⟨"rmq".toList, ['8'], ['1', '0'], []⟩] := by
    rw [@ranges_some _ ⟨"rmq".toList, ['8'], ['1', '0'], []⟩ rfl, ranges_none rfl]
  obtain ⟨hok, hurls⟩ := @shards_ordered "amqp://rmq[8..10]/x".toList "amqp://".toList "rmq[8..10]".toList
    "/x".toList rfl
  rw [hranges] at hok hurls
  obtain ⟨urls, h⟩ := hok.mpr (by decide)
  obtain ⟨hordered, -, hcount, -⟩ := hurls urls h
  exact ⟨urls, h, hordered, hcount⟩

end Toa.Generic.Shards
