import Mathlib.Data.List.Lex
import Mathlib.Data.List.Sort
import Mathlib.Data.Nat.Digits.Defs
import Toa.Lib.Fork
import Toa.Lib.Utf8

/-! What a step asks, as a digest. The values asked are written to a hash one fragment after another,
and the digest tells asks apart as far as what is written does. -/

namespace Toa.Continuity
open Utf8 (encode)

/-! ## Values -/

/-- A character of a string: a code point that is read as one, or a surrogate with no pair. -/
inductive Code
  | char (c : Char)
  | lone (u : Fin 2048)
deriving DecidableEq

abbrev Text := List Code

/-- What a number or a moment is written as, and no other number or moment is. -/
structure Word where
  text : String
  closed : ';' ∉ text.toList

inductive Atom
  | null
  | undefined
  | boolean (b : Bool)
  | number (n : Word)
  | string (s : Text)
  | bytes (b : List UInt8)
  | date (iso : Word)
  | url (href : String)

inductive Value
  | atom (a : Atom)
  | array (items : List Value)
  | object (entries : List (Text × Value))

namespace Code

def scalar : Code → Char
  | char c => c
  | lone _ => '\uFFFD'

def units : Code → List ℕ
  | char c =>
    if c.toNat < 0x10000 then [c.toNat]
    else [0xD800 + (c.toNat - 0x10000) / 0x400, 0xDC00 + (c.toNat - 0x10000) % 0x400]
  | lone u => [0xD800 + u]

end Code

def Before (key key' : Text) : Prop := key.flatMap Code.units ≤ key'.flatMap Code.units

instance : DecidableRel Before := fun key key' =>
  inferInstanceAs (Decidable (key.flatMap Code.units ≤ key'.flatMap Code.units))

/-- `Object.keys(value).sort()`, with what is under each key. -/
def sort {α : Type*} (entries : List (Text × α)) : List (Text × α) :=
  entries.insertionSort fun entry entry' => Before entry.1 entry'.1

def Value.isUndefined : Value → Bool
  | .atom .undefined => true
  | _ => false

mutual
def Value.normal : Value → Value
  | .atom a => .atom a
  | .array items => .array (Values.normal items)
  | .object entries => .object (sort (Entries.normal entries))

def Values.normal : List Value → List Value
  | [] => []
  | item :: items => item.normal :: Values.normal items

def Entries.normal : List (Text × Value) → List (Text × Value)
  | [] => []
  | (key, item) :: entries =>
    if item.isUndefined = true then Entries.normal entries
    else (key, item.normal) :: Entries.normal entries
end

/-! ## The stream -/

def QUOTE : Char := '\x22'

def BACKSLASH : Char := '\x5c'

def SHORT : List (Char × Char) := [(QUOTE, QUOTE), (BACKSLASH, BACKSLASH), ('\x08', 'b'),
  ('\x0c', 'f'), ('\n', 'n'), ('\x0d', 'r'), ('\t', 't')]

namespace Code

def short : Code → Option Char
  | char c => (SHORT.find? (·.1 = c)).map (·.2)
  | lone _ => none

def numbered : Code → Option ℕ
  | char c => if c.toNat < 0x20 then some c.toNat else none
  | lone u => some (0xD800 + u)

def escape (c : Code) : List Char :=
  match c.short, c.numbered with
  | some s, _ => [BACKSLASH, s]
  | none, some n => [BACKSLASH, 'u', Nat.digitChar (n / 4096), Nat.digitChar (n / 256 % 16),
      Nat.digitChar (n / 16 % 16), Nat.digitChar (n % 16)]
  | none, none => [c.scalar]

end Code

/-- `JSON.stringify` of a key -/
def stringify (key : Text) : List Char := QUOTE :: (key.flatMap Code.escape ++ [QUOTE])

/-- What a fragment is said to be: its type, or what it is an instance of. -/
inductive Kind
  | object
  | undefined
  | boolean
  | number
  | string
  | bytes
  | date
  | url
deriving DecidableEq

def Kind.tag : Kind → List Char
  | object => "object".toList
  | undefined => "undefined".toList
  | boolean => "boolean".toList
  | number => "number".toList
  | string => "string".toList
  | bytes => "bytes".toList
  | date => "date".toList
  | url => "url".toList

namespace Atom

def kind : Atom → Kind
  | null => .object
  | undefined => .undefined
  | boolean _ => .boolean
  | number _ => .number
  | string _ => .string
  | bytes _ => .bytes
  | date _ => .date
  | url _ => .url

def payload : Atom → List UInt8
  | null => encode "null".toList
  | undefined => encode "undefined".toList
  | boolean b => encode (if b = true then "true" else "false").toList
  | number n => encode n.text.toList
  | string s => encode (s.map Code.scalar)
  | bytes b => b
  | date iso => encode iso.text.toList
  | url href => encode href.toList

end Atom

def SEMICOLON : UInt8 := 0x3b

mutual
def write : Value → List UInt8
  | .atom a => encode (a.kind.tag ++ [':']) ++ a.payload ++ [SEMICOLON]
  | .array items => encode ['['] ++ writes items ++ encode [']']
  | .object entries =>
    encode ['\x7b'] ++
      (sort (written entries)).flatMap (fun entry => encode (stringify entry.1 ++ ['=']) ++ entry.2) ++
      encode ['\x7d']

def writes : List Value → List UInt8
  | [] => []
  | item :: items => write item ++ writes items

def written : List (Text × Value) → List (Text × List UInt8)
  | [] => []
  | (key, item) :: entries =>
    if item.isUndefined = true then written entries else (key, write item) :: written entries
end

/-- `fingerprint`, by the digest of what is written. -/
def fingerprint {δ : Type*} (digest : List UInt8 → δ) (args : List Value) : δ :=
  digest (write (.array args))

/-! ## Keys -/

namespace Code

theorem short_mem {c : Char} {s : Char} (h : (char c).short = some s) : (c, s) ∈ SHORT := by
  obtain ⟨entry, hentry, rfl⟩ := Option.map_eq_some_iff.mp h
  have hkey : entry.1 = c := by simpa using List.find?_some hentry
  exact hkey ▸ List.mem_of_find?_eq_some hentry

theorem short_inj {c d : Code} {s : Char} (hc : c.short = some s) (hd : d.short = some s) : c = d := by
  have hdistinct : ∀ e ∈ SHORT, ∀ e' ∈ SHORT, e.2 = e'.2 → e.1 = e'.1 := by decide
  cases c with
  | lone u => exact nomatch hc
  | char c =>
    cases d with
    | lone u => exact nomatch hd
    | char d => exact congrArg char (hdistinct _ (short_mem hc) _ (short_mem hd) rfl)

theorem short_ne_u (c : Code) : c.short ≠ some 'u' := by
  have hnone : ∀ e ∈ SHORT, e.2 ≠ 'u' := by decide
  cases c with
  | lone u => exact nofun
  | char c => exact fun h => hnone _ (short_mem h) rfl

theorem numbered_lt {c : Code} {n : ℕ} (h : c.numbered = some n) : n < 65536 := by
  cases c with
  | char c =>
    simp only [numbered] at h
    split_ifs at h with hlt
    obtain rfl := Option.some.inj h
    omega
  | lone u =>
    obtain rfl := Option.some.inj h
    have hlt := u.isLt
    omega

theorem numbered_inj {c d : Code} {n : ℕ} (hc : c.numbered = some n) (hd : d.numbered = some n) :
    c = d := by
  cases c with
  | char c =>
    simp only [numbered] at hc
    split_ifs at hc with hclt
    cases d with
    | char d =>
      simp only [numbered] at hd
      split_ifs at hd
      have hsame : c.toNat = d.toNat := Option.some.inj (hc.trans hd.symm)
      rw [Char.toNat_inj.mp hsame]
    | lone u =>
      have hsame := Option.some.inj (hc.trans hd.symm)
      omega
  | lone u =>
    cases d with
    | char d =>
      simp only [numbered] at hd
      split_ifs at hd with hdlt
      have hsame := Option.some.inj (hc.trans hd.symm)
      omega
    | lone v =>
      have hsame := Option.some.inj (hc.trans hd.symm)
      rw [Fin.ext (Nat.add_left_cancel hsame)]

theorem eq_char {c : Code} (hshort : c.short = none) (hnumbered : c.numbered = none) :
    c = .char c.scalar ∧ c.scalar ≠ QUOTE ∧ c.scalar ≠ BACKSLASH := by
  cases c with
  | lone u => exact nomatch hnumbered
  | char c =>
    have hfind : SHORT.find? (·.1 = c) = none := Option.map_eq_none_iff.mp hshort
    have hother : ∀ e ∈ SHORT, e.1 ≠ c := fun e he => by
      simpa using List.find?_eq_none.mp hfind e he
    refine ⟨rfl, fun h => ?_, fun h => ?_⟩
    · exact hother (QUOTE, QUOTE) (by decide) h.symm
    · exact hother (BACKSLASH, BACKSLASH) (by decide) h.symm

end Code

theorem digitChar_inj {m n : ℕ} (hm : m < 16) (hn : n < 16)
    (h : Nat.digitChar m = Nat.digitChar n) : m = n := by
  have hall : ∀ m : Fin 16, ∀ n : Fin 16, Nat.digitChar m = Nat.digitChar n → m = n := by decide
  exact congrArg Fin.val (hall ⟨m, hm⟩ ⟨n, hn⟩ h)

theorem escape_prefix_eq {c d : Code} (h : c.escape <+: d.escape) : c = d := by
  unfold Code.escape at h
  cases hcs : c.short with
  | some s =>
    cases hds : d.short with
    | some t =>
      simp only [hcs, hds, List.cons_prefix_cons] at h
      obtain rfl := h.2.1
      exact Code.short_inj hcs hds
    | none =>
      cases hdn : d.numbered with
      | some n =>
        simp only [hcs, hds, hdn, List.cons_prefix_cons] at h
        obtain rfl := h.2.1
        exact absurd hcs (Code.short_ne_u c)
      | none =>
        simp only [hcs, hds, hdn, List.cons_prefix_cons] at h
        exact absurd h.1.symm (Code.eq_char hds hdn).2.2
  | none =>
    cases hcn : c.numbered with
    | some m =>
      cases hds : d.short with
      | some t =>
        simp only [hcs, hcn, hds, List.cons_prefix_cons] at h
        obtain rfl := h.2.1
        exact absurd hds (Code.short_ne_u d)
      | none =>
        cases hdn : d.numbered with
        | some n =>
          simp only [hcs, hcn, hds, hdn, List.cons_prefix_cons] at h
          obtain ⟨-, -, h3, h2, h1, h0, -⟩ := h
          have hm := Code.numbered_lt hcn
          have hn := Code.numbered_lt hdn
          have e3 := digitChar_inj (by omega) (by omega) h3
          have e2 := digitChar_inj (by omega) (by omega) h2
          have e1 := digitChar_inj (by omega) (by omega) h1
          have e0 := digitChar_inj (by omega) (by omega) h0
          obtain rfl : m = n := by omega
          exact Code.numbered_inj hcn hdn
        | none =>
          simp only [hcs, hcn, hds, hdn, List.cons_prefix_cons] at h
          exact absurd h.1.symm (Code.eq_char hds hdn).2.2
    | none =>
      obtain ⟨hc, -, hslash⟩ := Code.eq_char hcs hcn
      cases hds : d.short with
      | some t =>
        simp only [hcs, hcn, hds, List.cons_prefix_cons] at h
        exact absurd h.1 hslash
      | none =>
        cases hdn : d.numbered with
        | some n =>
          simp only [hcs, hcn, hds, hdn, List.cons_prefix_cons] at h
          exact absurd h.1 hslash
        | none =>
          simp only [hcs, hcn, hds, hdn, List.cons_prefix_cons] at h
          rw [hc, (Code.eq_char hds hdn).1, h.1]

theorem escape_quote (c : Code) : ¬[QUOTE] <+: c.escape := by
  intro h
  unfold Code.escape at h
  have hslash : QUOTE ≠ BACKSLASH := by decide
  split at h
  · exact hslash (List.cons_prefix_cons.mp h).1
  · exact hslash (List.cons_prefix_cons.mp h).1
  · rename_i hshort hnumbered
    exact (Code.eq_char hshort hnumbered).2.1 (List.cons_prefix_cons.mp h).1.symm

theorem escape_ne_nil (c : Code) : c.escape ≠ [] := by
  unfold Code.escape
  split <;> exact List.cons_ne_nil _ _

theorem escape_append {c d : Code} {s t : List UInt8}
    (h : encode c.escape ++ s = encode d.escape ++ t) : c = d ∧ s = t := by
  have hcd : c = d := by
    rcases Utf8.encode_prefix h with hprefix | hprefix
    · exact escape_prefix_eq hprefix
    · exact (escape_prefix_eq hprefix).symm
  subst hcd
  exact ⟨rfl, List.append_cancel_left h⟩

theorem quote_append_ne {d : Code} {s t : List UInt8} : encode [QUOTE] ++ s ≠ encode d.escape ++ t := by
  intro h
  rcases Utf8.encode_prefix h with hprefix | hprefix
  · exact escape_quote d hprefix
  · rcases List.prefix_cons_iff.mp hprefix with hnil | ⟨rest, hrest, -⟩
    · exact escape_ne_nil d hnil
    · exact escape_quote d (hrest ▸ List.cons_prefix_cons.mpr ⟨rfl, List.nil_prefix⟩)

theorem escapes_append {key key' : Text} {s t : List UInt8}
    (h : encode (key.flatMap Code.escape) ++ (encode [QUOTE] ++ s) =
      encode (key'.flatMap Code.escape) ++ (encode [QUOTE] ++ t)) : key = key' ∧ s = t := by
  induction key generalizing key' with
  | nil =>
    cases key' with
    | nil => exact ⟨rfl, List.append_cancel_left h⟩
    | cons d key' =>
      rw [List.flatMap_cons, Utf8.encode_append, List.append_assoc] at h
      exact absurd h quote_append_ne
  | cons c key ih =>
    cases key' with
    | nil =>
      rw [List.flatMap_cons, Utf8.encode_append, List.append_assoc] at h
      exact absurd h.symm quote_append_ne
    | cons d key' =>
      simp only [List.flatMap_cons, Utf8.encode_append, List.append_assoc] at h
      obtain ⟨rfl, hrest⟩ := escape_append h
      obtain ⟨rfl, hst⟩ := ih (by simpa only [Utf8.encode_append] using hrest)
      exact ⟨rfl, hst⟩

theorem stringify_append {key key' : Text} {s t : List UInt8}
    (h : encode (stringify key) ++ s = encode (stringify key') ++ t) : key = key' ∧ s = t := by
  have hinner := (Utf8.encode_cons_append h).2
  simp only [Utf8.encode_append, List.append_assoc] at hinner
  exact escapes_append hinner

/-! ## Tokens -/

/-- A fragment of what is written. -/
inductive Token
  | atom (a : Atom)
  | items
  | itemsEnd
  | entries
  | entriesEnd
  | key (k : Text)

def Token.bytes : Token → List UInt8
  | .atom a => encode (a.kind.tag ++ [':']) ++ a.payload ++ [SEMICOLON]
  | .items => encode ['[']
  | .itemsEnd => encode [']']
  | .entries => encode ['\x7b']
  | .entriesEnd => encode ['\x7d']
  | .key k => encode (stringify k ++ ['='])

def stream (tokens : List Token) : List UInt8 := tokens.flatMap Token.bytes

theorem stream_append (ts us : List Token) : stream (ts ++ us) = stream ts ++ stream us :=
  List.flatMap_append

theorem stream_cons (t : Token) (ts : List Token) : stream (t :: ts) = t.bytes ++ stream ts :=
  List.flatMap_cons

mutual
def Value.tokens : Value → List Token
  | .atom a => [.atom a]
  | .array items => .items :: (Values.tokens items ++ [.itemsEnd])
  | .object entries => .entries :: (Entries.tokens entries ++ [.entriesEnd])

def Values.tokens : List Value → List Token
  | [] => []
  | item :: items => item.tokens ++ Values.tokens items

def Entries.tokens : List (Text × Value) → List Token
  | [] => []
  | (k, item) :: entries => .key k :: (item.tokens ++ Entries.tokens entries)
end

theorem stream_entries (entries : List (Text × Value)) : stream (Entries.tokens entries) =
    entries.flatMap fun entry => encode (stringify entry.1 ++ ['=']) ++ stream entry.2.tokens := by
  induction entries with
  | nil => rfl
  | cons entry entries ih =>
    obtain ⟨k, item⟩ := entry
    rw [Entries.tokens, stream_cons, stream_append, ih, List.flatMap_cons, List.append_assoc]
    rfl

theorem sort_map {α β : Type*} (f : α → β) (entries : List (Text × α)) :
    sort (entries.map fun entry => (entry.1, f entry.2)) =
      (sort entries).map fun entry => (entry.1, f entry.2) := by
  unfold sort
  exact (List.map_insertionSort _ _ (fun entry : Text × α => (entry.1, f entry.2)) entries
    fun _ _ _ _ => Iff.rfl).symm

mutual
theorem write_eq : ∀ v : Value, write v = stream v.normal.tokens
  | .atom a => (List.append_nil _).symm
  | .array items => by
    rw [write, writes_eq items, Value.normal, Value.tokens, stream_cons, stream_append,
      List.append_assoc]
    rfl
  | .object entries => by
    rw [write, written_eq entries, Value.normal, Value.tokens, stream_cons, stream_append,
      stream_entries, sort_map fun item : Value => stream item.tokens, List.flatMap_map, List.append_assoc]
    rfl

theorem writes_eq : ∀ items : List Value, writes items = stream (Values.tokens (Values.normal items))
  | [] => rfl
  | item :: items => by
    rw [writes, write_eq item, writes_eq items, Values.normal, Values.tokens, stream_append]

theorem written_eq : ∀ entries : List (Text × Value),
    written entries = (Entries.normal entries).map fun entry => (entry.1, stream entry.2.tokens)
  | [] => rfl
  | (k, item) :: entries => by
    rw [written, Entries.normal, written_eq entries, write_eq item]
    split_ifs
    · rfl
    · rfl
end

mutual
theorem tokens_append : ∀ (v w : Value) {r s : List Token},
    v.tokens ++ r = w.tokens ++ s → v = w ∧ r = s
  | .atom a, w, r, s, h => by
    cases w with
    | atom b =>
      obtain ⟨hab, rfl⟩ := List.cons.inj h
      exact ⟨by rw [Token.atom.inj hab], rfl⟩
    | array _ | object _ => exact nomatch (List.cons.inj h).1
  | .array items, w, r, s, h => by
    cases w with
    | array others =>
      simp only [Value.tokens, List.cons_append, List.append_assoc, List.cons.injEq, true_and,
        List.nil_append] at h
      obtain ⟨rfl, rfl⟩ := items_append items others h
      exact ⟨rfl, rfl⟩
    | atom _ | object _ => exact nomatch (List.cons.inj h).1
  | .object entries, w, r, s, h => by
    cases w with
    | object others =>
      simp only [Value.tokens, List.cons_append, List.append_assoc, List.cons.injEq, true_and,
        List.nil_append] at h
      obtain ⟨rfl, rfl⟩ := entries_append entries others h
      exact ⟨rfl, rfl⟩
    | atom _ | array _ => exact nomatch (List.cons.inj h).1

theorem items_append : ∀ (items others : List Value) {r s : List Token},
    Values.tokens items ++ .itemsEnd :: r = Values.tokens others ++ .itemsEnd :: s →
      items = others ∧ r = s
  | [], others, r, s, h => by
    cases others with
    | nil => exact ⟨rfl, (List.cons.inj h).2⟩
    | cons w others => cases w <;> exact nomatch (List.cons.inj h).1
  | v :: items, others, r, s, h => by
    cases others with
    | nil => cases v <;> exact nomatch (List.cons.inj h).1
    | cons w others =>
      simp only [Values.tokens, List.append_assoc] at h
      obtain ⟨rfl, hrest⟩ := tokens_append v w h
      obtain ⟨rfl, rfl⟩ := items_append items others hrest
      exact ⟨rfl, rfl⟩

theorem entries_append : ∀ (entries others : List (Text × Value)) {r s : List Token},
    Entries.tokens entries ++ .entriesEnd :: r = Entries.tokens others ++ .entriesEnd :: s →
      entries = others ∧ r = s
  | [], others, r, s, h => by
    cases others with
    | nil => exact ⟨rfl, (List.cons.inj h).2⟩
    | cons entry others => exact nomatch (List.cons.inj h).1
  | (k, v) :: entries, others, r, s, h => by
    cases others with
    | nil => exact nomatch (List.cons.inj h).1
    | cons entry others =>
      obtain ⟨k', w⟩ := entry
      simp only [Entries.tokens, List.cons_append, List.append_assoc, List.cons.injEq,
        Token.key.injEq] at h
      obtain ⟨rfl, hvalues⟩ := h
      obtain ⟨rfl, hrest⟩ := tokens_append v w hvalues
      obtain ⟨rfl, rfl⟩ := entries_append entries others hrest
      exact ⟨rfl, rfl⟩
end

theorem tokens_injective {v w : Value} (h : v.tokens = w.tokens) : v = w := by
  have happend : v.tokens ++ [] = w.tokens ++ [] := by rw [h]
  exact (tokens_append v w happend).1

/-! ## Where two streams part -/

def Token.lead : Token → Char
  | .atom a => a.kind.tag.headD ':'
  | .items => '['
  | .itemsEnd => ']'
  | .entries => '\x7b'
  | .entriesEnd => '\x7d'
  | .key _ => QUOTE

theorem Token.bytes_lead (t : Token) : ∃ rest, t.bytes = encode [t.lead] ++ rest := by
  cases t with
  | atom a =>
    refine ⟨encode (a.kind.tag.tail ++ [':']) ++ a.payload ++ [SEMICOLON], ?_⟩
    have htag : a.kind.tag ++ [':'] = [a.kind.tag.headD ':'] ++ (a.kind.tag.tail ++ [':']) := by
      cases a.kind <;> rfl
    rw [Token.bytes, htag, Utf8.encode_append]
    simp only [List.append_assoc]
    rfl
  | key k =>
    refine ⟨encode (k.flatMap Code.escape ++ [QUOTE] ++ ['=']), ?_⟩
    exact Utf8.encode_append [QUOTE] _
  | items | itemsEnd | entries | entriesEnd => exact ⟨[], (List.append_nil _).symm⟩

theorem Token.bytes_ne_nil (t : Token) : t.bytes ≠ [] := by
  obtain ⟨rest, hrest⟩ := t.bytes_lead
  rw [hrest, Utf8.encode_singleton]
  exact fun h => String.utf8EncodeChar_ne_nil (List.append_eq_nil_iff.mp h).1

theorem Atom.lead_ne (a : Atom) (c : Char) (hc : c ∈ ['[', ']', '\x7b', '\x7d', QUOTE]) :
    (Token.atom a).lead ≠ c := by
  have hnone : ∀ c ∈ ['[', ']', '\x7b', '\x7d', QUOTE], 'o' ≠ c ∧ 'u' ≠ c ∧ 'b' ≠ c ∧ 'n' ≠ c ∧
      's' ≠ c ∧ 'd' ≠ c := by simp [QUOTE]
  obtain ⟨ho, hu, hb, hn, hs, hd⟩ := hnone c hc
  cases a
  · exact ho
  · exact hu
  · exact hb
  · exact hn
  · exact hs
  · exact hb
  · exact hd
  · exact hu

theorem Kind.eq_of_tag {k l : Kind} (h : k.tag ++ [':'] <+: l.tag ++ [':']) : k = l := by
  cases k <;> cases l <;> first | rfl | exact absurd h (by decide +kernel)

theorem atoms_of_fork {t u : Token} {s r : List UInt8} (hne : t ≠ u)
    (h : t.bytes ++ s = u.bytes ++ r) : ∃ a b, t = .atom a ∧ u = .atom b ∧ a.kind = b.kind ∧
      a.payload ++ SEMICOLON :: s = b.payload ++ SEMICOLON :: r := by
  have hlead : t.lead = u.lead := by
    obtain ⟨x, hx⟩ := t.bytes_lead
    obtain ⟨y, hy⟩ := u.bytes_lead
    rw [hx, hy, List.append_assoc, List.append_assoc] at h
    exact (Utf8.encode_cons_append h).1
  cases t with
  | atom a =>
    cases u with
    | atom b =>
      simp only [Token.bytes, List.append_assoc, List.singleton_append] at h
      have hkind : a.kind = b.kind := by
        rcases Utf8.encode_prefix h with hprefix | hprefix
        · exact Kind.eq_of_tag hprefix
        · exact (Kind.eq_of_tag hprefix).symm
      rw [hkind] at h
      exact ⟨a, b, rfl, rfl, hkind, List.append_cancel_left h⟩
    | items | itemsEnd | entries | entriesEnd => exact absurd hlead (Atom.lead_ne a _ (by decide))
    | key _ => exact absurd hlead (Atom.lead_ne a QUOTE (by decide))
  | key k =>
    cases u with
    | key k' =>
      simp only [Token.bytes, Utf8.encode_append, List.append_assoc] at h
      exact absurd (congrArg Token.key (stringify_append h).1) hne
    | atom b => exact absurd hlead.symm (Atom.lead_ne b QUOTE (by decide))
    | items | itemsEnd | entries | entriesEnd => exact absurd (show QUOTE = _ from hlead) (by decide)
  | items | itemsEnd | entries | entriesEnd =>
    cases u with
    | atom b => exact absurd hlead.symm (Atom.lead_ne b _ (by decide))
    | items | itemsEnd | entries | entriesEnd =>
      first | exact absurd rfl hne | exact absurd hlead (by decide)
    | key _ => exact absurd (show _ = QUOTE from hlead) (by decide)

/-! ## What a digest tells apart -/

/-- Two asks are one, up to the order of keys and the properties that are undefined. -/
def Same (args others : List Value) : Prop :=
  (Value.array args).normal = (Value.array others).normal

/-- Where one text ends with its `;` the other goes on over it, with what is written after the one; or
the two are different strings that are encoded as one, lone surrogates as what replaces them. -/
def Confused (ts us : List Token) : Prop :=
  ∃ before x y after after', ts = before ++ .atom x :: after ∧ us = before ++ .atom y :: after' ∧
    x.kind = y.kind ∧
      ((∃ m, y.payload = x.payload ++ SEMICOLON :: m ∧
          stream after = m ++ SEMICOLON :: stream after') ∨
        (x ≠ y ∧ x.payload = y.payload ∧ stream after = stream after'))

/-- No text of either ask is confused with what the other goes on with. -/
def Told (args others : List Value) : Prop :=
  ¬Confused (Value.array args).normal.tokens (Value.array others).normal.tokens ∧
    ¬Confused (Value.array others).normal.tokens (Value.array args).normal.tokens

theorem Confused.ne {ts us : List Token} (h : Confused ts us) : ts ≠ us := by
  obtain ⟨before, x, y, after, after', rfl, rfl, -, hparts⟩ := h
  intro hsame
  have hxy : x = y := Token.atom.inj (List.cons.inj (List.append_cancel_left hsame)).1
  subst hxy
  rcases hparts with ⟨m, hm, -⟩ | ⟨hne, -⟩
  · have hlength := congrArg List.length hm
    simp only [List.length_append, List.length_cons] at hlength
    omega
  · exact hne rfl

theorem Confused.stream_eq {ts us : List Token} (h : Confused ts us) : stream ts = stream us := by
  obtain ⟨before, x, y, after, after', rfl, rfl, hkind, hparts⟩ := h
  have htext : x.payload ++ SEMICOLON :: stream after = y.payload ++ SEMICOLON :: stream after' := by
    rcases hparts with ⟨m, hm, hafter⟩ | ⟨-, hpayload, hafter⟩
    · rw [hm, hafter, List.append_assoc]
      rfl
    · rw [hpayload, hafter]
  simp only [stream_append, stream_cons, Token.bytes, hkind, List.append_assoc, List.singleton_append,
    htext]

theorem stream_eq_iff {ts us : List Token} :
    stream ts = stream us ↔ ts = us ∨ Confused ts us ∨ Confused us ts := by
  constructor
  · intro h
    by_cases hne : ts = us
    · exact .inl hne
    · obtain ⟨before, t, u, after, after', rfl, rfl, htu, hfork⟩ :=
        Fork.exists_fork Token.bytes_ne_nil h hne
      obtain ⟨x, y, rfl, rfl, hkind, htext⟩ := atoms_of_fork htu hfork
      have hxy : x ≠ y := fun hsame => htu (hsame ▸ rfl)
      rcases Fork.append_terminator htext with ⟨hpayload, hafter⟩ | ⟨m, hm, hafter⟩ | ⟨m, hm, hafter⟩
      · exact .inr (.inl ⟨before, x, y, after, after', rfl, rfl, hkind, .inr ⟨hxy, hpayload, hafter⟩⟩)
      · exact .inr (.inl ⟨before, x, y, after, after', rfl, rfl, hkind, .inl ⟨m, hm, hafter⟩⟩)
      · exact .inr (.inr ⟨before, y, x, after', after, rfl, rfl, hkind.symm, .inl ⟨m, hm, hafter⟩⟩)
  · rintro (rfl | h | h)
    · rfl
    · exact h.stream_eq
    · exact h.stream_eq.symm

theorem fingerprint_eq_iff {δ : Type*} {digest : List UInt8 → δ} (hdigest : Function.Injective digest)
    {args others : List Value} : fingerprint digest args = fingerprint digest others ↔
      Same args others ∨ Confused (Value.array args).normal.tokens (Value.array others).normal.tokens ∨
        Confused (Value.array others).normal.tokens (Value.array args).normal.tokens := by
  have hsame : (Value.array args).normal.tokens = (Value.array others).normal.tokens ↔
      Same args others := ⟨tokens_injective, congrArg Value.tokens⟩
  rw [fingerprint, fingerprint, hdigest.eq_iff, write_eq, write_eq, stream_eq_iff, hsame]

theorem Told.same {δ : Type*} {digest : List UInt8 → δ} (hdigest : Function.Injective digest)
    {args others : List Value} (htold : Told args others)
    (h : fingerprint digest args = fingerprint digest others) : Same args others := by
  rcases (fingerprint_eq_iff hdigest).mp h with hsame | hconfused | hconfused
  · exact hsame
  · exact absurd hconfused htold.1
  · exact absurd hconfused htold.2

/-- A digest that has no collisions tells two asks apart just where no text of one is confused with
what the other goes on with. -/
theorem fingerprint_tells {δ : Type*} {digest : List UInt8 → δ} (hdigest : Function.Injective digest)
    (args others : List Value) :
    (fingerprint digest args = fingerprint digest others ↔ Same args others) ↔ Told args others := by
  constructor
  · intro h
    refine ⟨fun hconfused => hconfused.ne (congrArg Value.tokens ?_),
      fun hconfused => hconfused.ne (congrArg Value.tokens ?_)⟩
    · exact h.mp ((fingerprint_eq_iff hdigest).mpr (.inr (.inl hconfused)))
    · exact (h.mp ((fingerprint_eq_iff hdigest).mpr (.inr (.inr hconfused)))).symm
  · exact fun htold => ⟨htold.same hdigest, fun h => (fingerprint_eq_iff hdigest).mpr (.inl h)⟩

/-! ## Plain asks -/

/-- It holds no `;`, and a string no lone surrogate. -/
def Atom.plain : Atom → Bool
  | .string s => s.all fun c => c ≠ .char ';' ∧ c = .char c.scalar
  | .bytes b => SEMICOLON ∉ b
  | .url href => ';' ∉ href.toList
  | _ => true

def Token.plain : Token → Bool
  | .atom a => a.plain
  | _ => true

theorem semicolon_mem_utf8EncodeChar {c : Char} (h : SEMICOLON ∈ String.utf8EncodeChar c) : c = ';' := by
  have hbyte {n : ℕ} (hn : SEMICOLON = UInt8.ofNat n) (hlt : n < 256) : n = 0x3b := by
    have hnat := congrArg UInt8.toNat hn
    rw [UInt8.toNat_ofNat', Nat.mod_eq_of_lt hlt] at hnat
    exact hnat.symm
  have hchar : c.val.toNat = 0x3b := by
    unfold String.utf8EncodeChar at h
    simp only at h
    split_ifs at h <;> simp only [List.mem_cons, List.not_mem_nil, or_false] at h
    · exact hbyte h (by omega)
    · rcases h with h | h <;> exact absurd (hbyte h (by omega)) (by omega)
    · rcases h with h | h | h <;> exact absurd (hbyte h (by omega)) (by omega)
    · rcases h with h | h | h | h <;> exact absurd (hbyte h (by omega)) (by omega)
  exact Char.toNat_inj.mp hchar

theorem semicolon_mem_utf8 {cs : List Char} (h : SEMICOLON ∈ encode cs) : ';' ∈ cs := by
  obtain ⟨c, hc, hmem⟩ := List.mem_flatMap.mp h
  exact semicolon_mem_utf8EncodeChar hmem ▸ hc

theorem Atom.plain_payload {a : Atom} (h : a.plain = true) : SEMICOLON ∉ a.payload := by
  intro hmem
  cases a with
  | null => exact absurd (semicolon_mem_utf8 hmem) (by decide +kernel)
  | undefined => exact absurd (semicolon_mem_utf8 hmem) (by decide +kernel)
  | boolean b =>
    cases b
    · exact absurd (semicolon_mem_utf8 hmem) (by decide +kernel)
    · exact absurd (semicolon_mem_utf8 hmem) (by decide +kernel)
  | number n => exact n.closed (semicolon_mem_utf8 hmem)
  | string s =>
    obtain ⟨c, hc, hscalar⟩ := List.mem_map.mp (semicolon_mem_utf8 hmem)
    obtain ⟨hne, hchar⟩ := of_decide_eq_true (List.all_eq_true.mp h c hc)
    exact hne (hchar.trans (congrArg Code.char hscalar))
  | bytes b => exact of_decide_eq_true h hmem
  | date iso => exact iso.closed (semicolon_mem_utf8 hmem)
  | url href => exact of_decide_eq_true h (semicolon_mem_utf8 hmem)

theorem Word.ext_text {w v : Word} (h : w.text = v.text) : w = v := by
  cases w
  cases v
  simpa only [Word.mk.injEq] using h

theorem map_scalar_inj {s t : Text} (hs : ∀ c ∈ s, c = .char c.scalar) (ht : ∀ c ∈ t, c = .char c.scalar)
    (h : s.map Code.scalar = t.map Code.scalar) : s = t := by
  have hmap {u : Text} (hu : ∀ c ∈ u, c = .char c.scalar) : (u.map Code.scalar).map Code.char = u := by
    rw [List.map_map]
    exact (List.map_congr_left fun c hc => (hu c hc).symm).trans (List.map_id u)
  rw [← hmap hs, ← hmap ht, h]

theorem Atom.plain_inj {a b : Atom} (ha : a.plain = true) (hb : b.plain = true)
    (hkind : a.kind = b.kind) (h : a.payload = b.payload) : a = b := by
  have hstring {s : Text} (hs : (Atom.string s).plain = true) : ∀ c ∈ s, c = .char c.scalar :=
    fun c hc => (of_decide_eq_true (List.all_eq_true.mp hs c hc)).2
  cases a with
  | null =>
    cases b with
    | null => rfl
    | _ => exact nomatch hkind
  | undefined =>
    cases b with
    | undefined => rfl
    | _ => exact nomatch hkind
  | boolean b' =>
    cases b with
    | boolean c' => cases b' <;> cases c' <;> first | rfl | exact absurd h (by decide +kernel)
    | _ => exact nomatch hkind
  | number n =>
    cases b with
    | number m => rw [Word.ext_text (String.toList_inj.mp (Utf8.encode_injective h))]
    | _ => exact nomatch hkind
  | date n =>
    cases b with
    | date m => rw [Word.ext_text (String.toList_inj.mp (Utf8.encode_injective h))]
    | _ => exact nomatch hkind
  | url href =>
    cases b with
    | url ref => rw [String.toList_inj.mp (Utf8.encode_injective h)]
    | _ => exact nomatch hkind
  | string s =>
    cases b with
    | string t => rw [map_scalar_inj (hstring ha) (hstring hb) (Utf8.encode_injective h)]
    | _ => exact nomatch hkind
  | bytes b' =>
    cases b with
    | bytes c' => exact congrArg Atom.bytes h
    | _ => exact nomatch hkind

theorem not_confused_of_plain {ts us : List Token} (hts : ∀ t ∈ ts, t.plain = true)
    (hus : ∀ u ∈ us, u.plain = true) : ¬Confused ts us := by
  rintro ⟨before, x, y, after, after', rfl, rfl, hkind, hparts⟩
  have hx : x.plain = true := hts (.atom x) (by simp)
  have hy : y.plain = true := hus (.atom y) (by simp)
  rcases hparts with ⟨m, hm, -⟩ | ⟨hne, hpayload, -⟩
  · refine Atom.plain_payload hy ?_
    rw [hm]
    exact List.mem_append_right _ (List.mem_cons_self ..)
  · exact hne (Atom.plain_inj hx hy hkind hpayload)

/-- Asks whose texts hold no `;` and no lone surrogate are told apart. -/
theorem told_of_plain {args others : List Value}
    (hargs : ∀ t ∈ (Value.array args).normal.tokens, t.plain = true)
    (hothers : ∀ t ∈ (Value.array others).normal.tokens, t.plain = true) : Told args others :=
  ⟨not_confused_of_plain hargs hothers, not_confused_of_plain hothers hargs⟩

/-! ## Asks that are one digest -/

def text (s : String) : Value := .atom (.string (s.toList.map Code.char))

/-- Two strings are written as one that holds what is written between them. -/
theorem two_read_as_one :
    fingerprint id [text "a", text "b"] = fingerprint id [text "a;string:b"] ∧
      ¬Same [text "a", text "b"] [text "a;string:b"] := by
  refine ⟨by decide +kernel, fun h => ?_⟩
  have hitems := Value.array.inj h
  exact nomatch (List.cons.inj hitems).2

theorem fingerprint_tells_strings :
    fingerprint id [text "a", text "b"] = fingerprint id [text "a", text "c"] ↔
      Same [text "a", text "b"] [text "a", text "c"] :=
  (fingerprint_tells Function.injective_id _ _).mpr
    (told_of_plain (by decide +kernel) (by decide +kernel))

end Toa.Continuity
