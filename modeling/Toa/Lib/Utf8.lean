import Mathlib.Data.List.Basic
import Mathlib.Data.List.Flatten

/-! Bytes read as UTF-8, what is no character read as replacements, and bytes that come in chunks each of which
is read on its own. -/

namespace Utf8

def encode (cs : List Char) : List UInt8 := cs.flatMap String.utf8EncodeChar

def first (bs : List UInt8) : Option Char := bs.toByteArray.utf8DecodeChar? 0

def second (a b : UInt8) : Bool :=
  if a = 0xE0 then 0xA0 ≤ b ∧ b ≤ 0xBF
  else if a = 0xED then 0x80 ≤ b ∧ b ≤ 0x9F
  else if a = 0xF0 then 0x90 ≤ b ∧ b ≤ 0xBF
  else if a = 0xF4 then 0x80 ≤ b ∧ b ≤ 0x8F
  else 0x80 ≤ b ∧ b ≤ 0xBF

def begins : List UInt8 → Bool
  | [a, b] => 0xE0 ≤ a ∧ a ≤ 0xF4 ∧ second a b
  | [a, b, c] => 0xF0 ≤ a ∧ a ≤ 0xF4 ∧ second a b ∧ 0x80 ≤ c ∧ c ≤ 0xBF
  | _ => false

/-- How many bytes one replacement stands for: as many as a character begins with, or one. -/
def spoiled (bs : List UInt8) : ℕ :=
  if begins (bs.take 3) then 3 else if begins (bs.take 2) then 2 else 1

def decode : List UInt8 → List Char
  | [] => []
  | b :: bs =>
    match first (b :: bs) with
    | some c => c :: decode (bs.drop (c.utf8Size - 1))
    | none => '\uFFFD' :: decode (bs.drop (spoiled (b :: bs) - 1))
termination_by bs => bs.length
decreasing_by all_goals exact Nat.lt_succ_of_le (List.length_drop ▸ Nat.sub_le _ _)

/-! ## A character in front of the rest -/

theorem first_encodeChar_append (c : Char) (bs : List UInt8) : first (String.utf8EncodeChar c ++ bs) = some c := by
  rw [first, List.toByteArray_append]
  exact ByteArray.utf8DecodeChar?_utf8EncodeChar_append

theorem encodeChar_of_first {bs : List UInt8} {c : Char} (h : first bs = some c) :
    ∃ rest, bs = String.utf8EncodeChar c ++ rest := by
  obtain ⟨l, hl⟩ := ByteArray.exists_of_utf8DecodeChar?_eq_some h
  refine ⟨l.data.toList, ?_⟩
  have hlist := congrArg (fun bytes : ByteArray => bytes.data.toList) hl
  simpa only [ByteArray.data_append, Array.toList_append, List.toList_data_toByteArray] using hlist

theorem decode_encodeChar_append (c : Char) (bs : List UInt8) :
    decode (String.utf8EncodeChar c ++ bs) = c :: decode bs := by
  have hfirst := first_encodeChar_append c bs
  have hlength := String.length_utf8EncodeChar c
  cases hencoded : String.utf8EncodeChar c with
  | nil => exact absurd hencoded String.utf8EncodeChar_ne_nil
  | cons a as =>
    rw [hencoded, List.cons_append] at hfirst
    rw [List.cons_append, decode, hfirst]
    have htail : c.utf8Size - 1 = as.length := by rw [← hlength, hencoded, List.length_cons, Nat.add_sub_cancel]
    dsimp only
    rw [htail, List.drop_left]

theorem decode_encode_append (cs : List Char) (bs : List UInt8) : decode (encode cs ++ bs) = cs ++ decode bs := by
  induction cs with
  | nil => rfl
  | cons c cs ih =>
    rw [encode, List.flatMap_cons, List.append_assoc, decode_encodeChar_append]
    exact congrArg (c :: ·) ih

theorem decode_encode (cs : List Char) : decode (encode cs) = cs := by
  have h := decode_encode_append cs []
  rwa [List.append_nil, decode, List.append_nil] at h

theorem encode_injective {as bs : List Char} (h : encode as = encode bs) : as = bs := by
  rw [← decode_encode as, h, decode_encode]

theorem encode_append (cs ds : List Char) : encode (cs ++ ds) = encode cs ++ encode ds := List.flatMap_append

theorem encode_singleton (c : Char) : encode [c] = String.utf8EncodeChar c := List.append_nil _

theorem encodeChar_append {c d : Char} {bs bs' : List UInt8}
    (h : String.utf8EncodeChar c ++ bs = String.utf8EncodeChar d ++ bs') : c = d ∧ bs = bs' := by
  have hfirst := congrArg first h
  rw [first_encodeChar_append, first_encodeChar_append] at hfirst
  obtain rfl := Option.some.inj hfirst
  exact ⟨rfl, List.append_cancel_left h⟩

theorem encode_cons_append {c d : Char} {cs ds : List Char} {bs bs' : List UInt8}
    (h : encode (c :: cs) ++ bs = encode (d :: ds) ++ bs') : c = d ∧ encode cs ++ bs = encode ds ++ bs' := by
  simp only [encode, List.flatMap_cons, List.append_assoc] at h
  exact encodeChar_append h

theorem encode_prefix {cs ds : List Char} {bs bs' : List UInt8} (h : encode cs ++ bs = encode ds ++ bs') :
    cs <+: ds ∨ ds <+: cs := by
  induction cs generalizing ds with
  | nil => exact .inl List.nil_prefix
  | cons c cs ih =>
    cases ds with
    | nil => exact .inr List.nil_prefix
    | cons d ds =>
      obtain ⟨rfl, hrest⟩ := encode_cons_append h
      exact (ih hrest).imp (List.cons_prefix_cons.mpr ⟨rfl, ·⟩) (List.cons_prefix_cons.mpr ⟨rfl, ·⟩)

/-! ## A byte that no character begins with -/

theorem firstByte_head {c : Char} {b : UInt8} {bs : List UInt8} (h : String.utf8EncodeChar c = b :: bs) :
    b.IsUTF8FirstByte := by
  have hzero := UInt8.isUTF8FirstByte_getElem_zero_utf8EncodeChar (c := c)
  simpa only [h, List.getElem_cons_zero] using hzero

theorem not_firstByte_tail {c : Char} {b x : UInt8} {bs : List UInt8} (h : String.utf8EncodeChar c = b :: bs)
    (hx : x ∈ bs) : ¬x.IsUTF8FirstByte := by
  obtain ⟨i, hi, rfl⟩ := List.getElem_of_mem hx
  have hlength : i + 1 < (String.utf8EncodeChar c).length := by rw [h, List.length_cons]; omega
  have hiff := @UInt8.isUTF8FirstByte_getElem_utf8EncodeChar c (i + 1) hlength
  intro hfirst
  refine Nat.succ_ne_zero i (hiff.mp ?_)
  simpa only [h, List.getElem_cons_succ] using hfirst

theorem first_of_not_firstByte {b : UInt8} (h : ¬b.IsUTF8FirstByte) (bs : List UInt8) :
    first (b :: bs) = none := by
  by_contra hsome
  obtain ⟨c, hc⟩ := Option.ne_none_iff_exists'.mp hsome
  obtain ⟨rest, hrest⟩ := encodeChar_of_first hc
  cases hencoded : String.utf8EncodeChar c with
  | nil => exact String.utf8EncodeChar_ne_nil hencoded
  | cons a as =>
    rw [hencoded, List.cons_append] at hrest
    obtain ⟨rfl, -⟩ := List.cons.inj hrest
    exact h (firstByte_head hencoded)

theorem firstByte_of_lead {b : UInt8} (hlow : 0xE0 ≤ b) (hhigh : b ≤ 0xF4) : b.IsUTF8FirstByte := by
  have hall : ∀ n : Fin 256, 0xE0 ≤ n → n ≤ 0xF4 → (UInt8.ofNat n).IsUTF8FirstByte := by decide +kernel
  have hb := hall ⟨b.toNat, b.toNat_lt⟩ hlow hhigh
  simpa using hb

theorem lead_of_begins {b : UInt8} {bs : List UInt8} (h : begins (b :: bs) = true) : 0xE0 ≤ b ∧ b ≤ 0xF4 := by
  unfold begins at h
  split at h
  next heq =>
    obtain ⟨rfl, rfl⟩ := List.cons.inj heq
    obtain ⟨hlow, hhigh, -⟩ := of_decide_eq_true h
    exact ⟨hlow, hhigh⟩
  next heq =>
    obtain ⟨rfl, rfl⟩ := List.cons.inj heq
    obtain ⟨hlow, hhigh, -⟩ := of_decide_eq_true h
    exact ⟨UInt8.le_trans (by decide) hlow, hhigh⟩
  next => cases h

theorem spoiled_of_not_firstByte {b : UInt8} (h : ¬b.IsUTF8FirstByte) (bs : List UInt8) :
    spoiled (b :: bs) = 1 := by
  have hbegins (rest : List UInt8) : ¬begins (b :: rest) = true := by
    intro hbegins
    obtain ⟨hlow, hhigh⟩ := lead_of_begins hbegins
    exact h (firstByte_of_lead hlow hhigh)
  unfold spoiled
  rw [List.take_succ_cons, List.take_succ_cons, if_neg (hbegins _), if_neg (hbegins _)]

theorem decode_not_firstByte {b : UInt8} (h : ¬b.IsUTF8FirstByte) (bs : List UInt8) :
    decode (b :: bs) = '\uFFFD' :: decode bs := by
  rw [decode, first_of_not_firstByte h, spoiled_of_not_firstByte h]
  rfl

theorem decode_append_not_firstByte {as : List UInt8} (h : ∀ a ∈ as, ¬a.IsUTF8FirstByte) (bs : List UInt8) :
    decode (as ++ bs) = List.replicate as.length '\uFFFD' ++ decode bs := by
  induction as with
  | nil => rfl
  | cons a as ih =>
    rw [List.cons_append, decode_not_firstByte (h a (List.mem_cons_self ..)),
      ih fun b hb => h b (List.mem_cons_of_mem _ hb)]
    rfl

theorem decode_ne_nil {bs : List UInt8} (h : bs ≠ []) : decode bs ≠ [] := by
  cases bs with
  | nil => exact absurd rfl h
  | cons b bs =>
    rw [decode]
    split <;> exact List.cons_ne_nil _ _

/-! ## A character of one byte is read where its byte is -/

theorem second_ge {a b : UInt8} (h : second a b = true) : 0x80 ≤ b := by
  unfold second at h
  split_ifs at h <;> exact UInt8.le_trans (by decide) (of_decide_eq_true h).1

theorem spoiled_ge {b x : UInt8} {bs : List UInt8} (hx : x ∈ bs.take (spoiled (b :: bs) - 1)) : 0x80 ≤ x := by
  unfold spoiled at hx
  split_ifs at hx with hthree htwo
  · match bs, hthree, hx with
    | [], _, hx => cases hx
    | [c], hthree, hx =>
      obtain rfl := List.mem_singleton.mp hx
      exact second_ge (of_decide_eq_true hthree).2.2
    | c :: d :: bs, hthree, hx =>
      obtain ⟨-, -, hsecond, hlow, -⟩ := of_decide_eq_true hthree
      obtain rfl | hx := List.mem_cons.mp hx
      · exact second_ge hsecond
      · obtain rfl := List.mem_singleton.mp hx
        exact hlow
  · match bs, htwo, hx with
    | [], _, hx => cases hx
    | c :: bs, htwo, hx =>
      obtain rfl := List.mem_singleton.mp hx
      exact second_ge (of_decide_eq_true htwo).2.2
  · cases hx

theorem count_encodeChar {c d : Char} {b : UInt8} (hc : String.utf8EncodeChar c = [b]) :
    (String.utf8EncodeChar d).count b = if d = c then 1 else 0 := by
  split_ifs with h
  · rw [h, hc, List.count_singleton_self]
  · refine List.count_eq_zero.mpr fun hmem => ?_
    cases hencoded : String.utf8EncodeChar d with
    | nil => exact String.utf8EncodeChar_ne_nil hencoded
    | cons a as =>
      rw [hencoded] at hmem
      obtain rfl | htail := List.mem_cons.mp hmem
      · have hfirst := first_encodeChar_append c as
        have hfirst' := first_encodeChar_append d []
        rw [hc, List.singleton_append] at hfirst
        rw [hencoded, List.append_nil] at hfirst'
        exact h (Option.some.inj (hfirst'.symm.trans hfirst))
      · exact not_firstByte_tail hencoded htail (firstByte_head hc)

theorem count_decode {c : Char} {b : UInt8} (hc : String.utf8EncodeChar c = [b]) (hb : b < 0x80)
    (hne : c ≠ '\uFFFD') (bs : List UInt8) : (decode bs).count c = bs.count b := by
  fun_induction decode bs with
  | case1 => rfl
  | case2 a bs d hfirst ih =>
    obtain ⟨rest, hrest⟩ := encodeChar_of_first hfirst
    have hdrop : bs.drop (d.utf8Size - 1) = rest := by
      rw [← String.length_utf8EncodeChar]
      cases hencoded : String.utf8EncodeChar d with
      | nil => exact absurd hencoded String.utf8EncodeChar_ne_nil
      | cons x xs =>
        rw [hencoded, List.cons_append] at hrest
        rw [(List.cons.inj hrest).2, List.length_cons, Nat.add_sub_cancel, List.drop_left]
    rw [hrest, List.count_append, count_encodeChar hc, List.count_cons, ih, hdrop, Nat.add_comm]
    simp only [beq_iff_eq]
  | case3 a bs hfirst ih =>
    have ha : a ≠ b := by
      rintro rfl
      have hsome := first_encodeChar_append c bs
      rw [hc, List.singleton_append, hfirst] at hsome
      cases hsome
    have htake : (bs.take (spoiled (a :: bs) - 1)).count b = 0 :=
      List.count_eq_zero.mpr fun hmem => UInt8.not_le.mpr hb (spoiled_ge hmem)
    have hsplit : bs.count b = (bs.drop (spoiled (a :: bs) - 1)).count b := by
      conv_lhs => rw [← List.take_append_drop (spoiled (a :: bs) - 1) bs]
      rw [List.count_append, htake, Nat.zero_add]
    rw [List.count_cons_of_ne hne.symm, ih, List.count_cons_of_ne ha, hsplit]

/-! ## Chunks -/

theorem cut_encode {as bs : List UInt8} {cs : List Char} (h : as ++ bs = encode cs) :
    (∃ cs₁ cs₂, cs = cs₁ ++ cs₂ ∧ as = encode cs₁ ∧ bs = encode cs₂) ∨
      ∃ cs₁ c cs₂ ps qs, cs = cs₁ ++ c :: cs₂ ∧ String.utf8EncodeChar c = ps ++ qs ∧ ps ≠ [] ∧ qs ≠ [] ∧
        as = encode cs₁ ++ ps ∧ bs = qs ++ encode cs₂ := by
  induction cs generalizing as with
  | nil =>
    obtain ⟨rfl, rfl⟩ := List.append_eq_nil_iff.mp h
    exact .inl ⟨[], [], rfl, rfl, rfl⟩
  | cons c cs ih =>
    rw [encode, List.flatMap_cons] at h
    obtain ⟨rest, hcut, hrest⟩ | ⟨rest, hcut, hrest⟩ := List.append_eq_append_iff.mp h
    · -- the cut is within the first character, or right before or after it
      by_cases has : as = []
      · subst has
        refine .inl ⟨[], c :: cs, rfl, rfl, ?_⟩
        rw [encode, List.flatMap_cons]
        exact h
      · by_cases hnil : rest = []
        · subst hnil
          refine .inl ⟨[c], cs, rfl, ?_, hrest⟩
          rw [encode, List.flatMap_singleton, hcut, List.append_nil]
        · exact .inr ⟨[], c, cs, as, rest, rfl, hcut, has, hnil, rfl, hrest⟩
    · obtain ⟨cs₁, cs₂, rfl, rfl, rfl⟩ | ⟨cs₁, d, cs₂, ps, qs, rfl, hd, hps, hqs, rfl, rfl⟩ := ih hrest.symm
      · exact .inl ⟨c :: cs₁, cs₂, rfl, by rw [hcut, encode, encode, List.flatMap_cons], rfl⟩
      · refine .inr ⟨c :: cs₁, d, cs₂, ps, qs, rfl, hd, hps, hqs, ?_, rfl⟩
        rw [hcut, encode, encode, List.flatMap_cons, List.append_assoc]

theorem not_firstByte_of_cut {c : Char} {ps qs : List UInt8} (h : String.utf8EncodeChar c = ps ++ qs)
    (hps : ps ≠ []) {q : UInt8} (hq : q ∈ qs) : ¬q.IsUTF8FirstByte := by
  cases ps with
  | nil => exact absurd rfl hps
  | cons p ps => exact not_firstByte_tail h (List.mem_append_right ps hq)

theorem length_le_decode_chunks {chunks : List (List UInt8)} {as : List UInt8} {cs : List Char}
    (has : ∀ a ∈ as, ¬a.IsUTF8FirstByte) (h : chunks.flatten = as ++ encode cs) :
    as.length + cs.length ≤ (chunks.flatMap decode).length := by
  induction chunks generalizing as cs with
  | nil =>
    obtain ⟨rfl, hnil⟩ := List.append_eq_nil_iff.mp h.symm
    cases cs with
    | nil => exact Nat.le_refl _
    | cons c cs =>
      rw [encode, List.flatMap_cons] at hnil
      exact absurd (List.append_eq_nil_iff.mp hnil).1 String.utf8EncodeChar_ne_nil
  | cons chunk chunks ih =>
    rw [List.flatMap_cons, List.length_append]
    rw [List.flatten_cons] at h
    obtain ⟨rest, hcut, hrest⟩ | ⟨rest, hcut, hrest⟩ := List.append_eq_append_iff.mp h
    · -- the chunk ends among the bytes that begin nothing
      subst hcut
      have hchunk := decode_append_not_firstByte (fun a ha => has a (List.mem_append_left rest ha)) []
      rw [List.append_nil] at hchunk
      have htail := ih (fun a ha => has a (List.mem_append_right chunk ha)) hrest
      rw [hchunk, List.length_append, List.length_append, List.length_replicate]
      omega
    · rw [hcut, decode_append_not_firstByte has, List.length_append, List.length_replicate]
      obtain ⟨cs₁, cs₂, rfl, rfl, hbs⟩ | ⟨cs₁, c, cs₂, ps, qs, rfl, hc, hps, hqs, rfl, hbs⟩ :=
        cut_encode hrest.symm
      · have htail := @ih [] _ (fun a ha => (by cases ha)) hbs
        rw [decode_encode, List.length_append]
        simp only [List.length_nil] at htail
        omega
      · have htail := ih (fun q => not_firstByte_of_cut hc hps) hbs
        have hps := List.length_pos_iff.mpr (decode_ne_nil hps)
        have hqs := List.length_pos_iff.mpr hqs
        rw [decode_encode_append, List.length_append, List.length_append, List.length_cons]
        omega

def Whole (chunks : List (List UInt8)) : Prop := ∀ chunk ∈ chunks, ∃ cs, chunk = encode cs

theorem flatten_of_whole {chunks : List (List UInt8)} (h : Whole chunks) : ∃ cs, chunks.flatten = encode cs := by
  induction chunks with
  | nil => exact ⟨[], rfl⟩
  | cons chunk chunks ih =>
    obtain ⟨front, rfl⟩ := h chunk (List.mem_cons_self ..)
    obtain ⟨rest, hrest⟩ := ih fun other hother => h other (List.mem_cons_of_mem _ hother)
    exact ⟨front ++ rest, by rw [List.flatten_cons, hrest, encode, encode, encode, List.flatMap_append]⟩

theorem decode_chunks_of_whole {chunks : List (List UInt8)} (h : Whole chunks) :
    chunks.flatMap decode = decode chunks.flatten := by
  induction chunks with
  | nil => rw [List.flatMap_nil, List.flatten_nil, decode]
  | cons chunk chunks ih =>
    obtain ⟨cs, rfl⟩ := h chunk (List.mem_cons_self ..)
    rw [List.flatMap_cons, List.flatten_cons, decode_encode, decode_encode_append,
      ih fun other hother => h other (List.mem_cons_of_mem _ hother)]

theorem whole_iff {chunks : List (List UInt8)} {cs : List Char} (h : chunks.flatten = encode cs) :
    Whole chunks ↔ (chunks.flatMap decode).length = cs.length := by
  constructor
  · intro hwhole
    rw [decode_chunks_of_whole hwhole, h, decode_encode]
  · intro hlength
    induction chunks generalizing cs with
    | nil => exact fun chunk hchunk => (by cases hchunk)
    | cons chunk chunks ih =>
      rw [List.flatMap_cons, List.length_append] at hlength
      rw [List.flatten_cons] at h
      obtain ⟨cs₁, cs₂, rfl, rfl, hbs⟩ | ⟨cs₁, c, cs₂, ps, qs, rfl, hc, hps, hqs, rfl, hbs⟩ := cut_encode h
      · rw [decode_encode, List.length_append] at hlength
        have htail := ih hbs (by omega)
        intro other hother
        obtain rfl | hother := List.mem_cons.mp hother
        · exact ⟨cs₁, rfl⟩
        · exact htail other hother
      · have htail := length_le_decode_chunks (fun q => not_firstByte_of_cut hc hps) hbs
        have hps := List.length_pos_iff.mpr (decode_ne_nil hps)
        have hqs := List.length_pos_iff.mpr hqs
        rw [decode_encode_append, List.length_append, List.length_append, List.length_cons] at hlength
        omega

theorem count_cut {c d : Char} {b : UInt8} {ps qs : List UInt8} (hc : String.utf8EncodeChar c = [b])
    (hd : String.utf8EncodeChar d = ps ++ qs) (hps : ps ≠ []) (hqs : qs ≠ []) : ps.count b = 0 := by
  have hcount := count_encodeChar (d := d) hc
  rw [hd, List.count_append] at hcount
  by_cases hsame : d = c
  · have hlength := congrArg List.length (hd.symm.trans (hsame ▸ hc))
    have hps := List.length_pos_iff.mpr hps
    have hqs := List.length_pos_iff.mpr hqs
    rw [List.length_append, List.length_singleton] at hlength
    omega
  · rw [if_neg hsame] at hcount
    omega

theorem decode_prefix {c : Char} {b : UInt8} (hc : String.utf8EncodeChar c = [b]) (hb : b < 0x80)
    (hne : c ≠ '\uFFFD') {chunks : List (List UInt8)} {cs : List Char} (hwhole : Whole chunks.dropLast)
    (h : chunks.flatten <+: encode cs) :
    ∃ came left, came <+: cs ∧ c ∉ left ∧ chunks.flatMap decode = came ++ left ∧
      (chunks.flatten = encode cs → came = cs ∧ left = []) := by
  obtain rfl | ⟨init, last, rfl⟩ := List.eq_nil_or_concat' chunks
  · refine ⟨[], [], List.nil_prefix, List.not_mem_nil, rfl, fun hcs => ⟨?_, rfl⟩⟩
    rw [← decode_encode cs, ← hcs, List.flatten_nil, decode]
  · rw [List.dropLast_concat] at hwhole
    have hdecode : (init ++ [last]).flatMap decode = decode (init ++ [last]).flatten := by
      rw [List.flatMap_append, decode_chunks_of_whole hwhole, List.flatMap_singleton, List.flatten_append,
        List.flatten_singleton]
      obtain ⟨cs₁, hcs₁⟩ := flatten_of_whole hwhole
      rw [hcs₁, decode_encode, decode_encode_append]
    obtain ⟨bs, hbs⟩ := h
    rw [hdecode]
    obtain ⟨cs₁, cs₂, rfl, hcame, hleft⟩ | ⟨cs₁, d, cs₂, ps, qs, rfl, hd, hps, hqs, hcame, hleft⟩ :=
      cut_encode hbs
    · refine ⟨cs₁, [], List.prefix_append .., List.not_mem_nil, ?_, fun hcs => ⟨?_, rfl⟩⟩
      · rw [hcame, decode_encode, List.append_nil]
      · exact encode_injective (hcame.symm.trans hcs)
    · refine ⟨cs₁, decode ps, List.prefix_append .., ?_, ?_, fun hcs => ?_⟩
      · rw [← List.count_eq_zero, count_decode hc hb hne, count_cut hc hd hps hqs]
      · rw [hcame, decode_encode_append]
      · rw [hcs] at hbs
        have hnil : bs = [] := List.append_right_eq_self.mp hbs
        rw [hnil] at hleft
        exact absurd (List.append_eq_nil_iff.mp hleft.symm).1 hqs

theorem count_decode_chunks {c : Char} {b : UInt8} (hc : String.utf8EncodeChar c = [b]) (hb : b < 0x80)
    (hne : c ≠ '\uFFFD') (chunks : List (List UInt8)) :
    (chunks.flatMap decode).count c = chunks.flatten.count b := by
  induction chunks with
  | nil => rfl
  | cons chunk chunks ih =>
    rw [List.flatMap_cons, List.count_append, count_decode hc hb hne, ih, List.flatten_cons, List.count_append]

end Utf8
