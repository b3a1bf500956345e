import Toa.Lib.Lines
import Toa.Lib.Utf8

/-! What a streamed call is answered with: a value is the envelope, a stream is the body, bytes as they are and
values a line each, and how the stream ended is a trailer. The body arrives in whatever chunks the connection cuts
it into, and stops short where the connection is lost. -/

namespace Toa.Http
open Utf8
variable {V : Type*}

/-- JSON as a text, and which values are texts of their own. -/
structure Codec (V : Type*) where
  stringify : V → List Char
  parse : List Char → Option V
  text : V → Option (List Char)

structure Codec.Lawful (c : Codec V) : Prop where
  parse_stringify : ∀ v, c.parse (c.stringify v) = some v
  line : ∀ v, '\n' ∉ c.stringify v
  nil : c.parse [] = none
  ok : c.parse ['o', 'k'] = none

inductive Chunk (V : Type*)
  | buffer (bytes : List UInt8)
  | value (v : V)

namespace Chunk

def isBuffer : Chunk V → Bool
  | .buffer _ => true
  | .value _ => false

end Chunk

/-- A stream that is answered with: what it yields, and what is told of its failure where it fails. -/
structure Source (V : Type*) where
  objectMode : Bool
  chunks : List (Chunk V)
  failure : Option V

/-! ## Writing -/

/-- How a stream ended, said once it is too late to say it in a status. -/
def OK : List Char := ['o', 'k']

/-- What a response comes to: nothing but a status, the envelope, or a stream with its trailer. -/
inductive Response
  | refused
  | envelope (body : List UInt8)
  | stream (bytes : Bool) (body : List UInt8) (trailer : Option (List Char))

section
variable (c : Codec V)
-- what is told of a stream that carries bytes and values
variable (mixed : V)

def frame (bytes : Bool) : Chunk V → Option (List UInt8)
  | .buffer chunk => if bytes then some chunk else none
  | .value v => if bytes then (c.text v).map encode else some (encode (c.stringify v ++ ['\n']))

def frames (bytes : Bool) : List (Chunk V) → List UInt8 × Bool
  | [] => ([], true)
  | chunk :: chunks =>
    match frame c bytes chunk with
    | none => ([], false)
    | some body =>
      let (rest, whole) := frames bytes chunks
      (body ++ rest, whole)

/-- What the body is, is settled by what came out of the stream first. -/
def Source.bytes (source : Source V) : Bool :=
  !source.objectMode || (source.chunks.head?.any Chunk.isBuffer)

/-- A text that cannot be a header is one that `addTrailers` throws for. -/
def header (text : List Char) : Option (List Char) :=
  if text.all fun char => char = '\t' ∨ 0x20 ≤ char.toNat ∧ char.toNat ≤ 0xFF ∧ char.toNat ≠ 0x7F then some text
  else none

def Source.failed (source : Source V) (whole : Bool) : Option V := if whole then source.failure else some mixed

def Source.write (source : Source V) : Response :=
  if source.chunks.isEmpty ∧ source.failure.isSome then .refused
  else
    let (body, whole) := frames c source.bytes source.chunks
    .stream source.bytes body <|
      match source.failed mixed whole with
      | none => some OK
      | some reason => header (c.stringify reason)

/-- `write`, of a reply that is no stream. -/
def writeValue (reply : V) : Response := .envelope (encode (c.stringify reply))

end

/-! ## Reading -/

/-- How a message ends: with its trailers, or as its connection is lost. -/
inductive End
  | ended (trailer : Option (List Char))
  | aborted

structure Message where
  chunks : List (List UInt8)
  ending : End

/-- Why a stream that is read is not whole. `failed` has what its trailer says, where it says something. -/
inductive Failure (V : Type*)
  | malformed
  | aborted
  | cut
  | failed (cause : Option V)

section
variable (c : Codec V)

def readEnvelope (message : Message) : Option V :=
  match message.ending with
  | .aborted => none
  | .ended _ => c.parse (decode message.chunks.flatten)

def checked : Option (List Char) → Option (Failure V)
  | none => some .cut
  | some status => if status = OK then none else some (.failed (c.parse status))

/-- `JSON.parse` of one line after another, to the first that is none. -/
def values : List (List Char) → List V × Bool
  | [] => ([], true)
  | line :: lines =>
    match c.parse line with
    | none => ([], false)
    | some v =>
      let (vs, whole) := values lines
      (v :: vs, whole)

/-- The lines of a message, each chunk read as a text of its own, and what is left after them. -/
def linesOf (message : Message) : List (List Char) × List Char :=
  let (lines, rest) := Lines.lines '\n' [] (message.chunks.map decode)
  (lines.filter (· ≠ []), rest)

def readValues (message : Message) : List V × Option (Failure V) :=
  let (lines, rest) := linesOf message
  let (vs, whole) := values c lines
  if !whole then (vs, some .malformed)
  else match message.ending with
    | .aborted => (vs, some .aborted)
    | .ended trailer =>
      if rest = [] then (vs, checked c trailer)
      else match c.parse rest with
        | none => (vs, some .malformed)
        | some v => (vs ++ [v], checked c trailer)

def readBytes (message : Message) : List (List UInt8) × Option (Failure V) :=
  match message.ending with
  | .aborted => (message.chunks, some .aborted)
  | .ended trailer => (message.chunks, checked c trailer)

end

/-- A connection delivers a stream whole, with its trailer or without, or it is lost at any byte. -/
def Delivers (body : List UInt8) (trailer : Option (List Char)) (message : Message) : Prop :=
  match message.ending with
  | .aborted => message.chunks.flatten <+: body
  | .ended status => message.chunks.flatten = body ∧ (status = trailer ∨ status = none)

/-! ## Values, each of which is a line -/

/-- The values of a stream, up to one that is none, and whether they are all of it. -/
def sent : List (Chunk V) → List V × Bool
  | [] => ([], true)
  | .buffer _ :: _ => ([], false)
  | .value v :: chunks => (v :: (sent chunks).1, (sent chunks).2)

section
variable {c : Codec V} {mixed : V}

theorem frames_values (chunks : List (Chunk V)) :
    frames c false chunks = (encode (Lines.closed '\n' ((sent chunks).1.map c.stringify)), (sent chunks).2) := by
  induction chunks with
  | nil => rfl
  | cons chunk chunks ih =>
    cases chunk with
    | buffer bytes => rfl
    | value v =>
      simp only [frames, frame, ih, sent, List.map_cons, Lines.closed, List.flatMap_cons, encode,
        List.flatMap_append, Bool.false_eq_true, if_false]

theorem Codec.Lawful.stringify_ne_nil (hc : c.Lawful) (v : V) : c.stringify v ≠ [] := by
  intro h
  have hparse := hc.parse_stringify v
  rw [h, hc.nil] at hparse
  cases hparse

theorem Codec.Lawful.stringify_ne_ok (hc : c.Lawful) (v : V) : c.stringify v ≠ OK := by
  intro h
  have hparse := hc.parse_stringify v
  rw [h, OK, hc.ok] at hparse
  cases hparse

theorem values_stringify (hc : c.Lawful) (vs : List V) : values c (vs.map c.stringify) = (vs, true) := by
  induction vs with
  | nil => rfl
  | cons v vs ih => simp only [List.map_cons, values, hc.parse_stringify, ih]

theorem filter_stringify (hc : c.Lawful) (vs : List V) :
    (vs.map c.stringify).filter (· ≠ []) = vs.map c.stringify := by
  refine List.filter_eq_self.mpr fun line hline => ?_
  obtain ⟨v, -, rfl⟩ := List.mem_map.mp hline
  exact decide_eq_true (hc.stringify_ne_nil v)

theorem line_stringify (hc : c.Lawful) {vs : List V} {line : List Char} (h : line ∈ vs.map c.stringify) :
    '\n' ∉ line := by
  obtain ⟨v, -, rfl⟩ := List.mem_map.mp h
  exact hc.line v

theorem encodeChar_newline : String.utf8EncodeChar '\n' = [0x0A] := by decide

theorem flatten_texts (message : Message) :
    ([] : List Char) ++ (message.chunks.map decode).flatten = message.chunks.flatMap decode := by
  rw [List.nil_append, List.flatMap_def]

theorem linesOf_prefix (hc : c.Lawful) {vs : List V} {message : Message} (hwhole : Whole message.chunks.dropLast)
    (h : message.chunks.flatten <+: encode (Lines.closed '\n' (vs.map c.stringify))) :
    ∃ k rest, linesOf message = ((vs.take k).map c.stringify, rest) ∧
      (message.chunks.flatten = encode (Lines.closed '\n' (vs.map c.stringify)) → vs.take k = vs ∧ rest = []) := by
  have hfree : ∀ line ∈ vs.map c.stringify, '\n' ∉ line := fun line => line_stringify hc
  obtain ⟨came, left, hcame, hleft, htext, hall⟩ :=
    decode_prefix encodeChar_newline (by decide) (by decide) hwhole h
  obtain ⟨k, u, rfl, hu⟩ := Lines.closed_of_prefix hcame hfree
  have hrest : '\n' ∉ u ++ left := fun hmem => (List.mem_append.mp hmem).elim hu hleft
  have hlines : Lines.lines '\n' [] (message.chunks.map decode) = ((vs.map c.stringify).take k, u ++ left) := by
    refine Lines.lines_of_closed List.not_mem_nil (fun line hline => hfree line (List.mem_of_mem_take hline)) hrest ?_
    rw [flatten_texts, htext, List.append_assoc]
  refine ⟨k, u ++ left, ?_, fun hflatten => ?_⟩
  · rw [linesOf, hlines, ← List.map_take]
    dsimp only
    rw [filter_stringify hc]
  · obtain ⟨hwholetext, rfl⟩ := hall hflatten
    have heq : Lines.closed '\n' ((vs.map c.stringify).take k) ++ u =
        Lines.closed '\n' (vs.map c.stringify) ++ [] := by rw [hwholetext, List.append_nil]
    obtain ⟨htake, rfl⟩ := Lines.closed_append_inj
      (fun line hline => hfree line (List.mem_of_mem_take hline)) hfree hu List.not_mem_nil heq
    rw [← List.map_take] at htake
    have hlength := congrArg List.length htake
    rw [List.length_map, List.length_map] at hlength
    exact ⟨List.take_of_length_le (by rw [List.length_take] at hlength; omega), rfl⟩

theorem readValues_of_lines (hc : c.Lawful) {vs : List V} {message : Message} {rest : List Char}
    (h : linesOf message = (vs.map c.stringify, rest)) :
    readValues c message = match message.ending with
      | .aborted => (vs, some .aborted)
      | .ended trailer =>
        if rest = [] then (vs, checked c trailer)
        else match c.parse rest with
          | none => (vs, some .malformed)
          | some v => (vs ++ [v], checked c trailer) := by
  simp only [readValues, h, values_stringify hc, Bool.not_true, Bool.false_eq_true, if_false]

theorem checked_eq_none {status : Option (List Char)} : checked c status = none ↔ status = some OK := by
  cases status with
  | none => exact ⟨fun h => (by cases h), fun h => (by cases h)⟩
  | some status =>
    simp only [checked]
    split_ifs with h
    · exact ⟨fun _ => congrArg some h, fun _ => rfl⟩
    · exact ⟨fun h => (by cases h), fun hok => absurd (Option.some.inj hok) h⟩

theorem header_eq_some {text status : List Char} (h : header text = some status) : status = text := by
  unfold header at h
  split_ifs at h
  exact (Option.some.inj h).symm

theorem write_values (hc : c.Lawful) {source : Source V} {body : List UInt8} {trailer : Option (List Char)}
    (h : source.write c mixed = .stream false body trailer) :
    body = encode (Lines.closed '\n' ((sent source.chunks).1.map c.stringify)) ∧
      (trailer = some OK → source.failure = none ∧ (sent source.chunks).2 = true) := by
  unfold Source.write at h
  split_ifs at h
  dsimp only at h
  obtain ⟨hbytes, hbody, htrailer⟩ := Response.stream.inj h
  rw [hbytes, frames_values] at hbody htrailer
  refine ⟨hbody.symm, fun hok => ?_⟩
  dsimp only at htrailer
  cases hfailed : source.failed mixed (sent source.chunks).2 with
  | none =>
    unfold Source.failed at hfailed
    split_ifs at hfailed with hwhole
    exact ⟨hfailed, hwhole⟩
  | some reason =>
    rw [hfailed, hok] at htrailer
    exact absurd (header_eq_some htrailer).symm (hc.stringify_ne_ok reason)

/-- A stream of values that is read is what was written, as far as it came: its values in their order, all of them
unless the connection was lost, and an end that is no failure only where the stream ended, its values were all of
it, and its trailer came. No chunk but the last may end within a character. -/
theorem read_written (hc : c.Lawful) {source : Source V} {message : Message} {body : List UInt8}
    {trailer : Option (List Char)} (hwrite : source.write c mixed = .stream false body trailer)
    (hdelivers : Delivers body trailer message) (hwhole : Whole message.chunks.dropLast) :
    (readValues c message).1 <+: (sent source.chunks).1 ∧
      (message.ending ≠ .aborted → (readValues c message).1 = (sent source.chunks).1) ∧
      ((readValues c message).2 = none ↔ message.ending = .ended (some OK)) ∧
      (message.ending = .ended (some OK) → source.failure = none ∧ (sent source.chunks).2 = true) := by
  obtain ⟨rfl, hok⟩ := write_values hc hwrite
  unfold Delivers at hdelivers
  cases hending : message.ending with
  | aborted =>
    rw [hending] at hdelivers
    obtain ⟨k, rest, hlines, -⟩ := linesOf_prefix hc hwhole hdelivers
    have hread := readValues_of_lines hc hlines
    rw [hending] at hread
    rw [hread]
    exact ⟨List.take_prefix .., fun h => absurd rfl h, ⟨fun h => (by cases h), fun h => (by cases h)⟩,
      fun h => (by cases h)⟩
  | ended status =>
    rw [hending] at hdelivers
    obtain ⟨hbody, hstatus⟩ := hdelivers
    obtain ⟨k, rest, hlines, hall⟩ := linesOf_prefix hc hwhole ⟨[], (List.append_nil _).trans hbody⟩
    obtain ⟨htake, rfl⟩ := hall hbody
    rw [htake] at hlines
    have hread := readValues_of_lines hc hlines
    rw [hending] at hread
    dsimp only at hread
    rw [if_pos rfl] at hread
    rw [hread]
    refine ⟨List.prefix_refl _, fun _ => rfl, ?_, fun h => ?_⟩
    · rw [checked_eq_none]
      exact ⟨fun h => congrArg End.ended h, fun h => End.ended.inj h⟩
    · obtain rfl := End.ended.inj h
      obtain htrailer | hnone := hstatus
      · exact hok htrailer.symm
      · cases hnone

def flags : Codec Bool where
  stringify v := (if v then "true" else "false").toList
  parse text := if text = "true".toList then some true else if text = "false".toList then some false else none
  text _ := none

theorem flags_lawful : flags.Lawful where
  parse_stringify := by decide
  line := by decide
  nil := by decide
  ok := by decide

def torn : Message where
  chunks := [encode "tr".toList, encode "ue\nfalse\n".toList]
  ending := .ended (some OK)

theorem read_written_torn :
    (readValues flags torn).1 = [true, false] ∧ (readValues flags torn).2 = none := by
  have hread := @read_written Bool flags true flags_lawful ⟨true, [.value true, .value false], none⟩ torn _ _
    rfl ⟨by decide, Or.inl rfl⟩ (fun chunk hchunk => ⟨"tr".toList, by simpa [torn] using hchunk⟩)
  exact ⟨hread.2.1 (fun h => (by cases h)), hread.2.2.1.mpr rfl⟩

/-- Of a stream of values that came whole, the lines that are read are those that were written just where no
chunk ends within a character: one that does is read as replacements. -/
theorem lines_intact_iff (hc : c.Lawful) {vs : List V} {message : Message}
    (hbody : message.chunks.flatten = encode (Lines.closed '\n' (vs.map c.stringify))) :
    linesOf message = (vs.map c.stringify, []) ↔ Whole message.chunks := by
  constructor
  · intro hlines
    obtain ⟨ls, u, htext, hls, hu⟩ := @Lines.exists_closed _ _ '\n' (message.chunks.flatMap decode)
    have hfree : ∀ line ∈ vs.map c.stringify, '\n' ∉ line := fun line => line_stringify hc
    have hread : Lines.lines '\n' [] (message.chunks.map decode) = (ls, u) :=
      Lines.lines_of_closed List.not_mem_nil hls hu (by rw [flatten_texts, htext])
    rw [linesOf, hread] at hlines
    obtain ⟨hfilter, rfl⟩ := Prod.mk.inj hlines
    -- no line is made or lost, as a newline is read where its byte is
    have hcount : (message.chunks.flatMap decode).count '\n' = (vs.map c.stringify).length := by
      rw [count_decode_chunks encodeChar_newline (by decide) (by decide), hbody,
        ← count_decode encodeChar_newline (by decide) (by decide), decode_encode, Lines.count_closed hfree]
    have hlength : ls.length = (vs.map c.stringify).length := by
      rw [← hcount, htext, List.append_nil, Lines.count_closed hls]
    have hall : ls.filter (· ≠ []) = ls := by
      refine List.filter_sublist.eq_of_length ?_
      rw [hfilter, hlength]
    rw [hall] at hfilter
    rw [whole_iff hbody, htext, hfilter, List.append_nil]
  · intro hwhole
    have hinit : Whole message.chunks.dropLast := fun chunk hchunk => hwhole chunk (List.dropLast_subset _ hchunk)
    obtain ⟨k, rest, hlines, hall⟩ := linesOf_prefix hc hinit ⟨[], (List.append_nil _).trans hbody⟩
    obtain ⟨htake, rfl⟩ := hall hbody
    rw [htake] at hlines
    exact hlines

def letters : Codec Bool where
  stringify v := (if v then "\"é\"" else "\"e\"").toList
  parse text := if text = "\"é\"".toList then some true else if text = "\"e\"".toList then some false else none
  text v := some (if v then ['é'] else ['e'])

theorem letters_lawful : letters.Lawful where
  parse_stringify := by decide
  line := by decide
  nil := by decide
  ok := by decide

def written (cut : ℕ) : Message where
  chunks := let body := encode "\"e\"\n\"é\"\n".toList; [body.take cut, body.drop cut]
  ending := .ended (some OK)

theorem lines_intact_iff_torn :
    linesOf (written 4) = (["\"e\"".toList, "\"é\"".toList], []) ∧
      linesOf (written 6) ≠ (["\"e\"".toList, "\"é\"".toList], []) := by
  constructor
  · refine (@lines_intact_iff Bool letters letters_lawful [false, true] (written 4) (by decide)).mpr fun chunk hchunk => ?_
    obtain rfl | hchunk := List.mem_cons.mp hchunk
    · exact ⟨"\"e\"\n".toList, by decide⟩
    · obtain rfl := List.mem_singleton.mp hchunk
      exact ⟨"\"é\"\n".toList, by decide⟩
  · refine (@lines_intact_iff Bool letters letters_lawful [false, true] (written 6) (by decide)).not.mpr fun hwhole => ?_
    obtain ⟨cs, hcs⟩ := hwhole _ (List.mem_cons_self ..)
    -- what the first chunk is read as is not written so
    have hread : cs = decode ((encode "\"e\"\n\"é\"\n".toList).take 6) := by rw [hcs, decode_encode]
    rw [hread] at hcs
    exact absurd hcs (by decide +kernel)

end

end Toa.Http
