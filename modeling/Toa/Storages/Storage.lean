import Toa.Storages.Scanner

/-! Putting a body to a storage: its provider takes the scanned stream, and what was scanned is
committed where the stream came to its end. -/

namespace Toa.Storages

inductive Failure
  | scanner (error : ScanError)
  | system
deriving DecidableEq

structure Entry where
  id : String
  size : ℕ
  type : String
  checksum : String
  created : String
  attributes : List (String × String)
deriving DecidableEq

inductive Put
  | answered (error : ScanError)
  | raised (failure : Failure)
  | committed (entry : Entry)
deriving DecidableEq

structure Options where
  control : ScanOptions
  id : Option String
  origin : Option String
  attributes : Option (List (String × String))

/-- The digest of the bytes, a generated id and the time of the put. -/
structure Given where
  md5 : List UInt8 → String
  id : String
  now : String

def Options.attached (options : Options) : List (String × String) :=
  match options.origin with
  | none => options.attributes.getD []
  | some origin =>
    Assoc.gather "origin" origin (fun _ => origin) (options.attributes.getD [])

def Scanner.metadata (s : Scanner) (given : Given) (options : Options) : Entry :=
  { id := options.id.getD given.id
    size := s.size
    type := s.type
    checksum := given.md5 s.hashed
    created := given.now
    attributes := options.attached }

/-- `put` over what its provider makes of the stream and of the commit. -/
def Storage.put (s : Scanner) (given : Given) (options : Options)
    (stored committed : Except Failure Unit) : Put :=
  match stored with
  | .error (.scanner error) => if s.error = some error then .answered error else .raised (.scanner error)
  | .error .system => .raised .system
  | .ok () =>
    match committed with
    | .error failure => .raised failure
    | .ok () => .committed (s.metadata given options)

def Scanner.consumed (s : Scanner) : Except Failure Unit :=
  match s.destroyed with
  | some error => .error (.scanner error)
  | none => .ok ()

section Judged
variable (negotiate : Scanner.Negotiate)

def typeOf (control : ScanOptions) (bytes : List UInt8) : Option String :=
  ((signed (bytes.take HEADER_SIZE)).map Signature.type).or control.claim

def Unacceptable (control : ScanOptions) (bytes : List UInt8) : Prop :=
  (typeOf control bytes).any (Scanner.unacceptable negotiate control.accept) = true

def Contradicts (control : ScanOptions) (bytes : List UInt8) : Prop :=
  Scanner.mismatch control.claim (signed (bytes.take HEADER_SIZE)) = true

def Over (control : ScanOptions) (size : ℕ) : Prop := Scanner.exceeds control.limit size = true

instance (control : ScanOptions) (bytes : List UInt8) :
    Decidable (Unacceptable negotiate control bytes) := inferInstanceAs (Decidable (_ = true))

instance (control : ScanOptions) (bytes : List UInt8) : Decidable (Contradicts control bytes) :=
  inferInstanceAs (Decidable (_ = true))

instance (control : ScanOptions) (size : ℕ) : Decidable (Over control size) :=
  inferInstanceAs (Decidable (_ = true))

def judged (control : ScanOptions) (bytes : List UInt8) : List ScanError :=
  (if Unacceptable negotiate control bytes then [.notAcceptable] else []) ++
    if Contradicts control bytes then [.typeMismatch] else []

/-- What a body is refused for, where the limit is held to `size`. -/
def reasons (control : ScanOptions) (bytes : List UInt8) (size : ℕ) : List ScanError :=
  judged negotiate control bytes ++ if Over control size then [.limitExceeded] else []

def Refused (control : ScanOptions) (bytes : List UInt8) : Prop :=
  Over control bytes.length ∨ Unacceptable negotiate control bytes ∨ Contradicts control bytes

def early (control : ScanOptions) (seen : ℕ) : List (List UInt8) → Prop
  | [] => False
  | chunk :: chunks =>
    seen + chunk.length < HEADER_SIZE ∧
      (Over control (seen + chunk.length) ∨ early control (seen + chunk.length) chunks)

def window (seen : ℕ) : List (List UInt8) → ℕ
  | [] => seen
  | chunk :: chunks =>
    if HEADER_SIZE ≤ seen + chunk.length then seen + chunk.length
    else window (seen + chunk.length) chunks

/-- A put tells what it is given: an error exactly where the body is refused, and nothing of the
scanner is raised; else the entry of the whole of it. -/
structure Told (given : Given) (options : Options) (bytes : List UInt8) (put : Put) : Prop where
  answered : (∃ error, put = .answered error) ↔ Refused negotiate options.control bytes
  raised : ∀ error, put ≠ .raised (.scanner error)
  committed : ¬ Refused negotiate options.control bytes → put = .committed
    { id := options.id.getD given.id
      size := bytes.length
      type := (typeOf options.control bytes).getD octets
      checksum := given.md5 bytes
      created := given.now
      attributes := options.attached }

namespace Scanner

def interrupts (s : Scanner) (errors : List ScanError) : Scanner := errors.foldl interrupt s

theorem interrupts_fields (s : Scanner) (errors : List ScanError) :
    (s.interrupts errors).error = errors.getLast?.or s.error ∧
      (s.interrupts errors).destroyed = s.destroyed.or errors.head? ∧
      (s.interrupts errors).control = s.control ∧ (s.interrupts errors).size = s.size ∧
      (s.interrupts errors).hashed = s.hashed ∧ (s.interrupts errors).type = s.type := by
  unfold interrupts
  induction errors generalizing s with
  | nil => exact ⟨rfl, (Option.or_none).symm, rfl, rfl, rfl, rfl⟩
  | cons error errors ih =>
    obtain ⟨herror, hdestroyed, hrest⟩ := ih (s.interrupt error)
    refine ⟨?_, ?_, hrest⟩
    · rw [List.foldl_cons, herror, List.getLast?_cons]
      cases errors.getLast? <;> rfl
    · rw [List.foldl_cons, hdestroyed]
      unfold interrupt
      cases s.destroyed <;> rfl

theorem typed_eq (s : Scanner) (type : Option String) :
    s.typed negotiate type = ({ s with type := type.getD s.type } : Scanner).interrupts
      (if type.any (unacceptable negotiate s.control.accept) = true then [.notAcceptable] else []) := by
  cases type with
  | none => rfl
  | some type =>
    unfold typed accepts
    simp only [Option.any_some, Option.getD_some]
    split_ifs <;> rfl

theorem verify_eq (s : Scanner) (signature : Option Signature) :
    s.verify signature = s.interrupts
      (if mismatch s.control.claim signature then [.typeMismatch] else []) := by
  unfold verify
  split_ifs <;> rfl

theorem interrupts_append (s : Scanner) (errors errors' : List ScanError) :
    (s.interrupts errors).interrupts errors' = s.interrupts (errors ++ errors') :=
  (List.foldl_append ..).symm

theorem complete_eq {s : Scanner} {bytes : List UInt8}
    (hheader : s.chunks.flatten = bytes.take HEADER_SIZE) :
    s.complete negotiate = { ({ s with type := (typeOf s.control bytes).getD s.type } :
      Scanner).interrupts (judged negotiate s.control bytes) with completed := true } := by
  unfold complete
  simp only [hheader]
  rw [typed_eq, verify_eq, interrupts_append, (interrupts_fields _ _).2.2.1]
  rfl

/-- No chunk has finished the header, and none has ended over the limit. -/
structure Open (control : ScanOptions) (seen : List UInt8) (s : Scanner) : Prop where
  options : s.control = control
  size : s.size = seen.length
  hashed : s.hashed = seen
  type : s.type = octets
  chunks : s.chunks.flatten = seen
  position : s.position = seen.length
  short : seen.length < HEADER_SIZE
  within : ¬ Over control seen.length
  completed : s.completed = false
  destroyed : s.destroyed = none
  error : s.error = none

structure Closed (control : ScanOptions) (seen : List UInt8) (s : Scanner) : Prop where
  size : s.size = seen.length
  hashed : s.hashed = seen
  type : s.type = (typeOf control seen).getD octets
  long : HEADER_SIZE ≤ seen.length
  completed : s.completed = true
  destroyed : s.destroyed = none
  error : s.error = none

/-- The stream was destroyed for the first of the errors and the last was kept. -/
structure Destroyed (errors : List ScanError) (s : Scanner) : Prop where
  some : errors ≠ []
  destroyed : s.destroyed = errors.head?
  error : s.error = errors.getLast?

theorem open_new (control : ScanOptions) : Open control [] (new control) := by
  refine ⟨rfl, rfl, rfl, rfl, rfl, rfl, by decide, ?_, rfl, rfl, rfl⟩
  unfold Over exceeds
  cases control.limit with
  | none => exact Bool.false_ne_true
  | some limit => simp

theorem Destroyed.write {errors : List ScanError} {s : Scanner} (h : Destroyed errors s)
    (buffer : List UInt8) : s.write negotiate buffer = s := by
  have hsome : s.destroyed.isSome = true := by
    rw [h.destroyed, List.isSome_head?]
    simpa using h.some
  unfold Scanner.write
  rw [if_pos hsome]

theorem Closed.write {control : ScanOptions} {seen : List UInt8} {s : Scanner}
    (h : Closed control seen s) (buffer : List UInt8) :
    Closed control (seen ++ buffer) (s.write negotiate buffer) := by
  have hprocess : s.write negotiate buffer =
      { s with size := s.size + buffer.length, hashed := s.hashed ++ buffer } := by
    unfold Scanner.write process
    rw [h.destroyed, h.completed]
    rfl
  have hheader : (seen ++ buffer).take HEADER_SIZE = seen.take HEADER_SIZE :=
    List.take_append_of_le_length h.long
  rw [hprocess]
  refine ⟨?_, ?_, ?_, ?_, h.completed, h.destroyed, h.error⟩
  · rw [h.size, List.length_append]
  · rw [h.hashed]
  · rw [h.type]
    unfold typeOf
    rw [hheader]
  · rw [List.length_append]
    exact Nat.le_trans h.long (Nat.le_add_right ..)

theorem limited_eq (s : Scanner) :
    s.limited = s.interrupts (if Over s.control s.size then [.limitExceeded] else []) := by
  by_cases hover : Over s.control s.size
  · have hlimited : s.limited = s.interrupt .limitExceeded := if_pos hover
    rw [hlimited, if_pos hover]
    rfl
  · have hlimited : s.limited = s := if_neg hover
    rw [hlimited, if_neg hover]
    rfl

/-- A chunk is counted and what it adds to the header is kept, and nothing is judged yet. -/
structure Taken (control : ScanOptions) (seen : List UInt8) (s : Scanner) : Prop where
  options : s.control = control
  size : s.size = seen.length
  hashed : s.hashed = seen
  type : s.type = octets
  chunks : s.chunks.flatten = seen.take HEADER_SIZE
  position : s.position = min seen.length HEADER_SIZE
  completed : s.completed = false
  destroyed : s.destroyed = none
  error : s.error = none

def taken (s : Scanner) (buffer : List UInt8) : Scanner :=
  { s with size := s.size + buffer.length, hashed := s.hashed ++ buffer }.keep buffer

theorem Open.taken {control : ScanOptions} {seen : List UInt8} {s : Scanner}
    (h : Open control seen s) (buffer : List UInt8) :
    Taken control (seen ++ buffer) (s.taken buffer) := by
  have hshort := h.short
  have hchunks : (s.taken buffer).chunks.flatten = (seen ++ buffer).take HEADER_SIZE := by
    unfold Scanner.taken keep
    simp only [List.flatten_append, List.flatten_singleton, h.chunks, h.position]
    split_ifs with hlong
    · rw [List.take_append, List.take_of_length_le (Nat.le_of_lt hshort)]
    · rw [List.take_of_length_le (by rw [List.length_append]; omega)]
  have hposition : (s.taken buffer).position = min (seen ++ buffer).length HEADER_SIZE := by
    unfold Scanner.taken keep
    simp only [h.position, List.length_append]
    split_ifs with hlong
    · rw [List.length_take]
      omega
    · omega
  refine ⟨h.options, ?_, ?_, h.type, hchunks, hposition, h.completed, h.destroyed, h.error⟩
  · rw [List.length_append, ← h.size]
    rfl
  · have hhashed := h.hashed
    subst hhashed
    rfl

theorem Taken.limited {control : ScanOptions} {seen : List UInt8} {s : Scanner}
    (h : Taken control seen s) (hshort : seen.length < HEADER_SIZE) :
    (¬ Over control seen.length → Open control seen s.limited) ∧
      (Over control seen.length → Destroyed [.limitExceeded] s.limited) := by
  have hlimited := limited_eq s
  rw [h.options, h.size] at hlimited
  constructor
  · intro hover
    rw [if_neg hover] at hlimited
    have hchunks := h.chunks
    have hposition := h.position
    rw [List.take_of_length_le (Nat.le_of_lt hshort)] at hchunks
    rw [Nat.min_eq_left (Nat.le_of_lt hshort)] at hposition
    rw [hlimited]
    exact ⟨h.options, h.size, h.hashed, h.type, hchunks, hposition, hshort, hover, h.completed,
      h.destroyed, h.error⟩
  · intro hover
    rw [if_pos hover] at hlimited
    obtain ⟨herror, hdestroyed, -⟩ := interrupts_fields s [.limitExceeded]
    rw [hlimited]
    refine ⟨List.cons_ne_nil _ _, ?_, ?_⟩
    · rw [hdestroyed, h.destroyed]
      rfl
    · rw [herror]
      rfl

theorem Taken.complete {control : ScanOptions} {seen : List UInt8} {s : Scanner}
    (h : Taken control seen s) :
    (s.complete negotiate).error = (Storages.judged negotiate control seen).getLast? ∧
      (s.complete negotiate).destroyed = (Storages.judged negotiate control seen).head? ∧
      (s.complete negotiate).control = control ∧ (s.complete negotiate).size = seen.length ∧
      (s.complete negotiate).hashed = seen ∧
      (s.complete negotiate).type = (typeOf control seen).getD octets ∧
      (s.complete negotiate).completed = true := by
  obtain rfl := h.options
  have hcomplete := complete_eq negotiate h.chunks
  obtain ⟨herror, hdestroyed, hcontrol, hsize, hhashed, htype⟩ := interrupts_fields
    { s with type := (typeOf s.control seen).getD s.type } (Storages.judged negotiate s.control seen)
  rw [hcomplete]
  refine ⟨?_, ?_, hcontrol, hsize.trans h.size, hhashed.trans h.hashed, ?_, rfl⟩
  · exact herror.trans (by rw [h.error, Option.or_none])
  · exact hdestroyed.trans (by rw [h.destroyed, Option.none_or])
  · exact htype.trans (by rw [h.type])

theorem Taken.judged {control : ScanOptions} {seen : List UInt8} {s : Scanner}
    (h : Taken control seen s) (hlong : HEADER_SIZE ≤ seen.length) :
    (reasons negotiate control seen seen.length = [] →
      Closed control seen (s.complete negotiate).limited) ∧
    (reasons negotiate control seen seen.length ≠ [] →
      Destroyed (reasons negotiate control seen seen.length) (s.complete negotiate).limited) := by
  obtain ⟨herror, hdestroyed, hcontrol, hsize, hhashed, htype, hcompleted⟩ :=
    h.complete negotiate
  have hlimited := limited_eq (s.complete negotiate)
  rw [hcontrol, hsize] at hlimited
  have hfields := interrupts_fields (s.complete negotiate)
    (if Over control seen.length then [.limitExceeded] else [])
  obtain ⟨herror', hdestroyed', -, hsize', hhashed', htype'⟩ := hfields
  have hfirst : (s.complete negotiate).limited.destroyed =
      (reasons negotiate control seen seen.length).head? := by
    rw [hlimited, hdestroyed', hdestroyed, ← List.head?_append]
    rfl
  have hlast : (s.complete negotiate).limited.error =
      (reasons negotiate control seen seen.length).getLast? := by
    rw [hlimited, herror', herror, ← List.getLast?_append]
    rfl
  constructor
  · intro hnone
    rw [hnone] at hfirst hlast
    have hover : ¬ Over control seen.length := by
      intro hover
      unfold reasons at hnone
      rw [if_pos hover] at hnone
      simp at hnone
    rw [if_neg hover] at hlimited
    refine ⟨?_, ?_, ?_, hlong, ?_, hfirst, hlast⟩
    · rw [hlimited]
      exact hsize
    · rw [hlimited]
      exact hhashed
    · rw [hlimited]
      exact htype
    · rw [hlimited]
      exact hcompleted
  · exact fun hsome => ⟨hsome, hfirst, hlast⟩

theorem Open.write_eq {control : ScanOptions} {seen : List UInt8} {s : Scanner}
    (h : Open control seen s) (buffer : List UInt8) :
    s.write negotiate buffer =
      if HEADER_SIZE ≤ (seen ++ buffer).length then ((s.taken buffer).complete negotiate).limited
      else (s.taken buffer).limited := by
  have hposition := (h.taken buffer).position
  have hiff : (s.taken buffer).position = HEADER_SIZE ↔ HEADER_SIZE ≤ (seen ++ buffer).length := by
    rw [hposition]
    omega
  have hwrite : s.write negotiate buffer = s.process negotiate buffer :=
    if_neg (by rw [h.destroyed]; exact Bool.false_ne_true)
  have hprocess : s.process negotiate buffer =
      if (s.taken buffer).position = HEADER_SIZE then
        ((s.taken buffer).complete negotiate).limited
      else (s.taken buffer).limited := if_neg (by rw [h.completed]; exact Bool.false_ne_true)
  rw [hwrite, hprocess]
  exact if_congr hiff rfl rfl

theorem Open.flush {control : ScanOptions} {seen : List UInt8} {s : Scanner}
    (h : Open control seen s) : s.flush negotiate = s.complete negotiate := by
  unfold Scanner.flush
  rw [h.destroyed, h.completed]
  rfl

theorem Open.untaken {control : ScanOptions} {seen : List UInt8} {s : Scanner}
    (h : Open control seen s) : Taken control seen s := by
  have hshort := Nat.le_of_lt h.short
  refine ⟨h.options, h.size, h.hashed, h.type, ?_, ?_, h.completed, h.destroyed, h.error⟩
  · rw [h.chunks, List.take_of_length_le hshort]
  · rw [h.position, Nat.min_eq_left hshort]

theorem Destroyed.foldl {errors : List ScanError} {s : Scanner} (h : Destroyed errors s)
    (chunks : List (List UInt8)) :
    (chunks.foldl (Scanner.write negotiate) s).flush negotiate = s := by
  have hfold : chunks.foldl (Scanner.write negotiate) s = s := by
    induction chunks with
    | nil => rfl
    | cons chunk chunks ih => rw [List.foldl_cons, h.write negotiate, ih]
  have hsome : s.destroyed.isSome = true := by
    rw [h.destroyed, List.isSome_head?]
    simpa using h.some
  rw [hfold]
  unfold Scanner.flush
  rw [hsome]
  rfl

theorem Closed.foldl {control : ScanOptions} {seen : List UInt8} {s : Scanner}
    (h : Closed control seen s) (chunks : List (List UInt8)) :
    Closed control (seen ++ chunks.flatten)
      ((chunks.foldl (Scanner.write negotiate) s).flush negotiate) := by
  induction chunks generalizing seen s with
  | nil =>
    have hflush : s.flush negotiate = s := by
      unfold Scanner.flush
      rw [h.completed, Bool.or_true]
      rfl
    rw [List.foldl_nil, hflush, List.flatten_nil, List.append_nil]
    exact h
  | cons chunk chunks ih =>
    rw [List.foldl_cons, List.flatten_cons, ← List.append_assoc]
    exact ih (h.write negotiate chunk)

theorem judged_append {control : ScanOptions} {seen : List UInt8}
    (hlong : HEADER_SIZE ≤ seen.length) (more : List UInt8) :
    Storages.judged negotiate control (seen ++ more) = Storages.judged negotiate control seen := by
  have hheader : (seen ++ more).take HEADER_SIZE = seen.take HEADER_SIZE :=
    List.take_append_of_le_length hlong
  have htype : Unacceptable negotiate control (seen ++ more) ↔ Unacceptable negotiate control seen := by
    unfold Unacceptable typeOf
    rw [hheader]
  have hclaim : Contradicts control (seen ++ more) ↔ Contradicts control seen := by
    unfold Contradicts
    rw [hheader]
  unfold Storages.judged
  rw [if_congr htype rfl rfl, if_congr hclaim rfl rfl]

theorem Open.scan {control : ScanOptions} {seen : List UInt8} {s : Scanner}
    (h : Open control seen s) (chunks : List (List UInt8)) :
    let scanned := (chunks.foldl (Scanner.write negotiate) s).flush negotiate
    let errors := reasons negotiate control (seen ++ chunks.flatten) (window seen.length chunks)
    (early control seen.length chunks → Destroyed [.limitExceeded] scanned) ∧
      (¬ early control seen.length chunks → scanned.destroyed = errors.head? ∧
        scanned.error = errors.getLast? ∧
        (errors = [] → scanned.size = (seen ++ chunks.flatten).length ∧
          scanned.hashed = seen ++ chunks.flatten ∧
          scanned.type = (typeOf control (seen ++ chunks.flatten)).getD octets)) := by
  induction chunks generalizing seen s with
  | nil =>
    simp only [List.foldl_nil, List.flatten_nil, List.append_nil, h.flush negotiate, window]
    have hreasons : reasons negotiate control seen seen.length =
        Storages.judged negotiate control seen := by
      unfold reasons
      rw [if_neg h.within, List.append_nil]
    obtain ⟨herror, hdestroyed, -, hsize, hhashed, htype, -⟩ :=
      h.untaken.complete negotiate
    rw [hreasons]
    exact ⟨False.elim, fun _ => ⟨hdestroyed, herror, fun _ => ⟨hsize, hhashed, htype⟩⟩⟩
  | cons chunk chunks ih =>
    have hwrite := h.write_eq negotiate chunk
    have hlength : seen.length + chunk.length = (seen ++ chunk).length :=
      (List.length_append ..).symm
    simp only [List.foldl_cons, List.flatten_cons, early, window, hlength]
    rw [← List.append_assoc]
    by_cases hlong : HEADER_SIZE ≤ (seen ++ chunk).length
    · rw [if_pos hlong] at hwrite
      obtain ⟨hclosed, hdestroyed⟩ := (h.taken chunk).judged negotiate hlong
      rw [← hwrite] at hclosed hdestroyed
      have hreasons : reasons negotiate control (seen ++ chunk ++ chunks.flatten)
          (seen ++ chunk).length = reasons negotiate control (seen ++ chunk) (seen ++ chunk).length := by
        unfold reasons
        rw [judged_append negotiate hlong]
      rw [if_pos hlong, hreasons]
      refine ⟨fun hearly => absurd hearly.1 (Nat.not_lt.mpr hlong), fun _ => ?_⟩
      by_cases hnone : reasons negotiate control (seen ++ chunk) (seen ++ chunk).length = []
      · have hend := (hclosed hnone).foldl negotiate chunks
        rw [hnone]
        exact ⟨hend.destroyed, hend.error, fun _ => ⟨hend.size, hend.hashed, hend.type⟩⟩
      · have hend := hdestroyed hnone
        rw [hend.foldl negotiate chunks]
        exact ⟨hend.destroyed, hend.error, fun heq => absurd heq hnone⟩
    · have hshort : (seen ++ chunk).length < HEADER_SIZE := Nat.lt_of_not_le hlong
      rw [if_neg hlong] at hwrite
      obtain ⟨hopen, hdestroyed⟩ := (h.taken chunk).limited hshort
      rw [← hwrite] at hopen hdestroyed
      rw [if_neg hlong]
      by_cases hover : Over control (seen ++ chunk).length
      · have hend := hdestroyed hover
        rw [hend.foldl negotiate chunks]
        exact ⟨fun _ => hend, fun hearly => absurd ⟨hshort, .inl hover⟩ hearly⟩
      · obtain ⟨hearly, hlate⟩ := ih (hopen hover)
        refine ⟨fun h => hearly (h.2.resolve_left hover), fun h => hlate fun h' => h ⟨hshort, .inr h'⟩⟩

end Scanner

theorem over_mono {control : ScanOptions} {m n : ℕ} (hle : m ≤ n) (h : Over control m) :
    Over control n := by
  unfold Over Scanner.exceeds at h ⊢
  cases hlimit : control.limit with
  | none =>
    rw [hlimit] at h
    cases h
  | some limit =>
    rw [hlimit] at h
    have hlt : limit < m := of_decide_eq_true h
    exact decide_eq_true (Nat.lt_of_lt_of_le hlt hle)

theorem over_of_early {control : ScanOptions} {seen : ℕ} {chunks : List (List UInt8)}
    (h : early control seen chunks) : Over control (seen + chunks.flatten.length) := by
  induction chunks generalizing seen with
  | nil => exact h.elim
  | cons chunk chunks ih =>
    rw [List.flatten_cons, List.length_append, ← Nat.add_assoc]
    rcases h.2 with hover | hearly
    · exact over_mono (Nat.le_add_right ..) hover
    · exact ih hearly

theorem window_le (seen : ℕ) (chunks : List (List UInt8)) :
    window seen chunks ≤ seen + chunks.flatten.length := by
  induction chunks generalizing seen with
  | nil => exact Nat.le_add_right ..
  | cons chunk chunks ih =>
    have hrest := ih (seen + chunk.length)
    rw [List.flatten_cons, List.length_append, ← Nat.add_assoc]
    unfold window
    split_ifs
    · exact Nat.le_add_right ..
    · exact hrest

theorem mem_reasons {control : ScanOptions} {bytes : List UInt8} {size : ℕ} {error : ScanError} :
    error ∈ reasons negotiate control bytes size ↔
      error = .notAcceptable ∧ Unacceptable negotiate control bytes ∨
      error = .typeMismatch ∧ Contradicts control bytes ∨
      error = .limitExceeded ∧ Over control size := by
  unfold reasons judged
  simp only [List.mem_append, List.mem_ite_nil_right, List.mem_singleton, or_assoc]
  tauto

theorem refused_of_reasons {control : ScanOptions} {bytes : List UInt8} {size : ℕ}
    (hsize : size ≤ bytes.length) (h : reasons negotiate control bytes size ≠ []) :
    Refused negotiate control bytes := by
  obtain ⟨error, herror⟩ := List.exists_mem_of_ne_nil _ h
  rcases (mem_reasons negotiate).mp herror with ⟨-, h⟩ | ⟨-, h⟩ | ⟨-, h⟩
  · exact .inr (.inl h)
  · exact .inr (.inr h)
  · exact .inl (over_mono hsize h)

theorem not_refused {control : ScanOptions} {bytes : List UInt8} {size : ℕ}
    (h : reasons negotiate control bytes size = []) (hover : ¬ Over control bytes.length) :
    ¬ Refused negotiate control bytes := by
  have hnone : ∀ error, error ∉ reasons negotiate control bytes size := by
    intro error
    rw [h]
    exact List.not_mem_nil
  rintro (hlimit | htype | hclaim)
  · exact hover hlimit
  · exact hnone .notAcceptable ((mem_reasons negotiate).mpr (.inl ⟨rfl, htype⟩))
  · exact hnone .typeMismatch ((mem_reasons negotiate).mpr (.inr (.inl ⟨rfl, hclaim⟩)))

theorem reasons_nodup (control : ScanOptions) (bytes : List UInt8) (size : ℕ) :
    (reasons negotiate control bytes size).Nodup := by
  unfold reasons judged
  split_ifs <;> decide

theorem head_eq_getLast_iff {α : Type*} {l : List α} (hnodup : l.Nodup) (hne : l ≠ []) :
    l.head? = l.getLast? ↔ l.length = 1 := by
  cases l with
  | nil => exact absurd rfl hne
  | cons a l =>
    rcases List.eq_nil_or_concat l with rfl | ⟨init, b, rfl⟩
    · simp
    · have hmem : b ∈ init ++ [b] := by simp
      have hab : a ≠ b := by
        rintro rfl
        exact (List.nodup_cons.mp hnodup).1 (List.concat_eq_append ▸ hmem)
      have hlast : (a :: init.concat b).getLast? = some b := by
        rw [List.concat_eq_append, ← List.cons_append, List.getLast?_concat]
      rw [hlast]
      simp [hab]

/-- A put of a body in chunks, to a provider that consumes them all. -/
def putChunks (given : Given) (options : Options) (chunks : List (List UInt8)) : Put :=
  let scanner := Scanner.scan negotiate options.control chunks
  Storage.put scanner given options scanner.consumed (.ok ())

/-- One reason when the header is read, or none then and none after, or the limit before it. -/
def Single (control : ScanOptions) (chunks : List (List UInt8)) : Prop :=
  early control 0 chunks ∨
    (reasons negotiate control chunks.flatten (window 0 chunks)).length = 1 ∨
    reasons negotiate control chunks.flatten (window 0 chunks) = [] ∧
      ¬ Over control chunks.flatten.length

/-- A put is told by the bytes exactly where it has no second reason to be refused. -/
theorem told_iff_single (given : Given) (options : Options) (chunks : List (List UInt8)) :
    Told negotiate given options chunks.flatten (putChunks negotiate given options chunks) ↔
      Single negotiate options.control chunks := by
  have hscan := (Scanner.open_new options.control).scan negotiate chunks
  simp only [List.nil_append, List.length_nil] at hscan
  obtain ⟨hearly, hlate⟩ := hscan
  have hwindow := window_le 0 chunks
  rw [Nat.zero_add] at hwindow
  have hsome : ∀ {error}, (Scanner.scan negotiate options.control chunks).destroyed = some error →
      putChunks negotiate given options chunks =
        if (Scanner.scan negotiate options.control chunks).error = some error then .answered error
        else .raised (.scanner error) := by
    intro error hdestroyed
    unfold putChunks Scanner.consumed
    simp only [hdestroyed]
    rfl
  have hanswered : ∀ {error}, putChunks negotiate given options chunks = .answered error →
      Refused negotiate options.control chunks.flatten →
      Told negotiate given options chunks.flatten (putChunks negotiate given options chunks) := by
    intro error hput hrefused
    rw [hput]
    refine ⟨iff_of_true ⟨error, rfl⟩ hrefused, fun e he => ?_, fun h => absurd hrefused h⟩
    cases he
  unfold Single
  by_cases h : early options.control 0 chunks
  · have hend := hearly h
    have hput : putChunks negotiate given options chunks = .answered .limitExceeded := by
      rw [hsome hend.destroyed]
      exact if_pos hend.error
    have hover := over_of_early h
    rw [Nat.zero_add] at hover
    exact iff_of_true (hanswered hput (.inl hover)) (.inl h)
  obtain ⟨hdestroyed, herror, hwhole⟩ := hlate h
  rw [or_iff_right h]
  cases herrors : reasons negotiate options.control chunks.flatten (window 0 chunks) with
  | nil =>
    rw [herrors] at hdestroyed hwhole
    obtain ⟨hsize, hhashed, htype⟩ := hwhole rfl
    have hput : putChunks negotiate given options chunks = .committed
        { id := options.id.getD given.id
          size := chunks.flatten.length
          type := (typeOf options.control chunks.flatten).getD octets
          checksum := given.md5 chunks.flatten
          created := given.now
          attributes := options.attached } := by
      unfold putChunks Scanner.consumed
      simp only [Scanner.scan, hdestroyed, List.head?_nil, Storage.put, Scanner.metadata, hsize,
        hhashed, htype]
    simp only [List.length_nil, Nat.zero_ne_one, true_and, false_or]
    constructor
    · intro htold hover
      obtain ⟨error, hanswer⟩ := htold.answered.mpr (.inl hover)
      rw [hput] at hanswer
      cases hanswer
    · intro hover
      have hkept := not_refused negotiate herrors hover
      rw [hput]
      refine ⟨iff_of_false ?_ hkept, fun error heq => ?_, fun _ => rfl⟩
      · rintro ⟨error, heq⟩
        cases heq
      · cases heq
  | cons error errors =>
    have hne : reasons negotiate options.control chunks.flatten (window 0 chunks) ≠ [] := by
      rw [herrors]
      exact List.cons_ne_nil _ _
    have hone := head_eq_getLast_iff
      (reasons_nodup negotiate options.control chunks.flatten (window 0 chunks)) hne
    have hrefused := refused_of_reasons negotiate hwindow hne
    rw [herrors] at hdestroyed herror hone
    have hput := hsome hdestroyed
    have hcond : (Scanner.scan negotiate options.control chunks).error = some error ↔
        (error :: errors).length = 1 := by
      rw [← hone]
      exact ⟨fun heq => (herror.symm.trans heq).symm, fun heq => herror.trans heq.symm⟩
    rw [or_iff_left fun hnil => List.cons_ne_nil _ _ hnil.1, ← hcond]
    constructor
    · intro htold
      by_contra hlast
      rw [if_neg hlast] at hput
      exact htold.raised error hput
    · intro hlast
      rw [if_pos hlast] at hput
      exact hanswered hput hrefused

end Judged

def anything : Scanner.Negotiate := fun _ types => types.head?

def sample : Given := { md5 := fun bytes => toString bytes.length, id := "4f2a", now := "2024" }

def limitedTo (limit : ℕ) : Options :=
  { control := { claim := none, accept := none, limit := some limit }
    id := none, origin := none, attributes := none }

def zeros : List (List UInt8) := [List.replicate 12 0, List.replicate 8 0]

/-- A chunk that comes after the header is not held to the limit. -/
theorem put_over_limit : ¬ Told anything sample (limitedTo 16) zeros.flatten
    (putChunks anything sample (limitedTo 16) zeros) := by
  intro h
  have hover : Over (limitedTo 16).control zeros.flatten.length := by decide
  obtain ⟨error, herror⟩ := h.answered.mpr (.inl hover)
  have hput : putChunks anything sample (limitedTo 16) zeros =
      .committed { id := "4f2a", size := 20, type := octets, checksum := "20", created := "2024",
                   attributes := [] } := by decide +kernel
  rw [hput] at herror
  cases herror

end Toa.Storages
