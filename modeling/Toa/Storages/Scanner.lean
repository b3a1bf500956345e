import Mathlib.Data.List.Basic
import Toa.Lib.Assoc

/-! The scanner a body is piped through on its way to a provider. It keeps the first bytes until a
signature can be read from them, and refuses by destroying itself: the stream ends with the error it
was destroyed with first, `error` is the one it was interrupted with last. -/

namespace Toa.Storages

inductive ScanError
  | typeMismatch
  | notAcceptable
  | limitExceeded
deriving DecidableEq

def ScanError.code : ScanError → String
  | typeMismatch => "TYPE_MISMATCH"
  | notAcceptable => "NOT_ACCEPTABLE"
  | limitExceeded => "LIMIT_EXCEEDED"

structure ScanOptions where
  claim : Option String
  accept : Option String
  limit : Option ℕ

/-- `hex` is without its blanks; a `?` is any digit. -/
structure Signature where
  type : String
  off : ℕ
  hex : List Char
deriving DecidableEq

def signature (hex : String) (off : ℕ) (type : String) : Signature :=
  { type, off, hex := hex.toList.filter (· ≠ ' ') }

def SIGNATURES : List Signature :=
  [ signature "ff d8 ff e0" 0 "image/jpeg",
    signature "ff d8 ff e1" 0 "image/jpeg",
    signature "ff d8 ff e2" 0 "image/jpeg",
    signature "ff d8 ff ee" 0 "image/jpeg",
    signature "ff d8 ff db" 0 "image/jpeg",
    signature "89 50 4e 47" 0 "image/png",
    signature "47 49 46 38" 0 "image/gif",
    signature "52 49 46 46 ?? ?? ?? ?? 57 45 42 50" 0 "image/webp",
    signature "4a 58 4c 20 0d 0a 87 0a" 8 "image/jxl",
    signature "66 74 79 70 68 65 69 63" 8 "image/heic",
    signature "66 74 79 70 61 76 69 66" 8 "image/avif",
    signature "52 49 46 46 ?? ?? ?? ?? 41 56 49 20" 0 "video/avi",
    signature "52 49 46 46 ?? ?? ?? ?? 57 41 56 45" 0 "audio/wav" ]

def HEADER_SIZE : ℕ := SIGNATURES.foldl (fun size s => max size (s.off + s.hex.length)) 0 / 2

def KNOWN_TYPES : List String := SIGNATURES.map Signature.type

/-- `toString('hex')` -/
def hexOf (bytes : List UInt8) : List Char :=
  bytes.flatMap fun b => [Nat.digitChar (b.toNat / 16), Nat.digitChar (b.toNat % 16)]

def Signature.fits (s : Signature) (sig : List Char) : Bool :=
  if '?' ∈ s.hex then
    sig.length = s.hex.length && (s.hex.zip sig).all fun digit => digit.1 = '?' || digit.1 = digit.2
  else sig = s.hex

def signed (header : List UInt8) : Option Signature :=
  SIGNATURES.find? fun s => s.fits (((hexOf header).drop s.off).take s.hex.length)

def octets : String := "application/octet-stream"

/-- `hashed` is what the hash was updated with, `destroyed` the error of the stream. -/
structure Scanner where
  size : ℕ
  type : String
  error : Option ScanError
  hashed : List UInt8
  control : ScanOptions
  position : ℕ
  completed : Bool
  chunks : List (List UInt8)
  destroyed : Option ScanError

namespace Scanner

def new (control : ScanOptions) : Scanner :=
  { size := 0, type := octets, error := none, hashed := [], control, position := 0,
    completed := false, chunks := [], destroyed := none }

def interrupt (s : Scanner) (error : ScanError) : Scanner :=
  { s with completed := true, error := some error, destroyed := s.destroyed.or (some error) }

/-- What the negotiator makes of an accept header and the types on offer. -/
abbrev Negotiate := String → List String → Option String

variable (negotiate : Negotiate)

def unacceptable (accept : Option String) (type : String) : Bool :=
  match accept with
  | none => false
  | some accept => (negotiate accept [type]).isNone

/-- `match` -/
def accepts (s : Scanner) (type : String) : Scanner :=
  if unacceptable negotiate s.control.accept type then s.interrupt .notAcceptable else s

def mismatch (claim : Option String) (signature : Option Signature) : Bool :=
  match claim with
  | none => false
  | some claim =>
    if claim = octets then false
    else
      match signature with
      | none => claim ∈ KNOWN_TYPES
      | some signature => claim ≠ signature.type

def verify (s : Scanner) (signature : Option Signature) : Scanner :=
  if mismatch s.control.claim signature then s.interrupt .typeMismatch else s

def typed (s : Scanner) : Option String → Scanner
  | none => s
  | some type => { s.accepts negotiate type with type }

def complete (s : Scanner) : Scanner :=
  let signature := signed s.chunks.flatten
  let type := (signature.map Signature.type).or s.control.claim
  { (s.typed negotiate type).verify signature with completed := true }

def exceeds (limit : Option ℕ) (size : ℕ) : Bool :=
  match limit with
  | none => false
  | some limit => limit < size

def limited (s : Scanner) : Scanner :=
  if exceeds s.control.limit s.size then s.interrupt .limitExceeded else s

def keep (s : Scanner) (buffer : List UInt8) : Scanner :=
  let kept :=
    if HEADER_SIZE < s.position + buffer.length then buffer.take (HEADER_SIZE - s.position)
    else buffer
  { s with chunks := s.chunks ++ [kept], position := s.position + kept.length }

def process (s : Scanner) (buffer : List UInt8) : Scanner :=
  let counted := { s with size := s.size + buffer.length, hashed := s.hashed ++ buffer }
  if s.completed then counted
  else
    let kept := counted.keep buffer
    if kept.position = HEADER_SIZE then (kept.complete negotiate).limited else kept.limited

def write (s : Scanner) (buffer : List UInt8) : Scanner :=
  if s.destroyed.isSome then s else s.process negotiate buffer

def flush (s : Scanner) : Scanner :=
  if s.destroyed.isSome || s.completed then s else s.complete negotiate

def scan (control : ScanOptions) (chunks : List (List UInt8)) : Scanner :=
  (chunks.foldl (write negotiate) (new control)).flush negotiate

end Scanner

end Toa.Storages
