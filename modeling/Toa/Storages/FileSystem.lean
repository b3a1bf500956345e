import Mathlib.Logic.Function.Basic
import Toa.Storages.Storage

/-! A file system storage: an entry is a file of its bytes and a file of its metadata, written one
after the other, the first of them while the stream is still scanned. A disk is its files by their
locations: no directory has the name of a file of another location. -/

namespace Toa.Storages

/-- `join('/', ...rel)`: what is joined starts with a slash, and stays there. -/
def locate (rel : List String) : String :=
  let joined := '/' :: '/' :: ("/".intercalate (rel.filter (· ≠ ""))).toList
  let kept := (joined.splitOn '/').foldl (fun kept segment =>
    if segment = [] ∨ segment = ['.'] then kept
    else if segment = ['.', '.'] then kept.dropLast
    else kept ++ [segment]) []
  let trailing := if joined.getLast? = some '/' ∧ kept ≠ [] then ['/'] else []
  String.ofList ('/' :: ['/'].intercalate kept ++ trailing)

/-- `basename(path).split('.')[0]` -/
def idOf (path : String) : String :=
  let base := ((path.toList.splitOn '/').filter (· ≠ [])).getLast?.getD []
  String.ofList (base.takeWhile (· ≠ '.'))

/-- The files under the root by what a location is followed by, `.blob` or `.meta`. -/
structure Disk where
  blob : String → Option (List UInt8)
  info : String → Option (List Char)

inductive Answer (α : Type*)
  | found (value : α)
  | notFound
  | raised

def Answer.map {α β : Type*} (f : α → β) : Answer α → Answer β
  | found value => .found (f value)
  | notFound => .notFound
  | raised => .raised

/-- `JSON.parse`, `none` where it raises, and `JSON.stringify`. -/
structure Json where
  parse : List Char → Option Entry
  stringify : Entry → List Char

variable (json : Json)

namespace FileSystem

def read : Option (List Char) → Answer Entry
  | none => .notFound
  | some text =>
    match json.parse text with
    | none => .raised
    | some metadata => .found metadata

def head (disk : Disk) (rel : String) : Answer Entry := read json (disk.info rel)

def get (disk : Disk) (rel : String) : Answer (Option (List UInt8) × Entry) :=
  (head json disk rel).map fun metadata => (disk.blob rel, metadata)

/-- A file that is written is opened and emptied first: `n` of its new content have reached it. -/
def written {α : Type*} (content : List α) (n : ℕ) : Option (List α) := some (content.take n)

def put (disk : Disk) (rel : String) (bytes : List UInt8) (n : ℕ) : Disk :=
  { disk with blob := Function.update disk.blob rel (written bytes n) }

def commit (disk : Disk) (rel : String) (text : List Char) (n : ℕ) : Disk :=
  { disk with info := Function.update disk.info rel (written text n) }

end FileSystem

def Storage.get (disk : Disk) (path : String) : Answer (Option (List UInt8) × Entry) :=
  FileSystem.get json disk (locate [path])

/-- `{ id, ...metadata }` -/
def Storage.head (disk : Disk) (path : String) : Answer (String × Entry) :=
  (FileSystem.head json disk (locate [path])).map fun metadata => (idOf path, metadata)

section Stopped
variable (negotiate : Scanner.Negotiate)

/-- What the scanner passes on: a chunk goes through before it is judged. -/
def passed (control : ScanOptions) (chunks : List (List UInt8)) : List UInt8 :=
  (chunks.foldl (fun (s : Scanner × List UInt8) chunk =>
    if s.1.destroyed.isSome then s else (s.1.write negotiate chunk, s.2 ++ chunk))
    (Scanner.new control, [])).2

/-- Where a put comes to a stop: before the blob is opened, after some of the bytes, before the
metadata is opened, after some of its text. -/
inductive Stop
  | unopened
  | blob (n : ℕ)
  | stored
  | info (n : ℕ)
deriving DecidableEq

variable (given : Given) (options : Options)

/-- A put that does not succeed: how it ends, if it does, and where it stops. What the source gives
is in `chunks`; a source that fails leaves the put without an end. -/
inductive Unfinished (chunks : List (List UInt8)) : Stop → Option Put → Prop
  | opening : Unfinished chunks .unopened
      (some (Storage.put (Scanner.scan negotiate options.control chunks) given options
        (.error .system) (.ok ())))
  | refused (n : ℕ) (hn : n ≤ (passed negotiate options.control chunks).length)
      (h : (Scanner.scan negotiate options.control chunks).destroyed ≠ none) :
      Unfinished chunks (.blob n)
        (some (Storage.put (Scanner.scan negotiate options.control chunks) given options
          (Scanner.scan negotiate options.control chunks).consumed (.ok ())))
  | source (n : ℕ) (hn : n ≤ (passed negotiate options.control chunks).length) :
      Unfinished chunks (.blob n) none
  | writing (n : ℕ) (hn : n ≤ (passed negotiate options.control chunks).length) :
      Unfinished chunks (.blob n)
        (some (Storage.put (Scanner.scan negotiate options.control chunks) given options
          (.error .system) (.ok ())))
  | committing (h : (Scanner.scan negotiate options.control chunks).destroyed = none) :
      Unfinished chunks .stored
        (some (Storage.put (Scanner.scan negotiate options.control chunks) given options
          (.ok ()) (.error .system)))
  | describing (n : ℕ) (h : (Scanner.scan negotiate options.control chunks).destroyed = none) :
      Unfinished chunks (.info n)
        (some (Storage.put (Scanner.scan negotiate options.control chunks) given options
          (.ok ()) (.error .system)))

def left (disk : Disk) (rel : String) (bytes : List UInt8) (text : List Char) : Stop → Disk
  | .unopened => disk
  | .blob n => FileSystem.put disk rel bytes n
  | .stored => FileSystem.put disk rel bytes bytes.length
  | .info n => FileSystem.commit (FileSystem.put disk rel bytes bytes.length) rel text n

def location (path : String) : String := locate [path, options.id.getD given.id]

def stopped (disk : Disk) (path : String) (chunks : List (List UInt8)) (stop : Stop) : Disk :=
  left disk (location given options path) (passed negotiate options.control chunks)
    (json.stringify ((Scanner.scan negotiate options.control chunks).metadata given options)) stop

end Stopped

def Unchanged (disk disk' : Disk) : Prop :=
  ∀ path, Storage.get json disk' path = Storage.get json disk path ∧
    Storage.head json disk' path = Storage.head json disk path

def Described (given : Given) (disk : Disk) : Prop :=
  ∀ path bytes metadata, Storage.get json disk path = .found (bytes, metadata) →
    ∃ content, bytes = some content ∧ metadata.size = content.length ∧
      metadata.checksum = given.md5 content

def Readable (disk : Disk) (rel : String) : Prop :=
  ∃ metadata, FileSystem.head json disk rel = .found metadata

/-- Nothing that is read differs: there is no entry to be read or its bytes are what they were, and
the metadata, where its file was opened, reads as it did. -/
def Harmless (disk : Disk) (rel : String) (bytes : List UInt8) (text : List Char) : Stop → Prop
  | .unopened => True
  | .blob n => Readable json disk rel → disk.blob rel = some (bytes.take n)
  | .stored => Readable json disk rel → disk.blob rel = some bytes
  | .info n => FileSystem.read json (some (text.take n)) = FileSystem.read json (disk.info rel) ∧
      (Readable json disk rel → disk.blob rel = some bytes)

theorem locate_single (rel : List String) :
    locate ["/".intercalate (rel.filter (· ≠ ""))] = locate rel := by
  have hjoined : "/".intercalate (["/".intercalate (rel.filter (· ≠ ""))].filter (· ≠ "")) =
      "/".intercalate (rel.filter (· ≠ "")) := by
    by_cases hempty : "/".intercalate (rel.filter (· ≠ "")) = ""
    · rw [hempty]
      rfl
    · rw [List.filter_cons_of_pos (by simpa using hempty)]
      rfl
  unfold locate
  rw [hjoined]

variable {json}

theorem Answer.map_inj {α β : Type*} {f : α → β} (hf : Function.Injective f) {a a' : Answer α}
    (h : a.map f = a'.map f) : a = a' := by
  cases a <;> cases a' <;> simp only [Answer.map, Answer.found.injEq, reduceCtorEq] at h ⊢
  exact hf h

theorem get_eq_iff (disk disk' : Disk) (rel : String) :
    FileSystem.get json disk' rel = FileSystem.get json disk rel ∧
        FileSystem.head json disk' rel = FileSystem.head json disk rel ↔
      FileSystem.head json disk' rel = FileSystem.head json disk rel ∧
        (Readable json disk rel → disk'.blob rel = disk.blob rel) := by
  unfold FileSystem.get Readable
  constructor
  · rintro ⟨hget, hhead⟩
    refine ⟨hhead, ?_⟩
    rintro ⟨metadata, hmetadata⟩
    rw [hhead, hmetadata] at hget
    exact congrArg Prod.fst (Answer.found.inj hget)
  · rintro ⟨hhead, hblob⟩
    refine ⟨?_, hhead⟩
    rw [hhead]
    cases hanswer : FileSystem.head json disk rel with
    | found metadata => exact congrArg (fun blob => Answer.found (blob, metadata)) (hblob ⟨_, hanswer⟩)
    | notFound => rfl
    | raised => rfl

/-- Two disks that differ at one location are told apart there or nowhere. -/
theorem unchanged_iff {disk disk' : Disk} {loc : String} (hloc : ∃ rel, locate rel = loc)
    (hblob : ∀ other, other ≠ loc → disk'.blob other = disk.blob other)
    (hinfo : ∀ other, other ≠ loc → disk'.info other = disk.info other) :
    Unchanged json disk disk' ↔
      FileSystem.head json disk' loc = FileSystem.head json disk loc ∧
        (Readable json disk loc → disk'.blob loc = disk.blob loc) := by
  obtain ⟨rel, hrel⟩ := hloc
  rw [← get_eq_iff]
  constructor
  · intro h
    have hpath := h ("/".intercalate (rel.filter (· ≠ "")))
    unfold Storage.get Storage.head at hpath
    rw [locate_single, hrel] at hpath
    exact ⟨hpath.1, Answer.map_inj (fun _ _ heq => (Prod.mk.inj heq).2) hpath.2⟩
  · intro h path
    unfold Storage.get Storage.head
    generalize locate [path] = other
    by_cases hother : other = loc
    · rw [hother, h.1, h.2]
      exact ⟨rfl, rfl⟩
    · unfold FileSystem.get FileSystem.head
      rw [hblob _ hother, hinfo _ hother]
      exact ⟨rfl, rfl⟩

theorem left_of_ne {other loc : String} (h : other ≠ loc) (disk : Disk) (bytes : List UInt8)
    (text : List Char) (stop : Stop) :
    (left disk loc bytes text stop).blob other = disk.blob other ∧
      (left disk loc bytes text stop).info other = disk.info other := by
  cases stop with
  | unopened => exact ⟨rfl, rfl⟩
  | blob n => exact ⟨Function.update_of_ne h _ _, rfl⟩
  | stored => exact ⟨Function.update_of_ne h _ _, rfl⟩
  | info n => exact ⟨Function.update_of_ne h _ _, Function.update_of_ne h _ _⟩

theorem left_unchanged_iff (disk : Disk) {loc : String} (hloc : ∃ rel, locate rel = loc)
    (bytes : List UInt8) (text : List Char) (stop : Stop) :
    Unchanged json disk (left disk loc bytes text stop) ↔
      Harmless json disk loc bytes text stop := by
  have hwhole : bytes.take bytes.length = bytes := List.take_length
  rw [unchanged_iff hloc (fun other h => (left_of_ne h disk bytes text stop).1)
    fun other h => (left_of_ne h disk bytes text stop).2]
  cases stop with
  | unopened => exact iff_of_true ⟨rfl, fun _ => rfl⟩ trivial
  | blob n =>
    unfold left FileSystem.put FileSystem.head FileSystem.written
    simp only [Function.update_self, true_and]
    exact forall_congr' fun _ => eq_comm
  | stored =>
    unfold left FileSystem.put FileSystem.head FileSystem.written
    simp only [Function.update_self, true_and, hwhole]
    exact forall_congr' fun _ => eq_comm
  | info n =>
    unfold left FileSystem.commit FileSystem.put FileSystem.head FileSystem.written
    simp only [Function.update_self, hwhole]
    exact and_congr_right fun _ => forall_congr' fun _ => eq_comm

theorem described_of_unchanged {given : Given} {disk disk' : Disk} (h : Unchanged json disk disk')
    (hdisk : Described json given disk) : Described json given disk' := by
  intro path bytes metadata hget
  rw [(h path).1] at hget
  exact hdisk path bytes metadata hget

theorem not_committed {negotiate : Scanner.Negotiate} {given : Given} {options : Options}
    {chunks : List (List UInt8)} {stop : Stop} {ended : Option Put}
    (h : Unfinished negotiate given options chunks stop ended) (entry : Entry) :
    ended ≠ some (.committed entry) := by
  intro heq
  cases h with
  | opening => cases heq
  | refused n hn hdestroyed =>
    obtain ⟨error, herror⟩ := Option.ne_none_iff_exists'.mp hdestroyed
    unfold Scanner.consumed at heq
    rw [herror] at heq
    simp only [Storage.put, Option.some.injEq] at heq
    split_ifs at heq
  | source n hn => cases heq
  | writing n hn => cases heq
  | committing hnone => cases heq
  | describing n hnone => cases heq

/-- A put that does not succeed changes nothing that is answered exactly where it is harmless. -/
theorem unfinished_unchanged_iff (json : Json) (negotiate : Scanner.Negotiate) (given : Given)
    (options : Options) (disk : Disk) (path : String) (chunks : List (List UInt8)) (stop : Stop)
    (ended : Option Put) (h : Unfinished negotiate given options chunks stop ended) :
    (∀ entry, ended ≠ some (.committed entry)) ∧
    (Unchanged json disk (stopped json negotiate given options disk path chunks stop) ↔
      Harmless json disk (location given options path) (passed negotiate options.control chunks)
        (json.stringify ((Scanner.scan negotiate options.control chunks).metadata given options))
        stop) ∧
    (Unchanged json disk (stopped json negotiate given options disk path chunks stop) →
      Described json given disk →
      Described json given (stopped json negotiate given options disk path chunks stop)) :=
  ⟨not_committed h, left_unchanged_iff disk ⟨_, rfl⟩ _ _ stop, described_of_unchanged⟩

def photo : Entry :=
  { id := "x", size := 3, type := octets, checksum := "3", created := "2024", attributes := [] }

def photoJson : Json :=
  { parse := fun text => if text = ['x'] then some photo else none, stringify := fun _ => ['x'] }

def photoOptions : Options := { limitedTo 4 with id := some "x" }

def photoDisk (rel : String) : Disk :=
  { blob := fun other => if other = rel then some [1, 2, 3] else none
    info := fun other => if other = rel then some ['x'] else none }

theorem photoDisk_at (rel : String) :
    (photoDisk rel).blob rel = some [1, 2, 3] ∧ (photoDisk rel).info rel = some ['x'] := by
  simp only [photoDisk, if_true, and_self]

theorem refused_photo : Unfinished anything sample photoOptions [[1, 2, 3, 4, 5]] (.blob 0)
    (some (.answered .limitExceeded)) := by
  have hput : Storage.put (Scanner.scan anything photoOptions.control [[1, 2, 3, 4, 5]]) sample
      photoOptions (Scanner.scan anything photoOptions.control [[1, 2, 3, 4, 5]]).consumed (.ok ()) =
      .answered .limitExceeded := by decide +kernel
  rw [← hput]
  exact .refused 0 (Nat.zero_le _) (by decide +kernel)

theorem unfinished_unchanged_new :
    Unchanged photoJson ⟨fun _ => none, fun _ => none⟩
      (stopped photoJson anything sample photoOptions ⟨fun _ => none, fun _ => none⟩ "photos"
        [[1, 2, 3, 4, 5]] (.blob 0)) := by
  refine (unfinished_unchanged_iff photoJson anything sample photoOptions _ "photos" _ _ _
    refused_photo).2.1.mpr ?_
  rintro ⟨metadata, hmetadata⟩
  cases hmetadata

/-- A body that is refused has emptied the blob of the entry it was put over. -/
theorem refused_put_empties :
    Unfinished anything sample photoOptions [[1, 2, 3, 4, 5]] (.blob 0)
      (some (.answered .limitExceeded)) ∧
    ¬ Unchanged photoJson (photoDisk (location sample photoOptions "photos"))
      (stopped photoJson anything sample photoOptions
        (photoDisk (location sample photoOptions "photos")) "photos" [[1, 2, 3, 4, 5]] (.blob 0)) := by
  refine ⟨refused_photo, fun h => ?_⟩
  have hharmless := (left_unchanged_iff _ ⟨_, rfl⟩ _ _ _).mp h
  have hreadable : Readable photoJson (photoDisk (location sample photoOptions "photos"))
      (location sample photoOptions "photos") := by
    refine ⟨photo, ?_⟩
    unfold FileSystem.head
    rw [(photoDisk_at _).2]
    rfl
  have hempty := (photoDisk_at (location sample photoOptions "photos")).1.symm.trans (hharmless hreadable)
  cases hempty

end Toa.Storages
