import RedisFromScratch.EngineLogs
import RedisFromScratch.FileSwaps
import RedisFromScratch.TableReads
import RedisFromScratch.Versions

/-!
The manifest file. The counters and the files of every level are written in
order and closed by a checksum; the file is written beside the previous one and
renamed. Loading reads the levels back, sorts each of them again, adds the levels
that are missing, and checks the version before it is used.
-/
namespace RedisFromScratch.ManifestFiles

open ByteStrings ByteCoding EngineCoding EngineLogs TableFiles TableReads Versions FileSwaps

/-- The text RFSMAN with a version. -/
def magic : Bytes := [82, 70, 83, 77, 65, 78, 1, 0]

def formatVersion : ℕ := 1

def encodeFile (f : FileMeta) : Bytes :=
  uvarint f.number ++ (uvarint f.size ++ (uvarint f.entries ++
    (putBytes f.minKey ++ putBytes f.maxKey)))

def encodeLevel (files : List FileMeta) : Bytes :=
  uvarint files.length ++ files.flatMap encodeFile

def encodeLevels (levels : List (List FileMeta)) : Bytes :=
  uvarint levels.length ++ levels.flatMap encodeLevel

def encodePayload (m : Manifest) : Bytes :=
  magic ++ (le 4 formatVersion ++ (uvarint m.nextFileNumber ++ (uvarint m.logNumber ++
    (uvarint m.lastSequence ++ encodeLevels m.version.levels))))

def encode (m : Manifest) : Bytes := withChecksum (crc32 ieee) (encodePayload m)

inductive StoreError
  | create
  | write
  | sync
  | rename
  | syncDir
  deriving DecidableEq, Repr

def prepare (pid : ℕ) (m : Manifest) : List (Step UInt8 StoreError) :=
  [⟨.create (.temp pid), [], .create⟩,
    ⟨.write (.temp pid) (encode m), [.remove (.temp pid)], .write⟩,
    ⟨.fsync (.temp pid), [.remove (.temp pid)], .sync⟩]

def store (pid : ℕ) (m : Manifest) : List (Step UInt8 StoreError) :=
  prepare pid m ++ swap pid .rename .syncDir

inductive LoadError
  | short
  | badMagic
  | checksum
  | version (v : ℕ)
  /-- The cursor finds fewer bytes than it wants, or a varint above 64 bits. -/
  | cursor
  | levels (n : ℕ)
  | files (level n : ℕ)
  | trailing (n : ℕ)
  | invalid (e : VersionError)
  deriving DecidableEq, Repr

def readFile (d : Bytes) : Option (FileMeta × Bytes) :=
  (getUvarint 0 0 d).bind fun number =>
    (getUvarint 0 0 number.2).bind fun size =>
      (getUvarint 0 0 size.2).bind fun entries =>
        (getBytes entries.2).bind fun minKey =>
          (getBytes minKey.2).map fun maxKey =>
            (⟨number.1, size.1, entries.1, minKey.1, maxKey.1⟩, maxKey.2)

def readFiles : ℕ → Bytes → Option (List FileMeta × Bytes)
  | 0, d => some ([], d)
  | n + 1, d =>
      (readFile d).bind fun f => (readFiles n f.2).map fun files => (f.1 :: files.1, files.2)

/-- So many levels from the given one on. No level can have more files than the payload
has bytes. -/
def readLevels (payloadLen : ℕ) : ℕ → ℕ → Bytes → Except LoadError (List (List FileMeta) × Bytes)
  | 0, _, d => .ok ([], d)
  | k + 1, level, d =>
      match getUvarint 0 0 d with
      | none => .error .cursor
      | some (n, d) =>
          if payloadLen < n then .error (.files level n)
          else
            match readFiles n d with
            | none => .error .cursor
            | some (files, d) =>
                match readLevels payloadLen k (level + 1) d with
                | .error e => .error e
                | .ok (levels, d) => .ok (sortLevel level files :: levels, d)

/-- The counters, and the number of levels. -/
def readCounters (d : Bytes) : Option ((ℕ × ℕ × ℕ × ℕ) × Bytes) :=
  (getUvarint 0 0 d).bind fun nextFileNumber =>
    (getUvarint 0 0 nextFileNumber.2).bind fun logNumber =>
      (getUvarint 0 0 logNumber.2).bind fun lastSequence =>
        (getUvarint 0 0 lastSequence.2).map fun levelCount =>
          ((nextFileNumber.1, logNumber.1, lastSequence.1, levelCount.1), levelCount.2)

def decodePayload (payload : Bytes) : Except LoadError Manifest :=
  match getFixed 4 (payload.drop 8) with
  | none => .error .cursor
  | some (v, d) =>
      if v ≠ formatVersion then .error (.version v)
      else
        match readCounters d with
        | none => .error .cursor
        | some ((nextFileNumber, logNumber, lastSequence, levelCount), d) =>
            if 64 < levelCount then .error (.levels levelCount)
            else
              match readLevels payload.length levelCount 0 d with
              | .error e => .error e
              | .ok (levels, d) =>
                  if d.length ≠ 0 then .error (.trailing d.length)
                  else
                    let v : Version := ⟨levels ++ List.replicate (maxLevels - levelCount) []⟩
                    match v.validate with
                    | .error e => .error (.invalid e)
                    | .ok () => .ok ⟨nextFileNumber, logNumber, lastSequence, v⟩

def load (file : Option Bytes) : Except LoadError Manifest :=
  match file with
  | none => .ok Manifest.default
  | some data =>
      if data.length < 12 then .error .short
      else if data.take 8 ≠ magic then .error .badMagic
      else
        match verifyTrailingChecksum (crc32 ieee) data with
        | none => .error .checksum
        | some payload => decodePayload payload

/-- The counters and the file sizes are 64-bit numbers. -/
structure Ranged (m : Manifest) : Prop where
  nextFileNumber : m.nextFileNumber < 2 ^ 64
  logNumber : m.logNumber < 2 ^ 64
  lastSequence : m.lastSequence < 2 ^ 64
  files : ∀ files ∈ m.version.levels, ∀ f ∈ files,
    f.number < 2 ^ 64 ∧ f.size < 2 ^ 64 ∧ f.entries < 2 ^ 64

/-- A file whose encoding a machine can hold. -/
structure FileFits (f : FileMeta) : Prop where
  number : f.number < 2 ^ 64
  size : f.size < 2 ^ 64
  entries : f.entries < 2 ^ 64
  length : (encodeFile f).length < 2 ^ 64

theorem uvarint_pos (n : ℕ) : 0 < (uvarint n).length := by
  rw [uvarint]
  split_ifs <;> exact Nat.succ_pos _

theorem readFile_encoded {f : FileMeta} (h : FileFits f) (rest : Bytes) :
    readFile (encodeFile f ++ rest) = some (f, rest) := by
  have hlen := h.length
  simp only [encodeFile, putBytes, List.length_append] at hlen
  rw [readFile, encodeFile]
  simp only [List.append_assoc]
  rw [getUvarint_uvarint _ _ h.number, Option.bind_some, getUvarint_uvarint _ _ h.size,
    Option.bind_some, getUvarint_uvarint _ _ h.entries, Option.bind_some,
    getBytes_putBytes _ _ (by omega), Option.bind_some, getBytes_putBytes _ _ (by omega)]
  rfl

theorem readFiles_encoded {files : List FileMeta} (h : ∀ f ∈ files, FileFits f) (rest : Bytes) :
    readFiles files.length (files.flatMap encodeFile ++ rest) = some (files, rest) := by
  induction files with
  | nil => rfl
  | cons f files ih =>
    rw [List.length_cons, readFiles, List.flatMap_cons, List.append_assoc,
      readFile_encoded (h f List.mem_cons_self), Option.bind_some,
      ih (fun g hg => h g (List.mem_cons_of_mem _ hg))]
    rfl

theorem length_le_files (files : List FileMeta) :
    files.length ≤ (files.flatMap encodeFile).length := by
  induction files with
  | nil => exact Nat.le_refl _
  | cons f files ih =>
    have hpos := uvarint_pos f.number
    rw [List.flatMap_cons, List.length_append, encodeFile]
    simp only [List.length_append, List.length_cons] at ih ⊢
    omega

/-- Levels in the order that sorting gives are read back as they are. -/
theorem readLevels_encoded {payloadLen : ℕ} {levels : List (List FileMeta)}
    (hfits : ∀ files ∈ levels, ∀ f ∈ files, FileFits f) (level : ℕ)
    (hsorted : ∀ i files, levels[i]? = some files → sortLevel (level + i) files = files)
    (hlen : (levels.flatMap encodeLevel).length ≤ payloadLen) (hpayload : payloadLen < 2 ^ 64)
    (rest : Bytes) :
    readLevels payloadLen levels.length level (levels.flatMap encodeLevel ++ rest) =
      .ok (levels, rest) := by
  induction levels generalizing level with
  | nil => rfl
  | cons files levels ih =>
    rw [List.flatMap_cons, List.length_append, encodeLevel, List.length_append] at hlen
    have hcount := length_le_files files
    have hsame : sortLevel level files = files := hsorted 0 files rfl
    have hrest := ih (fun fs hfs => hfits fs (List.mem_cons_of_mem _ hfs)) (level + 1)
      (fun i fs hfs => by
        have hi := hsorted (i + 1) fs (by rw [List.getElem?_cons_succ]; exact hfs)
        rwa [show level + (i + 1) = level + 1 + i by omega] at hi) (by omega)
    rw [List.length_cons, readLevels, List.flatMap_cons, encodeLevel, List.append_assoc,
      List.append_assoc, getUvarint_uvarint _ _ (by omega)]
    dsimp only
    rw [if_neg (by omega), readFiles_encoded (hfits files List.mem_cons_self)]
    dsimp only
    rw [hrest]
    rw [hsame]

/-- Levels without files can follow. -/
theorem validateFrom_padded (l k : ℕ) {levels : List (List FileMeta)}
    (h : validateFrom l levels = .ok ()) :
    validateFrom l (levels ++ List.replicate k []) = .ok () := by
  induction levels generalizing l with
  | nil =>
    induction k generalizing l with
    | zero => rfl
    | succ k ih =>
      have hrest : validateFrom (l + 1) (List.replicate k []) = .ok () := ih (l + 1) rfl
      rw [List.nil_append, List.replicate_succ, validateFrom]
      split_ifs
      · exact hrest
      · exact hrest
  | cons files levels ih =>
    rw [List.cons_append, validateFrom]
    rw [validateFrom] at h
    cases hranges : checkRanges files with
    | error =>
      rw [hranges] at h
      cases h
    | ok =>
      rw [hranges] at h
      split_ifs at h ⊢
      · exact ih (l + 1) h
      · cases hneighbours : checkNeighbours l files with
        | error =>
          rw [hneighbours] at h
          cases h
        | ok =>
          rw [hneighbours] at h
          exact ih (l + 1) h

theorem level_padded (levels : List (List FileMeta)) (k l : ℕ) :
    (Version.mk (levels ++ List.replicate k [])).level l = (Version.mk levels).level l := by
  rw [Version.level, Version.level, List.getD_eq_getElem?_getD, List.getD_eq_getElem?_getD]
  by_cases hl : l < levels.length
  · rw [List.getElem?_append_left hl]
  · rw [List.getElem?_append_right (by omega), List.getElem?_eq_none (by omega : levels.length ≤ l),
      List.getElem?_replicate]
    split_ifs <;> rfl

section RoundTrip

variable {m : Manifest}

theorem length_le_levels (levels : List (List FileMeta)) {files : List FileMeta} {f : FileMeta}
    (hfiles : files ∈ levels) (hf : f ∈ files) :
    (encodeFile f).length ≤ (levels.flatMap encodeLevel).length := by
  have hinner : (encodeFile f).length ≤ (files.flatMap encodeFile).length :=
    (List.sublist_flatten_of_mem (List.mem_map_of_mem hf)).length_le
  have houter : (encodeLevel files).length ≤ (levels.flatMap encodeLevel).length :=
    (List.sublist_flatten_of_mem (List.mem_map_of_mem hfiles)).length_le
  rw [encodeLevel, List.length_append] at houter
  omega

/-- What the payload is read back as. -/
def reread (m : Manifest) : Manifest :=
  { m with version :=
    ⟨m.version.levels ++ List.replicate (maxLevels - m.version.levels.length) []⟩ }

theorem decodePayload_encoded (hvalid : m.version.validate = .ok ())
    (hcount : m.version.levels.length ≤ 64)
    (hsorted : ∀ l, sortLevel l (m.version.level l) = m.version.level l) (hrange : Ranged m)
    (hsize : (encodePayload m).length < 2 ^ 64) :
    decodePayload (encodePayload m) = .ok (reread m) := by
  have hlen := hsize
  simp only [encodePayload, encodeLevels, List.length_append] at hlen
  have hfits : ∀ files ∈ m.version.levels, ∀ f ∈ files, FileFits f := by
    intro files hfiles f hf
    obtain ⟨hnumber, hbytes, hentries⟩ := hrange.files files hfiles f hf
    have hle := length_le_levels m.version.levels hfiles hf
    exact ⟨hnumber, hbytes, hentries, by omega⟩
  have hlevels := @readLevels_encoded (encodePayload m).length _ hfits 0
    (fun i files hi => by
      have hlevel : m.version.level i = files := by
        rw [Version.level, List.getD_eq_getElem?_getD, hi, Option.getD_some]
      rw [Nat.zero_add, ← hlevel]
      exact hsorted i)
    (by simp only [encodePayload, encodeLevels, List.length_append]; omega) hsize []
  rw [List.append_nil] at hlevels
  have hcounters : readCounters (uvarint m.nextFileNumber ++ (uvarint m.logNumber ++
      (uvarint m.lastSequence ++ encodeLevels m.version.levels))) =
      some ((m.nextFileNumber, m.logNumber, m.lastSequence, m.version.levels.length),
        m.version.levels.flatMap encodeLevel) := by
    rw [readCounters, getUvarint_uvarint _ _ hrange.nextFileNumber, Option.bind_some,
      getUvarint_uvarint _ _ hrange.logNumber, Option.bind_some,
      getUvarint_uvarint _ _ hrange.lastSequence, Option.bind_some, encodeLevels,
      getUvarint_uvarint _ _ (by omega)]
    rfl
  have hbody : (encodePayload m).drop 8 = le 4 formatVersion ++ (uvarint m.nextFileNumber ++
      (uvarint m.logNumber ++ (uvarint m.lastSequence ++ encodeLevels m.version.levels))) := rfl
  have hchecked : (Version.mk (m.version.levels ++
      List.replicate (maxLevels - m.version.levels.length) [])).validate = .ok () :=
    validateFrom_padded 0 _ hvalid
  rw [decodePayload, hbody, getFixed_le (by decide)]
  dsimp only
  rw [if_neg (fun h => h rfl), hcounters]
  dsimp only
  rw [if_neg (by omega), hlevels]
  dsimp only
  rw [if_neg (fun h => h rfl), hchecked]
  rfl

theorem load_encode (hvalid : m.version.validate = .ok ()) (hcount : m.version.levels.length ≤ 64)
    (hsorted : ∀ l, sortLevel l (m.version.level l) = m.version.level l) (hrange : Ranged m)
    (hsize : (encode m).length < 2 ^ 64) : load (some (encode m)) = .ok (reread m) := by
  have hlen : (encode m).length = (encodePayload m).length + 4 := withChecksum_length _
  have hlong : 12 ≤ (encodePayload m).length := by
    simp only [encodePayload, List.length_append, le_length]
    change 12 ≤ 8 + (4 + _)
    omega
  have hmagic : (encode m).take 8 = magic := rfl
  rw [load, if_neg (by omega), if_neg (fun h => h hmagic), encode, verify_withChecksum]
  exact decodePayload_encoded hvalid hcount hsorted hrange (by omega)

theorem prepare_encode (pid : ℕ) : Prepares pid (prepare pid m) (encode m) := by
  unfold prepare
  constructor
  · intro s hs
    simp only [List.mem_cons, List.not_mem_nil, or_false] at hs
    rcases hs with rfl | rfl | rfl
    · exact ⟨spares_create, fun _ _ => rfl, spares_nil⟩
    · exact Appends.harmless ⟨Or.inl ⟨_, rfl⟩, spares_removal⟩
    · exact harmless_quiet (fun _ => rfl) (fun _ _ => rfl) spares_removal _
  · intro fs
    change Function.update (Function.update fs (.temp pid) (some [])) (.temp pid)
      ((Function.update fs (.temp pid) (some []) (.temp pid)).map (· ++ encode m)) (.temp pid) = _
    rw [Function.update_self, Function.update_self]
    rfl

/-- A manifest whose version is valid, with every level in the order that sorting gives, is
loaded as it was stored; levels that were missing are empty. -/
theorem stored_manifest_loaded (hvalid : m.version.validate = .ok ())
    (hcount : m.version.levels.length ≤ 64)
    (hsorted : ∀ l, sortLevel l (m.version.level l) = m.version.level l) (hrange : Ranged m)
    (hsize : (encode m).length < 2 ^ 63) {pid : ℕ} {fs fs' : Files UInt8}
    (hends : Ends (store pid m) fs .returned fs') :
    ∃ m', load (fs' .target) = .ok m' ∧ m'.nextFileNumber = m.nextFileNumber ∧
      m'.logNumber = m.logNumber ∧ m'.lastSequence = m.lastSequence ∧
      ∀ l, m'.version.level l = m.version.level l := by
  rcases ends_swap (prepare_encode pid) hends with ⟨hne, -⟩ | htarget
  · exact absurd rfl hne
  · refine ⟨reread m, ?_, rfl, rfl, rfl, fun l => level_padded _ _ l⟩
    rw [htarget]
    exact load_encode hvalid hcount hsorted hrange (by omega)

end RoundTrip

/-- Two files on level 0 and one on level 1, with a binary key. -/
def sample : Manifest :=
  ⟨42, 7, 12345, ⟨[[⟨5, 1005, 15, [98], [121]⟩, ⟨3, 1003, 13, [97], [122]⟩],
    [⟨9, 1009, 19, [0], [255, 254]⟩]]⟩⟩

theorem sample_loaded : ∃ fs' m', Ends (store 1 sample) (fun _ => none) .returned fs' ∧
    load (fs' .target) = .ok m' ∧ m'.version.level 1 = [⟨9, 1009, 19, [0], [255, 254]⟩] := by
  obtain ⟨m', hload, -, -, -, hlevels⟩ := stored_manifest_loaded (m := sample) rfl (by decide)
    (fun l => by
      rcases l with _ | _ | l
      · decide
      · decide
      · rw [Version.level_of_le (by change 2 ≤ l + 1 + 1; omega)]
        rfl)
    ⟨by decide, by decide, by decide, by decide⟩ (by decide +kernel)
    (ends_returned (store 1 sample) (fun _ => none))
  exact ⟨_, m', ends_returned _ _, hload, hlevels 1⟩

end RedisFromScratch.ManifestFiles
