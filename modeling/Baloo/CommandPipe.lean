import Baloo.Lib.BigEndian
import Baloo.Lib.Framing
import Baloo.QtText

/-!
# The pipes between the file content indexer and its extractor process

The indexer writes commands, the extractor writes status messages, both through a `QDataStream`. The
bytes arrive in pieces. A pipe reads each message in a transaction of its stream: a read past the bytes
that have arrived fails, all reads after it fail too, and the transaction takes back what has been read.

Every reader here takes one encoding from the front of the stream, and fails on a part of one
(`Decodes`). So both ends take messages from the bytes the way `Framing.Reads` asks, and whatever the
arrivals are, the signals are those of the messages that have come (`command_pipe`).
-/

namespace Baloo

open BigEndian (toBytes ofBytes)

/-! ## Streams -/

/-- The states of a stream. -/
inductive StreamStatus where
  | ok
  | readPastEnd
  | readCorruptData
  | sizeLimitExceeded
  deriving DecidableEq, Repr

/-- A stream that is read in a transaction: the bytes that are still there, and the status. -/
structure QDataStream where
  unread : List UInt8
  status : StreamStatus
  deriving DecidableEq, Repr

namespace QDataStream

/-- `QDataStream::startTransaction`: the status is reset. -/
def startTransaction (device : List UInt8) : QDataStream := ⟨device, .ok⟩

/-- `QDataStream::setStatus`: the first failure stays. -/
def setStatus (s : QDataStream) (status : StreamStatus) : QDataStream :=
  if s.status = .ok then { s with status } else s

/-- `QDataStream::commitTransaction`: what the device has left, and whether all went well. Only a read
past the end is taken back. -/
def commitTransaction (device : List UInt8) (s : QDataStream) : List UInt8 × Bool :=
  if s.status = .readPastEnd then (device, false) else (s.unread, s.status = .ok)

/-- `QDataStream::rollbackTransaction` -/
def rollbackTransaction (device : List UInt8) (s : QDataStream) : List UInt8 :=
  (commitTransaction device (s.setStatus .readPastEnd)).1

/-- `QDataStream::readBlock`: after a failure nothing is read any more; a read past the end takes what is
there. -/
def readBlock (len : ℕ) (s : QDataStream) : Option (List UInt8) × QDataStream :=
  if s.status ≠ .ok then (none, s)
  else if len ≤ s.unread.length then (some (s.unread.take len), { s with unread := s.unread.drop len })
  else (none, { s with unread := [] }.setStatus .readPastEnd)

/-- `operator>>` of the unsigned numbers of `width` bytes. -/
def readNumber (width : ℕ) (s : QDataStream) : ℕ × QDataStream :=
  match s.readBlock width with
  | (some bytes, s) => (ofBytes bytes, s)
  | (none, s) => (0, s)

/-- `operator>>` of `qint64` -/
def readQint64 (s : QDataStream) : ℤ × QDataStream :=
  match s.readNumber 8 with
  | (n, s) => (if n < 2 ^ 63 then n else n - 2 ^ 64, s)

/-- Stands for the size of a null string. -/
def nullCode : ℕ := 0xffffffff

/-- Says that the size follows in 64 bits. -/
def extendedSize : ℕ := 0xfffffffe

/-- `QDataStream::writeQSizeType` -/
def writeQSizeType (value : ℕ) : List UInt8 :=
  if value < extendedSize then toBytes 4 value else toBytes 4 extendedSize ++ toBytes 8 value

/-- `QDataStream::readQSizeType` -/
def readQSizeType (s : QDataStream) : ℤ × QDataStream :=
  match s.readNumber 4 with
  | (first, s) =>
    if first = nullCode then (-1, s)
    else if first < extendedSize then (first, s)
    else s.readQint64

/-- The characters in a block, two bytes each. -/
def charsOfBytes : List UInt8 → List QChar
  | high :: low :: bytes => UInt16.ofNat (ofBytes [high, low]) :: charsOfBytes bytes
  | _ => []

/-- The bytes of characters. -/
def bytesOfChars (chars : List QChar) : List UInt8 := chars.flatMap fun c => toBytes 2 c.toNat

/-- `operator<<` of a string -/
def writeString : QString → List UInt8
  | none => toBytes 4 nullCode
  | some chars => writeQSizeType (2 * chars.length) ++ bytesOfChars chars

/-- `operator>>` of a string -/
def readString (s : QDataStream) : QString × QDataStream :=
  match s.readQSizeType with
  | (bytes, s) =>
    if bytes < -1 then (none, s.setStatus .sizeLimitExceeded)
    else if bytes = -1 then (none, s)
    else if 0 < bytes then
      if bytes % 2 = 1 then (none, s.setStatus .readCorruptData)
      else match s.readBlock bytes.toNat with
        | (some block, s) => (some (charsOfBytes block), s)
        | (none, s) => (none, s.setStatus .readPastEnd)
    else (some [], s)

/-- `operator<<` of a vector of `quint64` -/
def writeVector (ids : List UInt64) : List UInt8 :=
  writeQSizeType ids.length ++ ids.flatMap fun id => toBytes 8 id.toNat

/-- The elements of a vector; after a failure the vector is cleared. -/
def readElements : ℕ → List UInt64 → QDataStream → List UInt64 × QDataStream
  | 0, ids, s => (ids, s)
  | n + 1, ids, s =>
    match s.readNumber 8 with
    | (id, s) => if s.status ≠ .ok then ([], s) else readElements n (ids ++ [UInt64.ofNat id]) s

/-- `operator>>` of a vector of `quint64` -/
def readVector (s : QDataStream) : List UInt64 × QDataStream :=
  match s.readQSizeType with
  | (size, s) =>
    if size < 0 then ([], s.setStatus .sizeLimitExceeded)
    else readElements size.toNat [] s

variable {β γ : Type}

/-! ### What the readers do -/

@[simp] theorem setStatus_of_ne {s : QDataStream} (h : s.status ≠ .ok) (status : StreamStatus) :
    s.setStatus status = s := if_neg h

/-- A reader that takes nothing after a failure, and leaves a rest of what was there. -/
structure Reader (read : QDataStream → β × QDataStream) : Prop where
  held : ∀ s, s.status ≠ .ok → (read s).2 = s
  rest : ∀ s, (read s).2.unread <:+ s.unread

/-- The reader takes these bytes and makes this value of them; on a part of them it fails. -/
structure Decodes (read : QDataStream → β × QDataStream) (bytes : List UInt8) (value : β) : Prop where
  whole : ∀ rest, read ⟨bytes ++ rest, .ok⟩ = (value, ⟨rest, .ok⟩)
  part : ∀ p, p <+: bytes → p ≠ bytes → (read ⟨p, .ok⟩).2.status = .readPastEnd

theorem Reader.bind {first : QDataStream → β × QDataStream} {next : β → QDataStream → γ × QDataStream}
    (h : Reader first) (hnext : ∀ b, Reader (next b)) : Reader fun s => next (first s).1 (first s).2 where
  held s hs := by rw [h.held s hs, (hnext _).held s hs]
  rest s := ((hnext _).rest _).trans (h.rest s)

/-- One reading after another. -/
theorem Decodes.bind {first : QDataStream → β × QDataStream} {next : β → QDataStream → γ × QDataStream}
    {x y : List UInt8} {b : β} {c : γ} (h : Decodes first x b) (hnext : Decodes (next b) y c)
    (hreader : ∀ b, Reader (next b)) : Decodes (fun s => next (first s).1 (first s).2) (x ++ y) c where
  whole rest := by rw [List.append_assoc, h.whole, hnext.whole]
  part p hp hne := by
    rcases le_or_gt x.length p.length with hlen | hlen
    · -- the first part is whole
      obtain ⟨q, rfl⟩ := List.prefix_of_prefix_length_le (List.prefix_append _ _) hp hlen
      rw [h.whole]
      exact hnext.part q ((List.prefix_append_right_inj _).mp hp) fun heq => hne (by rw [heq])
    · have hpart := h.part p
        (List.prefix_of_prefix_length_le hp (List.prefix_append _ _) (Nat.le_of_lt hlen))
        fun heq => by rw [heq] at hlen; exact absurd hlen (lt_irrefl _)
      rw [(hreader _).held _ (by rw [hpart]; exact StreamStatus.noConfusion), hpart]

/-- Nothing is read. -/
theorem Decodes.nothing {read : QDataStream → β × QDataStream} {value : β}
    (h : ∀ s : QDataStream, s.status = .ok → read s = (value, s)) : Decodes read [] value where
  whole rest := h _ rfl
  part _ hp hne := absurd (List.prefix_nil.mp hp) hne

theorem readBlock_reader (len : ℕ) : Reader (readBlock len) where
  held s hs := by rw [readBlock, if_pos hs]
  rest s := by
    rw [readBlock]
    split
    · exact List.suffix_refl _
    · split
      · exact List.drop_suffix _ _
      · rw [setStatus]
        split <;> exact List.nil_suffix

theorem readBlock_decodes (bytes : List UInt8) : Decodes (readBlock bytes.length) bytes (some bytes) where
  whole rest := by simp [readBlock]
  part p hp hne := by
    have hlen : p.length < bytes.length :=
      lt_of_le_of_ne hp.length_le fun heq => hne (hp.eq_of_length heq)
    simp [readBlock, setStatus, Nat.not_le.mpr hlen]

theorem readNumber_eq (width : ℕ) (s : QDataStream) : s.readNumber width =
    ((s.readBlock width).1.elim 0 ofBytes, (s.readBlock width).2) := by
  rw [readNumber]
  rcases s.readBlock width with ⟨_ | bytes, s'⟩ <;> rfl

theorem readNumber_reader (width : ℕ) : Reader (readNumber width) where
  held s hs := by rw [readNumber_eq, (readBlock_reader width).held s hs]
  rest s := by
    rw [readNumber_eq]
    exact (readBlock_reader width).rest s

theorem readNumber_decodes (width : ℕ) {n : ℕ} (h : n < 256 ^ width) :
    Decodes (readNumber width) (toBytes width n) n := by
  have hblock := readBlock_decodes (toBytes width n)
  rw [BigEndian.length_toBytes] at hblock
  constructor
  · intro rest
    rw [readNumber_eq, hblock.whole, Option.elim, BigEndian.ofBytes_toBytes width h]
  · intro p hp hne
    rw [readNumber_eq]
    exact hblock.part p hp hne

theorem readQint64_reader : Reader readQint64 where
  held s hs := (readNumber_reader 8).held s hs
  rest s := (readNumber_reader 8).rest s

theorem readQint64_decodes {n : ℕ} (h : n < 2 ^ 63) : Decodes readQint64 (toBytes 8 n) (n : ℤ) where
  whole rest := by
    rw [readQint64, (readNumber_decodes 8 (by omega)).whole]
    simp only [if_pos h]
  part p hp hne := (readNumber_decodes 8 (by omega)).part p hp hne

/-- What `readQSizeType` does with the first number. -/
def readSizeRest (first : ℕ) (s : QDataStream) : ℤ × QDataStream :=
  if first = nullCode then (-1, s)
  else if first < extendedSize then (first, s)
  else s.readQint64

theorem readSizeRest_reader (first : ℕ) : Reader (readSizeRest first) where
  held s hs := by
    rw [readSizeRest]
    split
    · rfl
    · split
      · rfl
      · exact readQint64_reader.held s hs
  rest s := by
    rw [readSizeRest]
    split
    · exact List.suffix_refl _
    · split
      · exact List.suffix_refl _
      · exact readQint64_reader.rest s

theorem readQSizeType_reader : Reader readQSizeType :=
  (readNumber_reader 4).bind readSizeRest_reader

theorem readQSizeType_decodes {n : ℕ} (h : n < 2 ^ 63) : Decodes readQSizeType (writeQSizeType n) (n : ℤ) := by
  rw [writeQSizeType]
  split
  · next hsmall =>
    have hnot : n ≠ nullCode := fun heq => absurd (heq ▸ hsmall) (by decide)
    have hnext : Decodes (readSizeRest n) [] (n : ℤ) :=
      Decodes.nothing fun s _ => by rw [readSizeRest, if_neg hnot, if_pos hsmall]
    have hdone := (readNumber_decodes 4 (hsmall.trans (by decide))).bind hnext readSizeRest_reader
    rw [List.append_nil] at hdone
    exact hdone
  · have hnext : Decodes (readSizeRest extendedSize) (toBytes 8 n) (n : ℤ) := readQint64_decodes h
    exact (readNumber_decodes 4 (by decide)).bind hnext readSizeRest_reader

theorem readQSizeType_null : Decodes readQSizeType (toBytes 4 nullCode) (-1) := by
  have hnext : Decodes (readSizeRest nullCode) [] (-1) := Decodes.nothing fun s _ => rfl
  have hdone := (readNumber_decodes 4 (by decide)).bind hnext readSizeRest_reader
  rw [List.append_nil] at hdone
  exact hdone

/-- What `operator>>` of a string does with the size. -/
def readStringRest (bytes : ℤ) (s : QDataStream) : QString × QDataStream :=
  if bytes < -1 then (none, s.setStatus .sizeLimitExceeded)
  else if bytes = -1 then (none, s)
  else if 0 < bytes then
    if bytes % 2 = 1 then (none, s.setStatus .readCorruptData)
    else match s.readBlock bytes.toNat with
      | (some block, s) => (some (charsOfBytes block), s)
      | (none, s) => (none, s.setStatus .readPastEnd)
  else (some [], s)

theorem setStatus_rest (s : QDataStream) (status : StreamStatus) :
    (s.setStatus status).unread <:+ s.unread := by
  rw [setStatus]
  split <;> exact List.suffix_refl _

theorem readStringRest_reader (bytes : ℤ) : Reader (readStringRest bytes) where
  held s hs := by
    have hblock : s.readBlock bytes.toNat = (none, s) := by rw [readBlock, if_pos hs]
    simp only [readStringRest, hblock, setStatus_of_ne hs]
    split_ifs <;> rfl
  rest s := by
    have hblock := (readBlock_reader bytes.toNat).rest s
    rw [readStringRest]
    split_ifs
    · exact setStatus_rest s _
    · exact List.suffix_refl _
    · exact setStatus_rest s _
    · split
      · next heq => rwa [heq] at hblock
      · next s' heq =>
        rw [heq] at hblock
        exact (setStatus_rest s' _).trans hblock
    · exact List.suffix_refl _

theorem readString_reader : Reader readString := readQSizeType_reader.bind readStringRest_reader

theorem length_bytesOfChars (chars : List QChar) : (bytesOfChars chars).length = 2 * chars.length := by
  induction chars with
  | nil => rfl
  | cons c chars ih =>
    rw [bytesOfChars, List.flatMap_cons, List.length_append, BigEndian.length_toBytes, ← bytesOfChars, ih,
      List.length_cons]
    omega

theorem charsOfBytes_bytesOfChars (chars : List QChar) : charsOfBytes (bytesOfChars chars) = chars := by
  induction chars with
  | nil => rfl
  | cons c chars ih =>
    have hc : ofBytes (toBytes 2 c.toNat) = c.toNat := BigEndian.ofBytes_toBytes 2 c.toNat_lt
    have hstep : charsOfBytes (toBytes 2 c.toNat ++ bytesOfChars chars) =
        UInt16.ofNat (ofBytes (toBytes 2 c.toNat)) :: charsOfBytes (bytesOfChars chars) := rfl
    rw [bytesOfChars, List.flatMap_cons, ← bytesOfChars, hstep, ih, hc, UInt16.ofNat_toNat]

/-- A string is read back, the null string as the null string. -/
theorem readString_decodes (url : QString) (h : 2 * url.chars.length < 2 ^ 63) :
    Decodes readString (writeString url) url := by
  rcases url with _ | chars
  · have hnext : Decodes (readStringRest (-1)) [] none := Decodes.nothing fun s _ => rfl
    have hdone := readQSizeType_null.bind hnext readStringRest_reader
    rw [List.append_nil] at hdone
    exact hdone
  · have hnext : Decodes (readStringRest ((2 * chars.length : ℕ) : ℤ)) (bytesOfChars chars) (some chars) := by
      have hblock := readBlock_decodes (bytesOfChars chars)
      rw [length_bytesOfChars] at hblock
      rcases chars with _ | ⟨c, chars⟩
      · exact Decodes.nothing fun s _ => rfl
      · have hread : ∀ s, readStringRest ((2 * (c :: chars).length : ℕ) : ℤ) s =
            match s.readBlock (2 * (c :: chars).length) with
            | (some block, s) => (some (charsOfBytes block), s)
            | (none, s) => (none, s.setStatus .readPastEnd) := by
          intro s
          have hpos : 0 < (c :: chars).length := List.length_pos_of_ne_nil (List.cons_ne_nil c chars)
          rw [readStringRest, if_neg (by omega), if_neg (by omega), if_pos (by omega), if_neg (by omega),
            Int.toNat_natCast]
        constructor
        · intro rest
          rw [hread, hblock.whole]
          simp only [charsOfBytes_bytesOfChars]
        · intro p hp hne
          have hpart := hblock.part p hp hne
          rw [hread]
          split
          · next heq => rwa [heq] at hpart
          · next heq =>
            rw [heq] at hpart
            rw [setStatus_of_ne (by rw [hpart]; exact StreamStatus.noConfusion)]
            exact hpart
    exact (readQSizeType_decodes h).bind hnext readStringRest_reader

/-- What `readElements` does with an element. -/
def readElementsRest (n : ℕ) (ids : List UInt64) (id : ℕ) (s : QDataStream) : List UInt64 × QDataStream :=
  if s.status ≠ .ok then ([], s) else readElements n (ids ++ [UInt64.ofNat id]) s

theorem readElementsRest_reader {n : ℕ} {ids : List UInt64}
    (h : ∀ ids, Reader (readElements n ids)) (id : ℕ) : Reader (readElementsRest n ids id) where
  held s hs := by rw [readElementsRest, if_pos hs]
  rest s := by
    rw [readElementsRest]
    split
    · exact List.suffix_refl _
    · exact (h _).rest s

theorem readElements_reader (n : ℕ) (ids : List UInt64) : Reader (readElements n ids) := by
  induction n generalizing ids with
  | zero => exact ⟨fun _ _ => rfl, fun s => List.suffix_refl _⟩
  | succ n ih =>
    have hnext : ∀ id, Reader (readElementsRest n ids id) := readElementsRest_reader ih
    exact (readNumber_reader 8).bind hnext

theorem readElements_decodes (ids before : List UInt64) :
    Decodes (readElements ids.length before) (ids.flatMap fun id => toBytes 8 id.toNat) (before ++ ids) := by
  induction ids generalizing before with
  | nil =>
    rw [List.append_nil]
    exact Decodes.nothing fun s _ => rfl
  | cons id ids ih =>
    have hnext : Decodes (readElementsRest ids.length before id.toNat)
        (ids.flatMap fun id => toBytes 8 id.toNat) (before ++ id :: ids) := by
      have hrest := ih (before ++ [id])
      rw [List.append_assoc, List.singleton_append] at hrest
      constructor
      · intro rest
        rw [readElementsRest, if_neg (fun hne => hne rfl), UInt64.ofNat_toNat, hrest.whole]
      · intro p hp hne
        rw [readElementsRest, if_neg (fun hne => hne rfl), UInt64.ofNat_toNat]
        exact hrest.part p hp hne
    rw [List.flatMap_cons]
    exact (readNumber_decodes 8 id.toNat_lt).bind hnext (readElementsRest_reader (readElements_reader _))

/-- What `operator>>` of a vector does with the size. -/
def readVectorRest (size : ℤ) (s : QDataStream) : List UInt64 × QDataStream :=
  if size < 0 then ([], s.setStatus .sizeLimitExceeded) else readElements size.toNat [] s

theorem readVectorRest_reader (size : ℤ) : Reader (readVectorRest size) where
  held s hs := by
    rw [readVectorRest, setStatus_of_ne hs]
    split
    · rfl
    · exact (readElements_reader _ _).held s hs
  rest s := by
    rw [readVectorRest]
    split
    · exact setStatus_rest s _
    · exact (readElements_reader _ _).rest s

theorem readVector_reader : Reader readVector := readQSizeType_reader.bind readVectorRest_reader

/-- A vector is read back. -/
theorem readVector_decodes (ids : List UInt64) (h : ids.length < 2 ^ 63) :
    Decodes readVector (writeVector ids) ids :=
  (readQSizeType_decodes h).bind (readElements_decodes ids []) readVectorRest_reader

/-! ### Transactions -/

theorem commitTransaction_iff {device device' : List UInt8} {s : QDataStream} :
    s.commitTransaction device = (device', true) ↔ s.status = .ok ∧ s.unread = device' := by
  rw [commitTransaction]
  split
  · next h => simp [h]
  · simp [and_comm]

theorem commitTransaction_ok (device unread : List UInt8) :
    commitTransaction device ⟨unread, .ok⟩ = (unread, true) := rfl

theorem commitTransaction_readPastEnd {device : List UInt8} {s : QDataStream} (h : s.status = .readPastEnd) :
    s.commitTransaction device = (device, false) := if_pos h

/-- The first byte. -/
theorem readTag_cons (b : UInt8) (device : List UInt8) :
    (startTransaction (b :: device)).readNumber 1 = (b.toNat, ⟨device, .ok⟩) := by
  have hlen : 1 ≤ (b :: device).length := by simp
  simp only [readNumber, readBlock, startTransaction, ne_eq, not_true_eq_false, if_false, if_pos hlen,
    List.take_succ_cons, List.take_zero, List.drop_succ_cons, List.drop_zero]
  rw [ofBytes, BigEndian.ofBytesFrom, List.foldl_cons, List.foldl_nil, zero_mul, zero_add]

/-- A tag that has been written. -/
theorem exists_tag {code : ℕ} (h : code < 256 ^ 1) : ∃ b : UInt8, toBytes 1 code = [b] ∧ b.toNat = code := by
  refine ⟨UInt8.ofNat (code / 256 ^ 0), rfl, ?_⟩
  rw [UInt8.toNat_ofNat', pow_zero, Nat.div_one]
  exact Nat.mod_eq_of_lt h

end QDataStream

/-! ## Messages -/

/-- `IndexResult::FileStatus` -/
inductive FileStatus where
  | successful
  | ignoredFilename
  | ignoredMimetype
  | ignoredMimetypeUnsupported
  | ignoredTooLarge
  | errorFileNotFound
  | errorExtractionFailed
  deriving DecidableEq, Repr

/-- `BatchStatus` -/
inductive BatchStatus where
  | invalid
  | urlStarted
  | urlFinished
  | urlUnchanged
  | urlFailed
  | urlIgnored
  | urlInvalid
  | mimetypeIgnored
  | mimetypeUnsupported
  | fileTooLarge
  | batchFinished
  deriving DecidableEq, Repr

namespace BatchStatus

/-- The byte of a status. -/
def code : BatchStatus → ℕ
  | invalid => 'X'.toNat
  | urlStarted => 'S'.toNat
  | urlFinished => 'F'.toNat
  | urlUnchanged => 'U'.toNat
  | urlFailed => 'f'.toNat
  | urlIgnored => 's'.toNat
  | urlInvalid => 'i'.toNat
  | mimetypeIgnored => 'm'.toNat
  | mimetypeUnsupported => 'M'.toNat
  | fileTooLarge => 'l'.toNat
  | batchFinished => 'B'.toNat

/-- The status of a byte, if there is one. -/
def ofCode (event : ℕ) : Option BatchStatus :=
  [invalid, urlStarted, urlFinished, urlUnchanged, urlFailed, urlIgnored, urlInvalid, mimetypeIgnored,
    mimetypeUnsupported, fileTooLarge, batchFinished].find? fun status => status.code = event

@[simp] theorem ofCode_code (status : BatchStatus) : ofCode status.code = some status := by
  cases status <;> rfl

theorem code_injective : Function.Injective code := by
  intro status status' heq
  have hsame := congrArg ofCode heq
  rw [ofCode_code, ofCode_code] at hsame
  exact Option.some.inj hsame

theorem code_lt (status : BatchStatus) : status.code < 256 ^ 1 := by
  cases status <;> decide

end BatchStatus

/-- `ControllerCommand` -/
inductive ControllerCommand where
  | batch
  | indexSlow
  | indexFast
  deriving DecidableEq, Repr

namespace ControllerCommand

/-- The byte of a command. -/
def code : ControllerCommand → ℕ
  | batch => 'B'.toNat
  | indexSlow => 'S'.toNat
  | indexFast => 'F'.toNat

theorem code_lt (command : ControllerCommand) : command.code < 256 ^ 1 := by
  cases command <;> decide

end ControllerCommand

/-- `IndexSpeed` -/
inductive IndexSpeed where
  | slow
  | fast
  deriving DecidableEq, Repr

/-- The strings that fit into memory. -/
abbrev Url : Type := {url : QString // 2 * url.chars.length < 2 ^ 63}

/-- The vectors of ids that fit into memory. -/
abbrev Ids : Type := {ids : List UInt64 // ids.length < 2 ^ 63}

/-! ## The extractor's end -/

namespace WorkerPipe

/-- The calls that write status messages. -/
inductive Call where
  | urlStarted (url : Url)
  | urlProcessed (url : Url) (updated : Bool) (status : FileStatus)
  | batchFinished

/-- The status that `WorkerPipe::urlProcessed` writes. -/
def processedStatus (updated : Bool) : FileStatus → BatchStatus
  | .successful => if updated then .urlFinished else .urlUnchanged
  | .ignoredFilename => .urlIgnored
  | .ignoredMimetype => .mimetypeIgnored
  | .ignoredMimetypeUnsupported => .mimetypeUnsupported
  | .ignoredTooLarge => .fileTooLarge
  | .errorExtractionFailed => .urlFailed
  | .errorFileNotFound => .urlInvalid

/-- `WorkerPipe::urlStarted`, `urlProcessed` and `batchFinished` -/
def write : Call → List UInt8
  | .urlStarted url => toBytes 1 BatchStatus.urlStarted.code ++ QDataStream.writeString url.1
  | .urlProcessed url updated status =>
    toBytes 1 (processedStatus updated status).code ++ QDataStream.writeString url.1
  | .batchFinished => toBytes 1 BatchStatus.batchFinished.code

/-- What the extractor's end signals. -/
inductive Signal where
  | newDocumentIds (ids : List UInt64)
  | inputEnd
  | indexSpeed (speed : IndexSpeed)
  deriving DecidableEq, Repr

/-- The loop of `processIdData`. Each round takes at least one byte, or leaves the loop. -/
def idDataLoop : ℕ → List UInt8 → List Signal × List UInt8
  | 0, device => ([], device)
  | fuel + 1, device =>
    match (QDataStream.startTransaction device).readNumber 1 with
    | (cmd, s) =>
      if s.status ≠ .ok ∧ s.unread = [] then ([.inputEnd], s.rollbackTransaction device)
      else if cmd ≠ ControllerCommand.batch.code then
        match s.commitTransaction device with
        | (device, false) => ([], device)
        | (device, true) =>
          let signals : List Signal :=
            if cmd = ControllerCommand.indexFast.code then [.indexSpeed .fast]
            else if cmd = ControllerCommand.indexSlow.code then [.indexSpeed .slow]
            else []
          if device = [] then (signals, device)
          else (signals ++ (idDataLoop fuel device).1, (idDataLoop fuel device).2)
      else
        match s.readVector with
        | (ids, s) =>
          match s.commitTransaction device with
          | (device, false) => ([], device)
          | (device, true) =>
            if device = [] then ([.newDocumentIds ids], device)
            else (.newDocumentIds ids :: (idDataLoop fuel device).1, (idDataLoop fuel device).2)

/-- `WorkerPipe::processIdData`: what is signalled, and what is left on the device. -/
def processIdData (device : List UInt8) : List Signal × List UInt8 :=
  idDataLoop (device.length + 1) device

end WorkerPipe

/-! ## The controller's end -/

namespace ControllerPipe

/-- The calls that write commands. -/
inductive Call where
  | processIds (ids : Ids)
  | setIndexSpeed (speed : IndexSpeed)

/-- `ControllerPipe::processIds` and `setIndexSpeed` -/
def write : Call → List UInt8
  | .processIds ids => toBytes 1 ControllerCommand.batch.code ++ QDataStream.writeVector ids.1
  | .setIndexSpeed speed =>
    toBytes 1 (if speed = .fast then ControllerCommand.indexFast else .indexSlow).code

/-- What the controller's end signals. -/
inductive Signal where
  | urlStarted (url : QString)
  | urlProcessed (url : QString) (updated : Bool) (status : FileStatus)
  | batchFinished
  deriving DecidableEq, Repr

/-- The signal for a status with a url; for any other byte there is none. -/
def signals (event : ℕ) (url : QString) : List Signal :=
  match BatchStatus.ofCode event with
  | some .urlStarted => [.urlStarted url]
  | some .urlFinished => [.urlProcessed url true .successful]
  | some .urlUnchanged => [.urlProcessed url false .successful]
  | some .urlIgnored => [.urlProcessed url false .ignoredFilename]
  | some .mimetypeIgnored => [.urlProcessed url false .ignoredMimetype]
  | some .mimetypeUnsupported => [.urlProcessed url false .ignoredMimetypeUnsupported]
  | some .fileTooLarge => [.urlProcessed url false .ignoredTooLarge]
  | some .urlFailed => [.urlProcessed url false .errorExtractionFailed]
  | some .urlInvalid => [.urlProcessed url false .errorFileNotFound]
  | _ => []

/-- The loop of `processStatusData`. Each round takes at least one byte, or leaves the loop. -/
def statusDataLoop : ℕ → List UInt8 → List Signal × List UInt8
  | 0, device => ([], device)
  | fuel + 1, device =>
    match (QDataStream.startTransaction device).readNumber 1 with
    | (event, s) =>
      if s.status ≠ .ok ∧ s.unread = [] then ([], s.rollbackTransaction device)
      else if event = BatchStatus.batchFinished.code then
        match s.commitTransaction device with
        | (device, true) => (.batchFinished :: (statusDataLoop fuel device).1, (statusDataLoop fuel device).2)
        | (device, false) => ([], device)
      else
        match s.readString with
        | (url, s) =>
          match s.commitTransaction device with
          | (device, false) => ([], device)
          | (device, true) =>
            (signals event url ++ (statusDataLoop fuel device).1, (statusDataLoop fuel device).2)

/-- `ControllerPipe::processStatusData`: what is signalled, and what is left on the device. -/
def processStatusData (device : List UInt8) : List Signal × List UInt8 :=
  statusDataLoop (device.length + 1) device

theorem statusDataLoop_nil (fuel : ℕ) : statusDataLoop fuel [] = ([], []) := by
  cases fuel <;> rfl

theorem statusDataLoop_cons (fuel : ℕ) (b : UInt8) (device : List UInt8) :
    statusDataLoop (fuel + 1) (b :: device) =
      if b.toNat = BatchStatus.batchFinished.code then
        (.batchFinished :: (statusDataLoop fuel device).1, (statusDataLoop fuel device).2)
      else
        match (QDataStream.readString ⟨device, .ok⟩).2.commitTransaction (b :: device) with
        | (device', false) => ([], device')
        | (device', true) =>
          (signals b.toNat (QDataStream.readString ⟨device, .ok⟩).1 ++ (statusDataLoop fuel device').1,
            (statusDataLoop fuel device').2) := by
  rw [statusDataLoop, QDataStream.readTag_cons]
  dsimp only
  rw [if_neg (fun h => h.1 rfl)]
  rfl

/-- More rounds than bytes are not needed. -/
theorem statusDataLoop_fuel {fuel fuel' : ℕ} {device : List UInt8} (h : device.length < fuel)
    (h' : device.length < fuel') : statusDataLoop fuel device = statusDataLoop fuel' device := by
  induction fuel generalizing fuel' device with
  | zero => exact absurd h (Nat.not_lt_zero _)
  | succ fuel ih =>
    obtain ⟨fuel', rfl⟩ : ∃ k, fuel' = k + 1 := ⟨fuel' - 1, by omega⟩
    rcases device with _ | ⟨b, device⟩
    · rw [statusDataLoop_nil, statusDataLoop_nil]
    · rw [List.length_cons] at h h'
      have hfuel : ∀ {device' : List UInt8}, device' <:+ device →
          statusDataLoop fuel device' = statusDataLoop fuel' device' := by
        intro device' hrest
        have hlen := hrest.length_le
        exact ih (by omega) (by omega)
      rw [statusDataLoop_cons, statusDataLoop_cons, hfuel (List.suffix_refl _)]
      split
      · rfl
      · split
        · rfl
        · next device' heq =>
          obtain ⟨-, hunread⟩ := QDataStream.commitTransaction_iff.mp heq
          have hrest := QDataStream.readString_reader.rest ⟨device, .ok⟩
          rw [hunread] at hrest
          rw [hfuel hrest]

theorem processStatusData_cons (b : UInt8) (device : List UInt8) :
    processStatusData (b :: device) =
      if b.toNat = BatchStatus.batchFinished.code then
        (.batchFinished :: (processStatusData device).1, (processStatusData device).2)
      else
        match (QDataStream.readString ⟨device, .ok⟩).2.commitTransaction (b :: device) with
        | (device', false) => ([], device')
        | (device', true) =>
          (signals b.toNat (QDataStream.readString ⟨device, .ok⟩).1 ++ (processStatusData device').1,
            (processStatusData device').2) := by
  rw [processStatusData, List.length_cons, statusDataLoop_cons]
  split
  · rfl
  · split
    · rfl
    · next device' heq =>
      obtain ⟨-, hunread⟩ := QDataStream.commitTransaction_iff.mp heq
      have hlen := (QDataStream.readString_reader.rest ⟨device, .ok⟩).length_le
      rw [hunread] at hlen
      rw [statusDataLoop_fuel (Nat.lt_succ_of_le hlen) (Nat.lt_succ_self _)]
      rfl

/-- A message with a url. -/
theorem processStatusData_url {status : BatchStatus} (hstatus : status ≠ .batchFinished) (url : Url)
    (rest : List UInt8) :
    processStatusData (toBytes 1 status.code ++ QDataStream.writeString url.1 ++ rest) =
      (signals status.code url.1 ++ (processStatusData rest).1, (processStatusData rest).2) := by
  obtain ⟨b, htag, hb⟩ := QDataStream.exists_tag status.code_lt
  rw [htag, List.append_assoc, List.singleton_append, processStatusData_cons, hb,
    if_neg (BatchStatus.code_injective.ne hstatus),
    (QDataStream.readString_decodes url.1 url.2).whole]
  rfl

/-- A part of a message with a url. -/
theorem processStatusData_part {status : BatchStatus} (hstatus : status ≠ .batchFinished) (url : Url)
    {p : List UInt8} (hp : p <+: toBytes 1 status.code ++ QDataStream.writeString url.1) (hne : p ≠ [])
    (hpart : p ≠ toBytes 1 status.code ++ QDataStream.writeString url.1) : processStatusData p = ([], p) := by
  obtain ⟨b, htag, hb⟩ := QDataStream.exists_tag status.code_lt
  rw [htag, List.singleton_append] at hp hpart
  obtain ⟨device, rfl, hdevice⟩ := (List.prefix_cons_iff.mp hp).resolve_left hne
  have hread := (QDataStream.readString_decodes url.1 url.2).part device hdevice
    fun heq => hpart (by rw [heq])
  rw [processStatusData_cons, hb, if_neg (BatchStatus.code_injective.ne hstatus),
    QDataStream.commitTransaction_readPastEnd hread]

theorem processStatusData_batchFinished (rest : List UInt8) :
    processStatusData (toBytes 1 BatchStatus.batchFinished.code ++ rest) =
      (.batchFinished :: (processStatusData rest).1, (processStatusData rest).2) := by
  obtain ⟨b, htag, hb⟩ := QDataStream.exists_tag BatchStatus.batchFinished.code_lt
  rw [htag, List.singleton_append, processStatusData_cons, if_pos hb]

/-- The signal of a call: a url that is not up to date is only reported for a success. -/
def signal : WorkerPipe.Call → Signal
  | .urlStarted url => .urlStarted url.1
  | .urlProcessed url updated status => .urlProcessed url.1 (updated && status = .successful) status
  | .batchFinished => .batchFinished

theorem signals_code (updated : Bool) (status : FileStatus) (url : QString) :
    signals (WorkerPipe.processedStatus updated status).code url =
      [.urlProcessed url (updated && status = .successful) status] := by
  cases status <;> cases updated <;> rfl

theorem processedStatus_ne (updated : Bool) (status : FileStatus) :
    WorkerPipe.processedStatus updated status ≠ .batchFinished := by
  cases status <;> cases updated <;> exact BatchStatus.noConfusion

theorem processStatusData_write (call : WorkerPipe.Call) (rest : List UInt8) :
    processStatusData (WorkerPipe.write call ++ rest) =
      (signal call :: (processStatusData rest).1, (processStatusData rest).2) := by
  cases call with
  | urlStarted url => exact processStatusData_url BatchStatus.noConfusion url rest
  | urlProcessed url updated status =>
    rw [WorkerPipe.write, processStatusData_url (processedStatus_ne updated status), signals_code]
    rfl
  | batchFinished => exact processStatusData_batchFinished rest

/-- The controller's end takes status messages from what arrives. -/
theorem processStatusData_reads : Framing.Reads WorkerPipe.write signal processStatusData where
  ne_nil call heq := by cases call <;> cases heq
  message call rest _ := processStatusData_write call rest
  last call := by
    have hread := processStatusData_write call []
    rwa [List.append_nil] at hread
  part call p hp hne hpart := by
    cases call with
    | urlStarted url => exact processStatusData_part BatchStatus.noConfusion url hp hne hpart
    | urlProcessed url updated status =>
      exact processStatusData_part (processedStatus_ne updated status) url hp hne hpart
    | batchFinished =>
      obtain ⟨b, htag, -⟩ := QDataStream.exists_tag BatchStatus.batchFinished.code_lt
      rw [WorkerPipe.write, htag] at hp hpart
      obtain ⟨device, rfl, hdevice⟩ := (List.prefix_cons_iff.mp hp).resolve_left hne
      exact absurd (by rw [List.prefix_nil.mp hdevice]) hpart

end ControllerPipe

namespace WorkerPipe

theorem idDataLoop_cons (fuel : ℕ) (b : UInt8) (device : List UInt8) :
    idDataLoop (fuel + 1) (b :: device) =
      if b.toNat ≠ ControllerCommand.batch.code then
        let signals : List Signal :=
          if b.toNat = ControllerCommand.indexFast.code then [.indexSpeed .fast]
          else if b.toNat = ControllerCommand.indexSlow.code then [.indexSpeed .slow]
          else []
        if device = [] then (signals, device)
        else (signals ++ (idDataLoop fuel device).1, (idDataLoop fuel device).2)
      else
        match (QDataStream.readVector ⟨device, .ok⟩).2.commitTransaction (b :: device) with
        | (device', false) => ([], device')
        | (device', true) =>
          if device' = [] then ([.newDocumentIds (QDataStream.readVector ⟨device, .ok⟩).1], device')
          else (.newDocumentIds (QDataStream.readVector ⟨device, .ok⟩).1 :: (idDataLoop fuel device').1,
            (idDataLoop fuel device').2) := by
  rw [idDataLoop, QDataStream.readTag_cons]
  dsimp only
  rw [if_neg (fun h => h.1 rfl)]
  rfl

/-- More rounds than bytes are not needed. -/
theorem idDataLoop_fuel {fuel fuel' : ℕ} {device : List UInt8} (h : device.length < fuel)
    (h' : device.length < fuel') : idDataLoop fuel device = idDataLoop fuel' device := by
  induction fuel generalizing fuel' device with
  | zero => exact absurd h (Nat.not_lt_zero _)
  | succ fuel ih =>
    obtain ⟨fuel', rfl⟩ : ∃ k, fuel' = k + 1 := ⟨fuel' - 1, by omega⟩
    rcases device with _ | ⟨b, device⟩
    · rfl
    · rw [List.length_cons] at h h'
      have hfuel : ∀ {device' : List UInt8}, device' <:+ device →
          idDataLoop fuel device' = idDataLoop fuel' device' := by
        intro device' hrest
        have hlen := hrest.length_le
        exact ih (by omega) (by omega)
      rw [idDataLoop_cons, idDataLoop_cons, hfuel (List.suffix_refl _)]
      split
      · rfl
      · split
        · rfl
        · next device' heq =>
          obtain ⟨-, hunread⟩ := QDataStream.commitTransaction_iff.mp heq
          have hrest := QDataStream.readVector_reader.rest ⟨device, .ok⟩
          rw [hunread] at hrest
          rw [hfuel hrest]

theorem processIdData_nil : processIdData [] = ([.inputEnd], []) := rfl

theorem processIdData_cons (b : UInt8) (device : List UInt8) :
    processIdData (b :: device) =
      if b.toNat ≠ ControllerCommand.batch.code then
        let signals : List Signal :=
          if b.toNat = ControllerCommand.indexFast.code then [.indexSpeed .fast]
          else if b.toNat = ControllerCommand.indexSlow.code then [.indexSpeed .slow]
          else []
        if device = [] then (signals, device)
        else (signals ++ (processIdData device).1, (processIdData device).2)
      else
        match (QDataStream.readVector ⟨device, .ok⟩).2.commitTransaction (b :: device) with
        | (device', false) => ([], device')
        | (device', true) =>
          if device' = [] then ([.newDocumentIds (QDataStream.readVector ⟨device, .ok⟩).1], device')
          else (.newDocumentIds (QDataStream.readVector ⟨device, .ok⟩).1 :: (processIdData device').1,
            (processIdData device').2) := by
  rw [processIdData, List.length_cons, idDataLoop_cons]
  split
  · rfl
  · split
    · rfl
    · next device' heq =>
      obtain ⟨-, hunread⟩ := QDataStream.commitTransaction_iff.mp heq
      have hlen := (QDataStream.readVector_reader.rest ⟨device, .ok⟩).length_le
      rw [hunread] at hlen
      rw [idDataLoop_fuel (Nat.lt_succ_of_le hlen) (Nat.lt_succ_self _)]
      rfl

/-- The signal of a call. -/
def signal : ControllerPipe.Call → Signal
  | .processIds ids => .newDocumentIds ids.1
  | .setIndexSpeed speed => .indexSpeed speed

theorem processIdData_ids (ids : Ids) (rest : List UInt8) :
    processIdData (ControllerPipe.write (.processIds ids) ++ rest) =
      if rest = [] then ([.newDocumentIds ids.1], [])
      else (.newDocumentIds ids.1 :: (processIdData rest).1, (processIdData rest).2) := by
  obtain ⟨b, htag, hb⟩ := QDataStream.exists_tag ControllerCommand.batch.code_lt
  rw [ControllerPipe.write, htag, List.append_assoc, List.singleton_append, processIdData_cons, hb,
    if_neg (fun h => h rfl), (QDataStream.readVector_decodes ids.1 ids.2).whole]
  dsimp only
  rw [QDataStream.commitTransaction_ok]
  dsimp only
  split
  · next heq => rw [heq]
  · rfl

theorem processIdData_part (ids : Ids) {p : List UInt8} (hne : p ≠ [])
    (hp : p <+: ControllerPipe.write (.processIds ids)) (hpart : p ≠ ControllerPipe.write (.processIds ids)) :
    processIdData p = ([], p) := by
  obtain ⟨b, htag, hb⟩ := QDataStream.exists_tag ControllerCommand.batch.code_lt
  rw [ControllerPipe.write, htag, List.singleton_append] at hp hpart
  obtain ⟨device, rfl, hdevice⟩ := (List.prefix_cons_iff.mp hp).resolve_left hne
  have hread := (QDataStream.readVector_decodes ids.1 ids.2).part device hdevice
    fun heq => hpart (by rw [heq])
  rw [processIdData_cons, hb, if_neg (fun h => h rfl), QDataStream.commitTransaction_readPastEnd hread]

theorem processIdData_speed (speed : IndexSpeed) (rest : List UInt8) :
    processIdData (ControllerPipe.write (.setIndexSpeed speed) ++ rest) =
      if rest = [] then ([.indexSpeed speed], [])
      else (.indexSpeed speed :: (processIdData rest).1, (processIdData rest).2) := by
  obtain ⟨b, htag, hb⟩ := QDataStream.exists_tag
    (if speed = .fast then ControllerCommand.indexFast else .indexSlow).code_lt
  rw [ControllerPipe.write, htag, List.singleton_append, processIdData_cons, hb]
  have hcommand : (if speed = .fast then ControllerCommand.indexFast else .indexSlow).code ≠
      ControllerCommand.batch.code := by
    cases speed <;> decide
  have hsignal : (if (if speed = .fast then ControllerCommand.indexFast else .indexSlow).code =
        ControllerCommand.indexFast.code then [Signal.indexSpeed .fast]
      else if (if speed = .fast then ControllerCommand.indexFast else .indexSlow).code =
        ControllerCommand.indexSlow.code then [.indexSpeed .slow]
      else []) = [.indexSpeed speed] := by
    cases speed <;> rfl
  rw [if_pos hcommand, hsignal]
  split
  · next heq => rw [heq]
  · rfl

/-- The extractor's end takes commands from what arrives. -/
theorem processIdData_reads : Framing.Reads ControllerPipe.write signal processIdData where
  ne_nil call heq := by cases call <;> cases heq
  message call rest hne := by
    cases call with
    | processIds ids => rw [processIdData_ids, if_neg hne, signal]
    | setIndexSpeed speed => rw [processIdData_speed, if_neg hne, signal]
  last call := by
    cases call with
    | processIds ids => rw [← List.append_nil (ControllerPipe.write _), processIdData_ids, if_pos rfl, signal]
    | setIndexSpeed speed =>
      rw [← List.append_nil (ControllerPipe.write _), processIdData_speed, if_pos rfl, signal]
  part call p hp hne hpart := by
    cases call with
    | processIds ids => exact processIdData_part ids hne hp hpart
    | setIndexSpeed speed =>
      obtain ⟨b, htag, -⟩ := QDataStream.exists_tag
        (if speed = .fast then ControllerCommand.indexFast else .indexSlow).code_lt
      rw [ControllerPipe.write, htag] at hp hpart
      obtain ⟨device, rfl, hdevice⟩ := (List.prefix_cons_iff.mp hp).resolve_left hne
      exact absurd (by rw [List.prefix_nil.mp hdevice]) hpart

end WorkerPipe

/-- What the controller's end has signalled after these arrivals, and what it has kept. -/
def ControllerPipe.receive (arrivals : List (List UInt8)) : List ControllerPipe.Signal × List UInt8 :=
  arrivals.foldl (Framing.arrival ControllerPipe.processStatusData) ([], [])

/-- What the extractor's end has signalled after these arrivals, and what it has kept. -/
def WorkerPipe.receive (arrivals : List (List UInt8)) : List WorkerPipe.Signal × List UInt8 :=
  arrivals.foldl (Framing.arrival WorkerPipe.processIdData) ([], [])

/-- **Whatever the arrivals are, both ends signal exactly the messages that have come completely**, each
once and in order. The extractor's end is told of the end of its input by a call without new bytes, and
signals `inputEnd` then and only then, unless a part of a message is left. -/
theorem command_pipe (statusCalls : List WorkerPipe.Call) (statusArrivals : List (List UInt8))
    (hstatus : statusArrivals.flatten <+: (statusCalls.map WorkerPipe.write).flatten)
    (commandCalls : List ControllerPipe.Call) (commandArrivals : List (List UInt8))
    (hcommand : commandArrivals.flatten <+: (commandCalls.map ControllerPipe.write).flatten)
    (harrival : ∀ arrival ∈ commandArrivals, arrival ≠ []) :
    (ControllerPipe.receive statusArrivals).1 =
        (Framing.complete WorkerPipe.write statusCalls statusArrivals.flatten.length).map
          ControllerPipe.signal ∧
      (statusArrivals.flatten = (statusCalls.map WorkerPipe.write).flatten →
        (ControllerPipe.receive statusArrivals).1 = statusCalls.map ControllerPipe.signal) ∧
      (WorkerPipe.receive commandArrivals).1 =
        (Framing.complete ControllerPipe.write commandCalls commandArrivals.flatten.length).map
          WorkerPipe.signal ∧
      (commandArrivals.flatten = (commandCalls.map ControllerPipe.write).flatten →
        (WorkerPipe.receive commandArrivals).1 = commandCalls.map WorkerPipe.signal ∧
          (WorkerPipe.receive (commandArrivals ++ [[]])).1 =
            commandCalls.map WorkerPipe.signal ++ [.inputEnd]) ∧
      ((WorkerPipe.receive commandArrivals).2 ≠ [] →
        (WorkerPipe.receive (commandArrivals ++ [[]])).1 = (WorkerPipe.receive commandArrivals).1) := by
  have hworker := WorkerPipe.processIdData_reads.arrivals commandCalls commandArrivals hcommand (.inl harrival)
  have hcontroller := ControllerPipe.processStatusData_reads.arrivals statusCalls statusArrivals hstatus
    (.inr (ControllerPipe.statusDataLoop_nil 1))
  rw [← WorkerPipe.receive] at hworker
  rw [← ControllerPipe.receive] at hcontroller
  have hend : (WorkerPipe.receive (commandArrivals ++ [[]])).1 = (WorkerPipe.receive commandArrivals).1 ++
      (WorkerPipe.processIdData (WorkerPipe.receive commandArrivals).2).1 := by
    rw [WorkerPipe.receive, List.foldl_append, ← WorkerPipe.receive, List.foldl_cons, List.foldl_nil,
      Framing.arrival, List.append_nil]
  rw [hend, hworker, hcontroller]
  refine ⟨rfl, fun hall => ?_, rfl, fun hall => ?_, fun hkept => ?_⟩
  · rw [hall, Framing.complete_all]
  · rw [hall, Framing.complete_all, List.drop_length, WorkerPipe.processIdData_nil]
    exact ⟨rfl, rfl⟩
  · rw [WorkerPipe.processIdData_reads.kept commandCalls hcommand hkept, List.append_nil]

/-- A url, a file that has not changed and the end of the batch, cut within the second tag's string; a
batch of one id, cut within the number of ids, and a speed. -/
theorem command_pipe_cut :
    (ControllerPipe.receive [[83, 0, 0, 0, 2, 0, 97, 85, 0, 0], [0, 2, 0], [97, 66]]).1 =
        [.urlStarted (some [97]), .urlProcessed (some [97]) false .successful, .batchFinished] ∧
      (WorkerPipe.receive [[66, 0, 0], [0, 1, 0, 0, 0, 0, 0, 0, 0, 7], [70], []]).1 =
        [.newDocumentIds [7], .indexSpeed .fast, .inputEnd] := by
  have hpipe := command_pipe
    [.urlStarted ⟨some [97], by decide⟩, .urlProcessed ⟨some [97], by decide⟩ false .successful,
      .batchFinished]
    [[83, 0, 0, 0, 2, 0, 97, 85, 0, 0], [0, 2, 0], [97, 66]] (by decide +kernel)
    [.processIds ⟨[7], by decide⟩, .setIndexSpeed .fast]
    [[66, 0, 0], [0, 1, 0, 0, 0, 0, 0, 0, 0, 7], [70]] (by decide +kernel) (by decide +kernel)
  exact ⟨hpipe.2.1 (by decide +kernel), (hpipe.2.2.2.1 (by decide +kernel)).2⟩

end Baloo
