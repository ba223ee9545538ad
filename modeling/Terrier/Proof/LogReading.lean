import Terrier.Log.BufferedLogReader
import Terrier.Proof.RoundTrip

/-!
What recovery gets from a log file. The reader knows that it is at the end after a short refill
only, so for a file that fills its last buffer it asks for one more record. A read past the end
of the file is answered from memory, and no error is reported for it.
-/

namespace Terrier

open List

variable {fuel : Nat}

namespace BufferedLogReader

def remaining (r : BufferedLogReader) : List UInt8 := r.buffer ++ r.file

def Valid (r : BufferedLogReader) : Prop := r.isOpen = false → r.file = []

def exhausted : BufferedLogReader := ⟨false, [], []⟩

/-- Refills of a file of this length took whole buffers so far, or the last one
was short. -/
def Tracks (length : Nat) (r : BufferedLogReader) : Prop :=
  if r.isOpen then r.file.length % logBufferSize = length % logBufferSize
  else r.file = [] ∧ length % logBufferSize ≠ 0

variable {r : BufferedLogReader} {length : Nat}

theorem Tracks.valid (h : r.Tracks length) : r.Valid := by
  intro hclose
  simp only [Tracks, hclose, Bool.false_eq_true, if_false] at h
  exact h.1

theorem Tracks.of_eq {s : BufferedLogReader} (h : r.Tracks length) (hopen : s.isOpen = r.isOpen)
    (hfile : s.file = r.file) : s.Tracks length := by
  simpa only [Tracks, hopen, hfile] using h

@[simp] theorem remaining_refillBuffer (h : r.buffer = []) :
    r.refillBuffer.remaining = r.remaining := by
  simp [remaining, refillBuffer, h]

theorem valid_refillBuffer (r : BufferedLogReader) : r.refillBuffer.Valid := by
  intro hclose
  have hshort : ¬ logBufferSize ≤ r.file.length := by simpa [refillBuffer] using hclose
  simp only [refillBuffer, drop_eq_nil_iff]
  omega

theorem Tracks.refillBuffer (h : r.Tracks length) (hopen : r.isOpen = true) (hfile : r.file ≠ []) :
    r.refillBuffer.Tracks length := by
  have hlen : r.file.length % logBufferSize = length % logBufferSize := by
    simpa only [Tracks, hopen, if_true] using h
  by_cases hfull : logBufferSize ≤ r.file.length
  · simp only [Tracks, BufferedLogReader.refillBuffer, hfull, decide_true, if_true, length_drop]
    rw [← hlen, Nat.mod_eq_sub_mod hfull]
  · have hpositive := length_pos_iff.mpr hfile
    have hdrop : r.file.drop logBufferSize = [] := by
      rw [drop_eq_nil_iff]
      omega
    have hmod : r.file.length % logBufferSize = r.file.length := Nat.mod_eq_of_lt (by omega)
    simp only [Tracks, BufferedLogReader.refillBuffer, hfull, decide_false, hdrop]
    exact ⟨trivial, by omega⟩

def rounds (left : Nat) (r : BufferedLogReader) : Nat :=
  2 * left + if r.buffer = [] ∧ r.isOpen = true then 1 else 0

theorem rounds_refillBuffer (left : Nat) (hbuf : r.buffer = []) (hopen : r.isOpen = true) :
    rounds left r.refillBuffer < rounds left r := by
  have hserve : ¬ (r.refillBuffer.buffer = [] ∧ r.refillBuffer.isOpen = true) := by
    rintro ⟨hempty, hstill⟩
    simp only [BufferedLogReader.refillBuffer, decide_eq_true_eq, take_eq_nil_iff] at hempty hstill
    rcases hempty with hzero | hnil
    · exact absurd hzero (by decide)
    · rw [hnil] at hstill
      exact absurd hstill (by decide)
  simp [rounds, hbuf, hopen, hserve]

variable {left : Nat}

theorem rounds_read {readSize : Nat} (s : BufferedLogReader) (hpositive : 0 < readSize)
    (hle : readSize ≤ left) (hbuf : r.buffer ≠ []) :
    rounds (left - readSize) s < rounds left r := by
  have hr : rounds left r = 2 * left := by simp [rounds, hbuf]
  have hs : rounds (left - readSize) s ≤ 2 * (left - readSize) + 1 := by
    unfold rounds
    split <;> omega
  omega

theorem hasMore_of_remaining (h : r.Valid) (hleft : r.remaining ≠ []) : r.hasMore = true := by
  cases hopen : r.isOpen with
  | true => simp [hasMore, hopen]
  | false =>
    have hbuf : r.buffer ≠ [] := by
      intro hempty
      exact hleft (by simp [remaining, hempty, h hopen])
    simp [hasMore, hbuf]

theorem isOpen_of_hasMore (h : r.hasMore = true) (hbuf : r.buffer = []) : r.isOpen = true := by
  simpa [hasMore, hbuf] using h

theorem readLoop_round {got : List UInt8} (hleft : left ≠ 0) (hmore : r.hasMore = true) :
    readLoop (fuel + 1) left r got = if r.buffer = [] then readLoop fuel left r.refillBuffer got
      else readLoop fuel (left - min left r.buffer.length)
        { r with buffer := r.buffer.drop (min left r.buffer.length) }
        (got ++ r.buffer.take (min left r.buffer.length)) := by
  rw [readLoop, if_neg hleft, if_pos hmore]
  by_cases hbuf : r.buffer = []
  · have hzero : min left r.buffer.length = 0 := by simp [hbuf]
    simp [readFromBuffer, hbuf]
  · have hpositive : min left r.buffer.length ≠ 0 := by
      have := length_pos_iff.mpr hbuf
      omega
    simp only [readFromBuffer, hpositive, if_false, hbuf]

theorem readLoop_of_le (left : Nat) (r : BufferedLogReader) (got : List UInt8) (h : r.Tracks length)
    (hle : left ≤ r.remaining.length) (hfuel : rounds left r < fuel) :
    (readLoop fuel left r got).1 = (got ++ r.remaining.take left, true) ∧
      (readLoop fuel left r got).2.remaining = r.remaining.drop left ∧
      (readLoop fuel left r got).2.Tracks length := by
  induction fuel generalizing left r got with
  | zero => omega
  | succ fuel ih =>
    rcases Nat.eq_zero_or_pos left with rfl | hpos
    · simp [readLoop, h]
    have hleft : left ≠ 0 := by omega
    have hne : r.remaining ≠ [] := by
      intro hempty
      simp [hempty] at hle
      omega
    have hmore := hasMore_of_remaining h.valid hne
    rw [readLoop_round hleft hmore]
    by_cases hbuf : r.buffer = []
    · have hopen := isOpen_of_hasMore hmore hbuf
      have hfile : r.file ≠ [] := by simpa [remaining, hbuf] using hne
      have hless := rounds_refillBuffer left hbuf hopen
      have hrem := remaining_refillBuffer hbuf
      rw [if_pos hbuf, ← hrem]
      exact ih left r.refillBuffer got (h.refillBuffer hopen hfile) (by rw [hrem]; exact hle)
        (by omega)
    · have hpositive := length_pos_iff.mpr hbuf
      rw [if_neg hbuf]
      set k := min left r.buffer.length with hk
      have hless : rounds (left - k) { r with buffer := r.buffer.drop k } < rounds left r :=
        rounds_read _ (by omega) (by omega) hbuf
      have hrem : remaining { r with buffer := r.buffer.drop k } = r.remaining.drop k := by
        simp only [remaining]
        rw [drop_append_of_le_length (by omega)]
      obtain ⟨hans, hdrop, htracks⟩ := ih (left - k) { r with buffer := r.buffer.drop k }
        (got ++ r.buffer.take k) (h.of_eq rfl rfl) (by rw [hrem, length_drop]; omega)
        (by omega)
      have htake : r.buffer.take k = r.remaining.take k := by
        simp only [remaining]
        rw [take_append_of_le_length (by omega)]
      have hsum : k + (left - k) = left := by omega
      refine ⟨?_, ?_, htracks⟩
      · rw [hans, hrem, htake, append_assoc, ← take_add, hsum]
      · rw [hdrop, hrem, drop_drop, hsum]

/-- A read of more than there is takes everything, and the file is closed. -/
theorem readLoop_of_lt (left : Nat) (r : BufferedLogReader) (got : List UInt8) (h : r.Valid)
    (hlt : r.remaining.length < left) (hfuel : rounds left r < fuel) :
    readLoop fuel left r got = ((got ++ r.remaining, false), exhausted) := by
  induction fuel generalizing left r got with
  | zero => omega
  | succ fuel ih =>
    have hleft : left ≠ 0 := by omega
    cases hmore : r.hasMore with
    | false =>
      obtain ⟨hbuf, hclose⟩ : r.buffer = [] ∧ r.isOpen = false := by
        simpa [hasMore] using hmore
      have hr : r = exhausted := by
        obtain ⟨isOpen, buffer, file⟩ := r
        obtain rfl : isOpen = false := hclose
        obtain rfl : buffer = [] := hbuf
        obtain rfl : file = [] := h rfl
        rfl
      rw [readLoop, if_neg hleft, hmore, hr]
      simp [remaining, exhausted]
    | true =>
      rw [readLoop_round hleft hmore]
      by_cases hbuf : r.buffer = []
      · have hless := rounds_refillBuffer left hbuf (isOpen_of_hasMore hmore hbuf)
        have hrem := remaining_refillBuffer hbuf
        rw [if_pos hbuf, ← hrem]
        exact ih left r.refillBuffer got (valid_refillBuffer r) (by rw [hrem]; exact hlt) (by omega)
      · have hpositive := length_pos_iff.mpr hbuf
        have hlen : r.remaining.length = r.buffer.length + r.file.length := by
          simp [remaining]
        rw [if_neg hbuf, Nat.min_eq_right (by omega), drop_length, take_length]
        have hless : rounds (left - r.buffer.length) { r with buffer := [] } < rounds left r :=
          rounds_read _ hpositive (by omega) hbuf
        rw [ih (left - r.buffer.length) { r with buffer := [] } (got ++ r.buffer) h
          (by simp [remaining]; omega) (by omega)]
        simp [remaining]

theorem rounds_lt (size : Nat) (r : BufferedLogReader) : rounds size r < 2 * size + 2 := by
  unfold rounds
  split <;> omega

theorem read_of_le (size : Nat) (h : r.Tracks length) (hle : size ≤ r.remaining.length) :
    (r.read size).1 = (r.remaining.take size, true) ∧
      (r.read size).2.remaining = r.remaining.drop size ∧ (r.read size).2.Tracks length := by
  rw [read]
  split
  case isTrue hbuffered =>
    refine ⟨?_, ?_, h.of_eq rfl rfl⟩
    · simp [readFromBuffer, remaining, take_append_of_le_length hbuffered]
    · simp [readFromBuffer, remaining, drop_append_of_le_length hbuffered]
  case isFalse => simpa using readLoop_of_le size r [] h hle (rounds_lt size r)

theorem read_of_lt {size : Nat} (h : r.Valid) (hlt : r.remaining.length < size) :
    r.read size = ((r.remaining, false), exhausted) := by
  have hbuffered : ¬ size ≤ r.buffer.length := by
    simp only [remaining, length_append] at hlt
    omega
  rw [read, if_neg hbuffered]
  simpa using readLoop_of_lt size r [] h hlt (rounds_lt size r)

theorem Valid.tracks (h : r.Valid) : ∃ length, r.Tracks length := by
  cases hopen : r.isOpen with
  | true => exact ⟨r.file.length, by simp [Tracks, hopen]⟩
  | false => exact ⟨1, by simp [Tracks, hopen, h hopen, logBufferSize]⟩

/-- With nothing left to read, more is expected when the last refill was not
short. -/
theorem Tracks.hasMore_iff (h : r.Tracks length) (hempty : r.remaining = []) :
    r.hasMore = true ↔ length % logBufferSize = 0 := by
  obtain ⟨hbuf, hfile⟩ := append_eq_nil_iff.mp hempty
  cases hopen : r.isOpen with
  | true =>
    have hmod : 0 % logBufferSize = length % logBufferSize := by
      simpa only [Tracks, hopen, hfile, length_nil, if_true] using h
    simp [hasMore, hopen, ← hmod]
  | false =>
    have hmod : length % logBufferSize ≠ 0 := by
      have := h
      simp only [Tracks, hopen, Bool.false_eq_true, if_false] at this
      exact this.2
    simp [hasMore, hopen, hbuf, hmod]

end BufferedLogReader

namespace DiskLogProvider

open BufferedLogReader

structure Served (length : Nat) (memory : Nat → UInt8) (p : DiskLogProvider)
    (left : List UInt8) : Prop where
  remaining_eq : p.reader.remaining = left
  tracks : p.reader.Tracks length
  memory_eq : p.memory = memory

variable {length : Nat} {memory : Nat → UInt8} {p : DiskLogProvider} {bytes left : List UInt8}
  {size : Nat}

theorem source_of_le (h : p.reader.Tracks length) (hle : size ≤ p.reader.remaining.length) :
    (source size p).1 = (p.reader.remaining.take size, true) ∧
      Served length p.memory (source size p).2 (p.reader.remaining.drop size) := by
  obtain ⟨hans, hremaining, htracks⟩ := read_of_le size h hle
  have hmissing : size - (p.reader.remaining.take size).length = 0 := by
    rw [length_take]
    omega
  rcases hread : p.reader.read size with ⟨⟨got, ok⟩, reader⟩
  simp only [hread] at hans hremaining htracks
  cases hans
  simp only [source, hread, hmissing]
  exact ⟨by simp, hremaining, htracks, by simp⟩

theorem source_of_lt (h : p.reader.Valid) (hlt : p.reader.remaining.length < size) : source size p =
      ((p.reader.remaining ++ (List.range (size - p.reader.remaining.length)).map p.memory, false),
        ⟨exhausted, fun i => p.memory (size - p.reader.remaining.length + i)⟩) := by
  simp only [source, read_of_lt h hlt]

theorem served_source (h : Served length memory p (bytes ++ left)) :
    (source bytes.length p).1 = (bytes, true) ∧
      Served length memory (source bytes.length p).2 left := by
  have hle : bytes.length ≤ p.reader.remaining.length := by simp [h.remaining_eq]
  have hsrc := source_of_le h.tracks hle
  simpa [h.remaining_eq, h.memory_eq] using hsrc

theorem serves_served : ByteReader.Serves source (Served length memory) :=
  fun _ _ _ h => ⟨congrArg Prod.fst (served_source h).1, (served_source h).2⟩

structure Torn (p : DiskLogProvider) (left : List UInt8) : Prop where
  valid : p.reader.Valid
  found : ∃ n, left = p.reader.remaining ++ (List.range n).map p.memory ∧
    (0 < n ∨ p.reader = exhausted)

theorem torn_source (h : Torn p (bytes ++ left)) :
    (source bytes.length p).1.1 = bytes ∧ Torn (source bytes.length p).2 left := by
  obtain ⟨n, hall, hshort⟩ := h.found
  obtain ⟨length, htracks⟩ := h.valid.tracks
  have hbytes : bytes = (p.reader.remaining ++ (List.range n).map p.memory).take bytes.length := by
    rw [← hall, take_left]
  have hleft : left = (p.reader.remaining ++ (List.range n).map p.memory).drop bytes.length := by
    rw [← hall, drop_left]
  rcases Nat.lt_or_ge p.reader.remaining.length bytes.length with hlt | hle
  · have hcount : bytes.length - p.reader.remaining.length ≤ n := by
      have := congrArg List.length hall
      simp only [length_append, length_map, length_range] at this
      omega
    rw [source_of_lt h.valid hlt]
    refine ⟨?_, fun _ => rfl, n - (bytes.length - p.reader.remaining.length), ?_, .inr rfl⟩
    · conv_rhs => rw [hbytes, take_append, take_of_length_le hlt.le, ← map_take,
        take_range, Nat.min_eq_left hcount]
    · rw [hleft, drop_append, drop_of_length_le hlt.le]
      refine ext_getElem (by simp [remaining, exhausted]) fun i hi hi' => ?_
      simp [remaining, exhausted]
  · obtain ⟨hans, hserve⟩ := source_of_le htracks hle
    rw [take_append_of_le_length hle] at hbytes
    rw [drop_append_of_le_length hle] at hleft
    refine ⟨by rw [hans]; exact hbytes.symm, hserve.tracks.valid, n, ?_, ?_⟩
    · rw [hserve.remaining_eq, hserve.memory_eq]
      exact hleft
    · refine hshort.imp_right fun hexh => ?_
      have hempty : bytes.length = 0 := by
        have : p.reader.remaining = [] := by rw [hexh]; rfl
        rw [this] at hle
        simpa using hle
      simp only [hempty, source, hexh]
      rfl

theorem serves_torn : ByteReader.Serves source Torn :=
  fun _ _ _ h => torn_source h

theorem torn_nil (h : Torn p []) : p.reader = exhausted := by
  obtain ⟨n, hnil, hpositive | hexh⟩ := h.found
  · have := congrArg List.length hnil
    simp at this
    omega
  · exact hexh

end DiskLogProvider

namespace LogScan

def after (records : List RecordImage) (scan : LogScan) : LogScan :=
  { scan with records := records ++ scan.records }

end LogScan

namespace DiskLogProvider

open BufferedLogReader

variable {layoutOf : UInt64 → BlockLayout} {length : Nat} {memory : Nat → UInt8}
    {p : DiskLogProvider}

theorem scan_succ_of_ok {next : DiskLogProvider} {record : RecordImage} {ok : Bool}
    (hmore : p.reader.hasMore = true)
    (hrun : LogReader.readNextRecord.run source p = (.ok record, next, ok)) :
    p.scan (fuel + 1) =
      { (next.scan fuel).after [record] with readsOk := ok && (next.scan fuel).readsOk } := by
  rw [scan, if_pos hmore, hrun]
  rfl

/-- The scan returns the records at the front of the file. -/
theorem scan_records {records : List (StagedRecord layoutOf)} {left : List UInt8} (fuel : Nat)
    (h : Served length memory p (records.flatMap StagedRecord.bytes ++ left)) :
    ∃ next, Served length memory next left ∧ p.scan (records.length + fuel) =
        (next.scan fuel).after (records.map StagedRecord.image) := by
  induction records generalizing p with
  | nil => exact ⟨p, h, by simp [LogScan.after]⟩
  | cons record records ih =>
    rw [flatMap_cons, append_assoc] at h
    have hreads := LogReader.readNextRecord_reads record
    obtain ⟨hvalue, hserve⟩ := ByteReader.run_of_reads source serves_served hreads h
    have hok := ByteReader.run_ok_of_reads source serves_served
      (fun _ _ _ hs => congrArg Prod.snd (served_source hs).1) hreads h
    have hmore : p.reader.hasMore = true :=
      hasMore_of_remaining h.tracks.valid (by simp [h.remaining_eq, record.bytes_ne_nil])
    rcases hrun : LogReader.readNextRecord.run source p with ⟨value, middle, ok⟩
    simp only [hrun] at hvalue hserve hok
    subst hvalue hok
    obtain ⟨next, hnext, hscan⟩ := ih hserve
    refine ⟨next, hnext, ?_⟩
    rw [length_cons, Nat.add_right_comm, scan_succ_of_ok hmore hrun, hscan]
    simp [LogScan.after]

theorem scan_of_not_hasMore (h : p.reader.hasMore = false) :
    p.scan (fuel + 1) = ⟨[], .nullRecord, true⟩ := by
  rw [scan, h]
  rfl

/-- Past the end of the file a read fails. -/
theorem scan_readsOk_of_end (fuel : Nat) (hvalid : p.reader.Valid)
    (hempty : p.reader.remaining = []) (hmore : p.reader.hasMore = true) :
    (p.scan (fuel + 1)).readsOk = false := by
  have hshort : (source 4 p).1.2 = false := by
    rw [source_of_lt hvalid (by simp [hempty])]
  have hok : (LogReader.readNextRecord.run source p).2.2 = false := by
    obtain ⟨next, hnext⟩ : ∃ next, LogReader.readNextRecord = .read 4 next := ⟨_, rfl⟩
    rw [hnext, ByteReader.run]
    simp [hshort]
  rcases hrun : LogReader.readNextRecord.run source p with ⟨value, next, ok⟩
  obtain rfl : ok = false := by simpa [hrun] using hok
  cases value with
  | error error => rw [scan, if_pos hmore, hrun]
  | ok record => rw [scan_succ_of_ok hmore hrun, Bool.false_and]

/-- A record whose first bytes are the end of the file is completed from
memory, and returned. -/
theorem scan_torn (record : StagedRecord layoutOf) (fuel : Nat) (h : Torn p record.bytes)
    (hmore : p.reader.hasMore = true) :
    (p.scan (fuel + 2)).ending = .nullRecord ∧ (p.scan (fuel + 2)).records = [record.image] := by
  have hreads := LogReader.readNextRecord_reads record
  rw [← append_nil record.bytes] at h
  obtain ⟨hvalue, htorn⟩ := ByteReader.run_of_reads source serves_torn hreads h
  rcases hrun : LogReader.readNextRecord.run source p with ⟨value, next, ok⟩
  simp only [hrun] at hvalue htorn
  subst hvalue
  have hend : next.reader.hasMore = false := by rw [torn_nil htorn]; rfl
  rw [scan_succ_of_ok hmore hrun, scan_of_not_hasMore hend]
  exact ⟨rfl, rfl⟩

end DiskLogProvider

open DiskLogProvider in
theorem scanFile_records {layoutOf : UInt64 → BlockLayout} (records : List (StagedRecord layoutOf))
    (left : List UInt8) (memory : Nat → UInt8) :
    ∃ next fuel, Served (records.flatMap StagedRecord.bytes ++ left).length memory next left ∧
      scanFile (records.flatMap StagedRecord.bytes ++ left) memory =
        (next.scan (fuel + 2)).after (records.map StagedRecord.image) := by
  set file := records.flatMap StagedRecord.bytes ++ left with hfile
  have hserved : Served file.length memory (DiskLogProvider.ofFile file memory)
      (records.flatMap StagedRecord.bytes ++ left) :=
    ⟨rfl, by simp [BufferedLogReader.Tracks, DiskLogProvider.ofFile, BufferedLogReader.ofFile], rfl⟩
  have hle : records.length ≤ file.length := by
    have := length_le_length_flatMap records
    rw [hfile, length_append]
    omega
  obtain ⟨next, hnext, hscan⟩ := scan_records (file.length - records.length + 2) hserved
  have hfuel : records.length + (file.length - records.length + 2) = file.length + 2 := by omega
  rw [hfuel] at hscan
  exact ⟨next, file.length - records.length, hnext, hscan⟩

variable {layoutOf : UInt64 → BlockLayout} {records : List (StagedRecord layoutOf)}

/-- A log that does not fill its last buffer is read to its end. -/
theorem scanFile_of_mod_ne_zero
    (hmod : (records.flatMap StagedRecord.bytes).length % logBufferSize ≠ 0)
    (memory : Nat → UInt8) : scanFile (records.flatMap StagedRecord.bytes) memory =
      ⟨records.map StagedRecord.image, .nullRecord, true⟩ := by
  obtain ⟨next, fuel, hnext, hscan⟩ := scanFile_records records [] memory
  rw [append_nil] at hnext hscan
  have hend : next.reader.hasMore = false := by
    rw [← Bool.not_eq_true, hnext.tracks.hasMore_iff hnext.remaining_eq]
    exact hmod
  rw [hscan, DiskLogProvider.scan_of_not_hasMore hend]
  simp [LogScan.after]

/-- The end of a log is found, and without a failing read, for the logs whose
length is not a multiple of the buffer size. -/
theorem end_of_log_iff (layoutOf : UInt64 → BlockLayout) (records : List (StagedRecord layoutOf))
    (memory : Nat → UInt8) :
    scanFile (records.flatMap StagedRecord.bytes) memory =
        ⟨records.map StagedRecord.image, .nullRecord, true⟩ ↔
      (records.flatMap StagedRecord.bytes).length % logBufferSize ≠ 0 := by
  refine ⟨fun heq hmod => ?_, fun hmod => scanFile_of_mod_ne_zero hmod memory⟩
  obtain ⟨next, fuel, hnext, hscan⟩ := scanFile_records records [] memory
  rw [append_nil] at hnext hscan
  have hmore := (hnext.tracks.hasMore_iff hnext.remaining_eq).mpr hmod
  have hfailed := DiskLogProvider.scan_readsOk_of_end (fuel + 1) hnext.tracks.valid
    hnext.remaining_eq hmore
  have hok : (next.scan (fuel + 2)).readsOk = true :=
    congrArg LogScan.readsOk (hscan.symm.trans heq)
  exact Bool.false_ne_true (hfailed.symm.trans hok)

/-- From an empty log, a record is read. -/
theorem end_of_empty_log_missed :
    scanFile [] (fun _ => 0) = ⟨[], .threw (.unknownRecordType 0), false⟩ := by
  decide

/-- The records that lie wholly within the first bytes of a log. -/
def wholeRecords {layoutOf : UInt64 → BlockLayout} :
    Nat → List (StagedRecord layoutOf) → List (StagedRecord layoutOf)
  | _, [] => []
  | size, record :: records =>
    if record.bytes.length ≤ size then
      record :: wholeRecords (size - record.bytes.length) records
    else []

def EndsWithRecord {layoutOf : UInt64 → BlockLayout} (size : Nat)
    (records : List (StagedRecord layoutOf)) : Prop :=
  ((wholeRecords size records).flatMap StagedRecord.bytes).length = size

/-- A prefix of a log is the records that lie in it, and the first part of the
next one if it is cut there. -/
theorem take_eq_wholeRecords (size : Nat)
    (hsize : size ≤ (records.flatMap StagedRecord.bytes).length) :
    ∃ torn, (records.flatMap StagedRecord.bytes).take size =
        (wholeRecords size records).flatMap StagedRecord.bytes ++ torn ∧
      (torn ≠ [] → ∃ record : StagedRecord layoutOf, ∃ missing,
        record.bytes = torn ++ missing ∧ missing ≠ []) := by
  induction records generalizing size with
  | nil => exact ⟨[], by simp [wholeRecords], fun h => absurd rfl h⟩
  | cons record records ih =>
    rw [flatMap_cons, length_append] at hsize
    by_cases hwhole : record.bytes.length ≤ size
    · obtain ⟨torn, htake, htorn⟩ := ih (size - record.bytes.length) (by omega)
      refine ⟨torn, ?_, htorn⟩
      rw [wholeRecords, if_pos hwhole, flatMap_cons, flatMap_cons, take_append,
        take_of_length_le hwhole, htake, append_assoc]
    · refine ⟨record.bytes.take size, ?_, fun _ => ⟨record, record.bytes.drop size, ?_, ?_⟩⟩
      · rw [wholeRecords, if_neg hwhole, flatMap_cons, take_append_of_le_length (by omega)]
        rfl
      · rw [take_append_drop]
      · rw [Ne, drop_eq_nil_iff]
        exact hwhole

def abortRecord (layoutOf : UInt64 → BlockLayout) : StagedRecord layoutOf :=
  ⟨.initializeRecord 0 .abort, trivial, rfl⟩

def LogScan.ReportsOrReturns (scan : LogScan) (records : List RecordImage) : Prop :=
  (∃ error, scan.ending = .threw error) ∨ (scan.ending = .nullRecord ∧ scan.records = records)

/-- A cut log gives no other records than those that lie in it, whatever is in
memory, exactly when it is cut after a record and not at a multiple of the
buffer size. -/
theorem torn_log_iff (layoutOf : UInt64 → BlockLayout) (records : List (StagedRecord layoutOf))
    (size : Fin ((records.flatMap StagedRecord.bytes).length + 1)) :
    (∀ memory, (scanFile ((records.flatMap StagedRecord.bytes).take size) memory).ReportsOrReturns
        ((wholeRecords size records).map StagedRecord.image)) ↔
      EndsWithRecord size records ∧ size.val % logBufferSize ≠ 0 := by
  obtain ⟨torn, htake, htorn⟩ := take_eq_wholeRecords size (Nat.le_of_lt_succ size.isLt)
  have hlength :
      ((wholeRecords size records).flatMap StagedRecord.bytes ++ torn).length = size := by
    rw [← htake, length_take]
    omega
  have hends : EndsWithRecord size records ↔ torn = [] := by
    rw [EndsWithRecord, ← length_eq_zero_iff]
    rw [length_append] at hlength
    omega
  rw [htake, hends]
  constructor
  · intro h
    -- Otherwise the reader asks for a record that begins with what is left.
    by_contra hcut
    obtain ⟨record, missing, hbytes, hmissing⟩ : ∃ record : StagedRecord layoutOf, ∃ missing,
        record.bytes = torn ++ missing ∧ missing ≠ [] := by
      by_cases hnil : torn = []
      · exact ⟨abortRecord layoutOf, (abortRecord layoutOf).bytes, by simp [hnil],
          (abortRecord layoutOf).bytes_ne_nil⟩
      · exact htorn hnil
    set memory := fun i => missing.getD i 0 with hmemory
    obtain ⟨next, fuel, hnext, hscan⟩ := scanFile_records (wholeRecords size records) torn memory
    have hmore : next.reader.hasMore = true := by
      by_cases hnil : torn = []
      · have hmod : size.val % logBufferSize = 0 := by
          by_contra hmod
          exact hcut ⟨hnil, hmod⟩
        rw [hnext.tracks.hasMore_iff (hnext.remaining_eq.trans hnil), hlength]
        exact hmod
      · exact BufferedLogReader.hasMore_of_remaining hnext.tracks.valid
          (by rw [hnext.remaining_eq]; exact hnil)
    have hfill : (List.range missing.length).map memory = missing := by
      refine ext_getElem (by simp) fun i hi hi' => ?_
      simp [hmemory, getD_eq_getElem?_getD, hi']
    have hfound : DiskLogProvider.Torn next record.bytes :=
      ⟨hnext.tracks.valid, missing.length, by
        rw [hbytes, hnext.remaining_eq, hnext.memory_eq, hfill],
        .inl (length_pos_iff.mpr hmissing)⟩
    obtain ⟨hending, hreturned⟩ := DiskLogProvider.scan_torn record fuel hfound hmore
    rcases h memory with ⟨error, hthrew⟩ | ⟨-, hrecords⟩
    · rw [hscan] at hthrew
      exact ScanEnd.noConfusion (hending.symm.trans hthrew)
    · rw [hscan] at hrecords
      simp [LogScan.after, hreturned] at hrecords
  · rintro ⟨rfl, hmod⟩ memory
    rw [append_nil] at hlength ⊢
    rw [← hlength] at hmod
    rw [scanFile_of_mod_ne_zero hmod]
    exact .inr ⟨rfl, rfl⟩

def deleteAndCommit : List (StagedRecord fun _ => ⟨[], by simp, by simp, by decide⟩) :=
  [⟨.initializeRecord 5 (.delete 1 1001 64), trivial, rfl⟩,
    ⟨.initializeRecord 5 (.commit 8 6), trivial, rfl⟩]

/-- The log of a transaction is cut after the header of its commit record. The
commit record is returned, with timestamps that were never written. -/
theorem torn_commit_completed : let log := deleteAndCommit.flatMap StagedRecord.bytes
    (wholeRecords 42 deleteAndCommit).map StagedRecord.image =
        [.initializeRecord 5 (.delete 1 1001 64)] ∧
      scanFile (log.take 42) (fun _ => 0) =
        ⟨[.initializeRecord 5 (.delete 1 1001 64), .initializeRecord 5 (.commit 0 0)],
          .nullRecord, false⟩ ∧
      .initializeRecord 5 (.commit 0 0) ∉ deleteAndCommit.map StagedRecord.image := by
  decide

end Terrier
