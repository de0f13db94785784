import TinyLsm.RecordFormat
import TinyLsm.Replay
import TinyLsm.Library.Damage

/-!
# Damaged records in tables and logs

Some records of a table or of the log are damaged while no process runs: another checksum stands in the
file, or up to four bytes that stand side by side in the type byte or in the key and the value of a record
have changed.  A lookup in the table answers as before unless its loop comes to a damaged record, and then
throws (`damaged_table_reads`); the log is replayed up to the first damaged record
(`damaged_log_replays`).
-/

namespace TinyLsm

open FileSystem Framing

/-! ### Records -/

/-- What may stand in the place of a record. -/
inductive Record.Damaged (r : Record) : Bytes → Prop where
  | checksum {bytes : Bytes} :
      bytes.length = 4 → bytes ≠ putUint32LE (crc32 (recordBody r.type r.key r.value)) →
      Damaged r (bytes ++ recordBody r.type r.key r.value)
  | body {before w w' after : Bytes} :
      recordBody r.type r.key r.value = before ++ w ++ after → w.length = w'.length →
      w.length ≤ 4 → w ≠ w' → (before = [] ∧ w.length = 1) ∨ headerSize ≤ 4 + before.length →
      Damaged r (putUint32LE (crc32 (recordBody r.type r.key r.value)) ++ (before ++ w' ++ after))

namespace Record

variable {r : Record} {bad : Bytes}

theorem Damaged.length_eq (h : r.Damaged bad) :
  bad.length = r.encode.length
  := by
  cases h with
  | checksum hlen hne =>
      rw [Record.encode, encodeRecord, List.length_append, List.length_append, hlen,
        length_putUint32LE]
  | body hbody hw hwidth hne hfield =>
      rw [Record.encode, encodeRecord, hbody]
      simp only [List.length_append, hw]

/-- A damaged record does not decode, whatever follows it. -/
theorem Damaged.decodeFrame_eq_none (h : r.Damaged bad) (hr : r.InRange) (rest : Bytes) :
  decodeFrame (bad ++ rest) = none
  := by
  have hfits : FitsRecord r.type r.key r.value := ⟨hr.1, fun _ => hr.2⟩
  have hcorrupt : decodeRecord (bad ++ rest) = .error .corrupt := by
    cases h with
    | checksum hlen hne => exact decodeRecord_corrupted_checksum hfits hlen hne rest
    | body hbody hw hwidth hne hfield =>
        exact decodeRecord_corrupted_body hfits hbody hw hwidth hne hfield rest
  rw [decodeFrame, hcorrupt]

end Record

/-! ### Tables -/

/-- A table, some records of which are damaged in its file. -/
structure DamagedTable where
  table : Table
  pieces : List (Piece (Bytes × Entry) UInt8)
  frames : pieces.map Piece.frame = table.entries.entries
  damaged : ∀ p ∈ pieces, ∀ bad ∈ p.damage, (entryRecord p.frame).Damaged bad

namespace DamagedTable

/-- The data section. -/
def data (d : DamagedTable) : Bytes :=
  d.pieces.flatMap (Piece.bytes encodeEntry)

/-- The file of the table, with this data section. -/
def file (d : DamagedTable) : Bytes :=
  d.data ++ d.table.file.drop d.data.length

/-- The reader of the table, on this data section. -/
def reader (d : DamagedTable) (path : ℕ) : SSTableReader :=
  { d.table.reader path with data := d.data, contents := d.file }

variable (d : DamagedTable)

theorem detected {p : Piece (Bytes × Entry) UInt8} (hp : p ∈ d.pieces) :
  p.Detected decodeFrame encodeEntry decodedEntry
  := by
  have hframe : p.frame ∈ d.table.entries.entries := by
    rw [← d.frames]
    exact List.mem_map_of_mem hp
  have hrange := d.table.inRange p.frame hframe
  exact ⟨Record.reads hrange, fun bad hbad => (d.damaged p hp bad hbad).length_eq,
    fun bad hbad rest => (d.damaged p hp bad hbad).decodeFrame_eq_none hrange rest⟩

/-- The records stand where they stood. -/
theorem length_take (k : ℕ) :
  ((d.pieces.take k).flatMap (Piece.bytes encodeEntry)).length
    = (encodeEntries (d.table.entries.entries.take k)).length
  := by
  rw [length_bytes (fun p hp => d.detected (List.mem_of_mem_take hp)), List.map_take, d.frames]
  rfl

theorem length_data :
  d.data.length = (encodeEntries d.table.entries.entries).length
  := by
  rw [data, length_bytes (fun p hp => d.detected hp), d.frames]
  rfl

/-- The constructor reads the index and the footer, and not the records. -/
theorem load_of_data {path : ℕ} {data data' rest : Bytes} {r : SSTableReader}
    (h : SSTableReader.load path (data ++ rest) = .ok r) (hdata : r.data = data)
    (hrest : footerSize ≤ rest.length) (hlen : data'.length = data.length) :
  SSTableReader.load path (data' ++ rest)
    = .ok { r with data := data', contents := data' ++ rest }
  := by
  have hsame : (data' ++ rest).length = (data ++ rest).length := by
    rw [List.length_append, List.length_append, hlen]
  have hdrop : ∀ n, data.length ≤ n → (data' ++ rest).drop n = (data ++ rest).drop n := by
    intro n hn
    rw [List.drop_append, List.drop_append, List.drop_of_length_le (hlen ▸ hn),
      List.drop_of_length_le hn, hlen]
  have hfooter : readFooter (data' ++ rest) = readFooter (data ++ rest) := by
    have hlast : data.length ≤ (data ++ rest).length - footerSize := by
      rw [List.length_append]
      omega
    simp only [readFooter, hsame, hdrop _ hlast]
  simp only [SSTableReader.load, hfooter, bind, Except.bind, hsame] at h ⊢
  cases hread : readFooter (data ++ rest) with
  | error e => simp [hread] at h
  | ok fields =>
      obtain ⟨indexOffset, indexSize⟩ := fields
      simp only [hread] at h ⊢
      split_ifs at h with hinside
      rw [if_neg hinside]
      cases hindex : readIndex
          (((data ++ rest).drop indexOffset.toNat).take indexSize.toNat) with
      | error e => simp [hindex] at h
      | ok index =>
          simp only [hindex, Except.ok.injEq] at h
          subst h
          have hoffset : indexOffset.toNat = data.length := by
            have htaken := congrArg List.length hdata
            rw [List.length_take, List.length_append] at htaken
            rw [footerSize] at hrest
            omega
          rw [hdrop _ hoffset.ge, hindex, hoffset]
          simp only [← hlen, List.take_left]

/-- Opening the file gives the reader. -/
theorem load_file (path : ℕ) :
  SSTableReader.load path d.file = .ok (d.reader path)
  := by
  have hfile : d.table.file = encodeEntries d.table.entries.entries
      ++ d.table.file.drop d.data.length := by
    conv_lhs => rw [← List.take_append_drop d.data.length d.table.file]
    congr 1
    rw [length_data, Table.file, EntryMap.sstableFile_eq, List.append_assoc, List.take_left]
  have hload := d.table.load_file path
  rw [hfile] at hload
  apply load_of_data hload rfl
  · have hlen := d.table.entries.length_sstableFile
    rw [List.length_drop, length_data, Table.file]
    omega
  · exact d.length_data

/-! ### Lookups -/

theorem index_reader (path : ℕ) :
  (d.reader path).index = (d.table.reader path).index
  := rfl

theorem data_reader (path : ℕ) :
  (d.reader path).data = d.data
  := rfl

theorem upperBound_reader (path : ℕ) (key : Bytes) :
  (d.reader path).upperBound key = (d.table.reader path).upperBound key
  := rfl

theorem offsetAt_reader (path i : ℕ) :
  (d.reader path).offsetAt i = (d.table.reader path).offsetAt i
  := by
  have hindex : (d.reader path).index = (d.table.reader path).index := rfl
  have hdata : (d.reader path).data.length = (d.table.reader path).data.length := d.length_data
  rw [SSTableReader.offsetAt, SSTableReader.offsetAt, hindex, hdata]

/-- A block of the damaged data section. -/
theorem blockOf_data {a b : ℕ} (hab : a ≤ b) :
  blockOf d.data (encodeEntries (d.table.entries.entries.take a)).length
      (encodeEntries (d.table.entries.entries.take b)).length
    = .ok (((d.pieces.take b).drop a).flatMap (Piece.bytes encodeEntry))
  := by
  have hb : d.data = (d.pieces.take b).flatMap (Piece.bytes encodeEntry)
      ++ (d.pieces.drop b).flatMap (Piece.bytes encodeEntry) := by
    rw [← List.flatMap_append, List.take_append_drop, data]
  have ha : (d.pieces.take b).flatMap (Piece.bytes encodeEntry)
      = (d.pieces.take a).flatMap (Piece.bytes encodeEntry)
        ++ ((d.pieces.take b).drop a).flatMap (Piece.bytes encodeEntry) := by
    conv_lhs => rw [← List.take_append_drop a (d.pieces.take b), List.flatMap_append,
      List.take_take, Nat.min_eq_left hab]
  rw [← length_take, ← length_take, blockOf, if_pos]
  · rw [hb, ha, List.append_assoc, List.drop_left]
    congr 1
    rw [List.length_append, Nat.add_sub_cancel_left, List.take_left]
  · constructor
    · rw [ha, List.length_append]
      omega
    · rw [hb, List.length_append]
      omega

/-- A loop over some of the records ends as over the undamaged ones, unless it comes to a damaged one. -/
theorem forRecords_pieces {ρ : Type} {body : ρ → DecodedRecord → ForInStep ρ}
    (goesOn : Bytes × Entry → Bool)
    (hyield : ∀ acc e, goesOn e = true → ∃ r, body acc (decodedEntry e) = .yield r)
    (hdone : ∀ acc e, goesOn e = false → ∃ r, body acc (decodedEntry e) = .done r)
    {ps : List (Piece (Bytes × Entry) UInt8)} (hps : ∀ p ∈ ps, p ∈ d.pieces) (acc : ρ) :
  forRecords body acc (ps.flatMap (Piece.bytes encodeEntry))
    = if meets goesOn ps then .error .corruptBlock
      else forRecords body acc (encodeEntries (ps.map Piece.frame))
  := by
  have hrange : ∀ e ∈ ps.map Piece.frame, (entryRecord e).InRange := by
    intro e he
    obtain ⟨p, hp, rfl⟩ := List.mem_map.mp he
    apply d.table.inRange
    rw [← d.frames]
    exact List.mem_map_of_mem (hps p hp)
  rw [forRecords_encoded body acc hrange]
  exact forFrames_pieces (fun p hp => d.detected (hps p hp)) _ hyield hdone (le_refl _) acc

/-- The records `Find` may come to: those between two samples. -/
def findPieces (path : ℕ) (key : Bytes) : List (Piece (Bytes × Entry) UInt8) :=
  (d.pieces.take (sparseIndexInterval * (d.table.reader path).upperBound key)).drop
    (sparseIndexInterval * ((d.table.reader path).upperBound key - 1))

/-- The records `ScanRaw` may come to: those from a sample on. -/
def scanPieces (path : ℕ) (start : Bytes) : List (Piece (Bytes × Entry) UInt8) :=
  d.pieces.drop (sparseIndexInterval * ((d.table.reader path).upperBound start - 1))

theorem pieces_eq_nil {path : ℕ} (h : (d.table.reader path).index = []) :
  d.pieces = []
  := by
  have hframes := d.frames
  rwa [(d.table.index_eq_nil path).mp h, List.map_eq_nil_iff] at hframes

theorem find_reader (path : ℕ) (key : Bytes) :
  (d.reader path).find key
    = if meets (fun e => e.1 < key) (d.findPieces path key) then .error .corruptBlock
      else (d.table.reader path).find key
  := by
  rw [SSTableReader.find, SSTableReader.find, upperBound_reader, index_reader]
  by_cases hindex : (d.table.reader path).index = []
  · rw [findPieces, d.pieces_eq_nil hindex, if_pos hindex, if_pos hindex]
    simp [meets]
  · rw [if_neg hindex, if_neg hindex]
    by_cases hzero : (d.table.reader path).upperBound key = 0
    · rw [findPieces, hzero, if_pos rfl, if_pos rfl]
      simp [meets]
    · rw [if_neg hzero, if_neg hzero, offsetAt_reader, offsetAt_reader, Table.offsetAt_reader,
        Table.offsetAt_reader]
      have hle : sparseIndexInterval * ((d.table.reader path).upperBound key - 1)
          ≤ sparseIndexInterval * (d.table.reader path).upperBound key :=
        Nat.mul_le_mul_left _ (Nat.sub_le _ _)
      rw [data_reader, d.blockOf_data hle,
        show (d.table.reader path).data = encodeEntries d.table.entries.entries from rfl,
        blockOf_encodeEntries _ hle]
      simp only [bind, Except.bind]
      rw [d.forRecords_pieces (fun e => e.1 < key), List.map_drop, List.map_take, d.frames,
        findPieces]
      · intro acc e he
        have hlt := of_decide_eq_true he
        refine ⟨none, ?_⟩
        rw [SSTableReader.findStep, decodedEntry_key, if_neg (ne_of_lt hlt),
          if_neg (not_lt_of_gt hlt)]
      · intro acc e he
        have hle := not_lt.mp (of_decide_eq_false he)
        rw [SSTableReader.findStep, decodedEntry_key]
        split_ifs with heq hlt
        · exact ⟨_, rfl⟩
        · exact ⟨_, rfl⟩
        · exact absurd (lt_of_le_of_ne hle (Ne.symm heq)) hlt
      · exact fun p hp => List.mem_of_mem_take (List.mem_of_mem_drop hp)

theorem scanRaw_reader (path : ℕ) (start stop : Bytes) :
  (d.reader path).scanRaw start stop
    = if meets (fun e => e.1 < stop) (d.scanPieces path start) then .error .corruptBlock
      else (d.table.reader path).scanRaw start stop
  := by
  rw [SSTableReader.scanRaw, SSTableReader.scanRaw, upperBound_reader, index_reader]
  by_cases hindex : (d.table.reader path).index = []
  · rw [scanPieces, d.pieces_eq_nil hindex, if_pos hindex, if_pos hindex]
    simp [meets]
  · rw [if_neg hindex, if_neg hindex]
    generalize hfirst : sparseIndexInterval * ((d.table.reader path).upperBound start - 1) = first
    have hoffset : (if (d.table.reader path).upperBound start = 0 then 0
        else (d.table.reader path).offsetAt ((d.table.reader path).upperBound start - 1))
        = (encodeEntries (d.table.entries.entries.take first)).length := by
      split_ifs with hzero
      · rw [← hfirst, hzero]
        rfl
      · rw [Table.offsetAt_reader, hfirst]
    have hle : first ≤ max d.table.entries.entries.length first := le_max_right _ _
    have hblock := d.blockOf_data hle
    have hblock' := blockOf_encodeEntries d.table.entries.entries hle
    have hlen := congrArg List.length d.frames
    rw [List.length_map] at hlen
    rw [List.take_of_length_le (le_max_left _ _)] at hblock hblock'
    rw [List.take_of_length_le (hlen.le.trans (le_max_left _ _)), ← d.length_data] at hblock
    simp only [offsetAt_reader, hoffset, data_reader]
    rw [hblock, show (d.table.reader path).data = encodeEntries d.table.entries.entries from rfl,
      hblock']
    simp only [bind, Except.bind]
    rw [d.forRecords_pieces (fun e => e.1 < stop), List.map_drop, d.frames, scanPieces, hfirst]
    · intro acc e he
      have hlt := of_decide_eq_true he
      rw [SSTableReader.scanStep, decodedEntry_key, if_neg (not_le_of_gt hlt)]
      split_ifs
      · exact ⟨_, rfl⟩
      · exact ⟨_, rfl⟩
    · intro acc e he
      rw [SSTableReader.scanStep, decodedEntry_key, if_pos (not_lt.mp (of_decide_eq_false he))]
      exact ⟨_, rfl⟩
    · exact fun p hp => List.mem_of_mem_drop hp

theorem allRaw_reader (path : ℕ) :
  (d.reader path).allRaw
    = if d.pieces.all Piece.isIntact then (d.table.reader path).allRaw else .error .corruptBlock
  := by
  have hmeets : meets (fun _ => true) d.pieces = !d.pieces.all Piece.isIntact := by
    generalize d.pieces = ps
    induction ps with
    | nil => rfl
    | cons p ps ih =>
        rw [meets, ih, List.all_cons, Piece.isIntact]
        cases p.damage with
        | none => rfl
        | some bad => rfl
  rw [SSTableReader.allRaw, SSTableReader.allRaw, data_reader, data,
    d.forRecords_pieces (fun _ => true), hmeets, d.frames]
  · cases d.pieces.all Piece.isIntact with
    | true => rfl
    | false => rfl
  · exact fun acc e _ => ⟨_, rfl⟩
  · simp
  · exact fun p hp => hp

end DamagedTable

/-- The reads of a table some records of which are damaged: it is opened as before, a lookup answers as
before unless its loop comes to a damaged record, and a compaction throws if there is one. -/
theorem damaged_table_reads (d : DamagedTable) (path : ℕ) :
  ∃ r, SSTableReader.load path d.file = .ok r
    ∧ (∀ key, r.find key = if meets (fun e => e.1 < key) (d.findPieces path key) then
        .error .corruptBlock else (d.table.reader path).find key)
    ∧ (∀ start stop, r.scanRaw start stop
        = if meets (fun e => e.1 < stop) (d.scanPieces path start) then .error .corruptBlock
          else (d.table.reader path).scanRaw start stop)
    ∧ r.allRaw = if d.pieces.all Piece.isIntact then (d.table.reader path).allRaw
        else .error .corruptBlock
  := ⟨d.reader path, d.load_file path, d.find_reader path, d.scanRaw_reader path,
    d.allRaw_reader path⟩

/-! ### Logs -/

/-- The records of operations, some of which are damaged in the log. -/
structure DamagedLog where
  pieces : List (Piece Op UInt8)
  inRange : ∀ p ∈ pieces, p.frame.InRange
  damaged : ∀ p ∈ pieces, ∀ bad ∈ p.damage, p.frame.record.Damaged bad

namespace DamagedLog

variable (log : DamagedLog)

def bytes : Bytes :=
  log.pieces.flatMap (Piece.bytes Op.encode)

/-- The operations before the first damaged record. -/
def kept : List Op :=
  (log.pieces.takeWhile Piece.isIntact).map Piece.frame

theorem inRange_kept :
  ∀ op ∈ log.kept, op.InRange
  := by
  intro op hop
  obtain ⟨p, hp, rfl⟩ := List.mem_map.mp hop
  exact log.inRange p (List.takeWhile_subset _ hp)

/-- After the records that are kept, the log does not decode. -/
theorem exists_rest {tail : Bytes} (htail : decodeFrame tail = none) :
  ∃ rest, log.bytes ++ tail = encodeOps log.kept ++ rest ∧ decodeFrame rest = none
  := by
  have hdetected : ∀ p ∈ log.pieces,
      p.Detected decodeFrame Op.encode (fun op => op.record.decoded) := by
    intro p hp
    have hrange := log.inRange p hp
    exact ⟨Record.reads hrange, fun bad hbad => (log.damaged p hp bad hbad).length_eq,
      fun bad hbad rest => (log.damaged p hp bad hbad).decodeFrame_eq_none hrange rest⟩
  exact Framing.exists_rest hdetected htail

end DamagedLog

/-- The constructor leaves the tables. -/
theorem find?_sst_of_construct {thr : UInt64} {trig : ℕ} {disk disk' : DbDisk} {db : Database}
    (h : Database.construct thr trig disk = .ok (db, disk')) (n : ℕ) :
  disk'.find? (.sst n) = disk.find? (.sst n)
  := by
  rw [Database.construct] at h
  rw [← find?_cleaned (tmpNumbers disk) disk (by simp)]
  generalize (tmpNumbers disk).foldl
    (fun disk n => (Syscall.unlink (.tmp n)).exec disk) disk = cleaned at h ⊢
  have hcreate : ((Syscall.create .walLog).exec cleaned).find? (.sst n) = cleaned.find? (.sst n) :=
    Syscall.find?_exec_of_notMem (by simp [Syscall.files])
  cases hdiscover : Database.discover thr trig cleaned with
  | error e => simp [hdiscover, bind, Except.bind] at h
  | ok db₀ =>
      simp only [hdiscover, bind, Except.bind, Except.ok.injEq, Prod.mk.injEq] at h
      obtain ⟨-, rfl⟩ := h
      split_ifs
      · rw [Syscall.find?_exec_of_notMem (by simp [Syscall.files]), hcreate]
      · exact hcreate

/-- A directory whose log is damaged opens with the operations before the first damaged record, and with
no others; the log is cut off there, and opens in the same way ever after. -/
theorem damaged_log_replays {disk disk' : DbDisk} {readers : List SSTableReader} {log : DamagedLog}
    (h : Recoverable disk readers (log.pieces.map Piece.frame))
    (hsst : ∀ n, disk'.find? (.sst n) = disk.find? (.sst n)) {tail : Bytes}
    (htail : decodeFrame tail = none) (hlog : disk'.find? .walLog = some (log.bytes ++ tail))
    (thr : UInt64) (trig : ℕ) :
  ∃ db disk'', Database.construct thr trig disk' = .ok (db, disk'')
    ∧ db.view = recoveredView readers log.kept
    ∧ disk''.find? .walLog = some (encodeOps log.kept)
    ∧ Recoverable disk'' readers log.kept
  := by
  obtain ⟨rest, hsplit, hrest⟩ := log.exists_rest htail
  have hrec : Recoverable disk' readers log.kept := by
    constructor
    · rw [openTables_congr hsst]
      exact h.opened
    · exact h.valid
    · exact log.inRange_kept
    · exact ⟨rest, by rw [hlog, Option.getD_some, hsplit], hrest⟩
  obtain ⟨db, disk'', hconstruct, -, hview⟩ := construct_recoverable hrec thr trig
  have hcut : disk''.find? .walLog = some (encodeOps log.kept) := by
    rw [(replay_of_construct hconstruct).2, hlog, Option.getD_some, hsplit, replay_eq,
      replayLog_encodeOps log.inRange_kept hrest, List.take_left]
  refine ⟨db, disk'', hconstruct, hview, hcut, ?_⟩
  have hsst' : ∀ n, disk''.find? (.sst n) = disk.find? (.sst n) := by
    intro n
    rw [find?_sst_of_construct hconstruct, hsst]
  constructor
  · rw [openTables_congr hsst']
    exact h.opened
  · exact h.valid
  · exact log.inRange_kept
  · exact ⟨[], by rw [hcut, Option.getD_some, List.append_nil], rfl⟩

/-- A log of three records, of which the second has another value. -/
def changedValue : DamagedLog where
  pieces :=
    [⟨.put [97] [1], none⟩,
      ⟨.put [98] [2], some (putUint32LE (crc32 (recordBody .put [98] [2]))
        ++ ((recordBody .put [98] [2]).take 10 ++ [7] ++ []))⟩,
      ⟨.put [99] [3], none⟩]
  inRange := by
    simp only [List.forall_mem_cons, Op.InRange]
    exact ⟨by decide, by decide, by decide, by simp⟩
  damaged := by
    simp only [List.forall_mem_cons]
    refine ⟨by simp, ?_, by simp, by simp⟩
    intro bad hbad
    obtain rfl := Option.some.inj hbad
    exact .body (w := [2]) (by decide) rfl (by decide) (by decide) (Or.inr (by decide))

theorem damaged_log_replays_changed :
  ∃ db disk', Database.construct 100 2 (OrderedMap.empty.insert .walLog changedValue.bytes)
      = .ok (db, disk')
    ∧ disk'.find? .walLog = some (encodeOps [.put [97] [1]])
  := by
  have hrec : Recoverable (OrderedMap.empty.insert .walLog
      (encodeOps (changedValue.pieces.map Piece.frame))) []
      (changedValue.pieces.map Piece.frame) := by
    refine ⟨by decide +kernel, by simp, ?_, [], by simp, rfl⟩
    intro op hop
    obtain ⟨p, hp, rfl⟩ := List.mem_map.mp hop
    exact changedValue.inRange p hp
  have hlog : (OrderedMap.empty.insert .walLog changedValue.bytes : DbDisk).find? .walLog
      = some (changedValue.bytes ++ []) := by
    simp
  have htail : decodeFrame [] = none := rfl
  obtain ⟨db, disk', hconstruct, -, hcut, -⟩ :=
    damaged_log_replays hrec (by simp) htail hlog 100 2
  exact ⟨db, disk', hconstruct, hcut⟩

end TinyLsm
