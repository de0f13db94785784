import TinyLsm.AppendFailure

/-!
# Replay of an arbitrary log

What `WriteAheadLog::Replay` makes of a file that holds any bytes at all.  It applies the records
of the longest prefix of the file that splits into records, and cuts the file off behind it.  A
log that was replayed is replayed to the same records again, and the records of further appends
follow them (`replay_appended`).
-/

namespace TinyLsm

open FileSystem Framing

/-- `WriteAheadLog::Replay` on a log file: the records it applies, in their order, and what it
leaves in the file. -/
def replay (contents : Bytes) : List DecodedRecord × Bytes :=
  let validEnd := (replayLog contents).2
  ((replayLog contents).1,
    if validEnd < contents.length then contents.take validEnd else contents)

/-- A call of `WriteAheadLog::Append` that returns. -/
def AppendCall.returning (r : Record) : AppendCall where
  record := r
  threw := none

theorem replay_eq (contents : Bytes) :
  replay contents = ((replayLog contents).1, contents.take (replayLog contents).2)
  := by
  rw [replay]
  split_ifs with hend
  · rfl
  · rw [List.take_of_length_le (Nat.not_lt.mp hend)]

/-- The constructor of `Database` leaves in the log what `Replay` leaves there, and in the MemTable
what `Replay` applies. -/
theorem replay_of_construct {thr : UInt64} {trig : ℕ} {disk disk' : DbDisk} {db : Database}
    (h : Database.construct thr trig disk = .ok (db, disk')) :
  db.memtable = (replay ((disk.find? .walLog).getD [])).1.foldl MemTable.replay MemTable.empty
    ∧ disk'.find? .walLog = some (replay ((disk.find? .walLog).getD [])).2
  := by
  use memtable_of_construct h
  rw [Database.construct] at h
  rw [← find?_cleaned (tmpNumbers disk) disk (by simp)]
  generalize (tmpNumbers disk).foldl
    (fun disk n => (Syscall.unlink (.tmp n)).exec disk) disk = cleaned at h ⊢
  cases hdiscover : Database.discover thr trig cleaned with
  | error e => simp [hdiscover, bind, Except.bind] at h
  | ok db₀ =>
      simp only [hdiscover, bind, Except.bind, Except.ok.injEq, Prod.mk.injEq,
        Syscall.find?_create, Option.getD_some] at h
      obtain ⟨-, rfl⟩ := h
      rw [replay]
      split_ifs with hend
      · apply Eq.trans (find?_modify _ _ _ _)
        rw [if_pos rfl, Syscall.find?_create]
        rfl
      · exact Syscall.find?_create cleaned .walLog

/-! ### One replay -/

/-- Of `contents` the records are applied that take up `kept`. -/
structure Replays (contents : Bytes) (records : List DecodedRecord) (kept : Bytes) : Prop where
  isPrefix : kept <+: contents
  splits : Splits decodeFrame kept records
  /-- The kept bytes are those `DecodeRecord` has consumed. -/
  consumed : (records.map DecodedRecord.bytesConsumed).sum = kept.length
  longest : ∀ p records', p <+: contents → Splits decodeFrame p records' → p <+: kept
  /-- The loop has stopped because the rest does not decode. -/
  stopped : ∃ e, decodeRecord (contents.drop kept.length) = .error e

theorem decodeFrame_eq_none {data : Bytes} :
  decodeFrame data = none ↔ ∃ e, decodeRecord data = .error e
  := by
  rw [decodeFrame]
  cases decodeRecord data with
  | error e => simp
  | ok r => simp

theorem replays (contents : Bytes) :
  Replays contents (replay contents).1 (replay contents).2
  := by
  obtain ⟨hsplits, hend, hstop⟩ := splits_prefixFrames exact_decodeFrame contents
  have hlen : (contents.take (replayLog contents).2).length = (replayLog contents).2 := by
    rw [List.length_take]
    apply Nat.min_eq_left hend
  rw [replay_eq]
  constructor
  · apply List.take_prefix
  · exact hsplits
  · rw [hlen]
    apply sum_bytesConsumed
  · intro p records hp hs
    exact hs.isPrefix exact_decodeFrame hp
  · rw [hlen]
    exact decodeFrame_eq_none.mp hstop

/-- A log that splits into records is replayed to them, and left as it is. -/
theorem replay_of_splits {contents : Bytes} {records : List DecodedRecord}
    (h : Splits decodeFrame contents records) :
  replay contents = (records, contents)
  := by
  rw [replay_eq, replayLog, h.prefixFrames_eq exact_decodeFrame, List.take_length]

/-- The loop of `Replay` does not run for more rounds than the log has bytes. -/
theorem replayLog_rounds (contents : Bytes) {fuel : ℕ} (h : contents.length ≤ fuel) :
  prefixFrames decodeFrame fuel contents = replayLog contents
  := prefixFrames_fuel exact_decodeFrame h

/-! ### Appending to a replayed log -/

theorem splits_appended {log : Bytes} {records : List DecodedRecord}
    (h : Splits decodeFrame log records) {appends : List Record}
    (hrange : ∀ r ∈ appends, r.InRange) :
  Splits decodeFrame (appended log (appends.map .returning))
    (records ++ appends.map Record.decoded)
  := by
  rw [appended, List.flatMap_map]
  apply h.append
  exact splits_encoded (fun r hr => Record.reads (hrange r hr))

/-- A process that opens the log, replays it, and appends records. -/
def session (log : Bytes) (appends : List Record) : Bytes :=
  appended (replay log).2 (appends.map .returning)

/-- After any number of such processes the log holds, behind the records of the first replay, those
that were appended, and the next replay leaves it as it is. -/
theorem replay_sessions (log : Bytes) {sessions : List (List Record)}
    (h : ∀ appends ∈ sessions, ∀ r ∈ appends, r.InRange) :
  replay (sessions.foldl session (replay log).2)
    = ((replay log).1 ++ sessions.flatten.map Record.decoded,
      sessions.foldl session (replay log).2)
  := by
  apply replay_of_splits
  induction sessions using List.reverseRecOn with
  | nil =>
      rw [List.flatten_nil, List.map_nil, List.append_nil]
      exact (replays log).splits
  | append_singleton sessions appends ih =>
      have hbefore := ih (fun a ha => h a (List.mem_append_left _ ha))
      rw [List.foldl_concat, session, replay_of_splits hbefore, List.flatten_concat, List.map_append,
        ← List.append_assoc]
      apply splits_appended hbefore
      exact h appends List.mem_concat_self

/-- Replay applies the records of the longest prefix of the log that splits into records, and keeps
this prefix.  Replayed again, the log gives the same records and keeps its contents, and the records
appended in between follow them.  Of a log of encoded records that ends in a part of one more, exactly
these records are applied. -/
theorem replay_appended (contents : Bytes) :
  ∃ records kept, replay contents = (records, kept)
    ∧ Replays contents records kept
    ∧ (∀ fuel, contents.length ≤ fuel →
      prefixFrames decodeFrame fuel contents = (records, kept.length))
    ∧ replay kept = (records, kept)
    ∧ (∀ appends : List Record, (∀ r ∈ appends, r.InRange) →
      replay (appended kept (appends.map .returning))
        = (records ++ appends.map Record.decoded, appended kept (appends.map .returning)))
    ∧ (∀ (encoded : List Record) (torn : Record) (n : ℕ), (∀ r ∈ encoded, r.InRange) →
      torn.InRange → n < torn.encode.length →
      contents = encoded.flatMap Record.encode ++ torn.encode.take n →
      records = encoded.map Record.decoded)
  := by
  have hreplays := replays contents
  refine ⟨(replay contents).1, (replay contents).2, rfl, hreplays, ?_,
    replay_of_splits hreplays.splits, ?_, ?_⟩
  · intro fuel hfuel
    rw [replayLog_rounds contents hfuel, ← hreplays.consumed]
    exact Prod.ext rfl (sum_bytesConsumed contents).symm
  · intro appends hrange
    exact replay_of_splits (splits_appended hreplays.splits hrange)
  · rintro encoded torn n hrange htorn hn rfl
    have hframes := prefixFrames_encoded (fun r hr => Record.reads (hrange r hr))
      (Record.decodeFrame_take htorn hn) (le_refl _)
    exact congrArg Prod.fst hframes

end TinyLsm
