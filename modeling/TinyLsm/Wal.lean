import TinyLsm.Operation

/-!
# The write-ahead log

`WriteAheadLog::Replay` reads records off the front of the log until one does not decode,
applies them, and reports where the rest is to be cut off.  On the log of a sequence of
operations followed by bytes that do not decode, it applies exactly these operations
(`replayLog_encodeOps`).
-/

namespace TinyLsm

open Framing

/-- The bytes `WriteAheadLog::Append` leaves in the log for an operation. -/
def Op.encode (op : Op) : Bytes :=
  op.record.encode

/-- The log after a sequence of appends. -/
def encodeOps (ops : List Op) : Bytes :=
  ops.flatMap Op.encode

/-- The loop of `WriteAheadLog::Replay`: the records it applies, and `valid_end`. -/
def replayLog (log : Bytes) : List DecodedRecord × ℕ :=
  prefixFrames decodeFrame log.length log

/-- The `ApplyFn` the constructor of `Database` replays with. -/
def MemTable.replay (m : MemTable) (r : DecodedRecord) : MemTable :=
  match r.type with
  | .put => m.put r.key r.value
  | .delete => m.remove r.key

@[simp]
theorem encodeOps_nil :
  encodeOps [] = []
  := rfl

@[simp]
theorem encodeOps_append (ops ops' : List Op) :
  encodeOps (ops ++ ops') = encodeOps ops ++ encodeOps ops'
  := List.flatMap_append

@[simp]
theorem encodeOps_singleton (op : Op) :
  encodeOps [op] = op.encode
  := List.append_nil _

theorem Op.encode_ne_nil (op : Op) :
  op.encode ≠ []
  := encodeRecord_ne_nil _ _ _

@[simp]
theorem MemTable.replay_decoded (m : MemTable) (op : Op) :
  m.replay op.record.decoded = m.apply op
  := by
  cases op with
  | put key value => rfl
  | remove key => rfl

theorem foldl_replay_decoded (m : MemTable) (ops : List Op) :
  (ops.map (fun op => op.record.decoded)).foldl MemTable.replay m = ops.foldl MemTable.apply m
  := by
  rw [List.foldl_map]
  simp only [MemTable.replay_decoded]

/-- Replaying the log of operations in range, followed by bytes that do not decode, finds
these operations and where they end. -/
theorem replayLog_encodeOps {ops : List Op} (h : ∀ op ∈ ops, op.InRange) {tail : Bytes}
    (htail : decodeFrame tail = none) :
  replayLog (encodeOps ops ++ tail)
    = (ops.map (fun op => op.record.decoded), (encodeOps ops).length)
  := by
  have hread : ∀ op ∈ ops,
      Reads decodeFrame Op.encode (fun op => op.record.decoded) op :=
    fun op hop => Record.reads (h op hop)
  apply prefixFrames_encoded hread htail (le_refl _)

/-- What an append has written so far, if it is not the whole record, does not decode. -/
theorem Op.decodeFrame_prefix {op : Op} (h : op.InRange) {written rest : Bytes}
    (hsplit : written ++ rest = op.encode) (hrest : rest ≠ []) :
  decodeFrame written = none
  := by
  have hpos := List.length_pos_iff.mpr hrest
  have hlen := congrArg List.length hsplit
  rw [List.length_append] at hlen
  have htake : written = op.record.encode.take written.length := by
    rw [← Op.encode, ← hsplit, List.take_left]
  rw [htake]
  apply Record.decodeFrame_take h
  rw [← Op.encode]
  omega

end TinyLsm
