import TinyLsm.Refinement

/-!
# Failed appends

A call of `WriteAheadLog::Append` that throws leaves a part of its record in the log, and
the next record is appended behind it.  Replay reads the log from its front and stops at the
first bytes that do not decode, so the records of the calls that returned are applied exactly
when what the failed calls before each of them have left decodes to its end
(`acknowledged_applied_iff`).
-/

namespace TinyLsm

open Framing Transition

/-- A call of `WriteAheadLog::Append` on the open log. -/
structure AppendCall where
  record : Record
  /-- The number of bytes `WriteAll` has delivered, if the call throws. -/
  threw : Option ℕ
deriving DecidableEq

namespace AppendCall

def returned (c : AppendCall) : Bool :=
  c.threw.isNone

/-- What the call leaves in the log. -/
def bytes (c : AppendCall) : Bytes :=
  match c.threw with
  | none => c.record.encode
  | some delivered => c.record.encode.take delivered

end AppendCall

/-- The log after a sequence of calls. -/
def appended (log : Bytes) (calls : List AppendCall) : Bytes :=
  log ++ calls.flatMap AppendCall.bytes

/-- What stands in the log behind the record of the last call that returned. -/
def leftBehind (log : Bytes) (calls : List AppendCall) : Bytes :=
  calls.foldl (fun left c => if c.returned then [] else left ++ c.bytes) log

/-- The records of the calls that returned. -/
def acknowledged (calls : List AppendCall) : List DecodedRecord :=
  (calls.filter AppendCall.returned).map (fun c => c.record.decoded)

/-- Replay applies the record that stands at this position of the log. -/
def AppliesAt (log : Bytes) (position : ℕ) (r : DecodedRecord) : Prop :=
  ∃ before after, (replayLog log).1 = before ++ r :: after
    ∧ (before.map DecodedRecord.bytesConsumed).sum = position

/-- Replay applies the record of every call that returned, where the call has put it. -/
def AcknowledgedApplied (log : Bytes) (calls : List AppendCall) : Prop :=
  ∀ before c after, calls = before ++ c :: after → c.returned →
    AppliesAt (appended log calls) (appended log before).length c.record.decoded

/-- Before every call that returned, what stands behind the last record of a call that
returned decodes to its end. -/
def LeftoversWhole (log : Bytes) (calls : List AppendCall) : Prop :=
  ∀ before c after, calls = before ++ c :: after → c.returned →
    Whole decodeFrame (leftBehind log before)

/-! ### Replay of a failed log -/

@[simp]
theorem appended_append (log : Bytes) (calls calls' : List AppendCall) :
  appended log (calls ++ calls') = appended log calls ++ calls'.flatMap AppendCall.bytes
  := by
  simp [appended]

theorem leftBehind_concat (log : Bytes) (calls : List AppendCall) (c : AppendCall) :
  leftBehind log (calls ++ [c]) = if c.returned then [] else leftBehind log calls ++ c.bytes
  := by
  rw [leftBehind, List.foldl_append]
  rfl

theorem AppendCall.bytes_of_returned {c : AppendCall} (h : c.returned = true) :
  c.bytes = c.record.encode
  := by
  rw [returned, Option.isNone_iff_eq_none] at h
  rw [bytes, h]

/-- After a whole log, the records of the rest are applied. -/
theorem replayLog_append {log : Bytes} (h : Whole decodeFrame log) (rest : Bytes) :
  replayLog (log ++ rest)
    = ((replayLog log).1 ++ (replayLog rest).1, log.length + (replayLog rest).2)
  := prefixFrames_append exact_decodeFrame h rest

theorem replayLog_encode {r : Record} (h : r.InRange) (rest : Bytes) :
  replayLog (r.encode ++ rest)
    = (r.decoded :: (replayLog rest).1, r.encode.length + (replayLog rest).2)
  := by
  have hread := prefixFrames_of_some exact_decodeFrame ((Record.reads h).2 rest)
  rw [List.drop_left] at hread
  exact hread

theorem whole_encode {r : Record} (h : r.InRange) :
  Whole decodeFrame r.encode
  := by
  have hread := replayLog_encode h []
  rw [List.append_nil] at hread
  change (replayLog r.encode).2 = r.encode.length
  rw [hread]
  rfl

/-- The sizes of the records that are applied sum up to where they end. -/
theorem sum_bytesConsumed (log : Bytes) :
  ((replayLog log).1.map DecodedRecord.bytesConsumed).sum = (replayLog log).2
  := by
  obtain ⟨hsplits, hend, -⟩ := splits_prefixFrames exact_decodeFrame log
  rw [replayLog, hsplits.sum_size exact_decodeFrame, List.length_take, Nat.min_eq_left hend]

/-- The record behind a whole log is applied. -/
theorem appliesAt_of_whole {log : Bytes} (h : Whole decodeFrame log) {r : Record}
    (hr : r.InRange) (rest : Bytes) :
  AppliesAt (log ++ (r.encode ++ rest)) log.length r.decoded
  := by
  refine ⟨(replayLog log).1, (replayLog rest).1, ?_, ?_⟩
  · rw [replayLog_append h, replayLog_encode hr]
  · rw [sum_bytesConsumed]
    exact h

/-- A record is applied only behind a whole log. -/
theorem whole_of_appliesAt {log rest : Bytes} {r : DecodedRecord}
    (h : AppliesAt (log ++ rest) log.length r) :
  Whole decodeFrame log
  := by
  obtain ⟨before, after, hframes, hsum⟩ := h
  have hwhole := whole_take_of_prefixFrames exact_decodeFrame hframes
  rw [hsum, List.take_left] at hwhole
  exact hwhole

/-! ### In the database -/

/-- The steps of a call of `put` or `remove` that does not flush, or whose `Append` throws
after the given number of bytes. -/
def appendActions (op : Op) : Option ℕ → List Action
  | none => [.call op, .writer op.encode.length, .writer 0, .writer 0]
  | some 0 => [.call op, .writerFail false]
  | some (n + 1) => [.call op, .writer (n + 1), .writerFail false]

/-- The call in the history that stands for these steps. -/
def appendCall (op : Op) (threw : Option ℕ) : Call :=
  ⟨op, if threw.isNone then .returned else .threw false⟩

/-- The MemTable after a call. -/
def MemTable.afterAppend (m : MemTable) (op : Op) (threw : Option ℕ) : MemTable :=
  if threw.isNone then m.apply op else m

section Steps

variable {p : Process} {disk : DbDisk} {calls : List Call} {op : Op}

theorem step_call (hw : p.writer = .idle) :
  step ⟨disk, .running p, calls⟩ (.call op)
    = some ⟨disk, .running { p with writer := .appending op op.encode }, calls⟩
  := by
  simp [step, Status.move, hw, State.after, Move.files, Move.silent]

theorem step_append {rest : Bytes} {n : ℕ} (hw : p.writer = .appending op rest) (hn : 0 < n)
    (hle : n ≤ rest.length) :
  step ⟨disk, .running p, calls⟩ (.writer n)
    = some ⟨(FileSystem.Syscall.append .walLog (rest.take n)).exec disk,
      .running { p with writer := .appending op (rest.drop n) }, calls⟩
  := by
  cases rest with
  | nil =>
      rw [List.length_nil] at hle
      omega
  | cons b bs =>
      rw [List.length_cons] at hle
      simp [step, Status.move, Process.writerMove, hw, State.after, Move.files, hn, hle]

theorem step_appendFail {rest : Bytes} (hw : p.writer = .appending op rest) :
  step ⟨disk, .running p, calls⟩ (.writerFail false)
    = some ⟨disk, .running { p with writer := .idle }, calls ++ [⟨op, .threw false⟩]⟩
  := by
  cases rest with
  | nil =>
      simp [step, Status.move, Process.writerFailMove, hw, State.after, Move.files, Process.threw]
  | cons b bs =>
      simp [step, Status.move, Process.writerFailMove, hw, State.after, Move.files, Process.threw]

theorem step_sync (hw : p.writer = .appending op []) :
  step ⟨disk, .running p, calls⟩ (.writer 0)
    = some ⟨disk, .running { p with writer := .applying op }, calls⟩
  := by
  simp [step, Status.move, Process.writerMove, hw, State.after, Move.files,
    FileSystem.Syscall.exec]

theorem step_apply (hw : p.writer = .applying op)
    (hflush : { p.db with memtable := p.db.memtable.apply op }.needsFlush = false) :
  step ⟨disk, .running p, calls⟩ (.writer 0)
    = some ⟨disk, .running { p with
        db.memtable := p.db.memtable.apply op
        writer := .idle }, calls ++ [⟨op, .returned⟩]⟩
  := by
  simp [step, Status.move, Process.writerMove, hw, State.after, Move.files, Process.applied,
    hflush, Process.returned]

/-- A call of `put` or `remove` changes the log as a call of `Append` does. -/
theorem run_appendActions (calls : List Call) {log : Bytes} {threw : Option ℕ} (hw : p.writer = .idle)
    (hlog : disk.find? .walLog = some log) (hle : ∀ n, threw = some n → n ≤ op.encode.length)
    (hflush : threw = none →
      { p.db with memtable := p.db.memtable.apply op }.needsFlush = false) :
  ∃ disk', run step ⟨disk, .running p, calls⟩ (appendActions op threw)
      = some ⟨disk', .running { p with
          db.memtable := p.db.memtable.afterAppend op threw }, calls ++ [appendCall op threw]⟩
    ∧ disk'.find? .walLog = some (log ++ (AppendCall.mk op.record threw).bytes)
  := by
  have hpos : 0 < op.encode.length := List.length_pos_iff.mpr op.encode_ne_nil
  have happend : ∀ n, ((FileSystem.Syscall.append .walLog (op.encode.take n)).exec disk).find?
      .walLog = some (log ++ op.encode.take n) := by
    intro n
    simp [FileSystem.Syscall.exec, hlog]
  cases threw with
  | none =>
      refine ⟨_, ?_, (happend op.encode.length).trans (by rw [List.take_length]; rfl)⟩
      rw [appendActions, run, step_call hw, Option.bind_some, run,
        step_append rfl hpos (le_refl _), Option.bind_some, List.drop_length, run, step_sync rfl,
        Option.bind_some, run, step_apply (p := { p with writer := .applying op }) rfl (hflush rfl),
        Option.bind_some, run]
      simp [MemTable.afterAppend, appendCall, ← hw]
  | some n =>
      have hn := hle n rfl
      cases n with
      | zero =>
          refine ⟨disk, ?_, by simp [hlog, AppendCall.bytes]⟩
          rw [appendActions, run, step_call hw, Option.bind_some, run, step_appendFail rfl,
            Option.bind_some, run]
          simp [MemTable.afterAppend, appendCall, ← hw]
      | succ n =>
          refine ⟨_, ?_, happend (n + 1)⟩
          rw [appendActions, run, step_call hw, Option.bind_some, run,
            step_append rfl (by omega) hn, Option.bind_some, run, step_appendFail rfl,
            Option.bind_some, run]
          simp [MemTable.afterAppend, appendCall, ← hw]

/-- The MemTable after a sequence of calls. -/
def MemTable.afterAppends (m : MemTable) (appends : List (Op × Option ℕ)) : MemTable :=
  appends.foldl (fun m a => m.afterAppend a.1 a.2) m

/-- No call of the sequence flushes, and no call delivers more than its record. -/
def Database.Appends (db : Database) : List (Op × Option ℕ) → Prop
  | [] => True
  | (op, threw) :: appends =>
      (∀ n, threw = some n → n ≤ op.encode.length)
        ∧ (threw = none → { db with memtable := db.memtable.apply op }.needsFlush = false)
        ∧ { db with memtable := db.memtable.afterAppend op threw }.Appends appends

/-- Calls of `put` and `remove` that do not flush change the log as a sequence of calls of
`Append` does, and a database opened afterwards has replayed this log. -/
theorem run_appends (p : Process) (calls : List Call) {log : Bytes}
    {appends : List (Op × Option ℕ)} (hw : p.writer = .idle) (hlog : disk.find? .walLog = some log) (happends : p.db.Appends appends) :
  ∃ t q, run step ⟨disk, .running p, calls⟩ (appends.flatMap (fun a => appendActions a.1 a.2))
      = some t ∧ t.status = .running q ∧ q.writer = .idle
    ∧ t.calls = calls ++ appends.map (fun a => appendCall a.1 a.2)
    ∧ ∀ thr trig db disk', Database.construct thr trig t.disk = .ok (db, disk') →
      db.memtable = (replayLog (appended log
        (appends.map (fun a => ⟨a.1.record, a.2⟩)))).1.foldl MemTable.replay MemTable.empty
  := by
  induction appends generalizing p disk log calls with
  | nil =>
      refine ⟨_, p, rfl, rfl, hw, by simp, ?_⟩
      intro thr trig db disk' hconstruct
      rw [memtable_of_construct hconstruct, hlog, Option.getD_some, List.map_nil, appended,
        List.flatMap_nil, List.append_nil]
  | cons a appends ih =>
      obtain ⟨op, threw⟩ := a
      obtain ⟨hle, hflush, hrest⟩ := happends
      obtain ⟨disk₁, hrun, hlog₁⟩ := run_appendActions calls hw hlog hle hflush
      obtain ⟨t, q, hrun', hq, hidle, hcalls, hmem⟩ :=
        ih { p with db.memtable := p.db.memtable.afterAppend op threw }
          (calls ++ [appendCall op threw]) hw hlog₁ hrest
      refine ⟨t, q, ?_, hq, hidle, ?_, ?_⟩
      · rw [List.flatMap_cons, run_append, hrun, Option.bind_some, hrun']
      · simp [hcalls]
      · intro thr trig db disk' hconstruct
        rw [hmem thr trig db disk' hconstruct]
        simp [appended]

end Steps

/-! ### Calls that return after calls that throw -/

/-- Where leftovers are whole, the log up to them is whole and has the records of the calls
that returned, in order. -/
theorem LeftoversWhole.exists_whole {log : Bytes} {calls : List AppendCall}
    (h : LeftoversWhole log calls) (hin : ∀ c ∈ calls, c.record.InRange) :
  ∃ whole, appended log calls = whole ++ leftBehind log calls ∧ Whole decodeFrame whole
    ∧ (acknowledged calls).Sublist (replayLog whole).1
  := by
  induction calls using List.reverseRecOn with
  | nil => exact ⟨[], by simp [appended, leftBehind], rfl, by simp [acknowledged]⟩
  | append_singleton calls c ih =>
      have hin' : ∀ c' ∈ calls, c'.record.InRange := fun c' hc' => hin c' (by simp [hc'])
      obtain ⟨whole, hlog, hwhole, hsub⟩ := ih
        (fun before c' after heq => h before c' (after ++ [c]) (by simp [heq])) hin'
      rw [leftBehind_concat, appended_append]
      cases hc : c.returned with
      | true =>
          have hrange := hin c (by simp)
          have hleft := h calls c [] rfl hc
          have hbefore : Whole decodeFrame (whole ++ leftBehind log calls) :=
            (Whole.append_iff exact_decodeFrame hwhole _).mpr hleft
          have hafter := (Whole.append_iff exact_decodeFrame hbefore c.record.encode).mpr
            (whole_encode hrange)
          refine ⟨_, ?_, hafter, ?_⟩
          · simp [hlog, AppendCall.bytes_of_returned hc]
          · have hlast := replayLog_encode hrange []
            rw [List.append_nil] at hlast
            rw [replayLog_append hbefore, replayLog_append hwhole, hlast]
            simp only [acknowledged, List.filter_append, List.map_append]
            apply List.Sublist.append (hsub.trans (List.sublist_append_left _ _))
            simp [hc, replayLog, prefixFrames]
      | false =>
          refine ⟨whole, ?_, hwhole, ?_⟩
          · simp [hlog]
          · simpa [acknowledged, hc] using hsub

theorem LeftoversWhole.before {log : Bytes} {before after : List AppendCall}
    (h : LeftoversWhole log (before ++ after)) :
  LeftoversWhole log before
  := by
  intro before' c after' heq
  exact h before' c (after' ++ after) (by simp [heq])

/-- Whatever calls throw and whatever they leave, a later Replay applies the records of the
calls that returned exactly when, before each of these, what the failed calls have left
decodes to its end.  It then applies these records in their order. -/
theorem acknowledged_applied_iff {log : Bytes} {calls : List AppendCall}
    (hin : ∀ c ∈ calls, c.record.InRange) :
  (AcknowledgedApplied log calls ↔ LeftoversWhole log calls)
    ∧ (AcknowledgedApplied log calls →
      (acknowledged calls).Sublist (replayLog (appended log calls)).1)
  := by
  have hiff : AcknowledgedApplied log calls ↔ LeftoversWhole log calls := by
    constructor
    · intro happlied before c after
      -- By induction on the position of the call: the leftovers before are whole.
      induction hlen : before.length using Nat.strongRecOn generalizing before c after with
      | _ len ih =>
          intro heq hc
          have hbefore : LeftoversWhole log before := by
            intro before' c' after' heq' hc'
            apply ih before'.length _ before' c' (after' ++ c :: after) rfl _ hc'
            · rw [← hlen, heq']
              simp
            · simp [heq, heq']
          obtain ⟨whole, hlog, hwhole, -⟩ := hbefore.exists_whole
            (fun c' hc' => hin c' (by simp [heq, hc']))
          have happly := happlied before c after heq hc
          rw [heq, appended_append] at happly
          have hlogwhole := whole_of_appliesAt happly
          rw [hlog] at hlogwhole
          exact (Whole.append_iff exact_decodeFrame hwhole _).mp hlogwhole
    · intro hleft before c after heq hc
      subst heq
      obtain ⟨whole, hlog, hwhole, -⟩ := hleft.before.exists_whole
        (fun c' hc' => hin c' (by simp [hc']))
      have hbefore : Whole decodeFrame (appended log before) := by
        rw [hlog]
        exact (Whole.append_iff exact_decodeFrame hwhole _).mpr (hleft before c after rfl hc)
      rw [appended_append, List.flatMap_cons, AppendCall.bytes_of_returned hc]
      exact appliesAt_of_whole hbefore (hin c (by simp)) _
  refine ⟨hiff, ?_⟩
  intro happlied
  obtain ⟨whole, hlog, hwhole, hsub⟩ := (hiff.mp happlied).exists_whole hin
  rw [hlog, replayLog_append hwhole]
  exact hsub.trans (List.sublist_append_left _ _)

/-- Calls that throw before the first byte and in the `fsync`, between two that return. -/
def settledCalls : List AppendCall :=
  [⟨⟨.put, [97], [1]⟩, some 0⟩, ⟨⟨.put, [98], [1]⟩, none⟩, ⟨⟨.put, [99], [1]⟩, some 15⟩,
    ⟨⟨.delete, [98], []⟩, none⟩]

theorem acknowledged_applied_iff_settled :
  (∀ c ∈ settledCalls, c.record.InRange)
    ∧ (AcknowledgedApplied [] settledCalls ↔ LeftoversWhole [] settledCalls)
  := ⟨by decide, (acknowledged_applied_iff (by decide)).1⟩

/-- Calls that throw leave the log whole if they deliver nothing or their whole record. -/
theorem leftoversWhole_of_settled {log : Bytes} {calls : List AppendCall}
    (hlog : Whole decodeFrame log) (hin : ∀ c ∈ calls, c.record.InRange)
    (h : ∀ c ∈ calls, c.returned = false → c.bytes = [] ∨ c.bytes = c.record.encode) :
  LeftoversWhole log calls
  := by
  have hwhole : ∀ before, before <+: calls → Whole decodeFrame (leftBehind log before) := by
    intro before hprefix
    induction before using List.reverseRecOn with
    | nil => exact hlog
    | append_singleton before c ih =>
        have hmem : c ∈ calls := hprefix.subset (by simp)
        have hbefore := ih ((List.prefix_append _ _).trans hprefix)
        rw [leftBehind_concat]
        cases hc : c.returned with
        | true => exact whole_nil
        | false =>
            simp only [Bool.false_eq_true, if_false]
            apply (Whole.append_iff exact_decodeFrame hbefore _).mpr
            rcases h c hmem hc with hnone | hall
            · rw [hnone]
              exact whole_nil
            · rw [hall]
              exact whole_encode (hin c hmem)
  intro before c after heq _
  exact hwhole before ⟨c :: after, heq.symm⟩

/-- A `put` that throws after the first byte of its record, and one that returns. -/
def tornRun : List Action :=
  [launchActions 99 9, appendActions (.put [97] [1]) (some 1),
    appendActions (.put [98] [1]) none].flatten

/-- The last call is a `put` of the key `b` that has returned, and the directory opens to a
database without it. -/
def State.losesLast (s : State) : Bool :=
  match s.status, step s .close with
  | .running _, some t =>
      decide (s.calls.getLast? = some ⟨.put [98] [1], .returned⟩) &&
        match Database.construct 99 9 t.disk with
        | .ok (db, _) => db.get [98] = .ok none
        | .error _ => false
  | _, _ => false

/-- After one byte of a record, the record of the next call is lost, and in the database so
is the `put` that returned. -/
theorem not_acknowledged_applied :
  (¬ ∀ (log : Bytes) (calls : List AppendCall), (∀ c ∈ calls, c.record.InRange) →
      (acknowledged calls).Sublist (replayLog (appended log calls)).1)
    ∧ ¬ ∀ (s t : State) (p : Process) (before : List Call) (key value : Bytes),
      Reaches step (fun _ a _ => a.InRange ∧ (a.noFailure ∨ ∃ late, a = .writerFail late))
        State.init s →
      s.status = .running p → s.calls = before ++ [⟨.put key value, .returned⟩] →
      step s .close = some t →
      ∃ db disk, Database.construct 99 9 t.disk = .ok (db, disk)
        ∧ db.get key = .ok (some value)
  := by
  constructor
  · intro hall
    have hsub := hall [] [⟨⟨.put, [97], [1]⟩, some 1⟩, ⟨⟨.put, [98], [1]⟩, none⟩] (by decide)
    exact absurd hsub (by decide +kernel)
  · intro hall
    have hrun : (run (guarded step (fun _ a => decide a.InRange && (a.noFailure
        || match a with
          | .writerFail _ => true
          | _ => false))) State.init tornRun).any State.losesLast = true := by
      decide +kernel
    obtain ⟨s, hs, hloses⟩ := exists_of_run hrun
    have hreach : Reaches step
        (fun _ a _ => a.InRange ∧ (a.noFailure ∨ ∃ late, a = .writerFail late))
        State.init s := by
      apply Reaches.of_run hs
      intro s a t ha
      simp only [Bool.and_eq_true, decide_eq_true_eq, Bool.or_eq_true] at ha
      refine ⟨ha.1, ha.2.imp id ?_⟩
      intro hfail
      split at hfail
      · exact ⟨_, rfl⟩
      · simp at hfail
    rw [State.losesLast] at hloses
    split at hloses
    · rename_i p t hp hclose
      simp only [Bool.and_eq_true, decide_eq_true_eq] at hloses
      obtain ⟨hlast, hlost⟩ := hloses
      obtain ⟨before, hcalls⟩ := List.getLast?_eq_some_iff.mp hlast
      obtain ⟨db, disk, hconstruct, hget⟩ := hall s t p before _ _ hreach hp hcalls hclose
      simp only [hconstruct, decide_eq_true_eq] at hlost
      rw [hget] at hlost
      exact absurd hlost (by decide)
    · simp at hloses

end TinyLsm
